import ErasureCodec.Codec.Construct
import ErasureCodec.Field.Galois8
import ErasureCodec.Framework.TryForEach
import ErasureCodec.Math.Slices

namespace ErasureCodec

namespace Stream

abbrev Byte := Galois8

section Errors

/-- The kinds of `std::io::Error` that the loops tell apart. -/
inductive IoErrorKind where
  | interrupted
  | writeZero
  | other
  deriving Repr, DecidableEq

structure IoError where
  kind : IoErrorKind
  message : String
  deriving Repr, DecidableEq

inductive StreamErrorKind where
  | read (e : IoError)
  | write (e : IoError)
  | codec (e : Error)
  deriving Repr, DecidableEq

structure StreamError where
  shardIndex : Nat
  kind : StreamErrorKind
  deriving Repr, DecidableEq

namespace StreamError

def read (shardIndex : Nat) (e : IoError) : StreamError := ⟨shardIndex, .read e⟩

def write (shardIndex : Nat) (e : IoError) : StreamError := ⟨shardIndex, .write e⟩

def codec (shardIndex : Nat) (e : Error) : StreamError := ⟨shardIndex, .codec e⟩

end StreamError

/-- `take_stream_error`. -/
def takeStreamError (firstError : Option StreamError) (fallback : StreamError) : StreamError :=
  firstError.getD fallback

/-- `record_min_error`, in the critical section of its mutex. -/
def recordMinError (firstError : Option StreamError) (cand : StreamError) : Option StreamError :=
  match firstError with
  | some existing => if cand.shardIndex < existing.shardIndex then some cand else some existing
  | none => some cand

end Errors

section Writers

/-- The answer to one call of `write`. -/
inductive WriteReply where
  | accept (n : Nat)
  | error (e : IoError)
  deriving Repr, DecidableEq

/-- A writer: its next answers, and the bytes it has taken. When the answers run
out it takes all it is given. -/
structure Writer where
  script : List WriteReply
  written : List Byte
  deriving DecidableEq

/-- `Write::write`. -/
def Writer.write (writer : Writer) (buf : List Byte) : Except IoError Nat × Writer :=
  match writer.script with
  | [] => (.ok buf.length, { writer with written := writer.written ++ buf })
  | .accept n :: script =>
    (.ok (min n buf.length), ⟨script, writer.written ++ buf.take n⟩)
  | .error e :: script => (.error e, ⟨script, writer.written⟩)

def writeZeroError : IoError := ⟨.writeZero, "write returned 0"⟩

theorem Writer.write_ok {writer writer' : Writer} {buf : List Byte} {n : Nat}
    (h : writer.write buf = (.ok n, writer')) : writer'.script.length ≤ writer.script.length ∧
      n ≤ buf.length ∧ writer'.written = writer.written ++ buf.take n := by
  unfold Writer.write at h
  split at h
  · obtain ⟨h1, rfl⟩ := Prod.mk.inj h
    obtain rfl : buf.length = n := by simpa using h1
    simp
  · rename_i m script hscript
    obtain ⟨h1, rfl⟩ := Prod.mk.inj h
    obtain rfl : min m buf.length = n := by simpa using h1
    refine ⟨by simp [hscript], Nat.min_le_right _ _, ?_⟩
    simp [List.take_eq_take_min]
  · simp at h

theorem Writer.write_error {writer writer' : Writer} {buf : List Byte} {e : IoError}
    (h : writer.write buf = (.error e, writer')) :
    writer'.script.length < writer.script.length ∧ writer'.written = writer.written := by
  unfold Writer.write at h
  split at h
  · simp at h
  · simp at h
  · rename_i e' script hscript
    obtain ⟨-, rfl⟩ := Prod.mk.inj h
    simp [hscript]

/-- The write loop of `write_block`, `write_block_par` and `write_all`, with the
error for a writer that takes nothing: bytes `written..len` of the buffer are
still to be written. -/
def writeLoop (zero : IoError) (writer : Writer) (buf : List Byte) (len written : Nat) :
    Except IoError Unit × Writer :=
  if _hlt : written < len then
    match h : writer.write (slice buf written len) with
    | (.ok 0, writer) => (.error zero, writer)
    | (.ok (n + 1), writer) => writeLoop zero writer buf len (written + (n + 1))
    | (.error e, writer) =>
      if e.kind = .interrupted then writeLoop zero writer buf len written else (.error e, writer)
  else (.ok (), writer)
termination_by writer.script.length + (len - written)
decreasing_by
  · have := (Writer.write_ok h).1
    omega
  · have := (Writer.write_error h).1
    omega

/-- `write_block`: the writers one after the other, up to the first that fails. -/
def writeBlock (writers : List Writer) (buffers : List (List Byte)) (len shardOffset : Nat) :
    Except StreamError Unit × List Writer :=
  match writers, buffers with
  | writer :: writers, buf :: buffers =>
    match writeLoop writeZeroError writer buf len 0 with
    | (.ok (), writer) =>
      let rest := writeBlock writers buffers len (shardOffset + 1)
      (rest.1, writer :: rest.2)
    | (.error e, writer) => (.error (.write shardOffset e), writer :: writers)
  | writers, _ => (.ok (), writers)

end Writers

section ParallelWrite

/-- How writer `i` ends when its task runs. -/
def writeFate (writers : List Writer) (buffers : List (List Byte)) (len i : Nat) :
    Option IoError :=
  match writers[i]?, buffers[i]? with
  | some writer, some buf =>
    match (writeLoop writeZeroError writer buf len 0).1 with
    | .ok () => none
    | .error e => some e
  | _, _ => none

/-- The tasks of `write_block_par`. -/
def writeBlockPar (writers : List Writer) (buffers : List (List Byte)) (len shardOffset : Nat) :
    TryForEach.Job IoError (Option StreamError) where
  count := min writers.length buffers.length
  fate := writeFate writers buffers len
  record firstError i e := recordMinError firstError (.write (shardOffset + i) e)

/-- What `write_block_par` returns in a state where all tasks are done. -/
def writeBlockParResult (job : TryForEach.Job IoError (Option StreamError))
    (shardOffset : Nat) (s : TryForEach.State (Option StreamError)) : Except StreamError Unit :=
  if TryForEach.Failed job s then
    .error (takeStreamError s.shared
      (.write shardOffset ⟨.other, "parallel stream writer error was not reported"⟩))
  else .ok ()

variable {writers : List Writer} {buffers : List (List Byte)} {len shardOffset : Nat}

/-- A writer that ends with an error or takes no byte of a write. -/
def WriterFails (writers : List Writer) (buffers : List (List Byte)) (len i : Nat) : Prop :=
  i < min writers.length buffers.length ∧ (writeFate writers buffers len i).isSome

/-- The recorded error is the one of the least writer that told of its failure. -/
theorem recordAll_write (shardOffset : Nat) (order : List Nat)
    (hfail : ∀ i ∈ order, (writeFate writers buffers len i).isSome) :
    let job := writeBlockPar writers buffers len shardOffset
    order = [] ∧ TryForEach.recordAll job none order = none ∨
      ∃ i e, i ∈ order ∧ writeFate writers buffers len i = some e ∧
        TryForEach.recordAll job none order = some (.write (shardOffset + i) e) ∧
        ∀ j ∈ order, i ≤ j := by
  induction order using List.reverseRecOn with
  | nil => exact .inl ⟨rfl, rfl⟩
  | append_singleton order i ih =>
    right
    obtain ⟨e, he⟩ := Option.isSome_iff_exists.mp (hfail i (by simp))
    have hnew := TryForEach.recordAll_append (writeBlockPar writers buffers len shardOffset) none
      order (i := i) (e := e) he
    rw [hnew]
    rcases ih (fun j hj => hfail j (by simp [hj])) with ⟨rfl, hnone⟩ | ⟨j, e', hj, hfate, hsome, hmin⟩
    · rw [hnone]
      exact ⟨i, e, by simp, he, rfl, by simp⟩
    · rw [hsome]
      simp only [writeBlockPar, recordMinError, StreamError.write]
      by_cases hlt : i < j
      · refine ⟨i, e, by simp, he, if_pos (by omega), fun t ht => ?_⟩
        rcases List.mem_append.mp ht with ht | ht
        · have := hmin t ht
          omega
        · rw [List.mem_singleton.mp ht]
      · refine ⟨j, e', by simp [hj], hfate, if_neg (by omega), fun t ht => ?_⟩
        rcases List.mem_append.mp ht with ht | ht
        · exact hmin t ht
        · rw [List.mem_singleton.mp ht]
          omega

/-- Every run returns an error of a failing writer where there is one, and no
error otherwise. -/
theorem writeBlockParResult_cases {s : TryForEach.State (Option StreamError)}
    (h : TryForEach.Reaches (writeBlockPar writers buffers len shardOffset)
      (TryForEach.initial none) s)
    (hc : TryForEach.Complete (writeBlockPar writers buffers len shardOffset) s) :
    let result := writeBlockParResult (writeBlockPar writers buffers len shardOffset) shardOffset s
    result = .ok () ∧ (∀ i, ¬WriterFails writers buffers len i) ∨
      ∃ i e, WriterFails writers buffers len i ∧ writeFate writers buffers len i = some e ∧
        result = .error (.write (shardOffset + i) e) := by
  obtain ⟨order, -, hmem, hshared, hfailed, hsome⟩ := TryForEach.complete_run h hc
  unfold writeBlockParResult
  simp only
  by_cases hne : order = []
  · left
    rw [if_neg (fun hf => hfailed.mp hf hne)]
    exact ⟨rfl, fun i hi => hsome ⟨i, hi.1, hi.2⟩ hne⟩
  · right
    rw [if_pos (hfailed.mpr hne), hshared]
    rcases recordAll_write shardOffset order (fun i hi => (hmem i hi).2) with
      ⟨hnil, -⟩ | ⟨i, e, hi, hfate, hrec, -⟩
    · exact absurd hnil hne
    · exact ⟨i, e, hmem i hi, hfate, by rw [hrec]; rfl⟩

/-- What is asked of the parallel write: in every run, the error of the least
failing writer. -/
def DeterministicWrite (writers : List Writer) (buffers : List (List Byte))
    (len shardOffset : Nat) : Prop :=
  ∀ s, TryForEach.Reaches (writeBlockPar writers buffers len shardOffset)
      (TryForEach.initial none) s →
    TryForEach.Complete (writeBlockPar writers buffers len shardOffset) s →
    let result := writeBlockParResult (writeBlockPar writers buffers len shardOffset) shardOffset s
    (result = .ok () ↔ ∀ i, ¬WriterFails writers buffers len i) ∧
      ∀ i, WriterFails writers buffers len i →
        (∀ j, WriterFails writers buffers len j → i ≤ j) →
        ∃ e, writeFate writers buffers len i = some e ∧
          result = .error (.write (shardOffset + i) e)

/-- The larger of two failing writers may be the only one that starts. -/
theorem not_deterministicWrite {i j : Nat} (hi : WriterFails writers buffers len i)
    (hj : WriterFails writers buffers len j) (hij : i < j) :
    ¬DeterministicWrite writers buffers len shardOffset := by
  intro h
  obtain ⟨e, he⟩ := Option.isSome_iff_exists.mp hj.2
  obtain ⟨s, hs, hc, hfailed, hshared⟩ := TryForEach.exists_run_of_fails
    (J := writeBlockPar writers buffers len shardOffset) none hj.1 he
  obtain ⟨m, hm, hmin⟩ : ∃ m, WriterFails writers buffers len m ∧
      ∀ t, WriterFails writers buffers len t → m ≤ t := by
    classical
    exact ⟨Nat.find ⟨i, hi⟩, Nat.find_spec ⟨i, hi⟩, fun t ht => Nat.find_min' ⟨i, hi⟩ ht⟩
  obtain ⟨e', -, hresult⟩ := (h s hs hc).2 m hm hmin
  have hle := hmin i hi
  unfold writeBlockParResult at hresult
  rw [if_pos hfailed, hshared] at hresult
  have hindex := congrArg (fun r : Except StreamError Unit => match r with
    | .ok () => 0
    | .error e => e.shardIndex) hresult
  simp only [writeBlockPar, recordMinError, takeStreamError, StreamError.write,
    Option.getD_some] at hindex
  omega

/-- The parallel write reports the least failing writer in every run exactly
where at most one writer fails. -/
theorem write_block_par_deterministic_iff (writers : List Writer) (buffers : List (List Byte))
    (len shardOffset : Nat) : DeterministicWrite writers buffers len shardOffset ↔
      ∀ i j, WriterFails writers buffers len i → WriterFails writers buffers len j → i = j := by
  constructor
  · intro h i j hi hj
    rcases Nat.lt_trichotomy i j with hij | rfl | hji
    · exact absurd h (not_deterministicWrite hi hj hij)
    · rfl
    · exact absurd h (not_deterministicWrite hj hi hji)
  · intro hone s hs hc
    rcases writeBlockParResult_cases hs hc with ⟨hok, hnone⟩ | ⟨i, e, hi, hfate, herr⟩
    · exact ⟨⟨fun _ => hnone, fun _ => hok⟩, fun i hi => absurd hi (hnone i)⟩
    · simp only at herr ⊢
      rw [herr]
      refine ⟨⟨by simp, fun hnone => absurd hi (hnone i)⟩, fun j hj _ => ?_⟩
      obtain rfl := hone i j hi hj
      exact ⟨e, hfate, rfl⟩

theorem writeLoop_zero {zero : IoError} {writer writer' : Writer} {buf : List Byte} {written : Nat}
    (hlt : written < len) (h : writer.write (slice buf written len) = (.ok 0, writer')) :
    writeLoop zero writer buf len written = (.error zero, writer') := by
  rw [writeLoop, dif_pos hlt]
  split
  · rename_i heq
    rw [h] at heq
    rw [(Prod.mk.inj heq).2]
  · rename_i heq
    rw [h] at heq
    simp at heq
  · rename_i heq
    rw [h] at heq
    simp at heq

/-- Two writers that take nothing: a run may report the second one. -/
theorem two_closed_writers_nondeterministic :
    ¬DeterministicWrite [⟨[.accept 0], []⟩, ⟨[.accept 0], []⟩] [[0#8], [0#8]] 1 0 := by
  have hfate (i : Nat) (hi : i < 2) : writeFate [⟨[.accept 0], []⟩, ⟨[.accept 0], []⟩]
      [[0#8], [0#8]] 1 i = some writeZeroError := by
    have hloop := @writeLoop_zero 1 writeZeroError ⟨[.accept 0], []⟩ ⟨[], []⟩ [0#8] 0 (by decide) rfl
    interval_cases i <;> simp [writeFate, hloop]
  exact not_deterministicWrite (i := 0) (j := 1) ⟨by decide, by rw [hfate 0 (by decide)]; rfl⟩
    ⟨by decide, by rw [hfate 1 (by decide)]; rfl⟩ (by decide)

end ParallelWrite

end Stream

end ErasureCodec
