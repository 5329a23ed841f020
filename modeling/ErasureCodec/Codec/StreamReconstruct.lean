import ErasureCodec.Codec.StreamPlan

namespace ErasureCodec

open CodecField ReconstructShard ErasureCodec.Stream

namespace ReedSolomon

section Definitions

/-- What a stream reconstruction returns and what it leaves behind. -/
structure StreamRun where
  result : Outcome StreamError Unit
  readers : List (Option Reader)
  writers : List (Option Writer)
  cache : InversionCache Galois8

variable (codec : ReedSolomon Galois8)

/-- One stream of the layout check: exactly one of reader and writer is there. -/
def checkStreamLayout (missing : List Nat) (entry : (Option Reader × Option Writer) × Nat) :
    Outcome StreamError (List Nat) :=
  if entry.1.1.isSome = entry.1.2.isSome then .err (.codec entry.2 .invalidShardFlags)
  else if entry.1.1.isNone then .ok (missing ++ [entry.2])
  else .ok missing

/-- The checks of `reconstruct_stream_from` before any I/O: the missing indices. -/
def checkReconstructStream (readers : List (Option Reader)) (writers : List (Option Writer)) :
    Outcome StreamError (List Nat) := do
  validateStreamCount readers.length codec.totalShardCount
  validateStreamCount writers.length codec.totalShardCount
  if codec.isLeopardFamily then .err (.codec 0 .unsupportedCodecFamily)
  let missing ← (readers.zip writers).zipIdx.foldlM checkStreamLayout []
  if codec.totalShardCount - missing.length < codec.dataShardCount then
    .err (.codec 0 .tooFewShardsPresent)
  else pure missing

/-- What the block loop of `reconstruct_stream_from` does not change. -/
structure StreamBlocks where
  pool : TryForEach.Pool
  blockSize : Nat
  useParallelRead : Bool
  useParallelWrite : Bool
  missing : List Nat
  plan : ClassicReconstructPlan Galois8
  dataRows : List (List Galois8)

/-- The missing buffers resized to the block. -/
def resizeMissing (missing : List Nat) (buffers : List (List Byte)) (len : Nat) :
    List (List Byte) :=
  missing.foldl (fun buffers index => buffers.set index (resize (buffers.getD index []) len)) buffers

/-- The block loop; without fuel for its blocks it has no result. -/
def reconstructLoop (blocks : StreamBlocks) :
    Nat → Nat → List (Option Reader) → List (Option Writer) → List (List Byte) → Nat →
      Option (Outcome StreamError Unit × List (Option Reader) × List (Option Writer))
  | 0, _, _, _, _, _ => none
  | fuel + 1, time, readers, writers, buffers, actualLen =>
    let buffers := codec.reconstructBlock blocks.plan blocks.dataRows (blocks.plan.parityRows codec)
      (resizeMissing blocks.missing buffers actualLen)
    match writeMissingStreamsWithMode blocks.pool time writers buffers actualLen
      blocks.useParallelWrite with
    | (.error e, writers) => some (.err e, readers, writers)
    | (.ok (), writers) =>
      match readPresentStreamsWithMode blocks.pool (time + 1) readers buffers blocks.blockSize
        blocks.useParallelRead with
      | (.error e, readers, _) => some (.err e, readers, writers)
      | (.ok (true, _), readers, _) => some (.ok (), readers, writers)
      | (.ok (false, nextLen), readers, buffers) =>
        reconstructLoop blocks fuel (time + 2) readers writers buffers nextLen

/-- `reconstruct_stream_from`, with the threads of the pool and fuel for the blocks. -/
def reconstructStreamFrom (pool : TryForEach.Pool) (fuel : Nat) (cache : InversionCache Galois8)
    (readers : List (Option Reader)) (writers : List (Option Writer)) (options : StreamOptions) :
    Option StreamRun :=
  match codec.checkReconstructStream readers writers with
  | .err e => some ⟨.err e, readers, writers, cache⟩
  | .panic => some ⟨.panic, readers, writers, cache⟩
  | .ok missing =>
    let blockSize := clampBlockSize options.blockSize
    let useParallelRead := useParallelStreamIo options (codec.totalShardCount - missing.length)
    let useParallelWrite := useParallelStreamIo options missing.length
    match readPresentStreamsWithMode pool 0 readers (readers.map fun _ => []) blockSize
      useParallelRead with
    | (.error e, readers, _) => some ⟨.err e, readers, writers, cache⟩
    | (.ok (true, _), readers, _) => some ⟨.ok (), readers, writers, cache⟩
    | (.ok (false, actualLen), readers, buffers) =>
      match codec.streamReconstructPlan cache missing actualLen with
      | (.err e, cache) => some ⟨.err (.codec 0 e), readers, writers, cache⟩
      | (.panic, cache) => some ⟨.panic, readers, writers, cache⟩
      | (.ok plan, cache) =>
        match plan.dataRows with
        | .ok dataRows =>
          (codec.reconstructLoop
            { pool, blockSize, useParallelRead, useParallelWrite, missing, plan, dataRows }
            fuel 1 readers writers buffers actualLen).map fun run =>
              ⟨run.1, run.2.1, run.2.2, cache⟩
        | _ => some ⟨.panic, readers, writers, cache⟩

end Definitions

section Checks

variable {codec : ReedSolomon Galois8} {readers : List (Option Reader)}
  {writers : List (Option Writer)}

/-- Exactly one of reader `i` and writer `i` is there. -/
def Alternates (readers : List (Option Reader)) (writers : List (Option Writer)) (i : Nat) : Prop :=
  (readers.getD i none).isSome ≠ (writers.getD i none).isSome

/-- How many readers are there. -/
def presentCount (readers : List (Option Reader)) : Nat := readers.countP Option.isSome

/-- The requests that are refused before any I/O, in the order of the checks. -/
inductive Rejects (codec : ReedSolomon Galois8) (readers : List (Option Reader))
    (writers : List (Option Writer)) : StreamError → Prop where
  | readerCount (h : readers.length ≠ codec.totalShardCount) :
    Rejects codec readers writers (.codec 0
      (if readers.length < codec.totalShardCount then .tooFewShards else .tooManyShards))
  | writerCount (hr : readers.length = codec.totalShardCount)
    (h : writers.length ≠ codec.totalShardCount) :
    Rejects codec readers writers (.codec 0
      (if writers.length < codec.totalShardCount then .tooFewShards else .tooManyShards))
  | family (hr : readers.length = codec.totalShardCount)
    (hw : writers.length = codec.totalShardCount) (h : codec.isLeopardFamily = true) :
    Rejects codec readers writers (.codec 0 .unsupportedCodecFamily)
  | layout (hr : readers.length = codec.totalShardCount)
    (hw : writers.length = codec.totalShardCount) (hf : codec.isLeopardFamily = false) (i : Nat)
    (hi : i < codec.totalShardCount) (h : ¬Alternates readers writers i)
    (hfirst : ∀ j, j < i → Alternates readers writers j) :
    Rejects codec readers writers (.codec i .invalidShardFlags)
  | availability (hr : readers.length = codec.totalShardCount)
    (hw : writers.length = codec.totalShardCount) (hf : codec.isLeopardFamily = false)
    (halt : ∀ i, i < codec.totalShardCount → Alternates readers writers i)
    (h : presentCount readers < codec.dataShardCount) :
    Rejects codec readers writers (.codec 0 .tooFewShardsPresent)

/-- The layouts that reconstruction reads. -/
structure Accepts (codec : ReedSolomon Galois8) (readers : List (Option Reader))
    (writers : List (Option Writer)) : Prop where
  readers_length : readers.length = codec.totalShardCount
  writers_length : writers.length = codec.totalShardCount
  family : codec.isLeopardFamily = false
  alternates : ∀ i, i < codec.totalShardCount → Alternates readers writers i
  quorum : codec.dataShardCount ≤ presentCount readers

theorem validateStreamCount_eq (actual expected : Nat) : validateStreamCount actual expected =
    if actual = expected then .ok ()
    else .err (.codec 0 (if actual < expected then .tooFewShards else .tooManyShards)) := by
  unfold validateStreamCount
  by_cases hlt : actual < expected
  · rw [if_pos hlt, if_neg (by omega), if_pos hlt]
  · by_cases hgt : expected < actual
    · rw [if_neg hlt, if_pos hgt, if_neg (by omega), if_neg hlt]
    · rw [if_neg hlt, if_neg hgt, if_pos (by omega)]

theorem getD_zip {α β : Type*} {a : List α} {b : List β} {i : Nat} (ha : i < a.length)
    (hb : i < b.length) (x : α) (y : β) : (a.zip b)[i]? = some (a.getD i x, b.getD i y) := by
  rw [List.getElem?_eq_getElem (by simp; omega), List.getElem_zip, List.getD_eq_getElem _ _ ha,
    List.getD_eq_getElem _ _ hb]

/-- The layout check lists the missing streams up to the first conflict. -/
theorem foldlM_checkStreamLayout (readers : List (Option Reader))
    (writers : List (Option Writer)) (hlen : writers.length = readers.length) :
    ((readers.zip writers).zipIdx.foldlM checkStreamLayout []).Sat
      (fun missing => (∀ i, i < readers.length → Alternates readers writers i) ∧
        missing = missingIndices (lengthsOf (pendings readers)))
      (fun e => ∃ i, i < readers.length ∧ ¬Alternates readers writers i ∧
        (∀ j, j < i → Alternates readers writers j) ∧ e = .codec i .invalidShardFlags) False := by
  have hcount : (readers.zip writers).length = readers.length := by simp [hlen]
  have hlengths (i : Nat) (hi : i < readers.length) :
      (lengthsOf (pendings readers)).getD i none =
        (readers.getD i none).map fun r => r.pending.length := by
    simp only [lengthsOf, pendings, List.map_map]
    rw [getD_map_of_lt _ _ _ hi none]
    cases readers.getD i none <;> rfl
  have hloop := Outcome.Sat.foldlM_zipIdx (f := checkStreamLayout)
    (P := fun i missing => (∀ j, j < i → Alternates readers writers j) ∧
      missing = (missingIndices (lengthsOf (pendings readers))).filter (· < i))
    (Q := fun e => ∃ i, i < readers.length ∧ ¬Alternates readers writers i ∧
      (∀ j, j < i → Alternates readers writers j) ∧ e = .codec i .invalidShardFlags)
    (R := False) (readers.zip writers) 0 [] ⟨fun j hj => absurd hj (Nat.not_lt_zero j), by simp⟩
    (fun i entry hentry missing hmissing => by
      rw [Nat.zero_add] at hmissing ⊢
      obtain ⟨halt, hmissing⟩ := hmissing
      have hi : i < readers.length := by
        rw [← hcount]
        exact (List.getElem?_eq_some_iff.mp hentry).1
      rw [getD_zip hi (by omega) none none] at hentry
      obtain rfl := Option.some.inj hentry
      have hasc := ascending_missingIndices (lengthsOf (pendings readers))
      have hmem : i ∈ missingIndices (lengthsOf (pendings readers)) ↔
          (readers.getD i none).isNone = true := by
        rw [mem_missingIndices, hlengths i hi]
        simp [pendings, hi]
      unfold checkStreamLayout
      by_cases hsame : (readers.getD i none).isSome = (writers.getD i none).isSome
      · rw [if_pos hsame]
        exact ⟨i, hi, fun h => h hsame, halt, rfl⟩
      · have halt' (j : Nat) (hj : j < i + 1) : Alternates readers writers j := by
          rcases Nat.lt_succ_iff_lt_or_eq.mp hj with hj | rfl
          · exact halt j hj
          · exact hsame
        rw [if_neg hsame]
        split_ifs with hnone
        · exact ⟨halt', by rw [hmissing, hasc.filter_lt_of_mem (hmem.mpr hnone)]⟩
        · exact ⟨halt', by rw [hmissing, filter_lt_of_notMem (fun h => hnone (hmem.mp h))]⟩)
  refine hloop.mono (fun missing h => ?_) (fun e h => h) id
  rw [Nat.zero_add, hcount] at h
  refine ⟨h.1, ?_⟩
  rw [h.2, List.filter_eq_self]
  intro i hi
  have := (mem_missingIndices.mp hi).1
  simpa [pendings] using this

/-- The missing streams are those without a reader. -/
theorem length_missing_add (readers : List (Option Reader)) :
    (missingIndices (lengthsOf (pendings readers))).length + presentCount readers =
      readers.length := by
  unfold presentCount
  induction readers using List.reverseRecOn with
  | nil => rfl
  | append_singleton readers reader ih =>
    have hsplit : lengthsOf (pendings (readers ++ [reader])) =
        lengthsOf (pendings readers) ++ [reader.map fun r => r.pending.length] := by
      simp only [lengthsOf, pendings, List.map_append, List.map_cons, List.map_nil]
      cases reader <;> rfl
    rw [hsplit, missingIndices_append, List.countP_append, List.length_append,
      List.length_append, List.length_singleton]
    cases reader <;> simp <;> omega

/-- The present streams are those with a reader. -/
theorem length_present (readers : List (Option Reader)) :
    (presentIndices (lengthsOf (pendings readers))).length = presentCount readers := by
  unfold presentCount
  induction readers using List.reverseRecOn with
  | nil => rfl
  | append_singleton readers reader ih =>
    have hsplit : lengthsOf (pendings (readers ++ [reader])) =
        lengthsOf (pendings readers) ++ [reader.map fun r => r.pending.length] := by
      simp only [lengthsOf, pendings, List.map_append, List.map_cons, List.map_nil]
      cases reader <;> rfl
    rw [hsplit, presentIndices_append, List.countP_append, List.length_append, ih]
    cases reader <;> simp

/-- The checks before any I/O accept the layouts that can be read, and refuse the
others by their first defect. -/
theorem checkReconstructStream_spec (codec : ReedSolomon Galois8) (readers : List (Option Reader))
    (writers : List (Option Writer)) :
    (codec.checkReconstructStream readers writers).Sat
      (fun missing => codec.Accepts readers writers ∧
        missing = missingIndices (lengthsOf (pendings readers)))
      (fun e => codec.Rejects readers writers e) False := by
  unfold checkReconstructStream
  rw [validateStreamCount_eq, validateStreamCount_eq]
  by_cases hr : readers.length = codec.totalShardCount
  swap
  · rw [if_neg hr]
    exact .readerCount hr
  by_cases hw : writers.length = codec.totalShardCount
  swap
  · rw [if_pos hr, if_neg hw]
    exact .writerCount hr hw
  rw [if_pos hr, if_pos hw, Outcome.ok_bind, Outcome.ok_bind]
  cases hf : codec.isLeopardFamily with
  | true => exact .family hr hw hf
  | false =>
    rw [if_neg (by simp)]
    change Outcome.Sat _ _ _ (_ >>= _)
    refine Outcome.Sat.bind ((foldlM_checkStreamLayout readers writers (by omega)).mono (fun _ h => h) ?_ id) ?_
    · rintro e ⟨i, hi, halt, hfirst, rfl⟩
      exact .layout hr hw hf i (by omega) halt hfirst
    · rintro missing ⟨halt, rfl⟩
      have hsize := length_missing_add readers
      split_ifs with hfew
      · exact .availability hr hw hf (fun i hi => halt i (by omega)) (by omega)
      · exact ⟨⟨hr, hw, hf, fun i hi => halt i (by omega), by omega⟩, rfl⟩

theorem Accepts.check_eq (h : codec.Accepts readers writers) :
    codec.checkReconstructStream readers writers =
      .ok (missingIndices (lengthsOf (pendings readers))) := by
  have hspec := checkReconstructStream_spec codec readers writers
  rcases hres : codec.checkReconstructStream readers writers with missing | e | _
  · rw [hres] at hspec
    rw [hspec.2]
  · rw [hres] at hspec
    exfalso
    cases hspec with
    | readerCount hr => exact hr h.readers_length
    | writerCount _ hw => exact hw h.writers_length
    | family _ _ hf => rw [h.family] at hf; cases hf
    | layout _ _ _ i hi halt _ => exact halt (h.alternates i hi)
    | availability _ _ _ _ hfew => exact absurd h.quorum (by omega)
  · rw [hres] at hspec
    exact hspec.elim

theorem Rejects.check_eq {e : StreamError} (h : codec.Rejects readers writers e) :
    codec.checkReconstructStream readers writers = .err e := by
  unfold checkReconstructStream
  rw [validateStreamCount_eq, validateStreamCount_eq]
  cases h with
  | readerCount hr =>
    rw [if_neg hr]
    rfl
  | writerCount hr hw =>
    rw [if_pos hr, if_neg hw]
    rfl
  | family hr hw hf =>
    rw [if_pos hr, if_pos hw, hf]
    rfl
  | layout hr hw hf i hi halt hfirst =>
    rw [if_pos hr, if_pos hw, hf]
    have hloop := foldlM_checkStreamLayout readers writers (by omega)
    rcases hres : (readers.zip writers).zipIdx.foldlM checkStreamLayout [] with missing | e | _
    · rw [hres] at hloop
      exact absurd (hloop.1 i (by omega)) halt
    · rw [hres] at hloop
      obtain ⟨j, -, hj, hjfirst, rfl⟩ := hloop
      rcases Nat.lt_trichotomy i j with hij | rfl | hji
      · exact absurd (hjfirst i hij) halt
      · rfl
      · exact absurd (hfirst j hji) hj
    · rw [hres] at hloop
      exact hloop.elim
  | availability hr hw hf halt hfew =>
    rw [if_pos hr, if_pos hw, hf]
    have hloop := foldlM_checkStreamLayout readers writers (by omega)
    have hsize := length_missing_add readers
    rcases hres : (readers.zip writers).zipIdx.foldlM checkStreamLayout [] with missing | e | _
    · rw [hres] at hloop
      obtain ⟨-, rfl⟩ := hloop
      exact if_pos (by omega)
    · rw [hres] at hloop
      obtain ⟨j, hj, hnot, -⟩ := hloop
      exact absurd (halt j (by omega)) hnot
    · rw [hres] at hloop
      exact hloop.elim

/-- A refused request touches nothing. -/
theorem Rejects.run_eq {e : StreamError} (h : codec.Rejects readers writers e)
    (pool : TryForEach.Pool) (fuel : Nat) (cache : InversionCache Galois8)
    (options : StreamOptions) :
    codec.reconstructStreamFrom pool fuel cache readers writers options =
      some ⟨.err e, readers, writers, cache⟩ := by
  unfold reconstructStreamFrom
  rw [h.check_eq]

end Checks

section Reading

variable {content : List (Option (List Byte))} {size k : Nat}

/-- How many bytes of a stream the block `k` holds. -/
def deliveredLen (size k : Nat) (bytes : List Byte) : Nat := min size (bytes.length - k * size)

/-- Stream `bad` is the first that delivers less than another one in block `k`. -/
structure FirstShort (content : List (Option (List Byte))) (size k bad : Nat) : Prop where
  short : ∃ bytes, content[bad]? = some (some bytes) ∧
    ∃ (j : Nat) (longer : List Byte), content[j]? = some (some longer) ∧
      deliveredLen size k bytes < deliveredLen size k longer
  first : ∀ i bytes, i < bad → content[i]? = some (some bytes) →
    ∀ (j : Nat) (other : List Byte), content[j]? = some (some other) →
      deliveredLen size k other ≤ deliveredLen size k bytes

/-- The readers and buffers once block `k` has been read. -/
structure HasRead (content : List (Option (List Byte))) (size k : Nat)
    (readers : List (Option Reader)) (buffers : List (List Byte)) : Prop where
  cooperative : ∀ r, some r ∈ readers → r.Cooperative
  pending_eq : pendings readers = content.map (Option.map (List.drop ((k + 1) * size)))
  buffers_length : buffers.length = content.length
  block_eq : ∀ i bytes, content[i]? = some (some bytes) →
    buffers.getD i [] = (bytes.drop (k * size)).take size

theorem length_of_pendings {readers : List (Option Reader)} {f : List Byte → List Byte}
    (h : pendings readers = content.map (Option.map f)) : readers.length = content.length := by
  have := congrArg List.length h
  simpa [pendings] using this

/-- Reading block `k` of every present stream: the lengths decide. -/
theorem readBlock_spec (content : List (Option (List Byte))) (size k : Nat)
    (pool : TryForEach.Pool) (time : Nat) (useParallelRead : Bool)
    {readers : List (Option Reader)} (buffers : List (List Byte))
    (hcoop : ∀ r, some r ∈ readers → r.Cooperative)
    (hpending : pendings readers = content.map (Option.map (List.drop (k * size))))
    (hlen : buffers.length = content.length) :
    ∃ result readers' buffers',
      readPresentStreamsWithMode pool time readers buffers size useParallelRead =
        (result, readers', buffers') ∧ HasRead content size k readers' buffers' ∧
      (∀ n, (∃ (i : Nat) (bytes : List Byte), content[i]? = some (some bytes)) →
        (∀ (i : Nat) (bytes : List Byte), content[i]? = some (some bytes) →
          deliveredLen size k bytes = n) → result = .ok (n == 0, n)) ∧
      ∀ bad, FirstShort content size k bad →
        result = .error (.codec bad .incorrectShardSize) := by
  have hcount := length_of_pendings hpending
  obtain ⟨readers', hcoop', hpending', hrun⟩ := readPresentStreams_spec pool time useParallelRead
    buffers size hcoop (by omega)
  rw [hpending] at hpending' hrun
  have hcount' : readers'.length = content.length := by
    have := congrArg List.length hpending'
    simpa [pendings] using this
  set blocks := blockBuffers (content.map (Option.map (List.drop (k * size)))) buffers size
    with hblocks
  have hsize : blocks.length = content.length := by simp [hblocks, blockBuffers, hlen]
  have hblock (i : Nat) (bytes : List Byte) (hi : content[i]? = some (some bytes)) :
      blocks[i]? = some ((bytes.drop (k * size)).take size) := by
    obtain ⟨hlt, hget⟩ := List.getElem?_eq_some_iff.mp hi
    rw [List.getElem?_eq_getElem (by omega)]
    simp [hblocks, blockBuffers, hget]
  have hreader (i : Nat) (r : Option Reader) (hi : readers'[i]? = some r) :
      ∃ c, content[i]? = some c ∧ r.isSome = c.isSome := by
    have h := congrArg (·[i]?) hpending'
    simp only [pendings, List.getElem?_map, hi, Option.map_some] at h
    cases hc : content[i]? with
    | none => simp [hc] at h
    | some c =>
      refine ⟨c, rfl, ?_⟩
      simp only [hc, Option.map_some, Option.some.injEq] at h
      have := congrArg Option.isSome h
      simpa using this
  -- a present entry of the pass holds the block of its stream
  have hentry (i : Nat) (stream : Option Reader × List Byte)
      (hi : (readers'.zip blocks)[i]? = some stream) (hsome : stream.1.isSome) :
      ∃ bytes, content[i]? = some (some bytes) ∧
        stream.2.length = deliveredLen size k bytes := by
    obtain ⟨h1, h2⟩ := List.getElem?_zip_eq_some.mp hi
    obtain ⟨c, hc, hpresent⟩ := hreader i _ h1
    rw [hsome] at hpresent
    obtain ⟨bytes, rfl⟩ := Option.isSome_iff_exists.mp hpresent.symm
    have hb := hblock i bytes hc
    rw [h2] at hb
    refine ⟨bytes, hc, ?_⟩
    rw [Option.some.inj hb, List.length_take, List.length_drop, deliveredLen]
  have hstream (i : Nat) (bytes : List Byte) (hi : content[i]? = some (some bytes)) :
      ∃ stream, (readers'.zip blocks)[i]? = some stream ∧ stream.1.isSome ∧
        stream.2.length = deliveredLen size k bytes := by
    obtain ⟨hlt, -⟩ := List.getElem?_eq_some_iff.mp hi
    have hlt' : i < readers'.length := by omega
    have hr : readers'[i]? = some readers'[i] := List.getElem?_eq_getElem hlt'
    obtain ⟨c, hc, hpresent⟩ := hreader i _ hr
    rw [hi] at hc
    obtain rfl := Option.some.inj hc
    refine ⟨(readers'[i], (bytes.drop (k * size)).take size),
      List.getElem?_zip_eq_some.mpr ⟨hr, hblock i bytes hi⟩, hpresent, ?_⟩
    rw [List.length_take, List.length_drop, deliveredLen]
  refine ⟨_, readers', blocks, hrun, ⟨hcoop', ?_, hsize, fun i bytes hi => ?_⟩, ?_, ?_⟩
  · rw [hpending', List.map_map]
    refine List.map_congr_left (fun c _ => ?_)
    cases c with
    | none => rfl
    | some bytes =>
      simp only [Function.comp, Option.map_some, List.drop_drop]
      rw [Nat.succ_mul]
  · rw [List.getD_eq_getElem?_getD, hblock i bytes hi, Option.getD_some]
  · rintro n ⟨i, bytes, hi⟩ hall
    have hlengths (stream : Option Reader × List Byte) (hmem : stream ∈ readers'.zip blocks)
        (hsome : stream.1.isSome) : stream.2.length = n := by
      obtain ⟨j, hj⟩ := List.mem_iff_getElem?.mp hmem
      obtain ⟨bytes', hc, hlen'⟩ := hentry j stream hj hsome
      rw [hlen', hall j bytes' hc]
    obtain ⟨stream, hget, hsome, hlen'⟩ := hstream i bytes hi
    refine checkPresentLengths_ok ⟨⟨stream, List.mem_of_getElem? hget, hsome, ?_⟩,
      fun s hs h => (hlengths s hs h).le⟩ hlengths
    rw [hlen', hall i bytes hi]
  · rintro bad ⟨⟨bytes, hbad, j, longer, hj, hshort⟩, hfirst⟩
    obtain ⟨stream, hget, hsome, hlen'⟩ := hstream bad bytes hbad
    obtain ⟨other, hother, hothersome, hotherlen⟩ := hstream j longer hj
    obtain ⟨n, hn⟩ := exists_longest ⟨stream, List.mem_of_getElem? hget, hsome⟩
    have hle := hn.2 other (List.mem_of_getElem? hother) hothersome
    refine checkPresentLengths_error hn ⟨stream, hget, hsome, by omega⟩
      (fun i earlier hi hearlier hpresent => ?_)
    obtain ⟨⟨longest, hmem, hlongest, hlongestlen⟩, -⟩ := hn
    obtain ⟨m, hm⟩ := List.mem_iff_getElem?.mp hmem
    obtain ⟨bytes', hi', hlen₁⟩ := hentry i earlier hearlier hpresent
    obtain ⟨bytes'', hm', hlen₂⟩ := hentry m longest hm hlongest
    have := hfirst i bytes' hi hi' m bytes'' hm'
    omega

end Reading

section Blocks

variable {codec : ReedSolomon Galois8} {content base : List (Option (List Byte))}
  {blocks : StreamBlocks} {k n : Nat}

/-- The lengths of one block of `n` bytes of every present stream. -/
def blockLengths (content : List (Option (List Byte))) (n : Nat) : List (Option Nat) :=
  content.map (Option.map fun _ => n)

theorem getD_blockLengths (content : List (Option (List Byte))) (n i : Nat) :
    ((blockLengths content n).getD i none).isSome = ((lengthsOf content).getD i none).isSome := by
  simp only [blockLengths, lengthsOf, List.getD_eq_getElem?_getD, List.getElem?_map]
  cases hc : content[i]? with
  | none => rfl
  | some c => cases c <;> rfl

/-- Every block has the present and missing streams of the whole. -/
theorem indices_blockLengths (content : List (Option (List Byte))) (n : Nat) :
    presentIndices (blockLengths content n) = presentIndices (lengthsOf content) ∧
      missingIndices (blockLengths content n) = missingIndices (lengthsOf content) := by
  have hlen : (blockLengths content n).length = (lengthsOf content).length := by
    simp [blockLengths]
  unfold presentIndices missingIndices
  rw [hlen]
  refine ⟨List.filter_congr (fun i _ => getD_blockLengths content n i),
    List.filter_congr (fun i _ => ?_)⟩
  rw [← Option.not_isSome, ← Option.not_isSome, getD_blockLengths]

theorem mem_missing_content {i : Nat} :
    i ∈ missingIndices (lengthsOf content) ↔ content[i]? = some none := by
  rw [mem_missingIndices, length_lengthsOf]
  constructor
  · rintro ⟨hlt, hnone⟩
    have hget : content[i]? = some content[i] := List.getElem?_eq_getElem hlt
    rw [getD_lengthsOf hget] at hnone
    cases hc : content[i] with
    | none => rw [hget, hc]
    | some bytes =>
      rw [hc] at hnone
      cases hnone
  · intro hget
    exact ⟨(List.getElem?_eq_some_iff.mp hget).1, by rw [getD_lengthsOf hget]; rfl⟩

theorem mem_present_content {i : Nat} (hi : i ∈ presentIndices (lengthsOf content)) :
    content[i]? = some (some (contentOf content i)) := by
  obtain ⟨hlt, hsome⟩ := mem_presentIndices.mp hi
  rw [length_lengthsOf] at hlt
  have hget : content[i]? = some content[i] := List.getElem?_eq_getElem hlt
  rw [getD_lengthsOf hget] at hsome
  cases hc : content[i] with
  | none =>
    rw [hc] at hsome
    cases hsome
  | some bytes =>
    rw [hget, hc]
    simp [contentOf, hget, hc, ReconstructShard.get]

/-- What a reconstruction has fixed before its first block: the streams `content`
are to be recovered behind the bytes `base` that the writers hold. -/
structure Recovering (codec : ReedSolomon Galois8) (content base : List (Option (List Byte)))
    (blocks : StreamBlocks) : Prop where
  inv : codec.ClassicInv
  length_eq : content.length = codec.totalShardCount
  base_length : base.length = content.length
  base_missing : ∀ (i : Nat) (written : List Byte), base[i]? = some (some written) →
    content[i]? = some none
  missing_eq : blocks.missing = missingIndices (lengthsOf content)
  plan_of : ∃ n, codec.PlanOf (blockLengths content n) .all blocks.plan
  direct : blocks.plan.directParity = false
  rows : blocks.plan.dataRows = .ok blocks.dataRows

/-- The writers once `n` bytes of every missing stream are recovered. -/
structure HasWritten (codec : ReedSolomon Galois8) (content base : List (Option (List Byte)))
    (n : Nat) (writers : List (Option Writer)) : Prop where
  cooperative : ∀ w, some w ∈ writers → w.Cooperative
  written_eq : writtens writers = base.mapIdx fun i written =>
    written.map (· ++ codec.recoveredShard content n i)

theorem getD_resizeMissing (missing : List Nat) (buffers : List (List Byte))
    (hnodup : missing.Nodup) (hlt : ∀ t ∈ missing, t < buffers.length) (n : Nat) :
    (resizeMissing missing buffers n).length = buffers.length ∧
      ∀ i, (resizeMissing missing buffers n).getD i [] =
        if i ∈ missing then resize (buffers.getD i []) n else buffers.getD i [] := by
  have hstore := foldl_set_distinct missing id (fun _ buf => resize buf n)
    (by rwa [List.map_id]) buffers [] hlt
  rw [List.map_id] at hstore
  obtain ⟨hlen, hwrite, hframe⟩ := hstore
  refine ⟨hlen, fun i => ?_⟩
  by_cases hi : i ∈ missing
  · rw [if_pos hi]
    exact hwrite i hi
  · rw [if_neg hi]
    exact hframe i hi

/-- The survivors' buffers hold their streams' bytes of the block. -/
theorem Recovering.blockShard_eq (h : codec.Recovering content base blocks)
    {readers : List (Option Reader)} {buffers resized : List (List Byte)}
    (hread : HasRead content blocks.blockSize k readers buffers) (hn : n ≤ blocks.blockSize)
    (hkeep : ∀ i bytes, content[i]? = some (some bytes) →
      resized.getD i [] = buffers.getD i []) {i : Nat} (hi : content[i]? = some none) :
    codec.recoveredShard content (k * blocks.blockSize + n) i =
      codec.recoveredShard content (k * blocks.blockSize) i ++
        codec.blockShard blocks.plan n resized i := by
  obtain ⟨n₀, hplan⟩ := h.plan_of
  have hne : missingIndices (blockLengths content n₀) ≠ [] := by
    rw [(indices_blockLengths content n₀).2]
    exact List.ne_nil_of_mem (mem_missing_content.mpr hi)
  have hvalid : blocks.plan.shape.validIndices = codec.selected content := by
    rw [hplan.shape.valid_eq hne, (indices_blockLengths content n₀).1]
    rfl
  rw [recoveredShard, restoredShard_append, recoveredShard, blockShard, hvalid, List.map_map]
  congr 1
  refine restoredShard_congr (fun j x hj hx => ?_) i
  have hsize : (codec.selected content).length = codec.dataShardCount := by
    rw [← hvalid, (hplan.shape.decodeRequest hne).survivors.length_eq]
  rw [getD_map_of_lt _ _ _ (by omega) 0, getD_map_of_lt _ _ _ (by omega) 0]
  have hpresent := mem_present_content (List.mem_of_mem_take (getD_mem (l := codec.selected content)
    (i := j) (by omega)))
  rw [hkeep _ _ hpresent, hread.block_eq _ _ hpresent, getD_take (by omega)]
  rfl

/-- One block is reconstructed and written behind the ones before. -/
theorem Recovering.writeBlock_spec (h : codec.Recovering content base blocks)
    {readers : List (Option Reader)} {buffers : List (List Byte)}
    {writers : List (Option Writer)} (time : Nat)
    (hread : HasRead content blocks.blockSize k readers buffers) (hn : 0 < n)
    (hlengths : ∀ (i : Nat) (bytes : List Byte), content[i]? = some (some bytes) →
      deliveredLen blocks.blockSize k bytes = n)
    (hsome : ∃ (i : Nat) (bytes : List Byte), content[i]? = some (some bytes))
    (hwritten : HasWritten codec content base (k * blocks.blockSize) writers) :
    ∃ buffers' writers', codec.reconstructBlock blocks.plan blocks.dataRows
        (blocks.plan.parityRows codec) (resizeMissing blocks.missing buffers n) = buffers' ∧
      buffers'.length = content.length ∧
      writeMissingStreamsWithMode blocks.pool time writers buffers' n blocks.useParallelWrite =
        (.ok (), writers') ∧
      HasWritten codec content base (k * blocks.blockSize + n) writers' := by
  have hnle : n ≤ blocks.blockSize := by
    obtain ⟨i, bytes, hi⟩ := hsome
    have := hlengths i bytes hi
    rw [deliveredLen] at this
    omega
  obtain ⟨n₀, hplan⟩ := h.plan_of
  obtain ⟨-, hmissing⟩ := indices_blockLengths content n₀
  have hresize := getD_resizeMissing blocks.missing buffers
    (by rw [h.missing_eq]; exact (ascending_missingIndices _).nodup)
    (fun t ht => by
      rw [h.missing_eq, mem_missing_content] at ht
      rw [hread.buffers_length]
      exact (List.getElem?_eq_some_iff.mp ht).1) n
  set resized := resizeMissing blocks.missing buffers n with hresized
  have hsize : resized.length = codec.totalShardCount := by
    rw [hresize.1, hread.buffers_length, h.length_eq]
  have hkeep (i : Nat) (bytes : List Byte) (hi : content[i]? = some (some bytes)) :
      resized.getD i [] = buffers.getD i [] := by
    rw [hresize.2, if_neg]
    rw [h.missing_eq, mem_missing_content, hi]
    simp
  have hgrid : Grid codec.totalShardCount n resized := by
    refine ⟨hsize, fun i hi => ?_⟩
    have hlt : i < content.length := by rw [h.length_eq]; exact hi
    have hget : content[i]? = some content[i] := List.getElem?_eq_getElem hlt
    cases hc : content[i] with
    | none =>
      rw [hc] at hget
      rw [hresize.2, if_pos (by rw [h.missing_eq]; exact mem_missing_content.mpr hget),
        length_resize]
    | some bytes =>
      rw [hc] at hget
      rw [hkeep i bytes hget, hread.block_eq i bytes hget, List.length_take, List.length_drop]
      exact hlengths i bytes hget
  have hblock := hplan.reconstructBlock_eq h.inv h.direct hn hgrid h.rows
  rw [hmissing] at hblock
  set buffers' := resized.mapIdx fun i buf => if i ∈ missingIndices (lengthsOf content) then
    codec.blockShard blocks.plan n resized i else buf with hbuffers'
  have hgrid' : Grid codec.totalShardCount n buffers' := by
    refine hgrid.mapIdx _ (fun i hi => ?_)
    split_ifs
    · exact length_restoredShard _ _ _ _ _
    · exact hgrid.row_length i hi
  have hwriters : writers.length = content.length := by
    have := congrArg List.length hwritten.written_eq
    simp only [writtens, List.length_map, List.length_mapIdx] at this
    rw [this, h.base_length]
  obtain ⟨writers', hcoop, hwritten', hrun⟩ := writeMissingStreams_spec blocks.pool time
    blocks.useParallelWrite buffers' n hwritten.cooperative
    (by rw [hgrid'.length_eq, hwriters, h.length_eq]) (fun buf hbuf => (hgrid'.forall hbuf).ge)
  refine ⟨buffers', writers', hblock, by rw [hgrid'.length_eq, h.length_eq], hrun, hcoop, ?_⟩
  rw [hwritten', hwritten.written_eq]
  refine List.ext_getElem (by simp) (fun i h1 h2 => ?_)
  have hi : i < base.length := by simpa using h1
  simp only [List.getElem_mapIdx]
  cases hb : base[i] with
  | none => rfl
  | some written =>
    have hnone := h.base_missing i written (by rw [List.getElem?_eq_getElem hi, hb])
    have hlt : i < codec.totalShardCount := by rw [← h.length_eq, ← h.base_length]; exact hi
    have hget : buffers'.getD i [] = codec.blockShard blocks.plan n resized i := by
      rw [hbuffers', getD_mapIdx_of_lt _ _ _ (by omega) [], if_pos (mem_missing_content.mpr hnone)]
    simp only [Option.map_some, Option.some.injEq]
    rw [hget, List.take_of_length_le (length_blockShard _ _ _ _ _).le, List.append_assoc,
      ← h.blockShard_eq hread hnle hkeep hnone]

/-- One round of the block loop: what it leaves, and how the next read ends it. -/
theorem Recovering.loop_succ (h : codec.Recovering content base blocks)
    {readers : List (Option Reader)} {buffers : List (List Byte)}
    {writers : List (Option Writer)} (time : Nat)
    (hread : HasRead content blocks.blockSize k readers buffers) (hn : 0 < n)
    (hlengths : ∀ (i : Nat) (bytes : List Byte), content[i]? = some (some bytes) →
      deliveredLen blocks.blockSize k bytes = n)
    (hsome : ∃ (i : Nat) (bytes : List Byte), content[i]? = some (some bytes))
    (hwritten : HasWritten codec content base (k * blocks.blockSize) writers) :
    ∃ (result : Except StreamError (Bool × Nat)) (readers' : List (Option Reader))
      (buffers' : List (List Byte)) (writers' : List (Option Writer)),
      (∀ fuel, codec.reconstructLoop blocks (fuel + 1) time readers writers buffers n =
        match result with
        | .error e => some (.err e, readers', writers')
        | .ok (true, _) => some (.ok (), readers', writers')
        | .ok (false, next) =>
          codec.reconstructLoop blocks fuel (time + 2) readers' writers' buffers' next) ∧
      HasRead content blocks.blockSize (k + 1) readers' buffers' ∧
      HasWritten codec content base (k * blocks.blockSize + n) writers' ∧
      (∀ next, (∀ (i : Nat) (bytes : List Byte), content[i]? = some (some bytes) →
        deliveredLen blocks.blockSize (k + 1) bytes = next) → result = .ok (next == 0, next)) ∧
      ∀ bad, FirstShort content blocks.blockSize (k + 1) bad →
        result = .error (.codec bad .incorrectShardSize) := by
  obtain ⟨filled, writers', hblock, hfilled, hwrite, hwritten'⟩ :=
    h.writeBlock_spec time hread hn hlengths hsome hwritten
  obtain ⟨result, readers', buffers', hrun, hread', hequal, hshort⟩ := readBlock_spec content
    blocks.blockSize (k + 1) blocks.pool (time + 1) blocks.useParallelRead filled
    hread.cooperative hread.pending_eq hfilled
  refine ⟨result, readers', buffers', writers', fun fuel => ?_, hread', hwritten',
    fun next => hequal next hsome, hshort⟩
  simp only [reconstructLoop, hblock, hwrite, hrun]
  rcases result with e | ⟨eof, next⟩
  · rfl
  · cases eof <;> rfl

/-- A stream that goes on behind block `k` fills it. -/
theorem deliveredLen_of_le {size : Nat} {bytes : List Byte} (h : (k + 1) * size ≤ bytes.length) :
    deliveredLen size k bytes = size := by
  rw [Nat.succ_mul] at h
  rw [deliveredLen]
  omega

/-- While all streams have full blocks, the loop writes one after the other. -/
theorem Recovering.run (h : codec.Recovering content base blocks) (hsize : 0 < blocks.blockSize)
    (hsome : ∃ (i : Nat) (bytes : List Byte), content[i]? = some (some bytes)) (count : Nat)
    {k : Nat} {readers : List (Option Reader)} {buffers : List (List Byte)}
    {writers : List (Option Writer)} (time : Nat)
    (hread : HasRead content blocks.blockSize k readers buffers)
    (hwritten : HasWritten codec content base (k * blocks.blockSize) writers)
    (hlong : ∀ (i : Nat) (bytes : List Byte), content[i]? = some (some bytes) →
      (k + count + 1) * blocks.blockSize ≤ bytes.length) :
    ∃ readers' buffers' writers',
      (∀ fuel, codec.reconstructLoop blocks (fuel + count) time readers writers buffers
        blocks.blockSize = codec.reconstructLoop blocks fuel (time + 2 * count) readers' writers'
          buffers' blocks.blockSize) ∧
      HasRead content blocks.blockSize (k + count) readers' buffers' ∧
      HasWritten codec content base ((k + count) * blocks.blockSize) writers' := by
  induction count generalizing k time readers buffers writers with
  | zero => exact ⟨readers, buffers, writers, fun fuel => rfl, hread, hwritten⟩
  | succ count ih =>
    have hfull (m : Nat) (hm : m ≤ k + count + 1) (i : Nat) (bytes : List Byte)
        (hi : content[i]? = some (some bytes)) :
        deliveredLen blocks.blockSize m bytes = blocks.blockSize := by
      refine deliveredLen_of_le (le_trans (Nat.mul_le_mul_right _ ?_) (hlong i bytes hi))
      omega
    obtain ⟨result, readers₁, buffers₁, writers₁, hloop, hread₁, hwritten₁, hnext, -⟩ :=
      h.loop_succ time hread hsize (hfull k (by omega)) hsome hwritten
    have hresult := hnext blocks.blockSize (hfull (k + 1) (by omega))
    rw [show (blocks.blockSize == 0) = false by simp; omega] at hresult
    rw [← Nat.succ_mul] at hwritten₁
    obtain ⟨readers', buffers', writers', hrest, hread', hwritten'⟩ := ih (time + 2) hread₁
      hwritten₁ (fun i bytes hi => by
        have := hlong i bytes hi
        rwa [show k + 1 + count + 1 = k + (count + 1) + 1 by omega])
    refine ⟨readers', buffers', writers', fun fuel => ?_, ?_, ?_⟩
    · rw [show fuel + (count + 1) = fuel + count + 1 by omega, hloop, hresult]
      simp only
      rw [hrest, show time + 2 + 2 * count = time + 2 * (count + 1) by omega]
    · rwa [show k + (count + 1) = k + 1 + count by omega]
    · rwa [show k + (count + 1) = k + 1 + count by omega]

end Blocks

section Start

variable {codec : ReedSolomon Galois8} {readers : List (Option Reader)}
  {writers : List (Option Writer)}

/-- What a reconstruction is given: an accepted layout, streams that only fragment
their transfers, and solvable survivors. -/
structure Readable (codec : ReedSolomon Galois8) (readers : List (Option Reader))
    (writers : List (Option Writer)) : Prop where
  accepts : codec.Accepts readers writers
  readers_cooperative : ∀ r, some r ∈ readers → r.Cooperative
  writers_cooperative : ∀ w, some w ∈ writers → w.Cooperative
  isUnit : IsUnit (codec.survivorMatrix (codec.selected (pendings readers)))

theorem Readable.length_pendings (h : codec.Readable readers writers) :
    (pendings readers).length = codec.totalShardCount := by
  rw [pendings, List.length_map, h.accepts.readers_length]

theorem Readable.exists_present (h : codec.Readable readers writers) (hinv : codec.ClassicInv) :
    ∃ (i : Nat) (bytes : List Byte), (pendings readers)[i]? = some (some bytes) := by
  have hquorum := h.accepts.quorum
  rw [← length_present] at hquorum
  obtain ⟨i, hi⟩ := List.exists_mem_of_ne_nil (presentIndices (lengthsOf (pendings readers)))
    (List.ne_nil_of_length_pos (lt_of_lt_of_le hinv.data_pos hquorum))
  exact ⟨i, _, mem_present_content hi⟩

/-- The blocks of one length can be planned for. -/
theorem Readable.recoverable (h : codec.Readable readers writers) {n : Nat} (hn : 0 < n) :
    codec.Recoverable (blockLengths (pendings readers) n) n := by
  refine ⟨by simp [blockLengths, h.length_pendings], ⟨hn, fun l hl => ?_⟩, ?_⟩
  · obtain ⟨c, -, hc⟩ := List.mem_map.mp hl
    cases c with
    | none => cases hc
    | some bytes => exact (Option.some.inj hc).symm
  · rw [(indices_blockLengths _ n).1, length_present]
    exact h.accepts.quorum

theorem Readable.base_missing (h : codec.Readable readers writers) (i : Nat)
    (written : List Byte) (hi : (writtens writers)[i]? = some (some written)) :
    (pendings readers)[i]? = some none := by
  obtain ⟨hlt, hget⟩ := List.getElem?_eq_some_iff.mp hi
  have hlt' : i < writers.length := by simpa [writtens] using hlt
  have hreaders : i < readers.length := by
    rw [h.accepts.readers_length, ← h.accepts.writers_length]
    exact hlt'
  have halt := h.accepts.alternates i (by rw [← h.accepts.writers_length]; exact hlt')
  rw [Alternates, List.getD_eq_getElem _ _ hlt', List.getD_eq_getElem _ _ hreaders] at halt
  have hwriter : (writers[i]).isSome = true := by
    have := congrArg Option.isSome hget
    simpa [writtens] using this
  rw [hwriter] at halt
  have hnone : readers[i] = none := by simpa using halt
  simp [pendings, hnone, hreaders]

/-- The first read: a length that all streams agree on starts the block loop. -/
theorem Readable.start (h : codec.Readable readers writers) (hinv : codec.ClassicInv)
    {cache : InversionCache Galois8} (hc : codec.CacheInv cache) (pool : TryForEach.Pool)
    (options : StreamOptions) :
    ∃ (readers' : List (Option Reader)) (buffers : List (List Byte)),
      HasRead (pendings readers) (clampBlockSize options.blockSize) 0 readers' buffers ∧
      (∀ bad, FirstShort (pendings readers) (clampBlockSize options.blockSize) 0 bad →
        ∀ fuel, codec.reconstructStreamFrom pool fuel cache readers writers options =
          some ⟨.err (.codec bad .incorrectShardSize), readers', writers, cache⟩) ∧
      ((∀ (i : Nat) (bytes : List Byte), (pendings readers)[i]? = some (some bytes) →
          bytes.length = 0) →
        ∀ fuel, codec.reconstructStreamFrom pool fuel cache readers writers options =
          some ⟨.ok (), readers', writers, cache⟩) ∧
      ∀ n, 0 < n → (∀ (i : Nat) (bytes : List Byte), (pendings readers)[i]? = some (some bytes) →
          deliveredLen (clampBlockSize options.blockSize) 0 bytes = n) →
        ∃ blocks cache', codec.Recovering (pendings readers) (writtens writers) blocks ∧
          blocks.blockSize = clampBlockSize options.blockSize ∧
          ∀ fuel, codec.reconstructStreamFrom pool fuel cache readers writers options =
            (codec.reconstructLoop blocks fuel 1 readers' writers buffers n).map fun run =>
              ⟨run.1, run.2.1, run.2.2, cache'⟩ := by
  set content := pendings readers with hcontent
  set missing := missingIndices (lengthsOf content) with hmissing
  obtain ⟨result, readers', buffers, hrun, hread, hequal, hshort⟩ := readBlock_spec content
    (clampBlockSize options.blockSize) 0 pool 0
    (useParallelStreamIo options (codec.totalShardCount - missing.length))
    (readers.map fun _ => []) h.readers_cooperative
    (by
      rw [hcontent, pendings, List.map_map]
      refine List.map_congr_left (fun r _ => ?_)
      cases r <;> simp) (by simp [hcontent, pendings])
  have hsome := h.exists_present hinv
  refine ⟨readers', buffers, hread, fun bad hbad fuel => ?_, fun hzero fuel => ?_,
    fun n hn hall => ?_⟩
  · simp only [reconstructStreamFrom, h.accepts.check_eq, ← hcontent, ← hmissing, hrun, hshort bad hbad]
  · have hresult := hequal 0 hsome (fun i bytes hi => by rw [deliveredLen, hzero i bytes hi]; simp)
    simp only [reconstructStreamFrom, h.accepts.check_eq, ← hcontent, ← hmissing, hrun, hresult]
    rfl
  · have hresult := hequal n hsome hall
    rw [show (n == 0) = false by simp; omega] at hresult
    have hindices := indices_blockLengths content n
    obtain ⟨plan, hplan, hof, hdirect, dataRows, hrows⟩ := streamReconstructPlan_spec hinv hc
      (h.recoverable hn) (by rw [hindices.1]; exact h.isUnit)
    rw [hindices.2] at hplan
    rcases hfull : codec.streamReconstructPlan cache missing n with ⟨result', cache'⟩
    rw [hfull] at hplan
    simp only at hplan
    subst hplan
    refine ⟨{
      pool, missing, plan, dataRows
      blockSize := clampBlockSize options.blockSize
      useParallelRead := useParallelStreamIo options (codec.totalShardCount - missing.length)
      useParallelWrite := useParallelStreamIo options missing.length },
      cache', ⟨hinv, h.length_pendings, ?_, h.base_missing, rfl, ⟨n, hof⟩, hdirect, hrows⟩,
      rfl, fun fuel => ?_⟩
    · rw [writtens, List.length_map, h.accepts.writers_length, h.length_pendings]
    · simp only [reconstructStreamFrom, h.accepts.check_eq, ← hcontent, ← hmissing, hrun, hresult,
        hfull, hrows]

theorem Readable.hasWritten_zero (h : codec.Readable readers writers) :
    HasWritten codec (pendings readers) (writtens writers) 0 writers := by
  refine ⟨h.writers_cooperative, ?_⟩
  have hnil (i : Nat) : codec.recoveredShard (pendings readers) 0 i = [] := rfl
  refine List.ext_getElem (by simp) (fun i h1 h2 => ?_)
  simp only [List.getElem_mapIdx, hnil, List.append_nil]
  cases (writtens writers)[i] <;> rfl

end Start

section Unequal

variable {content : List (Option (List Byte))} {shortest : Nat}

/-- Streams the shortest of which has `shortest` bytes, and another one more. -/
structure Unequal (content : List (Option (List Byte))) (shortest : Nat) : Prop where
  attained : ∃ (i : Nat) (bytes : List Byte), content[i]? = some (some bytes) ∧
    bytes.length = shortest
  le : ∀ (i : Nat) (bytes : List Byte), content[i]? = some (some bytes) → shortest ≤ bytes.length
  longer : ∃ (i : Nat) (bytes : List Byte), content[i]? = some (some bytes) ∧
    shortest < bytes.length

/-- The block behind the last common one tells the streams apart. -/
theorem Unequal.exists_firstShort (h : Unequal content shortest) {size : Nat} (hsize : 0 < size) :
    ∃ bad, FirstShort content size (shortest / size) bad := by
  classical
  let Short (i : Nat) : Prop := ∃ bytes, content[i]? = some (some bytes) ∧
    ∃ (j : Nat) (longer : List Byte), content[j]? = some (some longer) ∧
      deliveredLen size (shortest / size) bytes < deliveredLen size (shortest / size) longer
  have hshort : ∃ i, Short i := by
    obtain ⟨i, bytes, hi, hlen⟩ := h.attained
    obtain ⟨j, longer, hj, hlonger⟩ := h.longer
    refine ⟨i, bytes, hi, j, longer, hj, ?_⟩
    have hdiv := Nat.div_add_mod' shortest size
    have hmod := Nat.mod_lt shortest hsize
    rw [deliveredLen, deliveredLen]
    omega
  refine ⟨Nat.find hshort, Nat.find_spec hshort, fun i bytes hi hbytes j other hj => ?_⟩
  by_contra hlt
  exact Nat.find_min hshort hi ⟨bytes, hbytes, j, other, hj, by omega⟩

/-- The streams cut to a length. -/
def truncate (content : List (Option (List Byte))) (len : Nat) : List (Option (List Byte)) :=
  content.map (Option.map (List.take len))

theorem indices_truncate (content : List (Option (List Byte))) (len : Nat) :
    presentIndices (lengthsOf (truncate content len)) = presentIndices (lengthsOf content) ∧
      missingIndices (lengthsOf (truncate content len)) = missingIndices (lengthsOf content) := by
  have hlengths : (blockLengths (truncate content len) 0) = blockLengths content 0 := by
    rw [blockLengths, truncate, List.map_map]
    refine List.map_congr_left (fun c _ => ?_)
    cases c <;> rfl
  rw [← (indices_blockLengths (truncate content len) 0).1,
    ← (indices_blockLengths (truncate content len) 0).2, hlengths]
  exact indices_blockLengths content 0

/-- The first bytes of a recovery are those of the whole streams' recovery. -/
theorem recoveredShard_truncate (codec : ReedSolomon Galois8) (content : List (Option (List Byte)))
    {n len : Nat} (hn : n ≤ len) (i : Nat) :
    (codec.recoveredShard (truncate content len) len i).take n =
      codec.recoveredShard content n i := by
  have hselected : codec.selected (truncate content len) = codec.selected content := by
    rw [selected, selected, (indices_truncate content len).1]
  obtain ⟨rest, rfl⟩ := Nat.exists_eq_add_of_le hn
  rw [recoveredShard, restoredShard_append, List.take_left' (length_restoredShard _ _ _ _ _),
    recoveredShard, hselected]
  refine restoredShard_congr (fun j x _ hx => ?_) i
  by_cases hj : j < (codec.selected content).length
  · rw [getD_map_of_lt _ _ _ hj 0, getD_map_of_lt _ _ _ hj 0]
    have hpresent : content[(codec.selected content).getD j 0]? =
        some (some (contentOf content ((codec.selected content).getD j 0))) :=
      mem_present_content (List.mem_of_mem_take (getD_mem hj))
    have hcut : contentOf (truncate content (n + rest)) ((codec.selected content).getD j 0) =
        (contentOf content ((codec.selected content).getD j 0)).take (n + rest) := by
      conv_lhs => rw [contentOf, truncate, List.getElem?_map, hpresent]
      rfl
    rw [hcut, getD_take (by omega)]
  · have hnil (f : Nat → List Byte) : ((codec.selected content).map f).getD j [] = [] := by
      rw [List.getD_eq_default _ _ (by simpa using hj)]
    rw [hnil, hnil]

variable {codec : ReedSolomon Galois8} {readers : List (Option Reader)}
  {writers : List (Option Writer)}

/-- The recovery of the streams cut to a common length. -/
theorem Readable.reconstruct_truncate (h : codec.Readable readers writers)
    (hinv : codec.ClassicInv) {cache : InversionCache Galois8} (hc : codec.CacheInv cache)
    {len : Nat} (hpos : 0 < len) (hlen : ∀ (i : Nat) (bytes : List Byte),
      (pendings readers)[i]? = some (some bytes) → len ≤ bytes.length) :
    (codec.reconstruct cache (truncate (pendings readers) len)).1 =
      (.ok (), (truncate (pendings readers) len).mapIdx fun i shard => some (shard.getD
        (codec.recoveredShard (truncate (pendings readers) len) len i))) := by
  have hlengths : lengthsOf (truncate (pendings readers) len) =
      blockLengths (pendings readers) len := by
    unfold lengthsOf truncate blockLengths
    rw [List.map_map]
    refine List.map_congr_left (fun c hmem => ?_)
    obtain ⟨i, hi⟩ := List.mem_iff_getElem?.mp hmem
    cases c with
    | none => rfl
    | some bytes =>
      have := hlen i bytes hi
      simp [ReconstructShard.len]
      omega
  refine Plannable.reconstruct_option hinv hc ⟨?_, rfl, fun _ => ?_⟩
  · rw [hlengths]
    exact h.recoverable hpos
  · rw [selected, (indices_truncate _ _).1]
    exact h.isUnit

/-- How a reconstruction of unequal streams ends: the first stream that falls short in
the block behind the last common one is reported, and the missing streams hold the
common blocks of what the streams, cut to the shortest, determine. -/
structure StopsShort (codec : ReedSolomon Galois8) (cache : InversionCache Galois8)
    (readers : List (Option Reader)) (writers : List (Option Writer)) (size shortest : Nat)
    (run : StreamRun) : Prop where
  result : ∃ bad, FirstShort (pendings readers) size (shortest / size) bad ∧
    run.result = .err (.codec bad .incorrectShardSize)
  written : ∃ recovered : List (Option (List Byte)),
    (0 < shortest → (codec.reconstruct cache (truncate (pendings readers) shortest)).1 =
      (.ok (), recovered)) ∧
    writtens run.writers = (writtens writers).mapIdx fun i written => written.map
      (· ++ (contentOf recovered i).take (shortest / size * size))
  length : ∀ (i : Nat) (before after : List Byte), (writtens writers)[i]? = some (some before) →
    (writtens run.writers)[i]? = some (some after) →
      after.length = before.length + shortest / size * size

/-- The bytes written in common blocks are those of the recovery. -/
theorem Readable.stopsShort (h : codec.Readable readers writers) (hinv : codec.ClassicInv)
    {cache : InversionCache Galois8} (hc : codec.CacheInv cache) {size bad : Nat}
    (hunequal : Unequal (pendings readers) shortest)
    (hbad : FirstShort (pendings readers) size (shortest / size) bad) {run : StreamRun}
    (hresult : run.result = .err (.codec bad .incorrectShardSize))
    (hwritten : HasWritten codec (pendings readers) (writtens writers) (shortest / size * size)
      run.writers) : StopsShort codec cache readers writers size shortest run := by
  set recovered := (truncate (pendings readers) shortest).mapIdx fun i shard => some (shard.getD
    (codec.recoveredShard (truncate (pendings readers) shortest) shortest i)) with hrecovered
  have hcommon := Nat.div_mul_le_self shortest size
  have hbytes (i : Nat) (hi : (pendings readers)[i]? = some none) :
      (contentOf recovered i).take (shortest / size * size) =
        codec.recoveredShard (pendings readers) (shortest / size * size) i := by
    rw [← recoveredShard_truncate codec (pendings readers) hcommon i]
    congr 1
    simp [contentOf, hrecovered, truncate, hi, ReconstructShard.get]
  refine ⟨⟨bad, hbad, hresult⟩, ⟨recovered, fun hpos =>
    h.reconstruct_truncate hinv hc hpos hunequal.le, ?_⟩, fun i before after hi hafter => ?_⟩
  · rw [hwritten.written_eq]
    refine List.ext_getElem (by simp) (fun i h1 h2 => ?_)
    have hi : i < (writtens writers).length := by simpa using h1
    simp only [List.getElem_mapIdx]
    cases hb : (writtens writers)[i] with
    | none => rfl
    | some written =>
      rw [hbytes i (h.base_missing i written (by rw [List.getElem?_eq_getElem hi, hb]))]
  · rw [hwritten.written_eq, List.getElem?_mapIdx, hi] at hafter
    obtain rfl := Option.some.inj (Option.some.inj hafter)
    simp [recoveredShard]

/-- Reconstruction of unequal streams stops behind the last complete common block,
and a request that is refused touches no stream. -/
theorem reconstruct_unequal_streams (codec : ReedSolomon Galois8)
    (cache : InversionCache Galois8) (pool : TryForEach.Pool) (options : StreamOptions)
    (readers : List (Option Reader)) (writers : List (Option Writer)) :
    (∀ e fuel, codec.Rejects readers writers e →
      codec.reconstructStreamFrom pool fuel cache readers writers options =
        some ⟨.err e, readers, writers, cache⟩) ∧
    ∀ shortest, codec.IsClassic → codec.CacheReachable cache → codec.Readable readers writers →
      Unequal (pendings readers) shortest →
      ∃ run, StopsShort codec cache readers writers (clampBlockSize options.blockSize) shortest
          run ∧
        ∀ fuel, shortest / clampBlockSize options.blockSize ≤ fuel →
          codec.reconstructStreamFrom pool fuel cache readers writers options = some run := by
  refine ⟨fun e fuel h => h.run_eq pool fuel cache options,
    fun shortest hclassic hcache h hunequal => ?_⟩
  have hinv := hclassic.inv
  have hc := hcache.inv hinv
  have hsize := clampBlockSize_pos options.blockSize
  obtain ⟨readers', buffers, hread, hshort, -, hstart⟩ := h.start hinv hc pool options
  set size := clampBlockSize options.blockSize with hsizeDef
  obtain ⟨bad, hbad⟩ := hunequal.exists_firstShort hsize
  have hfull (i : Nat) (bytes : List Byte) (hi : (pendings readers)[i]? = some (some bytes)) :
      shortest / size * size ≤ bytes.length :=
    le_trans (Nat.div_mul_le_self _ _) (hunequal.le i bytes hi)
  cases hcount : shortest / size with
  | zero =>
    -- the first block is the one that falls short
    rw [hcount] at hbad
    refine ⟨_, h.stopsShort hinv hc hunequal (by rw [hcount]; exact hbad) rfl ?_,
      fun fuel _ => hshort bad hbad fuel⟩
    rw [hcount, Nat.zero_mul]
    exact h.hasWritten_zero
  | succ count =>
    obtain ⟨blocks, cache', hrec, hblock, hrun⟩ := hstart size hsize (fun i bytes hi => by
      refine deliveredLen_of_le (le_trans ?_ (hfull i bytes hi))
      rw [hcount, Nat.zero_add, Nat.one_mul]
      exact Nat.le_mul_of_pos_left _ (Nat.succ_pos _))
    rw [← hblock] at hread hsize hbad hfull hcount hrun ⊢
    have hsome := h.exists_present hinv
    obtain ⟨readers₁, buffers₁, writers₁, hloop, hread₁, hwritten₁⟩ := hrec.run hsize hsome count 1
      hread (by rw [Nat.zero_mul]; exact h.hasWritten_zero) (fun i bytes hi => by
        rw [Nat.zero_add, ← hcount]
        exact hfull i bytes hi)
    rw [Nat.zero_add] at hread₁ hwritten₁
    obtain ⟨result, readers₂, buffers₂, writers₂, hlast, -, hwritten₂, -, hend⟩ :=
      hrec.loop_succ (1 + 2 * count) hread₁ hsize (fun i bytes hi => by
        refine deliveredLen_of_le ?_
        rw [← hcount]
        exact hfull i bytes hi) hsome hwritten₁
    rw [hcount] at hbad
    have hresult := hend bad hbad
    rw [← Nat.succ_mul] at hwritten₂
    refine ⟨⟨.err (.codec bad .incorrectShardSize), readers₂, writers₂, cache'⟩,
      h.stopsShort hinv hc hunequal (by rw [hcount]; exact hbad) rfl
        (by rw [hcount]; exact hwritten₂), fun fuel hfuel => ?_⟩
    obtain ⟨rest, rfl⟩ := Nat.exists_eq_add_of_le hfuel
    rw [hrun, show count + 1 + rest = (rest + 1) + count by omega, hloop, hlast, hresult]
    rfl

/-- Two surviving streams of `sampleCodec`, the first one read in pieces. -/
def sampleReaders (first second : List Byte) : List (Option Reader) :=
  [none, some ⟨[.give 99, .error ⟨.interrupted, ""⟩], first⟩, some ⟨[], second⟩, none]

def sampleWriters : List (Option Writer) := [some ⟨[.accept 7], []⟩, none, none, some ⟨[], []⟩]

theorem sampleReaders_readable (first second : List Byte) :
    sampleCodec.Readable (sampleReaders first second) sampleWriters := by
  refine ⟨⟨rfl, rfl, rfl, fun i hi => ?_, le_of_eq rfl⟩, fun r hr => ?_, fun w hw => ?_, ?_⟩
  · have hi' : i < 4 := hi
    interval_cases i <;> simp [Alternates, sampleReaders, sampleWriters]
  · intro e he
    simp only [sampleReaders, List.mem_cons, reduceCtorEq, Option.some.injEq, false_or,
      List.not_mem_nil, or_false] at hr
    rcases hr with rfl | rfl
    · simp only [List.mem_cons, reduceCtorEq, ReadReply.error.injEq, false_or, List.not_mem_nil,
        or_false] at he
      rw [he]
    · exact absurd he List.not_mem_nil
  · intro reply hreply
    simp only [sampleWriters, List.mem_cons, reduceCtorEq, Option.some.injEq, false_or,
      List.not_mem_nil, or_false] at hw
    rcases hw with rfl | rfl
    · rw [List.mem_singleton.mp hreply]
      decide
    · exact absurd hreply List.not_mem_nil
  · have hselected : sampleCodec.selected (pendings (sampleReaders first second)) = [1, 2] := rfl
    rw [hselected]
    exact sampleCodec_isUnit

theorem sampleReaders_unequal {first second : List Byte} (h : second.length < first.length) :
    Unequal (pendings (sampleReaders first second)) second.length := by
  refine ⟨⟨2, second, rfl, rfl⟩, fun i bytes hi => ?_, ⟨1, first, rfl, h⟩⟩
  have hi' : i < 4 := (List.getElem?_eq_some_iff.mp hi).1
  interval_cases i
  · cases hi
  · obtain rfl : first = bytes := Option.some.inj (Option.some.inj hi)
    exact h.le
  · obtain rfl : second = bytes := Option.some.inj (Option.some.inj hi)
    exact le_rfl
  · cases hi

/-- A stream breaks off one byte behind the first block. -/
theorem reconstruct_unequal_streams_sample :
    sampleCodec.reconstructStreamFrom .sequential 0 (InversionCache.new 4 4096) [] [] {} =
      some ⟨.err (.codec 0 .tooFewShards), [], [], InversionCache.new 4 4096⟩ ∧
    ∃ first second : List Byte, first.length = 1025 ∧ second.length = 1024 ∧
      ∃ run, StopsShort sampleCodec (InversionCache.new 4 4096) (sampleReaders first second)
          sampleWriters (clampBlockSize 1) second.length run ∧
        ∀ fuel, second.length / clampBlockSize 1 ≤ fuel →
          sampleCodec.reconstructStreamFrom .sequential fuel (InversionCache.new 4 4096)
            (sampleReaders first second) sampleWriters { blockSize := 1 } = some run := by
  refine ⟨(reconstruct_unequal_streams sampleCodec (InversionCache.new 4 4096) .sequential {} []
    []).1 (.codec 0 .tooFewShards) 0 (.readerCount (by decide)), ?_⟩
  obtain ⟨first, hfirst⟩ : ∃ first : List Byte, first.length = 1025 :=
    ⟨List.replicate 1025 zero, List.length_replicate⟩
  obtain ⟨second, hsecond⟩ : ∃ second : List Byte, second.length = 1024 :=
    ⟨List.replicate 1024 zero, List.length_replicate⟩
  exact ⟨first, second, hfirst, hsecond, (reconstruct_unequal_streams sampleCodec
    (InversionCache.new 4 4096) .sequential { blockSize := 1 } (sampleReaders first second)
    sampleWriters).2 second.length sampleCodec_isClassic ⟨4, 4096, [], by simp, rfl⟩
    (sampleReaders_readable first second) (sampleReaders_unequal (by omega))⟩

end Unequal

end ReedSolomon

end ErasureCodec
