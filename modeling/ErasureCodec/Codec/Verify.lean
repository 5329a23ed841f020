import ErasureCodec.Codec.LeopardRuns
import ErasureCodec.Codec.Parallel

namespace ErasureCodec

open CodecField Leopard

section Definitions

variable {E σ : Type} [CodecField E] [DecidableEq E]

/-- The reusable parity scratch of verify calls. -/
structure VerifyWorkspace (E : Type) where
  parity : List (List E)
  deriving Repr, DecidableEq

namespace VerifyWorkspace

def new (codec : ReedSolomon E) (shardLen : Nat) : VerifyWorkspace E :=
  ⟨List.replicate codec.parityShardCount (List.replicate shardLen zero)⟩

def shardLen (workspace : VerifyWorkspace E) : Option Nat := workspace.parity.head?.map List.length

/-- Buffers are added or dropped, and each is cut or padded with zeros. -/
def resize (workspace : VerifyWorkspace E) (codec : ReedSolomon E) (shardLen : Nat) :
    VerifyWorkspace E :=
  let parity :=
    if workspace.parity.length < codec.parityShardCount then
      workspace.parity ++
        List.replicate (codec.parityShardCount - workspace.parity.length) []
    else workspace.parity.take codec.parityShardCount
  ⟨parity.map fun shard => shard.take shardLen ++ List.replicate (shardLen - shard.length) zero⟩

def prepare (workspace : VerifyWorkspace E) (codec : ReedSolomon E) (shardLen : Nat) :
    VerifyWorkspace E :=
  if workspace.parity.length ≠ codec.parityShardCount ∨ workspace.shardLen ≠ some shardLen ∨
      workspace.parity.any (·.length ≠ shardLen) then workspace.resize codec shardLen
  else workspace

end VerifyWorkspace

/-- `chunks_mut`: the views into a scratch buffer. -/
def chunksMut (scratch : List E) (len : Nat) : List (List E) :=
  (List.range ((scratch.length + len - 1) / len)).map fun i => (scratch.drop (i * len)).take len

/-- The shards are compared pairwise. -/
def sameShards (expected actual : List (List E)) : Bool :=
  (expected.zip actual).all fun pair => pair.1 == pair.2

/-- The schedule of the parallel encoder: what the policy decided, and an order of its callbacks. -/
structure ParallelRun where
  decision : ParallelDecision
  schedule : List ChunkTask

namespace ReedSolomon

-- `leopard` is the encoder of the codec's Leopard family, on the state that it keeps
variable (codec : ReedSolomon E)
  (leopard : σ → List (List E) → List (List E) → Outcome Error Unit × σ × List (List E))

def checkClassicParity (inputs toCheck buffer : List (List E)) :
    Outcome Error Bool × List (List E) :=
  let buffer := if codec.fastOneParityEnabled then encodeFastOneParity inputs buffer
    else codec.encodeClassicMatrix inputs buffer
  (.ok (sameShards buffer toCheck), buffer)

def verifyLeopardWithBuffer (st : σ) (slices parity : List (List E)) :
    Outcome Error Bool × σ × List (List E) :=
  let data := slices.take codec.dataShardCount
  let toCheck := slices.drop codec.dataShardCount
  match leopard st data parity with
  | (.ok _, st, parity) => (.ok (sameShards parity toCheck), st, parity)
  | (.err e, st, parity) => (.err e, st, parity)
  | (.panic, st, parity) => (.panic, st, parity)

def verifyLeopard (st : σ) (slices : List (List E)) : Outcome Error Bool × σ :=
  let sliceLen := (slices.getD 0 []).length
  let parityBufs := List.replicate codec.parityShardCount (List.replicate sliceLen zero)
  let (result, st, _) := codec.verifyLeopardWithBuffer leopard st slices parityBufs
  (result, st)

/-- The checks on the shards of every verify entry. -/
def checkVerify (slices : List (List E)) : Outcome Error Unit := do
  checkCount slices.length codec.totalShardCount .tooFewShards .tooManyShards
  checkSlices slices

/-- The checks of the entries with a buffer. -/
def checkVerifyBuffer (slices buffer : List (List E)) : Outcome Error Unit := do
  checkCount slices.length codec.totalShardCount .tooFewShards .tooManyShards
  checkCount buffer.length codec.parityShardCount .tooFewBufferShards .tooManyBufferShards
  checkSlices slices
  checkSlices buffer
  checkSameLen (slices.getD 0 []) (buffer.getD 0 [])

def verify (st : σ) (slices : List (List E)) : Outcome Error Bool × σ :=
  match codec.checkVerify slices with
  | .ok _ =>
    if codec.isLeopardFamily then codec.verifyLeopard leopard st slices
    else
      let sliceLen := (slices.getD 0 []).length
      let scratch := List.replicate (codec.parityShardCount * sliceLen) (zero : E)
      ((codec.checkClassicParity (slices.take codec.dataShardCount)
        (slices.drop codec.dataShardCount) (chunksMut scratch sliceLen)).1, st)
  | .err e => (.err e, st)
  | .panic => (.panic, st)

def verifyWithBuffer (st : σ) (slices buffer : List (List E)) :
    Outcome Error Bool × σ × List (List E) :=
  match codec.checkVerifyBuffer slices buffer with
  | .ok _ =>
    if codec.isLeopardFamily then codec.verifyLeopardWithBuffer leopard st slices buffer
    else
      let (result, buffer) := codec.checkClassicParity (slices.take codec.dataShardCount)
        (slices.drop codec.dataShardCount) buffer
      (result, st, buffer)
  | .err e => (.err e, st, buffer)
  | .panic => (.panic, st, buffer)

def verifyWithWorkspace (st : σ) (slices : List (List E)) (workspace : VerifyWorkspace E) :
    Outcome Error Bool × σ × VerifyWorkspace E :=
  match codec.checkVerify slices with
  | .ok _ =>
    let workspace := workspace.prepare codec (slices.getD 0 []).length
    let (result, st, parity) :=
      if codec.isLeopardFamily then
        codec.verifyLeopardWithBuffer leopard st slices workspace.parity
      else codec.verifyWithBuffer leopard st slices workspace.parity
    (result, st, ⟨parity⟩)
  | .err e => (.err e, st, workspace)
  | .panic => (.panic, st, workspace)

def verifyWithBufferPar (run : ParallelRun) (st : σ) (slices buffer : List (List E)) :
    Outcome Error Bool × σ × List (List E) :=
  match codec.checkVerifyBuffer slices buffer with
  | .ok _ =>
    let data := slices.take codec.dataShardCount
    let toCheck := slices.drop codec.dataShardCount
    if codec.isLeopardFamily then codec.verifyLeopardWithBuffer leopard st slices buffer
    else if codec.fastOneParityEnabled then
      let buffer := encodeFastOneParity data buffer
      (.ok (buffer.getD 0 [] == toCheck.getD 0 []), st, buffer)
    else
      match codec.encodeSepPar run.decision run.schedule data buffer with
      | (.ok _, buffer) => (.ok (sameShards buffer toCheck), st, buffer)
      | (.err e, buffer) => (.err e, st, buffer)
      | (.panic, buffer) => (.panic, st, buffer)
  | .err e => (.err e, st, buffer)
  | .panic => (.panic, st, buffer)

def verifyWithWorkspacePar (run : ParallelRun) (st : σ) (slices : List (List E))
    (workspace : VerifyWorkspace E) : Outcome Error Bool × σ × VerifyWorkspace E :=
  match codec.checkVerify slices with
  | .ok _ =>
    let workspace := workspace.prepare codec (slices.getD 0 []).length
    let (result, st, parity) := codec.verifyWithBufferPar leopard run st slices workspace.parity
    (result, st, ⟨parity⟩)
  | .err e => (.err e, st, workspace)
  | .panic => (.panic, st, workspace)

def verifyPar (run : ParallelRun) (st : σ) (slices : List (List E)) : Outcome Error Bool × σ :=
  match codec.checkVerify slices with
  | .ok _ =>
    if codec.isLeopardFamily then codec.verifyLeopard leopard st slices
    else
      let sliceLen := (slices.getD 0 []).length
      let scratch := List.replicate (codec.parityShardCount * sliceLen) (zero : E)
      let (result, st, _) :=
        codec.verifyWithBufferPar leopard run st slices (chunksMut scratch sliceLen)
      (result, st)
  | .err e => (.err e, st)
  | .panic => (.panic, st)

end ReedSolomon

end Definitions

section Buffers

variable {E : Type} [CodecField E] {codec : ReedSolomon E} {len : Nat}

/-- A prepared workspace has the buffers of the codec, whatever it held before. -/
theorem VerifyWorkspace.prepare_grid (workspace : VerifyWorkspace E) (codec : ReedSolomon E)
    (len : Nat) :
    Grid codec.parityShardCount len (workspace.prepare codec len).parity := by
  unfold VerifyWorkspace.prepare
  split_ifs with hbad
  · unfold VerifyWorkspace.resize
    simp only
    apply grid_of_forall
    · rw [List.length_map]
      split_ifs with hfew
      · rw [List.length_append, List.length_replicate]
        omega
      · rw [List.length_take]
        omega
    · intro row hrow
      obtain ⟨shard, -, rfl⟩ := List.mem_map.mp hrow
      rw [List.length_append, List.length_take, List.length_replicate]
      omega
  · push Not at hbad
    obtain ⟨hcount, -, hrows⟩ := hbad
    apply grid_of_forall hcount
    intro row hrow
    by_contra hne
    exact hrows (List.any_eq_true.mpr ⟨row, hrow, by simpa using hne⟩)

omit [CodecField E] in
/-- The scratch of a verify call is cut into one buffer for each parity shard. -/
theorem grid_chunksMut (count : Nat) (hlen : 0 < len) (a : E) :
    Grid count len (chunksMut (List.replicate (count * len) a) len) := by
  have hcount : (count * len + len - 1) / len = count := by
    have hsum : count * len + len - 1 = len - 1 + count * len := by omega
    rw [hsum, Nat.add_mul_div_right _ _ hlen, Nat.div_eq_of_lt (by omega), Nat.zero_add]
  unfold chunksMut
  rw [List.length_replicate, hcount]
  apply grid_of_forall (by rw [List.length_map, List.length_range])
  intro row hrow
  obtain ⟨i, hi, rfl⟩ := List.mem_map.mp hrow
  have hi := List.mem_range.mp hi
  have hle : (i + 1) * len ≤ count * len := Nat.mul_le_mul_right len hi
  rw [Nat.add_mul] at hle
  rw [List.length_take, List.length_drop, List.length_replicate]
  omega

omit [CodecField E] in
theorem sameShards_eq [DecidableEq E] {expected actual : List (List E)}
    (h : expected.length = actual.length) :
    sameShards expected actual = decide (expected = actual) := by
  unfold sameShards
  induction expected generalizing actual with
  | nil =>
    cases actual with
    | nil => rfl
    | cons b bs => cases h
  | cons a as ih =>
    cases actual with
    | nil => cases h
    | cons b bs =>
      rw [List.zip_cons_cons, List.all_cons, ih (Nat.succ.inj h)]
      by_cases hab : a = b
      · simp [hab]
      · simp [hab]

omit [CodecField E] in
theorem ReedSolomon.checkVerify_ok {slices : List (List E)} (htotal : 0 < codec.totalShardCount)
    (hlen : 0 < len) (h : Grid codec.totalShardCount len slices) :
    codec.checkVerify slices = .ok () := by
  have hne : slices ≠ [] := List.ne_nil_of_length_pos (by rwa [h.length_eq])
  unfold checkVerify
  rw [checkCount_ok.mpr h.length_eq, Outcome.ok_bind]
  exact (checkSlices_ok hne).mpr ⟨len, hlen, fun s hs => h.forall hs⟩

omit [CodecField E] in
theorem ReedSolomon.checkVerifyBuffer_ok {slices buffer : List (List E)}
    (hparity : 0 < codec.parityShardCount) (hlen : 0 < len)
    (h : Grid codec.totalShardCount len slices) (h' : Grid codec.parityShardCount len buffer) :
    codec.checkVerifyBuffer slices buffer = .ok () := by
  have htotal : 0 < codec.totalShardCount := by
    have := codec.totalShardCount_eq
    omega
  have hne : slices ≠ [] := List.ne_nil_of_length_pos (by rwa [h.length_eq])
  have hne' : buffer ≠ [] := List.ne_nil_of_length_pos (by rwa [h'.length_eq])
  unfold checkVerifyBuffer checkSameLen
  rw [checkCount_ok.mpr h.length_eq, Outcome.ok_bind, checkCount_ok.mpr h'.length_eq,
    Outcome.ok_bind, (checkSlices_ok hne).mpr ⟨len, hlen, fun s hs => h.forall hs⟩, Outcome.ok_bind,
    (checkSlices_ok hne').mpr ⟨len, hlen, fun s hs => h'.forall hs⟩, Outcome.ok_bind,
    h.row_length 0 htotal, h'.row_length 0 hparity, if_neg (not_not.mpr rfl)]

theorem eq_take_append_iff {α : Type} (n : Nat) (shards product : List α) :
    shards = shards.take n ++ product ↔ product = shards.drop n := by
  conv_lhs => lhs; rw [← List.take_append_drop n shards]
  rw [List.append_right_inj]
  exact eq_comm

end Buffers

section Exact

variable {E σ : Type} [CodecField E] [DecidableEq E] {codec : ReedSolomon E}
  {leopard : σ → List (List E) → List (List E) → Outcome Error Unit × σ × List (List E)}
  {Good : σ → Prop} {len : Nat} {slices product : List (List E)} {st : σ}

/-- A run of the parallel encoder that its policy can decide for. -/
structure ParallelRun.For (run : ParallelRun) (codec : ReedSolomon E) (len : Nat) : Prop where
  chunk_pos : 1 ≤ run.decision.chunkLen
  schedule : IsSchedule (outputChunkGroups codec.parityShardCount len run.decision.chunkLen
    run.decision.jobs) run.schedule

/-- Every encoder of the codec writes `product` for the data over any buffers; `Good` are the
states of the Leopard one that this holds on. -/
structure ReedSolomon.Encodes (codec : ReedSolomon E)
    (leopard : σ → List (List E) → List (List E) → Outcome Error Unit × σ × List (List E))
    (Good : σ → Prop) (len : Nat) (data product : List (List E)) : Prop where
  parity_pos : 0 < codec.parityShardCount
  grid : Grid codec.parityShardCount len product
  fast : codec.isLeopardFamily = false → codec.fastOneParityEnabled = true →
    ∀ buffer, Grid codec.parityShardCount len buffer →
      ReedSolomon.encodeFastOneParity data buffer = product
  matrix : codec.isLeopardFamily = false → codec.fastOneParityEnabled = false →
    ∀ buffer, Grid codec.parityShardCount len buffer →
      codec.encodeClassicMatrix data buffer = product
  parallel : codec.isLeopardFamily = false → ∀ (run : ParallelRun) (buffer : List (List E)),
    run.For codec len → Grid codec.parityShardCount len buffer →
      codec.encodeSepPar run.decision run.schedule data buffer = (.ok (), product)
  leopard : codec.isLeopardFamily = true → ∀ (st : σ) (buffer : List (List E)), Good st →
    Grid codec.parityShardCount len buffer →
      ∃ st', leopard st data buffer = (.ok (), st', product) ∧ Good st'

/-- All verify entries give the one answer, for any buffer, workspace and schedule, and leave
`left` in the buffer or workspace. -/
structure ReedSolomon.VerifiesAs (codec : ReedSolomon E)
    (leopard : σ → List (List E) → List (List E) → Outcome Error Unit × σ × List (List E))
    (Good : σ → Prop) (len : Nat) (st : σ) (slices : List (List E)) (answer : Bool)
    (left : List (List E)) : Prop where
  verify : ∃ st', codec.verify leopard st slices = (.ok answer, st') ∧ Good st'
  withBuffer : ∀ buffer, Grid codec.parityShardCount len buffer → ∃ st',
    codec.verifyWithBuffer leopard st slices buffer = (.ok answer, st', left) ∧ Good st'
  withWorkspace : ∀ workspace, ∃ st',
    codec.verifyWithWorkspace leopard st slices workspace = (.ok answer, st', ⟨left⟩) ∧ Good st'
  par : ∀ run : ParallelRun, run.For codec len → ∃ st',
    codec.verifyPar leopard run st slices = (.ok answer, st') ∧ Good st'
  withBufferPar : ∀ (run : ParallelRun) (buffer : List (List E)), run.For codec len →
    Grid codec.parityShardCount len buffer → ∃ st',
      codec.verifyWithBufferPar leopard run st slices buffer = (.ok answer, st', left) ∧ Good st'
  withWorkspacePar : ∀ (run : ParallelRun) (workspace : VerifyWorkspace E), run.For codec len →
    ∃ st', codec.verifyWithWorkspacePar leopard run st slices workspace =
      (.ok answer, st', ⟨left⟩) ∧ Good st'

namespace ReedSolomon

/-- The answer compares the parity shards with the encoded ones. -/
theorem Encodes.checkClassicParity_eq
    (h : codec.Encodes leopard Good len (slices.take codec.dataShardCount) product)
    (hfamily : codec.isLeopardFamily = false) (hslices : Grid codec.totalShardCount len slices)
    {buffer : List (List E)} (hbuffer : Grid codec.parityShardCount len buffer) :
    codec.checkClassicParity (slices.take codec.dataShardCount) (slices.drop codec.dataShardCount)
      buffer = (.ok (decide (product = slices.drop codec.dataShardCount)), product) := by
  have hrest := hslices.drop codec.totalShardCount_eq
  have hwritten : (if codec.fastOneParityEnabled then
      encodeFastOneParity (slices.take codec.dataShardCount) buffer
      else codec.encodeClassicMatrix (slices.take codec.dataShardCount) buffer) = product := by
    cases hfast : codec.fastOneParityEnabled with
    | true => exact h.fast hfamily hfast buffer hbuffer
    | false => exact h.matrix hfamily hfast buffer hbuffer
  unfold checkClassicParity
  simp only [hwritten]
  rw [sameShards_eq (h.grid.length_eq.trans hrest.length_eq.symm)]

theorem Encodes.verifyLeopardWithBuffer_eq
    (h : codec.Encodes leopard Good len (slices.take codec.dataShardCount) product)
    (hfamily : codec.isLeopardFamily = true) (hslices : Grid codec.totalShardCount len slices)
    (hst : Good st) {buffer : List (List E)} (hbuffer : Grid codec.parityShardCount len buffer) :
    ∃ st', codec.verifyLeopardWithBuffer leopard st slices buffer =
      (.ok (decide (product = slices.drop codec.dataShardCount)), st', product) ∧ Good st' := by
  have hrest := hslices.drop codec.totalShardCount_eq
  obtain ⟨st', hrun, hst'⟩ := h.leopard hfamily st buffer hst hbuffer
  refine ⟨st', ?_, hst'⟩
  unfold verifyLeopardWithBuffer
  simp only [hrun]
  rw [sameShards_eq (h.grid.length_eq.trans hrest.length_eq.symm)]

theorem Encodes.verifyLeopard_eq
    (h : codec.Encodes leopard Good len (slices.take codec.dataShardCount) product)
    (hfamily : codec.isLeopardFamily = true) (hslices : Grid codec.totalShardCount len slices)
    (hst : Good st) : ∃ st', codec.verifyLeopard leopard st slices =
      (.ok (decide (product = slices.drop codec.dataShardCount)), st') ∧ Good st' := by
  have htotal : 0 < codec.totalShardCount := by
    have := h.parity_pos
    have := codec.totalShardCount_eq
    omega
  have hbuffer : Grid codec.parityShardCount len
      (List.replicate codec.parityShardCount (List.replicate len (zero : E))) :=
    grid_of_forall List.length_replicate fun row hrow => by
      rw [(List.mem_replicate.mp hrow).2, List.length_replicate]
  obtain ⟨st', hrun, hst'⟩ := h.verifyLeopardWithBuffer_eq hfamily hslices hst hbuffer
  refine ⟨st', ?_, hst'⟩
  unfold verifyLeopard
  simp only [hslices.row_length 0 htotal, hrun]

/-- A verify call with a buffer answers by comparing with the encoded parity. -/
theorem Encodes.verifyWithBuffer_eq
    (h : codec.Encodes leopard Good len (slices.take codec.dataShardCount) product) (hlen : 0 < len)
    (hslices : Grid codec.totalShardCount len slices) (hst : Good st) {buffer : List (List E)}
    (hbuffer : Grid codec.parityShardCount len buffer) :
    ∃ st', codec.verifyWithBuffer leopard st slices buffer =
      (.ok (decide (product = slices.drop codec.dataShardCount)), st', product) ∧ Good st' := by
  unfold verifyWithBuffer
  rw [checkVerifyBuffer_ok h.parity_pos hlen hslices hbuffer]
  simp only
  cases hfamily : codec.isLeopardFamily with
  | true => exact h.verifyLeopardWithBuffer_eq hfamily hslices hst hbuffer
  | false =>
    refine ⟨st, ?_, hst⟩
    simp only [Bool.false_eq_true, if_false, h.checkClassicParity_eq hfamily hslices hbuffer]

theorem Encodes.verifyWithBufferPar_eq
    (h : codec.Encodes leopard Good len (slices.take codec.dataShardCount) product) (hlen : 0 < len)
    (hslices : Grid codec.totalShardCount len slices) (hst : Good st) {run : ParallelRun}
    (hrun : run.For codec len) {buffer : List (List E)}
    (hbuffer : Grid codec.parityShardCount len buffer) :
    ∃ st', codec.verifyWithBufferPar leopard run st slices buffer =
      (.ok (decide (product = slices.drop codec.dataShardCount)), st', product) ∧ Good st' := by
  have hrest := hslices.drop codec.totalShardCount_eq
  unfold verifyWithBufferPar
  rw [checkVerifyBuffer_ok h.parity_pos hlen hslices hbuffer]
  simp only
  cases hfamily : codec.isLeopardFamily with
  | true => exact h.verifyLeopardWithBuffer_eq hfamily hslices hst hbuffer
  | false =>
    refine ⟨st, ?_, hst⟩
    simp only [Bool.false_eq_true, if_false]
    cases hfast : codec.fastOneParityEnabled with
    | true =>
      -- one parity shard, so its comparison is that of all
      have hone : codec.parityShardCount = 1 := by
        simp only [fastOneParityEnabled, Bool.and_eq_true, beq_iff_eq] at hfast
        exact hfast.2
      have hall := sameShards_eq (h.grid.length_eq.trans hrest.length_eq.symm)
      obtain ⟨a, ha⟩ := List.length_eq_one_iff.mp (h.grid.length_eq.trans hone)
      obtain ⟨b, hb⟩ := List.length_eq_one_iff.mp (hrest.length_eq.trans hone)
      simp only [if_true, h.fast hfamily hfast buffer hbuffer]
      rw [← hall, ha, hb]
      simp [sameShards]
    | false =>
      simp only [Bool.false_eq_true, if_false, h.parallel hfamily run buffer hrun hbuffer]
      rw [sameShards_eq (h.grid.length_eq.trans hrest.length_eq.symm)]

/-- Every verify entry compares the parity shards with those that encoding gives, and leaves these
in its buffer. -/
theorem Encodes.verifiesAs
    (h : codec.Encodes leopard Good len (slices.take codec.dataShardCount) product) (hlen : 0 < len)
    (hslices : Grid codec.totalShardCount len slices) (hst : Good st) :
    codec.VerifiesAs leopard Good len st slices
      (decide (product = slices.drop codec.dataShardCount)) product := by
  have htotal : 0 < codec.totalShardCount := by
    have := h.parity_pos
    have := codec.totalShardCount_eq
    omega
  have hcheck := checkVerify_ok htotal hlen hslices
  have hscratch := grid_chunksMut codec.parityShardCount hlen (zero : E)
  have hhead := hslices.row_length 0 htotal
  refine ⟨?_, fun buffer hbuffer => ?_, fun workspace => ?_, fun run hrun => ?_,
    fun run buffer hrun hbuffer => ?_, fun run workspace hrun => ?_⟩
  · unfold verify
    rw [hcheck]
    simp only [hhead]
    cases hfamily : codec.isLeopardFamily with
    | true => exact h.verifyLeopard_eq hfamily hslices hst
    | false =>
      refine ⟨st, ?_, hst⟩
      simp only [Bool.false_eq_true, if_false, h.checkClassicParity_eq hfamily hslices hscratch]
  · exact h.verifyWithBuffer_eq hlen hslices hst hbuffer
  · unfold verifyWithWorkspace
    rw [hcheck]
    simp only [hhead]
    cases hfamily : codec.isLeopardFamily with
    | true =>
      obtain ⟨st', heq, hst'⟩ := h.verifyLeopardWithBuffer_eq hfamily hslices hst
        (workspace.prepare_grid codec len)
      exact ⟨st', by simp only [if_true, heq], hst'⟩
    | false =>
      obtain ⟨st', heq, hst'⟩ := h.verifyWithBuffer_eq hlen hslices hst
        (workspace.prepare_grid codec len)
      exact ⟨st', by simp only [Bool.false_eq_true, if_false, heq], hst'⟩
  · unfold verifyPar
    rw [hcheck]
    simp only [hhead]
    cases hfamily : codec.isLeopardFamily with
    | true => exact h.verifyLeopard_eq hfamily hslices hst
    | false =>
      obtain ⟨st', heq, hst'⟩ := h.verifyWithBufferPar_eq hlen hslices hst hrun hscratch
      exact ⟨st', by simp only [Bool.false_eq_true, if_false, heq], hst'⟩
  · exact h.verifyWithBufferPar_eq hlen hslices hst hrun hbuffer
  · obtain ⟨st', heq, hst'⟩ := h.verifyWithBufferPar_eq hlen hslices hst hrun
      (workspace.prepare_grid codec len)
    refine ⟨st', ?_, hst'⟩
    unfold verifyWithWorkspacePar
    rw [hcheck]
    simp only [hhead, heq]

end ReedSolomon

end Exact

section Refusal

variable {E σ : Type} [CodecField E] [DecidableEq E] {codec : ReedSolomon E}
  {leopard : σ → List (List E) → List (List E) → Outcome Error Unit × σ × List (List E)}
  {slices : List (List E)}

/-- Shards of a wrong number or of unequal lengths are refused with one error, before a workspace is
resized or an encoder runs. -/
theorem ReedSolomon.verify_refused (htotal : 0 < codec.totalShardCount) (st : σ)
    (hbad : ¬∃ len, 0 < len ∧ Grid codec.totalShardCount len slices) :
    ∃ e, codec.verify leopard st slices = (.err e, st) ∧
      (∀ workspace, codec.verifyWithWorkspace leopard st slices workspace =
        (.err e, st, workspace)) ∧
      ∀ run, codec.verifyPar leopard run st slices = (.err e, st) ∧
        ∀ workspace, codec.verifyWithWorkspacePar leopard run st slices workspace =
          (.err e, st, workspace) := by
  obtain ⟨e, he⟩ : ∃ e, codec.checkVerify slices = .err e := by
    unfold checkVerify checkCount
    split_ifs with hfew hmany
    · exact ⟨_, rfl⟩
    · exact ⟨_, rfl⟩
    · have hlength : slices.length = codec.totalShardCount := by omega
      have hne : slices ≠ [] := List.ne_nil_of_length_pos (by omega)
      rw [Outcome.ok_bind]
      cases hcheck : checkSlices slices with
      | ok u =>
        obtain ⟨len, hlen, hall⟩ := (checkSlices_ok hne).mp hcheck
        exact absurd ⟨len, hlen, grid_of_forall hlength hall⟩ hbad
      | err e => exact ⟨e, rfl⟩
      | panic =>
        unfold checkSlices at hcheck
        simp only at hcheck
        split_ifs at hcheck
  refine ⟨e, ?_, fun workspace => ?_, fun run => ⟨?_, fun workspace => ?_⟩⟩
  · unfold verify
    rw [he]
  · unfold verifyWithWorkspace
    rw [he]
  · unfold verifyPar
    rw [he]
  · unfold verifyWithWorkspacePar
    rw [he]

end Refusal

section Classic

variable {E σ : Type} [CodecField E] [LawfulField E] [DecidableEq E] {codec : ReedSolomon E}
  {leopard : σ → List (List E) → List (List E) → Outcome Error Unit × σ × List (List E)}
  {Good : σ → Prop} {len : Nat}

omit [DecidableEq E] in
/-- The encoders of a Classic codec write the matrix product. -/
theorem ReedSolomon.ClassicInv.encodes (h : codec.ClassicInv) (hlen : 0 < len)
    {data : List (List E)} (hdata : Grid codec.dataShardCount len data) :
    codec.Encodes leopard Good len data (codec.parityProduct data len) where
  parity_pos := h.parity_pos
  grid := codec.grid_parityProduct data len
  fast _ hfast _ hbuffer := encodeFastOneParity_eq h hfast hdata hbuffer
  matrix _ _ _ hbuffer := encodeClassicMatrix_eq h hlen hdata hbuffer
  parallel _ _ _ hrun hbuffer :=
    encodeSepPar_eq h hlen hdata hbuffer hrun.chunk_pos hrun.schedule
  leopard hfamily := by
    unfold isLeopardFamily at hfamily
    rw [h.family_eq] at hfamily
    cases hfamily

/-- Every verify entry of a Classic codec answers whether encoding would leave the shards as they
are, whatever its buffer or workspace held and in every schedule; the encoded parity is left there. -/
theorem classic_verification_exact (h : codec.IsClassic) (hlen : 0 < len) {slices : List (List E)}
    (hslices : Grid codec.totalShardCount len slices)
    (leopard : σ → List (List E) → List (List E) → Outcome Error Unit × σ × List (List E)) (st : σ) :
    ∃ encoded, codec.encode slices = (.ok (), encoded) ∧
      codec.VerifiesAs leopard (fun st' => st' = st) len st slices (decide (slices = encoded))
        (encoded.drop codec.dataShardCount) := by
  have hd := hslices.take (Nat.le_of_lt_succ (by have := codec.totalShardCount_eq; omega :
    codec.dataShardCount < codec.totalShardCount + 1))
  have hp := hslices.drop codec.totalShardCount_eq
  have hencode := ReedSolomon.encode_eq h.inv hlen hd hp
  rw [List.take_append_drop] at hencode
  refine ⟨_, hencode, ?_⟩
  rw [decide_eq_decide.mpr (eq_take_append_iff codec.dataShardCount slices _),
    List.drop_left' hd.length_eq]
  exact (h.inv.encodes hlen hd).verifiesAs hlen hslices rfl

/-- A code word verifies, and with a wrong parity shard it does not. -/
theorem classic_verification_exact_sample :
    sampleCodec.VerifiesAs (fun st _ parity => (.panic, st, parity)) (fun st => st = ()) 1 ()
        sampleShards true (sampleShards.drop 2) ∧
      sampleCodec.VerifiesAs (fun st _ parity => (.panic, st, parity)) (fun st => st = ()) 1 ()
        [[1#8], [2#8], [3#8], [4#8]] false (sampleShards.drop 2) := by
  obtain ⟨encoded, hencode, hgood⟩ := classic_verification_exact sampleCodec_isClassic
    (show 0 < 1 by decide) (show Grid 4 1 sampleShards from ⟨rfl, by decide⟩)
    (fun st _ parity => (.panic, st, parity)) ()
  obtain ⟨encoded', hencode', hbad⟩ := classic_verification_exact sampleCodec_isClassic
    (show 0 < 1 by decide) (show Grid 4 1 [[1#8], [2#8], [3#8], [4#8]] from ⟨rfl, by decide⟩)
    (fun st _ parity => (.panic, st, parity)) ()
  have hsame : sampleCodec.encode sampleShards = (.ok (), sampleShards) := by decide +kernel
  have hparity (parity : List (List Galois8)) (hp : Grid 2 1 parity) :=
    ReedSolomon.encode_eq sampleCodec_isClassic.inv (show 0 < 1 by decide)
      (show Grid 2 1 [[1#8], [2#8]] from ⟨rfl, by decide⟩) hp
  have hother : sampleCodec.encode [[1#8], [2#8], [3#8], [4#8]] = (.ok (), sampleShards) :=
    (hparity [[3#8], [4#8]] ⟨rfl, by decide⟩).trans
      ((hparity [[3#8], [5#8]] ⟨rfl, by decide⟩).symm.trans hsame)
  obtain rfl : sampleShards = encoded := (Prod.mk.inj (hsame.symm.trans hencode)).2
  obtain rfl : sampleShards = encoded' := (Prod.mk.inj (hother.symm.trans hencode')).2
  exact ⟨hgood, hbad⟩

end Classic

section Family

variable {lru : LruMap DecodePlanKey (DecodePlan 16 × Nat)} {codec : ReedSolomon Galois8}
  {w k m size : Nat} {D : Decoder w}

/-- `encode_leopard_gf8_sep` or `encode_leopard_gf16_sep`, by the family of the codec. -/
def ReedSolomon.encodeLeopardFamilySep (codec : ReedSolomon Galois8) (env : LeopardEnv)
    (st : LeopardState lru) (data parity : List (List Galois8)) :
    Outcome Error Unit × LeopardState lru × List (List Galois8) :=
  if codec.isLeopardGf8Family then
    encodeLeopardSepInner (leopardGf8Encode env codec.dataShardCount codec.parityShardCount) st
      data parity
  else
    encodeLeopardSepInner (leopardGf16Encode env codec.dataShardCount codec.parityShardCount) st
      data parity

theorem ReedSolomon.encodeSepLeopard_checked (codec : ReedSolomon Galois8) (env : LeopardEnv)
    (st : LeopardState lru) {data parity : List (List Galois8)}
    (h : codec.checkEncodeSep data parity = .ok ()) :
    codec.encodeSepLeopard env st data parity =
      codec.encodeLeopardFamilySep env st data parity := by
  unfold encodeSepLeopard
  rw [h]
  rfl

theorem ReedSolomon.IsLeopard.isLeopardFamily (hcodec : codec.IsLeopard) :
    codec.isLeopardFamily = true := by
  unfold ReedSolomon.isLeopardFamily
  rw [bne_iff_ne]
  exact hcodec.1

/-- The encoder of a Leopard codec writes the parity in every run. -/
theorem LeopardEngine.encodes (hlru : lru.Ordered) (hcodec : codec.IsLeopard)
    (h : LeopardEngine lru codec D k m) (h0 : 0 < size) (h64 : 64 ∣ size)
    {data parity : List (List Galois8)} (hdata : Grid codec.dataShardCount size data)
    (hparity : IsParity D.toFamily codec.dataShardCount codec.parityShardCount k size data parity)
    (env : LeopardEnv) :
    codec.Encodes (codec.encodeLeopardFamilySep env) (LeopardReachable lru) size data parity where
  parity_pos := h.decodable.parity_pos
  grid := hparity.grid
  fast hfamily := by
    rw [hcodec.isLeopardFamily] at hfamily
    cases hfamily
  matrix hfamily := by
    rw [hcodec.isLeopardFamily] at hfamily
    cases hfamily
  parallel hfamily := by
    rw [hcodec.isLeopardFamily] at hfamily
    cases hfamily
  leopard _ st buffer hst hbuffer := by
    obtain ⟨st', parity', hrun, -, hpar⟩ := h.encode env st (hst.ok hlru) h0 h64 hdata hbuffer
    have hcheck := (ReedSolomon.checkEncodeSep_ok h.decodable.data_pos h.decodable.parity_pos).mpr
      ⟨size, h0, hdata, hbuffer⟩
    have hreach := LeopardReachable.encode codec hcodec env data buffer hst
    rw [hrun] at hreach
    rw [codec.encodeSepLeopard_checked env st hcheck] at hrun
    refine ⟨st', hrun.trans ?_, hreach⟩
    congr 2
    exact hpar.unique h64 hparity

/-- Every verify entry of a Leopard codec answers whether encoding would leave the shards as they
are, in every run and whatever its buffer or workspace held, leaves the encoded parity there and
continues the run. -/
theorem leopard_verification_exact (hlru : lru.Ordered) (hcodec : codec.IsLeopard) (h0 : 0 < size)
    (h64 : 64 ∣ size) {slices : List (List Galois8)}
    (hslices : Grid codec.totalShardCount size slices) {st st' : LeopardState lru}
    (hst : LeopardReachable lru st) (hst' : LeopardReachable lru st') (env env' : LeopardEnv) :
    ∃ encoded st₁, codec.encodeLeopard env' st' slices = (.ok (), st₁, encoded) ∧
      codec.VerifiesAs (codec.encodeLeopardFamilySep env) (LeopardReachable lru) size st slices
        (decide (slices = encoded)) (encoded.drop codec.dataShardCount) := by
  obtain ⟨w, D, k, m, h⟩ := hcodec.engine hlru
  have hshape := h.decodable
  have htotal := codec.totalShardCount_eq
  have hd := hslices.take (show codec.dataShardCount ≤ codec.totalShardCount by omega)
  have hp := hslices.drop codec.totalShardCount_eq
  obtain ⟨st₁, parity, hrun, -, hpar⟩ := h.encode env' st' (hst'.ok hlru) h0 h64 hd hp
  refine ⟨slices.take codec.dataShardCount ++ parity, st₁, ?_, ?_⟩
  · have hcheck := codec.checkVerify_ok (by have := hshape.data_pos; omega) h0 hslices
    unfold ReedSolomon.checkVerify at hcheck
    unfold ReedSolomon.encodeLeopard
    rw [hcheck]
    simp only [hrun]
  · rw [decide_eq_decide.mpr (eq_take_append_iff codec.dataShardCount slices parity),
      List.drop_left' hd.length_eq]
    exact (h.encodes hlru hcodec h0 h64 hd hpar env).verifiesAs h0 hslices hst

/-- Shards whose parity was never written are verified against their encoding. -/
theorem leopard_verification_exact_sample : ∃ encoded st₁,
    (sampleLeopard .leopardGF16).encodeLeopard LeopardEnv.alone
        (LeopardState.new : LeopardState (listLru DecodePlanKey (DecodePlan 16 × Nat)))
        (sampleLeopardData ++ sampleLeopardParity) = (.ok (), st₁, encoded) ∧
      (sampleLeopard .leopardGF16).VerifiesAs
        ((sampleLeopard .leopardGF16).encodeLeopardFamilySep LeopardEnv.alone)
        (LeopardReachable (listLru DecodePlanKey (DecodePlan 16 × Nat))) 64 LeopardState.new
        (sampleLeopardData ++ sampleLeopardParity)
        (decide (sampleLeopardData ++ sampleLeopardParity = encoded)) (encoded.drop 3) :=
  leopard_verification_exact LruMap.listLru_ordered
    (sampleLeopard_isLeopard (show CodecFamily.leopardGF16 ≠ _ by decide)) (by decide) dvd_rfl
    ⟨by decide, by decide⟩ .new .new LeopardEnv.alone LeopardEnv.alone

end Family

end ErasureCodec
