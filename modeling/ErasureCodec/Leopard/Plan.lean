import ErasureCodec.Leopard.Tables
import ErasureCodec.Codec.Construct

namespace ErasureCodec

namespace Leopard

variable {w : Nat}

section Drivers

/-- `LEOPARD_SHARD_MULTIPLE`. -/
def leopardShardMultiple : Nat := 64

def validateLeopardShardLen (shardLen : Nat) : Outcome Error Unit :=
  if shardLen = 0 ∨ shardLen % leopardShardMultiple ≠ 0 then .err .incorrectShardSize else .ok ()

def ceilPow2 (n : Nat) : Nat := Nat.nextPowerOfTwo n

def workSize8 : Nat := 32 <<< 10

def workSize16 : Nat := 32 <<< 10

def workSize8HighFanout : Nat := 128 <<< 10

def highFanoutTotalShards : Nat := 192

def highFanoutTotalShardsWithRemainder : Nat := 144

structure EncodeDriver where
  shardSize : Nat
  m : Nat
  mtrunc : Nat
  lastCount : Nat
  chunkSize : Nat
  workSlices : Nat
  skewOffset : Nat
  deriving Repr, DecidableEq

/-- The encode drivers, up to the chunk size. -/
def buildEncodeDriver (modulus : Nat) (chunkSize : (lastCount : Nat) → Nat)
    (dataShards parityShards shardSize : Nat) : Outcome Error EncodeDriver := do
  validateLeopardShardLen shardSize
  let m := ceilPow2 (max parityShards 1)
  if m > modulus then .err .tooManyShards
  else
    let lastCount := dataShards % m
    pure
      { shardSize, m, lastCount
        mtrunc := min dataShards m
        chunkSize := chunkSize lastCount
        workSlices := m * 2
        skewOffset := m - 1 }

def gf8ChunkSize (dataShards parityShards shardSize lastCount : Nat) : Nat :=
  let totalShards := saturate (dataShards + parityShards)
  let highFanoutChunk := highFanoutTotalShards ≤ totalShards ∨
    (highFanoutTotalShardsWithRemainder ≤ totalShards ∧ lastCount ≠ 0)
  if highFanoutChunk ∧ workSize8HighFanout ≤ shardSize then workSize8HighFanout else workSize8

def buildLeopardGf8EncodeDriver (dataShards parityShards shardSize : Nat) :
    Outcome Error EncodeDriver :=
  buildEncodeDriver (modulus 8) (gf8ChunkSize dataShards parityShards shardSize) dataShards
    parityShards shardSize

def buildLeopardGf16EncodeDriver (dataShards parityShards shardSize : Nat) :
    Outcome Error EncodeDriver :=
  buildEncodeDriver (modulus 16) (fun _ => workSize16) dataShards parityShards shardSize

structure DecodeDriver where
  dataShards : Nat
  parityShards : Nat
  shardSize : Nat
  m : Nat
  n : Nat
  workSize : Nat
  chunkSize : Nat
  deriving Repr, DecidableEq

/-- The decode drivers. -/
def buildDecodeDriver (modulus order chunkSize : Nat) (dataShards parityShards shardSize : Nat) :
    Outcome Error DecodeDriver := do
  validateLeopardShardLen shardSize
  let m := ceilPow2 (max parityShards 1)
  if m > modulus then .err .tooManyShards
  else if usizeLimit ≤ m + dataShards then .err .tooManyShards
  else if m + dataShards > order then .err .tooManyShards
  else
    pure
      { dataShards, parityShards, shardSize, m, chunkSize
        n := ceilPow2 (m + dataShards)
        workSize := m + dataShards }

def buildLeopardGf8DecodeDriver : Nat → Nat → Nat → Outcome Error DecodeDriver :=
  buildDecodeDriver (modulus 8) (order 8) workSize8

def buildLeopardGf16DecodeDriver : Nat → Nat → Nat → Outcome Error DecodeDriver :=
  buildDecodeDriver (modulus 16) (order 16) workSize16

end Drivers

section Plans

structure Stage4Block (w : Nat) where
  r : Nat
  dist : Nat
  logM01 : BitVec w
  logM23 : BitVec w
  logM02 : BitVec w
  deriving Repr, DecidableEq

structure Stage2Block (w : Nat) where
  r : Nat
  dist : Nat
  logM : BitVec w
  deriving Repr, DecidableEq

/-- `FftDit8Plan`, `FftDit16Plan`. -/
structure FftDitPlan (w : Nat) where
  mtrunc : Nat
  stage4Blocks : List (Stage4Block w)
  finalStage : List (Stage2Block w)
  deriving Repr, DecidableEq

/-- `IfftDit8Plan`, `IfftDit16Plan`. -/
structure IfftDitPlan (w : Nat) where
  mtrunc : Nat
  m : Nat
  initialBlocks : List (Stage4Block w)
  laterBlocks : List (Stage4Block w)
  clearStart : Nat
  finalStage : Option (Stage2Block w)
  deriving Repr, DecidableEq

/-- A lookup `skew_lut[i]`. -/
def skewAt (skewLut : List (BitVec w)) (i : Nat) : Outcome Error (BitVec w) :=
  match skewLut[i]? with
  | some log => .ok log
  | none => .panic

/-- A slice `skew_lut[offset..]`. -/
def skewFrom (skewLut : List (BitVec w)) (offset : Nat) : Outcome Error (List (BitVec w)) :=
  if offset ≤ skewLut.length then .ok (skewLut.drop offset) else .panic

/-- A radix-4 block; the builders that index the whole table look one entry back. -/
def buildStage4Block (skewLut : List (BitVec w)) (back r dist : Nat) :
    Outcome Error (Stage4Block w) := do
  let iEnd := r + dist
  let logM01 ← skewAt skewLut (iEnd - back)
  let logM02 ← skewAt skewLut (iEnd + dist - back)
  let logM23 ← skewAt skewLut (iEnd + dist * 2 - back)
  pure { r, dist, logM01, logM23, logM02 }

/-- The blocks of the passes over the positions below `mtrunc`. -/
def buildPasses (skewLut : List (BitVec w)) (back mtrunc : Nat) (passes : List (Nat × Nat)) :
    Outcome Error (List (Stage4Block w)) := do
  let blocks ← passes.mapM fun dists =>
    (stepRange 0 mtrunc dists.2).mapM fun r => buildStage4Block skewLut back r dists.1
  pure blocks.flatten

/-- The last layer of an odd number of layers. -/
def buildFftFinalStage (skewLut : List (BitVec w)) (mtrunc dist4 : Nat) :
    Outcome Error (List (Stage2Block w)) :=
  if dist4 = 2 then
    (stepRange 0 mtrunc 2).mapM fun r => do
      let logM ← skewAt skewLut r
      pure { r, dist := 1, logM }
  else pure []

/-- `build_fft_dit8_plan`, `build_fft_dit16_plan`. -/
def buildFftDitPlan (mtrunc m : Nat) (skewLut : List (BitVec w)) :
    Outcome Error (FftDitPlan w) := do
  let passes := radix4Down m (m >>> 2)
  let stage4Blocks ← buildPasses skewLut 1 mtrunc passes.1
  let finalStage ← buildFftFinalStage skewLut mtrunc passes.2
  pure { mtrunc, stage4Blocks, finalStage }

/-- The first positions of the groups of four that hold input lanes. -/
def initialStarts (mtrunc : Nat) : List Nat :=
  let fullGroups := mtrunc / 4 * 4
  stepRange 0 fullGroups 4 ++ if fullGroups < mtrunc then [fullGroups] else []

def buildInitialBlocks (skewLut : List (BitVec w)) (back mtrunc m : Nat) :
    Outcome Error (List (Stage4Block w)) :=
  if 4 ≤ m then (initialStarts mtrunc).mapM fun r => buildStage4Block skewLut back r 1 else pure []

/-- The passes after the first and the distance they end with. -/
def laterPasses (m : Nat) : List (Nat × Nat) × Nat := if 4 ≤ m then radix4Up m 4 16 else ([], 1)

def buildIfftFinalStage (skewLut : List (BitVec w)) (back m dist : Nat) :
    Outcome Error (Option (Stage2Block w)) :=
  if dist < m then do
    let logM ← skewAt skewLut (dist - back)
    pure (some { r := 0, dist, logM })
  else pure none

/-- The inverse plan builders, up to the entry they look back. -/
def buildIfftPlan (back mtrunc m : Nat) (skewLut : List (BitVec w)) :
    Outcome Error (IfftDitPlan w) := do
  let initialBlocks ← buildInitialBlocks skewLut back mtrunc m
  let passes := laterPasses m
  let laterBlocks ← buildPasses skewLut back mtrunc passes.1
  let finalStage ← buildIfftFinalStage skewLut back m passes.2
  pure { mtrunc, m, initialBlocks, laterBlocks, clearStart := (mtrunc + 3) / 4 * 4, finalStage }

/-- `build_ifft_dit8_plan`, `build_ifft_dit16_plan`. -/
def buildIfftDitPlan (mtrunc m : Nat) (skewLut : List (BitVec w)) : Outcome Error (IfftDitPlan w) :=
  buildIfftPlan 0 mtrunc m skewLut

/-- `build_ifft_decode_dit8_plan`, `build_ifft_decode_dit16_plan`. -/
def buildIfftDecodeDitPlan (mtrunc m : Nat) (skewLut : List (BitVec w)) :
    Outcome Error (IfftDitPlan w) :=
  buildIfftPlan 1 mtrunc m skewLut

structure EncodePlans (w : Nat) where
  firstIfftPlan : IfftDitPlan w
  fftPlan : FftDitPlan w
  laterIfftPlans : List (IfftDitPlan w)
  remainderIfftPlan : Option (IfftDitPlan w)
  deriving Repr, DecidableEq

/-- The offsets of the full groups after the first. -/
def laterOffsets (dataShards m : Nat) : List Nat :=
  if m < dataShards then stepRange m (dataShards + 1 - m) m else []

def buildRemainderPlan (dataShards skewOffset : Nat) (driver : EncodeDriver)
    (skew : List (BitVec w)) : Outcome Error (Option (IfftDitPlan w)) :=
  if driver.m < dataShards ∧ driver.lastCount ≠ 0 then do
    let skew ← skewFrom skew skewOffset
    let plan ← buildIfftDitPlan driver.lastCount driver.m skew
    pure (some plan)
  else pure none

/-- `EncodePlans::new`. -/
def EncodePlans.new (dataShards parityShards : Nat) (driver : EncodeDriver) (tables : Tables w) :
    Outcome Error (EncodePlans w) := do
  let skew ← skewFrom tables.fftSkew driver.skewOffset
  let firstIfftPlan ← buildIfftDitPlan driver.mtrunc driver.m skew
  let fftPlan ← buildFftDitPlan parityShards driver.m tables.fftSkew
  let offsets := laterOffsets dataShards driver.m
  let laterIfftPlans ← offsets.mapM fun offset => do
    let skew ← skewFrom skew offset
    buildIfftDitPlan driver.m driver.m skew
  let remainderIfftPlan ← buildRemainderPlan dataShards (driver.m + offsets.length * driver.m) driver
    skew
  pure { firstIfftPlan, fftPlan, laterIfftPlans, remainderIfftPlan }

end Plans

section Equations

/-- The block at lane `r` of a transform whose first lane is position `base`. -/
def blockAt (fftSkew : List (BitVec w)) (base r dist : Nat) : Stage4Block w where
  r := r
  dist := dist
  logM01 := fftSkew.getD (base + (r + dist) - 1) 0#w
  logM23 := fftSkew.getD (base + (r + dist + dist * 2) - 1) 0#w
  logM02 := fftSkew.getD (base + (r + dist + dist) - 1) 0#w

def passBlocks (fftSkew : List (BitVec w)) (base mtrunc : Nat) (passes : List (Nat × Nat)) :
    List (Stage4Block w) :=
  (passes.map fun dists =>
    (stepRange 0 mtrunc dists.2).map fun r => blockAt fftSkew base r dists.1).flatten

/-- The forward plan, with lookups that cannot fail. -/
def fftPlanAt (fftSkew : List (BitVec w)) (mtrunc m : Nat) : FftDitPlan w where
  mtrunc := mtrunc
  stage4Blocks := passBlocks fftSkew 0 mtrunc (radix4Down m (m >>> 2)).1
  finalStage :=
    if (radix4Down m (m >>> 2)).2 = 2 then
      (stepRange 0 mtrunc 2).map fun r => ⟨r, 1, fftSkew.getD r 0#w⟩
    else []

/-- The inverse plan of the transform from position `base` on, with lookups that
cannot fail. -/
def ifftPlanAt (fftSkew : List (BitVec w)) (base mtrunc m : Nat) : IfftDitPlan w where
  mtrunc := mtrunc
  m := m
  initialBlocks :=
    if 4 ≤ m then (initialStarts mtrunc).map fun r => blockAt fftSkew base r 1 else []
  laterBlocks := passBlocks fftSkew base mtrunc (laterPasses m).1
  clearStart := (mtrunc + 3) / 4 * 4
  finalStage :=
    if (laterPasses m).2 < m then
      some ⟨0, (laterPasses m).2, fftSkew.getD (base + (laterPasses m).2 - 1) 0#w⟩
    else none

variable {fftSkew skewLut : List (BitVec w)} {base back : Nat}

theorem skewAt_eq {i : Nat} (hskew : ∀ i, 0 < i → skewLut[i - back]? = fftSkew[base + i - 1]?)
    (hi : 0 < i) (hlt : base + i - 1 < fftSkew.length) :
    skewAt skewLut (i - back) = .ok (fftSkew.getD (base + i - 1) 0#w) := by
  unfold skewAt
  rw [hskew i hi, List.getD_eq_getElem _ _ hlt, List.getElem?_eq_getElem hlt]

theorem buildStage4Block_eq
    (hskew : ∀ i, 0 < i → skewLut[i - back]? = fftSkew[base + i - 1]?) {r dist : Nat}
    (hd : 0 < dist) (hlt : base + (r + dist * 3) ≤ fftSkew.length) :
    buildStage4Block skewLut back r dist = .ok (blockAt fftSkew base r dist) := by
  unfold buildStage4Block
  simp only
  rw [skewAt_eq hskew (by omega) (by omega), Outcome.ok_bind,
    skewAt_eq hskew (by omega) (by omega), Outcome.ok_bind,
    skewAt_eq hskew (by omega) (by omega), Outcome.ok_bind]
  rfl

/-- A block below `mtrunc` of a transform over `2 ^ k` lanes ends inside it. -/
theorem block_lt {k b mtrunc r : Nat} (hb : b + 2 ≤ k) (hm : mtrunc ≤ 2 ^ k)
    (hr : r ∈ stepRange 0 mtrunc (2 ^ (b + 2))) :
    ∃ q, r = q * 2 ^ (b + 2) ∧ r < mtrunc ∧ r + 2 ^ b * 4 ≤ 2 ^ k := by
  obtain ⟨q, rfl, hlt⟩ := (mem_stepRange (Nat.two_pow_pos _)).mp hr
  have hend := block_end_le (Nat.pow_dvd_pow 2 hb) (q := q) (by omega)
  have hpow : 2 ^ (b + 2) = 2 ^ b * 4 := Nat.pow_add 2 b 2
  refine ⟨q, by omega, by omega, ?_⟩
  rw [Nat.add_mul, Nat.one_mul] at hend
  omega

theorem buildPasses_eq
    (hskew : ∀ i, 0 < i → skewLut[i - back]? = fftSkew[base + i - 1]?) {k mtrunc : Nat}
    (hm : mtrunc ≤ 2 ^ k) (hlen : base + 2 ^ k ≤ fftSkew.length + 1) {passes : List (Nat × Nat)}
    (hpasses : ∀ d ∈ passes, ∃ c, c + 2 ≤ k ∧ d = (2 ^ c, 2 ^ (c + 2))) :
    buildPasses skewLut back mtrunc passes = .ok (passBlocks fftSkew base mtrunc passes) := by
  unfold buildPasses
  rw [Outcome.mapM_eq_ok (g := fun dists => (stepRange 0 mtrunc dists.2).map fun r =>
    blockAt fftSkew base r dists.1)]
  · rfl
  · intro d hd
    obtain ⟨c, hc, rfl⟩ := hpasses d hd
    apply Outcome.mapM_eq_ok
    intro r hr
    obtain ⟨q, -, -, hend⟩ := block_lt hc hm hr
    have hpos := Nat.two_pow_pos c
    exact buildStage4Block_eq hskew hpos (by simp only; omega)

theorem fft_final_odd {k : Nat} (h2 : (radix4Down (2 ^ k) (2 ^ k >>> 2)).2 = 2) : k % 2 = 1 := by
  have hodd := (foldl_radix4Down (fun _ _ => True) (fun _ _ => ()) k () trivial
    (fun _ _ _ _ => trivial)).1
  rw [h2] at hodd
  rcases Nat.mod_two_eq_zero_or_one k with h | h
  · rw [h] at hodd
    omega
  · exact h

/-- The forward plan of an admitted size looks up entries of the table only. -/
theorem buildFftDitPlan_eq {k mtrunc : Nat} (hm : mtrunc ≤ 2 ^ k)
    (hlen : 2 ^ k ≤ fftSkew.length + 1) :
    buildFftDitPlan mtrunc (2 ^ k) fftSkew = .ok (fftPlanAt fftSkew mtrunc (2 ^ k)) := by
  have hskew : ∀ i, 0 < i → fftSkew[i - 1]? = fftSkew[0 + i - 1]? := by
    intro i _
    rw [Nat.zero_add]
  have hfinal : buildFftFinalStage fftSkew mtrunc (radix4Down (2 ^ k) (2 ^ k >>> 2)).2 =
      .ok (fftPlanAt fftSkew mtrunc (2 ^ k)).finalStage := by
    unfold buildFftFinalStage fftPlanAt
    simp only
    split_ifs with h2
    · apply Outcome.mapM_eq_ok
      intro r hr
      obtain ⟨q, rfl, hlt⟩ := (mem_stepRange (by decide)).mp hr
      obtain ⟨j, rfl⟩ : ∃ j, k = j + 1 := ⟨k - 1, by have := fft_final_odd h2; omega⟩
      rw [Nat.pow_succ] at hm hlen
      have hat := skewAt_eq hskew (i := 0 + q * 2 + 1) (by omega) (by omega)
      simp only [Nat.add_sub_cancel, Nat.zero_add] at hat ⊢
      rw [hat, Outcome.ok_bind]
      rfl
    · rfl
  unfold buildFftDitPlan
  simp only
  rw [buildPasses_eq hskew hm (by omega) (fun d hd => mem_radix4Down hd), Outcome.ok_bind, hfinal,
    Outcome.ok_bind]
  rfl

theorem mem_initialStarts {mtrunc r : Nat} :
    r ∈ initialStarts mtrunc ↔ ∃ q, r = q * 4 ∧ r < mtrunc := by
  unfold initialStarts
  simp only [List.mem_append, mem_stepRange (show 0 < 4 by decide), Nat.zero_add]
  constructor
  · rintro (⟨q, rfl, hlt⟩ | h)
    · exact ⟨q, rfl, by omega⟩
    · split_ifs at h with hlt
      · rw [List.mem_singleton.mp h]
        exact ⟨mtrunc / 4, rfl, hlt⟩
      · simp at h
  · rintro ⟨q, rfl, hlt⟩
    rcases Nat.lt_or_ge (q * 4) (mtrunc / 4 * 4) with h | h
    · exact .inl ⟨q, rfl, h⟩
    · right
      rw [if_pos (by omega), List.mem_singleton]
      omega

/-- The later passes of a transform over `2 ^ k` lanes and the distance they end with. -/
theorem laterPasses_spec (k : Nat) :
    (∀ d ∈ (laterPasses (2 ^ k)).1, ∃ c, c + 2 ≤ k ∧ d = (2 ^ c, 2 ^ (c + 2))) ∧
      (laterPasses (2 ^ k)).2 = 2 ^ (k - k % 2) := by
  unfold laterPasses
  split_ifs with h4
  · have hk : 2 ≤ k := by
      by_contra hlt
      have := Nat.pow_lt_pow_right (a := 2) (by decide) (show k < 2 by omega)
      omega
    refine ⟨fun d hd => mem_radix4Up (b := 2) hk hd, ?_⟩
    have h := (foldl_radix4Up (fun _ _ => True) (fun _ _ => ()) k 2 hk () trivial
      (fun _ _ _ _ => trivial)).1
    rw [show (k - 2) % 2 = k % 2 by omega] at h
    exact h
  · have hk : k < 2 := by
      by_contra hge
      have := Nat.pow_le_pow_right (n := 2) (by decide) (show 2 ≤ k by omega)
      omega
    refine ⟨by simp, ?_⟩
    interval_cases k <;> rfl

theorem four_dvd_two_pow {k : Nat} (h4 : 4 ≤ 2 ^ k) : 4 ∣ 2 ^ k := by
  have hk : 2 ≤ k := by
    by_contra hlt
    have := Nat.pow_lt_pow_right (a := 2) (by decide) (show k < 2 by omega)
    omega
  exact Nat.pow_dvd_pow 2 hk

/-- The inverse plan of an admitted size looks up entries of the table only. -/
theorem buildIfftPlan_eq
    (hskew : ∀ i, 0 < i → skewLut[i - back]? = fftSkew[base + i - 1]?) {k mtrunc : Nat}
    (hm : mtrunc ≤ 2 ^ k) (hlen : base + 2 ^ k ≤ fftSkew.length + 1) :
    buildIfftPlan back mtrunc (2 ^ k) skewLut = .ok (ifftPlanAt fftSkew base mtrunc (2 ^ k)) := by
  obtain ⟨hpasses, hdist⟩ := laterPasses_spec k
  have hinitial : buildInitialBlocks skewLut back mtrunc (2 ^ k) =
      .ok (ifftPlanAt fftSkew base mtrunc (2 ^ k)).initialBlocks := by
    unfold buildInitialBlocks ifftPlanAt
    simp only
    split_ifs with h4
    · apply Outcome.mapM_eq_ok
      intro r hr
      obtain ⟨q, rfl, hlt⟩ := mem_initialStarts.mp hr
      have hend := block_end_le (four_dvd_two_pow h4) (q := q) (by omega)
      exact buildStage4Block_eq hskew (by decide) (by omega)
    · rfl
  have hfinal : buildIfftFinalStage skewLut back (2 ^ k) (laterPasses (2 ^ k)).2 =
      .ok (ifftPlanAt fftSkew base mtrunc (2 ^ k)).finalStage := by
    have hpos := Nat.two_pow_pos (k - k % 2)
    unfold buildIfftFinalStage ifftPlanAt
    simp only
    split_ifs with hlt
    · rw [skewAt_eq hskew (by rw [hdist]; exact hpos) (by omega), Outcome.ok_bind]
      rfl
    · rfl
  unfold buildIfftPlan
  rw [hinitial, Outcome.ok_bind]
  simp only
  rw [buildPasses_eq hskew hm hlen hpasses, Outcome.ok_bind, hfinal, Outcome.ok_bind]
  rfl

/-- The encoder's inverse plan for the lanes from position `base` on. -/
theorem buildIfftDitPlan_eq {k mtrunc : Nat} (hbase : 0 < base) (hm : mtrunc ≤ 2 ^ k)
    (hlen : base + 2 ^ k ≤ fftSkew.length + 1) :
    buildIfftDitPlan mtrunc (2 ^ k) (fftSkew.drop (base - 1)) =
      .ok (ifftPlanAt fftSkew base mtrunc (2 ^ k)) := by
  apply buildIfftPlan_eq _ hm hlen
  intro i hi
  rw [List.getElem?_drop, Nat.sub_zero, show base - 1 + i = base + i - 1 by omega]

/-- The decoder's inverse plan. -/
theorem buildIfftDecodeDitPlan_eq {k mtrunc : Nat} (hm : mtrunc ≤ 2 ^ k)
    (hlen : 2 ^ k ≤ fftSkew.length + 1) :
    buildIfftDecodeDitPlan mtrunc (2 ^ k) fftSkew = .ok (ifftPlanAt fftSkew 0 mtrunc (2 ^ k)) := by
  apply buildIfftPlan_eq _ hm (by omega)
  intro i _
  rw [Nat.zero_add]

end Equations

section Admission

/-- A shape that a Leopard family over `2 ^ w` points takes; `2 ^ k` lanes hold
the parity of a group. -/
structure Admitted (w dataShards parityShards k : Nat) : Prop where
  data_pos : 0 < dataShards
  parity_pos : 0 < parityShards
  m_eq : ceilPow2 (max parityShards 1) = 2 ^ k
  parity_le : parityShards ≤ 2 ^ k
  fits : (dataShards + 2 ^ k - 1) / 2 ^ k * 2 ^ k + 2 ^ k ≤ 2 ^ w

theorem admitted_of_fits {dataShards parityShards : Nat}
    (h : leopardShardComboFits dataShards parityShards (2 ^ w) = true) :
    ∃ k, Admitted w dataShards parityShards k := by
  obtain ⟨k, hk, hle, -⟩ := nextPowerOfTwo_spec parityShards
  unfold leopardShardComboFits at h
  simp only [hk] at h
  split_ifs at h with h1 h2 h3
  push Not at h2
  refine ⟨k, by omega, by omega, ?_, hle, ?_⟩
  · unfold ceilPow2
    rw [Nat.max_eq_left (by omega), hk]
  · have := of_decide_eq_true h
    omega

namespace Admitted

variable {dataShards parityShards k : Nat} (h : Admitted w dataShards parityShards k)

include h

theorem rounded_ge : dataShards ≤ (dataShards + 2 ^ k - 1) / 2 ^ k * 2 ^ k ∧
    2 ^ k ≤ (dataShards + 2 ^ k - 1) / 2 ^ k * 2 ^ k := by
  have hpos := Nat.two_pow_pos k
  have hdata := h.data_pos
  have h1 := Nat.div_add_mod' (dataShards + 2 ^ k - 1) (2 ^ k)
  have h2 := Nat.mod_lt (dataShards + 2 ^ k - 1) hpos
  have h3 : 1 ≤ (dataShards + 2 ^ k - 1) / 2 ^ k := (Nat.one_le_div_iff hpos).mpr (by omega)
  have h4 := Nat.mul_le_mul_right (2 ^ k) h3
  omega

theorem m_le : 2 ^ k ≤ modulus w := by
  have := h.rounded_ge
  have := h.fits
  have := Nat.two_pow_pos k
  unfold modulus order
  omega

theorem workSize_le : 2 ^ k + dataShards ≤ 2 ^ w := by
  have := h.rounded_ge
  have := h.fits
  omega

/-- A group of data lanes lies inside the point range. -/
theorem group_le {g : Nat} (hg : g * 2 ^ k < dataShards) :
    2 ^ k + g * 2 ^ k + 2 ^ k ≤ 2 ^ w := by
  have hpos := Nat.two_pow_pos k
  have h1 : g + 1 ≤ (dataShards + 2 ^ k - 1) / 2 ^ k := by
    rw [Nat.le_div_iff_mul_le hpos, Nat.add_mul]
    omega
  have h2 := Nat.mul_le_mul_right (2 ^ k) h1
  have h3 := h.fits
  rw [Nat.add_mul] at h2
  omega

end Admitted

theorem laterOffsets_eq {dataShards m : Nat} (hm : 0 < m) :
    laterOffsets dataShards m = (List.range (dataShards / m - 1)).map fun g => (g + 1) * m := by
  unfold laterOffsets
  split_ifs with hlt
  · have hcount : (dataShards + 1 - m - m + m - 1) / m = dataShards / m - 1 := by
      rcases Nat.lt_or_ge dataShards (2 * m) with h | h
      · rw [show dataShards + 1 - m - m + m - 1 = m - 1 by omega, Nat.div_eq_of_lt (by omega),
          (Nat.div_eq_iff hm).mpr (show 1 * m ≤ dataShards ∧ dataShards ≤ 1 * m + m - 1 by omega)]
      · rw [show dataShards + 1 - m - m + m - 1 = dataShards - m * 1 by omega, Nat.sub_mul_div]
    unfold stepRange
    rw [hcount]
    apply List.map_congr_left
    intro g _
    rw [Nat.add_mul, Nat.one_mul, Nat.add_comm]
  · rw [show dataShards / m - 1 = 0 by
      have := Nat.div_le_div_right (c := m) (Nat.le_of_not_lt hlt)
      rw [Nat.div_self hm] at this
      omega]
    rfl

/-- The encoder's plans, with lookups that cannot fail. -/
def encodePlansAt (fftSkew : List (BitVec w)) (dataShards parityShards m : Nat) : EncodePlans w where
  firstIfftPlan := ifftPlanAt fftSkew m (min dataShards m) m
  fftPlan := fftPlanAt fftSkew parityShards m
  laterIfftPlans := (laterOffsets dataShards m).map fun offset => ifftPlanAt fftSkew (m + offset) m m
  remainderIfftPlan :=
    if m < dataShards ∧ dataShards % m ≠ 0 then
      some (ifftPlanAt fftSkew (m + dataShards / m * m) (dataShards % m) m)
    else none

/-- An encode driver of the given shape. -/
structure EncodeDriver.Sized (driver : EncodeDriver) (dataShards shardSize m : Nat) : Prop where
  shardSize_eq : driver.shardSize = shardSize
  m_eq : driver.m = m
  mtrunc_eq : driver.mtrunc = min dataShards m
  lastCount_eq : driver.lastCount = dataShards % m
  workSlices_eq : driver.workSlices = m * 2
  skewOffset_eq : driver.skewOffset = m - 1

theorem validateLeopardShardLen_eq {shardLen : Nat} (h0 : 0 < shardLen) (h64 : 64 ∣ shardLen) :
    validateLeopardShardLen shardLen = .ok () := by
  unfold validateLeopardShardLen leopardShardMultiple
  rw [if_neg]
  omega

namespace Admitted

variable {dataShards parityShards k shardSize : Nat} (h : Admitted w dataShards parityShards k)

include h

theorem buildEncodeDriver_eq (chunkSize : Nat → Nat) (h0 : 0 < shardSize) (h64 : 64 ∣ shardSize) :
    ∃ driver, buildEncodeDriver (modulus w) chunkSize dataShards parityShards shardSize =
      .ok driver ∧ driver.Sized dataShards shardSize (2 ^ k) ∧
      driver.chunkSize = chunkSize (dataShards % 2 ^ k) := by
  have hm := h.m_le
  unfold buildEncodeDriver
  rw [validateLeopardShardLen_eq h0 h64, Outcome.ok_bind]
  simp only [h.m_eq]
  rw [if_neg (by omega)]
  exact ⟨_, rfl, ⟨rfl, rfl, rfl, rfl, rfl, rfl⟩, rfl⟩

theorem encodePlans_eq {tables : Tables w} (htab : tables.fftSkew.length = modulus w)
    {driver : EncodeDriver} (hdriver : driver.Sized dataShards shardSize (2 ^ k)) :
    EncodePlans.new dataShards parityShards driver tables =
      .ok (encodePlansAt tables.fftSkew dataShards parityShards (2 ^ k)) := by
  have hpos := Nat.two_pow_pos k
  have hmod : modulus w + 1 = 2 ^ w := Nat.sub_add_cancel (Nat.two_pow_pos w)
  have hfirst := h.group_le (g := 0) (by have := h.data_pos; omega)
  have hgroup (g : Nat) (hg : g * 2 ^ k < dataShards) (mtrunc : Nat) (ht : mtrunc ≤ 2 ^ k) :
      (do
        let skew ← skewFrom (tables.fftSkew.drop (2 ^ k - 1)) (g * 2 ^ k)
        buildIfftDitPlan mtrunc (2 ^ k) skew) =
        .ok (ifftPlanAt tables.fftSkew (2 ^ k + g * 2 ^ k) mtrunc (2 ^ k)) := by
    have hle := h.group_le hg
    unfold skewFrom
    rw [if_pos (by rw [List.length_drop, htab]; omega), Outcome.ok_bind, List.drop_drop,
      show 2 ^ k - 1 + g * 2 ^ k = 2 ^ k + g * 2 ^ k - 1 by omega]
    exact buildIfftDitPlan_eq (by omega) ht (by rw [htab]; omega)
  have hremainder : buildRemainderPlan dataShards
      (driver.m + (laterOffsets dataShards driver.m).length * driver.m) driver
        (tables.fftSkew.drop (2 ^ k - 1)) =
        .ok (encodePlansAt tables.fftSkew dataShards parityShards (2 ^ k)).remainderIfftPlan := by
    unfold buildRemainderPlan encodePlansAt
    simp only [hdriver.m_eq, hdriver.lastCount_eq]
    split_ifs with hrem
    · have hmod := Nat.mod_lt dataShards hpos
      have hdiv := Nat.div_add_mod' dataShards (2 ^ k)
      have hone : 1 ≤ dataShards / 2 ^ k := (Nat.one_le_div_iff hpos).mpr (by omega)
      have hplan := hgroup (dataShards / 2 ^ k) (by omega) (dataShards % 2 ^ k) hmod.le
      rw [laterOffsets_eq hpos, List.length_map, List.length_range,
        show 2 ^ k + (dataShards / 2 ^ k - 1) * 2 ^ k = dataShards / 2 ^ k * 2 ^ k by
          rw [Nat.sub_mul, Nat.one_mul]
          have := Nat.mul_le_mul_right (2 ^ k) hone
          omega, ← bind_assoc, hplan]
      rfl
    · rfl
  unfold EncodePlans.new
  simp only
  rw [hdriver.skewOffset_eq, skewFrom, if_pos (by rw [htab]; omega), Outcome.ok_bind,
    hdriver.mtrunc_eq, hdriver.m_eq,
    buildIfftDitPlan_eq hpos (Nat.min_le_right _ _) (by rw [htab]; omega), Outcome.ok_bind,
    buildFftDitPlan_eq h.parity_le (by rw [htab]; omega), Outcome.ok_bind,
    Outcome.mapM_eq_ok (g := fun offset => ifftPlanAt tables.fftSkew (2 ^ k + offset) (2 ^ k)
      (2 ^ k)), Outcome.ok_bind]
  · rw [hdriver.m_eq] at hremainder
    rw [hremainder, Outcome.ok_bind]
    rfl
  · intro offset hoffset
    rw [laterOffsets_eq hpos] at hoffset
    obtain ⟨g, hg, rfl⟩ := List.mem_map.mp hoffset
    refine hgroup (g + 1) ?_ (2 ^ k) le_rfl
    have hlt := List.mem_range.mp hg
    have h1 : (g + 2) * 2 ^ k ≤ dataShards / 2 ^ k * 2 ^ k := Nat.mul_le_mul_right _ (by omega)
    have h2 := Nat.div_mul_le_self dataShards (2 ^ k)
    rw [show g + 2 = g + 1 + 1 from rfl, Nat.add_mul (g + 1)] at h1
    omega

/-- The decode driver of an admitted shape. -/
theorem buildDecodeDriver_eq (hw : w ≤ 63) (chunkSize : Nat) (h0 : 0 < shardSize)
    (h64 : 64 ∣ shardSize) :
    ∃ kk, ceilPow2 (2 ^ k + dataShards) = 2 ^ kk ∧ k ≤ kk ∧ kk ≤ w ∧
      2 ^ k + dataShards ≤ 2 ^ kk ∧ buildDecodeDriver (modulus w) (order w) chunkSize
        dataShards parityShards shardSize =
        .ok ⟨dataShards, parityShards, shardSize, 2 ^ k, 2 ^ kk, 2 ^ k + dataShards, chunkSize⟩ := by
  have hm := h.m_le
  have hwork := h.workSize_le
  obtain ⟨kk, hkk, hle, hmin⟩ := nextPowerOfTwo_spec (2 ^ k + dataShards)
  refine ⟨kk, hkk, ?_, hmin w hwork, hle, ?_⟩
  · rw [← Nat.pow_le_pow_iff_right (a := 2) (by decide)]
    omega
  · have hlimit : 2 ^ w < usizeLimit := Nat.pow_lt_pow_right (by decide) (by omega)
    unfold buildDecodeDriver
    rw [validateLeopardShardLen_eq h0 h64, Outcome.ok_bind]
    simp only [h.m_eq]
    rw [if_neg (by omega), if_neg (by omega), if_neg (by unfold order; omega)]
    unfold ceilPow2
    rw [hkk]
    rfl

end Admitted

end Admission

end Leopard

end ErasureCodec
