import ErasureCodec.Codec.Selection
import ErasureCodec.Leopard.Decode

namespace ErasureCodec

namespace Leopard

variable {w : Nat}

section Inside

/-- A radix-4 block on lanes below `lanes`. -/
structure Stage4Block.Inside (block : Stage4Block w) (lanes : Nat) : Prop where
  dist_pos : 0 < block.dist
  stop_le : block.r + block.dist * 4 ≤ lanes

/-- A radix-2 block on lanes below `lanes`. -/
structure Stage2Block.Inside (block : Stage2Block w) (lanes : Nat) : Prop where
  dist_pos : 0 < block.dist
  stop_le : block.r + block.dist * 2 ≤ lanes

structure FftDitPlan.Inside (plan : FftDitPlan w) (lanes : Nat) : Prop where
  mtrunc_le : plan.mtrunc ≤ lanes
  stage4 : ∀ block ∈ plan.stage4Blocks, block.Inside lanes
  final : ∀ block ∈ plan.finalStage, block.Inside lanes

structure IfftDitPlan.Inside (plan : IfftDitPlan w) (lanes : Nat) : Prop where
  mtrunc_le : plan.mtrunc ≤ lanes
  initial : ∀ block ∈ plan.initialBlocks, block.Inside lanes
  later : ∀ block ∈ plan.laterBlocks, block.Inside lanes
  final : ∀ block, plan.finalStage = some block → block.Inside lanes

/-- The plans of an encode call stay inside the lanes of one group. -/
structure EncodePlans.Inside (plans : EncodePlans w) (lanes : Nat) : Prop where
  first : plans.firstIfftPlan.Inside lanes
  fft : plans.fftPlan.Inside lanes
  later : ∀ plan ∈ plans.laterIfftPlans, plan.Inside lanes
  remainder : ∀ plan, plans.remainderIfftPlan = some plan → plan.Inside lanes

variable {fftSkew : List (BitVec w)} {base mtrunc k : Nat}

/-- The blocks of the passes end inside the lanes. -/
theorem passBlocks_inside (hm : mtrunc ≤ 2 ^ k) {passes : List (Nat × Nat)}
    (hpasses : ∀ d ∈ passes, ∃ c, c + 2 ≤ k ∧ d = (2 ^ c, 2 ^ (c + 2))) :
    ∀ block ∈ passBlocks fftSkew base mtrunc passes, block.Inside (2 ^ k) := by
  intro block hblock
  obtain ⟨blocks, hblocks, hmem⟩ := List.mem_flatten.mp hblock
  obtain ⟨d, hd, rfl⟩ := List.mem_map.mp hblocks
  obtain ⟨r, hr, rfl⟩ := List.mem_map.mp hmem
  obtain ⟨c, hc, rfl⟩ := hpasses d hd
  obtain ⟨q, -, -, hend⟩ := block_lt hc hm hr
  exact ⟨Nat.two_pow_pos c, hend⟩

theorem fftPlanAt_inside (hm : mtrunc ≤ 2 ^ k) : (fftPlanAt fftSkew mtrunc (2 ^ k)).Inside (2 ^ k) := by
  refine ⟨hm, passBlocks_inside hm fun d hd => mem_radix4Down hd, fun block hblock => ?_⟩
  unfold fftPlanAt at hblock
  simp only at hblock
  split_ifs at hblock with h2
  · obtain ⟨r, hr, rfl⟩ := List.mem_map.mp hblock
    obtain ⟨q, rfl, hlt⟩ := (mem_stepRange (by decide)).mp hr
    obtain ⟨j, rfl⟩ : ∃ j, k = j + 1 := ⟨k - 1, by have := fft_final_odd h2; omega⟩
    rw [Nat.pow_succ] at hm ⊢
    exact ⟨Nat.one_pos, by simp only; omega⟩
  · cases hblock

theorem ifftPlanAt_inside (hm : mtrunc ≤ 2 ^ k) :
    (ifftPlanAt fftSkew base mtrunc (2 ^ k)).Inside (2 ^ k) := by
  obtain ⟨hpasses, hdist⟩ := laterPasses_spec k
  refine ⟨hm, fun block hblock => ?_, passBlocks_inside hm hpasses, fun block hblock => ?_⟩
  · unfold ifftPlanAt at hblock
    simp only at hblock
    split_ifs at hblock with h4
    · obtain ⟨r, hr, rfl⟩ := List.mem_map.mp hblock
      obtain ⟨q, rfl, hlt⟩ := mem_initialStarts.mp hr
      have hend := block_end_le (four_dvd_two_pow h4) (q := q) (by omega)
      rw [Nat.add_mul] at hend
      exact ⟨Nat.one_pos, by simpa [blockAt] using hend⟩
    · cases hblock
  · unfold ifftPlanAt at hblock
    simp only at hblock
    split_ifs at hblock with hlt
    obtain rfl := Option.some.inj hblock
    refine ⟨by simp only [hdist]; exact Nat.two_pow_pos _, ?_⟩
    simp only [hdist] at hlt ⊢
    -- a final layer is left when the number of layers is odd
    have hodd : k % 2 = 1 := by
      by_contra heven
      rw [show k % 2 = 0 by omega, Nat.sub_zero] at hlt
      exact lt_irrefl _ hlt
    have hk : (k - 1).succ = k := by omega
    rw [hodd, Nat.zero_add, ← Nat.pow_succ, hk]

end Inside

section Locator

variable (present : List Bool) {driver : DecodeDriver}

theorem length_computeErrorLocs (hm : driver.parityShards ≤ driver.m)
    (hwork : driver.workSize = driver.m + driver.dataShards)
    (hend : driver.m + driver.dataShards ≤ 2 ^ 8) :
    (computeErrorLocs present driver gf8Kernel.tables).length = 2 ^ 8 := by
  obtain ⟨hlen, hflag⟩ := markAbsent_spec (w := 8) present hm
  unfold computeErrorLocs
  rw [hwork]
  exact (walshLocs_spec (K := gf8Kernel) hm hend hlen hflag).1

/-- The sentinels are stored in place. -/
theorem length_markIdentity (locs : List (BitVec 16)) :
    (markIdentity present driver locs).length = locs.length :=
  markIdentity_inv (fun u => u.length = locs.length) locs rfl
    (fun _ _ _ _ hu _ => List.length_set.trans hu) (fun _ _ _ _ hu _ => List.length_set.trans hu)

theorem length_errorLocs16 (hm : driver.parityShards ≤ driver.m)
    (hwork : driver.workSize = driver.m + driver.dataShards)
    (hend : driver.m + driver.dataShards ≤ 2 ^ 16) :
    (errorLocs16 driver present (missingIn present driver.dataShards driver.parityShards)
      (missingIn present 0 driver.dataShards) gf16Kernel.tables).length = driver.workSize := by
  unfold errorLocs16
  simp only
  split_ifs
  · rw [length_markIdentity]
    unfold fillSparseErrorLocs16
    rw [List.length_map, List.length_range]
  · obtain ⟨hlen, hflag⟩ := markMissing_spec (w := 16) (missingLists_missingIn present driver)
    have hlocs : (computeErrorLocs16 (missingIn present driver.dataShards driver.parityShards)
        (missingIn present 0 driver.dataShards) driver gf16Kernel.tables).length = 2 ^ 16 := by
      unfold computeErrorLocs16
      rw [hwork]
      exact (walshLocs_spec (K := gf16Kernel) hm hend hlen hflag).1
    rw [List.length_take, hlocs]
    omega

end Locator

section Safety

/-- What an encode call of a shape uses: its driver is built, its plans look up entries of the
skew table only, and their blocks stay inside the lanes of a group. -/
def SafeEncode (F : Family w) (dataShards parityShards shardSize : Nat) : Prop :=
  ∃ driver plans, F.encodeDriver dataShards parityShards shardSize = .ok driver ∧
    EncodePlans.new dataShards parityShards driver F.kernel.tables = .ok plans ∧
    plans.Inside driver.m ∧ parityShards ≤ driver.m ∧ driver.workSlices = driver.m * 2

/-- What a decode call of a shape uses: its driver is built, its plans look up entries of the skew
table only, their blocks stay inside the lanes, and so does every shard, whose locator value is in
the locator. -/
def SafeDecode (D : Decoder w) (dataShards parityShards shardSize : Nat) (present : List Bool) :
    Prop :=
  ∃ driver plan, D.decodeDriver dataShards parityShards shardSize = .ok driver ∧
    buildDecodePlan D present driver = .ok plan ∧ driver.n ≤ order w ∧
    plan.ifftPlan.Inside driver.n ∧ plan.fftPlan.Inside driver.n ∧
    (∀ task ∈ receivedLanes driver,
      task.1 < dataShards + parityShards ∧ task.2 < driver.n ∧ task.2 < plan.errLocs.length) ∧
    ∀ i, i < dataShards + parityShards →
      laneOf dataShards driver.m i < driver.n ∧
        laneOf dataShards driver.m i < plan.errLocs.length

variable {dataShards parityShards k shardSize : Nat}

theorem Admitted.safeEncode (F : Family w) (h : Admitted w dataShards parityShards k)
    (h0 : 0 < shardSize) (h64 : 64 ∣ shardSize) : SafeEncode F dataShards parityShards shardSize := by
  obtain ⟨driver, hdriver, hsized, -⟩ := h.buildEncodeDriver_eq
    (F.encodeChunkSize dataShards parityShards shardSize) h0 h64
  have hpos := Nat.two_pow_pos k
  refine ⟨driver, _, hdriver, h.encodePlans_eq F.kernel.fftSkew_length hsized, ?_, ?_, ?_⟩
  · rw [hsized.m_eq]
    refine ⟨ifftPlanAt_inside (Nat.min_le_right _ _), fftPlanAt_inside h.parity_le,
      fun plan hplan => ?_, fun plan hplan => ?_⟩
    · obtain ⟨offset, -, rfl⟩ := List.mem_map.mp hplan
      exact ifftPlanAt_inside le_rfl
    · unfold encodePlansAt at hplan
      simp only at hplan
      split_ifs at hplan
      obtain rfl := Option.some.inj hplan
      exact ifftPlanAt_inside (Nat.mod_lt _ hpos).le
  · rw [hsized.m_eq]
    exact h.parity_le
  · rw [hsized.workSlices_eq, hsized.m_eq]

/-- A decoder whose locator covers the received lanes. -/
theorem Admitted.safeDecode (D : Decoder w) (h : Admitted w dataShards parityShards k)
    (h0 : 0 < shardSize) (h64 : 64 ∣ shardSize) {present : List Bool}
    (hlocs : ∀ driver : DecodeDriver, driver.parityShards ≤ driver.m →
      driver.workSize = driver.m + driver.dataShards → driver.m + driver.dataShards ≤ 2 ^ w →
      driver.workSize ≤ (D.errorLocs present driver).length) :
    SafeDecode D dataShards parityShards shardSize present := by
  obtain ⟨n, hn, hdriver⟩ := h.decodeDriver_eq D.toFamily h0 h64
  have hlanes := hn.lanes_le
  have hparity := h.parity_le
  have hend := h.workSize_le
  have hcount := (D.inputCount_spec present
    (D.decodeDriverAt dataShards parityShards shardSize k n)).le_workSize
  have hlen := hlocs (D.decodeDriverAt dataShards parityShards shardSize k n) hparity rfl hend
  have hwork : (D.decodeDriverAt dataShards parityShards shardSize k n).workSize =
    2 ^ k + dataShards := rfl
  rw [hwork] at hlen
  refine ⟨_, _, hdriver, buildDecodePlan_eq D hn present, hn.two_pow_le,
    ifftPlanAt_inside (hcount.trans hlanes), fftPlanAt_inside hlanes, fun task htask => ?_,
    fun i hi => ?_⟩
  · change task.1 < dataShards + parityShards ∧ task.2 < 2 ^ n ∧
      task.2 < (D.errorLocs present (D.decodeDriverAt dataShards parityShards shardSize k n)).length
    rcases List.mem_append.mp htask with htask | htask
    · obtain ⟨i, hi, rfl⟩ := List.mem_map.mp htask
      have hi : i < dataShards := List.mem_range.mp hi
      change i < _ ∧ 2 ^ k + i < _ ∧ 2 ^ k + i < _
      omega
    · obtain ⟨i, hi, rfl⟩ := List.mem_map.mp htask
      have hi : i < parityShards := List.mem_range.mp hi
      change dataShards + i < _ ∧ i < _ ∧ i < _
      omega
  · change laneOf dataShards (2 ^ k) i < 2 ^ n ∧ laneOf dataShards (2 ^ k) i <
      (D.errorLocs present (D.decodeDriverAt dataShards parityShards shardSize k n)).length
    unfold laneOf
    split_ifs <;> omega

/-- Whether a family executes a shape safely for every shard length and present pattern. -/
def SafeShape (D : Decoder w) (dataShards parityShards : Nat) : Prop :=
  ∀ shardSize, 0 < shardSize → 64 ∣ shardSize →
    SafeEncode D.toFamily dataShards parityShards shardSize ∧
      ∀ present, SafeDecode D dataShards parityShards shardSize present

theorem Admitted.safe8 (h : Admitted 8 dataShards parityShards k) :
    SafeShape gf8Decoder dataShards parityShards := by
  intro shardSize h0 h64
  refine ⟨h.safeEncode gf8Family h0 h64, fun present => h.safeDecode gf8Decoder h0 h64 ?_⟩
  intro driver hm hwork hend
  simp only [gf8Decoder]
  rw [length_computeErrorLocs present hm hwork hend, hwork]
  exact hend

theorem Admitted.safe16 (h : Admitted 16 dataShards parityShards k) :
    SafeShape gf16Decoder dataShards parityShards := by
  intro shardSize h0 h64
  refine ⟨h.safeEncode gf16Family h0 h64, fun present => h.safeDecode gf16Decoder h0 h64 ?_⟩
  intro driver hm hwork hend
  have hlen := length_errorLocs16 present hm hwork hend
  exact hlen.ge

end Safety

end Leopard

section Shapes

open Leopard

variable {dataShards parityShards : Nat} {options : CodecOptions} {family : CodecFamily}

/-- A Leopard family takes exactly the shapes whose rounded data and parity fit its points, and
what it takes is executed without a lookup outside a table, a lane or a locator. -/
theorem leopard_admission_safe (hne : family ≠ .classic)
    (hres : resolvedFamily Galois8 dataShards parityShards options = family) :
    (Accepts Galois8 dataShards parityShards options →
      (family = .leopardGF8 → SafeShape gf8Decoder dataShards parityShards) ∧
      (family = .leopardGF16 → SafeShape gf16Decoder dataShards parityShards)) ∧
    (maxTotalShardsForFamily Galois8 family < roundUp dataShards (Nat.nextPowerOfTwo parityShards) +
        Nat.nextPowerOfTwo parityShards →
      ¬Accepts Galois8 dataShards parityShards options) := by
  have haccepts := accepts_leopard_iff (E := Galois8) rfl hne hres
  refine ⟨fun h => ⟨?_, ?_⟩, fun hover h => absurd (haccepts.mp h).2.2 (not_le.mpr hover)⟩
  · rintro rfl
    have hfits := (leopardShardComboFits_iff (by decide)).mpr (haccepts.mp h)
    obtain ⟨k, hk⟩ := admitted_of_fits (w := 8) hfits
    exact hk.safe8
  · rintro rfl
    have hfits := (leopardShardComboFits_iff (by decide)).mpr (haccepts.mp h)
    obtain ⟨k, hk⟩ := admitted_of_fits (w := 16) hfits
    exact hk.safe16

/-- GF16 takes three data and two parity shards, and GF8 not 200 and 33. -/
theorem leopard_admission_safe_sample : SafeShape gf16Decoder 3 2 ∧
    ¬Accepts Galois8 200 33 { codecFamily := .leopardGF8 } := by
  have hres16 : resolvedFamily Galois8 3 2 { codecFamily := .leopardGF16 } = .leopardGF16 := rfl
  have hres8 : resolvedFamily Galois8 200 33 { codecFamily := .leopardGF8 } = .leopardGF8 := rfl
  have hpow2 : Nat.nextPowerOfTwo 2 = 2 := nextPowerOfTwo_eq (k := 1) (by decide) (by decide)
  have hpow33 : Nat.nextPowerOfTwo 33 = 64 := nextPowerOfTwo_eq (k := 6) (by decide) (by decide)
  constructor
  · have haccepts : Accepts Galois8 3 2 { codecFamily := .leopardGF16 } :=
      (accepts_leopard_iff rfl (by decide) hres16).mpr
        ⟨by decide, by decide, by rw [hpow2]; decide⟩
    exact ((leopard_admission_safe (by decide) hres16).1 haccepts).2 rfl
  · exact (leopard_admission_safe (by decide) hres8).2 (by rw [hpow33]; decide)

end Shapes

end ErasureCodec
