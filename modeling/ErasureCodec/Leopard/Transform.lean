import ErasureCodec.Leopard.Butterfly

namespace ErasureCodec

namespace Leopard

variable {w : Nat}

section Definitions

/-- `lane.fill(0)`. -/
def clearLane (lane : List (BitVec w)) : List (BitVec w) := List.replicate lane.length 0#w

/-- `zero_trailing_lanes` and its siblings. -/
def zeroLanes (start count : Nat) (work : Work w) : Work w :=
  (List.range' start count).foldl (fun work i => work.set i (clearLane (work.getD i []))) work

/-- Lanes overwritten by the input of the same index. -/
def loadLanes (load : Nat → List (BitVec w)) (start count : Nat) (work : Work w) : Work w :=
  (List.range' start count).foldl (fun work i => work.set i (load i)) work

/-- The lanes of a group of four before its butterflies. -/
def prepareGroup (fill : Nat → Nat → Work w → Work w) (mtrunc r : Nat) (work : Work w) : Work w :=
  let available := min (mtrunc - r) 4
  zeroLanes (r + available) (4 - available) (fill r available work)

/-- The radix-4 passes of an inverse transform. -/
def ifftPasses (K : Kernel w) (strategy : Dit4Strategy) (fill : Nat → Nat → Work w → Work w)
    (plan : IfftDitPlan w) (work : Work w) : Work w :=
  if plan.initialBlocks.isEmpty then
    zeroLanes plan.mtrunc (plan.m - plan.mtrunc) (fill 0 plan.mtrunc work)
  else
    let work := plan.initialBlocks.foldl (fun work block =>
      dit4At K strategy .inverse (prepareGroup fill plan.mtrunc block.r work) block) work
    let work := zeroLanes plan.clearStart (plan.m - plan.clearStart) work
    plan.laterBlocks.foldl (dit4At K strategy .inverse) work

def ifftFinalPairs (K : Kernel w) (finalStage : Option (Stage2Block w)) (work : Work w) : Work w :=
  match finalStage with
  | none => work
  | some stage =>
    (List.range stage.dist).foldl (fun work i =>
      onPair (dit2 K .inverse stage.logM) i (i + stage.dist) work) work

/-- `ifft_dit_encoder8_with_plan` and `ifft_dit_encoder16_with_plan` before the
sum: `load` is the input of the group. -/
def ifftDitEncoderWithPlan (K : Kernel w) (strategy : Dit4Strategy) (load : Nat → List (BitVec w))
    (plan : IfftDitPlan w) (work : Work w) : Work w :=
  ifftFinalPairs K plan.finalStage (ifftPasses K strategy (loadLanes load) plan work)

/-- `ifft_dit_decode8_with_plan`, `ifft_dit_decode16_with_plan`: the input is in
the lanes. -/
def ifftDitDecodeWithPlan (K : Kernel w) (plan : IfftDitPlan w) (work : Work w) : Work w :=
  ifftFinalPairs K plan.finalStage (ifftPasses K .directSafe (fun _ _ work => work) plan work)

/-- `fft_dit8_with_plan` and its siblings. -/
def fftDitWithPlan (K : Kernel w) (strategy : Dit4Strategy) (plan : FftDitPlan w)
    (work : Work w) : Work w :=
  let work := plan.stage4Blocks.foldl (dit4At K strategy .forward) work
  plan.finalStage.foldl (fun work stage =>
    onPair (dit2 K .forward stage.logM) stage.r (stage.r + stage.dist) work) work

/-- One round of the derivative: `work[i - width..i] ^= work[i..i + width]`. -/
def derivativeRound (n : Nat) (work : Work w) (i : Nat) : Work w :=
  let width := ((i ^^^ (i - 1)) + 1) >>> 1
  (List.range width).foldl (fun work j =>
    if i + j < n ∧ i - width + j < n then
      onPair (fun hi lo => (hi, sliceXor hi lo)) (i + j) (i - width + j) work
    else work) work

/-- `compute_formal_derivative`, `compute_formal_derivative16`. -/
def computeFormalDerivative (n : Nat) (work : Work w) : Work w :=
  (List.range' 1 (n - 1)).foldl (derivativeRound n) work

end Definitions

section Passes

open CantorPoints

variable {K : Kernel w} {n len base p : Nat} {work : Work w}

/-- Element `p` of the lanes holds the values of `f` at the positions from `base` on. -/
structure Holds (K : Kernel w) (n len base p : Nat) (f : Nat → K.lawful.lfsr.Elem)
    (work : Work w) : Prop where
  grid : Grid n len work
  value : ∀ i, i < n → column K base p work (base + i) = f (base + i)

theorem grid_dit4At (h : Grid n len work) (strategy : Dit4Strategy) (dir : TransformDir)
    (block : Stage4Block w) : Grid n len (dit4At K strategy dir work block) := by
  have hdirect (a : Nat) {work : Work w} (h : Grid n len work) :
      Grid n len (dit4Direct K dir block a work) := grid_dit4One h true dir block a
  have hpair (a : Nat) {work : Work w} (h : Grid n len work) :
      Grid n len (dit4PairwiseOne K dir block a work) := grid_dit4One h false dir block a
  have hone (i : Nat) {work : Work w} (h : Grid n len work) :
      Grid n len (dit4DirectOne K dir block work i) := by
    unfold dit4DirectOne
    split_ifs
    · exact hdirect _ h
    · exact hpair _ h
  unfold dit4At
  cases strategy with
  | decomposed => exact foldl_inv (Grid n len) _ _ _ h (fun i _ t ht => hpair _ ht)
  | direct =>
    apply foldl_inv (Grid n len)
    · exact foldl_inv (Grid n len) _ _ _ h (fun i _ t ht => hdirect _ ht)
    · exact fun i _ t ht => hone i ht
  | directSafe => exact foldl_inv (Grid n len) _ _ _ h (fun i _ t ht => hone i ht)
  | auto => exact h

/-- Where a block lies inside the lanes, the strategies run its groups in turn. -/
theorem dit4At_eq (h : Grid n len work) {strategy : Dit4Strategy} (hs : strategy ≠ .auto)
    (dir : TransformDir) {block : Stage4Block w} (hb : block.r + block.dist * 4 ≤ n) :
    dit4At K strategy dir work block = (List.range block.dist).foldl (fun work i =>
      dit4One K (strategy ≠ .decomposed) dir block (block.r + i) work) work := by
  have hone : (List.range block.dist).foldl (dit4DirectOne K dir block) work =
      (List.range block.dist).foldl (fun work i => dit4One K true dir block (block.r + i) work)
        work := by
    apply foldl_congr_inv (Grid n len) _ _ _ _ h
    intro i hi t ht
    have hlt := List.mem_range.mp hi
    have heq : dit4DirectOne K dir block t i = dit4One K true dir block (block.r + i) t := by
      unfold dit4DirectOne
      rw [if_pos (by rw [ht.length_eq]; omega)]
      rfl
    exact ⟨heq ▸ grid_dit4One ht true dir block _, heq⟩
  cases strategy with
  | decomposed => rfl
  | direct =>
    have hbulk : min block.dist (work.length - (block.r + block.dist * 3)) = block.dist := by
      rw [h.length_eq]
      omega
    unfold dit4At
    simp only [hbulk, Nat.sub_self, List.range'_zero, List.foldl_nil]
    rfl
  | directSafe => exact hone
  | auto => exact absurd rfl hs

/-- One pass computes two layers on the blocks that start below `mtrunc`. -/
theorem holds_pass {k b mtrunc : Nat} {f : Nat → K.lawful.lfsr.Elem} (hb : b + 2 ≤ k)
    (hbase : 2 ^ k ∣ base) (hw : base + 2 ^ k ≤ 2 ^ w) (hm : mtrunc ≤ 2 ^ k) (hp : p < len)
    {strategy : Dit4Strategy} (hs : strategy ≠ .auto) (dir : TransformDir)
    (h : Holds K (2 ^ k) len base p f work) :
    Holds K (2 ^ k) len base p
      (fun j => if (j - base) / 2 ^ (b + 2) * 2 ^ (b + 2) < mtrunc then K.layers dir b f j else f j)
      (((stepRange 0 mtrunc (2 ^ (b + 2))).map fun r => blockAt K.tables.fftSkew base r
        (2 ^ b)).foldl (dit4At K strategy dir) work) := by
  have hpow : 2 ^ (b + 2) = 4 * 2 ^ b := by rw [Nat.pow_add]; omega
  have hpos := Nat.two_pow_pos b
  obtain ⟨g, hg⟩ : 2 ^ (b + 2) ∣ base := dvd_trans (Nat.pow_dvd_pow 2 hb) hbase
  let step (work : Work w) (off : Nat) : Work w :=
    dit4One K (strategy ≠ .decomposed) dir
      (blockAt K.tables.fftSkew base (off / (4 * 2 ^ b) * (4 * 2 ^ b)) (2 ^ b)) off work
  -- the pass as one loop over the groups
  have hflat : ((stepRange 0 mtrunc (2 ^ (b + 2))).map fun r => blockAt K.tables.fftSkew base r
      (2 ^ b)).foldl (dit4At K strategy dir) work =
      (quadStarts mtrunc (2 ^ b) (4 * 2 ^ b)).foldl step work := by
    unfold quadStarts
    rw [List.foldl_map, List.foldl_flatMap, ← hpow]
    apply foldl_congr_inv (Grid (2 ^ k) len) _ _ _ _ h.grid
    intro r hr t ht
    refine ⟨grid_dit4At ht _ _ _, ?_⟩
    obtain ⟨q, hq, -, hend⟩ := block_lt hb hm hr
    rw [dit4At_eq ht hs dir (by exact hend), List.foldl_map]
    apply foldl_congr_inv (Grid (2 ^ k) len) _ _ _ _ ht
    intro i hi u hu
    refine ⟨grid_dit4One hu _ _ _ _, ?_⟩
    have hi' : i < 2 ^ b := List.mem_range.mp hi
    have hdiv : (r + i) / (4 * 2 ^ b) * (4 * 2 ^ b) = r := by
      rw [hq, ← hpow, Nat.add_comm, Nat.add_mul_div_right _ _ (Nat.two_pow_pos _),
        Nat.div_eq_of_lt (by omega), Nat.zero_add]
    change _ = dit4One K _ dir (blockAt _ base ((r + i) / (4 * 2 ^ b) * (4 * 2 ^ b)) _) (r + i) u
    rw [hdiv]
    rfl
  have hrun := foldl_inPlace (Grid (2 ^ k) len) (fun s i => column K base p s (base + i))
    (fun i => f (base + i)) (fun i => K.layers dir b f (base + i)) (Quad (2 ^ b)) step
    (quadStarts mtrunc (2 ^ b) (4 * 2 ^ b)) work h.grid
    (by
      intro off hoff i hi
      obtain ⟨q, t, ht, hq, rfl⟩ := (mem_quadStarts (by omega)).mp hoff
      apply h.value
      have hend := block_end_le (Nat.pow_dvd_pow 2 hb) (q := q) (by rw [hpow]; omega)
      rw [hpow, Nat.add_mul, Nat.one_mul] at hend
      rcases hi with rfl | rfl | rfl | rfl <;> omega)
    pairwise_quadStarts
    (by
      intro off hoff u hu hval
      obtain ⟨q, t, ht, hq, rfl⟩ := (mem_quadStarts (by omega)).mp hoff
      have hend := block_end_le (Nat.pow_dvd_pow 2 hb) (q := q) (by rw [hpow]; omega)
      have hdiv : (q * (4 * 2 ^ b) + t) / (4 * 2 ^ b) * (4 * 2 ^ b) = q * 2 ^ (b + 2) := by
        rw [Nat.add_comm, Nat.add_mul_div_right _ _ (by omega), Nat.div_eq_of_lt (by omega),
          Nat.zero_add, hpow]
      have hshift (j : Nat) : Quad (2 ^ b) (q * (4 * 2 ^ b) + t) j ↔
          Quad (2 ^ b) (base + q * 2 ^ (b + 2) + t) (base + j) := by
        unfold Quad
        rw [hpow]
        omega
      rw [Nat.add_mul, Nat.one_mul] at hend
      obtain ⟨hin, hout⟩ := column_group hu (strategy ≠ .decomposed) dir base (q := g + q)
        (f := f) (i := t) (b := b) (r := q * 2 ^ (b + 2)) (by rw [hg]; ring)
        (by rw [Nat.add_mul, Nat.one_mul, Nat.add_mul, Nat.mul_comm g, ← hg]; omega)
        (by omega) ht hp (by
          intro j hj
          obtain ⟨i, rfl⟩ : ∃ i, j = base + i := ⟨j - base, by unfold Quad at hj; omega⟩
          exact hval i ((hshift i).mpr hj))
      change Grid _ _ (dit4One K _ dir (blockAt _ base _ _) _ u) ∧ _
      simp only [step]
      rw [hdiv, ← hpow]
      refine ⟨grid_dit4One hu _ _ _ _, fun i hi => ?_, fun i hi => ?_⟩
      · exact hin _ ((hshift i).mp (by rwa [← hpow]))
      · exact hout _ (fun hq => hi (by rw [hpow]; exact (hshift i).mpr hq)))
  obtain ⟨hgrid, hin, hout⟩ := hrun
  rw [hflat]
  refine ⟨hgrid, fun i hi => ?_⟩
  simp only [Nat.add_sub_cancel_left]
  split_ifs with hblock
  · exact hin i ((exists_quad hpos).mpr (by rwa [← hpow]))
  · rw [← h.value i hi]
    apply hout i
    intro off hoff hquad
    exact hblock (by rw [hpow]; exact (exists_quad hpos).mp ⟨off, hoff, hquad⟩)

theorem column_beyond (h : Grid n len work) {i : Nat} (hi : n ≤ i) :
    column K base p work (base + i) = 0 := by
  have hrow : work.getD i [] = [] := List.getD_eq_default _ _ (by rw [h.length_eq]; exact hi)
  unfold column
  rw [if_neg (by omega), Nat.add_sub_cancel_left, hrow, List.getD_nil, K.elem_zero]

/-- Lanes overwritten one after the other. -/
theorem column_store (h : Grid n len work) (val : Work w → Nat → List (BitVec w))
    (target : Nat → K.lawful.lfsr.Elem) (base p start count : Nat) (hend : start + count ≤ n)
    (hval : ∀ u i, start ≤ i → i < start + count → Grid n len u →
      (val u i).length = len ∧ K.elem ((val u i).getD p 0#w) = target i) :
    let stored := (List.range' start count).foldl (fun work i => work.set i (val work i)) work
    Grid n len stored ∧ ∀ i, i < n → column K base p stored (base + i) =
      if start ≤ i ∧ i < start + count then target i else column K base p work (base + i) := by
  have hrun := foldl_range'_inv (fun t u => Grid n len u ∧ ∀ i, i < n →
      column K base p u (base + i) =
        if start ≤ i ∧ i < t then target i else column K base p work (base + i))
    (fun work i => work.set i (val work i)) start count work
    ⟨h, fun i _ => by rw [if_neg (by omega)]⟩
    (by
      intro t hge hlt u ⟨hu, hcol⟩
      obtain ⟨hlen, htarget⟩ := hval u t hge hlt hu
      refine ⟨grid_set hu t hlen, fun i hi => ?_⟩
      rw [column_set hu (by omega), htarget]
      by_cases hit : i = t
      · rw [if_pos (by omega), if_pos (by omega), hit]
      · rw [if_neg (by omega), hcol i hi]
        by_cases hin : start ≤ i ∧ i < t
        · rw [if_pos hin, if_pos (by omega)]
        · rw [if_neg hin, if_neg (by omega)])
  exact hrun

theorem column_zeroLanes (h : Grid n len work) (base p start count : Nat)
    (hend : start + count ≤ n) :
    Grid n len (zeroLanes start count work) ∧ ∀ i, i < n →
      column K base p (zeroLanes start count work) (base + i) =
        if start ≤ i ∧ i < start + count then 0 else column K base p work (base + i) := by
  refine column_store h (fun work i => clearLane (work.getD i [])) (fun _ => 0) base p start count
    hend ?_
  intro u i _ hi hu
  unfold clearLane
  refine ⟨by rw [List.length_replicate, hu.row_length i (by omega)], ?_⟩
  rw [List.getD_eq_getElem?_getD, List.getElem?_getD_replicate_default_eq, K.elem_zero]

theorem column_loadLanes (h : Grid n len work) (base p : Nat) (load : Nat → List (BitVec w))
    (start count : Nat) (hend : start + count ≤ n)
    (hload : ∀ i, start ≤ i → i < start + count → (load i).length = len) :
    Grid n len (loadLanes load start count work) ∧ ∀ i, i < n →
      column K base p (loadLanes load start count work) (base + i) =
        if start ≤ i ∧ i < start + count then K.elem ((load i).getD p 0#w)
        else column K base p work (base + i) :=
  column_store h (fun _ i => load i) (fun i => K.elem ((load i).getD p 0#w)) base p start count hend
    (fun _ i hge hlt _ => ⟨hload i hge hlt, rfl⟩)

/-- A layer by butterflies on the pairs that start at the tasks. -/
theorem holds_pairs (base : Nat) {b : Nat} {f : Nat → K.lawful.lfsr.Elem} (hp : p < len)
    (dir : TransformDir)
    (tasks : List Nat) (logM : Nat → BitVec w) (hnodup : tasks.Nodup)
    (htasks : ∀ a ∈ tasks, ∃ q i, i < 2 ^ b ∧ base + a = q * 2 ^ (b + 1) + i ∧ a + 2 ^ b < n ∧
      K.multiplier (logM a) = K.lawful.points.point (2 * q))
    (h : Holds K n len base p f work) :
    let work' := tasks.foldl (fun work a => onPair (dit2 K dir (logM a)) a (a + 2 ^ b) work) work
    Grid n len work' ∧ ∀ i, i < n →
      ((∃ a ∈ tasks, i = a ∨ i = a + 2 ^ b) →
        column K base p work' (base + i) = K.layer dir b f (base + i)) ∧
      ((∀ a ∈ tasks, ¬(i = a ∨ i = a + 2 ^ b)) →
        column K base p work' (base + i) = f (base + i)) := by
  have hpos := Nat.two_pow_pos b
  -- the pair of a position is known by its block and its offset in the half
  have hblock (a q i j : Nat) (hi : i < 2 ^ b) (ha : base + a = q * 2 ^ (b + 1) + i)
      (hj : j = a ∨ j = a + 2 ^ b) :
      (base + j) / 2 ^ (b + 1) = q ∧ (base + j) % 2 ^ b = i := by
    obtain ⟨-, h2, -, h4⟩ := pair_index b q hi
    rcases hj with rfl | rfl
    · refine ⟨by rw [ha, h2], ?_⟩
      rw [ha, Nat.pow_succ, Nat.mul_comm (2 ^ b) 2, ← Nat.mul_assoc, Nat.add_comm,
        Nat.add_mul_mod_self_right, Nat.mod_eq_of_lt hi]
    · have heq : base + (a + 2 ^ b) = q * 2 ^ (b + 1) + 2 ^ b + i := by omega
      refine ⟨by rw [heq, h4], ?_⟩
      rw [heq, show q * 2 ^ (b + 1) + 2 ^ b + i = i + (2 * q + 1) * 2 ^ b by rw [Nat.pow_succ]; ring,
        Nat.add_mul_mod_self_right, Nat.mod_eq_of_lt hi]
  obtain ⟨hgrid, hin, hout⟩ := foldl_inPlace (Grid n len)
    (fun s i => column K base p s (base + i)) (fun i => f (base + i))
    (fun i => K.layer dir b f (base + i)) (fun a i => i = a ∨ i = a + 2 ^ b)
    (fun work a => onPair (dit2 K dir (logM a)) a (a + 2 ^ b) work) tasks work h.grid
    (by
      intro a ha i hi
      obtain ⟨q, t, -, -, hlt, -⟩ := htasks a ha
      exact h.value i (by omega))
    (by
      apply hnodup.imp_of_mem
      intro a a' ha ha' hne i hi hi'
      obtain ⟨q, t, ht, heq, -, -⟩ := htasks a ha
      obtain ⟨q', t', ht', heq', -, -⟩ := htasks a' ha'
      obtain ⟨e1, e2⟩ := hblock a q t i ht heq hi
      obtain ⟨e3, e4⟩ := hblock a' q' t' i ht' heq' hi'
      rw [← e1, ← e2] at heq
      rw [← e3, ← e4] at heq'
      omega)
    (by
      intro a ha u hu hval
      obtain ⟨q, t, ht, heq, hlt, hm⟩ := htasks a ha
      have hcol := column_onPair (K := K) hu dir (logM a) base (p := p) (i := a) (j := a + 2 ^ b)
        (by omega) (by omega) hlt hp
      have hop := pairOp_layer (K := K) dir b q f ht
      rw [← heq, show q * 2 ^ (b + 1) + 2 ^ b + t = base + (a + 2 ^ b) by omega] at hop
      have h1 := hval a (.inl rfl)
      have h2 := hval (a + 2 ^ b) (.inr rfl)
      refine ⟨grid_onPair hu _ _ _ _, ?_, ?_⟩
      · rintro i (rfl | rfl)
        · rw [hcol, pairUpdate, if_pos rfl, h1, h2, hm, hop]
        · rw [hcol, pairUpdate, if_neg (by omega), if_pos rfl, h1, h2, hm, hop]
      · intro i hi
        rw [hcol, pairUpdate, if_neg (by omega), if_neg (by omega)])
  refine ⟨hgrid, fun i hi => ⟨fun hex => hin i hex, fun hnone => ?_⟩⟩
  exact (hout i hnone).trans (h.value i hi)

end Passes

section Inverse

open CantorPoints

variable {K : Kernel w} {len base p k mtrunc : Nat} {work : Work w}

/-- Past the input every block of values and coefficients is zero. -/
theorem inverseTo_beyond {v : Nat → K.lawful.lfsr.Elem} (hbase : 2 ^ k ∣ base)
    (hv : ∀ i, mtrunc ≤ i → i < 2 ^ k → v (base + i) = 0) {c i : Nat} (hc : c ≤ k)
    (hi : i < 2 ^ k) (hblock : mtrunc ≤ i / 2 ^ c * 2 ^ c) :
    K.lawful.points.inverseTo c v (base + i) = 0 := by
  obtain ⟨g, rfl⟩ := dvd_trans (Nat.pow_dvd_pow 2 hc) hbase
  have hdiv := Nat.div_add_mod' i (2 ^ c)
  have hmod := Nat.mod_lt i (Nat.two_pow_pos c)
  have hend := block_end_le (Nat.pow_dvd_pow 2 hc) (q := i / 2 ^ c) (by omega)
  rw [Nat.add_mul, Nat.one_mul] at hend
  have hpos : 2 ^ c * g + i = (g + i / 2 ^ c) * 2 ^ c + i % 2 ^ c := by
    rw [Nat.add_mul, Nat.mul_comm g]
    omega
  rw [hpos]
  apply K.lawful.points.inverseTo_eq_zero c _ _ hmod
  intro t ht
  rw [show (g + i / 2 ^ c) * 2 ^ c + t = 2 ^ c * g + (i / 2 ^ c * 2 ^ c + t) by
    rw [Nat.add_mul, Nat.mul_comm g]; omega]
  exact hv _ (by omega) (by omega)

/-- What a loader of input lanes does, given what the lanes hold before. -/
def Fills (K : Kernel w) (n len base p mtrunc : Nat) (before v : Nat → K.lawful.lfsr.Elem)
    (fill : Nat → Nat → Work w → Work w) : Prop :=
  ∀ start count u, start + count ≤ mtrunc → Grid n len u →
    (∀ i, start ≤ i → i < start + count → column K base p u (base + i) = before (base + i)) →
    Grid n len (fill start count u) ∧ ∀ i, i < n → column K base p (fill start count u) (base + i) =
      if start ≤ i ∧ i < start + count then v (base + i) else column K base p u (base + i)

/-- A prepared group holds the values of its four positions. -/
theorem column_prepareGroup {fill : Nat → Nat → Work w → Work w}
    {before v : Nat → K.lawful.lfsr.Elem}
    (hfill : Fills K (2 ^ k) len base p mtrunc before v fill)
    (hv : ∀ i, mtrunc ≤ i → i < 2 ^ k → v (base + i) = 0) {r : Nat} (hr : r < mtrunc)
    (hend : r + 4 ≤ 2 ^ k) (h : Grid (2 ^ k) len work)
    (hbefore : ∀ i, r ≤ i → i < r + 4 → column K base p work (base + i) = before (base + i)) :
    Grid (2 ^ k) len (prepareGroup fill mtrunc r work) ∧ ∀ i, i < 2 ^ k →
      column K base p (prepareGroup fill mtrunc r work) (base + i) =
        if r ≤ i ∧ i < r + 4 then v (base + i) else column K base p work (base + i) := by
  obtain ⟨count, hcount⟩ : ∃ count, count = min (mtrunc - r) 4 := ⟨_, rfl⟩
  obtain ⟨hg1, hc1⟩ := hfill r count work (by omega) h (fun i hge hlt => hbefore i hge (by omega))
  obtain ⟨hg2, hc2⟩ := column_zeroLanes (K := K) hg1 base p (r + count) (4 - count)
    (by omega)
  unfold prepareGroup
  simp only [← hcount]
  refine ⟨hg2, fun i hi => ?_⟩
  rw [hc2 i hi, hc1 i hi]
  by_cases hin : r ≤ i ∧ i < r + 4
  · rw [if_pos hin]
    by_cases hzero : r + count ≤ i ∧ i < r + count + (4 - count)
    · rw [if_pos hzero, hv i (by omega) hi]
    · rw [if_neg hzero, if_pos (by omega)]
  · rw [if_neg hin, if_neg (by omega), if_neg (by omega)]

/-- The first pass of an inverse transform: two layers on the groups of four
that hold input. -/
theorem holds_initialBlocks {fill : Nat → Nat → Work w → Work w}
    {before v : Nat → K.lawful.lfsr.Elem} (hk : 2 ≤ k) (hbase : 2 ^ k ∣ base)
    (hw : base + 2 ^ k ≤ 2 ^ w) (hm : mtrunc ≤ 2 ^ k) (hp : p < len)
    {strategy : Dit4Strategy} (hs : strategy ≠ .auto)
    (hfill : Fills K (2 ^ k) len base p mtrunc before v fill)
    (hv : ∀ i, mtrunc ≤ i → i < 2 ^ k → v (base + i) = 0)
    (h : Holds K (2 ^ k) len base p before work) :
    let work' := ((initialStarts mtrunc).map fun r => blockAt K.tables.fftSkew base r 1).foldl
      (fun work block =>
        dit4At K strategy .inverse (prepareGroup fill mtrunc block.r work) block) work
    Grid (2 ^ k) len work' ∧ ∀ i, i / 4 * 4 < mtrunc →
      column K base p work' (base + i) = K.lawful.points.inverseTo 2 v (base + i) := by
  have h4 : 4 ∣ 2 ^ k := Nat.pow_dvd_pow 2 hk
  obtain ⟨g, hg⟩ := dvd_trans h4 hbase
  rw [List.foldl_map]
  obtain ⟨hgrid, hin, -⟩ := foldl_inPlace (Grid (2 ^ k) len)
    (fun s i => column K base p s (base + i)) (fun i => before (base + i))
    (fun i => K.lawful.points.inverseTo 2 v (base + i)) (fun r i => r ≤ i ∧ i < r + 4)
    (fun work r => dit4At K strategy .inverse (prepareGroup fill mtrunc r work)
      (blockAt K.tables.fftSkew base r 1)) (initialStarts mtrunc) work h.grid
    (by
      intro r hr i hi
      obtain ⟨q, rfl, hlt⟩ := mem_initialStarts.mp hr
      have hend := block_end_le h4 (q := q) (by omega)
      exact h.value i (by omega))
    (by
      unfold initialStarts
      simp only
      rw [List.pairwise_append]
      refine ⟨pairwise_stepRange.imp ?_, ?_, ?_⟩
      · rintro a b ⟨c, hc, rfl⟩ i hi hi'
        omega
      · split_ifs
        · exact List.pairwise_singleton _ _
        · exact List.Pairwise.nil
      · intro a ha b hb i hi hi'
        obtain ⟨q, rfl, hlt⟩ := (mem_stepRange (by decide)).mp ha
        split_ifs at hb
        · have := List.mem_singleton.mp hb
          omega
        · simp at hb)
    (by
      intro r hr u hu hval
      obtain ⟨q, rfl, hlt⟩ := mem_initialStarts.mp hr
      have hend := block_end_le h4 (q := q) (by omega)
      obtain ⟨hg1, hc1⟩ := column_prepareGroup hfill hv hlt (by omega) hu
        (fun i hge hi => hval i ⟨hge, hi⟩)
      have hquad (i : Nat) : q * 4 ≤ i ∧ i < q * 4 + 4 ↔
          Quad (2 ^ 0) (base + q * 4 + 0) (base + i) := by
        unfold Quad
        omega
      obtain ⟨hin, hout⟩ := column_group hg1 (strategy ≠ .decomposed) .inverse base (q := g + q)
        (f := v) (i := 0) (b := 0) (r := q * 4) (by omega) (by omega) (by omega) (by decide) hp (by
          intro j hj
          obtain ⟨i, rfl⟩ : ∃ i, j = base + i := ⟨j - base, by unfold Quad at hj; omega⟩
          have hi := (hquad i).mpr hj
          rw [hc1 i (by omega), if_pos hi])
      have hblock : (blockAt K.tables.fftSkew base (q * 4) 1).r +
          (blockAt K.tables.fftSkew base (q * 4) 1).dist * 4 ≤ 2 ^ k := by
        change q * 4 + 1 * 4 ≤ _
        omega
      have heq := dit4At_eq (K := K) hg1 hs .inverse hblock
      refine ⟨grid_dit4At hg1 _ _ _, fun i hi => ?_, fun i hi => ?_⟩
      · rw [heq]
        exact hin _ ((hquad i).mp hi)
      · rw [heq]
        refine (hout _ (fun hq => hi ((hquad i).mpr hq))).trans ?_
        by_cases hlt' : i < 2 ^ k
        · rw [hc1 i hlt', if_neg hi]
        · rw [column_beyond hg1 (by omega), column_beyond hu (by omega)])
  refine ⟨hgrid, fun i hi => ?_⟩
  exact hin i ⟨i / 4 * 4, mem_initialStarts.mpr ⟨i / 4, rfl, hi⟩, by omega⟩

/-- The later passes. -/
theorem holds_laterBlocks {v : Nat → K.lawful.lfsr.Elem} (hk : 2 ≤ k) (hbase : 2 ^ k ∣ base)
    (hw : base + 2 ^ k ≤ 2 ^ w) (hm : mtrunc ≤ 2 ^ k) (hp : p < len)
    {strategy : Dit4Strategy} (hs : strategy ≠ .auto)
    (hv : ∀ i, mtrunc ≤ i → i < 2 ^ k → v (base + i) = 0)
    (h : Holds K (2 ^ k) len base p (K.lawful.points.inverseTo 2 v) work) :
    Holds K (2 ^ k) len base p (K.lawful.points.inverseTo (k - k % 2) v)
      ((passBlocks K.tables.fftSkew base mtrunc (laterPasses (2 ^ k)).1).foldl
        (dit4At K strategy .inverse) work) := by
  have h4 : 4 ≤ 2 ^ k := Nat.pow_le_pow_right (n := 2) (by decide) hk
  have hrun := (foldl_radix4Up
    (fun c s => Holds K (2 ^ k) len base p (K.lawful.points.inverseTo c v) s)
    (fun s d => ((stepRange 0 mtrunc d.2).map fun r => blockAt K.tables.fftSkew base r d.1).foldl
      (dit4At K strategy .inverse) s) k 2 hk work h
    (by
      intro c hc s hold
      have hpass := holds_pass hc hbase hw hm hp hs .inverse hold
      refine ⟨hpass.grid, fun i hi => ?_⟩
      rw [hpass.value i hi, Nat.add_sub_cancel_left]
      split_ifs with hblock
      · rfl
      · have hle := block_start_le (Nat.le_add_right c 2) i
        rw [inverseTo_beyond hbase hv (by omega) hi (by omega),
          inverseTo_beyond hbase hv hc hi (by omega)])).2
  unfold passBlocks laterPasses
  rw [if_pos h4, List.foldl_flatten, List.foldl_map]
  rw [show (k - 2) % 2 = k % 2 by omega] at hrun
  exact hrun

/-- The passes of an inverse transform finish all layers but the last of an odd number. -/
theorem holds_ifftPasses {fill : Nat → Nat → Work w → Work w}
    {before v : Nat → K.lawful.lfsr.Elem} (hbase : 2 ^ k ∣ base) (hw : base + 2 ^ k ≤ 2 ^ w)
    (h0 : 0 < mtrunc) (hm : mtrunc ≤ 2 ^ k) (hp : p < len)
    {strategy : Dit4Strategy} (hs : strategy ≠ .auto)
    (hfill : Fills K (2 ^ k) len base p mtrunc before v fill)
    (hv : ∀ i, mtrunc ≤ i → i < 2 ^ k → v (base + i) = 0)
    (h : Holds K (2 ^ k) len base p before work) :
    Holds K (2 ^ k) len base p (K.lawful.points.inverseTo (k - k % 2) v)
      (ifftPasses K strategy fill (ifftPlanAt K.tables.fftSkew base mtrunc (2 ^ k)) work) := by
  unfold ifftPasses
  rcases Nat.lt_or_ge k 2 with hk | hk
  · -- no radix-4 pass: the lanes hold the input
    have h4 : ¬4 ≤ 2 ^ k := by
      have := Nat.pow_lt_pow_right (a := 2) (by decide) hk
      omega
    have hempty : (ifftPlanAt K.tables.fftSkew base mtrunc (2 ^ k)).initialBlocks = [] := by
      unfold ifftPlanAt
      rw [if_neg h4]
    rw [hempty, List.isEmpty_nil, if_pos rfl]
    obtain ⟨hg1, hc1⟩ := hfill 0 mtrunc work (by omega) h.grid (fun i _ hi => h.value i (by omega))
    obtain ⟨hg2, hc2⟩ := column_zeroLanes (K := K) hg1 base p mtrunc (2 ^ k - mtrunc)
      (by omega)
    refine ⟨hg2, fun i hi => ?_⟩
    refine (hc2 i hi).trans ?_
    rw [show k - k % 2 = 0 by omega]
    change _ = v (base + i)
    by_cases hin : i < mtrunc
    · rw [if_neg (by omega), hc1 i hi, if_pos (by omega)]
    · rw [if_pos (by omega), hv i (by omega) hi]
  · have h4 : 4 ≤ 2 ^ k := Nat.pow_le_pow_right (n := 2) (by decide) hk
    have hblocks : (ifftPlanAt K.tables.fftSkew base mtrunc (2 ^ k)).initialBlocks =
        (initialStarts mtrunc).map fun r => blockAt K.tables.fftSkew base r 1 := by
      unfold ifftPlanAt
      rw [if_pos h4]
    have hne : ((initialStarts mtrunc).map fun r => blockAt K.tables.fftSkew base r
        1).isEmpty = false := by
      rw [List.isEmpty_eq_false_iff, ← List.length_pos_iff]
      exact List.length_pos_of_mem (List.mem_map_of_mem (mem_initialStarts.mpr ⟨0, rfl, h0⟩))
    rw [hblocks, if_neg (by rw [hne]; decide)]
    obtain ⟨hg1, hc1⟩ := holds_initialBlocks hk hbase hw hm hp hs hfill hv h
    have hdvd : 4 ∣ 2 ^ k := Nat.pow_dvd_pow 2 hk
    have hclear : (mtrunc + 3) / 4 * 4 ≤ 2 ^ k := by omega
    obtain ⟨hg2, hc2⟩ := column_zeroLanes (K := K) hg1 base p ((mtrunc + 3) / 4 * 4)
      (2 ^ k - (mtrunc + 3) / 4 * 4) (by omega)
    refine holds_laterBlocks hk hbase hw hm hp hs hv ⟨hg2, fun i hi => ?_⟩
    refine (hc2 i hi).trans ?_
    by_cases hin : i / 4 * 4 < mtrunc
    · rw [if_neg (by omega), hc1 i hin]
    · rw [if_pos (by omega), inverseTo_beyond hbase hv hk hi (by change mtrunc ≤ i / 4 * 4; omega)]

/-- The last layer of an odd number of layers. -/
theorem holds_ifftFinalPairs {f : Nat → K.lawful.lfsr.Elem} (hbase : 2 ^ k ∣ base)
    (hw : base + 2 ^ k ≤ 2 ^ w) (hp : p < len) {b : Nat} (hb : k = b + 1)
    (h : Holds K (2 ^ k) len base p f work) :
    Holds K (2 ^ k) len base p (K.lawful.points.inverse b f)
      (ifftFinalPairs K (some ⟨0, 2 ^ b, K.tables.fftSkew.getD (base + 2 ^ b - 1) 0#w⟩) work) := by
  have hpos := Nat.two_pow_pos b
  have hpow : 2 ^ k = 2 ^ b + 2 ^ b := by rw [hb, Nat.pow_succ]; omega
  obtain ⟨g, hg⟩ := hbase
  have hgk : base = g * 2 ^ (b + 1) := by rw [hg, hb, Nat.mul_comm]
  obtain ⟨hgrid, hval⟩ := holds_pairs base (b := b) hp .inverse (List.range (2 ^ b))
    (fun _ => K.tables.fftSkew.getD (base + 2 ^ b - 1) 0#w) List.nodup_range
    (by
      intro a ha
      have ha' := List.mem_range.mp ha
      refine ⟨g, a, ha', by omega, by omega, ?_⟩
      apply multiplier_skew (b := b)
      · rw [Nat.add_mul, Nat.one_mul, ← hgk, ← hb]
        exact hw
      · unfold skewIndex
        rw [← hgk]) h
  refine ⟨hgrid, fun i hi => ?_⟩
  apply (hval i hi).1
  rcases Nat.lt_or_ge i (2 ^ b) with hlt | hge
  · exact ⟨i, List.mem_range.mpr hlt, .inl rfl⟩
  · exact ⟨i - 2 ^ b, List.mem_range.mpr (by omega), .inr (by omega)⟩

/-- An inverse transform takes the input, zero past `mtrunc`, to its coefficients. -/
theorem holds_ifft {fill : Nat → Nat → Work w → Work w}
    {before v : Nat → K.lawful.lfsr.Elem} (hbase : 2 ^ k ∣ base) (hw : base + 2 ^ k ≤ 2 ^ w)
    (h0 : 0 < mtrunc) (hm : mtrunc ≤ 2 ^ k) (hp : p < len)
    {strategy : Dit4Strategy} (hs : strategy ≠ .auto)
    (hfill : Fills K (2 ^ k) len base p mtrunc before v fill)
    (hv : ∀ i, mtrunc ≤ i → i < 2 ^ k → v (base + i) = 0)
    (h : Holds K (2 ^ k) len base p before work) :
    Holds K (2 ^ k) len base p (K.lawful.points.inverseTo k v)
      (ifftFinalPairs K (ifftPlanAt K.tables.fftSkew base mtrunc (2 ^ k)).finalStage
        (ifftPasses K strategy fill (ifftPlanAt K.tables.fftSkew base mtrunc (2 ^ k)) work)) := by
  have hpasses := holds_ifftPasses hbase hw h0 hm hp hs hfill hv h
  have hdist := (laterPasses_spec k).2
  have hstage : (ifftPlanAt K.tables.fftSkew base mtrunc (2 ^ k)).finalStage =
      if 2 ^ (k - k % 2) < 2 ^ k then
        some ⟨0, 2 ^ (k - k % 2), K.tables.fftSkew.getD (base + 2 ^ (k - k % 2) - 1) 0#w⟩
      else none := by
    unfold ifftPlanAt
    simp only [hdist]
  rw [hstage]
  rcases Nat.mod_two_eq_zero_or_one k with heven | hodd
  · rw [heven, Nat.sub_zero] at hpasses ⊢
    rw [if_neg (by omega)]
    exact hpasses
  · rw [hodd] at hpasses ⊢
    rw [if_pos (Nat.pow_lt_pow_right (by decide) (by omega))]
    have hfinal := holds_ifftFinalPairs hbase hw hp (b := k - 1) (by omega) hpasses
    refine ⟨hfinal.grid, fun i hi => ?_⟩
    rw [hfinal.value i hi]
    obtain ⟨b, rfl⟩ : ∃ b, k = b + 1 := ⟨k - 1, by omega⟩
    rfl

theorem holds_ifftDitEncoder {load : Nat → List (BitVec w)} {v : Nat → K.lawful.lfsr.Elem}
    (hbase : 2 ^ k ∣ base) (hw : base + 2 ^ k ≤ 2 ^ w) (h0 : 0 < mtrunc) (hm : mtrunc ≤ 2 ^ k)
    (hp : p < len) {strategy : Dit4Strategy} (hs : strategy ≠ .auto)
    (hload : ∀ i, i < mtrunc → (load i).length = len ∧ K.elem ((load i).getD p 0#w) = v (base + i))
    (hv : ∀ i, mtrunc ≤ i → i < 2 ^ k → v (base + i) = 0) (h : Grid (2 ^ k) len work) :
    Holds K (2 ^ k) len base p (K.lawful.points.inverseTo k v)
      (ifftDitEncoderWithPlan K strategy load (ifftPlanAt K.tables.fftSkew base mtrunc (2 ^ k))
        work) := by
  refine holds_ifft hbase hw h0 hm hp hs ?_ hv ⟨h, fun _ _ => rfl⟩
  intro start count u hend hu _
  obtain ⟨hgrid, hcol⟩ := column_loadLanes (K := K) hu base p load start count (by omega)
    (fun i _ hi => (hload i (by omega)).1)
  refine ⟨hgrid, fun i hi => ?_⟩
  rw [hcol i hi]
  split_ifs with hin
  · exact (hload i (by omega)).2
  · rfl

/-- What the lanes past `mtrunc` hold before does not matter. -/
theorem holds_ifftDitDecode {before v : Nat → K.lawful.lfsr.Elem} (hbase : 2 ^ k ∣ base)
    (hw : base + 2 ^ k ≤ 2 ^ w) (h0 : 0 < mtrunc) (hm : mtrunc ≤ 2 ^ k) (hp : p < len)
    (hv : ∀ i, mtrunc ≤ i → i < 2 ^ k → v (base + i) = 0)
    (hbefore : ∀ i, i < mtrunc → before (base + i) = v (base + i))
    (h : Holds K (2 ^ k) len base p before work) :
    Holds K (2 ^ k) len base p (K.lawful.points.inverseTo k v)
      (ifftDitDecodeWithPlan K (ifftPlanAt K.tables.fftSkew base mtrunc (2 ^ k)) work) := by
  refine holds_ifft hbase hw h0 hm hp (by decide) ?_ hv h
  intro start count u hend hu hval
  refine ⟨hu, fun i _ => ?_⟩
  split_ifs with hin
  · rw [hval i hin.1 hin.2]
    exact hbefore i (by omega)
  · rfl

end Inverse

section Forward

open CantorPoints

variable {K : Kernel w} {len p k mtrunc : Nat} {work : Work w}

/-- The lanes of the blocks below `mtrunc` are on the way to the values of `f`:
the layers from `c` down are missing. -/
structure Partial (K : Kernel w) (k len p mtrunc c : Nat) (f : Nat → K.lawful.lfsr.Elem)
    (work : Work w) : Prop where
  grid : Grid (2 ^ k) len work
  value : ∀ i, i < 2 ^ k → i / 2 ^ c * 2 ^ c < mtrunc →
    K.lawful.points.forwardFrom c (column K 0 p work) i = K.lawful.points.forwardFrom k f i

/-- The remaining layers of a block read the lanes of the block only. -/
theorem forwardFrom_block {c i : Nat} {f f' : Nat → K.lawful.lfsr.Elem} (hc : c ≤ k) (hkw : k ≤ w)
    (hi : i < 2 ^ k)
    (h : ∀ j, j < 2 ^ k → j / 2 ^ c * 2 ^ c = i / 2 ^ c * 2 ^ c → f j = f' j) :
    K.lawful.points.forwardFrom c f i = K.lawful.points.forwardFrom c f' i := by
  have hdiv := Nat.div_add_mod' i (2 ^ c)
  have hmod := Nat.mod_lt i (Nat.two_pow_pos c)
  have hend := block_end_le (Nat.pow_dvd_pow 2 hc) (q := i / 2 ^ c) (by omega)
  have hle := Nat.pow_le_pow_right (n := 2) (by decide) hkw
  rw [← hdiv]
  apply K.lawful.points.forwardFrom_congr c (i / 2 ^ c) (by omega) _ hmod
  intro t ht
  rw [Nat.add_mul, Nat.one_mul] at hend
  apply h _ (by omega)
  rw [Nat.add_comm, Nat.add_mul_div_right _ _ (Nat.two_pow_pos c), Nat.div_eq_of_lt ht,
    Nat.zero_add]

theorem partial_pass {c : Nat} {f : Nat → K.lawful.lfsr.Elem} (hc : c + 2 ≤ k) (hkw : k ≤ w)
    (hm : mtrunc ≤ 2 ^ k) (hp : p < len) {strategy : Dit4Strategy} (hs : strategy ≠ .auto)
    (h : Partial K k len p mtrunc (c + 2) f work) :
    Partial K k len p mtrunc c f
      (((stepRange 0 mtrunc (2 ^ (c + 2))).map fun r => blockAt K.tables.fftSkew 0 r
        (2 ^ c)).foldl (dit4At K strategy .forward) work) := by
  have hle := Nat.pow_le_pow_right (n := 2) (by decide) hkw
  have hpass := holds_pass (f := column K 0 p work) hc (dvd_zero _) (by omega) hm hp hs .forward
    ⟨h.grid, fun _ _ => rfl⟩
  refine ⟨hpass.grid, fun i hi hblock => ?_⟩
  have hmono := block_start_le (Nat.le_add_right c 2) i
  have hlayers : K.lawful.points.forwardFrom c (K.layers .forward c (column K 0 p work)) i =
      K.lawful.points.forwardFrom k f i := h.value i hi (by omega)
  rw [← hlayers]
  apply forwardFrom_block (by omega) hkw hi
  intro j hj hsame
  have hval := hpass.value j hj
  have hmono' := block_start_le (Nat.le_add_right c 2) j
  rw [Nat.zero_add, Nat.sub_zero, if_pos (by omega)] at hval
  exact hval

/-- A forward transform evaluates the coefficients at the positions below `mtrunc`. -/
theorem holds_fft {f : Nat → K.lawful.lfsr.Elem} (hkw : k ≤ w)
    (hm : mtrunc ≤ 2 ^ k) (hp : p < len) {strategy : Dit4Strategy} (hs : strategy ≠ .auto)
    (h : Holds K (2 ^ k) len 0 p f work) :
    Grid (2 ^ k) len
        (fftDitWithPlan K strategy (fftPlanAt K.tables.fftSkew mtrunc (2 ^ k)) work) ∧
      ∀ i, i < mtrunc →
        column K 0 p (fftDitWithPlan K strategy (fftPlanAt K.tables.fftSkew mtrunc (2 ^ k)) work) i =
          K.lawful.points.forwardFrom k f i := by
  have hle := Nat.pow_le_pow_right (n := 2) (by decide) hkw
  have hstart : Partial K k len p mtrunc k f work := by
    refine ⟨h.grid, fun i hi _ => forwardFrom_block le_rfl hkw hi (fun j hj _ => ?_)⟩
    have hval := h.value j hj
    rwa [Nat.zero_add] at hval
  obtain ⟨hdist, hrun⟩ := foldl_radix4Down (fun c s => Partial K k len p mtrunc c f s)
    (fun s d => ((stepRange 0 mtrunc d.2).map fun r => blockAt K.tables.fftSkew 0 r d.1).foldl
      (dit4At K strategy .forward) s) k work hstart
    (fun c hc s hold => partial_pass hc hkw hm hp hs hold)
  unfold fftDitWithPlan fftPlanAt passBlocks
  simp only
  rw [List.foldl_flatten, List.foldl_map]
  obtain ⟨s, hsdef⟩ : ∃ s, s = (radix4Down (2 ^ k) (2 ^ k >>> 2)).1.foldl (fun s d =>
    ((stepRange 0 mtrunc d.2).map fun r => blockAt K.tables.fftSkew 0 r d.1).foldl
      (dit4At K strategy .forward) s) work := ⟨_, rfl⟩
  rw [← hsdef] at hrun ⊢
  rcases Nat.mod_two_eq_zero_or_one k with heven | hodd
  · rw [if_neg (by rw [hdist, heven]; decide), List.foldl_nil]
    rw [heven] at hrun
    refine ⟨hrun.grid, fun i hi => ?_⟩
    exact hrun.value i (by omega) (by simpa using hi)
  · rw [if_pos (by rw [hdist, hodd]; rfl), List.foldl_map]
    rw [hodd] at hrun
    obtain ⟨j, rfl⟩ : ∃ j, k = j + 1 := ⟨k - 1, by omega⟩
    obtain ⟨hgrid, hval⟩ := holds_pairs 0 (b := 0) hp .forward (stepRange 0 mtrunc 2)
      (fun r => K.tables.fftSkew.getD r 0#w) (f := column K 0 p s)
      (pairwise_stepRange.imp (by rintro a b ⟨c, hc, rfl⟩; omega))
      (by
        intro a ha
        obtain ⟨q, rfl, hlt⟩ := (mem_stepRange (by decide)).mp ha
        rw [Nat.pow_succ] at hm hle
        refine ⟨q, 0, by decide, by omega, by omega, ?_⟩
        apply multiplier_skew (b := 0)
        · omega
        · unfold skewIndex
          omega) ⟨hrun.grid, fun _ _ => rfl⟩
    refine ⟨hgrid, fun i hi => ?_⟩
    have hpair := (hval i (by omega)).1 ⟨i / 2 * 2, (mem_stepRange (by decide)).mpr
      ⟨i / 2, by omega, by omega⟩, by omega⟩
    rw [Nat.zero_add] at hpair
    exact hpair.trans (hrun.value i (by omega) (by omega))

end Forward

section Derivative

open CantorPoints

variable {K : Kernel w} {len p k : Nat} {work : Work w}

/-- The width of a round is the largest power of two that divides its number. -/
theorem derivative_width (t u : Nat) :
    ((((2 * u + 1) * 2 ^ t) ^^^ ((2 * u + 1) * 2 ^ t - 1)) + 1) >>> 1 = 2 ^ t := by
  have hpos := Nat.two_pow_pos t
  have hpow : 2 ^ (t + 1) = 2 ^ t + 2 ^ t := by rw [Nat.pow_succ]; omega
  have hsplit (r : Nat) (hr : r < 2 ^ (t + 1)) : (r + u * 2 ^ (t + 1)) / 2 ^ (t + 1) = u ∧
      (r + u * 2 ^ (t + 1)) % 2 ^ (t + 1) = r := by
    rw [Nat.add_mul_div_right _ _ (Nat.two_pow_pos _), Nat.div_eq_of_lt hr, Nat.zero_add,
      Nat.add_mul_mod_self_right, Nat.mod_eq_of_lt hr]
    exact ⟨rfl, rfl⟩
  have hi : (2 * u + 1) * 2 ^ t = 2 ^ t + u * 2 ^ (t + 1) := by rw [Nat.pow_succ]; ring
  have hi' : (2 * u + 1) * 2 ^ t - 1 = (2 ^ t - 1) + u * 2 ^ (t + 1) := by omega
  have hxor : (2 ^ t + u * 2 ^ (t + 1)) ^^^ ((2 ^ t - 1) + u * 2 ^ (t + 1)) = 2 ^ t - 1 + 2 ^ t := by
    obtain ⟨d1, m1⟩ := hsplit (2 ^ t) (by omega)
    obtain ⟨d2, m2⟩ := hsplit (2 ^ t - 1) (by omega)
    have hlow := (xor_add_two_pow (k := t) (i := 0) (e := 2 ^ t - 1) hpos (by omega)).2.1
    rw [Nat.zero_add, Nat.zero_xor] at hlow
    rw [← Nat.div_add_mod' (_ ^^^ _) (2 ^ (t + 1)), Nat.xor_div_two_pow, Nat.xor_mod_two_pow, d1, d2,
      m1, m2, Nat.xor_self, Nat.zero_mul, Nat.zero_add, hlow]
  rw [hi', hi, hxor, Nat.shiftRight_eq_div_pow]
  omega

/-- One round adds the lanes of a block to those of the block before it. -/
theorem column_derivativeRound (hp : p < len) {t u : Nat} (h : Grid (2 ^ k) len work)
    (hend : (2 * u + 1) * 2 ^ t + 2 ^ t ≤ 2 ^ k) :
    Grid (2 ^ k) len (derivativeRound (2 ^ k) work ((2 * u + 1) * 2 ^ t)) ∧ ∀ d,
      column K 0 p (derivativeRound (2 ^ k) work ((2 * u + 1) * 2 ^ t)) d =
        if (2 * u) * 2 ^ t ≤ d ∧ d < (2 * u + 1) * 2 ^ t then
          column K 0 p work d + column K 0 p work (d + 2 ^ t)
        else column K 0 p work d := by
  have hstart : (2 * u + 1) * 2 ^ t - 2 ^ t = 2 * u * 2 ^ t := by
    rw [Nat.add_mul, Nat.one_mul, Nat.add_sub_cancel]
  have hnext : (2 * u + 1) * 2 ^ t = 2 * u * 2 ^ t + 2 ^ t := by rw [Nat.add_mul, Nat.one_mul]
  have hmod : (BitVec.ofNat w (modulus w)).toNat = modulus w :=
    toNat_ofNat_of_lt (Nat.sub_lt (Nat.two_pow_pos w) Nat.one_pos)
  -- the sum is the butterfly of the logarithm of zero
  have hxor : (fun hi lo : List (BitVec w) => (hi, sliceXor hi lo)) =
      dit2 K .forward (BitVec.ofNat w (modulus w)) := by
    funext hi lo
    unfold dit2
    rw [if_pos hmod]
  have hzero : K.multiplier (BitVec.ofNat w (modulus w)) = 0 := by
    unfold Kernel.multiplier
    rw [if_pos hmod]
  unfold derivativeRound
  simp only [derivative_width, hxor, hstart]
  refine foldl_range_inv (fun j s => Grid (2 ^ k) len s ∧ ∀ d, column K 0 p s d =
    if 2 * u * 2 ^ t ≤ d ∧ d < 2 * u * 2 ^ t + j then
      column K 0 p work d + column K 0 p work (d + 2 ^ t)
    else column K 0 p work d) _ (2 ^ t) work ⟨h, fun d => by rw [if_neg (by omega)]⟩ ?_ |>.imp id
    (fun hall d => by rw [hall d, hnext])
  intro j hj s ⟨hs, hcol⟩
  rw [if_pos (by omega)]
  refine ⟨grid_onPair hs _ _ _ _, fun d => ?_⟩
  have hpair := column_onPair (K := K) hs .forward (BitVec.ofNat w (modulus w)) 0 (p := p)
    (i := (2 * u + 1) * 2 ^ t + j) (j := 2 * u * 2 ^ t + j) (by omega) (by omega) (by omega) hp
  have hhi := hcol ((2 * u + 1) * 2 ^ t + j)
  have hlo := hcol (2 * u * 2 ^ t + j)
  rw [if_neg (by omega)] at hhi hlo
  rw [hpair, Nat.zero_add, Nat.zero_add, hzero]
  unfold pairUpdate Kernel.pairOp
  simp only [zero_mul, zero_add, one_mul, add_zero]
  rw [hhi, hlo]
  by_cases hsrc : d = (2 * u + 1) * 2 ^ t + j
  · rw [if_pos hsrc, if_neg (by omega), hsrc]
  · rw [if_neg hsrc]
    by_cases hdst : d = 2 * u * 2 ^ t + j
    · rw [if_pos hdst, if_pos (by omega), hdst, add_comm,
        show 2 * u * 2 ^ t + j + 2 ^ t = (2 * u + 1) * 2 ^ t + j by omega]
    · rw [if_neg hdst, hcol d]
      by_cases hin : 2 * u * 2 ^ t ≤ d ∧ d < 2 * u * 2 ^ t + j
      · rw [if_pos hin, if_pos (by omega)]
      · rw [if_neg hin, if_neg (by omega)]

/-- The summands that the rounds below `i` add to position `d`. -/
def roundsBelow (k d i : Nat) : Finset Nat :=
  (Finset.range k).filter fun b => d / 2 ^ b % 2 = 0 ∧ (d / 2 ^ b + 1) * 2 ^ b < i

/-- Round `(2 u + 1) 2 ^ t` adds one summand to the positions of the block
before it, and none to the others. -/
theorem mem_round {d b t u : Nat} :
    (d / 2 ^ b % 2 = 0 ∧ (d / 2 ^ b + 1) * 2 ^ b = (2 * u + 1) * 2 ^ t) ↔
      b = t ∧ 2 * u * 2 ^ t ≤ d ∧ d < (2 * u + 1) * 2 ^ t := by
  constructor
  · rintro ⟨heven, heq⟩
    obtain ⟨x, hx⟩ : ∃ x, d / 2 ^ b = 2 * x := ⟨d / 2 ^ b / 2, by omega⟩
    rw [hx] at heq
    have hsk : skewIndex b x = skewIndex t u := by
      have h1 := skewIndex_succ b x
      have h2 := skewIndex_succ t u
      rw [Nat.mul_comm] at h1 h2
      omega
    obtain ⟨rfl, rfl⟩ := skewIndex_inj hsk
    have hdiv := Nat.div_add_mod' d (2 ^ b)
    have hmod := Nat.mod_lt d (Nat.two_pow_pos b)
    rw [hx] at hdiv
    rw [Nat.add_mul, Nat.one_mul]
    exact ⟨rfl, by omega, by omega⟩
  · rintro ⟨rfl, hge, hlt⟩
    have hdiv : d / 2 ^ b = 2 * u := by
      rw [Nat.add_mul, Nat.one_mul] at hlt
      exact Nat.div_eq_of_lt_le hge (by rw [Nat.add_mul, Nat.one_mul]; exact hlt)
    rw [hdiv]
    exact ⟨by omega, rfl⟩

/-- The rounds compute the derivative of the coefficients. -/
theorem holds_derivative {c : Nat → K.lawful.lfsr.Elem} (hp : p < len)
    (h : Holds K (2 ^ k) len 0 p c work) :
    Holds K (2 ^ k) len 0 p (derived k c) (computeFormalDerivative (2 ^ k) work) := by
  have hpos := Nat.two_pow_pos k
  have hrun := foldl_range'_inv (fun i s => Grid (2 ^ k) len s ∧ ∀ d, d < 2 ^ k →
      column K 0 p s d = c d + ∑ b ∈ roundsBelow k d i, c (d + 2 ^ b))
    (derivativeRound (2 ^ k)) 1 (2 ^ k - 1) work
    (by
      refine ⟨h.grid, fun d hd => ?_⟩
      have hnone : roundsBelow k d 1 = ∅ := by
        apply Finset.filter_eq_empty_iff.mpr
        intro b _ hb
        have := Nat.mul_pos (Nat.succ_pos (d / 2 ^ b)) (Nat.two_pow_pos b)
        simp only [Nat.succ_eq_add_one] at this
        omega
      have hval := h.value d hd
      rw [Nat.zero_add] at hval
      rw [hnone, Finset.sum_empty, add_zero, hval])
    (by
      intro i hge hlt s ⟨hs, hcol⟩
      obtain ⟨t, odd, ⟨u, rfl⟩, rfl⟩ := Nat.exists_eq_two_pow_mul_odd (n := i) (by omega)
      rw [Nat.mul_comm] at hge hlt hcol ⊢
      have hlt' : (2 * u + 1) * 2 ^ t < 2 ^ k := by omega
      have htk : t < k := by
        rw [← Nat.pow_lt_pow_iff_right (a := 2) (by decide)]
        have := Nat.le_mul_of_pos_left (2 ^ t) (show 0 < 2 * u + 1 by omega)
        omega
      have hend : (2 * u + 1) * 2 ^ t + 2 ^ t ≤ 2 ^ k := by
        have := block_end_le (Nat.pow_dvd_pow 2 htk.le) hlt'
        rwa [Nat.add_mul (2 * u + 1), Nat.one_mul] at this
      obtain ⟨hgrid, hround⟩ := column_derivativeRound (K := K) hp hs hend
      refine ⟨hgrid, fun d hd => ?_⟩
      have hbelow : roundsBelow k d ((2 * u + 1) * 2 ^ t + 1) =
          if 2 * u * 2 ^ t ≤ d ∧ d < (2 * u + 1) * 2 ^ t then
            insert t (roundsBelow k d ((2 * u + 1) * 2 ^ t))
          else roundsBelow k d ((2 * u + 1) * 2 ^ t) := by
        ext b
        have hb := mem_round (d := d) (b := b) (t := t) (u := u)
        split_ifs with hin <;>
          simp only [roundsBelow, Finset.mem_filter, Finset.mem_range, Finset.mem_insert] <;>
          rw [Nat.lt_succ_iff_lt_or_eq]
        · constructor
          · rintro ⟨hbk, heven, hlt | heq⟩
            · exact .inr ⟨hbk, heven, hlt⟩
            · exact .inl (hb.mp ⟨heven, heq⟩).1
          · rintro (rfl | ⟨hbk, heven, hlt⟩)
            · obtain ⟨heven, heq⟩ := hb.mpr ⟨rfl, hin⟩
              exact ⟨htk, heven, .inr heq⟩
            · exact ⟨hbk, heven, .inl hlt⟩
        · constructor
          · rintro ⟨hbk, heven, hlt | heq⟩
            · exact ⟨hbk, heven, hlt⟩
            · exact absurd (hb.mp ⟨heven, heq⟩).2 hin
          · rintro ⟨hbk, heven, hlt⟩
            exact ⟨hbk, heven, .inl hlt⟩
      rw [hround d, hbelow]
      split_ifs with hin
      · have hnew : t ∉ roundsBelow k d ((2 * u + 1) * 2 ^ t) := by
          intro hmem
          have heq := (mem_round (d := d) (b := t) (t := t) (u := u)).mpr ⟨rfl, hin⟩
          have := (Finset.mem_filter.mp hmem).2.2
          omega
        -- the source lane is past every earlier round
        have hsrc : roundsBelow k (d + 2 ^ t) ((2 * u + 1) * 2 ^ t) = ∅ := by
          apply Finset.filter_eq_empty_iff.mpr
          rintro b - ⟨-, hb⟩
          have hdiv := Nat.div_add_mod' (d + 2 ^ t) (2 ^ b)
          have hmod := Nat.mod_lt (d + 2 ^ t) (Nat.two_pow_pos b)
          rw [Nat.add_mul, Nat.one_mul] at hb
          have hnext : (2 * u + 1) * 2 ^ t = 2 * u * 2 ^ t + 2 ^ t := by rw [Nat.add_mul, Nat.one_mul]
          omega
        rw [Finset.sum_insert hnew, hcol d hd, hcol (d + 2 ^ t) (by omega), hsrc, Finset.sum_empty,
          add_zero]
        ring
      · exact hcol d hd)
  rw [show 1 + (2 ^ k - 1) = 2 ^ k by omega] at hrun
  refine ⟨hrun.1, fun d hd => ?_⟩
  rw [Nat.zero_add]
  refine (hrun.2 d hd).trans ?_
  unfold derived
  congr 1
  apply Finset.sum_congr _ (fun _ _ => rfl)
  apply Finset.filter_congr
  intro b hb
  constructor
  · exact fun hboth => hboth.1
  · intro heven
    refine ⟨heven, ?_⟩
    have hbk := Finset.mem_range.mp hb
    -- the block after an even one is the odd half of a larger block
    have hend := block_end_le (Nat.pow_dvd_pow 2 (show b + 1 ≤ k by omega)) (q := d / 2 ^ (b + 1))
      (by have := Nat.div_mul_le_self d (2 ^ (b + 1)); omega)
    have hhalf : d / 2 ^ b = 2 * (d / 2 ^ (b + 1)) := by
      rw [Nat.pow_succ, ← Nat.div_div_eq_div_mul]
      omega
    have hpos' := Nat.two_pow_pos b
    rw [Nat.pow_succ, Nat.add_mul] at hend
    rw [hhalf, Nat.pow_succ, Nat.add_mul, Nat.one_mul]
    have hassoc : 2 * (d / (2 ^ b * 2)) * 2 ^ b = d / (2 ^ b * 2) * (2 ^ b * 2) := by ring
    omega

end Derivative

end Leopard

end ErasureCodec
