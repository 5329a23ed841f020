import ErasureCodec.Codec.Builders

namespace ErasureCodec

open CodecField

section Definitions

variable {E : Type} [CodecField E]

/-- The Vandermonde matrix with unit vectors for its first and last row. -/
def jerasureSeed (dataShards totalShards : Nat) : CodingMatrix E :=
  let vm := (CodingMatrix.vandermonde totalShards dataShards).set 0 0 one
  let vm := (List.range' 1 (dataShards - 1)).foldl (fun vm i => vm.set 0 i zero) vm
  let vm := (List.range (dataShards - 1)).foldl (fun vm i => vm.set (totalShards - 1) i zero) vm
  vm.set (totalShards - 1) (dataShards - 1) one

/-- Multiply column `col` in the rows `lo..hi`. -/
def CodingMatrix.scaleColumn (vm : CodingMatrix E) (col lo hi : Nat) (scale : E) :
    CodingMatrix E :=
  (List.range' lo (hi - lo)).foldl (fun vm row => vm.set row col (mul (vm.get row col) scale)) vm

/-- Add `value` times column `i` to column `j` in all rows. -/
def CodingMatrix.addColumn (vm : CodingMatrix E) (i j rows : Nat) (value : E) : CodingMatrix E :=
  (List.range rows).foldl
    (fun vm row => vm.set row j (add (vm.get row j) (mul value (vm.get row i)))) vm

/-- Multiply the first `cols` entries of one row. -/
def CodingMatrix.scaleRow (vm : CodingMatrix E) (row cols : Nat) (scale : E) : CodingMatrix E :=
  (List.range cols).foldl (fun vm col => vm.set row col (mul (vm.get row col) scale)) vm

variable [DecidableEq E]

/-- The pivot search: the first row from `i` on with a nonzero entry in column
`i`, or the row count when there is none. -/
def jerasurePivot (vm : CodingMatrix E) (i totalShards : Nat) : Nat :=
  ((List.range' i (totalShards - i)).find? (fun r => vm.get r i ≠ zero)).getD totalShards

/-- Bring the pivot of column `i` into row `i`. -/
def jerasureSelect (totalShards : Nat) (vm : CodingMatrix E) (i : Nat) :
    Outcome Error (CodingMatrix E) :=
  let r := jerasurePivot vm i totalShards
  if r ≠ i then vm.swapRows r i
  else if vm.get i i = zero then .err .invalidCustomMatrix
  else .ok vm

/-- Scale column `i` to a unit pivot and clear the rest of row `i`. -/
def jerasureReduce (dataShards totalShards : Nat) (vm : CodingMatrix E) (i : Nat) :
    Outcome Error (CodingMatrix E) :=
  let diagonal := vm.get i i
  if diagonal = zero then .err .invalidCustomMatrix
  else
    let scale := if diagonal ≠ one then div one diagonal else one
    let vm := if scale ≠ one then vm.scaleColumn i 0 totalShards scale else vm
    .ok ((List.range dataShards).foldl (fun vm j =>
      let value := vm.get i j
      if j ≠ i ∧ value ≠ zero then vm.addColumn i j totalShards value else vm) vm)

/-- One round of the in-place column elimination. -/
def jerasureEliminate (dataShards totalShards : Nat) (vm : CodingMatrix E) (i : Nat) :
    Outcome Error (CodingMatrix E) := do
  let vm ← jerasureSelect totalShards vm i
  jerasureReduce dataShards totalShards vm i

/-- Rescale the parity part of column `j` so that the first parity row has a one. -/
def jerasureColumn (dataShards totalShards : Nat) (vm : CodingMatrix E) (j : Nat) :
    Outcome Error (CodingMatrix E) :=
  let value := vm.get dataShards j
  if value = zero then .err .invalidCustomMatrix
  else if value ≠ one then .ok (vm.scaleColumn j dataShards totalShards (div one value))
  else .ok vm

/-- Rescale a later parity row so that it starts with a one. -/
def jerasureRow (dataShards : Nat) (vm : CodingMatrix E) (row : Nat) :
    Outcome Error (CodingMatrix E) :=
  let value := vm.get row 0
  if value = zero then .err .invalidCustomMatrix
  else if value ≠ one then .ok (vm.scaleRow row dataShards (div one value))
  else .ok vm

def buildJerasureLikeMatrix (dataShards totalShards : Nat) : Outcome Error (CodingMatrix E) := do
  let vm := jerasureSeed dataShards totalShards
  let vm ← (List.range dataShards).foldlM (jerasureEliminate dataShards totalShards) vm
  let vm ← (List.range dataShards).foldlM (jerasureColumn dataShards totalShards) vm
  (List.range' (dataShards + 1) (totalShards - (dataShards + 1))).foldlM
    (jerasureRow dataShards) vm

end Definitions

section Loops

variable {E : Type} [CodecField E]

theorem CodingMatrix.scaleColumn_spec (vm : CodingMatrix E) (col lo : Nat) {hi : Nat} (scale : E)
    (hcol : col < vm.colCount) (hlo : lo ≤ hi) (hhi : hi ≤ vm.rowCount) :
    (vm.scaleColumn col lo hi scale).rowCount = vm.rowCount ∧
      (vm.scaleColumn col lo hi scale).colCount = vm.colCount ∧
      ∀ r c, r < vm.rowCount → c < vm.colCount → (vm.scaleColumn col lo hi scale).get r c =
        if c = col ∧ lo ≤ r ∧ r < hi then mul (vm.get r c) scale else vm.get r c := by
  let P : Nat → CodingMatrix E → Prop := fun i t => t.rowCount = vm.rowCount ∧
    t.colCount = vm.colCount ∧ ∀ r c, r < vm.rowCount → c < vm.colCount → t.get r c =
      if c = col ∧ lo ≤ r ∧ r < i then mul (vm.get r c) scale else vm.get r c
  have hP := foldl_range'_inv P
    (fun vm row => vm.set row col (mul (vm.get row col) scale)) lo (hi - lo) vm
    ⟨rfl, rfl, fun r c _ _ => by rw [if_neg (by omega)]⟩ (by
      rintro i h1 h2 t ⟨htr, htc, ht⟩
      refine ⟨htr, htc, fun r c hr hc => ?_⟩
      rw [get_set _ _ (by omega) (by omega) (by omega), ht r c hr hc, ht i col (by omega) hcol,
        if_neg (by omega : ¬(col = col ∧ lo ≤ i ∧ i < i))]
      by_cases h : i = r ∧ col = c
      · obtain ⟨rfl, rfl⟩ := h
        rw [if_pos ⟨rfl, rfl⟩, if_pos (by omega)]
      · rw [if_neg h]
        apply if_congr _ rfl rfl
        omega)
  rwa [Nat.add_sub_of_le hlo] at hP

theorem CodingMatrix.addColumn_spec (vm : CodingMatrix E) {i j : Nat} (value : E)
    (hi : i < vm.colCount) (hj : j < vm.colCount) :
    (vm.addColumn i j vm.rowCount value).rowCount = vm.rowCount ∧
      (vm.addColumn i j vm.rowCount value).colCount = vm.colCount ∧
      ∀ r c, r < vm.rowCount → c < vm.colCount →
        (vm.addColumn i j vm.rowCount value).get r c =
          if c = j then add (vm.get r j) (mul value (vm.get r i)) else vm.get r c := by
  let P : Nat → CodingMatrix E → Prop := fun k t => t.rowCount = vm.rowCount ∧
    t.colCount = vm.colCount ∧ ∀ r c, r < vm.rowCount → c < vm.colCount → t.get r c =
      if c = j ∧ r < k then add (vm.get r j) (mul value (vm.get r i)) else vm.get r c
  have hP := foldl_range_inv P
    (fun vm row => vm.set row j (add (vm.get row j) (mul value (vm.get row i)))) vm.rowCount vm
    ⟨rfl, rfl, fun r c _ _ => by rw [if_neg (by omega)]⟩ (by
      rintro k hk t ⟨htr, htc, ht⟩
      refine ⟨htr, htc, fun r c hr hc => ?_⟩
      rw [get_set _ _ (by omega) (by omega) (by omega), ht r c hr hc, ht k j hk hj, ht k i hk hi,
        if_neg (by omega : ¬(j = j ∧ k < k)), if_neg (by omega : ¬(i = j ∧ k < k))]
      by_cases h : k = r ∧ j = c
      · obtain ⟨rfl, rfl⟩ := h
        rw [if_pos ⟨rfl, rfl⟩, if_pos ⟨rfl, Nat.lt_succ_self k⟩]
      · rw [if_neg h]
        apply if_congr _ rfl rfl
        omega)
  obtain ⟨h1, h2, h3⟩ := hP
  refine ⟨h1, h2, fun r c hr hc => (h3 r c hr hc).trans ?_⟩
  simp [hr]

theorem CodingMatrix.scaleRow_spec (vm : CodingMatrix E) {row : Nat} (scale : E)
    (hrow : row < vm.rowCount) :
    (vm.scaleRow row vm.colCount scale).rowCount = vm.rowCount ∧
      (vm.scaleRow row vm.colCount scale).colCount = vm.colCount ∧
      ∀ r c, r < vm.rowCount → c < vm.colCount →
        (vm.scaleRow row vm.colCount scale).get r c =
          if r = row then mul (vm.get r c) scale else vm.get r c := by
  let P : Nat → CodingMatrix E → Prop := fun k t => t.rowCount = vm.rowCount ∧
    t.colCount = vm.colCount ∧ ∀ r c, r < vm.rowCount → c < vm.colCount → t.get r c =
      if r = row ∧ c < k then mul (vm.get r c) scale else vm.get r c
  have hP := foldl_range_inv P
    (fun vm col => vm.set row col (mul (vm.get row col) scale)) vm.colCount vm
    ⟨rfl, rfl, fun r c _ _ => by rw [if_neg (by omega)]⟩ (by
      rintro k hk t ⟨htr, htc, ht⟩
      refine ⟨htr, htc, fun r c hr hc => ?_⟩
      rw [get_set _ _ (by omega) (by omega) (by omega), ht r c hr hc, ht row k hrow hk,
        if_neg (by omega : ¬(row = row ∧ k < k))]
      by_cases h : row = r ∧ k = c
      · obtain ⟨rfl, rfl⟩ := h
        rw [if_pos ⟨rfl, rfl⟩, if_pos ⟨rfl, Nat.lt_succ_self k⟩]
      · rw [if_neg h]
        apply if_congr _ rfl rfl
        omega)
  obtain ⟨h1, h2, h3⟩ := hP
  refine ⟨h1, h2, fun r c hr hc => (h3 r c hr hc).trans ?_⟩
  simp [hc]

/-- Entries of the seed: the two unit rows around Vandermonde rows. -/
theorem jerasureSeed_spec {k n : Nat} (hk : 0 < k) (hn : 1 < n) :
    (jerasureSeed k n : CodingMatrix E).rowCount = n ∧
      (jerasureSeed k n : CodingMatrix E).colCount = k ∧
      ∀ r c, r < n → c < k → (jerasureSeed k n : CodingMatrix E).get r c =
        if r = 0 then if c = 0 then one else zero
        else if r = n - 1 then if c = k - 1 then one else zero
        else exp (nth r) c := by
  simp only [jerasureSeed]
  have hV (r c : Nat) (hr : r < n) (hc : c < k) :
      ((CodingMatrix.vandermonde n k : CodingMatrix E).set 0 0 one).get r c =
        if r = 0 ∧ c = 0 then one else exp (nth r) c := by
    rw [CodingMatrix.get_set _ _ (by simp; omega) (by simp; omega) (by simpa using hc),
      CodingMatrix.get_vandermonde hr hc]
    apply if_congr _ rfl rfl
    omega
  let P : Nat → CodingMatrix E → Prop := fun i t => t.rowCount = n ∧ t.colCount = k ∧
    ∀ r c, r < n → c < k → t.get r c =
      if r = 0 ∧ c < i then if c = 0 then one else zero else exp (nth r) c
  have hP := foldl_range'_inv P (fun vm i => vm.set 0 i zero) 1 (k - 1)
    ((CodingMatrix.vandermonde n k : CodingMatrix E).set 0 0 one)
    ⟨by simp, by simp, fun r c hr hc => by
      rw [hV r c hr hc]
      split_ifs <;> first | rfl | omega⟩ (by
      rintro i h1 h2 t ⟨htr, htc, ht⟩
      refine ⟨htr, htc, fun r c hr hc => ?_⟩
      rw [CodingMatrix.get_set _ _ (by omega) (by omega) (by omega), ht r c hr hc]
      split_ifs <;> first | rfl | omega)
  rw [Nat.add_sub_of_le hk] at hP
  generalize (List.range' 1 (k - 1)).foldl (fun (vm : CodingMatrix E) i => vm.set 0 i zero)
    ((CodingMatrix.vandermonde n k).set 0 0 one) = first at hP ⊢
  obtain ⟨hfr, hfc, hfirst⟩ := hP
  let Q : Nat → CodingMatrix E → Prop := fun i t => t.rowCount = n ∧ t.colCount = k ∧
    ∀ r c, r < n → c < k → t.get r c = if r = n - 1 ∧ c < i then zero else first.get r c
  have hQ := foldl_range_inv Q (fun vm i => vm.set (n - 1) i zero) (k - 1) first
    ⟨hfr, hfc, fun r c _ _ => by rw [if_neg (by omega)]⟩ (by
      rintro i hi t ⟨htr, htc, ht⟩
      refine ⟨htr, htc, fun r c hr hc => ?_⟩
      rw [CodingMatrix.get_set _ _ (by omega) (by omega) (by omega), ht r c hr hc]
      split_ifs <;> first | rfl | omega)
  obtain ⟨hr, hc, hget⟩ := hQ
  refine ⟨hr, hc, fun r c h1 h2 => ?_⟩
  rw [CodingMatrix.get_set _ _ (by omega) (by omega) (by omega), hget r c h1 h2,
    hfirst r c h1 h2]
  split_ifs <;> first | rfl | omega

end Loops

section Normalisation

variable {E : Type} [CodecField E] [LawfulField E]

/-- A stage of the construction: the shape of the seed and its MDS status. -/
structure JerasureStage (k n : Nat) (vm : CodingMatrix E) : Prop where
  rowCount_eq : vm.rowCount = n
  colCount_eq : vm.colCount = k
  mds_iff : IsMDS ((jerasureSeed k n : CodingMatrix E).toMatrix n k) ↔ IsMDS (vm.toMatrix n k)

variable {k n : Nat} {vm : CodingMatrix E}

theorem JerasureStage.swap (h : JerasureStage k n vm) {t : CodingMatrix E} {i r : Nat}
    (hi : i < n) (hr : r < n) (htr : t.rowCount = vm.rowCount) (htc : t.colCount = vm.colCount)
    (hget : ∀ a c, c < vm.colCount →
      t.get a c = vm.get (if a = r then i else if a = i then r else a) c) :
    JerasureStage k n t := by
  refine ⟨htr.trans h.rowCount_eq, htc.trans h.colCount_eq, h.mds_iff.trans ?_⟩
  refine isMDS_iff_of_perm (Equiv.swap ⟨r, hr⟩ ⟨i, hi⟩) (fun a c => ?_)
  rw [CodingMatrix.toMatrix_apply, hget a c (by rw [h.colCount_eq]; exact c.isLt),
    CodingMatrix.toMatrix_apply, Equiv.swap_apply_def]
  simp only [Fin.ext_iff]
  split_ifs <;> rfl

theorem JerasureStage.scale (h : JerasureStage k n vm) {t : CodingMatrix E} (ρ γ : Nat → E)
    (hρ : ∀ r, ρ r ≠ 0) (hγ : ∀ c, γ c ≠ 0) (htr : t.rowCount = vm.rowCount)
    (htc : t.colCount = vm.colCount)
    (hget : ∀ r c, r < n → c < k → t.get r c = ρ r * vm.get r c * γ c) :
    JerasureStage k n t :=
  ⟨htr.trans h.rowCount_eq, htc.trans h.colCount_eq, h.mds_iff.trans
    (isMDS_iff_of_scale (fun r : Fin n => ρ r) (fun c : Fin k => γ c) (fun r => hρ r)
      (fun c => hγ c) (fun r c => hget r c r.isLt c.isLt))⟩

theorem JerasureStage.addColumn (h : JerasureStage k n vm) {i j : Nat} (hi : i < k) (hj : j < k)
    (hij : i ≠ j) (value : E) : JerasureStage k n (vm.addColumn i j n value) := by
  obtain ⟨hr, hc, hget⟩ := vm.addColumn_spec value (i := i) (j := j)
    (by rw [h.colCount_eq]; exact hi) (by rw [h.colCount_eq]; exact hj)
  rw [h.rowCount_eq] at hr hc hget
  refine ⟨hr, hc.trans h.colCount_eq, h.mds_iff.trans ?_⟩
  refine isMDS_iff_of_colAdd (i := ⟨i, hi⟩) (j := ⟨j, hj⟩) (by simpa using hij) value
    (fun r c => ?_)
  rw [CodingMatrix.toMatrix_apply, hget r c r.isLt (by rw [h.colCount_eq]; exact c.isLt)]
  apply if_congr _ rfl rfl
  rw [Fin.ext_iff]

/-- Without a pivot some column is empty and no selection can be invertible. -/
theorem JerasureStage.not_mds (h : JerasureStage k n vm) (hkn : k < n) {j : Nat} (hj : j < k)
    (hz : ∀ r, r < n → vm.get r j = 0) :
    ¬IsMDS ((jerasureSeed k n : CodingMatrix E).toMatrix n k) := by
  intro hmds
  obtain ⟨r, hr⟩ := (h.mds_iff.mp hmds).exists_ne_zero (dataRows hkn.le) ⟨j, hj⟩
  exact hr (hz r r.isLt)

variable [DecidableEq E]

theorem jerasurePivot_spec (vm : CodingMatrix E) {i n : Nat} (hi : i ≤ n) :
    (jerasurePivot vm i n = n ∧ ∀ r, i ≤ r → r < n → vm.get r i = 0) ∨
      (i ≤ jerasurePivot vm i n ∧ jerasurePivot vm i n < n ∧
        vm.get (jerasurePivot vm i n) i ≠ 0) := by
  unfold jerasurePivot
  cases hfind : (List.range' i (n - i)).find? (fun r => vm.get r i ≠ zero) with
  | none =>
    left
    refine ⟨rfl, fun r h1 h2 => ?_⟩
    simpa using List.find?_eq_none.mp hfind r (List.mem_range'_1.mpr (by omega))
  | some r =>
    right
    have hmem := List.mem_range'_1.mp (List.mem_of_find?_eq_some hfind)
    exact ⟨hmem.1, by change r < n; omega, by simpa using List.find?_some hfind⟩

/-- Rows already turned into unit rows. -/
def UnitRows (k i : Nat) (vm : CodingMatrix E) : Prop :=
  ∀ r c, r < i → c < k → vm.get r c = if r = c then 1 else 0

omit [LawfulField E] in
theorem jerasureSelect_panic (hr : vm.rowCount = n) (hc : vm.colCount = k) {i : Nat} (hi : i < k)
    (hkn : k < n) (hp : jerasurePivot vm i n = n) : jerasureSelect n vm i = .panic := by
  simp only [jerasureSelect, hp]
  rw [if_pos (by omega)]
  unfold CodingMatrix.swapRows
  rw [if_neg (by omega), if_pos (by omega)]

theorem jerasureSelect_spec (h : JerasureStage k n vm) (hkn : k < n) {i : Nat} (hi : i < k)
    (hunit : UnitRows k i vm) :
    (jerasureSelect n vm i).Sat
      (fun t => JerasureStage k n t ∧ t.get i i ≠ 0 ∧ UnitRows k i t)
      (fun _ => ¬IsMDS ((jerasureSeed k n : CodingMatrix E).toMatrix n k))
      (¬IsMDS ((jerasureSeed k n : CodingMatrix E).toMatrix n k)) := by
  have hr := h.rowCount_eq
  have hc := h.colCount_eq
  rcases jerasurePivot_spec vm (i := i) (n := n) (by omega) with ⟨hp, hz⟩ | ⟨h1, h2, h3⟩
  · -- The search ran off the last row, so the exchange indexes outside the matrix.
    rw [jerasureSelect_panic hr hc hi hkn hp]
    refine h.not_mds hkn hi (fun r hrn => ?_)
    rcases Nat.lt_or_ge r i with hlt | hge
    · rw [hunit r i hlt hi, if_neg (by omega)]
    · exact hz r hge hrn
  · unfold jerasureSelect
    by_cases hri : jerasurePivot vm i n = i
    · rw [hri] at h3
      simp only [hri, ne_eq, not_true_eq_false, if_false]
      rw [if_neg (by simpa using h3)]
      exact ⟨h, h3, hunit⟩
    · rw [if_pos hri]
      obtain ⟨t, ht, htr, htc, hget⟩ := vm.swapRows_spec (ε := Error)
        (show jerasurePivot vm i n < vm.rowCount by omega) (show i < vm.rowCount by omega)
      rw [ht]
      refine ⟨h.swap (by omega) h2 htr htc hget, ?_, fun r c hrn hcn => ?_⟩
      · rw [hget i i (by omega), if_neg (Ne.symm hri), if_pos rfl]
        exact h3
      · rw [hget r c (by omega), if_neg (by omega), if_neg (by omega)]
        exact hunit r c hrn hcn

/-- Scaling the pivot column, spelled as the source does with two tests. -/
theorem scalePivotColumn_spec (h : JerasureStage k n vm) (hkn : k < n) {i : Nat} (hi : i < k)
    (hne : vm.get i i ≠ 0) (hunit : UnitRows k i vm) :
    let scale := if vm.get i i ≠ one then div one (vm.get i i) else one
    let t := if scale ≠ one then vm.scaleColumn i 0 n scale else vm
    JerasureStage k n t ∧ t.get i i = 1 ∧ UnitRows k i t := by
  intro scale t
  have hr := h.rowCount_eq
  have hc := h.colCount_eq
  by_cases h1 : vm.get i i = one
  · have hscale : scale = one := if_neg (not_not.mpr h1)
    have ht : t = vm := if_neg (not_not.mpr hscale)
    rw [ht]
    exact ⟨h, h1, hunit⟩
  have hscale : scale = (vm.get i i)⁻¹ := by
    simp only [scale]
    rw [if_pos h1, div_eq _ _ hne, one_eq, one_div]
  have ht : t = vm.scaleColumn i 0 n (vm.get i i)⁻¹ := by
    simp only [t]
    rw [hscale]
    exact if_pos (fun h => h1 (inv_eq_one.mp h))
  have hinv : (vm.get i i)⁻¹ ≠ 0 := inv_ne_zero hne
  obtain ⟨htr, htc, hget⟩ := vm.scaleColumn_spec i 0 (vm.get i i)⁻¹ (by omega)
    (Nat.zero_le n) hr.ge
  rw [ht]
  refine ⟨h.scale (fun _ => 1) (fun c => if c = i then (vm.get i i)⁻¹ else 1)
    (fun _ => one_ne_zero) (fun c => ?_) htr htc (fun r c hrn hcn => ?_), ?_,
    fun r c hrn hcn => ?_⟩
  · split_ifs
    · exact hinv
    · exact one_ne_zero
  · rw [hget r c (by omega) (by omega), one_mul]
    split_ifs with ha hb hb
    · rfl
    · omega
    · omega
    · rw [mul_one]
  · rw [hget i i (by omega) (by omega), if_pos (by omega)]
    exact mul_inv_cancel₀ hne
  · rw [hget r c (by omega) (by omega), hunit r c hrn hcn]
    split_ifs with ha hb hb
    · omega
    · exact zero_mul _
    · rfl
    · rfl

/-- Clearing the rest of row `i` with the unit pivot. -/
theorem clearPivotRow_spec (h : JerasureStage k n vm) {i : Nat} (hi : i < k) (hkn : k < n)
    (hone : vm.get i i = 1) (hunit : UnitRows k i vm) :
    let t := (List.range k).foldl (fun vm j =>
      if j ≠ i ∧ vm.get i j ≠ zero then vm.addColumn i j n (vm.get i j) else vm) vm
    JerasureStage k n t ∧ UnitRows k (i + 1) t := by
  intro t
  let P : Nat → CodingMatrix E → Prop := fun j w => JerasureStage k n w ∧ w.get i i = 1 ∧
    UnitRows k i w ∧ ∀ c, c < j → c ≠ i → w.get i c = 0
  have hP : P k t := by
    refine foldl_range_inv P _ k vm ⟨h, hone, hunit, fun c hc => by omega⟩ ?_
    rintro j hj w ⟨hw, hw1, hwu, hwz⟩
    by_cases hc : j ≠ i ∧ w.get i j ≠ zero
    · rw [if_pos hc]
      have hwr := hw.rowCount_eq
      have hwc := hw.colCount_eq
      obtain ⟨-, -, hget⟩ := w.addColumn_spec (i := i) (j := j) (w.get i j) (by omega) (by omega)
      rw [hwr] at hget
      refine ⟨hw.addColumn hi hj (Ne.symm hc.1) _, ?_, fun r c hr hck => ?_, fun c hcj hci => ?_⟩
      · rw [hget i i (by omega) (by omega), if_neg (Ne.symm hc.1)]
        exact hw1
      · rw [hget r c (by omega) (by omega), ← hwu r c hr hck]
        split_ifs with hcj
        · rw [hwu r i hr hi, if_neg (by omega), hcj, mul_eq, mul_zero, add_eq, add_zero]
        · rfl
      · rw [hget i c (by omega) (by omega)]
        split_ifs with hcj'
        · rw [hw1, mul_eq, mul_one, add_eq, CharTwo.add_self_eq_zero]
        · exact hwz c (by omega) hci
    · rw [if_neg hc]
      refine ⟨hw, hw1, hwu, fun c hcj hci => ?_⟩
      rcases Nat.lt_succ_iff_lt_or_eq.mp hcj with hlt | rfl
      · exact hwz c hlt hci
      · by_contra hne0
        exact hc ⟨hci, hne0⟩
  obtain ⟨hw, hw1, hwu, hwz⟩ := hP
  refine ⟨hw, fun r c hr hc => ?_⟩
  rcases Nat.lt_succ_iff_lt_or_eq.mp hr with hlt | rfl
  · exact hwu r c hlt hc
  · split_ifs with hrc
    · rw [← hrc]
      exact hw1
    · exact hwz c hc (Ne.symm hrc)

/-- One elimination round turns row `i` into a unit row or refutes MDS. -/
theorem jerasureEliminate_spec (h : JerasureStage k n vm) (hkn : k < n) {i : Nat} (hi : i < k)
    (hunit : UnitRows k i vm) :
    (jerasureEliminate k n vm i).Sat (fun t => JerasureStage k n t ∧ UnitRows k (i + 1) t)
      (fun _ => ¬IsMDS ((jerasureSeed k n : CodingMatrix E).toMatrix n k))
      (¬IsMDS ((jerasureSeed k n : CodingMatrix E).toMatrix n k)) := by
  unfold jerasureEliminate
  refine (jerasureSelect_spec h hkn hi hunit).bind ?_
  rintro t ⟨ht, hne, htu⟩
  unfold jerasureReduce
  simp only
  rw [if_neg (by simpa using hne)]
  obtain ⟨hs, hs1, hsu⟩ := scalePivotColumn_spec ht hkn hi hne htu
  exact clearPivotRow_spec hs hi hkn hs1 hsu

omit [DecidableEq E] in
theorem JerasureStage.parity_ne_zero (h : JerasureStage k n vm) (hkn : k < n)
    (hunit : UnitRows k k vm) {r c : Nat} (hkr : k ≤ r) (hr : r < n) (hc : c < k)
    (hz : vm.get r c = 0) : ¬IsMDS ((jerasureSeed k n : CodingMatrix E).toMatrix n k) := by
  intro hmds
  have hsys : vm.Systematic k := hunit
  exact (h.mds_iff.mp hmds).entry_ne_zero (dataRows hkn.le) (hsys.apply hkn.le) ⟨r, hr⟩
    (dataRows_ne _ hkr) ⟨c, hc⟩ hz

theorem jerasureColumn_spec (h : JerasureStage k n vm) (hkn : k < n) {j : Nat} (hj : j < k)
    (hunit : UnitRows k k vm) (hones : ∀ c, c < j → vm.get k c = 1) :
    (jerasureColumn k n vm j).Sat
      (fun t => JerasureStage k n t ∧ UnitRows k k t ∧ ∀ c, c < j + 1 → t.get k c = 1)
      (fun _ => ¬IsMDS ((jerasureSeed k n : CodingMatrix E).toMatrix n k))
      (¬IsMDS ((jerasureSeed k n : CodingMatrix E).toMatrix n k)) := by
  have hr := h.rowCount_eq
  have hc := h.colCount_eq
  simp only [jerasureColumn]
  by_cases h0 : vm.get k j = zero
  · rw [if_pos h0]
    exact h.parity_ne_zero hkn hunit le_rfl hkn hj h0
  rw [if_neg h0]
  by_cases h1 : vm.get k j = one
  · rw [if_neg (not_not.mpr h1)]
    refine ⟨h, hunit, fun c hcj => ?_⟩
    rcases Nat.lt_succ_iff_lt_or_eq.mp hcj with hlt | rfl
    · exact hones c hlt
    · exact h1
  rw [if_pos h1]
  have hne : vm.get k j ≠ 0 := h0
  have hinv : (vm.get k j)⁻¹ ≠ 0 := inv_ne_zero hne
  rw [show div one (vm.get k j) = (vm.get k j)⁻¹ by rw [div_eq _ _ hne, one_eq, one_div]]
  obtain ⟨htr, htc, hget⟩ := vm.scaleColumn_spec j k (vm.get k j)⁻¹ (by omega) hkn.le hr.ge
  -- Scaling a column below the identity is scaling it everywhere and its unit row back.
  refine ⟨h.scale (fun r => if r = j then vm.get k j else 1)
    (fun c => if c = j then (vm.get k j)⁻¹ else 1) (fun r => ?_) (fun c => ?_) htr htc
    (fun r c hrn hcn => ?_), fun r c hrk hck => ?_, fun c hcj => ?_⟩
  · split_ifs
    · exact hne
    · exact one_ne_zero
  · split_ifs
    · exact hinv
    · exact one_ne_zero
  · rw [hget r c (by omega) (by omega)]
    rcases Nat.lt_or_ge r k with hrk | hrk
    · rw [if_neg (by omega), hunit r c hrk hcn]
      split_ifs <;> first | omega | simp [hne]
    · rw [if_neg (by omega : ¬r = j), one_mul]
      by_cases hcj : c = j
      · rw [if_pos ⟨hcj, hrk, hrn⟩, if_pos hcj]
        rfl
      · rw [if_neg (fun hx => hcj hx.1), if_neg hcj, mul_one]
  · rw [hget r c (by omega) (by omega), if_neg (by omega)]
    exact hunit r c hrk hck
  · rw [hget k c (by omega) (by omega)]
    rcases Nat.lt_succ_iff_lt_or_eq.mp hcj with hlt | rfl
    · rw [if_neg (by omega)]
      exact hones c hlt
    · rw [if_pos ⟨rfl, le_rfl, hkn⟩]
      exact mul_inv_cancel₀ hne

theorem jerasureRow_spec (h : JerasureStage k n vm) (hk : 0 < k) {row : Nat} (hkr : k < row)
    (hrn : row < n) (hunit : UnitRows k k vm) (hones : ∀ c, c < k → vm.get k c = 1)
    (hcol : ∀ r, k ≤ r → r < row → vm.get r 0 = 1) :
    (jerasureRow k vm row).Sat
      (fun t => JerasureStage k n t ∧ UnitRows k k t ∧ (∀ c, c < k → t.get k c = 1) ∧
        ∀ r, k ≤ r → r < row + 1 → t.get r 0 = 1)
      (fun _ => ¬IsMDS ((jerasureSeed k n : CodingMatrix E).toMatrix n k))
      (¬IsMDS ((jerasureSeed k n : CodingMatrix E).toMatrix n k)) := by
  have hr := h.rowCount_eq
  have hc := h.colCount_eq
  simp only [jerasureRow]
  by_cases h0 : vm.get row 0 = zero
  · rw [if_pos h0]
    exact h.parity_ne_zero (by omega) hunit hkr.le hrn hk h0
  rw [if_neg h0]
  by_cases h1 : vm.get row 0 = one
  · rw [if_neg (not_not.mpr h1)]
    refine ⟨h, hunit, hones, fun r hkr' hrr => ?_⟩
    rcases Nat.lt_succ_iff_lt_or_eq.mp hrr with hlt | rfl
    · exact hcol r hkr' hlt
    · exact h1
  rw [if_pos h1]
  have hne : vm.get row 0 ≠ 0 := h0
  rw [show div one (vm.get row 0) = (vm.get row 0)⁻¹ by rw [div_eq _ _ hne, one_eq, one_div]]
  obtain ⟨htr, htc, hget⟩ := vm.scaleRow_spec (vm.get row 0)⁻¹ (show row < vm.rowCount by omega)
  rw [hc] at htr htc hget
  refine ⟨h.scale (fun r => if r = row then (vm.get row 0)⁻¹ else 1) (fun _ => 1) (fun r => ?_)
    (fun _ => one_ne_zero) htr (htc.trans hc.symm) (fun r c hrn hcn => ?_),
    fun r c hrk hck => ?_, fun c hck => ?_, fun r hkr' hrr => ?_⟩
  · split_ifs
    · exact inv_ne_zero hne
    · exact one_ne_zero
  · rw [hget r c (by omega) hcn, mul_one]
    split_ifs
    · exact mul_comm _ _
    · rw [one_mul]
  · rw [hget r c (by omega) hck, if_neg (by omega)]
    exact hunit r c hrk hck
  · rw [hget k c (by omega) hck, if_neg (by omega)]
    exact hones c hck
  · rw [hget r 0 (by omega) hk]
    rcases Nat.lt_succ_iff_lt_or_eq.mp hrr with hlt | rfl
    · rw [if_neg (by omega)]
      exact hcol r hkr' hlt
    · rw [if_pos rfl]
      exact mul_inv_cancel₀ hne

/-- The builder returns a normalised matrix with the MDS status of its seed;
any other exit shows that the seed is not MDS. -/
theorem buildJerasureLikeMatrix_sat (hk : 0 < k) (hkn : k < n) :
    (buildJerasureLikeMatrix k n : Outcome Error (CodingMatrix E)).Sat
      (fun t => JerasureStage k n t ∧ UnitRows k k t ∧ (∀ c, c < k → t.get k c = 1) ∧
        ∀ r, k ≤ r → r < n → t.get r 0 = 1)
      (fun _ => ¬IsMDS ((jerasureSeed k n : CodingMatrix E).toMatrix n k))
      (¬IsMDS ((jerasureSeed k n : CodingMatrix E).toMatrix n k)) := by
  obtain ⟨hr, hc, -⟩ := jerasureSeed_spec (E := E) (k := k) (n := n) hk (by omega)
  unfold buildJerasureLikeMatrix
  refine Outcome.Sat.bind (Outcome.Sat.foldlM_range
    (P := fun i t => JerasureStage k n t ∧ UnitRows k i t) k _
    ⟨⟨hr, hc, Iff.rfl⟩, fun r c h1 => by omega⟩
    (fun i hi t ht => jerasureEliminate_spec ht.1 hkn hi ht.2)) ?_
  rintro t ⟨ht, hunit⟩
  refine Outcome.Sat.bind (Outcome.Sat.foldlM_range
    (P := fun j t => JerasureStage k n t ∧ UnitRows k k t ∧ ∀ c, c < j → t.get k c = 1) k t
    ⟨ht, hunit, fun c h1 => by omega⟩
    (fun j hj s hs => jerasureColumn_spec hs.1 hkn hj hs.2.1 hs.2.2)) ?_
  rintro s ⟨hs, hsu, hso⟩
  have h := Outcome.Sat.foldlM_range' (f := jerasureRow k) (P := fun row t => JerasureStage k n t ∧
    UnitRows k k t ∧ (∀ c, c < k → t.get k c = 1) ∧ ∀ r, k ≤ r → r < row → t.get r 0 = 1)
    (k + 1) (n - (k + 1)) s
    ⟨hs, hsu, hso, fun r h1 h2 => by
      obtain rfl : r = k := by omega
      exact hso 0 hk⟩
    (fun row h1 h2 w hw => jerasureRow_spec hw.1 hk (by omega) (by omega) hw.2.1 hw.2.2.1
      hw.2.2.2)
  rwa [Nat.add_sub_of_le (by omega)] at h

end Normalisation

section Verdict

variable {E : Type} [CodecField E] [LawfulField E] {k n : Nat}

/-- The evaluation points of the seed rows: zero, the listed elements, infinity. -/
def jerasurePoint (E : Type) [CodecField E] (n r : Nat) : Option E :=
  if r = 0 then some zero else if r = n - 1 then none else some (nth r)

theorem jerasureSeed_get (hk : 0 < k) (hn : 1 < n) (r : Fin n) (c : Fin k) :
    (jerasureSeed k n : CodingMatrix E).get r c = evalRow k (jerasurePoint E n r) c := by
  rw [(jerasureSeed_spec hk hn).2.2 r c r.isLt c.isLt]
  unfold jerasurePoint
  split_ifs with h0 hc hlast hc
  · simp only [evalRow]
    rw [hc]
    exact (pow_zero (0 : E)).symm
  · exact (zero_pow hc : (0 : E) ^ (c : Nat) = 0).symm
  · simp only [evalRow]
    rw [if_pos (by omega)]
    rfl
  · simp only [evalRow]
    rw [if_neg (by omega)]
    rfl
  · exact exp_eq _ _

/-- The seed is MDS exactly when no row between the two unit rows repeats the
first one. -/
theorem isMDS_jerasureSeed_iff (hk : 0 < k) (hkn : k < n) (hn : n ≤ order E) :
    IsMDS ((jerasureSeed k n : CodingMatrix E).toMatrix n k) ↔
      k = 1 ∨ ∀ r, 0 < r → r + 1 < n → (nth r : E) ≠ zero := by
  have hseed : (jerasureSeed k n : CodingMatrix E).toMatrix n k =
      Matrix.of fun (r : Fin n) (c : Fin k) => evalRow k (jerasurePoint E n r) c := by
    ext r c
    exact jerasureSeed_get hk (by omega) r c
  rw [hseed]
  constructor
  · intro hmds
    by_contra hcond
    push Not at hcond
    obtain ⟨hk1, r, h0, hrn, hzero⟩ := hcond
    -- Row `r` and row `0` both evaluate at zero; choose them together.
    let σ : Equiv.Perm (Fin n) := Equiv.swap ⟨1, by omega⟩ ⟨r, by omega⟩
    let s : Fin k ↪ Fin n := (dataRows hkn.le).trans σ.toEmbedding
    have hs0 : s ⟨0, hk⟩ = ⟨0, by omega⟩ := by
      change σ ⟨0, by omega⟩ = _
      apply Equiv.swap_apply_of_ne_of_ne
      · simp
      · simp only [ne_eq, Fin.mk.injEq]
        omega
    have hs1 : s ⟨1, by omega⟩ = ⟨r, by omega⟩ := by
      change σ ⟨1, by omega⟩ = _
      exact Equiv.swap_apply_left _ _
    obtain ⟨j, hj⟩ := hmds.row_not_multiple s ⟨1, by omega⟩ ⟨0, hk⟩ (by simp) 1
    apply hj
    rw [hs0, hs1, one_mul, Matrix.of_apply, Matrix.of_apply]
    simp only [jerasurePoint]
    rw [if_neg (by omega), if_neg (by omega), hzero, if_true]
  · rintro (rfl | hcond)
    · rw [isMDS_iff_kernel]
      intro s v hv
      funext i
      obtain rfl : i = 0 := Subsingleton.elim _ _
      have h0 := hv 0
      have hone : evalRow 1 (jerasurePoint E n (s 0)) 0 = 1 := by
        unfold evalRow
        split
        · exact pow_zero _
        · rfl
      simpa [Matrix.mulVec, dotProduct, hone] using h0
    · apply isMDS_evalRow
      intro a b hab
      have ha := a.isLt
      have hb := b.isLt
      apply Fin.ext
      simp only [jerasurePoint] at hab
      split_ifs at hab with h1 h2 h3 h4 h5 h6
      · omega
      · exact absurd (Option.some.inj hab).symm (hcond b (by omega) (by omega))
      · omega
      · exact absurd (Option.some.inj hab) (hcond a (by omega) (by omega))
      · exact nth_injOn (by omega) (by omega) (Option.some.inj hab)

variable [DecidableEq E]

/-- The builder delivers a normalised MDS generator exactly when `nth` puts no
zero between the two unit rows. -/
theorem buildJerasureLikeMatrix_iff (hk : 0 < k) (hkn : k < n) (hn : n ≤ order E) :
    (∃ m : CodingMatrix E, buildJerasureLikeMatrix k n = .ok m ∧ m.IsGenerator k n ∧
      (∀ c, c < k → m.get k c = one) ∧ ∀ r, k ≤ r → r < n → m.get r 0 = one) ↔
      k = 1 ∨ ∀ r, 0 < r → r + 1 < n → (nth r : E) ≠ zero := by
  rw [← isMDS_jerasureSeed_iff hk hkn hn]
  have hsat := buildJerasureLikeMatrix_sat (E := E) hk hkn
  constructor
  · rintro ⟨m, hm, hgen, -, -⟩
    rw [hm] at hsat
    exact hsat.1.mds_iff.mpr hgen.mds
  · intro hmds
    obtain ⟨m, hm, hst, hunit, hrow, hcol⟩ :=
      (hsat.mono (fun _ h => h) (fun _ h => h hmds) (fun h => h hmds)).exists_ok
    exact ⟨m, hm, ⟨hst.rowCount_eq, hst.colCount_eq, hunit, hst.mds_iff.mp hmds⟩, hrow, hcol⟩

/-- What the Jerasure-like builder is meant to deliver, and exactly when it does. -/
theorem jerasure_like_generator_iff (data parity : Nat) (hd : 0 < data) (hp : 0 < parity)
    (ht : data + parity ≤ order E) :
    (∃ m : CodingMatrix E, buildJerasureLikeMatrix data (data + parity) = .ok m ∧
      m.IsGenerator data (data + parity) ∧ (∀ c, c < data → m.get data c = one) ∧
      ∀ r, data ≤ r → r < data + parity → m.get r 0 = one) ↔
      data = 1 ∨ ∀ r, 0 < r → r + 1 < data + parity → (nth r : E) ≠ zero :=
  buildJerasureLikeMatrix_iff hd (by omega) ht

theorem jerasure_like_generator_galois8 :
    ∃ m : CodingMatrix Galois8, buildJerasureLikeMatrix 4 6 = .ok m ∧ m.IsGenerator 4 6 ∧
      (∀ c, c < 4 → m.get 4 c = one) ∧ ∀ r, 4 ≤ r → r < 6 → m.get r 0 = one :=
  (jerasure_like_generator_iff 4 2 (by decide) (by decide) (by decide)).mpr
    (Or.inr (by
      intro r h0 hr
      have hlt : r < 6 := by omega
      interval_cases r <;> decide))

end Verdict

section ArbitraryAssignment

/-- The byte field with another assignment of elements to indices: the nth
element is `n ^ 1`, so index one is the zero element. -/
def SwappedGalois8 : Type := BitVec 8

instance : DecidableEq SwappedGalois8 := inferInstanceAs (DecidableEq (BitVec 8))

instance : CodecField SwappedGalois8 where
  order := 256
  order_lt := byteOrder_lt
  zero := 0#8
  one := 1#8
  add a b := BitVec.xor a b
  mul := Galois8.mul
  div := Galois8.div
  exp := Galois8.exp
  nthInternal n := BitVec.xor (BitVec.ofNat 8 n) 1#8

instance : LawfulField SwappedGalois8 where
  add_assoc a b c := BitVec.xor_assoc a b c
  zero_add _ := BitVec.zero_xor
  add_self _ := BitVec.xor_self
  mul_assoc := Galois8.mul_assoc
  mul_comm := Galois8.mul_comm
  one_mul := Galois8.one_mul
  mul_add := Galois8.mul_xor
  one_ne_zero := by decide
  div_mul := Galois8.div_mul
  exp_zero _ := rfl
  exp_succ := Galois8.exp_succ
  nthInternal_inj m n hm hn h := by
    change BitVec.ofNat 8 m ^^^ 1#8 = BitVec.ofNat 8 n ^^^ 1#8 at h
    have hval := congrArg BitVec.toNat ((BitVec.xor_left_inj 1#8).mp h)
    change m % 256 = n % 256 at hval
    change m < 256 at hm
    change n < 256 at hn
    rwa [Nat.mod_eq_of_lt hm, Nat.mod_eq_of_lt hn] at hval
  mulSlice_eq _ _ _ _ := rfl
  mulSliceAdd_eq _ _ _ _ := rfl

/-- With two data shards and one parity shard the second row repeats the first
unit row and the builder gives up. -/
theorem jerasure_like_rejects_swapped :
    2 + 1 ≤ order SwappedGalois8 ∧
      (buildJerasureLikeMatrix 2 (2 + 1) : Outcome Error (CodingMatrix SwappedGalois8)) =
        .err .invalidCustomMatrix :=
  ⟨by decide, by decide +kernel⟩

end ArbitraryAssignment

end ErasureCodec
