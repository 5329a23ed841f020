import ErasureCodec.Matrix.Basic
import ErasureCodec.Math.LinearCode
import Mathlib.LinearAlgebra.Matrix.Block

namespace ErasureCodec

open CodecField

namespace CodingMatrix

section Definitions

variable {E : Type} [CodecField E]

/-- Add a multiple of a normalized pivot row. Byte rows are added whole; scalar
rows skip the zero prefix and add the unit pivot without a multiplication. -/
def addScaledPivotRow (m : CodingMatrix E) (source destination : Nat) (scale : E)
    (byteRows : Bool) : CodingMatrix E :=
  let input := m.getRow source
  let output := m.getRow destination
  let zeroPrefix := if byteRows then 0 else source + 1
  let output := output.take zeroPrefix ++
    addScaledSlice scale (input.drop zeroPrefix) (output.drop zeroPrefix) byteRows
  m.setRow destination
    (if byteRows then output else output.set source (add (output.getD source zero) scale))

variable [DecidableEq E]

/-- Bring a nonzero entry into the pivot position if some row below has one. -/
def selectPivot (m : CodingMatrix E) (r : Nat) : Outcome MatrixError (CodingMatrix E) :=
  if m.get r r = zero then
    match (List.range' (r + 1) (m.rowCount - (r + 1))).find? (fun rBelow => m.get rBelow r ≠ zero) with
    | some rBelow => m.swapRows r rBelow
    | none => .ok m
  else .ok m

/-- Scale the pivot row to a unit pivot. -/
def scaleToOne (m : CodingMatrix E) (r : Nat) (byteRows : Bool) : CodingMatrix E :=
  if m.get r r ≠ one then
    let scale := div one (m.get r r)
    let zeroPrefix := if byteRows then 0 else r + 1
    let row := m.getRow r
    let scaled := m.setRow r (row.take zeroPrefix ++ (row.drop zeroPrefix).map (mul scale))
    if byteRows then scaled else scaled.set r r one
  else m

/-- Make the entry of row `target` in the pivot column zero. -/
def clearEntry (m : CodingMatrix E) (pivot target : Nat) (byteRows : Bool) : CodingMatrix E :=
  if m.get target pivot ≠ zero then
    m.addScaledPivotRow pivot target (m.get target pivot) byteRows
  else m

/-- One round of the forward pass. -/
def forwardStep (byteRows : Bool) (m : CodingMatrix E) (r : Nat) :
    Outcome MatrixError (CodingMatrix E) := do
  let m ← m.selectPivot r
  if m.get r r = zero then .err .singularMatrix
  else
    let m := m.scaleToOne r byteRows
    pure ((List.range' (r + 1) (m.rowCount - (r + 1))).foldl
      (fun m rBelow => m.clearEntry r rBelow byteRows) m)

/-- One round of the pass that clears the part above the diagonal. -/
def backwardStep (byteRows : Bool) (m : CodingMatrix E) (d : Nat) : CodingMatrix E :=
  (List.range d).foldl (fun m rAbove => m.clearEntry d rAbove byteRows) m

def gaussianElim (m : CodingMatrix E) : Outcome MatrixError (CodingMatrix E) := do
  let byteRows := asGf8Slice E
  let m ← (List.range m.rowCount).foldlM (forwardStep byteRows) m
  pure ((List.range m.rowCount).foldl (backwardStep byteRows) m)

/-- `gaussian_elim` with the row kernel given. -/
def eliminate (byteRows : Bool) (m : CodingMatrix E) : Outcome MatrixError (CodingMatrix E) := do
  let m ← (List.range m.rowCount).foldlM (forwardStep byteRows) m
  pure ((List.range m.rowCount).foldl (backwardStep byteRows) m)

theorem gaussianElim_eq (m : CodingMatrix E) : m.gaussianElim = m.eliminate (asGf8Slice E) := rfl

/-- `[self | I]` in the elimination workspace. -/
def augmentIdentity (m : CodingMatrix E) : CodingMatrix E :=
  (List.range m.rowCount).foldl
    (fun work row => (work.setRow row (m.getRow row)).set row (m.colCount + row) one)
    (new m.rowCount (m.colCount * 2))

def invert (m : CodingMatrix E) : Outcome MatrixError (CodingMatrix E) :=
  if !m.isSquare then .err .nonSquare
  else do
    let work ← m.augmentIdentity.gaussianElim
    pure (work.subMatrix 0 m.rowCount m.colCount (m.colCount * 2))

end Definitions

section Kernel

variable {E : Type} [CodecField E] [LawfulField E]

/-- `u` solves every equation of the matrix. -/
def Kills (m : CodingMatrix E) (u : Nat → E) : Prop :=
  ∀ r, r < m.rowCount → ∑ c ∈ Finset.range m.colCount, m.get r c * u c = 0

/-- Two matrices of one shape with the same solutions. -/
structure SameKernel (a b : CodingMatrix E) : Prop where
  rowCount_eq : b.rowCount = a.rowCount
  colCount_eq : b.colCount = a.colCount
  kills_iff : ∀ u, Kills b u ↔ Kills a u

theorem SameKernel.refl (m : CodingMatrix E) : SameKernel m m := ⟨rfl, rfl, fun _ => Iff.rfl⟩

theorem SameKernel.trans {a b c : CodingMatrix E} (h : SameKernel a b) (h' : SameKernel b c) :
    SameKernel a c where
  rowCount_eq := h'.rowCount_eq.trans h.rowCount_eq
  colCount_eq := h'.colCount_eq.trans h.colCount_eq
  kills_iff u := (h'.kills_iff u).trans (h.kills_iff u)

/-- Exchanging rows keeps the solutions. -/
theorem sameKernel_of_perm {a b : CodingMatrix E} (hr : b.rowCount = a.rowCount)
    (hc : b.colCount = a.colCount) (σ : Nat → Nat) (hσ : ∀ r, r < a.rowCount → σ r < a.rowCount)
    (hinv : ∀ r, σ (σ r) = r) (h : ∀ r c, c < a.colCount → b.get r c = a.get (σ r) c) :
    SameKernel a b where
  rowCount_eq := hr
  colCount_eq := hc
  kills_iff u := by
    have hrow (r : Nat) : ∑ c ∈ Finset.range b.colCount, b.get r c * u c =
        ∑ c ∈ Finset.range a.colCount, a.get (σ r) c * u c := by
      rw [hc]
      exact Finset.sum_congr rfl (fun c hcm => by rw [h r c (Finset.mem_range.mp hcm)])
    constructor
    · intro hb r hra
      have := hb (σ r) (by rw [hr]; exact hσ r hra)
      rwa [hrow, hinv] at this
    · intro ha r hrb
      rw [hrow]
      exact ha (σ r) (hσ r (by omega))

/-- Replacing row `d` by `k` times itself plus a multiple of another row keeps
the solutions as long as `k` is nonzero. -/
theorem sameKernel_of_rowOp {a b : CodingMatrix E} (hr : b.rowCount = a.rowCount)
    (hc : b.colCount = a.colCount) (s d : Nat) (k l : E) (hk : k ≠ 0)
    (hs : l ≠ 0 → s < a.rowCount ∧ s ≠ d)
    (h : ∀ r c, r < a.rowCount → c < a.colCount →
      b.get r c = if r = d then k * a.get d c + l * a.get s c else a.get r c) :
    SameKernel a b where
  rowCount_eq := hr
  colCount_eq := hc
  kills_iff u := by
    have hrow (r : Nat) (hra : r < a.rowCount) : ∑ c ∈ Finset.range b.colCount, b.get r c * u c =
        if r = d then k * (∑ c ∈ Finset.range a.colCount, a.get d c * u c) +
          l * ∑ c ∈ Finset.range a.colCount, a.get s c * u c
        else ∑ c ∈ Finset.range a.colCount, a.get r c * u c := by
      rw [hc]
      split_ifs with hrd
      · rw [Finset.mul_sum, Finset.mul_sum, ← Finset.sum_add_distrib]
        refine Finset.sum_congr rfl (fun c hcm => ?_)
        rw [h r c hra (Finset.mem_range.mp hcm), if_pos hrd]
        ring
      · refine Finset.sum_congr rfl (fun c hcm => ?_)
        rw [h r c hra (Finset.mem_range.mp hcm), if_neg hrd]
    constructor
    · intro hb r hra
      have hsrc : l * ∑ c ∈ Finset.range a.colCount, a.get s c * u c = 0 := by
        by_cases hl : l = 0
        · rw [hl, zero_mul]
        · obtain ⟨hsn, hsd⟩ := hs hl
          have h0 := hb s (by rw [hr]; exact hsn)
          rw [hrow s hsn, if_neg hsd] at h0
          rw [h0, mul_zero]
      have hthis := hb r (by rw [hr]; exact hra)
      rw [hrow r hra] at hthis
      split_ifs at hthis with hrd
      · rw [hsrc, add_zero] at hthis
        rw [hrd]
        exact (mul_eq_zero.mp hthis).resolve_left hk
      · exact hthis
    · intro ha r hrb
      have hra : r < a.rowCount := by omega
      rw [hrow r hra]
      split_ifs with hrd
      · rw [← hrd, ha r hra, mul_zero, zero_add]
        by_cases hl : l = 0
        · rw [hl, zero_mul]
        · rw [ha s (hs hl).1, mul_zero]
      · exact ha r hra

end Kernel

section Passes

variable {E : Type} [CodecField E] [LawfulField E]

/-- Row `source` is a normalized pivot row: zeros before a unit pivot. -/
structure PivotRow (m : CodingMatrix E) (source : Nat) : Prop where
  lt : source < m.rowCount
  before : ∀ c, c < source → m.get source c = 0
  unit : m.get source source = 1

/-- Both variants of the row update add the scaled pivot row. -/
theorem addScaledPivotRow_spec {m : CodingMatrix E} {source destination : Nat} (scale : E)
    (byteRows : Bool) (hp : m.PivotRow source) (hd : destination < m.rowCount)
    (hw : m.rowCount ≤ m.colCount) :
    (m.addScaledPivotRow source destination scale byteRows).rowCount = m.rowCount ∧
      (m.addScaledPivotRow source destination scale byteRows).colCount = m.colCount ∧
      ∀ r c, r < m.rowCount → c < m.colCount →
        (m.addScaledPivotRow source destination scale byteRows).get r c =
          if r = destination then m.get destination c + scale * m.get source c
          else m.get r c := by
  refine ⟨rfl, rfl, fun r c hr hc => ?_⟩
  have hin := m.length_getRow hp.lt
  have hout := m.length_getRow hd
  have hsc : source < m.colCount := lt_of_lt_of_le hp.lt hw
  unfold addScaledPivotRow
  cases byteRows with
  | true =>
    have hlen := length_addScaledSlice scale (m.getRow source) (m.getRow destination) true
      (hin.trans hout.symm)
    simp only [if_true, List.take_zero, List.drop_zero, List.nil_append]
    rw [get_setRow m _ (hlen.trans hout) hr hc]
    by_cases hrd : r = destination
    · rw [if_pos hrd.symm, if_pos hrd, zero_eq, getD_addScaledSlice _ _ _ _ (hin.trans hout.symm) c
        (by omega), getD_getRow m hc _ hd, getD_getRow m hc _ hp.lt]
    · rw [if_neg (Ne.symm hrd), if_neg hrd]
  | false =>
    simp only [Bool.false_eq_true, if_false]
    have hdrop : ((m.getRow source).drop (source + 1)).length =
        ((m.getRow destination).drop (source + 1)).length := by
      rw [List.length_drop, List.length_drop, hin, hout]
    have hlen := length_addScaledSlice scale _ _ false hdrop
    have hfull := length_take_append_drop
      (fun out => addScaledSlice scale ((m.getRow source).drop (source + 1)) out false) hlen
    rw [get_setRow m _ (by rw [List.length_set, hfull, hout]) hr hc]
    by_cases hrd : r = destination
    · rw [if_pos hrd.symm, if_pos hrd, getD_set, zero_eq]
      have hk : source + 1 ≤ (m.getRow destination).length := by omega
      rw [getD_take_append hk, getD_take_append hk, hfull, hout]
      rcases lt_trichotomy c source with hlt | rfl | hgt
      · rw [if_neg (by omega), if_pos (by omega), getD_getRow m hc _ hd, hp.before c hlt,
          mul_zero, add_zero]
      · rw [if_pos ⟨rfl, hc⟩, if_pos (Nat.lt_succ_self c), getD_getRow m hc _ hd, hp.unit, mul_one]
        rfl
      · rw [if_neg (by omega), if_neg (by omega), getD_addScaledSlice _ _ _ _ hdrop _
            (by rw [List.length_drop, hout]; omega), getD_drop, getD_drop,
          Nat.add_sub_of_le (by omega), getD_getRow m hc _ hd, getD_getRow m hc _ hp.lt]
    · rw [if_neg (Ne.symm hrd), if_neg hrd]

/-- The forward invariant: the first `r` columns are unit upper triangular. -/
structure Echelon (m₀ m : CodingMatrix E) (r : Nat) : Prop where
  same : SameKernel m₀ m
  unit : ∀ c, c < r → m.get c c = 1
  below : ∀ c, c < r → ∀ i, c < i → i < m.rowCount → m.get i c = 0

theorem Echelon.pivotRow {m₀ m : CodingMatrix E} {r d : Nat} (h : Echelon m₀ m r) (hd : d < r)
    (hn : d < m.rowCount) : m.PivotRow d where
  lt := hn
  before c hc := h.below c (by omega) d hc hn
  unit := h.unit d hd

/-- A unit upper triangular block followed by a pivotless column has a nonzero
solution that lives on these columns. -/
theorem Echelon.exists_kills {m₀ m : CodingMatrix E} {r : Nat} (h : Echelon m₀ m r)
    (hr : r < m.rowCount) (hw : m.rowCount ≤ m.colCount)
    (hcol : ∀ i, r ≤ i → i < m.rowCount → m.get i r = 0) :
    ∃ u : Nat → E, Kills m₀ u ∧ u r = 1 ∧ ∀ c, r < c → u c = 0 := by
  let T : Matrix (Fin r) (Fin r) E := m.toMatrix r r
  have hdet : T.det = 1 := by
    rw [Matrix.det_of_isUpperTriangular]
    · exact Finset.prod_eq_one (fun i _ => h.unit i i.isLt)
    · intro i j hij
      exact h.below j j.isLt i hij (by omega)
  have hunit : IsUnit T := (Matrix.isUnit_iff_isUnit_det T).mpr (by rw [hdet]; exact isUnit_one)
  obtain ⟨x, hx⟩ := Matrix.mulVec_surjective_iff_isUnit.mpr hunit (fun i => -m.get i r)
  let u : Nat → E := fun c => if hc : c < r then x ⟨c, hc⟩ else if c = r then 1 else 0
  have hur : u r = 1 := by simp [u]
  have huz (c : Nat) (hc : r < c) : u c = 0 := by
    simp only [u]
    rw [dif_neg (by omega), if_neg (by omega)]
  refine ⟨u, (h.same.kills_iff u).mp ?_, hur, huz⟩
  intro i hi
  have hsum : ∑ c ∈ Finset.range m.colCount, m.get i c * u c =
      (∑ c ∈ Finset.range r, m.get i c * u c) + m.get i r := by
    rw [← Finset.sum_subset (Finset.range_mono (by omega : r + 1 ≤ m.colCount)),
      Finset.sum_range_succ, hur, mul_one]
    intro c _ hc
    rw [huz c (by simpa using hc), mul_zero]
  rw [hsum]
  by_cases hir : i < r
  · have hxi := congrFun hx ⟨i, hir⟩
    have : ∑ c ∈ Finset.range r, m.get i c * u c = -m.get i r := by
      rw [← hxi, Finset.sum_range]
      refine Finset.sum_congr rfl (fun c _ => ?_)
      simp only [u]
      rw [dif_pos c.isLt]
      rfl
    rw [this, neg_add_cancel]
  · rw [hcol i (by omega) hi, add_zero]
    apply Finset.sum_eq_zero
    intro c hc
    rw [h.below c (by simpa using hc) i (by have := Finset.mem_range.mp hc; omega) hi, zero_mul]

/-- Why an elimination gives up: the left block has a nonzero solution. -/
def LeftKernel (m₀ : CodingMatrix E) (n : Nat) : Prop :=
  ∃ u : Nat → E, Kills m₀ u ∧ (∃ c, c < n ∧ u c ≠ 0) ∧ ∀ c, n ≤ c → u c = 0

variable [DecidableEq E]

/-- Clearing one entry is a row operation that empties it. -/
theorem clearEntry_spec {m : CodingMatrix E} {pivot target : Nat} (byteRows : Bool)
    (hp : m.PivotRow pivot) (ht : target < m.rowCount) (hne : pivot ≠ target)
    (hw : m.rowCount ≤ m.colCount) :
    SameKernel m (m.clearEntry pivot target byteRows) ∧
      ∀ r c, r < m.rowCount → c < m.colCount →
        (m.clearEntry pivot target byteRows).get r c =
          if r = target then m.get target c + m.get target pivot * m.get pivot c
          else m.get r c := by
  unfold clearEntry
  by_cases h0 : m.get target pivot = 0
  · rw [if_neg (by simpa using h0)]
    refine ⟨SameKernel.refl m, fun r c _ _ => ?_⟩
    rw [h0, zero_mul, add_zero]
    split_ifs with hr
    · rw [hr]
    · rfl
  · rw [if_pos (by simpa using h0)]
    obtain ⟨hr, hc, hget⟩ := addScaledPivotRow_spec (m.get target pivot) byteRows hp ht hw
    refine ⟨sameKernel_of_rowOp hr hc pivot target 1 (m.get target pivot) one_ne_zero
      (fun _ => ⟨hp.lt, hne⟩) (fun r c h1 h2 => ?_), hget⟩
    rw [hget r c h1 h2, one_mul]

theorem scaleToOne_spec {m : CodingMatrix E} {r : Nat} (byteRows : Bool) (hr : r < m.rowCount)
    (hbefore : ∀ c, c < r → m.get r c = 0) (hne : m.get r r ≠ 0)
    (hw : m.rowCount ≤ m.colCount) :
    SameKernel m (m.scaleToOne r byteRows) ∧
      ∀ i c, i < m.rowCount → c < m.colCount →
        (m.scaleToOne r byteRows).get i c =
          if i = r then (m.get r r)⁻¹ * m.get r c else m.get i c := by
  have hinv : (m.get r r)⁻¹ ≠ 0 := inv_ne_zero hne
  suffices h : (m.scaleToOne r byteRows).rowCount = m.rowCount ∧
      (m.scaleToOne r byteRows).colCount = m.colCount ∧
      ∀ i c, i < m.rowCount → c < m.colCount →
        (m.scaleToOne r byteRows).get i c =
          if i = r then (m.get r r)⁻¹ * m.get r c else m.get i c by
    obtain ⟨h1, h2, h3⟩ := h
    refine ⟨sameKernel_of_rowOp h1 h2 r r (m.get r r)⁻¹ 0 hinv (fun h => absurd rfl h)
      (fun i c hi hc => ?_), h3⟩
    rw [h3 i c hi hc, zero_mul, add_zero]
  unfold scaleToOne
  by_cases h1 : m.get r r = 1
  · rw [if_neg (by simpa using h1)]
    refine ⟨rfl, rfl, fun i c _ _ => ?_⟩
    rw [h1, inv_one, one_mul]
    split_ifs with hi
    · rw [hi]
    · rfl
  rw [if_pos (by simpa using h1)]
  have hdiv : div one (m.get r r) = (m.get r r)⁻¹ := by
    rw [div_eq _ _ hne, one_eq, one_div]
  have hrow := m.length_getRow hr
  have hlen (k : Nat) : ((m.getRow r).take k ++
      ((m.getRow r).drop k).map (mul (div one (m.get r r)))).length = m.colCount :=
    (length_take_append_drop (fun l => l.map (mul (div one (m.get r r))))
      (List.length_map _)).trans hrow
  have hscaled (c : Nat) (hc : c < m.colCount) (k : Nat) (hk : k ≤ m.colCount) :
      ((m.getRow r).take k ++ ((m.getRow r).drop k).map (mul (div one (m.get r r)))).getD c 0 =
        if c < k then m.get r c else (m.get r r)⁻¹ * m.get r c := by
    rw [getD_take_append (by omega)]
    split_ifs with hck
    · exact getD_getRow m hc _ hr
    · rw [getD_map_of_lt _ _ _ (by rw [List.length_drop]; omega) 0, getD_drop,
        Nat.add_sub_of_le (by omega), getD_getRow m hc _ hr, hdiv, mul_eq]
  cases byteRows with
  | true =>
    simp only [if_true]
    refine ⟨rfl, rfl, fun i c hi hc => ?_⟩
    rw [get_setRow m _ (hlen 0) hi hc]
    by_cases hir : i = r
    · rw [if_pos hir.symm, if_pos hir, zero_eq, hscaled c hc 0 (by omega), if_neg (by omega)]
    · rw [if_neg (Ne.symm hir), if_neg hir]
  | false =>
    simp only [Bool.false_eq_true, if_false]
    refine ⟨rfl, rfl, fun i c hi hc => ?_⟩
    rw [get_set _ _ (by exact hr) (by exact lt_of_lt_of_le hr hw) (by exact hc),
      get_setRow m _ (hlen (r + 1)) hi hc]
    by_cases hir : i = r
    · subst hir
      rw [zero_eq, hscaled c hc (i + 1) (by omega)]
      rcases lt_trichotomy c i with hlt | rfl | hgt
      · rw [if_neg (by omega), if_pos rfl, if_pos (by omega), if_pos rfl, hbefore c hlt, mul_zero]
      · rw [if_pos ⟨rfl, rfl⟩, if_pos rfl, inv_mul_cancel₀ hne]
        rfl
      · rw [if_neg (by omega), if_pos rfl, if_neg (by omega), if_pos rfl]
    · rw [if_neg (fun h => hir h.1.symm), if_neg (Ne.symm hir), if_neg hir]

theorem selectPivot_spec {m₀ m : CodingMatrix E} {r : Nat} (h : Echelon m₀ m r)
    (hr : r < m.rowCount) (hw : m.rowCount ≤ m.colCount) :
    ∃ t, m.selectPivot r = .ok t ∧ Echelon m₀ t r ∧
      (t.get r r = 0 → ∀ i, r ≤ i → i < t.rowCount → t.get i r = 0) := by
  unfold selectPivot
  by_cases h0 : m.get r r = zero
  swap
  · exact ⟨m, if_neg h0, h, fun h1 => absurd h1 h0⟩
  rw [if_pos h0]
  split
  · next rBelow hfind =>
    have hmem := List.mem_of_find?_eq_some hfind
    have hnz : m.get rBelow r ≠ 0 := by simpa using List.find?_some hfind
    rw [List.mem_range'_1] at hmem
    have hlt : rBelow < m.rowCount := by omega
    obtain ⟨t, ht, htr, htc, hget⟩ := swapRows_spec (ε := MatrixError) m hr hlt
    let σ : Nat → Nat := fun i => if i = r then rBelow else if i = rBelow then r else i
    have hσ (i : Nat) (hi : i < m.rowCount) : σ i < m.rowCount := by
      simp only [σ]
      split_ifs <;> omega
    have hσ2 (i : Nat) : σ (σ i) = i := by
      simp only [σ]
      split_ifs <;> omega
    have hrr : t.get r r = m.get rBelow r := by
      rw [hget r r (by omega), if_pos rfl]
    refine ⟨t, ht, ⟨h.same.trans (sameKernel_of_perm htr htc σ hσ hσ2 hget), ?_, ?_⟩, ?_⟩
    · intro c hc
      rw [hget c c (by omega), if_neg (by omega), if_neg (by omega)]
      exact h.unit c hc
    · intro c hc i hi hin
      rw [hget i c (by omega)]
      refine h.below c hc _ ?_ ?_
      · split_ifs <;> omega
      · split_ifs <;> omega
    · intro hz
      rw [hrr] at hz
      exact absurd hz hnz
  · next hfind =>
    refine ⟨m, rfl, h, fun _ i hi hin => ?_⟩
    rcases Nat.eq_or_lt_of_le hi with rfl | hlt
    · exact h0
    · have := List.find?_eq_none.mp hfind i (List.mem_range'_1.mpr (by omega))
      simpa using this

theorem forwardStep_spec {m₀ m : CodingMatrix E} {r : Nat} (byteRows : Bool)
    (h : Echelon m₀ m r) (hr : r < m₀.rowCount) (hw : m₀.rowCount ≤ m₀.colCount) :
    (forwardStep byteRows m r).Sat (fun t => Echelon m₀ t (r + 1))
      (fun e => e = .singularMatrix ∧ LeftKernel m₀ m₀.rowCount) False := by
  have hmr := h.same.rowCount_eq
  have hmc := h.same.colCount_eq
  obtain ⟨t, ht, he, hz⟩ := selectPivot_spec h (by omega) (by omega)
  have htr := he.same.rowCount_eq
  have htc := he.same.colCount_eq
  unfold forwardStep
  rw [ht, Outcome.ok_bind]
  by_cases h0 : t.get r r = zero
  · rw [if_pos h0]
    obtain ⟨u, hu, hur, huz⟩ := he.exists_kills (by omega) (by omega) (hz h0)
    refine ⟨rfl, u, hu, ⟨r, hr, ?_⟩, fun c hc => huz c (by omega)⟩
    rw [hur]
    exact one_ne_zero
  rw [if_neg h0]
  obtain ⟨hsame, hget⟩ := scaleToOne_spec byteRows (by omega)
    (fun c hc => he.below c hc r hc (by omega)) h0 (by omega)
  have hsr := hsame.rowCount_eq
  have hsc := hsame.colCount_eq
  have hs : Echelon m₀ (t.scaleToOne r byteRows) r := by
    refine ⟨he.same.trans hsame, fun c hc => ?_, fun c hc i hi hin => ?_⟩
    · rw [hget c c (by omega) (by omega), if_neg (by omega)]
      exact he.unit c hc
    · rw [hget i c (by omega) (by omega)]
      split_ifs with hir
      · rw [he.below c hc r hc (by omega), mul_zero]
      · exact he.below c hc i hi (by omega)
  have hone : (t.scaleToOne r byteRows).get r r = 1 := by
    rw [hget r r (by omega) (by omega), if_pos rfl, inv_mul_cancel₀ h0]
  change Echelon m₀ _ (r + 1)
  let P : Nat → CodingMatrix E → Prop := fun i s => Echelon m₀ s r ∧ s.get r r = 1 ∧
    ∀ j, r < j → j < i → s.get j r = 0
  have hP := foldl_range'_inv P (fun m rBelow => m.clearEntry r rBelow byteRows) (r + 1)
    ((t.scaleToOne r byteRows).rowCount - (r + 1)) (t.scaleToOne r byteRows)
    ⟨hs, hone, fun j h1 h2 => by omega⟩ (by
      rintro i hi1 hi2 s ⟨hse, hs1, hsz⟩
      have hssr := hse.same.rowCount_eq
      have hssc := hse.same.colCount_eq
      have hp : s.PivotRow r := ⟨by omega, fun c hc => hse.below c hc r hc (by omega), hs1⟩
      obtain ⟨hk, hg⟩ := clearEntry_spec byteRows hp (by omega : i < s.rowCount) (by omega)
        (by omega)
      refine ⟨⟨hse.same.trans hk, fun c hc => ?_, fun c hc j hj hjn => ?_⟩, ?_, fun j h1 h2 => ?_⟩
      · rw [hg c c (by omega) (by omega), if_neg (by omega)]
        exact hse.unit c hc
      · have hjn' : j < s.rowCount := by rw [← hk.rowCount_eq]; exact hjn
        rw [hg j c hjn' (by omega)]
        split_ifs with hji
        · rw [hp.before c hc, mul_zero, add_zero, ← hji]
          exact hse.below c hc j hj hjn'
        · exact hse.below c hc j hj hjn'
      · rw [hg r r (by omega) (by omega), if_neg (by omega)]
        exact hs1
      · rw [hg j r (by omega) (by omega)]
        split_ifs with hji
        · rw [hs1, mul_one, CharTwo.add_self_eq_zero]
        · exact hsz j h1 (by omega))
  obtain ⟨hfe, hf1, hfz⟩ := hP
  have hfr := hfe.same.rowCount_eq
  refine ⟨hfe.same, fun c hc => ?_, fun c hc i hi hin => ?_⟩
  · rcases Nat.lt_succ_iff_lt_or_eq.mp hc with hc | rfl
    · exact hfe.unit c hc
    · exact hf1
  · rcases Nat.lt_succ_iff_lt_or_eq.mp hc with hc | rfl
    · exact hfe.below c hc i hi hin
    · exact hfz i hi (by omega)

theorem backwardStep_spec {m₀ m : CodingMatrix E} {d : Nat} (byteRows : Bool)
    (h : Echelon m₀ m m₀.rowCount) (hd : d < m₀.rowCount) (hw : m₀.rowCount ≤ m₀.colCount)
    (habove : ∀ c, c < d → ∀ i, i < c → m.get i c = 0) :
    Echelon m₀ (backwardStep byteRows m d) m₀.rowCount ∧
      ∀ c, c < d + 1 → ∀ i, i < c → (backwardStep byteRows m d).get i c = 0 := by
  let P : Nat → CodingMatrix E → Prop := fun j s => Echelon m₀ s m₀.rowCount ∧
    (∀ c, c < d → ∀ i, i < c → s.get i c = 0) ∧ ∀ i, i < j → s.get i d = 0
  have hP := foldl_range_inv P (fun m rAbove => m.clearEntry d rAbove byteRows) d m
    ⟨h, habove, fun i hi => by omega⟩ (by
      rintro j hj s ⟨hse, hsa, hsd⟩
      have hsr := hse.same.rowCount_eq
      have hsc := hse.same.colCount_eq
      have hp := hse.pivotRow hd (by omega)
      obtain ⟨hk, hg⟩ := clearEntry_spec byteRows hp (by omega : j < s.rowCount) (by omega)
        (by omega)
      have hrow (i c : Nat) (hi : i < m₀.rowCount) (hc : c < d) :
          (s.clearEntry d j byteRows).get i c = s.get i c := by
        rw [hg i c (by omega) (by omega), hp.before c hc, mul_zero, add_zero]
        split_ifs with hij
        · rw [hij]
        · rfl
      have hother (i c : Nat) (hi : i < m₀.rowCount) (hc : c < m₀.colCount) (hij : i ≠ j) :
          (s.clearEntry d j byteRows).get i c = s.get i c := by
        rw [hg i c (by omega) (by omega), if_neg hij]
      refine ⟨⟨hse.same.trans hk, fun c hc => ?_, fun c hc i hi hin => ?_⟩, fun c hc i hi => ?_,
        fun i hi => ?_⟩
      · rcases Nat.lt_or_ge c d with hcd | hcd
        · rw [hrow c c hc hcd]
          exact hse.unit c hc
        · rw [hother c c hc (by omega) (by omega)]
          exact hse.unit c hc
      · have hin' : i < s.rowCount := by rw [← hk.rowCount_eq]; exact hin
        rcases Nat.lt_or_ge c d with hcd | hcd
        · rw [hrow i c (by omega) hcd]
          exact hse.below c hc i hi hin'
        · rw [hother i c (by omega) (by omega) (by omega)]
          exact hse.below c hc i hi hin'
      · rw [hrow i c (by omega) hc]
        exact hsa c hc i hi
      · rcases Nat.lt_succ_iff_lt_or_eq.mp hi with hlt | rfl
        · rw [hother i d (by omega) (by omega) (by omega)]
          exact hsd i hlt
        · rw [hg i d (by omega) (by omega), if_pos rfl, hp.unit, mul_one,
            CharTwo.add_self_eq_zero])
  obtain ⟨he, ha, hz⟩ := hP
  refine ⟨he, fun c hc i hi => ?_⟩
  rcases Nat.lt_succ_iff_lt_or_eq.mp hc with hc | rfl
  · exact ha c hc i hi
  · exact hz i hi

/-- Elimination ends with an identity block on the left and unchanged
solutions, or reports a nonzero solution of the left block. -/
theorem eliminate_spec (byteRows : Bool) (m : CodingMatrix E) (hw : m.rowCount ≤ m.colCount) :
    (m.eliminate byteRows).Sat
      (fun t => SameKernel m t ∧ ∀ r c, r < m.rowCount → c < m.rowCount →
        t.get r c = if r = c then 1 else 0)
      (fun e => e = .singularMatrix ∧ LeftKernel m m.rowCount) False := by
  unfold eliminate
  have hforward := Outcome.Sat.foldlM_range (P := fun r t => Echelon m t r) m.rowCount m
    ⟨SameKernel.refl m, fun c hc => by omega, fun c hc => by omega⟩
    (fun r hr t ht => forwardStep_spec byteRows ht hr hw)
  refine hforward.bind (fun t ht => ?_)
  have htr := ht.same.rowCount_eq
  let P : Nat → CodingMatrix E → Prop := fun d s =>
    Echelon m s m.rowCount ∧ ∀ c, c < d → ∀ i, i < c → s.get i c = 0
  have hP := foldl_range_inv P (backwardStep byteRows) t.rowCount t
    ⟨ht, fun c hc => by omega⟩
    (fun d hd s hs => backwardStep_spec byteRows hs.1 (by omega) hw hs.2)
  obtain ⟨he, ha⟩ := hP
  refine ⟨he.same, fun r c hr hc => ?_⟩
  rcases lt_trichotomy r c with hlt | rfl | hgt
  · rw [if_neg (by omega)]
    exact ha c (by omega) r hlt
  · rw [if_pos rfl]
    exact he.unit r hr
  · rw [if_neg (by omega)]
    exact he.below c hc r hgt (by rw [he.same.rowCount_eq]; exact hr)

theorem gaussianElim_spec (m : CodingMatrix E) (hw : m.rowCount ≤ m.colCount) :
    m.gaussianElim.Sat
      (fun t => SameKernel m t ∧ ∀ r c, r < m.rowCount → c < m.rowCount →
        t.get r c = if r = c then 1 else 0)
      (fun e => e = .singularMatrix ∧ LeftKernel m m.rowCount) False :=
  eliminate_spec (asGf8Slice E) m hw

end Passes

section Blocks

variable {E : Type} [CodecField E] {m t : CodingMatrix E} {n k : Nat}

/-- The `k` columns after the left square block. -/
def rightBlock (m : CodingMatrix E) (n k : Nat) : Matrix (Fin n) (Fin k) E :=
  Matrix.of fun i j => m.get i (n + j)

@[simp] theorem rightBlock_apply (m : CodingMatrix E) (n k : Nat) (i : Fin n) (j : Fin k) :
    m.rightBlock n k i j = m.get i (n + j) := rfl

variable [LawfulField E]

/-- The equations by blocks. -/
theorem kills_iff_blocks (hr : m.rowCount = n) (hc : m.colCount = n + k) (u : Nat → E) :
    Kills m u ↔ ∀ i, ((m.toMatrix n n).mulVec fun j => u j) i +
      ((m.rightBlock n k).mulVec fun j => u (n + j)) i = 0 := by
  have hrow (i : Fin n) : ∑ c ∈ Finset.range m.colCount, m.get i c * u c =
      ((m.toMatrix n n).mulVec fun j => u j) i +
        ((m.rightBlock n k).mulVec fun j => u (n + j)) i := by
    rw [hc, Finset.sum_range_add, Finset.sum_range, Finset.sum_range]
    rfl
  unfold Kills
  rw [hr]
  constructor
  · intro h i
    rw [← hrow]
    exact h i i.isLt
  · intro h r hrn
    exact (hrow ⟨r, hrn⟩).trans (h ⟨r, hrn⟩)

/-- A nonzero solution of the left block. -/
theorem not_isUnit_of_leftKernel (hr : m.rowCount = n) (hc : m.colCount = n + k)
    (h : LeftKernel m n) : ¬IsUnit (m.toMatrix n n) := by
  obtain ⟨u, hu, ⟨c, hcn, hne⟩, hz⟩ := h
  intro hunit
  have hker := (isUnit_iff_kernel _).mp hunit (fun j => u j) (funext fun i => by
    have hi := (kills_iff_blocks hr hc u).mp hu i
    have hright : (fun j : Fin k => u (n + j)) = 0 := by
      funext j
      exact hz (n + j) (by omega)
    rw [hright, Matrix.mulVec_zero, Pi.zero_apply, add_zero] at hi
    exact hi)
  exact hne (congrFun hker ⟨c, hcn⟩)

/-- Equations solved to `[I | X]` have the left block of the first as an inverse
of what turned its right block into `X`. -/
theorem solved_blocks (hr : m.rowCount = n) (hc : m.colCount = n + k) (hsame : SameKernel m t)
    (hid : ∀ r c, r < n → c < n → t.get r c = if r = c then 1 else 0) :
    t.toMatrix n n = 1 ∧ IsUnit (m.toMatrix n n) ∧
      m.toMatrix n n * t.rightBlock n k = m.rightBlock n k := by
  have hone : t.toMatrix n n = 1 := by
    ext i j
    rw [toMatrix_apply, hid i j i.isLt j.isLt, Matrix.one_apply]
    exact if_congr Fin.ext_iff.symm rfl rfl
  have htr := hsame.rowCount_eq.trans hr
  have htc := hsame.colCount_eq.trans hc
  -- one equation system for both, with the identity block multiplied out
  have hkills (u : Nat → E)
      (hu : ∀ i : Fin n, u i + ((t.rightBlock n k).mulVec fun j => u (n + j)) i = 0) (i : Fin n) :
      ((m.toMatrix n n).mulVec fun j => u j) i +
        ((m.rightBlock n k).mulVec fun j => u (n + j)) i = 0 := by
    apply (kills_iff_blocks hr hc u).mp
    apply (hsame.kills_iff u).mp
    apply (kills_iff_blocks htr htc u).mpr
    intro i
    rw [hone, Matrix.one_mulVec]
    exact hu i
  refine ⟨hone, ?_, ?_⟩
  · apply (isUnit_iff_kernel _).mpr
    intro x hx
    let u : Nat → E := fun c => if hcn : c < n then x ⟨c, hcn⟩ else 0
    have hleft : (fun j : Fin n => u j) = x := by
      funext j
      exact dif_pos j.isLt
    have hright : (fun j : Fin k => u (n + j)) = 0 := by
      funext j
      exact dif_neg (by omega)
    have hut : Kills t u := by
      apply (hsame.kills_iff u).mpr
      apply (kills_iff_blocks hr hc u).mpr
      intro i
      rw [hleft, hright, Matrix.mulVec_zero, hx]
      exact add_zero 0
    funext i
    have hi := (kills_iff_blocks htr htc u).mp hut i
    rw [hleft, hright, hone, Matrix.one_mulVec, Matrix.mulVec_zero, Pi.zero_apply, add_zero] at hi
    exact hi
  · ext i j
    -- column `j` of the right block together with the unit vector solves `[I | X]`
    let u : Nat → E := fun c => if c < n then t.get c (n + j) else if c = n + j then 1 else 0
    have hleft : (fun c : Fin n => u c) = fun c => t.rightBlock n k c j := by
      funext c
      exact if_pos c.isLt
    have hright : (fun c : Fin k => u (n + c)) = Pi.single j 1 := by
      funext c
      simp only [u, Pi.single_apply]
      rw [if_neg (by omega)]
      apply if_congr _ rfl rfl
      rw [Fin.ext_iff]
      omega
    have hi := hkills u (by
      intro i
      rw [hright, Matrix.mulVec_single_one]
      have hui : u i = t.rightBlock n k i j := congrFun hleft i
      rw [hui]
      exact CharTwo.add_self_eq_zero _) i
    rw [hleft, hright, Matrix.mulVec_single_one] at hi
    exact CharTwo.add_eq_zero.mp hi

end Blocks

section Inverse

variable {E : Type} [CodecField E] [LawfulField E] {m : CodingMatrix E} {n : Nat}

theorem augmentIdentity_spec (hr : m.rowCount = n)
    (hc : m.colCount = n) :
    m.augmentIdentity.rowCount = n ∧ m.augmentIdentity.colCount = n * 2 ∧
      ∀ r c, r < n → c < n * 2 →
        m.augmentIdentity.get r c = if c < n then m.get r c else if c = n + r then 1 else 0 := by
  let P : Nat → CodingMatrix E → Prop := fun k t => t.rowCount = n ∧ t.colCount = n * 2 ∧
    ∀ r c, r < n → c < n * 2 → t.get r c =
      if r < k then if c < n then m.get r c else if c = n + r then 1 else 0 else 0
  have hP := foldl_range_inv P
    (fun work row => (work.setRow row (m.getRow row)).set row (m.colCount + row) one) m.rowCount
    (new m.rowCount (m.colCount * 2))
    ⟨hr, by rw [colCount_new, hc], fun r c _ _ => by simp [get_new]⟩ (by
      rintro k hk t ⟨htr, htc, ht⟩
      have hlen := m.length_getRow (r := k) (by omega)
      refine ⟨htr, htc, fun r c h1 h2 => ?_⟩
      rw [get_set _ _ (by rw [rowCount_setRow]; omega) (by rw [colCount_setRow]; omega)
          (by rw [colCount_setRow]; omega),
        get_setRow_of_le _ _ (by omega) (by omega) (by omega), hlen, hc, ht r c h1 h2]
      by_cases hkr : k = r
      · subst hkr
        rcases Nat.lt_or_ge c n with hcn | hcn
        · rw [if_neg (by omega), if_pos ⟨rfl, hcn⟩, if_pos (Nat.lt_succ_self k), if_pos hcn]
          exact getD_getRow m (by omega) _ (by omega)
        · rw [if_neg (by omega : ¬(k = k ∧ c < n)), if_neg (lt_irrefl k),
            if_pos (Nat.lt_succ_self k), if_neg (by omega : ¬c < n)]
          by_cases hck : c = n + k
          · rw [if_pos ⟨rfl, hck.symm⟩, if_pos hck]
            rfl
          · rw [if_neg (fun h => hck h.2.symm), if_neg hck]
      · rw [if_neg (fun h => hkr h.1), if_neg (fun h => hkr h.1)]
        apply if_congr _ rfl rfl
        omega)
  obtain ⟨h1, h2, h3⟩ := hP
  refine ⟨h1, h2, fun r c hrn hcn => ?_⟩
  refine (h3 r c hrn hcn).trans (if_pos (by omega))

theorem rightBlock_augmentIdentity (hr : m.rowCount = n) (hc : m.colCount = n) :
    m.augmentIdentity.toMatrix n n = m.toMatrix n n ∧ m.augmentIdentity.rightBlock n n = 1 := by
  obtain ⟨-, -, haug⟩ := augmentIdentity_spec hr hc
  constructor
  · ext i j
    rw [toMatrix_apply, haug i j i.isLt (by omega), if_pos j.isLt, toMatrix_apply]
  · ext i j
    rw [rightBlock_apply, haug i (n + j) i.isLt (by omega), if_neg (by omega), Matrix.one_apply]
    apply if_congr _ rfl rfl
    rw [Fin.ext_iff]
    omega

variable [DecidableEq E]

/-- Inversion returns the inverse, or reports that there is none. -/
theorem invert_spec (hr : m.rowCount = n) (hc : m.colCount = n) :
    m.invert.Sat
      (fun b => b.rowCount = n ∧ b.colCount = n ∧ m.toMatrix n n * b.toMatrix n n = 1)
      (fun e => e = .singularMatrix ∧ ¬IsUnit (m.toMatrix n n)) False := by
  obtain ⟨har, hac, -⟩ := augmentIdentity_spec hr hc
  obtain ⟨hleft, hright⟩ := rightBlock_augmentIdentity hr hc
  have hac' : m.augmentIdentity.colCount = n + n := by omega
  have hsq : (!m.isSquare) = false := by simp [isSquare, hr, hc]
  unfold invert
  rw [hsq, if_neg Bool.false_ne_true]
  have helim := gaussianElim_spec m.augmentIdentity (by omega)
  rw [har] at helim
  refine Outcome.Sat.bind (P := fun t => SameKernel m.augmentIdentity t ∧ ∀ r c, r < n → c < n →
    t.get r c = if r = c then 1 else 0) (helim.mono (fun _ h => h) ?_ id) ?_
  · intro e ⟨he, hker⟩
    refine ⟨he, ?_⟩
    rw [← hleft]
    exact not_isUnit_of_leftKernel har hac' hker
  · intro t ⟨hsame, hid⟩
    obtain ⟨-, -, hmul⟩ := solved_blocks har hac' hsame hid
    refine ⟨by rw [rowCount_subMatrix]; omega, by rw [colCount_subMatrix]; omega, ?_⟩
    have hsub : (t.subMatrix 0 m.rowCount m.colCount (m.colCount * 2)).toMatrix n n =
        t.rightBlock n n := by
      ext i j
      rw [toMatrix_apply, get_subMatrix _ _ _ _ _ (by omega) (by omega), Nat.zero_add, hr,
        rightBlock_apply]
    rw [hsub, ← hleft, hmul, hright]

end Inverse

end CodingMatrix

end ErasureCodec
