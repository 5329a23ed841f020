import ErasureCodec.Matrix.Elimination
import ErasureCodec.Field.Galois8
import Mathlib.LinearAlgebra.Matrix.NonsingularInverse

namespace ErasureCodec

open CodecField

namespace CodingMatrix

section Definitions

variable {E : Type} [CodecField E] [DecidableEq E]

/-- The product of the rows of `m` by the inverse that an elimination left in the
right half of its workspace. -/
def multiplyRight (m work : CodingMatrix E) : CodingMatrix E :=
  let n := m.colCount
  let byteRows := asGf8Slice E
  (List.range m.rowCount).foldl (fun result row =>
    result.setRow row ((List.range m.colCount).foldl (fun output inner =>
      let coefficient := m.get row inner
      if coefficient ≠ zero then
        addScaledSlice coefficient ((work.getRow inner).drop n) output byteRows
      else output) (result.getRow row))) (new m.rowCount n)

def systematicFromVandermonde (m : CodingMatrix E) : Outcome MatrixError (CodingMatrix E) :=
  let n := m.colCount
  if m.rowCount < n then .err .incompatibleDimensions
  else do
    let work ← ((List.range n).foldl
      (fun work row => (work.setRow row (m.getRow row)).set row (n + row) one)
      (new n (n * 2))).gaussianElim
    pure (m.multiplyRight work)

end Definitions

section Elimination

variable {E : Type} [CodecField E] [LawfulField E] [DecidableEq E] {m : CodingMatrix E} {n k : Nat}

/-- Elimination of an invertible left block. -/
theorem eliminate_of_isUnit (byteRows : Bool) (hr : m.rowCount = n) (hc : m.colCount = n + k)
    (hunit : IsUnit (m.toMatrix n n)) :
    ∃ t, m.eliminate byteRows = .ok t ∧ t.rowCount = n ∧ t.colCount = n + k ∧
      t.toMatrix n n = 1 ∧ t.rightBlock n k = (m.toMatrix n n)⁻¹ * m.rightBlock n k := by
  have hspec := eliminate_spec byteRows m (by omega)
  rw [hr] at hspec
  cases hres : m.eliminate byteRows with
  | ok t =>
    rw [hres] at hspec
    obtain ⟨hsame, hid⟩ := hspec
    obtain ⟨hone, -, hmul⟩ := solved_blocks hr hc hsame hid
    refine ⟨t, rfl, hsame.rowCount_eq.trans hr, hsame.colCount_eq.trans hc, hone, ?_⟩
    have hdet := (Matrix.isUnit_iff_isUnit_det _).mp hunit
    rw [← hmul, ← Matrix.mul_assoc, Matrix.nonsing_inv_mul _ hdet, Matrix.one_mul]
  | err e =>
    rw [hres] at hspec
    exact absurd hunit (not_isUnit_of_leftKernel hr hc hspec.2)
  | panic =>
    rw [hres] at hspec
    exact hspec.elim

theorem eliminate_of_not_isUnit (byteRows : Bool) (hr : m.rowCount = n) (hc : m.colCount = n + k)
    (hunit : ¬IsUnit (m.toMatrix n n)) : m.eliminate byteRows = .err .singularMatrix := by
  have hspec := eliminate_spec byteRows m (by omega)
  rw [hr] at hspec
  cases hres : m.eliminate byteRows with
  | ok t =>
    rw [hres] at hspec
    exact absurd (solved_blocks hr hc hspec.1 hspec.2).2.1 hunit
  | err e =>
    rw [hres] at hspec
    rw [hspec.1]
  | panic =>
    rw [hres] at hspec
    exact hspec.elim

theorem invert_of_isUnit (hr : m.rowCount = n) (hc : m.colCount = n)
    (hunit : IsUnit (m.toMatrix n n)) :
    ∃ b, m.invert = .ok b ∧ b.rowCount = n ∧ b.colCount = n ∧
      m.toMatrix n n * b.toMatrix n n = 1 ∧ b.toMatrix n n * m.toMatrix n n = 1 := by
  have hspec := invert_spec hr hc
  cases hres : m.invert with
  | ok b =>
    rw [hres] at hspec
    obtain ⟨hbr, hbc, hmul⟩ := hspec
    exact ⟨b, rfl, hbr, hbc, hmul, mul_eq_one_comm.mp hmul⟩
  | err e =>
    rw [hres] at hspec
    exact absurd hunit hspec.2
  | panic =>
    rw [hres] at hspec
    exact hspec.elim

theorem invert_of_not_isUnit (hr : m.rowCount = n) (hc : m.colCount = n)
    (hunit : ¬IsUnit (m.toMatrix n n)) : m.invert = .err .singularMatrix := by
  have hspec := invert_spec hr hc
  cases hres : m.invert with
  | ok b =>
    rw [hres] at hspec
    exact absurd (IsUnit.of_mul_eq_one _ hspec.2.2) hunit
  | err e =>
    rw [hres] at hspec
    rw [hspec.1]
  | panic =>
    rw [hres] at hspec
    exact hspec.elim

end Elimination

section Vandermonde

variable {E : Type} [CodecField E]

theorem getRow_top (m : CodingMatrix E) {n row : Nat} (hc : m.colCount = n) (hr : n ≤ m.rowCount)
    (hrow : row < n) : (m.subMatrix 0 0 n n).getRow row = m.getRow row := by
  have htop := (m.subMatrix 0 0 n n).length_getRow (r := row) (by rw [rowCount_subMatrix]; omega)
  have hlen := m.length_getRow (r := row) (by omega)
  rw [colCount_subMatrix, Nat.sub_zero] at htop
  apply getD_ext zero (by rw [htop, hlen, hc])
  intro c hcol
  rw [htop] at hcol
  rw [getD_getRow _ (by rw [colCount_subMatrix]; omega) _ (by rw [rowCount_subMatrix]; omega),
    getD_getRow m (by omega) _ (by omega), get_subMatrix _ _ _ _ _ (by omega) (by omega),
    Nat.zero_add, Nat.zero_add]

theorem getRow_right (t : CodingMatrix E) {n row : Nat} (hr : t.rowCount = n)
    (hc : t.colCount = n * 2) (hrow : row < n) :
    (t.subMatrix 0 n n (n * 2)).getRow row = (t.getRow row).drop n := by
  have hsub := (t.subMatrix 0 n n (n * 2)).length_getRow (r := row)
    (by rw [rowCount_subMatrix]; omega)
  have hlen := t.length_getRow (r := row) (by omega)
  rw [colCount_subMatrix] at hsub
  apply getD_ext zero (by rw [hsub, List.length_drop, hlen, hc])
  intro c hcol
  rw [hsub] at hcol
  rw [getD_getRow _ (by rw [colCount_subMatrix]; omega) _ (by rw [rowCount_subMatrix]; omega),
    get_subMatrix _ _ _ _ _ (by omega) (by omega), getD_drop, getD_getRow t (by omega) _ (by omega),
    Nat.zero_add]

variable [DecidableEq E]

/-- The retained right half is the inverse that `invert` copies out. -/
theorem multiplyRight_eq (m work : CodingMatrix E) (hr : work.rowCount = m.colCount)
    (hc : work.colCount = m.colCount * 2) :
    m.multiply (work.subMatrix 0 m.colCount m.colCount (m.colCount * 2)) =
      .ok (m.multiplyRight work) := by
  have hrows : (work.subMatrix 0 m.colCount m.colCount (m.colCount * 2)).rowCount = m.colCount := by
    rw [rowCount_subMatrix, Nat.sub_zero]
  have hcols : (work.subMatrix 0 m.colCount m.colCount (m.colCount * 2)).colCount = m.colCount := by
    rw [colCount_subMatrix]
    omega
  unfold multiply
  rw [if_neg (by rw [hrows]; exact fun h => h rfl)]
  simp only [hcols]
  by_cases h0 : m.colCount = 0
  · rw [if_pos h0]
    congr 1
    have hkeep : (m.multiplyRight work).rowCount = m.rowCount ∧
        (m.multiplyRight work).colCount = m.colCount := by
      apply foldl_inv (fun t : CodingMatrix E => t.rowCount = m.rowCount ∧ t.colCount = m.colCount)
      · exact ⟨rfl, rfl⟩
      · intro row _ t ht
        exact ht
    apply ext_get (a := new m.rowCount m.colCount) hkeep.1.symm hkeep.2.symm
    intro r c _ hcol
    rw [colCount_new] at hcol
    omega
  · rw [if_neg h0]
    congr 1
    unfold multiplyRight
    apply foldl_congr_inv (fun _ => True) _ _ _ _ trivial
    intro row _ t _
    refine ⟨trivial, ?_⟩
    congr 1
    apply foldl_congr_inv (fun _ => True) _ _ _ _ trivial
    intro inner hinner output _
    refine ⟨trivial, ?_⟩
    rw [getRow_right work hr hc (List.mem_range.mp hinner)]

variable [LawfulField E]

/-- The systematic product is the multiplication by the inverse of the top block. -/
theorem systematicFromVandermonde_eq (m : CodingMatrix E) (h : m.colCount ≤ m.rowCount) :
    m.systematicFromVandermonde = (do
      let inverse ← (m.subMatrix 0 0 m.colCount m.colCount).invert
      m.multiply inverse) := by
  have hrows : (m.subMatrix 0 0 m.colCount m.colCount).rowCount = m.colCount := by
    rw [rowCount_subMatrix, Nat.sub_zero]
  have hcols : (m.subMatrix 0 0 m.colCount m.colCount).colCount = m.colCount := by
    rw [colCount_subMatrix, Nat.sub_zero]
  have hwork : (List.range m.colCount).foldl
      (fun work row => (work.setRow row (m.getRow row)).set row (m.colCount + row) one)
      (new m.colCount (m.colCount * 2)) =
      (m.subMatrix 0 0 m.colCount m.colCount).augmentIdentity := by
    unfold augmentIdentity
    rw [hrows, hcols]
    apply foldl_congr_inv (fun _ => True) _ _ _ _ trivial
    intro row hrow work _
    refine ⟨trivial, ?_⟩
    rw [getRow_top m rfl h (List.mem_range.mp hrow)]
  have hsq : (!(m.subMatrix 0 0 m.colCount m.colCount).isSquare) = false := by
    simp [isSquare]
  obtain ⟨har, hac, -⟩ := augmentIdentity_spec hrows hcols
  have hspec := gaussianElim_spec (m.subMatrix 0 0 m.colCount m.colCount).augmentIdentity (by omega)
  unfold systematicFromVandermonde invert
  simp only
  rw [if_neg (by omega), hwork, hsq, if_neg Bool.false_ne_true, hrows, hcols]
  cases hres : (m.subMatrix 0 0 m.colCount m.colCount).augmentIdentity.gaussianElim with
  | ok t =>
    rw [hres] at hspec
    have htr := hspec.1.rowCount_eq.trans har
    have htc := hspec.1.colCount_eq.trans hac
    exact (multiplyRight_eq m t htr htc).symm
  | err e => rfl
  | panic => rfl

end Vandermonde

/-- Gauss-Jordan elimination is complete and exact, with either row kernel, and so
are the inverse and the systematic product built on it. -/
theorem gauss_jordan_exact {E : Type} [CodecField E] [LawfulField E] [DecidableEq E] :
    (∀ (byteRows : Bool) (m : CodingMatrix E) (n k : Nat), 1 ≤ n → m.rowCount = n →
      m.colCount = n + k →
      (IsUnit (m.toMatrix n n) → ∃ t, m.eliminate byteRows = .ok t ∧ t.rowCount = n ∧
        t.colCount = n + k ∧ t.toMatrix n n = 1 ∧
        t.rightBlock n k = (m.toMatrix n n)⁻¹ * m.rightBlock n k) ∧
      (¬IsUnit (m.toMatrix n n) → m.eliminate byteRows = .err .singularMatrix)) ∧
    (∀ m : CodingMatrix E, m.gaussianElim = m.eliminate (asGf8Slice E)) ∧
    (∀ (m : CodingMatrix E) (n : Nat), m.rowCount = n → m.colCount = n →
      (IsUnit (m.toMatrix n n) → ∃ b, m.invert = .ok b ∧ b.rowCount = n ∧ b.colCount = n ∧
        m.toMatrix n n * b.toMatrix n n = 1 ∧ b.toMatrix n n * m.toMatrix n n = 1) ∧
      (¬IsUnit (m.toMatrix n n) → m.invert = .err .singularMatrix)) ∧
    ∀ m : CodingMatrix E, m.colCount ≤ m.rowCount →
      m.systematicFromVandermonde = (do
        let inverse ← (m.subMatrix 0 0 m.colCount m.colCount).invert
        m.multiply inverse) :=
  ⟨fun byteRows _ _ _ _ hr hc => ⟨eliminate_of_isUnit byteRows hr hc,
      eliminate_of_not_isUnit byteRows hr hc⟩,
    gaussianElim_eq, fun _ _ hr hc => ⟨invert_of_isUnit hr hc, invert_of_not_isUnit hr hc⟩,
    systematicFromVandermonde_eq⟩

/-- Two equations and a scaled column over the byte field. -/
theorem gauss_jordan_exact_galois8 :
    (IsUnit ((⟨2, 3, [0#8, 1#8, 5#8, 2#8, 7#8, 9#8], rfl⟩ : CodingMatrix Galois8).toMatrix 2 2) →
      ∃ t, (⟨2, 3, [0#8, 1#8, 5#8, 2#8, 7#8, 9#8], rfl⟩ : CodingMatrix Galois8).eliminate false =
          .ok t ∧ t.rowCount = 2 ∧ t.colCount = 2 + 1 ∧ t.toMatrix 2 2 = 1 ∧
        t.rightBlock 2 1 =
          ((⟨2, 3, [0#8, 1#8, 5#8, 2#8, 7#8, 9#8], rfl⟩ : CodingMatrix Galois8).toMatrix 2 2)⁻¹ *
            (⟨2, 3, [0#8, 1#8, 5#8, 2#8, 7#8, 9#8], rfl⟩ : CodingMatrix Galois8).rightBlock 2 1) ∧
    (vandermonde 4 2 : CodingMatrix Galois8).systematicFromVandermonde = (do
      let inverse ← ((vandermonde 4 2).subMatrix 0 0 2 2).invert
      (vandermonde 4 2).multiply inverse) := by
  have hexact := gauss_jordan_exact (E := Galois8)
  constructor
  · exact (hexact.1 false ⟨2, 3, [0#8, 1#8, 5#8, 2#8, 7#8, 9#8], rfl⟩ 2 1 (by decide) rfl rfl).1
  · have hsys := hexact.2.2.2 (vandermonde 4 2) (by simp)
    rw [colCount_vandermonde] at hsys
    exact hsys

end CodingMatrix

end ErasureCodec
