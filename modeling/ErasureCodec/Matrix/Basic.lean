import ErasureCodec.Math.Slices
import ErasureCodec.Framework.Outcome
import ErasureCodec.Field.Basic
import Mathlib.Data.Matrix.Mul

namespace ErasureCodec

open CodecField

inductive MatrixError where
  | emptyInput
  | inconsistentRowSizes
  | incompatibleDimensions
  | nonSquare
  | singularMatrix
  deriving Repr, DecidableEq

/-- A coding matrix in the row-major storage of the source. -/
structure CodingMatrix (E : Type) where
  rowCount : Nat
  colCount : Nat
  data : List E
  size_eq : data.length = rowCount * colCount
  deriving DecidableEq

namespace CodingMatrix

section Storage

variable {E : Type} (m : CodingMatrix E)

def set (r c : Nat) (val : E) : CodingMatrix E :=
  { m with
    data := m.data.set (r * m.colCount + c) val
    size_eq := by rw [List.length_set]; exact m.size_eq }

def getRow (row : Nat) : List E :=
  slice m.data (row * m.colCount) (row * m.colCount + m.colCount)

/-- Write through a mutable row borrow. -/
def setRow (row : Nat) (xs : List E) : CodingMatrix E :=
  { m with
    data := overwrite (row * m.colCount) xs m.data
    size_eq := by rw [length_overwrite]; exact m.size_eq }

def isSquare : Bool := m.rowCount == m.colCount

@[simp] theorem rowCount_set (r c : Nat) (v : E) : (m.set r c v).rowCount = m.rowCount := rfl

@[simp] theorem colCount_set (r c : Nat) (v : E) : (m.set r c v).colCount = m.colCount := rfl

@[simp] theorem rowCount_setRow (r : Nat) (xs : List E) :
    (m.setRow r xs).rowCount = m.rowCount := rfl

@[simp] theorem colCount_setRow (r : Nat) (xs : List E) :
    (m.setRow r xs).colCount = m.colCount := rfl

theorem index_lt {r c : Nat} (hr : r < m.rowCount) (hc : c < m.colCount) :
    r * m.colCount + c < m.data.length := by
  rw [m.size_eq]
  have h := Nat.mul_le_mul_right m.colCount (Nat.succ_le_of_lt hr)
  rw [Nat.succ_mul] at h
  omega

theorem length_getRow {r : Nat} (hr : r < m.rowCount) : (m.getRow r).length = m.colCount := by
  unfold getRow
  rw [length_slice]
  · omega
  · rw [m.size_eq]
    have h := Nat.mul_le_mul_right m.colCount (Nat.succ_le_of_lt hr)
    rwa [Nat.succ_mul] at h

end Storage

variable {E : Type} [CodecField E]

def new (rows cols : Nat) : CodingMatrix E where
  rowCount := rows
  colCount := cols
  data := List.replicate (rows * cols) zero
  size_eq := List.length_replicate

def get (m : CodingMatrix E) (r c : Nat) : E := m.data.getD (r * m.colCount + c) zero

/-- The doubly nested loop that stores `f r c` at every position of the upper
left `rows × cols` window. -/
def fill (m : CodingMatrix E) (rows cols : Nat) (f : Nat → Nat → E) : CodingMatrix E :=
  (List.range rows).foldl
    (fun m r => (List.range cols).foldl (fun m c => m.set r c (f r c)) m) m

def subMatrix (m : CodingMatrix E) (rmin cmin rmax cmax : Nat) : CodingMatrix E :=
  (new (rmax - rmin) (cmax - cmin)).fill (rmax - rmin) (cmax - cmin)
    fun r c => m.get (rmin + r) (cmin + c)

def vandermonde (rows cols : Nat) : CodingMatrix E :=
  (new rows cols).fill rows cols fun r c => exp (nth r) c

/-- Exchange two rows entry by entry; a row outside the matrix is an index panic. -/
def swapRows {ε : Type} (m : CodingMatrix E) (r1 r2 : Nat) : Outcome ε (CodingMatrix E) :=
  if r1 = r2 then .ok m
  else if m.colCount ≠ 0 ∧ (m.rowCount ≤ r1 ∨ m.rowCount ≤ r2) then .panic
  else .ok ((List.range m.colCount).foldl
    (fun m i => (m.set r1 i (m.get r2 i)).set r2 i (m.get r1 i)) m)

def addScaledSlice (scale : E) (input output : List E) (byteRows : Bool) : List E :=
  if byteRows then mulSliceAdd scale input output
  else List.zipWith (fun o i => add o (mul scale i)) output input

def multiply [DecidableEq E] (m rhs : CodingMatrix E) : Outcome MatrixError (CodingMatrix E) :=
  if m.colCount ≠ rhs.rowCount then .err .incompatibleDimensions
  else
    let result : CodingMatrix E := new m.rowCount rhs.colCount
    if rhs.colCount = 0 then .ok result
    else
      let byteRows := asGf8Slice E
      .ok ((List.range m.rowCount).foldl (fun result row =>
        result.setRow row ((List.range m.colCount).foldl (fun output inner =>
          let coefficient := m.get row inner
          if coefficient ≠ zero then
            addScaledSlice coefficient (rhs.getRow inner) output byteRows
          else output) (result.getRow row))) result)

section Access

variable (m : CodingMatrix E)

@[simp] theorem rowCount_new (r c : Nat) : (new r c : CodingMatrix E).rowCount = r := rfl

@[simp] theorem colCount_new (r c : Nat) : (new r c : CodingMatrix E).colCount = c := rfl

theorem index_inj {w r c r' c' : Nat} (hc : c < w) (hc' : c' < w) :
    r * w + c = r' * w + c' ↔ r = r' ∧ c = c' := by
  constructor
  · intro h
    have hw : 0 < w := by omega
    have hr : r = r' := by
      have hd := congrArg (· / w) h
      simpa [Nat.mul_comm _ w, Nat.mul_add_div hw, Nat.div_eq_of_lt hc, Nat.div_eq_of_lt hc']
        using hd
    subst hr
    exact ⟨rfl, by omega⟩
  · rintro ⟨rfl, rfl⟩
    rfl

theorem get_new (rows cols r c : Nat) : (new rows cols : CodingMatrix E).get r c = zero := by
  unfold get new
  simp only [List.getD_eq_getElem?_getD, List.getElem?_replicate]
  split <;> rfl

theorem get_set {r c r' c' : Nat} (v : E) (hr : r < m.rowCount) (hc : c < m.colCount)
    (hc' : c' < m.colCount) :
    (m.set r c v).get r' c' = if r = r' ∧ c = c' then v else m.get r' c' := by
  unfold get set
  rw [getD_set]
  simp only [index_inj hc hc', m.index_lt hr hc, and_true]

theorem getD_getRow {r c : Nat} (hc : c < m.colCount) (z : E) (hr : r < m.rowCount) :
    (m.getRow r).getD c z = m.get r c := by
  unfold getRow get
  rw [getD_slice _ _ _ _ (by omega), List.getD_eq_getElem _ _ (m.index_lt hr hc),
    List.getD_eq_getElem _ _ (m.index_lt hr hc)]

theorem get_setRow_of_le {r r' c : Nat} (xs : List E) (hlen : xs.length ≤ m.colCount)
    (hr' : r' < m.rowCount) (hc : c < m.colCount) :
    (m.setRow r xs).get r' c =
      if r = r' ∧ c < xs.length then xs.getD c zero else m.get r' c := by
  change (overwrite (r * m.colCount) xs m.data).getD (r' * m.colCount + c) zero = _
  rw [getD_overwrite]
  by_cases h : r = r' ∧ c < xs.length
  · obtain ⟨rfl, hx⟩ := h
    rw [if_pos ⟨by omega, by omega, m.index_lt hr' hc⟩, if_pos ⟨rfl, hx⟩]
    congr 1
    omega
  · rw [if_neg h]
    apply if_neg
    rintro ⟨h1, h2, -⟩
    obtain ⟨k, hk⟩ := Nat.exists_eq_add_of_le h1
    obtain ⟨hr, hkc⟩ := (index_inj (by omega : k < m.colCount) hc).mp hk.symm
    exact h ⟨hr, by omega⟩

theorem get_setRow {r r' c : Nat} (xs : List E) (hlen : xs.length = m.colCount)
    (hr' : r' < m.rowCount) (hc : c < m.colCount) :
    (m.setRow r xs).get r' c = if r = r' then xs.getD c zero else m.get r' c := by
  rw [get_setRow_of_le m xs hlen.le hr' hc]
  apply if_congr _ rfl rfl
  omega

/-- Two matrices of one shape are equal when all their entries are. -/
theorem ext_get {a b : CodingMatrix E} (hr : a.rowCount = b.rowCount)
    (hc : a.colCount = b.colCount)
    (h : ∀ r c, r < a.rowCount → c < a.colCount → a.get r c = b.get r c) : a = b := by
  obtain ⟨ra, ca, da, ha⟩ := a
  obtain ⟨rb, cb, db, hb⟩ := b
  obtain rfl : ra = rb := hr
  obtain rfl : ca = cb := hc
  congr 1
  apply getD_ext zero (ha.trans hb.symm)
  intro x hx
  have hpos : 0 < ca := by
    rcases Nat.eq_zero_or_pos ca with h0 | h0
    · rw [ha, h0] at hx
      omega
    · exact h0
  have hq := h (x / ca) (x % ca) (Nat.div_lt_of_lt_mul (by rwa [Nat.mul_comm, ← ha]))
    (Nat.mod_lt x hpos)
  simpa only [get, Nat.div_add_mod'] using hq

/-- The matrix as a Mathlib matrix of stated dimensions. -/
def toMatrix (n k : Nat) : Matrix (Fin n) (Fin k) E := Matrix.of fun i j => m.get i j

@[simp] theorem toMatrix_apply (n k : Nat) (i : Fin n) (j : Fin k) :
    m.toMatrix n k i j = m.get i j := rfl

end Access

section Loops

/-- What `fill` leaves behind: the window holds `f`, the rest is untouched. -/
theorem fill_spec (m : CodingMatrix E) {rows cols : Nat} (f : Nat → Nat → E)
    (hr : rows ≤ m.rowCount) (hc : cols ≤ m.colCount) :
    (m.fill rows cols f).rowCount = m.rowCount ∧ (m.fill rows cols f).colCount = m.colCount ∧
      ∀ r c, r < m.rowCount → c < m.colCount →
        (m.fill rows cols f).get r c = if r < rows ∧ c < cols then f r c else m.get r c := by
  unfold fill
  let P : Nat → CodingMatrix E → Prop := fun i t =>
    t.rowCount = m.rowCount ∧ t.colCount = m.colCount ∧ ∀ r c, r < m.rowCount → c < m.colCount →
      t.get r c = if r < i ∧ c < cols then f r c else m.get r c
  refine foldl_range_inv P _ rows m ⟨rfl, rfl, fun r c _ _ => by simp⟩ ?_
  rintro i hi t ⟨htr, htc, ht⟩
  let Q : Nat → CodingMatrix E → Prop := fun j s =>
    s.rowCount = m.rowCount ∧ s.colCount = m.colCount ∧ ∀ r c, r < m.rowCount → c < m.colCount →
      s.get r c = if (r < i ∧ c < cols) ∨ (r = i ∧ c < j) then f r c else m.get r c
  have hQ : Q cols ((List.range cols).foldl (fun m c => m.set i c (f i c)) t) := by
    refine foldl_range_inv Q _ cols t ⟨htr, htc, fun r c h1 h2 => by simp [ht r c h1 h2]⟩ ?_
    rintro j hj s ⟨hsr, hsc, hs⟩
    refine ⟨hsr, hsc, fun r c h1 h2 => ?_⟩
    rw [get_set s _ (by omega) (by omega) (by omega), hs r c h1 h2]
    by_cases h : i = r ∧ j = c
    · obtain ⟨rfl, rfl⟩ := h
      simp
    · rw [if_neg h]
      apply if_congr _ rfl rfl
      omega
  obtain ⟨hsr, hsc, hs⟩ := hQ
  refine ⟨hsr, hsc, fun r c h1 h2 => ?_⟩
  rw [hs r c h1 h2]
  apply if_congr _ rfl rfl
  omega

/-- A loop of single stores that agree on a target `f`. -/
theorem foldl_set_spec (m : CodingMatrix E) (n : Nat) (row col : Nat → Nat) (val : Nat → E)
    (f : Nat → Nat → E) (hrow : ∀ i, i < n → row i < m.rowCount)
    (hcol : ∀ i, i < n → col i < m.colCount) (hval : ∀ i, i < n → val i = f (row i) (col i)) :
    ((List.range n).foldl (fun t i => t.set (row i) (col i) (val i)) m).rowCount = m.rowCount ∧
      ((List.range n).foldl (fun t i => t.set (row i) (col i) (val i)) m).colCount = m.colCount ∧
      ∀ r c, c < m.colCount →
        ((List.range n).foldl (fun t i => t.set (row i) (col i) (val i)) m).get r c =
          if ∃ i, i < n ∧ row i = r ∧ col i = c then f r c else m.get r c := by
  refine foldl_range_inv (fun k t => t.rowCount = m.rowCount ∧ t.colCount = m.colCount ∧
    ∀ r c, c < m.colCount → t.get r c =
      if ∃ i, i < k ∧ row i = r ∧ col i = c then f r c else m.get r c) _ n m
    ⟨rfl, rfl, fun r c _ => by simp⟩ ?_
  rintro k hk t ⟨htr, htc, ht⟩
  refine ⟨htr, htc, fun r c hc => ?_⟩
  rw [get_set _ _ (by rw [htr]; exact hrow k hk) (by rw [htc]; exact hcol k hk)
    (by rw [htc]; exact hc), ht r c hc]
  by_cases hpos : row k = r ∧ col k = c
  · rw [if_pos hpos, if_pos ⟨k, Nat.lt_succ_self k, hpos⟩, hval k hk, hpos.1, hpos.2]
  · rw [if_neg hpos]
    apply if_congr _ rfl rfl
    constructor
    · rintro ⟨i, hi, h⟩
      exact ⟨i, Nat.lt_succ_of_lt hi, h⟩
    · rintro ⟨i, hi, h⟩
      rcases Nat.lt_succ_iff_lt_or_eq.mp hi with hi | rfl
      · exact ⟨i, hi, h⟩
      · exact absurd h hpos

@[simp] theorem rowCount_subMatrix (m : CodingMatrix E) (rmin cmin rmax cmax : Nat) :
    (m.subMatrix rmin cmin rmax cmax).rowCount = rmax - rmin :=
  (fill_spec _ _ le_rfl le_rfl).1

@[simp] theorem colCount_subMatrix (m : CodingMatrix E) (rmin cmin rmax cmax : Nat) :
    (m.subMatrix rmin cmin rmax cmax).colCount = cmax - cmin :=
  (fill_spec _ _ le_rfl le_rfl).2.1

theorem get_subMatrix (m : CodingMatrix E) (rmin cmin rmax cmax : Nat) {r c : Nat}
    (hr : r < rmax - rmin) (hc : c < cmax - cmin) :
    (m.subMatrix rmin cmin rmax cmax).get r c = m.get (rmin + r) (cmin + c) :=
  ((fill_spec (new (rmax - rmin) (cmax - cmin)) _ le_rfl le_rfl).2.2 r c hr hc).trans
    (if_pos ⟨hr, hc⟩)

@[simp] theorem rowCount_vandermonde (rows cols : Nat) :
    (vandermonde rows cols : CodingMatrix E).rowCount = rows :=
  (fill_spec _ _ le_rfl le_rfl).1

@[simp] theorem colCount_vandermonde (rows cols : Nat) :
    (vandermonde rows cols : CodingMatrix E).colCount = cols :=
  (fill_spec _ _ le_rfl le_rfl).2.1

theorem get_vandermonde {rows cols r c : Nat} (hr : r < rows) (hc : c < cols) :
    (vandermonde rows cols : CodingMatrix E).get r c = exp (nth r) c :=
  ((fill_spec (new rows cols) _ le_rfl le_rfl).2.2 r c hr hc).trans (if_pos ⟨hr, hc⟩)

theorem swapRows_spec {ε : Type} (m : CodingMatrix E) {r1 r2 : Nat} (h1 : r1 < m.rowCount)
    (h2 : r2 < m.rowCount) :
    ∃ m' : CodingMatrix E, (m.swapRows r1 r2 : Outcome ε _) = .ok m' ∧
      m'.rowCount = m.rowCount ∧ m'.colCount = m.colCount ∧
      ∀ r c, c < m.colCount →
        m'.get r c = m.get (if r = r1 then r2 else if r = r2 then r1 else r) c := by
  unfold swapRows
  by_cases heq : r1 = r2
  · refine ⟨m, if_pos heq, rfl, rfl, fun r c _ => ?_⟩
    congr 1
    split_ifs <;> omega
  · rw [if_neg heq, if_neg (by omega)]
    refine ⟨_, rfl, ?_⟩
    let P : Nat → CodingMatrix E → Prop := fun i t =>
      t.rowCount = m.rowCount ∧ t.colCount = m.colCount ∧ ∀ r c, c < m.colCount →
        t.get r c =
          if c < i then m.get (if r = r1 then r2 else if r = r2 then r1 else r) c else m.get r c
    have hP := foldl_range_inv P
      (fun m i => (m.set r1 i (m.get r2 i)).set r2 i (m.get r1 i)) m.colCount m
      ⟨rfl, rfl, fun r c _ => by simp⟩ (by
        rintro i hi t ⟨htr, htc, ht⟩
        refine ⟨htr, htc, fun r c hc => ?_⟩
        rw [get_set _ _ (by rw [rowCount_set, htr]; exact h2) (by rw [colCount_set, htc]; exact hi)
            (by rw [colCount_set, htc]; exact hc),
          get_set _ _ (by rw [htr]; exact h1) (by rw [htc]; exact hi) (by rw [htc]; exact hc),
          ht r c hc, ht r1 i hi, ht r2 i hi, if_neg (lt_irrefl i), if_neg (lt_irrefl i)]
        by_cases hic : i = c
        · subst hic
          by_cases hr2 : r2 = r
          · subst hr2
            simp [Ne.symm heq]
          · by_cases hr1 : r1 = r
            · subst hr1
              simp [Ne.symm heq]
            · simp [hr1, hr2, Ne.symm hr1, Ne.symm hr2]
        · rw [if_neg (fun h => hic h.2), if_neg (fun h => hic h.2)]
          apply if_congr _ rfl rfl
          omega)
    obtain ⟨hr, hc, hget⟩ := hP
    refine ⟨hr, hc, fun r c hcc => ?_⟩
    rw [hget r c hcc, if_pos hcc]

variable [LawfulField E]

theorem length_addScaledSlice (scale : E) (input output : List E) (byteRows : Bool)
    (h : input.length = output.length) :
    (addScaledSlice scale input output byteRows).length = output.length := by
  unfold addScaledSlice
  cases byteRows <;> simp [mulSliceAdd_eq_zipWith, h]

/-- Both row kernels compute the same scaled addition. -/
theorem getD_addScaledSlice (scale : E) (input output : List E) (byteRows : Bool)
    (h : input.length = output.length) (c : Nat) (hc : c < output.length) :
    (addScaledSlice scale input output byteRows).getD c 0 =
      output.getD c 0 + scale * input.getD c 0 := by
  unfold addScaledSlice
  cases byteRows with
  | true =>
    rw [if_pos rfl, mulSliceAdd_eq_zipWith _ _ _ h]
    exact getD_zipWith _ _ _ c hc (by omega) 0 0 0
  | false =>
    rw [if_neg Bool.false_ne_true]
    exact getD_zipWith _ _ _ c hc (by omega) 0 0 0

variable [DecidableEq E]

private theorem multiply_row (m rhs : CodingMatrix E) (row : Nat) (byteRows : Bool)
    (hdim : m.colCount = rhs.rowCount) (output : List E) (hlen : output.length = rhs.colCount) :
    let out := (List.range m.colCount).foldl (fun output inner =>
      if m.get row inner ≠ zero then
        addScaledSlice (m.get row inner) (rhs.getRow inner) output byteRows
      else output) output
    out.length = rhs.colCount ∧ ∀ c, c < rhs.colCount →
      out.getD c 0 = output.getD c 0 + ∑ i ∈ Finset.range m.colCount, m.get row i * rhs.get i c := by
  let P : Nat → List E → Prop := fun k t => t.length = rhs.colCount ∧ ∀ c, c < rhs.colCount →
    t.getD c 0 = output.getD c 0 + ∑ i ∈ Finset.range k, m.get row i * rhs.get i c
  refine foldl_range_inv P _ m.colCount output ⟨hlen, fun c _ => by simp⟩ ?_
  rintro k hk t ⟨htl, ht⟩
  have hk' : k < rhs.rowCount := by omega
  have hrow := rhs.length_getRow hk'
  by_cases h0 : m.get row k = 0
  · rw [if_neg (by simpa using h0)]
    refine ⟨htl, fun c hc => ?_⟩
    rw [ht c hc, Finset.sum_range_succ, h0, zero_mul, add_zero]
  · rw [if_pos (by simpa using h0)]
    refine ⟨by rw [length_addScaledSlice _ _ _ _ (hrow.trans htl.symm), htl], fun c hc => ?_⟩
    rw [getD_addScaledSlice _ _ _ _ (hrow.trans htl.symm) c (by omega), ht c hc,
      rhs.getD_getRow hc _ hk', Finset.sum_range_succ, add_assoc]

theorem multiply_spec (m rhs : CodingMatrix E) (hdim : m.colCount = rhs.rowCount) :
    ∃ p, m.multiply rhs = .ok p ∧ p.rowCount = m.rowCount ∧ p.colCount = rhs.colCount ∧
      ∀ r c, r < m.rowCount → c < rhs.colCount →
        p.get r c = ∑ i ∈ Finset.range m.colCount, m.get r i * rhs.get i c := by
  unfold multiply
  rw [if_neg (by simpa using hdim)]
  by_cases hz : rhs.colCount = 0
  · exact ⟨_, if_pos hz, rfl, rfl, fun r c _ hc => by omega⟩
  simp only [if_neg hz]
  refine ⟨_, rfl, ?_⟩
  let P : Nat → CodingMatrix E → Prop := fun k t =>
    t.rowCount = m.rowCount ∧ t.colCount = rhs.colCount ∧ ∀ r c, r < m.rowCount → c < rhs.colCount →
      t.get r c = if r < k then ∑ i ∈ Finset.range m.colCount, m.get r i * rhs.get i c else 0
  have hP := foldl_range_inv P (fun result row =>
        result.setRow row ((List.range m.colCount).foldl (fun output inner =>
          if m.get row inner ≠ zero then
            addScaledSlice (m.get row inner) (rhs.getRow inner) output (asGf8Slice E)
          else output) (result.getRow row))) m.rowCount (new m.rowCount rhs.colCount)
    ⟨rfl, rfl, fun r c _ _ => by simp [get_new]⟩ (by
      rintro k hk t ⟨htr, htc, ht⟩
      obtain ⟨hl, hv⟩ := multiply_row m rhs k (asGf8Slice E) hdim (t.getRow k)
        ((t.length_getRow (by omega)).trans htc)
      refine ⟨htr, htc, fun r c hr hc => ?_⟩
      rw [get_setRow _ _ (by rw [hl, htc]) (by omega) (by omega)]
      by_cases hkr : k = r
      · subst hkr
        rw [if_pos rfl, if_pos (Nat.lt_succ_self k)]
        refine (hv c hc).trans ?_
        rw [t.getD_getRow (by omega) _ (by omega), ht k c hr hc, if_neg (lt_irrefl k), zero_add]
      · rw [if_neg hkr, ht r c hr hc]
        apply if_congr _ rfl rfl
        omega)
  obtain ⟨hr, hc, hget⟩ := hP
  refine ⟨hr, hc, fun r c h1 h2 => ?_⟩
  rw [hget r c h1 h2, if_pos h1]

end Loops

end CodingMatrix

end ErasureCodec
