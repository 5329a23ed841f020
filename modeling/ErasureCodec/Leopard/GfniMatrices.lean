import ErasureCodec.Math.BitTranspose
import ErasureCodec.Leopard.NibbleTables

namespace ErasureCodec

namespace Leopard

open Reg

section Definitions

/-- The byte-plane matrices of a product: low to low, high to low, low to high, high to high. -/
structure Matrices where
  a : BitVec 64
  b : BitVec 64
  c : BitVec 64
  d : BitVec 64

/-- One round of the loop of `matrices`. -/
def columnRound (f : BitVec 16 → BitVec 16) (columns : List (BitVec 64)) (inputBit : Nat) :
    List (BitVec 64) :=
  let value := f (1#16 <<< inputBit)
  let byteShift := inputBit % 8 * 8
  let group := inputBit / 8
  let columns := columns.modify group (· ||| (value &&& 0xff#16).setWidth 64 <<< byteShift)
  columns.modify (group + 2) (· ||| (value >>> 8).setWidth 64 <<< byteShift)

def matrices (logM : BitVec 16) (t : TablesRef) : Matrices :=
  let columns := (List.range 16).foldl (columnRound fun a => mulLog16 t a logM)
    (List.replicate 4 0#64)
  let matrix (i : Nat) := transposeReversed (columns.getD i 0#64)
  ⟨matrix 0, matrix 1, matrix 2, matrix 3⟩

def matrixCacheSlots : Nat := 64

/-- Zero keys denote empty slots. -/
structure MatrixCache where
  keys : List Nat
  values : List Matrices

def MatrixCache.empty : MatrixCache where
  keys := List.replicate matrixCacheSlots 0
  values := List.replicate matrixCacheSlots ⟨0#64, 0#64, 0#64, 0#64⟩

/-- The slot of a logarithm. -/
def matrixSlot (logM : BitVec 16) : Nat :=
  (logM.toNat * 0x9e37 % usizeLimit) >>> 10 &&& (matrixCacheSlots - 1)

/-- Only the canonical tables populate the cache. -/
def cachedMatrices (logM : BitVec 16) (t : TablesRef) (cache : MatrixCache) :
    Matrices × MatrixCache :=
  match t with
  | .other logLut expLut => (matrices logM (.other logLut expLut), cache)
  | .canonical =>
    let index := matrixSlot logM
    let key := logM.toNat + 1
    if cache.keys.getD index 0 = key then
      (cache.values.getD index ⟨0#64, 0#64, 0#64, 0#64⟩, cache)
    else
      let value := matrices logM .canonical
      (value, ⟨cache.keys.set index key, cache.values.set index value⟩)

/-- The cache after some look-ups, the first one first. -/
def lookUps (requests : List (BitVec 16 × TablesRef)) (cache : MatrixCache) : MatrixCache :=
  requests.foldl (fun cache request => (cachedMatrices request.1 request.2 cache).2) cache

end Definitions

section Columns

variable {f : BitVec 16 → BitVec 16}

/-- A byte of a value in its place of a column. -/
theorem getLsbD_column_byte {y : BitVec 16} (hy : ∀ k, 8 ≤ k → y.getLsbD k = false) {i j k : Nat}
    (hi : i < 8) (hj : j < 8) (hk : k < 8) :
    (y.setWidth 64 <<< (i * 8)).getLsbD (8 * j + k) = (decide (j = i) && y.getLsbD k) := by
  rw [BitVec.getLsbD_shiftLeft, BitVec.getLsbD_setWidth]
  by_cases hji : j = i
  · subst hji
    simp [show 8 * j + k < 64 by omega, show ¬8 * j + k < j * 8 by omega,
      show 8 * j + k - j * 8 = k by omega, show k < 64 by omega]
  · by_cases hlt : 8 * j + k < i * 8
    · simp [hlt, hji]
    · simp [hji, hy (8 * j + k - i * 8) (by omega)]

theorem getLsbD_low_half (v : BitVec 16) (k : Nat) :
    (v &&& 0xff#16).getLsbD k = (decide (k < 8) && v.getLsbD k) := by
  have hmask : ∀ k, k < 16 → (0xff#16).getLsbD k = decide (k < 8) := by decide
  rw [BitVec.getLsbD_and]
  by_cases hk : k < 16
  · rw [hmask k hk, Bool.and_comm]
  · simp [BitVec.getLsbD_of_ge v k (by omega)]

theorem getD_modify {α : Type} (l : List α) (i j : Nat) (g : α → α) (z : α) (hi : i < l.length) :
    (l.modify i g).getD j z = if j = i then g (l.getD j z) else l.getD j z := by
  simp only [List.getD_eq_getElem?_getD, List.getElem?_modify]
  by_cases hij : i = j
  · subst hij
    simp [List.getElem?_eq_getElem hi]
  · simp [hij, Ne.symm hij]

/-- A round adds the product of its bit to the columns of its group. -/
theorem columnRound_spec {columns : List (BitVec 64)} (hlen : columns.length = 4) {n : Nat}
    (hn : n < 16) : (columnRound f columns n).length = 4 ∧ ∀ g h j k, g < 2 → h < 2 → j < 8 → k < 8 →
      ((columnRound f columns n).getD (g + 2 * h) 0#64).getLsbD (8 * j + k) =
        ((columns.getD (g + 2 * h) 0#64).getLsbD (8 * j + k) ||
          (decide (8 * g + j = n) && (f (1#16 <<< n)).getLsbD (8 * h + k))) := by
  refine ⟨by simp [columnRound, hlen], fun g h j k hg hh hj hk => ?_⟩
  simp only [columnRound]
  rw [getD_modify _ _ _ _ _ (by rw [List.length_modify]; omega), getD_modify _ _ _ _ _ (by omega)]
  have hlow := getLsbD_column_byte (y := f (1#16 <<< n) &&& 0xff#16)
    (fun k hk => by rw [getLsbD_low_half]; simp [show ¬k < 8 by omega])
    (Nat.mod_lt n (show 0 < 8 by decide)) hj hk
  have hhigh := getLsbD_column_byte (y := f (1#16 <<< n) >>> 8)
    (fun k hk => by rw [BitVec.getLsbD_ushiftRight]; exact BitVec.getLsbD_of_ge _ _ (by omega))
    (Nat.mod_lt n (show 0 < 8 by decide)) hj hk
  rw [getLsbD_low_half, decide_eq_true hk, Bool.true_and] at hlow
  rw [BitVec.getLsbD_ushiftRight] at hhigh
  by_cases hgroup : g = n / 8
  · have hbit : (8 * g + j = n) ↔ (j = n % 8) := by omega
    rcases Nat.lt_succ_iff_lt_or_eq.mp hh with hh0 | rfl
    · obtain rfl : h = 0 := by omega
      rw [if_neg (by omega), if_pos (by omega), BitVec.getLsbD_or, hlow]
      simp [hbit]
    · rw [if_pos (by omega), if_neg (by omega), BitVec.getLsbD_or, hhigh]
      simp [hbit]
  · rw [if_neg (by omega), if_neg (by omega)]
    simp [show ¬8 * g + j = n by omega]

/-- Byte `j` of a column holds half the product of bit `j` of its group. -/
theorem getLsbD_columns {g h j k : Nat} (hg : g < 2) (hh : h < 2) (hj : j < 8) (hk : k < 8) :
    (((List.range 16).foldl (columnRound f) (List.replicate 4 0#64)).getD (g + 2 * h)
      0#64).getLsbD (8 * j + k) = (f (1#16 <<< (8 * g + j))).getLsbD (8 * h + k) := by
  have hloop := foldl_range_inv (fun n (columns : List (BitVec 64)) => columns.length = 4 ∧
      ∀ g h j k, g < 2 → h < 2 → j < 8 → k < 8 →
        (columns.getD (g + 2 * h) 0#64).getLsbD (8 * j + k) =
          (decide (8 * g + j < n) && (f (1#16 <<< (8 * g + j))).getLsbD (8 * h + k)))
    (columnRound f) 16 (List.replicate 4 0#64)
    ⟨List.length_replicate, fun g h j k hg hh hj hk => by
      rw [List.getD_replicate (h := by omega)]
      simp⟩
    (by
      intro n hn columns hcolumns
      obtain ⟨hlen, hread⟩ := hcolumns
      obtain ⟨hlen', hround⟩ := columnRound_spec (f := f) hlen hn
      refine ⟨hlen', fun g h j k hg hh hj hk => ?_⟩
      rw [hround g h j k hg hh hj hk, hread g h j k hg hh hj hk]
      by_cases hbit : 8 * g + j = n
      · simp [hbit]
      · have hlt : 8 * g + j < n + 1 ↔ 8 * g + j < n := by omega
        simp [hbit, hlt])
  rw [hloop.2 g h j k hg hh hj hk]
  simp [show 8 * g + j < 16 by omega]

end Columns

section Products

variable {f : BitVec 16 → BitVec 16}

/-- A byte in its half of a word. -/
def placed (g : Nat) (x : BitVec 8) : BitVec 16 := x.setWidth 16 <<< (8 * g)

theorem xorLinear_placed (g : Nat) : XorLinear (placed g) := by
  intro a b
  apply BitVec.eq_of_getLsbD_eq
  intro k hk
  simp only [placed, BitVec.getLsbD_shiftLeft, BitVec.getLsbD_xor, BitVec.getLsbD_setWidth]
  cases decide (k < 16) <;> cases decide (k < 8 * g) <;> cases decide (k - 8 * g < 16) <;> simp

theorem placed_twoPow : ∀ g, g < 2 → ∀ j, j < 8 →
    placed g (BitVec.twoPow 8 j) = 1#16 <<< (8 * g + j) := by
  decide +kernel

theorem append_eq_placed (h l : BitVec 8) : (h ++ l : BitVec 16) = placed 0 l ^^^ placed 1 h := by
  apply BitVec.eq_of_getLsbD_eq
  intro k hk
  rw [BitVec.getLsbD_append, placed, placed, BitVec.getLsbD_xor, BitVec.getLsbD_shiftLeft,
    BitVec.getLsbD_shiftLeft, BitVec.getLsbD_setWidth, BitVec.getLsbD_setWidth]
  split_ifs with h8
  · simp [h8, hk]
  · have hge := BitVec.getLsbD_of_ge l k (by omega)
    simp [h8, hk, hge, show k - 8 < 16 by omega]

/-- The affine instruction with a transposed column matrix maps one half to the other. -/
theorem affineByte_columns (hf : XorLinear f) {g h : Nat} (hg : g < 2) (hh : h < 2) (x : BitVec 8) :
    affineByte (byteOf (transposeReversed (((List.range 16).foldl (columnRound f)
      (List.replicate 4 0#64)).getD (g + 2 * h) 0#64))) x = byteOf (f (placed g x)) h := by
  have hlinear : XorLinear fun x => byteOf (f (placed g x)) h :=
    (xorLinear_byteOf h).comp (hf.comp (xorLinear_placed g))
  apply affineByte_eq hlinear
  intro j k hj hk
  rw [getLsbD_byteOf _ _ hj, getLsbD_transposeReversed _ (by omega) hj,
    show 7 - (7 - k) = k by omega, getLsbD_columns hg hh hj hk, placed_twoPow g hg j hj,
    getLsbD_byteOf _ _ hk]

variable {t : TablesRef}

/-- The planar product by the matrices of a logarithm multiplies the words of a register. -/
theorem byte_planarProduct16 (ht : t.Built) (logM : BitVec 16) (v : Reg) (i : Nat) :
    (planarProduct (matrices logM t).a (matrices logM t).b (matrices logM t).c (matrices logM t).d
      v).byte i = (mapWords (mul16 logM) v).byte i := by
  have hf : (fun a => mulLog16 t a logM) = mul16 logM := funext fun a => mulLog16_eq ht a logM
  have hlinear := xorLinear_mul16 logM
  have ha := affineByte_columns hlinear (show 0 < 2 by decide) (show 0 < 2 by decide)
  have hb := affineByte_columns hlinear (show 1 < 2 by decide) (show 0 < 2 by decide)
  have hc := affineByte_columns hlinear (show 0 < 2 by decide) (show 1 < 2 by decide)
  have hd := affineByte_columns hlinear (show 1 < 2 by decide) (show 1 < 2 by decide)
  rw [byte_planarProduct, byte_mapWords, word, append_eq_placed, hlinear, xorLinear_lowByte,
    xorLinear_highByte]
  simp only [matrices, hf]
  rcases Nat.mod_two_eq_zero_or_one i with hi | hi
  · rw [if_pos hi, if_pos hi, ha, hb, show 2 * (i / 2) = i by omega]
    rfl
  · rw [if_neg (by omega), if_neg (by omega), hc, hd, show 2 * (i / 2) = i - 1 by omega,
      show i - 1 + 1 = i by omega]
    rfl

theorem word_planarProduct16 (ht : t.Built) (logM : BitVec 16) (v : Reg) (j : Nat) :
    (planarProduct (matrices logM t).a (matrices logM t).b (matrices logM t).c (matrices logM t).d
      v).word j = mul16 logM (v.word j) :=
  (word_congr fun i _ => byte_planarProduct16 ht logM v i).trans (word_mapWords _)

end Products

section Cache

/-- What a slot holds is right for its key. -/
structure MatrixCache.Sound (cache : MatrixCache) : Prop where
  keys_length : cache.keys.length = matrixCacheSlots
  values_length : cache.values.length = matrixCacheSlots
  value_eq : ∀ i logM, cache.keys.getD i 0 = logM.toNat + 1 →
    cache.values.getD i ⟨0#64, 0#64, 0#64, 0#64⟩ = matrices logM .canonical

theorem MatrixCache.sound_empty : MatrixCache.empty.Sound where
  keys_length := List.length_replicate
  values_length := List.length_replicate
  value_eq i logM h := by
    have hzero : MatrixCache.empty.keys.getD i 0 = 0 := by
      by_cases hi : i < matrixCacheSlots
      · exact List.getD_replicate 0 hi
      · exact List.getD_eq_default _ _ (by rw [MatrixCache.empty, List.length_replicate]; omega)
    omega

theorem matrixSlot_lt (logM : BitVec 16) : matrixSlot logM < matrixCacheSlots :=
  lt_of_le_of_lt Nat.and_le_right (by decide)

/-- A look-up answers with the matrices and keeps the cache sound. -/
theorem cachedMatrices_spec {cache : MatrixCache} (h : cache.Sound) (logM : BitVec 16)
    (t : TablesRef) : (cachedMatrices logM t cache).1 = matrices logM t ∧
      (cachedMatrices logM t cache).2.Sound := by
  cases t with
  | other logLut expLut => exact ⟨rfl, h⟩
  | canonical =>
    have hslot := matrixSlot_lt logM
    simp only [cachedMatrices]
    split_ifs with hkey
    · exact ⟨h.value_eq _ _ hkey, h⟩
    · refine ⟨rfl, ⟨by rw [List.length_set]; exact h.keys_length,
        by rw [List.length_set]; exact h.values_length, fun i logM' hkey' => ?_⟩⟩
      rw [getD_set] at hkey' ⊢
      by_cases hi : matrixSlot logM = i
      · rw [if_pos ⟨hi, by rw [h.keys_length]; exact hslot⟩] at hkey'
        rw [if_pos ⟨hi, by rw [h.values_length]; exact hslot⟩]
        have heq : logM = logM' := BitVec.eq_of_toNat_eq (by omega)
        rw [heq]
      · rw [if_neg (fun hin => hi hin.1)] at hkey'
        rw [if_neg (fun hin => hi hin.1)]
        exact h.value_eq i logM' hkey'

/-- A cache stays sound over any look-ups. -/
theorem sound_lookUps (requests : List (BitVec 16 × TablesRef)) {cache : MatrixCache}
    (h : cache.Sound) : (lookUps requests cache).Sound := by
  induction requests generalizing cache with
  | nil => exact h
  | cons request requests ih => exact ih (cachedMatrices_spec h request.1 request.2).2

end Cache

end Leopard

end ErasureCodec
