import Mathlib.Data.List.GetD
import Mathlib.Tactic

namespace ErasureCodec

section BigEndian

/-- The `width` bytes of an unsigned integer, most significant first. -/
def toBeBytes : Nat → Nat → List (BitVec 8)
  | 0, _ => []
  | width + 1, n => toBeBytes width (n / 256) ++ [BitVec.ofNat 8 n]

@[simp] theorem length_toBeBytes (width n : Nat) : (toBeBytes width n).length = width := by
  induction width generalizing n with
  | zero => rfl
  | succ width ih => simp [toBeBytes, ih]

/-- Integers that fit the width have distinct encodings. -/
theorem toBeBytes_inj {width m n : Nat} (hm : m < 256 ^ width) (hn : n < 256 ^ width)
    (h : toBeBytes width m = toBeBytes width n) : m = n := by
  induction width generalizing m n with
  | zero => omega
  | succ width ih =>
    obtain ⟨hhigh, hlow⟩ := List.append_inj h (by simp)
    have hdiv : m / 256 = n / 256 := by
      apply ih _ _ hhigh
      · rw [Nat.div_lt_iff_lt_mul (by norm_num), ← pow_succ]
        exact hm
      · rw [Nat.div_lt_iff_lt_mul (by norm_num), ← pow_succ]
        exact hn
    have hmod : m % 256 = n % 256 := by
      have hbyte := congrArg BitVec.toNat (List.cons.inj hlow).1
      simpa only [BitVec.toNat_ofNat] using hbyte
    omega

/-- The UTF-8 bytes of a text. -/
def utf8Bytes (s : String) : List (BitVec 8) := s.toByteArray.data.toList.map UInt8.toBitVec

theorem utf8Bytes_inj {s t : String} (h : utf8Bytes s = utf8Bytes t) : s = t := by
  have hbytes : s.toByteArray.data.toList = t.toByteArray.data.toList :=
    List.map_injective_iff.mpr (fun a b hab => UInt8.toBitVec_inj.mp hab) h
  apply String.toByteArray_inj.mp
  exact ByteArray.ext (Array.toList_inj.mp hbytes)

end BigEndian

section Framing

variable {α : Type*}

/-- Equally long leading parts of a list and of its extension agree, and so does
what follows them. -/
theorem prefix_peel {a b s t : List α} (hl : a.length = b.length) (h : a ++ s <+: b ++ t) :
    a = b ∧ s <+: t := by
  obtain ⟨rest, hrest⟩ := h
  rw [List.append_assoc] at hrest
  obtain ⟨hab, hst⟩ := List.append_inj hrest hl
  exact ⟨hab, rest, hst⟩

/-- Blocks of one width are recovered from their concatenation. -/
theorem flatten_inj_of_length {width : Nat} {a b : List (List α)} (hl : a.length = b.length)
    (ha : ∀ x ∈ a, x.length = width) (hb : ∀ x ∈ b, x.length = width)
    (h : a.flatten = b.flatten) : a = b := by
  induction a generalizing b with
  | nil => exact (List.length_eq_zero_iff.mp hl.symm).symm
  | cons x a ih =>
    cases b with
    | nil => cases hl
    | cons y b =>
      have hx := ha x List.mem_cons_self
      have hy := hb y List.mem_cons_self
      obtain ⟨hxy, hrest⟩ := List.append_inj h (hx.trans hy.symm)
      rw [hxy, ih (Nat.succ.inj hl) (fun z hz => ha z (List.mem_cons_of_mem x hz))
        (fun z hz => hb z (List.mem_cons_of_mem y hz)) hrest]

theorem length_flatten_of_forall {width : Nat} {a : List (List α)}
    (ha : ∀ x ∈ a, x.length = width) : a.flatten.length = a.length * width := by
  induction a with
  | nil => simp
  | cons x a ih =>
    have hx := ha x List.mem_cons_self
    rw [List.flatten_cons, List.length_append, hx,
      ih (fun z hz => ha z (List.mem_cons_of_mem x hz)), List.length_cons, Nat.succ_mul, Nat.add_comm]

/-- Position `j` of blocks of one width. -/
theorem getD_flatten {width : Nat} {a : List (List α)} (ha : ∀ x ∈ a, x.length = width) {j : Nat}
    (hj : j < a.length * width) (z : α) :
    a.flatten.getD j z = (a.getD (j / width) []).getD (j % width) z := by
  induction a generalizing j with
  | nil => simp at hj
  | cons x a ih =>
    have hx := ha x List.mem_cons_self
    have hpos : 0 < width := by
      rcases Nat.eq_zero_or_pos width with h0 | h0
      · rw [h0, Nat.mul_zero] at hj
        omega
      · exact h0
    rw [List.flatten_cons]
    by_cases hlt : j < width
    · rw [List.getD_append _ _ _ _ (by omega), Nat.div_eq_of_lt hlt, Nat.mod_eq_of_lt hlt]
      rfl
    · rw [List.length_cons, Nat.succ_mul] at hj
      have hdiv : j / width = (j - width) / width + 1 := Nat.div_eq_sub_div hpos (by omega)
      rw [List.getD_append_right _ _ _ _ (by omega), hx,
        ih (fun z hz => ha z (List.mem_cons_of_mem x hz)) (by omega), hdiv, List.getD_cons_succ,
        Nat.mod_eq_sub_mod (show width ≤ j by omega)]

end Framing

end ErasureCodec
