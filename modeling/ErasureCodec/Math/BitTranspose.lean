import ErasureCodec.Math.XorLinear

namespace ErasureCodec

section DeltaSwap

/-- Swap the bits under a mask with those `s` places above them. -/
def deltaSwap (s : Nat) (mask x : BitVec 64) : BitVec 64 :=
  let t := (x ^^^ (x >>> s)) &&& mask
  x ^^^ (t ^^^ (t <<< s))

/-- Where a bit comes from. -/
def deltaSource (s : Nat) (mask : BitVec 64) (p : Nat) : Nat :=
  if mask.getLsbD p then p + s else if s ≤ p ∧ mask.getLsbD (p - s) then p - s else p

/-- A mask none of whose bits is a partner of another one. -/
def SwapMask (s : Nat) (mask : BitVec 64) : Prop :=
  ∀ p, p < 64 → mask.getLsbD p = true → ¬(s ≤ p ∧ mask.getLsbD (p - s) = true)

instance (s : Nat) (mask : BitVec 64) : Decidable (SwapMask s mask) :=
  inferInstanceAs (Decidable (∀ p, p < 64 → _))

theorem getLsbD_deltaSwap {s : Nat} {mask : BitVec 64} (h : SwapMask s mask) (x : BitVec 64) {p : Nat}
    (hp : p < 64) : (deltaSwap s mask x).getLsbD p = x.getLsbD (deltaSource s mask p) := by
  have hdisjoint := h p hp
  simp only [deltaSwap, deltaSource, BitVec.getLsbD_xor, BitVec.getLsbD_and,
    BitVec.getLsbD_ushiftRight, BitVec.getLsbD_shiftLeft, hp, decide_true, Bool.true_and]
  by_cases hs : s ≤ p
  · have hback : s + (p - s) = p := by omega
    rw [hback]
    cases hm : mask.getLsbD p with
    | true =>
      have hnone : mask.getLsbD (p - s) = false :=
        Bool.eq_false_iff.mpr fun hset => hdisjoint hm ⟨hs, hset⟩
      simp [hnone, Nat.add_comm s p]
    | false =>
      cases hm' : mask.getLsbD (p - s) with
      | true =>
        have hcancel : (x.getLsbD p ^^ (x.getLsbD (p - s) ^^ x.getLsbD p)) = x.getLsbD (p - s) := by
          cases x.getLsbD p <;> cases x.getLsbD (p - s) <;> rfl
        simp [hs, show ¬p < s by omega, hcancel]
      | false => simp [hs]
  · cases hm : mask.getLsbD p with
    | true => simp [show p < s by omega, Nat.add_comm s p]
    | false => simp [hs, show p < s by omega]

end DeltaSwap

section Transpose

/-- `swap_bytes`. -/
def swapBytes (x : BitVec 64) : BitVec 64 :=
  (List.range 8).foldl (fun y i => y ||| (x.extractLsb' (8 * i) 8).setWidth 64 <<< (8 * (7 - i))) 0#64

theorem getLsbD_byte_shifted (x : BitVec 8) {i r j : Nat} (hi : i < 8) (hr : r < 8) (hj : j < 8) :
    (x.setWidth 64 <<< (8 * i)).getLsbD (8 * r + j) = (decide (r = i) && x.getLsbD j) := by
  rw [BitVec.getLsbD_shiftLeft, BitVec.getLsbD_setWidth]
  by_cases hri : r = i
  · subst hri
    simp [show 8 * r + j < 64 by omega, show j < 64 by omega]
  · by_cases hlt : 8 * r + j < 8 * i
    · simp [hlt, hri]
    · have hge := BitVec.getLsbD_of_ge x (8 * r + j - 8 * i) (by omega)
      simp [hri, hge]

theorem getLsbD_swapBytes (x : BitVec 64) {r j : Nat} (hr : r < 8) (hj : j < 8) :
    (swapBytes x).getLsbD (8 * r + j) = x.getLsbD (8 * (7 - r) + j) := by
  have hbyte (i : Nat) (hi : i < 8) : ((x.extractLsb' (8 * i) 8).setWidth 64 <<<
      (8 * (7 - i))).getLsbD (8 * r + j) = (decide (r = 7 - i) && x.getLsbD (8 * i + j)) := by
    rw [getLsbD_byte_shifted _ (by omega) hr hj, BitVec.getLsbD_extractLsb']
    simp [hj]
  have hloop (l : List Nat) (hl : ∀ i ∈ l, i < 8) (y : BitVec 64) :
      (l.foldl (fun y i => y ||| (x.extractLsb' (8 * i) 8).setWidth 64 <<< (8 * (7 - i)))
        y).getLsbD (8 * r + j) =
        (y.getLsbD (8 * r + j) || (decide (7 - r ∈ l) && x.getLsbD (8 * (7 - r) + j))) := by
    induction l generalizing y with
    | nil => simp
    | cons i l ih =>
      have hi := hl i List.mem_cons_self
      rw [List.foldl_cons, ih (fun k hk => hl k (List.mem_cons_of_mem i hk)), BitVec.getLsbD_or,
        hbyte i hi]
      by_cases hri : r = 7 - i
      · have hir : 7 - r = i := by omega
        simp only [← hri, decide_true, Bool.true_and, List.mem_cons, hir, true_or]
        cases y.getLsbD (8 * r + j) <;> cases x.getLsbD (8 * i + j) <;> simp
      · have hir : ¬7 - r = i := by omega
        simp [hri, hir]
  rw [swapBytes, hloop _ (fun i hi => List.mem_range.mp hi)]
  simp [show 7 - r < 8 by omega]

/-- The bits of an eight by eight matrix transposed in three swaps, and the rows reversed. -/
def transposeReversed (x : BitVec 64) : BitVec 64 :=
  let x := deltaSwap 7 0x00aa00aa00aa00aa#64 x
  let x := deltaSwap 14 0x0000cccc0000cccc#64 x
  let x := deltaSwap 28 0x00000000f0f0f0f0#64 x
  swapBytes x

theorem deltaSource_transpose : ∀ p, p < 64 →
    deltaSource 28 0x00000000f0f0f0f0#64 p < 64 ∧
    deltaSource 14 0x0000cccc0000cccc#64 (deltaSource 28 0x00000000f0f0f0f0#64 p) < 64 ∧
    deltaSource 7 0x00aa00aa00aa00aa#64 (deltaSource 14 0x0000cccc0000cccc#64
      (deltaSource 28 0x00000000f0f0f0f0#64 p)) = 8 * (p % 8) + p / 8 := by
  decide +kernel

/-- Bit `j` of row `r` of the result is bit `7 - r` of byte `j`. -/
theorem getLsbD_transposeReversed (x : BitVec 64) {r j : Nat} (hr : r < 8) (hj : j < 8) :
    (transposeReversed x).getLsbD (8 * r + j) = x.getLsbD (8 * j + (7 - r)) := by
  obtain ⟨h28, h14, hsource⟩ := deltaSource_transpose (8 * (7 - r) + j) (by omega)
  rw [transposeReversed, getLsbD_swapBytes _ hr hj,
    getLsbD_deltaSwap (by decide +kernel) _ (by omega), getLsbD_deltaSwap (by decide +kernel) _ h28,
    getLsbD_deltaSwap (by decide +kernel) _ h14, hsource,
    show (8 * (7 - r) + j) % 8 = j by omega, show (8 * (7 - r) + j) / 8 = 7 - r by omega]

end Transpose

end ErasureCodec
