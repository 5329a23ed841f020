import ErasureCodec.Framework.Registers
import ErasureCodec.Field.Galois8

namespace ErasureCodec

namespace Galois8

open Reg

/-- The byte backends that a machine can have active. -/
inductive BackendId
  | scalarRust
  | rustNeon
  | rustSsse3
  | rustAvx2
  | rustAvx512
  | rustGfniAvx2
  | rustGfniAvx512
  | rustVsx
  deriving DecidableEq

/-- One entry of `gfni_multiply_matrices`: the rows of the product by a coefficient. -/
def gfniMultiplyMatrix (coefficient : BitVec 8) : BitVec 64 :=
  (List.range 8).foldl (fun matrix inputBit =>
    let product := mul coefficient (1#8 <<< inputBit)
    (List.range 8).foldl (fun matrix outputBit =>
      matrix ||| (((product >>> outputBit) &&& 1#8).setWidth 64 <<<
        ((7 - outputBit) * 8 + inputBit))) matrix) 0#64

theorem getLsbD_shifted_bit (x : BitVec 8) {k s p : Nat} (hp : p < 64) :
    (((x >>> k) &&& 1#8).setWidth 64 <<< s).getLsbD p = (decide (p = s) && x.getLsbD k) := by
  have hone (m : Nat) : (1#8).getLsbD m = decide (m = 0) := by
    rw [BitVec.getLsbD_one]
    simp
  rw [BitVec.getLsbD_shiftLeft, BitVec.getLsbD_setWidth, BitVec.getLsbD_and, hone,
    BitVec.getLsbD_ushiftRight]
  by_cases hlt : p < s
  · have hne : ¬p = s := by omega
    simp [hlt, hne]
  · by_cases heq : p = s
    · subst heq
      simp [hp]
    · have hpos : ¬p - s = 0 := by omega
      simp [heq, hpos]

/-- The loop over the output bits of one product. -/
theorem getLsbD_output_bits (product : BitVec 8) (matrix : BitVec 64) {inputBit : Nat}
    (hi : inputBit < 8) {r j : Nat} (hr : r < 8) (hj : j < 8) :
    ((List.range 8).foldl (fun matrix outputBit =>
      matrix ||| (((product >>> outputBit) &&& 1#8).setWidth 64 <<<
        ((7 - outputBit) * 8 + inputBit))) matrix).getLsbD (8 * r + j) =
      (matrix.getLsbD (8 * r + j) || (decide (j = inputBit) && product.getLsbD (7 - r))) := by
  have hloop := foldl_range_inv
    (fun n m => m.getLsbD (8 * r + j) = (matrix.getLsbD (8 * r + j) ||
      (decide (7 - r < n) && decide (j = inputBit) && product.getLsbD (7 - r))))
    (fun matrix outputBit => matrix ||| (((product >>> outputBit) &&& 1#8).setWidth 64 <<<
      ((7 - outputBit) * 8 + inputBit))) 8 matrix (by simp) (by
      intro k hk m hm
      rw [BitVec.getLsbD_or, getLsbD_shifted_bit _ (by omega), hm, Bool.or_assoc]
      congr 1
      by_cases hkr : 7 - r = k
      · subst hkr
        have hpos : (8 * r + j = (7 - (7 - r)) * 8 + inputBit) ↔ j = inputBit := by omega
        simp [hpos]
      · have hpos : ¬8 * r + j = (7 - k) * 8 + inputBit := by omega
        have hlt : 7 - r < k + 1 ↔ 7 - r < k := by omega
        simp [hpos, hlt])
  have hall : 7 - r < 8 := by omega
  rw [hloop]
  simp [hall]

/-- Row `r` holds the bits `7 - r` of the products of the single bits. -/
theorem getLsbD_gfniMultiplyMatrix (c : BitVec 8) {r j : Nat} (hr : r < 8) (hj : j < 8) :
    (gfniMultiplyMatrix c).getLsbD (8 * r + j) =
      (mul c (BitVec.twoPow 8 j)).getLsbD (7 - r) := by
  have hloop := foldl_range_inv
    (fun n m => m.getLsbD (8 * r + j) =
      (decide (j < n) && (mul c (BitVec.twoPow 8 j)).getLsbD (7 - r)))
    (fun matrix inputBit => (List.range 8).foldl (fun matrix outputBit =>
      matrix ||| (((mul c (1#8 <<< inputBit) >>> outputBit) &&& 1#8).setWidth 64 <<<
        ((7 - outputBit) * 8 + inputBit))) matrix) 8 0#64 (by simp) (by
      intro k hk m hm
      simp only [getLsbD_output_bits _ _ hk hr hj, hm]
      by_cases hjk : j = k
      · subst hjk
        simp [BitVec.twoPow]
      · have hlt : j < k + 1 ↔ j < k := by omega
        simp [hjk, hlt])
  rw [gfniMultiplyMatrix, hloop]
  simp [hj]

theorem xorLinear_mul (c : BitVec 8) : XorLinear (mul c) := mul_xor c

/-- The affine instruction with the matrix of a coefficient multiplies by it. -/
theorem affineByte_gfniMultiplyMatrix (c x : BitVec 8) :
    affineByte (byteOf (gfniMultiplyMatrix c)) x = mul c x := by
  apply affineByte_eq (xorLinear_mul c)
  intro j k hj hk
  rw [getLsbD_byteOf _ _ hj, getLsbD_gfniMultiplyMatrix c (by omega) hj,
    show 7 - (7 - k) = k by omega]

end Galois8

end ErasureCodec
