import ErasureCodec.Math.Slices
import ErasureCodec.Math.XorLinear

namespace ErasureCodec

/-- The vector of the bits `f 0`, `f 1`, up to its width. -/
def ofBits (w : Nat) (f : Nat → Bool) : BitVec w :=
  (BitVec.ofBoolListLE ((List.range w).map f)).setWidth w

theorem getLsbD_ofBits {w i : Nat} (f : Nat → Bool) (hi : i < w) :
    (ofBits w f).getLsbD i = f i := by
  rw [ofBits, BitVec.getLsbD_setWidth, BitVec.getLsbD_ofBoolListLE, getD_map_range _ _ _ hi]
  simp [hi]

/-- A vector register by its bytes, lowest address first. An instruction of `w` bytes reads
and writes the bytes below `w`; lanes are groups of 16 bytes. -/
structure Reg where
  byte : Nat → BitVec 8

namespace Reg

section Instructions

/-- `_mm_loadu_si128` and its wider forms, and `vld1q_u8`. -/
def loadu (src : List (BitVec 8)) (off : Nat) : Reg := ⟨fun i => src.getD (off + i) 0#8⟩

/-- `_mm_storeu_si128` and its wider forms, `vst1q_u8`, and `_mm_storel_epi64` for a width of 8. -/
def storeu (width : Nat) (dst : List (BitVec 8)) (off : Nat) (v : Reg) : List (BitVec 8) :=
  dst.mapIdx fun p x => if off ≤ p ∧ p < off + width then v.byte (p - off) else x

/-- `_mm256_setzero_si256`. -/
def setzero : Reg := ⟨fun _ => 0#8⟩

/-- `_mm_set1_epi8`, `vdupq_n_u8`. -/
def set1Epi8 (b : BitVec 8) : Reg := ⟨fun _ => b⟩

/-- Byte `i` of a little-endian word. -/
def byteOf {w : Nat} (x : BitVec w) (i : Nat) : BitVec 8 := x.extractLsb' (8 * i) 8

/-- `_mm256_set1_epi16`. -/
def set1Epi16 (x : BitVec 16) : Reg := ⟨fun i => byteOf x (i % 2)⟩

/-- `_mm256_set1_epi64x`. -/
def set1Epi64 (x : BitVec 64) : Reg := ⟨fun i => byteOf x (i % 8)⟩

/-- `_mm256_set_epi64x(d, a, d, a)` and its wider form: `a` in the even quadwords. -/
def setPairEpi64 (d a : BitVec 64) : Reg :=
  ⟨fun i => byteOf (if i / 8 % 2 = 0 then a else d) (i % 8)⟩

/-- `_mm256_broadcastsi128_si256` and `_mm512_broadcast_i32x4`. -/
def broadcastI128 (a : Reg) : Reg := ⟨fun i => a.byte (i % 16)⟩

/-- `_mm_and_si128`, `vandq_u8`. -/
def andSi (a b : Reg) : Reg := ⟨fun i => a.byte i &&& b.byte i⟩

/-- `_mm_xor_si128`, `veorq_u8`. -/
def xorSi (a b : Reg) : Reg := ⟨fun i => a.byte i ^^^ b.byte i⟩

/-- `_mm_shuffle_epi8`: bytes of the lane by index, zero where the index has its top bit. -/
def shuffleEpi8 (a mask : Reg) : Reg :=
  ⟨fun i => if (mask.byte i).msb then 0#8
    else a.byte (i / 16 * 16 + (mask.byte i).toNat % 16)⟩

/-- `vqtbl1q_u8`: bytes of a table of 16 by index, zero beyond it. -/
def vqtbl1qU8 (t idx : Reg) : Reg :=
  ⟨fun i => if (idx.byte i).toNat < 16 then t.byte (idx.byte i).toNat else 0#8⟩

/-- `vshrq_n_u8`. -/
def vshrqNU8 (n : Nat) (a : Reg) : Reg := ⟨fun i => a.byte i >>> n⟩

/-- `_mm256_shuffle_epi32`: doublewords of the lane by two bits of `imm` each. -/
def shuffleEpi32 (imm : Nat) (a : Reg) : Reg :=
  ⟨fun i => a.byte (i / 16 * 16 + imm / 4 ^ (i % 16 / 4) % 4 * 4 + i % 4)⟩

/-- `_mm_unpacklo_epi8`: the low halves of the lanes, byte by byte. -/
def unpackloEpi8 (a b : Reg) : Reg :=
  ⟨fun i => (if i % 2 = 0 then a else b).byte (i / 16 * 16 + i % 16 / 2)⟩

/-- `_mm_unpackhi_epi8`: the high halves of the lanes, byte by byte. -/
def unpackhiEpi8 (a b : Reg) : Reg :=
  ⟨fun i => (if i % 2 = 0 then a else b).byte (i / 16 * 16 + 8 + i % 16 / 2)⟩

/-- The 16-bit word `j`. -/
def word (a : Reg) (j : Nat) : BitVec 16 := a.byte (2 * j + 1) ++ a.byte (2 * j)

/-- The 64-bit word `j`. -/
def qword (a : Reg) (j : Nat) : BitVec 64 :=
  ofBits 64 fun m => (a.byte (8 * j + m / 8)).getLsbD (m % 8)

/-- A signed word as an unsigned byte, at the nearest bound where it does not fit. -/
def saturate (x : BitVec 16) : BitVec 8 :=
  if x.msb then 0#8 else if 255 < x.toNat then 255#8 else x.setWidth 8

/-- `_mm_packus_epi16`: the words of the two lanes, saturated. -/
def packusEpi16 (a b : Reg) : Reg :=
  ⟨fun i => if i % 16 < 8 then saturate (a.word (i / 16 * 8 + i % 16))
    else saturate (b.word (i / 16 * 8 + (i % 16 - 8)))⟩

/-- `_mm_srli_epi16`. -/
def srliEpi16 (n : Nat) (a : Reg) : Reg := ⟨fun i => byteOf (a.word (i / 2) >>> n) (i % 2)⟩

/-- `_mm256_srli_epi64`. -/
def srliEpi64 (n : Nat) (a : Reg) : Reg := ⟨fun i => byteOf (a.qword (i / 8) >>> n) (i % 8)⟩

/-- `_mm256_permute4x64_epi64`: quadwords by two bits of `imm` each. -/
def permute4x64 (imm : Nat) (a : Reg) : Reg :=
  ⟨fun i => a.byte (imm / 4 ^ (i / 8) % 4 * 8 + i % 8)⟩

/-- `_mm256_permute2x128_si256`: lanes of `a`, then of `b`, by four bits of `imm` each. -/
def permute2x128 (imm : Nat) (a b : Reg) : Reg :=
  ⟨fun i =>
    let ctl := imm / 16 ^ (i / 16) % 16
    if 8 ≤ ctl then 0#8
    else (if ctl % 4 < 2 then a else b).byte (ctl % 2 * 16 + i % 16)⟩

/-- The number of set bits of a byte modulo two. -/
def parity (b : BitVec 8) : Bool := (List.range 8).foldl (fun p j => p ^^ b.getLsbD j) false

/-- Eight rows of bits, the row of the highest result bit first, applied to a byte. -/
def affineByte (rows : Nat → BitVec 8) (x : BitVec 8) : BitVec 8 :=
  ofBits 8 fun k => parity (rows (7 - k) &&& x)

/-- `_mm256_gf2p8affine_epi64_epi8` with a zero constant: each quadword of `m` holds the rows
for the bytes of the same quadword of `a`. -/
def affineEpi64 (a m : Reg) : Reg :=
  ⟨fun i => affineByte (fun r => m.byte (i / 8 * 8 + r)) (a.byte i)⟩

end Instructions

section Bytes

variable {a b : Reg} {i : Nat}

@[simp] theorem byte_loadu (src : List (BitVec 8)) (off i : Nat) :
    (loadu src off).byte i = src.getD (off + i) 0#8 := rfl

@[simp] theorem byte_setzero : setzero.byte i = 0#8 := rfl

@[simp] theorem byte_set1Epi8 (x : BitVec 8) : (set1Epi8 x).byte i = x := rfl

@[simp] theorem byte_broadcastI128 : (broadcastI128 a).byte i = a.byte (i % 16) := rfl

@[simp] theorem byte_andSi : (andSi a b).byte i = a.byte i &&& b.byte i := rfl

@[simp] theorem byte_xorSi : (xorSi a b).byte i = a.byte i ^^^ b.byte i := rfl

@[simp] theorem length_storeu (width : Nat) (dst : List (BitVec 8)) (off : Nat) (v : Reg) :
    (storeu width dst off v).length = dst.length := List.length_mapIdx

theorem getD_storeu (width : Nat) (dst : List (BitVec 8)) (off : Nat) (v : Reg) {p : Nat}
    (hp : p < dst.length) : (storeu width dst off v).getD p 0#8 =
      if off ≤ p ∧ p < off + width then v.byte (p - off) else dst.getD p 0#8 := by
  rw [storeu, getD_mapIdx_of_lt _ _ _ hp 0#8]

/-- A lookup in a table of 16 bytes. -/
theorem byte_shuffleEpi8_table {t n : Reg} (hn : (n.byte i).toNat < 16) :
    (shuffleEpi8 (broadcastI128 t) n).byte i = t.byte (n.byte i).toNat := by
  have hmsb : (n.byte i).msb = false := by
    rw [BitVec.msb_eq_false_iff_two_mul_lt]
    omega
  change (if (n.byte i).msb then 0#8 else _) = _
  rw [hmsb, if_neg (by decide), byte_broadcastI128]
  congr 1
  omega

theorem byte_vqtbl1qU8 {t n : Reg} (hn : (n.byte i).toNat < 16) :
    (vqtbl1qU8 t n).byte i = t.byte (n.byte i).toNat := if_pos hn

/-- An accumulator that a list of registers is added to. -/
theorem byte_foldl_xorSi {α : Type*} (f : α → Reg) (l : List α) (s : Reg) :
    (l.foldl (fun sum t => xorSi sum (f t)) s).byte i =
      s.byte i ^^^ xorSum (l.map fun t => (f t).byte i) := by
  induction l generalizing s with
  | nil => simp
  | cons t l ih => simp [ih, BitVec.xor_assoc]

end Bytes

section Stores

theorem getD_storeu_of_le {dst : List (BitVec 8)} (width off : Nat) (v : Reg) {p : Nat}
    (hp : dst.length ≤ p) : (storeu width dst off v).getD p 0#8 = dst.getD p 0#8 := by
  rw [List.getD_eq_default _ _ hp, List.getD_eq_default _ _ (by rwa [length_storeu])]

/-- Two registers of `width` bytes behind each other. -/
def concat (width : Nat) (a b : Reg) : Reg :=
  ⟨fun i => if i < width then a.byte i else b.byte (i - width)⟩

theorem byte_concat (width : Nat) (a b : Reg) (i : Nat) :
    (concat width a b).byte i = if i < width then a.byte i else b.byte (i - width) := rfl

/-- Two neighbouring stores are one wider store. -/
theorem storeu_storeu (m n : Nat) (dst : List (BitVec 8)) (off : Nat) (a b : Reg) :
    storeu n (storeu m dst off a) (off + m) b = storeu (m + n) dst off (concat m a b) := by
  apply getD_ext 0#8
  · simp only [length_storeu]
  · intro p hp
    simp only [length_storeu] at hp
    rw [getD_storeu _ _ _ _ (by rwa [length_storeu]), getD_storeu _ _ _ _ hp,
      getD_storeu _ _ _ _ hp, byte_concat]
    by_cases hlow : off ≤ p ∧ p < off + m
    · rw [if_neg (by omega), if_pos hlow, if_pos (by omega), if_pos (by omega)]
    · by_cases hhigh : off + m ≤ p ∧ p < off + m + n
      · rw [if_pos hhigh, if_pos (by omega), if_neg (by omega), Nat.sub_add_eq]
      · rw [if_neg hhigh, if_neg hlow, if_neg (by omega)]

/-- A load behind a store does not see it. -/
theorem loadu_storeu (width : Nat) (dst : List (BitVec 8)) (off : Nat) (v : Reg) {at' : Nat}
    (h : off + width ≤ at') : loadu (storeu width dst off v) at' = loadu dst at' := by
  simp only [loadu, Reg.mk.injEq]
  funext i
  by_cases hp : at' + i < dst.length
  · rw [getD_storeu _ _ _ _ hp, if_neg (by omega)]
  · exact getD_storeu_of_le _ _ _ (by omega)

/-- A loop that stores one register a round, from an offset on. -/
theorem foldl_storeu_from (width base n : Nat) (r : Nat → Reg) (g : Nat → BitVec 8)
    (dst : List (BitVec 8)) (hn : base + n * width ≤ dst.length)
    (h : ∀ k, k < n → ∀ i, i < width → (r k).byte i = g (base + k * width + i)) :
    ((List.range n).foldl (fun t k => storeu width t (base + k * width) (r k)) dst).length =
        dst.length ∧
      ∀ p, ((List.range n).foldl (fun t k => storeu width t (base + k * width) (r k)) dst).getD p
        0#8 = if base ≤ p ∧ p < base + n * width then g p else dst.getD p 0#8 := by
  apply foldl_range_inv (fun k (t : List (BitVec 8)) => t.length = dst.length ∧ ∀ p, t.getD p 0#8 =
    if base ≤ p ∧ p < base + k * width then g p else dst.getD p 0#8)
  · exact ⟨rfl, fun p => by rw [Nat.zero_mul, if_neg (by omega)]⟩
  · intro k hk t ht
    obtain ⟨hlen, hread⟩ := ht
    have hend : (k + 1) * width ≤ n * width := Nat.mul_le_mul_right width hk
    have hsucc : (k + 1) * width = k * width + width := Nat.succ_mul k width
    refine ⟨by rw [length_storeu, hlen], fun p => ?_⟩
    by_cases hp : p < t.length
    · rw [getD_storeu _ _ _ _ hp, hread p]
      by_cases hin : base + k * width ≤ p ∧ p < base + k * width + width
      · rw [if_pos hin, if_pos (by omega), h k hk _ (by omega), Nat.add_sub_cancel' hin.1]
      · rw [if_neg hin]
        exact if_congr (by omega) rfl rfl
    · rw [getD_storeu_of_le _ _ _ (by omega), hread p, if_neg (by omega), if_neg (by omega)]

/-- A loop that stores one register a round rewrites the positions it passes. -/
theorem foldl_storeu (width n : Nat) (r : List (BitVec 8) → Nat → Reg)
    (g : Nat → BitVec 8 → BitVec 8) (dst : List (BitVec 8)) (hn : n * width ≤ dst.length)
    (h : ∀ b, b < n → ∀ t : List (BitVec 8), t.length = dst.length → ∀ i, i < width →
      (r t b).byte i = g (b * width + i) (t.getD (b * width + i) 0#8)) :
    ((List.range n).foldl (fun t b => storeu width t (b * width) (r t b)) dst).length =
        dst.length ∧
      ∀ p, ((List.range n).foldl (fun t b => storeu width t (b * width) (r t b)) dst).getD p 0#8 =
        if p < n * width then g p (dst.getD p 0#8) else dst.getD p 0#8 := by
  apply foldl_range_windows (fun t : List (BitVec 8) => t.length = dst.length)
    (fun t p => t.getD p 0#8) g _ width n dst rfl
  intro b hb t ht
  have hend : (b + 1) * width ≤ n * width := Nat.mul_le_mul_right width hb
  have hsucc : (b + 1) * width = b * width + width := Nat.succ_mul b width
  refine ⟨by rw [length_storeu, ht], fun p => ?_⟩
  by_cases hp : p < t.length
  · rw [getD_storeu _ _ _ _ hp, hsucc]
    split_ifs with hin
    · rw [h b hb t ht _ (by omega), Nat.add_sub_cancel' hin.1]
    · rfl
  · rw [getD_storeu_of_le _ _ _ (by omega), if_neg (by omega)]

/-- A loop that stores one register a round in each of two buffers. -/
theorem foldl_storeu_pair (width n : Nat) (r s : List (BitVec 8) × List (BitVec 8) → Nat → Reg)
    (g : Nat → BitVec 8 × BitVec 8 → BitVec 8 × BitVec 8)
    (dst : List (BitVec 8) × List (BitVec 8)) (hlen : dst.2.length = dst.1.length)
    (hn : n * width ≤ dst.1.length)
    (h : ∀ b, b < n → ∀ t : List (BitVec 8) × List (BitVec 8), t.1.length = dst.1.length →
      t.2.length = dst.1.length → ∀ i, i < width →
      ((r t b).byte i, (s t b).byte i) =
        g (b * width + i) (t.1.getD (b * width + i) 0#8, t.2.getD (b * width + i) 0#8)) :
    let out := (List.range n).foldl (fun t b =>
      (storeu width t.1 (b * width) (r t b), storeu width t.2 (b * width) (s t b))) dst
    (out.1.length = dst.1.length ∧ out.2.length = dst.1.length) ∧
      ∀ p, (out.1.getD p 0#8, out.2.getD p 0#8) =
        if p < n * width then g p (dst.1.getD p 0#8, dst.2.getD p 0#8)
        else (dst.1.getD p 0#8, dst.2.getD p 0#8) := by
  apply foldl_range_windows
    (fun t : List (BitVec 8) × List (BitVec 8) =>
      t.1.length = dst.1.length ∧ t.2.length = dst.1.length)
    (fun t p => (t.1.getD p 0#8, t.2.getD p 0#8)) g _ width n dst ⟨rfl, hlen⟩
  intro b hb t ht
  have hend : (b + 1) * width ≤ n * width := Nat.mul_le_mul_right width hb
  have hsucc : (b + 1) * width = b * width + width := Nat.succ_mul b width
  refine ⟨⟨by rw [length_storeu, ht.1], by rw [length_storeu, ht.2]⟩, fun p => ?_⟩
  by_cases hp : p < dst.1.length
  · rw [getD_storeu _ _ _ _ (by omega), getD_storeu _ _ _ _ (by omega), hsucc]
    split_ifs with hin
    · rw [h b hb t ht.1 ht.2 _ (by omega), Nat.add_sub_cancel' hin.1]
    · rfl
  · rw [getD_storeu_of_le _ _ _ (by omega), getD_storeu_of_le _ _ _ (by omega), if_neg (by omega)]

/-- What is stored for a product byte. -/
def mergeByte (accumulate : Bool) (value old : BitVec 8) : BitVec 8 :=
  if accumulate then old ^^^ value else value

/-- An accumulating store reads the destination first. -/
def mergeReg (accumulate : Bool) (value old : Reg) : Reg :=
  if accumulate then xorSi value old else value

theorem byte_mergeReg (accumulate : Bool) (value old : Reg) (i : Nat) :
    (mergeReg accumulate value old).byte i = mergeByte accumulate (value.byte i) (old.byte i) := by
  cases accumulate
  · rfl
  · exact BitVec.xor_comm _ _

end Stores

section Words

variable {a b : Reg} {i : Nat}

theorem byteOf_zero_append (h l : BitVec 8) : byteOf (h ++ l) 0 = l :=
  BitVec.extractLsb'_append_eq_right

theorem byteOf_one_append (h l : BitVec 8) : byteOf (h ++ l) 1 = h :=
  BitVec.extractLsb'_append_eq_left

theorem getLsbD_byteOf {w k : Nat} (x : BitVec w) (i : Nat) (hk : k < 8) :
    (byteOf x i).getLsbD k = x.getLsbD (8 * i + k) := by
  rw [byteOf, BitVec.getLsbD_extractLsb']
  simp [hk]

theorem xorLinear_byteOf {w : Nat} (i : Nat) : XorLinear fun x : BitVec w => byteOf x i := by
  intro a b
  apply BitVec.eq_of_getLsbD_eq
  intro k hk
  rw [getLsbD_byteOf _ _ hk, BitVec.getLsbD_xor, BitVec.getLsbD_xor, getLsbD_byteOf _ _ hk,
    getLsbD_byteOf _ _ hk]

theorem getLsbD_word (j : Nat) {k : Nat} (hk : k < 16) :
    (a.word j).getLsbD k = (a.byte (2 * j + k / 8)).getLsbD (k % 8) := by
  rw [word, BitVec.getLsbD_append]
  split_ifs with h
  · rw [Nat.div_eq_of_lt h, Nat.mod_eq_of_lt h]
    rfl
  · rw [show k / 8 = 1 by omega, show k % 8 = k - 8 by omega]

theorem byteOf_append_byteOf (x : BitVec 16) : byteOf x 1 ++ byteOf x 0 = x := by
  apply BitVec.eq_of_getLsbD_eq
  intro k hk
  rw [BitVec.getLsbD_append]
  split_ifs with h
  · rw [getLsbD_byteOf _ _ h, Nat.mul_zero, Nat.zero_add]
  · rw [getLsbD_byteOf _ _ (by omega), show 8 * 1 + (k - 8) = k by omega]

theorem saturate_byte (l : BitVec 8) : saturate (0#8 ++ l) = l := by
  revert l
  decide +kernel

/-- The mask that keeps the low byte of each word. -/
def lowBytes : Reg := set1Epi16 0xff#16

theorem byte_lowBytes (j : Nat) : lowBytes.byte (2 * j) = 255#8 ∧ lowBytes.byte (2 * j + 1) = 0#8 := by
  have h0 : 2 * j % 2 = 0 := by omega
  have h1 : (2 * j + 1) % 2 = 1 := by omega
  constructor
  · change byteOf 0xff#16 (2 * j % 2) = _
    rw [h0]
    decide
  · change byteOf 0xff#16 ((2 * j + 1) % 2) = _
    rw [h1]
    decide

theorem word_andSi_lowBytes (j : Nat) : (andSi a lowBytes).word j = 0#8 ++ a.byte (2 * j) := by
  have hones : ∀ x : BitVec 8, x &&& 255#8 = x := by decide +kernel
  rw [word, byte_andSi, byte_andSi, (byte_lowBytes j).1, (byte_lowBytes j).2, hones,
    BitVec.and_zero]

theorem word_srliEpi16 (n j : Nat) : (srliEpi16 n a).word j = a.word j >>> n := by
  have h0 : 2 * j / 2 = j := by omega
  have h1 : (2 * j + 1) / 2 = j := by omega
  have h2 : 2 * j % 2 = 0 := by omega
  have h3 : (2 * j + 1) % 2 = 1 := by omega
  rw [word]
  simp only [srliEpi16, h0, h1, h2, h3]
  exact byteOf_append_byteOf (a.word j >>> n)

theorem word_srliEpi16_eight (j : Nat) : (srliEpi16 8 a).word j = 0#8 ++ a.byte (2 * j + 1) := by
  have hshift (h l : BitVec 8) : (h ++ l) >>> 8 = 0#8 ++ h := by
    apply BitVec.eq_of_getLsbD_eq
    intro k hk
    rw [BitVec.getLsbD_ushiftRight, BitVec.getLsbD_append, BitVec.getLsbD_append,
      if_neg (by omega), Nat.add_sub_cancel_left]
    split_ifs with hk8
    · rfl
    · rw [BitVec.getLsbD_zero, BitVec.getLsbD_of_ge _ _ (by omega)]
  rw [word_srliEpi16, word, hshift]

/-- Packing the masked words collects the even bytes. -/
theorem byte_packus_low : (packusEpi16 (andSi a lowBytes) (andSi b lowBytes)).byte i =
    if i % 16 < 8 then a.byte (i / 16 * 16 + 2 * (i % 16))
    else b.byte (i / 16 * 16 + 2 * (i % 16 - 8)) := by
  simp only [packusEpi16, word_andSi_lowBytes, saturate_byte]
  have h (k : Nat) : 2 * (i / 16 * 8 + k) = i / 16 * 16 + 2 * k := by omega
  rw [h, h]

/-- Packing the shifted words collects the odd bytes. -/
theorem byte_packus_high : (packusEpi16 (srliEpi16 8 a) (srliEpi16 8 b)).byte i =
    if i % 16 < 8 then a.byte (i / 16 * 16 + 2 * (i % 16) + 1)
    else b.byte (i / 16 * 16 + 2 * (i % 16 - 8) + 1) := by
  simp only [packusEpi16, word_srliEpi16_eight, saturate_byte]
  have h (k : Nat) : 2 * (i / 16 * 8 + k) = i / 16 * 16 + 2 * k := by omega
  rw [h, h]

/-- Shifting all ones leaves the same mask. -/
theorem srliEpi16_ones : srliEpi16 8 (set1Epi8 255#8) = lowBytes := by
  simp only [srliEpi16, lowBytes, set1Epi16, Reg.mk.injEq]
  funext i
  have hword : (255#8 ++ 255#8 : BitVec 16) >>> 8 = 0xff#16 := by decide
  rw [word, byte_set1Epi8, byte_set1Epi8, hword]

theorem nibble_bounds : ∀ x : BitVec 8, (x &&& 15#8).toNat < 16 ∧ (x >>> 4).toNat < 16 := by
  decide +kernel

/-- A byte is the sum of its nibbles. -/
theorem nibbles_xor : ∀ x : BitVec 8, BitVec.ofNat 8 (x &&& 15#8).toNat ^^^
    BitVec.ofNat 8 ((x >>> 4).toNat * 16) = x := by
  decide +kernel

theorem byte_low_nibble : (andSi a (set1Epi8 15#8)).byte i = a.byte i &&& 15#8 := rfl

theorem getLsbD_low_mask {k : Nat} (hk : k < 8) : (15#8).getLsbD k = decide (k < 4) := by
  interval_cases k <;> rfl

/-- The high nibbles by a shift of the words. -/
theorem byte_high_nibble : (andSi (srliEpi16 4 a) (set1Epi8 15#8)).byte i = a.byte i >>> 4 := by
  apply BitVec.eq_of_getLsbD_eq
  intro k hk
  change (byteOf (a.word (i / 2) >>> 4) (i % 2) &&& 15#8).getLsbD k = _
  rw [BitVec.getLsbD_and, getLsbD_low_mask hk, getLsbD_byteOf _ _ hk, BitVec.getLsbD_ushiftRight,
    BitVec.getLsbD_ushiftRight]
  by_cases hk4 : k < 4
  · have hbyte : 2 * (i / 2) + (4 + (8 * (i % 2) + k)) / 8 = i := by omega
    have hbit : (4 + (8 * (i % 2) + k)) % 8 = 4 + k := by omega
    rw [getLsbD_word _ (by omega), hbyte, hbit]
    simp [hk4]
  · rw [BitVec.getLsbD_of_ge (a.byte i) (4 + k) (by omega)]
    simp [hk4]

/-- The high nibbles by a shift of the quadwords. -/
theorem byte_high_nibble_bytes : (andSi (vshrqNU8 4 a) (set1Epi8 15#8)).byte i = a.byte i >>> 4 := by
  apply BitVec.eq_of_getLsbD_eq
  intro k hk
  change ((a.byte i >>> 4) &&& 15#8).getLsbD k = _
  rw [BitVec.getLsbD_and, getLsbD_low_mask hk, BitVec.getLsbD_ushiftRight]
  by_cases h4 : k < 4
  · simp [h4]
  · rw [BitVec.getLsbD_of_ge _ _ (by omega), Bool.false_and]

theorem byte_high_nibble64 : (andSi (srliEpi64 4 a) (set1Epi8 15#8)).byte i = a.byte i >>> 4 := by
  apply BitVec.eq_of_getLsbD_eq
  intro k hk
  change (byteOf (a.qword (i / 8) >>> 4) (i % 8) &&& 15#8).getLsbD k = _
  rw [BitVec.getLsbD_and, getLsbD_low_mask hk, getLsbD_byteOf _ _ hk, BitVec.getLsbD_ushiftRight,
    BitVec.getLsbD_ushiftRight]
  by_cases hk4 : k < 4
  · have hbyte : 8 * (i / 8) + (4 + (8 * (i % 8) + k)) / 8 = i := by omega
    have hbit : (4 + (8 * (i % 8) + k)) % 8 = 4 + k := by omega
    rw [qword, getLsbD_ofBits _ (by omega), hbyte, hbit]
    simp [hk4]
  · rw [BitVec.getLsbD_of_ge (a.byte i) (4 + k) (by omega)]
    simp [hk4]

end Words

section Planes

variable {a b : Reg} {i : Nat}

/-- Packing two registers of 32 bytes works lane by lane; the quadwords in the order 0, 2, 1, 3
restore the order of the words. -/
theorem byte_permute_packus_low (hi : i < 32) :
    (permute4x64 0xd8 (packusEpi16 (andSi a lowBytes) (andSi b lowBytes))).byte i =
      if i < 16 then a.byte (2 * i) else b.byte (2 * i - 32) := by
  change (packusEpi16 (andSi a lowBytes) (andSi b lowBytes)).byte
    (0xd8 / 4 ^ (i / 8) % 4 * 8 + i % 8) = _
  rw [byte_packus_low]
  interval_cases i <;> rfl

theorem byte_permute_packus_high (hi : i < 32) :
    (permute4x64 0xd8 (packusEpi16 (srliEpi16 8 a) (srliEpi16 8 b))).byte i =
      if i < 16 then a.byte (2 * i + 1) else b.byte (2 * i + 1 - 32) := by
  change (packusEpi16 (srliEpi16 8 a) (srliEpi16 8 b)).byte
    (0xd8 / 4 ^ (i / 8) % 4 * 8 + i % 8) = _
  rw [byte_packus_high]
  interval_cases i <;> rfl

/-- Joining the low lanes of the unpacked halves interleaves the first 16 bytes. -/
theorem byte_permute_unpack_low (hi : i < 32) :
    (permute2x128 0x20 (unpackloEpi8 a b) (unpackhiEpi8 a b)).byte i =
      (if i % 2 = 0 then a else b).byte (i / 2) := by
  interval_cases i <;> rfl

/-- Joining the high lanes interleaves the other 16 bytes. -/
theorem byte_permute_unpack_high (hi : i < 32) :
    (permute2x128 0x31 (unpackloEpi8 a b) (unpackhiEpi8 a b)).byte i =
      (if i % 2 = 0 then a else b).byte (16 + i / 2) := by
  interval_cases i <;> rfl

/-- The two unpacked halves of a lane interleave its 16 bytes. -/
theorem byte_concat_unpack (hi : i < 32) :
    (concat 16 (unpackloEpi8 a b) (unpackhiEpi8 a b)).byte i =
      (if i % 2 = 0 then a else b).byte (i / 2) := by
  interval_cases i <;> rfl

/-- Bytes of each lane in the order of a table. -/
theorem byte_shuffleEpi8_order {order : List (BitVec 8)}
    (h : ∀ j, j < 16 → (order.getD j 0#8).toNat < 16) :
    (shuffleEpi8 a (broadcastI128 (loadu order 0))).byte i =
      a.byte (i / 16 * 16 + (order.getD (i % 16) 0#8).toNat) := by
  have hlt := h (i % 16) (Nat.mod_lt i (by decide))
  have hmsb : (order.getD (i % 16) 0#8).msb = false := by
    rw [BitVec.msb_eq_false_iff_two_mul_lt]
    omega
  change (if (order.getD (0 + i % 16) 0#8).msb then 0#8
    else a.byte (i / 16 * 16 + (order.getD (0 + i % 16) 0#8).toNat % 16)) = _
  rw [Nat.zero_add, hmsb, if_neg (by decide), Nat.mod_eq_of_lt hlt]

/-- The even bytes of a lane, then its odd bytes. -/
def planesOrder : List (BitVec 8) := [0, 2, 4, 6, 8, 10, 12, 14, 1, 3, 5, 7, 9, 11, 13, 15]

/-- The first and second halves of a lane, byte by byte. -/
def packOrder : List (BitVec 8) := [0, 8, 1, 9, 2, 10, 3, 11, 4, 12, 5, 13, 6, 14, 7, 15]

theorem planesOrder_eq : ∀ j, j < 16 → (planesOrder.getD j 0#8).toNat = 2 * (j % 8) + j / 8 := by
  decide

theorem packOrder_eq : ∀ j, j < 16 → (packOrder.getD j 0#8).toNat = j % 2 * 8 + j / 2 := by
  decide

/-- The product of two interleaved planes by a block matrix: the planes are gathered in each
lane, multiplied in place and crossed, and interleaved again. -/
def planarProduct (a b c d : BitVec 64) (v : Reg) : Reg :=
  let planes := shuffleEpi8 v (broadcastI128 (loadu planesOrder 0))
  let other := shuffleEpi32 0x4e planes
  let product := xorSi (affineEpi64 planes (setPairEpi64 d a)) (affineEpi64 other (setPairEpi64 c b))
  shuffleEpi8 product (broadcastI128 (loadu packOrder 0))

theorem byte_planes :
    (shuffleEpi8 a (broadcastI128 (loadu planesOrder 0))).byte i =
      a.byte (i / 16 * 16 + (2 * (i % 8) + i % 16 / 8)) := by
  have hlt := Nat.mod_lt i (show 0 < 16 by decide)
  rw [byte_shuffleEpi8_order (fun j hj => by rw [planesOrder_eq j hj]; omega),
    planesOrder_eq _ hlt, Nat.mod_mod_of_dvd i (by decide : 8 ∣ 16)]

theorem byte_swapped : (shuffleEpi32 0x4e a).byte i =
    a.byte (i / 16 * 16 + (i % 16 + 8) % 16) := by
  have hsel : ∀ j, j < 16 → 0x4e / 4 ^ (j / 4) % 4 * 4 + j % 4 = (j + 8) % 16 := by decide
  have hj := hsel (i % 16) (Nat.mod_lt i (by decide))
  rw [Nat.mod_mod_of_dvd i (by decide : 4 ∣ 16)] at hj
  change a.byte (i / 16 * 16 + 0x4e / 4 ^ (i % 16 / 4) % 4 * 4 + i % 4) = _
  rw [Nat.add_assoc, hj]

theorem affineByte_congr {rows rows' : Nat → BitVec 8} (h : ∀ r, r < 8 → rows r = rows' r)
    (x : BitVec 8) : affineByte rows x = affineByte rows' x := by
  apply BitVec.eq_of_getLsbD_eq
  intro k hk
  rw [affineByte, affineByte, getLsbD_ofBits _ hk, getLsbD_ofBits _ hk, h _ (by omega)]

theorem byte_affineEpi64 {m : Reg} : (affineEpi64 a m).byte i =
    affineByte (fun r => m.byte (i / 8 * 8 + r)) (a.byte i) := rfl

theorem byte_setPairEpi64 (m n : BitVec 64) (i : Nat) : (setPairEpi64 n m).byte i =
    byteOf (if i / 8 % 2 = 0 then m else n) (i % 8) := rfl

theorem byte_affine_pair {m n : BitVec 64} : (affineEpi64 a (setPairEpi64 n m)).byte i =
    affineByte (byteOf (if i / 8 % 2 = 0 then m else n)) (a.byte i) := by
  rw [byte_affineEpi64]
  apply affineByte_congr
  intro r hr
  rw [byte_setPairEpi64, show (i / 8 * 8 + r) / 8 = i / 8 by omega,
    show (i / 8 * 8 + r) % 8 = r by omega]

/-- Even bytes get the first block row, odd bytes the second. -/
theorem byte_planarProduct (a b c d : BitVec 64) (v : Reg) (i : Nat) :
    (planarProduct a b c d v).byte i =
      if i % 2 = 0 then affineByte (byteOf a) (v.byte i) ^^^ affineByte (byteOf b) (v.byte (i + 1))
      else affineByte (byteOf c) (v.byte (i - 1)) ^^^ affineByte (byteOf d) (v.byte i) := by
  have hlt := Nat.mod_lt i (show 0 < 16 by decide)
  simp only [planarProduct]
  rw [byte_shuffleEpi8_order (fun j hj => by rw [packOrder_eq j hj]; omega), packOrder_eq _ hlt,
    byte_xorSi, byte_affine_pair, byte_affine_pair, byte_planes, byte_swapped, byte_planes]
  -- the place of result byte `i` in the gathered planes, and its place in the swapped ones
  obtain ⟨p, hp⟩ : ∃ p, p = i / 16 * 16 + (i % 16 % 2 * 8 + i % 16 / 2) := ⟨_, rfl⟩
  obtain ⟨q, hq⟩ : ∃ q, q = p / 16 * 16 + (p % 16 + 8) % 16 := ⟨_, rfl⟩
  rw [← hp, ← hq]
  have hlane : p / 16 = i / 16 := by omega
  have hplace : p % 16 = i % 16 % 2 * 8 + i % 16 / 2 := by omega
  rcases Nat.mod_two_eq_zero_or_one i with h | h
  · have hbit : i % 16 % 2 = 0 := by omega
    rw [hbit] at hplace
    have hhalf : p / 8 % 2 = 0 := by omega
    have hown : p / 16 * 16 + (2 * (p % 8) + p % 16 / 8) = i := by omega
    have hother : q / 16 * 16 + (2 * (q % 8) + q % 16 / 8) = i + 1 := by omega
    rw [hhalf, h, if_pos rfl, if_pos rfl, if_pos rfl, hown, hother]
  · have hbit : i % 16 % 2 = 1 := by omega
    rw [hbit] at hplace
    have hhalf : p / 8 % 2 = 1 := by omega
    have hown : p / 16 * 16 + (2 * (p % 8) + p % 16 / 8) = i := by omega
    have hother : q / 16 * 16 + (2 * (q % 8) + q % 16 / 8) = i - 1 := by omega
    rw [hhalf, h, if_neg (by decide), if_neg (by decide), if_neg (by decide), hown, hother,
      BitVec.xor_comm]

end Planes

section Affine

theorem parity_xor (a b : BitVec 8) : parity (a ^^^ b) = (parity a ^^ parity b) := by
  have hfold (l : List Nat) (p q : Bool) :
      l.foldl (fun p j => p ^^ (a ^^^ b).getLsbD j) (p ^^ q) =
        (l.foldl (fun p j => p ^^ a.getLsbD j) p ^^ l.foldl (fun p j => p ^^ b.getLsbD j) q) := by
    induction l generalizing p q with
    | nil => rfl
    | cons j l ih =>
      have hswap : ((p ^^ q) ^^ (a ^^^ b).getLsbD j) =
          ((p ^^ a.getLsbD j) ^^ (q ^^ b.getLsbD j)) := by
        rw [BitVec.getLsbD_xor]
        cases p <;> cases q <;> cases a.getLsbD j <;> cases b.getLsbD j <;> rfl
      rw [List.foldl_cons, List.foldl_cons, List.foldl_cons, hswap, ih]
  exact hfold (List.range 8) false false

theorem parity_and_twoPow (r : BitVec 8) {j : Nat} (hj : j < 8) :
    parity (r &&& BitVec.twoPow 8 j) = r.getLsbD j := by
  interval_cases j <;>
    simp [parity, List.range_succ, BitVec.getLsbD_twoPow]

theorem xorLinear_affineByte (rows : Nat → BitVec 8) : XorLinear (affineByte rows) := by
  intro a b
  apply BitVec.eq_of_getLsbD_eq
  intro k hk
  rw [affineByte, getLsbD_ofBits _ hk, BitVec.getLsbD_xor, affineByte, affineByte,
    getLsbD_ofBits _ hk, getLsbD_ofBits _ hk, ← parity_xor]
  congr 1
  apply BitVec.eq_of_getLsbD_eq
  intro j _
  simp only [BitVec.getLsbD_and, BitVec.getLsbD_xor, Bool.and_xor_distrib_left]

/-- The affine instruction applies the linear map whose images of the single bits stand in
the columns of its rows. -/
theorem affineByte_eq {f : BitVec 8 → BitVec 8} (hf : XorLinear f) {rows : Nat → BitVec 8}
    (h : ∀ j k, j < 8 → k < 8 →
      (rows (7 - k)).getLsbD j = (f (BitVec.twoPow 8 j)).getLsbD k) (x : BitVec 8) :
    affineByte rows x = f x := by
  have hext := (xorLinear_affineByte rows).ext hf (fun j hj => by
    apply BitVec.eq_of_getLsbD_eq
    intro k hk
    rw [affineByte, getLsbD_ofBits _ hk, parity_and_twoPow _ hj, h j k hj hk])
  rw [hext]

end Affine

end Reg

end ErasureCodec
