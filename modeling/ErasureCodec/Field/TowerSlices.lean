import ErasureCodec.Framework.PairBytes
import ErasureCodec.Field.Galois16
import ErasureCodec.Field.Gfni

namespace ErasureCodec

namespace Galois16

open Reg
open Galois8 (byte_inj byte_zero byte_xor byte_mul)

section Layout

/-- Elements store `ax` before `ac`. -/
def elementCode : PairCode Element where
  first := Element.ax
  second := Element.ac
  make ax ac := ⟨ax, ac⟩
  zero := Element.zero
  make_eq _ := rfl
  first_make _ _ := rfl
  second_make _ _ := rfl
  first_zero := rfl
  second_zero := rfl

/-- `as_flattened`. -/
def asFlattened (xs : List Element) : List (BitVec 8) := elementCode.flatten xs

def ofFlattened (bytes : List (BitVec 8)) : List Element := elementCode.unflatten bytes

/-- The loop over the zipped planes, which ends with the shorter one. -/
def deinterleaveScalar (src even odd : List (BitVec 8)) : List (BitVec 8) × List (BitVec 8) :=
  (even.mapIdx fun i e => if i < odd.length then src.getD (2 * i) 0#8 else e,
    odd.mapIdx fun i o => if i < even.length then src.getD (2 * i + 1) 0#8 else o)

def interleaveScalar (accumulate : Bool) (even odd dst : List (BitVec 8)) : List (BitVec 8) :=
  dst.mapIdx fun p d =>
    if p / 2 < min even.length odd.length then
      mergeByte accumulate (if p % 2 = 0 then even.getD (p / 2) 0#8 else odd.getD (p / 2) 0#8) d
    else d

/-- The vector kernels leave the elements after their last batch to the scalar loop. -/
def deinterleaveTail (done : Nat) (src : List (BitVec 8))
    (planes : List (BitVec 8) × List (BitVec 8)) : List (BitVec 8) × List (BitVec 8) :=
  let tail := deinterleaveScalar (src.drop (done * 2)) (planes.1.drop done) (planes.2.drop done)
  (planes.1.take done ++ tail.1, planes.2.take done ++ tail.2)

def interleaveTail (accumulate : Bool) (done : Nat) (even odd dst : List (BitVec 8)) :
    List (BitVec 8) :=
  dst.take (done * 2) ++
    interleaveScalar accumulate (even.drop done) (odd.drop done) (dst.drop (done * 2))

/-- Planes of 32 bytes from 64 interleaved ones; packing works within lanes and the quadword
order 0, 2, 1, 3 restores the element order. -/
def deinterleaveAvx2 (src even odd : List (BitVec 8)) : List (BitVec 8) × List (BitVec 8) :=
  let mask := set1Epi16 0xff#16
  let batches := even.length / 32
  let planes := (List.range batches).foldl (fun planes b =>
    let lo := loadu src (b * 64)
    let hi := loadu src (b * 64 + 32)
    let eBytes := packusEpi16 (andSi lo mask) (andSi hi mask)
    let oBytes := packusEpi16 (srliEpi16 8 lo) (srliEpi16 8 hi)
    (storeu 32 planes.1 (b * 32) (permute4x64 0xd8 eBytes),
      storeu 32 planes.2 (b * 32) (permute4x64 0xd8 oBytes))) (even, odd)
  deinterleaveTail (batches * 32) src planes

def interleaveAvx2 (accumulate : Bool) (even odd dst : List (BitVec 8)) : List (BitVec 8) :=
  let batches := even.length / 32
  let dst := (List.range batches).foldl (fun dst b =>
    let eBytes := loadu even (b * 32)
    let oBytes := loadu odd (b * 32)
    let lo := unpackloEpi8 eBytes oBytes
    let hi := unpackhiEpi8 eBytes oBytes
    let first := mergeReg accumulate (permute2x128 0x20 lo hi) (loadu dst (b * 64))
    let second := mergeReg accumulate (permute2x128 0x31 lo hi) (loadu dst (b * 64 + 32))
    storeu 32 (storeu 32 dst (b * 64) first) (b * 64 + 32) second) dst
  interleaveTail accumulate (batches * 32) even odd dst

/-- The even bytes of a register in its low half. -/
def evenMask : Reg :=
  loadu [0, 2, 4, 6, 8, 10, 12, 14, 0x80, 0x80, 0x80, 0x80, 0x80, 0x80, 0x80, 0x80] 0

def oddMask : Reg :=
  loadu [1, 3, 5, 7, 9, 11, 13, 15, 0x80, 0x80, 0x80, 0x80, 0x80, 0x80, 0x80, 0x80] 0

/-- Four half registers behind each other. -/
def storelFour (dst : List (BitVec 8)) (off : Nat) (mask p0 p1 p2 p3 : Reg) : List (BitVec 8) :=
  let dst := storeu 8 dst off (shuffleEpi8 p0 mask)
  let dst := storeu 8 dst (off + 8) (shuffleEpi8 p1 mask)
  let dst := storeu 8 dst (off + 16) (shuffleEpi8 p2 mask)
  storeu 8 dst (off + 24) (shuffleEpi8 p3 mask)

def deinterleaveSsse3 (src even odd : List (BitVec 8)) : List (BitVec 8) × List (BitVec 8) :=
  let batches := even.length / 32
  let planes := (List.range batches).foldl (fun planes b =>
    let p0 := loadu src (b * 64)
    let p1 := loadu src (b * 64 + 16)
    let p2 := loadu src (b * 64 + 32)
    let p3 := loadu src (b * 64 + 48)
    (storelFour planes.1 (b * 32) evenMask p0 p1 p2 p3,
      storelFour planes.2 (b * 32) oddMask p0 p1 p2 p3)) (even, odd)
  deinterleaveTail (batches * 32) src planes

/-- Sixteen bytes of both planes behind each other. -/
def unpackStore (accumulate : Bool) (dst : List (BitVec 8)) (off : Nat) (e o : Reg) :
    List (BitVec 8) :=
  let low := mergeReg accumulate (unpackloEpi8 e o) (loadu dst off)
  let high := mergeReg accumulate (unpackhiEpi8 e o) (loadu dst (off + 16))
  storeu 16 (storeu 16 dst off low) (off + 16) high

def interleaveSsse3 (accumulate : Bool) (even odd dst : List (BitVec 8)) : List (BitVec 8) :=
  let batches := even.length / 32
  let dst := (List.range batches).foldl (fun dst b =>
    let dst := unpackStore accumulate dst (b * 64) (loadu even (b * 32)) (loadu odd (b * 32))
    unpackStore accumulate dst (b * 64 + 32) (loadu even (b * 32 + 16))
      (loadu odd (b * 32 + 16))) dst
  interleaveTail accumulate (batches * 32) even odd dst

/-- What the machine offers for moving bytes: the wide layout is also ruled out by some
arithmetic backends. -/
structure LayoutPaths where
  avx2Layout : Bool
  ssse3 : Bool

def deinterleave (paths : LayoutPaths) (src even odd : List (BitVec 8)) :
    List (BitVec 8) × List (BitVec 8) :=
  if even.length ≥ 32 ∧ paths.avx2Layout then deinterleaveAvx2 src even odd
  else if paths.ssse3 then deinterleaveSsse3 src even odd
  else deinterleaveScalar src even odd

def interleave (paths : LayoutPaths) (accumulate : Bool) (even odd dst : List (BitVec 8)) :
    List (BitVec 8) :=
  if even.length ≥ 32 ∧ paths.avx2Layout then interleaveAvx2 accumulate even odd dst
  else if paths.ssse3 then interleaveSsse3 accumulate even odd dst
  else interleaveScalar accumulate even odd dst

end Layout

section Deinterleave

variable {n : Nat} {src even odd : List (BitVec 8)}

/-- Every second byte, `n` of them from position `k` on. -/
def planeOf (k n : Nat) (src : List (BitVec 8)) : List (BitVec 8) :=
  (List.range n).map fun i => src.getD (2 * i + k) 0#8

@[simp] theorem length_planeOf (k n : Nat) (src : List (BitVec 8)) : (planeOf k n src).length = n := by
  rw [planeOf, List.length_map, List.length_range]

theorem getD_planeOf (k : Nat) {i : Nat} (hi : i < n) :
    (planeOf k n src).getD i 0#8 = src.getD (2 * i + k) 0#8 := getD_map_range _ _ _ hi _

theorem deinterleaveScalar_eq (he : even.length = n) (ho : odd.length = n) :
    deinterleaveScalar src even odd = (planeOf 0 n src, planeOf 1 n src) := by
  apply Prod.ext
  · apply getD_ext 0#8 (by rw [deinterleaveScalar, List.length_mapIdx, he, length_planeOf])
    intro i hi
    rw [deinterleaveScalar, List.length_mapIdx] at hi
    rw [getD_planeOf 0 (he ▸ hi), deinterleaveScalar, getD_mapIdx_of_lt _ _ _ hi 0#8,
      if_pos (by omega), Nat.add_zero]
  · apply getD_ext 0#8 (by rw [deinterleaveScalar, List.length_mapIdx, ho, length_planeOf])
    intro i hi
    rw [deinterleaveScalar, List.length_mapIdx] at hi
    rw [getD_planeOf 1 (ho ▸ hi), deinterleaveScalar, getD_mapIdx_of_lt _ _ _ hi 0#8,
      if_pos (by omega)]

theorem take_append_planeOf (k : Nat) (src : List (BitVec 8)) {done : Nat} {plane : List (BitVec 8)}
    (hp : plane.length = n) (hdone : done ≤ n)
    (h : ∀ p, p < done → plane.getD p 0#8 = src.getD (2 * p + k) 0#8) :
    plane.take done ++ planeOf k (n - done) (src.drop (done * 2)) = planeOf k n src := by
  apply getD_ext 0#8
  · rw [List.length_append, List.length_take, length_planeOf, length_planeOf, hp]
    omega
  · intro i hi
    rw [List.length_append, List.length_take, length_planeOf, hp] at hi
    rw [getD_take_append (by omega), getD_planeOf (n := n) k (by omega)]
    split_ifs with hlow
    · exact h i hlow
    · rw [getD_planeOf k (by omega), getD_drop]
      congr 1
      omega

/-- The scalar loop completes planes that a vector loop has begun. -/
theorem deinterleaveTail_eq {done : Nat} {planes : List (BitVec 8) × List (BitVec 8)}
    (he : planes.1.length = n) (ho : planes.2.length = n) (hdone : done ≤ n)
    (h : ∀ p, p < done → (planes.1.getD p 0#8, planes.2.getD p 0#8) =
      (src.getD (2 * p) 0#8, src.getD (2 * p + 1) 0#8)) :
    deinterleaveTail done src planes = (planeOf 0 n src, planeOf 1 n src) := by
  simp only [deinterleaveTail]
  rw [deinterleaveScalar_eq (n := n - done) (by rw [List.length_drop, he])
    (by rw [List.length_drop, ho])]
  have heven := take_append_planeOf 0 src he hdone
    (fun p hp => congrArg Prod.fst (h p hp))
  have hodd := take_append_planeOf 1 src ho hdone
    (fun p hp => congrArg Prod.snd (h p hp))
  rw [heven, hodd]

theorem deinterleaveAvx2_eq (he : even.length = n) (ho : odd.length = n) :
    deinterleaveAvx2 src even odd = (planeOf 0 n src, planeOf 1 n src) := by
  have hbatch : even.length / 32 * 32 ≤ even.length := Nat.div_mul_le_self _ _
  obtain ⟨hlen, hread⟩ := foldl_storeu_pair 32 (even.length / 32)
    (fun _ b => permute4x64 0xd8 (packusEpi16 (andSi (loadu src (b * 64)) lowBytes)
      (andSi (loadu src (b * 64 + 32)) lowBytes)))
    (fun _ b => permute4x64 0xd8 (packusEpi16 (srliEpi16 8 (loadu src (b * 64)))
      (srliEpi16 8 (loadu src (b * 64 + 32)))))
    (fun p _ => (src.getD (2 * p) 0#8, src.getD (2 * p + 1) 0#8)) (even, odd) (by rw [ho, he])
    hbatch (by
      intro b _ t _ _ i hi
      rw [byte_permute_packus_low hi, byte_permute_packus_high hi]
      simp only [byte_loadu]
      split_ifs with hlow
      · rw [show b * 64 + 2 * i = 2 * (b * 32 + i) by omega,
          show b * 64 + (2 * i + 1) = 2 * (b * 32 + i) + 1 by omega]
      · rw [show b * 64 + 32 + (2 * i - 32) = 2 * (b * 32 + i) by omega,
          show b * 64 + 32 + (2 * i + 1 - 32) = 2 * (b * 32 + i) + 1 by omega])
  exact deinterleaveTail_eq (hlen.1.trans he) (hlen.2.trans he) (hbatch.trans he.le)
    (fun p hp => (hread p).trans (if_pos hp))

theorem byte_evenMask {a : Reg} {i : Nat} (hi : i < 8) :
    (shuffleEpi8 a evenMask).byte i = a.byte (2 * i) := by
  interval_cases i <;> rfl

theorem byte_oddMask {a : Reg} {i : Nat} (hi : i < 8) :
    (shuffleEpi8 a oddMask).byte i = a.byte (2 * i + 1) := by
  interval_cases i <;> rfl

/-- What four half registers store. -/
def halves (mask p0 p1 p2 p3 : Reg) : Reg :=
  concat 24 (concat 16 (concat 8 (shuffleEpi8 p0 mask) (shuffleEpi8 p1 mask))
    (shuffleEpi8 p2 mask)) (shuffleEpi8 p3 mask)

theorem storelFour_eq (dst : List (BitVec 8)) (off : Nat) (mask p0 p1 p2 p3 : Reg) :
    storelFour dst off mask p0 p1 p2 p3 = storeu 32 dst off (halves mask p0 p1 p2 p3) := by
  simp only [storelFour, storeu_storeu, halves]

/-- Four shuffled registers behind each other hold every second byte of 64. -/
theorem byte_halves {mask : Reg} {k : Nat}
    (hmask : ∀ (a : Reg) i, i < 8 → (shuffleEpi8 a mask).byte i = a.byte (2 * i + k))
    (src : List (BitVec 8)) (b : Nat) {i : Nat} (hi : i < 32) :
    (halves mask (loadu src (b * 64)) (loadu src (b * 64 + 16)) (loadu src (b * 64 + 32))
      (loadu src (b * 64 + 48))).byte i = src.getD (2 * (b * 32 + i) + k) 0#8 := by
  rw [halves, byte_concat, byte_concat, byte_concat]
  split_ifs with h24 h16 h8
  · rw [hmask _ _ h8, byte_loadu]
    congr 1
    omega
  · rw [hmask _ _ (by omega), byte_loadu]
    congr 1
    omega
  · rw [hmask _ _ (by omega), byte_loadu]
    congr 1
    omega
  · rw [hmask _ _ (by omega), byte_loadu]
    congr 1
    omega

theorem deinterleaveSsse3_eq (he : even.length = n) (ho : odd.length = n) :
    deinterleaveSsse3 src even odd = (planeOf 0 n src, planeOf 1 n src) := by
  have hbatch : even.length / 32 * 32 ≤ even.length := Nat.div_mul_le_self _ _
  simp only [deinterleaveSsse3, storelFour_eq]
  obtain ⟨hlen, hread⟩ := foldl_storeu_pair 32 (even.length / 32)
    (fun _ b => halves evenMask (loadu src (b * 64)) (loadu src (b * 64 + 16))
      (loadu src (b * 64 + 32)) (loadu src (b * 64 + 48)))
    (fun _ b => halves oddMask (loadu src (b * 64)) (loadu src (b * 64 + 16))
      (loadu src (b * 64 + 32)) (loadu src (b * 64 + 48)))
    (fun p _ => (src.getD (2 * p) 0#8, src.getD (2 * p + 1) 0#8)) (even, odd) (by rw [ho, he])
    hbatch (fun b _ t _ _ i hi => Prod.ext
      (byte_halves (k := 0) (fun _ _ => byte_evenMask) src b hi)
      (byte_halves (k := 1) (fun _ _ => byte_oddMask) src b hi))
  exact deinterleaveTail_eq (hlen.1.trans he) (hlen.2.trans he) (hbatch.trans he.le)
    (fun p hp => (hread p).trans (if_pos hp))

/-- Every path splits the bytes into the even and the odd ones. -/
theorem deinterleave_eq (paths : LayoutPaths) (src : List (BitVec 8)) (he : even.length = n)
    (ho : odd.length = n) :
    deinterleave paths src even odd = (planeOf 0 n src, planeOf 1 n src) := by
  rw [deinterleave]
  split_ifs
  · exact deinterleaveAvx2_eq he ho
  · exact deinterleaveSsse3_eq he ho
  · exact deinterleaveScalar_eq he ho

end Deinterleave

section Interleave

variable {n : Nat} {even odd dst : List (BitVec 8)} {accumulate : Bool}

/-- Byte `p` of the joined planes. -/
def joinedByte (even odd : List (BitVec 8)) (p : Nat) : BitVec 8 :=
  if p % 2 = 0 then even.getD (p / 2) 0#8 else odd.getD (p / 2) 0#8

/-- The planes joined and merged into the destination. -/
def joined (accumulate : Bool) (even odd dst : List (BitVec 8)) : List (BitVec 8) :=
  dst.mapIdx fun p d => mergeByte accumulate (joinedByte even odd p) d

theorem interleaveScalar_eq (he : even.length = n) (ho : odd.length = n)
    (hd : dst.length = 2 * n) : interleaveScalar accumulate even odd dst =
      joined accumulate even odd dst := by
  apply getD_ext 0#8 (by rw [interleaveScalar, joined, List.length_mapIdx, List.length_mapIdx])
  intro p hp
  rw [interleaveScalar, List.length_mapIdx] at hp
  rw [interleaveScalar, joined, getD_mapIdx_of_lt _ _ _ hp 0#8, getD_mapIdx_of_lt _ _ _ hp 0#8,
    if_pos (by omega), joinedByte]

/-- The scalar loop completes a destination that a vector loop has begun. -/
theorem interleaveTail_eq {done : Nat} {t : List (BitVec 8)} (he : even.length = n)
    (ho : odd.length = n) (hd : dst.length = 2 * n) (hdone : done ≤ n)
    (ht : t.length = dst.length) (h : ∀ p, t.getD p 0#8 =
      if p < done * 2 then mergeByte accumulate (joinedByte even odd p) (dst.getD p 0#8)
      else dst.getD p 0#8) :
    interleaveTail accumulate done even odd t = joined accumulate even odd dst := by
  rw [interleaveTail, interleaveScalar_eq (n := n - done) (by rw [List.length_drop, he])
    (by rw [List.length_drop, ho]) (by rw [List.length_drop, ht]; omega)]
  apply getD_ext 0#8
  · rw [List.length_append, List.length_take, joined, List.length_mapIdx, List.length_drop, joined,
      List.length_mapIdx]
    omega
  · intro p hp
    rw [List.length_append, List.length_take, joined, List.length_mapIdx, List.length_drop] at hp
    rw [getD_take_append (by omega)]
    split_ifs with hlow
    · rw [h p, if_pos hlow, joined, getD_mapIdx_of_lt _ _ _ (by omega) 0#8]
    · have hparity : (p - done * 2) % 2 = p % 2 := by omega
      have hplace : done + (p - done * 2) / 2 = p / 2 := by omega
      rw [joined, joined, getD_mapIdx_of_lt _ _ _ (by rw [List.length_drop]; omega) 0#8,
        getD_mapIdx_of_lt _ _ _ (by omega) 0#8, getD_drop, Nat.add_sub_cancel' (by omega), h p,
        if_neg hlow, joinedByte, joinedByte, getD_drop, getD_drop, hparity, hplace]

/-- A loop that stores the joined bytes 64 at a time, completed by the scalar loop. -/
theorem interleaveTail_foldl_eq (r : List (BitVec 8) → Nat → Reg) (he : even.length = n)
    (ho : odd.length = n) (hd : dst.length = 2 * n)
    (h : ∀ (t : List (BitVec 8)) (b i : Nat), i < 64 → (r t b).byte i =
      mergeByte accumulate (joinedByte even odd (b * 64 + i)) (t.getD (b * 64 + i) 0#8)) :
    interleaveTail accumulate (even.length / 32 * 32) even odd
      ((List.range (even.length / 32)).foldl (fun t b => storeu 64 t (b * 64) (r t b)) dst) =
        joined accumulate even odd dst := by
  have hbatch : even.length / 32 * 32 ≤ even.length := Nat.div_mul_le_self _ _
  obtain ⟨hlen, hread⟩ := foldl_storeu 64 (even.length / 32) r
    (fun p d => mergeByte accumulate (joinedByte even odd p) d) dst (by omega)
    (fun b _ t _ i hi => h t b i hi)
  apply interleaveTail_eq he ho hd (hbatch.trans he.le) hlen
  intro p
  rw [hread p, show even.length / 32 * 64 = even.length / 32 * 32 * 2 by omega]

theorem byte_joined {a b : Reg} (k i : Nat) (ha : a = loadu even k) (hb : b = loadu odd k) :
    (if i % 2 = 0 then a else b).byte (i / 2) = joinedByte even odd (2 * k + i) := by
  have hparity : (2 * k + i) % 2 = i % 2 := by omega
  have hplace : (2 * k + i) / 2 = k + i / 2 := by omega
  rw [joinedByte, hparity, hplace, ha, hb]
  split_ifs
  · rfl
  · rfl

theorem interleaveAvx2_eq (he : even.length = n) (ho : odd.length = n) (hd : dst.length = 2 * n) :
    interleaveAvx2 accumulate even odd dst = joined accumulate even odd dst := by
  simp only [interleaveAvx2, storeu_storeu]
  apply interleaveTail_foldl_eq _ he ho hd
  intro t b i hi
  rw [byte_concat]
  split_ifs with hlow
  · rw [byte_mergeReg, byte_permute_unpack_low hlow, byte_joined (b * 32) i rfl rfl, byte_loadu,
      show 2 * (b * 32) = b * 64 by omega]
  · rw [byte_mergeReg, byte_permute_unpack_high (by omega), byte_loadu,
      show 16 + (i - 32) / 2 = i / 2 by omega, show (i - 32) % 2 = i % 2 by omega,
      byte_joined (b * 32) i rfl rfl, show 2 * (b * 32) = b * 64 by omega,
      show b * 64 + 32 + (i - 32) = b * 64 + i by omega]

/-- What one pair of 16 byte loads stores. -/
def unpacked (accumulate : Bool) (dst : List (BitVec 8)) (off : Nat) (e o : Reg) : Reg :=
  concat 16 (mergeReg accumulate (unpackloEpi8 e o) (loadu dst off))
    (mergeReg accumulate (unpackhiEpi8 e o) (loadu dst (off + 16)))

theorem unpackStore_eq (accumulate : Bool) (dst : List (BitVec 8)) (off : Nat) (e o : Reg) :
    unpackStore accumulate dst off e o = storeu 32 dst off (unpacked accumulate dst off e o) := by
  simp only [unpackStore, storeu_storeu, unpacked]

theorem byte_unpacked (dst : List (BitVec 8)) (off k : Nat) {i : Nat} (hi : i < 32) :
    (unpacked accumulate dst off (loadu even k) (loadu odd k)).byte i =
      mergeByte accumulate (joinedByte even odd (2 * k + i)) (dst.getD (off + i) 0#8) := by
  rw [← byte_joined k i rfl rfl, ← byte_concat_unpack hi, unpacked, byte_concat, byte_concat]
  split_ifs with hlow
  · rw [byte_mergeReg, byte_loadu]
  · rw [byte_mergeReg, byte_loadu, show off + 16 + (i - 16) = off + i by omega]

/-- The second half of a batch does not see the stores of the first. -/
theorem unpacked_storeu (off : Nat) (v e o : Reg) :
    unpacked accumulate (storeu 32 dst off v) (off + 32) e o =
      unpacked accumulate dst (off + 32) e o := by
  rw [unpacked, unpacked, loadu_storeu _ _ _ _ (by omega), loadu_storeu _ _ _ _ (by omega)]

theorem interleaveSsse3_eq (he : even.length = n) (ho : odd.length = n) (hd : dst.length = 2 * n) :
    interleaveSsse3 accumulate even odd dst = joined accumulate even odd dst := by
  simp only [interleaveSsse3, unpackStore_eq, unpacked_storeu, storeu_storeu]
  apply interleaveTail_foldl_eq _ he ho hd
  intro t b i hi
  rw [byte_concat]
  split_ifs with hlow
  · rw [byte_unpacked _ _ _ hlow, show 2 * (b * 32) = b * 64 by omega]
  · rw [byte_unpacked _ _ _ (by omega), show 2 * (b * 32 + 16) + (i - 32) = b * 64 + i by omega,
      show b * 64 + 32 + (i - 32) = b * 64 + i by omega]

/-- Every path joins the planes. -/
theorem interleave_eq (paths : LayoutPaths) (accumulate : Bool) {even odd dst : List (BitVec 8)}
    (he : even.length = n) (ho : odd.length = n) (hd : dst.length = 2 * n) :
    interleave paths accumulate even odd dst = joined accumulate even odd dst := by
  rw [interleave]
  split_ifs
  · exact interleaveAvx2_eq he ho hd
  · exact interleaveSsse3_eq he ho hd
  · exact interleaveScalar_eq he ho hd

end Interleave

section Products

/-- The byte slice operations of the active backend, elementwise on slices of one length. -/
structure ByteSlices where
  mulSlice : BitVec 8 → List (BitVec 8) → List (BitVec 8) → List (BitVec 8)
  mulSliceXor : BitVec 8 → List (BitVec 8) → List (BitVec 8) → List (BitVec 8)
  mulSlice_eq : ∀ c input out, input.length = out.length →
    mulSlice c input out = input.map (Galois8.mul c)
  mulSliceXor_eq : ∀ c input out, input.length = out.length →
    mulSliceXor c input out = List.zipWith (fun o i => o ^^^ Galois8.mul c i) out input

def gf16Chunk : Nat := 1024

structure BytePlanes where
  ax : List (BitVec 8)
  ac : List (BitVec 8)
  ox : List (BitVec 8)
  oc : List (BitVec 8)

/-- Run on the first `n` cells of a plane. -/
def onPrefix (n : Nat) (f : List (BitVec 8) → List (BitVec 8)) (plane : List (BitVec 8)) :
    List (BitVec 8) := f (plane.take n) ++ plane.drop n

/-- One chunk of `gf16_mul_general`: split, four plane products, join. -/
def generalChunk (paths : LayoutPaths) (gf8 : ByteSlices) (accumulate : Bool) (k : Coefficients)
    (input : List Element) (st : BytePlanes × List Element) (window : Nat × Nat) :
    BytePlanes × List Element :=
  let n := window.2 - window.1
  let src := asFlattened (slice input window.1 window.2)
  let split := deinterleave paths src (st.1.ax.take n) (st.1.ac.take n)
  let ax := split.1 ++ st.1.ax.drop n
  let ac := split.2 ++ st.1.ac.drop n
  let ox := onPrefix n (gf8.mulSlice k.a (ax.take n)) st.1.ox
  let ox := onPrefix n (gf8.mulSliceXor k.b (ac.take n)) ox
  let oc := onPrefix n (gf8.mulSlice k.c (ax.take n)) st.1.oc
  let oc := onPrefix n (gf8.mulSliceXor k.d (ac.take n)) oc
  let joined := interleave paths accumulate (ox.take n) (oc.take n)
    (asFlattened (slice st.2 window.1 window.2))
  (⟨ax, ac, ox, oc⟩, overwrite window.1 (ofFlattened joined) st.2)

def gf16MulGeneral (paths : LayoutPaths) (gf8 : ByteSlices) (accumulate : Bool) (elem : Element)
    (input out : List Element) : List Element :=
  let plane := List.replicate gf16Chunk 0#8
  ((chunkRanges input.length gf16Chunk).foldl
    (generalChunk paths gf8 accumulate (towerMulCoefficients elem) input)
    (⟨plane, plane, plane, plane⟩, out)).2

def towerScalarTail (k : Coefficients) (accumulate : Bool) (input out : List Element) :
    List Element :=
  List.zipWith (fun output input =>
    let product : Element := ⟨Galois8.mul k.a input.ax ^^^ Galois8.mul k.b input.ac,
      Galois8.mul k.c input.ax ^^^ Galois8.mul k.d input.ac⟩
    if accumulate then ⟨output.ax ^^^ product.ax, output.ac ^^^ product.ac⟩ else product) out input

/-- `gfni_avx2_tower_impl` with vectors of 16 elements, `gfni_avx512_tower_impl` with 32. -/
def gfniTowerImpl (elements : Nat) (k : Coefficients) (accumulate : Bool)
    (input out : List Element) : List Element :=
  let a := Galois8.gfniMultiplyMatrix k.a
  let b := Galois8.gfniMultiplyMatrix k.b
  let c := Galois8.gfniMultiplyMatrix k.c
  let d := Galois8.gfniMultiplyMatrix k.d
  let done := input.length / elements * elements
  let src := asFlattened (input.take done)
  let dst := (List.range (input.length / elements)).foldl (fun dst j =>
    let packed := planarProduct a b c d (loadu src (j * (2 * elements)))
    storeu (2 * elements) dst (j * (2 * elements))
      (mergeReg accumulate packed (loadu dst (j * (2 * elements))))) (asFlattened (out.take done))
  ofFlattened dst ++ towerScalarTail k accumulate (input.drop done) (out.drop done)

/-- The elements in a vector of the fused kernel, for the backends that have one. -/
def selectNativeTowerMultiply : Galois8.BackendId → Option Nat
  | .rustGfniAvx2 => some 16
  | .rustGfniAvx512 => some 32
  | _ => none

def avx2LayoutAllowed (backend : Galois8.BackendId) (cpuHasAvx2 : Bool) : Bool :=
  cpuHasAvx2 && match backend with
    | .scalarRust | .rustAvx2 | .rustAvx512 | .rustGfniAvx2 | .rustGfniAvx512 => true
    | _ => false

/-- What a machine runs the tower products with. -/
structure TowerMachine where
  backend : Galois8.BackendId
  gf8 : ByteSlices
  cpuHasAvx2 : Bool
  cpuHasSsse3 : Bool

def TowerMachine.layout (machine : TowerMachine) : LayoutPaths where
  avx2Layout := avx2LayoutAllowed machine.backend machine.cpuHasAvx2
  ssse3 := machine.cpuHasSsse3

/-- `gf16_mul_slice` on slices of one length. -/
def gf16MulSlice (machine : TowerMachine) (accumulate : Bool) (elem : Element)
    (input out : List Element) : List Element :=
  if elem.ax = 0#8 then
    if accumulate then
      ofFlattened (machine.gf8.mulSliceXor elem.ac (asFlattened input) (asFlattened out))
    else ofFlattened (machine.gf8.mulSlice elem.ac (asFlattened input) (asFlattened out))
  else if input.isEmpty then out
  else
    match selectNativeTowerMultiply machine.backend with
    | some elements => gfniTowerImpl elements (towerMulCoefficients elem) accumulate input out
    | none => gf16MulGeneral machine.layout machine.gf8 accumulate elem input out

/-- `Field::mul_slice`. -/
def mulSlice (machine : TowerMachine) (elem : Element) (input out : List Element) : List Element :=
  gf16MulSlice machine false elem input out

/-- `Field::mul_slice_add`. -/
def mulSliceAdd (machine : TowerMachine) (elem : Element) (input out : List Element) :
    List Element :=
  gf16MulSlice machine true elem input out

end Products

section Flattened

@[simp] theorem length_asFlattened (xs : List Element) : (asFlattened xs).length = 2 * xs.length :=
  elementCode.length_flatten xs

@[simp] theorem length_ofFlattened (bytes : List (BitVec 8)) :
    (ofFlattened bytes).length = bytes.length / 2 := elementCode.length_unflatten bytes

theorem getD_asFlattened_even (xs : List Element) (i : Nat) :
    (asFlattened xs).getD (2 * i) 0#8 = (xs.getD i Element.zero).ax :=
  elementCode.getD_flatten_even xs i

theorem getD_asFlattened_odd (xs : List Element) (i : Nat) :
    (asFlattened xs).getD (2 * i + 1) 0#8 = (xs.getD i Element.zero).ac :=
  elementCode.getD_flatten_odd xs i

theorem getD_ofFlattened {bytes : List (BitVec 8)} {i : Nat} (hi : i < bytes.length / 2) :
    (ofFlattened bytes).getD i Element.zero =
      ⟨bytes.getD (2 * i) 0#8, bytes.getD (2 * i + 1) 0#8⟩ := elementCode.getD_unflatten hi

end Flattened

section Elements

/-- What a product leaves where `old` stood. -/
def mergeElement (accumulate : Bool) (value old : Element) : Element :=
  if accumulate then old.add value else value

theorem mergeElement_eq (accumulate : Bool) (value old : Element) :
    mergeElement accumulate value old =
      ⟨mergeByte accumulate value.ax old.ax, mergeByte accumulate value.ac old.ac⟩ := by
  cases accumulate
  · rfl
  · rfl

/-- The tower product as two rows of byte products. -/
theorem mul_eq_coefficients (elem x : Element) : elem.mul x =
    ⟨Galois8.mul (towerMulCoefficients elem).a x.ax ^^^ Galois8.mul (towerMulCoefficients elem).b x.ac,
      Galois8.mul (towerMulCoefficients elem).c x.ax ^^^
        Galois8.mul (towerMulCoefficients elem).d x.ac⟩ := by
  rw [Element.mul, reduceFrom_eq, towerMulCoefficients, Element.mk.injEq]
  constructor
  · apply byte_inj
    simp only [byte_xor, byte_mul, Matrix.cons_val]
    ring
  · apply byte_inj
    simp only [byte_xor, byte_mul, Matrix.cons_val]
    ring

/-- A constant scales both coordinates. -/
theorem mul_of_ax_eq_zero {elem : Element} (h : elem.ax = 0#8) (x : Element) :
    elem.mul x = ⟨Galois8.mul elem.ac x.ax, Galois8.mul elem.ac x.ac⟩ := by
  rw [mul_eq_coefficients, towerMulCoefficients, Element.mk.injEq]
  constructor
  · apply byte_inj
    simp only [byte_xor, byte_mul, h, byte_zero]
    ring
  · apply byte_inj
    simp only [byte_xor, byte_mul, h, byte_zero]
    ring

/-- The elements after a product by `elem`, position by position. -/
def merged (accumulate : Bool) (elem : Element) (input out : List Element) : List Element :=
  List.zipWith (fun o i => mergeElement accumulate (elem.mul i) o) out input

theorem length_merged {accumulate : Bool} {elem : Element} {input out : List Element}
    (h : input.length = out.length) : (merged accumulate elem input out).length = out.length := by
  rw [merged, List.length_zipWith, h, min_self]

theorem getD_merged {accumulate : Bool} {elem : Element} {input out : List Element} {i : Nat}
    (h : input.length = out.length) (hi : i < out.length) :
    (merged accumulate elem input out).getD i Element.zero = mergeElement accumulate
      (elem.mul (input.getD i Element.zero)) (out.getD i Element.zero) :=
  getD_zipWith _ _ _ _ hi (h ▸ hi) _ _ _

theorem merged_false {elem : Element} {input out : List Element} (h : input.length = out.length) :
    merged false elem input out = input.map elem.mul := by
  apply getD_ext Element.zero (by rw [length_merged h, List.length_map, h])
  intro i hi
  rw [length_merged h] at hi
  rw [getD_merged h hi, getD_map_of_lt _ _ _ (h ▸ hi) Element.zero]
  rfl

theorem merged_true (elem : Element) (input out : List Element) :
    merged true elem input out = List.zipWith (fun o i => o.add (elem.mul i)) out input := rfl

/-- Bytes that are merged as the coordinates of the products make up the merged elements. -/
theorem ofFlattened_eq_merged (accumulate : Bool) (elem : Element) {input out : List Element}
    {bytes : List (BitVec 8)} (h : input.length = out.length) (hlen : bytes.length = 2 * out.length)
    (heven : ∀ i, i < out.length → bytes.getD (2 * i) 0#8 = mergeByte accumulate
      (elem.mul (input.getD i Element.zero)).ax (out.getD i Element.zero).ax)
    (hodd : ∀ i, i < out.length → bytes.getD (2 * i + 1) 0#8 = mergeByte accumulate
      (elem.mul (input.getD i Element.zero)).ac (out.getD i Element.zero).ac) :
    ofFlattened bytes = merged accumulate elem input out := by
  apply getD_ext Element.zero
  · rw [length_ofFlattened, length_merged h, hlen]
    omega
  · intro i hi
    rw [length_ofFlattened] at hi
    rw [getD_ofFlattened hi, getD_merged h (by omega), mergeElement_eq, heven i (by omega),
      hodd i (by omega)]

end Elements

section Shortcut

variable {elem : Element} {input out : List Element}

theorem mulSlice_flattened (gf8 : ByteSlices) (hax : elem.ax = 0#8)
    (h : input.length = out.length) :
    ofFlattened (gf8.mulSlice elem.ac (asFlattened input) (asFlattened out)) =
      merged false elem input out := by
  have hlen : (asFlattened input).length = 2 * input.length := length_asFlattened input
  rw [gf8.mulSlice_eq _ _ _ (by rw [length_asFlattened, length_asFlattened, h])]
  apply ofFlattened_eq_merged _ _ h (by rw [List.length_map, hlen, h])
  · intro i hi
    rw [getD_map_of_lt _ _ _ (by omega) 0#8, getD_asFlattened_even, mul_of_ax_eq_zero hax]
    rfl
  · intro i hi
    rw [getD_map_of_lt _ _ _ (by omega) 0#8, getD_asFlattened_odd, mul_of_ax_eq_zero hax]
    rfl

theorem mulSliceXor_flattened (gf8 : ByteSlices) (hax : elem.ax = 0#8)
    (h : input.length = out.length) :
    ofFlattened (gf8.mulSliceXor elem.ac (asFlattened input) (asFlattened out)) =
      merged true elem input out := by
  have hlen : (asFlattened input).length = 2 * input.length := length_asFlattened input
  have hout : (asFlattened out).length = 2 * out.length := length_asFlattened out
  rw [gf8.mulSliceXor_eq _ _ _ (by rw [hlen, hout, h])]
  apply ofFlattened_eq_merged _ _ h (by rw [List.length_zipWith, hlen, hout, h, min_self])
  · intro i hi
    rw [getD_zipWith _ _ _ _ (by omega) (by omega) 0#8 0#8, getD_asFlattened_even,
      getD_asFlattened_even, mul_of_ax_eq_zero hax]
    rfl
  · intro i hi
    rw [getD_zipWith _ _ _ _ (by omega) (by omega) 0#8 0#8, getD_asFlattened_odd,
      getD_asFlattened_odd, mul_of_ax_eq_zero hax]
    rfl

end Shortcut

section Fused

variable {elem : Element} {accumulate : Bool} {input out : List Element}

theorem towerScalarTail_eq (elem : Element) (accumulate : Bool) (input out : List Element) :
    towerScalarTail (towerMulCoefficients elem) accumulate input out =
      merged accumulate elem input out := by
  simp only [towerScalarTail, merged, mul_eq_coefficients elem, mergeElement, Element.add]

/-- Byte `p` of the products. -/
def productByte (elem : Element) (input : List Element) (p : Nat) : BitVec 8 :=
  if p % 2 = 0 then (elem.mul (input.getD (p / 2) Element.zero)).ax
  else (elem.mul (input.getD (p / 2) Element.zero)).ac

/-- The fused instructions multiply the elements of a vector that starts at a whole element. -/
theorem byte_fused (elem : Element) (xs : List Element) (off i : Nat) :
    (planarProduct (Galois8.gfniMultiplyMatrix (towerMulCoefficients elem).a)
      (Galois8.gfniMultiplyMatrix (towerMulCoefficients elem).b)
      (Galois8.gfniMultiplyMatrix (towerMulCoefficients elem).c)
      (Galois8.gfniMultiplyMatrix (towerMulCoefficients elem).d)
      (loadu (asFlattened xs) (2 * off))).byte i = productByte elem xs (2 * off + i) := by
  simp only [byte_planarProduct, Galois8.affineByte_gfniMultiplyMatrix, byte_loadu, productByte,
    mul_eq_coefficients elem]
  generalize hk : (2 * off + i) / 2 = k
  rcases Nat.mod_two_eq_zero_or_one i with hi | hi
  · have hax : (asFlattened xs).getD (2 * off + i) 0#8 = (xs.getD k Element.zero).ax := by
      rw [show 2 * off + i = 2 * k by omega, getD_asFlattened_even]
    have hac : (asFlattened xs).getD (2 * off + (i + 1)) 0#8 = (xs.getD k Element.zero).ac := by
      rw [show 2 * off + (i + 1) = 2 * k + 1 by omega, getD_asFlattened_odd]
    rw [if_pos hi, if_pos (by omega), hax, hac]
  · have hax : (asFlattened xs).getD (2 * off + (i - 1)) 0#8 = (xs.getD k Element.zero).ax := by
      rw [show 2 * off + (i - 1) = 2 * k by omega, getD_asFlattened_even]
    have hac : (asFlattened xs).getD (2 * off + i) 0#8 = (xs.getD k Element.zero).ac := by
      rw [show 2 * off + i = 2 * k + 1 by omega, getD_asFlattened_odd]
    rw [if_neg (by omega), if_neg (by omega), hax, hac]

theorem productByte_even (elem : Element) (xs : List Element) (i : Nat) :
    productByte elem xs (2 * i) = (elem.mul (xs.getD i Element.zero)).ax := by
  rw [productByte, if_pos (by omega), show 2 * i / 2 = i by omega]

theorem productByte_odd (elem : Element) (xs : List Element) (i : Nat) :
    productByte elem xs (2 * i + 1) = (elem.mul (xs.getD i Element.zero)).ac := by
  rw [productByte, if_neg (by omega), show (2 * i + 1) / 2 = i by omega]

/-- Whole vectors and a scalar tail, for vectors of any number of elements. -/
theorem gfniTowerImpl_eq (elements : Nat) (h : input.length = out.length) :
    gfniTowerImpl elements (towerMulCoefficients elem) accumulate input out =
      merged accumulate elem input out := by
  have hdone : input.length / elements * elements ≤ input.length := Nat.div_mul_le_self _ _
  simp only [gfniTowerImpl]
  generalize hk : input.length / elements = vectors at hdone ⊢
  have hin : (input.take (vectors * elements)).length = vectors * elements := by
    rw [List.length_take, min_eq_left hdone]
  have hout : (out.take (vectors * elements)).length = vectors * elements := by
    rw [List.length_take, min_eq_left (h ▸ hdone)]
  have hwide : vectors * (2 * elements) = 2 * (vectors * elements) := Nat.mul_left_comm _ _ _
  obtain ⟨hlen, hread⟩ := foldl_storeu (2 * elements) vectors
    (fun t j => mergeReg accumulate (planarProduct
        (Galois8.gfniMultiplyMatrix (towerMulCoefficients elem).a)
        (Galois8.gfniMultiplyMatrix (towerMulCoefficients elem).b)
        (Galois8.gfniMultiplyMatrix (towerMulCoefficients elem).c)
        (Galois8.gfniMultiplyMatrix (towerMulCoefficients elem).d)
        (loadu (asFlattened (input.take (vectors * elements))) (j * (2 * elements))))
      (loadu t (j * (2 * elements))))
    (fun p d => mergeByte accumulate (productByte elem (input.take (vectors * elements)) p) d)
    (asFlattened (out.take (vectors * elements))) (by rw [length_asFlattened, hout, hwide]) (by
      intro j _ t _ i _
      rw [byte_mergeReg, show j * (2 * elements) = 2 * (j * elements) by ring, byte_fused,
        byte_loadu])
  rw [length_asFlattened, hout] at hlen
  have hfused := ofFlattened_eq_merged accumulate elem
    (hin.trans hout.symm) (hlen.trans (by rw [hout]))
    (fun i hi => by
      rw [hread, if_pos (by omega), productByte_even, getD_asFlattened_even])
    (fun i hi => by
      rw [hread, if_pos (by omega), productByte_odd, getD_asFlattened_odd])
  rw [hfused, towerScalarTail_eq, merged, merged, merged, ← List.zipWith_append (by rw [hin, hout]),
    List.take_append_drop, List.take_append_drop]

end Fused

section General

/-- All planes have the size of a chunk. -/
structure BytePlanes.Sized (planes : BytePlanes) : Prop where
  length_ax : planes.ax.length = gf16Chunk
  length_ac : planes.ac.length = gf16Chunk
  length_ox : planes.ox.length = gf16Chunk
  length_oc : planes.oc.length = gf16Chunk

variable {n : Nat}

theorem take_onPrefix {f : List (BitVec 8) → List (BitVec 8)} {plane : List (BitVec 8)}
    (h : (f (plane.take n)).length = n) : (onPrefix n f plane).take n = f (plane.take n) := by
  rw [onPrefix, List.take_left' h]

theorem length_onPrefix {f : List (BitVec 8) → List (BitVec 8)} {plane : List (BitVec 8)}
    (h : (f (plane.take n)).length = n) (hn : n ≤ plane.length) :
    (onPrefix n f plane).length = plane.length := by
  rw [onPrefix, List.length_append, h, List.length_drop]
  omega

/-- A row of the product: one plane scaled into the output plane, the other one added. -/
def planeRow (gf8 : ByteSlices) (n : Nat) (c d : BitVec 8) (x y plane : List (BitVec 8)) :
    List (BitVec 8) :=
  onPrefix n (gf8.mulSliceXor d y) (onPrefix n (gf8.mulSlice c x) plane)

/-- The row overwrites whatever an earlier chunk left in the plane. -/
theorem planeRow_spec (gf8 : ByteSlices) (c d : BitVec 8) (plane : List (BitVec 8))
    {x y : List (BitVec 8)}
    (hx : x.length = n) (hy : y.length = n) (hn : n ≤ plane.length) :
    (planeRow gf8 n c d x y plane).length = plane.length ∧
      ((planeRow gf8 n c d x y plane).take n).length = n ∧
      ∀ i, i < n → ((planeRow gf8 n c d x y plane).take n).getD i 0#8 =
        Galois8.mul c (x.getD i 0#8) ^^^ Galois8.mul d (y.getD i 0#8) := by
  have htake : (plane.take n).length = n := by rw [List.length_take, min_eq_left hn]
  have hscale : gf8.mulSlice c x (plane.take n) = x.map (Galois8.mul c) :=
    gf8.mulSlice_eq _ _ _ (hx.trans htake.symm)
  have hscaled : (gf8.mulSlice c x (plane.take n)).length = n := by
    rw [hscale, List.length_map, hx]
  have hfirst := take_onPrefix hscaled
  have hlen := length_onPrefix hscaled hn
  have hadd : gf8.mulSliceXor d y ((onPrefix n (gf8.mulSlice c x) plane).take n) =
      List.zipWith (fun o i => o ^^^ Galois8.mul d i) (x.map (Galois8.mul c)) y := by
    rw [hfirst, hscale]
    exact gf8.mulSliceXor_eq _ _ _ (by rw [List.length_map, hx, hy])
  have hadded : (gf8.mulSliceXor d y ((onPrefix n (gf8.mulSlice c x) plane).take n)).length = n := by
    rw [hadd, List.length_zipWith, List.length_map, hx, hy, min_self]
  have hrow := take_onPrefix hadded
  refine ⟨(length_onPrefix hadded (hlen.symm ▸ hn)).trans hlen, by rw [planeRow, hrow, hadded], ?_⟩
  intro i hi
  rw [planeRow, hrow, hadd, getD_zipWith _ _ _ _ (by rw [List.length_map, hx]; exact hi)
    (hy.symm ▸ hi) 0#8 0#8, getD_map_of_lt _ _ _ (hx.symm ▸ hi) 0#8]

/-- The joined rows of the products, merged into a destination of the same elements. -/
theorem ofFlattened_joined (accumulate : Bool) (elem : Element) {input out : List Element}
    {ox oc : List (BitVec 8)} (h : input.length = out.length)
    (hx : ∀ i, i < input.length → ox.getD i 0#8 = (elem.mul (input.getD i Element.zero)).ax)
    (hc : ∀ i, i < input.length → oc.getD i 0#8 = (elem.mul (input.getD i Element.zero)).ac) :
    ofFlattened (joined accumulate ox oc (asFlattened out)) = merged accumulate elem input out := by
  have hout : (asFlattened out).length = 2 * out.length := length_asFlattened out
  apply ofFlattened_eq_merged _ _ h (by rw [joined, List.length_mapIdx, hout])
  · intro i hi
    rw [joined, getD_mapIdx_of_lt _ _ _ (by omega) 0#8, getD_asFlattened_even, joinedByte,
      if_pos (by omega), show 2 * i / 2 = i by omega, hx i (h ▸ hi)]
  · intro i hi
    rw [joined, getD_mapIdx_of_lt _ _ _ (by omega) 0#8, getD_asFlattened_odd, joinedByte,
      if_neg (by omega), show (2 * i + 1) / 2 = i by omega, hc i (h ▸ hi)]

variable (paths : LayoutPaths) (gf8 : ByteSlices) (accumulate : Bool) (elem : Element)
  {input : List Element}

/-- A chunk merges the products of its own window, whatever the planes held before. -/
theorem generalChunk_spec {st : BytePlanes × List Element} {start stop : Nat} (hst : st.1.Sized)
    (hout : st.2.length = input.length) (hlt : start < stop) (hstop : stop ≤ input.length)
    (hsize : stop ≤ start + gf16Chunk) :
    (generalChunk paths gf8 accumulate (towerMulCoefficients elem) input st (start, stop)).1.Sized ∧
    (generalChunk paths gf8 accumulate (towerMulCoefficients elem) input st (start, stop)).2 =
      overwrite start (merged accumulate elem (slice input start stop) (slice st.2 start stop))
        st.2 := by
  have hn : stop - start ≤ gf16Chunk := by omega
  have hinput := length_slice input start stop hstop
  have houtput := length_slice st.2 start stop (hout.symm ▸ hstop)
  have htake (plane : List (BitVec 8)) (h : plane.length = gf16Chunk) :
      (plane.take (stop - start)).length = stop - start := by
    rw [List.length_take, h, min_eq_left hn]
  have hsplit := deinterleave_eq paths (asFlattened (slice input start stop))
    (htake _ hst.length_ax) (htake _ hst.length_ac)
  have hax (i : Nat) (hi : i < stop - start) :
      (planeOf 0 (stop - start) (asFlattened (slice input start stop))).getD i 0#8 =
        ((slice input start stop).getD i Element.zero).ax := by
    rw [getD_planeOf 0 hi, Nat.add_zero, getD_asFlattened_even]
  have hac (i : Nat) (hi : i < stop - start) :
      (planeOf 1 (stop - start) (asFlattened (slice input start stop))).getD i 0#8 =
        ((slice input start stop).getD i Element.zero).ac := by
    rw [getD_planeOf 1 hi, getD_asFlattened_odd]
  obtain ⟨hlx, htx, hx⟩ := planeRow_spec gf8 (towerMulCoefficients elem).a
    (towerMulCoefficients elem).b st.1.ox
    (length_planeOf 0 (stop - start) (asFlattened (slice input start stop)))
    (length_planeOf 1 (stop - start) (asFlattened (slice input start stop)))
    (by rw [hst.length_ox]; exact hn)
  obtain ⟨hlc, htc, hc⟩ := planeRow_spec gf8 (towerMulCoefficients elem).c
    (towerMulCoefficients elem).d st.1.oc
    (length_planeOf 0 (stop - start) (asFlattened (slice input start stop)))
    (length_planeOf 1 (stop - start) (asFlattened (slice input start stop)))
    (by rw [hst.length_oc]; exact hn)
  have hdst : (asFlattened (slice st.2 start stop)).length = 2 * (stop - start) := by
    rw [length_asFlattened, houtput]
  have hjoin := interleave_eq paths accumulate htx htc hdst
  have hmerge := ofFlattened_joined accumulate elem
    (hinput.trans houtput.symm)
    (fun i hi => by
      rw [hx i (hinput ▸ hi), hax i (hinput ▸ hi), hac i (hinput ▸ hi), mul_eq_coefficients elem])
    (fun i hi => by
      rw [hc i (hinput ▸ hi), hax i (hinput ▸ hi), hac i (hinput ▸ hi), mul_eq_coefficients elem])
  have hkeep (k : Nat) (plane : List (BitVec 8)) :
      (planeOf k (stop - start) (asFlattened (slice input start stop)) ++
        plane.drop (stop - start)).take (stop - start) =
          planeOf k (stop - start) (asFlattened (slice input start stop)) :=
    List.take_left' (length_planeOf _ _ _)
  simp only [generalChunk, hsplit, hkeep]
  refine ⟨⟨?_, ?_, hlx.trans hst.length_ox, hlc.trans hst.length_oc⟩, ?_⟩
  · rw [List.length_append, length_planeOf, List.length_drop, hst.length_ax]
    omega
  · rw [List.length_append, length_planeOf, List.length_drop, hst.length_ac]
    omega
  · exact congrArg (fun xs => overwrite start xs st.2) ((congrArg ofFlattened hjoin).trans hmerge)

theorem gf16MulGeneral_eq {out : List Element} (h : input.length = out.length) :
    gf16MulGeneral paths gf8 accumulate elem input out = merged accumulate elem input out := by
  have hplane : (List.replicate gf16Chunk 0#8).length = gf16Chunk := List.length_replicate
  obtain ⟨_, hlen, hread⟩ := @foldl_chunkRanges _ input.length gf16Chunk (by decide)
    (fun pos (st : BytePlanes × List Element) => st.1.Sized ∧ st.2.length = out.length ∧
      ∀ p, st.2.getD p Element.zero =
        if p < pos then (merged accumulate elem input out).getD p Element.zero
        else out.getD p Element.zero)
    (generalChunk paths gf8 accumulate (towerMulCoefficients elem) input)
    (⟨List.replicate gf16Chunk 0#8, List.replicate gf16Chunk 0#8, List.replicate gf16Chunk 0#8,
      List.replicate gf16Chunk 0#8⟩, out)
    ⟨⟨hplane, hplane, hplane, hplane⟩, rfl, fun p => by rw [if_neg (Nat.not_lt_zero p)]⟩ (by
      intro start stop hlt hstop hsize st ht
      obtain ⟨hst, hlen, hread⟩ := ht
      obtain ⟨hsized, hstep⟩ := generalChunk_spec paths gf8 accumulate elem hst
        (hlen.trans h.symm) hlt hstop hsize
      have hwin := length_slice st.2 start stop (by rw [hlen, ← h]; exact hstop)
      have hwindow := (length_slice input start stop hstop).trans hwin.symm
      refine ⟨hsized, by rw [hstep, length_overwrite, hlen], fun p => ?_⟩
      rw [hstep, getD_overwrite, length_merged hwindow, hwin]
      by_cases hin : start ≤ p ∧ p < stop
      · rw [if_pos (by omega), if_pos hin.2, getD_merged hwindow (by omega),
          getD_merged h (by omega), getD_slice _ _ _ _ (by omega), getD_slice _ _ _ _ (by omega),
          Nat.add_sub_cancel' hin.1, hread p, if_neg (by omega)]
      · rw [if_neg (by omega), hread p]
        by_cases hlow : p < start
        · rw [if_pos hlow, if_pos (by omega)]
        · rw [if_neg hlow, if_neg (by omega)])
  apply getD_ext Element.zero
  · exact hlen.trans (length_merged h).symm
  · intro p hp
    have hp' : p < input.length := by
      rw [h, ← hlen]
      exact hp
    exact (hread p).trans (if_pos hp')

end General

section Exact

theorem gf16MulSlice_eq (machine : TowerMachine) (accumulate : Bool) (elem : Element)
    {input out : List Element} (h : input.length = out.length) :
    gf16MulSlice machine accumulate elem input out = merged accumulate elem input out := by
  rw [gf16MulSlice]
  split_ifs with hax hacc hempty
  · rw [mulSliceXor_flattened _ hax h, hacc]
  · rw [mulSlice_flattened _ hax h, Bool.eq_false_iff.mpr hacc]
  · have hnil : input = [] := List.isEmpty_iff.mp hempty
    subst hnil
    rw [List.length_eq_zero_iff.mp h.symm]
    rfl
  · cases selectNativeTowerMultiply machine.backend with
    | none => exact gf16MulGeneral_eq _ _ _ _ h
    | some elements => exact gfniTowerImpl_eq elements h

theorem mulSlice_eq (machine : TowerMachine) (elem : Element) {input out : List Element}
    (h : input.length = out.length) : mulSlice machine elem input out = input.map elem.mul := by
  rw [mulSlice, gf16MulSlice_eq _ _ _ h, merged_false h]

theorem mulSliceAdd_eq (machine : TowerMachine) (elem : Element) {input out : List Element}
    (h : input.length = out.length) : mulSliceAdd machine elem input out =
      List.zipWith (fun o i => o.add (elem.mul i)) out input := by
  rw [mulSliceAdd, gf16MulSlice_eq _ _ _ h, merged_true]

/-- Every path of a tower slice product computes the elementwise field products. -/
theorem tower_slice_products_exact (machine : TowerMachine) (elem : Element)
    {input out : List Element} (h : input.length = out.length) :
    mulSlice machine elem input out = input.map (fun i => elem.mul i) ∧
      mulSliceAdd machine elem input out =
        List.zipWith (fun o i => o.add (elem.mul i)) out input :=
  ⟨mulSlice_eq machine elem h, mulSliceAdd_eq machine elem h⟩

/-- The portable byte loops. -/
def scalarByteSlices : ByteSlices where
  mulSlice := Galois8.mulSlicePureRust
  mulSliceXor := Galois8.mulSliceXorPureRust
  mulSlice_eq := Galois8.mulSlicePureRust_eq
  mulSliceXor_eq := Galois8.mulSliceXorPureRust_eq

theorem tower_slice_products_exact_wide :
    (List.replicate 2049 (⟨3#8, 5#8⟩ : Element)).length =
        (List.replicate 2049 Element.zero).length ∧
      mulSlice ⟨.rustGfniAvx512, scalarByteSlices, true, true⟩ ⟨7#8, 1#8⟩
          (List.replicate 2049 ⟨3#8, 5#8⟩) (List.replicate 2049 Element.zero) =
        (List.replicate 2049 ⟨3#8, 5#8⟩).map (fun i => (⟨7#8, 1#8⟩ : Element).mul i) ∧
      mulSliceAdd ⟨.scalarRust, scalarByteSlices, true, true⟩ ⟨7#8, 1#8⟩
          (List.replicate 2049 ⟨3#8, 5#8⟩) (List.replicate 2049 Element.zero) =
        List.zipWith (fun o i => o.add ((⟨7#8, 1#8⟩ : Element).mul i))
          (List.replicate 2049 Element.zero) (List.replicate 2049 ⟨3#8, 5#8⟩) := by
  have h : (List.replicate 2049 (⟨3#8, 5#8⟩ : Element)).length =
      (List.replicate 2049 Element.zero).length := by
    rw [List.length_replicate, List.length_replicate]
  exact ⟨h, (tower_slice_products_exact _ _ h).1, (tower_slice_products_exact _ _ h).2⟩

end Exact

section Elements

def nthInternal (n : Nat) : Element := ⟨BitVec.ofNat 8 (n >>> 8), BitVec.ofNat 8 n⟩

theorem nthInternal_inj {m n : Nat} (hm : m < Element.order) (hn : n < Element.order)
    (h : nthInternal m = nthInternal n) : m = n := by
  have hax := congrArg (fun e => e.ax.toNat) h
  have hac := congrArg (fun e => e.ac.toNat) h
  simp only [nthInternal, BitVec.toNat_ofNat, Nat.shiftRight_eq_div_pow] at hax hac
  rw [Element.order] at hm hn
  omega

end Elements

end Galois16

/-- The tower field of `galois_16`, with the slice products of a machine. -/
def Galois16 (_machine : Galois16.TowerMachine) : Type := Galois16.Element

section Instances

variable {machine : Galois16.TowerMachine}

instance : DecidableEq (Galois16 machine) := inferInstanceAs (DecidableEq Galois16.Element)

theorem towerOrder_lt : Galois16.Element.order < usizeLimit := by decide

instance : CodecField (Galois16 machine) where
  order := Galois16.Element.order
  order_lt := towerOrder_lt
  zero := Galois16.Element.zero
  one := Galois16.Element.constant 1#8
  add := Galois16.Element.add
  mul := Galois16.Element.mul
  div := Galois16.Element.div
  exp := Galois16.Element.exp
  nthInternal := Galois16.nthInternal
  mulSlice := Galois16.mulSlice machine
  mulSliceAdd := Galois16.mulSliceAdd machine

instance : LawfulField (Galois16 machine) where
  add_assoc := Galois16.Element.add_assoc
  zero_add := Galois16.Element.zero_add
  add_self := Galois16.Element.add_self
  mul_assoc := Galois16.Element.mul_assoc
  mul_comm := Galois16.Element.mul_comm
  one_mul := Galois16.Element.one_mul
  mul_add := Galois16.Element.mul_add
  one_ne_zero := Galois16.Element.one_ne_zero
  div_mul a _ hb := Galois16.Element.div_mul a hb
  exp_zero _ := rfl
  exp_succ := Galois16.Element.exp_succ
  nthInternal_inj _ _ := Galois16.nthInternal_inj
  mulSlice_eq elem _ _ h := Galois16.mulSlice_eq machine elem h
  mulSliceAdd_eq elem _ _ h := Galois16.mulSliceAdd_eq machine elem h

end Instances

end ErasureCodec
