import ErasureCodec.Field.TowerSlices
import ErasureCodec.Leopard.MulSimd

namespace ErasureCodec

namespace Leopard

open Reg
open Galois16 (evenMask oddMask storelFour)

section Definitions

/-- What a kernel does with the planes of some elements before it stores them. -/
abbrev PlaneOp := Reg → Reg → Reg × Reg

/-- The kernels that only convert. -/
def keepPlanes : PlaneOp := fun lo hi => (lo, hi)

/-- `gfni_multiply`. -/
def gfniMultiply (m : Matrices) : PlaneOp := fun lo hi =>
  (Reg.xorSi (affineEpi64 lo (set1Epi64 m.a)) (affineEpi64 hi (set1Epi64 m.b)),
    Reg.xorSi (affineEpi64 lo (set1Epi64 m.c)) (affineEpi64 hi (set1Epi64 m.d)))

/-- Half a block in registers of 16 bytes, as work bytes. -/
def toWorkHalf (op : PlaneOp) (user dst : List (BitVec 8)) (off half : Nat) : List (BitVec 8) :=
  let r := op (Reg.loadu user (off + half)) (Reg.loadu user (off + 32 + half))
  let dst := Reg.storeu 16 dst (off + half * 2) (unpackloEpi8 r.1 r.2)
  Reg.storeu 16 dst (off + half * 2 + 16) (unpackhiEpi8 r.1 r.2)

def toWork128 (op : PlaneOp) (user dst : List (BitVec 8)) : List (BitVec 8) :=
  (List.range (user.length / 64)).foldl (fun dst block =>
    [0, 16].foldl (fun dst half => toWorkHalf op user dst (block * 64) half) dst) dst

/-- One block in registers of 32 bytes. -/
def toWorkBlock (op : PlaneOp) (user dst : List (BitVec 8)) (off : Nat) : List (BitVec 8) :=
  let r := op (Reg.loadu user off) (Reg.loadu user (off + 32))
  let a := unpackloEpi8 r.1 r.2
  let b := unpackhiEpi8 r.1 r.2
  Reg.storeu 32 (Reg.storeu 32 dst off (permute2x128 0x20 a b)) (off + 32) (permute2x128 0x31 a b)

def toWork256 (op : PlaneOp) (user dst : List (BitVec 8)) : List (BitVec 8) :=
  (List.range (user.length / 64)).foldl (fun dst block => toWorkBlock op user dst (block * 64)) dst

/-- Blocks in pairs, and what is left over. -/
def pairedBlocks (step : List (BitVec 8) → Nat → List (BitVec 8)) (len : Nat) (dst : List (BitVec 8)) :
    List (BitVec 8) :=
  let full := len / 128 * 128
  let dst := (List.range (len / 128)).foldl (fun dst k =>
    step (step dst (k * 128)) (k * 128 + 64)) dst
  if full ≠ len then step dst full else dst

/-- Half a block of work bytes in registers of 16 bytes, as user bytes. -/
def toUserHalf (op : PlaneOp) (src user : List (BitVec 8)) (off half : Nat) : List (BitVec 8) :=
  let byteMask := srliEpi16 8 (set1Epi8 0xff#8)
  let a := Reg.loadu src (off + half * 2)
  let b := Reg.loadu src (off + half * 2 + 16)
  let r := op (packusEpi16 (andSi a byteMask) (andSi b byteMask))
    (packusEpi16 (srliEpi16 8 a) (srliEpi16 8 b))
  Reg.storeu 16 (Reg.storeu 16 user (off + half) r.1) (off + 32 + half) r.2

def toUser128 (op : PlaneOp) (src user : List (BitVec 8)) : List (BitVec 8) :=
  (List.range (user.length / 64)).foldl (fun user block =>
    [0, 16].foldl (fun user half => toUserHalf op src user (block * 64) half) user) user

def toUserBlock (op : PlaneOp) (src user : List (BitVec 8)) (off : Nat) : List (BitVec 8) :=
  let byteMask := srliEpi16 8 (set1Epi8 0xff#8)
  let a := Reg.loadu src off
  let b := Reg.loadu src (off + 32)
  let lo := permute4x64 0xd8 (packusEpi16 (andSi a byteMask) (andSi b byteMask))
  let hi := permute4x64 0xd8 (packusEpi16 (srliEpi16 8 a) (srliEpi16 8 b))
  let r := op lo hi
  Reg.storeu 32 (Reg.storeu 32 user off r.1) (off + 32) r.2

def toUser256 (op : PlaneOp) (src user : List (BitVec 8)) : List (BitVec 8) :=
  (List.range (user.length / 64)).foldl (fun user block => toUserBlock op src user (block * 64)) user

/-- The loop over the whole blocks, byte by byte. -/
def userBytesToWorkBytesScalar (src dst : List (BitVec 8)) : List (BitVec 8) :=
  (List.range (src.length / 64)).foldl (fun dst block =>
    (List.range 32).foldl (fun dst i =>
      let dst := dst.set (block * 64 + 2 * i) (src.getD (block * 64 + i) 0#8)
      dst.set (block * 64 + (2 * i + 1)) (src.getD (block * 64 + (i + 32)) 0#8)) dst) dst

def userBytesToWorkBytesSsse3 (src dst : List (BitVec 8)) : List (BitVec 8) :=
  toWork128 keepPlanes src dst

def workBytesToUserBytesScalar (src dst : List (BitVec 8)) : List (BitVec 8) :=
  (List.range (src.length / 64)).foldl (fun dst block =>
    (List.range 32).foldl (fun dst i =>
      let dst := dst.set (block * 64 + i) (src.getD (block * 64 + 2 * i) 0#8)
      dst.set (block * 64 + (i + 32)) (src.getD (block * 64 + (2 * i + 1)) 0#8)) dst) dst

/-- Even bytes to the first half of a block, odd bytes to the second. -/
def workBytesToUserBytesSsse3 (src dst : List (BitVec 8)) : List (BitVec 8) :=
  (List.range (src.length / 64)).foldl (fun dst block =>
    let p0 := Reg.loadu src (block * 64)
    let p1 := Reg.loadu src (block * 64 + 16)
    let p2 := Reg.loadu src (block * 64 + 32)
    let p3 := Reg.loadu src (block * 64 + 48)
    storelFour (storelFour dst (block * 64) evenMask p0 p1 p2 p3) (block * 64 + 32) oddMask
      p0 p1 p2 p3) dst

def scalarUserToWorkMul (user : List (BitVec 8)) (out : List (BitVec 16)) (logM : BitVec 16)
    (tables : TablesRef) : List (BitVec 16) :=
  (List.range (min (user.length / 64) (out.length / 32))).foldl (fun out block =>
    (List.range 32).foldl (fun out i =>
      let input := user.getD (block * 64 + (i + 32)) 0#8 ++ user.getD (block * 64 + i) 0#8
      out.set (block * 32 + i) (mulLog16 tables input logM)) out) out

def scalarWorkMulToUser (work : List (BitVec 16)) (user : List (BitVec 8)) (logM : BitVec 16)
    (tables : TablesRef) : List (BitVec 8) :=
  (List.range (min (work.length / 32) (user.length / 64))).foldl (fun user block =>
    (List.range 32).foldl (fun user i =>
      let product := mulLog16 tables (work.getD (block * 32 + i) 0#16) logM
      let user := user.set (block * 64 + i) (lowByte product)
      user.set (block * 64 + (i + 32)) (highByte product)) user) user

/-- `x86::user_to_work`. -/
def userToWorkSsse3 (user : List (BitVec 8)) (out : List (BitVec 16)) (table : NibbleTables16) :
    List (BitVec 16) :=
  wordCode.unflatten (toWork128 (nibbleMultiply loadRow table) user (wordCode.flatten out))

/-- `x86::work_to_user`. -/
def workToUserSsse3 (work : List (BitVec 16)) (user : List (BitVec 8)) (table : NibbleTables16) :
    List (BitVec 8) :=
  toUser128 (nibbleMultiply loadRow table) (wordCode.flatten work) user

/-- `avx2::user_to_work`. -/
def userToWorkAvx2 (user : List (BitVec 8)) (out : List (BitVec 16)) (table : NibbleTables16) :
    List (BitVec 16) :=
  wordCode.unflatten (toWork256 (nibbleMultiply bcast table) user (wordCode.flatten out))

/-- `avx2::work_to_user`. -/
def workToUserAvx2 (work : List (BitVec 16)) (user : List (BitVec 8)) (table : NibbleTables16) :
    List (BitVec 8) :=
  toUser256 (nibbleMultiply bcast table) (wordCode.flatten work) user

def userToWorkGfni (user : List (BitVec 8)) (out : List (BitVec 16)) (m : Matrices) :
    List (BitVec 16) :=
  wordCode.unflatten (pairedBlocks (toWorkBlock (gfniMultiply m) user) user.length
    (wordCode.flatten out))

def workToUserGfni (work : List (BitVec 16)) (user : List (BitVec 8)) (m : Matrices) :
    List (BitVec 8) :=
  pairedBlocks (toUserBlock (gfniMultiply m) (wordCode.flatten work)) user.length user

def gfniLayoutMinBytes : Nat := 4096

def nostdAvx2MinBytes : Nat := 512

end Definitions

namespace Machine

section Calls

def userBytesToWorkBytes (machine : Machine) (src dst : List (BitVec 8)) : List (BitVec 8) :=
  if machine.target = .x86Std ∧ machine.ssse3 then userBytesToWorkBytesSsse3 src dst
  else if machine.target = .x86NoStdAvx2 ∧ src.length = dst.length ∧ src.length % 64 = 0 then
    userBytesToWorkBytesSsse3 src dst
  else userBytesToWorkBytesScalar src dst

def workBytesToUserBytes (machine : Machine) (src dst : List (BitVec 8)) : List (BitVec 8) :=
  if machine.target = .x86Std ∧ machine.ssse3 then workBytesToUserBytesSsse3 src dst
  else if machine.target = .x86NoStdAvx2 ∧ src.length = dst.length ∧ src.length % 64 = 0 then
    workBytesToUserBytesSsse3 src dst
  else workBytesToUserBytesScalar src dst

/-- `user_bytes_to_work_u16_into`; nothing where an assertion fails. -/
def userBytesToWorkU16Into (machine : Machine) (user : List (BitVec 8)) (out : List (BitVec 16)) :
    Option (List (BitVec 16)) :=
  if user.length = out.length * 2 ∧ user.length % 64 = 0 then
    some (wordCode.unflatten (machine.userBytesToWorkBytes user (wordCode.flatten out)))
  else none

def workU16ToUserBytes (machine : Machine) (src : List (BitVec 16)) (dst : List (BitVec 8)) :
    List (BitVec 8) := machine.workBytesToUserBytes (wordCode.flatten src) dst

/-- Whether the library is compiled with `std`. -/
def std (machine : Machine) : Bool :=
  match machine.target with
  | .x86Std => true
  | .x86NoStdAvx2 => false
  | .other std => std

/-- `user_to_work_mul`: the output, the scratch lane and the matrix cache; nothing where an
assertion fails. -/
def userToWorkMul (machine : Machine) (user : List (BitVec 8)) (out scratch : List (BitVec 16))
    (logM : BitVec 16) (tables : TablesRef) (cache : MatrixCache) :
    Option ((List (BitVec 16) × List (BitVec 16)) × MatrixCache) :=
  let nibble := NibbleTables16.build machine.target tables logM
  if user.length ≠ out.length * 2 ∨ user.length % 64 ≠ 0 ∨
      (machine.std ∧ scratch.length ≠ out.length) then none
  else if logM.toNat = modulus 16 then do
    let out ← machine.userBytesToWorkU16Into user out
    some ((out, scratch), cache)
  else if machine.target = .x86Std ∧ machine.avx2 then
    if gfniLayoutMinBytes ≤ user.length ∧ machine.gfni then
      let found := cachedMatrices logM tables cache
      some ((userToWorkGfni user out found.1, scratch), found.2)
    else some ((userToWorkAvx2 user out nibble, scratch), cache)
  else if machine.target = .x86Std ∧ machine.ssse3 then
    some ((userToWorkSsse3 user out nibble, scratch), cache)
  else if machine.target = .x86NoStdAvx2 ∧ nostdAvx2MinBytes ≤ user.length then
    some ((userToWorkAvx2 user out nibble, scratch), cache)
  else if machine.std then do
    let scratch ← machine.userBytesToWorkU16Into user scratch
    some ((mulgf16 machine out scratch logM tables, scratch), cache)
  else some ((scalarUserToWorkMul user out logM tables, scratch), cache)

/-- `work_mul_to_user`. -/
def workMulToUser (machine : Machine) (work : List (BitVec 16)) (user : List (BitVec 8))
    (scratch : List (BitVec 16)) (logM : BitVec 16) (tables : TablesRef) (cache : MatrixCache) :
    Option ((List (BitVec 8) × List (BitVec 16)) × MatrixCache) :=
  let nibble := NibbleTables16.build machine.target tables logM
  if user.length ≠ work.length * 2 ∨ user.length % 64 ≠ 0 ∨
      (machine.std ∧ scratch.length ≠ work.length) then none
  else if logM.toNat = modulus 16 then some ((machine.workU16ToUserBytes work user, scratch), cache)
  else if machine.target = .x86Std ∧ machine.avx2 then
    if gfniLayoutMinBytes ≤ user.length ∧ machine.gfni then
      let found := cachedMatrices logM tables cache
      some ((workToUserGfni work user found.1, scratch), found.2)
    else some ((workToUserAvx2 work user nibble, scratch), cache)
  else if machine.target = .x86Std ∧ machine.ssse3 then
    some ((workToUserSsse3 work user nibble, scratch), cache)
  else if machine.target = .x86NoStdAvx2 ∧ nostdAvx2MinBytes ≤ user.length then
    some ((workToUserAvx2 work user nibble, scratch), cache)
  else if machine.std then
    let scratch := mulgf16 machine scratch work logM tables
    some ((machine.workU16ToUserBytes scratch user, scratch), cache)
  else some ((scalarWorkMulToUser work user logM tables, scratch), cache)

end Calls

end Machine

section Planes

variable {op : PlaneOp} {f : BitVec 16 → BitVec 16} {width : Nat}

/-- The operation maps the elements whose bytes the first `width` bytes of the planes are. -/
def PlaneOp.Computes (op : PlaneOp) (width : Nat) (f : BitVec 16 → BitVec 16) : Prop :=
  ∀ lo hi i, i < width → (op lo hi).1.byte i = lowByte (f (hi.byte i ++ lo.byte i)) ∧
    (op lo hi).2.byte i = highByte (f (hi.byte i ++ lo.byte i))

theorem computes_keepPlanes (width : Nat) : keepPlanes.Computes width id :=
  fun _ _ _ _ => ⟨(lowByte_append _ _).symm, (highByte_append _ _).symm⟩

variable {t : TablesRef}

theorem computes_nibble128 (ht : t.Built) (logM : BitVec 16) :
    PlaneOp.Computes (nibbleMultiply loadRow (NibbleTables16.buildDirect t logM)) 16 (mul16 logM) :=
  fun lo hi _ h => byte_nibbleMultiply ht logM (serves_loadu h) lo hi

theorem computes_nibble256 (ht : t.Built) (logM : BitVec 16) :
    PlaneOp.Computes (nibbleMultiply bcast (NibbleTables16.buildDirect t logM)) 32 (mul16 logM) :=
  fun lo hi i _ => byte_nibbleMultiply ht logM (serves_bcast i) lo hi

theorem byte_affine_set1 (m : BitVec 64) (v : Reg) (i : Nat) :
    (affineEpi64 v (set1Epi64 m)).byte i = affineByte (byteOf m) (v.byte i) := by
  rw [byte_affineEpi64]
  apply affineByte_congr
  intro r hr
  change byteOf m ((i / 8 * 8 + r) % 8) = _
  rw [show (i / 8 * 8 + r) % 8 = r by omega]

theorem computes_gfni (ht : t.Built) (logM : BitVec 16) :
    PlaneOp.Computes (gfniMultiply (matrices logM t)) 32 (mul16 logM) := by
  have hf : (fun a => mulLog16 t a logM) = mul16 logM := funext fun a => mulLog16_eq ht a logM
  have hlinear := xorLinear_mul16 logM
  intro lo hi i _
  simp only [gfniMultiply, byte_xorSi, byte_affine_set1, matrices, hf]
  rw [append_eq_placed, hlinear, xorLinear_lowByte, xorLinear_highByte]
  constructor
  · rw [affineByte_columns hlinear (show 0 < 2 by decide) (show 0 < 2 by decide),
      affineByte_columns hlinear (show 1 < 2 by decide) (show 0 < 2 by decide)]
    rfl
  · rw [affineByte_columns hlinear (show 0 < 2 by decide) (show 1 < 2 by decide),
      affineByte_columns hlinear (show 1 < 2 by decide) (show 1 < 2 by decide)]
    rfl

end Planes

section ToWork

variable {op : PlaneOp} {f : BitVec 16 → BitVec 16} {user dst : List (BitVec 8)}

/-- The bytes of an element of the user layout. -/
def userWord (user : List (BitVec 8)) (p : Nat) : BitVec 16 :=
  user.getD (64 * (p / 32) + p % 32 + 32) 0#8 ++ user.getD (64 * (p / 32) + p % 32) 0#8

theorem unflatten_eq_map {bytes : List (BitVec 8)} (hlen : bytes.length = user.length)
    (h : ∀ p, p < user.length / 2 → wordAt bytes p = f (userWord user p)) :
    wordCode.unflatten bytes = (userBytesToWorkU16 user).map f := by
  apply getD_ext 0#16
  · rw [PairCode.length_unflatten, List.length_map, length_userBytesToWorkU16, hlen]
  · intro p hp
    rw [PairCode.length_unflatten, hlen] at hp
    rw [getD_unflatten_words (hlen ▸ hp), h p hp,
      getD_map_of_lt f _ _ (by rw [length_userBytesToWorkU16]; exact hp) 0#16,
      getD_userBytesToWorkU16 hp, userWord]

/-- A word that lies interleaved in a register. -/
theorem word_interleaved {v lo hi : Reg} {k j : Nat} (hj : j < 16)
    (h : ∀ i, i < 32 → v.byte i = (if i % 2 = 0 then lo else hi).byte (k + i / 2)) :
    v.word j = hi.byte (k + j) ++ lo.byte (k + j) := by
  rw [word, h _ (by omega), h _ (by omega), if_neg (by omega), if_pos (by omega),
    show (2 * j + 1) / 2 = j by omega, show 2 * j / 2 = j by omega]

/-- Planes that an operation has computed, interleaved again. -/
theorem word_computed {width : Nat} (h : op.Computes width f) (lo hi : Reg) {i : Nat}
    (hi' : i < width) : (op lo hi).2.byte i ++ (op lo hi).1.byte i = f (hi.byte i ++ lo.byte i) := by
  rw [(h lo hi i hi').1, (h lo hi i hi').2, highByte_append_lowByte]

theorem toWorkHalf_eq (op : PlaneOp) (user dst : List (BitVec 8)) (off half : Nat) :
    toWorkHalf op user dst off half =
      Reg.storeu (16 + 16) dst (off + half * 2) (concat 16
        (unpackloEpi8 (op (Reg.loadu user (off + half)) (Reg.loadu user (off + 32 + half))).1
          (op (Reg.loadu user (off + half)) (Reg.loadu user (off + 32 + half))).2)
        (unpackhiEpi8 (op (Reg.loadu user (off + half)) (Reg.loadu user (off + 32 + half))).1
          (op (Reg.loadu user (off + half)) (Reg.loadu user (off + 32 + half))).2)) :=
  storeu_storeu 16 16 dst (off + half * 2) _ _

theorem toWork128_eq (hop : op.Computes 16 f) (hlen : dst.length = user.length)
    (h64 : 64 ∣ user.length) :
    wordCode.unflatten (toWork128 op user dst) = (userBytesToWorkU16 user).map f := by
  have hloop := foldl_store_words_one (N := user.length / 2) (user.length / 64)
    (show 32 + 32 = 2 * 32 from rfl) (fun c => by omega : ∀ c, c * 64 = 2 * (c * 32))
    (fun _ block => concat 32
      (concat 16 (unpackloEpi8 (op (Reg.loadu user (block * 64)) (Reg.loadu user (block * 64 + 32))).1
          (op (Reg.loadu user (block * 64)) (Reg.loadu user (block * 64 + 32))).2)
        (unpackhiEpi8 (op (Reg.loadu user (block * 64)) (Reg.loadu user (block * 64 + 32))).1
          (op (Reg.loadu user (block * 64)) (Reg.loadu user (block * 64 + 32))).2))
      (concat 16
        (unpackloEpi8 (op (Reg.loadu user (block * 64 + 16)) (Reg.loadu user (block * 64 + 32 + 16))).1
          (op (Reg.loadu user (block * 64 + 16)) (Reg.loadu user (block * 64 + 32 + 16))).2)
        (unpackhiEpi8 (op (Reg.loadu user (block * 64 + 16)) (Reg.loadu user (block * 64 + 32 + 16))).1
          (op (Reg.loadu user (block * 64 + 16)) (Reg.loadu user (block * 64 + 32 + 16))).2)))
    (fun p _ => f (userWord user p)) dst (by omega) (by
      intro block _ _ j hj
      rw [word_concat (m := 16) rfl, userWord, show (block * 32 + j) / 32 = block by omega,
        show (block * 32 + j) % 32 = j by omega]
      split_ifs with hlow
      · rw [word_interleaved (k := 0) hlow (fun i hi => by rw [byte_concat_unpack hi, Nat.zero_add]),
          word_computed hop _ _ (by omega), byte_loadu, byte_loadu,
          show block * 64 + 32 + (0 + j) = 64 * block + j + 32 by omega,
          show block * 64 + (0 + j) = 64 * block + j by omega]
      · rw [word_interleaved (k := 0) (by omega)
          (fun i hi => by rw [byte_concat_unpack hi, Nat.zero_add]),
          word_computed hop _ _ (by omega), byte_loadu, byte_loadu,
          show block * 64 + 32 + 16 + (0 + (j - 16)) = 64 * block + j + 32 by omega,
          show block * 64 + 16 + (0 + (j - 16)) = 64 * block + j by omega])
  simp only [toWork128, List.foldl_cons, List.foldl_nil, toWorkHalf_eq, Nat.zero_mul, Nat.add_zero,
    Nat.reduceMul, Nat.reduceAdd, storeu_storeu]
  exact unflatten_eq_map (hloop.1.trans (by omega))
    (fun p hp => (hloop.2 p hp).trans (if_pos (by omega)))

theorem toWorkBlock_eq (op : PlaneOp) (user dst : List (BitVec 8)) (off : Nat) :
    toWorkBlock op user dst off =
      let r := op (Reg.loadu user off) (Reg.loadu user (off + 32))
      Reg.storeu (32 + 32) dst off (concat 32
        (permute2x128 0x20 (unpackloEpi8 r.1 r.2) (unpackhiEpi8 r.1 r.2))
        (permute2x128 0x31 (unpackloEpi8 r.1 r.2) (unpackhiEpi8 r.1 r.2))) :=
  storeu_storeu 32 32 dst off _ _

theorem toWork256_eq (hop : op.Computes 32 f) (hlen : dst.length = user.length)
    (h64 : 64 ∣ user.length) :
    wordCode.unflatten (toWork256 op user dst) = (userBytesToWorkU16 user).map f := by
  have hloop := foldl_store_words_one (N := user.length / 2) (user.length / 64)
    (show 32 + 32 = 2 * 32 from rfl) (fun c => by omega : ∀ c, c * 64 = 2 * (c * 32))
    (fun _ block => concat 32
      (permute2x128 0x20 (unpackloEpi8 (op (Reg.loadu user (block * 64)) (Reg.loadu user (block * 64 + 32))).1
          (op (Reg.loadu user (block * 64)) (Reg.loadu user (block * 64 + 32))).2)
        (unpackhiEpi8 (op (Reg.loadu user (block * 64)) (Reg.loadu user (block * 64 + 32))).1
          (op (Reg.loadu user (block * 64)) (Reg.loadu user (block * 64 + 32))).2))
      (permute2x128 0x31 (unpackloEpi8 (op (Reg.loadu user (block * 64)) (Reg.loadu user (block * 64 + 32))).1
          (op (Reg.loadu user (block * 64)) (Reg.loadu user (block * 64 + 32))).2)
        (unpackhiEpi8 (op (Reg.loadu user (block * 64)) (Reg.loadu user (block * 64 + 32))).1
          (op (Reg.loadu user (block * 64)) (Reg.loadu user (block * 64 + 32))).2)))
    (fun p _ => f (userWord user p)) dst (by omega) (by
      intro block _ _ j hj
      rw [word_concat (m := 16) rfl, userWord, show (block * 32 + j) / 32 = block by omega,
        show (block * 32 + j) % 32 = j by omega]
      split_ifs with hlow
      · rw [word_interleaved (k := 0) hlow
          (fun i hi => by rw [byte_permute_unpack_low hi, Nat.zero_add]),
          word_computed hop _ _ (by omega), byte_loadu, byte_loadu,
          show block * 64 + 32 + (0 + j) = 64 * block + j + 32 by omega,
          show block * 64 + (0 + j) = 64 * block + j by omega]
      · rw [word_interleaved (by omega) (fun i hi => byte_permute_unpack_high hi),
          word_computed hop _ _ (by omega), byte_loadu, byte_loadu,
          show block * 64 + 32 + (16 + (j - 16)) = 64 * block + j + 32 by omega,
          show block * 64 + (16 + (j - 16)) = 64 * block + j by omega])
  simp only [toWork256, toWorkBlock_eq]
  exact unflatten_eq_map (hloop.1.trans (by omega))
    (fun p hp => (hloop.2 p hp).trans (if_pos (by omega)))

/-- Pairs of blocks and a leftover one are all the blocks in their order. -/
theorem pairedBlocks_eq (step : List (BitVec 8) → Nat → List (BitVec 8)) {len : Nat} (h64 : 64 ∣ len)
    (dst : List (BitVec 8)) : pairedBlocks step len dst =
      (List.range (len / 64)).foldl (fun dst block => step dst (block * 64)) dst := by
  have hpairs (k : Nat) : (List.range k).foldl
      (fun dst k => step (step dst (k * 128)) (k * 128 + 64)) dst =
        (List.range (2 * k)).foldl (fun dst block => step dst (block * 64)) dst := by
    induction k with
    | zero => rfl
    | succ k ih =>
      rw [List.range_succ, List.foldl_append, ih, show 2 * (k + 1) = 2 * k + 1 + 1 by omega,
        List.range_succ, List.range_succ, List.foldl_append, List.foldl_append]
      simp only [List.foldl_cons, List.foldl_nil]
      rw [show 2 * k * 64 = k * 128 by omega, show (2 * k + 1) * 64 = k * 128 + 64 by omega]
  simp only [pairedBlocks, hpairs]
  split_ifs with hodd
  · rw [show len / 64 = 2 * (len / 128) + 1 by omega, List.range_succ, List.foldl_append,
      show len / 128 * 128 = 2 * (len / 128) * 64 by omega]
    rfl
  · rw [show 2 * (len / 128) = len / 64 by omega]

end ToWork

section ToUser

variable {op : PlaneOp} {f : BitVec 16 → BitVec 16} {src user : List (BitVec 8)}
  {work : List (BitVec 16)}

/-- A byte of an element in the user layout. -/
def userByte (f : BitVec 16 → BitVec 16) (src : List (BitVec 8)) (p : Nat) : BitVec 8 :=
  let value := f (wordAt src (p / 64 * 32 + p % 32))
  if p % 64 < 32 then lowByte value else highByte value

theorem eq_workU16ToUserBytes {bytes : List (BitVec 8)} (hlen : bytes.length = work.length * 2)
    (h : ∀ p, p < work.length * 2 → bytes.getD p 0#8 = userByte f (wordCode.flatten work) p)
    (h64 : 64 ∣ work.length * 2) : bytes = Leopard.workU16ToUserBytes (work.map f) := by
  apply getD_ext 0#8
  · rw [length_workU16ToUserBytes, List.length_map, hlen]
  · intro p hp
    rw [hlen] at hp
    rw [h p hp, getD_workU16ToUserBytes (by rw [List.length_map]; exact hp),
      getD_map_of_lt f _ _ (by omega) 0#16, userByte, wordAt_flatten]
    rfl

/-- Stores in windows that do not meet can be done in either order. -/
theorem storeu_swap {m n off off' : Nat} (h : off + m ≤ off') (dst : List (BitVec 8)) (a b : Reg) :
    Reg.storeu m (Reg.storeu n dst off' b) off a = Reg.storeu n (Reg.storeu m dst off a) off' b := by
  apply getD_ext 0#8
  · simp only [Reg.length_storeu]
  · intro p hp
    simp only [Reg.length_storeu] at hp
    rw [getD_storeu _ _ _ _ (by rwa [Reg.length_storeu]), getD_storeu _ _ _ _ hp,
      getD_storeu _ _ _ _ (by rwa [Reg.length_storeu]), getD_storeu _ _ _ _ hp]
    split_ifs with h1 h2
    · omega
    · rfl
    · rfl
    · rfl

/-- A loop over blocks whose rounds store the bytes of their elements. -/
theorem foldl_user_blocks {r : Nat → Reg} (hlen : user.length = work.length * 2)
    (h64 : 64 ∣ user.length) (h : ∀ block, block < user.length / 64 → ∀ i, i < 64 →
      (r block).byte i = userByte f (wordCode.flatten work) (block * 64 + i)) :
    (List.range (user.length / 64)).foldl (fun user block => Reg.storeu 64 user (block * 64) (r block))
      user = Leopard.workU16ToUserBytes (work.map f) := by
  obtain ⟨hout, hread⟩ := foldl_storeu 64 (user.length / 64) (fun _ block => r block)
    (fun p _ => userByte f (wordCode.flatten work) p) user (by omega)
    (fun block hblock _ _ i hi => h block hblock i hi)
  exact eq_workU16ToUserBytes (hout.trans hlen)
    (fun p hp => (hread p).trans (if_pos (by omega))) (hlen ▸ h64)

/-- The byte of an element of block `block`, in the first or in the second half. -/
theorem userByte_low {block i : Nat} (hi : i < 32) : userByte f src (block * 64 + i) =
    lowByte (f (wordAt src (block * 32 + i))) := by
  rw [userByte, show (block * 64 + i) / 64 * 32 + (block * 64 + i) % 32 = block * 32 + i by omega]
  exact if_pos (by omega)

theorem userByte_high {block i : Nat} (hi : i < 32) : userByte f src (block * 64 + (32 + i)) =
    highByte (f (wordAt src (block * 32 + i))) := by
  rw [userByte, show (block * 64 + (32 + i)) / 64 * 32 + (block * 64 + (32 + i)) % 32 =
    block * 32 + i by omega]
  exact if_neg (by omega)

/-- The planes of 16 elements in two registers of one lane. -/
theorem packed_planes (src : List (BitVec 8)) (off : Nat) {i : Nat} (hi : i < 16) :
    (packusEpi16 (andSi (Reg.loadu src off) lowBytes) (andSi (Reg.loadu src (off + 16)) lowBytes)).byte i =
        src.getD (off + 2 * i) 0#8 ∧
      (packusEpi16 (srliEpi16 8 (Reg.loadu src off)) (srliEpi16 8 (Reg.loadu src (off + 16)))).byte i =
        src.getD (off + (2 * i + 1)) 0#8 := by
  rw [byte_packus_low, byte_packus_high]
  simp only [byte_loadu]
  split_ifs with hlow
  · rw [show off + (i / 16 * 16 + 2 * (i % 16)) = off + 2 * i by omega,
      show off + (i / 16 * 16 + 2 * (i % 16) + 1) = off + (2 * i + 1) by omega]
    exact ⟨rfl, rfl⟩
  · rw [show off + 16 + (i / 16 * 16 + 2 * (i % 16 - 8)) = off + 2 * i by omega,
      show off + 16 + (i / 16 * 16 + 2 * (i % 16 - 8) + 1) = off + (2 * i + 1) by omega]
    exact ⟨rfl, rfl⟩

/-- The planes of 32 elements in two registers of two lanes. -/
theorem permuted_planes (src : List (BitVec 8)) (off : Nat) {i : Nat} (hi : i < 32) :
    (permute4x64 0xd8 (packusEpi16 (andSi (Reg.loadu src off) lowBytes)
        (andSi (Reg.loadu src (off + 32)) lowBytes))).byte i = src.getD (off + 2 * i) 0#8 ∧
      (permute4x64 0xd8 (packusEpi16 (srliEpi16 8 (Reg.loadu src off))
        (srliEpi16 8 (Reg.loadu src (off + 32))))).byte i = src.getD (off + (2 * i + 1)) 0#8 := by
  rw [byte_permute_packus_low hi, byte_permute_packus_high hi]
  simp only [byte_loadu]
  split_ifs with hlow
  · exact ⟨rfl, rfl⟩
  · rw [show off + 32 + (2 * i - 32) = off + 2 * i by omega,
      show off + 32 + (2 * i + 1 - 32) = off + (2 * i + 1) by omega]
    exact ⟨rfl, rfl⟩

/-- What an operation leaves of the planes of the elements from `w` on. -/
theorem computed_planes {width : Nat} (hop : op.Computes width f) {lo hi : Reg} {w i : Nat}
    (hi' : i < width) (hplanes : lo.byte i = src.getD (2 * w) 0#8 ∧ hi.byte i = src.getD (2 * w + 1) 0#8) :
    (op lo hi).1.byte i = lowByte (f (wordAt src w)) ∧
      (op lo hi).2.byte i = highByte (f (wordAt src w)) := by
  have hword : hi.byte i ++ lo.byte i = wordAt src w := by rw [hplanes.1, hplanes.2, wordAt]
  exact ⟨by rw [(hop lo hi i hi').1, hword], by rw [(hop lo hi i hi').2, hword]⟩

theorem toUser256_eq (hop : op.Computes 32 f) (hlen : user.length = work.length * 2)
    (h64 : 64 ∣ user.length) :
    toUser256 op (wordCode.flatten work) user = Leopard.workU16ToUserBytes (work.map f) := by
  have hmask : srliEpi16 8 (set1Epi8 0xff#8) = lowBytes := srliEpi16_ones
  simp only [toUser256, toUserBlock, hmask, storeu_storeu, Nat.reduceAdd]
  apply foldl_user_blocks hlen h64
  intro block _ i hi
  rw [byte_concat]
  split_ifs with hlow
  · have hplanes := permuted_planes (wordCode.flatten work) (block * 64) hlow
    rw [show block * 64 + 2 * i = 2 * (block * 32 + i) by omega,
      show block * 64 + (2 * i + 1) = 2 * (block * 32 + i) + 1 by omega] at hplanes
    rw [(computed_planes hop hlow hplanes).1, userByte_low hlow]
  · have hi' : i - 32 < 32 := by omega
    have hplanes := permuted_planes (wordCode.flatten work) (block * 64) hi'
    rw [show block * 64 + 2 * (i - 32) = 2 * (block * 32 + (i - 32)) by omega,
      show block * 64 + (2 * (i - 32) + 1) = 2 * (block * 32 + (i - 32)) + 1 by omega] at hplanes
    rw [(computed_planes hop hi' hplanes).2, ← userByte_high hi', Nat.add_sub_cancel' (by omega)]

theorem toUser128_eq (hop : op.Computes 16 f) (hlen : user.length = work.length * 2)
    (h64 : 64 ∣ user.length) :
    toUser128 op (wordCode.flatten work) user = Leopard.workU16ToUserBytes (work.map f) := by
  have hmask : srliEpi16 8 (set1Epi8 0xff#8) = lowBytes := srliEpi16_ones
  have hswap (dst : List (BitVec 8)) (off : Nat) (a b c d : Reg) :
      Reg.storeu 16 (Reg.storeu 16 (Reg.storeu 16 (Reg.storeu 16 dst off a) (off + 32) b) (off + 16) c) (off + 48) d =
        Reg.storeu 64 dst off (concat 16 a (concat 16 c (concat 16 b d))) := by
    rw [storeu_swap (show off + 16 + 16 ≤ off + 32 by omega), storeu_storeu, storeu_storeu,
      storeu_storeu]
  simp only [toUser128, toUserHalf, hmask, List.foldl_cons, List.foldl_nil, Nat.zero_mul, Nat.add_zero,
    Nat.reduceMul, Nat.add_assoc, Nat.reduceAdd, hswap]
  apply foldl_user_blocks hlen h64
  intro block _ i hi
  -- the elements of the two halves of a block
  have hfirst {k : Nat} (hk : k < 16) := computed_planes hop hk (w := block * 32 + k) (by
    rw [show 2 * (block * 32 + k) = block * 64 + 2 * k by omega]
    exact packed_planes (wordCode.flatten work) (block * 64) hk)
  have hsecond {k : Nat} (hk : k < 16) := computed_planes hop hk (w := block * 32 + (16 + k)) (by
    rw [show 2 * (block * 32 + (16 + k)) = block * 64 + 32 + 2 * k by omega]
    exact packed_planes (wordCode.flatten work) (block * 64 + 32) hk)
  simp only [Nat.add_assoc, Nat.reduceAdd] at hsecond
  rw [byte_concat, byte_concat, byte_concat]
  split_ifs with h16 h32 h48
  · rw [(hfirst h16).1, userByte_low (by omega)]
  · rw [(hsecond h32).1, show 16 + (i - 16) = i by omega, userByte_low (by omega)]
  · rw [(hfirst h48).2, ← userByte_high (by omega), show 32 + (i - 16 - 16) = i by omega]
  · rw [(hsecond (show i - 16 - 16 - 16 < 16 by omega)).2, ← userByte_high (by omega),
      show 32 + (16 + (i - 16 - 16 - 16)) = i by omega]

end ToUser

section Conversions

variable {user dst : List (BitVec 8)} {work out : List (BitVec 16)}

theorem workBytesToUserBytesSsse3_eq (hlen : user.length = work.length * 2) (h64 : 64 ∣ user.length) :
    workBytesToUserBytesSsse3 (wordCode.flatten work) user = Leopard.workU16ToUserBytes work := by
  have hsrc : (wordCode.flatten work).length = user.length := by
    rw [PairCode.length_flatten, hlen, Nat.mul_comm]
  have hid := foldl_user_blocks (f := id) (r := fun block => concat 32
      (Galois16.halves evenMask (Reg.loadu (wordCode.flatten work) (block * 64))
        (Reg.loadu (wordCode.flatten work) (block * 64 + 16))
        (Reg.loadu (wordCode.flatten work) (block * 64 + 32))
        (Reg.loadu (wordCode.flatten work) (block * 64 + 48)))
      (Galois16.halves oddMask (Reg.loadu (wordCode.flatten work) (block * 64))
        (Reg.loadu (wordCode.flatten work) (block * 64 + 16))
        (Reg.loadu (wordCode.flatten work) (block * 64 + 32))
        (Reg.loadu (wordCode.flatten work) (block * 64 + 48)))) hlen h64 (by
    intro block _ i hi
    rw [byte_concat]
    split_ifs with hlow
    · rw [Galois16.byte_halves (k := 0) (fun _ _ => Galois16.byte_evenMask) _ _ hlow,
        userByte_low hlow, wordAt, id, lowByte_append, Nat.add_zero]
    · have hi' : i - 32 < 32 := by omega
      rw [Galois16.byte_halves (k := 1) (fun _ _ => Galois16.byte_oddMask) _ _ hi',
        show i = 32 + (i - 32) by omega, userByte_high hi', wordAt, id, highByte_append,
        show 32 + (i - 32) - 32 = i - 32 by omega])
  rw [List.map_id] at hid
  simp only [workBytesToUserBytesSsse3, Galois16.storelFour_eq, storeu_storeu, Nat.reduceAdd, hsrc]
  exact hid

/-- A work byte in the user layout. -/
def workByte (user : List (BitVec 8)) (p : Nat) : BitVec 8 :=
  user.getD (p / 64 * 64 + (p % 64 / 2 + 32 * (p % 2))) 0#8

theorem userBytesToWorkBytesScalar_eq (hlen : dst.length = user.length) (h64 : 64 ∣ user.length) :
    wordCode.unflatten (userBytesToWorkBytesScalar user dst) = userBytesToWorkU16 user := by
  obtain ⟨hout, hread⟩ := foldl_blocks_set (m := 32) (n := user.length / 64) 0#8
    (fun c i k => k = c * 64 + 2 * i ∨ k = c * 64 + (2 * i + 1))
    (fun dst block i => (dst.set (block * 64 + 2 * i) (user.getD (block * 64 + i) 0#8)).set
      (block * 64 + (2 * i + 1)) (user.getD (block * 64 + (i + 32)) 0#8)) (workByte user)
    (show ∀ c k, c * 64 ≤ k ∧ k < (c + 1) * 64 ↔ _ by
      intro c k
      constructor
      · intro hk
        exact ⟨(k - c * 64) / 2, by omega, by omega⟩
      · rintro ⟨i, hi, hk⟩
        omega) (by
      intro c hc i hi data hdata
      refine ⟨by rw [List.length_set, List.length_set, hdata], ?_⟩
      apply getD_set_set data (workByte user) 0#8 (by omega) (by omega)
      · rw [workByte]
        congr 1
        omega
      · rw [workByte]
        congr 1
        omega) hlen
  have hid := unflatten_eq_map (f := id) hout (by
    intro p hp
    have hlow : workByte user (2 * p) = user.getD (64 * (p / 32) + p % 32) 0#8 := by
      rw [workByte]
      congr 1
      omega
    have hhigh : workByte user (2 * p + 1) = user.getD (64 * (p / 32) + p % 32 + 32) 0#8 := by
      rw [workByte]
      congr 1
      omega
    rw [wordAt, hread, hread, if_pos (by omega), if_pos (by omega), hlow, hhigh]
    rfl)
  rw [List.map_id] at hid
  exact hid

/-- The loop of the scalar kernels that write user bytes. -/
theorem foldl_user_set (f : BitVec 16 → BitVec 16) (src : List (BitVec 8)) {N n : Nat}
    (hn : N = n * 64) (lo hi : Nat → Nat → BitVec 8)
    (hlo : ∀ c, c < n → ∀ i, i < 32 → lo c i = userByte f src (c * 64 + i))
    (hhi : ∀ c, c < n → ∀ i, i < 32 → hi c i = userByte f src (c * 64 + (32 + i)))
    (hlen : user.length = N) :
    let out := (List.range n).foldl (fun user block => (List.range 32).foldl (fun user i =>
      (user.set (block * 64 + i) (lo block i)).set (block * 64 + (i + 32)) (hi block i)) user) user
    out.length = N ∧ ∀ p, p < N → out.getD p 0#8 = userByte f src p := by
  obtain ⟨hout, hread⟩ := foldl_blocks_set (m := 32) (n := n) 0#8
    (fun c i k => k = c * 64 + i ∨ k = c * 64 + (i + 32))
    (fun user block i => (user.set (block * 64 + i) (lo block i)).set (block * 64 + (i + 32))
      (hi block i)) (userByte f src)
    (show ∀ c k, c * 64 ≤ k ∧ k < (c + 1) * 64 ↔ _ by
      intro c k
      constructor
      · intro hk
        exact ⟨(k - c * 64) % 32, by omega, by omega⟩
      · rintro ⟨i, hi, hk⟩
        omega) (by
      intro c hc i hi' data hdata
      refine ⟨by rw [List.length_set, List.length_set, hdata], ?_⟩
      apply getD_set_set data (userByte f src) 0#8 (by omega) (by omega) (hlo c hc i hi')
      rw [hhi c hc i hi', Nat.add_comm 32 i]) hlen
  exact ⟨hout, fun p hp => (hread p).trans (if_pos (by omega))⟩

theorem workBytesToUserBytesScalar_eq (hlen : user.length = work.length * 2)
    (h64 : 64 ∣ user.length) :
    workBytesToUserBytesScalar (wordCode.flatten work) user = Leopard.workU16ToUserBytes work := by
  have hsrc : (wordCode.flatten work).length = user.length := by
    rw [PairCode.length_flatten, hlen, Nat.mul_comm]
  obtain ⟨hout, hread⟩ := foldl_user_set id (wordCode.flatten work)
    (show user.length = user.length / 64 * 64 by omega)
    (fun c i => (wordCode.flatten work).getD (c * 64 + 2 * i) 0#8)
    (fun c i => (wordCode.flatten work).getD (c * 64 + (2 * i + 1)) 0#8) (by
      intro c _ i hi
      rw [userByte_low hi, id, wordAt, lowByte_append, show c * 64 + 2 * i = 2 * (c * 32 + i) by omega])
    (by
      intro c _ i hi
      rw [userByte_high hi, id, wordAt, highByte_append,
        show c * 64 + (2 * i + 1) = 2 * (c * 32 + i) + 1 by omega]) rfl
  have hid := eq_workU16ToUserBytes (hout.trans hlen) (fun p hp => hread p (by omega)) (hlen ▸ h64)
  rw [List.map_id] at hid
  rw [workBytesToUserBytesScalar, hsrc]
  exact hid

theorem scalarWorkMulToUser_eq (tables : TablesRef) (logM : BitVec 16)
    (hlen : user.length = work.length * 2) (h64 : 64 ∣ user.length) :
    scalarWorkMulToUser work user logM tables =
      Leopard.workU16ToUserBytes (work.map fun v => mulLog16 tables v logM) := by
  obtain ⟨hout, hread⟩ := foldl_user_set (fun v => mulLog16 tables v logM) (wordCode.flatten work)
    (show user.length = user.length / 64 * 64 by omega)
    (fun c i => lowByte (mulLog16 tables (work.getD (c * 32 + i) 0#16) logM))
    (fun c i => highByte (mulLog16 tables (work.getD (c * 32 + i) 0#16) logM))
    (fun c _ i hi => by rw [userByte_low hi, wordAt_flatten])
    (fun c _ i hi => by rw [userByte_high hi, wordAt_flatten]) rfl
  rw [scalarWorkMulToUser, show min (work.length / 32) (user.length / 64) = user.length / 64 by omega]
  exact eq_workU16ToUserBytes (hout.trans hlen) (fun p hp => hread p (by omega)) (hlen ▸ h64)

theorem scalarUserToWorkMul_eq (tables : TablesRef) (logM : BitVec 16)
    (hlen : user.length = out.length * 2) (h64 : 64 ∣ user.length) :
    scalarUserToWorkMul user out logM tables =
      (userBytesToWorkU16 user).map fun v => mulLog16 tables v logM := by
  obtain ⟨hout, hread⟩ := foldl_blocks_set (m := 32) (n := user.length / 64) (N := out.length) 0#16
    (fun c i k => k = c * 32 + i)
    (fun out block i => out.set (block * 32 + i) (mulLog16 tables
      (user.getD (block * 64 + (i + 32)) 0#8 ++ user.getD (block * 64 + i) 0#8) logM))
    (fun k => mulLog16 tables (userWord user k) logM)
    (show ∀ c k, c * 32 ≤ k ∧ k < (c + 1) * 32 ↔ _ by
      intro c k
      constructor
      · intro hk
        exact ⟨k - c * 32, by omega, by omega⟩
      · rintro ⟨i, hi, hk⟩
        omega) (by
      intro c hc i hi data hdata
      refine ⟨by rw [List.length_set, hdata], fun k => ?_⟩
      rw [getD_set]
      by_cases hk : c * 32 + i = k
      · rw [if_pos ⟨hk, by omega⟩, if_pos hk.symm, userWord,
          show 64 * (k / 32) + k % 32 + 32 = c * 64 + (i + 32) by omega,
          show 64 * (k / 32) + k % 32 = c * 64 + i by omega]
      · rw [if_neg (fun h => hk h.1), if_neg (fun h => hk h.symm)]) rfl
  rw [scalarUserToWorkMul, show min (user.length / 64) (out.length / 32) = user.length / 64 by omega]
  apply getD_ext 0#16
  · rw [hout, List.length_map, length_userBytesToWorkU16]
    omega
  · intro p hp
    rw [hout] at hp
    rw [getD_map_of_lt _ _ _ (by rw [length_userBytesToWorkU16]; omega) 0#16,
      getD_userBytesToWorkU16 (by omega)]
    exact (hread p).trans (if_pos (by omega))

end Conversions

section Calls

variable {user dst : List (BitVec 8)} {work out scratch : List (BitVec 16)} {t : TablesRef}
  {cache : MatrixCache}

theorem Machine.userBytesToWorkU16Into_eq (machine : Machine) (hlen : user.length = out.length * 2)
    (h64 : 64 ∣ user.length) :
    machine.userBytesToWorkU16Into user out = some (userBytesToWorkU16 user) := by
  have hdst : (wordCode.flatten out).length = user.length := by
    rw [PairCode.length_flatten, hlen, Nat.mul_comm]
  have hssse3 := toWork128_eq (computes_keepPlanes 16) hdst h64
  rw [List.map_id] at hssse3
  rw [userBytesToWorkU16Into, if_pos ⟨hlen, by omega⟩, userBytesToWorkBytes]
  split_ifs
  · exact congrArg some hssse3
  · exact congrArg some hssse3
  · exact congrArg some (userBytesToWorkBytesScalar_eq hdst h64)

theorem Machine.workU16ToUserBytes_eq (machine : Machine) (hlen : user.length = work.length * 2)
    (h64 : 64 ∣ user.length) :
    machine.workU16ToUserBytes work user = Leopard.workU16ToUserBytes work := by
  rw [Machine.workU16ToUserBytes, workBytesToUserBytes, workBytesToUserBytesSsse3_eq hlen h64,
    workBytesToUserBytesScalar_eq hlen h64, ite_self, ite_self]

theorem userToWorkSsse3_eq (ht : t.Built) (logM : BitVec 16) (hlen : user.length = out.length * 2)
    (h64 : 64 ∣ user.length) :
    userToWorkSsse3 user out (NibbleTables16.buildDirect t logM) =
      (userBytesToWorkU16 user).map (mul16 logM) :=
  toWork128_eq (computes_nibble128 ht logM) (by rw [PairCode.length_flatten, hlen, Nat.mul_comm]) h64

theorem userToWorkAvx2_eq (ht : t.Built) (logM : BitVec 16) (hlen : user.length = out.length * 2)
    (h64 : 64 ∣ user.length) :
    userToWorkAvx2 user out (NibbleTables16.buildDirect t logM) =
      (userBytesToWorkU16 user).map (mul16 logM) :=
  toWork256_eq (computes_nibble256 ht logM) (by rw [PairCode.length_flatten, hlen, Nat.mul_comm]) h64

theorem userToWorkGfni_eq (ht : t.Built) (logM : BitVec 16) (hlen : user.length = out.length * 2)
    (h64 : 64 ∣ user.length) :
    userToWorkGfni user out (matrices logM t) = (userBytesToWorkU16 user).map (mul16 logM) := by
  rw [userToWorkGfni, pairedBlocks_eq _ h64]
  exact toWork256_eq (computes_gfni ht logM) (by rw [PairCode.length_flatten, hlen, Nat.mul_comm]) h64

theorem workToUserSsse3_eq (ht : t.Built) (logM : BitVec 16) (hlen : user.length = work.length * 2)
    (h64 : 64 ∣ user.length) :
    workToUserSsse3 work user (NibbleTables16.buildDirect t logM) =
      Leopard.workU16ToUserBytes (work.map (mul16 logM)) :=
  toUser128_eq (computes_nibble128 ht logM) hlen h64

theorem workToUserAvx2_eq (ht : t.Built) (logM : BitVec 16) (hlen : user.length = work.length * 2)
    (h64 : 64 ∣ user.length) :
    workToUserAvx2 work user (NibbleTables16.buildDirect t logM) =
      Leopard.workU16ToUserBytes (work.map (mul16 logM)) :=
  toUser256_eq (computes_nibble256 ht logM) hlen h64

theorem workToUserGfni_eq (ht : t.Built) (logM : BitVec 16) (hlen : user.length = work.length * 2)
    (h64 : 64 ∣ user.length) :
    workToUserGfni work user (matrices logM t) =
      Leopard.workU16ToUserBytes (work.map (mul16 logM)) := by
  rw [workToUserGfni, pairedBlocks_eq _ h64]
  exact toUser256_eq (computes_gfni ht logM) hlen h64

theorem map_mul16_modulus {logM : BitVec 16} (h : logM.toNat = modulus 16) (words : List (BitVec 16)) :
    words.map (mul16 logM) = words := by
  rw [funext (mul16_modulus h), List.map_id']

theorem Machine.userToWorkMul_spec (machine : Machine) (ht : t.Built) (logM : BitVec 16)
    (hlen : user.length = out.length * 2) (h64 : 64 ∣ user.length)
    (hscratch : machine.std = true → scratch.length = out.length) (hcache : cache.Sound) :
    ∃ scratch' more, scratch'.length = scratch.length ∧
      machine.userToWorkMul user out scratch logM t cache =
        some (((userBytesToWorkU16 user).map (mul16 logM), scratch'), lookUps more cache) := by
  have hmod : user.length % 64 = 0 := Nat.mod_eq_zero_of_dvd h64
  have hwork : (userBytesToWorkU16 user).length = out.length := by
    rw [length_userBytesToWorkU16]
    omega
  have hpass : ¬(user.length ≠ out.length * 2 ∨ user.length % 64 ≠ 0 ∨
      (machine.std ∧ scratch.length ≠ out.length)) := by
    rw [not_or, not_or, not_and, not_not, not_not, not_not]
    exact ⟨hlen, hmod, hscratch⟩
  rw [Machine.userToWorkMul, if_neg hpass]
  simp only [NibbleTables16.build_eq ht, (cachedMatrices_spec hcache logM t).1,
    userToWorkGfni_eq ht logM hlen h64, userToWorkAvx2_eq ht logM hlen h64,
    userToWorkSsse3_eq ht logM hlen h64, scalarUserToWorkMul_eq t logM hlen h64, mulLog16_eq ht]
  split_ifs with hm havx2 hgfni hssse3 hnostd hstd
  · rw [machine.userBytesToWorkU16Into_eq hlen h64, map_mul16_modulus hm]
    exact ⟨scratch, [], rfl, rfl⟩
  · exact ⟨scratch, [(logM, t)], rfl, rfl⟩
  · exact ⟨scratch, [], rfl, rfl⟩
  · exact ⟨scratch, [], rfl, rfl⟩
  · exact ⟨scratch, [], rfl, rfl⟩
  · rw [machine.userBytesToWorkU16Into_eq (hscratch hstd ▸ hlen) h64]
    refine ⟨userBytesToWorkU16 user, [], hwork.trans (hscratch hstd).symm, ?_⟩
    rw [← mulgf16_eq ht machine logM hwork]
    rfl
  · exact ⟨scratch, [], rfl, rfl⟩

theorem Machine.workMulToUser_spec (machine : Machine) (ht : t.Built) (logM : BitVec 16)
    (hlen : user.length = work.length * 2) (h64 : 64 ∣ user.length)
    (hscratch : machine.std = true → scratch.length = work.length) (hcache : cache.Sound) :
    ∃ scratch' more, scratch'.length = scratch.length ∧
      machine.workMulToUser work user scratch logM t cache =
        some ((Leopard.workU16ToUserBytes (work.map (mul16 logM)), scratch'), lookUps more cache) := by
  have hmod : user.length % 64 = 0 := Nat.mod_eq_zero_of_dvd h64
  have hpass : ¬(user.length ≠ work.length * 2 ∨ user.length % 64 ≠ 0 ∨
      (machine.std ∧ scratch.length ≠ work.length)) := by
    rw [not_or, not_or, not_and, not_not, not_not, not_not]
    exact ⟨hlen, hmod, hscratch⟩
  rw [Machine.workMulToUser, if_neg hpass]
  simp only [NibbleTables16.build_eq ht, (cachedMatrices_spec hcache logM t).1,
    workToUserGfni_eq ht logM hlen h64, workToUserAvx2_eq ht logM hlen h64,
    workToUserSsse3_eq ht logM hlen h64, scalarWorkMulToUser_eq t logM hlen h64, mulLog16_eq ht]
  split_ifs with hm havx2 hgfni hssse3 hnostd hstd
  · rw [machine.workU16ToUserBytes_eq hlen h64, map_mul16_modulus hm]
    exact ⟨scratch, [], rfl, rfl⟩
  · exact ⟨scratch, [(logM, t)], rfl, rfl⟩
  · exact ⟨scratch, [], rfl, rfl⟩
  · exact ⟨scratch, [], rfl, rfl⟩
  · exact ⟨scratch, [], rfl, rfl⟩
  · have hproduct := mulgf16_eq ht machine logM (hscratch hstd).symm
    rw [hproduct, machine.workU16ToUserBytes_eq (by rw [List.length_map]; exact hlen) h64]
    refine ⟨work.map (mul16 logM), [], ?_, rfl⟩
    rw [List.length_map, hscratch hstd]
  · exact ⟨scratch, [], rfl, rfl⟩

end Calls

section Exact

theorem workU16ToUserBytes_userBytesToWorkU16 {user : List (BitVec 8)} (h64 : 64 ∣ user.length) :
    workU16ToUserBytes (userBytesToWorkU16 user) = user := by
  have hlen : (userBytesToWorkU16 user).length * 2 = user.length := by
    rw [length_userBytesToWorkU16]
    omega
  apply getD_ext 0#8
  · rw [length_workU16ToUserBytes, hlen]
  · intro p hp
    rw [length_workU16ToUserBytes] at hp
    rw [getD_workU16ToUserBytes hp, getD_userBytesToWorkU16 (by omega)]
    split_ifs with hlow
    · refine (lowByte_append _ _).trans ?_
      congr 1
      omega
    · refine (highByte_append _ _).trans ?_
      congr 1
      omega

theorem userBytesToWorkU16_workU16ToUserBytes {work : List (BitVec 16)} (h64 : 64 ∣ work.length * 2) :
    userBytesToWorkU16 (workU16ToUserBytes work) = work := by
  have hlen : (workU16ToUserBytes work).length = work.length * 2 := length_workU16ToUserBytes work
  apply getD_ext 0#16
  · rw [length_userBytesToWorkU16, hlen]
    omega
  · intro p hp
    rw [length_userBytesToWorkU16, hlen] at hp
    rw [getD_userBytesToWorkU16 (by omega), getD_workU16ToUserBytes (by omega),
      getD_workU16ToUserBytes (by omega), if_neg (by omega), if_pos (by omega),
      show (64 * (p / 32) + p % 32 + 32) / 64 * 32 + (64 * (p / 32) + p % 32 + 32) % 32 = p by omega,
      show (64 * (p / 32) + p % 32) / 64 * 32 + (64 * (p / 32) + p % 32) % 32 = p by omega]
    exact highByte_append_lowByte _

/-- The layout conversions on every machine, alone and together with a product. -/
structure LayoutExact (t : TablesRef) (logM : BitVec 16) : Prop where
  toWork : ∀ (machine : Machine) (user : List (BitVec 8)) (out : List (BitVec 16)),
    user.length = out.length * 2 → 64 ∣ user.length →
    ∃ work, machine.userBytesToWorkU16Into user out = some work ∧ work.length = out.length ∧
      (∀ b i, b < user.length / 64 → i < 32 → (work.getD (32 * b + i) 0#16).toNat =
        (user.getD (64 * b + i) 0#8).toNat + 256 * (user.getD (64 * b + 32 + i) 0#8).toNat) ∧
      ∀ (machine' : Machine) dst, dst.length = user.length →
        machine'.workU16ToUserBytes work dst = user
  toUser : ∀ (machine machine' : Machine) (work out : List (BitVec 16)) (user : List (BitVec 8)),
    user.length = work.length * 2 → 64 ∣ user.length → out.length = work.length →
    machine.userBytesToWorkU16Into (machine'.workU16ToUserBytes work user) out = some work
  kernelsToWork : ∀ (target : KernelTarget) (user : List (BitVec 8)) (out : List (BitVec 16)),
    user.length = out.length * 2 → 64 ∣ user.length →
    let product := (userBytesToWorkU16 user).map fun v => mulLog16 t v logM
    scalarUserToWorkMul user out logM t = product ∧
      userToWorkSsse3 user out (NibbleTables16.build target t logM) = product ∧
      userToWorkAvx2 user out (NibbleTables16.build target t logM) = product ∧
      userToWorkGfni user out (matrices logM t) = product
  kernelsToUser : ∀ (target : KernelTarget) (work : List (BitVec 16)) (user : List (BitVec 8)),
    user.length = work.length * 2 → 64 ∣ user.length →
    let product := workU16ToUserBytes (work.map fun v => mulLog16 t v logM)
    scalarWorkMulToUser work user logM t = product ∧
      workToUserSsse3 work user (NibbleTables16.build target t logM) = product ∧
      workToUserAvx2 work user (NibbleTables16.build target t logM) = product ∧
      workToUserGfni work user (matrices logM t) = product
  /-- Conversion and then a product, on any two machines. -/
  mulToWork : ∀ (machine machine' : Machine) requests (user : List (BitVec 8))
    (out scratch : List (BitVec 16)), user.length = out.length * 2 → 64 ∣ user.length →
    (machine.std = true → scratch.length = out.length) →
    ∃ work scratch' more, machine'.userBytesToWorkU16Into user out = some work ∧
      machine.userToWorkMul user out scratch logM t (lookUps requests .empty) =
        some ((mulgf16 machine' out work logM t, scratch'), lookUps (requests ++ more) .empty)
  /-- A product and then conversion. -/
  mulToUser : ∀ (machine machine' : Machine) requests (work scratch : List (BitVec 16))
    (user : List (BitVec 8)), user.length = work.length * 2 → 64 ∣ user.length →
    (machine.std = true → scratch.length = work.length) →
    ∀ out : List (BitVec 16), out.length = work.length →
    ∃ scratch' more, machine.workMulToUser work user scratch logM t (lookUps requests .empty) =
      some ((machine'.workU16ToUserBytes (mulgf16 machine' out work logM t) user, scratch'),
        lookUps (requests ++ more) .empty)
  /-- The complement of the logarithm undoes the product. -/
  undo : ∀ (machine machine' : Machine) requests requests' (user dst : List (BitVec 8))
    (out scratch scratch' : List (BitVec 16)), user.length = out.length * 2 → 64 ∣ user.length →
    dst.length = user.length → (machine.std = true → scratch.length = out.length) →
    (machine'.std = true → scratch'.length = out.length) →
    ∃ result result',
      machine.userToWorkMul user out scratch logM t (lookUps requests .empty) = some result ∧
      machine'.workMulToUser result.1.1 dst scratch' (65535#16 - logM) t (lookUps requests' .empty) =
        some result' ∧ result'.1.1 = user

variable {t : TablesRef}

theorem lookUps_append (requests more : List (BitVec 16 × TablesRef)) (cache : MatrixCache) :
    lookUps more (lookUps requests cache) = lookUps (requests ++ more) cache :=
  (List.foldl_append ..).symm

theorem map_mul16_complement (logM : BitVec 16) (words : List (BitVec 16)) :
    (words.map (mul16 logM)).map (mul16 (65535#16 - logM)) = words := by
  have hmod : BitVec.ofNat 16 (modulus 16) = 65535#16 := by decide
  have hmul : gf16Kernel.mul = mul16 := rfl
  have h := gf16Kernel.map_invErr logM words
  rw [hmod, hmul] at h
  exact h

/-- Conversion is a bijection, and every fused kernel is conversion with a product. -/
theorem gf16_layout_exact (ht : t.Built) (logM : BitVec 16) : LayoutExact t logM where
  toWork machine user out hlen h64 := by
    have hwork : (userBytesToWorkU16 user).length * 2 = user.length := by
      rw [length_userBytesToWorkU16]
      omega
    refine ⟨userBytesToWorkU16 user, machine.userBytesToWorkU16Into_eq hlen h64, by omega, ?_, ?_⟩
    · intro b i hb hi
      rw [getD_userBytesToWorkU16 (by omega), show (32 * b + i) / 32 = b by omega,
        show (32 * b + i) % 32 = i by omega, show 64 * b + i + 32 = 64 * b + 32 + i by omega,
        BitVec.toNat_append, ← Nat.shiftLeft_add_eq_or_of_lt (BitVec.isLt _), Nat.shiftLeft_eq,
        Nat.mul_comm, Nat.add_comm]
    · intro machine' dst hdst
      rw [machine'.workU16ToUserBytes_eq (hdst.trans hwork.symm) (hdst ▸ h64)]
      exact workU16ToUserBytes_userBytesToWorkU16 h64
  toUser machine machine' work out user hlen h64 hout := by
    have hbytes : (workU16ToUserBytes work).length = user.length := by
      rw [length_workU16ToUserBytes, hlen]
    rw [machine'.workU16ToUserBytes_eq hlen h64,
      machine.userBytesToWorkU16Into_eq (by rw [hbytes, hout, hlen]) (by rw [hbytes]; exact h64),
      userBytesToWorkU16_workU16ToUserBytes (hlen ▸ h64)]
  kernelsToWork target user out hlen h64 := by
    simp only [mulLog16_eq ht, NibbleTables16.build_eq ht]
    refine ⟨?_, userToWorkSsse3_eq ht logM hlen h64, userToWorkAvx2_eq ht logM hlen h64,
      userToWorkGfni_eq ht logM hlen h64⟩
    simpa only [mulLog16_eq ht] using scalarUserToWorkMul_eq t logM hlen h64
  kernelsToUser target work user hlen h64 := by
    simp only [mulLog16_eq ht, NibbleTables16.build_eq ht]
    refine ⟨?_, workToUserSsse3_eq ht logM hlen h64, workToUserAvx2_eq ht logM hlen h64,
      workToUserGfni_eq ht logM hlen h64⟩
    simpa only [mulLog16_eq ht] using scalarWorkMulToUser_eq t logM hlen h64
  mulToWork machine machine' requests user out scratch hlen h64 hscratch := by
    have hwork : (userBytesToWorkU16 user).length = out.length := by
      rw [length_userBytesToWorkU16]
      omega
    obtain ⟨scratch', more, -, hcall⟩ := machine.userToWorkMul_spec ht logM hlen h64 hscratch
      (sound_lookUps requests MatrixCache.sound_empty)
    refine ⟨userBytesToWorkU16 user, scratch', more, machine'.userBytesToWorkU16Into_eq hlen h64, ?_⟩
    rw [hcall, mulgf16_eq ht machine' logM hwork, lookUps_append]
  mulToUser machine machine' requests work scratch user hlen h64 hscratch out hout := by
    obtain ⟨scratch', more, -, hcall⟩ := machine.workMulToUser_spec ht logM hlen h64 hscratch
      (sound_lookUps requests MatrixCache.sound_empty)
    refine ⟨scratch', more, ?_⟩
    rw [hcall, mulgf16_eq ht machine' logM hout.symm, lookUps_append,
      machine'.workU16ToUserBytes_eq (by rw [List.length_map]; exact hlen) h64]
  undo machine machine' requests requests' user dst out scratch scratch' hlen h64 hdst hscratch
      hscratch' := by
    obtain ⟨s, more, -, hfirst⟩ := machine.userToWorkMul_spec ht logM hlen h64 hscratch
      (sound_lookUps requests MatrixCache.sound_empty)
    have hwork : ((userBytesToWorkU16 user).map (mul16 logM)).length = out.length := by
      rw [List.length_map, length_userBytesToWorkU16]
      omega
    obtain ⟨s', more', -, hsecond⟩ := machine'.workMulToUser_spec ht (65535#16 - logM)
      (hdst.trans (hlen.trans (by rw [hwork]))) (hdst ▸ h64) (hwork.symm ▸ hscratch')
      (sound_lookUps requests' MatrixCache.sound_empty)
    refine ⟨_, _, hfirst, hsecond, ?_⟩
    exact (congrArg workU16ToUserBytes (map_mul16_complement logM _)).trans
      (workU16ToUserBytes_userBytesToWorkU16 h64)

theorem gf16_layout_exact_canonical : LayoutExact .canonical 7#16 :=
  gf16_layout_exact built_canonical 7#16

end Exact

end Leopard

end ErasureCodec
