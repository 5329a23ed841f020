import ErasureCodec.Leopard.GfniMatrices

namespace ErasureCodec

namespace Leopard

open Reg

section Definitions

/-- The little-endian targets for which the kernels are compiled differently. -/
inductive KernelTarget where
  | x86Std
  /-- Without `std`, for a processor that always has AVX2. -/
  | x86NoStdAvx2
  | other (std : Bool)
  deriving DecidableEq

/-- What a machine detects when it runs; GFNI counts with a byte backend that uses it. -/
structure Machine where
  target : KernelTarget
  avx2 : Bool
  ssse3 : Bool
  gfni : Bool

def simdMinLen : Nat := 16

def nostdAvx2ButterflyMinLen : Nat := 64

def NibbleTables16.build (target : KernelTarget) (t : TablesRef) (logM : BitVec 16) : NibbleTables16 :=
  match target with
  | .x86Std => buildBasis t logM
  | .x86NoStdAvx2 => buildBasis t logM
  | .other _ => buildDirect t logM

def mulgf16TabledScalar (accumulate : Bool) (out input : List (BitVec 16)) (t : NibbleTables16) :
    List (BitVec 16) :=
  zipInto (fun o v => mergeWord accumulate (tabledProduct t v) o) out input

/-- A row of a table in a register of one lane. -/
def loadRow (row : List (BitVec 8)) : Reg := Reg.loadu row 0

/-- `bcast`. -/
def bcast (row : List (BitVec 8)) : Reg := broadcastI128 (Reg.loadu row 0)

def mulgf16Ssse3 (accumulate : Bool) (out input : List (BitVec 16)) (t : NibbleTables16) :
    List (BitVec 16) :=
  let n := input.length
  let chunks := n / 16
  let inBytes := wordCode.flatten input
  let outBytes := (List.range chunks).foldl (fun outBytes c =>
    let off := c * 32
    let r := nibbleProduct loadRow t (Reg.loadu inBytes off) (Reg.loadu inBytes (off + 16))
    let r0 := mergeReg accumulate r.1 (Reg.loadu outBytes off)
    let r1 := mergeReg accumulate r.2 (Reg.loadu outBytes (off + 16))
    Reg.storeu 16 (Reg.storeu 16 outBytes off r0) (off + 16) r1) (wordCode.flatten out)
  let out := wordCode.unflatten outBytes
  let done := chunks * 16
  if done < n then out.take done ++ mulgf16TabledScalar accumulate (out.drop done) (input.drop done) t
  else out

/-- One round of `avx2_core` on the bytes of both lanes. -/
def avx2Round (accumulate butterfly inverse : Bool) (t : NibbleTables16)
    (bytes : List (BitVec 8) × List (BitVec 8)) (c : Nat) : List (BitVec 8) × List (BitVec 8) :=
  let off := c * 64
  let y0 := Reg.loadu bytes.2 off
  let y1 := Reg.loadu bytes.2 (off + 32)
  let x0 := if accumulate || butterfly then Reg.loadu bytes.1 off else y0
  let x1 := if accumulate || butterfly then Reg.loadu bytes.1 (off + 32) else y1
  let a := if inverse then Reg.xorSi y0 x0 else y0
  let b := if inverse then Reg.xorSi y1 x1 else y1
  let r := nibbleProduct bcast t a b
  let o0 := if accumulate || butterfly then Reg.xorSi r.1 x0 else r.1
  let o1 := if accumulate || butterfly then Reg.xorSi r.2 x1 else r.2
  let outBytes := Reg.storeu 32 (Reg.storeu 32 bytes.1 off o0) (off + 32) o1
  if butterfly then
    let v0 := if inverse then a else Reg.xorSi y0 o0
    let v1 := if inverse then b else Reg.xorSi y1 o1
    (outBytes, Reg.storeu 32 (Reg.storeu 32 bytes.2 off v0) (off + 32) v1)
  else (outBytes, bytes.2)

/-- `avx2_core`: the product alone, or both halves of a butterfly. -/
def avx2Core (accumulate butterfly inverse : Bool) (out input : List (BitVec 16))
    (t : NibbleTables16) : List (BitVec 16) × List (BitVec 16) :=
  let n := input.length
  let chunks := n / 32
  let bytes := (List.range chunks).foldl (avx2Round accumulate butterfly inverse t)
    (wordCode.flatten out, wordCode.flatten input)
  let out := wordCode.unflatten bytes.1
  let input := wordCode.unflatten bytes.2
  let done := chunks * 32
  if done < n then
    if butterfly then
      let tail := input.drop done
      let tail := if inverse then zipInto (· ^^^ ·) tail (out.drop done) else tail
      let rest := mulgf16Ssse3 true (out.drop done) tail t
      let tail := if inverse then tail else zipInto (· ^^^ ·) tail rest
      (out.take done ++ rest, input.take done ++ tail)
    else (out.take done ++ mulgf16Ssse3 accumulate (out.drop done) (input.drop done) t, input)
  else (out, input)

def mulgf16Avx2 (accumulate : Bool) (out input : List (BitVec 16)) (t : NibbleTables16) :
    List (BitVec 16) := (avx2Core accumulate false false out input t).1

def butterflyAvx2 (inverse : Bool) (out input : List (BitVec 16)) (t : NibbleTables16) :
    List (BitVec 16) × List (BitVec 16) := avx2Core true true inverse out input t

def mulgf16Simd (machine : Machine) (accumulate : Bool) (out input : List (BitVec 16))
    (logM : BitVec 16) (tables : TablesRef) : List (BitVec 16) :=
  let t := NibbleTables16.build machine.target tables logM
  if machine.target = .x86Std ∧ machine.avx2 then mulgf16Avx2 accumulate out input t
  else if machine.target = .x86Std ∧ machine.ssse3 then mulgf16Ssse3 accumulate out input t
  else mulgf16TabledScalar accumulate out input t

def shouldUseSimd (machine : Machine) (len : Nat) : Bool :=
  simdMinLen ≤ len && machine.target = .x86Std

/-- A loop over two slices in groups of four. -/
def unrolled4 (f : BitVec 16 → BitVec 16 → BitVec 16) (out input : List (BitVec 16)) :
    List (BitVec 16) :=
  let chunksIn := asChunks4 input
  let chunksOut := asChunks4 out
  ((zipInto (fun dst src => (f dst.1 src.1, f dst.2.1 src.2.1, f dst.2.2.1 src.2.2.1,
    f dst.2.2.2 src.2.2.2)) chunksOut.1 chunksIn.1).flatMap fun g => [g.1, g.2.1, g.2.2.1, g.2.2.2]) ++
    zipInto f chunksOut.2 chunksIn.2

/-- The loop by the logarithm tables. -/
def mulgf16Scalar (accumulate : Bool) (out input : List (BitVec 16)) (logM : BitVec 16)
    (tables : TablesRef) : List (BitVec 16) :=
  unrolled4 (fun o v => mergeWord accumulate (mulLog16 tables v logM) o) out input

/-- `mulgf16`: the output takes a copy where the logarithm is the modulus. -/
def mulgf16 (machine : Machine) (out input : List (BitVec 16)) (logM : BitVec 16)
    (tables : TablesRef) : List (BitVec 16) :=
  if logM.toNat = modulus 16 then input
  else if shouldUseSimd machine input.length then mulgf16Simd machine false out input logM tables
  else mulgf16Scalar false out input logM tables

/-- Whole registers of `width` bytes from a position on. -/
def xorVectors (width start count : Nat) (dst src : List (BitVec 8)) : List (BitVec 8) :=
  (List.range count).foldl (fun dst k =>
    let off := start + k * width
    Reg.storeu width dst off (Reg.xorSi (Reg.loadu dst off) (Reg.loadu src off))) dst

/-- The bytes behind the registers. -/
def xorTail (done : Nat) (dst src : List (BitVec 8)) : List (BitVec 8) :=
  dst.take done ++ zipInto (· ^^^ ·) (dst.drop done) (src.drop done)

/-- Blocks of `per` registers of `width` bytes, the registers behind them, then single bytes. -/
def xorBlocks (width per : Nat) (dst src : List (BitVec 8)) : List (BitVec 8) :=
  let chunks := dst.length / (width * per)
  let dst := (List.range chunks).foldl (fun dst c =>
    xorVectors width (c * (width * per)) per dst src) dst
  let rest := (dst.length - chunks * (width * per)) / width
  xorTail (chunks * (width * per) + rest * width)
    (xorVectors width (chunks * (width * per)) rest dst src) src

def sliceXorU16Avx2 (dst src : List (BitVec 8)) : List (BitVec 8) :=
  let chunks := dst.length / 32
  xorTail (chunks * 32) (xorVectors 32 0 chunks dst src) src

/-- `slice_xor_u16_u64`: a `u64` is a register of eight bytes. -/
def sliceXorU16U64 (dst src : List (BitVec 8)) : List (BitVec 8) :=
  let chunks := dst.length / 64
  let dst := (List.range chunks).foldl (fun dst c => xorVectors 8 (c * 64) 8 dst src) dst
  let rest := (dst.length - chunks * 64) / 8
  xorTail (chunks * 64 + rest * 8) (xorVectors 8 (chunks * 64) rest dst src) src

def sliceXorU16 (machine : Machine) (dst src : List (BitVec 16)) : List (BitVec 16) :=
  if machine.target = .x86Std ∧ dst.length = 32 ∧ src.length = 32 then zipInto (· ^^^ ·) dst src
  else if machine.target = .x86Std ∧ machine.avx2 then
    wordCode.unflatten (sliceXorU16Avx2 (wordCode.flatten dst) (wordCode.flatten src))
  else wordCode.unflatten (sliceXorU16U64 (wordCode.flatten dst) (wordCode.flatten src))

def mulgf16Xor (machine : Machine) (out input : List (BitVec 16)) (logM : BitVec 16)
    (tables : TablesRef) : List (BitVec 16) :=
  if logM.toNat = modulus 16 then sliceXorU16 machine out input
  else if shouldUseSimd machine input.length then mulgf16Simd machine true out input logM tables
  else mulgf16Scalar true out input logM tables

/-- The closure `process` of `run`, on block `chunk`. -/
def gfniProcess (inverse : Bool) (m : Matrices) (bytes : List (BitVec 8) × List (BitVec 8))
    (chunk : Nat) : List (BitVec 8) × List (BitVec 8) :=
  let off := chunk * 32
  let x := Reg.loadu bytes.1 off
  let y := Reg.loadu bytes.2 off
  let value := if inverse then Reg.xorSi x y else y
  let xNew := Reg.xorSi x (planarProduct m.a m.b m.c m.d value)
  let yNew := if inverse then value else Reg.xorSi y xNew
  (Reg.storeu 32 bytes.1 off xNew, Reg.storeu 32 bytes.2 off yNew)

/-- Few blocks one by one, many in pairs. -/
def pairedLoop {σ : Type} (count : Nat) (process : σ → Nat → σ) (s : σ) : σ :=
  if count < 4 then (List.range count).foldl process s
  else
    let s := (List.range (count / 2)).foldl (fun s k => process (process s (2 * k)) (2 * k + 1)) s
    let chunk := 2 * (count / 2)
    if chunk < count then process s chunk else s

/-- One element of a butterfly. -/
def butterflyWord (inverse : Bool) (f : BitVec 16 → BitVec 16) (x y : BitVec 16) :
    BitVec 16 × BitVec 16 :=
  let y := if inverse then y ^^^ x else y
  let x := x ^^^ f y
  (x, if inverse then y else y ^^^ x)

/-- The elements of a butterfly one by one. -/
def butterflyWords (inverse : Bool) (f : BitVec 16 → BitVec 16) (xs ys : List (BitVec 16)) :
    List (BitVec 16) × List (BitVec 16) :=
  (List.zipWith (fun x y => (butterflyWord inverse f x y).1) xs ys,
    List.zipWith (fun x y => (butterflyWord inverse f x y).2) xs ys)

/-- `gfni_butterfly::run`. -/
def gfniRun (inverse : Bool) (out input : List (BitVec 16)) (logM : BitVec 16) (t : TablesRef)
    (cache : MatrixCache) : (List (BitVec 16) × List (BitVec 16)) × MatrixCache :=
  let found := cachedMatrices logM t cache
  let count := input.length / 16
  let bytes := pairedLoop count (gfniProcess inverse found.1)
    (wordCode.flatten out, wordCode.flatten input)
  let out := wordCode.unflatten bytes.1
  let input := wordCode.unflatten bytes.2
  let done := count * 16
  let tail := butterflyWords inverse (fun v => mulLog16 t v logM) (out.drop done) (input.drop done)
  ((out.take done ++ tail.1, input.take done ++ tail.2), found.2)

/-- `try_butterfly_avx2`; nothing is written where it does not apply. -/
def tryButterflyAvx2 (machine : Machine) (inverse : Bool) (out input : List (BitVec 16))
    (logM : BitVec 16) (tables : TablesRef) (cache : MatrixCache) :
    Option ((List (BitVec 16) × List (BitVec 16)) × MatrixCache) :=
  if out.length ≠ input.length ∨ input.length < 32 ∨ machine.avx2 = false then none
  else if machine.gfni then some (gfniRun inverse out input logM tables cache)
  else some (butterflyAvx2 inverse out input (NibbleTables16.build machine.target tables logM), cache)

/-- The kernels that run a whole butterfly. -/
def wholeButterfly (machine : Machine) (inverse : Bool) (dst src : List (BitVec 16))
    (logM : BitVec 16) (tables : TablesRef) (cache : MatrixCache) :
    Option ((List (BitVec 16) × List (BitVec 16)) × MatrixCache) :=
  match machine.target with
  | .x86NoStdAvx2 =>
    if dst.length = src.length ∧ nostdAvx2ButterflyMinLen ≤ src.length then
      some (butterflyAvx2 inverse dst src (NibbleTables16.build machine.target tables logM), cache)
    else none
  | .x86Std => tryButterflyAvx2 machine inverse dst src logM tables cache
  | .other _ => none

def dit2Step16 (machine : Machine) (dst src : List (BitVec 16)) (logM : BitVec 16)
    (tables : TablesRef) (cache : MatrixCache) :
    (List (BitVec 16) × List (BitVec 16)) × MatrixCache :=
  if logM.toNat = modulus 16 then ((dst, sliceXorU16 machine src dst), cache)
  else
    match wholeButterfly machine false dst src logM tables cache with
    | some result => result
    | none =>
      let dst := mulgf16Xor machine dst src logM tables
      ((dst, sliceXorU16 machine src dst), cache)

def dit2StepInv16 (machine : Machine) (dst src : List (BitVec 16)) (logM : BitVec 16)
    (tables : TablesRef) (cache : MatrixCache) :
    (List (BitVec 16) × List (BitVec 16)) × MatrixCache :=
  if logM.toNat = modulus 16 then ((dst, sliceXorU16 machine src dst), cache)
  else
    match wholeButterfly machine true dst src logM tables cache with
    | some result => result
    | none =>
      let src := sliceXorU16 machine src dst
      ((mulgf16Xor machine dst src logM tables, src), cache)

end Definitions

section Products

variable {accumulate : Bool} {f : BitVec 16 → BitVec 16} {out input words : List (BitVec 16)}

/-- The products of the elements, stored or added. -/
def mergedWords (accumulate : Bool) (f : BitVec 16 → BitVec 16) (out input : List (BitVec 16)) :
    List (BitVec 16) :=
  List.zipWith (fun o v => mergeWord accumulate (f v) o) out input

theorem length_mergedWords (h : input.length = out.length) :
    (mergedWords accumulate f out input).length = out.length := by
  rw [mergedWords, List.length_zipWith, h, min_self]

theorem getD_mergedWords (h : input.length = out.length) {p : Nat} (hp : p < out.length) :
    (mergedWords accumulate f out input).getD p 0#16 =
      mergeWord accumulate (f (input.getD p 0#16)) (out.getD p 0#16) :=
  getD_zipWith _ _ _ _ hp (h ▸ hp) 0#16 0#16 0#16

/-- A vector loop over the bytes, and a loop for the elements after its last round. -/
theorem mergedWords_finish {bytes : List (BitVec 8)} {done : Nat}
    {rest : List (BitVec 16) → List (BitVec 16) → List (BitVec 16)}
    (h : input.length = out.length) (hrest : ∀ out input, input.length = out.length →
      rest out input = mergedWords accumulate f out input)
    (hloop : bytes.length = 2 * out.length ∧ ∀ p, p < out.length → wordAt bytes p =
      if p < done then mergeWord accumulate (f (input.getD p 0#16)) (wordAt (wordCode.flatten out) p)
      else wordAt (wordCode.flatten out) p) :
    (if done < input.length then
      (wordCode.unflatten bytes).take done ++
        rest ((wordCode.unflatten bytes).drop done) (input.drop done)
      else wordCode.unflatten bytes) = mergedWords accumulate f out input := by
  obtain ⟨hbytes, hread⟩ := hloop
  have hlen : (wordCode.unflatten bytes).length = out.length := by
    rw [PairCode.length_unflatten, hbytes]
    omega
  have htail := zipWith_tail (fun o v => mergeWord accumulate (f v) o) 0#16 0#16 h hlen (fun p hp => by
    rw [getD_unflatten_words (by omega), hread p hp, wordAt_flatten])
  split_ifs with hdone
  · rw [hrest _ _ (by rw [List.length_drop, List.length_drop, h, hlen])]
    exact htail
  · rw [List.drop_eq_nil_of_le (by omega), List.take_of_length_le (by omega)] at htail
    simpa [mergedWords] using htail

variable {t : TablesRef}

theorem NibbleTables16.build_eq (ht : t.Built) (target : KernelTarget) (logM : BitVec 16) :
    NibbleTables16.build target t logM = NibbleTables16.buildDirect t logM := by
  cases target with
  | x86Std => exact buildBasis_eq ht logM
  | x86NoStdAvx2 => exact buildBasis_eq ht logM
  | other std => rfl

theorem mulgf16TabledScalar_eq (ht : t.Built) (logM : BitVec 16) (h : input.length = out.length) :
    mulgf16TabledScalar accumulate out input (NibbleTables16.buildDirect t logM) =
      mergedWords accumulate (mul16 logM) out input := by
  simp only [mulgf16TabledScalar, tabledProduct_direct ht]
  exact zipInto_eq _ h.ge

theorem mulgf16Ssse3_eq (ht : t.Built) (logM : BitVec 16) (h : input.length = out.length) :
    mulgf16Ssse3 accumulate out input (NibbleTables16.buildDirect t logM) =
      mergedWords accumulate (mul16 logM) out input := by
  simp only [mulgf16Ssse3, storeu_storeu]
  apply mergedWords_finish h (fun _ _ => mulgf16TabledScalar_eq ht logM)
  apply foldl_store_words_one (input.length / 16) (show 16 + 16 = 2 * 16 from rfl) (fun c => by omega) _
    (fun p w => mergeWord accumulate (mul16 logM (input.getD p 0#16)) w) _ (wordCode.length_flatten _)
  intro c _ bytes j hj
  have hserves {j : Nat} (hj : j < 8) (i : Nat) (hi : i / 16 = j / 8) : Serves loadRow i :=
    serves_loadu (by omega)
  have hfirst : c * 32 = 2 * (c * 16) := by omega
  have hsecond : c * 32 + 16 = 2 * (c * 16 + 8) := by omega
  rw [word_concat (m := 8) rfl]
  split_ifs with hlow
  · rw [word_mergeReg, (word_nibbleProduct ht logM (hserves hlow) _ _).1, word_loadu _ hfirst,
      word_loadu _ hfirst, wordAt_flatten]
  · rw [word_mergeReg, (word_nibbleProduct ht logM (hserves (by omega)) _ _).2,
      word_loadu _ hsecond, word_loadu _ hsecond, wordAt_flatten,
      show c * 16 + 8 + (j - 8) = c * 16 + j by omega]

theorem foldl_fst {σ τ ι : Type*} (g : σ → τ → ι → σ) (l : List ι) (s : σ) (u : τ) :
    l.foldl (fun s i => (g s.1 s.2 i, s.2)) (s, u) = (l.foldl (fun s i => g s u i) s, u) := by
  induction l generalizing s with
  | nil => rfl
  | cons i l ih => exact ih (g s u i)

theorem serves_bcast (i : Nat) : Serves bcast i := serves_broadcast i

theorem avx2Round_product (accumulate : Bool) (t : NibbleTables16)
    (bytes : List (BitVec 8) × List (BitVec 8)) (c : Nat) :
    avx2Round accumulate false false t bytes c =
      (Reg.storeu (32 + 32) bytes.1 (c * 64) (concat 32
        (mergeReg accumulate (nibbleProduct bcast t (Reg.loadu bytes.2 (c * 64))
          (Reg.loadu bytes.2 (c * 64 + 32))).1 (Reg.loadu bytes.1 (c * 64)))
        (mergeReg accumulate (nibbleProduct bcast t (Reg.loadu bytes.2 (c * 64))
          (Reg.loadu bytes.2 (c * 64 + 32))).2 (Reg.loadu bytes.1 (c * 64 + 32)))), bytes.2) := by
  rw [← storeu_storeu]
  cases accumulate <;> rfl

theorem mulgf16Avx2_eq (ht : t.Built) (logM : BitVec 16) (h : input.length = out.length) :
    mulgf16Avx2 accumulate out input (NibbleTables16.buildDirect t logM) =
      mergedWords accumulate (mul16 logM) out input := by
  have hround := funext fun bytes => funext fun c =>
    avx2Round_product accumulate (NibbleTables16.buildDirect t logM) bytes c
  simp only [mulgf16Avx2, avx2Core, Bool.false_eq_true, if_false]
  rw [hround, foldl_fst (fun bytes inBytes c => Reg.storeu (32 + 32) bytes (c * 64) (concat 32
    (mergeReg accumulate (nibbleProduct bcast (NibbleTables16.buildDirect t logM)
      (Reg.loadu inBytes (c * 64)) (Reg.loadu inBytes (c * 64 + 32))).1 (Reg.loadu bytes (c * 64)))
    (mergeReg accumulate (nibbleProduct bcast (NibbleTables16.buildDirect t logM)
      (Reg.loadu inBytes (c * 64)) (Reg.loadu inBytes (c * 64 + 32))).2 (Reg.loadu bytes (c * 64 + 32)))))]
  simp only [PairCode.unflatten_flatten, apply_ite Prod.fst]
  apply mergedWords_finish h (fun _ _ => mulgf16Ssse3_eq ht logM)
  apply foldl_store_words_one (input.length / 32) (show 32 + 32 = 2 * 32 from rfl)
    (fun c => by omega) _
    (fun p w => mergeWord accumulate (mul16 logM (input.getD p 0#16)) w) _ (wordCode.length_flatten _)
  intro c _ bytes j hj
  have hfirst : c * 64 = 2 * (c * 32) := by omega
  have hsecond : c * 64 + 32 = 2 * (c * 32 + 16) := by omega
  rw [word_concat (m := 16) rfl]
  split_ifs with hlow
  · rw [word_mergeReg, (word_nibbleProduct ht logM (fun i _ => serves_bcast i) _ _).1,
      word_loadu _ hfirst, word_loadu _ hfirst, wordAt_flatten]
  · rw [word_mergeReg, (word_nibbleProduct ht logM (fun i _ => serves_bcast i) _ _).2,
      word_loadu _ hsecond, word_loadu _ hsecond, wordAt_flatten,
      show c * 32 + 16 + (j - 16) = c * 32 + j by omega]

theorem unrolled4_eq (f : BitVec 16 → BitVec 16 → BitVec 16) (h : input.length = out.length) :
    unrolled4 f out input = List.zipWith f out input := by
  fun_induction asChunks4 out generalizing input with
  | case1 a b c d rest ih =>
    obtain ⟨a', b', c', d', input, rfl⟩ := exists_cons_four (show 4 ≤ input.length by
      rw [h]
      simp)
    have hrest : unrolled4 f rest input = _ := ih (by simpa using h)
    simp only [unrolled4] at hrest ⊢
    simp only [asChunks4, zipInto, List.flatMap_cons, List.cons_append, List.nil_append,
      List.zipWith_cons_cons, hrest]
  | case2 rest hshort =>
    have hlt : rest.length < 4 := by
      by_contra hge
      obtain ⟨a, b, c, d, tail, rfl⟩ := exists_cons_four (Nat.not_lt.mp hge)
      exact hshort a b c d tail rfl
    simp only [unrolled4, asChunks4_short hlt, asChunks4_short (h ▸ hlt), zipInto,
      List.flatMap_nil, List.nil_append]
    exact zipInto_eq _ h.ge

end Products

section Butterflies

variable {inverse : Bool} {f : BitVec 16 → BitVec 16} {xs ys : List (BitVec 16)}

theorem butterflyWords_forward (f : BitVec 16 → BitVec 16) (xs ys : List (BitVec 16)) :
    butterflyWords false f xs ys =
      (mergedWords true f xs ys, List.zipWith (· ^^^ ·) ys (mergedWords true f xs ys)) := by
  induction xs generalizing ys with
  | nil => simp [butterflyWords, mergedWords]
  | cons x xs ih =>
    cases ys with
    | nil => simp [butterflyWords, mergedWords]
    | cons y ys =>
      have htail := ih ys
      simp only [butterflyWords, mergedWords, Prod.mk.injEq] at htail ⊢
      simp only [List.zipWith_cons_cons, htail]
      exact ⟨rfl, rfl⟩

theorem butterflyWords_inverse (f : BitVec 16 → BitVec 16) (xs ys : List (BitVec 16)) :
    butterflyWords true f xs ys =
      (mergedWords true f xs (List.zipWith (· ^^^ ·) ys xs), List.zipWith (· ^^^ ·) ys xs) := by
  induction xs generalizing ys with
  | nil => simp [butterflyWords, mergedWords]
  | cons x xs ih =>
    cases ys with
    | nil => simp [butterflyWords, mergedWords]
    | cons y ys =>
      have htail := ih ys
      simp only [butterflyWords, mergedWords, Prod.mk.injEq] at htail ⊢
      simp only [List.zipWith_cons_cons, htail]
      exact ⟨rfl, rfl⟩

theorem length_butterflyWords (inverse : Bool) (f : BitVec 16 → BitVec 16)
    (h : ys.length = xs.length) :
    (butterflyWords inverse f xs ys).1.length = xs.length ∧
      (butterflyWords inverse f xs ys).2.length = xs.length := by
  simp [butterflyWords, h]

theorem getD_butterflyWords (inverse : Bool) (f : BitVec 16 → BitVec 16)
    (h : ys.length = xs.length) {p : Nat} (hp : p < xs.length) :
    ((butterflyWords inverse f xs ys).1.getD p 0#16, (butterflyWords inverse f xs ys).2.getD p 0#16) =
      butterflyWord inverse f (xs.getD p 0#16) (ys.getD p 0#16) := by
  simp only [butterflyWords]
  rw [getD_zipWith _ _ _ _ hp (h ▸ hp) 0#16 0#16, getD_zipWith _ _ _ _ hp (h ▸ hp) 0#16 0#16]

/-- A vector loop over the bytes of both lanes, and a loop for the elements after its last round. -/
theorem butterflyWords_finish {bytes : List (BitVec 8) × List (BitVec 8)} {done : Nat}
    (h : ys.length = xs.length)
    (hloop : (bytes.1.length = 2 * xs.length ∧ bytes.2.length = 2 * xs.length) ∧
      ∀ p, p < xs.length → (wordAt bytes.1 p, wordAt bytes.2 p) =
        if p < done then butterflyWord inverse f (wordAt (wordCode.flatten xs) p)
          (wordAt (wordCode.flatten ys) p)
        else (wordAt (wordCode.flatten xs) p, wordAt (wordCode.flatten ys) p)) :
    let out := wordCode.unflatten bytes.1
    let input := wordCode.unflatten bytes.2
    let tail := butterflyWords inverse f (out.drop done) (input.drop done)
    (out.take done ++ tail.1, input.take done ++ tail.2) = butterflyWords inverse f xs ys ∧
      (xs.length ≤ done → (out, input) = butterflyWords inverse f xs ys) := by
  intro out input tail
  obtain ⟨hlen, hwords⟩ := hloop
  have hout : out.length = xs.length := by
    rw [PairCode.length_unflatten, hlen.1]
    omega
  have hin : input.length = xs.length := by
    rw [PairCode.length_unflatten, hlen.2]
    omega
  have hread (p : Nat) (hp : p < xs.length) : (out.getD p 0#16, input.getD p 0#16) =
      if p < done then butterflyWord inverse f (xs.getD p 0#16) (ys.getD p 0#16)
      else (xs.getD p 0#16, ys.getD p 0#16) := by
    rw [getD_unflatten_words (by omega), getD_unflatten_words (by omega), hwords p hp, wordAt_flatten,
      wordAt_flatten]
  obtain ⟨h1, h2⟩ := length_butterflyWords inverse f h
  have htake : out.take done = (butterflyWords inverse f xs ys).1.take done ∧
      input.take done = (butterflyWords inverse f xs ys).2.take done := by
    constructor
    · apply take_congr (hout.trans h1.symm) 0#16
      intro p hp hlow
      exact congrArg Prod.fst ((hread p (hout ▸ hp)).trans
        ((if_pos hlow).trans (getD_butterflyWords inverse f h (hout ▸ hp)).symm))
    · apply take_congr (hin.trans h2.symm) 0#16
      intro p hp hlow
      exact congrArg Prod.snd ((hread p (hin ▸ hp)).trans
        ((if_pos hlow).trans (getD_butterflyWords inverse f h (hin ▸ hp)).symm))
  have hdrop : out.drop done = xs.drop done ∧ input.drop done = ys.drop done := by
    constructor
    · apply drop_congr hout 0#16
      intro p hp hhigh
      exact congrArg Prod.fst ((hread p (hout ▸ hp)).trans (if_neg (by omega)))
    · apply drop_congr (hin.trans h.symm) 0#16
      intro p hp hhigh
      exact congrArg Prod.snd ((hread p (hin ▸ hp)).trans (if_neg (by omega)))
  constructor
  · simp only [tail, hdrop.1, hdrop.2, htake.1, htake.2, butterflyWords]
    rw [← List.drop_zipWith, ← List.drop_zipWith, List.take_append_drop, List.take_append_drop]
  · intro hall
    have hfst := htake.1
    have hsnd := htake.2
    rw [List.take_of_length_le (by omega), List.take_of_length_le (by omega)] at hfst hsnd
    rw [hfst, hsnd]

variable {t : TablesRef}

theorem avx2Round_butterfly (inverse : Bool) (t : NibbleTables16)
    (bytes : List (BitVec 8) × List (BitVec 8)) (c : Nat) :
    let a := if inverse then Reg.xorSi (Reg.loadu bytes.2 (c * 64)) (Reg.loadu bytes.1 (c * 64))
      else Reg.loadu bytes.2 (c * 64)
    let b := if inverse then Reg.xorSi (Reg.loadu bytes.2 (c * 64 + 32)) (Reg.loadu bytes.1 (c * 64 + 32))
      else Reg.loadu bytes.2 (c * 64 + 32)
    let o0 := Reg.xorSi (nibbleProduct bcast t a b).1 (Reg.loadu bytes.1 (c * 64))
    let o1 := Reg.xorSi (nibbleProduct bcast t a b).2 (Reg.loadu bytes.1 (c * 64 + 32))
    avx2Round true true inverse t bytes c =
      (Reg.storeu (32 + 32) bytes.1 (c * 64) (concat 32 o0 o1),
        Reg.storeu (32 + 32) bytes.2 (c * 64) (concat 32
          (if inverse then a else Reg.xorSi (Reg.loadu bytes.2 (c * 64)) o0)
          (if inverse then b else Reg.xorSi (Reg.loadu bytes.2 (c * 64 + 32)) o1))) := by
  intro a b o0 o1
  rw [← storeu_storeu, ← storeu_storeu]
  rfl

/-- A butterfly on registers, from the product of what it multiplies. -/
theorem word_butterfly {x y product : Reg} {j : Nat}
    (h : product.word j = f ((if inverse then Reg.xorSi y x else y).word j)) :
    ((Reg.xorSi product x).word j,
      (if inverse then (if inverse then Reg.xorSi y x else y) else Reg.xorSi y (Reg.xorSi product x)).word j) =
        butterflyWord inverse f (x.word j) (y.word j) := by
  cases inverse
  · simp only [Bool.false_eq_true, if_false] at h
    simp [butterflyWord, h, BitVec.xor_comm (f _)]
  · simp only [if_true, word_xorSi] at h
    simp [butterflyWord, h, BitVec.xor_comm (f _)]

/-- The loop of the butterfly kernel; its rounds take 32 words of each lane. -/
theorem avx2_butterfly_loop (inverse : Bool) (ht : t.Built) (logM : BitVec 16) (h : ys.length = xs.length) (n : Nat) :
    let bytes := (List.range n).foldl
      (avx2Round true true inverse (NibbleTables16.buildDirect t logM))
      (wordCode.flatten xs, wordCode.flatten ys)
    (bytes.1.length = 2 * xs.length ∧ bytes.2.length = 2 * xs.length) ∧
      ∀ p, p < xs.length → (wordAt bytes.1 p, wordAt bytes.2 p) =
        if p < n * 32 then butterflyWord inverse (mul16 logM) (wordAt (wordCode.flatten xs) p)
          (wordAt (wordCode.flatten ys) p)
        else (wordAt (wordCode.flatten xs) p, wordAt (wordCode.flatten ys) p) := by
  have hround := funext fun bytes => funext fun c =>
    avx2Round_butterfly inverse (NibbleTables16.buildDirect t logM) bytes c
  rw [hround]
  apply foldl_store_words n (show 32 + 32 = 2 * 32 from rfl) (fun c => by omega) _ _
    (butterflyWord inverse (mul16 logM)) (wordCode.flatten xs, wordCode.flatten ys)
    ⟨wordCode.length_flatten xs, (wordCode.length_flatten ys).trans (by rw [h])⟩
  intro c _ bytes j hj
  have hfirst : c * 64 = 2 * (c * 32) := by omega
  have hsecond : c * 64 + 32 = 2 * (c * 32 + 16) := by omega
  rw [word_concat (m := 16) rfl, word_concat (m := 16) rfl]
  by_cases hlow : j < 16
  · rw [if_pos hlow, if_pos hlow, ← word_loadu bytes.1 hfirst, ← word_loadu bytes.2 hfirst]
    exact word_butterfly (word_nibbleProduct ht logM (fun i _ => serves_bcast i) _ _).1
  · rw [if_neg hlow, if_neg hlow, show c * 32 + j = c * 32 + 16 + (j - 16) by omega,
      ← word_loadu bytes.1 hsecond, ← word_loadu bytes.2 hsecond]
    exact word_butterfly (word_nibbleProduct ht logM (fun i _ => serves_bcast i) _ _).2

/-- What the kernel does with the elements behind its rounds. -/
theorem ssse3_butterfly (ht : t.Built) (logM : BitVec 16) (h : ys.length = xs.length) :
    let tail := if inverse then zipInto (· ^^^ ·) ys xs else ys
    let rest := mulgf16Ssse3 true xs tail (NibbleTables16.buildDirect t logM)
    (rest, if inverse then tail else zipInto (· ^^^ ·) tail rest) =
      butterflyWords inverse (mul16 logM) xs ys := by
  cases inverse
  · have hlen : (mergedWords true (mul16 logM) xs ys).length = xs.length := length_mergedWords h
    simp only [Bool.false_eq_true, if_false]
    rw [mulgf16Ssse3_eq ht logM h, zipInto_eq _ (by omega), butterflyWords_forward]
  · have hlen : (List.zipWith (· ^^^ ·) ys xs).length = xs.length := by simp [h]
    simp only [if_true]
    rw [zipInto_eq _ h.le, mulgf16Ssse3_eq ht logM hlen, butterflyWords_inverse]

theorem butterflyAvx2_eq (ht : t.Built) (logM : BitVec 16) (h : ys.length = xs.length) :
    butterflyAvx2 inverse xs ys (NibbleTables16.buildDirect t logM) =
      butterflyWords inverse (mul16 logM) xs ys := by
  have hloop := avx2_butterfly_loop inverse ht logM h (ys.length / 32)
  obtain ⟨hsplit, hall⟩ := butterflyWords_finish h hloop
  simp only [butterflyAvx2, avx2Core, if_true]
  generalize (List.range (ys.length / 32)).foldl
    (avx2Round true true inverse (NibbleTables16.buildDirect t logM))
    (wordCode.flatten xs, wordCode.flatten ys) = bytes at hloop hsplit hall ⊢
  obtain ⟨hlen, -⟩ := hloop
  by_cases hdone : ys.length / 32 * 32 < ys.length
  · have hbehind : ((wordCode.unflatten bytes.2).drop (ys.length / 32 * 32)).length =
        ((wordCode.unflatten bytes.1).drop (ys.length / 32 * 32)).length := by
      simp only [List.length_drop, PairCode.length_unflatten, hlen]
    rw [if_pos hdone, ← hsplit, ← ssse3_butterfly ht logM hbehind]
  · rw [if_neg hdone]
    exact hall (by omega)

/-- A loop in pairs takes the rounds in their order. -/
theorem pairedLoop_eq {σ : Type} (count : Nat) (process : σ → Nat → σ) (s : σ) :
    pairedLoop count process s = (List.range count).foldl process s := by
  have hpairs (k : Nat) : (List.range k).foldl
      (fun s k => process (process s (2 * k)) (2 * k + 1)) s =
        (List.range (2 * k)).foldl process s := by
    induction k with
    | zero => rfl
    | succ k ih =>
      rw [List.range_succ, List.foldl_append, ih, show 2 * (k + 1) = 2 * k + 1 + 1 by omega,
        List.range_succ, List.range_succ, List.foldl_append, List.foldl_append]
      rfl
  simp only [pairedLoop, hpairs]
  split_ifs with hfew hodd
  · rfl
  · have hcount : count = 2 * (count / 2) + 1 := by omega
    conv_rhs => rw [hcount, List.range_succ, List.foldl_append]
    rfl
  · rw [show 2 * (count / 2) = count by omega]

theorem gfniRun_eq (ht : t.Built) (logM : BitVec 16) (h : ys.length = xs.length)
    {cache : MatrixCache} (hcache : cache.Sound) :
    (gfniRun inverse xs ys logM t cache).1 = butterflyWords inverse (mul16 logM) xs ys := by
  have hlog : (fun v => mulLog16 t v logM) = mul16 logM := funext fun v => mulLog16_eq ht v logM
  simp only [gfniRun, (cachedMatrices_spec hcache logM t).1, pairedLoop_eq, hlog]
  apply (butterflyWords_finish h _).1
  apply foldl_store_words (ys.length / 16) (show 32 = 2 * 16 from rfl) (fun c => by omega) _ _
    (butterflyWord inverse (mul16 logM)) (wordCode.flatten xs, wordCode.flatten ys)
    ⟨wordCode.length_flatten xs, (wordCode.length_flatten ys).trans (by rw [h])⟩
  intro c _ bytes j hj
  have hoff : c * 32 = 2 * (c * 16) := by omega
  rw [← word_loadu bytes.1 hoff, ← word_loadu bytes.2 hoff]
  cases inverse
  · simp [butterflyWord, word_planarProduct16 ht]
  · simp [butterflyWord, word_planarProduct16 ht, BitVec.xor_comm]

/-- The butterflies of the two directions undo each other. -/
theorem butterflyWord_cancel (inverse : Bool) (f : BitVec 16 → BitVec 16) (x y : BitVec 16) :
    butterflyWord (!inverse) f (butterflyWord inverse f x y).1 (butterflyWord inverse f x y).2 =
      (x, y) := by
  cases inverse
  · have hy : y ^^^ (x ^^^ f y) ^^^ (x ^^^ f y) = y := by
      rw [BitVec.xor_assoc, BitVec.xor_self, BitVec.xor_zero]
    simp only [butterflyWord, Bool.not_false, Bool.false_eq_true, if_false, if_true, hy]
    rw [BitVec.xor_assoc, BitVec.xor_self, BitVec.xor_zero]
  · have hx : x ^^^ f (y ^^^ x) ^^^ f (y ^^^ x) = x := by
      rw [BitVec.xor_assoc, BitVec.xor_self, BitVec.xor_zero]
    simp only [butterflyWord, Bool.not_true, Bool.false_eq_true, if_false, if_true, hx]
    rw [BitVec.xor_assoc, BitVec.xor_self, BitVec.xor_zero]

theorem butterflyWords_cancel (inverse : Bool) (f : BitVec 16 → BitVec 16) (h : ys.length = xs.length) :
    butterflyWords (!inverse) f (butterflyWords inverse f xs ys).1 (butterflyWords inverse f xs ys).2 =
      (xs, ys) := by
  obtain ⟨h1, h2⟩ := length_butterflyWords inverse f h
  have h12 := h2.trans h1.symm
  obtain ⟨h3, h4⟩ := length_butterflyWords (!inverse) f h12
  have hread (p : Nat) (hp : p < xs.length) := calc
    ((butterflyWords (!inverse) f (butterflyWords inverse f xs ys).1
          (butterflyWords inverse f xs ys).2).1.getD p 0#16,
        (butterflyWords (!inverse) f (butterflyWords inverse f xs ys).1
          (butterflyWords inverse f xs ys).2).2.getD p 0#16)
      = butterflyWord (!inverse) f ((butterflyWords inverse f xs ys).1.getD p 0#16)
          ((butterflyWords inverse f xs ys).2.getD p 0#16) := getD_butterflyWords (!inverse) f h12 (h1.symm ▸ hp)
    _ = (xs.getD p 0#16, ys.getD p 0#16) := by
      have hpair := getD_butterflyWords inverse f h hp
      rw [Prod.mk.injEq] at hpair
      rw [hpair.1, hpair.2]
      exact butterflyWord_cancel inverse f _ _
  apply Prod.ext
  · apply getD_ext 0#16 (h3.trans h1)
    intro p hp
    exact congrArg Prod.fst (hread p (by omega))
  · apply getD_ext 0#16 ((h4.trans h1).trans h.symm)
    intro p hp
    exact congrArg Prod.snd (hread p (by omega))

end Butterflies

section Sums

variable {dst src bytes : List (BitVec 8)}

theorem xorVectors_spec (width start count : Nat) (dst src : List (BitVec 8)) :
    (xorVectors width start count dst src).length = dst.length ∧ ∀ p, p < dst.length →
      (xorVectors width start count dst src).getD p 0#8 =
        if start ≤ p ∧ p < start + count * width then dst.getD p 0#8 ^^^ src.getD p 0#8
        else dst.getD p 0#8 := by
  apply foldl_range_inv (fun k (t : List (BitVec 8)) => t.length = dst.length ∧ ∀ p, p < dst.length →
    t.getD p 0#8 = if start ≤ p ∧ p < start + k * width then dst.getD p 0#8 ^^^ src.getD p 0#8
      else dst.getD p 0#8)
  · exact ⟨rfl, fun p _ => by rw [Nat.zero_mul, if_neg (by omega)]⟩
  · intro k hk t ht
    obtain ⟨hlen, hread⟩ := ht
    have hsucc : (k + 1) * width = k * width + width := Nat.succ_mul k width
    refine ⟨by rw [Reg.length_storeu, hlen], fun p hp => ?_⟩
    rw [getD_storeu _ _ _ _ (by omega), hread p hp]
    by_cases hin : start + k * width ≤ p ∧ p < start + k * width + width
    · rw [if_pos hin, if_pos (by omega), byte_xorSi, byte_loadu, byte_loadu,
        Nat.add_sub_cancel' hin.1, hread p hp, if_neg (by omega)]
    · rw [if_neg hin]
      exact if_congr (by omega) rfl rfl

theorem xorTail_eq (h : src.length = dst.length) (hlen : bytes.length = dst.length) {done : Nat}
    (hread : ∀ p, p < dst.length → bytes.getD p 0#8 =
      if p < done then dst.getD p 0#8 ^^^ src.getD p 0#8 else dst.getD p 0#8) :
    xorTail done bytes src = List.zipWith (· ^^^ ·) dst src := by
  rw [xorTail, zipInto_eq _ (by rw [List.length_drop, List.length_drop, h, hlen])]
  exact zipWith_tail (· ^^^ ·) 0#8 0#8 h hlen hread

theorem sliceXorU16Avx2_eq (h : src.length = dst.length) :
    sliceXorU16Avx2 dst src = List.zipWith (· ^^^ ·) dst src := by
  obtain ⟨hlen, hread⟩ := xorVectors_spec 32 0 (dst.length / 32) dst src
  apply xorTail_eq h hlen
  intro p hp
  rw [hread p hp]
  exact if_congr (by omega) rfl rfl

theorem xorBlocks_eq (width per : Nat) (h : src.length = dst.length) :
    xorBlocks width per dst src = List.zipWith (· ^^^ ·) dst src := by
  obtain ⟨block, hblock⟩ : ∃ block, block = width * per := ⟨_, rfl⟩
  have hloop := foldl_range_windows (fun t : List (BitVec 8) => t.length = dst.length)
    (fun t p => if p < dst.length then t.getD p 0#8 else 0#8)
    (fun p b => if p < dst.length then b ^^^ src.getD p 0#8 else b)
    (fun t c => xorVectors width (c * block) per t src) block (dst.length / block) dst rfl (by
      intro c _ t ht
      have hend : c * block + per * width = (c + 1) * block := by
        rw [Nat.succ_mul, hblock, Nat.mul_comm per]
      obtain ⟨hlen, hread⟩ := xorVectors_spec width (c * block) per t src
      refine ⟨hlen.trans ht, fun p => ?_⟩
      rw [hend] at hread
      by_cases hp : p < dst.length
      · simp only [if_pos hp]
        rw [hread p (ht ▸ hp)]
      · simp only [if_neg hp, ite_self])
  simp only [xorBlocks, ← hblock]
  generalize (List.range (dst.length / block)).foldl
    (fun t c => xorVectors width (c * block) per t src) dst = mid at hloop ⊢
  obtain ⟨hmid, hwhole⟩ := hloop
  obtain ⟨hlen, hread⟩ := xorVectors_spec width (dst.length / block * block)
    ((mid.length - dst.length / block * block) / width) mid src
  apply xorTail_eq h (hlen.trans hmid)
  intro p hp
  have hfirst := hwhole p
  simp only [if_pos hp] at hfirst
  rw [hread p (hmid ▸ hp), hfirst]
  by_cases hlow : p < dst.length / block * block
  · rw [if_neg (by omega), if_pos hlow, if_pos (by omega)]
  · rw [if_neg hlow]
    exact if_congr (by omega) rfl rfl

theorem sliceXorU16U64_eq (h : src.length = dst.length) :
    sliceXorU16U64 dst src = List.zipWith (· ^^^ ·) dst src := xorBlocks_eq 8 8 h

/-- Sums of bytes are sums of words. -/
theorem unflatten_xor {xs ys : List (BitVec 16)} (h : ys.length = xs.length) :
    wordCode.unflatten (List.zipWith (· ^^^ ·) (wordCode.flatten xs) (wordCode.flatten ys)) =
      List.zipWith (· ^^^ ·) xs ys := by
  apply wordCode.unflatten_eq
  · simp [h]
  · intro p hp
    rw [List.length_zipWith, wordCode.length_flatten, wordCode.length_flatten, h, min_self] at hp
    have hget : (List.zipWith (· ^^^ ·) xs ys).getD (p / 2) 0#16 =
        xs.getD (p / 2) 0#16 ^^^ ys.getD (p / 2) 0#16 :=
      getD_zipWith _ _ _ _ (by omega) (by omega) _ _ _
    rw [getD_zipWith _ _ _ _ (by rw [wordCode.length_flatten]; omega)
      (by rw [wordCode.length_flatten]; omega) 0#8 0#8, wordCode.getD_flatten, wordCode.getD_flatten,
      wordCode.getD_flatten]
    split_ifs
    · exact (xorLinear_lowByte _ _).symm.trans (congrArg lowByte hget.symm)
    · exact (xorLinear_highByte _ _).symm.trans (congrArg highByte hget.symm)

theorem sliceXorU16_eq (machine : Machine) {xs ys : List (BitVec 16)} (h : ys.length = xs.length) :
    sliceXorU16 machine xs ys = List.zipWith (· ^^^ ·) xs ys := by
  have hbytes : (wordCode.flatten ys).length = (wordCode.flatten xs).length := by
    rw [wordCode.length_flatten, wordCode.length_flatten, h]
  rw [sliceXorU16, sliceXorU16Avx2_eq hbytes, sliceXorU16U64_eq hbytes, unflatten_xor h,
    zipInto_eq _ h.ge, ite_self, ite_self]

end Sums

section Steps

variable {t : TablesRef} {xs ys : List (BitVec 16)} {cache : MatrixCache}

theorem mulgf16Simd_eq (ht : t.Built) (machine : Machine) (accumulate : Bool) (logM : BitVec 16)
    (h : ys.length = xs.length) :
    mulgf16Simd machine accumulate xs ys logM t = mergedWords accumulate (mul16 logM) xs ys := by
  rw [mulgf16Simd, NibbleTables16.build_eq ht, mulgf16Avx2_eq ht logM h, mulgf16Ssse3_eq ht logM h,
    mulgf16TabledScalar_eq ht logM h, ite_self, ite_self]

theorem mulgf16Scalar_eq (ht : t.Built) (accumulate : Bool) (logM : BitVec 16)
    (h : ys.length = xs.length) :
    mulgf16Scalar accumulate xs ys logM t = mergedWords accumulate (mul16 logM) xs ys := by
  rw [mulgf16Scalar, unrolled4_eq _ h, mergedWords]
  simp only [mulLog16_eq ht]

theorem mergedWords_false (f : BitVec 16 → BitVec 16) (h : ys.length = xs.length) :
    mergedWords false f xs ys = ys.map f := by
  apply getD_ext 0#16
  · rw [length_mergedWords h, List.length_map, h]
  · intro p hp
    rw [length_mergedWords h] at hp
    rw [getD_mergedWords h hp, getD_map_of_lt f ys p (h ▸ hp) 0#16]
    rfl

theorem mul16_modulus {logM : BitVec 16} (h : logM.toNat = modulus 16) (v : BitVec 16) :
    mul16 logM v = v := by
  rw [mul16, if_pos h]

theorem mulgf16_eq (ht : t.Built) (machine : Machine) (logM : BitVec 16) (h : ys.length = xs.length) :
    mulgf16 machine xs ys logM t = ys.map (mul16 logM) := by
  rw [mulgf16, mulgf16Simd_eq ht machine false logM h, mulgf16Scalar_eq ht false logM h, ite_self,
    mergedWords_false _ h]
  split_ifs with hm
  · rw [funext (mul16_modulus hm), List.map_id']
  · rfl

theorem mulgf16Xor_eq (ht : t.Built) (machine : Machine) (logM : BitVec 16)
    (h : ys.length = xs.length) :
    mulgf16Xor machine xs ys logM t = mergedWords true (mul16 logM) xs ys := by
  rw [mulgf16Xor, mulgf16Simd_eq ht machine true logM h, mulgf16Scalar_eq ht true logM h, ite_self,
    sliceXorU16_eq machine h]
  split_ifs with hm
  · rw [mergedWords, funext (mul16_modulus hm)]
    rfl
  · rfl

/-- The factor of a butterfly: the modulus stands for zero. -/
def butterflyProduct (t : TablesRef) (logM v : BitVec 16) : BitVec 16 :=
  if logM.toNat = modulus 16 then 0#16 else mulLog16 t v logM

theorem mergedWords_zero (h : ys.length = xs.length) : mergedWords true (fun _ => 0#16) xs ys = xs := by
  apply getD_ext 0#16 (length_mergedWords h)
  intro p hp
  rw [length_mergedWords h] at hp
  rw [getD_mergedWords h hp]
  exact BitVec.xor_zero

/-- Without a product both directions add the first lane to the second. -/
theorem butterflyWords_zero (inverse : Bool) (h : ys.length = xs.length) :
    butterflyWords inverse (fun _ => 0#16) xs ys = (xs, List.zipWith (· ^^^ ·) ys xs) := by
  cases inverse
  · rw [butterflyWords_forward, mergedWords_zero h]
  · rw [butterflyWords_inverse, mergedWords_zero (by simp [h])]

theorem butterflyProduct_of_ne (ht : t.Built) {logM : BitVec 16} (h : ¬logM.toNat = modulus 16) :
    butterflyProduct t logM = mul16 logM := by
  funext v
  rw [butterflyProduct, if_neg h, mulLog16_eq ht]

/-- A kernel that runs a whole butterfly looks the matrices up at most once. -/
theorem wholeButterfly_spec (ht : t.Built) {machine : Machine} {inverse : Bool} {logM : BitVec 16}
    (h : ys.length = xs.length) (hcache : cache.Sound)
    {result : (List (BitVec 16) × List (BitVec 16)) × MatrixCache}
    (hresult : wholeButterfly machine inverse xs ys logM t cache = some result) :
    result.1 = butterflyWords inverse (mul16 logM) xs ys ∧
      ∃ more, result.2 = lookUps more cache := by
  have hkernel : butterflyAvx2 inverse xs ys (NibbleTables16.build machine.target t logM) =
      butterflyWords inverse (mul16 logM) xs ys := by
    rw [NibbleTables16.build_eq ht, butterflyAvx2_eq ht logM h]
  rw [wholeButterfly] at hresult
  cases htarget : machine.target with
  | x86NoStdAvx2 =>
    simp only [htarget] at hresult hkernel
    split_ifs at hresult
    obtain rfl := Option.some.inj hresult
    exact ⟨hkernel, [], rfl⟩
  | x86Std =>
    simp only [htarget, tryButterflyAvx2] at hresult hkernel
    split_ifs at hresult with hskip hgfni
    · obtain rfl := Option.some.inj hresult
      exact ⟨gfniRun_eq ht logM h hcache, [(logM, t)], rfl⟩
    · obtain rfl := Option.some.inj hresult
      exact ⟨hkernel, [], rfl⟩
  | other std =>
    simp only [htarget] at hresult
    cases hresult

theorem dit2Step16_spec (ht : t.Built) (machine : Machine) (logM : BitVec 16)
    (h : ys.length = xs.length) (hcache : cache.Sound) :
    (dit2Step16 machine xs ys logM t cache).1 =
        butterflyWords false (butterflyProduct t logM) xs ys ∧
      ∃ more, (dit2Step16 machine xs ys logM t cache).2 = lookUps more cache := by
  rw [dit2Step16]
  by_cases hm : logM.toNat = modulus 16
  · have hzero : butterflyProduct t logM = fun _ => 0#16 := funext fun v => if_pos hm
    rw [if_pos hm, hzero, butterflyWords_zero false h, sliceXorU16_eq machine h.symm]
    exact ⟨rfl, [], rfl⟩
  · rw [if_neg hm, butterflyProduct_of_ne ht hm]
    cases hwhole : wholeButterfly machine false xs ys logM t cache with
    | some result => exact wholeButterfly_spec ht h hcache hwhole
    | none =>
      have hlen : (mergedWords true (mul16 logM) xs ys).length = ys.length :=
        (length_mergedWords h).trans h.symm
      simp only [mulgf16Xor_eq ht machine logM h, sliceXorU16_eq machine hlen]
      exact ⟨(butterflyWords_forward _ _ _).symm, [], rfl⟩

theorem dit2StepInv16_spec (ht : t.Built) (machine : Machine) (logM : BitVec 16)
    (h : ys.length = xs.length) (hcache : cache.Sound) :
    (dit2StepInv16 machine xs ys logM t cache).1 =
        butterflyWords true (butterflyProduct t logM) xs ys ∧
      ∃ more, (dit2StepInv16 machine xs ys logM t cache).2 = lookUps more cache := by
  rw [dit2StepInv16]
  by_cases hm : logM.toNat = modulus 16
  · have hzero : butterflyProduct t logM = fun _ => 0#16 := funext fun v => if_pos hm
    rw [if_pos hm, hzero, butterflyWords_zero true h, sliceXorU16_eq machine h.symm]
    exact ⟨rfl, [], rfl⟩
  · rw [if_neg hm, butterflyProduct_of_ne ht hm]
    cases hwhole : wholeButterfly machine true xs ys logM t cache with
    | some result => exact wholeButterfly_spec ht h hcache hwhole
    | none =>
      have hlen : (List.zipWith (· ^^^ ·) ys xs).length = xs.length := by simp [h]
      simp only [sliceXorU16_eq machine h.symm, mulgf16Xor_eq ht machine logM hlen]
      exact ⟨(butterflyWords_inverse _ _ _).symm, [], rfl⟩

/-- The steps of the kernels are the butterflies of the transforms. -/
theorem butterflyWords_eq_dit2 (dir : TransformDir) (logM : BitVec 16) (h : ys.length = xs.length) :
    butterflyWords (dir = .inverse) (butterflyProduct .canonical logM) xs ys =
      dit2 gf16Kernel dir logM xs ys := by
  rw [dit2.eq_def]
  by_cases hm : logM.toNat = modulus 16
  · have hzero : butterflyProduct .canonical logM = fun _ => 0#16 := funext fun v => if_pos hm
    rw [if_pos hm, hzero, butterflyWords_zero _ h]
    rfl
  · rw [if_neg hm, butterflyProduct_of_ne built_canonical hm]
    cases dir
    · exact butterflyWords_forward _ _ _
    · exact butterflyWords_inverse _ _ _

end Steps

section Exact

/-- Every kernel of the product agrees with the logarithm tables. -/
structure ProductsExact (t : TablesRef) (logM : BitVec 16) (out input : List (BitVec 16)) : Prop where
  scalar : ∀ accumulate, mulgf16Scalar accumulate out input logM t =
    List.zipWith (fun o v => mergeWord accumulate (mulLog16 t v logM) o) out input
  tabled : ∀ accumulate target,
    mulgf16TabledScalar accumulate out input (NibbleTables16.build target t logM) =
      List.zipWith (fun o v => mergeWord accumulate (mulLog16 t v logM) o) out input
  ssse3 : ∀ accumulate target,
    mulgf16Ssse3 accumulate out input (NibbleTables16.build target t logM) =
      List.zipWith (fun o v => mergeWord accumulate (mulLog16 t v logM) o) out input
  avx2 : ∀ accumulate target,
    mulgf16Avx2 accumulate out input (NibbleTables16.build target t logM) =
      List.zipWith (fun o v => mergeWord accumulate (mulLog16 t v logM) o) out input
  multiply : ∀ machine, mulgf16 machine out input logM t = input.map fun v => mulLog16 t v logM
  multiplyXor : ∀ machine, mulgf16Xor machine out input logM t =
    List.zipWith (fun o v => o ^^^ mulLog16 t v logM) out input

/-- Every kernel of the butterflies agrees with them, whatever has been looked up before, and one
direction undoes the other on any two machines. -/
structure StepsExact (t : TablesRef) (logM : BitVec 16) (x y : List (BitVec 16)) : Prop where
  forward : ∀ machine requests,
    let x' := List.zipWith (fun a b => a ^^^ butterflyProduct t logM b) x y
    (dit2Step16 machine x y logM t (lookUps requests .empty)).1 =
      (x', List.zipWith (· ^^^ ·) y x')
  inverse : ∀ machine requests,
    let y' := List.zipWith (· ^^^ ·) y x
    (dit2StepInv16 machine x y logM t (lookUps requests .empty)).1 =
      (List.zipWith (fun a b => a ^^^ butterflyProduct t logM b) x y', y')
  undoForward : ∀ machine machine' requests requests',
    let z := (dit2Step16 machine x y logM t (lookUps requests .empty)).1
    (dit2StepInv16 machine' z.1 z.2 logM t (lookUps requests' .empty)).1 = (x, y)
  undoInverse : ∀ machine machine' requests requests',
    let z := (dit2StepInv16 machine x y logM t (lookUps requests .empty)).1
    (dit2Step16 machine' z.1 z.2 logM t (lookUps requests' .empty)).1 = (x, y)
  /-- A step leaves a cache that look-ups lead to. -/
  cache : ∀ machine requests,
    (∃ more, (dit2Step16 machine x y logM t (lookUps requests .empty)).2 =
      lookUps (requests ++ more) .empty) ∧
    ∃ more, (dit2StepInv16 machine x y logM t (lookUps requests .empty)).2 =
      lookUps (requests ++ more) .empty

structure KernelsExact (t : TablesRef) (logM : BitVec 16) : Prop where
  identity : logM = 0#16 ∨ logM = 65535#16 → ∀ v, mulLog16 t v logM = v
  products : ∀ out input : List (BitVec 16), input.length = out.length →
    ProductsExact t logM out input
  tables : ∀ target, NibbleTables16.build target t logM = NibbleTables16.buildDirect t logM
  affine : ∀ (v : Reg) (j : Nat), (planarProduct (matrices logM t).a (matrices logM t).b
    (matrices logM t).c (matrices logM t).d v).word j = mulLog16 t (v.word j) logM
  cached : ∀ (other : TablesRef) (requests : List (BitVec 16 × TablesRef)),
    (cachedMatrices logM other (lookUps requests .empty)).1 = matrices logM other
  steps : ∀ x y : List (BitVec 16), y.length = x.length → StepsExact t logM x y

variable {t : TablesRef} {logM : BitVec 16}

theorem mulLog16_identity (ht : t.Built) (h : logM = 0#16 ∨ logM = 65535#16) (v : BitVec 16) :
    mulLog16 t v logM = v := by
  rw [mulLog16_eq ht]
  rcases h with rfl | rfl
  · apply gf16Kernel.elem_inj
    exact (gf16Kernel.elem_mul 0#16 v).trans (by rw [BitVec.toNat_ofNat, pow_zero, mul_one])
  · exact mul16_modulus rfl v

theorem productsExact (ht : t.Built) (logM : BitVec 16) {out input : List (BitVec 16)}
    (h : input.length = out.length) : ProductsExact t logM out input where
  scalar accumulate := by
    simp only [mulLog16_eq ht]
    exact mulgf16Scalar_eq ht accumulate logM h
  tabled accumulate target := by
    simp only [mulLog16_eq ht, NibbleTables16.build_eq ht]
    exact mulgf16TabledScalar_eq ht logM h
  ssse3 accumulate target := by
    simp only [mulLog16_eq ht, NibbleTables16.build_eq ht]
    exact mulgf16Ssse3_eq ht logM h
  avx2 accumulate target := by
    simp only [mulLog16_eq ht, NibbleTables16.build_eq ht]
    exact mulgf16Avx2_eq ht logM h
  multiply machine := by
    simp only [mulLog16_eq ht]
    exact mulgf16_eq ht machine logM h
  multiplyXor machine := by
    simp only [mulLog16_eq ht]
    exact mulgf16Xor_eq ht machine logM h

theorem stepsExact (ht : t.Built) (logM : BitVec 16) {x y : List (BitVec 16)}
    (h : y.length = x.length) : StepsExact t logM x y := by
  have hsound (requests : List (BitVec 16 × TablesRef)) : (lookUps requests .empty).Sound :=
    sound_lookUps requests MatrixCache.sound_empty
  have happend (requests more : List (BitVec 16 × TablesRef)) :
      lookUps more (lookUps requests .empty) = lookUps (requests ++ more) .empty :=
    (List.foldl_append ..).symm
  have hlen (inverse : Bool) := length_butterflyWords inverse (butterflyProduct t logM) h
  refine ⟨fun machine requests => ?_, fun machine requests => ?_,
    fun machine machine' requests requests' => ?_, fun machine machine' requests requests' => ?_,
    fun machine requests => ⟨?_, ?_⟩⟩
  · exact (dit2Step16_spec ht machine logM h (hsound requests)).1.trans
      (butterflyWords_forward _ _ _)
  · exact (dit2StepInv16_spec ht machine logM h (hsound requests)).1.trans
      (butterflyWords_inverse _ _ _)
  · rw [(dit2Step16_spec ht machine logM h (hsound requests)).1]
    exact (dit2StepInv16_spec ht machine' logM ((hlen false).2.trans (hlen false).1.symm)
      (hsound requests')).1.trans (butterflyWords_cancel false _ h)
  · rw [(dit2StepInv16_spec ht machine logM h (hsound requests)).1]
    exact (dit2Step16_spec ht machine' logM ((hlen true).2.trans (hlen true).1.symm)
      (hsound requests')).1.trans (butterflyWords_cancel true _ h)
  · obtain ⟨more, hmore⟩ := (dit2Step16_spec ht machine logM h (hsound requests)).2
    exact ⟨more, hmore.trans (happend requests more)⟩
  · obtain ⟨more, hmore⟩ := (dit2StepInv16_spec ht machine logM h (hsound requests)).2
    exact ⟨more, hmore.trans (happend requests more)⟩

/-- All kernels compute what the logarithm tables do. -/
theorem gf16_kernels_exact (ht : t.Built) (logM : BitVec 16) : KernelsExact t logM where
  identity := mulLog16_identity ht
  products _ _ := productsExact ht logM
  tables target := NibbleTables16.build_eq ht target logM
  affine v j := (word_planarProduct16 ht logM v j).trans (mulLog16_eq ht _ _).symm
  cached other requests :=
    (cachedMatrices_spec (sound_lookUps requests MatrixCache.sound_empty) logM other).1
  steps _ _ := stepsExact ht logM

theorem gf16_kernels_exact_canonical : KernelsExact .canonical 7#16 :=
  gf16_kernels_exact built_canonical 7#16

end Exact

end Leopard

end ErasureCodec
