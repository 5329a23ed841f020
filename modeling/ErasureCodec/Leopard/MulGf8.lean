import ErasureCodec.Leopard.MulSimd

namespace ErasureCodec

namespace Leopard

open Reg

section Definitions

/-- What the byte kernels are compiled for, with what the processor detects. -/
inductive Cpu where
  | x86Std (avx2 ssse3 : Bool)
  | aarch64
  | other
  deriving DecidableEq

/-- The products by one logarithm: of every byte, and of the nibbles apart. -/
structure Mul8Lut where
  value : List (BitVec 8)
  low : List (BitVec 8)
  high : List (BitVec 8)

/-- One entry of `init_mul8_lut`. -/
def initMul8Lut (logLut expLut : List (BitVec 8)) (logM : BitVec 8) : Mul8Lut :=
  let value := mul8Value logLut expLut logM
  ⟨value, value.take 16, (List.range 16).map fun i => value.getD (i * 16) 0#8⟩

/-- `mul_luts`. -/
def mulLuts (logM : BitVec 8) : Mul8Lut :=
  initMul8Lut (initLogLut gf8Params) (initExpLut gf8Params) logM

def sliceXorU64 (input out : List (BitVec 8)) : List (BitVec 8) := xorBlocks 8 8 out input

def sliceXorAvx2 (input out : List (BitVec 8)) : List (BitVec 8) :=
  xorTail (out.length / 32 * 32) (xorVectors 32 0 (out.length / 32) out input) input

def sliceXorNeon (input out : List (BitVec 8)) : List (BitVec 8) := xorBlocks 16 4 out input

/-- `slice_xor`. -/
def sliceXor8 (cpu : Cpu) (input out : List (BitVec 8)) : List (BitVec 8) :=
  match cpu with
  | .x86Std true _ => sliceXorAvx2 input out
  | .x86Std false _ => sliceXorU64 input out
  | .aarch64 => sliceXorNeon input out
  | .other => sliceXorU64 input out

/-- The product of a register by the nibble tables; `table` loads one of them. -/
def lutProduct (table : List (BitVec 8) → Reg) (lut : Mul8Lut) (v : Reg) : Reg :=
  let nibbleMask := set1Epi8 0x0f#8
  let lo := andSi v nibbleMask
  let hi := andSi (srliEpi64 4 v) nibbleMask
  Reg.xorSi (shuffleEpi8 (table lut.low) lo) (shuffleEpi8 (table lut.high) hi)

/-- The same product with the table lookups of NEON. -/
def lutProductNeon (lut : Mul8Lut) (v : Reg) : Reg :=
  let nibbleMask := set1Epi8 0x0f#8
  let lo := andSi v nibbleMask
  let hi := andSi (vshrqNU8 4 v) nibbleMask
  Reg.xorSi (vqtbl1qU8 (loadRow lut.low) lo) (vqtbl1qU8 (loadRow lut.high) hi)

/-- Whole registers by the nibble tables, then the bytes behind them by the whole one. -/
def lutVectors (accumulate : Bool) (width : Nat) (product : Reg → Reg) (dst src : List (BitVec 8))
    (lut : List (BitVec 8)) : List (BitVec 8) :=
  let chunks := dst.length / width
  let out := (List.range chunks).foldl (fun out k =>
    Reg.storeu width out (k * width) (mergeReg accumulate (product (Reg.loadu src (k * width)))
      (Reg.loadu out (k * width)))) dst
  out.take (chunks * width) ++ zipInto (fun d s => mergeByte accumulate (lut.getD s.toNat 0#8) d)
    (out.drop (chunks * width)) (src.drop (chunks * width))

def lutXorAvx2Prebuilt (dst src : List (BitVec 8)) (lut : Mul8Lut) : List (BitVec 8) :=
  lutVectors true 32 (lutProduct bcast lut) dst src lut.value

def lutXorSsse3Prebuilt (dst src : List (BitVec 8)) (lut : Mul8Lut) : List (BitVec 8) :=
  lutVectors true 16 (lutProduct loadRow lut) dst src lut.value

def lutXorNeonPrebuilt (dst src : List (BitVec 8)) (lut : Mul8Lut) : List (BitVec 8) :=
  lutVectors true 16 (lutProductNeon lut) dst src lut.value

/-- `assign_avx2::mul`. -/
def assignAvx2Mul (dst src : List (BitVec 8)) (lut : Mul8Lut) : List (BitVec 8) :=
  lutVectors false 32 (lutProduct bcast lut) dst src lut.value

/-- The scalar loops. -/
def lutScalar (accumulate : Bool) (dst src : List (BitVec 8)) (lut : Mul8Lut) : List (BitVec 8) :=
  zipInto (fun d s => mergeByte accumulate (lut.value.getD s.toNat 0#8) d) dst src

/-- `lut_xor_prebuilt`, which is `lut_xor_impl`. -/
def lutXorPrebuilt (cpu : Cpu) (dst src : List (BitVec 8)) (lut : Mul8Lut) : List (BitVec 8) :=
  match cpu with
  | .x86Std avx2 ssse3 =>
    if 32 ≤ dst.length ∧ avx2 then lutXorAvx2Prebuilt dst src lut
    else if 16 ≤ dst.length ∧ ssse3 then lutXorSsse3Prebuilt dst src lut
    else lutScalar true dst src lut
  | .aarch64 =>
    if 16 ≤ dst.length then lutXorNeonPrebuilt dst src lut else lutScalar true dst src lut
  | .other => lutScalar true dst src lut

def mulgf8 (cpu : Cpu) (out input : List (BitVec 8)) (logM : BitVec 8) : List (BitVec 8) :=
  let lut := mulLuts logM
  match cpu with
  | .x86Std avx2 _ =>
    if input.length = out.length ∧ 64 ≤ input.length ∧ avx2 then assignAvx2Mul out input lut
    else lutScalar false out input lut
  | .aarch64 => lutScalar false out input lut
  | .other => lutScalar false out input lut

def dit2StepPrebuilt (cpu : Cpu) (dst src : List (BitVec 8)) (logM : BitVec 8) (lut : Mul8Lut) :
    List (BitVec 8) × List (BitVec 8) :=
  if logM.toNat = modulus 8 then (dst, sliceXor8 cpu dst src)
  else
    let dst := lutXorPrebuilt cpu dst src lut
    (dst, sliceXor8 cpu dst src)

def dit2StepInvPrebuilt (cpu : Cpu) (dst src : List (BitVec 8)) (logM : BitVec 8) (lut : Mul8Lut) :
    List (BitVec 8) × List (BitVec 8) :=
  if logM.toNat = modulus 8 then (dst, sliceXor8 cpu dst src)
  else
    let src := sliceXor8 cpu dst src
    (lutXorPrebuilt cpu dst src lut, src)

def fftDit2 (cpu : Cpu) (x y : List (BitVec 8)) (logM : BitVec 8) :
    List (BitVec 8) × List (BitVec 8) := dit2StepPrebuilt cpu x y logM (mulLuts logM)

def ifftDit2 (cpu : Cpu) (x y : List (BitVec 8)) (logM : BitVec 8) :
    List (BitVec 8) × List (BitVec 8) := dit2StepInvPrebuilt cpu x y logM (mulLuts logM)

/-- Four lanes. -/
abbrev Lanes4 (w : Nat) : Type :=
  List (BitVec w) × List (BitVec w) × List (BitVec w) × List (BitVec w)

def fftDit4FullLutScratch (cpu : Cpu) (lanes : Lanes4 8) (logM01 logM23 logM02 : BitVec 8) :
    Lanes4 8 :=
  let (a, b, c, d) := lanes
  let (a, c) := fftDit2 cpu a c logM02
  let (b, d) := fftDit2 cpu b d logM02
  let (a, b) := fftDit2 cpu a b logM01
  let (c, d) := fftDit2 cpu c d logM23
  (a, b, c, d)

def ifftDit4FullLutScratch (cpu : Cpu) (lanes : Lanes4 8) (logM01 logM23 logM02 : BitVec 8) :
    Lanes4 8 :=
  let (a, b, c, d) := lanes
  let (a, b) := ifftDit2 cpu a b logM01
  let (c, d) := ifftDit2 cpu c d logM23
  let (b, d) := ifftDit2 cpu b d logM02
  let (a, c) := ifftDit2 cpu a c logM02
  (a, b, c, d)

end Definitions

section Registers

variable {logM : BitVec 8} {i : Nat}

theorem value_mulLuts (logM x : BitVec 8) : (mulLuts logM).value.getD x.toNat 0#8 = mul8 logM x :=
  rfl

theorem low_mulLuts (logM : BitVec 8) {n : Nat} (hn : n < 16) :
    (mulLuts logM).low.getD n 0#8 = mul8 logM (BitVec.ofNat 8 n) := by
  have hnat : (BitVec.ofNat 8 n).toNat = n := toNat_ofNat_of_lt (by omega)
  rw [← value_mulLuts, hnat]
  exact getD_take hn _

theorem high_mulLuts (logM : BitVec 8) {n : Nat} (hn : n < 16) :
    (mulLuts logM).high.getD n 0#8 = mul8 logM (BitVec.ofNat 8 (n * 16)) := by
  have hnat : (BitVec.ofNat 8 (n * 16)).toNat = n * 16 := toNat_ofNat_of_lt (by omega)
  rw [← value_mulLuts, hnat]
  exact getD_map_range (fun i => (mulLuts logM).value.getD (i * 16) 0#8) 16 _ hn 0#8

/-- A product is the sum of the products of the nibbles. -/
theorem lookup_mulLuts (logM x : BitVec 8) :
    (mulLuts logM).low.getD (x &&& 15#8).toNat 0#8 ^^^ (mulLuts logM).high.getD (x >>> 4).toNat 0#8 =
      mul8 logM x := by
  obtain ⟨hlow, hhigh⟩ := nibble_bounds x
  rw [low_mulLuts logM hlow, high_mulLuts logM hhigh]
  exact (gf8Kernel.xorLinear_mul logM _ _).symm.trans (congrArg (mul8 logM) (nibbles_xor x))

theorem byte_lutProduct {table : List (BitVec 8) → Reg} (h : Serves table i) (v : Reg) :
    (lutProduct table (mulLuts logM) v).byte i = mul8 logM (v.byte i) := by
  obtain ⟨hlow, hhigh⟩ := nibble_bounds (v.byte i)
  simp only [lutProduct]
  rw [byte_xorSi, h.byte_shuffle _ hlow, h.byte_shuffle _ (by rw [byte_high_nibble64]; exact hhigh),
    byte_high_nibble64]
  exact lookup_mulLuts logM _

theorem byte_lutProductNeon (v : Reg) :
    (lutProductNeon (mulLuts logM) v).byte i = mul8 logM (v.byte i) := by
  obtain ⟨hlow, hhigh⟩ := nibble_bounds (v.byte i)
  simp only [lutProductNeon]
  rw [byte_xorSi, byte_vqtbl1qU8 hlow,
    byte_vqtbl1qU8 (by rw [byte_high_nibble_bytes]; exact hhigh), byte_high_nibble_bytes]
  simp only [loadRow, byte_loadu, Nat.zero_add]
  exact lookup_mulLuts logM _

end Registers

section Slices

variable {logM : BitVec 8} {dst src : List (BitVec 8)} {accumulate : Bool}

/-- The products of the bytes, stored or added. -/
def mergedBytes (accumulate : Bool) (logM : BitVec 8) (dst src : List (BitVec 8)) :
    List (BitVec 8) :=
  List.zipWith (fun d s => mergeByte accumulate (mul8 logM s) d) dst src

theorem lutVectors_eq {width : Nat} {product : Reg → Reg}
    (hproduct : ∀ v i, i < width → (product v).byte i = mul8 logM (v.byte i))
    (h : src.length = dst.length) :
    lutVectors accumulate width product dst src (mulLuts logM).value =
      mergedBytes accumulate logM dst src := by
  obtain ⟨hlen, hread⟩ := Reg.foldl_storeu width (dst.length / width)
    (fun out k => mergeReg accumulate (product (Reg.loadu src (k * width)))
      (Reg.loadu out (k * width)))
    (fun p d => mergeByte accumulate (mul8 logM (src.getD p 0#8)) d) dst
    (Nat.div_mul_le_self dst.length width) (by
      intro k _ t _ i hi
      rw [byte_mergeReg, hproduct _ i hi]
      rfl)
  simp only [lutVectors]
  rw [zipInto_eq _ (by rw [List.length_drop, List.length_drop, hlen, h])]
  exact zipWith_tail _ 0#8 0#8 h hlen fun p _ => hread p

theorem lutScalar_eq (h : src.length = dst.length) :
    lutScalar accumulate dst src (mulLuts logM) = mergedBytes accumulate logM dst src :=
  zipInto_eq _ h.ge

theorem lutXorPrebuilt_eq (cpu : Cpu) (logM : BitVec 8) (h : src.length = dst.length) :
    lutXorPrebuilt cpu dst src (mulLuts logM) = mulXor gf8Kernel logM src dst := by
  have havx2 : lutXorAvx2Prebuilt dst src (mulLuts logM) = mergedBytes true logM dst src :=
    lutVectors_eq (fun v i _ => byte_lutProduct (serves_bcast i) v) h
  have hssse3 : lutXorSsse3Prebuilt dst src (mulLuts logM) = mergedBytes true logM dst src :=
    lutVectors_eq (fun v i hi => byte_lutProduct (serves_loadu hi) v) h
  have hneon : lutXorNeonPrebuilt dst src (mulLuts logM) = mergedBytes true logM dst src :=
    lutVectors_eq (fun v i _ => byte_lutProductNeon v) h
  have hscalar : lutScalar true dst src (mulLuts logM) = mergedBytes true logM dst src :=
    lutScalar_eq h
  change _ = mergedBytes true logM dst src
  cases cpu with
  | x86Std avx2 ssse3 =>
    simp only [lutXorPrebuilt]
    rw [havx2, hssse3, hscalar, ite_self, ite_self]
  | aarch64 =>
    simp only [lutXorPrebuilt]
    rw [hneon, hscalar, ite_self]
  | other => exact hscalar

theorem mulgf8_eq (cpu : Cpu) (logM : BitVec 8) (h : src.length = dst.length) :
    mulgf8 cpu dst src logM = src.map (mul8 logM) := by
  have havx2 : assignAvx2Mul dst src (mulLuts logM) = mergedBytes false logM dst src :=
    lutVectors_eq (fun v i _ => byte_lutProduct (serves_bcast i) v) h
  have hscalar : lutScalar false dst src (mulLuts logM) = mergedBytes false logM dst src :=
    lutScalar_eq h
  have hmap : mergedBytes false logM dst src = src.map (mul8 logM) := by
    apply List.ext_getElem
    · simp [mergedBytes, h]
    · intro p h1 h2
      simp [mergedBytes, mergeByte]
  rw [← hmap]
  cases cpu with
  | x86Std avx2 ssse3 =>
    simp only [mulgf8]
    rw [havx2, hscalar, ite_self]
  | aarch64 => exact hscalar
  | other => exact hscalar

theorem sliceXorAvx2_eq (h : src.length = dst.length) :
    sliceXorAvx2 src dst = sliceXor src dst := sliceXorU16Avx2_eq h

/-- Every way to add one lane to another adds its bytes. -/
theorem sliceXor8_eq (cpu : Cpu) (h : src.length = dst.length) :
    sliceXor8 cpu src dst = sliceXor src dst := by
  cases cpu with
  | x86Std avx2 ssse3 =>
    cases avx2
    · exact xorBlocks_eq 8 8 h
    · exact sliceXorAvx2_eq h
  | aarch64 => exact xorBlocks_eq 16 4 h
  | other => exact xorBlocks_eq 8 8 h

end Slices

section Steps

variable {w : Nat} {x y : List (BitVec 8)}

theorem fftDit2_eq (cpu : Cpu) (logM : BitVec 8) (h : y.length = x.length) :
    fftDit2 cpu x y logM = dit2 gf8Kernel .forward logM x y := by
  have hlen : x.length = y.length := h.symm
  have hsum : (mulXor gf8Kernel logM y x).length = y.length := by simp [mulXor, h]
  rw [fftDit2, dit2StepPrebuilt, dit2]
  simp only [lutXorPrebuilt_eq cpu logM h, sliceXor8_eq cpu hlen, sliceXor8_eq cpu hsum]

theorem ifftDit2_eq (cpu : Cpu) (logM : BitVec 8) (h : y.length = x.length) :
    ifftDit2 cpu x y logM = dit2 gf8Kernel .inverse logM x y := by
  have hlen : x.length = y.length := h.symm
  have hsum : (sliceXor x y).length = x.length := by simp [sliceXor, h]
  rw [ifftDit2, dit2StepInvPrebuilt, dit2]
  simp only [sliceXor8_eq cpu hlen, lutXorPrebuilt_eq cpu logM hsum]

/-- The other direction of a butterfly. -/
def TransformDir.opposite : TransformDir → TransformDir
  | .forward => .inverse
  | .inverse => .forward

theorem sliceXor_cancel {x y : List (BitVec w)} (h : y.length = x.length) :
    sliceXor x (sliceXor x y) = y := by
  apply List.ext_getElem
  · simp [sliceXor, h]
  · intro p h1 h2
    simp only [sliceXor, List.getElem_zipWith, BitVec.xor_assoc, BitVec.xor_self, BitVec.xor_zero]

theorem mulXor_cancel (K : Kernel w) (logM : BitVec w) {x y : List (BitVec w)}
    (h : y.length = x.length) : mulXor K logM y (mulXor K logM y x) = x := by
  apply List.ext_getElem
  · simp [mulXor, h]
  · intro p h1 h2
    simp only [mulXor, List.getElem_zipWith, BitVec.xor_assoc, BitVec.xor_self, BitVec.xor_zero]

/-- One direction of a butterfly undoes the other. -/
theorem dit2_cancel (K : Kernel w) (dir : TransformDir) (logM : BitVec w) {x y : List (BitVec w)}
    (h : y.length = x.length) :
    dit2 K dir.opposite logM (dit2 K dir logM x y).1 (dit2 K dir logM x y).2 = (x, y) := by
  by_cases hm : logM.toNat = modulus w
  · simp only [dit2, if_pos hm, sliceXor_cancel h]
  · cases dir with
    | forward =>
      have hsum : y.length = (mulXor K logM y x).length := by simp [mulXor, h]
      simp only [dit2, if_neg hm, TransformDir.opposite, sliceXor_cancel hsum, mulXor_cancel K logM h]
    | inverse =>
      have hsum : (sliceXor x y).length = x.length := by simp [sliceXor, h]
      simp only [dit2, if_neg hm, TransformDir.opposite, sliceXor_cancel h,
        mulXor_cancel K logM hsum]

end Steps

section Exact

/-- Every kernel for bytes computes what the logarithm tables and the butterflies say, and the
directions undo each other on any two processors. -/
structure Kernels8Exact (cpu : Cpu) (logM : BitVec 8) (x y : List (BitVec 8)) : Prop where
  add : sliceXor8 cpu y x = List.zipWith (· ^^^ ·) x y
  multiply : mulgf8 cpu x y logM =
    y.map fun v => mulLog (initLogLut gf8Params) (initExpLut gf8Params) v logM
  multiplyXor : lutXorPrebuilt cpu x y (mulLuts logM) = List.zipWith (fun d s =>
    d ^^^ mulLog (initLogLut gf8Params) (initExpLut gf8Params) s logM) x y
  forward : fftDit2 cpu x y logM = dit2 gf8Kernel .forward logM x y
  inverse : ifftDit2 cpu x y logM = dit2 gf8Kernel .inverse logM x y
  undoForward : ∀ cpu', ifftDit2 cpu' (fftDit2 cpu x y logM).1 (fftDit2 cpu x y logM).2 logM = (x, y)
  undoInverse : ∀ cpu', fftDit2 cpu' (ifftDit2 cpu x y logM).1 (ifftDit2 cpu x y logM).2 logM = (x, y)

theorem mul8_eq_mulLog (logM v : BitVec 8) :
    mul8 logM v = mulLog (initLogLut gf8Params) (initExpLut gf8Params) v logM := by
  apply gf8Kernel.elem_inj
  exact (gf8Kernel.mul_spec logM v).trans (mulLog_spec gf8Lawful v logM).symm

/-- The kernels for bytes are exact on every processor. -/
theorem gf8_kernels_exact (cpu : Cpu) (logM : BitVec 8) {x y : List (BitVec 8)}
    (h : y.length = x.length) : Kernels8Exact cpu logM x y := by
  have hfwd := length_dit2 gf8Kernel .forward logM rfl h
  have hinv := length_dit2 gf8Kernel .inverse logM rfl h
  refine ⟨sliceXor8_eq cpu h, ?_, ?_, fftDit2_eq cpu logM h, ifftDit2_eq cpu logM h, fun cpu' => ?_,
    fun cpu' => ?_⟩
  · rw [mulgf8_eq cpu logM h]
    exact List.map_congr_left fun v _ => mul8_eq_mulLog logM v
  · simp only [← mul8_eq_mulLog]
    exact lutXorPrebuilt_eq cpu logM h
  · rw [fftDit2_eq cpu logM h, ifftDit2_eq cpu' logM (hfwd.2.trans hfwd.1.symm)]
    exact dit2_cancel gf8Kernel .forward logM h
  · rw [ifftDit2_eq cpu logM h, fftDit2_eq cpu' logM (hinv.2.trans hinv.1.symm)]
    exact dit2_cancel gf8Kernel .inverse logM h

/-- Seventy bytes, by registers and a tail. -/
theorem gf8_kernels_exact_sample :
    Kernels8Exact .aarch64 7#8 (List.replicate 70 3#8) (List.replicate 70 200#8) :=
  gf8_kernels_exact .aarch64 7#8 rfl

end Exact

end Leopard

end ErasureCodec
