import ErasureCodec.Framework.WordBuffers
import ErasureCodec.Leopard.Fused

namespace ErasureCodec

namespace Leopard

open Reg

section Definitions

/-- Tables as an argument: the instance of the process, or another one. -/
inductive TablesRef where
  | canonical
  | other (logLut expLut : List (BitVec 16))

def TablesRef.logLut : TablesRef → List (BitVec 16)
  | .canonical => initLogLut gf16Params
  | .other logLut _ => logLut

def TablesRef.expLut : TablesRef → List (BitVec 16)
  | .canonical => initExpLut gf16Params
  | .other _ expLut => expLut

/-- Tables with the contents that the builder gives them. -/
structure TablesRef.Built (t : TablesRef) : Prop where
  logLut_eq : t.logLut = initLogLut gf16Params
  expLut_eq : t.expLut = initExpLut gf16Params

def mulLog16 (t : TablesRef) (a logB : BitVec 16) : BitVec 16 := mulLog t.logLut t.expLut a logB

/-- Products of the nibbles at each of the four positions, low and high bytes. -/
structure NibbleTables16 where
  lo : List (List (BitVec 8))
  hi : List (List (BitVec 8))

def fillNibbleTables (a b c d : BitVec 16) : List (BitVec 8) × List (BitVec 8) :=
  let ab := a ^^^ b
  let cd := c ^^^ d
  let values := [0#16, a, b, ab, c, a ^^^ c, b ^^^ c, ab ^^^ c, d, a ^^^ d, b ^^^ d, ab ^^^ d, cd,
    a ^^^ cd, b ^^^ cd, ab ^^^ cd]
  (values.map lowByte, values.map highByte)

/-- `NibbleTables16::build` for x86: from the products of the single bits. -/
def NibbleTables16.buildBasis (t : TablesRef) (logM : BitVec 16) : NibbleTables16 :=
  let row (i : Nat) := fillNibbleTables (mulLog16 t (1#16 <<< (4 * i)) logM)
    (mulLog16 t (2#16 <<< (4 * i)) logM) (mulLog16 t (4#16 <<< (4 * i)) logM)
    (mulLog16 t (8#16 <<< (4 * i)) logM)
  ⟨(List.range 4).map fun i => (row i).1, (List.range 4).map fun i => (row i).2⟩

/-- `NibbleTables16::build` elsewhere: every product by itself. -/
def NibbleTables16.buildDirect (t : TablesRef) (logM : BitVec 16) : NibbleTables16 :=
  let row (i : Nat) := (List.range 16).map fun nib =>
    mulLog16 t (BitVec.ofNat 16 nib <<< (4 * i)) logM
  ⟨(List.range 4).map fun i => (row i).map lowByte, (List.range 4).map fun i => (row i).map highByte⟩

/-- `tables[i][nib]`. -/
def nibbleAt (tables : List (List (BitVec 8))) (i nib : Nat) : BitVec 8 :=
  (tables.getD i []).getD nib 0#8

/-- The product of one element in `mulgf16_tabled_scalar`. -/
def tabledProduct (t : NibbleTables16) (v : BitVec 16) : BitVec 16 :=
  let n0 := (v &&& 0xf#16).toNat
  let n1 := ((v >>> 4) &&& 0xf#16).toNat
  let n2 := ((v >>> 8) &&& 0xf#16).toNat
  let n3 := ((v >>> 12) &&& 0xf#16).toNat
  let lo := nibbleAt t.lo 0 n0 ^^^ nibbleAt t.lo 1 n1 ^^^ nibbleAt t.lo 2 n2 ^^^ nibbleAt t.lo 3 n3
  let hi := nibbleAt t.hi 0 n0 ^^^ nibbleAt t.hi 1 n1 ^^^ nibbleAt t.hi 2 n2 ^^^ nibbleAt t.hi 3 n3
  lo.setWidth 16 ||| hi.setWidth 16 <<< 8

end Definitions

section Linear

theorem Kernel.xorLinear_mul {w : Nat} (K : Kernel w) (logM : BitVec w) : XorLinear (K.mul logM) := by
  intro a b
  apply K.elem_inj
  rw [K.elem_mul, K.elem_xor, K.elem_xor, K.elem_mul, K.elem_mul, add_mul]

theorem xorLinear_mul16 (logM : BitVec 16) : XorLinear (mul16 logM) :=
  gf16Kernel.xorLinear_mul logM

theorem mulLog16_eq {t : TablesRef} (h : t.Built) (a logM : BitVec 16) :
    mulLog16 t a logM = mul16 logM a := by
  rw [mulLog16, h.logLut_eq, h.expLut_eq, mul16_eq_mulLog]

theorem built_canonical : TablesRef.canonical.Built := ⟨rfl, rfl⟩

/-- A linear map on a nibble, from its values on the four bits. -/
theorem fillNibbleTables_eq {f : BitVec 16 → BitVec 16} (hf : XorLinear f) {i : Nat} (hi : i < 4) :
    fillNibbleTables (f (1#16 <<< (4 * i))) (f (2#16 <<< (4 * i))) (f (4#16 <<< (4 * i)))
        (f (8#16 <<< (4 * i))) =
      (((List.range 16).map fun nib => f (BitVec.ofNat 16 nib <<< (4 * i))).map lowByte,
        ((List.range 16).map fun nib => f (BitVec.ofNat 16 nib <<< (4 * i))).map highByte) := by
  have hvalues : [0#16, f (1#16 <<< (4 * i)), f (2#16 <<< (4 * i)),
      f (1#16 <<< (4 * i)) ^^^ f (2#16 <<< (4 * i)), f (4#16 <<< (4 * i)),
      f (1#16 <<< (4 * i)) ^^^ f (4#16 <<< (4 * i)), f (2#16 <<< (4 * i)) ^^^ f (4#16 <<< (4 * i)),
      f (1#16 <<< (4 * i)) ^^^ f (2#16 <<< (4 * i)) ^^^ f (4#16 <<< (4 * i)), f (8#16 <<< (4 * i)),
      f (1#16 <<< (4 * i)) ^^^ f (8#16 <<< (4 * i)), f (2#16 <<< (4 * i)) ^^^ f (8#16 <<< (4 * i)),
      f (1#16 <<< (4 * i)) ^^^ f (2#16 <<< (4 * i)) ^^^ f (8#16 <<< (4 * i)),
      f (4#16 <<< (4 * i)) ^^^ f (8#16 <<< (4 * i)),
      f (1#16 <<< (4 * i)) ^^^ (f (4#16 <<< (4 * i)) ^^^ f (8#16 <<< (4 * i))),
      f (2#16 <<< (4 * i)) ^^^ (f (4#16 <<< (4 * i)) ^^^ f (8#16 <<< (4 * i))),
      f (1#16 <<< (4 * i)) ^^^ f (2#16 <<< (4 * i)) ^^^
        (f (4#16 <<< (4 * i)) ^^^ f (8#16 <<< (4 * i)))] =
      (List.range 16).map fun nib => f (BitVec.ofNat 16 nib <<< (4 * i)) := by
    simp only [← hf _ _]
    rw [← hf.map_zero]
    interval_cases i <;> rfl
  simp only [fillNibbleTables, hvalues]

/-- The tables from basis products are those from direct products. -/
theorem buildBasis_eq {t : TablesRef} (h : t.Built) (logM : BitVec 16) :
    NibbleTables16.buildBasis t logM = NibbleTables16.buildDirect t logM := by
  have hrow (i : Nat) (hi : i < 4) := fillNibbleTables_eq (xorLinear_mul16 logM) hi
  simp only [NibbleTables16.buildBasis, NibbleTables16.buildDirect, mulLog16_eq h,
    NibbleTables16.mk.injEq]
  constructor
  · apply List.map_congr_left
    intro i hi
    exact congrArg Prod.fst (hrow i (List.mem_range.mp hi))
  · apply List.map_congr_left
    intro i hi
    exact congrArg Prod.snd (hrow i (List.mem_range.mp hi))

theorem nibbleAt_direct {t : TablesRef} (h : t.Built) (logM : BitVec 16) {i nib : Nat} (hi : i < 4)
    (hn : nib < 16) :
    nibbleAt (NibbleTables16.buildDirect t logM).lo i nib =
        lowByte (mul16 logM (BitVec.ofNat 16 nib <<< (4 * i))) ∧
      nibbleAt (NibbleTables16.buildDirect t logM).hi i nib =
        highByte (mul16 logM (BitVec.ofNat 16 nib <<< (4 * i))) := by
  simp only [nibbleAt, NibbleTables16.buildDirect, mulLog16_eq h, List.map_map]
  constructor
  · rw [getD_map_range _ _ _ hi, getD_map_range _ _ _ hn]
    rfl
  · rw [getD_map_range _ _ _ hi, getD_map_range _ _ _ hn]
    rfl

/-- The four nibbles of a word. -/
theorem word_eq_nibbles (h l : BitVec 8) : (h ++ l : BitVec 16) =
    BitVec.ofNat 16 (l &&& 15#8).toNat <<< (4 * 0) ^^^ BitVec.ofNat 16 (l >>> 4).toNat <<< (4 * 1) ^^^
      BitVec.ofNat 16 (h &&& 15#8).toNat <<< (4 * 2) ^^^ BitVec.ofNat 16 (h >>> 4).toNat <<< (4 * 3) := by
  have hlow : ∀ l : BitVec 8, (0#8 ++ l : BitVec 16) =
      BitVec.ofNat 16 (l &&& 15#8).toNat <<< (4 * 0) ^^^
        BitVec.ofNat 16 (l >>> 4).toNat <<< (4 * 1) := by decide +kernel
  have hhigh : ∀ h : BitVec 8, (h ++ 0#8 : BitVec 16) =
      BitVec.ofNat 16 (h &&& 15#8).toNat <<< (4 * 2) ^^^
        BitVec.ofNat 16 (h >>> 4).toNat <<< (4 * 3) := by decide +kernel
  have hsplit : (h ++ l : BitVec 16) = (0#8 ++ l) ^^^ (h ++ 0#8) := by
    apply BitVec.eq_of_getLsbD_eq
    intro k hk
    rw [BitVec.getLsbD_xor, BitVec.getLsbD_append, BitVec.getLsbD_append, BitVec.getLsbD_append]
    split_ifs with h8
    · simp
    · simp
  rw [hsplit, hlow, hhigh]
  exact (BitVec.xor_assoc _ _ _).symm

end Linear

section Lookups

/-- The product of a word by the tables, from its bytes. -/
def lookup (tables : List (List (BitVec 8))) (l h : BitVec 8) : BitVec 8 :=
  nibbleAt tables 0 (l &&& 15#8).toNat ^^^ nibbleAt tables 1 (l >>> 4).toNat ^^^
    nibbleAt tables 2 (h &&& 15#8).toNat ^^^ nibbleAt tables 3 (h >>> 4).toNat

/-- Four lookups make up the product of a word. -/
theorem lookup_direct {t : TablesRef} (ht : t.Built) (logM : BitVec 16) (l h : BitVec 8) :
    lookup (NibbleTables16.buildDirect t logM).lo l h = lowByte (mul16 logM (h ++ l)) ∧
      lookup (NibbleTables16.buildDirect t logM).hi l h = highByte (mul16 logM (h ++ l)) := by
  have h0 := nibbleAt_direct ht logM (show 0 < 4 by decide) (nibble_bounds l).1
  have h1 := nibbleAt_direct ht logM (show 1 < 4 by decide) (nibble_bounds l).2
  have h2 := nibbleAt_direct ht logM (show 2 < 4 by decide) (nibble_bounds h).1
  have h3 := nibbleAt_direct ht logM (show 3 < 4 by decide) (nibble_bounds h).2
  rw [word_eq_nibbles, xorLinear_mul16, xorLinear_mul16, xorLinear_mul16, xorLinear_lowByte,
    xorLinear_lowByte, xorLinear_lowByte, xorLinear_highByte, xorLinear_highByte,
    xorLinear_highByte]
  exact ⟨by rw [lookup, h0.1, h1.1, h2.1, h3.1], by rw [lookup, h0.2, h1.2, h2.2, h3.2]⟩

theorem tabledProduct_eq_lookup (t : NibbleTables16) (v : BitVec 16) :
    tabledProduct t v = lookup t.hi (lowByte v) (highByte v) ++ lookup t.lo (lowByte v) (highByte v) := by
  have hand (x : BitVec 16) : (x &&& 0xf#16).toNat = x.toNat % 16 := by
    rw [BitVec.toNat_and]
    exact Nat.and_two_pow_sub_one_eq_mod x.toNat 4
  have hand8 (x : BitVec 8) : (x &&& 15#8).toNat = x.toNat % 16 := by
    rw [BitVec.toNat_and]
    exact Nat.and_two_pow_sub_one_eq_mod x.toNat 4
  have hshift (x : BitVec 16) (k : Nat) : (x >>> k).toNat = x.toNat / 2 ^ k := by
    rw [BitVec.toNat_ushiftRight, Nat.shiftRight_eq_div_pow]
  have hshift8 (x : BitVec 8) : (x >>> 4).toNat = x.toNat / 16 := by
    rw [BitVec.toNat_ushiftRight, Nat.shiftRight_eq_div_pow]
  have hlow : (lowByte v).toNat = v.toNat % 256 := by
    rw [lowByte, byteOf, BitVec.extractLsb'_toNat]
    simp
  have hhigh : (highByte v).toNat = v.toNat / 256 := by
    have := v.isLt
    rw [highByte, byteOf, BitVec.extractLsb'_toNat, Nat.shiftRight_eq_div_pow,
      Nat.mod_eq_of_lt (by omega)]
  have hjoin (h l : BitVec 8) : l.setWidth 16 ||| h.setWidth 16 <<< 8 = (h ++ l : BitVec 16) := by
    apply BitVec.eq_of_getLsbD_eq
    intro k hk
    rw [BitVec.getLsbD_or, BitVec.getLsbD_setWidth, BitVec.getLsbD_shiftLeft,
      BitVec.getLsbD_setWidth, BitVec.getLsbD_append]
    by_cases h8 : k < 8
    · simp [h8, hk]
    · have hge := BitVec.getLsbD_of_ge l k (by omega)
      simp [h8, hk, hge, show k - 8 < 16 by omega]
  have hn1 : v.toNat / 2 ^ 4 % 16 = v.toNat % 256 / 16 := by omega
  have hn2 : v.toNat / 2 ^ 8 % 16 = v.toNat / 256 % 16 := rfl
  have hn3 : v.toNat / 2 ^ 12 % 16 = v.toNat / 256 / 16 := by
    have := v.isLt
    omega
  have hn0 : v.toNat % 16 = v.toNat % 256 % 16 := by omega
  simp only [tabledProduct, hjoin, lookup, hand, hand8, hshift, hshift8, hlow, hhigh, hn1, hn2, hn3,
    ← hn0]

/-- The tabled product of an element is its product by the logarithm. -/
theorem tabledProduct_direct {t : TablesRef} (ht : t.Built) (logM v : BitVec 16) :
    tabledProduct (NibbleTables16.buildDirect t logM) v = mul16 logM v := by
  rw [tabledProduct_eq_lookup, (lookup_direct ht logM _ _).1, (lookup_direct ht logM _ _).2,
    highByte_append_lowByte, highByte_append_lowByte]

end Lookups

section Shuffles

/-- `multiply`: the planes of the products from the planes of some elements; `table` loads a row
of 16 bytes. -/
def nibbleMultiply (table : List (BitVec 8) → Reg) (t : NibbleTables16) (lo hi : Reg) : Reg × Reg :=
  let mask := set1Epi8 0x0f#8
  let n0 := andSi lo mask
  let n1 := andSi (srliEpi16 4 lo) mask
  let n2 := andSi hi mask
  let n3 := andSi (srliEpi16 4 hi) mask
  let product (rows : List (List (BitVec 8))) :=
    Reg.xorSi (Reg.xorSi (shuffleEpi8 (table (rows.getD 0 [])) n0) (shuffleEpi8 (table (rows.getD 1 [])) n1))
      (Reg.xorSi (shuffleEpi8 (table (rows.getD 2 [])) n2) (shuffleEpi8 (table (rows.getD 3 [])) n3))
  (product t.lo, product t.hi)

/-- The products of the elements of two registers. The planes keep the order that packing gives
them until they are unpacked again. -/
def nibbleProduct (table : List (BitVec 8) → Reg) (t : NibbleTables16) (a b : Reg) : Reg × Reg :=
  let maskLo := srliEpi16 8 (set1Epi8 0xff#8)
  let planeLo := packusEpi16 (andSi a maskLo) (andSi b maskLo)
  let planeHi := packusEpi16 (srliEpi16 8 a) (srliEpi16 8 b)
  let r := nibbleMultiply table t planeLo planeHi
  (unpackloEpi8 r.1 r.2, unpackhiEpi8 r.1 r.2)

/-- The lanes in which a loaded row can be looked up. -/
def Serves (table : List (BitVec 8) → Reg) (i : Nat) : Prop :=
  ∀ row k, k < 16 → (table row).byte (i / 16 * 16 + k) = row.getD k 0#8

/-- A row in every lane. -/
theorem serves_broadcast (i : Nat) : Serves (fun row => broadcastI128 (Reg.loadu row 0)) i := by
  intro row k hk
  rw [byte_broadcastI128, byte_loadu, Nat.zero_add, show (i / 16 * 16 + k) % 16 = k by omega]

/-- A row in a register of one lane. -/
theorem serves_loadu {i : Nat} (hi : i < 16) : Serves (fun row => Reg.loadu row 0) i := by
  intro row k _
  rw [byte_loadu, Nat.zero_add, show i / 16 * 16 + k = k by omega]

theorem Serves.byte_shuffle {table : List (BitVec 8) → Reg} {i : Nat} (h : Serves table i)
    (row : List (BitVec 8)) {n : Reg} (hn : (n.byte i).toNat < 16) :
    (shuffleEpi8 (table row) n).byte i = row.getD (n.byte i).toNat 0#8 := by
  have hmsb : (n.byte i).msb = false := by
    rw [BitVec.msb_eq_false_iff_two_mul_lt]
    omega
  change (if (n.byte i).msb then 0#8 else _) = _
  rw [hmsb, if_neg (by decide), Nat.mod_eq_of_lt hn, h row _ hn]

theorem product_eq {table : List (BitVec 8) → Reg} {i : Nat} (h : Serves table i)
    (rows : List (List (BitVec 8))) (lo hi : Reg) :
    (Reg.xorSi (Reg.xorSi (shuffleEpi8 (table (rows.getD 0 [])) (andSi lo (set1Epi8 0x0f#8)))
        (shuffleEpi8 (table (rows.getD 1 [])) (andSi (srliEpi16 4 lo) (set1Epi8 0x0f#8))))
      (Reg.xorSi (shuffleEpi8 (table (rows.getD 2 [])) (andSi hi (set1Epi8 0x0f#8)))
        (shuffleEpi8 (table (rows.getD 3 [])) (andSi (srliEpi16 4 hi) (set1Epi8 0x0f#8))))).byte i =
      lookup rows (lo.byte i) (hi.byte i) := by
  have hlo := nibble_bounds (lo.byte i)
  have hhi := nibble_bounds (hi.byte i)
  rw [byte_xorSi, byte_xorSi, byte_xorSi, h.byte_shuffle _ hlo.1,
    h.byte_shuffle _ (by rw [byte_high_nibble]; exact hlo.2), h.byte_shuffle _ hhi.1,
    h.byte_shuffle _ (by rw [byte_high_nibble]; exact hhi.2), byte_high_nibble, byte_high_nibble,
    lookup, ← BitVec.xor_assoc]
  rfl

/-- The planes of the products hold their bytes. -/
theorem byte_nibbleMultiply {t : TablesRef} (ht : t.Built) (logM : BitVec 16)
    {table : List (BitVec 8) → Reg} {i : Nat} (h : Serves table i) (lo hi : Reg) :
    (nibbleMultiply table (NibbleTables16.buildDirect t logM) lo hi).1.byte i =
        lowByte (mul16 logM (hi.byte i ++ lo.byte i)) ∧
      (nibbleMultiply table (NibbleTables16.buildDirect t logM) lo hi).2.byte i =
        highByte (mul16 logM (hi.byte i ++ lo.byte i)) :=
  ⟨(product_eq h _ lo hi).trans (lookup_direct ht logM _ _).1,
    (product_eq h _ lo hi).trans (lookup_direct ht logM _ _).2⟩

/-- Shuffling multiplies the words of both registers. -/
theorem byte_nibbleProduct {t : TablesRef} (ht : t.Built) (logM : BitVec 16)
    {table : List (BitVec 8) → Reg} {i : Nat} (h : ∀ j, j / 16 = i / 16 → Serves table j) (a b : Reg) :
    (nibbleProduct table (NibbleTables16.buildDirect t logM) a b).1.byte i =
        (mapWords (mul16 logM) a).byte i ∧
      (nibbleProduct table (NibbleTables16.buildDirect t logM) a b).2.byte i =
        (mapWords (mul16 logM) b).byte i := by
  have hmask : srliEpi16 8 (set1Epi8 0xff#8) = lowBytes := srliEpi16_ones
  -- the places of the two bytes of the word in the planes of the first and of the second register
  obtain ⟨p, hp⟩ : ∃ p, p = i / 16 * 16 + i % 16 / 2 := ⟨_, rfl⟩
  obtain ⟨q, hq⟩ : ∃ q, q = i / 16 * 16 + 8 + i % 16 / 2 := ⟨_, rfl⟩
  have hp8 : p % 16 < 8 := by omega
  have hq8 : ¬q % 16 < 8 := by omega
  have hpbyte : p / 16 * 16 + 2 * (p % 16) = 2 * (i / 2) := by omega
  have hqbyte : q / 16 * 16 + 2 * (q % 16 - 8) = 2 * (i / 2) := by omega
  have hpserves := h p (by omega)
  have hqserves := h q (by omega)
  simp only [nibbleProduct, hmask]
  constructor
  · change (if i % 2 = 0 then _ else _ : Reg).byte (i / 16 * 16 + i % 16 / 2) = _
    rw [← hp, byte_mapWords]
    split_ifs
    · rw [(byte_nibbleMultiply ht logM hpserves _ _).1, byte_packus_low, byte_packus_high,
        if_pos hp8, if_pos hp8, hpbyte]
      rfl
    · rw [(byte_nibbleMultiply ht logM hpserves _ _).2, byte_packus_low, byte_packus_high,
        if_pos hp8, if_pos hp8, hpbyte]
      rfl
  · change (if i % 2 = 0 then _ else _ : Reg).byte (i / 16 * 16 + 8 + i % 16 / 2) = _
    rw [← hq, byte_mapWords]
    split_ifs
    · rw [(byte_nibbleMultiply ht logM hqserves _ _).1, byte_packus_low, byte_packus_high,
        if_neg hq8, if_neg hq8, hqbyte]
      rfl
    · rw [(byte_nibbleMultiply ht logM hqserves _ _).2, byte_packus_low, byte_packus_high,
        if_neg hq8, if_neg hq8, hqbyte]
      rfl

/-- The same, word by word. -/
theorem word_nibbleProduct {t : TablesRef} (ht : t.Built) (logM : BitVec 16)
    {table : List (BitVec 8) → Reg} {j : Nat} (h : ∀ i, i / 16 = j / 8 → Serves table i)
    (a b : Reg) :
    (nibbleProduct table (NibbleTables16.buildDirect t logM) a b).1.word j =
        mul16 logM (a.word j) ∧
      (nibbleProduct table (NibbleTables16.buildDirect t logM) a b).2.word j =
        mul16 logM (b.word j) := by
  have hbyte (i : Nat) (hi : i / 2 = j) :=
    byte_nibbleProduct ht logM (fun k hk => h k (by omega) : ∀ k, k / 16 = i / 16 → _) a b
  constructor
  · exact (word_congr fun i hi => (hbyte i hi).1).trans (word_mapWords _)
  · exact (word_congr fun i hi => (hbyte i hi).2).trans (word_mapWords _)

end Shuffles

end Leopard

end ErasureCodec
