import ErasureCodec.Math.Slices
import ErasureCodec.Math.Lfsr
import ErasureCodec.Math.AdditiveFft
import Mathlib.Data.ZMod.Basic

namespace ErasureCodec

namespace Leopard

variable {w : Nat}

section Definitions

/-- `ORDER8`, `ORDER16`. -/
def order (w : Nat) : Nat := 2 ^ w

/-- `MODULUS8`, `MODULUS16`. -/
def modulus (w : Nat) : Nat := order w - 1

/-- `add_mod8`, `add_mod16`: a sum of logarithms; zero may come out as the modulus. -/
def addMod (a b : BitVec w) : BitVec w :=
  let sum := a.toNat + b.toNat
  BitVec.ofNat w (sum + (sum >>> w))

/-- `sub_mod8`, `sub_mod16`, in the wrapping arithmetic of a machine word. -/
def subMod (wordBits : Nat) (a b : BitVec w) : BitVec w :=
  let dif := BitVec.ofNat wordBits a.toNat - BitVec.ofNat wordBits b.toNat
  BitVec.ofNat w (dif + dif >>> w).toNat

/-- `mul_log8`, `mul_log16`: the product by the element with logarithm `logB`. -/
def mulLog (logLut expLut : List (BitVec w)) (a logB : BitVec w) : BitVec w :=
  if a = 0#w then 0#w
  else expLut.getD (addMod (logLut.getD a.toNat 0#w) logB).toNat 0#w

/-- What the two table builders differ in. -/
structure TableParams (w : Nat) where
  polynomial : Nat
  cantorBasis : List (BitVec w)
  expSize : Nat
  wordBits : Nat

/-- The shift of the running state in the first loop of `init_luts`. -/
def nextState (polynomial state : Nat) (w : Nat) : Nat :=
  let state := state <<< 1
  if order w ≤ state then state ^^^ polynomial else state

/-- The first loop of `init_luts`: the table from register states to step counts. -/
def stepCounts (params : TableParams w) : List (BitVec w) :=
  ((List.range (modulus w)).foldl
    (fun st i => (st.1.set st.2 (BitVec.ofNat w i), nextState params.polynomial st.2 w))
    (List.replicate params.expSize 0#w, 1)).1.set 0 (BitVec.ofNat w (modulus w))

/-- The second loop of `init_luts`: the register states of the Cantor coordinates. -/
def cantorCodes (params : TableParams w) : List (BitVec w) :=
  params.cantorBasis.zipIdx.foldl
    (fun codes bi => (List.range (1 <<< bi.2)).foldl
      (fun codes j => codes.set (j + 1 <<< bi.2) (codes.getD j 0#w ^^^ bi.1)) codes)
    (List.replicate (order w) 0#w)

def initLogLut (params : TableParams w) : List (BitVec w) :=
  (cantorCodes params).map fun code => (stepCounts params).getD code.toNat 0#w

/-- The last loop of `init_luts` inverts the logarithms in place. -/
def initExpLut (params : TableParams w) : List (BitVec w) :=
  let expLut := (List.range (order w)).foldl
    (fun expLut i => expLut.set ((initLogLut params).getD i 0#w).toNat (BitVec.ofNat w i))
    (stepCounts params)
  expLut.set (modulus w) (expLut.getD 0 0#w)

end Definitions

section Modular

theorem modulus_add_one (hw : 0 < w) : modulus w + 1 = 2 ^ w ∧ 0 < modulus w := by
  have h := Nat.pow_le_pow_right (n := 2) (by decide) hw
  unfold modulus order
  omega

/-- Logarithms agree when they are congruent modulo the order of the group. -/
theorem addMod_modEq (hw : 0 < w) (a b : BitVec w) :
    (addMod a b).toNat ≡ a.toNat + b.toNat [MOD modulus w] := by
  obtain ⟨hmod, hpos⟩ := modulus_add_one hw
  have ha := a.isLt
  have hb := b.isLt
  unfold addMod
  simp only
  rw [BitVec.toNat_ofNat, Nat.shiftRight_eq_div_pow]
  rcases Nat.lt_or_ge (a.toNat + b.toNat) (2 ^ w) with h | h
  · rw [Nat.div_eq_of_lt h, Nat.add_zero, Nat.mod_eq_of_lt h]
  · have hdiv : (a.toNat + b.toNat) / 2 ^ w = 1 := by
      apply Nat.div_eq_of_lt_le <;> omega
    have hval : (a.toNat + b.toNat + 1) % 2 ^ w = a.toNat + b.toNat - modulus w := by
      rw [Nat.mod_eq_sub_mod (by omega), Nat.mod_eq_of_lt (by omega)]
      omega
    rw [hdiv, hval]
    have hle : modulus w ≤ a.toNat + b.toNat := by omega
    nth_rewrite 2 [← Nat.sub_add_cancel hle]
    exact (Nat.add_modEq_right).symm

theorem subMod_toNat {wordBits : Nat} (hw : 0 < w) (hword : 2 * w ≤ wordBits) (a b : BitVec w) :
    (subMod wordBits a b).toNat =
      if b.toNat ≤ a.toNat then a.toNat - b.toNat else a.toNat + modulus w - b.toNat := by
  obtain ⟨hmod, hpos⟩ := modulus_add_one hw
  have ha := a.isLt
  have hb := b.isLt
  have hbig : 2 ^ w * 2 ^ w ≤ 2 ^ wordBits := by
    rw [← Nat.pow_add]
    exact Nat.pow_le_pow_right (by decide) (by omega)
  have hsplit : 2 ^ wordBits = 2 ^ (wordBits - w) * 2 ^ w := by
    rw [← Nat.pow_add, Nat.sub_add_cancel (by omega)]
  have hgap : 2 ^ (wordBits - w) = 2 ^ (wordBits - 2 * w) * 2 ^ w := by
    rw [← Nat.pow_add]
    congr 1
    omega
  have hword0 := Nat.two_pow_pos (wordBits - 2 * w)
  have hwle : 2 ^ w ≤ 2 ^ (wordBits - w) := by
    rw [hgap]
    exact Nat.le_mul_of_pos_left _ hword0
  have hlt : 2 ^ w < 2 ^ wordBits := by nlinarith
  have hpart : 2 ^ (wordBits - w) ≤ 2 ^ wordBits := Nat.pow_le_pow_right (by decide) (by omega)
  unfold subMod
  simp only [BitVec.toNat_ofNat, BitVec.toNat_add, BitVec.toNat_sub, BitVec.toNat_ushiftRight,
    Nat.shiftRight_eq_div_pow]
  rw [Nat.mod_eq_of_lt (show a.toNat < 2 ^ wordBits by omega),
    Nat.mod_eq_of_lt (show b.toNat < 2 ^ wordBits by omega)]
  split_ifs with hle
  · have hdif : (2 ^ wordBits - b.toNat + a.toNat) % 2 ^ wordBits = a.toNat - b.toNat := by
      rw [Nat.mod_eq_sub_mod (by omega), Nat.mod_eq_of_lt (by omega)]
      omega
    rw [hdif, Nat.div_eq_of_lt (show a.toNat - b.toNat < 2 ^ w by omega), Nat.add_zero,
      Nat.mod_eq_of_lt (show a.toNat - b.toNat < 2 ^ wordBits by omega),
      Nat.mod_eq_of_lt (show a.toNat - b.toNat < 2 ^ w by omega)]
  · have hdif : (2 ^ wordBits - b.toNat + a.toNat) % 2 ^ wordBits =
        2 ^ wordBits - (b.toNat - a.toNat) := by
      rw [Nat.mod_eq_of_lt (by omega)]
      omega
    -- the borrow fills the bits above the element
    have hhigh : (2 ^ wordBits - (b.toNat - a.toNat)) / 2 ^ w = 2 ^ (wordBits - w) - 1 := by
      apply Nat.div_eq_of_lt_le
      · rw [Nat.sub_mul, ← hsplit]
        omega
      · rw [show 2 ^ (wordBits - w) - 1 + 1 = 2 ^ (wordBits - w) by omega, ← hsplit]
        omega
    have hwrap : (2 ^ wordBits - (b.toNat - a.toNat) + (2 ^ (wordBits - w) - 1)) % 2 ^ wordBits =
        2 ^ (wordBits - w) - 1 - (b.toNat - a.toNat) := by
      rw [Nat.mod_eq_sub_mod (by omega), Nat.mod_eq_of_lt (by omega)]
      omega
    rw [hdif, hhigh, hwrap, hgap]
    have hlow : 2 ^ (wordBits - 2 * w) * 2 ^ w - 1 - (b.toNat - a.toNat) =
        a.toNat + modulus w - b.toNat + (2 ^ (wordBits - 2 * w) - 1) * 2 ^ w := by
      rw [Nat.sub_mul, Nat.one_mul]
      omega
    rw [hlow, Nat.add_mul_mod_self_right, Nat.mod_eq_of_lt (by omega)]

/-- The two wrapping operations are those of the integers modulo the group order. -/
theorem cast_addMod (hw : 0 < w) (a b : BitVec w) :
    ((addMod a b).toNat : ZMod (modulus w)) = a.toNat + b.toNat := by
  rw [← Nat.cast_add]
  exact (ZMod.natCast_eq_natCast_iff _ _ _).mpr (addMod_modEq hw a b)

theorem cast_subMod {wordBits : Nat} (hw : 0 < w) (hword : 2 * w ≤ wordBits) (a b : BitVec w) :
    ((subMod wordBits a b).toNat : ZMod (modulus w)) = a.toNat - b.toNat := by
  rw [subMod_toNat hw hword]
  split_ifs with hle
  · rw [Nat.cast_sub hle]
  · have hb := b.isLt
    obtain ⟨hmod, -⟩ := modulus_add_one hw
    rw [Nat.cast_sub (by omega), Nat.cast_add, ZMod.natCast_self, add_zero]

end Modular

/-- The constants of `leopard_gf8`. -/
def gf8Params : TableParams 8 where
  polynomial := 0x11D
  cantorBasis := [1#8, 214#8, 152#8, 146#8, 86#8, 200#8, 88#8, 230#8]
  expSize := 256
  wordBits := 64

/-- The constants of `leopard_gf16`. -/
def gf16Params : TableParams 16 where
  polynomial := 0x1002D
  cantorBasis := [0x0001#16, 0xACCA#16, 0x3C0E#16, 0x163E#16, 0xC582#16, 0xED2E#16, 0x914C#16,
    0x4012#16, 0x6C98#16, 0x10D8#16, 0x6A72#16, 0xB900#16, 0xFDB8#16, 0xFB34#16, 0xFF38#16,
    0x991E#16]
  expSize := 65536 * 2
  wordBits := 32

/-- What the tables rest on: a maximal-length register under the polynomial and
a Cantor basis of its field. -/
structure LawfulParams (params : TableParams w) where
  lfsr : Lfsr w
  polynomial_eq : params.polynomial = 2 ^ w + lfsr.feedback.toNat
  basis_length : params.cantorBasis.length = w
  basis_zero : params.cantorBasis.getD 0 0#w = 1#w
  basis_step : ∀ i, i + 1 < w →
    lfsr.mul (params.cantorBasis.getD (i + 1) 0#w) (params.cantorBasis.getD (i + 1) 0#w) ^^^
      params.cantorBasis.getD (i + 1) 0#w = params.cantorBasis.getD i 0#w
  expSize_ge : 2 ^ w ≤ params.expSize
  wordBits_ge : 2 * w ≤ params.wordBits

section Fields

theorem eq_of_prime_dvd {p : Nat} (hp : p.Prime) (h : p ∣ 3 * 5 * 17 * 257) :
    p = 3 ∨ p = 5 ∨ p = 17 ∨ p = 257 := by
  have heq {q : Nat} (hq : q.Prime) (hdvd : p ∣ q) : p = q :=
    (Nat.prime_dvd_prime_iff_eq hp hq).mp hdvd
  rcases hp.dvd_mul.mp h with h | h
  · rcases hp.dvd_mul.mp h with h | h
    · rcases hp.dvd_mul.mp h with h | h
      · exact .inl (heq (by norm_num) h)
      · exact .inr (.inl (heq (by norm_num) h))
    · exact .inr (.inr (.inl (heq (by norm_num) h)))
  · exact .inr (.inr (.inr (heq (by norm_num) h)))

/-- The register under `0x11D`. -/
def lfsr8 : Lfsr 8 where
  feedback := 0x1D#8
  pos := by decide
  period := by
    have hpow (k : Nat) (hk : k < 2 ^ 8) := lfsrPow_eq 0x1D#8 8 k hk
    apply minimalPeriod_lfsrStep
    · rw [← hpow _ (by decide)]
      decide +kernel
    · intro p hp hdvd
      rcases eq_of_prime_dvd hp (hdvd.mul_right 257) with rfl | rfl | rfl | rfl
      · rw [← hpow _ (by decide)]
        decide +kernel
      · rw [← hpow _ (by decide)]
        decide +kernel
      · rw [← hpow _ (by decide)]
        decide +kernel
      · exact absurd hdvd (by decide)

/-- The register under `0x1002D`. -/
def lfsr16 : Lfsr 16 where
  feedback := 0x2D#16
  pos := by decide
  period := by
    have hpow (k : Nat) (hk : k < 2 ^ 16) := lfsrPow_eq 0x2D#16 16 k hk
    apply minimalPeriod_lfsrStep
    · rw [← hpow _ (by decide)]
      decide +kernel
    · intro p hp hdvd
      rcases eq_of_prime_dvd hp hdvd with rfl | rfl | rfl | rfl
      all_goals
        rw [← hpow _ (by decide)]
        decide +kernel

def gf8Lawful : LawfulParams gf8Params where
  lfsr := lfsr8
  polynomial_eq := rfl
  basis_length := rfl
  basis_zero := rfl
  basis_step i hi := by
    have h : ∀ i : Fin 7, lfsr8.mul (gf8Params.cantorBasis.getD (i + 1) 0#8)
        (gf8Params.cantorBasis.getD (i + 1) 0#8) ^^^ gf8Params.cantorBasis.getD (i + 1) 0#8 =
        gf8Params.cantorBasis.getD i 0#8 := by decide +kernel
    exact h ⟨i, by omega⟩
  expSize_ge := by decide
  wordBits_ge := by decide

def gf16Lawful : LawfulParams gf16Params where
  lfsr := lfsr16
  polynomial_eq := rfl
  basis_length := rfl
  basis_zero := rfl
  basis_step i hi := by
    have h : ∀ i : Fin 15, lfsr16.mul (gf16Params.cantorBasis.getD (i + 1) 0#16)
        (gf16Params.cantorBasis.getD (i + 1) 0#16) ^^^ gf16Params.cantorBasis.getD (i + 1) 0#16 =
        gf16Params.cantorBasis.getD i 0#16 := by decide +kernel
    exact h ⟨i, by omega⟩
  expSize_ge := by decide
  wordBits_ge := by decide

end Fields

section Codes

variable {params : TableParams w}

/-- The register state of a Cantor coordinate vector. -/
def code (params : TableParams w) (i : Nat) : BitVec w := (cantorCodes params).getD i 0#w

/-- One round of the second loop copies the codes below the new basis element. -/
theorem cantorRound_spec (codes : List (BitVec w)) (basis : BitVec w) (width : Nat)
    (hlen : 2 * width ≤ codes.length) :
    ((List.range width).foldl
      (fun codes j => codes.set (j + width) (codes.getD j 0#w ^^^ basis)) codes).length =
        codes.length ∧
    (∀ j, j < width → ((List.range width).foldl
      (fun codes j => codes.set (j + width) (codes.getD j 0#w ^^^ basis)) codes).getD (j + width) 0#w =
        codes.getD j 0#w ^^^ basis) ∧
    ∀ j, j < width ∨ 2 * width ≤ j → ((List.range width).foldl
      (fun codes j => codes.set (j + width) (codes.getD j 0#w ^^^ basis)) codes).getD j 0#w =
        codes.getD j 0#w := by
  have hloop := foldl_range_inv
    (fun n (t : List (BitVec w)) => t.length = codes.length ∧
      (∀ j, j < n → t.getD (j + width) 0#w = codes.getD j 0#w ^^^ basis) ∧
      ∀ j, j < width ∨ 2 * width ≤ j → t.getD j 0#w = codes.getD j 0#w)
    (fun codes j => codes.set (j + width) (codes.getD j 0#w ^^^ basis)) width codes
    ⟨rfl, fun j hj => by omega, fun j _ => rfl⟩ (by
      rintro n hn t ⟨h1, h2, h3⟩
      refine ⟨by rw [List.length_set, h1], ?_, ?_⟩
      · intro j hj
        rw [getD_set]
        by_cases hjn : n = j
        · rw [if_pos (by omega), h3 n (.inl hn), hjn]
        · rw [if_neg (by omega), h2 j (by omega)]
      · intro j hj
        rw [getD_set, if_neg (by omega), h3 j hj])
  exact hloop

theorem code_spec (h : LawfulParams params) : (cantorCodes params).length = 2 ^ w ∧
    code params 0 = 0#w ∧ ∀ b, b < w → ∀ j, j < 2 ^ b →
      code params (j + 2 ^ b) = code params j ^^^ params.cantorBasis.getD b 0#w := by
  let P : Nat → List (BitVec w) → Prop := fun n codes => codes.length = 2 ^ w ∧
    codes.getD 0 0#w = 0#w ∧ ∀ b, b < n → ∀ j, j < 2 ^ b →
      codes.getD (j + 2 ^ b) 0#w = codes.getD j 0#w ^^^ params.cantorBasis.getD b 0#w
  have key (n : Nat) (hn : n ≤ w) : P n ((params.cantorBasis.take n).zipIdx.foldl
      (fun codes bi => (List.range (1 <<< bi.2)).foldl
        (fun codes j => codes.set (j + 1 <<< bi.2) (codes.getD j 0#w ^^^ bi.1)) codes)
      (List.replicate (order w) 0#w)) := by
    induction n with
    | zero =>
      refine ⟨by simp [order], ?_, fun b hb => by omega⟩
      simp [List.getD_eq_getElem?_getD, order]
    | succ n ih =>
      have hlt : n < params.cantorBasis.length := by rw [h.basis_length]; omega
      have hpow : 2 * 2 ^ n ≤ 2 ^ w := by
        rw [← Nat.pow_succ']
        exact Nat.pow_le_pow_right (by decide) hn
      obtain ⟨hlen, hzero, hstep⟩ := ih (by omega)
      rw [List.take_succ_eq_append_getElem hlt, List.zipIdx_append, List.foldl_append]
      simp only [List.length_take, List.zipIdx_cons, List.zipIdx_nil, List.foldl_cons,
        List.foldl_nil]
      rw [Nat.min_eq_left hlt.le, Nat.zero_add, Nat.one_shiftLeft]
      obtain ⟨h1, h2, h3⟩ := cantorRound_spec _ params.cantorBasis[n] (2 ^ n)
        (by rw [hlen]; exact hpow)
      refine ⟨h1.trans hlen, (h3 0 (.inl (Nat.two_pow_pos n))).trans hzero, ?_⟩
      intro b hb j hj
      rcases Nat.lt_succ_iff_lt_or_eq.mp hb with hlt' | rfl
      · have hle := Nat.pow_le_pow_right (n := 2) (by decide) hlt'
        rw [Nat.pow_succ] at hle
        rw [h3 (j + 2 ^ b) (.inl (by omega)), h3 j (.inl (by omega)), hstep b hlt' j hj]
      · rw [h2 j hj, h3 j (.inl hj), List.getD_eq_getElem _ _ hlt]
  have hfull := key w le_rfl
  rw [List.take_of_length_le (by rw [h.basis_length])] at hfull
  exact hfull

theorem code_xor (h : LawfulParams params) {i j : Nat} (hi : i < 2 ^ w) (hj : j < 2 ^ w) :
    code params (i ^^^ j) = code params i ^^^ code params j := by
  obtain ⟨-, hzero, hstep⟩ := code_spec h
  have key (k : Nat) (hk : k ≤ w) : ∀ i j, i < 2 ^ k → j < 2 ^ k →
      code params (i ^^^ j) = code params i ^^^ code params j := by
    induction k with
    | zero =>
      intro i j hi hj
      obtain rfl : i = 0 := by simpa using hi
      obtain rfl : j = 0 := by simpa using hj
      rw [Nat.xor_self, hzero, BitVec.xor_self]
    | succ k ih =>
      have hpow : 2 ^ (k + 1) = 2 ^ k + 2 ^ k := by rw [Nat.pow_succ]; omega
      have hb := hstep k (by omega)
      intro i j hi hj
      rcases Nat.lt_or_ge i (2 ^ k) with hi' | hi'
      · rcases Nat.lt_or_ge j (2 ^ k) with hj' | hj'
        · exact ih (by omega) i j hi' hj'
        · obtain ⟨e, rfl⟩ : ∃ e, j = e + 2 ^ k := ⟨j - 2 ^ k, by omega⟩
          have he : e < 2 ^ k := by omega
          rw [(xor_add_two_pow hi' he).1, hb _ (Nat.xor_lt_two_pow hi' he),
            ih (by omega) i e hi' he, hb e he, BitVec.xor_assoc]
      · obtain ⟨e, rfl⟩ : ∃ e, i = e + 2 ^ k := ⟨i - 2 ^ k, by omega⟩
        have he : e < 2 ^ k := by omega
        rcases Nat.lt_or_ge j (2 ^ k) with hj' | hj'
        · rw [(xor_add_two_pow he hj').2.1, hb _ (Nat.xor_lt_two_pow he hj'),
            ih (by omega) e j he hj', hb e he]
          ac_rfl
        · obtain ⟨d, rfl⟩ : ∃ d, j = d + 2 ^ k := ⟨j - 2 ^ k, by omega⟩
          have hd : d < 2 ^ k := by omega
          rw [(xor_add_two_pow he hd).2.2, ih (by omega) e d he hd, hb e he, hb d hd]
          have hself (x y z : BitVec w) : (x ^^^ z) ^^^ (y ^^^ z) = x ^^^ y := by
            rw [BitVec.xor_comm y z, BitVec.xor_assoc x z, ← BitVec.xor_assoc z z, BitVec.xor_self,
              BitVec.zero_xor]
          rw [hself]
  exact key w le_rfl i j hi hj

/-- The points of the transform: the field elements of the Cantor coordinates. -/
def LawfulParams.points (h : LawfulParams params) : CantorPoints h.lfsr.Elem w where
  point i := h.lfsr.elem (code params i)
  pos := h.lfsr.pos
  point_one := by
    obtain ⟨-, hzero, hstep⟩ := code_spec h
    have h1 := hstep 0 h.lfsr.pos 0 (by simp)
    rw [hzero, h.basis_zero, BitVec.zero_xor] at h1
    exact congrArg h.lfsr.elem h1
  point_xor i j hi hj := by
    rw [code_xor h hi hj]
    rfl
  point_sq := by
    obtain ⟨-, hzero, hstep⟩ := code_spec h
    have key (k : Nat) (hk : k ≤ w) : ∀ i, i < 2 ^ k →
        h.lfsr.elem (code params i) ^ 2 + h.lfsr.elem (code params i) =
          h.lfsr.elem (code params (i / 2)) := by
      induction k with
      | zero =>
        intro i hi
        obtain rfl : i = 0 := by simpa using hi
        rw [Nat.zero_div, hzero]
        simp
      | succ k ih =>
        intro i hi
        rcases Nat.lt_or_ge i (2 ^ k) with hi' | hi'
        · exact ih (by omega) i hi'
        · have hpow : 2 ^ (k + 1) = 2 ^ k + 2 ^ k := by rw [Nat.pow_succ]; omega
          obtain ⟨e, rfl⟩ : ∃ e, i = e + 2 ^ k := ⟨i - 2 ^ k, by omega⟩
          have he : e < 2 ^ k := by omega
          rw [hstep k (by omega) e he, Lfsr.elem_xor, CharTwo.add_sq]
          cases k with
          | zero =>
            obtain rfl : e = 0 := by simpa using he
            rw [h.basis_zero, hzero, show (0 + 2 ^ 0) / 2 = 0 by decide, hzero]
            simp [CharTwo.add_self_eq_zero]
          | succ k =>
            have hbasis := congrArg h.lfsr.elem (h.basis_step k (by omega))
            rw [Lfsr.elem_xor, Lfsr.elem_mul] at hbasis
            have hhalf : (e + 2 ^ (k + 1)) / 2 = e / 2 + 2 ^ k := by
              rw [Nat.pow_succ]
              omega
            have he2 : e / 2 < 2 ^ k := by
              rw [Nat.pow_succ] at he
              omega
            rw [hhalf, hstep k (by omega) _ he2, Lfsr.elem_xor, ← hbasis, ← ih (by omega) e he]
            ring
    exact fun i hi => key w le_rfl i hi

end Codes

section Logarithms

variable {params : TableParams w}

theorem code_inj (h : LawfulParams params) {i j : Nat} (hi : i < 2 ^ w) (hj : j < 2 ^ w)
    (hij : code params i = code params j) : i = j :=
  h.points.point_inj hi hj (congrArg h.lfsr.elem hij)

theorem code_ne_zero (h : LawfulParams params) {i : Nat} (hi : i < 2 ^ w) (h0 : i ≠ 0) :
    code params i ≠ 0#w := by
  intro hz
  exact h0 (code_inj h hi (Nat.two_pow_pos w) (hz.trans (code_spec h).2.1.symm))

/-- Every register state has coordinates. -/
theorem exists_code (h : LawfulParams params) (a : BitVec w) :
    ∃ i, i < 2 ^ w ∧ code params i = a := by
  let S : Finset Nat := (Finset.range (2 ^ w)).image fun i => (code params i).toNat
  have hcard : S.card = 2 ^ w := by
    rw [Finset.card_image_of_injOn, Finset.card_range]
    intro i hi j hj hij
    exact code_inj h (by simpa using hi) (by simpa using hj) (BitVec.eq_of_toNat_eq hij)
  have hsub : S ⊆ Finset.range (2 ^ w) := by
    intro x hx
    obtain ⟨i, -, rfl⟩ := Finset.mem_image.mp hx
    exact Finset.mem_range.mpr (code params i).isLt
  have heq : S = Finset.range (2 ^ w) := by
    apply Finset.eq_of_subset_of_card_le hsub
    rw [hcard, Finset.card_range]
  have hmem : a.toNat ∈ S := by
    rw [heq]
    exact Finset.mem_range.mpr a.isLt
  obtain ⟨i, hi, hia⟩ := Finset.mem_image.mp hmem
  exact ⟨i, by simpa using hi, BitVec.eq_of_toNat_eq hia⟩

theorem nextState_toNat (h : LawfulParams params) (b : BitVec w) :
    nextState params.polynomial b.toNat w = (h.lfsr.step b).toNat := by
  have hw := h.lfsr.pos
  have hb := b.isLt
  have hpow : 2 ^ w = 2 * 2 ^ (w - 1) := by
    rw [← Nat.pow_succ']
    congr 1
    omega
  unfold nextState order Lfsr.step lfsrStep
  simp only [Nat.shiftLeft_eq, Nat.pow_one]
  by_cases hmsb : b.msb = true
  · have hge := BitVec.msb_eq_true_iff_two_mul_ge.mp hmsb
    rw [if_pos (by omega), if_pos hmsb, BitVec.toNat_xor, BitVec.toNat_shiftLeft,
      Nat.shiftLeft_eq, Nat.pow_one, h.polynomial_eq, Nat.mod_eq_sub_mod (by omega),
      Nat.mod_eq_of_lt (by omega)]
    have hx := (xor_add_two_pow (k := w) (i := b.toNat * 2 - 2 ^ w)
      (e := h.lfsr.feedback.toNat) (by omega) h.lfsr.feedback.isLt).2.2
    rw [Nat.sub_add_cancel (by omega), Nat.add_comm h.lfsr.feedback.toNat] at hx
    exact hx
  · have hlt : b.toNat * 2 < 2 ^ w := by
      by_contra hge
      exact hmsb (BitVec.msb_eq_true_iff_two_mul_ge.mpr (by omega))
    rw [if_neg (by omega), if_neg hmsb, BitVec.xor_zero, BitVec.toNat_shiftLeft, Nat.shiftLeft_eq,
      Nat.pow_one, Nat.mod_eq_of_lt hlt]

/-- The step count of a nonzero state is its logarithm; zero has the modulus. -/
theorem stepCounts_spec (h : LawfulParams params) :
    (stepCounts params).length = params.expSize ∧
      (stepCounts params).getD 0 0#w = BitVec.ofNat w (modulus w) ∧
      ∀ j, j < modulus w →
        (stepCounts params).getD (h.lfsr.power j).toNat 0#w = BitVec.ofNat w j := by
  have hpow (j : Nat) : (h.lfsr.power j).toNat < params.expSize :=
    lt_of_lt_of_le (h.lfsr.power j).isLt h.expSize_ge
  have hnz (j : Nat) : (h.lfsr.power j).toNat ≠ 0 := by
    intro hz
    apply h.lfsr.power_ne_zero j
    apply BitVec.eq_of_toNat_eq
    rw [hz, BitVec.toNat_ofNat, Nat.zero_mod]
  let P : Nat → List (BitVec w) × Nat → Prop := fun i st => st.1.length = params.expSize ∧
    st.2 = (h.lfsr.power i).toNat ∧
      ∀ j, j < i → st.1.getD (h.lfsr.power j).toNat 0#w = BitVec.ofNat w j
  have hone : (1 : Nat) = (h.lfsr.power 0).toNat := by
    change 1 = (1#w : BitVec w).toNat
    rw [BitVec.toNat_ofNat, Nat.mod_eq_of_lt h.lfsr.two_le_pow]
  obtain ⟨hlen, -, hres⟩ := foldl_range_inv P
    (fun st i => (st.1.set st.2 (BitVec.ofNat w i), nextState params.polynomial st.2 w))
    (modulus w) (List.replicate params.expSize 0#w, 1)
    ⟨List.length_replicate, hone, fun j hj => by omega⟩ (by
      rintro i hi ⟨res, state⟩ ⟨hlen, rfl, hres⟩
      simp only at hlen hres ⊢
      refine ⟨by rw [List.length_set]; exact hlen, ?_, fun j hj => ?_⟩
      · rw [nextState_toNat h, ← Function.iterate_one h.lfsr.step, h.lfsr.iterate_power]
      · rw [getD_set]
        rcases Nat.lt_succ_iff_lt_or_eq.mp hj with hlt | rfl
        · rw [if_neg (fun hc => ?_)]
          · exact hres j hlt
          · have hij := h.lfsr.power_inj hi (by unfold modulus order at hi; omega)
              (BitVec.eq_of_toNat_eq hc.1)
            omega
        · rw [if_pos ⟨rfl, by rw [hlen]; exact hpow j⟩])
  unfold stepCounts
  refine ⟨by rw [List.length_set]; exact hlen, ?_, ?_⟩
  · rw [getD_set, if_pos ⟨rfl, by rw [hlen]; have := hpow 0; omega⟩]
  · intro j hj
    rw [getD_set, if_neg (fun hc => hnz j hc.1.symm)]
    exact hres j hj

/-- The logarithm of a point. -/
def logAt (params : TableParams w) (i : Nat) : Nat := ((initLogLut params).getD i 0#w).toNat

theorem initLogLut_spec (h : LawfulParams params) : (initLogLut params).length = 2 ^ w ∧
    logAt params 0 = modulus w ∧
    ∀ i, i < 2 ^ w → i ≠ 0 →
      logAt params i < modulus w ∧ h.lfsr.gen ^ logAt params i = h.points.point i := by
  obtain ⟨hlen, hzero, -⟩ := code_spec h
  obtain ⟨hmod, -⟩ := modulus_add_one h.lfsr.pos
  obtain ⟨-, hcount0, hcount⟩ := stepCounts_spec h
  have hget (i : Nat) (hi : i < 2 ^ w) : (initLogLut params).getD i 0#w =
      (stepCounts params).getD (code params i).toNat 0#w := by
    unfold initLogLut
    rw [getD_map_of_lt _ _ _ (by rw [hlen]; exact hi) 0#w]
    rfl
  have hnat (j : Nat) (hj : j ≤ modulus w) : (BitVec.ofNat w j).toNat = j := by
    rw [BitVec.toNat_ofNat, Nat.mod_eq_of_lt (by omega)]
  refine ⟨by unfold initLogLut; rw [List.length_map, hlen], ?_, ?_⟩
  · unfold logAt
    rw [hget 0 (Nat.two_pow_pos w), hzero]
    rw [BitVec.toNat_ofNat, Nat.zero_mod, hcount0, hnat _ le_rfl]
  · intro i hi h0
    obtain ⟨j, hj, hpow⟩ := h.lfsr.exists_power _ (code_ne_zero h hi h0)
    have hj' : j < modulus w := hj
    unfold logAt
    rw [hget i hi, ← hpow, hcount j hj', hnat j hj'.le]
    refine ⟨hj', ?_⟩
    rw [← h.lfsr.elem_power, hpow]
    rfl

theorem logAt_inj (h : LawfulParams params) {i j : Nat} (hi : i < 2 ^ w) (hj : j < 2 ^ w)
    (hij : logAt params i = logAt params j) : i = j := by
  obtain ⟨-, hzero, hlog⟩ := initLogLut_spec h
  by_cases hi0 : i = 0
  · by_cases hj0 : j = 0
    · rw [hi0, hj0]
    · have := (hlog j hj hj0).1
      rw [← hij, hi0, hzero] at this
      omega
  · by_cases hj0 : j = 0
    · have := (hlog i hi hi0).1
      rw [hij, hj0, hzero] at this
      omega
    · apply h.points.point_inj hi hj
      rw [← (hlog i hi hi0).2, ← (hlog j hj hj0).2, hij]

/-- The exponential table holds the powers of the generator, the modulus included. -/
theorem initExpLut_spec (h : LawfulParams params) {l : Nat} (hl : l ≤ modulus w) :
    h.points.point ((initExpLut params).getD l 0#w).toNat = h.lfsr.gen ^ l := by
  obtain ⟨hmod, hmpos⟩ := modulus_add_one h.lfsr.pos
  obtain ⟨-, hlog0, hlog⟩ := initLogLut_spec h
  have hlogle (i : Nat) (hi : i < 2 ^ w) : logAt params i ≤ modulus w := by
    by_cases h0 : i = 0
    · rw [h0, hlog0]
    · exact (hlog i hi h0).1.le
  let P : Nat → List (BitVec w) → Prop := fun n t => t.length = params.expSize ∧
    ∀ i, i < n → t.getD (logAt params i) 0#w = BitVec.ofNat w i
  have hloop : P (order w) ((List.range (order w)).foldl
      (fun expLut i => expLut.set ((initLogLut params).getD i 0#w).toNat (BitVec.ofNat w i))
      (stepCounts params)) := by
    apply foldl_range_inv P
    · exact ⟨(stepCounts_spec h).1, fun i hi => by omega⟩
    · rintro n hn t ⟨hlen, ht⟩
      refine ⟨by rw [List.length_set]; exact hlen, fun i hi => ?_⟩
      change (t.set (logAt params n) _).getD _ _ = _
      rw [getD_set]
      rcases Nat.lt_succ_iff_lt_or_eq.mp hi with hlt | rfl
      · rw [if_neg (fun hc => ?_)]
        · exact ht i hlt
        · have := logAt_inj h hn (lt_trans hlt hn) hc.1
          omega
      · have hle := hlogle i hn
        have hsize := h.expSize_ge
        rw [if_pos ⟨rfl, by rw [hlen]; omega⟩]
  obtain ⟨hlen, hres⟩ := hloop
  have hinv (l : Nat) (hl : l < modulus w) : ∃ i, i < 2 ^ w ∧ logAt params i = l ∧
      h.points.point i = h.lfsr.gen ^ l := by
    obtain ⟨i, hi, hcode⟩ := exists_code h (h.lfsr.power l)
    have hi0 : i ≠ 0 := by
      rintro rfl
      exact h.lfsr.power_ne_zero l (hcode.symm.trans (code_spec h).2.1)
    have hpoint : h.points.point i = h.lfsr.gen ^ l := by
      rw [← h.lfsr.elem_power, ← hcode]
      rfl
    obtain ⟨hlt, hpow⟩ := hlog i hi hi0
    refine ⟨i, hi, ?_, hpoint⟩
    apply h.lfsr.power_inj hlt hl
    apply h.lfsr.elem_inj
    rw [h.lfsr.elem_power, h.lfsr.elem_power, hpow, hpoint]
  have hread (l : Nat) (hl : l < modulus w) : h.points.point
      (((List.range (order w)).foldl
        (fun expLut i => expLut.set ((initLogLut params).getD i 0#w).toNat (BitVec.ofNat w i))
        (stepCounts params)).getD l 0#w).toNat = h.lfsr.gen ^ l := by
    obtain ⟨i, hi, rfl, hpoint⟩ := hinv l hl
    rw [hres i hi, BitVec.toNat_ofNat, Nat.mod_eq_of_lt hi, hpoint]
  unfold initExpLut
  simp only
  rw [getD_set]
  rcases Nat.lt_or_ge l (modulus w) with hlt | hge
  · rw [if_neg (by omega)]
    exact hread l hlt
  · obtain rfl : l = modulus w := by omega
    have hsize := h.expSize_ge
    rw [if_pos ⟨rfl, by rw [hlen]; omega⟩, hread 0 hmpos, pow_zero]
    exact h.lfsr.gen_pow_period.symm

theorem gen_addMod (h : LawfulParams params) (a b : BitVec w) :
    h.lfsr.gen ^ (addMod a b).toNat = h.lfsr.gen ^ a.toNat * h.lfsr.gen ^ b.toNat := by
  have hcongr := addMod_modEq h.lfsr.pos a b
  rw [← h.lfsr.gen_pow_mod, show 2 ^ w - 1 = modulus w from rfl, hcongr, ← pow_add]
  exact h.lfsr.gen_pow_mod _

/-- A product by a logarithm multiplies by that power of the generator. -/
theorem mulLog_spec (h : LawfulParams params) (a logB : BitVec w) :
    h.points.point (mulLog (initLogLut params) (initExpLut params) a logB).toNat =
      h.points.point a.toNat * h.lfsr.gen ^ logB.toNat := by
  obtain ⟨hmod, -⟩ := modulus_add_one h.lfsr.pos
  obtain ⟨-, -, hlog⟩ := initLogLut_spec h
  unfold mulLog
  split_ifs with ha
  · rw [ha, BitVec.toNat_ofNat, Nat.zero_mod, h.points.point_zero, zero_mul]
  · have ha0 : a.toNat ≠ 0 := by
      intro hz
      exact ha (BitVec.eq_of_toNat_eq (by rw [hz, BitVec.toNat_ofNat, Nat.zero_mod]))
    have hle : (addMod ((initLogLut params).getD a.toNat 0#w) logB).toNat ≤ modulus w := by
      have := (addMod ((initLogLut params).getD a.toNat 0#w) logB).isLt
      omega
    rw [initExpLut_spec h hle, gen_addMod h, ← (hlog a.toNat a.isLt ha0).2]
    rfl

end Logarithms

end Leopard

end ErasureCodec
