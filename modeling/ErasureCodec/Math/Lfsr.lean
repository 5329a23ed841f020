import ErasureCodec.Math.Loop
import Mathlib.Algebra.CharP.Two
import Mathlib.Algebra.Field.MinimalAxioms
import Mathlib.Dynamics.PeriodicPts.Defs
import Mathlib.Data.Fintype.Card

namespace ErasureCodec

variable {w : Nat}

/-- One shift of a feedback register: multiplication by the generator modulo
`x ^ w + feedback`. -/
def lfsrStep (feedback b : BitVec w) : BitVec w :=
  (b <<< 1) ^^^ if b.msb then feedback else 0#w

/-- The product of two states, one shifted copy of `a` for each bit of `b`. -/
def lfsrMul (feedback a b : BitVec w) : BitVec w :=
  (List.range w).foldl
    (fun acc i => if b.getLsbD i then acc ^^^ (lfsrStep feedback)^[i] a else acc) 0#w

/-- The state after `k` shifts from one, by squaring; `fuel` bounds the bits of `k`. -/
def lfsrPow (feedback : BitVec w) : Nat → Nat → BitVec w
  | 0, _ => 1#w
  | fuel + 1, k =>
    let half := lfsrPow feedback fuel (k / 2)
    let square := lfsrMul feedback half half
    if k % 2 = 1 then lfsrStep feedback square else square

section Register

variable (feedback : BitVec w)

theorem lfsrStep_zero : lfsrStep feedback 0#w = 0#w := by
  simp [lfsrStep]

/-- A shift is linear. -/
theorem lfsrStep_xor (a b : BitVec w) :
    lfsrStep feedback (a ^^^ b) = lfsrStep feedback a ^^^ lfsrStep feedback b := by
  have hred : ∀ x y : Bool, (if x ^^ y then feedback else 0#w) =
      (if x then feedback else 0#w) ^^^ if y then feedback else 0#w := by
    intro x y
    cases x <;> cases y <;> simp
  unfold lfsrStep
  rw [BitVec.shiftLeft_xor_distrib, BitVec.msb_xor, hred]
  ac_rfl

theorem iterate_lfsrStep_xor (i : Nat) (a b : BitVec w) : (lfsrStep feedback)^[i] (a ^^^ b) =
    (lfsrStep feedback)^[i] a ^^^ (lfsrStep feedback)^[i] b := by
  induction i generalizing a b with
  | zero => rfl
  | succ i ih => rw [Function.iterate_succ_apply, lfsrStep_xor, ih]; rfl

theorem iterate_lfsrStep_zero (i : Nat) : (lfsrStep feedback)^[i] 0#w = 0#w :=
  Function.iterate_fixed (lfsrStep_zero feedback) i

/-- Below the width a shift of one state bit does not reach the feedback. -/
theorem iterate_lfsrStep_one {i : Nat} (hi : i < w) :
    (lfsrStep feedback)^[i] 1#w = BitVec.twoPow w i := by
  induction i with
  | zero => simp [BitVec.twoPow_zero]
  | succ i ih =>
    rw [Function.iterate_succ_apply', ih (by omega)]
    unfold lfsrStep
    have hmsb : (BitVec.twoPow w i).msb = false := by
      rw [BitVec.msb_eq_getLsbD_last, BitVec.getLsbD_twoPow]
      have hne : ¬i = w - 1 := by omega
      simp [hne]
    rw [hmsb, if_neg (by decide), BitVec.xor_zero]
    apply BitVec.eq_of_getLsbD_eq
    intro j hj
    simp only [BitVec.getLsbD_shiftLeft, BitVec.getLsbD_twoPow]
    by_cases hj0 : j < 1
    · have : ¬i + 1 = j := by omega
      simp [hj, hj0, this]
    · have h1 : i = j - 1 ↔ i + 1 = j := by omega
      have h2 : i < w := by omega
      simp [hj, hj0, h1, h2, hi]

/-- The product by a state of the run from one shifts the other factor as often. -/
theorem lfsrMul_iterate (i : Nat) (b : BitVec w) :
    lfsrMul feedback ((lfsrStep feedback)^[i] 1#w) b = (lfsrStep feedback)^[i] b := by
  have hloop := foldl_range_inv
    (fun n acc => ∃ part : BitVec w, acc = (lfsrStep feedback)^[i] part ∧
      ∀ j, j < w → part.getLsbD j = (decide (j < n) && b.getLsbD j))
    (fun acc k => if b.getLsbD k then
      acc ^^^ (lfsrStep feedback)^[k] ((lfsrStep feedback)^[i] 1#w) else acc) w 0#w
    ⟨0#w, (iterate_lfsrStep_zero feedback i).symm, fun j _ => by simp⟩ (by
      rintro k hk acc ⟨part, rfl, hpart⟩
      by_cases hb : b.getLsbD k = true
      · refine ⟨part ^^^ BitVec.twoPow w k, ?_, ?_⟩
        · rw [if_pos hb, iterate_lfsrStep_xor, ← iterate_lfsrStep_one feedback hk,
            ← Function.iterate_add_apply, ← Function.iterate_add_apply, Nat.add_comm]
        · intro j hj
          rw [BitVec.getLsbD_xor, hpart j hj, BitVec.getLsbD_twoPow]
          rcases lt_trichotomy j k with h | rfl | h
          · have h1 : ¬k = j := by omega
            have h2 : j < k + 1 := by omega
            simp [h, h1, h2]
          · simp [hb, hj]
          · have h1 : ¬k = j := by omega
            have h2 : ¬j < k := by omega
            have h3 : ¬j < k + 1 := by omega
            simp [h1, h2, h3]
      · refine ⟨part, by rw [if_neg hb], ?_⟩
        intro j hj
        rw [hpart j hj]
        by_cases hjk : j = k
        · rw [hjk]
          simp [hb]
        · have : j < k + 1 ↔ j < k := by omega
          simp [this])
  obtain ⟨part, hacc, hpart⟩ := hloop
  have hb : part = b := by
    apply BitVec.eq_of_getLsbD_eq
    intro j hj
    rw [hpart j hj]
    simp [hj]
  rw [hb] at hacc
  exact hacc

theorem lfsrPow_eq (fuel k : Nat) (hk : k < 2 ^ fuel) :
    lfsrPow feedback fuel k = (lfsrStep feedback)^[k] 1#w := by
  induction fuel generalizing k with
  | zero =>
    obtain rfl : k = 0 := by simpa using hk
    rfl
  | succ fuel ih =>
    have hhalf : k / 2 < 2 ^ fuel := by
      rw [Nat.pow_succ] at hk
      omega
    simp only [lfsrPow]
    rw [ih (k / 2) hhalf, lfsrMul_iterate, ← Function.iterate_add_apply]
    split_ifs with hodd
    · rw [← Function.iterate_succ_apply' (lfsrStep feedback)]
      exact congrArg (fun n => (lfsrStep feedback)^[n] 1#w) (by omega)
    · exact congrArg (fun n => (lfsrStep feedback)^[n] 1#w) (by omega)

/-- The period is found on the maximal proper divisors of a known one. -/
theorem minimalPeriod_lfsrStep {N : Nat} (hperiod : (lfsrStep feedback)^[N] 1#w = 1#w)
    (hne : ∀ p, p.Prime → p ∣ N → (lfsrStep feedback)^[N / p] 1#w ≠ 1#w) :
    Function.minimalPeriod (lfsrStep feedback) 1#w = N := by
  have hpt : Function.IsPeriodicPt (lfsrStep feedback) N 1#w := hperiod
  obtain ⟨c, hc⟩ := hpt.minimalPeriod_dvd
  by_contra hlt
  have hc1 : c ≠ 1 := by
    rintro rfl
    exact hlt (by rw [hc, Nat.mul_one])
  obtain ⟨p, hp, d, hd⟩ := Nat.exists_prime_and_dvd hc1
  have hdiv : N / p = Function.minimalPeriod (lfsrStep feedback) 1#w * d := by
    apply Nat.div_eq_of_eq_mul_right hp.pos
    rw [hc, hd]
    ring
  apply hne p hp ⟨Function.minimalPeriod (lfsrStep feedback) 1#w * d, by rw [hc, hd]; ring⟩
  rw [hdiv]
  exact (Function.isPeriodicPt_minimalPeriod (lfsrStep feedback) 1#w).mul_const d

end Register

/-- A register that runs through all nonzero states. -/
structure Lfsr (w : Nat) where
  feedback : BitVec w
  pos : 0 < w
  period : Function.minimalPeriod (lfsrStep feedback) 1#w = 2 ^ w - 1

namespace Lfsr

variable (L : Lfsr w)

def step (b : BitVec w) : BitVec w := lfsrStep L.feedback b

/-- The powers of the generator. -/
def power (i : Nat) : BitVec w := L.step^[i] 1#w

def mul (a b : BitVec w) : BitVec w := lfsrMul L.feedback a b

section Powers

theorem iterate_power (i j : Nat) : L.step^[j] (L.power i) = L.power (i + j) := by
  unfold power
  rw [← Function.iterate_add_apply, Nat.add_comm]

theorem two_le_pow (L : Lfsr w) : 2 ≤ 2 ^ w := by
  have h := Nat.pow_le_pow_right (n := 2) (by decide) L.pos
  rwa [Nat.pow_one] at h

theorem one_ne_zero (L : Lfsr w) : (1#w : BitVec w) ≠ 0#w := by
  intro h
  have h1 := congrArg BitVec.toNat h
  rw [BitVec.toNat_ofNat, BitVec.toNat_ofNat, Nat.mod_eq_of_lt L.two_le_pow] at h1
  simp at h1

theorem isPeriodicPt : Function.IsPeriodicPt L.step (2 ^ w - 1) 1#w := by
  have h := Function.isPeriodicPt_minimalPeriod (lfsrStep L.feedback) 1#w
  rw [L.period] at h
  exact h

theorem power_mod (i : Nat) : L.power (i % (2 ^ w - 1)) = L.power i :=
  L.isPeriodicPt.iterate_mod_apply i

theorem power_ne_zero (i : Nat) : L.power i ≠ 0#w := by
  intro h
  have hfar : L.power (i + ((2 ^ w - 1) * i - i)) = 0#w := by
    rw [← L.iterate_power, h]
    exact iterate_lfsrStep_zero L.feedback _
  have h2 := L.two_le_pow
  have hle : i ≤ (2 ^ w - 1) * i := Nat.le_mul_of_pos_left i (by omega)
  rw [Nat.add_sub_cancel' hle, ← L.power_mod, Nat.mul_mod_right] at hfar
  exact L.one_ne_zero hfar

theorem power_inj {i j : Nat} (hi : i < 2 ^ w - 1) (hj : j < 2 ^ w - 1)
    (h : L.power i = L.power j) : i = j := by
  have hinj := Function.iterate_injOn_Iio_minimalPeriod (f := lfsrStep L.feedback) (x := 1#w)
  rw [L.period] at hinj
  exact hinj hi hj h

/-- Every nonzero state is a power of the generator. -/
theorem exists_power (a : BitVec w) (ha : a ≠ 0#w) : ∃ i, i < 2 ^ w - 1 ∧ L.power i = a := by
  let S : Finset Nat := (Finset.range (2 ^ w - 1)).image fun i => (L.power i).toNat
  have hcard : S.card = 2 ^ w - 1 := by
    rw [Finset.card_image_of_injOn, Finset.card_range]
    intro i hi j hj hij
    exact L.power_inj (by simpa using hi) (by simpa using hj) (BitVec.eq_of_toNat_eq hij)
  have hzero (b : BitVec w) (hb : b.toNat = 0) : b = 0#w := by
    apply BitVec.eq_of_toNat_eq
    rw [hb, BitVec.toNat_ofNat, Nat.zero_mod]
  have hsub : S ⊆ (Finset.range (2 ^ w)).erase 0 := by
    intro x hx
    obtain ⟨i, -, rfl⟩ := Finset.mem_image.mp hx
    exact Finset.mem_erase.mpr
      ⟨fun h => L.power_ne_zero i (hzero _ h), Finset.mem_range.mpr (L.power i).isLt⟩
  have heq : S = (Finset.range (2 ^ w)).erase 0 := by
    apply Finset.eq_of_subset_of_card_le hsub
    rw [hcard, Finset.card_erase_of_mem (by simp), Finset.card_range]
  have hmem : a.toNat ∈ S := by
    rw [heq]
    exact Finset.mem_erase.mpr ⟨fun h => ha (hzero _ h), Finset.mem_range.mpr a.isLt⟩
  obtain ⟨i, hi, hia⟩ := Finset.mem_image.mp hmem
  exact ⟨i, by simpa using hi, BitVec.eq_of_toNat_eq hia⟩

end Powers

section Product

theorem mul_power (i : Nat) (b : BitVec w) : L.mul (L.power i) b = L.step^[i] b :=
  lfsrMul_iterate L.feedback i b

theorem mul_power_power (i j : Nat) : L.mul (L.power i) (L.power j) = L.power (i + j) := by
  rw [mul_power, iterate_power, Nat.add_comm]

theorem zero_mul (b : BitVec w) : L.mul 0#w b = 0#w := by
  unfold mul lfsrMul
  apply foldl_inv (fun acc => acc = 0#w)
  · rfl
  · rintro i - acc rfl
    rw [iterate_lfsrStep_zero, BitVec.xor_zero, ite_self]

theorem mul_zero (a : BitVec w) : L.mul a 0#w = 0#w := by
  by_cases ha : a = 0#w
  · rw [ha, zero_mul]
  · obtain ⟨i, -, rfl⟩ := L.exists_power a ha
    rw [mul_power]
    exact iterate_lfsrStep_zero L.feedback i

theorem mul_comm (a b : BitVec w) : L.mul a b = L.mul b a := by
  by_cases ha : a = 0#w
  · rw [ha, zero_mul, mul_zero]
  by_cases hb : b = 0#w
  · rw [hb, zero_mul, mul_zero]
  obtain ⟨i, -, rfl⟩ := L.exists_power a ha
  obtain ⟨j, -, rfl⟩ := L.exists_power b hb
  rw [mul_power_power, mul_power_power, Nat.add_comm]

theorem mul_assoc (a b c : BitVec w) : L.mul (L.mul a b) c = L.mul a (L.mul b c) := by
  by_cases ha : a = 0#w
  · rw [ha, zero_mul, zero_mul, zero_mul]
  by_cases hb : b = 0#w
  · rw [hb, mul_zero, zero_mul, mul_zero]
  obtain ⟨i, -, rfl⟩ := L.exists_power a ha
  obtain ⟨j, -, rfl⟩ := L.exists_power b hb
  rw [mul_power_power, mul_power, mul_power, mul_power, ← Function.iterate_add_apply]

theorem mul_xor (a b c : BitVec w) : L.mul a (b ^^^ c) = L.mul a b ^^^ L.mul a c := by
  by_cases ha : a = 0#w
  · rw [ha, zero_mul, zero_mul, zero_mul, BitVec.xor_zero]
  · obtain ⟨i, -, rfl⟩ := L.exists_power a ha
    rw [mul_power, mul_power, mul_power]
    exact iterate_lfsrStep_xor L.feedback i b c

theorem one_mul (a : BitVec w) : L.mul 1#w a = a := L.mul_power 0 a

theorem exists_inv (a : BitVec w) (ha : a ≠ 0#w) : ∃ b, L.mul a b = 1#w := by
  obtain ⟨i, hi, rfl⟩ := L.exists_power a ha
  refine ⟨L.power (2 ^ w - 1 - i), ?_⟩
  rw [mul_power_power, Nat.add_sub_cancel' hi.le, ← power_mod, Nat.mod_self]
  rfl

open Classical in
/-- The inverse of a nonzero state. -/
noncomputable def inv (a : BitVec w) : BitVec w :=
  if h : a = 0#w then 0#w else (L.exists_inv a h).choose

theorem inv_zero : L.inv 0#w = 0#w := dif_pos rfl

theorem mul_inv {a : BitVec w} (ha : a ≠ 0#w) : L.mul a (L.inv a) = 1#w := by
  unfold inv
  rw [dif_neg ha]
  exact (L.exists_inv a ha).choose_spec

end Product

/-- The field whose elements are the states of the register. -/
def Elem (_ : Lfsr w) : Type := BitVec w

noncomputable instance : Field L.Elem :=
  letI : Add L.Elem := ⟨fun a b => BitVec.xor a b⟩
  letI : Mul L.Elem := ⟨fun a b => L.mul a b⟩
  letI : Neg L.Elem := ⟨fun a => a⟩
  letI : Inv L.Elem := ⟨fun a => L.inv a⟩
  letI : Zero L.Elem := ⟨(0#w : BitVec w)⟩
  letI : One L.Elem := ⟨(1#w : BitVec w)⟩
  Field.ofMinimalAxioms L.Elem
    (fun a b c => BitVec.xor_assoc a b c)
    (fun _ => BitVec.zero_xor)
    (fun _ => BitVec.xor_self)
    (fun a b c => L.mul_assoc a b c)
    (fun a b => L.mul_comm a b)
    (fun a => L.one_mul a)
    (fun _ ha => L.mul_inv ha)
    L.inv_zero
    (fun a b c => L.mul_xor a b c)
    ⟨(0#w : BitVec w), (1#w : BitVec w), fun h => L.one_ne_zero h.symm⟩

/-- A state read as a field element. -/
def elem (a : BitVec w) : L.Elem := a

theorem elem_inj {a b : BitVec w} (h : L.elem a = L.elem b) : a = b := h

@[simp] theorem elem_zero : L.elem 0#w = 0 := rfl

@[simp] theorem elem_one : L.elem 1#w = 1 := rfl

theorem elem_xor (a b : BitVec w) : L.elem (a ^^^ b) = L.elem a + L.elem b := rfl

theorem elem_mul (a b : BitVec w) : L.elem (L.mul a b) = L.elem a * L.elem b := rfl

theorem elem_add_self (a : L.Elem) : a + a = 0 := BitVec.xor_self (x := a)

instance : CharP L.Elem 2 :=
  CharTwo.of_one_ne_zero_of_two_eq_zero L.one_ne_zero (by
    rw [← one_add_one_eq_two]
    exact L.elem_add_self 1)

/-- The generator of the multiplicative group. -/
def gen : L.Elem := L.elem (L.power 1)

theorem elem_power (i : Nat) : L.elem (L.power i) = L.gen ^ i := by
  induction i with
  | zero => rw [pow_zero]; rfl
  | succ i ih => rw [pow_succ, ← ih, gen, ← elem_mul, mul_power_power]

theorem gen_pow_period : L.gen ^ (2 ^ w - 1) = 1 := by
  rw [← elem_power, ← power_mod, Nat.mod_self]
  rfl

theorem gen_ne_zero : L.gen ≠ 0 := by
  have hpos := Nat.one_lt_two_pow L.pos.ne'
  exact (IsUnit.of_pow_eq_one L.gen_pow_period (by omega)).ne_zero

theorem gen_pow_mod (i : Nat) : L.gen ^ (i % (2 ^ w - 1)) = L.gen ^ i := by
  rw [← elem_power, power_mod, elem_power]

end Lfsr

end ErasureCodec
