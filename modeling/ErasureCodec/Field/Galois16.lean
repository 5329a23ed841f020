import ErasureCodec.Math.Lfsr
import ErasureCodec.Field.Galois8
import Mathlib.Algebra.QuadraticAlgebra.Basic
import Mathlib.Data.BitVec
import Mathlib.Data.Nat.Bitwise
import Mathlib.FieldTheory.Finite.Basic

namespace ErasureCodec

namespace Galois16

open Galois8 (byte byte_inj byte_zero byte_one byte_xor byte_mul byte_div)

section Definitions

/-- The extension polynomial over the byte field, highest coefficient first. -/
def extPoly : Fin 3 → BitVec 8 := ![1#8, 2#8, 128#8]

/-- `ax * X + ac`. -/
structure Element where
  ax : BitVec 8
  ac : BitVec 8
  deriving DecidableEq, Repr

namespace Element

def zero : Element := ⟨0#8, 0#8⟩

def constant (n : BitVec 8) : Element := ⟨0#8, n⟩

def add (a b : Element) : Element := ⟨a.ax ^^^ b.ax, a.ac ^^^ b.ac⟩

/-- The remainder of a polynomial of degree two at most. -/
def reduceFrom (x : Fin 3 → BitVec 8) : Element :=
  if x 0 ≠ 0#8 then
    ⟨x 1 ^^^ Galois8.mul (extPoly 1) (x 0), x 2 ^^^ Galois8.mul (extPoly 2) (x 0)⟩
  else ⟨x 1, x 2⟩

def mul (a b : Element) : Element :=
  reduceFrom ![Galois8.mul a.ax b.ax, Galois8.mul a.ac b.ax ^^^ Galois8.mul a.ax b.ac,
    Galois8.mul a.ac b.ac]

/-- The loop of `exp` over the bits below the highest one. -/
def expLoop (self : Element) (n bit : Nat) (power : Element) : Element :=
  if bit = 0 then power
  else
    let power := mul power power
    let power := if n &&& bit ≠ 0 then mul power self else power
    expLoop self n (bit >>> 1) power
termination_by bit
decreasing_by
  rw [Nat.shiftRight_eq_div_pow]
  omega

def order : Nat := 65536

def exp (self : Element) (n : Nat) : Element :=
  if n = 0 then constant 1#8
  else if self = zero then zero
  else
    let n := n % (order - 1)
    if n = 0 then constant 1#8
    else expLoop self n ((1 <<< n.log2) >>> 1) self

/-- The constant coordinate of the conjugate. -/
def conjugateC (a : Element) : BitVec 8 := a.ac ^^^ Galois8.mul (extPoly 1) a.ax

/-- The product of an element and its conjugate. -/
def norm (a : Element) : BitVec 8 :=
  Galois8.mul a.ac a.conjugateC ^^^ Galois8.mul (extPoly 2) (Galois8.mul a.ax a.ax)

def inverse (a : Element) : Element :=
  if a.ax = 0#8 then
    if a.ac = 0#8 then zero else constant (Galois8.div 1#8 a.ac)
  else
    let normInverse := Galois8.div 1#8 a.norm
    ⟨Galois8.mul a.ax normInverse, Galois8.mul a.conjugateC normInverse⟩

def div (a b : Element) : Element := mul a b.inverse

end Element

/-- The tower product by `cx * X + cc` as two rows of byte products. -/
structure Coefficients where
  a : BitVec 8
  b : BitVec 8
  c : BitVec 8
  d : BitVec 8

def towerMulCoefficients (elem : Element) : Coefficients where
  a := elem.ac ^^^ Galois8.mul (extPoly 1) elem.ax
  b := elem.ax
  c := Galois8.mul (extPoly 2) elem.ax
  d := elem.ac

end Definitions

section Tower

/-- Products of bytes by shifting and adding. -/
theorem mul_eq_lfsrMul (a b : BitVec 8) : Galois8.mul a b = lfsrMul 29#8 a b := by
  by_cases ha : a = 0#8
  · subst ha
    have hzero : ∀ b, lfsrMul 29#8 0#8 b = 0#8 := by decide +kernel
    rw [Galois8.zero_mul, hzero]
  · obtain ⟨i, hi, rfl⟩ := Galois8.exists_power a ha
    have hmul := lfsrMul_iterate 29#8 i b
    rw [Galois8.mul_comm, Galois8.mul_eq_iterate _ _ ha, Galois8.log_power hi]
    exact hmul.symm

/-- The extension polynomial has no root. -/
theorem extPoly_root_free (r : BitVec 8) :
    Galois8.mul r r ≠ extPoly 2 ^^^ Galois8.mul (extPoly 1) r := by
  have h : ∀ r : BitVec 8, lfsrMul 29#8 r r ≠ 128#8 ^^^ lfsrMul 29#8 2#8 r := by decide +kernel
  rw [mul_eq_lfsrMul, mul_eq_lfsrMul]
  exact h r

instance towerIrreducible :
    Fact (∀ r : Galois8, r ^ 2 ≠ byte (extPoly 2) + byte (extPoly 1) * r) where
  out r := by
    rw [pow_two]
    exact extPoly_root_free r

/-- The quadratic extension of the byte field by a root of the extension polynomial. -/
abbrev Tower : Type := QuadraticAlgebra Galois8 (byte (extPoly 2)) (byte (extPoly 1))

def toTower (a : Element) : Tower := ⟨byte a.ac, byte a.ax⟩

theorem toTower_inj {a b : Element} (h : toTower a = toTower b) : a = b := by
  cases a with
  | mk ax ac =>
    cases b with
    | mk bx bc =>
      obtain ⟨hac, hax⟩ := QuadraticAlgebra.ext_iff.mp h
      obtain rfl : ac = bc := byte_inj hac
      obtain rfl : ax = bx := byte_inj hax
      rfl

theorem toTower_zero : toTower Element.zero = 0 := rfl

theorem toTower_one : toTower (Element.constant 1#8) = 1 := rfl

theorem toTower_add (a b : Element) : toTower (a.add b) = toTower a + toTower b := rfl

theorem ne_zero_of_toTower {a : Element} (h : a ≠ Element.zero) : toTower a ≠ 0 :=
  fun hzero => h (toTower_inj hzero)

/-- A vanishing leading coefficient reduces to nothing. -/
theorem reduceFrom_eq (x : Fin 3 → BitVec 8) : Element.reduceFrom x =
    ⟨x 1 ^^^ Galois8.mul (extPoly 1) (x 0), x 2 ^^^ Galois8.mul (extPoly 2) (x 0)⟩ := by
  rw [Element.reduceFrom]
  split_ifs with h
  · rfl
  · rw [not_not.mp h, Galois8.mul_zero, Galois8.mul_zero, BitVec.xor_zero, BitVec.xor_zero]

theorem toTower_mul (a b : Element) : toTower (a.mul b) = toTower a * toTower b := by
  rw [Element.mul, reduceFrom_eq]
  apply QuadraticAlgebra.ext
  · change byte (Galois8.mul a.ac b.ac ^^^
      Galois8.mul (extPoly 2) (Galois8.mul a.ax b.ax)) = _
    simp only [QuadraticAlgebra.re_mul, toTower, byte_xor, byte_mul]
    ring
  · change byte ((Galois8.mul a.ac b.ax ^^^ Galois8.mul a.ax b.ac) ^^^
      Galois8.mul (extPoly 1) (Galois8.mul a.ax b.ax)) = _
    simp only [QuadraticAlgebra.im_mul, toTower, byte_xor, byte_mul]
    ring

theorem byte_norm (a : Element) : byte a.norm = (toTower a).norm := by
  rw [QuadraticAlgebra.norm_def, Element.norm, Element.conjugateC]
  simp only [toTower, byte_xor, byte_mul, CharTwo.sub_eq_add]
  ring

/-- The norm vanishes for zero only. -/
theorem norm_ne_zero {a : Element} (h : a ≠ Element.zero) : a.norm ≠ 0#8 := by
  intro hnorm
  have hzero : (toTower a).norm = 0 := by
    rw [← byte_norm, hnorm]
    exact byte_zero
  exact ne_zero_of_toTower h (QuadraticAlgebra.norm_eq_zero_iff_eq_zero.mp hzero)

/-- The inverse is the conjugate divided by the norm. -/
theorem toTower_inverse {a : Element} (h : a ≠ Element.zero) :
    toTower a.inverse = (toTower a)⁻¹ := by
  apply eq_inv_of_mul_eq_one_left
  rw [Element.inverse]
  split_ifs with hx hc
  · cases a with
    | mk ax ac =>
      obtain rfl : ax = 0#8 := hx
      obtain rfl : ac = 0#8 := hc
      exact absurd rfl h
  · have hne : byte a.ac ≠ 0 := fun hzero => hc (byte_inj hzero)
    have hdiv := byte_div 1#8 a.ac hc
    rw [byte_one] at hdiv
    apply QuadraticAlgebra.ext
    · simp only [toTower, Element.constant, QuadraticAlgebra.re_mul, QuadraticAlgebra.re_one,
        hdiv, byte_zero]
      field_simp
      ring
    · simp only [toTower, Element.constant, QuadraticAlgebra.im_mul, QuadraticAlgebra.im_one,
        hx, byte_zero]
      ring
  · have hnorm := norm_ne_zero h
    have hne : byte a.norm ≠ 0 := fun hzero => hnorm (byte_inj hzero)
    have hdiv := byte_div 1#8 a.norm hnorm
    have hval : byte a.norm = byte a.ac * (byte a.ac + byte (extPoly 1) * byte a.ax) +
        byte (extPoly 2) * (byte a.ax * byte a.ax) := by
      rw [Element.norm, Element.conjugateC]
      simp only [byte_xor, byte_mul]
    have htwo : (2 : Galois8) = 0 := CharTwo.two_eq_zero
    rw [byte_one] at hdiv
    apply QuadraticAlgebra.ext
    · simp only [toTower, Element.conjugateC, QuadraticAlgebra.re_mul, QuadraticAlgebra.re_one,
        byte_xor, byte_mul, hdiv]
      field_simp
      rw [hval]
      ring
    · simp only [toTower, Element.conjugateC, QuadraticAlgebra.im_mul, QuadraticAlgebra.im_one,
        byte_xor, byte_mul, hdiv]
      linear_combination (byte a.ax * (1 / byte a.norm) *
        (byte a.ac + byte (extPoly 1) * byte a.ax)) * htwo

end Tower

section Exponent

noncomputable instance : Fintype Galois8 :=
  Fintype.ofEquiv (Fin (2 ^ 8)) BitVec.equivFin.toEquiv.symm

noncomputable instance : Fintype Tower :=
  Fintype.ofEquiv (Galois8 × Galois8)
    (QuadraticAlgebra.equivProd (byte (extPoly 2)) (byte (extPoly 1))).symm

theorem card_tower : Fintype.card Tower = Element.order := by
  have h8 : Fintype.card Galois8 = 256 :=
    (Fintype.ofEquiv_card BitVec.equivFin.toEquiv.symm).trans (Fintype.card_fin (2 ^ 8))
  have h16 : Fintype.card Tower = Fintype.card (Galois8 × Galois8) := Fintype.ofEquiv_card _
  rw [h16, Fintype.card_prod, h8]
  rfl

/-- Only the residue of an exponent matters away from zero. -/
theorem pow_mod_order {a : Tower} (ha : a ≠ 0) (n : Nat) : a ^ (n % (Element.order - 1)) = a ^ n := by
  have hone := FiniteField.pow_card_sub_one_eq_one a ha
  rw [card_tower] at hone
  rw [← Nat.mod_add_div n (Element.order - 1), pow_add, pow_mul, hone, one_pow, mul_one,
    Nat.add_mul_mod_self_left, Nat.mod_mod]

/-- Squaring doubles the exponent read so far, and a set bit adds one to it. -/
theorem toTower_expLoop (self : Element) (n j : Nat) (power : Element)
    (h : toTower power = toTower self ^ (n / 2 ^ j)) :
    toTower (self.expLoop n (2 ^ j / 2) power) = toTower self ^ n := by
  induction j generalizing power with
  | zero =>
    rw [Element.expLoop, if_pos (by decide), h, pow_zero, Nat.div_one]
  | succ j ih =>
    have hbit : 2 ^ (j + 1) / 2 = 2 ^ j := by
      rw [pow_succ, Nat.mul_div_cancel _ (by decide)]
    have hdiv : n / 2 ^ (j + 1) = n / 2 ^ j / 2 := by
      rw [pow_succ, Nat.div_div_eq_div_mul]
    have hmod := Nat.div_add_mod (n / 2 ^ j) 2
    have hset : n &&& 2 ^ j ≠ 0 ↔ n / 2 ^ j % 2 = 1 := by
      rw [Nat.and_two_pow, Nat.testBit_eq_decide_div_mod_eq]
      by_cases hb : n / 2 ^ j % 2 = 1
      · simp [hb]
      · simp [hb]
    rw [hdiv] at h
    rw [hbit, Element.expLoop, if_neg (Nat.two_pow_pos j).ne', Nat.shiftRight_eq_div_pow, pow_one]
    apply ih
    split_ifs with hb
    · rw [toTower_mul, toTower_mul, h, ← pow_add, ← pow_succ]
      congr 1
      have := hset.mp hb
      omega
    · rw [toTower_mul, h, ← pow_add]
      congr 1
      have hzero : n / 2 ^ j % 2 ≠ 1 := fun hone => hb (hset.mpr hone)
      omega

theorem toTower_exp (a : Element) (n : Nat) : toTower (a.exp n) = toTower a ^ n := by
  simp only [Element.exp]
  split_ifs with hn ha hr
  · rw [hn, pow_zero, toTower_one]
  · rw [ha, toTower_zero, zero_pow hn]
  · rw [← pow_mod_order (ne_zero_of_toTower ha), hr, pow_zero, toTower_one]
  · have hlog : n % (Element.order - 1) / 2 ^ (n % (Element.order - 1)).log2 = 1 := by
      apply Nat.div_eq_of_lt_le
      · rw [Nat.one_mul]
        exact Nat.log2_self_le hr
      · have hlt := Nat.lt_log2_self (n := n % (Element.order - 1))
        rw [pow_succ] at hlt
        omega
    rw [← pow_mod_order (ne_zero_of_toTower ha), Nat.one_shiftLeft, Nat.shiftRight_eq_div_pow,
      pow_one]
    apply toTower_expLoop
    rw [hlog, pow_one]

end Exponent

section Laws

namespace Element

theorem add_assoc (a b c : Element) : add (add a b) c = add a (add b c) := by
  apply toTower_inj
  simp only [toTower_add]
  ring

theorem zero_add (a : Element) : add zero a = a := by
  apply toTower_inj
  rw [toTower_add, toTower_zero]
  ring

theorem add_self (a : Element) : add a a = zero := by
  rw [add, BitVec.xor_self, BitVec.xor_self]
  rfl

theorem mul_comm (a b : Element) : mul a b = mul b a := by
  apply toTower_inj
  simp only [toTower_mul]
  ring

theorem mul_assoc (a b c : Element) : mul (mul a b) c = mul a (mul b c) := by
  apply toTower_inj
  simp only [toTower_mul]
  ring

theorem mul_add (a b c : Element) : mul a (add b c) = add (mul a b) (mul a c) := by
  apply toTower_inj
  simp only [toTower_mul, toTower_add]
  ring

theorem one_mul (a : Element) : mul (constant 1#8) a = a := by
  apply toTower_inj
  rw [toTower_mul, toTower_one]
  ring

theorem one_ne_zero : constant 1#8 ≠ zero := by decide

theorem div_mul (a : Element) {b : Element} (hb : b ≠ zero) : mul (div a b) b = a := by
  apply toTower_inj
  rw [toTower_mul, div, toTower_mul, toTower_inverse hb]
  exact inv_mul_cancel_right₀ (ne_zero_of_toTower hb) (toTower a)

theorem exp_succ (a : Element) (n : Nat) : a.exp (n + 1) = mul (a.exp n) a := by
  apply toTower_inj
  rw [toTower_mul, toTower_exp, toTower_exp, pow_succ]

end Element

open Element

/-- The laws of the tower field, with its fast inverse, quotient and powers, and the powers
of the byte field. -/
structure FieldLaws : Prop where
  add_comm : ∀ a b, add a b = add b a
  add_assoc : ∀ a b c, add (add a b) c = add a (add b c)
  zero_add : ∀ a, add zero a = a
  add_self : ∀ a, add a a = zero
  mul_comm : ∀ a b, mul a b = mul b a
  mul_assoc : ∀ a b c, mul (mul a b) c = mul a (mul b c)
  mul_add : ∀ a b c, mul a (add b c) = add (mul a b) (mul a c)
  one_mul : ∀ a, mul (constant 1#8) a = a
  norm_ne_zero : ∀ a : Element, a.ax ≠ 0#8 → a.norm ≠ 0#8
  mul_inverse : ∀ b, b ≠ zero → mul b b.inverse = constant 1#8
  div_mul : ∀ a b, b ≠ zero → mul (div a b) b = a
  exp_eq : ∀ (a : Element) (n : Nat), a.exp n = (mul a)^[n] (constant 1#8)
  exp_zero_zero : zero.exp 0 = constant 1#8
  exp_zero : ∀ n, 0 < n → zero.exp n = zero
  byte_exp_eq : ∀ (a : BitVec 8) (n : Nat), Galois8.exp a n = (Galois8.mul a)^[n] 1#8
  byte_exp_zero_zero : Galois8.exp 0#8 0 = 1#8
  byte_exp_zero : ∀ n, 0 < n → Galois8.exp 0#8 n = 0#8

/-- The tower is a field, its inverse by norm and conjugate is exact, and powers with a
reduced exponent are the repeated products, over the tower and over bytes. -/
theorem tower_field_exact : FieldLaws where
  add_comm a b := toTower_inj (by
    rw [toTower_add, toTower_add]
    ring)
  add_assoc := Element.add_assoc
  zero_add := Element.zero_add
  add_self := Element.add_self
  mul_comm := Element.mul_comm
  mul_assoc := Element.mul_assoc
  mul_add := Element.mul_add
  one_mul := Element.one_mul
  norm_ne_zero a hx := Galois16.norm_ne_zero (fun h => hx (by rw [h]; rfl))
  mul_inverse b hb := toTower_inj (by
    rw [toTower_mul, toTower_inverse hb, toTower_one]
    exact mul_inv_cancel₀ (ne_zero_of_toTower hb))
  div_mul a b hb := Element.div_mul a hb
  exp_eq a n := by
    induction n with
    | zero => rfl
    | succ n ih => rw [Function.iterate_succ_apply', ← ih, exp_succ, Element.mul_comm]
  exp_zero_zero := rfl
  exp_zero n hn := by
    rw [exp, if_neg hn.ne', if_pos rfl]
  byte_exp_eq a n := by
    induction n with
    | zero => rfl
    | succ n ih => rw [Function.iterate_succ_apply', ← ih, Galois8.exp_succ, Galois8.mul_comm]
  byte_exp_zero_zero := rfl
  byte_exp_zero n hn := by
    rw [Galois8.exp, if_neg hn.ne', if_pos rfl]

end Laws

end Galois16

end ErasureCodec
