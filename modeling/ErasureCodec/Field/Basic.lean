import Mathlib.Algebra.CharP.Two
import Mathlib.Algebra.Field.MinimalAxioms
import Mathlib.Algebra.BigOperators.Fin
import Mathlib.Tactic

namespace ErasureCodec

/-- One more than the largest `usize`. -/
def usizeLimit : Nat := 2 ^ 64

/-- The `Field` trait over its element type. The two byte-view methods enter
only through whether an implementation overrides them. -/
class CodecField (E : Type) where
  order : Nat
  order_lt : order < usizeLimit
  zero : E
  one : E
  add : E → E → E
  mul : E → E → E
  div : E → E → E
  exp : E → Nat → E
  nthInternal : Nat → E
  asGf8Slice : Bool := false
  asGf8SliceMut : Bool := false
  /-- The product written over `out`; callers pass slices of one length. -/
  mulSlice : E → List E → List E → List E := fun elem input _ => input.map (mul elem)
  /-- The product added to `out`; callers pass slices of one length. -/
  mulSliceAdd : E → List E → List E → List E :=
    fun elem input out => List.zipWith (fun o i => add o (mul elem i)) out input

namespace CodecField

variable {E : Type} [CodecField E]

def nthChecked (n : Nat) : Option E :=
  if n ≥ order E then none else some (nthInternal n)

/-- The nth field element; an index outside the field wraps around. -/
def nth (n : Nat) : E :=
  (nthChecked n).getD (nthInternal (n % max (order E) 1))

theorem nth_of_lt {n : Nat} (h : n < order E) : (nth n : E) = nthInternal n := by
  unfold nth nthChecked
  rw [if_neg (by omega)]
  rfl

end CodecField

open CodecField in
/-- The documented contract of an implementation: the arithmetic of a field of
characteristic two, and `nth` unique below the order. -/
class LawfulField (E : Type) [CodecField E] : Prop where
  add_assoc : ∀ a b c : E, add (add a b) c = add a (add b c)
  zero_add : ∀ a : E, add zero a = a
  add_self : ∀ a : E, add a a = zero
  mul_assoc : ∀ a b c : E, mul (mul a b) c = mul a (mul b c)
  mul_comm : ∀ a b : E, mul a b = mul b a
  one_mul : ∀ a : E, mul one a = a
  mul_add : ∀ a b c : E,
    mul a (add b c) = add (mul a b) (mul a c)
  one_ne_zero : (one : E) ≠ zero
  div_mul : ∀ a b : E, b ≠ zero → mul (div a b) b = a
  exp_zero : ∀ a : E, exp a 0 = one
  exp_succ : ∀ (a : E) (n : Nat), exp a (n + 1) = mul (exp a n) a
  nthInternal_inj : ∀ m n, m < order E → n < order E →
    (nthInternal m : E) = nthInternal n → m = n
  mulSlice_eq : ∀ (e : E) (input out : List E), input.length = out.length →
    mulSlice e input out = input.map (mul e)
  mulSliceAdd_eq : ∀ (e : E) (input out : List E), input.length = out.length →
    mulSliceAdd e input out =
      List.zipWith (fun o i => add o (mul e i)) out input

section Algebra

variable {E : Type} [CodecField E] [LawfulField E]

open Classical in
/-- The field a lawful implementation computes in. -/
noncomputable scoped instance fieldOfLawful : Field E :=
  letI : Add E := ⟨CodecField.add⟩
  letI : Mul E := ⟨CodecField.mul⟩
  letI : Neg E := ⟨id⟩
  letI : Inv E := ⟨fun a =>
    if a = CodecField.zero then CodecField.zero else CodecField.div CodecField.one a⟩
  letI : Zero E := ⟨CodecField.zero⟩
  letI : One E := ⟨CodecField.one⟩
  Field.ofMinimalAxioms E LawfulField.add_assoc LawfulField.zero_add LawfulField.add_self
    LawfulField.mul_assoc LawfulField.mul_comm LawfulField.one_mul
    (fun a ha => by
      change a ≠ CodecField.zero at ha
      change CodecField.mul a (if a = CodecField.zero then CodecField.zero else
        CodecField.div CodecField.one a) = CodecField.one
      rw [if_neg ha, LawfulField.mul_comm]
      exact LawfulField.div_mul _ _ ha)
    (if_pos rfl) LawfulField.mul_add ⟨_, _, LawfulField.one_ne_zero⟩

namespace CodecField

@[simp] theorem zero_eq : (zero : E) = 0 := rfl

@[simp] theorem one_eq : (one : E) = 1 := rfl

@[simp] theorem add_eq (a b : E) : add a b = a + b := rfl

@[simp] theorem mul_eq (a b : E) : mul a b = a * b := rfl

theorem div_eq (a b : E) (hb : b ≠ 0) : div a b = a / b := by
  rw [eq_div_iff hb]
  exact LawfulField.div_mul a b hb

@[simp] theorem exp_eq (a : E) (n : Nat) : exp a n = a ^ n := by
  induction n with
  | zero => rw [pow_zero]; exact LawfulField.exp_zero a
  | succ n ih => rw [pow_succ, ← ih]; exact LawfulField.exp_succ a n

theorem nth_injOn {m n : Nat} (hm : m < order E) (hn : n < order E)
    (h : (nth m : E) = nth n) : m = n := by
  rw [nth_of_lt hm, nth_of_lt hn] at h
  exact LawfulField.nthInternal_inj m n hm hn h

theorem mulSlice_eq_map (e : E) (input out : List E) (h : input.length = out.length) :
    mulSlice e input out = input.map (e * ·) :=
  LawfulField.mulSlice_eq e input out h

theorem mulSliceAdd_eq_zipWith (e : E) (input out : List E) (h : input.length = out.length) :
    mulSliceAdd e input out = List.zipWith (fun o i => o + e * i) out input :=
  LawfulField.mulSliceAdd_eq e input out h

end CodecField

scoped instance charTwoOfLawful : CharP E 2 := by
  apply CharTwo.of_one_ne_zero_of_two_eq_zero one_ne_zero
  rw [← one_add_one_eq_two]
  exact LawfulField.add_self 1

end Algebra

end ErasureCodec
