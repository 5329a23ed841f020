import Mathlib.Tactic

namespace ErasureCodec

variable {m n k : Nat}

/-- A property of zero and of every single bit that survives exclusive or holds of every
vector. -/
theorem xor_induction {P : BitVec m → Prop} (hzero : P 0#m)
    (hbit : ∀ i, i < m → P (BitVec.twoPow m i))
    (hxor : ∀ a b, P a → P b → P (a ^^^ b)) (x : BitVec m) : P x := by
  -- the low bits of `x` are added one at a time
  have hlow (j : Nat) : ∃ y : BitVec m, P y ∧
      ∀ i, i < m → y.getLsbD i = (decide (i < j) && x.getLsbD i) := by
    induction j with
    | zero => exact ⟨0#m, hzero, fun i _ => by simp⟩
    | succ j ih =>
      obtain ⟨y, hy, hbits⟩ := ih
      by_cases hj : j < m ∧ x.getLsbD j = true
      · refine ⟨y ^^^ BitVec.twoPow m j, hxor y _ hy (hbit j hj.1), fun i hi => ?_⟩
        rw [BitVec.getLsbD_xor, hbits i hi, BitVec.getLsbD_twoPow]
        rcases lt_trichotomy i j with h | rfl | h
        · have h1 : ¬j = i := by omega
          have h2 : i < j + 1 := by omega
          simp [h, h1, h2]
        · simp [hj.2, hi]
        · have h1 : ¬j = i := by omega
          have h2 : ¬i < j := by omega
          have h3 : ¬i < j + 1 := by omega
          simp [h1, h2, h3]
      · refine ⟨y, hy, fun i hi => ?_⟩
        rw [hbits i hi]
        by_cases hij : i = j
        · subst hij
          have hx : x.getLsbD i = false := by simpa [hi] using hj
          simp [hx]
        · have : i < j + 1 ↔ i < j := by omega
          simp [this]
  obtain ⟨y, hy, hbits⟩ := hlow m
  have hyx : y = x := by
    apply BitVec.eq_of_getLsbD_eq
    intro i hi
    rw [hbits i hi]
    simp [hi]
  rwa [← hyx]

/-- A map of bit vectors that respects exclusive or. -/
def XorLinear (f : BitVec m → BitVec n) : Prop := ∀ a b, f (a ^^^ b) = f a ^^^ f b

namespace XorLinear

variable {f g : BitVec m → BitVec n}

theorem map_zero (hf : XorLinear f) : f 0#m = 0#n := by
  have h := hf 0#m 0#m
  rwa [BitVec.xor_self, BitVec.xor_self] at h

theorem comp {h : BitVec n → BitVec k} (hh : XorLinear h) (hf : XorLinear f) :
    XorLinear fun x => h (f x) := by
  intro a b
  simp only [hf a b, hh (f a) (f b)]

theorem xor (hf : XorLinear f) (hg : XorLinear g) : XorLinear fun x => f x ^^^ g x := by
  intro a b
  simp only [hf a b, hg a b]
  ac_rfl

/-- Linear maps that agree on every single bit agree. -/
theorem ext (hf : XorLinear f) (hg : XorLinear g)
    (h : ∀ i, i < m → f (BitVec.twoPow m i) = g (BitVec.twoPow m i)) : f = g := by
  funext x
  induction x using xor_induction with
  | hzero => rw [hf.map_zero, hg.map_zero]
  | hbit i hi => exact h i hi
  | hxor a b ha hb => rw [hf, hg, ha, hb]

end XorLinear

section Sums

/-- The exclusive or of a list of vectors. -/
def xorSum (l : List (BitVec m)) : BitVec m := l.foldr (· ^^^ ·) 0#m

@[simp] theorem xorSum_nil : xorSum ([] : List (BitVec m)) = 0#m := rfl

@[simp] theorem xorSum_cons (a : BitVec m) (l : List (BitVec m)) :
    xorSum (a :: l) = a ^^^ xorSum l := rfl

theorem xorSum_append (a b : List (BitVec m)) : xorSum (a ++ b) = xorSum a ^^^ xorSum b := by
  induction a with
  | nil => simp
  | cons x a ih => simp [ih, BitVec.xor_assoc]

end Sums

end ErasureCodec
