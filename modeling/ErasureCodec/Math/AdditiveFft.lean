import ErasureCodec.Math.Blocks
import Mathlib.Algebra.CharP.Two
import Mathlib.Algebra.Polynomial.Derivative
import Mathlib.LinearAlgebra.Lagrange
import Mathlib.Tactic

namespace ErasureCodec

open Polynomial

variable {K : Type*} [Field K]

/-- Evaluation points over a Cantor basis: the index holds the coordinates, the
basis starts at one and `b ^ 2 + b` steps down through it. -/
structure CantorPoints (K : Type*) [Field K] (w : Nat) where
  point : Nat → K
  pos : 0 < w
  point_one : point 1 = 1
  point_xor : ∀ i j, i < 2 ^ w → j < 2 ^ w → point (i ^^^ j) = point i + point j
  point_sq : ∀ i, i < 2 ^ w → point i ^ 2 + point i = point (i / 2)

namespace CantorPoints

variable {w : Nat} (P : CantorPoints K w)

section Points

theorem point_zero : P.point 0 = 0 := by
  have h := P.point_xor 0 0 (Nat.two_pow_pos w) (Nat.two_pow_pos w)
  rw [Nat.xor_self] at h
  exact left_eq_add.mp h

theorem eq_zero_of_point {i : Nat} (hi : i < 2 ^ w) (h : P.point i = 0) : i = 0 := by
  induction i using Nat.strong_induction_on with
  | _ i ih =>
    by_contra hne
    have hsq := P.point_sq i hi
    rw [h, zero_pow two_ne_zero, zero_add] at hsq
    have hhalf := ih (i / 2) (by omega) (by omega) hsq.symm
    obtain rfl : i = 1 := by omega
    rw [P.point_one] at h
    exact one_ne_zero h

theorem point_inj [CharP K 2] {i j : Nat} (hi : i < 2 ^ w) (hj : j < 2 ^ w)
    (h : P.point i = P.point j) : i = j := by
  have hzero : i ^^^ j = 0 := by
    apply P.eq_zero_of_point (Nat.xor_lt_two_pow hi hj)
    rw [P.point_xor i j hi hj, h, CharTwo.add_self_eq_zero]
  calc
    i = i ^^^ j ^^^ j := by rw [Nat.xor_assoc, Nat.xor_self, Nat.xor_zero]
    _ = j := by rw [hzero, Nat.zero_xor]

theorem point_odd {q : Nat} (hq : 2 * q + 1 < 2 ^ w) :
    P.point (2 * q + 1) = P.point (2 * q) + 1 := by
  have hxor : 2 * q + 1 = (2 * q) ^^^ 1 := by
    have hdiv : (2 * q ^^^ 1) / 2 = q := by rw [Nat.xor_div_two]; simp
    have hmod : (2 * q ^^^ 1) % 2 = 1 := by rw [Nat.xor_mod_two_eq_one]; omega
    omega
  rw [hxor, P.point_xor _ _ (by omega) (by omega), P.point_one]

end Points

section Polynomials

/-- The polynomial that vanishes on the first `2 ^ b` points. -/
noncomputable def vanish : Nat → K[X]
  | 0 => X
  | b + 1 => vanish b ^ 2 + vanish b

theorem eval_vanish (b : Nat) {j : Nat} (hj : j < 2 ^ w) :
    eval (P.point j) (vanish b : K[X]) = P.point (j / 2 ^ b) := by
  induction b with
  | zero => simp [vanish]
  | succ b ih =>
    have hlt : j / 2 ^ b < 2 ^ w := lt_of_le_of_lt (Nat.div_le_self _ _) hj
    simp only [vanish, eval_add, eval_pow]
    rw [ih, P.point_sq _ hlt, Nat.div_div_eq_div_mul, Nat.pow_succ]

theorem vanish_spec (b : Nat) : (vanish b : K[X]).Monic ∧ (vanish b : K[X]).natDegree = 2 ^ b := by
  induction b with
  | zero => exact ⟨monic_X, natDegree_X⟩
  | succ b ih =>
    obtain ⟨hmonic, hdeg⟩ := ih
    have hpos := Nat.two_pow_pos b
    have hsq : ((vanish b : K[X]) ^ 2).natDegree = 2 ^ (b + 1) := by
      rw [hmonic.natDegree_pow, hdeg, Nat.pow_succ, Nat.mul_comm]
    have hlt : (vanish b : K[X]).degree < ((vanish b : K[X]) ^ 2).degree := by
      apply degree_lt_degree
      rw [hsq, hdeg, Nat.pow_succ]
      omega
    refine ⟨(hmonic.pow 2).add_of_left hlt, ?_⟩
    simp only [vanish]
    rw [natDegree_add_eq_left_of_degree_lt hlt, hsq]

theorem derivative_vanish [CharP K 2] (b : Nat) : derivative (vanish b : K[X]) = 1 := by
  induction b with
  | zero => exact derivative_X
  | succ b ih =>
    have htwo : C (2 : K) = 0 := by rw [CharTwo.two_eq_zero, C_0]
    simp only [vanish]
    rw [derivative_add, derivative_pow, ih]
    simp [htwo]

/-- The polynomial with the coefficients `c` in the basis of products of the
vanishing polynomials. -/
noncomputable def poly : Nat → (Nat → K) → K[X]
  | 0, c => C (c 0)
  | k + 1, c => poly k c + poly k (fun i => c (i + 2 ^ k)) * vanish k

theorem poly_congr (k : Nat) {c d : Nat → K} (h : ∀ i, i < 2 ^ k → c i = d i) :
    poly k c = poly k d := by
  induction k generalizing c d with
  | zero => simp only [poly]; rw [h 0 (by simp)]
  | succ k ih =>
    have hpow : 2 ^ (k + 1) = 2 ^ k + 2 ^ k := by rw [Nat.pow_succ]; omega
    simp only [poly]
    rw [ih (c := c) (d := d) (fun i hi => h i (by omega)),
      ih (c := fun i => c (i + 2 ^ k)) (d := fun i => d (i + 2 ^ k))
        (fun i hi => h (i + 2 ^ k) (by omega))]

theorem poly_add (k : Nat) (c d : Nat → K) :
    poly k (fun i => c i + d i) = poly k c + poly k d := by
  induction k generalizing c d with
  | zero => simp only [poly, C_add]
  | succ k ih =>
    simp only [poly]
    rw [ih, ih]
    ring

theorem poly_smul (k : Nat) (s : K) (c : Nat → K) :
    poly k (fun i => s * c i) = C s * poly k c := by
  induction k generalizing c with
  | zero => simp only [poly, C_mul]
  | succ k ih =>
    simp only [poly]
    rw [ih, ih]
    ring

theorem degree_poly_lt (k : Nat) (c : Nat → K) : (poly k c).degree < (2 ^ k : Nat) := by
  induction k generalizing c with
  | zero =>
    simp only [poly]
    exact lt_of_le_of_lt degree_C_le (by simp)
  | succ k ih =>
    have hpow : 2 ^ (k + 1) = 2 ^ k + 2 ^ k := by rw [Nat.pow_succ]; omega
    obtain ⟨hmonic, hdeg⟩ := vanish_spec (K := K) k
    simp only [poly]
    refine lt_of_le_of_lt (degree_add_le _ _) (max_lt ?_ ?_)
    · exact lt_trans (ih c) (by exact_mod_cast (by have := Nat.two_pow_pos k; omega))
    · rw [hmonic.degree_mul, degree_eq_natDegree hmonic.ne_zero, hdeg, hpow, Nat.cast_add]
      exact WithBot.add_lt_add_right (WithBot.natCast_ne_bot _) (ih _)

/-- Zero coefficients at the top lower the degree. -/
theorem degree_poly_lt_of_top (k a : Nat) (ha : a ≤ k) (c : Nat → K)
    (h : ∀ i, 2 ^ k - 2 ^ a ≤ i → i < 2 ^ k → c i = 0) :
    (poly k c).degree < (2 ^ k - 2 ^ a : Nat) := by
  induction k generalizing c with
  | zero =>
    obtain rfl : a = 0 := by omega
    simp only [poly]
    rw [h 0 (by simp) (by simp), C_0, degree_zero]
    exact WithBot.bot_lt_coe _
  | succ k ih =>
    have hpow : 2 ^ (k + 1) = 2 ^ k + 2 ^ k := by rw [Nat.pow_succ]; omega
    rcases Nat.lt_or_ge k a with hlt | hge
    · obtain rfl : a = k + 1 := by omega
      have hzero : poly (k + 1) c = poly (k + 1) (fun i => 0 * c i) :=
        poly_congr (k + 1) (fun i hi => by rw [h i (by omega) hi, zero_mul])
      rw [hzero, poly_smul, C_0, zero_mul, degree_zero]
      exact WithBot.bot_lt_coe _
    · have hak := Nat.pow_le_pow_right (n := 2) (by decide) hge
      have hpos := Nat.two_pow_pos a
      obtain ⟨hmonic, hdeg⟩ := vanish_spec (K := K) k
      simp only [poly]
      refine lt_of_le_of_lt (degree_add_le _ _) (max_lt ?_ ?_)
      · exact lt_of_lt_of_le (degree_poly_lt k c) (by exact_mod_cast (by omega))
      · rw [hmonic.degree_mul, degree_eq_natDegree hmonic.ne_zero, hdeg,
          show 2 ^ (k + 1) - 2 ^ a = 2 ^ k - 2 ^ a + 2 ^ k by omega, Nat.cast_add]
        exact WithBot.add_lt_add_right (WithBot.natCast_ne_bot _)
          (ih hge _ (fun i h1 h2 => h (i + 2 ^ k) (by omega) (by omega)))

/-- The coefficients of a polynomial plus its derivative: position `i` collects
the positions with one more bit. -/
def derived (k : Nat) (c : Nat → K) (i : Nat) : K :=
  c i + ∑ b ∈ (Finset.range k).filter (fun b => i / 2 ^ b % 2 = 0), c (i + 2 ^ b)

theorem derived_low (k : Nat) (c : Nat → K) {i : Nat} (hi : i < 2 ^ k) :
    derived (k + 1) c i = derived k c i + c (i + 2 ^ k) := by
  unfold derived
  have hbit : i / 2 ^ k % 2 = 0 := by rw [Nat.div_eq_of_lt hi]
  rw [Finset.range_add_one, Finset.filter_insert, if_pos hbit,
    Finset.sum_insert (by simp), add_assoc, add_comm (c (i + 2 ^ k))]

theorem derived_high (k : Nat) (c : Nat → K) {i : Nat} (hi : i < 2 ^ k) :
    derived (k + 1) c (i + 2 ^ k) = derived k (fun i => c (i + 2 ^ k)) i := by
  unfold derived
  have hbit : ¬(i + 2 ^ k) / 2 ^ k % 2 = 0 := by
    rw [Nat.add_div_right i (Nat.two_pow_pos k), Nat.div_eq_of_lt hi]
    decide
  rw [Finset.range_add_one, Finset.filter_insert, if_neg hbit]
  congr 1
  apply Finset.sum_congr
  · apply Finset.filter_congr
    intro b hb
    have hbk : b < k := Finset.mem_range.mp hb
    have hsplit : 2 ^ k = 2 ^ (k - b - 1) * 2 * 2 ^ b := by
      rw [← Nat.pow_succ, ← Nat.pow_add]
      congr 1
      omega
    rw [hsplit, Nat.add_mul_div_right _ _ (Nat.two_pow_pos b), Nat.add_mul_mod_self_right]
  · intro b _
    rw [Nat.add_right_comm]

theorem poly_derived [CharP K 2] (k : Nat) (c : Nat → K) :
    poly k (derived k c) = poly k c + derivative (poly k c) := by
  induction k generalizing c with
  | zero => simp [poly, derived]
  | succ k ih =>
    have hlow : poly k (derived (k + 1) c) =
        poly k (derived k c) + poly k (fun i => c (i + 2 ^ k)) := by
      rw [← poly_add]
      exact poly_congr k (fun i hi => derived_low k c hi)
    have hhigh : poly k (fun i => derived (k + 1) c (i + 2 ^ k)) =
        poly k (derived k fun i => c (i + 2 ^ k)) :=
      poly_congr k (fun i hi => derived_high k c hi)
    simp only [poly]
    rw [hlow, hhigh, ih, ih, derivative_add, derivative_mul, derivative_vanish]
    ring

end Polynomials

section Layers

/-- The multiplier of the butterfly at position `j` on the layer of distance `2 ^ b`. -/
def twist (b j : Nat) : K := P.point (2 * (j / 2 ^ (b + 1)))

/-- One layer of the transform from coefficients to values. -/
def forward (b : Nat) (v : Nat → K) (j : Nat) : K :=
  if j / 2 ^ b % 2 = 0 then v j + P.twist b j * v (j + 2 ^ b)
  else v (j - 2 ^ b) + P.twist b j * v j + v j

/-- One layer of the transform from values to coefficients. -/
def inverse (b : Nat) (v : Nat → K) (j : Nat) : K :=
  if j / 2 ^ b % 2 = 0 then v j + P.twist b j * (v j + v (j + 2 ^ b))
  else v (j - 2 ^ b) + v j

/-- The layers of distance `2 ^ (k - 1)` down to one. -/
def forwardFrom : Nat → (Nat → K) → Nat → K
  | 0, v => v
  | k + 1, v => forwardFrom k (P.forward k v)

/-- The layers of distance one up to `2 ^ (k - 1)`. -/
def inverseTo : Nat → (Nat → K) → Nat → K
  | 0, v => v
  | k + 1, v => P.inverse k (inverseTo k v)

/-- A forward butterfly read on its two positions. -/
theorem forward_pair (k q : Nat) (v : Nat → K) {i : Nat} (hi : i < 2 ^ k) :
    P.forward k v (q * 2 ^ (k + 1) + i) = v (q * 2 ^ (k + 1) + i) +
        P.point (2 * q) * v (q * 2 ^ (k + 1) + 2 ^ k + i) ∧
      P.forward k v (q * 2 ^ (k + 1) + 2 ^ k + i) = v (q * 2 ^ (k + 1) + i) +
        (P.point (2 * q) + 1) * v (q * 2 ^ (k + 1) + 2 ^ k + i) := by
  obtain ⟨h1, h2, h3, h4⟩ := pair_index k q hi
  have hlow : (2 * q) % 2 = 0 := by omega
  have hhigh : ¬(2 * q + 1) % 2 = 0 := by omega
  constructor
  · unfold forward twist
    rw [h1, if_pos hlow, h2, Nat.add_right_comm]
  · unfold forward twist
    rw [h3, if_neg hhigh, h4, show q * 2 ^ (k + 1) + 2 ^ k + i - 2 ^ k = q * 2 ^ (k + 1) + i by omega]
    ring

/-- An inverse butterfly read on its two positions. -/
theorem inverse_pair (k q : Nat) (v : Nat → K) {i : Nat} (hi : i < 2 ^ k) :
    P.inverse k v (q * 2 ^ (k + 1) + i) = v (q * 2 ^ (k + 1) + i) +
        P.point (2 * q) * (v (q * 2 ^ (k + 1) + i) + v (q * 2 ^ (k + 1) + 2 ^ k + i)) ∧
      P.inverse k v (q * 2 ^ (k + 1) + 2 ^ k + i) =
        v (q * 2 ^ (k + 1) + i) + v (q * 2 ^ (k + 1) + 2 ^ k + i) := by
  obtain ⟨h1, h2, h3, h4⟩ := pair_index k q hi
  have hlow : (2 * q) % 2 = 0 := by omega
  have hhigh : ¬(2 * q + 1) % 2 = 0 := by omega
  constructor
  · unfold inverse twist
    rw [h1, if_pos hlow, h2, Nat.add_right_comm]
  · unfold inverse
    rw [h3, if_neg hhigh,
      show q * 2 ^ (k + 1) + 2 ^ k + i - 2 ^ k = q * 2 ^ (k + 1) + i by omega]

/-- The layers of a block read its own values only. -/
theorem inverseTo_congr (k q : Nat) {v v' : Nat → K}
    (h : ∀ i, i < 2 ^ k → v (q * 2 ^ k + i) = v' (q * 2 ^ k + i)) {i : Nat} (hi : i < 2 ^ k) :
    P.inverseTo k v (q * 2 ^ k + i) = P.inverseTo k v' (q * 2 ^ k + i) := by
  induction k generalizing q i with
  | zero => exact h i hi
  | succ k ih =>
    have hpow : 2 ^ (k + 1) = 2 ^ k + 2 ^ k := by rw [Nat.pow_succ]; omega
    have hlow : q * 2 ^ (k + 1) = 2 * q * 2 ^ k := by rw [Nat.pow_succ]; ring
    have hhigh : q * 2 ^ (k + 1) + 2 ^ k = (2 * q + 1) * 2 ^ k := by rw [Nat.pow_succ]; ring
    have hl (t : Nat) (ht : t < 2 ^ k) : P.inverseTo k v (q * 2 ^ (k + 1) + t) =
        P.inverseTo k v' (q * 2 ^ (k + 1) + t) := by
      rw [hlow]
      refine ih (2 * q) (fun j hj => ?_) ht
      rw [← hlow]
      exact h j (by omega)
    have hh (t : Nat) (ht : t < 2 ^ k) : P.inverseTo k v (q * 2 ^ (k + 1) + 2 ^ k + t) =
        P.inverseTo k v' (q * 2 ^ (k + 1) + 2 ^ k + t) := by
      rw [hhigh]
      refine ih (2 * q + 1) (fun j hj => ?_) ht
      rw [← hhigh, Nat.add_assoc]
      exact h (2 ^ k + j) (by omega)
    change P.inverse k (P.inverseTo k v) _ = P.inverse k (P.inverseTo k v') _
    rcases Nat.lt_or_ge i (2 ^ k) with hlt | hge
    · rw [(P.inverse_pair k q _ hlt).1, (P.inverse_pair k q _ hlt).1, hl i hlt, hh i hlt]
    · obtain ⟨t, rfl⟩ : ∃ t, i = 2 ^ k + t := ⟨i - 2 ^ k, by omega⟩
      have ht : t < 2 ^ k := by omega
      rw [← Nat.add_assoc, (P.inverse_pair k q _ ht).2, (P.inverse_pair k q _ ht).2, hl t ht, hh t ht]

theorem inverseTo_zero (k : Nat) : P.inverseTo k (fun _ => 0) = fun _ => 0 := by
  induction k with
  | zero => rfl
  | succ k ih =>
    funext j
    change P.inverse k (P.inverseTo k fun _ => 0) j = 0
    rw [ih]
    unfold inverse
    simp

/-- A block of zeros stays zero. -/
theorem inverseTo_eq_zero (k q : Nat) {v : Nat → K} (h : ∀ i, i < 2 ^ k → v (q * 2 ^ k + i) = 0)
    {i : Nat} (hi : i < 2 ^ k) : P.inverseTo k v (q * 2 ^ k + i) = 0 := by
  have hzero := P.inverseTo_zero k
  exact (P.inverseTo_congr k q h hi).trans (congrFun hzero _)

variable [CharP K 2]

theorem inverse_forward (k : Nat) (v : Nat → K) : P.inverse k (P.forward k v) = v := by
  funext j
  obtain ⟨q, i, hi, rfl | rfl⟩ := exists_pair k j
  · obtain ⟨h1, h2⟩ := P.forward_pair k q v hi
    rw [(P.inverse_pair k q _ hi).1, h1, h2]
    linear_combination (P.point (2 * q) * v (q * 2 ^ (k + 1) + i) +
      (P.point (2 * q) + P.point (2 * q) ^ 2) * v (q * 2 ^ (k + 1) + 2 ^ k + i)) *
      (CharTwo.two_eq_zero (R := K))
  · obtain ⟨h1, h2⟩ := P.forward_pair k q v hi
    rw [(P.inverse_pair k q _ hi).2, h1, h2]
    linear_combination (v (q * 2 ^ (k + 1) + i) +
      P.point (2 * q) * v (q * 2 ^ (k + 1) + 2 ^ k + i)) * (CharTwo.two_eq_zero (R := K))

theorem forward_inverse (k : Nat) (v : Nat → K) : P.forward k (P.inverse k v) = v := by
  funext j
  obtain ⟨q, i, hi, rfl | rfl⟩ := exists_pair k j
  · obtain ⟨h1, h2⟩ := P.inverse_pair k q v hi
    rw [(P.forward_pair k q _ hi).1, h1, h2]
    linear_combination (P.point (2 * q) * (v (q * 2 ^ (k + 1) + i) +
      v (q * 2 ^ (k + 1) + 2 ^ k + i))) * (CharTwo.two_eq_zero (R := K))
  · obtain ⟨h1, h2⟩ := P.inverse_pair k q v hi
    rw [(P.forward_pair k q _ hi).2, h1, h2]
    linear_combination (P.point (2 * q) * (v (q * 2 ^ (k + 1) + i) +
      v (q * 2 ^ (k + 1) + 2 ^ k + i)) + v (q * 2 ^ (k + 1) + i)) * (CharTwo.two_eq_zero (R := K))

theorem forwardFrom_inverseTo (k : Nat) (v : Nat → K) :
    P.forwardFrom k (P.inverseTo k v) = v := by
  induction k generalizing v with
  | zero => rfl
  | succ k ih =>
    change P.forwardFrom k (P.forward k (P.inverse k (P.inverseTo k v))) = v
    rw [P.forward_inverse, ih]

theorem inverseTo_forwardFrom (k : Nat) (v : Nat → K) :
    P.inverseTo k (P.forwardFrom k v) = v := by
  induction k generalizing v with
  | zero => rfl
  | succ k ih =>
    change P.inverse k (P.inverseTo k (P.forwardFrom k (P.forward k v))) = v
    rw [ih, P.inverse_forward]

end Layers

section Transforms

/-- The even and the odd half of a block see the two values of the vanishing polynomial. -/
theorem eval_poly_succ (k q : Nat) (c : Nat → K) {i : Nat} (hi : i < 2 ^ k)
    (hw : (q + 1) * 2 ^ (k + 1) ≤ 2 ^ w) :
    eval (P.point (q * 2 ^ (k + 1) + i)) (poly (k + 1) c) =
        eval (P.point (q * 2 ^ (k + 1) + i))
          (poly k fun i => c i + P.point (2 * q) * c (i + 2 ^ k)) ∧
      eval (P.point (q * 2 ^ (k + 1) + 2 ^ k + i)) (poly (k + 1) c) =
        eval (P.point (q * 2 ^ (k + 1) + 2 ^ k + i))
          (poly k fun i => c i + (P.point (2 * q) + 1) * c (i + 2 ^ k)) := by
  obtain ⟨h1, -, h3, -⟩ := pair_index k q hi
  have hpow : 2 ^ (k + 1) = 2 ^ k + 2 ^ k := by rw [Nat.pow_succ]; omega
  have hblock : q * 2 ^ (k + 1) + 2 ^ (k + 1) ≤ 2 ^ w := by
    rw [Nat.add_mul, Nat.one_mul] at hw
    exact hw
  have hodd : 2 * q + 1 < 2 ^ w := by
    have hle : q * 2 ^ (k + 1) + 2 ^ k ≤ 2 ^ w := by omega
    have h := Nat.le_mul_of_pos_right (2 * q + 1) (Nat.two_pow_pos k)
    have heq : (2 * q + 1) * 2 ^ k = q * 2 ^ (k + 1) + 2 ^ k := by rw [Nat.pow_succ]; ring
    have hpos := Nat.two_pow_pos k
    omega
  constructor
  · rw [poly_add, poly_smul]
    simp only [poly, eval_add, eval_mul, eval_C]
    rw [P.eval_vanish k (by omega), h1]
    ring
  · rw [poly_add, poly_smul]
    simp only [poly, eval_add, eval_mul, eval_C]
    rw [P.eval_vanish k (by omega), h3, P.point_odd hodd]
    ring

/-- The forward layers evaluate the polynomial of each block at its points. -/
theorem forwardFrom_eq (k q : Nat) (c : Nat → K) {i : Nat} (hi : i < 2 ^ k)
    (hw : (q + 1) * 2 ^ k ≤ 2 ^ w) :
    P.forwardFrom k c (q * 2 ^ k + i) =
      eval (P.point (q * 2 ^ k + i)) (poly k fun i => c (q * 2 ^ k + i)) := by
  induction k generalizing q c i with
  | zero =>
    obtain rfl : i = 0 := by simpa using hi
    simp [forwardFrom, poly]
  | succ k ih =>
    have hpow : 2 ^ (k + 1) = 2 ^ k + 2 ^ k := by rw [Nat.pow_succ]; omega
    have hlow : q * 2 ^ (k + 1) = 2 * q * 2 ^ k := by rw [Nat.pow_succ]; ring
    have hhigh : q * 2 ^ (k + 1) + 2 ^ k = (2 * q + 1) * 2 ^ k := by rw [Nat.pow_succ]; ring
    have hw' : (2 * q + 1 + 1) * 2 ^ k ≤ 2 ^ w := by
      rw [Nat.pow_succ] at hw
      calc (2 * q + 1 + 1) * 2 ^ k = (q + 1) * (2 ^ k * 2) := by ring
        _ ≤ 2 ^ w := hw
    change P.forwardFrom k (P.forward k c) _ = _
    rcases Nat.lt_or_ge i (2 ^ k) with h | h
    · rw [(P.eval_poly_succ k q _ h hw).1, hlow,
        ih (2 * q) (P.forward k c) h (le_trans (Nat.mul_le_mul_right _ (by omega)) hw')]
      congr 1
      apply poly_congr
      intro t ht
      have hf := (P.forward_pair k q c ht).1
      rw [hlow] at hf
      rw [hf, Nat.add_right_comm, Nat.add_assoc]
    · obtain ⟨t, rfl⟩ : ∃ t, i = 2 ^ k + t := ⟨i - 2 ^ k, by omega⟩
      have ht : t < 2 ^ k := by omega
      rw [← Nat.add_assoc, (P.eval_poly_succ k q _ ht hw).2, hhigh,
        ih (2 * q + 1) (P.forward k c) ht hw']
      congr 1
      apply poly_congr
      intro t ht
      have hf := (P.forward_pair k q c ht).2
      rw [hhigh] at hf
      rw [hf, ← hhigh, Nat.add_right_comm, ← Nat.add_assoc]

/-- The forward layers of a block read its own values only. -/
theorem forwardFrom_congr (k q : Nat) {c c' : Nat → K} (hw : (q + 1) * 2 ^ k ≤ 2 ^ w)
    (h : ∀ i, i < 2 ^ k → c (q * 2 ^ k + i) = c' (q * 2 ^ k + i)) {i : Nat} (hi : i < 2 ^ k) :
    P.forwardFrom k c (q * 2 ^ k + i) = P.forwardFrom k c' (q * 2 ^ k + i) := by
  rw [P.forwardFrom_eq k q c hi hw, P.forwardFrom_eq k q c' hi hw, poly_congr k h]

variable [CharP K 2]

/-- The inverse layers interpolate: their outcome is the coefficients of a
polynomial with the given values. -/
theorem eval_inverseTo (k q : Nat) (v : Nat → K) {i : Nat} (hi : i < 2 ^ k)
    (hw : (q + 1) * 2 ^ k ≤ 2 ^ w) :
    eval (P.point (q * 2 ^ k + i)) (poly k fun i => P.inverseTo k v (q * 2 ^ k + i)) =
      v (q * 2 ^ k + i) := by
  induction k generalizing q i with
  | zero =>
    obtain rfl : i = 0 := by simpa using hi
    simp [inverseTo, poly]
  | succ k ih =>
    have hlow : q * 2 ^ (k + 1) = 2 * q * 2 ^ k := by rw [Nat.pow_succ]; ring
    have hhigh : q * 2 ^ (k + 1) + 2 ^ k = (2 * q + 1) * 2 ^ k := by rw [Nat.pow_succ]; ring
    have hpow : 2 ^ (k + 1) = 2 ^ k + 2 ^ k := by rw [Nat.pow_succ]; omega
    have hw' : (2 * q + 1 + 1) * 2 ^ k ≤ 2 ^ w := by
      rw [Nat.pow_succ] at hw
      calc (2 * q + 1 + 1) * 2 ^ k = (q + 1) * (2 ^ k * 2) := by ring
        _ ≤ 2 ^ w := hw
    rcases Nat.lt_or_ge i (2 ^ k) with h | h
    · have hih := ih (2 * q) h (le_trans (Nat.mul_le_mul_right _ (by omega)) hw')
      rw [(P.eval_poly_succ k q _ h hw).1, hlow, ← hih]
      congr 1
      apply poly_congr
      intro t ht
      obtain ⟨h1, h2⟩ := P.inverse_pair k q (P.inverseTo k v) ht
      rw [hlow] at h1 h2
      change P.inverse k (P.inverseTo k v) _ + P.point (2 * q) * P.inverse k (P.inverseTo k v) _ = _
      rw [← Nat.add_assoc, Nat.add_right_comm _ t, h1, h2]
      linear_combination (P.point (2 * q) * (P.inverseTo k v (2 * q * 2 ^ k + t) +
        P.inverseTo k v (2 * q * 2 ^ k + 2 ^ k + t))) * (CharTwo.two_eq_zero (R := K))
    · obtain ⟨t, rfl⟩ : ∃ t, i = 2 ^ k + t := ⟨i - 2 ^ k, by omega⟩
      have ht : t < 2 ^ k := by omega
      have hih := ih (2 * q + 1) ht hw'
      rw [← Nat.add_assoc, (P.eval_poly_succ k q _ ht hw).2, hhigh, ← hih]
      congr 1
      apply poly_congr
      intro t ht
      obtain ⟨h1, h2⟩ := P.inverse_pair k q (P.inverseTo k v) ht
      change P.inverse k (P.inverseTo k v) _ +
        (P.point (2 * q) + 1) * P.inverse k (P.inverseTo k v) _ = _
      rw [← Nat.add_assoc, Nat.add_right_comm _ t, h1, h2, ← hhigh]
      linear_combination (P.inverseTo k v (q * 2 ^ (k + 1) + t) +
        P.point (2 * q) * (P.inverseTo k v (q * 2 ^ (k + 1) + t) +
        P.inverseTo k v (q * 2 ^ (k + 1) + 2 ^ k + t))) * (CharTwo.two_eq_zero (R := K))

omit [CharP K 2] in
/-- The top coefficients of a block are the sums of the coefficients of its parts. -/
theorem inverseTo_top (k a q : Nat) (ha : a ≤ k) (v : Nat → K) {i : Nat} (hi : i < 2 ^ a) :
    P.inverseTo k v (q * 2 ^ k + (2 ^ k - 2 ^ a + i)) =
      ∑ g ∈ Finset.range (2 ^ (k - a)), P.inverseTo a v (q * 2 ^ k + g * 2 ^ a + i) := by
  induction k generalizing q with
  | zero =>
    obtain rfl : a = 0 := by omega
    simp
  | succ k ih =>
    rcases Nat.lt_or_ge k a with hlt | hge
    · obtain rfl : a = k + 1 := by omega
      simp
    · have hle := Nat.pow_le_pow_right (n := 2) (by decide) hge
      have hpow : 2 ^ (k + 1) = 2 ^ k + 2 ^ k := by rw [Nat.pow_succ]; omega
      have hlow : q * 2 ^ (k + 1) = 2 * q * 2 ^ k := by rw [Nat.pow_succ]; ring
      have hhigh : q * 2 ^ (k + 1) + 2 ^ k = (2 * q + 1) * 2 ^ k := by rw [Nat.pow_succ]; ring
      have hcount : 2 ^ (k + 1 - a) = 2 ^ (k - a) + 2 ^ (k - a) := by
        rw [show k + 1 - a = k - a + 1 by omega, Nat.pow_succ]
        omega
      have hstep : 2 ^ (k - a) * 2 ^ a = 2 ^ k := by
        rw [← Nat.pow_add, Nat.sub_add_cancel hge]
      have hpair := (P.inverse_pair k q (P.inverseTo k v) (i := 2 ^ k - 2 ^ a + i) (by omega)).2
      change P.inverse k (P.inverseTo k v) _ = _
      rw [show q * 2 ^ (k + 1) + (2 ^ (k + 1) - 2 ^ a + i) =
        q * 2 ^ (k + 1) + 2 ^ k + (2 ^ k - 2 ^ a + i) by omega, hpair, hhigh, hlow, ih (2 * q) hge,
        ih (2 * q + 1) hge, hcount, Finset.sum_range_add, ← hhigh, hlow]
      congr 1
      apply Finset.sum_congr rfl
      intro g _
      rw [Nat.add_mul, hstep, Nat.add_assoc (2 * q * 2 ^ k) (2 ^ k)]

/-- Erasure recovery: where the top `2 ^ a` coefficients of a word vanish, any
`2 ^ a` positions follow from the others through the derivative of the word's
product with the locator polynomial. -/
theorem recover {k a : Nat} (ha : a ≤ k) (hk : k ≤ w) {u v : Nat → K}
    (hv : ∀ i, 2 ^ k - 2 ^ a ≤ i → i < 2 ^ k → P.inverseTo k v i = 0)
    {E : Finset Nat} (hE : ∀ e ∈ E, e < 2 ^ k) (hcard : E.card ≤ 2 ^ a)
    (hu : ∀ j, j < 2 ^ k → u j = (∏ e ∈ E, (P.point j + P.point e)) * v j)
    {e : Nat} (he : e ∈ E) :
    P.forwardFrom k (derived k (P.inverseTo k u)) e =
      (∏ e' ∈ E.erase e, (P.point e + P.point e')) * v e := by
  have hle := Nat.pow_le_pow_right (n := 2) (by decide) hk
  have hak := Nat.pow_le_pow_right (n := 2) (by decide) ha
  have hw : (0 + 1) * 2 ^ k ≤ 2 ^ w := by rwa [Nat.zero_add, Nat.one_mul]
  have hinj : Set.InjOn P.point (Finset.range (2 ^ k)) := by
    intro i hi j hj hij
    have hi' := Finset.mem_range.mp hi
    have hj' := Finset.mem_range.mp hj
    exact P.point_inj (by omega) (by omega) hij
  -- the word, the locator and the polynomial through the scaled word
  let f := poly k (P.inverseTo k v)
  let locator := Lagrange.nodal E P.point
  let g := poly k (P.inverseTo k u)
  have hinterp (x : Nat → K) (j : Nat) (hj : j < 2 ^ k) :
      eval (P.point j) (poly k (P.inverseTo k x)) = x j := by
    have h := P.eval_inverseTo k 0 x hj hw
    simpa using h
  have hloc (j : Nat) : eval (P.point j) locator = ∏ e ∈ E, (P.point j + P.point e) := by
    change eval _ (Lagrange.nodal E P.point) = _
    rw [Lagrange.eval_nodal]
    simp only [CharTwo.sub_eq_add]
  have hprod : g = locator * f := by
    apply eq_of_degrees_lt_of_eval_index_eq (Finset.range (2 ^ k)) hinj
    · rw [Finset.card_range]
      exact degree_poly_lt k _
    · rw [Finset.card_range, degree_mul, Lagrange.degree_nodal]
      have hf := degree_poly_lt_of_top k a ha (P.inverseTo k v) hv
      have hsum : (2 ^ k : Nat) = 2 ^ a + (2 ^ k - 2 ^ a) := by omega
      rw [hsum, Nat.cast_add]
      exact WithBot.add_lt_add_of_le_of_lt (WithBot.natCast_ne_bot _) (by exact_mod_cast hcard) hf
    · intro j hj
      have hj' := Finset.mem_range.mp hj
      change eval _ (poly k _) = _
      rw [hinterp u j hj', hu j hj', eval_mul, hloc]
      change _ = _ * eval _ (poly k _)
      rw [hinterp v j hj']
  have hfwd := P.forwardFrom_eq k 0 (derived k (P.inverseTo k u)) (hE e he) hw
  simp only [Nat.zero_mul, Nat.zero_add] at hfwd
  have hzero : eval (P.point e) locator = 0 := Lagrange.eval_nodal_at_node he
  have hder : eval (P.point e) (derivative locator) =
      ∏ e' ∈ E.erase e, (P.point e + P.point e') := by
    change eval _ (derivative (Lagrange.nodal E P.point)) = _
    rw [Lagrange.eval_nodal_derivative_eval_node_eq he, Lagrange.eval_nodal]
    simp only [CharTwo.sub_eq_add]
  rw [hfwd, poly_derived]
  change eval _ (g + derivative g) = _
  rw [hprod, derivative_mul]
  simp only [eval_add, eval_mul]
  rw [hzero, hder, ← hinterp v e (hE e he)]
  ring

end Transforms

end CantorPoints

end ErasureCodec
