import ErasureCodec.Math.Blocks
import Mathlib.Algebra.BigOperators.Intervals
import Mathlib.Data.Nat.Bitwise
import Mathlib.Data.Nat.Digits.Defs
import Mathlib.Tactic

namespace ErasureCodec

namespace Walsh

variable {R : Type*} [CommRing R]

/-- One layer of the Walsh-Hadamard transform: sums and differences at distance `2 ^ b`. -/
def layer (b : Nat) (f : Nat → R) (j : Nat) : R :=
  if j / 2 ^ b % 2 = 0 then f j + f (j + 2 ^ b) else f (j - 2 ^ b) - f j

/-- The layers of distance one up to `2 ^ (k - 1)`. -/
def transform : Nat → (Nat → R) → Nat → R
  | 0, f => f
  | k + 1, f => layer k (transform k f)

/-- The convolution over exclusive or on the first `2 ^ k` positions. -/
def xorConv (k : Nat) (f g : Nat → R) (i : Nat) : R :=
  ∑ e ∈ Finset.range (2 ^ k), f e * g (i ^^^ e)

/-- The number of ones of the binary expansion. -/
def popcount (n : Nat) : Nat := (Nat.digits 2 n).sum

theorem transform_congr (k : Nat) {f g : Nat → R} (h : ∀ i, i < 2 ^ k → f i = g i) {i : Nat}
    (hi : i < 2 ^ k) : transform k f i = transform k g i := by
  have key (b : Nat) (hb : b ≤ k) : ∀ i, i < 2 ^ k → transform b f i = transform b g i := by
    induction b with
    | zero => exact h
    | succ b ih =>
      intro i hi
      have hpos := Nat.two_pow_pos b
      have hlow (h0 : i / 2 ^ b % 2 = 0) : i + 2 ^ b < 2 ^ k := by
        have hsplit : 2 ^ k = 2 * 2 ^ (k - b - 1) * 2 ^ b := by
          rw [Nat.mul_comm 2, ← Nat.pow_succ, ← Nat.pow_add]
          congr 1
          omega
        have hdiv : i / 2 ^ b < 2 * 2 ^ (k - b - 1) := by
          rw [Nat.div_lt_iff_lt_mul hpos, ← hsplit]
          exact hi
        have hnext : (i + 2 ^ b) / 2 ^ b < 2 * 2 ^ (k - b - 1) := by
          rw [Nat.add_div_right i hpos]
          omega
        rw [hsplit]
        exact (Nat.div_lt_iff_lt_mul hpos).mp hnext
      change layer b (transform b f) i = layer b (transform b g) i
      unfold layer
      split_ifs with h0
      · rw [ih (by omega) i hi, ih (by omega) _ (hlow h0)]
      · rw [ih (by omega) i hi, ih (by omega) _ (by omega)]
  exact key k le_rfl i hi

/-- Layers below a power of two act on the blocks above it separately. -/
theorem transform_shift (k : Nat) (f : Nat → R) (m i : Nat) :
    transform k f (i + m * 2 ^ k) = transform k (fun j => f (j + m * 2 ^ k)) i := by
  have key (b : Nat) (hb : b ≤ k) : ∀ i, transform b f (i + m * 2 ^ k) =
      transform b (fun j => f (j + m * 2 ^ k)) i := by
    induction b with
    | zero => intro i; rfl
    | succ b ih =>
      intro i
      have hpos := Nat.two_pow_pos b
      have hsplit : m * 2 ^ k = m * 2 ^ (k - b - 1) * 2 * 2 ^ b := by
        rw [Nat.mul_assoc, Nat.mul_assoc, ← Nat.pow_succ', ← Nat.pow_add]
        congr 2
        omega
      have hbit : (i + m * 2 ^ k) / 2 ^ b % 2 = i / 2 ^ b % 2 := by
        rw [hsplit, Nat.add_mul_div_right _ _ hpos, Nat.add_mul_mod_self_right]
      change layer b (transform b f) _ = layer b (transform b _) i
      unfold layer
      rw [hbit]
      split_ifs with h0
      · rw [ih (by omega), Nat.add_right_comm, ih (by omega)]
      · have hle : 2 ^ b ≤ i := by
          by_contra hlt
          rw [Nat.div_eq_of_lt (by omega)] at h0
          exact h0 rfl
        rw [ih (by omega), show i + m * 2 ^ k - 2 ^ b = i - 2 ^ b + m * 2 ^ k by omega,
          ih (by omega)]
  exact key k le_rfl i

/-- The last layer combines the transforms of the two halves. -/
theorem transform_halves (k : Nat) (f : Nat → R) {i : Nat} (hi : i < 2 ^ k) :
    transform (k + 1) f i = transform k f i + transform k (fun j => f (j + 2 ^ k)) i ∧
      transform (k + 1) f (i + 2 ^ k) =
        transform k f i - transform k (fun j => f (j + 2 ^ k)) i := by
  have hpos := Nat.two_pow_pos k
  have hshift := transform_shift k f 1 i
  rw [Nat.one_mul] at hshift
  constructor
  · change layer k (transform k f) i = _
    unfold layer
    rw [Nat.div_eq_of_lt hi, if_pos rfl, hshift]
  · change layer k (transform k f) (i + 2 ^ k) = _
    unfold layer
    rw [Nat.add_div_right i hpos, Nat.div_eq_of_lt hi, if_neg (by decide), Nat.add_sub_cancel,
      hshift]

theorem transform_add (k : Nat) (f g : Nat → R) (i : Nat) :
    transform k (fun j => f j + g j) i = transform k f i + transform k g i := by
  induction k generalizing i with
  | zero => rfl
  | succ k ih =>
    change layer k (transform k _) i = layer k (transform k f) i + layer k (transform k g) i
    unfold layer
    split_ifs with h0
    · rw [ih, ih]
      ring
    · rw [ih, ih]
      ring

theorem transform_sub (k : Nat) (f g : Nat → R) (i : Nat) :
    transform k (fun j => f j - g j) i = transform k f i - transform k g i := by
  have h := transform_add k (fun j => f j - g j) g i
  simp only [sub_add_cancel] at h
  rw [h, add_sub_cancel_right]

/-- A block without entries has an empty transform. -/
theorem transform_eq_zero (k m : Nat) {f : Nat → R} (h : ∀ i, i < 2 ^ k → f (i + m * 2 ^ k) = 0)
    {i : Nat} (hi : i < 2 ^ k) : transform k f (i + m * 2 ^ k) = 0 := by
  have hzero : transform k (fun j => f (j + m * 2 ^ k)) i =
      transform k (fun j => f (j + m * 2 ^ k) - f (j + m * 2 ^ k)) i :=
    transform_congr k (fun j hj => by rw [h j hj, sub_zero]) hi
  rw [transform_shift, hzero, transform_sub, sub_self]

theorem xorConv_halves (k : Nat) (f g : Nat → R) {i : Nat} (hi : i < 2 ^ k) :
    xorConv (k + 1) f g i =
        xorConv k f g i + xorConv k (fun j => f (j + 2 ^ k)) (fun j => g (j + 2 ^ k)) i ∧
      xorConv (k + 1) f g (i + 2 ^ k) =
        xorConv k f (fun j => g (j + 2 ^ k)) i + xorConv k (fun j => f (j + 2 ^ k)) g i := by
  have hpow : 2 ^ (k + 1) = 2 ^ k + 2 ^ k := by rw [Nat.pow_succ]; omega
  unfold xorConv
  rw [hpow, Finset.sum_range_add]
  constructor
  · congr 1
    apply Finset.sum_congr rfl
    intro e he
    have hx := (xor_add_two_pow hi (Finset.mem_range.mp he)).1
    rw [Nat.add_comm (2 ^ k) e, hx]
  · rw [Finset.sum_range_add]
    congr 1
    · apply Finset.sum_congr rfl
      intro e he
      rw [(xor_add_two_pow hi (Finset.mem_range.mp he)).2.1]
    · apply Finset.sum_congr rfl
      intro e he
      have hx := (xor_add_two_pow hi (Finset.mem_range.mp he)).2.2
      rw [Nat.add_comm (2 ^ k) e, hx]

/-- The transform of a product of transforms is the convolution, up to the
length of the transform. -/
theorem transform_mul (k : Nat) (f g : Nat → R) {i : Nat} (hi : i < 2 ^ k) :
    transform k (fun j => transform k f j * transform k g j) i = 2 ^ k * xorConv k f g i := by
  induction k generalizing f g i with
  | zero =>
    obtain rfl : i = 0 := by simpa using hi
    simp [transform, xorConv]
  | succ k ih =>
    have hpow : 2 ^ (k + 1) = 2 ^ k + 2 ^ k := by rw [Nat.pow_succ]; omega
    have hlow : ∀ j, j < 2 ^ k → transform (k + 1) f j * transform (k + 1) g j =
        transform k f j * transform k g j +
          transform k (fun j => f (j + 2 ^ k)) j * transform k (fun j => g (j + 2 ^ k)) j +
        (transform k f j * transform k (fun j => g (j + 2 ^ k)) j +
          transform k (fun j => f (j + 2 ^ k)) j * transform k g j) := by
      intro j hj
      rw [(transform_halves k f hj).1, (transform_halves k g hj).1]
      ring
    have hhigh : ∀ j, j < 2 ^ k → transform (k + 1) f (j + 2 ^ k) * transform (k + 1) g (j + 2 ^ k) =
        transform k f j * transform k g j +
          transform k (fun j => f (j + 2 ^ k)) j * transform k (fun j => g (j + 2 ^ k)) j -
        (transform k f j * transform k (fun j => g (j + 2 ^ k)) j +
          transform k (fun j => f (j + 2 ^ k)) j * transform k g j) := by
      intro j hj
      rw [(transform_halves k f hj).2, (transform_halves k g hj).2]
      ring
    have hsum (j : Nat) (hj : j < 2 ^ k) :
        transform k (fun j => transform (k + 1) f j * transform (k + 1) g j) j =
          2 ^ k * (xorConv k f g j +
              xorConv k (fun j => f (j + 2 ^ k)) (fun j => g (j + 2 ^ k)) j) +
            2 ^ k * (xorConv k f (fun j => g (j + 2 ^ k)) j +
              xorConv k (fun j => f (j + 2 ^ k)) g j) := by
      rw [transform_congr k hlow hj, transform_add, transform_add, transform_add, ih f g hj, ih _ _ hj,
        ih f _ hj, ih _ g hj]
      ring
    have hdiff (j : Nat) (hj : j < 2 ^ k) :
        transform k (fun j => transform (k + 1) f (j + 2 ^ k) * transform (k + 1) g (j + 2 ^ k)) j =
          2 ^ k * (xorConv k f g j +
              xorConv k (fun j => f (j + 2 ^ k)) (fun j => g (j + 2 ^ k)) j) -
            2 ^ k * (xorConv k f (fun j => g (j + 2 ^ k)) j +
              xorConv k (fun j => f (j + 2 ^ k)) g j) := by
      rw [transform_congr k hhigh hj, transform_sub, transform_add, transform_add, ih f g hj,
        ih _ _ hj, ih f _ hj, ih _ g hj]
      ring
    rcases Nat.lt_or_ge i (2 ^ k) with h | h
    · rw [(transform_halves k _ h).1, hsum i h, hdiff i h, (xorConv_halves k f g h).1]
      ring
    · obtain ⟨j, rfl⟩ : ∃ j, i = j + 2 ^ k := ⟨i - 2 ^ k, by omega⟩
      have hj : j < 2 ^ k := by omega
      rw [(transform_halves k _ hj).2, hsum j hj, hdiff j hj, (xorConv_halves k f g hj).2]
      ring

theorem popcount_add_two_pow {k n : Nat} (hn : n < 2 ^ k) :
    popcount (n + 2 ^ k) = popcount n + 1 := by
  have hlen : (Nat.digits 2 n).length ≤ k := (Nat.digits_length_le_iff (by decide) n).mpr hn
  have happend := Nat.digits_append_zeroes_append_digits (b := 2) (k := k - (Nat.digits 2 n).length)
    (m := 1) (n := n) (by decide) (by decide)
  rw [Nat.add_sub_cancel' hlen, Nat.mul_one] at happend
  unfold popcount
  rw [← happend]
  simp

/-- The transform as a signed sum. -/
theorem transform_eq_sum (k : Nat) (f : Nat → R) {i : Nat} (hi : i < 2 ^ k) :
    transform k f i = ∑ j ∈ Finset.range (2 ^ k), (-1) ^ popcount (i &&& j) * f j := by
  induction k generalizing f i with
  | zero =>
    obtain rfl : i = 0 := by simpa using hi
    simp [transform, popcount]
  | succ k ih =>
    have hpow : 2 ^ (k + 1) = 2 ^ k + 2 ^ k := by rw [Nat.pow_succ]; omega
    rw [hpow, Finset.sum_range_add]
    rcases Nat.lt_or_ge i (2 ^ k) with h | h
    · rw [(transform_halves k f h).1, ih f h, ih _ h]
      congr 1
      apply Finset.sum_congr rfl
      intro j hj
      rw [Nat.add_comm (2 ^ k) j, (and_add_two_pow h (Finset.mem_range.mp hj)).1]
    · obtain ⟨t, rfl⟩ : ∃ t, i = t + 2 ^ k := ⟨i - 2 ^ k, by omega⟩
      have ht : t < 2 ^ k := by omega
      rw [(transform_halves k f ht).2, ih f ht, ih _ ht, sub_eq_add_neg, ← Finset.sum_neg_distrib]
      congr 1
      · apply Finset.sum_congr rfl
        intro j hj
        rw [(and_add_two_pow ht (Finset.mem_range.mp hj)).2.1]
      · apply Finset.sum_congr rfl
        intro j hj
        have hj' := Finset.mem_range.mp hj
        rw [Nat.add_comm (2 ^ k) j, (and_add_two_pow ht hj').2.2,
          popcount_add_two_pow (Nat.and_lt_two_pow t hj'), pow_succ]
        ring

/-- The transform is its own inverse up to its length. -/
theorem transform_transform (k : Nat) (f : Nat → R) {i : Nat} (hi : i < 2 ^ k) :
    transform k (transform k f) i = 2 ^ k * f i := by
  induction k generalizing f i with
  | zero => simp [transform]
  | succ k ih =>
    have hpow : 2 ^ (k + 1) = 2 ^ k + 2 ^ k := by rw [Nat.pow_succ]; omega
    have hlow (j : Nat) (hj : j < 2 ^ k) : transform k (transform (k + 1) f) j =
        2 ^ k * f j + 2 ^ k * f (j + 2 ^ k) := by
      rw [transform_congr k (fun t ht => (transform_halves k f ht).1) hj, transform_add, ih f hj,
        ih _ hj]
    have hhigh (j : Nat) (hj : j < 2 ^ k) :
        transform k (fun t => transform (k + 1) f (t + 2 ^ k)) j =
          2 ^ k * f j - 2 ^ k * f (j + 2 ^ k) := by
      rw [transform_congr k (fun t ht => (transform_halves k f ht).2) hj, transform_sub, ih f hj,
        ih _ hj]
    rcases Nat.lt_or_ge i (2 ^ k) with h | h
    · rw [(transform_halves k _ h).1, hlow i h, hhigh i h]
      ring
    · obtain ⟨t, rfl⟩ : ∃ t, i = t + 2 ^ k := ⟨i - 2 ^ k, by omega⟩
      have ht : t < 2 ^ k := by omega
      rw [(transform_halves k _ ht).2, hlow t ht, hhigh t ht]
      ring

end Walsh

end ErasureCodec
