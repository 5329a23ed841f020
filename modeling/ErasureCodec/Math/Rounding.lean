import Mathlib.Order.Bounds.Basic
import Mathlib.Tactic

namespace ErasureCodec

/-- The least multiple of `m` from `n` on. -/
def roundUp (n m : Nat) : Nat := (n + m - 1) / m * m

theorem dvd_roundUp (n m : Nat) : m ∣ roundUp n m := Nat.dvd_mul_left _ _

theorem le_roundUp (n : Nat) {m : Nat} (hm : 0 < m) : n ≤ roundUp n m := by
  have hmod := Nat.mod_lt (n + m - 1) hm
  have hdiv := Nat.div_add_mod' (n + m - 1) m
  unfold roundUp
  omega

theorem roundUp_pos {n m : Nat} (hn : 0 < n) (hm : 0 < m) : m ≤ roundUp n m :=
  Nat.le_of_dvd (lt_of_lt_of_le hn (le_roundUp n hm)) (dvd_roundUp n m)

theorem roundUp_lt (n : Nat) {m : Nat} (hm : 0 < m) : roundUp n m < n + m := by
  have hle := Nat.div_mul_le_self (n + m - 1) m
  unfold roundUp
  omega

theorem roundUp_le {n m k : Nat} (hm : 0 < m) (hdvd : m ∣ k) (hk : n ≤ k) : roundUp n m ≤ k := by
  obtain ⟨q, rfl⟩ := hdvd
  have hlt : (n + m - 1) / m < q + 1 := by
    rw [Nat.div_lt_iff_lt_mul hm, Nat.add_mul, Nat.mul_comm q]
    omega
  have hmul := Nat.mul_le_mul_right m (Nat.lt_succ_iff.mp hlt)
  rw [Nat.mul_comm m q]
  exact hmul

/-- Rounding by the distance to the next multiple. -/
theorem roundUp_eq_add (n : Nat) {m : Nat} (hm : 0 < m) :
    roundUp n m = if n % m = 0 then n else n + (m - n % m) := by
  have hmod := Nat.mod_lt n hm
  have hdiv := Nat.div_add_mod n m
  split_ifs with h0
  · apply le_antisymm
    · exact roundUp_le hm (Nat.dvd_of_mod_eq_zero h0) le_rfl
    · exact le_roundUp n hm
  · have hnext : n + (m - n % m) = m * (n / m + 1) := by
      rw [Nat.mul_add, Nat.mul_one]
      omega
    apply le_antisymm
    · apply roundUp_le hm
      · rw [hnext]
        exact Nat.dvd_mul_right m _
      · omega
    · obtain ⟨q, hq⟩ := dvd_roundUp n m
      have hle := le_roundUp n hm
      have hlt : n / m < q := by
        rw [Nat.div_lt_iff_lt_mul hm, Nat.mul_comm, ← hq]
        refine lt_of_le_of_ne hle (fun heq => h0 ?_)
        rw [heq, hq]
        exact Nat.mul_mod_right m q
      rw [hnext, hq]
      exact Nat.mul_le_mul_left m hlt

end ErasureCodec
