import ErasureCodec.Math.Loop

namespace ErasureCodec

section Index

/-- The two halves of the block of `2 ^ (k + 1)` positions with number `q`. -/
theorem pair_index (k q : Nat) {i : Nat} (hi : i < 2 ^ k) :
    (q * 2 ^ (k + 1) + i) / 2 ^ k = 2 * q ∧ (q * 2 ^ (k + 1) + i) / 2 ^ (k + 1) = q ∧
      (q * 2 ^ (k + 1) + 2 ^ k + i) / 2 ^ k = 2 * q + 1 ∧
      (q * 2 ^ (k + 1) + 2 ^ k + i) / 2 ^ (k + 1) = q := by
  have hpos := Nat.two_pow_pos k
  have hpow : 2 ^ (k + 1) = 2 * 2 ^ k := by rw [Nat.pow_succ, Nat.mul_comm]
  have h1 : (q * 2 ^ (k + 1) + i) / 2 ^ k = 2 * q := by
    rw [hpow, show q * (2 * 2 ^ k) + i = i + 2 * q * 2 ^ k by ring,
      Nat.add_mul_div_right _ _ hpos, Nat.div_eq_of_lt hi, Nat.zero_add]
  have h2 : (q * 2 ^ (k + 1) + 2 ^ k + i) / 2 ^ k = 2 * q + 1 := by
    rw [hpow, show q * (2 * 2 ^ k) + 2 ^ k + i = i + (2 * q + 1) * 2 ^ k by ring,
      Nat.add_mul_div_right _ _ hpos, Nat.div_eq_of_lt hi, Nat.zero_add]
  refine ⟨h1, ?_, h2, ?_⟩
  · rw [Nat.pow_succ, ← Nat.div_div_eq_div_mul, ← Nat.pow_succ, h1]
    omega
  · rw [Nat.pow_succ, ← Nat.div_div_eq_div_mul, ← Nat.pow_succ, h2]
    omega

theorem exists_pair (k j : Nat) : ∃ q i, i < 2 ^ k ∧
    (j = q * 2 ^ (k + 1) + i ∨ j = q * 2 ^ (k + 1) + 2 ^ k + i) := by
  have hpow : 2 ^ (k + 1) = 2 ^ k + 2 ^ k := by rw [Nat.pow_succ]; omega
  have hdiv := Nat.div_add_mod' j (2 ^ (k + 1))
  have hmod := Nat.mod_lt j (Nat.two_pow_pos (k + 1))
  rcases Nat.lt_or_ge (j % 2 ^ (k + 1)) (2 ^ k) with h | h
  · exact ⟨j / 2 ^ (k + 1), j % 2 ^ (k + 1), h, .inl hdiv.symm⟩
  · exact ⟨j / 2 ^ (k + 1), j % 2 ^ (k + 1) - 2 ^ k, by omega, .inr (by omega)⟩

theorem small_split {k x : Nat} (hx : x < 2 ^ k) : x / 2 ^ k = 0 ∧ x % 2 ^ k = x :=
  ⟨Nat.div_eq_of_lt hx, Nat.mod_eq_of_lt hx⟩

theorem add_two_pow_split {k x : Nat} (hx : x < 2 ^ k) :
    (x + 2 ^ k) / 2 ^ k = 1 ∧ (x + 2 ^ k) % 2 ^ k = x := by
  rw [Nat.add_div_right x (Nat.two_pow_pos k), Nat.div_eq_of_lt hx, Nat.add_mod_right,
    Nat.mod_eq_of_lt hx]
  exact ⟨rfl, rfl⟩

theorem eq_of_div_mod {a b n : Nat} (hd : a / n = b / n) (hm : a % n = b % n) : a = b := by
  rw [← Nat.div_add_mod a n, ← Nat.div_add_mod b n, hd, hm]

theorem xor_add_two_pow {k i e : Nat} (hi : i < 2 ^ k) (he : e < 2 ^ k) :
    i ^^^ (e + 2 ^ k) = (i ^^^ e) + 2 ^ k ∧ (i + 2 ^ k) ^^^ e = (i ^^^ e) + 2 ^ k ∧
      (i + 2 ^ k) ^^^ (e + 2 ^ k) = i ^^^ e := by
  have hx := Nat.xor_lt_two_pow hi he
  refine ⟨eq_of_div_mod (n := 2 ^ k) ?_ ?_, eq_of_div_mod (n := 2 ^ k) ?_ ?_,
    eq_of_div_mod (n := 2 ^ k) ?_ ?_⟩
  all_goals
    simp only [Nat.xor_div_two_pow, Nat.xor_mod_two_pow, small_split hi, small_split he,
      small_split hx, add_two_pow_split hi, add_two_pow_split he, add_two_pow_split hx,
      Nat.zero_xor, Nat.xor_zero, Nat.xor_self]

theorem and_add_two_pow {k i j : Nat} (hi : i < 2 ^ k) (hj : j < 2 ^ k) :
    i &&& (j + 2 ^ k) = i &&& j ∧ (i + 2 ^ k) &&& j = i &&& j ∧
      (i + 2 ^ k) &&& (j + 2 ^ k) = (i &&& j) + 2 ^ k := by
  have ha : i &&& j < 2 ^ k := Nat.and_lt_two_pow i hj
  refine ⟨eq_of_div_mod (n := 2 ^ k) ?_ ?_, eq_of_div_mod (n := 2 ^ k) ?_ ?_,
    eq_of_div_mod (n := 2 ^ k) ?_ ?_⟩
  all_goals
    simp only [Nat.and_div_two_pow, Nat.and_mod_two_pow, small_split hi, small_split hj,
      small_split ha, add_two_pow_split hi, add_two_pow_split hj, add_two_pow_split ha,
      Nat.zero_and, Nat.and_zero, Nat.and_self]

/-- A block that starts below a multiple of its size ends below it. -/
theorem block_end_le {q size n : Nat} (hdvd : size ∣ n) (h : q * size < n) :
    (q + 1) * size ≤ n := by
  obtain ⟨c, rfl⟩ := hdvd
  rw [Nat.mul_comm size c] at h ⊢
  exact Nat.mul_le_mul_right _ (Nat.lt_of_mul_lt_mul_right h)

/-- The block of a position starts below the smaller blocks of the position. -/
theorem block_start_le {c d : Nat} (hcd : c ≤ d) (p : Nat) :
    p / 2 ^ d * 2 ^ d ≤ p / 2 ^ c * 2 ^ c := by
  have hpow : 2 ^ d = 2 ^ (d - c) * 2 ^ c := by
    rw [← Nat.pow_add, Nat.sub_add_cancel hcd]
  rw [hpow, ← Nat.mul_assoc, Nat.mul_comm (2 ^ (d - c)) (2 ^ c), ← Nat.div_div_eq_div_mul]
  exact Nat.mul_le_mul_right _ (Nat.div_mul_le_self _ _)

open private Nat.nextPowerOfTwo.go from Init.Data.Nat.Power2.Basic

theorem nextPowerOfTwo_go (n j power : Nat) (hpos : 0 < power) (hpower : power = 2 ^ j)
    (hj : ∀ i, i < j → 2 ^ i < n) : ∃ k, Nat.nextPowerOfTwo.go n power hpos = 2 ^ k ∧
      n ≤ 2 ^ k ∧ ∀ i, i < k → 2 ^ i < n := by
  obtain ⟨d, hd⟩ : ∃ d, d = n - power := ⟨_, rfl⟩
  induction d using Nat.strong_induction_on generalizing j power with
  | _ d ih =>
    rw [Nat.nextPowerOfTwo.go]
    split_ifs with hlt
    · refine ih (n - power * 2) (by omega) (j + 1) (power * 2) _ (by rw [hpower, Nat.pow_succ])
        (fun i hi => ?_) rfl
      rcases Nat.lt_succ_iff_lt_or_eq.mp hi with hi | rfl
      · exact hj i hi
      · rwa [← hpower]
    · exact ⟨j, hpower, by omega, hj⟩

/-- The least power of two from `n` on. -/
theorem nextPowerOfTwo_spec (n : Nat) :
    ∃ k, Nat.nextPowerOfTwo n = 2 ^ k ∧ n ≤ 2 ^ k ∧ ∀ j, n ≤ 2 ^ j → k ≤ j := by
  obtain ⟨k, hk, hle, hmin⟩ := nextPowerOfTwo_go n 0 1 (by decide) rfl (by omega)
  refine ⟨k, hk, hle, fun j hj => ?_⟩
  by_contra hlt
  have := hmin j (by omega)
  omega

theorem nextPowerOfTwo_eq {n k : Nat} (hle : n ≤ 2 ^ k) (hlt : 2 ^ k < 2 * n) :
    Nat.nextPowerOfTwo n = 2 ^ k := by
  obtain ⟨j, hj, hle', hmin⟩ := nextPowerOfTwo_spec n
  rcases Nat.eq_or_lt_of_le (hmin k hle) with rfl | hjk
  · exact hj
  · have hpow := Nat.pow_le_pow_right (n := 2) (by decide) hjk
    rw [Nat.pow_succ] at hpow
    omega

end Index

section Loops

/-- The values of `let mut r = start; while r < stop { .. r += step }`. -/
def stepRange (start stop step : Nat) : List Nat :=
  (List.range ((stop - start + step - 1) / step)).map fun k => start + k * step

theorem mem_stepRange {start stop step : Nat} (hs : 0 < step) {r : Nat} :
    r ∈ stepRange start stop step ↔ ∃ q, r = start + q * step ∧ r < stop := by
  have hcount (q : Nat) : q < (stop - start + step - 1) / step ↔ start + q * step < stop := by
    rw [Nat.lt_div_iff_mul_lt hs]
    omega
  simp only [stepRange, List.mem_map, List.mem_range]
  constructor
  · rintro ⟨q, hq, rfl⟩
    exact ⟨q, rfl, (hcount q).mp hq⟩
  · rintro ⟨q, rfl, hlt⟩
    exact ⟨q, (hcount q).mpr hlt, rfl⟩

theorem pairwise_stepRange {start stop step : Nat} :
    (stepRange start stop step).Pairwise fun a b => ∃ c, 0 < c ∧ b = a + c * step := by
  unfold stepRange
  rw [List.pairwise_map]
  apply List.pairwise_lt_range.imp
  intro a b hab
  refine ⟨b - a, by omega, ?_⟩
  obtain ⟨c, rfl⟩ := Nat.exists_eq_add_of_lt hab
  rw [show a + c + 1 - a = c + 1 by omega]
  ring

/-- The `(dist, dist4)` pairs of the loop `while dist4 <= m { .. dist = dist4; dist4 <<= 2 }`
and the distance it ends with. -/
def radix4Up (m dist dist4 : Nat) : List (Nat × Nat) × Nat :=
  if dist4 ≤ m ∧ 0 < dist4 then
    let rest := radix4Up m dist4 (dist4 <<< 2)
    ((dist, dist4) :: rest.1, rest.2)
  else ([], dist)
termination_by m + 1 - dist4
decreasing_by
  rw [Nat.shiftLeft_eq]
  omega

/-- The `(dist, dist4)` pairs of the loop `while dist != 0 { .. dist4 = dist; dist >>= 2 }`
and the outer distance it ends with. -/
def radix4Down (dist4 dist : Nat) : List (Nat × Nat) × Nat :=
  if dist = 0 then ([], dist4)
  else
    let rest := radix4Down dist (dist >>> 2)
    ((dist, dist4) :: rest.1, rest.2)
termination_by dist
decreasing_by
  rw [Nat.shiftRight_eq_div_pow]
  omega

/-- Loop rule for the ascending passes: each finishes two layers. -/
theorem foldl_radix4Up {σ : Type*} (P : Nat → σ → Prop) (step : σ → Nat × Nat → σ) (k b : Nat)
    (hb : b ≤ k) (s : σ) (h0 : P b s)
    (hstep : ∀ c, c + 2 ≤ k → ∀ t, P c t → P (c + 2) (step t (2 ^ c, 2 ^ (c + 2)))) :
    (radix4Up (2 ^ k) (2 ^ b) (2 ^ (b + 2))).2 = 2 ^ (k - (k - b) % 2) ∧
      P (k - (k - b) % 2) ((radix4Up (2 ^ k) (2 ^ b) (2 ^ (b + 2))).1.foldl step s) := by
  obtain ⟨n, hn⟩ : ∃ n, n = k - b := ⟨_, rfl⟩
  induction n using Nat.strong_induction_on generalizing b s with
  | _ n ih =>
    rw [radix4Up]
    by_cases hle : b + 2 ≤ k
    · have hpow : 2 ^ (b + 2) ≤ 2 ^ k := Nat.pow_le_pow_right (by decide) hle
      have hshift : 2 ^ (b + 2) <<< 2 = 2 ^ (b + 2 + 2) := by
        rw [Nat.shiftLeft_eq, ← Nat.pow_add]
      rw [if_pos ⟨hpow, Nat.two_pow_pos _⟩, hshift]
      have hrest := ih (k - (b + 2)) (by omega) (b + 2) hle (step s (2 ^ b, 2 ^ (b + 2)))
        (hstep b hle s h0) rfl
      rw [show (k - (b + 2)) % 2 = (k - b) % 2 by omega] at hrest
      exact hrest
    · have hpow : ¬2 ^ (b + 2) ≤ 2 ^ k := by
        rw [Nat.pow_le_pow_iff_right (by decide)]
        exact hle
      rw [if_neg (fun h => hpow h.1), show k - (k - b) % 2 = b by omega]
      exact ⟨rfl, h0⟩

/-- Loop rule for the descending passes: each finishes two layers. -/
theorem foldl_radix4Down {σ : Type*} (P : Nat → σ → Prop) (step : σ → Nat × Nat → σ) (k : Nat)
    (s : σ) (h0 : P k s)
    (hstep : ∀ c, c + 2 ≤ k → ∀ t, P (c + 2) t → P c (step t (2 ^ c, 2 ^ (c + 2)))) :
    (radix4Down (2 ^ k) (2 ^ k >>> 2)).2 = 2 ^ (k % 2) ∧
      P (k % 2) ((radix4Down (2 ^ k) (2 ^ k >>> 2)).1.foldl step s) := by
  induction k using Nat.strong_induction_on generalizing s with
  | _ k ih =>
    rw [radix4Down]
    rcases Nat.lt_or_ge k 2 with hlt | hge
    · have hzero : 2 ^ k >>> 2 = 0 := by
        rw [Nat.shiftRight_eq_div_pow, Nat.div_eq_of_lt]
        exact Nat.pow_lt_pow_right (by decide) hlt
      rw [if_pos hzero, Nat.mod_eq_of_lt hlt]
      exact ⟨rfl, h0⟩
    · obtain ⟨c, rfl⟩ : ∃ c, k = c + 2 := ⟨k - 2, by omega⟩
      have hshift : 2 ^ (c + 2) >>> 2 = 2 ^ c := by
        rw [Nat.shiftRight_eq_div_pow, Nat.pow_add, Nat.mul_div_cancel _ (by decide)]
      have hpos := Nat.two_pow_pos c
      rw [hshift, if_neg (by omega)]
      have hrest := ih c (by omega) (step s (2 ^ c, 2 ^ (c + 2))) (hstep c le_rfl s h0)
        (fun d hd => hstep d (by omega))
      rw [Nat.add_mod_right]
      exact hrest

theorem mem_radix4Up {k b : Nat} (hb : b ≤ k) {d : Nat × Nat}
    (hd : d ∈ (radix4Up (2 ^ k) (2 ^ b) (2 ^ (b + 2))).1) :
    ∃ c, c + 2 ≤ k ∧ d = (2 ^ c, 2 ^ (c + 2)) := by
  have h := (foldl_radix4Up (fun _ l => ∀ d ∈ l, ∃ c, c + 2 ≤ k ∧ d = (2 ^ c, 2 ^ (c + 2)))
    (fun l d => d :: l) k b hb [] (by simp) (by
      intro c hc l hl d hd
      rcases List.mem_cons.mp hd with rfl | hd
      · exact ⟨c, hc, rfl⟩
      · exact hl d hd)).2
  rw [List.foldl_flip_cons_eq_append'] at h
  exact h d (by simpa using hd)

theorem mem_radix4Down {k : Nat} {d : Nat × Nat} (hd : d ∈ (radix4Down (2 ^ k) (2 ^ k >>> 2)).1) :
    ∃ c, c + 2 ≤ k ∧ d = (2 ^ c, 2 ^ (c + 2)) := by
  have h := (foldl_radix4Down (fun _ l => ∀ d ∈ l, ∃ c, c + 2 ≤ k ∧ d = (2 ^ c, 2 ^ (c + 2)))
    (fun l d => d :: l) k [] (by simp) (by
      intro c hc l hl d hd
      rcases List.mem_cons.mp hd with rfl | hd
      · exact ⟨c, hc, rfl⟩
      · exact hl d hd)).2
  rw [List.foldl_flip_cons_eq_append'] at h
  exact h d (by simpa using hd)

/-- In-place passes: tasks that read and write their own positions only leave
the target of each, computed from the values before the pass. -/
theorem foldl_inPlace {σ τ α : Type*} (ok : σ → Prop) (read : σ → Nat → α) (base target : Nat → α)
    (own : τ → Nat → Prop) (step : σ → τ → σ) (tasks : List τ) (s : σ) (hs : ok s)
    (hbase : ∀ t ∈ tasks, ∀ p, own t p → read s p = base p)
    (hdisj : tasks.Pairwise fun t t' => ∀ p, own t p → ¬own t' p)
    (hstep : ∀ t ∈ tasks, ∀ u, ok u → (∀ p, own t p → read u p = base p) →
      ok (step u t) ∧ (∀ p, own t p → read (step u t) p = target p) ∧
        ∀ p, ¬own t p → read (step u t) p = read u p) :
    ok (tasks.foldl step s) ∧
      (∀ p, (∃ t ∈ tasks, own t p) → read (tasks.foldl step s) p = target p) ∧
      ∀ p, (∀ t ∈ tasks, ¬own t p) → read (tasks.foldl step s) p = read s p := by
  induction tasks generalizing s with
  | nil => exact ⟨hs, fun p ⟨_, h, _⟩ => absurd h List.not_mem_nil, fun p _ => rfl⟩
  | cons t tasks ih =>
    obtain ⟨hhead, htail⟩ := List.pairwise_cons.mp hdisj
    obtain ⟨hok, hwrite, hkeep⟩ := hstep t List.mem_cons_self s hs (hbase t List.mem_cons_self)
    have hbase' : ∀ t' ∈ tasks, ∀ p, own t' p → read (step s t) p = base p := by
      intro t' ht' p hp
      rw [hkeep p (fun h => hhead t' ht' p h hp)]
      exact hbase t' (List.mem_cons_of_mem t ht') p hp
    obtain ⟨hend, hin, hout⟩ := ih (step s t) hok hbase' htail
      (fun t' ht' => hstep t' (List.mem_cons_of_mem t ht'))
    refine ⟨hend, ?_, ?_⟩
    · rintro p ⟨t', ht', hp⟩
      rcases List.mem_cons.mp ht' with rfl | ht'
      · rw [List.foldl_cons, hout p (fun t'' h'' h => hhead t'' h'' p hp h)]
        exact hwrite p hp
      · exact hin p ⟨t', ht', hp⟩
    · intro p hp
      rw [List.foldl_cons, hout p (fun t' ht' => hp t' (List.mem_cons_of_mem t ht'))]
      exact hkeep p (hp t List.mem_cons_self)

/-- In-place passes over windows of `n` neighbouring places. -/
theorem foldl_windows {σ α : Type*} (ok : σ → Prop) (read : σ → Nat → α) (base target : Nat → α)
    (own : Nat → Nat → Prop) (step : σ → Nat → σ) {r dist n : Nat} (hn : 0 < n) (hdvd : n ∣ dist)
    (s : σ) (hs : ok s) (hbase : ∀ i, i < dist → ∀ p, own i p → read s p = base p)
    (hdisj : ∀ i j p, i < dist → j < dist → own i p → own j p → i = j)
    (hstep : ∀ t, t + n ≤ dist → ∀ u, ok u →
      (∀ l, l < n → ∀ p, own (t + l) p → read u p = base p) → ok (step u (r + t)) ∧
        (∀ l, l < n → ∀ p, own (t + l) p → read (step u (r + t)) p = target p) ∧
        ∀ p, (∀ l, l < n → ¬own (t + l) p) → read (step u (r + t)) p = read u p) :
    ok ((stepRange r (r + dist) n).foldl step s) ∧
      (∀ i, i < dist → ∀ p, own i p →
        read ((stepRange r (r + dist) n).foldl step s) p = target p) ∧
      ∀ p, (∀ i, i < dist → ¬own i p) →
        read ((stepRange r (r + dist) n).foldl step s) p = read s p := by
  have hwindow {off : Nat} (hoff : off ∈ stepRange r (r + dist) n) :
      ∃ t, off = r + t ∧ t + n ≤ dist := by
    obtain ⟨q, rfl, hlt⟩ := (mem_stepRange hn).mp hoff
    have hend := block_end_le hdvd (show q * n < dist by omega)
    rw [Nat.add_mul, Nat.one_mul] at hend
    exact ⟨q * n, rfl, hend⟩
  obtain ⟨hok, hin, hout⟩ := foldl_inPlace ok read base target
    (fun off p => ∃ l, l < n ∧ own (off - r + l) p) step (stepRange r (r + dist) n) s hs
    (fun off hoff p ⟨l, hl, hp⟩ => by
      obtain ⟨t, rfl, ht⟩ := hwindow hoff
      exact hbase _ (by omega) p hp)
    (pairwise_stepRange.imp_of_mem (by
      rintro a b ha hb ⟨c, hc, rfl⟩ p ⟨l, hl, hp⟩ ⟨l', hl', hp'⟩
      obtain ⟨t, rfl, ht⟩ := hwindow ha
      obtain ⟨t', ht', hle⟩ := hwindow hb
      have heq := hdisj _ _ p (by omega) (by omega) hp hp'
      have hmul := Nat.le_mul_of_pos_left n hc
      omega)) (by
      intro off hoff u hu hbase'
      obtain ⟨t, rfl, ht⟩ := hwindow hoff
      simp only [Nat.add_sub_cancel_left] at hbase' ⊢
      obtain ⟨h1, h2, h3⟩ := hstep t ht u hu (fun l hl p hp => hbase' p ⟨l, hl, hp⟩)
      exact ⟨h1, fun p ⟨l, hl, hp⟩ => h2 l hl p hp,
        fun p hp => h3 p (fun l hl h => hp ⟨l, hl, h⟩)⟩)
  refine ⟨hok, fun i hi p hp => ?_, fun p hp => ?_⟩
  · have hsplit := Nat.div_add_mod' i n
    apply hin p
    refine ⟨r + i / n * n, (mem_stepRange hn).mpr ⟨i / n, rfl, by omega⟩, i % n,
      Nat.mod_lt i hn, ?_⟩
    rwa [Nat.add_sub_cancel_left, hsplit]
  · apply hout p
    rintro off hoff ⟨l, hl, h⟩
    obtain ⟨t, rfl, ht⟩ := hwindow hoff
    exact hp _ (by omega) h

/-- The first positions of the four-point butterflies of a pass over the blocks
of `dist4` positions that start below `stop`. -/
def quadStarts (stop dist dist4 : Nat) : List Nat :=
  (stepRange 0 stop dist4).flatMap fun r => (List.range dist).map fun i => r + i

/-- The positions of a four-point butterfly. -/
def Quad (dist off p : Nat) : Prop :=
  p = off ∨ p = off + dist ∨ p = off + dist * 2 ∨ p = off + dist * 3

theorem mem_quadStarts {stop dist dist4 : Nat} (h4 : 0 < dist4) {off : Nat} :
    off ∈ quadStarts stop dist dist4 ↔
      ∃ q i, i < dist ∧ q * dist4 < stop ∧ off = q * dist4 + i := by
  simp only [quadStarts, List.mem_flatMap, mem_stepRange h4, List.mem_map, List.mem_range,
    Nat.zero_add]
  constructor
  · rintro ⟨r, ⟨q, rfl, hq⟩, i, hi, rfl⟩
    exact ⟨q, i, hi, hq, rfl⟩
  · rintro ⟨q, i, hi, hq, rfl⟩
    exact ⟨q * dist4, ⟨q, rfl, hq⟩, i, hi, rfl⟩

/-- A position belongs to one butterfly of its block. -/
theorem quad_block {dist q i p : Nat} (hi : i < dist) (h : Quad dist (q * (4 * dist) + i) p) :
    p / (4 * dist) = q ∧ p % dist = i := by
  have hpos : 0 < 4 * dist := by omega
  obtain ⟨c, hc, rfl⟩ : ∃ c, c < 4 ∧ p = q * (4 * dist) + i + dist * c := by
    rcases h with rfl | rfl | rfl | rfl
    · exact ⟨0, by decide, by omega⟩
    · exact ⟨1, by decide, by omega⟩
    · exact ⟨2, by decide, rfl⟩
    · exact ⟨3, by decide, rfl⟩
  have hlt : i + dist * c < 4 * dist := by
    have := Nat.mul_le_mul_left dist (show c ≤ 3 by omega)
    omega
  constructor
  · rw [show q * (4 * dist) + i + dist * c = i + dist * c + q * (4 * dist) by ring,
      Nat.add_mul_div_right _ _ hpos, Nat.div_eq_of_lt hlt, Nat.zero_add]
  · rw [show q * (4 * dist) + i + dist * c = i + dist * (4 * q + c) by ring,
      Nat.add_mul_mod_self_left, Nat.mod_eq_of_lt hi]

/-- The pairs of a four-point butterfly on the two layers of its block. -/
theorem quad_index (b q i : Nat) :
    (q * 2 ^ (b + 2) + i = 2 * q * 2 ^ (b + 1) + i ∧
      q * 2 ^ (b + 2) + i + 2 ^ b = 2 * q * 2 ^ (b + 1) + 2 ^ b + i) ∧
    (q * 2 ^ (b + 2) + i + 2 ^ b * 2 = (2 * q + 1) * 2 ^ (b + 1) + i ∧
      q * 2 ^ (b + 2) + i + 2 ^ b * 3 = (2 * q + 1) * 2 ^ (b + 1) + 2 ^ b + i) ∧
    q * 2 ^ (b + 2) + i + 2 ^ b * 2 = q * 2 ^ (b + 1 + 1) + 2 ^ (b + 1) + i ∧
    q * 2 ^ (b + 2) + i + 2 ^ b = q * 2 ^ (b + 1 + 1) + (i + 2 ^ b) ∧
      q * 2 ^ (b + 2) + i + 2 ^ b * 3 = q * 2 ^ (b + 1 + 1) + 2 ^ (b + 1) + (i + 2 ^ b) := by
  have h1 : 2 ^ (b + 1) = 2 * 2 ^ b := by rw [Nat.pow_succ, Nat.mul_comm]
  have h2 : 2 ^ (b + 2) = 4 * 2 ^ b := by rw [Nat.pow_add]; omega
  rw [show 2 ^ (b + 1 + 1) = 2 ^ (b + 2) from rfl, h2, h1]
  refine ⟨⟨?_, ?_⟩, ⟨?_, ?_⟩, ?_, ?_, ?_⟩ <;> ring

/-- A position lies in the butterfly of its block and its place there. -/
theorem quad_self {dist : Nat} (hd : 0 < dist) (p : Nat) :
    Quad dist (p / (4 * dist) * (4 * dist) + p % dist) p := by
  have h1 := Nat.div_add_mod' p (4 * dist)
  have h2 := Nat.mod_lt p (show 0 < 4 * dist by omega)
  have h3 : p % (4 * dist) % dist = p % dist := Nat.mod_mul_left_mod p 4 dist
  have h4 := Nat.div_add_mod' (p % (4 * dist)) dist
  have h5 : p % (4 * dist) / dist < 4 := by
    rw [Nat.div_lt_iff_lt_mul hd]
    exact h2
  rw [h3] at h4
  unfold Quad
  obtain ⟨c, hc⟩ : ∃ c, c = p % (4 * dist) / dist := ⟨_, rfl⟩
  rw [← hc] at h4 h5
  interval_cases c <;> omega

theorem exists_quad {stop dist p : Nat} (hd : 0 < dist) :
    (∃ off ∈ quadStarts stop dist (4 * dist), Quad dist off p) ↔
      p / (4 * dist) * (4 * dist) < stop := by
  have hpos : 0 < 4 * dist := by omega
  constructor
  · rintro ⟨off, hoff, hquad⟩
    obtain ⟨q, i, hi, hq, rfl⟩ := (mem_quadStarts hpos).mp hoff
    rwa [(quad_block hi hquad).1]
  · intro h
    exact ⟨p / (4 * dist) * (4 * dist) + p % dist, (mem_quadStarts hpos).mpr
      ⟨p / (4 * dist), p % dist, Nat.mod_lt p hd, h, rfl⟩, quad_self hd p⟩

/-- The place of a position in a block of butterflies. -/
theorem quad_place {r dist i p : Nat} (hi : i < dist) (hp : Quad dist (r + i) p) :
    (r ≤ p ∧ p < r + 4 * dist) ∧ (p - r) % dist = i := by
  have hquad : Quad dist (0 * (4 * dist) + i) (p - r) := by
    unfold Quad at hp ⊢
    omega
  rw [(quad_block hi hquad).2]
  unfold Quad at hp
  omega

theorem quad_place_self {r dist p : Nat} (hd : 0 < dist) (hp : r ≤ p ∧ p < r + 4 * dist) :
    Quad dist (r + (p - r) % dist) p := by
  have hself := quad_self hd (p - r)
  rw [Nat.div_eq_of_lt (show p - r < 4 * dist by omega)] at hself
  unfold Quad at hself ⊢
  omega

/-- The place of a position in a block of pairs. -/
theorem pair_place {r dist i p : Nat} (hi : i < dist) (hp : p = r + i ∨ p = r + i + dist) :
    (r ≤ p ∧ p < r + 2 * dist) ∧ (p - r) % dist = i := by
  rcases hp with rfl | rfl
  · rw [Nat.add_sub_cancel_left, Nat.mod_eq_of_lt hi]
    omega
  · rw [show r + i + dist - r = i + dist by omega, Nat.add_mod_right, Nat.mod_eq_of_lt hi]
    omega

theorem pair_place_self {r dist p : Nat} (hp : r ≤ p ∧ p < r + 2 * dist) :
    p = r + (p - r) % dist ∨ p = r + (p - r) % dist + dist := by
  rcases Nat.lt_or_ge (p - r) dist with hlt | hge
  · rw [Nat.mod_eq_of_lt hlt]
    omega
  · rw [Nat.mod_eq_sub_mod hge, Nat.mod_eq_of_lt (by omega)]
    omega

theorem pairwise_quadStarts {stop dist : Nat} :
    (quadStarts stop dist (4 * dist)).Pairwise fun a b => ∀ p, Quad dist a p → ¬Quad dist b p := by
  rcases Nat.eq_zero_or_pos dist with rfl | hd
  · simp [quadStarts, List.flatMap_eq_nil_iff.mpr]
  have hlt : (quadStarts stop dist (4 * dist)).Pairwise (· < ·) := by
    unfold quadStarts
    rw [List.pairwise_flatMap]
    constructor
    · intro r _
      rw [List.pairwise_map]
      exact List.pairwise_lt_range.imp (fun h => by omega)
    · apply pairwise_stepRange.imp
      rintro a b ⟨c, hc, rfl⟩ x hx y hy
      obtain ⟨i, hi, rfl⟩ := List.mem_map.mp hx
      obtain ⟨j, -, rfl⟩ := List.mem_map.mp hy
      have hmul := Nat.le_mul_of_pos_left (4 * dist) hc
      have hi' := List.mem_range.mp hi
      omega
  apply hlt.imp_of_mem
  intro a b ha hb hab p hpa hpb
  obtain ⟨q, i, hi, -, rfl⟩ := (mem_quadStarts (by omega)).mp ha
  obtain ⟨q', i', hi', -, rfl⟩ := (mem_quadStarts (by omega)).mp hb
  obtain ⟨h1, h2⟩ := quad_block hi hpa
  obtain ⟨h3, h4⟩ := quad_block hi' hpb
  rw [← h1, ← h2, ← h3, ← h4] at hab
  omega

/-- An operation on two positions. -/
def pairUpdate {α : Type*} (op : α → α → α × α) (i j : Nat) (f : Nat → α) (p : Nat) : α :=
  if p = i then (op (f i) (f j)).1 else if p = j then (op (f i) (f j)).2 else f p

theorem pairUpdate_comm {α : Type*} (op op' : α → α → α × α) (f : Nat → α) {a b c d : Nat}
    (hac : a ≠ c) (had : a ≠ d) (hbc : b ≠ c) (hbd : b ≠ d) :
    pairUpdate op a b (pairUpdate op' c d f) = pairUpdate op' c d (pairUpdate op a b f) := by
  funext p
  unfold pairUpdate
  simp only [if_neg hac, if_neg had, if_neg hbc, if_neg hbd, if_neg hac.symm, if_neg had.symm,
    if_neg hbc.symm, if_neg hbd.symm]
  by_cases ha : p = a
  · rw [if_pos ha, if_neg (fun h => hac (ha.symm.trans h)), if_neg (fun h => had (ha.symm.trans h)),
      if_pos ha]
  · by_cases hb : p = b
    · rw [if_neg ha, if_pos hb, if_neg (fun h => hbc (hb.symm.trans h)),
        if_neg (fun h => hbd (hb.symm.trans h)), if_neg ha, if_pos hb]
    · simp only [if_neg ha, if_neg hb]

/-- Operations on two pairs, read as one layer. -/
theorem pairUpdate_two {α : Type*} (op₁ op₂ : α → α → α × α) {f g : Nat → α} {a b c d : Nat}
    (hab : a ≠ b) (hac : a ≠ c) (had : a ≠ d) (hbc : b ≠ c) (hbd : b ≠ d) (hcd : c ≠ d)
    (h1 : op₁ (f a) (f b) = (g a, g b)) (h2 : op₂ (f c) (f d) = (g c, g d)) (p : Nat) :
    pairUpdate op₂ c d (pairUpdate op₁ a b f) p =
      if p = a ∨ p = b ∨ p = c ∨ p = d then g p else f p := by
  unfold pairUpdate
  simp only [if_neg hac.symm, if_neg hbc.symm, if_neg had.symm, if_neg hbd.symm, h1, h2]
  by_cases hpc : p = c
  · simp [hpc]
  · by_cases hpd : p = d
    · simp [hpd, hcd.symm]
    · by_cases hpa : p = a
      · simp [hpa, hac, had]
      · by_cases hpb : p = b
        · simp [hpb, hbc, hbd, hab.symm]
        · simp [hpa, hpb, hpc, hpd]

/-- Two rounds of operations on four positions, read as two layers. -/
theorem pairUpdate_quad {α : Type*} (op₁ op₂ op₃ op₄ : α → α → α × α) {f g h : Nat → α}
    {a b c d : Nat} (hab : a ≠ b) (hac : a ≠ c) (had : a ≠ d) (hbc : b ≠ c) (hbd : b ≠ d)
    (hcd : c ≠ d) (h1 : op₁ (f a) (f b) = (g a, g b)) (h2 : op₂ (f c) (f d) = (g c, g d))
    (h3 : op₃ (g a) (g c) = (h a, h c)) (h4 : op₄ (g b) (g d) = (h b, h d)) (p : Nat) :
    pairUpdate op₄ b d (pairUpdate op₃ a c (pairUpdate op₂ c d (pairUpdate op₁ a b f))) p =
      if p = a ∨ p = b ∨ p = c ∨ p = d then h p else f p := by
  have hlow := pairUpdate_two op₁ op₂ hab hac had hbc hbd hcd h1 h2
  have hhigh := pairUpdate_two op₃ op₄ (f := pairUpdate op₂ c d (pairUpdate op₁ a b f)) (g := h)
    hac hab had hbc.symm hcd hbd (by rw [hlow a, hlow c]; simpa using h3)
    (by rw [hlow b, hlow d]; simpa using h4) p
  rw [hhigh, hlow p]
  by_cases hp : p = a ∨ p = b ∨ p = c ∨ p = d
  · rw [if_pos (show p = a ∨ p = c ∨ p = b ∨ p = d by tauto), if_pos hp]
  · rw [if_neg (show ¬(p = a ∨ p = c ∨ p = b ∨ p = d) by tauto), if_neg hp, if_neg hp]

end Loops

end ErasureCodec
