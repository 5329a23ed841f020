import Mathlib.Tactic

namespace ErasureCodec

universe u

/-- Counted loop rule: an invariant indexed by the number of finished rounds
survives `for i in 0..n`. -/
theorem foldl_range_inv {σ : Type u} (P : Nat → σ → Prop) (f : σ → Nat → σ) (n : Nat)
    (s : σ) (h0 : P 0 s) (hstep : ∀ i, i < n → ∀ t, P i t → P (i + 1) (f t i)) :
    P n ((List.range n).foldl f s) := by
  induction n with
  | zero => exact h0
  | succ n ih =>
    rw [List.range_succ, List.foldl_append]
    exact hstep n (Nat.lt_succ_self n) _ (ih (fun i hi => hstep i (Nat.lt_succ_of_lt hi)))

/-- The same rule for `for i in a..a+n`. -/
theorem foldl_range'_inv {σ : Type u} (P : Nat → σ → Prop) (f : σ → Nat → σ) (a n : Nat)
    (s : σ) (h0 : P a s)
    (hstep : ∀ i, a ≤ i → i < a + n → ∀ t, P i t → P (i + 1) (f t i)) :
    P (a + n) ((List.range' a n).foldl f s) := by
  induction n with
  | zero => exact h0
  | succ n ih =>
    rw [List.range'_concat, List.foldl_append]
    have hn := ih (fun i hi hl => hstep i hi (by omega))
    have hs := hstep (a + n) (by omega) (by omega) _ hn
    simpa [Nat.add_assoc] using hs

/-- A property every round keeps holds after a loop over any list. -/
theorem foldl_inv {σ α : Type*} (P : σ → Prop) (f : σ → α → σ) (l : List α) (s : σ)
    (h0 : P s) (hstep : ∀ a ∈ l, ∀ t, P t → P (f t a)) : P (l.foldl f s) := by
  induction l generalizing s with
  | nil => exact h0
  | cons a l ih =>
    exact ih (f s a) (hstep a (by simp) s h0) (fun b hb => hstep b (by simp [hb]))

/-- Two loop bodies that agree where an invariant holds. -/
theorem foldl_congr_inv {σ α : Type*} (P : σ → Prop) (f g : σ → α → σ) (l : List α) (s : σ)
    (h0 : P s) (hstep : ∀ a ∈ l, ∀ t, P t → P (f t a) ∧ f t a = g t a) :
    l.foldl f s = l.foldl g s := by
  induction l generalizing s with
  | nil => rfl
  | cons a l ih =>
    obtain ⟨hP, heq⟩ := hstep a List.mem_cons_self s h0
    rw [List.foldl_cons, List.foldl_cons, ← heq]
    exact ih (f s a) hP (fun b hb => hstep b (List.mem_cons_of_mem a hb))

/-- Window loop rule: when round `b` rewrites the positions of its own window of `size` and no
other, a run of `n` rounds has rewritten the first `n` windows. -/
theorem foldl_range_windows {σ α : Type*} (ok : σ → Prop) (read : σ → Nat → α) (g : Nat → α → α)
    (step : σ → Nat → σ) (size n : Nat) (s : σ) (hs : ok s)
    (hstep : ∀ b, b < n → ∀ t, ok t → ok (step t b) ∧ ∀ p, read (step t b) p =
      if b * size ≤ p ∧ p < (b + 1) * size then g p (read t p) else read t p) :
    ok ((List.range n).foldl step s) ∧ ∀ p, read ((List.range n).foldl step s) p =
      if p < n * size then g p (read s p) else read s p := by
  apply foldl_range_inv (fun k t => ok t ∧ ∀ p, read t p =
    if p < k * size then g p (read s p) else read s p)
  · exact ⟨hs, fun p => by rw [Nat.zero_mul, if_neg (Nat.not_lt_zero p)]⟩
  · intro b hb t ht
    obtain ⟨hok, hread⟩ := ht
    obtain ⟨hok', hread'⟩ := hstep b hb t hok
    refine ⟨hok', fun p => ?_⟩
    have hsucc : (b + 1) * size = b * size + size := Nat.succ_mul b size
    rw [hread' p, hread p]
    by_cases hlow : p < b * size
    · rw [if_neg (by omega), if_pos hlow, if_pos (by omega)]
    · by_cases hin : p < (b + 1) * size
      · rw [if_pos ⟨by omega, hin⟩, if_neg hlow, if_pos hin]
      · rw [if_neg (by omega), if_neg hlow, if_neg hin]

/-- Covering writes: when every task stores the target value on the positions it
covers and leaves the others alone, a run in any order ends with the target on
the covered positions. -/
theorem foldl_cover {σ τ π α : Type*} (ok : σ → Prop) (dom : π → Prop) (read : σ → π → α)
    (target : π → α) (covers : τ → π → Prop) (step : σ → τ → σ) (tasks : List τ) (s : σ)
    (hs : ok s)
    (hstep : ∀ t ∈ tasks, ∀ u, ok u → ok (step u t) ∧ ∀ p, dom p →
      (covers t p → read (step u t) p = target p) ∧
      (¬covers t p → read (step u t) p = read u p)) :
    ok (tasks.foldl step s) ∧ ∀ p, dom p →
      ((∃ t ∈ tasks, covers t p) → read (tasks.foldl step s) p = target p) ∧
      ((∀ t ∈ tasks, ¬covers t p) → read (tasks.foldl step s) p = read s p) := by
  induction tasks generalizing s with
  | nil => exact ⟨hs, fun p _ => ⟨fun ⟨_, h, _⟩ => absurd h List.not_mem_nil, fun _ => rfl⟩⟩
  | cons t tasks ih =>
    obtain ⟨hok, hwrite⟩ := hstep t List.mem_cons_self s hs
    obtain ⟨hend, hread⟩ := ih (step s t) hok
      (fun t' ht' => hstep t' (List.mem_cons_of_mem t ht'))
    refine ⟨hend, fun p hp => ⟨?_, fun hnone => ?_⟩⟩
    · rintro ⟨t', ht', hcov⟩
      by_cases hrest : ∃ t'' ∈ tasks, covers t'' p
      · exact (hread p hp).1 hrest
      · rcases List.mem_cons.mp ht' with rfl | ht'
        · refine ((hread p hp).2 (fun t'' h'' hc => hrest ⟨t'', h'', hc⟩)).trans ?_
          exact (hwrite p hp).1 hcov
        · exact absurd ⟨t', ht', hcov⟩ hrest
    · refine ((hread p hp).2 (fun t' ht' => hnone t' (List.mem_cons_of_mem t ht'))).trans ?_
      exact (hwrite p hp).2 (hnone t List.mem_cons_self)

end ErasureCodec
