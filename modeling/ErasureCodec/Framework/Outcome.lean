import Mathlib.Tactic

namespace ErasureCodec

universe u

/-- What a fallible call ends with: a value, an error value, or a panic. -/
inductive Outcome (ε α : Type u) where
  | ok (a : α)
  | err (e : ε)
  | panic
  deriving Repr, DecidableEq

namespace Outcome

variable {ε ε' α β : Type u}

/-- The `?` operator: errors and panics skip the rest of the body. -/
protected def bind (x : Outcome ε α) (f : α → Outcome ε β) : Outcome ε β :=
  match x with
  | ok a => f a
  | err e => err e
  | panic => panic

instance : Monad (Outcome ε) where
  pure := ok
  bind := Outcome.bind

/-- `Result::map_err`. -/
def mapErr (f : ε → ε') : Outcome ε α → Outcome ε' α
  | ok a => ok a
  | err e => err (f e)
  | panic => panic

@[simp] theorem pure_eq (a : α) : (pure a : Outcome ε α) = ok a := rfl

@[simp] theorem ok_bind (a : α) (f : α → Outcome ε β) : (ok a >>= f) = f a := rfl

@[simp] theorem err_bind (e : ε) (f : α → Outcome ε β) : (err e >>= f) = err e := rfl

@[simp] theorem panic_bind (f : α → Outcome ε β) : ((panic : Outcome ε α) >>= f) = panic := rfl

@[simp] theorem bind_ok_unit (x : Outcome ε PUnit) : (x >>= fun _ => ok PUnit.unit) = x := by
  cases x <;> rfl

@[simp] theorem mapErr_ok (f : ε → ε') (a : α) : mapErr f (ok a) = ok a := rfl

@[simp] theorem mapErr_err (f : ε → ε') (e : ε) :
    mapErr f (err e : Outcome ε α) = err (f e) := rfl

instance : LawfulMonad (Outcome ε) := LawfulMonad.mk' (Outcome ε)
  (by rintro _ (_ | _ | _) <;> rfl)
  (by intros; rfl)
  (by rintro _ _ _ (_ | _ | _) _ _ <;> rfl)

theorem bind_eq_ok {x : Outcome ε α} {f : α → Outcome ε β} {b : β} :
    (x >>= f) = ok b ↔ ∃ a, x = ok a ∧ f a = ok b := by
  cases x <;> simp

theorem check_bind_eq_ok {x : Outcome ε PUnit} {f : PUnit → Outcome ε β} {b : β} :
    (x >>= f) = ok b ↔ x = ok PUnit.unit ∧ f PUnit.unit = ok b := by
  cases x <;> simp

theorem guard_eq_ok {c : Prop} [Decidable c] {e : ε} {x : Outcome ε α} {a : α} :
    (if c then err e else x) = ok a ↔ ¬c ∧ x = ok a := by
  split_ifs with h
  · simp [h]
  · simp [h]

/-- A call's contract: `P` of a returned value, `Q` of an error, and `R` when it
panics. Calls that never panic have `R = False`. -/
def Sat (P : α → Prop) (Q : ε → Prop) (R : Prop) : Outcome ε α → Prop
  | ok a => P a
  | err e => Q e
  | panic => R

theorem Sat.mono {P P' : α → Prop} {Q Q' : ε → Prop} {R R' : Prop} {x : Outcome ε α}
    (h : x.Sat P Q R) (hP : ∀ a, P a → P' a) (hQ : ∀ e, Q e → Q' e) (hR : R → R') :
    x.Sat P' Q' R' := by
  cases x with
  | ok a => exact hP a h
  | err e => exact hQ e h
  | panic => exact hR h

theorem Sat.bind {P : α → Prop} {P' : β → Prop} {Q : ε → Prop} {R : Prop} {x : Outcome ε α}
    {f : α → Outcome ε β} (h : x.Sat P Q R) (hf : ∀ a, P a → (f a).Sat P' Q R) :
    (x >>= f).Sat P' Q R := by
  cases x with
  | ok a => exact hf a h
  | err e => exact h
  | panic => exact h

theorem Sat.exists_ok {P : α → Prop} {x : Outcome ε α} (h : x.Sat P (fun _ => False) False) :
    ∃ a, x = ok a ∧ P a := by
  cases x with
  | ok a => exact ⟨a, rfl, h⟩
  | err e => exact h.elim
  | panic => exact h.elim

theorem forM_eq_ok {f : α → Outcome ε PUnit} {l : List α} (h : ∀ a ∈ l, f a = ok PUnit.unit) :
    l.forM f = ok PUnit.unit := by
  induction l with
  | nil => rfl
  | cons a l ih =>
    change (f a >>= fun _ => l.forM f) = ok PUnit.unit
    rw [h a List.mem_cons_self, ok_bind]
    exact ih (fun b hb => h b (List.mem_cons_of_mem a hb))

theorem mapM_eq_ok {f : α → Outcome ε β} {g : α → β} {l : List α} (h : ∀ a ∈ l, f a = ok (g a)) :
    l.mapM f = ok (l.map g) := by
  induction l with
  | nil => rfl
  | cons a l ih =>
    rw [List.mapM_cons, h a List.mem_cons_self, ok_bind,
      ih (fun b hb => h b (List.mem_cons_of_mem a hb)), ok_bind]
    rfl

/-- Loop rule for `for i in a..a+n` with an early return: the invariant is
indexed by the round, leaving the loop early owes `Q` or `R`. -/
theorem Sat.foldlM_range' {σ : Type u} {P : Nat → σ → Prop} {Q : ε → Prop} {R : Prop}
    {f : σ → Nat → Outcome ε σ} (a n : Nat) (s : σ) (h0 : P a s)
    (hstep : ∀ i, a ≤ i → i < a + n → ∀ t, P i t → (f t i).Sat (P (i + 1)) Q R) :
    ((List.range' a n).foldlM f s).Sat (P (a + n)) Q R := by
  induction n generalizing a s with
  | zero => exact h0
  | succ n ih =>
    rw [List.range'_succ, List.foldlM_cons]
    apply Sat.bind (hstep a le_rfl (by omega) s h0)
    intro t ht
    have h := ih (a + 1) t ht (fun i hi hl => hstep i (by omega) (by omega))
    rwa [Nat.add_right_comm] at h

/-- The same rule for `for i in 0..n`. -/
theorem Sat.foldlM_range {σ : Type u} {P : Nat → σ → Prop} {Q : ε → Prop} {R : Prop}
    {f : σ → Nat → Outcome ε σ} (n : Nat) (s : σ) (h0 : P 0 s)
    (hstep : ∀ i, i < n → ∀ t, P i t → (f t i).Sat (P (i + 1)) Q R) :
    ((List.range n).foldlM f s).Sat (P n) Q R := by
  have h := Sat.foldlM_range' (f := f) 0 n s h0 (fun i _ hi => hstep i (by omega))
  rwa [Nat.zero_add, ← List.range_eq_range'] at h

/-- The same rule for `for i in (0..n).rev()`. -/
theorem Sat.foldlM_range_reverse {σ : Type u} {P : Nat → σ → Prop} {Q : ε → Prop} {R : Prop}
    {f : σ → Nat → Outcome ε σ} (n : Nat) (s : σ) (h0 : P n s)
    (hstep : ∀ i, i < n → ∀ t, P (i + 1) t → (f t i).Sat (P i) Q R) :
    ((List.range n).reverse.foldlM f s).Sat (P 0) Q R := by
  induction n generalizing s with
  | zero => exact h0
  | succ n ih =>
    rw [List.range_succ, List.reverse_append, List.reverse_singleton, List.singleton_append,
      List.foldlM_cons]
    apply Sat.bind (hstep n (Nat.lt_succ_self n) s h0)
    intro t ht
    exact ih t ht (fun i hi => hstep i (by omega))

/-- The same rule for `for (i, x) in l.enumerate()`. -/
theorem Sat.foldlM_zipIdx {σ : Type u} {P : Nat → σ → Prop} {Q : ε → Prop} {R : Prop}
    {f : σ → α × Nat → Outcome ε σ} (l : List α) (a : Nat) (s : σ) (h0 : P a s)
    (hstep : ∀ i x, l[i]? = some x → ∀ t, P (a + i) t →
      (f t (x, a + i)).Sat (P (a + i + 1)) Q R) :
    ((l.zipIdx a).foldlM f s).Sat (P (a + l.length)) Q R := by
  induction l generalizing a s with
  | nil => exact h0
  | cons x l ih =>
    rw [List.zipIdx_cons, List.foldlM_cons]
    apply Sat.bind (hstep 0 x rfl s h0)
    intro t ht
    have h := ih (a + 1) t ht (fun i y hy t ht => by
      have hnext := hstep (i + 1) y hy t
      rw [show a + (i + 1) = a + 1 + i by omega] at hnext
      exact hnext ht)
    rwa [show a + 1 + l.length = a + (x :: l).length by rw [List.length_cons]; omega] at h

/-- A loop whose body can fail: how it ends and the state it leaves. -/
def runAll {σ τ : Type*} (step : σ → τ → Outcome ε PUnit × σ) : List τ → σ → Outcome ε PUnit × σ
  | [], s => (ok PUnit.unit, s)
  | t :: tasks, s =>
    match step s t with
    | (ok _, s') => runAll step tasks s'
    | failed => failed

/-- What every round keeps also holds after a loop that failed. -/
theorem runAll_inv {σ τ : Type*} (P : σ → Prop) (step : σ → τ → Outcome ε PUnit × σ)
    (tasks : List τ) (s : σ) (hs : P s) (hstep : ∀ t ∈ tasks, ∀ u, P u → P (step u t).2) :
    P (runAll step tasks s).2 := by
  induction tasks generalizing s with
  | nil => exact hs
  | cons t tasks ih =>
    have hnext := hstep t List.mem_cons_self s hs
    simp only [runAll]
    split
    · rename_i s' heq
      rw [heq] at hnext
      exact ih s' hnext (fun t' ht' => hstep t' (List.mem_cons_of_mem t ht'))
    · exact hnext

/-- A loop whose rounds succeed is a fold. -/
theorem runAll_eq_foldl {σ τ : Type*} (P : σ → Prop) (step : σ → τ → Outcome ε PUnit × σ)
    (next : σ → τ → σ) (tasks : List τ) (s : σ) (hs : P s)
    (hstep : ∀ t ∈ tasks, ∀ u, P u → step u t = (ok PUnit.unit, next u t) ∧ P (next u t)) :
    runAll step tasks s = (ok PUnit.unit, tasks.foldl next s) := by
  induction tasks generalizing s with
  | nil => rfl
  | cons t tasks ih =>
    obtain ⟨heq, hnext⟩ := hstep t List.mem_cons_self s hs
    simp only [runAll, heq, List.foldl_cons]
    exact ih _ hnext (fun t' ht' => hstep t' (List.mem_cons_of_mem t ht'))

/-- Loops whose rounds agree. -/
theorem runAll_congr {σ τ : Type*} {step step' : σ → τ → Outcome ε PUnit × σ} {tasks : List τ}
    (h : ∀ t ∈ tasks, ∀ s, step s t = step' s t) (s : σ) :
    runAll step tasks s = runAll step' tasks s := by
  induction tasks generalizing s with
  | nil => rfl
  | cons t tasks ih =>
    simp only [runAll, h t List.mem_cons_self]
    split
    · exact ih (fun t' ht' => h t' (List.mem_cons_of_mem t ht')) _
    · rfl

end Outcome

end ErasureCodec
