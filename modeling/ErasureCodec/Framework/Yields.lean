import ErasureCodec.Framework.Outcome

namespace ErasureCodec

variable {σ τ α β ε : Type*} {good : σ → Prop}

/-- A computation on a state does not fail, yields a value and leaves a good state. -/
def Yields (good : σ → Prop) (run : Option (α × σ)) (a : α) : Prop :=
  ∃ s, run = some (a, s) ∧ good s

/-- A loop on a state whose rounds may end it early. -/
def runAllOn (step : β × σ → τ → Option ((Outcome ε PUnit × β) × σ)) :
    List τ → β × σ → Option ((Outcome ε PUnit × β) × σ)
  | [], st => some ((.ok ⟨⟩, st.1), st.2)
  | t :: tasks, st => (step st t).bind fun next =>
    match next.1.1 with
    | .ok _ => runAllOn step tasks (next.1.2, next.2)
    | _ => some next

theorem Yields.pure {s : σ} (hs : good s) (a : α) : Yields good (some (a, s)) a := ⟨s, rfl, hs⟩

theorem Yields.bind {run : Option (α × σ)} {next : α × σ → Option (β × σ)} {a : α} {b : β}
    (h : Yields good run a) (hnext : ∀ s, good s → Yields good (next (a, s)) b) :
    Yields good (run.bind next) b := by
  obtain ⟨s, hrun, hs⟩ := h
  rw [hrun]
  exact hnext s hs

theorem Yields.mono {good' : σ → Prop} {run : Option (α × σ)} {a : α} (h : Yields good run a)
    (hgood : ∀ s, good s → good' s) : Yields good' run a := by
  obtain ⟨s, hrun, hs⟩ := h
  exact ⟨s, hrun, hgood s hs⟩

/-- A loop yields what its rounds yield one after another, as long as they keep an invariant
that may count them. -/
theorem Yields.foldlM_indexed {step : β × σ → τ → Option (β × σ)} {next : β → τ → β}
    {tasks : List τ} (P : Nat → β → Prop) (hstep : ∀ i t, tasks[i]? = some t → ∀ b, P i b →
      P (i + 1) (next b t) ∧ ∀ s, good s → Yields good (step (b, s) t) (next b t))
    {b : β} (hb : P 0 b) {s : σ} (hs : good s) :
    P tasks.length (tasks.foldl next b) ∧
      Yields good (tasks.foldlM step (b, s)) (tasks.foldl next b) := by
  induction tasks generalizing P b s with
  | nil => exact ⟨hb, Yields.pure hs b⟩
  | cons t tasks ih =>
    obtain ⟨hnext, hyield⟩ := hstep 0 t rfl b hb
    obtain ⟨s', hrun, hs'⟩ := hyield s hs
    have hrest := ih (fun i => P (i + 1)) (fun i u hu => hstep (i + 1) u hu) hnext hs'
    rw [List.foldlM_cons, hrun]
    exact hrest

theorem Yields.foldlM (P : β → Prop) {step : β × σ → τ → Option (β × σ)} {next : β → τ → β}
    {tasks : List τ} (hstep : ∀ t ∈ tasks, ∀ b, P b →
      P (next b t) ∧ ∀ s, good s → Yields good (step (b, s) t) (next b t))
    {b : β} (hb : P b) {s : σ} (hs : good s) :
    P (tasks.foldl next b) ∧ Yields good (tasks.foldlM step (b, s)) (tasks.foldl next b) :=
  Yields.foldlM_indexed (fun _ => P) (fun _ t ht => hstep t (List.mem_of_getElem? ht)) hb hs

/-- The same rule for a loop whose rounds may end it early. -/
theorem Yields.runAll (P : β → Prop)
    {step : β × σ → τ → Option ((Outcome ε PUnit × β) × σ)} {next : β → τ → Outcome ε PUnit × β}
    {tasks : List τ} (hstep : ∀ t ∈ tasks, ∀ b, P b →
      P (next b t).2 ∧ ∀ s, good s → Yields good (step (b, s) t) (next b t))
    {b : β} (hb : P b) {s : σ} (hs : good s) :
    P (Outcome.runAll next tasks b).2 ∧
      Yields good (runAllOn step tasks (b, s)) (Outcome.runAll next tasks b) := by
  induction tasks generalizing b s with
  | nil => exact ⟨hb, Yields.pure hs _⟩
  | cons t tasks ih =>
    obtain ⟨hnext, hyield⟩ := hstep t List.mem_cons_self b hb
    obtain ⟨s', hrun, hs'⟩ := hyield s hs
    simp only [runAllOn, hrun, Outcome.runAll, Option.bind_some]
    rcases hend : next b t with ⟨result, b'⟩
    rw [hend] at hnext
    cases result with
    | ok _ => exact ih (fun u hu => hstep u (List.mem_cons_of_mem t hu)) hnext hs'
    | err e => exact ⟨hnext, Yields.pure hs' _⟩
    | panic => exact ⟨hnext, Yields.pure hs' _⟩

end ErasureCodec
