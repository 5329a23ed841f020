import Mathlib.Logic.Relation
import Mathlib.Tactic

namespace ErasureCodec

namespace TryForEach

variable {ε σ : Type*}

/-- Where a task of a short-circuiting parallel loop stands. -/
inductive Task where
  | idle
  | running
  /-- The task has failed and told the shared state, but has not returned. -/
  | recorded
  | returned (ok : Bool)
  | skipped
  deriving DecidableEq, Repr

/-- A parallel loop over `count` tasks: the error a task ends with, if any, and
what a failing task does to the shared state. -/
structure Job (ε σ : Type*) where
  count : Nat
  fate : Nat → Option ε
  record : σ → Nat → ε → σ

structure State (σ : Type*) where
  tasks : Nat → Task
  shared : σ

def State.set (s : State σ) (i : Nat) (t : Task) : State σ :=
  { s with tasks := Function.update s.tasks i t }

def initial (shared : σ) : State σ := ⟨fun _ => .idle, shared⟩

/-- One event of some thread. A task that has not started may be skipped from
the moment on that another one has returned an error. -/
inductive Step (J : Job ε σ) : State σ → State σ → Prop where
  | start (s : State σ) (i : Nat) (hi : i < J.count) (h : s.tasks i = .idle) :
      Step J s (s.set i .running)
  | finish (s : State σ) (i : Nat) (hi : i < J.count) (h : s.tasks i = .running)
      (hfate : J.fate i = none) : Step J s (s.set i (.returned true))
  | record (s : State σ) (i : Nat) (e : ε) (hi : i < J.count) (h : s.tasks i = .running)
      (hfate : J.fate i = some e) :
      Step J s { s.set i .recorded with shared := J.record s.shared i e }
  | fail (s : State σ) (i : Nat) (hi : i < J.count) (h : s.tasks i = .recorded) :
      Step J s (s.set i (.returned false))
  | skip (s : State σ) (i j : Nat) (hi : i < J.count) (hj : j < J.count) (h : s.tasks i = .idle)
      (hfailed : s.tasks j = .returned false) : Step J s (s.set i .skipped)

abbrev Reaches (J : Job ε σ) : State σ → State σ → Prop := Relation.ReflTransGen (Step J)

/-- Every task has returned or was skipped. -/
def Complete (J : Job ε σ) (s : State σ) : Prop :=
  ∀ i, i < J.count → (∃ ok, s.tasks i = .returned ok) ∨ s.tasks i = .skipped

/-- Some task returned an error: what the loop itself returns. -/
def Failed (J : Job ε σ) (s : State σ) : Prop := ∃ i, i < J.count ∧ s.tasks i = .returned false

instance (J : Job ε σ) (s : State σ) : Decidable (Failed J s) :=
  inferInstanceAs (Decidable (∃ i, i < J.count ∧ s.tasks i = .returned false))

/-- The shared state after the tasks of `order` have failed in turn. -/
def recordAll (J : Job ε σ) (shared : σ) (order : List Nat) : σ :=
  order.foldl (fun shared i => match J.fate i with
    | some e => J.record shared i e
    | none => shared) shared

variable {J : Job ε σ}

@[simp] theorem State.set_same (s : State σ) (i : Nat) (t : Task) : (s.set i t).tasks i = t := by
  simp [State.set]

theorem State.set_other (s : State σ) {i j : Nat} (t : Task) (h : j ≠ i) :
    (s.set i t).tasks j = s.tasks j := by
  simp [State.set, h]

@[simp] theorem State.set_shared (s : State σ) (i : Nat) (t : Task) :
    (s.set i t).shared = s.shared := rfl

/-- A run, seen from its end: `order` lists the failed tasks as they were recorded. -/
structure Trace (J : Job ε σ) (shared : σ) (order : List Nat) (s : State σ) : Prop where
  nodup : order.Nodup
  mem_iff : ∀ i, i < J.count →
    (i ∈ order ↔ s.tasks i = .recorded ∨ s.tasks i = .returned false)
  lt_count : ∀ i ∈ order, i < J.count
  failing : ∀ i ∈ order, (J.fate i).isSome
  shared_eq : s.shared = recordAll J shared order
  returned_ok : ∀ i, i < J.count → s.tasks i = .returned true → J.fate i = none
  skipped : ∀ i, i < J.count → s.tasks i = .skipped → Failed J s

theorem recordAll_append (J : Job ε σ) (shared : σ) (order : List Nat) {i : Nat} {e : ε}
    (h : J.fate i = some e) :
    recordAll J shared (order ++ [i]) = J.record (recordAll J shared order) i e := by
  unfold recordAll
  rw [List.foldl_append]
  simp [h]

/-- Returned errors stay. -/
theorem failed_set {s : State σ} {i : Nat} {t : Task} (h : Failed J s)
    (hi : s.tasks i ≠ .returned false) : Failed J (s.set i t) := by
  obtain ⟨j, hj, hfailed⟩ := h
  have hne : j ≠ i := by
    rintro rfl
    exact hi hfailed
  exact ⟨j, hj, by rw [s.set_other t hne, hfailed]⟩

/-- An event on task `i` that does not record keeps the trace. -/
theorem Trace.set {shared : σ} {order : List Nat} {s : State σ} (h : Trace J shared order s)
    {i : Nat} (hi : i < J.count) {t : Task} (hold : s.tasks i ≠ .returned false)
    (hmem : t = .recorded ∨ t = .returned false ↔ s.tasks i = .recorded)
    (hok : t = .returned true → J.fate i = none) (hskip : t = .skipped → Failed J s) :
    Trace J shared order (s.set i t) where
  nodup := h.nodup
  mem_iff j hj := by
    by_cases hji : j = i
    · subst hji
      rw [h.mem_iff j hj, s.set_same, hmem]
      exact ⟨fun h => h.resolve_right hold, .inl⟩
    · rw [s.set_other t hji]
      exact h.mem_iff j hj
  lt_count := h.lt_count
  failing := h.failing
  shared_eq := h.shared_eq
  returned_ok j hj hret := by
    by_cases hji : j = i
    · subst hji
      rw [s.set_same] at hret
      exact hok hret
    · rw [s.set_other t hji] at hret
      exact h.returned_ok j hj hret
  skipped j hj hret := by
    apply failed_set _ hold
    by_cases hji : j = i
    · subst hji
      rw [s.set_same] at hret
      exact hskip hret
    · rw [s.set_other t hji] at hret
      exact h.skipped j hj hret

theorem Trace.step {shared : σ} {order : List Nat} {s s' : State σ} (h : Trace J shared order s)
    (hstep : Step J s s') : ∃ order', Trace J shared order' s' := by
  cases hstep with
  | start i hi hidle =>
    exact ⟨order, h.set hi (by simp [hidle]) (by simp [hidle]) (by simp) (by simp)⟩
  | finish i hi hrun hfate =>
    exact ⟨order, h.set hi (by simp [hrun]) (by simp [hrun]) (fun _ => hfate) (by simp)⟩
  | fail i hi hrec =>
    exact ⟨order, h.set hi (by simp [hrec]) (by simp [hrec]) (by simp) (by simp)⟩
  | skip i j hi hj hidle hfailed =>
    exact ⟨order, h.set hi (by simp [hidle]) (by simp [hidle]) (by simp)
      (fun _ => ⟨j, hj, hfailed⟩)⟩
  | record i e hi hrun hfate =>
    have hnew : i ∉ order := by
      rw [h.mem_iff i hi, hrun]
      simp
    refine ⟨order ++ [i], ?_, fun j hj => ?_, ?_, ?_, ?_, fun j hj hret => ?_, fun j hj hret => ?_⟩
    · exact List.nodup_append.mpr ⟨h.nodup, by simp, by
        intro a ha b hb hab
        rw [List.mem_singleton] at hb
        subst hab hb
        exact hnew ha⟩
    · simp only [List.mem_append, List.mem_singleton]
      by_cases hji : j = i
      · subst hji
        simp
      · rw [s.set_other _ hji, ← h.mem_iff j hj]
        simp [hji]
    · intro j hj
      rcases List.mem_append.mp hj with hj | hj
      · exact h.lt_count j hj
      · rwa [List.mem_singleton.mp hj]
    · intro j hj
      rcases List.mem_append.mp hj with hj | hj
      · exact h.failing j hj
      · rw [List.mem_singleton.mp hj, hfate]
        rfl
    · rw [recordAll_append J shared order hfate, ← h.shared_eq]
    · by_cases hji : j = i
      · subst hji
        simp at hret
      · rw [s.set_other _ hji] at hret
        exact h.returned_ok j hj hret
    · have hset : Failed J (s.set i .recorded) := by
        apply failed_set _ (by simp [hrun])
        by_cases hji : j = i
        · subst hji
          simp at hret
        · rw [s.set_other _ hji] at hret
          exact h.skipped j hj hret
      exact hset

theorem trace_of_reaches {shared : σ} {s : State σ} (h : Reaches J (initial shared) s) :
    ∃ order, Trace J shared order s := by
  induction h with
  | refl =>
    refine ⟨[], List.nodup_nil, fun i _ => ?_, ?_, ?_, rfl, fun i _ h => ?_, fun i _ h => ?_⟩
    all_goals simp_all [initial]
  | tail _ hstep ih =>
    obtain ⟨order, horder⟩ := ih
    exact horder.step hstep

/-- The end of a run: the failed tasks in the order they were recorded, at least
one where a task can fail. -/
theorem complete_run {shared : σ} {s : State σ} (h : Reaches J (initial shared) s)
    (hc : Complete J s) : ∃ order : List Nat, order.Nodup ∧
      (∀ i ∈ order, i < J.count ∧ (J.fate i).isSome) ∧ s.shared = recordAll J shared order ∧
      (Failed J s ↔ order ≠ []) ∧ ((∃ i, i < J.count ∧ (J.fate i).isSome) → order ≠ []) := by
  obtain ⟨order, ht⟩ := trace_of_reaches h
  have hfailed : Failed J s ↔ order ≠ [] := by
    constructor
    · rintro ⟨i, hi, hret⟩
      exact List.ne_nil_of_mem ((ht.mem_iff i hi).mpr (.inr hret))
    · intro hne
      obtain ⟨i, hi⟩ := List.exists_mem_of_ne_nil order hne
      have hlt := ht.lt_count i hi
      rcases (ht.mem_iff i hlt).mp hi with hrec | hret
      · rcases hc i hlt with ⟨ok, h'⟩ | h' <;> rw [hrec] at h' <;> simp at h'
      · exact ⟨i, hlt, hret⟩
  refine ⟨order, ht.nodup, fun i hi => ⟨ht.lt_count i hi, ht.failing i hi⟩, ht.shared_eq, hfailed, ?_⟩
  rintro ⟨i, hi, hfate⟩
  rw [← hfailed]
  rcases hc i hi with ⟨ok, hret⟩ | hskip
  · cases ok with
    | false => exact ⟨i, hi, hret⟩
    | true =>
      rw [ht.returned_ok i hi hret] at hfate
      simp at hfate
  · exact ht.skipped i hi hskip

/-- A failing task may be the only one that starts. -/
theorem exists_run_of_fails (shared : σ) {i : Nat} {e : ε} (hi : i < J.count)
    (hfate : J.fate i = some e) : ∃ s, Reaches J (initial shared) s ∧ Complete J s ∧
      Failed J s ∧ s.shared = J.record shared i e := by
  -- the task runs to its end, then the others are skipped one by one
  let s1 := (initial shared).set i .running
  let s2 : State σ := { s1.set i .recorded with shared := J.record shared i e }
  let s3 := s2.set i (.returned false)
  have hrun : Reaches J (initial shared) s3 := by
    refine ((Relation.ReflTransGen.refl.tail (.start (initial shared) i hi rfl)).tail
      (.record s1 i e hi (by simp [s1]) hfate)).tail (.fail s2 i hi ?_)
    simp [s2]
  have hskip (n : Nat) (hn : n ≤ J.count) : ∃ s, Reaches J (initial shared) s ∧
      s.tasks i = .returned false ∧ s.shared = J.record shared i e ∧
      (∀ j, j < n → j ≠ i → s.tasks j = .skipped) ∧ ∀ j, n ≤ j → j ≠ i → s.tasks j = .idle := by
    induction n with
    | zero =>
      refine ⟨s3, hrun, by simp [s3], rfl, fun j hj => by omega, fun j _ hji => ?_⟩
      rw [s2.set_other _ hji]
      exact (s1.set_other _ hji).trans (((initial shared).set_other _ hji).trans rfl)
    | succ n ih =>
      obtain ⟨s, hs, hret, hshared, hlow, hhigh⟩ := ih (by omega)
      by_cases hni : n = i
      · refine ⟨s, hs, hret, hshared, fun j hj hji => hlow j (by omega) hji,
          fun j hj hji => hhigh j (by omega) hji⟩
      · refine ⟨s.set n .skipped, hs.tail (.skip s n i (by omega) hi (hhigh n le_rfl hni) hret),
          ?_, hshared, fun j hj hji => ?_, fun j hj hji => ?_⟩
        · rw [s.set_other _ (Ne.symm hni), hret]
        · by_cases hjn : j = n
          · rw [hjn, s.set_same]
          · rw [s.set_other _ hjn]
            exact hlow j (by omega) hji
        · rw [s.set_other _ (by omega)]
          exact hhigh j (by omega) hji
  obtain ⟨s, hs, hret, hshared, hlow, -⟩ := hskip J.count le_rfl
  refine ⟨s, hs, fun j hj => ?_, ⟨i, hi, hret⟩, hshared⟩
  by_cases hji : j = i
  · exact .inl ⟨false, by rw [hji, hret]⟩
  · exact .inr (hlow j hj hji)

section Pools

/-- A thread pool: for every loop that it is given at some time, a complete run of
it and one of the tasks that failed, whose error the loop returns. -/
structure Pool where
  run : Nat → {ε σ : Type} → Job ε σ → σ → State σ
  reported : Nat → {ε σ : Type} → Job ε σ → σ → Nat
  reaches : ∀ time {ε σ : Type} (J : Job ε σ) (shared : σ),
    Reaches J (initial shared) (run time J shared)
  complete : ∀ time {ε σ : Type} (J : Job ε σ) (shared : σ), Complete J (run time J shared)
  reported_failed : ∀ time {ε σ : Type} (J : Job ε σ) (shared : σ),
    Failed J (run time J shared) → reported time J shared < J.count ∧
      (run time J shared).tasks (reported time J shared) = .returned false

variable {ε α : Type}

/-- The loop over items that each have a task of their own. -/
def itemJob (task : Nat → α → Except ε Unit × α) (items : List α) : Job ε Unit where
  count := items.length
  fate i := (items[i]?).bind fun item =>
    match (task i item).1 with
    | .ok () => none
    | .error e => some e
  record _ _ _ := ()

/-- The items after a run: those whose task was started have been worked on. -/
def itemsAfter {σ : Type} (task : Nat → α → Except ε Unit × α) (s : State σ) (items : List α) :
    List α :=
  items.mapIdx fun i item =>
    match s.tasks i with
    | .returned _ => (task i item).2
    | _ => item

/-- The parallel loop: an error of a failed task, and the items it leaves. -/
def Pool.forEach (pool : Pool) (time : Nat) (task : Nat → α → Except ε Unit × α)
    (items : List α) : Except ε Unit × List α :=
  let J := itemJob task items
  let s := pool.run time J ()
  (if Failed J s then
      match J.fate (pool.reported time J ()) with
      | some e => .error e
      | none => .ok ()
    else .ok (), itemsAfter task s items)

/-- The serial loop: it ends at the first task that fails. -/
def forEach (task : Nat → α → Except ε Unit × α) (index : Nat) :
    List α → Except ε Unit × List α
  | [] => (.ok (), [])
  | item :: items =>
    match task index item with
    | (.ok (), item) =>
      let (result, items) := forEach task (index + 1) items
      (result, item :: items)
    | (.error e, item) => (.error e, item :: items)

theorem forEach_eq {task : Nat → α → Except ε Unit × α} (items : List α) (index : Nat)
    (h : ∀ i item, items[i]? = some item → (task (index + i) item).1 = .ok ()) :
    forEach task index items =
      (.ok (), items.mapIdx fun i item => (task (index + i) item).2) := by
  induction items generalizing index with
  | nil => rfl
  | cons item items ih =>
    have hhead := h 0 item rfl
    rw [Nat.add_zero] at hhead
    have hrest := ih (index + 1) (fun i item' hi => by
      have := h (i + 1) item' (by simpa using hi)
      rwa [show index + (i + 1) = index + 1 + i by omega] at this)
    rcases htask : task index item with ⟨result, item'⟩
    rw [htask] at hhead
    simp only at hhead
    subst hhead
    simp only [forEach, htask, hrest, List.mapIdx_cons, Nat.add_zero]
    congr 3
    funext i a
    rw [show index + 1 + i = index + (i + 1) by omega]

/-- A loop none of whose tasks fails runs all of them. -/
theorem complete_of_no_fate {σ : Type} {J : Job ε σ} {shared : σ} {s : State σ}
    (h : Reaches J (initial shared) s) (hc : Complete J s)
    (hfate : ∀ i, i < J.count → J.fate i = none) :
    ¬Failed J s ∧ s.shared = shared ∧ ∀ i, i < J.count → s.tasks i = .returned true := by
  obtain ⟨order, ht⟩ := trace_of_reaches h
  have hnil : order = [] := by
    by_contra hne
    obtain ⟨i, hi⟩ := List.exists_mem_of_ne_nil order hne
    have hsome := ht.failing i hi
    rw [hfate i (ht.lt_count i hi)] at hsome
    simp at hsome
  have hfailed : ¬Failed J s := by
    rintro ⟨i, hi, hret⟩
    have := (ht.mem_iff i hi).mpr (.inr hret)
    rw [hnil] at this
    simp at this
  refine ⟨hfailed, by rw [ht.shared_eq, hnil]; rfl, fun i hi => ?_⟩
  rcases hc i hi with ⟨ok, hret⟩ | hskip
  · cases ok with
    | false => exact absurd ⟨i, hi, hret⟩ hfailed
    | true => exact hret
  · exact absurd (ht.skipped i hi hskip) hfailed

/-- With tasks that succeed, every schedule does what the serial loop does. -/
theorem Pool.forEach_eq (pool : Pool) (time : Nat) {task : Nat → α → Except ε Unit × α}
    (items : List α) (h : ∀ i item, items[i]? = some item → (task i item).1 = .ok ()) :
    pool.forEach time task items = (.ok (), items.mapIdx fun i item => (task i item).2) := by
  obtain ⟨hfailed, -, hall⟩ := complete_of_no_fate (pool.reaches time (itemJob task items) ())
    (pool.complete time (itemJob task items) ()) (fun i hi => by
      have hlt : i < items.length := hi
      have hget : items[i]? = some items[i] := List.getElem?_eq_getElem hlt
      simp [itemJob, hget, h i _ hget])
  unfold Pool.forEach
  simp only
  rw [if_neg hfailed]
  congr 1
  refine List.ext_getElem (by simp [itemsAfter]) (fun i h1 h2 => ?_)
  have hi : i < items.length := by simpa [itemsAfter] using h1
  simp [itemsAfter, hall i hi]

/-- The serial loop returns the error of a task unless all succeed. -/
theorem forEach_ok_or_error (task : Nat → α → Except ε Unit × α) (items : List α) (index : Nat) :
    (∀ i item, items[i]? = some item → (task (index + i) item).1 = .ok ()) ∨
      ∃ e i item, items[i]? = some item ∧ (task (index + i) item).1 = .error e ∧
        (forEach task index items).1 = .error e := by
  induction items generalizing index with
  | nil => exact .inl (fun i item hi => by simp at hi)
  | cons item items ih =>
    rcases htask : task index item with ⟨e | u, item'⟩
    · refine .inr ⟨e, 0, item, rfl, by rw [Nat.add_zero, htask], ?_⟩
      simp only [forEach, htask]
    · rcases ih (index + 1) with hok | ⟨e, i, item₁, hi, herr, hrun⟩
      · left
        intro i item₁ hi
        cases i with
        | zero =>
          obtain rfl : item = item₁ := by simpa using hi
          rw [Nat.add_zero, htask]
        | succ i =>
          have := hok i item₁ (by simpa using hi)
          rwa [show index + 1 + i = index + (i + 1) by omega] at this
      · refine .inr ⟨e, i + 1, item₁, by simpa using hi, ?_, ?_⟩
        · rwa [show index + (i + 1) = index + 1 + i by omega]
        · simp only [forEach, htask, hrun]

/-- So does every schedule of the parallel loop. -/
theorem Pool.forEach_ok_or_error (pool : Pool) (time : Nat) (task : Nat → α → Except ε Unit × α)
    (items : List α) :
    (∀ i item, items[i]? = some item → (task i item).1 = .ok ()) ∨
      ∃ e i item, items[i]? = some item ∧ (task i item).1 = .error e ∧
        (pool.forEach time task items).1 = .error e := by
  have hfate (i : Nat) (item : α) (hi : items[i]? = some item) (e : ε)
      (h : (task i item).1 = .error e) : (itemJob task items).fate i = some e := by
    simp [itemJob, hi, h]
  obtain ⟨order, ht⟩ := trace_of_reaches (pool.reaches time (itemJob task items) ())
  by_cases hfailed : Failed (itemJob task items) (pool.run time (itemJob task items) ())
  · right
    obtain ⟨hlt, hret⟩ := pool.reported_failed time (itemJob task items) () hfailed
    set i := pool.reported time (itemJob task items) () with hi
    have hget : items[i]? = some items[i] := List.getElem?_eq_getElem hlt
    have hsome := ht.failing i ((ht.mem_iff i hlt).mpr (.inr hret))
    rcases htask : task i items[i] with ⟨e | u, item'⟩
    · have hreported := hfate i items[i] hget e (by rw [htask])
      refine ⟨e, i, items[i], hget, by rw [htask], ?_⟩
      simp only [Pool.forEach, if_pos hfailed, ← hi, hreported]
    · simp [itemJob, hget, htask] at hsome
  · left
    intro i item hi
    obtain ⟨hlt, -⟩ := List.getElem?_eq_some_iff.mp hi
    have hnone : (itemJob task items).fate i = none := by
      rcases pool.complete time (itemJob task items) () i hlt with ⟨ok, hret⟩ | hskip
      · cases ok with
        | false => exact absurd ⟨i, hlt, hret⟩ hfailed
        | true => exact ht.returned_ok i hlt hret
      · exact absurd (ht.skipped i hlt hskip) hfailed
    rcases htask : task i item with ⟨e | u, item'⟩
    · rw [hfate i item hi e (by rw [htask])] at hnone
      cases hnone
    · rfl

/-- Task `i` from its start to its end. -/
def runTask {σ : Type} (J : Job ε σ) (s : State σ) (i : Nat) : State σ :=
  match J.fate i with
  | none => s.set i (.returned true)
  | some e => { s.set i (.returned false) with shared := J.record s.shared i e }

@[simp] theorem State.set_set {σ : Type} (s : State σ) (i : Nat) (t t' : Task) :
    (s.set i t).set i t' = s.set i t' := by
  simp [State.set]

theorem reaches_runTask {σ : Type} {J : Job ε σ} {s : State σ} {i : Nat} (hi : i < J.count)
    (hidle : s.tasks i = .idle) : Reaches J s (runTask J s i) := by
  have hstart : Step J s (s.set i .running) := .start s i hi hidle
  unfold runTask
  cases hfate : J.fate i with
  | none =>
    have hfinish := Step.finish (s.set i .running) i hi (s.set_same i _) hfate
    rw [State.set_set] at hfinish
    exact (Relation.ReflTransGen.single hstart).tail hfinish
  | some e =>
    have hrecord := Step.record (s.set i .running) i e hi (s.set_same i _) hfate
    have hfail := Step.fail (J := J)
      { (s.set i .running).set i .recorded with shared := J.record (s.set i .running).shared i e }
      i hi (((s.set i .running).set_same i .recorded))
    refine ((Relation.ReflTransGen.single hstart).tail hrecord).tail ?_
    convert hfail using 1
    simp [State.set]

theorem foldl_runTask {σ : Type} (J : Job ε σ) (shared : σ) (n : Nat) (hn : n ≤ J.count) :
    let s := (List.range n).foldl (runTask J) (initial shared)
    Reaches J (initial shared) s ∧ (∀ i, i < n → s.tasks i = .returned (J.fate i).isNone) ∧
      ∀ i, n ≤ i → s.tasks i = .idle := by
  induction n with
  | zero => exact ⟨.refl, fun i hi => absurd hi (Nat.not_lt_zero i), fun i _ => rfl⟩
  | succ n ih =>
    obtain ⟨hreach, hdone, hidle⟩ := ih (by omega)
    rw [List.range_succ, List.foldl_append]
    simp only [List.foldl_cons, List.foldl_nil]
    set s := (List.range n).foldl (runTask J) (initial shared)
    have htasks (i : Nat) : (runTask J s n).tasks i =
        if i = n then .returned (J.fate n).isNone else s.tasks i := by
      unfold runTask
      cases J.fate n <;> by_cases hin : i = n <;> simp [State.set, hin]
    refine ⟨hreach.trans (reaches_runTask (by omega) (hidle n le_rfl)), fun i hi => ?_,
      fun i hi => ?_⟩
    · rw [htasks]
      by_cases hin : i = n
      · rw [if_pos hin, hin]
      · rw [if_neg hin, hdone i (by omega)]
    · rw [htasks, if_neg (by omega), hidle i (by omega)]

/-- One thread that takes the tasks in their order. -/
def Pool.sequential : Pool where
  run _ _ _ J shared := (List.range J.count).foldl (runTask J) (initial shared)
  reported _ _ _ J _ := ((List.range J.count).find? fun i => (J.fate i).isSome).getD 0
  reaches _ _ _ J shared := (foldl_runTask J shared J.count le_rfl).1
  complete _ _ _ J shared i hi := .inl ⟨_, (foldl_runTask J shared J.count le_rfl).2.1 i hi⟩
  reported_failed _ _ _ J shared hfailed := by
    have hdone := (foldl_runTask J shared J.count le_rfl).2.1
    obtain ⟨i, hi, hret⟩ := hfailed
    rw [hdone i hi] at hret
    have hsome : (J.fate i).isSome = true := by
      simpa [Option.isNone_eq_false_iff] using hret
    cases hfind : (List.range J.count).find? (fun i => (J.fate i).isSome) with
    | none =>
      have := List.find?_eq_none.mp hfind i (List.mem_range.mpr hi)
      exact absurd hsome this
    | some j =>
      have hj := List.mem_range.mp (List.mem_of_find?_eq_some hfind)
      have hjsome := List.find?_some hfind
      simp only [Option.getD_some]
      refine ⟨hj, ?_⟩
      rw [hdone j hj]
      cases hfate : J.fate j with
      | none => simp [hfate] at hjsome
      | some e => rfl

end Pools

end TryForEach

end ErasureCodec
