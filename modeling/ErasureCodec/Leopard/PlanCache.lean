import ErasureCodec.Framework.ChargedLru
import ErasureCodec.Codec.InversionCache

namespace ErasureCodec

/-- The shard counts and the presence map that a decode plan was built for. -/
structure DecodePlanKey where
  dataShards : Nat
  parityShards : Nat
  present : List Bool
  deriving Repr, DecidableEq

/-- Shared decode plans with their charges, under the container `lru`. -/
abbrev DecodePlanCache {P : Type} (lru : LruMap DecodePlanKey (P × Nat)) := ChargedLru lru

namespace DecodePlanCache

variable {P : Type} {lru : LruMap DecodePlanKey (P × Nat)}

def decodePlanCacheEntries : Nat := 16

def new (lru : LruMap DecodePlanKey (P × Nat)) (maxBytes : Nat) : DecodePlanCache lru :=
  ChargedLru.new lru decodePlanCacheEntries maxBytes

def get (key : DecodePlanKey) (cache : DecodePlanCache lru) : Option P × DecodePlanCache lru :=
  let (entry, cache) := ChargedLru.get key cache
  (entry.map Prod.fst, cache)

/-- What a caller's key and plan take up in memory. `keySize` is the size of the key value;
the presence map may have spilled to the heap. -/
structure PlanMemory where
  keySize : Nat
  spilled : Bool
  presentCapacity : Nat
  planBytes : Nat

def PlanMemory.keyBytes (memory : PlanMemory) : Nat :=
  memory.keySize + if memory.spilled then memory.presentCapacity else 0

/-- Another caller may have completed the same plan meanwhile: its entry is reused. A plan
that does not fit the budget is handed back without being kept. -/
def insert (memory : PlanMemory) (key : DecodePlanKey) (plan : P) (cache : DecodePlanCache lru) :
    Outcome Error (P × DecodePlanCache lru) :=
  match get key cache with
  | (some existing, cache) => .ok (existing, cache)
  | (none, cache) =>
    match checked (memory.planBytes + memory.keyBytes) with
    | none => .ok (plan, cache)
    | some bytes =>
      if bytes > cache.maxBytes then .ok (plan, cache)
      else do
        let (cache, _) ← cache.place Prod.snd key (plan, bytes)
        pure (plan, cache)

inductive Op (P : Type) where
  | get (key : DecodePlanKey)
  | insert (memory : PlanMemory) (key : DecodePlanKey) (plan : P)

def step (cache : DecodePlanCache lru) : Op P → Outcome Error (DecodePlanCache lru)
  | .get key => .ok (get key cache).2
  | .insert memory key plan => do
    let (_, cache) ← insert memory key plan cache
    pure cache

section Spec

variable {cache : DecodePlanCache lru}

/-- An insertion reuses the entry of its key, turns an oversized plan away, or keeps the plan
behind the shortest run of evictions. -/
inductive Insertion (cache : DecodePlanCache lru) (memory : PlanMemory) (key : DecodePlanKey)
    (plan : P) : P × DecodePlanCache lru → Prop
  | reused (entry : P × Nat) (h : LruMap.find key cache.listed = some entry) :
      Insertion cache memory key plan (entry.1, (ChargedLru.get key cache).2)
  | rejected (h : LruMap.find key cache.listed = none)
      (hbytes : ∀ bytes, checked (memory.planBytes + memory.keyBytes) = some bytes →
        cache.maxBytes < bytes) :
      Insertion cache memory key plan (plan, cache)
  | kept (h : LruMap.find key cache.listed = none) (bytes n : Nat)
      (hbytes : checked (memory.planBytes + memory.keyBytes) = some bytes)
      (hfits : bytes ≤ cache.maxBytes) (cache' : DecodePlanCache lru)
      (hinserted : cache.Inserted Prod.snd key (plan, bytes) cache' n) :
      Insertion cache memory key plan (plan, cache')

theorem insert_spec (hlru : lru.Ordered) (h : cache.Accounted Prod.snd)
    (hcap : 0 < cache.capacity) (memory : PlanMemory) (key : DecodePlanKey) (plan : P) :
    ∃ result, insert memory key plan cache = .ok result ∧
      Insertion cache memory key plan result ∧ result.2.Accounted Prod.snd ∧
      cache.SameBounds result.2 := by
  obtain ⟨hvalue, _⟩ := ChargedLru.listed_get hlru key cache
  obtain ⟨hacc, hbounds⟩ := ChargedLru.accounted_get hlru.toLawful h key
  cases hfind : LruMap.find key cache.listed with
  | some entry =>
    rw [hfind] at hvalue
    refine ⟨(entry.1, (ChargedLru.get key cache).2), ?_, .reused entry hfind, hacc, hbounds⟩
    simp only [insert, get, hvalue, Option.map_some]
  | none =>
    rw [hfind] at hvalue
    have hsame : (ChargedLru.get key cache).2 = cache := by
      rw [ChargedLru.get, hlru.get_absent key cache.entries hfind]
    have hmiss : get key cache = (none, cache) := by
      simp only [get, hvalue, hsame, Option.map_none]
    cases hchecked : checked (memory.planBytes + memory.keyBytes) with
    | none =>
      refine ⟨(plan, cache), ?_, .rejected hfind (fun bytes hb => ?_), h, rfl, rfl⟩
      · simp only [insert, hmiss, hchecked]
      · rw [hchecked] at hb
        cases hb
    | some bytes =>
      by_cases hbig : bytes > cache.maxBytes
      · refine ⟨(plan, cache), ?_, .rejected hfind (fun bytes' hb => ?_), h, rfl, rfl⟩
        · simp only [insert, hmiss, hchecked, if_pos hbig]
        · rw [hchecked] at hb
          rwa [← Option.some.inj hb]
      · have hfits : bytes ≤ cache.maxBytes := not_lt.mp hbig
        obtain ⟨cache', n, hplace, hinserted, hacc', hbounds'⟩ :=
          ChargedLru.place_new_spec (ε := Error) hlru.toLawful h hfind
            (show Prod.snd (plan, bytes) ≤ cache.maxBytes from hfits) hcap
        refine ⟨(plan, cache'), ?_, .kept hfind bytes n hchecked hfits cache' hinserted, hacc',
          hbounds'⟩
        simp only [insert, hmiss, hchecked, if_neg hbig, hplace, Outcome.ok_bind,
          Outcome.pure_eq]

theorem step_spec (hlru : lru.Ordered) (h : cache.Accounted Prod.snd) (hcap : 0 < cache.capacity)
    (op : Op P) :
    ∃ cache', step cache op = .ok cache' ∧ cache'.Accounted Prod.snd ∧ cache.SameBounds cache' := by
  cases op with
  | get key =>
    obtain ⟨hacc, hbounds⟩ := ChargedLru.accounted_get hlru.toLawful h key
    exact ⟨_, rfl, hacc, hbounds⟩
  | insert memory key plan =>
    obtain ⟨result, hrun, _, hacc, hbounds⟩ := insert_spec hlru h hcap memory key plan
    refine ⟨result.2, ?_, hacc, hbounds⟩
    simp only [step, hrun, Outcome.ok_bind, Outcome.pure_eq]

/-- Every history of a cache runs to its end with good books. -/
theorem run_spec (hlru : lru.Ordered) (h : cache.Accounted Prod.snd) (hcap : 0 < cache.capacity)
    (ops : List (Op P)) :
    ∃ cache', ops.foldlM step cache = .ok cache' ∧ cache'.Accounted Prod.snd ∧
      cache.SameBounds cache' := by
  induction ops generalizing cache with
  | nil => exact ⟨cache, rfl, h, rfl, rfl⟩
  | cons op ops ih =>
    obtain ⟨next, hstep, hacc, hbounds⟩ := step_spec hlru h hcap op
    obtain ⟨last, hrun, hacc', hbounds'⟩ := ih hacc (hbounds.capacity_eq ▸ hcap)
    refine ⟨last, ?_, hacc', hbounds.trans hbounds'⟩
    rw [List.foldlM_cons, hstep, Outcome.ok_bind, hrun]

end Spec

section Entries

variable {Q : DecodePlanKey → P → Prop} {cache : DecodePlanCache lru}

/-- Good books, and plans that are right for their keys. -/
structure Ok (Q : DecodePlanKey → P → Prop) (cache : DecodePlanCache lru) : Prop where
  accounted : cache.Accounted Prod.snd
  capacity_pos : 0 < cache.capacity
  entries : ∀ entry ∈ cache.listed, Q entry.1 entry.2.1

theorem ok_new (hlaw : lru.Lawful) (Q : DecodePlanKey → P → Prop) (maxBytes : Nat) :
    (new lru maxBytes).Ok Q := by
  constructor
  · exact ChargedLru.accounted_new hlaw decodePlanCacheEntries maxBytes
  · have hcap : (new lru maxBytes).capacity = decodePlanCacheEntries := hlaw.capacity_new _
    rw [hcap]
    decide
  · intro entry hentry
    have hlisted : (new lru maxBytes).listed = [] := hlaw.entries_new _
    rw [hlisted] at hentry
    cases hentry

/-- A hit is right for its key. -/
theorem Ok.get (hlru : lru.Ordered) (h : cache.Ok Q) (key : DecodePlanKey) :
    (∀ plan, (get key cache).1 = some plan → Q key plan) ∧ (get key cache).2.Ok Q := by
  obtain ⟨hvalue, hlisted⟩ := ChargedLru.listed_get hlru key cache
  obtain ⟨hacc, hbounds⟩ := ChargedLru.accounted_get hlru.toLawful h.accounted key
  have hfound (entry : P × Nat) (hfind : LruMap.find key cache.listed = some entry) :
      Q key entry.1 := h.entries (key, entry) (LruMap.find_eq_some hfind)
  constructor
  · intro plan hplan
    simp only [DecodePlanCache.get, hvalue] at hplan
    obtain ⟨entry, hfind, rfl⟩ := Option.map_eq_some_iff.mp hplan
    exact hfound entry hfind
  · refine ⟨hacc, hbounds.capacity_eq ▸ h.capacity_pos, fun entry hentry => ?_⟩
    have hentry : entry ∈ (ChargedLru.get key cache).2.listed := hentry
    rw [hlisted] at hentry
    cases hfind : LruMap.find key cache.listed with
    | none =>
      rw [hfind] at hentry
      exact h.entries entry hentry
    | some found =>
      simp only [hfind, List.mem_append, List.mem_singleton] at hentry
      cases hentry with
      | inl hold => exact h.entries entry (List.mem_filter.mp hold).1
      | inr hnew =>
        rw [hnew]
        exact hfound found hfind

/-- An insertion hands out a plan that is right for its key. -/
theorem Ok.insert (hlru : lru.Ordered) (h : cache.Ok Q) (memory : PlanMemory)
    {key : DecodePlanKey} {plan : P} (hplan : Q key plan) :
    ∃ plan' cache', insert memory key plan cache = .ok (plan', cache') ∧ Q key plan' ∧
      cache'.Ok Q := by
  obtain ⟨⟨plan', cache'⟩, hrun, hinsertion, hacc, hbounds⟩ :=
    insert_spec hlru h.accounted h.capacity_pos memory key plan
  have hcap : 0 < cache'.capacity := hbounds.capacity_eq ▸ h.capacity_pos
  refine ⟨plan', cache', hrun, ?_⟩
  cases hinsertion with
  | reused entry hfind =>
    exact ⟨h.entries (key, entry) (LruMap.find_eq_some hfind), (h.get hlru key).2⟩
  | rejected hfind hbytes => exact ⟨hplan, h⟩
  | kept hfind bytes n hbytes hfits _ hinserted =>
    refine ⟨hplan, hacc, hcap, fun entry hentry => ?_⟩
    rw [hinserted.listed_eq, List.mem_append, List.mem_singleton] at hentry
    cases hentry with
    | inl hold => exact h.entries entry (List.mem_filter.mp (List.mem_of_mem_drop hold)).1
    | inr hnew =>
      rw [hnew]
      exact hplan

end Entries

end DecodePlanCache

end ErasureCodec
