import Mathlib.Tactic

namespace ErasureCodec

universe u

structure CacheEntry (K T : Type u) where
  key : K
  value : T
  bytes : Nat

/-- Two owned resources, most recently returned first, with one heap budget. -/
structure TwoEntryCache (K T : Type u) where
  first : Option (CacheEntry K T)
  second : Option (CacheEntry K T)
  maxBytes : Nat

namespace TwoEntryCache

variable {K T : Type u} [DecidableEq K]

omit [DecidableEq K] in
def new (maxBytes : Nat) : TwoEntryCache K T := ⟨none, none, maxBytes⟩

def matchesKey (key : K) (entry : Option (CacheEntry K T)) : Bool :=
  match entry with
  | some e => e.key = key
  | none => false

/-- A resource leaves the cache while it is used. -/
def take (key : K) (cache : TwoEntryCache K T) : Option T × TwoEntryCache K T :=
  if matchesKey key cache.first then
    (cache.first.map CacheEntry.value, { cache with first := none })
  else if matchesKey key cache.second then
    (cache.second.map CacheEntry.value, { cache with second := none })
  else (none, cache)

/-- The newest other entry that fits the rest of the budget stays. -/
def insert (key : K) (value : T) (bytes : Nat) (cache : TwoEntryCache K T) : TwoEntryCache K T :=
  if bytes > cache.maxBytes then cache
  else
    let previous := cache.first.toList ++ cache.second.toList
    let retained := previous.find? fun entry =>
      entry.key ≠ key ∧ entry.bytes ≤ cache.maxBytes - bytes
    { cache with first := some ⟨key, value, bytes⟩, second := retained }

omit [DecidableEq K] in
/-- What every retained resource satisfies under its key. -/
def All (P : K → T → Prop) (cache : TwoEntryCache K T) : Prop :=
  ∀ e, cache.first = some e ∨ cache.second = some e → P e.key e.value

variable {P : K → T → Prop} {cache : TwoEntryCache K T}

omit [DecidableEq K] in
theorem all_new (maxBytes : Nat) : (new maxBytes : TwoEntryCache K T).All P := by
  rintro e (h | h) <;> cases h

theorem all_take (h : cache.All P) (key : K) :
    (∀ v, (cache.take key).1 = some v → P key v) ∧ (cache.take key).2.All P := by
  have hkey (entry : Option (CacheEntry K T)) (hm : matchesKey key entry = true) {v : T}
      (hv : entry.map CacheEntry.value = some v) : ∃ e, entry = some e ∧ e.key = key ∧ e.value = v := by
    cases entry with
    | none => cases hv
    | some e =>
      simp only [matchesKey, decide_eq_true_eq] at hm
      exact ⟨e, rfl, hm, Option.some.inj hv⟩
  unfold take
  split_ifs with h1 h2
  · refine ⟨fun v hv => ?_, ?_⟩
    · obtain ⟨e, he, rfl, rfl⟩ := hkey _ h1 hv
      exact h e (.inl he)
    · rintro e (he | he)
      · cases he
      · exact h e (.inr he)
  · refine ⟨fun v hv => ?_, ?_⟩
    · obtain ⟨e, he, rfl, rfl⟩ := hkey _ h2 hv
      exact h e (.inr he)
    · rintro e (he | he)
      · exact h e (.inl he)
      · cases he
  · exact ⟨fun v hv => absurd hv (by simp), h⟩

theorem all_insert (h : cache.All P) {key : K} {value : T} (hv : P key value) (bytes : Nat) :
    (cache.insert key value bytes).All P := by
  unfold insert
  split_ifs
  · exact h
  · rintro e (he | he)
    · obtain rfl : _ = e := Option.some.inj he
      exact hv
    · have hmem := List.mem_of_find?_eq_some he
      rw [List.mem_append, Option.mem_toList, Option.mem_toList] at hmem
      exact h e hmem

section History

omit [DecidableEq K] in
/-- What the cache holds, most recently returned first. -/
def listed (cache : TwoEntryCache K T) : List (CacheEntry K T) :=
  cache.first.toList ++ cache.second.toList

def pairs (entries : List (CacheEntry K T)) : List (K × T) := entries.map fun e => (e.key, e.value)

/-- The heap budget covers what is held, and no key is held twice. -/
structure Bounded (cache : TwoEntryCache K T) : Prop where
  charges_le : (cache.listed.map CacheEntry.bytes).sum ≤ cache.maxBytes
  nodup : (cache.listed.map CacheEntry.key).Nodup

inductive Op (K T : Type u) where
  | take (key : K)
  | insert (key : K) (value : T) (bytes : Nat)

/-- What an operation hands out. -/
def Op.taken (cache : TwoEntryCache K T) : Op K T → List (K × T)
  | take key => ((cache.take key).1.map fun value => (key, value)).toList
  | insert .. => []

def Op.inserted : Op K T → List (K × T)
  | take _ => []
  | insert key value _ => [(key, value)]

def step (cache : TwoEntryCache K T) : Op K T → TwoEntryCache K T
  | .take key => (cache.take key).2
  | .insert key value bytes => cache.insert key value bytes

/-- A history: what it handed out, and the cache it leaves. -/
def run (cache : TwoEntryCache K T) : List (Op K T) → List (K × T) × TwoEntryCache K T
  | [] => ([], cache)
  | op :: ops =>
    let (taken, last) := run (cache.step op) ops
    (op.taken cache ++ taken, last)

omit [DecidableEq K] in
theorem length_listed_le (cache : TwoEntryCache K T) : cache.listed.length ≤ 2 := by
  have hfirst := cache.first.length_toList_le
  have hsecond := cache.second.length_toList_le
  rw [listed, List.length_append]
  omega

omit [DecidableEq K] in
theorem bounded_new (maxBytes : Nat) : (new maxBytes : TwoEntryCache K T).Bounded :=
  ⟨Nat.zero_le _, List.nodup_nil⟩

omit [DecidableEq K] in
theorem Bounded.sublist {cache cache' : TwoEntryCache K T} (h : cache.Bounded)
    (hlisted : cache'.listed.Sublist cache.listed) (hmax : cache'.maxBytes = cache.maxBytes) :
    cache'.Bounded := by
  constructor
  · rw [hmax]
    exact ((hlisted.map _).sum_le_sum (fun _ _ => Nat.zero_le _)).trans h.charges_le
  · exact h.nodup.sublist (hlisted.map _)

omit [DecidableEq K] in
theorem mem_listed {cache : TwoEntryCache K T} {e : CacheEntry K T} :
    e ∈ cache.listed ↔ cache.first = some e ∨ cache.second = some e := by
  rw [listed, List.mem_append, Option.mem_toList, Option.mem_toList]

theorem matchesKey_eq_false {key : K} {entry : Option (CacheEntry K T)}
    (h : ¬matchesKey key entry = true) {e : CacheEntry K T} (he : entry = some e) :
    e.key ≠ key := by
  subst he
  simpa [matchesKey] using h

theorem exists_of_matchesKey {key : K} {entry : Option (CacheEntry K T)}
    (h : matchesKey key entry = true) : ∃ e, entry = some e ∧ e.key = key := by
  cases entry with
  | none => cases h
  | some e => exact ⟨e, rfl, by simpa [matchesKey] using h⟩

/-- A hit hands out one entry and keeps the others; a miss changes nothing. -/
theorem take_cases (cache : TwoEntryCache K T) (key : K) :
    (∃ e, e.key = key ∧ (cache.take key).1 = some e.value ∧
        cache.listed.Perm (e :: (cache.take key).2.listed)) ∨
      ((cache.take key).1 = none ∧ (cache.take key).2 = cache ∧
        ∀ e ∈ cache.listed, e.key ≠ key) := by
  rw [take]
  split_ifs with h1 h2
  · obtain ⟨e, he, hkey⟩ := exists_of_matchesKey h1
    refine .inl ⟨e, hkey, by rw [he]; rfl, ?_⟩
    rw [listed, he]
    exact List.Perm.refl _
  · obtain ⟨e, he, hkey⟩ := exists_of_matchesKey h2
    refine .inl ⟨e, hkey, by rw [he]; rfl, ?_⟩
    rw [listed, he, listed, Option.toList_none, List.append_nil]
    exact List.perm_append_singleton _ _
  · refine .inr ⟨rfl, rfl, fun e he => ?_⟩
    rcases mem_listed.mp he with he | he
    · exact matchesKey_eq_false h1 he
    · exact matchesKey_eq_false h2 he

theorem bounded_take {cache : TwoEntryCache K T} (h : cache.Bounded) (key : K) :
    (cache.take key).2.Bounded ∧ (cache.take key).2.maxBytes = cache.maxBytes ∧
      ∀ e ∈ (cache.take key).2.listed, e.key ≠ key := by
  have hmax : (cache.take key).2.maxBytes = cache.maxBytes := by
    rw [take]
    split_ifs <;> rfl
  obtain ⟨e, hkey, _, hperm⟩ | ⟨_, hsame, hmiss⟩ := cache.take_cases key
  · have hsum := (hperm.map CacheEntry.bytes).sum_eq
    have hle := h.charges_le
    have hnodup := (hperm.map CacheEntry.key).nodup_iff.mp h.nodup
    rw [List.map_cons, List.sum_cons] at hsum
    rw [List.map_cons, List.nodup_cons] at hnodup
    refine ⟨⟨by rw [hmax]; omega, hnodup.2⟩, hmax, fun e' he' hkey' => hnodup.1 ?_⟩
    have hsame : e.key = e'.key := hkey.trans hkey'.symm
    rw [hsame]
    exact List.mem_map_of_mem he'
  · rw [hsame]
    exact ⟨h, rfl, hmiss⟩

/-- An insertion keeps at most one other entry, with another key and within the budget. -/
theorem insert_cases (cache : TwoEntryCache K T) (key : K) (value : T) (bytes : Nat) :
    (cache.maxBytes < bytes ∧ cache.insert key value bytes = cache) ∨
      (bytes ≤ cache.maxBytes ∧ (cache.insert key value bytes).maxBytes = cache.maxBytes ∧
        ∃ retained : Option (CacheEntry K T),
          (cache.insert key value bytes).listed = ⟨key, value, bytes⟩ :: retained.toList ∧
          ∀ e, retained = some e →
            e ∈ cache.listed ∧ e.key ≠ key ∧ e.bytes ≤ cache.maxBytes - bytes) := by
  rw [insert]
  split_ifs with hbig
  · exact .inl ⟨hbig, rfl⟩
  · refine .inr ⟨not_lt.mp hbig, rfl, _, rfl, fun e he => ⟨List.mem_of_find?_eq_some he, ?_⟩⟩
    simpa using List.find?_some he

theorem bounded_insert {cache : TwoEntryCache K T} (h : cache.Bounded) (key : K) (value : T)
    (bytes : Nat) : (cache.insert key value bytes).Bounded ∧
      (cache.insert key value bytes).maxBytes = cache.maxBytes := by
  obtain ⟨_, hsame⟩ | ⟨hle, hmax, retained, hlisted, hretained⟩ :=
    cache.insert_cases key value bytes
  · rw [hsame]
    exact ⟨h, rfl⟩
  · refine ⟨?_, hmax⟩
    cases retained with
    | none =>
      constructor
      · rw [hlisted, hmax]
        simpa using hle
      · rw [hlisted]
        exact List.nodup_singleton key
    | some e =>
      obtain ⟨_, hkey, hbytes⟩ := hretained e rfl
      constructor
      · rw [hlisted, hmax]
        simp only [Option.toList_some, List.map_cons, List.map_nil, List.sum_cons, List.sum_nil]
        omega
      · rw [hlisted]
        simpa using hkey.symm

theorem bounded_step {cache : TwoEntryCache K T} (h : cache.Bounded) (op : Op K T) :
    (cache.step op).Bounded ∧ (cache.step op).maxBytes = cache.maxBytes := by
  cases op with
  | take key =>
    obtain ⟨hb, hmax, _⟩ := bounded_take h key
    exact ⟨hb, hmax⟩
  | insert key value bytes => exact bounded_insert h key value bytes

/-- What a step hands out and what it leaves was there before or came in. -/
theorem subperm_step (cache : TwoEntryCache K T) (op : Op K T) :
    List.Subperm (op.taken cache ++ pairs (cache.step op).listed)
      (pairs cache.listed ++ op.inserted) := by
  cases op with
  | take key =>
    rw [Op.inserted, List.append_nil]
    obtain ⟨e, rfl, hvalue, hperm⟩ | ⟨hnone, hsame, _⟩ := cache.take_cases key
    · have hperm := (hperm.map fun e => (e.key, e.value)).symm.subperm
      rw [Op.taken, hvalue]
      exact hperm
    · rw [Op.taken, hnone, step, hsame]
      exact List.Subperm.refl _
  | insert key value bytes =>
    obtain ⟨_, hsame⟩ | ⟨_, _, retained, hlisted, hretained⟩ :=
      cache.insert_cases key value bytes
    · rw [step, hsame]
      exact (List.sublist_append_left _ _).subperm
    · have hkept : List.Subperm (pairs retained.toList) (pairs cache.listed) := by
        cases retained with
        | none => exact List.nil_subperm
        | some e => exact List.singleton_subperm_iff.mpr (List.mem_map_of_mem (hretained e rfl).1)
      rw [step, hlisted]
      exact ((List.subperm_cons (key, value)).mpr hkept).trans
        (List.perm_append_singleton _ _).symm.subperm

/-- Over a history the budget and the keys stay good. -/
theorem bounded_run {cache : TwoEntryCache K T} (h : cache.Bounded) (ops : List (Op K T)) :
    (cache.run ops).2.Bounded ∧ (cache.run ops).2.maxBytes = cache.maxBytes := by
  induction ops generalizing cache with
  | nil => exact ⟨h, rfl⟩
  | cons op ops ih =>
    obtain ⟨hb, hmax⟩ := bounded_step h op
    obtain ⟨hb', hmax'⟩ := ih hb
    exact ⟨hb', hmax'.trans hmax⟩

/-- Over a history nothing is handed out or held more often than it came in. -/
theorem subperm_run (cache : TwoEntryCache K T) (ops : List (Op K T)) :
    List.Subperm ((cache.run ops).1 ++ pairs (cache.run ops).2.listed)
      (pairs cache.listed ++ ops.flatMap Op.inserted) := by
  induction ops generalizing cache with
  | nil =>
    rw [List.flatMap_nil, List.append_nil]
    exact List.Subperm.refl _
  | cons op ops ih =>
    have hrest := (List.subperm_append_left (op.taken cache)).mpr (ih (cache.step op))
    have hstep := (List.subperm_append_right (ops.flatMap Op.inserted)).mpr (subperm_step cache op)
    rw [← List.append_assoc, ← List.append_assoc] at hrest
    rw [List.append_assoc, List.append_assoc] at hstep
    rw [List.flatMap_cons]
    refine List.Subperm.trans ?_ hstep
    rw [← List.append_assoc]
    exact hrest

/-- A key that is not held stays absent until it is inserted again. -/
theorem absent_run {cache : TwoEntryCache K T} {key : K} (h : ∀ e ∈ cache.listed, e.key ≠ key)
    (ops : List (Op K T)) (hops : ∀ op ∈ ops, ∀ value, (key, value) ∉ op.inserted) :
    ∀ e ∈ (cache.run ops).2.listed, e.key ≠ key := by
  induction ops generalizing cache with
  | nil => exact h
  | cons op ops ih =>
    refine ih (fun e he hkey => ?_) (fun op' hop' => hops op' (List.mem_cons_of_mem op hop'))
    subst hkey
    have hmem : (e.key, e.value) ∈ pairs cache.listed ++ op.inserted :=
      (subperm_step cache op).subset (List.mem_append_right _ (List.mem_map_of_mem he))
    rcases List.mem_append.mp hmem with hheld | hin
    · obtain ⟨e', he', heq⟩ := List.mem_map.mp hheld
      exact h e' he' (congrArg Prod.fst heq)
    · exact hops op List.mem_cons_self e.value hin

end History

end TwoEntryCache

end ErasureCodec
