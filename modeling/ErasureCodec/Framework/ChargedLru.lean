import ErasureCodec.Framework.LruMap
import ErasureCodec.Framework.Outcome
import Mathlib.Order.Bounds.Basic

namespace ErasureCodec

universe u

namespace LruMap

variable {K V : Type u} [DecidableEq K]

/-- The documented order of recency: a lookup makes the entry it finds the most recent one, and
changes nothing where it finds none. -/
structure Ordered (lru : LruMap K V) : Prop extends Lawful lru where
  get_absent : ∀ k s, find k (lru.entries s) = none → (lru.get k s).2 = s
  get_present : ∀ k s v, find k (lru.entries s) = some v →
    lru.entries (lru.get k s).2 = ((lru.entries s).filter fun e => e.1 ≠ k) ++ [(k, v)]

theorem listLru_ordered : (listLru K V).Ordered where
  toLawful := listLru_lawful K V
  get_absent k s h := by
    have h : find k s.entries = none := h
    simp only [listLru]
    split
    · next v hv => rw [h] at hv; cases hv
    · rfl
  get_present k s v h := by
    have h : find k s.entries = some v := h
    simp only [listLru]
    split
    · next v' hv =>
      rw [h] at hv
      rw [Option.some.inj hv]
    · next hv => rw [h] at hv; cases hv

end LruMap

/-- A least recently used map with a byte budget: every value carries its charge, and the sum of
the charges is recorded. -/
structure ChargedLru {K V : Type u} (lru : LruMap K V) where
  entries : lru.State
  retainedBytes : Nat
  maxBytes : Nat

namespace ChargedLru

variable {K V : Type u} {lru : LruMap K V} {ε : Type u}

def new (lru : LruMap K V) (capacity maxBytes : Nat) : ChargedLru lru :=
  ⟨lru.new capacity, 0, maxBytes⟩

def listed (cache : ChargedLru lru) : List (K × V) := lru.entries cache.entries

def capacity (cache : ChargedLru lru) : Nat := lru.capacity cache.entries

def get (key : K) (cache : ChargedLru lru) : Option V × ChargedLru lru :=
  ((lru.get key cache.entries).1, { cache with entries := (lru.get key cache.entries).2 })

variable (charge : V → Nat)

/-- The eviction loop. Running out of candidates or of bytes to give back is a panic; `fuel`
bounds the rounds. -/
def evict (bytes : Nat) : Nat → ChargedLru lru → Nat → Outcome ε (ChargedLru lru × Nat)
  | 0, _, _ => .panic
  | fuel + 1, cache, evictions =>
    if lru.len cache.entries ≥ cache.capacity ∨ cache.retainedBytes > cache.maxBytes - bytes then
      match lru.removeLru cache.entries with
      | (none, _) => .panic
      | (some removed, entries) =>
        if charge removed.2 ≤ cache.retainedBytes then
          evict bytes fuel { cache with
            entries, retainedBytes := cache.retainedBytes - charge removed.2 } (evictions + 1)
        else .panic
    else .ok (cache, evictions)

/-- Drop the previous entry of a key and its charge. -/
def removeKey [DecidableEq K] (key : K) (cache : ChargedLru lru) : Outcome ε (ChargedLru lru) :=
  match lru.remove key cache.entries with
  | (some previous, entries) =>
    if charge previous ≤ cache.retainedBytes then
      .ok { cache with entries, retainedBytes := cache.retainedBytes - charge previous }
    else .panic
  | (none, entries) => .ok { cache with entries }

/-- Make room for a value that fits the budget, and add it. -/
def place (key : K) (value : V) (cache : ChargedLru lru) : Outcome ε (ChargedLru lru × Nat) := do
  let (cache, evictions) ← cache.evict charge (charge value) (lru.len cache.entries + 1) 0
  pure ({ cache with
    entries := lru.insert key value cache.entries
    retainedBytes := cache.retainedBytes + charge value }, evictions)

section Spec

variable {charge}

/-- The sum of the charges. -/
def charges (charge : V → Nat) (entries : List (K × V)) : Nat :=
  (entries.map fun e => charge e.2).sum

/-- Entries that leave room for `bytes` more and one more entry. -/
def Room (charge : V → Nat) (cache : ChargedLru lru) (bytes : Nat) (entries : List (K × V)) :
    Prop :=
  entries.length < cache.capacity ∧ charges charge entries ≤ cache.maxBytes - bytes

/-- The books of a cache: the recorded bytes are the charges, neither the bytes nor the
entries pass their bound, and no key is held twice. -/
structure Accounted (charge : V → Nat) (cache : ChargedLru lru) : Prop where
  retained_eq : cache.retainedBytes = charges charge cache.listed
  charges_le : charges charge cache.listed ≤ cache.maxBytes
  length_le : cache.listed.length ≤ cache.capacity
  nodup : (cache.listed.map Prod.fst).Nodup

/-- The bounds of a cache stay as they were made. -/
structure SameBounds (cache cache' : ChargedLru lru) : Prop where
  capacity_eq : cache'.capacity = cache.capacity
  maxBytes_eq : cache'.maxBytes = cache.maxBytes

/-- The eviction loop dropped the shortest run of least recently used entries that
makes room. -/
structure Evicted (charge : V → Nat) (cache : ChargedLru lru) (bytes : Nat)
    (cache' : ChargedLru lru) (n : Nat) : Prop where
  listed_eq : cache'.listed = cache.listed.drop n
  least : IsLeast {n | cache.Room charge bytes (cache.listed.drop n)} n
  retained_eq : cache'.retainedBytes = charges charge cache'.listed
  bounds : cache.SameBounds cache'

/-- The value takes the place of what its key held, at the recent end, behind the shortest
run of least recently used other entries that has to go. -/
structure Inserted (charge : V → Nat) (cache : ChargedLru lru) [DecidableEq K] (key : K)
    (value : V) (cache' : ChargedLru lru) (n : Nat) : Prop where
  listed_eq : cache'.listed = (cache.listed.filter fun e => e.1 ≠ key).drop n ++ [(key, value)]
  least : IsLeast {n | cache.Room charge (charge value)
    ((cache.listed.filter fun e => e.1 ≠ key).drop n)} n

theorem charges_nil : charges charge ([] : List (K × V)) = 0 := rfl

theorem charges_cons (e : K × V) (es : List (K × V)) :
    charges charge (e :: es) = charge e.2 + charges charge es := by
  rw [charges, List.map_cons, List.sum_cons, charges]

theorem charges_append_singleton (es : List (K × V)) (key : K) (value : V) :
    charges charge (es ++ [(key, value)]) = charges charge es + charge value := by
  rw [charges, List.map_append, List.sum_append, charges, List.map_singleton, List.sum_singleton]

theorem charges_perm {es es' : List (K × V)} (h : es.Perm es') :
    charges charge es = charges charge es' := (h.map _).sum_eq

section Lawful

variable [DecidableEq K] {cache : ChargedLru lru}

omit [DecidableEq K] in
theorem SameBounds.trans {cache' cache'' : ChargedLru lru} (h : cache.SameBounds cache')
    (h' : cache'.SameBounds cache'') : cache.SameBounds cache'' :=
  ⟨h'.capacity_eq.trans h.capacity_eq, h'.maxBytes_eq.trans h.maxBytes_eq⟩

theorem accounted_new (hlaw : lru.Lawful) (capacity maxBytes : Nat) :
    (new lru capacity maxBytes).Accounted charge := by
  have hlisted : (new lru capacity maxBytes).listed = [] := hlaw.entries_new capacity
  constructor
  · rw [hlisted]
    rfl
  · rw [hlisted, charges_nil]
    exact Nat.zero_le _
  · rw [hlisted]
    exact Nat.zero_le _
  · rw [hlisted]
    exact List.nodup_nil

/-- A lookup moves the entry it finds to the recent end and changes nothing else. -/
theorem listed_get (hlru : lru.Ordered) (key : K) (cache : ChargedLru lru) :
    (cache.get key).1 = LruMap.find key cache.listed ∧
      (cache.get key).2.listed =
        match LruMap.find key cache.listed with
        | some value => (cache.listed.filter fun e => e.1 ≠ key) ++ [(key, value)]
        | none => cache.listed := by
  refine ⟨hlru.get_eq key cache.entries, ?_⟩
  cases hfind : LruMap.find key cache.listed with
  | none =>
    change lru.entries (lru.get key cache.entries).2 = cache.listed
    rw [hlru.get_absent key cache.entries hfind]
    rfl
  | some value => exact hlru.get_present key cache.entries value hfind

theorem accounted_get (hlaw : lru.Lawful) (h : cache.Accounted charge) (key : K) :
    (cache.get key).2.Accounted charge ∧ cache.SameBounds (cache.get key).2 := by
  have hperm : (cache.get key).2.listed.Perm cache.listed := hlaw.entries_get key cache.entries
  have hcap : (cache.get key).2.capacity = cache.capacity := hlaw.capacity_get key cache.entries
  refine ⟨⟨?_, ?_, ?_, ?_⟩, hcap, rfl⟩
  · rw [charges_perm hperm]
    exact h.retained_eq
  · rw [charges_perm hperm]
    exact h.charges_le
  · rw [hperm.length_eq, hcap]
    exact h.length_le
  · exact (hperm.map Prod.fst).nodup_iff.mpr h.nodup

/-- Before an entry is dropped its charge is still on the books. -/
theorem evict_cons (hlaw : lru.Lawful) {e : K × V} {es : List (K × V)}
    (hlist : cache.listed = e :: es) (bytes fuel evictions : Nat)
    (hret : cache.retainedBytes = charges charge cache.listed)
    (hover : lru.len cache.entries ≥ cache.capacity ∨
      cache.retainedBytes > cache.maxBytes - bytes) :
    ∃ rest : ChargedLru lru, rest.listed = es ∧ cache.SameBounds rest ∧
      rest.retainedBytes = charges charge es ∧
      (cache.evict charge bytes (fuel + 1) evictions : Outcome ε _) =
        rest.evict charge bytes fuel (evictions + 1) := by
  obtain ⟨hhead, htail⟩ := hlaw.removeLru_cons cache.entries e es hlist
  have hcap := hlaw.capacity_removeLru cache.entries
  rw [hlist, charges_cons] at hret
  have hle : charge e.2 ≤ cache.retainedBytes := by omega
  rw [evict, if_pos hover]
  generalize lru.removeLru cache.entries = removed at hhead htail hcap
  obtain ⟨candidate, entries⟩ := removed
  obtain rfl : candidate = some e := hhead
  simp only [if_pos hle]
  refine ⟨{ cache with entries, retainedBytes := cache.retainedBytes - charge e.2 }, htail,
    ⟨hcap, rfl⟩, ?_, rfl⟩
  change cache.retainedBytes - charge e.2 = charges charge es
  omega

/-- With one round more than there are entries the loop makes room: it never runs out of
candidates and never subtracts below zero. -/
theorem evict_spec (hlaw : lru.Lawful) (bytes fuel evictions : Nat) {cache : ChargedLru lru}
    (hret : cache.retainedBytes = charges charge cache.listed) (hcap : 0 < cache.capacity)
    (hfuel : cache.listed.length < fuel) :
    ∃ (cache' : ChargedLru lru) (n : Nat),
      (cache.evict charge bytes fuel evictions : Outcome ε _) = .ok (cache', evictions + n) ∧
        cache.Evicted charge bytes cache' n := by
  induction fuel generalizing cache evictions with
  | zero => exact absurd hfuel (Nat.not_lt_zero _)
  | succ fuel ih =>
    have hlen : lru.len cache.entries = cache.listed.length := hlaw.len_eq cache.entries
    by_cases hover : lru.len cache.entries ≥ cache.capacity ∨
        cache.retainedBytes > cache.maxBytes - bytes
    · cases hlist : cache.listed with
      | nil =>
        rw [hlist] at hlen hret
        rw [List.length_nil] at hlen
        rw [charges_nil] at hret
        omega
      | cons e es =>
        obtain ⟨rest, hrest, hbounds, hret', hstep⟩ :=
          evict_cons (ε := ε) hlaw hlist bytes fuel evictions hret hover
        rw [hlist, List.length_cons] at hfuel
        obtain ⟨cache', n, hrun, hev⟩ := ih (evictions + 1) (hret'.trans (by rw [hrest]))
          (hbounds.capacity_eq ▸ hcap) (by rw [hrest]; omega)
        refine ⟨cache', n + 1, ?_, ?_, ?_, hev.retained_eq, hbounds.trans hev.bounds⟩
        · rw [hstep, hrun, Nat.add_assoc, Nat.add_comm 1 n]
        · rw [hev.listed_eq, hrest, hlist, List.drop_succ_cons]
        · have hroom (m : Nat) : cache.Room charge bytes (cache.listed.drop (m + 1)) ↔
              rest.Room charge bytes (rest.listed.drop m) := by
            rw [Room, Room, hbounds.capacity_eq, hbounds.maxBytes_eq, hrest, hlist,
              List.drop_succ_cons]
          refine ⟨(hroom n).mpr hev.least.1, fun m hm => ?_⟩
          cases m with
          | zero =>
            have hm : cache.Room charge bytes cache.listed := hm
            obtain ⟨hcount, hbytes⟩ := hm
            omega
          | succ m => exact Nat.succ_le_succ (hev.least.2 ((hroom m).mp hm))
    · refine ⟨cache, 0, ?_, rfl, ⟨?_, fun m _ => Nat.zero_le m⟩, hret, rfl, rfl⟩
      · rw [evict, if_neg hover]
        rfl
      · change cache.Room charge bytes cache.listed
        constructor <;> omega

/-- Dropping a key gives its charge back, once. -/
theorem removeKey_spec (hlaw : lru.Lawful) (h : cache.Accounted charge) (key : K) :
    ∃ cache' : ChargedLru lru, (cache.removeKey charge key : Outcome ε _) = .ok cache' ∧
      cache'.listed = (cache.listed.filter fun e => e.1 ≠ key) ∧
      cache'.Accounted charge ∧ cache.SameBounds cache' := by
  have hentries := hlaw.entries_remove key cache.entries
  have hcap := hlaw.capacity_remove key cache.entries
  have hfind := hlaw.remove_eq key cache.entries
  have hret := h.retained_eq
  have hle := h.charges_le
  have hlen := (List.length_filter_le (fun e => decide (e.1 ≠ key)) cache.listed).trans h.length_le
  have hnodup := h.nodup.sublist
    ((List.filter_sublist (p := fun e => decide (e.1 ≠ key))).map Prod.fst)
  rw [removeKey]
  generalize lru.remove key cache.entries = removed at hentries hcap hfind
  obtain ⟨previous, entries⟩ := removed
  have hlisted : lru.entries entries = cache.listed.filter fun e => e.1 ≠ key := hentries
  have hcap : lru.capacity entries = cache.capacity := hcap
  have hfind : previous = LruMap.find key cache.listed := hfind
  rw [← hlisted] at hlen hnodup
  cases previous with
  | none =>
    have hall : lru.entries entries = cache.listed := by
      rw [hlisted, List.filter_eq_self]
      intro e he
      simpa using LruMap.find_eq_none.mp hfind.symm e he
    refine ⟨_, rfl, hlisted, ⟨?_, ?_, ?_, hnodup⟩, hcap, rfl⟩
    · change cache.retainedBytes = charges charge (lru.entries entries)
      rw [hall, hret]
    · change charges charge (lru.entries entries) ≤ cache.maxBytes
      rw [hall]
      exact hle
    · change (lru.entries entries).length ≤ lru.capacity entries
      rw [hcap]
      exact hlen
  | some previous =>
    have hsum := (LruMap.perm_cons_filter h.nodup hfind.symm).map fun e => charge e.2
    have hsum : charges charge cache.listed = charges charge _ := hsum.sum_eq
    rw [charges_cons, ← hlisted] at hsum
    simp only at hsum
    have hle' : charge previous ≤ cache.retainedBytes := by omega
    simp only [if_pos hle']
    refine ⟨_, rfl, hlisted, ⟨?_, ?_, ?_, hnodup⟩, hcap, rfl⟩
    · change cache.retainedBytes - charge previous = charges charge (lru.entries entries)
      omega
    · change charges charge (lru.entries entries) ≤ cache.maxBytes
      omega
    · change (lru.entries entries).length ≤ lru.capacity entries
      rw [hcap]
      exact hlen

/-- A new key's value that fits the budget goes to the recent end. -/
theorem place_spec (hlaw : lru.Lawful) (h : cache.Accounted charge) {key : K} {value : V}
    (hkey : ∀ e ∈ cache.listed, e.1 ≠ key) (hfits : charge value ≤ cache.maxBytes)
    (hcap : 0 < cache.capacity) :
    ∃ (cache' : ChargedLru lru) (n : Nat),
      (cache.place charge key value : Outcome ε _) = .ok (cache', n) ∧
        cache'.listed = cache.listed.drop n ++ [(key, value)] ∧
        IsLeast {n | cache.Room charge (charge value) (cache.listed.drop n)} n ∧
        cache'.Accounted charge ∧ cache.SameBounds cache' := by
  have hlen : lru.len cache.entries = cache.listed.length := hlaw.len_eq cache.entries
  obtain ⟨t, n, hrun, hev⟩ := evict_spec (ε := ε) hlaw (charge value)
    (lru.len cache.entries + 1) 0 h.retained_eq hcap (by omega)
  obtain ⟨hcount, hbytes⟩ := hev.least.1
  have hkey' : ∀ e ∈ t.listed, e.1 ≠ key := by
    intro e he
    rw [hev.listed_eq] at he
    exact hkey e (List.mem_of_mem_drop he)
  have hroom : lru.len t.entries < lru.capacity t.entries := by
    have hcap' : lru.capacity t.entries = cache.capacity := hev.bounds.capacity_eq
    rw [hlaw.len_eq, hcap']
    change t.listed.length < _
    rw [hev.listed_eq]
    exact hcount
  have hins := hlaw.entries_insert key value t.entries hroom (LruMap.find_eq_none.mpr hkey')
  have hins : lru.entries (lru.insert key value t.entries) = t.listed ++ [(key, value)] := hins
  have hbounds : cache.SameBounds (⟨lru.insert key value t.entries,
      t.retainedBytes + charge value, t.maxBytes⟩ : ChargedLru lru) :=
    ⟨(hlaw.capacity_insert key value t.entries).trans hev.bounds.capacity_eq,
      hev.bounds.maxBytes_eq⟩
  refine ⟨_, n, ?_, ?_, hev.least, ⟨?_, ?_, ?_, ?_⟩, hbounds⟩
  · rw [place, hrun, Outcome.ok_bind, Nat.zero_add]
    rfl
  · change lru.entries _ = _
    rw [hins, hev.listed_eq]
  · change t.retainedBytes + charge value = charges charge (lru.entries _)
    rw [hins, charges_append_singleton, hev.retained_eq]
  · change charges charge (lru.entries _) ≤ t.maxBytes
    rw [hins, charges_append_singleton, hev.listed_eq, hev.bounds.maxBytes_eq]
    omega
  · rw [hbounds.capacity_eq]
    change (lru.entries _).length ≤ _
    rw [hins, List.length_append, List.length_singleton, hev.listed_eq]
    exact hcount
  · exact hlaw.nodup _

/-- A key without an entry has nothing to replace. -/
theorem place_new_spec (hlaw : lru.Lawful) (h : cache.Accounted charge) {key : K} {value : V}
    (hkey : LruMap.find key cache.listed = none) (hfits : charge value ≤ cache.maxBytes)
    (hcap : 0 < cache.capacity) :
    ∃ (cache' : ChargedLru lru) (n : Nat),
      (cache.place charge key value : Outcome ε _) = .ok (cache', n) ∧
        cache.Inserted charge key value cache' n ∧ cache'.Accounted charge ∧
        cache.SameBounds cache' := by
  have hkey := LruMap.find_eq_none.mp hkey
  have hall : (cache.listed.filter fun e => decide (e.1 ≠ key)) = cache.listed := by
    rw [List.filter_eq_self]
    intro e he
    simpa using hkey e he
  obtain ⟨cache', n, hrun, hlisted, hleast, hacc, hbounds⟩ :=
    place_spec (ε := ε) hlaw h hkey hfits hcap
  refine ⟨cache', n, hrun, ⟨?_, ?_⟩, hacc, hbounds⟩
  · rw [hall]
    exact hlisted
  · rw [hall]
    exact hleast

/-- A key with an entry gives it back first. -/
theorem replace_spec (hlaw : lru.Lawful) (h : cache.Accounted charge) (key : K) {value : V}
    (hfits : charge value ≤ cache.maxBytes) (hcap : 0 < cache.capacity) :
    ∃ (rest cache' : ChargedLru lru) (n : Nat),
      (cache.removeKey charge key : Outcome ε _) = .ok rest ∧
        (rest.place charge key value : Outcome ε _) = .ok (cache', n) ∧
        cache.Inserted charge key value cache' n ∧ cache'.Accounted charge ∧
        cache.SameBounds cache' := by
  obtain ⟨rest, hremove, hrest, hacc, hbounds⟩ := removeKey_spec (ε := ε) hlaw h key
  have hkey : ∀ e ∈ rest.listed, e.1 ≠ key := by
    intro e he
    rw [hrest] at he
    simpa using (List.mem_filter.mp he).2
  obtain ⟨cache', n, hplace, hlisted, hleast, hacc', hbounds'⟩ := place_spec (ε := ε) hlaw hacc hkey
    (hbounds.maxBytes_eq ▸ hfits) (hbounds.capacity_eq ▸ hcap)
  have hroom (es : List (K × V)) : rest.Room charge (charge value) es ↔
      cache.Room charge (charge value) es := by
    rw [Room, Room, hbounds.capacity_eq, hbounds.maxBytes_eq]
  refine ⟨rest, cache', n, hremove, hplace, ⟨?_, ?_⟩, hacc', hbounds.trans hbounds'⟩
  · rw [← hrest]
    exact hlisted
  · simp only [hroom, hrest] at hleast
    exact hleast

end Lawful

end Spec

end ChargedLru

end ErasureCodec
