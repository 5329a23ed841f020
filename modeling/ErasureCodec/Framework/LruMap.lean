import Mathlib.Tactic

namespace ErasureCodec

universe u

/-- The operations of a least recently used map. `entries` lists what a map
holds, least recently used first. -/
structure LruMap (K V : Type u) where
  State : Type u
  new : Nat → State
  capacity : State → Nat
  len : State → Nat
  entries : State → List (K × V)
  get : K → State → Option V × State
  remove : K → State → Option V × State
  removeLru : State → Option (K × V) × State
  insert : K → V → State → State

namespace LruMap

variable {K V : Type u} [DecidableEq K]

/-- The value a list of entries holds under a key. -/
def find (k : K) (entries : List (K × V)) : Option V :=
  (entries.find? fun e => e.1 = k).map Prod.snd

/-- The documented behaviour: a lookup returns what was inserted under an equal
key, and eviction takes the least recently used entry. -/
structure Lawful (lru : LruMap K V) : Prop where
  entries_new : ∀ n, lru.entries (lru.new n) = []
  capacity_new : ∀ n, lru.capacity (lru.new n) = n
  len_eq : ∀ s, lru.len s = (lru.entries s).length
  nodup : ∀ s, ((lru.entries s).map Prod.fst).Nodup
  get_eq : ∀ k s, (lru.get k s).1 = find k (lru.entries s)
  entries_get : ∀ k s, (lru.entries (lru.get k s).2).Perm (lru.entries s)
  remove_eq : ∀ k s, (lru.remove k s).1 = find k (lru.entries s)
  entries_remove : ∀ k s, lru.entries (lru.remove k s).2 =
    (lru.entries s).filter fun e => e.1 ≠ k
  removeLru_nil : ∀ s, lru.entries s = [] → (lru.removeLru s).1 = none
  removeLru_cons : ∀ s e es, lru.entries s = e :: es →
    (lru.removeLru s).1 = some e ∧ lru.entries (lru.removeLru s).2 = es
  entries_insert : ∀ k v s, lru.len s < lru.capacity s → find k (lru.entries s) = none →
    lru.entries (lru.insert k v s) = lru.entries s ++ [(k, v)]
  capacity_get : ∀ k s, lru.capacity (lru.get k s).2 = lru.capacity s
  capacity_remove : ∀ k s, lru.capacity (lru.remove k s).2 = lru.capacity s
  capacity_removeLru : ∀ s, lru.capacity (lru.removeLru s).2 = lru.capacity s
  capacity_insert : ∀ k v s, lru.capacity (lru.insert k v s) = lru.capacity s

theorem find_eq_some {k : K} {v : V} {entries : List (K × V)} (h : find k entries = some v) :
    (k, v) ∈ entries := by
  obtain ⟨e, he, rfl⟩ := Option.map_eq_some_iff.mp h
  have hk := List.find?_some he
  simp only [decide_eq_true_eq] at hk
  rw [← hk]
  exact List.mem_of_find?_eq_some he

theorem find_eq_none {k : K} {entries : List (K × V)} :
    find k entries = none ↔ ∀ e ∈ entries, e.1 ≠ k := by
  simp [find, List.find?_eq_none]

/-- Dropping a key from entries with distinct keys splits off its value. -/
theorem perm_cons_filter {k : K} {v : V} {entries : List (K × V)}
    (hn : (entries.map Prod.fst).Nodup) (h : find k entries = some v) :
    entries.Perm ((k, v) :: entries.filter fun e => e.1 ≠ k) := by
  induction entries with
  | nil => cases h
  | cons e es ih =>
    obtain ⟨hne, hn⟩ := List.nodup_cons.mp hn
    by_cases hek : e.1 = k
    · obtain rfl : e = (k, v) := by
        simp only [find, List.find?_cons, hek, decide_true, Option.map_some,
          Option.some.injEq] at h
        exact Prod.ext hek h
      have hall : es.filter (fun e => decide (e.1 ≠ k)) = es := by
        rw [List.filter_eq_self]
        intro e' he'
        simp only [ne_eq, decide_eq_true_eq]
        intro hk
        exact hne (List.mem_map.mpr ⟨e', he', hk⟩)
      rw [List.filter_cons, if_neg (by simp), hall]
    · have h' : find k es = some v := by
        simpa only [find, List.find?_cons, hek, decide_false] using h
      rw [List.filter_cons, if_pos (by simpa using hek)]
      exact ((ih hn h').cons e).trans (List.Perm.swap _ _ _)

end LruMap

section ListLru

variable (K V : Type u) [DecidableEq K]

/-- A list of entries with distinct keys, least recently used first. -/
structure ListLru where
  capacity : Nat
  entries : List (K × V)
  nodup : (entries.map Prod.fst).Nodup

variable {K V}

theorem ListLru.nodup_touch {entries : List (K × V)} (h : (entries.map Prod.fst).Nodup) (k : K)
    (v : V) : (((entries.filter fun e => e.1 ≠ k) ++ [(k, v)]).map Prod.fst).Nodup := by
  rw [List.map_append, List.nodup_append]
  refine ⟨h.sublist (List.filter_sublist.map Prod.fst), by simp, ?_⟩
  rintro a ha b hb rfl
  obtain ⟨e, he, rfl⟩ := List.mem_map.mp ha
  have hne := (List.mem_filter.mp he).2
  simp only [List.map_cons, List.map_nil, List.mem_singleton] at hb
  simp [hb] at hne

variable (K V)

/-- The least recently used map on lists. -/
def listLru : LruMap K V where
  State := ListLru K V
  new n := ⟨n, [], List.nodup_nil⟩
  capacity s := s.capacity
  len s := s.entries.length
  entries s := s.entries
  get k s :=
    match LruMap.find k s.entries with
    | some v => (some v, ⟨s.capacity, _, ListLru.nodup_touch s.nodup k v⟩)
    | none => (none, s)
  remove k s := (LruMap.find k s.entries,
    ⟨s.capacity, s.entries.filter fun e => e.1 ≠ k,
      s.nodup.sublist (List.filter_sublist.map Prod.fst)⟩)
  removeLru s := (s.entries.head?,
    ⟨s.capacity, s.entries.tail, s.nodup.sublist ((List.tail_sublist _).map Prod.fst)⟩)
  insert k v s :=
    let touched := (s.entries.filter fun e => e.1 ≠ k) ++ [(k, v)]
    ⟨s.capacity, touched.drop (touched.length - s.capacity),
      (ListLru.nodup_touch s.nodup k v).sublist ((List.drop_sublist _ _).map Prod.fst)⟩

theorem listLru_lawful : (listLru K V).Lawful where
  entries_new _ := rfl
  capacity_new _ := rfl
  len_eq _ := rfl
  nodup s := s.nodup
  get_eq k s := by
    simp only [listLru]
    split <;> simp [*]
  entries_get k s := by
    simp only [listLru]
    split
    · next v h =>
      exact (List.perm_append_singleton _ _).trans (LruMap.perm_cons_filter s.nodup h).symm
    · exact List.Perm.refl _
  remove_eq _ _ := rfl
  entries_remove _ _ := rfl
  removeLru_nil s h := by
    simp only [listLru] at h ⊢
    rw [h]
    rfl
  removeLru_cons s e es h := by
    simp only [listLru] at h ⊢
    rw [h]
    exact ⟨rfl, rfl⟩
  entries_insert k v s hlen hnone := by
    simp only [listLru] at hlen hnone ⊢
    have hall : s.entries.filter (fun e => decide (e.1 ≠ k)) = s.entries := by
      rw [List.filter_eq_self]
      intro e he
      simpa using LruMap.find_eq_none.mp hnone e he
    rw [hall, List.length_append, List.length_singleton, Nat.sub_eq_zero_of_le hlen, List.drop_zero]
  capacity_get k s := by
    simp only [listLru]
    split <;> rfl
  capacity_remove _ _ := rfl
  capacity_removeLru _ := rfl
  capacity_insert _ _ _ := rfl

end ListLru

end ErasureCodec
