import ErasureCodec.Framework.LruMap
import ErasureCodec.Codec.DecodeMatrix

namespace ErasureCodec

open CodecField

structure CachedMatrix (E : Type) where
  matrix : CodingMatrix E
  bytes : Nat

/-- What the cache takes from outside the repository: the LRU container, and the
allocated sizes of a key and of a matrix. -/
class CachePlatform (E : Type) where
  lru : LruMap (List Nat) (CachedMatrix E)
  keyCapacity : List Nat → Nat
  matrixBytes : CodingMatrix E → Nat

class LawfulPlatform (E : Type) [CachePlatform E] : Prop where
  lru_lawful : (CachePlatform.lru (E := E)).Lawful

open CachePlatform

structure InversionCache (E : Type) [CachePlatform E] where
  entries : (lru (E := E)).State
  retainedBytes : Nat
  maxBytes : Nat

structure CacheInsertion where
  inserted : Bool
  evictions : Nat
  deriving Repr, DecidableEq

def usizeBytes : Nat := 8

/-- `usize::checked_add` and `usize::checked_mul` keep a result that fits. -/
def checked (n : Nat) : Option Nat := if n < usizeLimit then some n else none

/-- A `usize` subtraction; going below zero is an overflow panic. -/
def subtract (a b : Nat) : Outcome Error Nat := if b ≤ a then .ok (a - b) else .panic

namespace InversionCache

variable {E : Type} [CachePlatform E]

def new (capacity maxBytes : Nat) : InversionCache E := ⟨(lru (E := E)).new capacity, 0, maxBytes⟩

def capacity (cache : InversionCache E) : Nat := (lru (E := E)).capacity cache.entries

def len (cache : InversionCache E) : Nat := (lru (E := E)).len cache.entries

def get (key : List Nat) (cache : InversionCache E) :
    Option (CodingMatrix E) × InversionCache E :=
  let (entry, entries) := (lru (E := E)).get key cache.entries
  (entry.map CachedMatrix.matrix, { cache with entries })

def entryBytes (key : List Nat) (matrix : CodingMatrix E) : Option Nat := do
  let keyBytes ← checked (keyCapacity E key * usizeBytes)
  checked (matrixBytes matrix + keyBytes)

/-- Drop the previous entry of a key and its charge. -/
def removeKey (key : List Nat) (cache : InversionCache E) : Outcome Error (InversionCache E) :=
  match (lru (E := E)).remove key cache.entries with
  | (some previous, entries) => do
    let retainedBytes ← subtract cache.retainedBytes previous.bytes
    pure { cache with entries, retainedBytes }
  | (none, entries) => .ok { cache with entries }

/-- The eviction loop. It ends because every round removes an entry; `fuel`
bounds the rounds by the number of entries. -/
def evict (bytes : Nat) : Nat → InversionCache E → Nat → Outcome Error (InversionCache E × Nat)
  | 0, _, _ => .panic
  | fuel + 1, cache, evictions =>
    if cache.len ≥ cache.capacity ∨ cache.retainedBytes > cache.maxBytes - bytes then
      match (lru (E := E)).removeLru cache.entries with
      | (none, _) => .panic
      | (some removed, entries) => do
        let retainedBytes ← subtract cache.retainedBytes removed.2.bytes
        evict bytes fuel { cache with entries, retainedBytes } (evictions + 1)
    else .ok (cache, evictions)

def insert (key : List Nat) (matrix : CodingMatrix E) (cache : InversionCache E) :
    Outcome Error (CacheInsertion × InversionCache E) :=
  match (entryBytes key matrix).filter (· ≤ cache.maxBytes) with
  | none => .ok (⟨false, 0⟩, cache)
  | some bytes =>
    if cache.capacity = 0 then .ok (⟨false, 0⟩, cache)
    else do
      let cache ← cache.removeKey key
      let (cache, evictions) ← cache.evict bytes (cache.len + 1) 0
      pure (⟨true, evictions⟩,
        { cache with
          retainedBytes := cache.retainedBytes + bytes
          entries := (lru (E := E)).insert key ⟨matrix, bytes⟩ cache.entries })

end InversionCache

namespace ReedSolomon

variable {E : Type} [CodecField E] [DecidableEq E] [CachePlatform E]

omit [CodecField E] [DecidableEq E] [CachePlatform E] in
/-- The erasures the cache key keeps: those before the last selected survivor. -/
def cacheErasures (codec : ReedSolomon E) (validIndices invalidIndices : List Nat) : List Nat :=
  match validIndices.getLast?, invalidIndices.getLast? with
  | some lastSelected, some lastMissing =>
    if codec.options.inversionCache ∧ lastMissing > lastSelected then
      invalidIndices.take (partitionPoint (· < lastSelected) invalidIndices)
    else invalidIndices
  | _, _ => invalidIndices

/-- `get_data_decode_matrix`: the result and the cache it leaves. -/
def getDataDecodeMatrix (codec : ReedSolomon E) (cache : InversionCache E)
    (validIndices invalidIndices : List Nat) :
    Outcome Error (CodingMatrix E) × InversionCache E :=
  if validIndices.length ≠ codec.dataShardCount then (.err .tooFewShardsPresent, cache)
  else if codec.options.inversionCache then
    let cacheErasures := codec.cacheErasures validIndices invalidIndices
    match cache.get cacheErasures with
    | (some entry, cache) => (.ok entry, cache)
    | (none, cache) =>
      match codec.buildDataDecodeMatrix validIndices with
      | .ok dataDecodeMatrix =>
        match cache.insert cacheErasures dataDecodeMatrix with
        | .ok (_, cache) => (.ok dataDecodeMatrix, cache)
        | _ => (.panic, cache)
      | failed => (failed, cache)
  else (codec.buildDataDecodeMatrix validIndices, cache)

/-- A sequence of requests: their results in order and the cache they leave. -/
def runRequests (codec : ReedSolomon E) (cache : InversionCache E) :
    List (List Nat × List Nat) → List (Outcome Error (CodingMatrix E)) × InversionCache E
  | [] => ([], cache)
  | request :: rest =>
    let (result, cache) := codec.getDataDecodeMatrix cache request.1 request.2
    let (results, cache) := codec.runRequests cache rest
    (result :: results, cache)

end ReedSolomon

namespace InversionCache

section Spec

variable {E : Type} [CachePlatform E]

/-- The entries of a cache, least recently used first. -/
def listed (cache : InversionCache E) : List (List Nat × CachedMatrix E) :=
  (lru (E := E)).entries cache.entries

/-- The invariant of a cache: every entry was admitted by `good` for its key, and
the retained bytes are the sum of the charges. -/
structure Inv (good : List Nat → CodingMatrix E → Prop) (cache : InversionCache E) : Prop where
  entry : ∀ e ∈ cache.listed, good e.1 e.2.matrix
  retained_eq : cache.retainedBytes = (cache.listed.map fun e => e.2.bytes).sum

variable [LawfulPlatform E] {good : List Nat → CodingMatrix E → Prop}

theorem inv_new (capacity maxBytes : Nat) : (new capacity maxBytes : InversionCache E).Inv good := by
  have h : (new capacity maxBytes : InversionCache E).listed = [] :=
    LawfulPlatform.lru_lawful.entries_new capacity
  refine ⟨fun e he => ?_, ?_⟩
  · rw [h] at he
    exact absurd he List.not_mem_nil
  · rw [h]
    rfl

/-- A lookup returns what was admitted under the key and keeps the invariant. -/
theorem get_spec {cache : InversionCache E} (h : cache.Inv good) (key : List Nat) :
    (∀ m, (cache.get key).1 = some m → good key m) ∧ (cache.get key).2.Inv good := by
  have hlaw := LawfulPlatform.lru_lawful (E := E)
  refine ⟨fun m hm => ?_, ?_⟩
  · simp only [get, hlaw.get_eq] at hm
    obtain ⟨v, hv, rfl⟩ := Option.map_eq_some_iff.mp hm
    exact h.entry _ (LruMap.find_eq_some hv)
  · have hperm := hlaw.entries_get key cache.entries
    refine ⟨fun e he => h.entry e (hperm.mem_iff.mp he), ?_⟩
    exact h.retained_eq.trans ((hperm.map fun e => e.2.bytes).sum_eq).symm

theorem removeKey_spec {cache : InversionCache E} (h : cache.Inv good) (key : List Nat) :
    (cache.removeKey key).Sat
      (fun t => t.Inv good ∧ t.capacity = cache.capacity ∧ LruMap.find key t.listed = none)
      (fun _ => False) False := by
  have hlaw := LawfulPlatform.lru_lawful (E := E)
  have hentries := hlaw.entries_remove key cache.entries
  have hcap := hlaw.capacity_remove key cache.entries
  have hfind := hlaw.remove_eq key cache.entries
  rcases hres : (lru (E := E)).remove key cache.entries with ⟨previous, entries⟩
  rw [hres] at hentries hcap hfind
  simp only at hentries hcap hfind
  have hgone : LruMap.find key ((lru (E := E)).entries entries) = none := by
    rw [LruMap.find_eq_none, hentries]
    intro e he
    simpa using (List.mem_filter.mp he).2
  have hentry : ∀ e ∈ (lru (E := E)).entries entries, good e.1 e.2.matrix := by
    intro e he
    rw [hentries] at he
    exact h.entry e (List.mem_filter.mp he).1
  simp only [removeKey, hres]
  cases previous with
  | none =>
    have hsame : (lru (E := E)).entries entries = (lru (E := E)).entries cache.entries := by
      rw [hentries, List.filter_eq_self]
      intro e he
      simpa using LruMap.find_eq_none.mp hfind.symm e he
    refine ⟨⟨hentry, ?_⟩, hcap, hgone⟩
    change cache.retainedBytes = (((lru (E := E)).entries entries).map fun e => e.2.bytes).sum
    rw [hsame]
    exact h.retained_eq
  | some previous =>
    have hperm := LruMap.perm_cons_filter (hlaw.nodup cache.entries) hfind.symm
    have hsum := h.retained_eq.trans (hperm.map fun e => e.2.bytes).sum_eq
    rw [List.map_cons, List.sum_cons, ← hentries] at hsum
    simp only at hsum
    have hle : previous.bytes ≤ cache.retainedBytes := by omega
    simp only [subtract, if_pos hle, Outcome.ok_bind, Outcome.pure_eq]
    refine ⟨⟨hentry, ?_⟩, hcap, hgone⟩
    change cache.retainedBytes - previous.bytes =
      (((lru (E := E)).entries entries).map fun e => e.2.bytes).sum
    omega

/-- With one round more than there are entries the eviction loop makes room: it
never runs out of candidates and never subtracts below zero. -/
theorem evict_spec (bytes fuel evictions : Nat) {cache : InversionCache E} (h : cache.Inv good)
    (hcap : 0 < cache.capacity) (hfuel : cache.listed.length < fuel) {key : List Nat}
    (hkey : LruMap.find key cache.listed = none) :
    (evict bytes fuel cache evictions).Sat
      (fun t => t.1.Inv good ∧ LruMap.find key t.1.listed = none ∧ t.1.len < t.1.capacity)
      (fun _ => False) False := by
  have hlaw := LawfulPlatform.lru_lawful (E := E)
  induction fuel generalizing cache evictions with
  | zero => exact absurd hfuel (Nat.not_lt_zero _)
  | succ fuel ih =>
    rw [evict]
    split_ifs with hover
    swap
    · exact ⟨h, hkey, by change cache.len < cache.capacity; omega⟩
    have hlen : cache.len = cache.listed.length := hlaw.len_eq cache.entries
    have hret := h.retained_eq
    cases hlist : cache.listed with
    | nil =>
      rw [hlist] at hlen hret
      simp only [List.length_nil] at hlen
      simp only [List.map_nil, List.sum_nil] at hret
      omega
    | cons e es =>
      obtain ⟨hhead, htail⟩ := hlaw.removeLru_cons cache.entries e es hlist
      have hcapRem := hlaw.capacity_removeLru cache.entries
      rcases hres : (lru (E := E)).removeLru cache.entries with ⟨removed, entries⟩
      rw [hres] at hhead htail hcapRem
      obtain rfl : removed = some e := hhead
      rw [hlist, List.map_cons, List.sum_cons] at hret
      have hle : e.2.bytes ≤ cache.retainedBytes := by omega
      simp only [subtract, if_pos hle, Outcome.ok_bind]
      refine ih (evictions + 1) ⟨fun e' he' => ?_, ?_⟩ (lt_of_lt_of_eq hcap hcapRem.symm) ?_ ?_
      · change e' ∈ (lru (E := E)).entries entries at he'
        rw [htail] at he'
        exact h.entry e' (by rw [hlist]; exact List.mem_cons_of_mem e he')
      · change cache.retainedBytes - e.2.bytes =
          (((lru (E := E)).entries entries).map fun e => e.2.bytes).sum
        rw [htail]
        omega
      · change ((lru (E := E)).entries entries).length < fuel
        rw [htail]
        rw [hlist, List.length_cons] at hfuel
        omega
      · change LruMap.find key ((lru (E := E)).entries entries) = none
        rw [htail, LruMap.find_eq_none]
        intro e' he'
        exact LruMap.find_eq_none.mp hkey e' (by rw [hlist]; exact List.mem_cons_of_mem e he')

/-- Inserting an admitted matrix never fails and keeps the invariant. -/
theorem insert_spec {cache : InversionCache E} (h : cache.Inv good) {key : List Nat}
    {matrix : CodingMatrix E} (hgood : good key matrix) :
    (cache.insert key matrix).Sat (fun t => t.2.Inv good) (fun _ => False) False := by
  have hlaw := LawfulPlatform.lru_lawful (E := E)
  unfold insert
  split
  · exact h
  · next bytes _ =>
    split_ifs with hzero
    · exact h
    refine Outcome.Sat.bind (removeKey_spec h key) (fun t ht => ?_)
    obtain ⟨hinv, hcap, hfind⟩ := ht
    have hlen : t.len = t.listed.length := hlaw.len_eq t.entries
    refine Outcome.Sat.bind (evict_spec bytes (t.len + 1) 0 hinv
      (by rw [hcap]; exact Nat.pos_of_ne_zero hzero) (by omega) hfind) (fun u hu => ?_)
    obtain ⟨hinv', hfind', hroom⟩ := hu
    have hins := hlaw.entries_insert key ⟨matrix, bytes⟩ u.1.entries hroom hfind'
    refine ⟨fun e he => ?_, ?_⟩
    · change e ∈ (lru (E := E)).entries _ at he
      rw [hins, List.mem_append, List.mem_singleton] at he
      rcases he with he | rfl
      · exact hinv'.entry e he
      · exact hgood
    · change u.1.retainedBytes + bytes = (((lru (E := E)).entries _).map fun e => e.2.bytes).sum
      rw [hins, List.map_append, List.sum_append, hinv'.retained_eq]
      simp [listed]

end Spec

end InversionCache

namespace ReedSolomon

section Key

variable {E : Type} {codec : ReedSolomon E} {valid invalid : List Nat}

/-- A request as the planners make it: the erasures contain every index below the
last selected survivor that is not selected, and any missing parity after it. -/
structure DecodeRequest (codec : ReedSolomon E) (valid invalid : List Nat) : Prop where
  survivors : codec.Survivors valid
  ascending : Ascending invalid
  disjoint : ∀ i ∈ invalid, i ∉ valid
  covers : ∀ j ∈ valid, ∀ i, i < j → i ∉ valid → i ∈ invalid

/-- The survivors that a cache key stands for. -/
def survivorsOf (codec : ReedSolomon E) (key : List Nat) : List Nat :=
  complement (key.length + codec.dataShardCount) key

/-- The key keeps exactly the erasures below the last selected survivor. -/
theorem DecodeRequest.cacheErasures_eq (h : codec.DecodeRequest valid invalid)
    (hon : codec.options.inversionCache = true) {last : Nat} (hlast : valid.getLast? = some last) :
    codec.cacheErasures valid invalid = complement last valid := by
  have hin : last ∈ valid := List.mem_of_getLast? hlast
  have hmem (i : Nat) : i ∈ complement last valid ↔ i ∈ invalid ∧ i < last := by
    rw [mem_complement]
    constructor
    · rintro ⟨hi, hnot⟩
      exact ⟨h.covers last hin i hi hnot, hi⟩
    · rintro ⟨hi, hlt⟩
      exact ⟨hlt, h.disjoint i hi⟩
  unfold cacheErasures
  rw [hlast]
  cases hmiss : invalid.getLast? with
  | none =>
    obtain rfl := List.getLast?_eq_none_iff.mp hmiss
    refine h.ascending.eq_of_mem_iff (ascending_complement _ _) (fun i => ?_)
    rw [hmem]
    simp
  | some lastMissing =>
    simp only [hon, true_and]
    split_ifs with hgt
    · rw [h.ascending.take_partitionPoint]
      refine (h.ascending.filter _).eq_of_mem_iff (ascending_complement _ _) (fun i => ?_)
      rw [hmem, List.mem_filter, decide_eq_true_eq]
    · refine h.ascending.eq_of_mem_iff (ascending_complement _ _) (fun i => ?_)
      rw [hmem, iff_self_and]
      intro hi
      have hle := h.ascending.le_getLast hmiss hi
      have hne : i ≠ last := by
        rintro rfl
        exact h.disjoint i hi hin
      omega

/-- The key determines the survivors. -/
theorem DecodeRequest.survivorsOf_eq (h : codec.DecodeRequest valid invalid)
    (hdata : 0 < codec.dataShardCount) (hon : codec.options.inversionCache = true) :
    codec.survivorsOf (codec.cacheErasures valid invalid) = valid := by
  have hasc := h.survivors.ascending
  have hlen := h.survivors.length_eq
  cases hlast : valid.getLast? with
  | none =>
    rw [List.getLast?_eq_none_iff.mp hlast, List.length_nil] at hlen
    omega
  | some last =>
    have hin : last ∈ valid := List.mem_of_getLast? hlast
    have hlt : ∀ i ∈ valid, i < last + 1 := fun i hi => Nat.lt_succ_of_le (hasc.le_getLast hlast hi)
    have hcount := hasc.length_complement hlt
    rw [survivorsOf, h.cacheErasures_eq hon hlast, ← complement_succ_of_mem hin, ← hlen, hcount]
    exact hasc.complement_complement hlt

end Key

section Transparency

variable {E : Type} [CodecField E] [LawfulField E] [DecidableEq E] [CachePlatform E]
  [LawfulPlatform E] {codec : ReedSolomon E}

/-- Every cached matrix is the decode matrix of the survivors its key stands for. -/
def CacheInv (codec : ReedSolomon E) (cache : InversionCache E) : Prop :=
  cache.Inv fun key matrix => codec.buildDataDecodeMatrix (codec.survivorsOf key) = .ok matrix

/-- A request through a cache returns what the builder returns and keeps the cache good. -/
theorem getDataDecodeMatrix_eq (hinv : codec.ClassicInv) {cache : InversionCache E}
    (hc : codec.CacheInv cache) {valid invalid : List Nat} (h : codec.DecodeRequest valid invalid) :
    (codec.getDataDecodeMatrix cache valid invalid).1 = codec.buildDataDecodeMatrix valid ∧
      codec.CacheInv (codec.getDataDecodeMatrix cache valid invalid).2 := by
  unfold getDataDecodeMatrix
  rw [if_neg (not_not.mpr h.survivors.length_eq)]
  split_ifs with hon
  swap
  · exact ⟨rfl, hc⟩
  have hkey := h.survivorsOf_eq hinv.data_pos hon
  have hbuilt := buildDataDecodeMatrix_spec hinv h.survivors
  obtain ⟨hhit, hc'⟩ := InversionCache.get_spec hc (codec.cacheErasures valid invalid)
  simp only
  rcases hget : cache.get (codec.cacheErasures valid invalid) with ⟨found, cache'⟩
  rw [hget] at hhit hc'
  cases found with
  | some entry =>
    have hentry := hhit entry rfl
    rw [hkey] at hentry
    exact ⟨hentry.symm, hc'⟩
  | none =>
    simp only
    cases hbuild : codec.buildDataDecodeMatrix valid with
    | panic =>
      rw [hbuild] at hbuilt
      exact hbuilt.elim
    | err e => exact ⟨rfl, hc'⟩
    | ok m =>
      simp only
      have hgood : codec.buildDataDecodeMatrix
          (codec.survivorsOf (codec.cacheErasures valid invalid)) = .ok m := by rw [hkey, hbuild]
      obtain ⟨⟨insertion, cache''⟩, hok, hc''⟩ := (InversionCache.insert_spec hc' hgood).exists_ok
      rw [hok]
      exact ⟨rfl, hc''⟩

/-- The caches a codec can have after any requests. -/
def CacheReachable (codec : ReedSolomon E) (cache : InversionCache E) : Prop :=
  ∃ (capacity maxBytes : Nat) (requests : List (List Nat × List Nat)),
    (∀ r ∈ requests, codec.DecodeRequest r.1 r.2) ∧
      cache = (codec.runRequests (InversionCache.new capacity maxBytes) requests).2

theorem runRequests_eq (hinv : codec.ClassicInv) {cache : InversionCache E}
    (hc : codec.CacheInv cache) (requests : List (List Nat × List Nat))
    (h : ∀ r ∈ requests, codec.DecodeRequest r.1 r.2) :
    (codec.runRequests cache requests).1 =
        requests.map (fun r => codec.buildDataDecodeMatrix r.1) ∧
      codec.CacheInv (codec.runRequests cache requests).2 := by
  induction requests generalizing cache with
  | nil => exact ⟨rfl, hc⟩
  | cons r rest ih =>
    obtain ⟨hresult, hc'⟩ := getDataDecodeMatrix_eq hinv hc (h r (by simp))
    obtain ⟨hrest, hend⟩ := ih hc' (fun r' hr' => h r' (by simp [hr']))
    simp only [runRequests, List.map_cons]
    exact ⟨by rw [hresult, hrest], hend⟩

theorem CacheReachable.inv (hinv : codec.ClassicInv) {cache : InversionCache E}
    (h : codec.CacheReachable cache) : codec.CacheInv cache := by
  obtain ⟨capacity, maxBytes, requests, hreq, rfl⟩ := h
  exact (runRequests_eq hinv (InversionCache.inv_new capacity maxBytes) requests hreq).2

/-- The inversion cache is transparent: through any cache, any sequence of
requests returns what the builder returns, and requests that share a key have
the same survivors. -/
theorem inversion_cache_transparent (h : codec.IsClassic) (capacity maxBytes : Nat)
    (requests : List (List Nat × List Nat)) (hreq : ∀ r ∈ requests, codec.DecodeRequest r.1 r.2) :
    (codec.runRequests (InversionCache.new capacity maxBytes) requests).1 =
        requests.map (fun r => codec.buildDataDecodeMatrix r.1) ∧
      ∀ r ∈ requests, ∀ r' ∈ requests, codec.options.inversionCache = true →
        codec.cacheErasures r.1 r.2 = codec.cacheErasures r'.1 r'.2 → r.1 = r'.1 := by
  refine ⟨(runRequests_eq h.inv (InversionCache.inv_new capacity maxBytes) requests hreq).1, ?_⟩
  intro r hr r' hr' hon hkey
  rw [← (hreq r hr).survivorsOf_eq h.inv.data_pos hon, hkey,
    (hreq r' hr').survivorsOf_eq h.inv.data_pos hon]

end Transparency

section Sample

/-- Key capacity and matrix size of a 64-bit target, over the list LRU. -/
instance : CachePlatform Galois8 where
  lru := listLru (List Nat) (CachedMatrix Galois8)
  keyCapacity key := key.length
  matrixBytes m := 1056 + if m.data.length > 1024 then m.data.length else 0

instance : LawfulPlatform Galois8 := ⟨listLru_lawful _ _⟩

/-- The survivors `[1, 2]` are asked for with and without a trailing erasure. -/
theorem inversion_cache_transparent_sample :
    (sampleCodec.runRequests (InversionCache.new 1 4096)
        [([1, 2], [0]), ([2, 3], [0, 1]), ([1, 2], [0, 3])]).1 =
      [([1, 2], [0]), ([2, 3], [0, 1]), ([1, 2], [0, 3])].map
        (fun r => sampleCodec.buildDataDecodeMatrix r.1) := by
  refine (inversion_cache_transparent sampleCodec_isClassic 1 4096
    [([1, 2], [0]), ([2, 3], [0, 1]), ([1, 2], [0, 3])] ?_).1
  intro r hr
  simp only [List.mem_cons, List.not_mem_nil, or_false] at hr
  rcases hr with rfl | rfl | rfl
  all_goals exact ⟨⟨by decide, by decide, by decide⟩, by decide, by decide, by decide⟩

end Sample

end ReedSolomon

end ErasureCodec
