import ErasureCodec.Framework.TwoEntryCache
import ErasureCodec.Leopard.PlanCache

namespace ErasureCodec

open CachePlatform

namespace InversionCache

variable {E : Type} [CachePlatform E]

/-- What an insertion charges for a key of the given capacity and a matrix of the given
size. -/
def insertionCharge (keyCapacity matrixBytes : Nat) : Option Nat := do
  let keyBytes ← checked (keyCapacity * usizeBytes)
  checked (matrixBytes + keyBytes)

/-- `insert` of a key vector and a matrix whose allocations the caller chose. -/
def insertAllocated (key : List Nat) (keyCapacity : Nat) (matrix : CodingMatrix E)
    (matrixBytes : Nat) (cache : InversionCache E) :
    Outcome Error (CacheInsertion × InversionCache E) :=
  match (insertionCharge keyCapacity matrixBytes).filter (· ≤ cache.maxBytes) with
  | none => .ok (⟨false, 0⟩, cache)
  | some bytes =>
    if cache.capacity = 0 then .ok (⟨false, 0⟩, cache)
    else do
      let cache ← cache.removeKey key
      let (cache, evictions) ← cache.evict bytes (cache.len + 1) 0
      pure (⟨true, evictions⟩,
        { cache with
          retainedBytes := cache.retainedBytes + bytes
          entries := (lru (E := E)).insert key ⟨matrix, bytes⟩ cache.entries })

theorem insert_eq_insertAllocated (key : List Nat) (matrix : CodingMatrix E)
    (cache : InversionCache E) : cache.insert key matrix =
      cache.insertAllocated key (keyCapacity E key) matrix (CachePlatform.matrixBytes matrix) := rfl

inductive Op (E : Type) where
  | get (key : List Nat)
  | insert (key : List Nat) (keyCapacity : Nat) (matrix : CodingMatrix E) (matrixBytes : Nat)

def step (cache : InversionCache E) : Op E → Outcome Error (InversionCache E)
  | .get key => .ok (cache.get key).2
  | .insert key keyCapacity matrix matrixBytes => do
    let (_, cache) ← cache.insertAllocated key keyCapacity matrix matrixBytes
    pure cache

section Charged

/-- The cache as a charged map. -/
def charged (cache : InversionCache E) : ChargedLru (lru (E := E)) :=
  ⟨cache.entries, cache.retainedBytes, cache.maxBytes⟩

def ofCharged (cache : ChargedLru (lru (E := E))) : InversionCache E :=
  ⟨cache.entries, cache.retainedBytes, cache.maxBytes⟩

variable {cache : InversionCache E}

@[simp] theorem entries_charged : cache.charged.entries = cache.entries := rfl

theorem removeKey_of_charged {key : List Nat} {rest : ChargedLru (lru (E := E))}
    (h : (cache.charged.removeKey CachedMatrix.bytes key : Outcome Error _) = .ok rest) :
    cache.removeKey key = .ok (ofCharged rest) := by
  rw [ChargedLru.removeKey, entries_charged] at h
  rw [removeKey]
  rcases hres : (lru (E := E)).remove key cache.entries with ⟨previous, entries⟩
  rw [hres] at h
  cases previous with
  | none =>
    obtain rfl := Outcome.ok.inj h
    rfl
  | some previous =>
    simp only at h
    split_ifs at h with hle
    obtain rfl := Outcome.ok.inj h
    have hle : previous.bytes ≤ cache.retainedBytes := hle
    simp only [subtract, if_pos hle, Outcome.ok_bind]
    rfl

theorem evict_of_charged {bytes fuel evictions n : Nat} {last : ChargedLru (lru (E := E))}
    (h : (cache.charged.evict CachedMatrix.bytes bytes fuel evictions : Outcome Error _) =
      .ok (last, n)) :
    cache.evict bytes fuel evictions = .ok (ofCharged last, n) := by
  induction fuel generalizing cache evictions with
  | zero => cases h
  | succ fuel ih =>
    rw [ChargedLru.evict] at h
    rw [evict]
    split_ifs at h with hover
    · have hover : cache.len ≥ cache.capacity ∨
          cache.retainedBytes > cache.maxBytes - bytes := hover
      rw [if_pos hover]
      rw [entries_charged] at h
      rcases hres : (lru (E := E)).removeLru cache.entries with ⟨removed, entries⟩
      rw [hres] at h
      cases removed with
      | none => cases h
      | some removed =>
        simp only at h
        split_ifs at h with hle
        have hle : removed.2.bytes ≤ cache.retainedBytes := hle
        simp only [subtract, if_pos hle, Outcome.ok_bind]
        exact ih h
    · have hover : ¬(cache.len ≥ cache.capacity ∨
          cache.retainedBytes > cache.maxBytes - bytes) := hover
      rw [if_neg hover]
      obtain ⟨rfl, rfl⟩ := Prod.mk.inj (Outcome.ok.inj h)
      rfl

/-- An insertion is turned away, or replaces what its key held behind the shortest run of
evictions. -/
inductive Insertion (cache : InversionCache E) (key : List Nat) (keyCapacity : Nat)
    (matrix : CodingMatrix E) (matrixBytes : Nat) : CacheInsertion × InversionCache E → Prop
  | rejected (h : cache.capacity = 0 ∨ ∀ bytes,
      insertionCharge keyCapacity matrixBytes = some bytes → cache.maxBytes < bytes) :
      Insertion cache key keyCapacity matrix matrixBytes (⟨false, 0⟩, cache)
  | kept (hcap : 0 < cache.capacity) (bytes n : Nat)
      (hbytes : insertionCharge keyCapacity matrixBytes = some bytes)
      (hfits : bytes ≤ cache.maxBytes) (cache' : InversionCache E)
      (hinserted : cache.charged.Inserted CachedMatrix.bytes key ⟨matrix, bytes⟩
        cache'.charged n) :
      Insertion cache key keyCapacity matrix matrixBytes (⟨true, n⟩, cache')

variable (hlru : (lru (E := E)).Ordered) (h : cache.charged.Accounted CachedMatrix.bytes)

include hlru h

theorem insertAllocated_spec (key : List Nat) (keyCapacity : Nat) (matrix : CodingMatrix E)
    (matrixBytes : Nat) :
    ∃ result, cache.insertAllocated key keyCapacity matrix matrixBytes = .ok result ∧
      cache.Insertion key keyCapacity matrix matrixBytes result ∧
      result.2.charged.Accounted CachedMatrix.bytes ∧
      cache.charged.SameBounds result.2.charged := by
  cases hcharge : (insertionCharge keyCapacity matrixBytes).filter (· ≤ cache.maxBytes) with
  | none =>
    refine ⟨(⟨false, 0⟩, cache), ?_, .rejected (.inr fun bytes hb => ?_), h, rfl, rfl⟩
    · simp only [insertAllocated, hcharge]
    · rw [hb] at hcharge
      simpa using hcharge
  | some bytes =>
    obtain ⟨hbytes, hfits⟩ := Option.filter_eq_some_iff.mp hcharge
    have hfits : bytes ≤ cache.maxBytes := of_decide_eq_true hfits
    by_cases hzero : cache.capacity = 0
    · refine ⟨(⟨false, 0⟩, cache), ?_, .rejected (.inl hzero), h, rfl, rfl⟩
      simp only [insertAllocated, hcharge, if_pos hzero]
    · have hcap : 0 < cache.capacity := Nat.pos_of_ne_zero hzero
      obtain ⟨rest, last, n, hremove, hplace, hinserted, hacc, hbounds⟩ :=
        ChargedLru.replace_spec (ε := Error) hlru.toLawful h key
          (show CachedMatrix.bytes ⟨matrix, bytes⟩ ≤ cache.maxBytes from hfits) hcap
      obtain ⟨⟨room, n'⟩, hevict, hlast⟩ := Outcome.bind_eq_ok.mp hplace
      obtain ⟨rfl, rfl⟩ := Prod.mk.inj (Outcome.ok.inj hlast)
      have hevict : (ofCharged rest).evict bytes ((ofCharged rest).len + 1) 0 =
          .ok (ofCharged room, n') := evict_of_charged hevict
      refine ⟨(⟨true, n'⟩, { ofCharged room with
          retainedBytes := room.retainedBytes + bytes
          entries := (lru (E := E)).insert key ⟨matrix, bytes⟩ room.entries }), ?_,
        .kept hcap bytes n' hbytes hfits _ hinserted, hacc, hbounds⟩
      simp only [insertAllocated, hcharge, if_neg hzero, removeKey_of_charged hremove,
        Outcome.ok_bind, hevict, Outcome.pure_eq]
      rfl

/-- The cache's own `insert` is an insertion of the vectors it allocates. -/
theorem insert_accounted (key : List Nat) (matrix : CodingMatrix E) :
    ∃ result, cache.insert key matrix = .ok result ∧
      cache.Insertion key (CachePlatform.keyCapacity E key) matrix
        (CachePlatform.matrixBytes matrix) result ∧
      result.2.charged.Accounted CachedMatrix.bytes ∧ cache.charged.SameBounds result.2.charged := by
  rw [insert_eq_insertAllocated]
  exact insertAllocated_spec hlru h key _ matrix _

theorem step_spec (op : Op E) :
    ∃ cache', cache.step op = .ok cache' ∧ cache'.charged.Accounted CachedMatrix.bytes ∧
      cache.charged.SameBounds cache'.charged := by
  cases op with
  | get key =>
    obtain ⟨hacc, hbounds⟩ := ChargedLru.accounted_get hlru.toLawful h key
    exact ⟨_, rfl, hacc, hbounds⟩
  | insert key keyCapacity matrix matrixBytes =>
    obtain ⟨result, hrun, _, hacc, hbounds⟩ :=
      insertAllocated_spec hlru h key keyCapacity matrix matrixBytes
    refine ⟨result.2, ?_, hacc, hbounds⟩
    simp only [step, hrun, Outcome.ok_bind, Outcome.pure_eq]

/-- Every history of a cache runs to its end with good books. -/
theorem run_spec (ops : List (Op E)) :
    ∃ cache', ops.foldlM step cache = .ok cache' ∧
      cache'.charged.Accounted CachedMatrix.bytes ∧
      cache.charged.SameBounds cache'.charged := by
  induction ops generalizing cache with
  | nil => exact ⟨cache, rfl, h, rfl, rfl⟩
  | cons op ops ih =>
    obtain ⟨next, hstep, hacc, hbounds⟩ := step_spec hlru h op
    obtain ⟨last, hrun, hacc', hbounds'⟩ := ih hacc
    refine ⟨last, ?_, hacc', hbounds.trans hbounds'⟩
    rw [List.foldlM_cons, hstep, Outcome.ok_bind, hrun]

end Charged

end InversionCache

namespace ReedSolomon

section Requests

variable {E : Type} [CodecField E] [DecidableEq E] [CachePlatform E] {codec : ReedSolomon E}
variable {cache : InversionCache E}

/-- A request for a decode matrix keeps the books of the cache, whether it is served or not. -/
theorem getDataDecodeMatrix_accounted (hlru : (lru (E := E)).Ordered)
    (h : cache.charged.Accounted CachedMatrix.bytes) (valid invalid : List Nat) :
    (codec.getDataDecodeMatrix cache valid invalid).2.charged.Accounted CachedMatrix.bytes ∧
      cache.charged.SameBounds (codec.getDataDecodeMatrix cache valid invalid).2.charged := by
  have hsame : cache.charged.SameBounds cache.charged := ⟨rfl, rfl⟩
  rw [getDataDecodeMatrix]
  split_ifs with hcount hon
  · exact ⟨h, hsame⟩
  · obtain ⟨hget, hbounds⟩ := ChargedLru.accounted_get hlru.toLawful h
      (codec.cacheErasures valid invalid)
    have hget : (cache.get (codec.cacheErasures valid invalid)).2.charged.Accounted
        CachedMatrix.bytes := hget
    have hbounds : cache.charged.SameBounds
        (cache.get (codec.cacheErasures valid invalid)).2.charged := hbounds
    rcases hentry : cache.get (codec.cacheErasures valid invalid) with ⟨entry, cache₁⟩
    rw [hentry] at hget hbounds
    simp only [hentry]
    cases entry with
    | some entry => exact ⟨hget, hbounds⟩
    | none =>
      cases codec.buildDataDecodeMatrix valid with
      | ok matrix =>
        obtain ⟨result, hinsert, -, hacc, hbounds'⟩ := InversionCache.insert_accounted hlru hget
          (codec.cacheErasures valid invalid) matrix
        simp only [hinsert]
        exact ⟨hacc, hbounds.trans hbounds'⟩
      | err e => exact ⟨hget, hbounds⟩
      | panic => exact ⟨hget, hbounds⟩
  · exact ⟨h, hsame⟩

/-- The caches a codec reaches keep their books and stay within the bounds they were made with. -/
theorem CacheReachable.accounted (hlru : (lru (E := E)).Ordered) (h : codec.CacheReachable cache) :
    cache.charged.Accounted CachedMatrix.bytes := by
  obtain ⟨capacity, maxBytes, requests, -, rfl⟩ := h
  have hrun (requests : List (List Nat × List Nat)) : ∀ start : InversionCache E,
      start.charged.Accounted CachedMatrix.bytes →
        (codec.runRequests start requests).2.charged.Accounted CachedMatrix.bytes := by
    induction requests with
    | nil =>
      intro start hstart
      exact hstart
    | cons request rest ih =>
      intro start hstart
      exact ih _ (getDataDecodeMatrix_accounted hlru hstart request.1 request.2).1
  exact hrun requests _ (ChargedLru.accounted_new hlru.toLawful capacity maxBytes)

end Requests

end ReedSolomon

section Histories

variable {E : Type} [CachePlatform E] {P : Type} {planLru : LruMap DecodePlanKey (P × Nat)}

/-- The byte-budgeted caches keep their books over every history. The two LRU caches never
panic, their recorded bytes are the charges of distinct keys within both bounds, and an
insertion from any reached state is turned away unchanged or evicts the shortest run that
makes room. The two-entry cache holds at most two distinct keys within its budget, hands out
nothing more often than it came in, and a key it handed out stays away until it is inserted
again. -/
theorem byte_budgeted_caches_exact (hlru : (lru (E := E)).Ordered) (hplan : planLru.Ordered)
    (K T : Type) [DecidableEq K] :
    (∀ (capacity maxBytes : Nat) (history : List (InversionCache.Op E)),
      ∃ cache : InversionCache E,
        history.foldlM InversionCache.step (InversionCache.new capacity maxBytes) = .ok cache ∧
        cache.charged.Accounted CachedMatrix.bytes ∧
        cache.capacity = capacity ∧ cache.maxBytes = maxBytes ∧
        ∀ key keyCapacity matrix matrixBytes, ∃ result,
          cache.insertAllocated key keyCapacity matrix matrixBytes = .ok result ∧
          cache.Insertion key keyCapacity matrix matrixBytes result) ∧
    (∀ (maxBytes : Nat) (history : List (DecodePlanCache.Op P)),
      ∃ cache : DecodePlanCache planLru,
        history.foldlM DecodePlanCache.step (DecodePlanCache.new planLru maxBytes) = .ok cache ∧
        cache.Accounted Prod.snd ∧
        cache.capacity = DecodePlanCache.decodePlanCacheEntries ∧ cache.maxBytes = maxBytes ∧
        ∀ memory key plan, ∃ result,
          DecodePlanCache.insert memory key plan cache = .ok result ∧
          DecodePlanCache.Insertion cache memory key plan result) ∧
    (∀ (maxBytes : Nat) (history : List (TwoEntryCache.Op K T)),
      let (taken, cache) := (TwoEntryCache.new maxBytes).run history
      cache.Bounded ∧ cache.maxBytes = maxBytes ∧ cache.listed.length ≤ 2 ∧
        List.Subperm (taken ++ TwoEntryCache.pairs cache.listed)
          (history.flatMap TwoEntryCache.Op.inserted) ∧
        (∀ key value bytes, maxBytes < bytes → cache.insert key value bytes = cache) ∧
        ∀ key later, (∀ op ∈ later, ∀ value, (key, value) ∉ TwoEntryCache.Op.inserted op) →
          (((cache.take key).2.run later).2.take key).1 = none) := by
  refine ⟨fun capacity maxBytes history => ?_, fun maxBytes history => ?_,
    fun maxBytes history => ?_⟩
  · have hnew : (InversionCache.new capacity maxBytes : InversionCache E).charged.Accounted
        CachedMatrix.bytes := ChargedLru.accounted_new hlru.toLawful capacity maxBytes
    obtain ⟨cache, hrun, hacc, hbounds⟩ := InversionCache.run_spec hlru hnew history
    refine ⟨cache, hrun, hacc, hbounds.capacity_eq.trans (hlru.capacity_new capacity),
      hbounds.maxBytes_eq, fun key keyCapacity matrix matrixBytes => ?_⟩
    obtain ⟨result, hresult, hins, _⟩ :=
      InversionCache.insertAllocated_spec hlru hacc key keyCapacity matrix matrixBytes
    exact ⟨result, hresult, hins⟩
  · have hnew : (DecodePlanCache.new planLru maxBytes).Accounted Prod.snd :=
      ChargedLru.accounted_new hplan.toLawful DecodePlanCache.decodePlanCacheEntries maxBytes
    have hcap : (DecodePlanCache.new planLru maxBytes).capacity =
        DecodePlanCache.decodePlanCacheEntries := hplan.capacity_new _
    have hpos : 0 < DecodePlanCache.decodePlanCacheEntries := by decide
    obtain ⟨cache, hrun, hacc, hbounds⟩ :=
      DecodePlanCache.run_spec hplan hnew (hcap ▸ hpos) history
    have hcap' := hbounds.capacity_eq.trans hcap
    refine ⟨cache, hrun, hacc, hcap', hbounds.maxBytes_eq, fun memory key plan => ?_⟩
    obtain ⟨result, hresult, hins, _⟩ :=
      DecodePlanCache.insert_spec hplan hacc (hcap' ▸ hpos) memory key plan
    exact ⟨result, hresult, hins⟩
  · obtain ⟨hbounded, hmax⟩ := TwoEntryCache.bounded_run
      (TwoEntryCache.bounded_new maxBytes : (TwoEntryCache.new maxBytes : TwoEntryCache K T).Bounded)
      history
    have hsub := TwoEntryCache.subperm_run (TwoEntryCache.new maxBytes : TwoEntryCache K T) history
    refine ⟨hbounded, hmax, TwoEntryCache.length_listed_le _, hsub, ?_, ?_⟩
    · intro key value bytes hbig
      rw [TwoEntryCache.insert, if_pos (lt_of_eq_of_lt hmax hbig)]
    · intro key later hlater
      obtain ⟨_, _, habsent⟩ := TwoEntryCache.bounded_take hbounded key
      have hgone := TwoEntryCache.absent_run habsent later hlater
      obtain ⟨e, hkey, _, hperm⟩ | ⟨hnone, _, _⟩ := TwoEntryCache.take_cases _ key
      · exact absurd hkey (hgone e (hperm.mem_iff.mpr List.mem_cons_self))
      · exact hnone

/-- A plan cache of 100 bytes gets three plans, one of them twice and one too large. -/
theorem byte_budgeted_caches_exact_sample :
    ∃ cache : DecodePlanCache (listLru DecodePlanKey (Nat × Nat)),
      [DecodePlanCache.Op.insert ⟨8, false, 0, 40⟩ ⟨2, 1, [true]⟩ 7, .get ⟨2, 1, [true]⟩,
        .insert ⟨8, false, 0, 50⟩ ⟨3, 1, [false]⟩ 8, .insert ⟨8, true, 300, 50⟩ ⟨4, 1, []⟩ 9,
        .insert ⟨8, false, 0, 40⟩ ⟨2, 1, [true]⟩ 7].foldlM DecodePlanCache.step
          (DecodePlanCache.new _ 100) = .ok cache ∧ cache.Accounted Prod.snd := by
  have hlru : (lru (E := Galois8)).Ordered := LruMap.listLru_ordered
  have hplan : (listLru DecodePlanKey (Nat × Nat)).Ordered := LruMap.listLru_ordered
  obtain ⟨cache, hrun, hacc, _⟩ := (byte_budgeted_caches_exact hlru hplan Nat Nat).2.1 100 _
  exact ⟨cache, hrun, hacc⟩

end Histories

end ErasureCodec
