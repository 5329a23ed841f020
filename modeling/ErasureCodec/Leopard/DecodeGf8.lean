import ErasureCodec.Leopard.DecodeCall

namespace ErasureCodec

namespace Leopard

section Definitions

/-- A GF8 `DecodePlan` with its key. -/
structure KeyedPlan where
  dataShards : Nat
  parityShards : Nat
  present : List Bool
  plan : DecodePlan 8

/-- The flags of a key, in an array over all points. -/
def keyFlags (present : List Bool) : List Bool :=
  overwrite 0 present (List.replicate (order 8) false)

/-- The GF8 `DecodePlan::new`. -/
def KeyedPlan.new (present : List Bool) (driver : DecodeDriver) : Outcome Error KeyedPlan := do
  let plan ← buildDecodePlan gf8Decoder present driver
  pure
    { dataShards := driver.dataShards
      parityShards := driver.parityShards
      present := keyFlags present
      plan }

def KeyedPlan.matches (present : List Bool) (driver : DecodeDriver) (keyed : KeyedPlan) : Bool :=
  keyed.dataShards = driver.dataShards ∧ keyed.parityShards = driver.parityShards ∧
    keyed.present.take present.length = present

def maxCachedDecodePlanBytes : Nat := 64 * 1024

def maxCachedDecodeWorkBytes : Nat := 4 * 1024 * 1024

/-- The thread's GF8 `DecodeCache`. -/
structure DecodeCache where
  plan : Option KeyedPlan
  buffers : Option (FlatWork 8)

def DecodeCache.new : DecodeCache := ⟨none, none⟩

/-- What one GF8 decode call takes from its surroundings: whether the cache is
borrowed already, and the heap sizes of plans and buffers. -/
structure DecodeEnv8 where
  borrowed : Bool
  planBytes : KeyedPlan → Nat
  bufferBytes : FlatWork 8 → Nat

def freshBuffers8 (driver : DecodeDriver) : FlatWork 8 :=
  FlatWork.new driver.n (min driver.shardSize driver.chunkSize)

/-- The plan of a call, the cache with it, and whether the cache holds it. -/
def checkoutPlan8 (env : DecodeEnv8) (cache : DecodeCache) (present : List Bool)
    (driver : DecodeDriver) : Outcome Error (KeyedPlan × DecodeCache × Bool) :=
  if env.borrowed then do
    let keyed ← KeyedPlan.new present driver
    pure (keyed, cache, false)
  else
    match cache.plan.filter (KeyedPlan.matches present driver) with
    | some keyed => .ok (keyed, cache, true)
    | none => do
      let keyed ← KeyedPlan.new present driver
      pure (if env.planBytes keyed > maxCachedDecodePlanBytes then (keyed, cache, false)
        else (keyed, { cache with plan := some keyed }, true))

/-- The buffers of a call and whether they are the cached ones. -/
def checkoutBuffers8 (env : DecodeEnv8) (cache : DecodeCache) (driver : DecodeDriver)
    (retained : Bool) : FlatWork 8 × Bool :=
  if retained then
    match cache.buffers.filter
        (FlatWork.canReuse driver.n (min driver.shardSize driver.chunkSize)) with
    | some buffers => (buffers, true)
    | none => (freshBuffers8 driver, env.bufferBytes (freshBuffers8 driver) ≤ maxCachedDecodeWorkBytes)
  else (freshBuffers8 driver, false)

/-- `reconstruct_with_resources`. -/
def reconstructWithResources (driver : DecodeDriver) (present : List Bool)
    (inputs : List (Option (List (BitVec 8)))) (plan : DecodePlan 8)
    (st : Work 8 × List (List (BitVec 8))) : Outcome Error PUnit × (Work 8 × List (List (BitVec 8))) :=
  Outcome.runAll (fun st window =>
    let targets := recoveryTargets driver present plan.errLocs st.2
    decodeStep gf8Family plan driver present inputs targets
      (targets.map fun t => (t.shard, window.1 * gf8Layout.unit)) st window)
    (chunkRanges driver.shardSize driver.chunkSize) st

/-- `with_decode_resources` around `reconstruct_with_resources`. -/
def reconstructWithDriver8 (env : DecodeEnv8) (cache : DecodeCache) (driver : DecodeDriver)
    (present : List Bool) (outputs : List (List (BitVec 8)))
    (inputs : List (Option (List (BitVec 8)))) :
    Outcome Error PUnit × DecodeCache × List (List (BitVec 8)) :=
  match checkoutPlan8 env cache present driver with
  | .ok (keyed, cache, retained) =>
    let (buffers, cached) := checkoutBuffers8 env cache driver retained
    let (result, st) := reconstructWithResources driver present inputs keyed.plan
      (buffers.rows, outputs)
    (result, if cached then { cache with buffers := some { buffers with rows := st.1 } } else cache,
      st.2)
  | .err e => (.err e, cache, outputs)
  | .panic => (.panic, cache, outputs)

/-- The GF8 `reconstruct_with_tables`. -/
def reconstructWithTables (env : DecodeEnv8) (cache : DecodeCache) (present : List Bool)
    (outputs : List (List (BitVec 8))) (inputs : List (Option (List (BitVec 8))))
    (dataShards parityShards : Nat) : Outcome Error PUnit × DecodeCache × List (List (BitVec 8)) :=
  match validateLeopardDecodeBuffers present outputs inputs dataShards parityShards with
  | .ok shardSize =>
    if present.all id ∨ outputs.all List.isEmpty then (.ok ⟨⟩, cache, outputs)
    else
      match buildLeopardGf8DecodeDriver dataShards parityShards shardSize with
      | .ok driver => reconstructWithDriver8 env cache driver present outputs inputs
      | .err e => (.err e, cache, outputs)
      | .panic => (.panic, cache, outputs)
  | .err e => (.err e, cache, outputs)
  | .panic => (.panic, cache, outputs)

end Definitions

section Spec

variable {dataShards parityShards k n shardSize : Nat} {present : List Bool}
  {outputs : List (List (BitVec 8))} {inputs : List (Option (List (BitVec 8)))}

/-- The invariant of the GF8 decode cache: its plan is the plan of its key, and its
buffers have lanes of one length with any contents. -/
structure DecodeCache.Ok (cache : DecodeCache) : Prop where
  plan : ∀ keyed, cache.plan = some keyed → ∃ present,
    present.length = keyed.dataShards + keyed.parityShards ∧ keyed.present = keyFlags present ∧
      DecodePlanFor gf8Decoder keyed.dataShards keyed.parityShards present keyed.plan
  buffers : ∀ flat, cache.buffers = some flat → flat.Sized flat.lanes flat.laneLen

theorem DecodeCache.ok_new : DecodeCache.new.Ok :=
  ⟨fun _ h => (Option.some_ne_none _ h.symm).elim, fun _ h => (Option.some_ne_none _ h.symm).elim⟩

theorem take_keyFlags (hlen : present.length ≤ 2 ^ 8) :
    (keyFlags present).take present.length = present := by
  apply take_overwrite_zero
  rw [List.length_replicate]
  exact hlen

theorem keyedPlan_new_eq (shardSize : Nat) (h : Decodable 8 dataShards parityShards k n) (present : List Bool) :
    KeyedPlan.new present (gf8Decoder.decodeDriverAt dataShards parityShards shardSize k n) =
      .ok ⟨dataShards, parityShards, keyFlags present, decodePlanAt gf8Decoder present
        (gf8Decoder.decodeDriverAt dataShards parityShards shardSize k n)⟩ := by
  unfold KeyedPlan.new
  rw [buildDecodePlan_eq gf8Decoder h present, Outcome.ok_bind]
  rfl

/-- Cached, built or local, the plan is that of the call. -/
theorem checkoutPlan8_spec (shardSize : Nat) (env : DecodeEnv8) {cache : DecodeCache} (hok : cache.Ok)
    (h : Decodable 8 dataShards parityShards k n)
    (hlen : present.length = dataShards + parityShards) :
    ∃ keyed cache' retained, checkoutPlan8 env cache present
        (gf8Decoder.decodeDriverAt dataShards parityShards shardSize k n) =
        .ok (keyed, cache', retained) ∧ cache'.Ok ∧ cache'.buffers = cache.buffers ∧
      keyed.plan = decodePlanAt gf8Decoder present
        (gf8Decoder.decodeDriverAt dataShards parityShards shardSize k n) := by
  have hsmall : present.length ≤ 2 ^ 8 := by rw [hlen]; exact h.total_le
  obtain ⟨fresh, hfresh⟩ : ∃ fresh, fresh = KeyedPlan.mk dataShards parityShards (keyFlags present)
    (decodePlanAt gf8Decoder present
      (gf8Decoder.decodeDriverAt dataShards parityShards shardSize k n)) := ⟨_, rfl⟩
  have hnew := keyedPlan_new_eq shardSize h present
  rw [← hfresh] at hnew
  have hplan : fresh.plan = decodePlanAt gf8Decoder present
      (gf8Decoder.decodeDriverAt dataShards parityShards shardSize k n) := by rw [hfresh]
  have hstored : ({ cache with plan := some fresh } : DecodeCache).Ok := by
    refine ⟨fun keyed hkeyed => ?_, hok.buffers⟩
    obtain rfl : fresh = keyed := Option.some.inj hkeyed
    have hflags : fresh.present = keyFlags present := by rw [hfresh]
    have hdata : fresh.dataShards = dataShards := by rw [hfresh]
    have hparity : fresh.parityShards = parityShards := by rw [hfresh]
    refine ⟨present, by rw [hdata, hparity, hlen], hflags, ?_⟩
    rw [hdata, hparity, hplan]
    exact h.planFor present
  unfold checkoutPlan8
  split_ifs with hborrowed
  · rw [hnew, Outcome.ok_bind]
    exact ⟨fresh, cache, false, rfl, hok, rfl, hplan⟩
  · cases hfilter : cache.plan.filter (KeyedPlan.matches present
      (gf8Decoder.decodeDriverAt dataShards parityShards shardSize k n)) with
    | some keyed =>
      obtain ⟨hkeyed, hmatch⟩ := Option.filter_eq_some_iff.mp hfilter
      obtain ⟨cached, hcached, hflags, hfor⟩ := hok.plan keyed hkeyed
      unfold KeyedPlan.matches at hmatch
      simp only [decide_eq_true_eq] at hmatch
      obtain ⟨hd, hp, hpres⟩ := hmatch
      simp only [Family.decodeDriverAt] at hd hp
      rw [hd, hp] at hcached hfor
      have hsame : cached = present := by
        rw [hflags, show present.length = cached.length by omega,
          take_keyFlags (by rw [hcached, ← hlen]; exact hsmall)] at hpres
        exact hpres
      rw [hsame] at hfor
      exact ⟨keyed, cache, true, rfl, hok, rfl, hfor.eq h⟩
    | none =>
      simp only [hnew, Outcome.ok_bind]
      split_ifs with hbytes
      · exact ⟨fresh, cache, false, rfl, hok, rfl, hplan⟩
      · exact ⟨fresh, _, true, rfl, hstored, rfl, hplan⟩

theorem checkoutBuffers8_spec (env : DecodeEnv8) {cache : DecodeCache} (hok : cache.Ok)
    (driver : DecodeDriver) (retained : Bool) :
    (checkoutBuffers8 env cache driver retained).1.Sized driver.n
      (min driver.shardSize driver.chunkSize) := by
  have hfresh : (freshBuffers8 driver).Sized driver.n (min driver.shardSize driver.chunkSize) :=
    ⟨rfl, rfl, grid_new _ _⟩
  unfold checkoutBuffers8
  split_ifs with hretained
  · cases hfilter : cache.buffers.filter
      (FlatWork.canReuse driver.n (min driver.shardSize driver.chunkSize)) with
    | none => exact hfresh
    | some buffers =>
      obtain ⟨hbuffers, hreuse⟩ := Option.filter_eq_some_iff.mp hfilter
      unfold FlatWork.canReuse at hreuse
      simp only [decide_eq_true_eq] at hreuse
      have hsized := hok.buffers buffers hbuffers
      rw [hreuse.1, hreuse.2] at hsized
      exact hsized
  · exact hfresh

/-- The chunk loop of the GF8 decoder. -/
theorem reconstructWithResources_spec (h : Decodable 8 dataShards parityShards k n)
    (hin : DecodeInput present outputs inputs dataShards parityShards shardSize)
    {plan : DecodePlan 8} (hplan : plan = decodePlanAt gf8Decoder present
      (gf8Decoder.decodeDriverAt dataShards parityShards shardSize k n)) {lanes : Work 8}
    (hlanes : Grid (2 ^ n) (min shardSize gf8Decoder.decodeChunkSize) lanes) :
    ∃ lanes' outputs', reconstructWithResources
        (gf8Decoder.decodeDriverAt dataShards parityShards shardSize k n) present inputs plan
        (lanes, outputs) = (.ok ⟨⟩, (lanes', outputs')) ∧
      Grid (2 ^ n) (min shardSize gf8Decoder.decodeChunkSize) lanes' ∧
      IsDecoded gf8Decoder present inputs dataShards parityShards k n shardSize outputs outputs' := by
  have hunit : shardSize / gf8Decoder.layout.unit = shardSize := Nat.div_one _
  obtain ⟨targets, htargets⟩ : ∃ targets, targets = recoveryTargets
    (gf8Decoder.decodeDriverAt dataShards parityShards shardSize k n) present plan.errLocs outputs :=
    ⟨_, rfl⟩
  have hwindow (window : Nat × Nat)
      (hmem : window ∈ chunkRanges shardSize gf8Decoder.decodeChunkSize) :
      ChunkWindow gf8Decoder shardSize (min shardSize gf8Decoder.decodeChunkSize) window := by
    rw [← hunit] at hmem
    have hw := chunkWindow_chunkRanges (D := gf8Decoder) hin.size_dvd hmem
    rwa [hunit] at hw
  obtain ⟨lanes', outputs', hrun, hgrid, hkept, hval⟩ := runAll_decodeStep (D := gf8Decoder) h
    hin.size_dvd hin.received hin.outputs hplan htargets
    (fun st window =>
      let targets := recoveryTargets
        (gf8Decoder.decodeDriverAt dataShards parityShards shardSize k n) present plan.errLocs st.2
      decodeStep gf8Family plan (gf8Decoder.decodeDriverAt dataShards parityShards shardSize k n)
        present inputs targets (targets.map fun t => (t.shard, window.1 * gf8Layout.unit)) st window)
    (fun window _ st hst => by
      have hsame := (hst.recoveryTargets_eq (gf8Decoder.decodeDriverAt dataShards parityShards
        shardSize k n) plan.errLocs).trans htargets.symm
      simp only [hsame]
      rfl)
    hwindow hlanes (Kept.refl present outputs)
  refine ⟨lanes', outputs', hrun, hgrid, ⟨hkept, fun i x hi hreq hx => (hval i x hi hreq hx).1 ?_⟩⟩
  rw [hunit] at hx
  obtain ⟨hmem, h1, h2⟩ := (mem_chunkRanges_iff gf8Decoder.decodeChunk_spec.1 x hx _).mpr rfl
  exact ⟨_, hmem, h1, h2⟩

theorem reconstructWithDriver8_spec (env : DecodeEnv8) {cache : DecodeCache} (hok : cache.Ok)
    (h : Decodable 8 dataShards parityShards k n)
    (hin : DecodeInput present outputs inputs dataShards parityShards shardSize) :
    ∃ cache' outputs', reconstructWithDriver8 env cache
        (gf8Decoder.decodeDriverAt dataShards parityShards shardSize k n) present outputs inputs =
        (.ok ⟨⟩, cache', outputs') ∧ cache'.Ok ∧
      IsDecoded gf8Decoder present inputs dataShards parityShards k n shardSize outputs outputs' := by
  obtain ⟨keyed, cache₁, retained, hplan, hok₁, -, hkeyed⟩ :=
    checkoutPlan8_spec shardSize env hok h hin.present_length
  have hsized := checkoutBuffers8_spec env hok₁
    (gf8Decoder.decodeDriverAt dataShards parityShards shardSize k n) retained
  rcases hbuffers : checkoutBuffers8 env cache₁
    (gf8Decoder.decodeDriverAt dataShards parityShards shardSize k n) retained with ⟨flat, cached⟩
  rw [hbuffers] at hsized
  obtain ⟨lanes', outputs', hrun, hgrid, hdecoded⟩ :=
    reconstructWithResources_spec h hin hkeyed hsized.grid
  unfold reconstructWithDriver8
  rw [hplan]
  simp only [hbuffers, hrun]
  refine ⟨_, _, rfl, ?_, hdecoded⟩
  split_ifs
  · have hrows : Grid flat.lanes flat.laneLen lanes' := by
      rw [hsized.lanes_eq, hsized.laneLen_eq]
      exact hgrid
    refine ⟨hok₁.plan, fun flat' hflat' => ?_⟩
    obtain rfl : _ = flat' := Option.some.inj hflat'
    exact ⟨rfl, rfl, hrows⟩
  · exact hok₁

/-- An accepted GF8 decode call succeeds and decodes the requested shards,
whatever the cache held. -/
theorem reconstructWithTables_spec (env : DecodeEnv8) {cache : DecodeCache} (hok : cache.Ok)
    (h : Decodable 8 dataShards parityShards k n)
    (hvalid : validateLeopardDecodeBuffers present outputs inputs dataShards parityShards =
      .ok shardSize) :
    ∃ cache' outputs', reconstructWithTables env cache present outputs inputs dataShards
        parityShards = (.ok ⟨⟩, cache', outputs') ∧ cache'.Ok ∧
      IsDecoded gf8Decoder present inputs dataShards parityShards k n shardSize outputs outputs' := by
  have hin := validateLeopardDecodeBuffers_ok hvalid
  unfold reconstructWithTables
  rw [hvalid]
  simp only
  split_ifs with hnone
  · exact ⟨cache, outputs, rfl, hok, isDecoded_refl hnone hin.present_length⟩
  · obtain ⟨n', h', hdriver⟩ := h.toAdmitted.decodeDriver_eq gf8Family hin.size_pos hin.size_dvd
    obtain ⟨-, rfl⟩ := h.unique h'
    rw [← decodeDriver_gf8Family, hdriver]
    exact reconstructWithDriver8_spec env hok h hin

end Spec

end Leopard

end ErasureCodec
