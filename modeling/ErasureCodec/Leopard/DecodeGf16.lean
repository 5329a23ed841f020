import ErasureCodec.Codec.ParallelPolicy
import ErasureCodec.Leopard.DecodeCall
import ErasureCodec.Leopard.PlanCache
import ErasureCodec.Math.Tiling

namespace ErasureCodec

namespace Leopard

section Definitions

def maxCachedDecodeBytes16 : Nat := 4 * 1024 * 1024

def maxCachedPlanBytes16 : Nat := 8 * 1024 * 1024

/-- What one GF16 decode call takes from its surroundings: capacities of vectors, heap sizes
of plans, and the threads of the pool. -/
structure DecodeEnv16 where
  scratchCapacity : Nat → Nat
  planMemory : DecodePlanKey → DecodePlan 16 → DecodePlanCache.PlanMemory
  availableJobs : Nat

def cacheableDecodeSize (lanes chunkLen : Nat) : Bool :=
  saturate (saturate (saturate (lanes + 1) * chunkLen) * 2) ≤ maxCachedDecodeBytes16

/-- The `retained_bytes` of decode buffers, their scratch vector included. -/
def DecodeEnv16.retainedBytes (env : DecodeEnv16) (buffers : FlatWork 16) : Nat :=
  saturate (buffers.allocatedBytes 2 + saturate (env.scratchCapacity buffers.laneLen * 2))

/-- `with_decode_buffers`: the operation runs on the thread's buffers if they fit, which are
out of the cache meanwhile. -/
def withDecodeBuffers {α : Type} (env : DecodeEnv16) (lanes chunkLen : Nat)
    (operation : Work 16 → α × Work 16) (cache : Option (FlatWork 16)) :
    α × Option (FlatWork 16) :=
  if cacheableDecodeSize lanes chunkLen then
    let buffers := (cache.filter (FlatWork.canReuse lanes chunkLen)).getD (FlatWork.new lanes chunkLen)
    let (result, rows) := operation buffers.rows
    (result, if env.retainedBytes buffers ≤ maxCachedDecodeBytes16 then some { buffers with rows }
      else none)
  else ((operation (FlatWork.new lanes chunkLen).rows).1, cache)

section Plans

variable {lru : LruMap DecodePlanKey (DecodePlan 16 × Nat)}

def decodePlanKey (driver : DecodeDriver) (present : List Bool) : DecodePlanKey :=
  ⟨driver.dataShards, driver.parityShards, present⟩

/-- `decode_plan_for`. The lock is free while the plan is built: `others` is what the other
callers make of the cache meanwhile. -/
def decodePlanFor (env : DecodeEnv16) (others : DecodePlanCache lru → DecodePlanCache lru)
    (driver : DecodeDriver) (present : List Bool) (cache : DecodePlanCache lru) :
    Outcome Error (DecodePlan 16 × DecodePlanCache lru) :=
  match DecodePlanCache.get (decodePlanKey driver present) cache with
  | (some plan, cache) => .ok (plan, cache)
  | (none, cache) => do
    let plan ← buildDecodePlan gf16Decoder present driver
    DecodePlanCache.insert (env.planMemory (decodePlanKey driver present) plan)
      (decodePlanKey driver present) plan (others cache)

end Plans

/-- The windows of a loop from `start` to `stop`. -/
def windowsFrom (start stop size : Nat) : List (Nat × Nat) :=
  (chunkRanges (stop - start) size).map fun window => (start + window.1, start + window.2)

/-- A contiguous group of chunks: its elements, and its output slices by shard and first byte. -/
structure ChunkGroup where
  start : Nat
  stop : Nat
  views : List (Nat × Nat)
  deriving Repr, DecidableEq

/-- The outputs that are split: those of missing shards that have a buffer. -/
def requestedOutputs (present : List Bool) (outputs : List (List (BitVec 8))) : List Nat :=
  (List.range outputs.length).filter fun i => !present.getD i false && !(outputs.getD i []).isEmpty

/-- The bytes of a group of `reconstruct_chunks_parallel`. -/
def groupBytes (chunkSize shardLen maxParallelJobs availableJobs : Nat) : Nat :=
  let chunkCount := divCeil shardLen chunkSize
  let availableJobs := max availableJobs 1
  let maxJobs := if maxParallelJobs = 0 then availableJobs
    else max (min maxParallelJobs availableJobs) 1
  let chunksPerJob := max (divCeil chunkCount maxJobs) 1
  saturate (chunksPerJob * (chunkSize * 2))

/-- Group `g` takes the `g`-th piece of every requested output. -/
def chunkGroups (shardSize bytes : Nat) (requested : List Nat) : List ChunkGroup :=
  (chunkRanges shardSize bytes).mapIdx fun g range =>
    ⟨range.1 / 2, range.2 / 2, requested.map fun i => (i, g * bytes)⟩

/-- The order and the worker threads that the groups of a call get. -/
structure GroupSchedule where
  order : List ChunkGroup → List (Nat × ChunkGroup)
  perm : ∀ groups, ((order groups).map Prod.snd).Perm groups

/-- The loop of a group on the buffers it leased. -/
def runGroup (driver : DecodeDriver) (present : List Bool) (inputs : List (Option (List (BitVec 8))))
    (plan : DecodePlan 16) (targets : List (RecoveryTarget 16)) (group : ChunkGroup)
    (st : Work 16 × List (List (BitVec 8))) :
    Outcome Error PUnit × (Work 16 × List (List (BitVec 8))) :=
  Outcome.runAll (fun st window =>
    decodeStep gf16Family plan driver present inputs targets
      (group.views.map fun view => (view.1, view.2 + (window.1 - group.start) * gf16Layout.unit))
      st window)
    (windowsFrom group.start group.stop driver.chunkSize) st

/-- The loop over all chunks of a shard. -/
def runSerial (driver : DecodeDriver) (present : List Bool)
    (inputs : List (Option (List (BitVec 8)))) (plan : DecodePlan 16)
    (targets : List (RecoveryTarget 16)) (shardLen : Nat) (st : Work 16 × List (List (BitVec 8))) :
    Outcome Error PUnit × (Work 16 × List (List (BitVec 8))) :=
  Outcome.runAll (fun st window =>
    decodeStep gf16Family plan driver present inputs targets
      (targets.map fun t => (t.shard, window.1 * gf16Layout.unit)) st window)
    (chunkRanges shardLen driver.chunkSize) st

/-- A chunk loop on the buffers of a thread. -/
def leased (env : DecodeEnv16) (lanes chunkLen : Nat)
    (loop : Work 16 × List (List (BitVec 8)) →
      Outcome Error PUnit × (Work 16 × List (List (BitVec 8))))
    (st : Option (FlatWork 16) × List (List (BitVec 8))) :
    Outcome Error PUnit × (Option (FlatWork 16) × List (List (BitVec 8))) :=
  let ((result, outputs), cache) := withDecodeBuffers env lanes chunkLen (fun rows =>
    let (result, rows, outputs) := loop (rows, st.2)
    ((result, outputs), rows)) st.1
  (result, cache, outputs)

/-- The decode state that GF16 calls share: the plans of the process and the buffers of
every thread. -/
structure DecodeCaches16 (lru : LruMap DecodePlanKey (DecodePlan 16 × Nat)) where
  plans : DecodePlanCache lru
  buffers : Nat → Option (FlatWork 16)

variable {lru : LruMap DecodePlanKey (DecodePlan 16 × Nat)}

def DecodeCaches16.new : DecodeCaches16 lru :=
  ⟨DecodePlanCache.new lru maxCachedPlanBytes16, fun _ => none⟩

/-- `reconstruct_chunks_parallel`: every group runs on the thread it is scheduled on. -/
def reconstructChunksParallel (env : DecodeEnv16) (driver : DecodeDriver) (present : List Bool)
    (inputs : List (Option (List (BitVec 8)))) (plan : DecodePlan 16)
    (targets : List (RecoveryTarget 16)) (chunkCap : Nat) (tasks : List (Nat × ChunkGroup))
    (st : (Nat → Option (FlatWork 16)) × List (List (BitVec 8))) :
    Outcome Error PUnit × ((Nat → Option (FlatWork 16)) × List (List (BitVec 8))) :=
  Outcome.runAll (fun st task =>
    let (result, cache, outputs) := leased env driver.n chunkCap
      (runGroup driver present inputs plan targets task.2) (st.1 task.1, st.2)
    (result, Function.update st.1 task.1 cache, outputs)) tasks st

/-- `reconstruct_with_tables16_with_options` after the plan is there. -/
def reconstructWithPlan16 (env : DecodeEnv16) (schedule : GroupSchedule) (thread : Nat)
    (maxParallelJobs : Nat) (driver : DecodeDriver) (present : List Bool)
    (inputs : List (Option (List (BitVec 8)))) (plan : DecodePlan 16)
    (st : (Nat → Option (FlatWork 16)) × List (List (BitVec 8))) :
    Outcome Error PUnit × ((Nat → Option (FlatWork 16)) × List (List (BitVec 8))) :=
  let shardLen := driver.shardSize / 2
  let chunkCap := min shardLen driver.chunkSize
  let targets := recoveryTargets driver present plan.errLocs st.2
  if maxParallelJobs ≠ 1 ∧ divCeil shardLen driver.chunkSize ≥ 2 then
    reconstructChunksParallel env driver present inputs plan targets chunkCap
      (schedule.order (chunkGroups driver.shardSize
        (groupBytes driver.chunkSize shardLen maxParallelJobs env.availableJobs)
        (requestedOutputs present st.2))) st
  else
    let (result, cache, outputs) := leased env driver.n chunkCap
      (runSerial driver present inputs plan targets shardLen) (st.1 thread, st.2)
    (result, Function.update st.1 thread cache, outputs)

/-- `reconstruct_with_tables16_with_options` with the driver. -/
def reconstructWithDriver16 (env : DecodeEnv16)
    (others : DecodePlanCache lru → DecodePlanCache lru) (schedule : GroupSchedule)
    (thread maxParallelJobs : Nat) (driver : DecodeDriver) (present : List Bool)
    (inputs : List (Option (List (BitVec 8)))) (caches : DecodeCaches16 lru)
    (outputs : List (List (BitVec 8))) :
    Outcome Error PUnit × DecodeCaches16 lru × List (List (BitVec 8)) :=
  let missing := (missingIn present driver.dataShards driver.parityShards).length +
    (missingIn present 0 driver.dataShards).length
  if missing > driver.parityShards then (.err .tooFewShardsPresent, caches, outputs)
  else if missing = 0 then (.ok ⟨⟩, caches, outputs)
  else
    match decodePlanFor env others driver present caches.plans with
    | .ok (plan, plans) =>
      let (result, buffers, outputs) := reconstructWithPlan16 env schedule thread maxParallelJobs
        driver present inputs plan (caches.buffers, outputs)
      (result, ⟨plans, buffers⟩, outputs)
    | .err e => (.err e, caches, outputs)
    | .panic => (.panic, caches, outputs)

/-- `reconstruct_with_tables16_with_options`. -/
def reconstructWithTables16 (env : DecodeEnv16)
    (others : DecodePlanCache lru → DecodePlanCache lru) (schedule : GroupSchedule)
    (thread maxParallelJobs : Nat) (caches : DecodeCaches16 lru) (present : List Bool)
    (outputs : List (List (BitVec 8))) (inputs : List (Option (List (BitVec 8))))
    (dataShards parityShards : Nat) :
    Outcome Error PUnit × DecodeCaches16 lru × List (List (BitVec 8)) :=
  match validateLeopardDecodeBuffers present outputs inputs dataShards parityShards with
  | .ok shardSize =>
    if present.all id ∨ outputs.all List.isEmpty then (.ok ⟨⟩, caches, outputs)
    else
      match gf16Family.decodeDriver dataShards parityShards shardSize with
      | .ok driver => reconstructWithDriver16 env others schedule thread maxParallelJobs driver
          present inputs caches outputs
      | .err e => (.err e, caches, outputs)
      | .panic => (.panic, caches, outputs)
  | .err e => (.err e, caches, outputs)
  | .panic => (.panic, caches, outputs)

end Definitions

section Spec

variable {dataShards parityShards k n shardSize : Nat} {present : List Bool}
  {outputs : List (List (BitVec 8))} {inputs : List (Option (List (BitVec 8)))}
  {lru : LruMap DecodePlanKey (DecodePlan 16 × Nat)}

/-- A cached plan is the one that its key determines. -/
def PlanOfKey (key : DecodePlanKey) (plan : DecodePlan 16) : Prop :=
  DecodePlanFor gf16Decoder key.dataShards key.parityShards key.present plan

/-- Cached buffers have lanes of one length with any contents. -/
def BuffersOk (cache : Option (FlatWork 16)) : Prop :=
  ∀ flat, cache = some flat → flat.Sized flat.lanes flat.laneLen

/-- The invariant of the shared GF16 decode state. -/
structure DecodeCaches16.Ok (caches : DecodeCaches16 lru) : Prop where
  plans : caches.plans.Ok PlanOfKey
  buffers : ∀ thread, BuffersOk (caches.buffers thread)

theorem DecodeCaches16.ok_new (hlaw : lru.Lawful) : (DecodeCaches16.new : DecodeCaches16 lru).Ok :=
  ⟨DecodePlanCache.ok_new hlaw _ _, fun _ _ h => (Option.some_ne_none _ h.symm).elim⟩

/-- Cached, built, or handed over by another caller, the plan is that of the call. -/
theorem decodePlanFor_spec (shardSize : Nat) (hlru : lru.Ordered) (env : DecodeEnv16)
    {others : DecodePlanCache lru → DecodePlanCache lru}
    (hothers : ∀ cache, DecodePlanCache.Ok PlanOfKey cache → (others cache).Ok PlanOfKey)
    (h : Decodable 16 dataShards parityShards k n) (present : List Bool)
    {cache : DecodePlanCache lru} (hok : cache.Ok PlanOfKey) :
    ∃ cache', decodePlanFor env others
        (gf16Decoder.decodeDriverAt dataShards parityShards shardSize k n) present cache =
        .ok (decodePlanAt gf16Decoder present
          (gf16Decoder.decodeDriverAt dataShards parityShards shardSize k n), cache') ∧
      cache'.Ok PlanOfKey := by
  obtain ⟨driver, hdriver⟩ : ∃ driver, driver =
    gf16Decoder.decodeDriverAt dataShards parityShards shardSize k n := ⟨_, rfl⟩
  have hkey {plan : DecodePlan 16} (hplan : PlanOfKey (decodePlanKey driver present) plan) :
      plan = decodePlanAt gf16Decoder present driver := by
    rw [hdriver] at hplan ⊢
    exact DecodePlanFor.eq hplan h
  have hfresh : PlanOfKey (decodePlanKey driver present) (decodePlanAt gf16Decoder present driver) := by
    rw [hdriver]
    exact h.planFor present
  have hbuild : buildDecodePlan gf16Decoder present
      (gf16Decoder.decodeDriverAt dataShards parityShards shardSize k n) =
      .ok (decodePlanAt gf16Decoder present
        (gf16Decoder.decodeDriverAt dataShards parityShards shardSize k n)) :=
    buildDecodePlan_eq gf16Decoder h present
  obtain ⟨hhit, hafter⟩ := hok.get hlru (decodePlanKey driver present)
  rw [← hdriver] at hbuild ⊢
  unfold decodePlanFor
  rcases hget : DecodePlanCache.get (decodePlanKey driver present) cache with ⟨found, after⟩
  rw [hget] at hhit hafter
  cases found with
  | some plan =>
    obtain rfl := hkey (hhit plan rfl)
    exact ⟨after, rfl, hafter⟩
  | none =>
    obtain ⟨plan', cache', hinsert, hplan', hok'⟩ := (hothers after hafter).insert hlru
      (env.planMemory (decodePlanKey driver present) (decodePlanAt gf16Decoder present driver)) hfresh
    obtain rfl := hkey hplan'
    simp only [hbuild, Outcome.ok_bind, hinsert]
    exact ⟨cache', rfl, hok'⟩

/-- A loop that takes any buffers of its size runs on the leased ones. -/
theorem leased_spec (env : DecodeEnv16) {lanes chunkLen : Nat}
    {loop : Work 16 × List (List (BitVec 8)) →
      Outcome Error PUnit × (Work 16 × List (List (BitVec 8)))} {P : List (List (BitVec 8)) → Prop}
    (hloop : ∀ rows, Grid lanes chunkLen rows → ∃ rows' outputs',
      loop (rows, outputs) = (.ok ⟨⟩, (rows', outputs')) ∧ Grid lanes chunkLen rows' ∧ P outputs')
    {cache : Option (FlatWork 16)} (hok : BuffersOk cache) :
    ∃ cache' outputs', leased env lanes chunkLen loop (cache, outputs) =
      (.ok ⟨⟩, (cache', outputs')) ∧ BuffersOk cache' ∧ P outputs' := by
  unfold leased withDecodeBuffers
  split_ifs with hcache
  · obtain ⟨buffers, hbuffers⟩ : ∃ buffers, buffers =
      (cache.filter (FlatWork.canReuse lanes chunkLen)).getD (FlatWork.new lanes chunkLen) := ⟨_, rfl⟩
    have hsized : buffers.Sized lanes chunkLen := by
      cases hfilter : cache.filter (FlatWork.canReuse lanes chunkLen) with
      | none =>
        rw [hbuffers, hfilter]
        exact ⟨rfl, rfl, grid_new _ _⟩
      | some flat =>
        obtain ⟨hflat, hreuse⟩ := Option.filter_eq_some_iff.mp hfilter
        unfold FlatWork.canReuse at hreuse
        simp only [decide_eq_true_eq] at hreuse
        have hold := hok flat hflat
        rw [hreuse.1, hreuse.2] at hold
        rw [hbuffers, hfilter]
        exact hold
    obtain ⟨rows', outputs', hrun, hgrid, hP⟩ := hloop buffers.rows hsized.grid
    simp only [← hbuffers, hrun]
    refine ⟨_, outputs', rfl, ?_, hP⟩
    intro flat hflat
    split_ifs at hflat with hfits
    obtain rfl := Option.some.inj hflat
    refine ⟨rfl, rfl, ?_⟩
    rw [show ({ buffers with rows := rows' } : FlatWork 16).lanes = lanes from hsized.lanes_eq,
      show ({ buffers with rows := rows' } : FlatWork 16).laneLen = chunkLen from hsized.laneLen_eq]
    exact hgrid
  · obtain ⟨rows', outputs', hrun, -, hP⟩ := hloop _ (grid_new lanes chunkLen)
    simp only [hrun]
    exact ⟨cache, outputs', rfl, hok, hP⟩

end Spec

section Groups

variable {dataShards parityShards k n shardSize : Nat} {present : List Bool}
  {outputs : List (List (BitVec 8))} {inputs : List (Option (List (BitVec 8)))}

/-- Decoding that is finished on the elements that `covered` names. -/
structure DecodedOn {w : Nat} (D : Decoder w) (present : List Bool)
    (inputs : List (Option (List (BitVec 8)))) (dataShards parityShards k n shardSize : Nat)
    (covered : Nat → Prop) (before after : List (List (BitVec 8))) : Prop where
  kept : Kept present before after
  value : ∀ i x, i < dataShards + parityShards → Requested present before i →
    x < shardSize / D.layout.unit → covered x →
    D.value (after.getD i []) x = D.decoded present inputs dataShards parityShards k n i x

theorem DecodedOn.mono {w : Nat} {D : Decoder w} {covered covered' : Nat → Prop}
    {before after : List (List (BitVec 8))}
    (h : DecodedOn D present inputs dataShards parityShards k n shardSize covered before after)
    (hsub : ∀ x, x < shardSize / D.layout.unit → covered' x → covered x) :
    DecodedOn D present inputs dataShards parityShards k n shardSize covered' before after :=
  ⟨h.kept, fun i x hi hreq hx hcov => h.value i x hi hreq hx (hsub x hx hcov)⟩

/-- Nothing is decoded at first. -/
theorem decodedOn_start {w : Nat} (D : Decoder w) (outputs : List (List (BitVec 8))) :
    DecodedOn D present inputs dataShards parityShards k n shardSize (fun _ => False) outputs
      outputs := ⟨Kept.refl present outputs, fun _ _ _ _ _ h => h.elim⟩

theorem DecodedOn.isDecoded {w : Nat} {D : Decoder w} {covered : Nat → Prop}
    {before after : List (List (BitVec 8))}
    (h : DecodedOn D present inputs dataShards parityShards k n shardSize covered before after)
    (hall : ∀ x, x < shardSize / D.layout.unit → covered x) :
    IsDecoded D present inputs dataShards parityShards k n shardSize before after :=
  ⟨h.kept, fun i x hi hreq hx => h.value i x hi hreq hx (hall x hx)⟩

/-- A loop over windows decodes what they cover and keeps what was decoded. -/
theorem runAll_decodedOn {w : Nat} {D : Decoder w}
    (step : Work w × List (List (BitVec 8)) → Nat × Nat →
      Outcome Error PUnit × (Work w × List (List (BitVec 8)))) (windows : List (Nat × Nat))
    (h : Decodable w dataShards parityShards k n)
    (hin : DecodeInput present outputs inputs dataShards parityShards shardSize)
    {plan : DecodePlan w} (hplan : plan = decodePlanAt D present
      (D.decodeDriverAt dataShards parityShards shardSize k n))
    {targets : List (RecoveryTarget w)} (htargets : targets = recoveryTargets
      (D.decodeDriverAt dataShards parityShards shardSize k n) present plan.errLocs outputs)
    (hstep : ∀ window ∈ windows, ∀ st, step st window =
      decodeStep D.toFamily plan (D.decodeDriverAt dataShards parityShards shardSize k n) present
        inputs targets (targets.map fun t => (t.shard, window.1 * D.layout.unit)) st window)
    {cap : Nat} (hwin : ∀ window ∈ windows, ChunkWindow D shardSize cap window) {lanes : Work w}
    (hlanes : Grid (2 ^ n) cap lanes) {covered : Nat → Prop} {current : List (List (BitVec 8))}
    (hcurrent : DecodedOn D present inputs dataShards parityShards k n shardSize covered outputs
      current) :
    ∃ lanes' current', Outcome.runAll step windows (lanes, current) = (.ok ⟨⟩, (lanes', current')) ∧
      Grid (2 ^ n) cap lanes' ∧ DecodedOn D present inputs dataShards parityShards k n shardSize
        (fun x => covered x ∨ ∃ window ∈ windows, window.1 ≤ x ∧ x < window.2) outputs current' := by
  obtain ⟨lanes', current', hrun, hgrid, hkept, hval⟩ := runAll_decodeStep (D := D) h hin.size_dvd
    hin.received hin.outputs hplan htargets step (fun window hmem st _ => hstep window hmem st) hwin
    hlanes hcurrent.kept
  refine ⟨lanes', current', hrun, hgrid, hkept, fun i x hi hreq hx hcov => ?_⟩
  obtain ⟨hin, hout⟩ := hval i x hi hreq hx
  by_cases hwindow : ∃ window ∈ windows, window.1 ≤ x ∧ x < window.2
  · exact hin hwindow
  · rw [hout (fun window hmem hx => hwindow ⟨window, hmem, hx⟩)]
    exact hcurrent.value i x hi hreq hx (hcov.resolve_right hwindow)

theorem windowsFrom_spec {start stop size unit : Nat} (hs : 0 < size) (halign : 64 ∣ size * unit)
    (ha : 64 ∣ start * unit) (hb : 64 ∣ stop * unit) (hle : start ≤ stop) :
    (∀ window ∈ windowsFrom start stop size, start ≤ window.1 ∧ window.1 < window.2 ∧
      window.2 ≤ stop ∧ window.2 - window.1 ≤ size ∧ 64 ∣ window.1 * unit ∧ 64 ∣ window.2 * unit) ∧
    ∀ x, (∃ window ∈ windowsFrom start stop size, window.1 ≤ x ∧ x < window.2) ↔
      start ≤ x ∧ x < stop := by
  have hlen : 64 ∣ (stop - start) * unit := by
    rw [Nat.sub_mul]
    exact Nat.dvd_sub hb ha
  have hbounds (window : Nat × Nat) (hmem : window ∈ windowsFrom start stop size) :
      start ≤ window.1 ∧ window.1 < window.2 ∧ window.2 ≤ stop ∧ window.2 - window.1 ≤ size ∧
        64 ∣ window.1 * unit ∧ 64 ∣ window.2 * unit := by
    obtain ⟨local', hlocal, rfl⟩ := List.mem_map.mp hmem
    obtain ⟨h1, h2, h3⟩ := chunkRanges_bounds hs hlocal
    obtain ⟨h4, h5⟩ := chunkRanges_aligned halign hlen hlocal
    refine ⟨by omega, by omega, by omega, by omega, ?_, ?_⟩
    · rw [Nat.add_mul]
      exact Nat.dvd_add ha h4
    · rw [Nat.add_mul]
      exact Nat.dvd_add ha h5
  refine ⟨hbounds, fun x => ⟨?_, fun hx => ?_⟩⟩
  · intro hx
    obtain ⟨window, hmem, h1, h2⟩ := hx
    have := hbounds window hmem
    omega
  · obtain ⟨window, hmem, h1, h2⟩ := exists_chunkRanges hs (show x - start < stop - start by omega)
    refine ⟨_, List.mem_map.mpr ⟨window, hmem, rfl⟩, ?_, ?_⟩
    · simp only
      omega
    · simp only
      omega

/-- A group over whole blocks of a shard, with the requested outputs from its first byte on. -/
structure ChunkGroup.Ok (shardSize : Nat) (requested : List Nat) (group : ChunkGroup) : Prop where
  lt : group.start < group.stop
  le : group.stop ≤ shardSize / 2
  start_dvd : 64 ∣ group.start * 2
  stop_dvd : 64 ∣ group.stop * 2
  views_eq : group.views = requested.map fun i => (i, group.start * 2)

/-- The groups tile a shard, where a group is made of whole blocks or is the shard. -/
theorem chunkGroups_spec (h64 : 64 ∣ shardSize) {bytes : Nat} (hb : 0 < bytes)
    (halign : 64 ∣ bytes ∨ shardSize ≤ bytes) (requested : List Nat) :
    (∀ group ∈ chunkGroups shardSize bytes requested, group.Ok shardSize requested) ∧
      ∀ x, x < shardSize / 2 → ∃ group ∈ chunkGroups shardSize bytes requested,
        group.start ≤ x ∧ x < group.stop := by
  have hgroups : chunkGroups shardSize bytes requested = (chunkRanges shardSize bytes).map
      fun range => ⟨range.1 / 2, range.2 / 2, requested.map fun i => (i, range.1)⟩ :=
    mapIdx_chunkRanges shardSize bytes (fun _ _ => rfl)
  have hranges (range : Nat × Nat) (hmem : range ∈ chunkRanges shardSize bytes) :
      64 ∣ range.1 ∧ 64 ∣ range.2 := by
    cases halign with
    | inl halign =>
      have hdvd : 64 ∣ range.1 * 1 ∧ 64 ∣ range.2 * 1 :=
        chunkRanges_aligned (by rwa [Nat.mul_one]) (by rwa [Nat.mul_one]) hmem
      rwa [Nat.mul_one, Nat.mul_one] at hdvd
    | inr hle =>
      obtain ⟨hlt, hstop, -⟩ := chunkRanges_bounds hb hmem
      have hwhole := (mem_chunkRanges_iff hb range.1 (by omega) range).mp ⟨hmem, le_rfl, hlt⟩
      have hzero : range.1 / bytes = 0 := Nat.div_eq_of_lt (by omega)
      rw [hzero] at hwhole
      rw [hwhole]
      simp only [Nat.zero_mul, Nat.zero_add, Nat.one_mul, dvd_zero, true_and]
      rwa [min_eq_right hle]
  rw [hgroups]
  constructor
  · intro group hgroup
    obtain ⟨range, hmem, rfl⟩ := List.mem_map.mp hgroup
    obtain ⟨hlt, hstop, -⟩ := chunkRanges_bounds hb hmem
    obtain ⟨⟨a, ha⟩, ⟨b, hb'⟩⟩ := hranges range hmem
    obtain ⟨s, hs⟩ := h64
    constructor
    · simp only
      omega
    · simp only
      omega
    · simp only
      omega
    · simp only
      omega
    · have hhalf : range.1 / 2 * 2 = range.1 := by omega
      simp only [hhalf]
  · intro x hx
    obtain ⟨range, hmem, h1, h2⟩ := exists_chunkRanges hb (show x * 2 < shardSize by omega)
    obtain ⟨⟨a, ha⟩, ⟨b, hb'⟩⟩ := hranges range hmem
    refine ⟨_, List.mem_map.mpr ⟨range, hmem, rfl⟩, ?_, ?_⟩
    · simp only
      omega
    · simp only
      omega

theorem groupBytes_spec (shardLen maxParallelJobs availableJobs : Nat) (hsize : shardSize < usizeLimit) :
    0 < groupBytes workSize16 shardLen maxParallelJobs availableJobs ∧
      (64 ∣ groupBytes workSize16 shardLen maxParallelJobs availableJobs ∨
        shardSize ≤ groupBytes workSize16 shardLen maxParallelJobs availableJobs) := by
  obtain ⟨jobs, hjobs, hbytes⟩ : ∃ jobs, 1 ≤ jobs ∧
      groupBytes workSize16 shardLen maxParallelJobs availableJobs = saturate (jobs * 65536) :=
    ⟨_, le_max_right _ _, rfl⟩
  rw [hbytes]
  unfold saturate
  have hlimit : usizeLimit = 2 ^ 64 := rfl
  rcases Nat.le_total (jobs * 65536) (usizeLimit - 1) with hle | hle
  · rw [min_eq_left hle]
    refine ⟨by omega, .inl ?_⟩
    exact dvd_mul_of_dvd_right (by decide) jobs
  · rw [min_eq_right hle]
    refine ⟨by omega, .inr ?_⟩
    omega

end Groups

section Call

variable {dataShards parityShards k n shardSize : Nat} {present : List Bool}
  {outputs : List (List (BitVec 8))} {inputs : List (Option (List (BitVec 8)))}
  {lru : LruMap DecodePlanKey (DecodePlan 16 × Nat)}

/-- The targets are the requested outputs. -/
theorem map_shard_recoveryTargets {w : Nat} (driver : DecodeDriver) (present : List Bool)
    (errLocs : List (BitVec w)) (hlen : outputs.length = driver.dataShards + driver.parityShards) :
    (recoveryTargets driver present errLocs outputs).map RecoveryTarget.shard =
      requestedOutputs present outputs := by
  unfold recoveryTargets requestedOutputs
  rw [List.map_map, hlen]
  have hid : (RecoveryTarget.shard ∘ fun i => (⟨i, laneOf driver.dataShards driver.m i,
      BitVec.ofNat w (modulus w) - errLocs.getD (laneOf driver.dataShards driver.m i) 0#w⟩ :
      RecoveryTarget w)) = id := rfl
  rw [hid, List.map_id]

/-- The buffers of a GF16 chunk. -/
abbrev chunkCap16 (shardSize : Nat) : Nat := min (shardSize / 2) workSize16

variable (h : Decodable 16 dataShards parityShards k n)
  (hin : DecodeInput present outputs inputs dataShards parityShards shardSize)

include h hin

/-- A group decodes its elements. -/
theorem runGroup_spec {plan : DecodePlan 16} (hplan : plan = decodePlanAt gf16Decoder present
      (gf16Decoder.decodeDriverAt dataShards parityShards shardSize k n)) {group : ChunkGroup}
    (hgroup : group.Ok shardSize (requestedOutputs present outputs)) {covered : Nat → Prop}
    {current : List (List (BitVec 8))}
    (hcurrent : DecodedOn gf16Decoder present inputs dataShards parityShards k n shardSize covered
      outputs current) {rows : Work 16} (hrows : Grid (2 ^ n) (chunkCap16 shardSize) rows) :
    ∃ rows' current', runGroup (gf16Decoder.decodeDriverAt dataShards parityShards shardSize k n)
        present inputs plan (recoveryTargets (gf16Decoder.decodeDriverAt dataShards parityShards
          shardSize k n) present plan.errLocs outputs) group (rows, current) =
        (.ok ⟨⟩, (rows', current')) ∧ Grid (2 ^ n) (chunkCap16 shardSize) rows' ∧
      DecodedOn gf16Decoder present inputs dataShards parityShards k n shardSize
        (fun x => covered x ∨ (group.start ≤ x ∧ x < group.stop)) outputs current' := by
  have hviews := map_shard_recoveryTargets (gf16Decoder.decodeDriverAt dataShards parityShards
    shardSize k n) present plan.errLocs hin.outputs.length_eq
  obtain ⟨hwindows, hcover⟩ := windowsFrom_spec (show 0 < workSize16 by decide)
    (show 64 ∣ workSize16 * gf16Layout.unit by decide) hgroup.start_dvd hgroup.stop_dvd hgroup.lt.le
  have hlt := hgroup.lt
  have hle := hgroup.le
  obtain ⟨rows', current', hrun, hgrid, hdecoded⟩ := runAll_decodedOn (D := gf16Decoder)
    (fun st window => decodeStep gf16Family plan
      (gf16Decoder.decodeDriverAt dataShards parityShards shardSize k n) present inputs
      (recoveryTargets (gf16Decoder.decodeDriverAt dataShards parityShards shardSize k n) present
        plan.errLocs outputs)
      (group.views.map fun view => (view.1, view.2 + (window.1 - group.start) * gf16Layout.unit))
      st window)
    (windowsFrom group.start group.stop workSize16) h hin hplan rfl
    (by
      intro window hmem st
      have hstart := (hwindows window hmem).1
      have hunit : gf16Layout.unit = 2 := rfl
      have hbyte : group.start * 2 + (window.1 - group.start) * gf16Layout.unit =
          window.1 * gf16Layout.unit := by
        rw [hunit]
        omega
      have hdests : (group.views.map fun view =>
          (view.1, view.2 + (window.1 - group.start) * gf16Layout.unit)) =
          (recoveryTargets (gf16Decoder.decodeDriverAt dataShards parityShards shardSize k n) present
            plan.errLocs outputs).map fun t => (t.shard, window.1 * gf16Decoder.layout.unit) := by
        rw [hgroup.views_eq, ← hviews, List.map_map, List.map_map]
        apply List.map_congr_left
        intro t _
        simp only [Function.comp_apply, hbyte]
        rfl
      simp only [hdests]
      rfl)
    (by
      intro window hmem
      obtain ⟨h1, h2, h3, h4, h5, h6⟩ := hwindows window hmem
      refine ⟨h2, ?_, h5, h6, ?_⟩
      · change window.2 ≤ shardSize / 2
        omega
      · rw [Nat.le_min]
        omega)
    hrows hcurrent
  refine ⟨rows', current', hrun, hgrid, hdecoded.mono fun x _ hx => ?_⟩
  exact hx.imp_right (hcover x).mpr

/-- The serial loop decodes everything. -/
theorem runSerial_spec {plan : DecodePlan 16} (hplan : plan = decodePlanAt gf16Decoder present
      (gf16Decoder.decodeDriverAt dataShards parityShards shardSize k n)) {rows : Work 16}
    (hrows : Grid (2 ^ n) (chunkCap16 shardSize) rows) :
    ∃ rows' outputs', runSerial (gf16Decoder.decodeDriverAt dataShards parityShards shardSize k n)
        present inputs plan (recoveryTargets (gf16Decoder.decodeDriverAt dataShards parityShards
          shardSize k n) present plan.errLocs outputs) (shardSize / 2) (rows, outputs) =
        (.ok ⟨⟩, (rows', outputs')) ∧ Grid (2 ^ n) (chunkCap16 shardSize) rows' ∧
      IsDecoded gf16Decoder present inputs dataShards parityShards k n shardSize outputs outputs' := by
  obtain ⟨rows', outputs', hrun, hgrid, hdecoded⟩ := runAll_decodedOn (D := gf16Decoder) _
    (chunkRanges (shardSize / 2) workSize16) h hin hplan rfl (fun _ _ _ => rfl)
    (fun window hmem => chunkWindow_chunkRanges (D := gf16Decoder) hin.size_dvd hmem) hrows
    (decodedOn_start gf16Decoder outputs)
  exact ⟨rows', outputs', hrun, hgrid,
    hdecoded.isDecoded fun x hx => .inr (exists_chunkRanges (by decide) hx)⟩

/-- Groups on any threads and in any order decode their elements. -/
theorem reconstructChunksParallel_spec (env : DecodeEnv16) {plan : DecodePlan 16}
    (hplan : plan = decodePlanAt gf16Decoder present
      (gf16Decoder.decodeDriverAt dataShards parityShards shardSize k n))
    (tasks : List (Nat × ChunkGroup))
    (htasks : ∀ task ∈ tasks, task.2.Ok shardSize (requestedOutputs present outputs))
    {covered : Nat → Prop} {buffers : Nat → Option (FlatWork 16)}
    (hbuffers : ∀ thread, BuffersOk (buffers thread)) {current : List (List (BitVec 8))}
    (hcurrent : DecodedOn gf16Decoder present inputs dataShards parityShards k n shardSize covered
      outputs current) :
    ∃ buffers' current', reconstructChunksParallel env (gf16Decoder.decodeDriverAt dataShards
        parityShards shardSize k n) present inputs plan (recoveryTargets (gf16Decoder.decodeDriverAt
          dataShards parityShards shardSize k n) present plan.errLocs outputs)
        (chunkCap16 shardSize) tasks (buffers, current) = (.ok ⟨⟩, (buffers', current')) ∧
      (∀ thread, BuffersOk (buffers' thread)) ∧
      DecodedOn gf16Decoder present inputs dataShards parityShards k n shardSize
        (fun x => covered x ∨ ∃ task ∈ tasks, task.2.start ≤ x ∧ x < task.2.stop) outputs
        current' := by
  induction tasks generalizing covered buffers current with
  | nil => exact ⟨buffers, current, rfl, hbuffers, hcurrent.mono fun x _ hx => by simpa using hx⟩
  | cons task tasks ih =>
    obtain ⟨cache', mid, hrun, hcache, hmid⟩ := leased_spec env
      (fun rows hrows => runGroup_spec h hin hplan (htasks task List.mem_cons_self) hcurrent hrows)
      (hbuffers task.1)
    have hnext (thread : Nat) : BuffersOk (Function.update buffers task.1 cache' thread) := by
      by_cases heq : thread = task.1
      · rw [heq, Function.update_self]
        exact hcache
      · rw [Function.update_of_ne heq]
        exact hbuffers thread
    obtain ⟨buffers', current', hrest, hbuffers', hcurrent'⟩ :=
      ih (fun t ht => htasks t (List.mem_cons_of_mem _ ht)) hnext hmid
    refine ⟨buffers', current', ?_, hbuffers', hcurrent'.mono fun x _ hx => ?_⟩
    · unfold reconstructChunksParallel at hrest ⊢
      simp only [Outcome.runAll]
      rw [show gf16Decoder.decodeDriverAt dataShards parityShards shardSize k n =
        ⟨dataShards, parityShards, shardSize, 2 ^ k, 2 ^ n, 2 ^ k + dataShards, workSize16⟩ from rfl]
        at hrun hrest ⊢
      simp only [hrun]
      exact hrest
    · rw [List.exists_mem_cons_iff] at hx
      tauto

/-- With the plan of the call the decoder succeeds, serial or in parallel. -/
theorem reconstructWithPlan16_spec (env : DecodeEnv16) (schedule : GroupSchedule)
    (thread maxParallelJobs : Nat) (hsize : shardSize < usizeLimit) {plan : DecodePlan 16}
    (hplan : plan = decodePlanAt gf16Decoder present
      (gf16Decoder.decodeDriverAt dataShards parityShards shardSize k n))
    {buffers : Nat → Option (FlatWork 16)} (hbuffers : ∀ thread, BuffersOk (buffers thread)) :
    ∃ buffers' outputs', reconstructWithPlan16 env schedule thread maxParallelJobs
        (gf16Decoder.decodeDriverAt dataShards parityShards shardSize k n) present inputs plan
        (buffers, outputs) = (.ok ⟨⟩, (buffers', outputs')) ∧
      (∀ thread, BuffersOk (buffers' thread)) ∧
      IsDecoded gf16Decoder present inputs dataShards parityShards k n shardSize outputs outputs' := by
  obtain ⟨driver, hdriver⟩ : ∃ driver, driver =
    gf16Decoder.decodeDriverAt dataShards parityShards shardSize k n := ⟨_, rfl⟩
  have hshard : driver.shardSize = shardSize := by rw [hdriver]; rfl
  have hchunk : driver.chunkSize = workSize16 := by rw [hdriver]; rfl
  have hlanes : driver.n = 2 ^ n := by rw [hdriver]; rfl
  unfold reconstructWithPlan16
  rw [← hdriver]
  simp only [hshard, hchunk, hlanes]
  split_ifs with hparallel
  · obtain ⟨hpos, halign⟩ := groupBytes_spec (shardSize / 2) maxParallelJobs env.availableJobs hsize
    obtain ⟨hgroups, hcover⟩ := chunkGroups_spec hin.size_dvd hpos halign
      (requestedOutputs present outputs)
    obtain ⟨tasks, htasks⟩ : ∃ tasks, tasks = schedule.order (chunkGroups shardSize
      (groupBytes workSize16 (shardSize / 2) maxParallelJobs env.availableJobs)
      (requestedOutputs present outputs)) := ⟨_, rfl⟩
    have hperm := schedule.perm (chunkGroups shardSize
      (groupBytes workSize16 (shardSize / 2) maxParallelJobs env.availableJobs)
      (requestedOutputs present outputs))
    rw [← htasks] at hperm
    obtain ⟨buffers', outputs', hrun, hbuffers', hdecoded⟩ := reconstructChunksParallel_spec h hin
      env hplan tasks (fun task hmem => hgroups task.2
        (hperm.mem_iff.mp (List.mem_map.mpr ⟨task, hmem, rfl⟩))) hbuffers
      (decodedOn_start gf16Decoder outputs)
    rw [← hdriver, htasks] at hrun
    refine ⟨buffers', outputs', hrun, hbuffers', hdecoded.isDecoded fun x hx => .inr ?_⟩
    obtain ⟨group, hmem, hx⟩ := hcover x hx
    obtain ⟨task, htask, rfl⟩ := List.mem_map.mp (hperm.mem_iff.mpr hmem)
    exact ⟨task, htask, hx⟩
  · obtain ⟨cache', outputs', hrun, hcache, hdecoded⟩ := leased_spec env
      (fun rows hrows => runSerial_spec h hin hplan hrows) (hbuffers thread)
    rw [← hdriver] at hrun
    simp only [hrun]
    refine ⟨_, outputs', rfl, fun other => ?_, hdecoded⟩
    by_cases heq : other = thread
    · rw [heq, Function.update_self]
      exact hcache
    · rw [Function.update_of_ne heq]
      exact hbuffers other

end Call

section Top

variable {dataShards parityShards k n shardSize : Nat} {present : List Bool}
  {outputs : List (List (BitVec 8))} {inputs : List (Option (List (BitVec 8)))}
  {lru : LruMap DecodePlanKey (DecodePlan 16 × Nat)} {caches : DecodeCaches16 lru}
  {others : DecodePlanCache lru → DecodePlanCache lru}

/-- The two lists of missing shards are those of the whole range. -/
theorem length_missing_split (present : List Bool) (dataShards parityShards : Nat) :
    (missingIn present dataShards parityShards).length + (missingIn present 0 dataShards).length =
      (missingIn present 0 (dataShards + parityShards)).length := by
  have hsplit := List.range'_append_1 (s := 0) (m := dataShards) (n := parityShards)
  rw [Nat.zero_add] at hsplit
  unfold missingIn
  rw [← hsplit, List.filter_append, List.length_append, Nat.add_comm]

/-- Without a missing shard there is nothing to decode. -/
theorem isDecoded_none {w : Nat} {D : Decoder w} (hnone : (missingIn present 0 (dataShards +
    parityShards)).length = 0) :
    IsDecoded D present inputs dataShards parityShards k n shardSize outputs outputs := by
  refine ⟨Kept.refl present outputs, fun i x hi hreq _ => ?_⟩
  have hmem : i ∈ missingIn present 0 (dataShards + parityShards) :=
    mem_missingIn.mpr ⟨Nat.zero_le _, by omega, hreq.1⟩
  rw [List.length_eq_zero_iff.mp hnone] at hmem
  cases hmem

/-- An accepted GF16 decode call succeeds and decodes the requested shards, whatever the caches
held, other callers did to the plans, and the pool did with the groups. -/
theorem reconstructWithTables16_spec (hlru : lru.Ordered) (env : DecodeEnv16)
    (hothers : ∀ cache, DecodePlanCache.Ok PlanOfKey cache → (others cache).Ok PlanOfKey)
    (schedule : GroupSchedule) (thread maxParallelJobs : Nat) (hok : caches.Ok)
    (h : Decodable 16 dataShards parityShards k n) (hsize : shardSize < usizeLimit)
    (hvalid : validateLeopardDecodeBuffers present outputs inputs dataShards parityShards =
      .ok shardSize) :
    ∃ caches' outputs', reconstructWithTables16 env others schedule thread maxParallelJobs caches
        present outputs inputs dataShards parityShards = (.ok ⟨⟩, caches', outputs') ∧ caches'.Ok ∧
      IsDecoded gf16Decoder present inputs dataShards parityShards k n shardSize outputs outputs' := by
  have hin := validateLeopardDecodeBuffers_ok hvalid
  have hmissing := hin.missing_le
  rw [← length_missing_split] at hmissing
  unfold reconstructWithTables16
  rw [hvalid]
  simp only
  split_ifs with hnone
  · exact ⟨caches, outputs, rfl, hok, isDecoded_refl hnone hin.present_length⟩
  · obtain ⟨n', h', hdriver⟩ := h.toAdmitted.decodeDriver_eq gf16Family hin.size_pos hin.size_dvd
    obtain ⟨-, rfl⟩ := h.unique h'
    rw [hdriver]
    simp only
    unfold reconstructWithDriver16
    have hfew : ¬(missingIn present dataShards parityShards).length +
      (missingIn present 0 dataShards).length > parityShards := Nat.not_lt.mpr hmissing
    simp only
    split_ifs with hmany hzero
    · exact absurd hmany hfew
    · have hzero : (missingIn present dataShards parityShards).length +
        (missingIn present 0 dataShards).length = 0 := hzero
      rw [length_missing_split] at hzero
      exact ⟨caches, outputs, rfl, hok, isDecoded_none hzero⟩
    · obtain ⟨plans', hplan, hplans'⟩ := decodePlanFor_spec shardSize hlru env hothers h present
        hok.plans
      obtain ⟨buffers', outputs', hrun, hbuffers', hdecoded⟩ := reconstructWithPlan16_spec h hin env
        schedule thread maxParallelJobs hsize rfl hok.buffers
      have hplan : decodePlanFor env others (gf16Family.decodeDriverAt dataShards parityShards
        shardSize k n') present caches.plans = _ := hplan
      have hrun : reconstructWithPlan16 env schedule thread maxParallelJobs
        (gf16Family.decodeDriverAt dataShards parityShards shardSize k n') present inputs _ _ = _ :=
        hrun
      rw [hplan]
      simp only
      rw [hrun]
      exact ⟨⟨plans', buffers'⟩, outputs', rfl, ⟨hplans', hbuffers'⟩, hdecoded⟩

end Top

end Leopard

end ErasureCodec
