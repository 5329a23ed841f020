import ErasureCodec.Codec.LeopardReconstruct
import ErasureCodec.Codec.Selection
import ErasureCodec.Leopard.DecodeGf16
import ErasureCodec.Leopard.DecodeGf8

namespace ErasureCodec

open CodecField ReconstructShard Leopard

section Sizes

/-- Lists of the same lengths. -/
structure SameSizes {α : Type} (before after : List (List α)) : Prop where
  length_eq : after.length = before.length
  row_length : ∀ i, (after.getD i []).length = (before.getD i []).length

theorem SameSizes.refl {α : Type} (rows : List (List α)) : SameSizes rows rows :=
  ⟨rfl, fun _ => rfl⟩

theorem SameSizes.trans {α : Type} {before mid after : List (List α)} (h : SameSizes before mid)
    (h' : SameSizes mid after) : SameSizes before after :=
  ⟨h'.length_eq.trans h.length_eq, fun i => (h'.row_length i).trans (h.row_length i)⟩

theorem sameSizes_set {α : Type} {rows : List (List α)} (i : Nat) {row : List α}
    (h : row.length = (rows.getD i []).length) : SameSizes rows (rows.set i row) := by
  refine ⟨List.length_set, fun j => ?_⟩
  rw [getD_set]
  split_ifs with heq
  · rw [h, heq.1]
  · rfl

variable {w : Nat}

theorem sameSizes_recoverOutputs (F : Family w) (targets : List (RecoveryTarget w))
    (dests : List (Nat × Nat)) (views : Work w) (outputs : List (List (BitVec 8))) :
    SameSizes outputs (recoverOutputs F targets dests views outputs) := by
  unfold recoverOutputs
  induction targets.zip dests generalizing outputs with
  | nil => exact SameSizes.refl outputs
  | cons task tasks ih =>
    rw [List.foldl_cons]
    exact (sameSizes_set _ (length_overwrite _ _ _)).trans (ih _)

/-- A chunk writes into the outputs, and their lengths stay. -/
theorem sameSizes_decodeStep (F : Family w) (plan : DecodePlan w) (driver : DecodeDriver)
    (present : List Bool) (inputs : List (Option (List (BitVec 8))))
    (targets : List (RecoveryTarget w)) (dests : List (Nat × Nat))
    (st : Work w × List (List (BitVec 8))) (window : Nat × Nat) :
    SameSizes st.2 (decodeStep F plan driver present inputs targets dests st window).2.2 := by
  unfold decodeStep
  simp only
  split
  · exact sameSizes_recoverOutputs F targets dests _ st.2
  · exact SameSizes.refl st.2

/-- A loop of chunks keeps the lengths of the outputs. -/
theorem sameSizes_runAll {τ : Type} {step : Work w × List (List (BitVec 8)) → τ →
      Outcome Error PUnit × (Work w × List (List (BitVec 8)))}
    (hstep : ∀ st task, SameSizes st.2 (step st task).2.2) (tasks : List τ)
    (st : Work w × List (List (BitVec 8))) :
    SameSizes st.2 (Outcome.runAll step tasks st).2.2 :=
  Outcome.runAll_inv (fun st' => SameSizes st.2 st'.2) step tasks st (SameSizes.refl _)
    (fun task _ st' hst' => hst'.trans (hstep st' task))

theorem sameSizes_reconstructWithTables (env : DecodeEnv8) (cache : DecodeCache)
    (present : List Bool) (outputs : List (List (BitVec 8)))
    (inputs : List (Option (List (BitVec 8)))) (dataShards parityShards : Nat) :
    SameSizes outputs (reconstructWithTables env cache present outputs inputs dataShards
      parityShards).2.2 := by
  unfold reconstructWithTables
  cases validateLeopardDecodeBuffers present outputs inputs dataShards parityShards with
  | err e => exact SameSizes.refl outputs
  | panic => exact SameSizes.refl outputs
  | ok shardSize =>
    simp only
    split_ifs
    · exact SameSizes.refl outputs
    · cases buildLeopardGf8DecodeDriver dataShards parityShards shardSize with
      | err e => exact SameSizes.refl outputs
      | panic => exact SameSizes.refl outputs
      | ok driver =>
        simp only
        unfold reconstructWithDriver8
        cases checkoutPlan8 env cache present driver with
        | err e => exact SameSizes.refl outputs
        | panic => exact SameSizes.refl outputs
        | ok plan =>
          exact sameSizes_runAll (fun st window => sameSizes_decodeStep _ _ _ _ _ _ _ st window) _
            ((checkoutBuffers8 env plan.2.1 driver plan.2.2).1.rows, outputs)

theorem sameSizes_runGroup (driver : DecodeDriver) (present : List Bool)
    (inputs : List (Option (List (BitVec 8)))) (plan : DecodePlan 16)
    (targets : List (RecoveryTarget 16)) (group : ChunkGroup)
    (st : Work 16 × List (List (BitVec 8))) :
    SameSizes st.2 (runGroup driver present inputs plan targets group st).2.2 :=
  sameSizes_runAll (fun st window => sameSizes_decodeStep _ _ _ _ _ _ _ st window) _ st

theorem sameSizes_runSerial (driver : DecodeDriver) (present : List Bool)
    (inputs : List (Option (List (BitVec 8)))) (plan : DecodePlan 16)
    (targets : List (RecoveryTarget 16)) (shardLen : Nat) (st : Work 16 × List (List (BitVec 8))) :
    SameSizes st.2 (runSerial driver present inputs plan targets shardLen st).2.2 :=
  sameSizes_runAll (fun st window => sameSizes_decodeStep _ _ _ _ _ _ _ st window) _ st

/-- A leased loop writes what the loop writes on some buffers. -/
theorem exists_leased_eq (env : DecodeEnv16) (lanes chunkLen : Nat)
    (loop : Work 16 × List (List (BitVec 8)) →
      Outcome Error PUnit × (Work 16 × List (List (BitVec 8))))
    (st : Option (FlatWork 16) × List (List (BitVec 8))) :
    ∃ rows, (leased env lanes chunkLen loop st).2.2 = (loop (rows, st.2)).2.2 := by
  unfold leased withDecodeBuffers
  split_ifs
  · exact ⟨_, rfl⟩
  · exact ⟨_, rfl⟩

theorem sameSizes_leased (env : DecodeEnv16) (lanes chunkLen : Nat)
    {loop : Work 16 × List (List (BitVec 8)) →
      Outcome Error PUnit × (Work 16 × List (List (BitVec 8)))}
    (hloop : ∀ st, SameSizes st.2 (loop st).2.2)
    (st : Option (FlatWork 16) × List (List (BitVec 8))) :
    SameSizes st.2 (leased env lanes chunkLen loop st).2.2 := by
  obtain ⟨rows, heq⟩ := exists_leased_eq env lanes chunkLen loop st
  rw [heq]
  exact hloop (rows, st.2)

theorem sameSizes_reconstructWithPlan16 (env : DecodeEnv16) (schedule : GroupSchedule)
    (thread maxParallelJobs : Nat) (driver : DecodeDriver) (present : List Bool)
    (inputs : List (Option (List (BitVec 8)))) (plan : DecodePlan 16)
    (st : (Nat → Option (FlatWork 16)) × List (List (BitVec 8))) :
    SameSizes st.2 (reconstructWithPlan16 env schedule thread maxParallelJobs driver present inputs
      plan st).2.2 := by
  unfold reconstructWithPlan16
  simp only
  split_ifs
  · unfold reconstructChunksParallel
    refine Outcome.runAll_inv (fun st' => SameSizes st.2 st'.2) _ _ st (SameSizes.refl _) ?_
    intro task _ st' hst'
    exact hst'.trans (sameSizes_leased env _ _ (sameSizes_runGroup driver present inputs plan _
      task.2) (st'.1 task.1, st'.2))
  · exact sameSizes_leased env _ _ (sameSizes_runSerial driver present inputs plan _ _)
      (st.1 thread, st.2)

theorem sameSizes_reconstructWithTables16 {lru : LruMap DecodePlanKey (DecodePlan 16 × Nat)}
    (env : DecodeEnv16) (others : DecodePlanCache lru → DecodePlanCache lru)
    (schedule : GroupSchedule) (thread maxParallelJobs : Nat) (caches : DecodeCaches16 lru)
    (present : List Bool) (outputs : List (List (BitVec 8)))
    (inputs : List (Option (List (BitVec 8)))) (dataShards parityShards : Nat) :
    SameSizes outputs (reconstructWithTables16 env others schedule thread maxParallelJobs caches
      present outputs inputs dataShards parityShards).2.2 := by
  unfold reconstructWithTables16
  cases validateLeopardDecodeBuffers present outputs inputs dataShards parityShards with
  | err e => exact SameSizes.refl outputs
  | panic => exact SameSizes.refl outputs
  | ok shardSize =>
    simp only
    split_ifs
    · exact SameSizes.refl outputs
    · cases gf16Family.decodeDriver dataShards parityShards shardSize with
      | err e => exact SameSizes.refl outputs
      | panic => exact SameSizes.refl outputs
      | ok driver =>
        simp only
        unfold reconstructWithDriver16
        simp only
        split_ifs
        · exact SameSizes.refl outputs
        · exact SameSizes.refl outputs
        · cases decodePlanFor env others driver present caches.plans with
          | err e => exact SameSizes.refl outputs
          | panic => exact SameSizes.refl outputs
          | ok plan =>
            exact sameSizes_reconstructWithPlan16 env schedule thread maxParallelJobs driver present
              inputs plan.1 (caches.buffers, outputs)

end Sizes

section State

variable {lru : LruMap DecodePlanKey (DecodePlan 16 × Nat)}

/-- The Leopard caches of a thread. -/
structure LeopardThread where
  encode8 : EncodeCaches 8
  encode16 : EncodeCaches 16
  decode8 : DecodeCache

/-- The Leopard caches of a process: those of its threads, and the GF16 decode state. -/
structure LeopardState (lru : LruMap DecodePlanKey (DecodePlan 16 × Nat)) where
  threads : Nat → LeopardThread
  decode16 : DecodeCaches16 lru

def LeopardState.new : LeopardState lru :=
  ⟨fun _ => ⟨EncodeCaches.new, EncodeCaches.new, DecodeCache.new⟩, DecodeCaches16.new⟩

def LeopardState.setThread (st : LeopardState lru) (thread : Nat) (caches : LeopardThread) :
    LeopardState lru :=
  { st with threads := Function.update st.threads thread caches }

/-- What another caller can do to the shared plans: look one up, or publish the plan that it
built for a shape that its codec was constructed with. -/
inductive PlanOp where
  | lookup (key : DecodePlanKey)
  | publish (memory : DecodePlanCache.PlanMemory) (dataShards parityShards shardSize : Nat)
      (present : List Bool)
      (fits : leopardShardComboFits dataShards parityShards leopardGf16MaxShards = true)

def PlanOp.run (cache : DecodePlanCache lru) : PlanOp → DecodePlanCache lru
  | .lookup key => (DecodePlanCache.get key cache).2
  | .publish memory dataShards parityShards shardSize present _ =>
    match (do
      let driver ← gf16Family.decodeDriver dataShards parityShards shardSize
      let plan ← buildDecodePlan gf16Decoder present driver
      DecodePlanCache.insert memory (decodePlanKey driver present) plan cache) with
    | .ok (_, cache) => cache
    | .err _ | .panic => cache

/-- What one call takes from its surroundings: its thread, what the engines take, what other
callers do to the plans while it builds one, and the schedule of its chunk groups. -/
structure LeopardEnv where
  thread : Nat
  encode8 : EncodeEnv 8
  encode16 : EncodeEnv 16
  decode8 : DecodeEnv8
  decode16 : DecodeEnv16
  others : List PlanOp
  schedule : GroupSchedule

/-- A call on its own, with empty vectors and one worker thread. -/
def LeopardEnv.alone : LeopardEnv where
  thread := 0
  encode8 := ⟨.directSafe, fun _ _ => 0#8, id, fun _ => 0⟩
  encode16 := ⟨.directSafe, fun _ _ => 0#16, id, fun _ => 0⟩
  decode8 := ⟨false, fun _ => 0, fun _ => 0⟩
  decode16 := ⟨id, fun _ _ => ⟨0, false, 0, 0⟩, 1⟩
  others := []
  schedule := ⟨fun groups => groups.map fun group => (0, group), fun groups => by simp⟩

def LeopardEnv.interfere (env : LeopardEnv) (cache : DecodePlanCache lru) : DecodePlanCache lru :=
  env.others.foldl PlanOp.run cache

end State

section Entries

variable {lru : LruMap DecodePlanKey (DecodePlan 16 × Nat)} {E S σ : Type}

/-- `ByteShardViews::prepare` on a byte field: every slice has the one length. -/
def prepareViews (data parity : List (List E)) (shardLen : Nat) : Outcome Error Unit :=
  if data.any (·.length ≠ shardLen) then .err .incorrectShardSize
  else if parity.any (·.length ≠ shardLen) then .err .incorrectShardSize
  else .ok ()

def encodeLeopardSepInner (encodeFn : σ → List (List E) → List (List E) →
      Outcome Error Unit × σ × List (List E)) (st : σ) (data parity : List (List E)) :
    Outcome Error Unit × σ × List (List E) :=
  match data.head? with
  | none => (.err .tooFewDataShards, st, parity)
  | some shard =>
    match prepareViews data parity shard.length with
    | .ok _ => encodeFn st data parity
    | .err e => (.err e, st, parity)
    | .panic => (.panic, st, parity)

/-- The GF8 encoder on its thread's caches. -/
def leopardGf8Encode (env : LeopardEnv) (dataShards parityShards : Nat) (st : LeopardState lru)
    (data parity : List (List Galois8)) :
    Outcome Error Unit × LeopardState lru × List (List Galois8) :=
  let thread := st.threads env.thread
  let (result, encode8, parity) :=
    encodeWithTables gf8Family env.encode8 thread.encode8 dataShards parityShards data parity
  (result, st.setThread env.thread { thread with encode8 }, parity)

/-- The GF16 encoder on its thread's caches. -/
def leopardGf16Encode (env : LeopardEnv) (dataShards parityShards : Nat) (st : LeopardState lru)
    (data parity : List (List Galois8)) :
    Outcome Error Unit × LeopardState lru × List (List Galois8) :=
  let thread := st.threads env.thread
  let (result, encode16, parity) :=
    encodeWithTables gf16Family env.encode16 thread.encode16 dataShards parityShards data parity
  (result, st.setThread env.thread { thread with encode16 }, parity)

/-- The GF8 decoder on its thread's cache. -/
def leopardGf8Reconstruct (env : LeopardEnv) (dataShards parityShards : Nat)
    (st : LeopardState lru) (present : List Bool) (outputs : List (List Galois8))
    (inputs : List (Option (List Galois8))) :
    Outcome Error Unit × LeopardState lru × List (List Galois8) :=
  let thread := st.threads env.thread
  let (result, decode8, outputs) := reconstructWithTables env.decode8 thread.decode8 present outputs
    inputs dataShards parityShards
  (result, st.setThread env.thread { thread with decode8 }, outputs)

/-- The GF16 decoder on the shared plans and the buffers of the pool. -/
def leopardGf16Reconstruct (env : LeopardEnv) (dataShards parityShards maxParallelJobs : Nat)
    (st : LeopardState lru) (present : List Bool) (outputs : List (List Galois8))
    (inputs : List (Option (List Galois8))) :
    Outcome Error Unit × LeopardState lru × List (List Galois8) :=
  let (result, decode16, outputs) := reconstructWithTables16 env.decode16 env.interfere env.schedule
    env.thread maxParallelJobs st.decode16 present outputs inputs dataShards parityShards
  (result, { st with decode16 }, outputs)

namespace ReedSolomon

variable (codec : ReedSolomon Galois8)

def isLeopardGf8Family : Bool := codec.format.family == .leopardGF8

/-- `encode_sep` of a Leopard codec. -/
def encodeSepLeopard (env : LeopardEnv) (st : LeopardState lru)
    (data parity : List (List Galois8)) :
    Outcome Error Unit × LeopardState lru × List (List Galois8) :=
  match codec.checkEncodeSep data parity with
  | .ok _ =>
    if codec.isLeopardGf8Family then
      encodeLeopardSepInner (leopardGf8Encode env codec.dataShardCount codec.parityShardCount) st
        data parity
    else
      encodeLeopardSepInner (leopardGf16Encode env codec.dataShardCount codec.parityShardCount) st
        data parity
  | .err e => (.err e, st, parity)
  | .panic => (.panic, st, parity)

/-- The decoder of a Leopard codec. -/
def leopardDecode (env : LeopardEnv) (st : LeopardState lru) (present : List Bool)
    (outputs : List (List Galois8)) (inputs : List (Option (List Galois8))) :
    Outcome Error Unit × LeopardState lru × List (List Galois8) :=
  if codec.isLeopardGf8Family then
    leopardGf8Reconstruct env codec.dataShardCount codec.parityShardCount st present outputs inputs
  else
    leopardGf16Reconstruct env codec.dataShardCount codec.parityShardCount
      codec.options.maxParallelJobs st present outputs inputs

theorem sameSizes_leopardDecode (env : LeopardEnv) (st : LeopardState lru) (present : List Bool)
    (outputs : List (List Galois8)) (inputs : List (Option (List Galois8))) :
    SameSizes outputs (codec.leopardDecode env st present outputs inputs).2.2 := by
  unfold leopardDecode
  cases codec.isLeopardGf8Family with
  | true => exact sameSizes_reconstructWithTables _ _ _ _ _ _ _
  | false => exact sameSizes_reconstructWithTables16 _ _ _ _ _ _ _ _ _ _ _

/-- The decoder with the state that it keeps between calls. -/
def leopardDecoder (env : LeopardEnv) : SliceDecoder Galois8 (LeopardState lru) where
  run := codec.leopardDecode env
  length_eq st present outputs inputs :=
    (codec.sameSizes_leopardDecode env st present outputs inputs).length_eq
  row_length st present outputs inputs :=
    (codec.sameSizes_leopardDecode env st present outputs inputs).row_length

variable [ReconstructShard Galois8 S]

/-- `reconstruct` of a Leopard codec. -/
def reconstructLeopard (inlineStaging : Bool) (env : LeopardEnv) (st : LeopardState lru)
    (slices : List S) : Outcome Error Unit × LeopardState lru × List S :=
  codec.reconstructLeopardImpl inlineStaging (codec.leopardDecoder env) (fun _ => true) st slices

/-- `reconstruct_data` of a Leopard codec. -/
def reconstructDataLeopard (inlineStaging : Bool) (env : LeopardEnv) (st : LeopardState lru)
    (slices : List S) : Outcome Error Unit × LeopardState lru × List S :=
  codec.reconstructLeopardImpl inlineStaging (codec.leopardDecoder env)
    (fun index => index < codec.dataShardCount) st slices

/-- `reconstruct_some` of a Leopard codec. -/
def reconstructSomeLeopard (inlineStaging : Bool) (env : LeopardEnv) (st : LeopardState lru)
    (shards : List S) (required : List Bool) : Outcome Error Unit × LeopardState lru × List S :=
  if required.length ≠ codec.dataShardCount ∧ required.length ≠ codec.totalShardCount then
    (.err .invalidShardFlags, st, shards)
  else codec.reconstructLeopardImpl inlineStaging (codec.leopardDecoder env)
    (fun index => required.getD index false) st shards

/-- `reconstruct_opt` of a Leopard codec. -/
def reconstructOptLeopard (env : LeopardEnv) (st : LeopardState lru)
    (shards : List (Option (List Galois8))) :
    Outcome Error Unit × LeopardState lru × List (Option (List Galois8)) :=
  codec.reconstructLeopardOptionDirectWith (codec.leopardDecoder env) (fun _ => true) st shards

/-- `reconstruct_data_opt` of a Leopard codec. -/
def reconstructDataOptLeopard (env : LeopardEnv) (st : LeopardState lru)
    (shards : List (Option (List Galois8))) :
    Outcome Error Unit × LeopardState lru × List (Option (List Galois8)) :=
  codec.reconstructLeopardOptionDirectWith (codec.leopardDecoder env)
    (fun index => index < codec.dataShardCount) st shards

/-- `reconstruct_some_opt` of a Leopard codec. -/
def reconstructSomeOptLeopard (env : LeopardEnv) (st : LeopardState lru)
    (shards : List (Option (List Galois8))) (required : List Bool) :
    Outcome Error Unit × LeopardState lru × List (Option (List Galois8)) :=
  if required.length ≠ codec.totalShardCount ∧ required.length ≠ codec.dataShardCount then
    (.err .invalidShardFlags, st, shards)
  else codec.reconstructLeopardOptionDirectWith (codec.leopardDecoder env)
    (fun index => required.getD index false) st shards

end ReedSolomon

end Entries

section Invariant

variable {lru : LruMap DecodePlanKey (DecodePlan 16 × Nat)}

theorem validateLeopardShardLen_ok {shardLen : Nat} :
    validateLeopardShardLen shardLen = .ok () ↔ 0 < shardLen ∧ 64 ∣ shardLen := by
  have hmultiple : leopardShardMultiple = 64 := rfl
  unfold validateLeopardShardLen
  rw [Outcome.guard_eq_ok, hmultiple]
  constructor
  · rintro ⟨hvalid, -⟩
    omega
  · rintro ⟨hpos, hdvd⟩
    exact ⟨by omega, rfl⟩

/-- A decode driver that was built is that of its shape. -/
theorem Leopard.Admitted.decodeDriver_ok {w dataShards parityShards k shardSize : Nat}
    (h : Admitted w dataShards parityShards k) (F : Family w) {driver : DecodeDriver}
    (hdriver : F.decodeDriver dataShards parityShards shardSize = .ok driver) :
    ∃ n, Decodable w dataShards parityShards k n ∧
      driver = F.decodeDriverAt dataShards parityShards shardSize k n := by
  obtain ⟨_, hlen, -⟩ := Outcome.bind_eq_ok.mp hdriver
  obtain ⟨hpos, hdvd⟩ := validateLeopardShardLen_ok.mp hlen
  obtain ⟨n, hn, heq⟩ := h.decodeDriver_eq F hpos hdvd
  rw [hdriver] at heq
  exact ⟨n, hn, Outcome.ok.inj heq⟩

/-- The invariant of a process: every cache is good. -/
structure LeopardState.Ok (st : LeopardState lru) : Prop where
  encode8 : ∀ thread, (st.threads thread).encode8.Ok gf8Family
  encode16 : ∀ thread, (st.threads thread).encode16.Ok gf16Family
  decode8 : ∀ thread, (st.threads thread).decode8.Ok
  decode16 : st.decode16.Ok

theorem LeopardState.ok_new (hlru : lru.Ordered) : (LeopardState.new : LeopardState lru).Ok :=
  ⟨fun _ => EncodeCaches.ok_new, fun _ => EncodeCaches.ok_new, fun _ => DecodeCache.ok_new,
    DecodeCaches16.ok_new hlru.toLawful⟩

theorem LeopardState.Ok.setThread {st : LeopardState lru} (h : st.Ok) (thread : Nat)
    {caches : LeopardThread} (h8 : caches.encode8.Ok gf8Family) (h16 : caches.encode16.Ok gf16Family)
    (hd : caches.decode8.Ok) : (st.setThread thread caches).Ok := by
  have hcases (P : LeopardThread → Prop) (hnew : P caches) (hold : ∀ t, P (st.threads t)) (t : Nat) :
      P ((st.setThread thread caches).threads t) := by
    unfold LeopardState.setThread
    by_cases heq : t = thread
    · rw [heq]
      simpa using hnew
    · simpa [Function.update_of_ne heq] using hold t
  exact ⟨hcases (fun t => t.encode8.Ok gf8Family) h8 h.encode8,
    hcases (fun t => t.encode16.Ok gf16Family) h16 h.encode16,
    hcases (fun t => t.decode8.Ok) hd h.decode8, h.decode16⟩

/-- Other callers publish plans that are right for their keys. -/
theorem PlanOp.run_ok (hlru : lru.Ordered) (op : PlanOp) {cache : DecodePlanCache lru}
    (h : cache.Ok PlanOfKey) : (op.run cache).Ok PlanOfKey := by
  cases op with
  | lookup key => exact (h.get hlru key).2
  | publish memory dataShards parityShards shardSize present fits =>
    unfold PlanOp.run
    simp only
    obtain ⟨k, hshape⟩ := admitted_of_fits (w := 16) fits
    cases hdriver : gf16Family.decodeDriver dataShards parityShards shardSize with
    | err e => exact h
    | panic => exact h
    | ok driver =>
      obtain ⟨n, hn, hsize⟩ := hshape.decodeDriver_ok gf16Family hdriver
      have hplan : PlanOfKey (decodePlanKey driver present)
          (decodePlanAt gf16Decoder present driver) := by
        rw [hsize]
        exact hn.planFor present
      obtain ⟨plan', cache', hinsert, -, hok⟩ := h.insert hlru memory hplan
      have hbuild : buildDecodePlan gf16Decoder present driver =
          .ok (decodePlanAt gf16Decoder present driver) := by
        rw [hsize]
        exact buildDecodePlan_eq gf16Decoder hn present
      rw [Outcome.ok_bind, hbuild, Outcome.ok_bind, hinsert]
      exact hok

theorem LeopardEnv.interfere_ok (hlru : lru.Ordered) (env : LeopardEnv)
    {cache : DecodePlanCache lru} (h : cache.Ok PlanOfKey) : (env.interfere cache).Ok PlanOfKey := by
  unfold LeopardEnv.interfere
  induction env.others generalizing cache with
  | nil => exact h
  | cons op ops ih => exact ih (op.run_ok hlru h)

end Invariant

end ErasureCodec
