import ErasureCodec.Codec.ParallelPolicy
import ErasureCodec.Codec.Workspace

namespace ErasureCodec

open CodecField ReconstructShard

/-- A bounded range of the plan's data rows followed by its parity rows. -/
structure ClassicReconstructRows (E : Type) where
  plan : ClassicReconstructPlan E
  encodingMatrix : CodingMatrix E
  start : Nat
  len : Nat

namespace ClassicReconstructRows

variable {E : Type} (rows : ClassicReconstructRows E)

def splitAt (index : Nat) : Outcome Error (ClassicReconstructRows E × ClassicReconstructRows E) :=
  if index ≤ rows.len then
    .ok ({ rows with len := index }, { rows with start := rows.start + index, len := rows.len - index })
  else .panic

def row (index : Nat) : Outcome Error (List E) :=
  if rows.len ≤ index then .panic
  else
    let index := rows.start + index
    let dataTargets := rows.plan.dataTargets
    if index < dataTargets.length then
      match rows.plan.decodeMatrix with
      | some inverse => .ok (inverse.getRow (dataTargets.getD index 0))
      | none => .panic
    else
      let index := index - dataTargets.length
      if rows.plan.directParity then
        match rows.plan.parityDecodeRows[index]? with
        | some row => .ok row
        | none => .panic
      else
        match rows.plan.parityTargets[index]? with
        | some target => .ok (rows.encodingMatrix.getRow target)
        | none => .panic

/-- What a callback reads through the view, one row per output. -/
def toRows : Outcome Error (List (List E)) := (List.range rows.len).mapM rows.row

end ClassicReconstructRows

/-- `row_views`; the inverse is checked before any destination is touched. -/
def ClassicReconstructPlan.rowViews {E : Type} (plan : ClassicReconstructPlan E)
    (codec : ReedSolomon E) : Outcome Error (ClassicReconstructRows E) :=
  if !plan.dataTargets.isEmpty && plan.decodeMatrix.isNone then .panic
  else .ok ⟨plan, codec.format.matrix, 0, plan.dataTargets.length + plan.parityTargets.length⟩

/-- What the bulk executor collects; outputs are borrowed by index. -/
structure BulkScan (E : Type) where
  survivors : List Nat
  dataTargets : List Nat
  parityTargets : List Nat
  inputs : List (List E) := []
  dataOutputs : List Nat := []
  parityOutputs : List Nat := []

/-- A callback on a whole stage: stage flag, rows, inputs and outputs. -/
abbrev BulkCompute (E : Type) : Type :=
  Bool → List (List E) → List (List E) → List (List E) → Outcome Error Unit × List (List E)

section Scan

variable {E : Type} [CodecField E]

/-- One shard of the pass: a survivor is read, a missing destination initialized. -/
def scanBulkShard (shardLen : Nat) (directParity : Bool) (scan : BulkScan E)
    (shard : Option (List E)) (index : Nat) : Outcome Error (BulkScan E × Option (List E)) :=
  let (isSurvivor, survivors) := peekNext scan.survivors index
  if isSurvivor then
    match shard with
    | none => .err .tooFewShardsPresent
    | some input => .ok ({ scan with survivors, inputs := scan.inputs ++ [input] }, shard)
  else
    let output := some (shard.getD (List.replicate shardLen zero))
    let (isData, dataTargets) := peekNext scan.dataTargets index
    if isData then
      .ok ({ scan with dataTargets, dataOutputs := scan.dataOutputs ++ [index] }, output)
    else
      let (isParity, parityTargets) := peekNext scan.parityTargets index
      if isParity then
        if directParity then
          .ok ({ scan with parityTargets, dataOutputs := scan.dataOutputs ++ [index] }, output)
        else
          .ok ({ scan with parityTargets, parityOutputs := scan.parityOutputs ++ [index] }, output)
      else .ok (scan, shard)

/-- The pass over the shards from `index` on; an error leaves the destinations
before it initialized. -/
def scanBulk (shardLen : Nat) (directParity : Bool) : Nat → List (Option (List E)) → BulkScan E →
    Outcome Error (BulkScan E) × List (Option (List E))
  | _, [], scan => (.ok scan, [])
  | index, shard :: rest, scan =>
    match scanBulkShard shardLen directParity scan shard index with
    | .err e => (.err e, shard :: rest)
    | .panic => (.panic, shard :: rest)
    | .ok (scan, shard) =>
      let (result, rest) := scanBulk shardLen directParity (index + 1) rest scan
      (result, shard :: rest)

/-- The contents of the borrowed outputs. -/
def outputViews (outputs : List Nat) (shards : List (Option (List E))) : List (List E) :=
  outputs.map fun index => (shards.getD index none).getD []

/-- Write the stage's outputs back through their views. -/
def storeOutputs (outputs : List Nat) (values : List (List E)) (shards : List (Option (List E))) :
    List (Option (List E)) :=
  (outputs.zip values).foldl (fun shards output => shards.set output.1 (some output.2)) shards

/-- One stage: all its outputs in a single callback. -/
def bulkStage (compute : BulkCompute E) (stage : Bool) (rows : ClassicReconstructRows E)
    (inputs : List (List E)) (outputs : List Nat) (shards : List (Option (List E))) :
    Outcome Error Unit × List (Option (List E)) :=
  match rows.toRows with
  | .err e => (.err e, shards)
  | .panic => (.panic, shards)
  | .ok rows =>
    let (result, values) := compute stage rows inputs (outputViews outputs shards)
    (result, storeOutputs outputs values shards)

end Scan

namespace ReedSolomon

section Executors

variable {E : Type} [CodecField E] (codec : ReedSolomon E)

/-- The data and parity stages behind the scan. -/
def bulkStages (compute : BulkCompute E) (plan : ClassicReconstructPlan E)
    (rows dataRows parityRows : ClassicReconstructRows E) (scan : BulkScan E)
    (shards : List (Option (List E))) : Outcome Error Unit × List (Option (List E)) :=
  if plan.directParity then bulkStage compute true rows scan.inputs scan.dataOutputs shards
  else
    match (if scan.dataOutputs.isEmpty then (.ok (), shards)
      else bulkStage compute true dataRows scan.inputs scan.dataOutputs shards) with
    | (.err e, shards) => (.err e, shards)
    | (.panic, shards) => (.panic, shards)
    | (.ok _, shards) =>
      if scan.parityOutputs.isEmpty then (.ok (), shards)
      else
        match (if scan.dataOutputs.isEmpty then .ok scan.inputs
          else useRecoveredData scan.inputs plan.dataTargets
            (outputViews scan.dataOutputs shards)) with
        | .err e => (.err e, shards)
        | .panic => (.panic, shards)
        | .ok inputs => bulkStage compute false parityRows inputs scan.parityOutputs shards

/-- `execute_classic_option_plan_bulk`: the result and the shards it leaves. -/
def executeClassicOptionPlanBulk (compute : BulkCompute E) (plan : ClassicReconstructPlan E)
    (shards : List (Option (List E))) : Outcome Error Unit × List (Option (List E)) :=
  if !plan.hasOutputs then (.ok (), shards)
  else
    match (do
      let rows ← plan.rowViews codec
      let (dataRows, parityRows) ← rows.splitAt plan.dataTargets.length
      pure (rows, dataRows, parityRows)) with
    | .err e => (.err e, shards)
    | .panic => (.panic, shards)
    | .ok (rows, dataRows, parityRows) =>
      match scanBulk plan.shape.shardLen plan.directParity 0 shards
        { survivors := plan.shape.validIndices
          dataTargets := plan.dataTargets
          parityTargets := plan.parityTargets } with
      | (.err e, shards) => (.err e, shards)
      | (.panic, shards) => (.panic, shards)
      | (.ok scan, shards) => bulkStages compute plan rows dataRows parityRows scan shards

/-- The serial callback of the bulk executor. -/
def bulkSerial : BulkCompute E := fun _ rows inputs outputs =>
  (.ok (), codeSomeSlices codec.dataShardCount rows inputs outputs)

def executeClassicOptionPlanSerial (plan : ClassicReconstructPlan E)
    (shards : List (Option (List E))) : Outcome Error Unit × List (Option (List E)) :=
  codec.executeClassicOptionPlanBulk codec.bulkSerial plan shards

/-- The machine a parallel stage runs on: its parallelism, the bytes of an element
and the order in which the callbacks of a stage happen to run. -/
structure ParallelMachine where
  availableParallelism : Nat
  elementSize : Nat
  schedule : Bool → Nat → Nat → Nat → Nat → List ChunkTask
  isSchedule : ∀ stage outputCount shardLen chunkLen jobs, IsSchedule
    (outputChunkGroups outputCount shardLen chunkLen jobs)
    (schedule stage outputCount shardLen chunkLen jobs)

/-- `code_some_slices_with_policy_raw`. -/
def codeSomeSlicesWithPolicyRaw (machine : ParallelMachine) (stage : Bool) (policy : ParallelPolicy)
    (rows inputs outputs : List (List E)) : Outcome Error Unit × List (List E) :=
  let shardLen := (inputs.head?.map List.length).getD 0
  if shardLen = 0 then (.ok (), outputs)
  else
    let decision := policy.decideForElements shardLen machine.elementSize codec.dataShardCount
      outputs.length machine.availableParallelism
    if !decision.useParallel then
      (.ok (), codeSomeSlices codec.dataShardCount rows inputs outputs)
    else
      codeSomeSlicesParChunkedWithJobs codec.dataShardCount rows inputs outputs decision.chunkLen
        (machine.schedule stage outputs.length shardLen decision.chunkLen decision.jobs)

def executeClassicPlanParallel (machine : ParallelMachine) (plan : ClassicReconstructPlan E)
    (shards : List (Option (List E))) (dataPolicy parityPolicy : ParallelPolicy) :
    Outcome Error Unit × List (Option (List E)) :=
  codec.executeClassicOptionPlanBulk (fun stage rows inputs outputs =>
    codec.codeSomeSlicesWithPolicyRaw machine stage (if stage then dataPolicy else parityPolicy)
      rows inputs outputs) plan shards

end Executors

end ReedSolomon

section StageSpec

variable {E : Type}

/-- The shards with the targets holding their bytes. -/
def filled (targets : List Nat) (bytes : Nat → List E) (shards : List (Option (List E))) :
    List (Option (List E)) :=
  shards.mapIdx fun i shard => if i ∈ targets then some (bytes i) else shard

@[simp] theorem length_filled (targets : List Nat) (bytes : Nat → List E)
    (shards : List (Option (List E))) : (filled targets bytes shards).length = shards.length := by
  simp [filled]

theorem getElem?_filled (targets : List Nat) (bytes : Nat → List E)
    (shards : List (Option (List E))) (i : Nat) :
    (filled targets bytes shards)[i]? =
      (shards[i]?).map fun shard => if i ∈ targets then some (bytes i) else shard := by
  simp [filled, List.getElem?_mapIdx]

theorem filled_nil (bytes : Nat → List E) (shards : List (Option (List E))) :
    filled [] bytes shards = shards := by
  apply List.ext_getElem?
  intro i
  simp [getElem?_filled]

/-- Filling one group of targets and then another fills them all. -/
theorem filled_filled {first second : List Nat} (all : List Nat) {bytes bytes' : Nat → List E}
    (hall : ∀ i, i ∈ all ↔ i ∈ first ∨ i ∈ second)
    (hsame : ∀ i ∈ first, i ∉ second → bytes i = bytes' i) (shards : List (Option (List E))) :
    filled second bytes' (filled first bytes shards) = filled all bytes' shards := by
  apply List.ext_getElem?
  intro i
  simp only [getElem?_filled, Option.map_map, hall]
  congr 1
  funext shard
  by_cases h2 : i ∈ second
  · simp [h2]
  · by_cases h1 : i ∈ first
    · simp [h1, h2, hsame i h1 h2]
    · simp [h1, h2]

theorem filled_cons (t : Nat) (targets : List Nat) (bytes : Nat → List E)
    (shards : List (Option (List E))) :
    filled (t :: targets) bytes shards = filled targets bytes (shards.set t (some (bytes t))) := by
  apply List.ext_getElem?
  intro i
  rw [getElem?_filled, getElem?_filled, List.getElem?_set]
  by_cases hi : i ∈ targets
  · by_cases ht : t = i
    · subst ht
      by_cases hlt : t < shards.length <;> simp [hi, hlt]
    · simp [hi, ht]
  · by_cases ht : t = i
    · subst ht
      by_cases hlt : t < shards.length <;> simp [hlt]
    · simp [hi, ht, Ne.symm ht]

theorem storeOutputs_eq (targets : List Nat) (bytes : Nat → List E)
    (shards : List (Option (List E))) :
    storeOutputs targets (targets.map bytes) shards = filled targets bytes shards := by
  unfold storeOutputs
  induction targets generalizing shards with
  | nil => exact (filled_nil bytes shards).symm
  | cons t targets ih =>
    rw [List.map_cons, List.zip_cons_cons, List.foldl_cons, ih, filled_cons]

variable [CodecField E]

/-- Owned vectors accept every output. -/
theorem publish_option {n : Nat} {bytes : Nat → List E} (targets : List Nat)
    (shards : List (Option (List E))) (hnodup : targets.Nodup)
    (hmissing : ∀ t ∈ targets, shards[t]? = some none) :
    publish n (targets.map fun t => (t, bytes t)) shards =
      (.ok (), filled targets bytes shards) := by
  induction targets generalizing shards with
  | nil => rw [filled_nil]; rfl
  | cons t targets ih =>
    obtain ⟨hnot, hnodup⟩ := List.nodup_cons.mp hnodup
    have hslot := hmissing t List.mem_cons_self
    have hrecover : recoverShard n (bytes t) (none : Option (List E)) = .ok (some (bytes t)) := by
      simp [recoverShard, getOrInitialize, store]
    simp only [List.map_cons, publish, hslot, hrecover]
    rw [ih _ hnodup, filled_cons]
    intro i hi
    rw [List.getElem?_set_ne]
    · exact hmissing i (List.mem_cons_of_mem t hi)
    · rintro rfl
      exact hnot hi

/-- The state of the pass when it reaches shard `i`. -/
def BulkScan.upTo (direct : Bool) (valid dataTargets parityTargets : List Nat)
    (content : Nat → List E) (i : Nat) : BulkScan E where
  survivors := valid.filter (i ≤ ·)
  dataTargets := dataTargets.filter (i ≤ ·)
  parityTargets := parityTargets.filter (i ≤ ·)
  inputs := (valid.filter (· < i)).map content
  dataOutputs := (if direct then dataTargets ++ parityTargets else dataTargets).filter (· < i)
  parityOutputs := (if direct then [] else parityTargets).filter (· < i)

omit [CodecField E] in
theorem BulkScan.upTo_zero (direct : Bool) (valid dataTargets parityTargets : List Nat)
    (content : Nat → List E) :
    BulkScan.upTo direct valid dataTargets parityTargets content 0 =
      { survivors := valid, dataTargets, parityTargets } := by
  simp [BulkScan.upTo]

/-- One shard of the pass, over the plan's index lists. -/
theorem scanBulkShard_eq {valid dataTargets parityTargets : List Nat} (direct : Bool)
    (hv : Ascending valid) (ht : Ascending (dataTargets ++ parityTargets))
    (hvt : ∀ i ∈ valid, i ∉ dataTargets ++ parityTargets) {content : Nat → List E}
    (shardLen : Nat) {i : Nat} {shard : Option (List E)} (hpresent : i ∈ valid → shard = some (content i))
    (hmissing : i ∈ dataTargets ++ parityTargets → shard = none) :
    scanBulkShard shardLen direct (BulkScan.upTo direct valid dataTargets parityTargets content i)
        shard i =
      .ok (BulkScan.upTo direct valid dataTargets parityTargets content (i + 1),
        if i ∈ dataTargets ++ parityTargets then some (List.replicate shardLen zero) else shard) := by
  have hd : Ascending dataTargets := (List.pairwise_append.mp ht).1
  have hp : Ascending parityTargets := (List.pairwise_append.mp ht).2.1
  simp only [scanBulkShard, BulkScan.upTo, hv.peekNext_eq, hd.peekNext_eq, hp.peekNext_eq,
    decide_eq_true_eq]
  by_cases hiv : i ∈ valid
  · have hnot := hvt i hiv
    obtain ⟨hnd, hnp⟩ := not_or.mp (mt List.mem_append.mpr hnot)
    rw [if_pos hiv, if_neg hnot, hpresent hiv, hv.filter_lt_of_mem hiv, List.map_append]
    cases direct <;> simp only [Bool.false_eq_true, if_true, if_false, List.map_singleton,
      filter_le_of_notMem hnd, filter_le_of_notMem hnp, filter_lt_of_notMem hnd,
      filter_lt_of_notMem hnp, filter_lt_of_notMem hnot, List.filter_nil]
  · rw [if_neg hiv, filter_le_of_notMem hiv, filter_lt_of_notMem hiv]
    by_cases hmem : i ∈ dataTargets ++ parityTargets
    · rw [if_pos hmem, hmissing hmem, Option.getD_none]
      rcases List.mem_append.mp hmem with hid | hip
      · have hnp : i ∉ parityTargets := fun hip =>
          lt_irrefl i ((List.pairwise_append.mp ht).2.2 i hid i hip)
        rw [if_pos hid]
        cases direct <;> simp only [Bool.false_eq_true, if_true, if_false,
          filter_le_of_notMem hnp, filter_lt_of_notMem hnp, hd.filter_lt_of_mem hid,
          ht.filter_lt_of_mem hmem, List.filter_nil]
      · have hnd : i ∉ dataTargets := fun hid =>
          lt_irrefl i ((List.pairwise_append.mp ht).2.2 i hid i hip)
        rw [if_neg hnd, if_pos hip]
        cases direct <;> simp only [Bool.false_eq_true, if_true, if_false,
          filter_le_of_notMem hnd, filter_lt_of_notMem hnd, hp.filter_lt_of_mem hip,
          ht.filter_lt_of_mem hmem, List.filter_nil]
    · obtain ⟨hnd, hnp⟩ := not_or.mp (mt List.mem_append.mpr hmem)
      rw [if_neg hmem, if_neg hnd, if_neg hnp]
      cases direct <;> simp only [Bool.false_eq_true, if_true, if_false,
        filter_le_of_notMem hnd, filter_le_of_notMem hnp, filter_lt_of_notMem hnd,
        filter_lt_of_notMem hnp, filter_lt_of_notMem hmem, List.filter_nil]

/-- The pass collects the survivors and opens every destination with zeros. -/
theorem scanBulk_upTo {valid dataTargets parityTargets : List Nat} (direct : Bool)
    (hv : Ascending valid) (ht : Ascending (dataTargets ++ parityTargets))
    (hvt : ∀ i ∈ valid, i ∉ dataTargets ++ parityTargets) (content : Nat → List E)
    (shardLen : Nat) (rest : List (Option (List E))) (index : Nat)
    (hpresent : ∀ j shard, rest[j]? = some shard → index + j ∈ valid →
      shard = some (content (index + j)))
    (hmissing : ∀ j shard, rest[j]? = some shard → index + j ∈ dataTargets ++ parityTargets →
      shard = none) :
    scanBulk shardLen direct index rest
        (BulkScan.upTo direct valid dataTargets parityTargets content index) =
      (.ok (BulkScan.upTo direct valid dataTargets parityTargets content (index + rest.length)),
        rest.mapIdx fun j shard => if index + j ∈ dataTargets ++ parityTargets then
          some (List.replicate shardLen zero) else shard) := by
  induction rest generalizing index with
  | nil => rfl
  | cons shard rest ih =>
    have hshift (j : Nat) : index + (j + 1) = index + 1 + j := by omega
    have hstep := scanBulkShard_eq direct hv ht hvt shardLen
      (fun h => hpresent 0 shard rfl h) (fun h => hmissing 0 shard rfl h)
    rw [Nat.add_zero] at hstep
    have hnext := ih (index + 1)
      (fun j s hs hj => by
        have h := hpresent (j + 1) s hs
        rw [hshift] at h
        exact h hj)
      (fun j s hs hj => by
        have h := hmissing (j + 1) s hs
        rw [hshift] at h
        exact h hj)
    have hmap : (rest.mapIdx fun j shard => if index + (j + 1) ∈ dataTargets ++ parityTargets then
        some (List.replicate shardLen zero) else shard) =
        rest.mapIdx fun j shard => if index + 1 + j ∈ dataTargets ++ parityTargets then
          some (List.replicate shardLen zero) else shard := by
      congr 1
      funext j s
      rw [hshift]
    simp only [scanBulk, hstep, hnext]
    rw [List.mapIdx_cons, hmap, List.length_cons, hshift rest.length]
    rfl

/-- A callback that computes the matrix product of a whole stage. -/
def BulkComputes [LawfulField E] (codec : ReedSolomon E) (compute : BulkCompute E) : Prop :=
  ∀ stage rows inputs outputs n, 0 < n → Grid codec.dataShardCount n inputs →
    Grid outputs.length n outputs →
    compute stage rows inputs outputs =
      (.ok (), outputs.mapIdx fun r _ => codedShard (rows.getD r []) inputs n)

/-- A stage leaves every output with the product of its own row. -/
theorem bulkStage_eq [LawfulField E] {codec : ReedSolomon E} {compute : BulkCompute E}
    (hcompute : BulkComputes codec compute) (stage : Bool) {rows : ClassicReconstructRows E}
    {targets : List Nat} {row : Nat → List E} (bytes : Nat → List E) {inputs : List (List E)}
    {n : Nat} (hn : 0 < n) (hrows : rows.toRows = .ok (targets.map row))
    (hin : Grid codec.dataShardCount n inputs) {shards : List (Option (List E))}
    (hviews : ∀ t ∈ targets, ∃ x, shards[t]? = some (some x) ∧ x.length = n)
    (hval : ∀ t ∈ targets, codedShard (row t) inputs n = bytes t) :
    bulkStage compute stage rows inputs targets shards =
      (.ok (), filled targets bytes shards) := by
  have hview : ∀ out ∈ outputViews targets shards, out.length = n := by
    intro out hout
    obtain ⟨t, ht, rfl⟩ := List.mem_map.mp hout
    obtain ⟨x, hx, hlen⟩ := hviews t ht
    simp only [List.getD_eq_getElem?_getD, hx, Option.getD_some]
    exact hlen
  have hlen : (outputViews targets shards).length = targets.length := List.length_map _
  have hvalues : ((outputViews targets shards).mapIdx fun r _ =>
      codedShard ((targets.map row).getD r []) inputs n) = targets.map bytes := by
    apply getD_ext []
    · rw [List.length_mapIdx, hlen, List.length_map]
    intro r hr
    rw [List.length_mapIdx, hlen] at hr
    rw [getD_mapIdx_of_lt _ _ _ (by rw [hlen]; exact hr) [], getD_map_of_lt _ _ _ hr 0,
      getD_map_of_lt _ _ _ hr 0]
    exact hval _ (getD_mem hr)
  simp only [bulkStage, hrows]
  rw [hcompute stage _ inputs _ n hn hin (grid_of_forall rfl hview), hvalues, storeOutputs_eq]

end StageSpec

namespace ClassicReconstructRows

section RowsSpec

variable {E : Type}

/-- A view of rows `start..start + len` of the data rows followed by the parity rows. -/
theorem toRows_eq {plan : ClassicReconstructPlan E} {codec : ReedSolomon E} {data : List (List E)}
    (hdata : plan.dataTargets ≠ [] → plan.dataRows = .ok data)
    (hlen : data.length = plan.dataTargets.length)
    (hparity : (plan.parityRows codec).length = plan.parityTargets.length) {start len : Nat}
    (hstop : start + len ≤ plan.dataTargets.length + plan.parityTargets.length) :
    (ClassicReconstructRows.mk plan codec.format.matrix start len).toRows =
      .ok (slice (data ++ plan.parityRows codec) start (start + len)) := by
  have hall : (data ++ plan.parityRows codec).length =
      plan.dataTargets.length + plan.parityTargets.length := by
    rw [List.length_append, hlen, hparity]
  have hrow : ∀ i ∈ List.range len,
      (ClassicReconstructRows.mk plan codec.format.matrix start len).row i =
        .ok ((data ++ plan.parityRows codec).getD (start + i) []) := by
    intro i hi
    rw [List.mem_range] at hi
    simp only [row]
    rw [if_neg (by omega)]
    split_ifs with hd hdirect
    · have hne : plan.dataTargets ≠ [] := List.ne_nil_of_length_pos (by omega)
      have hrows := hdata hne
      rw [getD_append_left' (by omega)]
      unfold ClassicReconstructPlan.dataRows at hrows
      cases hinv : plan.decodeMatrix with
      | none =>
        rw [hinv] at hrows
        simp only [List.isEmpty_iff, hne, if_false] at hrows
        cases hrows
      | some inverse =>
        rw [hinv] at hrows
        obtain rfl := Outcome.ok.inj hrows
        rw [getD_map_of_lt _ _ _ hd 0]
    · have hget : (data ++ plan.parityRows codec).getD (start + i) [] =
          plan.parityDecodeRows.getD (start + i - plan.dataTargets.length) [] := by
        rw [List.getD_eq_getElem?_getD, List.getElem?_append_right (by omega), hlen,
          ← List.getD_eq_getElem?_getD, ClassicReconstructPlan.parityRows, if_pos hdirect]
      have hlt : start + i - plan.dataTargets.length < plan.parityDecodeRows.length := by
        rw [ClassicReconstructPlan.parityRows, if_pos hdirect] at hparity
        omega
      rw [hget, List.getElem?_eq_getElem hlt, List.getD_eq_getElem _ _ hlt]
    · have hget : (data ++ plan.parityRows codec).getD (start + i) [] =
          (plan.parityTargets.map codec.format.matrix.getRow).getD
            (start + i - plan.dataTargets.length) [] := by
        rw [List.getD_eq_getElem?_getD, List.getElem?_append_right (by omega), hlen,
          ← List.getD_eq_getElem?_getD, ClassicReconstructPlan.parityRows, if_neg hdirect]
      have hlt : start + i - plan.dataTargets.length < plan.parityTargets.length := by omega
      rw [hget, getD_map_of_lt _ _ _ hlt 0, List.getElem?_eq_getElem hlt,
        List.getD_eq_getElem _ _ hlt]
  rw [toRows, Outcome.mapM_eq_ok hrow]
  congr 1
  apply getD_ext []
  · rw [List.length_map, List.length_range, length_slice _ _ _ (by omega)]
    omega
  intro i hi
  rw [List.length_map, List.length_range] at hi
  rw [getD_map_range _ _ _ hi, getD_slice _ _ _ _ (by omega)]

end RowsSpec

end ClassicReconstructRows

namespace ReedSolomon

section BulkSpec

variable {E : Type} [CodecField E] [LawfulField E] {codec : ReedSolomon E}
  {shards : List (Option (List E))} {goal : ReconstructionGoal} {plan : ClassicReconstructPlan E}

theorem bulkComputes_serial (hdata : 0 < codec.dataShardCount) :
    BulkComputes codec codec.bulkSerial := by
  intro stage rows inputs outputs n hn hin hout
  rw [bulkSerial, codeSomeSlices_eq rows hdata hn hin hout]

/-- The policy may ask for any chunking: the product is computed. -/
theorem codeSomeSlicesWithPolicyRaw_eq (hdata : 0 < codec.dataShardCount)
    (machine : ParallelMachine) (stage : Bool) (policy : ParallelPolicy)
    (rows : List (List E)) {inputs outputs : List (List E)} {n : Nat} (hn : 0 < n)
    (hin : Grid codec.dataShardCount n inputs) (hout : Grid outputs.length n outputs) :
    codec.codeSomeSlicesWithPolicyRaw machine stage policy rows inputs outputs =
      (.ok (), outputs.mapIdx fun r _ => codedShard (rows.getD r []) inputs n) := by
  have hhead : (inputs.head?.map List.length).getD 0 = n := by
    have h0 := hin.row_length 0 hdata
    cases inputs with
    | nil => exact absurd hin.length_eq (by simp; omega)
    | cons a l => simpa using h0
  have hchunk := policy.decideForElements_chunkLen_pos hn machine.elementSize codec.dataShardCount
    outputs.length machine.availableParallelism
  simp only [codeSomeSlicesWithPolicyRaw, hhead]
  rw [if_neg (by omega)]
  split_ifs with hserial
  · rw [codeSomeSlices_eq rows hdata hn hin hout]
  · simp only [codeSomeSlicesParChunkedWithJobs, hhead]
    rw [if_neg (by omega), if_neg (by omega),
      foldl_codeOutputChunk_eq rows hdata hin hout (machine.isSchedule _ _ _ _ _)]

/-- The scan of the plan's own shards. -/
theorem PlanOf.scanBulk_eq (h : codec.PlanOf (lengthsOf shards) goal plan)
    (hne : missingIndices (lengthsOf shards) ≠ []) :
    scanBulk plan.shape.shardLen plan.directParity 0 shards
        { survivors := plan.shape.validIndices, dataTargets := plan.dataTargets,
          parityTargets := plan.parityTargets } =
      (.ok { survivors := [], dataTargets := [], parityTargets := [],
             inputs := plan.shape.validIndices.map (contentOf shards),
             dataOutputs := if plan.directParity then plan.dataTargets ++ plan.parityTargets
               else plan.dataTargets,
             parityOutputs := if plan.directParity then [] else plan.parityTargets },
        filled (plan.dataTargets ++ plan.parityTargets)
          (fun _ => List.replicate plan.shape.shardLen zero) shards) := by
  have hreq := h.shape.decodeRequest hne
  have hasc : Ascending (plan.dataTargets ++ plan.parityTargets) := by
    rw [h.targets_eq]
    exact codec.ascending_targets goal _
  have hdisj (i : Nat) (hi : i ∈ plan.shape.validIndices) :
      i ∉ plan.dataTargets ++ plan.parityTargets := by
    intro ht
    apply hreq.disjoint i _ hi
    rw [h.shape.invalid_eq]
    exact h.target_missing ht
  have hloop := scanBulk_upTo plan.directParity
    hreq.survivors.ascending hasc hdisj (contentOf shards) plan.shape.shardLen shards 0
    (fun i s hs hi => by
      rw [Nat.zero_add] at hi ⊢
      exact (present_content h.shape.recoverable.uniform (h.valid_present hne hi) hs).1)
    (fun i s hs hi => by
      rw [Nat.zero_add] at hi
      obtain ⟨s', hs', hget⟩ := missing_slot (h.target_missing hi)
      obtain rfl := Option.some.inj (hs.symm.trans hs')
      exact hget)
  have hlt (i : Nat) (hi : i ∈ plan.shape.validIndices ∨
      i ∈ plan.dataTargets ++ plan.parityTargets) : i < shards.length := by
    have hlen := length_lengthsOf shards
    rcases hi with hi | hi
    · have := (mem_presentIndices.mp (h.valid_present hne hi)).1
      omega
    · have := (mem_missingIndices.mp (h.target_missing hi)).1
      omega
  obtain ⟨hv1, hv2⟩ := filter_of_forall_lt (fun i hi => hlt i (.inl hi))
  obtain ⟨-, ha2⟩ := filter_of_forall_lt (fun i hi => hlt i (.inr hi))
  obtain ⟨hd1, hd2⟩ := filter_of_forall_lt
    (fun i hi => hlt i (.inr (List.mem_append_left _ hi)))
  obtain ⟨hp1, hp2⟩ := filter_of_forall_lt
    (fun i hi => hlt i (.inr (List.mem_append_right _ hi)))
  rw [BulkScan.upTo_zero] at hloop
  rw [hloop, Nat.zero_add]
  simp only [BulkScan.upTo, hv1, hv2, hd1, hp1, Nat.zero_add]
  cases plan.directParity <;> simp only [Bool.false_eq_true, if_true, if_false, ha2, hd2, hp2,
    List.filter_nil] <;> rfl

omit [CodecField E] [LawfulField E] in
/-- The rows of the two stages, and of both together. -/
theorem bulkRows_spec {codec : ReedSolomon E} {plan : ClassicReconstructPlan E}
    {row row' : Nat → List E}
    (hrows : plan.dataTargets ≠ [] → plan.dataRows = .ok (plan.dataTargets.map row))
    (hrows' : plan.parityRows codec = plan.parityTargets.map row') :
    ∃ rows dataRows parityRows, plan.rowViews codec = .ok rows ∧
      rows.splitAt plan.dataTargets.length = .ok (dataRows, parityRows) ∧
      rows.toRows = .ok (plan.dataTargets.map row ++ plan.parityTargets.map row') ∧
      dataRows.toRows = .ok (plan.dataTargets.map row) ∧
      parityRows.toRows = .ok (plan.parityTargets.map row') := by
  have hview : (!plan.dataTargets.isEmpty && plan.decodeMatrix.isNone) = false := by
    cases hdt : plan.dataTargets with
    | nil => rfl
    | cons t targets =>
      have hok := hrows (by rw [hdt]; simp)
      cases hm : plan.decodeMatrix with
      | some inverse => rfl
      | none =>
        rw [ClassicReconstructPlan.dataRows, hm, hdt] at hok
        cases hok
  have hdlen : (plan.dataTargets.map row).length = plan.dataTargets.length := List.length_map _
  have hplen : (plan.parityRows codec).length = plan.parityTargets.length := by
    rw [hrows', List.length_map]
  have hslices (start len : Nat)
      (hstop : start + len ≤ plan.dataTargets.length + plan.parityTargets.length) :=
    ClassicReconstructRows.toRows_eq hrows hdlen hplen hstop
  refine ⟨⟨plan, codec.format.matrix, 0, plan.dataTargets.length + plan.parityTargets.length⟩,
    ⟨plan, codec.format.matrix, 0, plan.dataTargets.length⟩,
    ⟨plan, codec.format.matrix, 0 + plan.dataTargets.length,
      plan.dataTargets.length + plan.parityTargets.length - plan.dataTargets.length⟩, ?_, ?_, ?_, ?_, ?_⟩
  · rw [ClassicReconstructPlan.rowViews, hview]
    rfl
  · rw [ClassicReconstructRows.splitAt, if_pos (Nat.le_add_right _ _)]
  · rw [hslices _ _ (by omega), hrows']
    simp [slice]
  · rw [hslices _ _ (by omega), hrows']
    simp [slice]
  · rw [hslices _ _ (by omega), hrows']
    simp [slice]

/-- The stages behind the scan fill in the restored shards, in one pass over composed
rows or in two. -/
theorem PlanOf.bulkStages_eq (h : codec.PlanOf (lengthsOf shards) goal plan)
    {compute : BulkCompute E} (hcompute : BulkComputes codec compute) {row row' : Nat → List E}
    {inputs inputs' : List (List E)} (hin : Grid codec.dataShardCount plan.shape.shardLen inputs)
    (hin' : Grid codec.dataShardCount plan.shape.shardLen inputs')
    (hmerge : plan.parityTargets ≠ [] → parityInputs plan inputs (plan.dataTargets.map
      (codec.restoredShard plan.shape.validIndices inputs plan.shape.shardLen)) = .ok inputs')
    (hrow : ∀ t ∈ plan.dataTargets, codedShard (row t) inputs plan.shape.shardLen =
      codec.restoredShard plan.shape.validIndices inputs plan.shape.shardLen t)
    (hrow' : ∀ t ∈ plan.parityTargets, codedShard (row' t) inputs' plan.shape.shardLen =
      codec.restoredShard plan.shape.validIndices inputs plan.shape.shardLen t)
    {rows dataRows parityRows : ClassicReconstructRows E}
    (hrows : rows.toRows = .ok (plan.dataTargets.map row ++ plan.parityTargets.map row'))
    (hdataRows : dataRows.toRows = .ok (plan.dataTargets.map row))
    (hparityRows : parityRows.toRows = .ok (plan.parityTargets.map row')) :
    bulkStages compute plan rows dataRows parityRows
        { survivors := [], dataTargets := [], parityTargets := [], inputs
          dataOutputs := if plan.directParity then plan.dataTargets ++ plan.parityTargets
            else plan.dataTargets
          parityOutputs := if plan.directParity then [] else plan.parityTargets }
        (filled (plan.dataTargets ++ plan.parityTargets)
          (fun _ => List.replicate plan.shape.shardLen zero) shards) =
      (.ok (), filled (plan.dataTargets ++ plan.parityTargets)
        (codec.restoredShard plan.shape.validIndices inputs plan.shape.shardLen) shards) := by
  have hpos := h.shape.recoverable.uniform.1
  have hlt (t : Nat) (ht : t ∈ plan.dataTargets ++ plan.parityTargets) : t < shards.length := by
    have := (mem_missingIndices.mp (h.target_missing ht)).1
    rwa [length_lengthsOf] at this
  -- every destination is open with a buffer of the shard length
  have hopen (l : List Nat) (bytes : Nat → List E) (hb : ∀ t, (bytes t).length = plan.shape.shardLen)
      (t : Nat) (ht : t ∈ plan.dataTargets ++ plan.parityTargets) :
      ∃ x, (filled l bytes (filled (plan.dataTargets ++ plan.parityTargets)
        (fun _ => List.replicate plan.shape.shardLen zero) shards))[t]? = some (some x) ∧
          x.length = plan.shape.shardLen := by
    rw [getElem?_filled, getElem?_filled, List.getElem?_eq_getElem (hlt t ht)]
    by_cases hl : t ∈ l
    · exact ⟨bytes t, by simp [hl], hb t⟩
    · exact ⟨List.replicate plan.shape.shardLen zero, by simp [hl, ht], List.length_replicate⟩
  have hopen0 (t : Nat) (ht : t ∈ plan.dataTargets ++ plan.parityTargets) :
      ∃ x, (filled (plan.dataTargets ++ plan.parityTargets)
        (fun _ => List.replicate plan.shape.shardLen zero) shards)[t]? = some (some x) ∧
          x.length = plan.shape.shardLen := by
    have h0 := hopen [] (fun _ => List.replicate plan.shape.shardLen zero)
      (fun _ => List.length_replicate) t ht
    rwa [filled_nil] at h0
  set bytes := codec.restoredShard plan.shape.validIndices inputs plan.shape.shardLen with hbytes
  have hblen (t : Nat) : (bytes t).length = plan.shape.shardLen := by
    rw [hbytes, length_restoredShard]
  unfold bulkStages
  cases hdirect : plan.directParity with
  | true =>
    -- composed rows read the survivors, so one stage covers all targets
    have hrowAll : plan.dataTargets.map row ++ plan.parityTargets.map row' =
        (plan.dataTargets ++ plan.parityTargets).map
          (fun t => if t ∈ plan.dataTargets then row t else row' t) := by
      rw [List.map_append]
      congr 1
      · exact List.map_congr_left (fun t ht => (if_pos ht).symm)
      · exact List.map_congr_left (fun t ht => (if_neg (fun hd => h.targets_disjoint hd ht)).symm)
    rw [hrowAll] at hrows
    simp only [if_true]
    rw [bulkStage_eq hcompute true bytes hpos hrows hin hopen0]
    · rw [filled_filled (plan.dataTargets ++ plan.parityTargets) (fun i => by simp)
        (fun i hi hn => absurd hi hn)]
    · intro t ht
      by_cases hd : t ∈ plan.dataTargets
      · rw [if_pos hd]
        exact hrow t hd
      · rw [if_neg hd]
        have hp : t ∈ plan.parityTargets := (List.mem_append.mp ht).resolve_left hd
        have hsame := hmerge (List.ne_nil_of_mem hp)
        rw [parityInputs, hdirect] at hsame
        obtain rfl := Outcome.ok.inj hsame
        exact hrow' t hp
  | false =>
    simp only [Bool.false_eq_true, if_false]
    -- the data stage, which an empty target list skips
    have hstage : (if plan.dataTargets.isEmpty then (.ok (), filled (plan.dataTargets ++
          plan.parityTargets) (fun _ => List.replicate plan.shape.shardLen zero) shards)
        else bulkStage compute true dataRows inputs plan.dataTargets (filled (plan.dataTargets ++
          plan.parityTargets) (fun _ => List.replicate plan.shape.shardLen zero) shards)) =
        (.ok (), filled plan.dataTargets bytes (filled (plan.dataTargets ++ plan.parityTargets)
          (fun _ => List.replicate plan.shape.shardLen zero) shards)) := by
      split_ifs with hempty
      · rw [List.isEmpty_iff.mp hempty, filled_nil]
      · exact bulkStage_eq hcompute true bytes hpos hdataRows hin
          (fun t ht => hopen0 t (List.mem_append_left _ ht)) hrow
    rw [hstage]
    simp only
    by_cases hnone : plan.parityTargets = []
    · rw [hnone, List.append_nil]
      rw [filled_filled plan.dataTargets (fun i => by simp) (fun i hi hn => absurd hi hn)]
      rfl
    have hviews : outputViews plan.dataTargets (filled plan.dataTargets bytes
        (filled (plan.dataTargets ++ plan.parityTargets)
          (fun _ => List.replicate plan.shape.shardLen zero) shards)) =
        plan.dataTargets.map bytes := by
      apply List.map_congr_left
      intro t ht
      have hlt' := hlt t (List.mem_append_left _ ht)
      rw [List.getD_eq_getElem?_getD, getElem?_filled, getElem?_filled,
        List.getElem?_eq_getElem hlt']
      simp [ht]
    have hinputs : (if plan.dataTargets.isEmpty then Outcome.ok inputs
        else useRecoveredData inputs plan.dataTargets (plan.dataTargets.map bytes)) =
        .ok inputs' := by
      have hm := hmerge hnone
      rw [parityInputs, hdirect] at hm
      cases hdt : plan.dataTargets with
      | nil =>
        rw [hdt] at hm
        exact hm
      | cons t targets =>
        rw [hdt] at hm
        exact hm
    rw [hviews, hinputs, if_neg (by simpa using hnone)]
    simp only
    rw [bulkStage_eq hcompute false bytes hpos hparityRows hin'
      (fun t ht => hopen plan.dataTargets bytes hblen t (List.mem_append_right _ ht)) hrow',
      filled_filled (plan.dataTargets ++ plan.parityTargets) (fun i => by simp) (fun i _ _ => rfl)]
    rw [filled_filled (plan.dataTargets ++ plan.parityTargets) (fun i => by simp)
      (fun i hi hn => absurd hi hn)]

/-- The bulk executor publishes what the per-output executor publishes. -/
theorem executeClassicOptionPlanBulk_eq (hinv : codec.ClassicInv)
    (h : codec.PlanOf (lengthsOf shards) goal plan) {compute : BulkCompute E}
    (hcompute : BulkComputes codec compute) :
    codec.executeClassicOptionPlanBulk compute plan shards = publish plan.shape.shardLen
      (codec.recoveredOutputs goal plan.shape.shardLen shards) shards := by
  by_cases htargets : codec.targets goal (lengthsOf shards) = []
  · have hnone := h.targets_eq
    rw [htargets, List.append_eq_nil_iff] at hnone
    rw [executeClassicOptionPlanBulk, if_pos, recoveredOutputs, htargets]
    · rfl
    · rw [ClassicReconstructPlan.hasOutputs, hnone.1, hnone.2]
      rfl
  have hne := missing_ne_nil_of_targets htargets
  have hgrid := h.grid_inputs hne
  have hscan := h.scanBulk_eq hne
  obtain ⟨inputs, hinputs⟩ : ∃ inputs, plan.shape.validIndices.map (contentOf shards) = inputs :=
    ⟨_, rfl⟩
  rw [hinputs] at hgrid hscan
  obtain ⟨row, hrows, hrow⟩ := h.dataRows_spec hinv htargets
    { survivors := [], dataTargets := [], parityTargets := [], inputs,
      dataDestinations := plan.dataTargets, parityDestinations := plan.parityTargets }
    rfl hgrid.length_eq plan.shape.shardLen
  have hdataRows (hd : plan.dataTargets ≠ []) :
      plan.dataRows = .ok (plan.dataTargets.map row) := by
    rw [stageDataRows, if_neg (by simpa using hd)] at hrows
    exact hrows
  obtain ⟨row', inputs', hrows', hmerge, hgrid', hrow'⟩ : ∃ (row' : Nat → List E)
      (inputs' : List (List E)), plan.parityRows codec = plan.parityTargets.map row' ∧
      (plan.parityTargets ≠ [] → parityInputs plan inputs (plan.dataTargets.map
        (codec.restoredShard plan.shape.validIndices inputs plan.shape.shardLen)) = .ok inputs') ∧
      Grid codec.dataShardCount plan.shape.shardLen inputs' ∧
      ∀ t ∈ plan.parityTargets, codedShard (row' t) inputs' plan.shape.shardLen =
        codec.restoredShard plan.shape.validIndices inputs plan.shape.shardLen t := by
    by_cases hparity : plan.parityTargets = []
    · refine ⟨fun _ => [], inputs, ?_, fun hp => absurd hparity hp, hgrid, fun t ht => ?_⟩
      · rw [ClassicReconstructPlan.parityRows]
        split_ifs with hdirect
        · obtain ⟨hmiss, hcomposed⟩ := h.direct hdirect
          obtain ⟨inverse, hsome, -⟩ := h.inverse htargets hmiss
          rw [hcomposed inverse hsome, hparity]
          rfl
        · rw [hparity]
          rfl
      · rw [hparity] at ht
        cases ht
    · obtain ⟨row', inputs', hrows', hmerge, hgrid', hrow'⟩ :=
        h.parityStage_spec hinv htargets hparity hgrid
      exact ⟨row', inputs', hrows', fun _ => hmerge, hgrid', hrow'⟩
  obtain ⟨rows, dataRows, parityRows, hview, hsplit, hall, hdr, hpr⟩ :=
    bulkRows_spec hdataRows hrows'
  have hout : plan.hasOutputs = true := by
    rw [← h.targets_eq, List.append_eq_nil_iff, not_and_or] at htargets
    rw [ClassicReconstructPlan.hasOutputs, Bool.or_eq_true]
    exact htargets.imp (by simp) (by simp)
  have hmissing (t : Nat) (ht : t ∈ plan.dataTargets ++ plan.parityTargets) :
      shards[t]? = some none := by
    obtain ⟨s, hs, hget⟩ := missing_slot (h.target_missing ht)
    obtain rfl : s = none := hget
    exact hs
  have houtputs : codec.recoveredOutputs goal plan.shape.shardLen shards =
      (plan.dataTargets ++ plan.parityTargets).map fun t => (t,
        codec.restoredShard plan.shape.validIndices inputs plan.shape.shardLen t) := by
    rw [h.targets_eq, ← hinputs, h.shape.valid_eq hne]
    rfl
  simp only [executeClassicOptionPlanBulk, hout, Bool.not_true, Bool.false_eq_true, if_false, hview,
    hsplit, Outcome.ok_bind, Outcome.pure_eq, hscan]
  rw [h.bulkStages_eq hcompute hgrid hgrid' hmerge hrow hrow' hall hdr hpr, houtputs,
    publish_option _ _ _ hmissing]
  rw [h.targets_eq]
  exact (codec.ascending_targets goal _).nodup

variable [DecidableEq E] [CachePlatform E] [LawfulPlatform E]

/-- A plan made for shards of these lengths, by a direct recovery or for reuse. -/
def BuiltFor (codec : ReedSolomon E) (lengths : List (Option Nat)) (goal : ReconstructionGoal)
    (plan : ClassicReconstructPlan E) : Prop :=
  ∃ cache, codec.CacheReachable cache ∧
    ((codec.planClassicReconstruct cache lengths goal).1 = .ok (some plan) ∨
      codec.validMask goal = true ∧ ∃ shape, codec.classicReconstructShape lengths = .ok shape ∧
        (codec.fillClassicReconstructPlan cache shape goal).1 = .ok plan)

theorem BuiltFor.planOf {lengths : List (Option Nat)} (hinv : codec.ClassicInv)
    (h : codec.BuiltFor lengths goal plan) : codec.PlanOf lengths goal plan := by
  obtain ⟨cache, hcache, hplan | ⟨hmask, shape, hshape, hplan⟩⟩ := h
  · have hspec := (planClassicReconstruct_spec hinv (hcache.inv hinv) lengths goal).1
    rw [hplan] at hspec
    obtain ⟨-, ⟨hnone, -⟩ | ⟨p, hp, -, hof⟩⟩ := hspec
    · cases hnone
    · obtain rfl := Option.some.inj hp
      exact hof
  · have hof : (codec.classicReconstructShape lengths).Sat (codec.ShapeOf lengths) _ _ :=
      classicReconstructShape_spec hinv.data_pos
    rw [hshape] at hof
    have hspec := (fillClassicReconstructPlan_spec hinv (hcache.inv hinv) hof hmask).1
    rw [hplan] at hspec
    exact hspec.2

/-- The bulk executor with the serial or any parallel callback and the per-output
executor return the same result and leave the same shards. -/
theorem bulk_executors_agree (h : codec.IsClassic)
    (hplan : codec.BuiltFor (lengthsOf shards) goal plan) (machine : ParallelMachine)
    (dataPolicy parityPolicy : ParallelPolicy) :
    codec.executeClassicOptionPlanSerial plan shards =
        codec.executeClassicPlanWith codec.computeSerial plan shards ∧
      codec.executeClassicPlanParallel machine plan shards dataPolicy parityPolicy =
        codec.executeClassicPlanWith codec.computeSerial plan shards := by
  have hof := hplan.planOf h.inv
  have hdata := h.inv.data_pos
  have hwith := executeClassicPlanWith_eq h.inv hof (computes_computeSerial hdata)
  have hserial := executeClassicOptionPlanBulk_eq h.inv hof (bulkComputes_serial hdata)
  have hparallel := executeClassicOptionPlanBulk_eq h.inv hof
    (fun stage rows _ _ _ hn hin hout => codeSomeSlicesWithPolicyRaw_eq hdata machine stage
      (if stage then dataPolicy else parityPolicy) rows hn hin hout)
  exact ⟨hserial.trans hwith.symm, hparallel.trans hwith.symm⟩

end BulkSpec

/-- Four workers that run the callbacks in order. -/
def sampleMachine : ParallelMachine where
  availableParallelism := 4
  elementSize := 1
  schedule _ outputCount shardLen chunkLen jobs :=
    (outputChunkGroups outputCount shardLen chunkLen jobs).flatten
  isSchedule _ _ _ _ _ := List.Perm.refl _

theorem bulk_executors_agree_sample :
    ∃ plan, sampleCodec.BuiltFor (lengthsOf sampleErased) .all plan ∧
      sampleCodec.executeClassicOptionPlanSerial plan sampleErased =
        sampleCodec.executeClassicPlanWith sampleCodec.computeSerial plan sampleErased ∧
      sampleCodec.executeClassicPlanParallel sampleMachine plan sampleErased ⟨1, 1, 0, 0⟩
          ⟨1, 1, 2, 64⟩ =
        sampleCodec.executeClassicPlanWith sampleCodec.computeSerial plan sampleErased := by
  have hbuilt : ∃ plan, sampleCodec.BuiltFor (lengthsOf sampleErased) .all plan :=
    ⟨_, InversionCache.new 4 4096, ⟨4, 4096, [], by simp, rfl⟩, .inl rfl⟩
  obtain ⟨plan, hplan⟩ := hbuilt
  exact ⟨plan, hplan, bulk_executors_agree sampleCodec_isClassic hplan sampleMachine _ _⟩

end ReedSolomon

end ErasureCodec
