import ErasureCodec.Codec.Restore

namespace ErasureCodec

open CodecField ReconstructShard

/-- What the executor collects in its pass over the shards; destinations are
borrowed by index and the index lists are the iterators it has left. -/
structure PlanScan (E : Type) where
  survivors : List Nat
  dataTargets : List Nat
  parityTargets : List Nat
  inputs : List (List E) := []
  dataDestinations : List Nat := []
  parityDestinations : List Nat := []

section Executor

variable {E S : Type} [ReconstructShard E S]

/-- One shard of the pass: a survivor is checked before anything is written. -/
def scanShard (shardLen : Nat) (scan : PlanScan E) (entry : S × Nat) :
    Outcome Error (PlanScan E) :=
  let (isSurvivor, survivors) := peekNext scan.survivors entry.2
  if isSurvivor then
    match get entry.1 with
    | none => .err .tooFewShardsPresent
    | some input =>
      if input.length ≠ shardLen then .err .incorrectShardSize
      else .ok { scan with survivors, inputs := scan.inputs ++ [input] }
  else
    let (isData, dataTargets) := peekNext scan.dataTargets entry.2
    if isData then
      .ok { scan with dataTargets, dataDestinations := scan.dataDestinations ++ [entry.2] }
    else
      let (isParity, parityTargets) := peekNext scan.parityTargets entry.2
      if isParity then
        .ok { scan with parityTargets, parityDestinations := scan.parityDestinations ++ [entry.2] }
      else .ok scan

/-- Initialize one destination and compute into it: the output and the container
as the call leaves it. -/
def reconstructClassicOutput (destination : S) (shardLen : Nat) (compute : List E → List E) :
    Outcome Error (List E) × S :=
  match getOrInitialize shardLen destination with
  | (.failed e, s) => (.err e, s)
  | (.present output, s) | (.initialized output, s) =>
    if output.length ≠ shardLen then (.err .incorrectShardSize, s)
    else (.ok (compute output), store (compute output) s)

/-- One output stage: every destination is finished before the next is touched. -/
def reconstructOutputs (shardLen : Nat) (compute : List E → List E → List E) :
    List (Nat × List E) → List S → Outcome Error (List (List E)) × List S
  | [], shards => (.ok [], shards)
  | (index, row) :: rest, shards =>
    match shards[index]? with
    | none => (.panic, shards)
    | some destination =>
      match reconstructClassicOutput destination shardLen (compute row) with
      | (.ok output, s) =>
        let (result, shards) := reconstructOutputs shardLen compute rest (shards.set index s)
        (result >>= fun outputs => .ok (output :: outputs), shards)
      | (.err e, s) => (.err e, shards.set index s)
      | (.panic, s) => (.panic, shards.set index s)

end Executor

section Merge

variable {E : Type}

/-- One step of the backward merge. The state is the views, how many survivor
views are unread and how many recovered outputs are left. -/
def mergeStep (dataTargets : List Nat) (recoveredData : List (List E))
    (state : List (List E) × Nat × Nat) (index : Nat) :
    Outcome Error (List (List E) × Nat × Nat) :=
  let (inputs, existing, recovered) := state
  if recovered ≠ 0 ∧ dataTargets.getD (recovered - 1) 0 = index then
    match recoveredData[recovered - 1]? with
    | none => .panic
    | some output => .ok (inputs.set index output, existing, recovered - 1)
  else if existing = 0 then .panic
  else
    match inputs[existing - 1]? with
    | none => .panic
    | some input => .ok (inputs.set index input, existing - 1, recovered)

/-- Replace parity survivor views with the complete systematic input order. -/
def useRecoveredData (inputs : List (List E)) (dataTargets : List Nat)
    (recoveredData : List (List E)) : Outcome Error (List (List E)) :=
  if inputs.length < dataTargets.length then .panic
  else do
    let (inputs, _, _) ← (List.range inputs.length).reverse.foldlM
      (mergeStep dataTargets recoveredData)
      (inputs, inputs.length - dataTargets.length, dataTargets.length)
    pure inputs

end Merge

namespace ReedSolomon

variable {E S : Type} [CodecField E] [ReconstructShard E S] (codec : ReedSolomon E)

/-- The rows of the data stage; they are read only when there is a destination. -/
def stageDataRows (plan : ClassicReconstructPlan E) (scan : PlanScan E) :
    Outcome Error (List (List E)) :=
  if scan.dataDestinations.isEmpty then .ok [] else plan.dataRows

/-- The inputs of the parity stage: composed rows read the survivors, encoding
rows the complete data. -/
def parityInputs (plan : ClassicReconstructPlan E) (inputs recovered : List (List E)) :
    Outcome Error (List (List E)) :=
  if !plan.directParity && !recovered.isEmpty then
    useRecoveredData inputs plan.dataTargets recovered
  else .ok inputs

/-- `execute_classic_plan_with`: the result and the shards it leaves. The first
argument of `compute` tells the data stage from the parity stage. -/
def executeClassicPlanWith (compute : Bool → List E → List (List E) → List E → List E)
    (plan : ClassicReconstructPlan E) (shards : List S) : Outcome Error Unit × List S :=
  if !plan.hasOutputs then (.ok (), shards)
  else
    let start : PlanScan E :=
      { survivors := plan.shape.validIndices
        dataTargets := plan.dataTargets
        parityTargets := plan.parityTargets }
    match (do
      let scan ← shards.zipIdx.foldlM (scanShard plan.shape.shardLen) start
      let rows ← stageDataRows plan scan
      pure (scan, rows) : Outcome Error (PlanScan E × List (List E))) with
    | .err e => (.err e, shards)
    | .panic => (.panic, shards)
    | .ok (scan, rows) =>
      match reconstructOutputs plan.shape.shardLen (fun row => compute true row scan.inputs)
        (scan.dataDestinations.zip rows) shards with
      | (.err e, shards) => (.err e, shards)
      | (.panic, shards) => (.panic, shards)
      | (.ok recovered, shards) =>
        if scan.parityDestinations.isEmpty then (.ok (), shards)
        else
          match parityInputs plan scan.inputs recovered with
          | .err e => (.err e, shards)
          | .panic => (.panic, shards)
          | .ok inputs =>
            let (result, shards) := reconstructOutputs plan.shape.shardLen
              (fun row => compute false row inputs)
              (scan.parityDestinations.zip (plan.parityRows codec)) shards
            (result >>= fun _ => .ok (), shards)

/-- The serial row: one output of the shared coding loop. -/
def computeSerial (_ : Bool) (row : List E) (inputs : List (List E)) (output : List E) : List E :=
  (codeSomeSlices codec.dataShardCount [row] inputs [output]).getD 0 []

def executeClassicPlanSerial (plan : ClassicReconstructPlan E) (shards : List S) :
    Outcome Error Unit × List S :=
  codec.executeClassicPlanWith codec.computeSerial plan shards

end ReedSolomon

section ScanSpec

variable {E S : Type} [ReconstructShard E S] {valid dataTargets parityTargets : List Nat}

/-- The contents of the shards, by index. -/
def contentOf (shards : List S) (i : Nat) : List E := ((shards[i]?).bind get).getD []

/-- The state of the pass when it reaches shard `i`. -/
def PlanScan.upTo (valid dataTargets parityTargets : List Nat) (content : Nat → List E)
    (i : Nat) : PlanScan E where
  survivors := valid.filter (i ≤ ·)
  dataTargets := dataTargets.filter (i ≤ ·)
  parityTargets := parityTargets.filter (i ≤ ·)
  inputs := (valid.filter (· < i)).map content
  dataDestinations := dataTargets.filter (· < i)
  parityDestinations := parityTargets.filter (· < i)

theorem scanShard_eq (hv : Ascending valid) (hd : Ascending dataTargets)
    (hp : Ascending parityTargets) (hvd : ∀ i ∈ valid, i ∉ dataTargets)
    (hvp : ∀ i ∈ valid, i ∉ parityTargets) (hdp : ∀ i ∈ dataTargets, i ∉ parityTargets)
    {content : Nat → List E} {shardLen i : Nat} {s : S}
    (hs : i ∈ valid → get s = some (content i) ∧ (content i).length = shardLen) :
    scanShard shardLen (PlanScan.upTo valid dataTargets parityTargets content i) (s, i) =
      .ok (PlanScan.upTo valid dataTargets parityTargets content (i + 1)) := by
  simp only [scanShard, PlanScan.upTo, hv.peekNext_eq, hd.peekNext_eq, hp.peekNext_eq,
    decide_eq_true_eq]
  by_cases hiv : i ∈ valid
  · obtain ⟨hget, hlen⟩ := hs hiv
    simp only [if_pos hiv, hget, hlen, ne_eq, not_true_eq_false, if_false,
      filter_le_of_notMem (hvd i hiv), filter_le_of_notMem (hvp i hiv),
      filter_lt_of_notMem (hvd i hiv), filter_lt_of_notMem (hvp i hiv), hv.filter_lt_of_mem hiv,
      List.map_append, List.map_singleton]
  · simp only [if_neg hiv, filter_le_of_notMem hiv, filter_lt_of_notMem hiv]
    by_cases hid : i ∈ dataTargets
    · simp only [if_pos hid, filter_le_of_notMem (hdp i hid), filter_lt_of_notMem (hdp i hid),
        hd.filter_lt_of_mem hid]
    · simp only [if_neg hid, filter_le_of_notMem hid, filter_lt_of_notMem hid]
      by_cases hip : i ∈ parityTargets
      · simp only [if_pos hip, hp.filter_lt_of_mem hip]
      · simp only [if_neg hip, filter_le_of_notMem hip, filter_lt_of_notMem hip]

theorem PlanScan.upTo_zero (valid dataTargets parityTargets : List Nat) (content : Nat → List E) :
    PlanScan.upTo valid dataTargets parityTargets content 0 =
      { survivors := valid, dataTargets, parityTargets } := by
  simp [PlanScan.upTo]

/-- The pass finds every survivor's content and every destination. -/
theorem foldlM_scanShard_eq (hv : Ascending valid) (hd : Ascending dataTargets)
    (hp : Ascending parityTargets) (hvd : ∀ i ∈ valid, i ∉ dataTargets)
    (hvp : ∀ i ∈ valid, i ∉ parityTargets) (hdp : ∀ i ∈ dataTargets, i ∉ parityTargets)
    (shards : List S) (shardLen : Nat)
    (hin : ∀ i ∈ valid, ∀ s, shards[i]? = some s →
      get s = some (contentOf shards i) ∧ (contentOf shards i).length = shardLen)
    (hlt : ∀ i ∈ valid ++ dataTargets ++ parityTargets, i < shards.length) :
    shards.zipIdx.foldlM (scanShard shardLen)
        { survivors := valid, dataTargets, parityTargets } =
      .ok { survivors := [], dataTargets := [], parityTargets := [],
            inputs := valid.map (contentOf shards), dataDestinations := dataTargets,
            parityDestinations := parityTargets } := by
  have hloop := Outcome.Sat.foldlM_zipIdx (f := scanShard shardLen)
    (P := fun i scan => scan = PlanScan.upTo valid dataTargets parityTargets (contentOf shards) i)
    (Q := fun _ => False) (R := False) shards 0 { survivors := valid, dataTargets, parityTargets }
    (PlanScan.upTo_zero _ _ _ _).symm (fun i s hs scan hscan => by
      rw [Nat.zero_add] at hscan ⊢
      rw [hscan, scanShard_eq hv hd hp hvd hvp hdp (fun hi => hin i hi s hs)]
      exact rfl)
  obtain ⟨scan, hscan, hend⟩ := hloop.exists_ok
  simp only [List.mem_append] at hlt
  obtain ⟨hv1, hv2⟩ := filter_of_forall_lt (fun i hi => hlt i (.inl (.inl hi)))
  obtain ⟨hd1, hd2⟩ := filter_of_forall_lt (fun i hi => hlt i (.inl (.inr hi)))
  obtain ⟨hp1, hp2⟩ := filter_of_forall_lt (fun i hi => hlt i (.inr hi))
  rw [hscan, hend, PlanScan.upTo, Nat.zero_add, hv1, hv2, hd1, hd2, hp1, hp2]

end ScanSpec

theorem zip_map_self {α β : Type*} (l : List α) (f : α → β) :
    l.zip (l.map f) = l.map fun t => (t, f t) := by
  induction l with
  | nil => rfl
  | cons a l ih => rw [List.map_cons, List.zip_cons_cons, ih, List.map_cons]

theorem map_fst_pair {α β : Type*} (l : List α) (f : α → β) :
    (l.map fun t => (t, f t)).map Prod.fst = l := by
  rw [List.map_map]
  exact List.map_id l

section StageSpec

variable {E S : Type} [ReconstructShard E S] [LawfulShard S]

/-- A missing destination is filled in as `recoverShard` says. -/
theorem reconstructClassicOutput_eq {s : S} (h : get s = none) {n : Nat}
    {compute : List E → List E} {bytes : List E}
    (hcompute : ∀ output : List E, output.length = n → compute output = bytes) :
    reconstructClassicOutput s n compute =
      match recoverShard n bytes s with
      | .ok s' => (.ok bytes, s')
      | .err e => (.err e, s)
      | .panic => (.panic, s) := by
  unfold reconstructClassicOutput recoverShard
  rcases LawfulShard.init_missing s n h with ⟨hinit, -⟩ | ⟨x, s', hinit, hx, -⟩
  · rw [hinit]
  · rw [hinit]
    simp [hx, hcompute x hx]

/-- An output stage publishes its outputs in order. -/
theorem reconstructOutputs_eq {n : Nat} {compute : List E → List E → List E}
    {row bytes : Nat → List E} (targets : List Nat) (shards : List S) (hnodup : targets.Nodup)
    (hmissing : ∀ t ∈ targets, ∃ s, shards[t]? = some s ∧ get s = none)
    (hcompute : ∀ t ∈ targets, ∀ output : List E, output.length = n →
      compute (row t) output = bytes t) :
    reconstructOutputs n compute (targets.map fun t => (t, row t)) shards =
      ((publish n (targets.map fun t => (t, bytes t)) shards).1 >>= fun _ =>
        .ok (targets.map bytes), (publish n (targets.map fun t => (t, bytes t)) shards).2) := by
  induction targets generalizing shards with
  | nil => rfl
  | cons t targets ih =>
    obtain ⟨s, hs, hget⟩ := hmissing t (by simp)
    obtain ⟨hnot, hnodup⟩ := List.nodup_cons.mp hnodup
    simp only [List.map_cons, reconstructOutputs, publish, hs]
    rw [reconstructClassicOutput_eq hget (hcompute t (by simp))]
    cases hrec : recoverShard n (bytes t) s with
    | ok s' =>
      have hother (i : Nat) (hi : i ∈ targets) : (shards.set t s')[i]? = shards[i]? := by
        rw [List.getElem?_set_ne]
        rintro rfl
        exact hnot hi
      have hrest := ih (shards.set t s') hnodup
        (fun i hi => by rw [hother i hi]; exact hmissing i (by simp [hi]))
        (fun i hi => hcompute i (by simp [hi]))
      simp only [hrest]
      cases (publish n (targets.map fun t => (t, bytes t)) (shards.set t s')).1 <;> rfl
    | err e =>
      have hsame : shards.set t s = shards := by
        obtain ⟨hlt, rfl⟩ := List.getElem?_eq_some_iff.mp hs
        exact List.set_getElem_self hlt
      simp [hsame]
    | panic =>
      have hsame : shards.set t s = shards := by
        obtain ⟨hlt, rfl⟩ := List.getElem?_eq_some_iff.mp hs
        exact List.set_getElem_self hlt
      simp [hsame]

omit [LawfulShard S] in
theorem publish_append (n : Nat) (first second : List (Nat × List E)) (shards : List S) :
    publish n (first ++ second) shards =
      match publish n first shards with
      | (.ok _, shards) => publish n second shards
      | (.err e, shards) => (.err e, shards)
      | (.panic, shards) => (.panic, shards) := by
  induction first generalizing shards with
  | nil => rfl
  | cons t first ih =>
    obtain ⟨index, bytes⟩ := t
    simp only [List.cons_append, publish]
    cases shards[index]? with
    | none => rfl
    | some s =>
      simp only
      cases recoverShard n bytes s with
      | ok s' => exact ih _
      | err e => rfl
      | panic => rfl

end StageSpec

section MergeSpec

variable {E : Type}

/-- Input `i` of the complete systematic order. -/
def mergedInput (k : Nat) (dataTargets : List Nat) (bytes : Nat → List E)
    (inputs : List (List E)) (i : Nat) : List E :=
  if i ∈ dataTargets then bytes i
  else inputs.getD ((complement k dataTargets).filter (· < i)).length []

/-- The views when the merge has come down to `i`: the ones above are final, the
ones below still hold the survivors. -/
structure MergedTo (k : Nat) (dataTargets : List Nat) (bytes : Nat → List E)
    (inputs : List (List E)) (i : Nat) (state : List (List E) × Nat × Nat) : Prop where
  length_eq : state.1.length = k
  existing_eq : state.2.1 = ((complement k dataTargets).filter (· < i)).length
  recovered_eq : state.2.2 = (dataTargets.filter (· < i)).length
  below : ∀ j, j < i → state.1.getD j [] = inputs.getD j []
  above : ∀ j, i ≤ j → j < k → state.1.getD j [] = mergedInput k dataTargets bytes inputs j

theorem mergeStep_spec {k : Nat} {dataTargets : List Nat} (hd : Ascending dataTargets)
    {bytes : Nat → List E} {inputs : List (List E)} {i : Nat} (hi : i < k)
    {state : List (List E) × Nat × Nat} (h : MergedTo k dataTargets bytes inputs (i + 1) state) :
    (mergeStep dataTargets (dataTargets.map bytes) state i).Sat
      (MergedTo k dataTargets bytes inputs i) (fun _ => False) False := by
  obtain ⟨views, existing, recovered⟩ := state
  obtain ⟨hlen, hexist, hrec, hbelow, habove⟩ := h
  simp only at hlen hexist hrec hbelow habove
  have hiff := hd.last_eq_iff_mem (i := i)
  rw [← hrec] at hiff
  -- only position `i` changes, whatever is stored there
  have hset (x : List E) (hx : x = mergedInput k dataTargets bytes inputs i) :
      (∀ j, j < i → (views.set i x).getD j [] = inputs.getD j []) ∧
        ∀ j, i ≤ j → j < k →
          (views.set i x).getD j [] = mergedInput k dataTargets bytes inputs j := by
    refine ⟨fun j hj => ?_, fun j hj hjk => ?_⟩
    · rw [getD_set, if_neg (by omega)]
      exact hbelow j (by omega)
    · rcases hj.lt_or_eq with hlt | rfl
      · rw [getD_set, if_neg (by omega)]
        exact habove j hlt hjk
      · rw [getD_set, if_pos ⟨rfl, by omega⟩, hx]
  simp only [mergeStep]
  by_cases hmem : i ∈ dataTargets
  · have hcount := hd.filter_lt_of_mem hmem
    have hrank := hd.getD_rank hmem
    rw [hcount, List.length_append, List.length_singleton] at hrec
    have hnot : i ∉ complement k dataTargets := fun hc => (mem_complement.mp hc).2 hmem
    have hout : (dataTargets.map bytes)[recovered - 1]? = some (bytes i) := by
      rw [hrec, Nat.add_sub_cancel, List.getElem?_map, List.getElem?_eq_getElem hrank.1,
        ← List.getD_eq_getElem _ 0 hrank.1, hrank.2]
      rfl
    rw [if_pos (hiff.mpr hmem), hout]
    obtain ⟨h1, h2⟩ := hset (bytes i) (by rw [mergedInput, if_pos hmem])
    refine ⟨by simpa using hlen, ?_, ?_, h1, h2⟩
    · simp only
      rw [hexist, filter_lt_of_notMem hnot]
    · simp only
      rw [hrec, Nat.add_sub_cancel]
  · have hknown : i ∈ complement k dataTargets := mem_complement.mpr ⟨hi, hmem⟩
    have hasc := ascending_complement k dataTargets
    have hrank := hasc.getD_rank hknown
    have hle := hasc.le_getD hrank.1
    rw [hasc.filter_lt_of_mem hknown, List.length_append, List.length_singleton] at hexist
    have hpos : existing - 1 = ((complement k dataTargets).filter (· < i)).length := by omega
    have hview : views[existing - 1]? = some (views.getD (existing - 1) []) := by
      have hlt : existing - 1 < views.length := by omega
      rw [List.getElem?_eq_getElem hlt, List.getD_eq_getElem _ _ hlt]
    rw [if_neg (fun hc => hmem (hiff.mp hc)), if_neg (by omega), hview]
    obtain ⟨h1, h2⟩ := hset (views.getD (existing - 1) []) (by
      rw [mergedInput, if_neg hmem, hpos]
      exact hbelow _ (by omega))
    refine ⟨by simpa using hlen, hpos, ?_, h1, h2⟩
    simp only
    rw [hrec, filter_lt_of_notMem hmem]

/-- Merging backwards puts every data shard at its own position. -/
theorem useRecoveredData_eq {k : Nat} {dataTargets : List Nat} (hd : Ascending dataTargets)
    (hlt : ∀ i ∈ dataTargets, i < k) (bytes : Nat → List E) {inputs : List (List E)}
    (hin : inputs.length = k) :
    useRecoveredData inputs dataTargets (dataTargets.map bytes) =
      .ok ((List.range k).map (mergedInput k dataTargets bytes inputs)) := by
  have hsize := hd.length_complement hlt
  have hall : (complement k dataTargets).filter (· < k) = complement k dataTargets :=
    List.filter_eq_self.mpr (fun i hi => decide_eq_true (mem_complement.mp hi).1)
  have hstart : MergedTo k dataTargets bytes inputs k
      (inputs, inputs.length - dataTargets.length, dataTargets.length) := by
    refine ⟨hin, ?_, ?_, fun _ _ => rfl, fun j hj hjk => absurd hj (by omega)⟩
    · simp only
      rw [hall]
      omega
    · simp only
      rw [List.filter_eq_self.mpr (fun i hi => decide_eq_true (hlt i hi))]
  obtain ⟨⟨views, rest⟩, hrun, hend⟩ := (Outcome.Sat.foldlM_range_reverse
    (f := mergeStep dataTargets (dataTargets.map bytes)) k _ hstart
    (fun i hi state hstate => mergeStep_spec hd hi hstate)).exists_ok
  unfold useRecoveredData
  rw [if_neg (by omega), hin]
  rw [hin] at hrun
  rw [hrun]
  change Outcome.ok views = _
  have hlen : views.length = k := hend.length_eq
  congr 1
  refine getD_ext [] (by simpa using hlen) (fun j hj => ?_)
  rw [hend.above j (Nat.zero_le j) (by omega), getD_map_range _ _ _ (by omega)]

end MergeSpec

section PlanContents

variable {E S : Type} [ReconstructShard E S] [LawfulShard S] {shards : List S}

/-- The lengths that planning reads off the shards. -/
def lengthsOf (shards : List S) : List (Option Nat) := shards.map len

omit [LawfulShard S] in
@[simp] theorem length_lengthsOf (shards : List S) : (lengthsOf shards).length = shards.length :=
  List.length_map _

omit [LawfulShard S] in
theorem getD_lengthsOf {i : Nat} {s : S} (hs : shards[i]? = some s) :
    (lengthsOf shards).getD i none = len s := by
  simp [lengthsOf, List.getD_eq_getElem?_getD, hs]

/-- A present shard holds content of its length. -/
theorem present_content {n i : Nat} (hu : Uniform n (lengthsOf shards))
    (hi : i ∈ presentIndices (lengthsOf shards)) {s : S} (hs : shards[i]? = some s) :
    get s = some (contentOf shards i) ∧ (contentOf shards i).length = n := by
  have hsome := (mem_presentIndices.mp hi).2
  rw [getD_lengthsOf hs, LawfulShard.len_eq, Option.isSome_map] at hsome
  obtain ⟨x, hx⟩ := Option.isSome_iff_exists.mp hsome
  have hcontent : contentOf shards i = x := by simp [contentOf, hs, hx]
  refine ⟨by rw [hcontent, hx], ?_⟩
  rw [hcontent]
  refine hu.2 _ (List.mem_map.mpr ⟨s, List.mem_of_getElem? hs, ?_⟩)
  rw [LawfulShard.len_eq, hx]
  rfl

theorem missing_slot {i : Nat} (hi : i ∈ missingIndices (lengthsOf shards)) :
    ∃ s, shards[i]? = some s ∧ (get s : Option (List E)) = none := by
  obtain ⟨hlt, hnone⟩ := mem_missingIndices.mp hi
  rw [lengthsOf, List.length_map] at hlt
  have hs := List.getElem?_eq_getElem hlt
  refine ⟨shards[i], hs, ?_⟩
  rw [getD_lengthsOf hs, LawfulShard.len_eq, Option.map_eq_none_iff] at hnone
  exact hnone

end PlanContents

namespace ReedSolomon

section ExecuteSpec

variable {E S : Type} [CodecField E] [LawfulField E] [ReconstructShard E S] [LawfulShard S]
  {codec : ReedSolomon E} {shards : List S} {goal : ReconstructionGoal}
  {plan : ClassicReconstructPlan E}

/-- The survivors that a recovery reads. -/
def selected (codec : ReedSolomon E) (shards : List S) : List Nat :=
  (presentIndices (lengthsOf shards)).take codec.dataShardCount

/-- The bytes a recovery owes a missing shard. -/
noncomputable def recoveredShard (codec : ReedSolomon E) (shards : List S) (n t : Nat) : List E :=
  codec.restoredShard (codec.selected shards)
    ((codec.selected shards).map (contentOf shards)) n t

/-- The outputs of a recovery, in the order they are published. -/
noncomputable def recoveredOutputs (codec : ReedSolomon E) (goal : ReconstructionGoal) (n : Nat)
    (shards : List S) : List (Nat × List E) :=
  (codec.targets goal (lengthsOf shards)).map fun t => (t, codec.recoveredShard shards n t)

/-- A row routine that computes the matrix product. -/
def Computes (codec : ReedSolomon E)
    (compute : Bool → List E → List (List E) → List E → List E) : Prop :=
  ∀ stage row inputs output n, 0 < n → Grid codec.dataShardCount n inputs → output.length = n →
    compute stage row inputs output = codedShard row inputs n

theorem computes_computeSerial (hdata : 0 < codec.dataShardCount) :
    codec.Computes codec.computeSerial := by
  intro stage row inputs output n hn hin hout
  have hgrid : Grid 1 n [output] := grid_of_forall rfl (fun r hr => by
    rw [List.mem_singleton.mp hr, hout])
  rw [computeSerial, codeSomeSlices_eq [row] hdata hn hin hgrid]
  rfl

omit [CodecField E] [LawfulField E] in
/-- The data shards that the selection leaves out are the missing ones. -/
theorem ShapeOf.missing_eq_complement {lengths : List (Option Nat)}
    {shape : ClassicReconstructShape} (h : codec.ShapeOf lengths shape)
    (hne : missingIndices lengths ≠ []) :
    (missingIndices lengths).filter (· < codec.dataShardCount) =
      complement codec.dataShardCount (codec.knownData shape.validIndices) := by
  have hlen := h.recoverable.length_eq
  have htotal := codec.totalShardCount_eq
  refine ((ascending_missingIndices lengths).filter _).eq_of_mem_iff
    (ascending_complement _ _) (fun i => ?_)
  rw [List.mem_filter, decide_eq_true_eq, mem_complement, knownData, List.mem_filter,
    decide_eq_true_eq]
  have hdisj := (h.decodeRequest hne).disjoint
  rw [h.invalid_eq] at hdisj
  constructor
  · rintro ⟨hmiss, hlt⟩
    exact ⟨hlt, fun hv => hdisj i hmiss hv.1⟩
  · rintro ⟨hlt, hnot⟩
    refine ⟨mem_missingIndices.mpr ⟨by omega, ?_⟩, hlt⟩
    by_contra hsome
    apply hnot
    refine ⟨?_, hlt⟩
    have hpresent : i ∈ presentIndices lengths :=
      mem_presentIndices.mpr ⟨by omega, Option.isSome_iff_ne_none.mpr hsome⟩
    obtain ⟨hrank, hget⟩ := (ascending_presentIndices lengths).getD_rank hpresent
    have hle := (ascending_presentIndices lengths).le_getD hrank
    rw [h.valid_eq hne, ← hget, ← getD_take (by omega : _ < codec.dataShardCount)]
    refine getD_mem ?_
    rw [List.length_take]
    omega

omit [CodecField E] [LawfulField E] in
/-- Without missing data the selection is all of the data. -/
theorem ShapeOf.valid_eq_range {lengths : List (Option Nat)} {shape : ClassicReconstructShape}
    (h : codec.ShapeOf lengths shape) (hne : missingIndices lengths ≠ [])
    (hnone : (missingIndices lengths).filter (· < codec.dataShardCount) = []) :
    shape.validIndices = List.range codec.dataShardCount := by
  have hsurv := (h.decodeRequest hne).survivors
  have hsize := hsurv.ascending_known.length_complement knownData_lt
  rw [← h.missing_eq_complement hne, hnone, List.length_nil, Nat.zero_add] at hsize
  have hsub : (codec.knownData shape.validIndices).Sublist shape.validIndices :=
    List.filter_sublist
  rw [← hsub.eq_of_length (by rw [hsize, hsurv.length_eq])]
  refine hsurv.ascending_known.eq_of_mem_iff (ascending_range _) (fun i => ?_)
  rw [List.mem_range]
  refine ⟨knownData_lt i, fun hi => ?_⟩
  by_contra hnot
  have : i ∈ complement codec.dataShardCount (codec.knownData shape.validIndices) :=
    mem_complement.mpr ⟨hi, hnot⟩
  rw [← h.missing_eq_complement hne, hnone] at this
  exact absurd this List.not_mem_nil

/-- A plan with outputs has solvable survivors. -/
theorem PlanOf.isUnit {lengths : List (Option Nat)} (h : codec.PlanOf lengths goal plan)
    (hinv : codec.ClassicInv) (htargets : codec.targets goal lengths ≠ [])
    (hne : missingIndices lengths ≠ []) :
    IsUnit (codec.survivorMatrix plan.shape.validIndices) := by
  by_cases hmiss : (missingIndices lengths).filter (· < codec.dataShardCount) = []
  · rw [h.shape.valid_eq_range hne hmiss]
    exact isUnit_survivorMatrix_range hinv
  · obtain ⟨inverse, -, hdec⟩ := h.inverse htargets hmiss
    exact hdec.isUnit

omit [LawfulShard S] in
theorem codedShard_eq_restoredShard {valid : List Nat} {row : List E}
    {inputs inputs' : List (List E)} {n t : Nat} (h : ∀ x, x < n → rowDot row inputs' x =
      codec.restoredValue valid (fun j => (inputs.getD j []).getD x 0) t) :
    codedShard row inputs' n = codec.restoredShard valid inputs n t := by
  unfold codedShard restoredShard
  refine List.map_congr_left (fun x hx => ?_)
  exact h x (List.mem_range.mp hx)

omit [LawfulShard S] in
/-- The data stage reads decode rows. -/
theorem PlanOf.dataRows_spec {lengths : List (Option Nat)} (h : codec.PlanOf lengths goal plan)
    (hinv : codec.ClassicInv) (htargets : codec.targets goal lengths ≠ []) (scan : PlanScan E)
    (hscan : scan.dataDestinations = plan.dataTargets) {inputs : List (List E)}
    (hin : inputs.length = codec.dataShardCount) (n : Nat) :
    ∃ row : Nat → List E, stageDataRows plan scan = .ok (plan.dataTargets.map row) ∧
      ∀ t ∈ plan.dataTargets, codedShard (row t) inputs n =
        codec.restoredShard plan.shape.validIndices inputs n t := by
  unfold stageDataRows
  rw [hscan]
  cases hdt : plan.dataTargets with
  | nil => exact ⟨fun _ => [], rfl, fun t ht => absurd ht List.not_mem_nil⟩
  | cons a l =>
    have hsub (t : Nat) (ht : t ∈ plan.dataTargets) : t < codec.dataShardCount ∧
        t ∈ missingIndices lengths := by
      rw [h.dataTargets_eq, List.mem_filter, decide_eq_true_eq] at ht
      exact ⟨ht.2, List.mem_of_mem_filter ht.1⟩
    have hmiss : (missingIndices lengths).filter (· < codec.dataShardCount) ≠ [] := by
      obtain ⟨hlt, hmem⟩ := hsub a (by rw [hdt]; simp)
      exact List.ne_nil_of_mem (List.mem_filter.mpr ⟨hmem, decide_eq_true hlt⟩)
    obtain ⟨inverse, hsome, hdec⟩ := h.inverse htargets hmiss
    refine ⟨inverse.getRow, ?_, fun t ht => ?_⟩
    · simp only [ClassicReconstructPlan.dataRows, hsome, hdt, List.isEmpty_cons]
      rfl
    · rw [← hdt] at ht
      exact codedShard_eq_restoredShard (fun x _ => rowDot_decodeRow hinv hdec hin (hsub t ht).1 x)

omit [CodecField E] [LawfulField E] in
theorem missing_ne_nil_of_targets {lengths : List (Option Nat)}
    (htargets : codec.targets goal lengths ≠ []) : missingIndices lengths ≠ [] := by
  intro hnil
  apply htargets
  rw [targets, hnil]
  rfl

/-- The encoding rows of the parity stage read the complete restored data. -/
theorem PlanOf.parityInputs_spec {lengths : List (Option Nat)} (h : codec.PlanOf lengths goal plan)
    (hinv : codec.ClassicInv) (htargets : codec.targets goal lengths ≠ [])
    (hparity : plan.parityTargets ≠ []) (hdirect : plan.directParity = false)
    {inputs : List (List E)} {n : Nat} (hin : Grid codec.dataShardCount n inputs) :
    ∃ inputs', parityInputs plan inputs (plan.dataTargets.map
        (codec.restoredShard plan.shape.validIndices inputs n)) = .ok inputs' ∧
      Grid codec.dataShardCount n inputs' ∧
      ∀ i x, i < codec.dataShardCount → x < n → (inputs'.getD i []).getD x 0 =
        codec.restoredData plan.shape.validIndices (fun j => (inputs.getD j []).getD x 0) i := by
  have hne := missing_ne_nil_of_targets htargets
  have hsurv := (h.shape.decodeRequest hne).survivors
  have hunit := h.isUnit hinv htargets hne
  have hdata := h.indirect hdirect hparity
  have hmissing : plan.dataTargets =
      complement codec.dataShardCount (codec.knownData plan.shape.validIndices) := by
    rw [hdata, h.shape.missing_eq_complement hne]
  by_cases hnil : plan.dataTargets = []
  · refine ⟨inputs, ?_, hin, fun i x hi _ => ?_⟩
    · rw [parityInputs, hdirect, hnil]
      rfl
    · rw [h.shape.valid_eq_range hne (by rw [← hdata, hnil]), restoredData_range hinv _ hi]
  · have hasc : Ascending plan.dataTargets := by
      rw [hmissing]
      exact ascending_complement _ _
    have hlt (i : Nat) (hi : i ∈ plan.dataTargets) : i < codec.dataShardCount := by
      rw [hmissing] at hi
      exact (mem_complement.mp hi).1
    have hback : complement codec.dataShardCount plan.dataTargets =
        codec.knownData plan.shape.validIndices := by
      rw [hmissing, hsurv.ascending_known.complement_complement knownData_lt]
    set merged := mergedInput codec.dataShardCount plan.dataTargets
      (codec.restoredShard plan.shape.validIndices inputs n) inputs with hmerged
    -- a position holds the recovered shard or the survivor of its rank
    have hcases (i : Nat) (hi : i < codec.dataShardCount) :
        i ∈ plan.dataTargets ∧ merged i = codec.restoredShard plan.shape.validIndices inputs n i ∨
          i ∈ codec.knownData plan.shape.validIndices ∧ merged i = inputs.getD
            ((codec.knownData plan.shape.validIndices).filter (· < i)).length [] := by
      by_cases hmem : i ∈ plan.dataTargets
      · exact .inl ⟨hmem, if_pos hmem⟩
      · refine .inr ⟨?_, ?_⟩
        · rw [← hback]
          exact mem_complement.mpr ⟨hi, hmem⟩
        · rw [hmerged, mergedInput, if_neg hmem, hback]
    refine ⟨(List.range codec.dataShardCount).map merged, ?_, ?_, fun i x hi hx => ?_⟩
    · rw [parityInputs, hdirect, if_pos (by simpa using hnil)]
      exact useRecoveredData_eq hasc hlt _ hin.length_eq
    · refine grid_of_forall (by simp) (fun row hrow => ?_)
      obtain ⟨i, hi, rfl⟩ := List.mem_map.mp hrow
      rcases hcases i (List.mem_range.mp hi) with ⟨-, heq⟩ | ⟨hknown, heq⟩
      · rw [heq, length_restoredShard]
      · rw [heq]
        refine hin.row_length _ (lt_of_lt_of_le ?_ hsurv.known_length_le)
        exact (hsurv.ascending_known.getD_rank hknown).1
    · rw [getD_map_range _ _ _ hi]
      rcases hcases i hi with ⟨-, heq⟩ | ⟨hknown, heq⟩
      · rw [heq, getD_restoredShard _ _ _ _ hx, restoredValue_data hinv _ hi]
      · rw [heq, hsurv.restoredData_rank hinv hunit _ hknown]

/-- The rows and inputs of the parity stage determine the parity shards, composed
or encoded. -/
theorem PlanOf.parityStage_spec {lengths : List (Option Nat)} (h : codec.PlanOf lengths goal plan)
    (hinv : codec.ClassicInv) (htargets : codec.targets goal lengths ≠ [])
    (hparity : plan.parityTargets ≠ []) {inputs : List (List E)} {n : Nat}
    (hin : Grid codec.dataShardCount n inputs) :
    ∃ (row : Nat → List E) (inputs' : List (List E)),
      plan.parityRows codec = plan.parityTargets.map row ∧
      parityInputs plan inputs (plan.dataTargets.map
        (codec.restoredShard plan.shape.validIndices inputs n)) = .ok inputs' ∧
      Grid codec.dataShardCount n inputs' ∧
      ∀ t ∈ plan.parityTargets, codedShard (row t) inputs' n =
        codec.restoredShard plan.shape.validIndices inputs n t := by
  have hne := missing_ne_nil_of_targets htargets
  have hreq := h.shape.decodeRequest hne
  have hlt (t : Nat) (ht : t ∈ plan.parityTargets) : t < codec.totalShardCount := by
    rw [h.parityTargets_eq] at ht
    have hmem := List.mem_of_mem_filter (List.mem_of_mem_filter ht)
    have := (mem_missingIndices.mp hmem).1
    have := h.shape.recoverable.length_eq
    omega
  cases hdirect : plan.directParity with
  | true =>
    obtain ⟨hmiss, hrows⟩ := h.direct hdirect
    obtain ⟨inverse, hsome, hdec⟩ := h.inverse htargets hmiss
    refine ⟨_, inputs, ?_, ?_, hin, fun t ht => codedShard_eq_restoredShard (fun x _ =>
      rowDot_composeParityRow hinv hreq.survivors hdec hin.length_eq (hlt t ht) x)⟩
    · rw [ClassicReconstructPlan.parityRows, hdirect, if_pos rfl, hrows inverse hsome,
        h.shape.missing_eq_complement hne]
    · rw [parityInputs, hdirect]
      rfl
  | false =>
    obtain ⟨inputs', hinputs, hgrid, hval⟩ := h.parityInputs_spec hinv htargets hparity hdirect hin
    refine ⟨codec.format.matrix.getRow, inputs', ?_, hinputs, hgrid, fun t ht =>
      codedShard_eq_restoredShard (fun x hx => rowDot_encodingRow hinv hgrid.length_eq (hlt t ht)
        (fun i hi => hval i x hi hx))⟩
    rw [ClassicReconstructPlan.parityRows, hdirect]
    rfl

omit [CodecField E] [LawfulField E] [ReconstructShard E S] [LawfulShard S] in
theorem PlanOf.targets_eq [CodecField E] [LawfulField E] {lengths : List (Option Nat)}
    (h : codec.PlanOf lengths goal plan) :
    plan.dataTargets ++ plan.parityTargets = codec.targets goal lengths := by
  rw [h.dataTargets_eq, h.parityTargets_eq,
    (codec.ascending_targets goal lengths).filter_lt_append_le]

theorem PlanOf.target_missing {lengths : List (Option Nat)} (h : codec.PlanOf lengths goal plan)
    {t : Nat} (ht : t ∈ plan.dataTargets ++ plan.parityTargets) : t ∈ missingIndices lengths := by
  rw [h.targets_eq] at ht
  exact List.mem_of_mem_filter ht

theorem PlanOf.targets_disjoint {lengths : List (Option Nat)} (h : codec.PlanOf lengths goal plan)
    {t : Nat} (hd : t ∈ plan.dataTargets) : t ∉ plan.parityTargets := by
  intro hp
  rw [h.dataTargets_eq, List.mem_filter, decide_eq_true_eq] at hd
  rw [h.parityTargets_eq, List.mem_filter, decide_eq_true_eq] at hp
  omega

theorem PlanOf.ascending_dataTargets {lengths : List (Option Nat)}
    (h : codec.PlanOf lengths goal plan) : Ascending plan.dataTargets := by
  rw [h.dataTargets_eq]
  exact (codec.ascending_targets goal lengths).filter _

theorem PlanOf.ascending_parityTargets {lengths : List (Option Nat)}
    (h : codec.PlanOf lengths goal plan) : Ascending plan.parityTargets := by
  rw [h.parityTargets_eq]
  exact (codec.ascending_targets goal lengths).filter _

theorem PlanOf.valid_present {lengths : List (Option Nat)} (h : codec.PlanOf lengths goal plan)
    (hne : missingIndices lengths ≠ []) {i : Nat} (hi : i ∈ plan.shape.validIndices) :
    i ∈ presentIndices lengths := by
  rw [h.shape.valid_eq hne] at hi
  exact List.mem_of_mem_take hi

/-- The pass over the shards collects the survivors' contents. -/
theorem PlanOf.scan_eq (h : codec.PlanOf (lengthsOf shards) goal plan)
    (hne : missingIndices (lengthsOf shards) ≠ []) :
    shards.zipIdx.foldlM (scanShard plan.shape.shardLen)
        { survivors := plan.shape.validIndices, dataTargets := plan.dataTargets,
          parityTargets := plan.parityTargets } =
      .ok { survivors := [], dataTargets := [], parityTargets := [],
            inputs := plan.shape.validIndices.map (contentOf shards),
            dataDestinations := plan.dataTargets, parityDestinations := plan.parityTargets } := by
  have hreq := h.shape.decodeRequest hne
  have hlen := length_lengthsOf shards
  have hdisj (i : Nat) (hi : i ∈ plan.shape.validIndices) :
      i ∉ plan.dataTargets ++ plan.parityTargets := by
    intro ht
    refine hreq.disjoint i ?_ hi
    rw [h.shape.invalid_eq]
    exact h.target_missing ht
  refine foldlM_scanShard_eq hreq.survivors.ascending h.ascending_dataTargets
    h.ascending_parityTargets (fun i hi ht => hdisj i hi (List.mem_append_left _ ht))
    (fun i hi ht => hdisj i hi (List.mem_append_right _ ht)) (fun t => h.targets_disjoint)
    shards plan.shape.shardLen
    (fun i hi s hs => present_content h.shape.recoverable.uniform (h.valid_present hne hi) hs)
    (fun i hi => ?_)
  rw [List.append_assoc, List.mem_append] at hi
  rcases hi with hi | hi
  · have := (mem_presentIndices.mp (h.valid_present hne hi)).1
    omega
  · have := (mem_missingIndices.mp (h.target_missing hi)).1
    omega

theorem PlanOf.grid_inputs (h : codec.PlanOf (lengthsOf shards) goal plan)
    (hne : missingIndices (lengthsOf shards) ≠ []) :
    Grid codec.dataShardCount plan.shape.shardLen
      (plan.shape.validIndices.map (contentOf shards)) := by
  refine grid_of_forall ?_ (fun row hrow => ?_)
  · rw [List.length_map]
    exact (h.shape.decodeRequest hne).survivors.length_eq
  · obtain ⟨i, hi, rfl⟩ := List.mem_map.mp hrow
    have hp := h.valid_present hne hi
    have hlt := (mem_presentIndices.mp hp).1
    rw [lengthsOf, List.length_map] at hlt
    exact (present_content h.shape.recoverable.uniform hp (List.getElem?_eq_getElem hlt)).2

/-- The executor publishes the owed bytes of the requested shards, and nothing else. -/
theorem executeClassicPlanWith_eq (hinv : codec.ClassicInv)
    (h : codec.PlanOf (lengthsOf shards) goal plan)
    {compute : Bool → List E → List (List E) → List E → List E}
    (hcompute : codec.Computes compute) :
    codec.executeClassicPlanWith compute plan shards = publish plan.shape.shardLen
      (codec.recoveredOutputs goal plan.shape.shardLen shards) shards := by
  by_cases htargets : codec.targets goal (lengthsOf shards) = []
  · have hnone := h.targets_eq
    rw [htargets, List.append_eq_nil_iff] at hnone
    rw [executeClassicPlanWith, if_pos, recoveredOutputs, htargets]
    · rfl
    · rw [ClassicReconstructPlan.hasOutputs, hnone.1, hnone.2]
      rfl
  have hne := missing_ne_nil_of_targets htargets
  have hpos := h.shape.recoverable.uniform.1
  have hgrid := h.grid_inputs hne
  have hslot (t : Nat) (ht : t ∈ plan.dataTargets ++ plan.parityTargets) :
      ∃ s, shards[t]? = some s ∧ (get s : Option (List E)) = none :=
    missing_slot (h.target_missing ht)
  obtain ⟨inputs, hinputs⟩ : ∃ inputs, plan.shape.validIndices.map (contentOf shards) = inputs :=
    ⟨_, rfl⟩
  have hscan := h.scan_eq hne
  rw [hinputs] at hgrid hscan
  have houtputs : codec.recoveredOutputs goal plan.shape.shardLen shards =
      (plan.dataTargets.map fun t => (t,
        codec.restoredShard plan.shape.validIndices inputs plan.shape.shardLen t)) ++
      plan.parityTargets.map fun t => (t,
        codec.restoredShard plan.shape.validIndices inputs plan.shape.shardLen t) := by
    rw [← List.map_append, h.targets_eq, ← hinputs, h.shape.valid_eq hne]
    rfl
  obtain ⟨row, hrows, hrow⟩ := h.dataRows_spec hinv htargets
    { survivors := [], dataTargets := [], parityTargets := [], inputs,
      dataDestinations := plan.dataTargets, parityDestinations := plan.parityTargets }
    rfl hgrid.length_eq plan.shape.shardLen
  have hout : plan.hasOutputs = true := by
    rw [← h.targets_eq, List.append_eq_nil_iff, not_and_or] at htargets
    rw [ClassicReconstructPlan.hasOutputs, Bool.or_eq_true]
    exact htargets.imp (by simp) (by simp)
  simp only [executeClassicPlanWith, hout, Bool.not_true, Bool.false_eq_true, if_false, hscan,
    Outcome.ok_bind, hrows, Outcome.pure_eq, zip_map_self]
  rw [reconstructOutputs_eq plan.dataTargets shards h.ascending_dataTargets.nodup
    (fun t ht => hslot t (List.mem_append_left _ ht))
    (fun t ht output ho => (hcompute true (row t) inputs output _ hpos hgrid ho).trans
      (hrow t ht)), houtputs, publish_append]
  have hframe := publish_frame plan.shape.shardLen (plan.dataTargets.map fun t => (t,
    codec.restoredShard plan.shape.validIndices inputs plan.shape.shardLen t)) shards
  rw [map_fst_pair] at hframe
  rcases hpub : publish plan.shape.shardLen (plan.dataTargets.map fun t => (t,
    codec.restoredShard plan.shape.validIndices inputs plan.shape.shardLen t)) shards with
    ⟨result, shards'⟩
  rw [hpub] at hframe
  cases result with
  | err e => rfl
  | panic => rfl
  | ok u =>
    simp only [Outcome.ok_bind]
    by_cases hparity : plan.parityTargets = []
    · rw [hparity]
      rfl
    · obtain ⟨row', inputs', hrows', hinputs', hgrid', hrow'⟩ :=
        h.parityStage_spec hinv htargets hparity hgrid
      rw [if_neg (by simpa using hparity)]
      simp only [hinputs', hrows', zip_map_self]
      rw [reconstructOutputs_eq plan.parityTargets shards' h.ascending_parityTargets.nodup
        (fun t ht => by
          rw [hframe t (fun hd => h.targets_disjoint hd ht)]
          exact hslot t (List.mem_append_right _ ht))
        (fun t ht output ho => (hcompute false (row' t) inputs' output _ hpos hgrid' ho).trans
          (hrow' t ht))]
      simp only [Outcome.ok_bind, bind_assoc, Outcome.bind_ok_unit]

/-- The serial executor, for the plan of these shards. -/
theorem executeClassicPlanSerial_eq (hinv : codec.ClassicInv)
    (h : codec.PlanOf (lengthsOf shards) goal plan) :
    codec.executeClassicPlanSerial plan shards = publish plan.shape.shardLen
      (codec.recoveredOutputs goal plan.shape.shardLen shards) shards :=
  executeClassicPlanWith_eq hinv h (computes_computeSerial hinv.data_pos)

end ExecuteSpec

end ReedSolomon

end ErasureCodec
