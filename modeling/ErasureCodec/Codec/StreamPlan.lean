import ErasureCodec.Codec.Reconstruct
import ErasureCodec.Codec.StreamBlocks

namespace ErasureCodec

open CodecField ReconstructShard

namespace ReedSolomon

section Selected

variable {E : Type} [CodecField E] (codec : ReedSolomon E)

/-- `code_selected_inputs`: the inputs are looked up among the shards. -/
def codeSelectedInputs (matrixRows inputs : List (List E)) (indices : List Nat)
    (outputs : List (List E)) : List (List E) :=
  codeSomeSlices codec.dataShardCount matrixRows (indices.map fun index => inputs.getD index [])
    outputs

/-- `code_selected_slices`: the outputs are those of the shards that the indices,
less the offset, select. -/
def codeSelectedSlices (matrixRows inputs outputs : List (List E)) (indices : List Nat)
    (offset : Nat) : List (List E) :=
  let coded := codeSomeSlices codec.dataShardCount matrixRows inputs
    (indices.map fun index => outputs.getD (index - offset) [])
  (indices.zip coded).foldl (fun outputs t => outputs.set (t.1 - offset) t.2) outputs

/-- The data half of `reconstruct_block`: the missing owners are moved out while the
survivors are read. -/
def reconstructDataStage (plan : ClassicReconstructPlan E) (dataRows buffers : List (List E)) :
    List (List E) :=
  if plan.dataTargets.isEmpty then buffers
  else
    let dataOutputs := plan.dataTargets.map fun index => buffers.getD index []
    let buffers := plan.dataTargets.foldl (fun buffers index => buffers.set index []) buffers
    let dataOutputs :=
      codec.codeSelectedInputs dataRows buffers plan.shape.validIndices dataOutputs
    (plan.dataTargets.zip dataOutputs).foldl (fun buffers t => buffers.set t.1 t.2) buffers

/-- `reconstruct_block` of a stream's plan. -/
def reconstructBlock (plan : ClassicReconstructPlan E) (dataRows parityRows buffers : List (List E)) :
    List (List E) :=
  let buffers := codec.reconstructDataStage plan dataRows buffers
  if plan.parityTargets.isEmpty then buffers
  else
    let data := buffers.take codec.dataShardCount
    let parity := buffers.drop codec.dataShardCount
    data ++ codec.codeSelectedSlices parityRows data parity plan.parityTargets codec.dataShardCount

end Selected

section Targets

variable {E : Type}

/-- Storing one output per target. -/
theorem foldl_set_targets {targets : List Nat} (hnodup : targets.Nodup) (bytes : Nat → List E)
    (buffers : List (List E)) (hlt : ∀ t ∈ targets, t < buffers.length) :
    (targets.zip (targets.map bytes)).foldl (fun buffers t => buffers.set t.1 t.2) buffers =
      buffers.mapIdx fun i buf => if i ∈ targets then bytes i else buf := by
  have hstore := foldl_set_distinct (targets.map fun t => (t, bytes t)) Prod.fst
    (fun t _ => t.2) (by rwa [map_fst_pair]) buffers [] (fun t ht => by
      obtain ⟨i, hi, rfl⟩ := List.mem_map.mp ht
      exact hlt i hi)
  rw [zip_map_self]
  obtain ⟨hlen, hwrite, hframe⟩ := hstore
  rw [map_fst_pair] at hframe
  refine getD_ext [] (by simpa using hlen) (fun i hi => ?_)
  rw [hlen] at hi
  rw [getD_mapIdx_of_lt _ _ _ hi []]
  by_cases hmem : i ∈ targets
  · rw [if_pos hmem]
    exact hwrite (i, bytes i) (List.mem_map.mpr ⟨i, hmem, rfl⟩)
  · rw [if_neg hmem]
    exact hframe i hmem

/-- Moving the targets out leaves the other buffers. -/
theorem foldl_take_targets (targets : List Nat) (buffers : List (List E)) :
    targets.foldl (fun buffers index => buffers.set index []) buffers =
      buffers.mapIdx fun i buf => if i ∈ targets then [] else buf := by
  induction targets generalizing buffers with
  | nil => simp [mapIdx_self]
  | cons t targets ih =>
    rw [List.foldl_cons, ih]
    refine List.ext_getElem (by simp) (fun i h1 h2 => ?_)
    simp only [List.getElem_mapIdx, List.getElem_set, List.mem_cons]
    by_cases hit : t = i
    · simp [hit]
    · rw [if_neg hit]
      exact if_congr (by simp [Ne.symm hit]) rfl rfl

theorem targets_all (codec : ReedSolomon E) (lengths : List (Option Nat)) :
    codec.targets .all lengths = missingIndices lengths :=
  List.filter_eq_self.mpr (fun _ _ => rfl)

end Targets

section BlockSpec

variable {E : Type} [CodecField E] [LawfulField E] {codec : ReedSolomon E}
  {lengths : List (Option Nat)} {plan : ClassicReconstructPlan E} {n : Nat} {buffers : List (List E)}

/-- The bytes a block owes shard `i`, given what the survivors' buffers hold. -/
noncomputable def blockShard (codec : ReedSolomon E) (plan : ClassicReconstructPlan E) (n : Nat)
    (buffers : List (List E)) (i : Nat) : List E :=
  codec.restoredShard plan.shape.validIndices
    (plan.shape.validIndices.map fun i => buffers.getD i []) n i

@[simp] theorem length_blockShard (codec : ReedSolomon E) (plan : ClassicReconstructPlan E) (n : Nat)
    (buffers : List (List E)) (i : Nat) : (codec.blockShard plan n buffers i).length = n :=
  length_restoredShard _ _ _ _ _

/-- The survivors' buffers form a block. -/
theorem PlanOf.grid_survivors (h : codec.PlanOf lengths .all plan)
    (hne : missingIndices lengths ≠ []) (hgrid : Grid codec.totalShardCount n buffers) :
    Grid codec.dataShardCount n (plan.shape.validIndices.map fun i => buffers.getD i []) := by
  have hsurv := (h.shape.decodeRequest hne).survivors
  refine grid_of_forall (by rw [List.length_map, hsurv.length_eq]) (fun row hrow => ?_)
  obtain ⟨i, hi, rfl⟩ := List.mem_map.mp hrow
  exact hgrid.row_length i (hsurv.lt_total i hi)

/-- The data stage fills in the missing data shards. -/
theorem PlanOf.reconstructDataStage_eq (h : codec.PlanOf lengths .all plan)
    (hinv : codec.ClassicInv) (hne : missingIndices lengths ≠ []) (hn : 0 < n)
    (hgrid : Grid codec.totalShardCount n buffers) {dataRows : List (List E)}
    (hrows : plan.dataRows = .ok dataRows) :
    codec.reconstructDataStage plan dataRows buffers = buffers.mapIdx fun i buf =>
      if i ∈ plan.dataTargets then codec.blockShard plan n buffers i else buf := by
  have hreq := h.shape.decodeRequest hne
  have hin := h.grid_survivors hne hgrid
  have hmissing (t : Nat) (ht : t ∈ plan.dataTargets) : t ∈ missingIndices lengths :=
    h.target_missing (List.mem_append_left _ ht)
  have hlt (t : Nat) (ht : t ∈ plan.dataTargets) : t < codec.totalShardCount := by
    have := (mem_missingIndices.mp (hmissing t ht)).1
    rwa [h.shape.recoverable.length_eq] at this
  unfold reconstructDataStage
  by_cases hnil : plan.dataTargets = []
  · rw [hnil]
    simp [mapIdx_self]
  rw [if_neg (by simpa using hnil), foldl_take_targets]
  simp only
  set taken := buffers.mapIdx fun i buf => if i ∈ plan.dataTargets then [] else buf with htaken
  -- the survivors are still in place
  have hinputs : (plan.shape.validIndices.map fun i => taken.getD i []) =
      plan.shape.validIndices.map fun i => buffers.getD i [] := by
    refine List.map_congr_left (fun i hi => ?_)
    have hi' := hreq.survivors.lt_total i hi
    rw [htaken, getD_mapIdx_of_lt _ _ _ (by rw [hgrid.length_eq]; exact hi') [], if_neg]
    intro ht
    refine hreq.disjoint i ?_ hi
    rw [h.shape.invalid_eq]
    exact hmissing i ht
  obtain ⟨row, hrow, hcoded⟩ := h.dataRows_spec hinv (by rw [targets_all]; exact hne)
    { survivors := [], dataTargets := [], parityTargets := [],
      dataDestinations := plan.dataTargets } rfl hin.length_eq n
  rw [stageDataRows, if_neg (by simpa using hnil), hrows] at hrow
  obtain rfl := Outcome.ok.inj hrow
  have hout : Grid plan.dataTargets.length n
      (plan.dataTargets.map fun index => buffers.getD index []) := by
    refine grid_of_forall (by simp) (fun r hr => ?_)
    obtain ⟨t, ht, rfl⟩ := List.mem_map.mp hr
    exact hgrid.row_length t (hlt t ht)
  have hvalues : codec.codeSelectedInputs (plan.dataTargets.map row) taken plan.shape.validIndices
      (plan.dataTargets.map fun index => buffers.getD index []) =
        plan.dataTargets.map (codec.blockShard plan n buffers) := by
    unfold codeSelectedInputs
    rw [hinputs, codeSomeSlices_eq _ hinv.data_pos hn hin hout]
    refine List.ext_getElem (by simp) (fun i h1 h2 => ?_)
    have hi : i < plan.dataTargets.length := by simpa using h2
    simp only [List.getElem_mapIdx, List.getElem_map]
    rw [getD_map_of_lt _ _ _ hi 0, List.getD_eq_getElem _ _ hi]
    exact hcoded _ (List.getElem_mem hi)
  rw [hvalues, foldl_set_targets h.ascending_dataTargets.nodup _ _ (fun t ht => by
    rw [htaken, List.length_mapIdx, hgrid.length_eq]
    exact hlt t ht), htaken]
  refine List.ext_getElem (by simp) (fun i h1 h2 => ?_)
  simp only [List.getElem_mapIdx]
  split_ifs <;> rfl

/-- After the data stage, all data shards are those that the survivors determine. -/
theorem PlanOf.restored_data (h : codec.PlanOf lengths .all plan) (hinv : codec.ClassicInv)
    (hne : missingIndices lengths ≠ []) (hgrid : Grid codec.totalShardCount n buffers) {i : Nat}
    (hi : i < codec.dataShardCount) :
    (if i ∈ plan.dataTargets then codec.blockShard plan n buffers i else buffers.getD i []) =
      codec.blockShard plan n buffers i := by
  have hreq := h.shape.decodeRequest hne
  split_ifs with hmem
  · rfl
  · have hvalid : i ∈ plan.shape.validIndices := by
      rw [h.dataTargets_eq, targets_all, h.shape.missing_eq_complement hne, mem_complement,
        not_and, not_not] at hmem
      exact List.mem_of_mem_filter (hmem hi)
    obtain ⟨j, hj, rfl⟩ := exists_getD_of_mem hvalid
    rw [hreq.survivors.length_eq] at hj
    have hunit := h.isUnit hinv (by rw [targets_all]; exact hne) hne
    rw [blockShard, restoredShard_survivor hunit (h.grid_survivors hne hgrid) hj,
      getD_map_of_lt _ _ _ (by rw [hreq.survivors.length_eq]; exact hj) 0]

/-- A block's reconstruction fills in exactly the missing shards. -/
theorem PlanOf.reconstructBlock_eq (h : codec.PlanOf lengths .all plan) (hinv : codec.ClassicInv)
    (hdirect : plan.directParity = false) (hn : 0 < n)
    (hgrid : Grid codec.totalShardCount n buffers) {dataRows : List (List E)}
    (hrows : plan.dataRows = .ok dataRows) :
    codec.reconstructBlock plan dataRows (plan.parityRows codec) buffers =
      buffers.mapIdx fun i buf =>
        if i ∈ missingIndices lengths then codec.blockShard plan n buffers i else buf := by
  have htotal := codec.totalShardCount_eq
  have hsplit : plan.dataTargets ++ plan.parityTargets = missingIndices lengths := by
    rw [h.targets_eq, targets_all]
  by_cases hne : missingIndices lengths = []
  · rw [hne, List.append_eq_nil_iff] at hsplit
    simp [reconstructBlock, reconstructDataStage, hsplit.1, hsplit.2, hne, mapIdx_self]
  unfold reconstructBlock
  rw [h.reconstructDataStage_eq hinv hne hn hgrid hrows]
  set filled := buffers.mapIdx fun i buf =>
    if i ∈ plan.dataTargets then codec.blockShard plan n buffers i else buf with hfilled
  have hget (i : Nat) (hi : i < codec.totalShardCount) : filled.getD i [] =
      if i ∈ plan.dataTargets then codec.blockShard plan n buffers i else buffers.getD i [] := by
    rw [hfilled, getD_mapIdx_of_lt _ _ _ (by rw [hgrid.length_eq]; exact hi) []]
  have hfull : Grid codec.totalShardCount n filled := by
    refine hgrid.mapIdx _ (fun i hi => ?_)
    split_ifs
    · exact length_restoredShard _ _ _ _ _
    · exact hgrid.row_length i hi
  by_cases hnil : plan.parityTargets = []
  · rw [if_pos (by simpa using hnil), hfilled, ← hsplit, hnil, List.append_nil]
  clear_value filled
  rw [if_neg (by simpa using hnil)]
  have hparity (t : Nat) (ht : t ∈ plan.parityTargets) :
      codec.dataShardCount ≤ t ∧ t < codec.totalShardCount := by
    have hmem := (mem_missingIndices.mp (h.target_missing (List.mem_append_right _ ht))).1
    rw [h.parityTargets_eq, List.mem_filter, decide_eq_true_eq] at ht
    rw [h.shape.recoverable.length_eq] at hmem
    exact ⟨ht.2, hmem⟩
  have hdata : Grid codec.dataShardCount n (filled.take codec.dataShardCount) :=
    hfull.take (by omega)
  have hvalues : codeSomeSlices codec.dataShardCount (plan.parityRows codec)
      (filled.take codec.dataShardCount) (plan.parityTargets.map fun index =>
        (filled.drop codec.dataShardCount).getD (index - codec.dataShardCount) []) =
      plan.parityTargets.map (codec.blockShard plan n buffers) := by
    have hout : Grid plan.parityTargets.length n (plan.parityTargets.map fun index =>
        (filled.drop codec.dataShardCount).getD (index - codec.dataShardCount) []) := by
      refine grid_of_forall (by simp) (fun r hr => ?_)
      obtain ⟨t, ht, rfl⟩ := List.mem_map.mp hr
      obtain ⟨h1, h2⟩ := hparity t ht
      rw [getD_drop, Nat.add_sub_of_le h1]
      exact hfull.row_length t h2
    rw [codeSomeSlices_eq _ hinv.data_pos hn hdata hout]
    refine List.ext_getElem (by simp) (fun i h1 h2 => ?_)
    have hi : i < plan.parityTargets.length := by simpa using h2
    simp only [List.getElem_mapIdx, List.getElem_map]
    rw [ClassicReconstructPlan.parityRows, hdirect, if_neg (by simp), getD_map_of_lt _ _ _ hi 0,
      List.getD_eq_getElem _ _ hi]
    refine codedShard_eq_restoredShard (fun x hx => rowDot_encodingRow hinv hdata.length_eq
      (hparity _ (List.getElem_mem hi)).2 (fun c hc => ?_))
    rw [getD_take hc, hget c (by omega), h.restored_data hinv hne hgrid hc, blockShard,
      getD_restoredShard _ _ _ _ hx, restoredValue_data hinv _ hc]
  unfold codeSelectedSlices
  simp only
  rw [hvalues]
  have hstore := foldl_set_distinct (plan.parityTargets.map fun t =>
    (t, codec.blockShard plan n buffers t)) (fun t => t.1 - codec.dataShardCount) (fun t _ => t.2)
    (by
      rw [List.map_map]
      refine List.Nodup.map_on (fun a ha b hb hab => ?_) h.ascending_parityTargets.nodup
      have := (hparity a ha).1
      have := (hparity b hb).1
      simp only [Function.comp] at hab
      omega) (filled.drop codec.dataShardCount) [] (fun t ht => by
      obtain ⟨i, hi, rfl⟩ := List.mem_map.mp ht
      obtain ⟨h1, h2⟩ := hparity i hi
      rw [List.length_drop, hfull.length_eq]
      simp only
      omega)
  rw [zip_map_self]
  obtain ⟨hlen, hwrite, hframe⟩ := hstore
  have hsize := hfull.length_eq
  refine getD_ext [] (by
    rw [List.length_append, hlen, List.length_take, List.length_drop, hsize, List.length_mapIdx,
      hgrid.length_eq]
    omega) (fun i hi => ?_)
  rw [List.length_append, hlen, List.length_take, List.length_drop, hsize] at hi
  have hi' : i < codec.totalShardCount := by omega
  rw [getD_take_append (by omega), getD_mapIdx_of_lt _ _ _ (by rw [hgrid.length_eq]; exact hi') [],
    ← hsplit]
  split_ifs with hlow hmem hmem
  · rw [hget i hi', h.restored_data hinv hne hgrid hlow]
  · rw [hget i hi', if_neg (fun hd => hmem (List.mem_append_left _ hd))]
  · rcases List.mem_append.mp hmem with hd | hp
    · rw [h.dataTargets_eq, List.mem_filter, decide_eq_true_eq] at hd
      exact absurd hd.2 hlow
    · exact hwrite (i, codec.blockShard plan n buffers i) (List.mem_map.mpr ⟨i, hp, rfl⟩)
  · rw [hframe, getD_drop, Nat.add_sub_of_le (by omega), hget i hi',
      if_neg (fun hd => hmem (List.mem_append_left _ hd))]
    intro hin
    simp only [List.map_map, List.mem_map, Function.comp] at hin
    obtain ⟨t, ht, heq⟩ := hin
    have := (hparity t ht).1
    obtain rfl : t = i := by omega
    exact hmem (List.mem_append_right _ ht)

end BlockSpec

section StreamPlan

variable (codec : ReedSolomon Galois8)

/-- The lengths `StreamReconstructPlan::new` plans for: one peek at the missing
indices per shard. -/
def streamLengths (missing : List Nat) (total shardLen : Nat) : List (Option Nat) :=
  ((List.range total).foldl (fun (state : List (Option Nat) × List Nat) index =>
    let (isMissing, missing) := peekNext state.2 index
    (state.1 ++ [if isMissing then none else some shardLen], missing)) ([], missing)).1

/-- `StreamReconstructPlan::new`: the plan and the cache it leaves. -/
def streamReconstructPlan (cache : InversionCache Galois8) (missing : List Nat) (shardLen : Nat) :
    Outcome Error (ClassicReconstructPlan Galois8) × InversionCache Galois8 :=
  match codec.classicReconstructShape
      (streamLengths missing codec.totalShardCount shardLen) with
  | .ok shape => codec.fillClassicReconstructPlan cache shape .all
  | .err e => (.err e, cache)
  | .panic => (.panic, cache)

theorem streamLengths_eq {missing : List Nat} (h : Ascending missing) (total shardLen : Nat) :
    streamLengths missing total shardLen =
      (List.range total).map fun i => if i ∈ missing then none else some shardLen := by
  have hloop := foldl_range_inv
    (fun n (state : List (Option Nat) × List Nat) =>
      state = ((List.range n).map fun i => if i ∈ missing then none else some shardLen,
        missing.filter (n ≤ ·)))
    (fun (state : List (Option Nat) × List Nat) index =>
      let (isMissing, missing) := peekNext state.2 index
      (state.1 ++ [if isMissing then none else some shardLen], missing)) total ([], missing)
    (by simp) (fun n _ state hstate => by
      rw [hstate]
      simp only [h.peekNext_eq, List.range_succ, List.map_append, List.map_singleton,
        decide_eq_true_eq])
  unfold streamLengths
  rw [hloop]

/-- Planning for all missing shards composes no parity rows. -/
theorem fillClassicReconstructPlan_directParity {codec : ReedSolomon Galois8}
    {cache : InversionCache Galois8} {shape : ClassicReconstructShape}
    {plan : ClassicReconstructPlan Galois8}
    (h : (codec.fillClassicReconstructPlan cache shape .all).1 = .ok plan) :
    plan.directParity = false := by
  have hcompose (p : ClassicReconstructPlan Galois8) (missing : List Nat) :
      codec.composeParity p .all missing = .ok p := by
    simp [composeParity, ReconstructionGoal.isRequired]
  unfold fillClassicReconstructPlan at h
  simp only [hcompose] at h
  split_ifs at h
  · split at h
    · obtain rfl := Outcome.ok.inj h
      rfl
    · simp at h
    · simp at h
  · obtain rfl := Outcome.ok.inj h
    rfl

/-- A stream of at least `data` readers with solvable survivors gets a plan. -/
theorem streamReconstructPlan_spec {codec : ReedSolomon Galois8} (hinv : codec.ClassicInv)
    {cache : InversionCache Galois8} (hc : codec.CacheInv cache) {lengths : List (Option Nat)}
    {n : Nat} (hrec : codec.Recoverable lengths n)
    (hunit : IsUnit (codec.survivorMatrix ((presentIndices lengths).take codec.dataShardCount))) :
    ∃ plan, (codec.streamReconstructPlan cache (missingIndices lengths) n).1 = .ok plan ∧
      codec.PlanOf lengths .all plan ∧ plan.directParity = false ∧
      ∃ dataRows, plan.dataRows = .ok dataRows := by
  have hlengths : streamLengths (missingIndices lengths) codec.totalShardCount n = lengths := by
    rw [streamLengths_eq (ascending_missingIndices lengths), ← hrec.length_eq]
    refine List.ext_getElem (by simp) (fun i h1 h2 => ?_)
    simp only [List.getElem_map, List.getElem_range, mem_missingIndices, h2, true_and]
    rw [List.getD_eq_getElem _ _ h2]
    cases hi : lengths[i] with
    | none => rfl
    | some l =>
      rw [if_neg (by simp), hrec.uniform.2 l (by rw [← hi]; exact List.getElem_mem h2)]
  unfold streamReconstructPlan
  rw [hlengths]
  have hshape : (codec.classicReconstructShape lengths).Sat (codec.ShapeOf lengths) _ _ :=
    classicReconstructShape_spec hinv.data_pos
  rcases hres : codec.classicReconstructShape lengths with shape | e | _
  · rw [hres] at hshape
    have hmask : codec.validMask .all = true := rfl
    have hfill := (fillClassicReconstructPlan_spec hinv hc hshape hmask).1
    simp only
    rcases hplan : (codec.fillClassicReconstructPlan cache shape .all).1 with plan | e | _
    · rw [hplan] at hfill
      obtain ⟨-, hof⟩ := hfill
      refine ⟨plan, rfl, hof, fillClassicReconstructPlan_directParity hplan, ?_⟩
      unfold ClassicReconstructPlan.dataRows
      by_cases hnil : plan.dataTargets = []
      · cases plan.decodeMatrix with
        | none => exact ⟨[], by simp [hnil]⟩
        | some inverse => exact ⟨_, rfl⟩
      · have hmiss : (missingIndices lengths).filter (· < codec.dataShardCount) ≠ [] := by
          rwa [hof.dataTargets_eq, targets_all] at hnil
        have hne : missingIndices lengths ≠ [] := by
          intro h0
          rw [h0] at hmiss
          exact hmiss rfl
        obtain ⟨inverse, hsome, -⟩ := hof.inverse (by rw [targets_all]; exact hne) hmiss
        rw [hsome]
        exact ⟨_, rfl⟩
    · rw [hplan] at hfill
      obtain ⟨hne, -, hnot⟩ := hfill
      rw [hshape.valid_eq hne] at hnot
      exact absurd hunit hnot
    · rw [hplan] at hfill
      exact hfill.elim
  · rw [hres] at hshape
    exact absurd hrec (hshape n)
  · rw [hres] at hshape
    exact hshape.elim

end StreamPlan

end ReedSolomon

end ErasureCodec
