import ErasureCodec.Codec.Encode

namespace ErasureCodec

open CodecField

structure ParallelDecision where
  useParallel : Bool
  jobs : Nat
  chunkLen : Nat
  deriving Repr, DecidableEq

/-- One callback of `for_each_output_chunk`: an output row and a window of it. -/
structure ChunkTask where
  row : Nat
  start : Nat
  stop : Nat
  deriving Repr, DecidableEq

/-- The callbacks of one output in chunks of `chunkLen` from `start` to `stop`. -/
def chunkTasks (row start stop chunkLen : Nat) : List ChunkTask :=
  (chunkRanges (stop - start) chunkLen).map fun chunk => ⟨row, start + chunk.1, start + chunk.2⟩

/-- The share of one output that a job takes when there are more jobs than outputs. -/
def rowGroupLen (outputCount shardLen chunkLen jobs row : Nat) : Nat :=
  let chunkCount := (shardLen + chunkLen - 1) / chunkLen
  let rowJobs := jobs / outputCount + if row < jobs % outputCount then 1 else 0
  let chunksPerJob := (chunkCount + rowJobs - 1) / rowJobs
  min (saturate (chunksPerJob * chunkLen)) shardLen

/-- `for_each_output_chunk`: the parallel tasks it spawns, each the list of
callbacks it makes in order. -/
def outputChunkGroups (outputCount shardLen chunkLen jobs : Nat) : List (List ChunkTask) :=
  if outputCount = 0 ∨ shardLen = 0 then []
  else
    let chunkLen := min (max chunkLen 1) shardLen
    let jobs := max jobs 1
    if outputCount ≥ jobs then
      let outputsPerJob := (outputCount + jobs - 1) / jobs
      (chunkRanges outputCount outputsPerJob).map fun group =>
        (List.range' group.1 (group.2 - group.1)).flatMap fun row =>
          chunkTasks row 0 shardLen chunkLen
    else
      (List.range outputCount).flatMap fun row =>
        (chunkRanges shardLen (rowGroupLen outputCount shardLen chunkLen jobs row)).map fun group =>
          chunkTasks row group.1 group.2 chunkLen

/-- The callbacks run on disjoint windows, so a parallel run is some order of them. -/
def IsSchedule (groups : List (List ChunkTask)) (schedule : List ChunkTask) : Prop :=
  schedule.Perm groups.flatten

section Definitions

variable {E : Type} [CodecField E]

/-- The callback of the parallel coding loop. -/
def codeOutputChunk (dataShardCount : Nat) (matrixRows inputs outputs : List (List E))
    (task : ChunkTask) : List (List E) :=
  let matrixRow := matrixRows.getD task.row []
  let output := outputs.getD task.row []
  let input i := slice (inputs.getD i []) task.start task.stop
  let chunk := mulSlice (matrixRow.getD 0 zero) (input 0) (slice output task.start task.stop)
  let chunk := (List.range' 1 (dataShardCount - 1)).foldl (fun chunk iInput =>
    mulSliceAdd (matrixRow.getD iInput zero) (input iInput) chunk) chunk
  outputs.set task.row (overwrite task.start chunk output)

/-- `code_some_slices_par_chunked_with_jobs` under one schedule of its callbacks;
a chunk length of zero is a division panic. -/
def codeSomeSlicesParChunkedWithJobs (dataShardCount : Nat) (matrixRows inputs outputs : List (List E))
    (chunkLen : Nat) (schedule : List ChunkTask) : Outcome Error Unit × List (List E) :=
  let shardLen := (inputs.head?.map List.length).getD 0
  if shardLen = 0 then (.ok (), outputs)
  else if chunkLen = 0 then (.panic, outputs)
  else (.ok (), schedule.foldl (codeOutputChunk dataShardCount matrixRows inputs) outputs)

/-- `encode_sep_par` of a Classic codec for the decision its policy took and one
schedule of the callbacks. -/
def ReedSolomon.encodeSepPar (codec : ReedSolomon E) (decision : ParallelDecision)
    (schedule : List ChunkTask) (data parity : List (List E)) :
    Outcome Error Unit × List (List E) :=
  match codec.checkEncodeSep data parity with
  | .ok _ =>
    if codec.fastOneParityEnabled then (.ok (), encodeFastOneParity data parity)
    else if decision.useParallel then
      codeSomeSlicesParChunkedWithJobs codec.dataShardCount codec.getParityRows data parity
        decision.chunkLen schedule
    else (.ok (), codeSomeSlices codec.dataShardCount codec.getParityRows data parity)
  | failed => (failed, parity)

end Definitions

section Schedule

variable {outputCount shardLen chunkLen jobs : Nat}

private theorem divCeil_pos {a b : Nat} (ha : 0 < a) (hb : 0 < b) : 0 < (a + b - 1) / b :=
  Nat.div_pos (by omega) hb

theorem rowGroupLen_pos (hlen : 0 < shardLen) (hc : 0 < chunkLen) (ho : 0 < outputCount)
    (hj : outputCount < jobs) (row : Nat) :
    0 < rowGroupLen outputCount shardLen chunkLen jobs row := by
  have hjobs : 0 < jobs / outputCount := Nat.div_pos hj.le ho
  have hchunks := divCeil_pos (divCeil_pos hlen hc)
    (Nat.add_pos_left hjobs (if row < jobs % outputCount then 1 else 0))
  exact lt_min (lt_min (Nat.mul_pos hchunks hc) (by decide)) hlen

/-- The chunk windows of one output stay inside `start..stop`. -/
theorem chunkTasks_bounds {row start stop : Nat} (hc : 0 < chunkLen) (hle : start ≤ stop)
    {task : ChunkTask} (h : task ∈ chunkTasks row start stop chunkLen) :
    task.row = row ∧ start ≤ task.start ∧ task.stop ≤ stop := by
  obtain ⟨chunk, hchunk, rfl⟩ := List.mem_map.mp h
  have hb := chunkRanges_bounds hc hchunk
  exact ⟨rfl, Nat.le_add_right _ _, by simp only; omega⟩

/-- And they cover it. -/
theorem chunkTasks_cover (row : Nat) {start stop x : Nat} (hc : 0 < chunkLen) (h1 : start ≤ x)
    (h2 : x < stop) : ∃ task ∈ chunkTasks row start stop chunkLen,
      task.row = row ∧ task.start ≤ x ∧ x < task.stop := by
  obtain ⟨hmem, hl, hr⟩ := (mem_chunkRanges_iff hc (x - start)
    (by omega : x - start < stop - start) _).mpr rfl
  exact ⟨_, List.mem_map.mpr ⟨_, hmem, rfl⟩, rfl, by simp only at hl ⊢; omega,
    by simp only at hr ⊢; omega⟩

/-- Every callback gets a window of an output. -/
theorem outputChunkGroups_bounds {task : ChunkTask}
    (h : task ∈ (outputChunkGroups outputCount shardLen chunkLen jobs).flatten) :
    task.row < outputCount ∧ task.stop ≤ shardLen := by
  simp only [outputChunkGroups] at h
  split_ifs at h with hempty hfew
  · simp at h
  · obtain ⟨group, hgroup, htask⟩ := List.mem_flatten.mp h
    obtain ⟨w, hw, rfl⟩ := List.mem_map.mp hgroup
    obtain ⟨row, hrow, htask⟩ := List.mem_flatMap.mp htask
    have hb := chunkRanges_bounds (divCeil_pos (by omega) (by omega)) hw
    have ht := chunkTasks_bounds (by omega) (Nat.zero_le _) htask
    rw [List.mem_range'_1] at hrow
    exact ⟨by omega, ht.2.2⟩
  · obtain ⟨group, hgroup, htask⟩ := List.mem_flatten.mp h
    obtain ⟨row, hrow, hgroup⟩ := List.mem_flatMap.mp hgroup
    obtain ⟨w, hw, rfl⟩ := List.mem_map.mp hgroup
    rw [List.mem_range] at hrow
    have hb := chunkRanges_bounds
      (rowGroupLen_pos (by omega) (by omega) (by omega) (by omega) row) hw
    have ht := chunkTasks_bounds (by omega) hb.1.le htask
    exact ⟨by omega, by omega⟩

/-- Every position of every output lies in the window of some callback. -/
theorem outputChunkGroups_cover (chunkLen jobs : Nat) {r x : Nat} (hr : r < outputCount) (hx : x < shardLen) :
    ∃ task ∈ (outputChunkGroups outputCount shardLen chunkLen jobs).flatten,
      task.row = r ∧ task.start ≤ x ∧ x < task.stop := by
  unfold outputChunkGroups
  rw [if_neg (by omega)]
  simp only
  split_ifs with hfew
  · obtain ⟨hw, hl, hu⟩ := (mem_chunkRanges_iff
      (divCeil_pos (a := outputCount) (b := max jobs 1) (by omega) (by omega)) r hr _).mpr rfl
    obtain ⟨task, htask, hcov⟩ := chunkTasks_cover r
      (by omega : 0 < min (max chunkLen 1) shardLen) (Nat.zero_le x) hx
    refine ⟨task, List.mem_flatten.mpr ⟨_, List.mem_map.mpr ⟨_, hw, rfl⟩,
      List.mem_flatMap.mpr ⟨r, List.mem_range'_1.mpr ⟨hl, by simp only at hl hu ⊢; omega⟩, htask⟩⟩,
      hcov⟩
  · obtain ⟨hw, hl, hu⟩ := (mem_chunkRanges_iff (rowGroupLen_pos (by omega : 0 < shardLen)
      (by omega : 0 < min (max chunkLen 1) shardLen) (by omega : 0 < outputCount)
      (by omega : outputCount < max jobs 1) r) x hx _).mpr rfl
    obtain ⟨task, htask, hcov⟩ := chunkTasks_cover r
      (by omega : 0 < min (max chunkLen 1) shardLen) hl hu
    exact ⟨task, List.mem_flatten.mpr ⟨_, List.mem_flatMap.mpr ⟨r, List.mem_range.mpr hr,
      List.mem_map.mpr ⟨_, hw, rfl⟩⟩, htask⟩, hcov⟩

end Schedule

section Spec

variable {E : Type} [CodecField E] [LawfulField E]

/-- One callback leaves the product in its window and touches nothing else. -/
theorem codeOutputChunk_spec {n len k : Nat} (matrixRows : List (List E))
    {inputs outputs : List (List E)} (hk : 0 < k) (hin : Grid k len inputs)
    (hout : Grid n len outputs) {task : ChunkTask} (hrow : task.row < n) (hstop : task.stop ≤ len) :
    Grid n len (codeOutputChunk k matrixRows inputs outputs task) ∧
      ∀ r x, r < n → x < len →
        ((codeOutputChunk k matrixRows inputs outputs task).getD r []).getD x 0 =
          if r = task.row ∧ task.start ≤ x ∧ x < task.stop then
            rowDot (matrixRows.getD r []) inputs x
          else (outputs.getD r []).getD x 0 := by
  set width := task.stop - task.start with hwidth
  have hlenIn (i : Nat) (hi : i < k) :
      (slice (inputs.getD i []) task.start task.stop).length = width :=
    length_slice _ _ _ (by rw [hin.row_length i hi]; exact hstop)
  have hlenOut : (slice (outputs.getD task.row []) task.start task.stop).length = width :=
    length_slice _ _ _ (by rw [hout.row_length _ hrow]; exact hstop)
  -- the accumulated chunk after `i` columns is the partial sum over them
  let P : Nat → List E → Prop := fun i chunk => chunk.length = width ∧ ∀ x, x < width →
    chunk.getD x 0 = ∑ c ∈ Finset.range i,
      (matrixRows.getD task.row []).getD c 0 * (inputs.getD c []).getD (task.start + x) 0
  let chunk := (List.range' 1 (k - 1)).foldl (fun chunk iInput =>
    mulSliceAdd ((matrixRows.getD task.row []).getD iInput zero)
      (slice (inputs.getD iInput []) task.start task.stop) chunk)
    (mulSlice ((matrixRows.getD task.row []).getD 0 zero)
      (slice (inputs.getD 0 []) task.start task.stop)
      (slice (outputs.getD task.row []) task.start task.stop))
  have hchunk : P k chunk := by
    have hfold := foldl_range'_inv P (fun chunk iInput =>
      mulSliceAdd ((matrixRows.getD task.row []).getD iInput zero)
        (slice (inputs.getD iInput []) task.start task.stop) chunk) 1 (k - 1)
      (mulSlice ((matrixRows.getD task.row []).getD 0 zero)
        (slice (inputs.getD 0 []) task.start task.stop)
        (slice (outputs.getD task.row []) task.start task.stop)) ?_ ?_
    · rwa [Nat.add_sub_cancel' hk] at hfold
    · rw [mulSlice_eq_map _ _ _ ((hlenIn 0 hk).trans hlenOut.symm)]
      refine ⟨by rw [List.length_map, hlenIn 0 hk], fun x hx => ?_⟩
      rw [getD_map_of_lt _ _ _ (by rw [hlenIn 0 hk]; exact hx) 0, getD_slice _ _ _ _ hx,
        Finset.sum_range_one, zero_eq]
    · rintro i h1 hi chunk ⟨hl, hv⟩
      have hlen := hlenIn i (by omega)
      rw [mulSliceAdd_eq_zipWith _ _ _ (hlen.trans hl.symm)]
      refine ⟨by rw [List.length_zipWith, hl, hlen, Nat.min_self], fun x hx => ?_⟩
      rw [getD_zipWith _ _ _ _ (by omega) (by omega) 0 0, hv x hx, getD_slice _ _ _ _ hx,
        Finset.sum_range_succ, zero_eq]
  have hn : task.row < outputs.length := by rw [hout.length_eq]; exact hrow
  change Grid n len (outputs.set task.row (overwrite task.start chunk (outputs.getD task.row []))) ∧
    ∀ r x, r < n → x < len →
      ((outputs.set task.row (overwrite task.start chunk (outputs.getD task.row []))).getD r []).getD
        x 0 = _
  refine ⟨⟨by rw [List.length_set]; exact hout.length_eq, fun r hr => ?_⟩, fun r x hr hx => ?_⟩
  · rw [getD_set]
    split_ifs with h
    · rw [length_overwrite, hout.row_length _ hrow]
    · exact hout.row_length r hr
  · rw [getD_set]
    by_cases hrt : task.row = r
    · subst hrt
      rw [if_pos ⟨rfl, hn⟩, getD_overwrite, hchunk.1, hout.row_length _ hrow]
      by_cases hw : task.start ≤ x ∧ x < task.stop
      · rw [if_pos ⟨hw.1, by omega, hx⟩, if_pos ⟨rfl, hw⟩, hchunk.2 _ (by omega),
          Nat.add_sub_of_le hw.1, rowDot, hin.length_eq]
      · rw [if_neg (by omega), if_neg (fun h => hw h.2)]
    · rw [if_neg (fun h => hrt h.1), if_neg (fun h => hrt h.1.symm)]

/-- Any order of the callbacks computes the matrix product. -/
theorem foldl_codeOutputChunk_eq {n len k chunkLen jobs : Nat} (matrixRows : List (List E))
    {inputs outputs : List (List E)} (hk : 0 < k) (hin : Grid k len inputs)
    (hout : Grid n len outputs) {schedule : List ChunkTask}
    (hs : IsSchedule (outputChunkGroups n len chunkLen jobs) schedule) :
    schedule.foldl (codeOutputChunk k matrixRows inputs) outputs =
      outputs.mapIdx fun r _ => codedShard (matrixRows.getD r []) inputs len := by
  obtain ⟨hg, hval⟩ := foldl_cover (Grid n len) (fun p : Nat × Nat => p.1 < n ∧ p.2 < len)
    (fun t p => (t.getD p.1 []).getD p.2 0) (fun p => rowDot (matrixRows.getD p.1 []) inputs p.2)
    (fun task p => p.1 = task.row ∧ task.start ≤ p.2 ∧ p.2 < task.stop)
    (codeOutputChunk k matrixRows inputs) schedule outputs hout (by
      intro task htask t ht
      have hb := outputChunkGroups_bounds (hs.mem_iff.mp htask)
      obtain ⟨hg, hval⟩ := codeOutputChunk_spec matrixRows hk hin ht hb.1 hb.2
      refine ⟨hg, fun p hp => ⟨fun hc => ?_, fun hc => ?_⟩⟩
      · exact (hval p.1 p.2 hp.1 hp.2).trans (if_pos hc)
      · exact (hval p.1 p.2 hp.1 hp.2).trans (if_neg hc))
  refine Grid.ext hg (hout.mapIdx _ (fun r _ => length_codedShard _ _ len)) 0 (fun r x hr hx => ?_)
  obtain ⟨task, htask, hrow, hcov⟩ := outputChunkGroups_cover chunkLen jobs hr hx
  rw [getD_mapIdx_of_lt _ _ _ (by rw [hout.length_eq]; exact hr) [], getD_codedShard _ _ hx]
  exact (hval (r, x) ⟨hr, hx⟩).1 ⟨task, hs.mem_iff.mpr htask, hrow.symm, hcov⟩

namespace ReedSolomon

variable {codec : ReedSolomon E}

/-- The parallel entry writes the product under every decision and schedule. -/
theorem encodeSepPar_eq (h : codec.ClassicInv) {data parity : List (List E)} {len : Nat}
    (hlen : 0 < len) (hd : Grid codec.dataShardCount len data)
    (hp : Grid codec.parityShardCount len parity) {decision : ParallelDecision}
    (hchunk : 1 ≤ decision.chunkLen) {schedule : List ChunkTask}
    (hs : IsSchedule (outputChunkGroups codec.parityShardCount len decision.chunkLen decision.jobs)
      schedule) :
    codec.encodeSepPar decision schedule data parity = (.ok (), codec.parityProduct data len) := by
  have hhead : (data.head?.map List.length).getD 0 = len := by
    have h0 := hd.row_length 0 h.data_pos
    cases data with
    | nil => exact absurd hd.length_eq (by have := h.data_pos; simp; omega)
    | cons a l => simpa using h0
  unfold encodeSepPar
  rw [(checkEncodeSep_ok h.data_pos h.parity_pos).mpr ⟨len, hlen, hd, hp⟩]
  simp only
  split_ifs with hfast hpar
  · rw [encodeFastOneParity_eq h hfast hd hp]
  · unfold codeSomeSlicesParChunkedWithJobs
    simp only [hhead]
    rw [if_neg (by omega), if_neg (by omega), foldl_codeOutputChunk_eq _ h.data_pos hd hp hs,
      mapIdx_parityRows h hd.length_eq hp]
  · rw [← encodeClassicMatrix, encodeClassicMatrix_eq h hlen hd hp]

variable [DecidableEq E]

/-- All Classic encode paths compute the same matrix product. -/
theorem encode_paths_agree (h : codec.IsClassic) {data parity : List (List E)} {len : Nat}
    (hlen : 0 < len) (hd : Grid codec.dataShardCount len data)
    (hp : Grid codec.parityShardCount len parity) :
    codec.encode (data ++ parity) = (.ok (), data ++ codec.parityProduct data len) ∧
      codec.encodeSep data parity = (.ok (), codec.parityProduct data len) ∧
      ∀ (decision : ParallelDecision) (schedule : List ChunkTask), 1 ≤ decision.chunkLen →
        1 ≤ decision.jobs →
        IsSchedule (outputChunkGroups codec.parityShardCount len decision.chunkLen decision.jobs)
          schedule →
        codec.encodeSepPar decision schedule data parity =
          (.ok (), codec.parityProduct data len) :=
  ⟨encode_eq h.inv hlen hd hp, encodeSep_eq h.inv hlen hd hp,
    fun _ _ hchunk _ hs => encodeSepPar_eq h.inv hlen hd hp hchunk hs⟩

theorem encode_paths_agree_sample :
    sampleCodec.encodeSep [[1#8, 4#8], [2#8, 5#8]] [[7#8, 8#8], [9#8, 0#8]] =
        (.ok (), sampleCodec.parityProduct [[1#8, 4#8], [2#8, 5#8]] 2) ∧
      sampleCodec.encodeSepPar ⟨true, 3, 1⟩ (outputChunkGroups 2 2 1 3).flatten
          [[1#8, 4#8], [2#8, 5#8]] [[7#8, 8#8], [9#8, 0#8]] =
        (.ok (), sampleCodec.parityProduct [[1#8, 4#8], [2#8, 5#8]] 2) := by
  have h := encode_paths_agree sampleCodec_isClassic (by decide : 0 < 2)
    (⟨rfl, by decide⟩ : Grid 2 2 [[1#8, 4#8], [2#8, 5#8]])
    (⟨rfl, by decide⟩ : Grid 2 2 [[7#8, 8#8], [9#8, 0#8]])
  exact ⟨h.2.1, h.2.2 ⟨true, 3, 1⟩ _ (by decide) (by decide) (List.Perm.refl _)⟩

end ReedSolomon

end Spec

end ErasureCodec
