import ErasureCodec.Codec.ParallelPolicy
import ErasureCodec.Math.Tiling

namespace ErasureCodec

section Definitions

/-- The arguments of one callback: the row, the offset, and the chunk itself. -/
structure OutputCall where
  row : Nat
  start : Nat
  chunk : ChunkTask
  deriving Repr, DecidableEq

/-- `for_each_output_chunk` with the arguments as its loops compute them from the group and
chunk indexes: the parallel tasks, each the list of callbacks it makes in order. -/
def forEachOutputChunk (outputCount shardLen chunkLen jobs : Nat) : List (List OutputCall) :=
  if outputCount = 0 ∨ shardLen = 0 then []
  else
    let chunkLen := min (max chunkLen 1) shardLen
    let jobs := max jobs 1
    if outputCount ≥ jobs then
      let outputsPerJob := divCeil outputCount jobs
      (chunkRanges outputCount outputsPerJob).mapIdx fun groupIndex group =>
        (List.range (group.2 - group.1)).flatMap fun offset =>
          let row := groupIndex * outputsPerJob + offset
          (chunkRanges shardLen chunkLen).mapIdx fun chunkIndex chunk =>
            ⟨row, chunkIndex * chunkLen, ⟨group.1 + offset, chunk.1, chunk.2⟩⟩
    else
      (List.range outputCount).flatMap fun row =>
        let groupLen := rowGroupLen outputCount shardLen chunkLen jobs row
        (chunkRanges shardLen groupLen).mapIdx fun groupIndex group =>
          (chunkRanges (group.2 - group.1) chunkLen).mapIdx fun chunkIndex chunk =>
            ⟨row, groupIndex * groupLen + chunkIndex * chunkLen,
              ⟨row, group.1 + chunk.1, group.1 + chunk.2⟩⟩

/-- The largest size of an allocation. -/
def isizeMax : Nat := 2 ^ 63 - 1

/-- A byte slice, which no allocation makes larger than `isizeMax`. -/
structure ByteSlice where
  bytes : List (BitVec 8)
  length_le : bytes.length ≤ isizeMax

structure NativeEncodeJob where
  start : Nat
  outputs : List (List (BitVec 8))

/-- One round of the loop over the parity shards: job by job, the next chunk is pushed. -/
def pushChunks (groupLen : Nat) (jobs : List NativeEncodeJob) (output : ByteSlice) :
    List NativeEncodeJob :=
  let chunks := (chunkRanges output.bytes.length groupLen).map fun w => slice output.bytes w.1 w.2
  List.zipWith (fun job chunk => { job with outputs := job.outputs ++ [chunk] }) jobs chunks ++
    jobs.drop chunks.length

/-- `split_native_encode_jobs`; an overflow of the group length, or its division, is a panic. -/
def splitNativeEncodeJobs (parity : List ByteSlice) (shardLen jobLimit : Nat) :
    Outcome Error (List NativeEncodeJob) :=
  let groupLen := divCeil (divCeil shardLen jobLimit) 64 * 64
  if jobLimit = 0 ∨ groupLen = 0 ∨ usizeLimit ≤ groupLen then .panic
  else .ok (parity.foldl (pushChunks groupLen)
    ((List.range (divCeil shardLen groupLen)).map fun index => ⟨index * groupLen, []⟩))

end Definitions

section Callbacks

variable {outputCount shardLen chunkLen jobs : Nat}

/-- The callback that a task stands for. -/
def ChunkTask.call (task : ChunkTask) : OutputCall := ⟨task.row, task.start, task⟩

/-- The recomputed arguments are those of the slices. -/
theorem forEachOutputChunk_eq (outputCount shardLen chunkLen jobs : Nat) :
    forEachOutputChunk outputCount shardLen chunkLen jobs =
      (outputChunkGroups outputCount shardLen chunkLen jobs).map (List.map ChunkTask.call) := by
  simp only [forEachOutputChunk, outputChunkGroups]
  split_ifs with hempty hfew
  · rfl
  · rw [List.map_map]
    apply mapIdx_chunkRanges
    intro k stop
    simp only [Function.comp_apply, List.map_flatMap]
    rw [List.range'_eq_map_range, List.flatMap_map]
    congr 1
    funext offset
    rw [chunkTasks, List.map_map, Nat.sub_zero]
    apply mapIdx_chunkRanges
    intro j stop
    simp [ChunkTask.call]
  · rw [List.map_flatMap]
    congr 1
    funext row
    rw [List.map_map]
    apply mapIdx_chunkRanges
    intro k stop
    rw [Function.comp_apply, chunkTasks, List.map_map]
    apply mapIdx_chunkRanges
    intro j stop
    rfl

/-- The windows of one output, as tasks. -/
def windowTasks (row : Nat) (ws : List (Nat × Nat)) : List ChunkTask :=
  ws.map fun w => ⟨row, w.1, w.2⟩

theorem chunkTasks_eq (row start stop chunkLen : Nat) : chunkTasks row start stop chunkLen =
    windowTasks row ((chunkRanges (stop - start) chunkLen).map fun w =>
      (start + w.1, start + w.2)) := by
  rw [windowTasks, List.map_map]
  rfl

theorem tiles_chunkTasks {start stop : Nat} (hc : 0 < chunkLen) (hle : start ≤ stop) :
    Tiles start ((chunkRanges (stop - start) chunkLen).map fun w => (start + w.1, start + w.2))
      stop := by
  have h := (tiles_chunkRanges (stop - start) hc).shift start
  rwa [Nat.add_zero, Nat.add_sub_cancel' hle] at h

/-- In both regimes the callbacks go output by output, and tile each of them. -/
theorem outputChunkGroups_tile (chunkLen jobs : Nat) (houtput : 0 < outputCount)
    (hlen : 0 < shardLen) : ∃ ws : Nat → List (Nat × Nat),
      (∀ row, row < outputCount → Tiles 0 (ws row) shardLen) ∧
      (outputChunkGroups outputCount shardLen chunkLen jobs).flatten =
        (List.range outputCount).flatMap fun row => windowTasks row (ws row) := by
  have hchunk : 0 < min (max chunkLen 1) shardLen := by omega
  simp only [outputChunkGroups]
  rw [if_neg (by omega)]
  split_ifs with hfew
  · refine ⟨fun row => _, fun row _ => tiles_chunkTasks hchunk (Nat.zero_le shardLen), ?_⟩
    have hper : 0 < (outputCount + max jobs 1 - 1) / max jobs 1 := Nat.div_pos (by omega) (by omega)
    have hrows := (tiles_chunkRanges outputCount hper).flatMap_range'
    rw [Nat.sub_zero, ← List.range_eq_range'] at hrows
    rw [← List.flatMap_def, ← hrows, List.flatMap_assoc]
    congr 1
    funext group
    congr 1
    funext row
    exact chunkTasks_eq row 0 shardLen _
  · refine ⟨fun row => (chunkRanges shardLen (rowGroupLen outputCount shardLen
      (min (max chunkLen 1) shardLen) (max jobs 1) row)).flatMap fun group =>
        (chunkRanges (group.2 - group.1) (min (max chunkLen 1) shardLen)).map fun w =>
          (group.1 + w.1, group.1 + w.2), fun row hrow => ?_, ?_⟩
    · have hgroup := rowGroupLen_pos hlen hchunk houtput (by omega : outputCount < max jobs 1) row
      refine (tiles_chunkRanges shardLen hgroup).flatMap fun w hw => tiles_chunkTasks hchunk ?_
      exact (chunkRanges_bounds hgroup hw).1.le
    · rw [List.flatMap_def, List.flatten_flatten, List.map_map, ← List.flatMap_def]
      congr 1
      funext row
      rw [Function.comp_apply, windowTasks, List.map_flatMap, ← List.flatMap_def]
      congr 1
      funext group
      exact chunkTasks_eq row _ _ _

/-- Each position of each output lies in exactly one chunk. -/
theorem countP_outputChunkGroups (chunkLen jobs : Nat) {r x : Nat} (hr : r < outputCount)
    (hx : x < shardLen) :
    ((outputChunkGroups outputCount shardLen chunkLen jobs).flatten.countP fun task =>
      task.row = r ∧ task.start ≤ x ∧ x < task.stop) = 1 := by
  obtain ⟨ws, htiles, hflat⟩ := outputChunkGroups_tile chunkLen jobs
    (show 0 < outputCount by omega) (show 0 < shardLen by omega)
  have hrow (row : Nat) (hrow : row < outputCount) : (windowTasks row (ws row)).countP (fun task =>
      task.row = r ∧ task.start ≤ x ∧ x < task.stop) = if row = r then 1 else 0 := by
    have hcount := (htiles row hrow).countP_eq x
    rw [if_pos ⟨Nat.zero_le x, hx⟩] at hcount
    rw [windowTasks, List.countP_map]
    by_cases h : row = r
    · rw [if_pos h, ← hcount]
      congr 1
      funext w
      simp [h]
    · rw [if_neg h, List.countP_eq_zero]
      intro w _
      simp [h]
  rw [hflat, List.countP_flatMap]
  have hsum : (List.map (List.countP (fun task : ChunkTask => decide (task.row = r ∧
      task.start ≤ x ∧ x < task.stop)) ∘ fun row => windowTasks row (ws row))
      (List.range outputCount)).sum = ∑ row ∈ Finset.range outputCount, if row = r then 1 else 0 :=
    Finset.sum_congr rfl fun row hmem => hrow row (Finset.mem_range.mp hmem)
  rw [hsum, Finset.sum_ite_eq', if_pos (Finset.mem_range.mpr hr)]

/-- Every chunk lies in its output, is not empty and has at most the asked length. -/
theorem outputChunkGroups_sizes {task : ChunkTask}
    (h : task ∈ (outputChunkGroups outputCount shardLen chunkLen jobs).flatten) :
    task.row < outputCount ∧ task.stop ≤ shardLen ∧ task.start < task.stop ∧
      task.stop - task.start ≤ max 1 chunkLen := by
  have hsize {row start stop len : Nat} (hlen : 0 < len) (hmem : task ∈ chunkTasks row start stop len) :
      task.start < task.stop ∧ task.stop - task.start ≤ len := by
    obtain ⟨chunk, hchunk, rfl⟩ := List.mem_map.mp hmem
    have hb := chunkRanges_bounds hlen hchunk
    simp only
    omega
  obtain ⟨hrow, hstop⟩ := outputChunkGroups_bounds h
  simp only [outputChunkGroups] at h
  split_ifs at h with hempty hfew
  · simp at h
  · obtain ⟨group, hgroup, htask⟩ := List.mem_flatten.mp h
    obtain ⟨w, hw, rfl⟩ := List.mem_map.mp hgroup
    obtain ⟨row, -, htask⟩ := List.mem_flatMap.mp htask
    have := hsize (by omega) htask
    omega
  · obtain ⟨group, hgroup, htask⟩ := List.mem_flatten.mp h
    obtain ⟨row, -, hgroup⟩ := List.mem_flatMap.mp hgroup
    obtain ⟨w, hw, rfl⟩ := List.mem_map.mp hgroup
    have := hsize (by omega) htask
    omega

/-- The shares of the outputs add up to the budget. -/
theorem sum_shares (jobs : Nat) {n : Nat} (hn : 0 < n) :
    ∑ row ∈ Finset.range n, (jobs / n + if row < jobs % n then 1 else 0) = jobs := by
  have hmod := Nat.mod_lt jobs hn
  have hfilter : (Finset.range n).filter (· < jobs % n) = Finset.range (jobs % n) := by
    ext row
    simp only [Finset.mem_filter, Finset.mem_range]
    omega
  rw [Finset.sum_add_distrib, Finset.sum_const, Finset.card_range, Finset.sum_boole, hfilter,
    Finset.card_range, Nat.cast_id, smul_eq_mul]
  exact Nat.div_add_mod jobs n

/-- The groups of one output are at most its share. -/
theorem length_rowGroups (hlen : 0 < shardLen) (hfits : shardLen < usizeLimit) (hc : 0 < chunkLen)
    {share : Nat} (hshare : 0 < share) :
    (chunkRanges shardLen (min (saturate (divCeil (divCeil shardLen chunkLen) share * chunkLen))
      shardLen)).length ≤ share := by
  have hchunks := le_divCeil_mul shardLen hc
  have hper := le_divCeil_mul (divCeil shardLen chunkLen) hshare
  obtain ⟨per, hperdef⟩ : ∃ per, per = divCeil (divCeil shardLen chunkLen) share := ⟨_, rfl⟩
  rw [← hperdef] at hper ⊢
  have hcover : shardLen ≤ share * (per * chunkLen) := by
    calc shardLen ≤ divCeil shardLen chunkLen * chunkLen := hchunks
      _ ≤ per * share * chunkLen := Nat.mul_le_mul_right _ hper
      _ = share * (per * chunkLen) := by ring
  have hpos : 0 < per * chunkLen := by
    by_contra hzero
    rw [Nat.eq_zero_of_not_pos hzero, Nat.mul_zero] at hcover
    omega
  have hgroup : min (saturate (per * chunkLen)) shardLen = min (per * chunkLen) shardLen := by
    unfold saturate
    omega
  rw [length_chunkRanges, hgroup]
  rcases Nat.le_total (per * chunkLen) shardLen with hle | hle
  · rw [min_eq_left hle]
    exact divCeil_le_of_mul hpos hcover
  · rw [min_eq_right hle]
    exact divCeil_le_of_mul hlen (Nat.le_mul_of_pos_left shardLen hshare)

/-- The budget bounds the tasks. -/
theorem length_outputChunkGroups (outputCount chunkLen jobs : Nat) (hlen : shardLen < usizeLimit) :
    (outputChunkGroups outputCount shardLen chunkLen jobs).length ≤ max jobs 1 := by
  simp only [outputChunkGroups]
  split_ifs with hempty hfew
  · simp
  · have hjobs : 0 < max jobs 1 := by omega
    have hcover := le_divCeil_mul outputCount hjobs
    have hper : 0 < divCeil outputCount (max jobs 1) := by
      by_contra hzero
      rw [Nat.eq_zero_of_not_pos hzero, Nat.zero_mul] at hcover
      omega
    rw [List.length_map, length_chunkRanges]
    exact divCeil_le_of_mul hper (by rw [Nat.mul_comm]; exact hcover)
  · have hshare (row : Nat) : 0 < max jobs 1 / outputCount +
        if row < max jobs 1 % outputCount then 1 else 0 := by
      have : 0 < max jobs 1 / outputCount := Nat.div_pos (by omega) (by omega)
      omega
    rw [List.length_flatMap]
    calc _ = ∑ row ∈ Finset.range outputCount, (chunkRanges shardLen (rowGroupLen outputCount
          shardLen (min (max chunkLen 1) shardLen) (max jobs 1) row)).length := by
          simp only [List.length_map]
          rfl
      _ ≤ ∑ row ∈ Finset.range outputCount, (max jobs 1 / outputCount +
          if row < max jobs 1 % outputCount then 1 else 0) :=
        Finset.sum_le_sum fun row _ => length_rowGroups (by omega) hlen (by omega) (hshare row)
      _ = max jobs 1 := sum_shares _ (by omega)

end Callbacks

section NativeJobs

/-- The share of job `index` in a list of shards. -/
def nativeJob (groupLen shardLen : Nat) (shards : List ByteSlice) (index : Nat) : NativeEncodeJob :=
  ⟨index * groupLen, shards.map fun shard =>
    slice shard.bytes (index * groupLen) (min ((index + 1) * groupLen) shardLen)⟩

theorem pushChunks_eq {groupLen shardLen : Nat} (seen : List ByteSlice) {output : ByteSlice}
    (hlen : output.bytes.length = shardLen) :
    pushChunks groupLen ((List.range (divCeil shardLen groupLen)).map
        (nativeJob groupLen shardLen seen)) output =
      (List.range (divCeil shardLen groupLen)).map
        (nativeJob groupLen shardLen (seen ++ [output])) := by
  unfold pushChunks
  rw [hlen]
  simp only [chunkRanges, List.map_map, List.length_map, List.length_range]
  have hcount : (shardLen + groupLen - 1) / groupLen = divCeil shardLen groupLen := rfl
  rw [hcount, List.drop_eq_nil_of_le (by simp), List.append_nil, List.zipWith_map,
    List.zipWith_self]
  apply List.map_congr_left
  intro index _
  simp [nativeJob]

theorem foldl_pushChunks {groupLen shardLen : Nat} (shards seen : List ByteSlice)
    (hlen : ∀ shard ∈ shards, shard.bytes.length = shardLen) :
    shards.foldl (pushChunks groupLen) ((List.range (divCeil shardLen groupLen)).map
        (nativeJob groupLen shardLen seen)) =
      (List.range (divCeil shardLen groupLen)).map
        (nativeJob groupLen shardLen (seen ++ shards)) := by
  induction shards generalizing seen with
  | nil => simp
  | cons shard shards ih =>
    rw [List.foldl_cons, pushChunks_eq seen (hlen shard List.mem_cons_self),
      ih (seen ++ [shard]) (fun s hs => hlen s (List.mem_cons_of_mem shard hs)),
      List.append_assoc, List.singleton_append]

/-- The parallel encode jobs: at most `jobLimit`, aligned, and with slices that make up every
parity shard. -/
theorem splitNativeEncodeJobs_eq {parity : List ByteSlice} {shardLen jobLimit : Nat}
    (hnone : parity = [] → shardLen ≤ isizeMax)
    (hlen : ∀ shard ∈ parity, shard.bytes.length = shardLen) (hshard : 1 ≤ shardLen)
    (hjob : 1 ≤ jobLimit) :
    ∃ jobs, splitNativeEncodeJobs parity shardLen jobLimit = .ok jobs ∧
      jobs.length ≤ jobLimit ∧
      (∀ job ∈ jobs, 64 ∣ job.start ∧ ∃ stop, job.start < stop ∧ stop ≤ shardLen ∧
        job.outputs = parity.map fun shard => slice shard.bytes job.start stop) ∧
      ∀ (r : Nat) (hr : r < parity.length),
        (jobs.flatMap fun job => job.outputs.getD r []) = parity[r].bytes := by
  have hbound : shardLen ≤ isizeMax := by
    cases parity with
    | nil => exact hnone rfl
    | cons shard _ =>
      rw [← hlen shard List.mem_cons_self]
      exact shard.length_le
  have hshare := le_divCeil_mul shardLen (b := jobLimit) (by omega)
  have hshare_le : divCeil shardLen jobLimit ≤ shardLen :=
    divCeil_le_of_mul (by omega) (Nat.le_mul_of_pos_right shardLen (by omega))
  have hround := le_divCeil_mul (divCeil shardLen jobLimit) (b := 64) (by decide)
  have hround_lt : divCeil (divCeil shardLen jobLimit) 64 * 64 < divCeil shardLen jobLimit + 64 :=
    roundUp_lt _ (by decide)
  obtain ⟨groupLen, hgroup⟩ : ∃ groupLen,
    groupLen = divCeil (divCeil shardLen jobLimit) 64 * 64 := ⟨_, rfl⟩
  rw [← hgroup] at hround hround_lt
  have hpos : 0 < groupLen := by
    by_contra hzero
    have hzero : divCeil shardLen jobLimit = 0 := by omega
    rw [hzero, Nat.zero_mul] at hshare
    omega
  have hdvd : 64 ∣ groupLen := hgroup ▸ Nat.dvd_mul_left 64 _
  have hlimit : groupLen < usizeLimit := by
    unfold usizeLimit
    unfold isizeMax at hbound
    omega
  have hsplit : splitNativeEncodeJobs parity shardLen jobLimit =
      .ok ((List.range (divCeil shardLen groupLen)).map (nativeJob groupLen shardLen parity)) := by
    simp only [splitNativeEncodeJobs]
    rw [← hgroup, if_neg (by omega)]
    exact congrArg Outcome.ok (foldl_pushChunks parity [] hlen)
  refine ⟨_, hsplit, ?_, fun job hjob => ?_, fun r hr => ?_⟩
  · rw [List.length_map, List.length_range]
    refine divCeil_le_of_mul hpos (hshare.trans ?_)
    rw [Nat.mul_comm]
    exact Nat.mul_le_mul_left jobLimit hround
  · obtain ⟨index, hindex, rfl⟩ := List.mem_map.mp hjob
    have hwindow : (index * groupLen, min ((index + 1) * groupLen) shardLen) ∈
        chunkRanges shardLen groupLen := List.mem_map.mpr ⟨index, hindex, rfl⟩
    obtain ⟨hlt, hle, -⟩ := chunkRanges_bounds hpos hwindow
    exact ⟨hdvd.mul_left index, _, hlt, hle, rfl⟩
  · have hflat : (((List.range (divCeil shardLen groupLen)).map
        (nativeJob groupLen shardLen parity)).flatMap fun job => job.outputs.getD r []) =
        (chunkRanges shardLen groupLen).flatMap fun w => slice parity[r].bytes w.1 w.2 := by
      rw [chunkRanges, List.flatMap_map, List.flatMap_map]
      congr 1
      funext index
      simp [nativeJob, hr]
    rw [hflat, (tiles_chunkRanges shardLen hpos).flatMap_slice,
      ← hlen _ (List.getElem_mem hr), slice_full]

end NativeJobs

/-- The callbacks of a parallel loop cover each position of each output once, on chunks of at
most the asked length, in at most the asked number of tasks; and the jobs of a native encode
make up the parity shards. -/
theorem output_scheduling_exact {shardLen : Nat} (hlen : shardLen < usizeLimit) :
    (∀ outputCount chunkLen jobs : Nat,
      let groups := forEachOutputChunk outputCount shardLen chunkLen jobs
      (∀ r x, r < outputCount → x < shardLen →
        (groups.flatten.countP fun call =>
          call.chunk.row = r ∧ call.chunk.start ≤ x ∧ x < call.chunk.stop) = 1) ∧
      (∀ call ∈ groups.flatten, call.chunk.row = call.row ∧ call.chunk.start = call.start ∧
        call.row < outputCount ∧ call.chunk.stop ≤ shardLen ∧ call.chunk.start < call.chunk.stop ∧
        call.chunk.stop - call.chunk.start ≤ max 1 chunkLen) ∧
      groups.length ≤ max 1 jobs) ∧
    ∀ (parity : List ByteSlice) (jobLimit : Nat), (parity = [] → shardLen ≤ isizeMax) →
      (∀ shard ∈ parity, shard.bytes.length = shardLen) → 1 ≤ shardLen → 1 ≤ jobLimit →
      ∃ jobs, splitNativeEncodeJobs parity shardLen jobLimit = .ok jobs ∧
        jobs.length ≤ jobLimit ∧
        (∀ job ∈ jobs, 64 ∣ job.start ∧ ∃ stop, job.start < stop ∧ stop ≤ shardLen ∧
          job.outputs = parity.map fun shard => slice shard.bytes job.start stop) ∧
        ∀ (r : Nat) (hr : r < parity.length),
          (jobs.flatMap fun job => job.outputs.getD r []) = parity[r].bytes := by
  refine ⟨fun outputCount chunkLen jobs => ?_, fun parity jobLimit hnone hall hshard hjob =>
    splitNativeEncodeJobs_eq hnone hall hshard hjob⟩
  simp only [forEachOutputChunk_eq, ← List.map_flatten]
  refine ⟨fun r x hr hx => ?_, fun call hcall => ?_, ?_⟩
  · rw [List.countP_map]
    exact countP_outputChunkGroups chunkLen jobs hr hx
  · obtain ⟨task, htask, rfl⟩ := List.mem_map.mp hcall
    obtain ⟨hrow, hstop, hlt, hsize⟩ := outputChunkGroups_sizes htask
    exact ⟨rfl, rfl, hrow, hstop, hlt, hsize⟩
  · rw [List.length_map, Nat.max_comm]
    exact length_outputChunkGroups outputCount chunkLen jobs hlen

theorem output_scheduling_exact_sample :
    (forEachOutputChunk 2 130 64 3).length ≤ 3 ∧
    ∃ jobs, splitNativeEncodeJobs
      [⟨List.replicate 130 1#8, by simp [isizeMax]⟩, ⟨List.replicate 130 2#8, by simp [isizeMax]⟩]
      130 2 = .ok jobs ∧ jobs.length ≤ 2 := by
  have h := output_scheduling_exact (show 130 < usizeLimit by decide)
  refine ⟨(h.1 2 64 3).2.2, ?_⟩
  obtain ⟨jobs, hjobs, hle, -⟩ := h.2
    [⟨List.replicate 130 1#8, by simp [isizeMax]⟩, ⟨List.replicate 130 2#8, by simp [isizeMax]⟩] 2
    (fun h => nomatch h) (by simp) (by decide) (by decide)
  exact ⟨jobs, hjobs, hle⟩

end ErasureCodec
