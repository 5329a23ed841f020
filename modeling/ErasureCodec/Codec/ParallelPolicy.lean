import ErasureCodec.Codec.Parallel
import ErasureCodec.Math.Rounding

namespace ErasureCodec

structure ParallelPolicy where
  minParallelShardBytes : Nat
  minBytesPerJob : Nat
  maxJobs : Nat
  l2CacheBytes : Nat
  deriving Repr, DecidableEq

def chunkAlignment : Nat := 64

/-- Preserve cache-line boundaries without exceeding the budget. -/
def alignChunkLen (chunkLen : Nat) : Nat :=
  if chunkLen ≥ chunkAlignment then chunkLen / chunkAlignment * chunkAlignment else chunkLen

def divCeil (a b : Nat) : Nat := (a + b - 1) / b

theorem le_divCeil_mul (a : Nat) {b : Nat} (hb : 0 < b) : a ≤ divCeil a b * b := le_roundUp a hb

theorem divCeil_le_of_mul {a b c : Nat} (hb : 0 < b) (h : a ≤ c * b) : divCeil a b ≤ c := by
  have hle : (a + b - 1) / b * b ≤ c * b := roundUp_le hb (Nat.dvd_mul_left b c) h
  exact Nat.le_of_mul_le_mul_right hle hb

theorem divCeil_antitone (a : Nat) {b c : Nat} (hb : 0 < b) (hbc : b ≤ c) :
    divCeil a c ≤ divCeil a b :=
  divCeil_le_of_mul (by omega) ((le_divCeil_mul a hb).trans (Nat.mul_le_mul_left _ hbc))

namespace ParallelPolicy

variable (policy : ParallelPolicy)

/-- Bound on the inner chunk that keeps the active shards in the cache. -/
def cacheChunkLen (dataShards outputShards : Nat) : Nat :=
  if policy.l2CacheBytes = 0 then usizeLimit - 1
  else max (policy.l2CacheBytes / max (saturate (dataShards + outputShards)) 1) 1

def decide (shardSize dataShards outputShards availableParallelism : Nat) : ParallelDecision :=
  if shardSize = 0 ∨ dataShards = 0 ∨ outputShards = 0 then ⟨false, 1, shardSize⟩
  else
    let availableParallelism := max availableParallelism 1
    let maxJobs := max (if policy.maxJobs = 0 then availableParallelism
      else min policy.maxJobs availableParallelism) 1
    let minParallelShardBytes := max policy.minParallelShardBytes 1
    let minBytesPerJob := max policy.minBytesPerJob codeSliceMinChunkBytes
    let cacheChunkLen := policy.cacheChunkLen dataShards outputShards
    let chunkCap := min (min minBytesPerJob cacheChunkLen) shardSize
    let chunkCount := max (divCeil shardSize chunkCap) 1
    let maxUsefulJobs :=
      max (if outputShards ≤ 2 then chunkCount else saturate (outputShards * chunkCount)) 1
    let jobs := max (min maxJobs maxUsefulJobs) 1
    if shardSize < minParallelShardBytes ∨ jobs < 2 then
      ⟨false, 1, alignChunkLen (min (serialCodeChunkLen shardSize) cacheChunkLen)⟩
    else
      let chunksPerOutput := max 1 (divCeil jobs outputShards)
      let chunkLen := alignChunkLen (min (divCeil shardSize chunksPerOutput) chunkCap)
      ⟨true, jobs, min chunkLen shardSize⟩

/-- Byte-based limits for elements of `elementSize` bytes. -/
def decideForElements (shardLen elementSize dataShards outputShards availableParallelism : Nat) :
    ParallelDecision :=
  let elementSize := max elementSize 1
  let decision := policy.decide (saturate (shardLen * elementSize)) dataShards outputShards
    availableParallelism
  { decision with
    chunkLen := if shardLen = 0 then 0 else min (max (decision.chunkLen / elementSize) 1) shardLen }

/-- `a / b`; a division by zero is a panic. -/
def checkedDiv (a b : Nat) : Outcome Error Nat := if b = 0 then .panic else .ok (a / b)

/-- `a.div_ceil(b)`. -/
def checkedDivCeil (a b : Nat) : Outcome Error Nat := if b = 0 then .panic else .ok (divCeil a b)

/-- `a * b`; a product past `usize::MAX` is a panic. -/
def checkedMul (a b : Nat) : Outcome Error Nat :=
  if a * b < usizeLimit then .ok (a * b) else .panic

/-- `alignChunkLen` with the panics of its arithmetic. -/
def alignChecked (chunkLen : Nat) : Outcome Error Nat :=
  if chunkLen ≥ chunkAlignment then do
    let chunks ← checkedDiv chunkLen chunkAlignment
    checkedMul chunks chunkAlignment
  else .ok chunkLen

/-- `cacheChunkLen` with the panics of its arithmetic. -/
def cacheChunkLenChecked (dataShards outputShards : Nat) : Outcome Error Nat :=
  if policy.l2CacheBytes = 0 then .ok (usizeLimit - 1)
  else do
    let share ← checkedDiv policy.l2CacheBytes (max (saturate (dataShards + outputShards)) 1)
    pure (max share 1)

/-- `decide` with the panics of its arithmetic. -/
def decideChecked (shardSize dataShards outputShards availableParallelism : Nat) :
    Outcome Error ParallelDecision :=
  if shardSize = 0 ∨ dataShards = 0 ∨ outputShards = 0 then .ok ⟨false, 1, shardSize⟩
  else do
    let availableParallelism := max availableParallelism 1
    let maxJobs := max (if policy.maxJobs = 0 then availableParallelism
      else min policy.maxJobs availableParallelism) 1
    let minParallelShardBytes := max policy.minParallelShardBytes 1
    let minBytesPerJob := max policy.minBytesPerJob codeSliceMinChunkBytes
    let cacheChunkLen ← policy.cacheChunkLenChecked dataShards outputShards
    let chunkCap := min (min minBytesPerJob cacheChunkLen) shardSize
    let chunks ← checkedDivCeil shardSize chunkCap
    let chunkCount := max chunks 1
    let maxUsefulJobs :=
      max (if outputShards ≤ 2 then chunkCount else saturate (outputShards * chunkCount)) 1
    let jobs := max (min maxJobs maxUsefulJobs) 1
    if shardSize < minParallelShardBytes ∨ jobs < 2 then do
      let chunkLen ← alignChecked (min (serialCodeChunkLen shardSize) cacheChunkLen)
      pure ⟨false, 1, chunkLen⟩
    else do
      let perOutput ← checkedDivCeil jobs outputShards
      let chunksPerOutput := max 1 perOutput
      let share ← checkedDivCeil shardSize chunksPerOutput
      let chunkLen ← alignChecked (min share chunkCap)
      pure ⟨true, jobs, min chunkLen shardSize⟩

/-- `decide_for_elements` with the panics of its arithmetic. -/
def decideForElementsChecked
    (shardLen elementSize dataShards outputShards availableParallelism : Nat) :
    Outcome Error ParallelDecision := do
  let elementSize := max elementSize 1
  let decision ← policy.decideChecked (saturate (shardLen * elementSize)) dataShards outputShards
    availableParallelism
  let chunkLen ← if shardLen = 0 then .ok 0
    else do
      let elements ← checkedDiv decision.chunkLen elementSize
      pure (min (max elements 1) shardLen)
  pure { decision with chunkLen }

/-- Chunks of a nonempty shard are never empty, whatever the policy asks for. -/
theorem decideForElements_chunkLen_pos {shardLen : Nat} (h : 0 < shardLen)
    (elementSize dataShards outputShards availableParallelism : Nat) :
    1 ≤ (policy.decideForElements shardLen elementSize dataShards outputShards
      availableParallelism).chunkLen := by
  simp only [decideForElements]
  rw [if_neg (by omega)]
  omega

variable {shardSize dataShards outputShards availableParallelism : Nat}

theorem alignChunkLen_le (chunkLen : Nat) : alignChunkLen chunkLen ≤ chunkLen := by
  unfold alignChunkLen
  split_ifs
  · exact Nat.div_mul_le_self _ _
  · exact le_rfl

theorem alignChunkLen_pos {chunkLen : Nat} (h : 0 < chunkLen) : 0 < alignChunkLen chunkLen := by
  unfold alignChunkLen
  split_ifs with hge
  · exact Nat.mul_pos (Nat.div_pos hge (by decide)) (by decide)
  · exact h

theorem alignChecked_eq {chunkLen : Nat} (h : chunkLen < usizeLimit) :
    alignChecked chunkLen = .ok (alignChunkLen chunkLen) := by
  have hle := Nat.div_mul_le_self chunkLen chunkAlignment
  unfold alignChecked alignChunkLen
  split_ifs
  · have hdiv : checkedDiv chunkLen chunkAlignment = .ok (chunkLen / chunkAlignment) :=
      if_neg (by decide)
    rw [hdiv, Outcome.ok_bind]
    exact if_pos (by omega)
  · rfl

theorem cacheChunkLen_pos (dataShards outputShards : Nat) :
    0 < policy.cacheChunkLen dataShards outputShards := by
  unfold cacheChunkLen usizeLimit
  split_ifs <;> omega

/-- A chunk of more than one position that fits the bound keeps the active shards in the cache. -/
theorem cacheChunkLen_fits {chunkLen : Nat} (hcache : policy.l2CacheBytes ≠ 0)
    (hlimit : policy.l2CacheBytes < usizeLimit)
    (hle : chunkLen ≤ policy.cacheChunkLen dataShards outputShards) :
    chunkLen ≤ 1 ∨ chunkLen * (dataShards + outputShards) ≤ policy.l2CacheBytes := by
  unfold cacheChunkLen at hle
  rw [if_neg hcache] at hle
  by_cases hone : chunkLen ≤ 1
  · exact .inl hone
  · obtain ⟨active, hactive⟩ : ∃ active, active = max (saturate (dataShards + outputShards)) 1 :=
      ⟨_, rfl⟩
    rw [← hactive] at hle
    have hshare : chunkLen ≤ policy.l2CacheBytes / active := by omega
    have hpos : 0 < active := by omega
    have hmul := (Nat.le_div_iff_mul_le hpos).mp hshare
    have htwo : 2 * active ≤ chunkLen * active := Nat.mul_le_mul_right active (by omega)
    -- the sum of the counts has not saturated
    have hsum : dataShards + outputShards ≤ active := by
      unfold saturate at hactive
      omega
    exact .inr ((Nat.mul_le_mul_left chunkLen hsum).trans hmul)

theorem serialCodeChunkLen_bounds {shardLen : Nat} (h : 0 < shardLen) :
    0 < serialCodeChunkLen shardLen ∧ serialCodeChunkLen shardLen ≤ shardLen := by
  unfold serialCodeChunkLen codeSliceMinChunkBytes codeSliceDefaultChunkBytes
    codeSliceLargeChunkBytes
  split_ifs <;> omega

/-- The bound on the jobs that the policy and the machine set. -/
def jobLimit (availableParallelism : Nat) : Nat :=
  max 1 (if policy.maxJobs = 0 then availableParallelism
    else min policy.maxJobs availableParallelism)

/-- A chunk of a shard that keeps the active shards in the cache. -/
structure ChunkFits (shardSize dataShards outputShards chunkLen : Nat) : Prop where
  pos : 0 < chunkLen
  le_shard : chunkLen ≤ shardSize
  le_cache : chunkLen ≤ policy.cacheChunkLen dataShards outputShards

/-- What `decide` can decide on a non-empty request. -/
inductive Decides (shardSize dataShards outputShards availableParallelism : Nat) :
    ParallelDecision → Prop where
  | serial {chunkLen : Nat} (hfits : policy.ChunkFits shardSize dataShards outputShards chunkLen) :
      Decides shardSize dataShards outputShards availableParallelism ⟨false, 1, chunkLen⟩
  | parallel {jobs chunkLen : Nat}
      (hfits : policy.ChunkFits shardSize dataShards outputShards chunkLen) (htwo : 2 ≤ jobs)
      (hlimit : jobs ≤ policy.jobLimit availableParallelism)
      (huseful : jobs ≤ outputShards * divCeil shardSize chunkLen) :
      Decides shardSize dataShards outputShards availableParallelism ⟨true, jobs, chunkLen⟩

theorem decide_cases (hshard : 0 < shardSize) (hdata : 0 < dataShards) (houtput : 0 < outputShards)
    (availableParallelism : Nat) :
    policy.Decides shardSize dataShards outputShards availableParallelism
      (policy.decide shardSize dataShards outputShards availableParallelism) := by
  have hcache := policy.cacheChunkLen_pos dataShards outputShards
  have hserial := serialCodeChunkLen_bounds hshard
  have hmin : 0 < max policy.minBytesPerJob codeSliceMinChunkBytes := by
    unfold codeSliceMinChunkBytes
    omega
  simp only [decide]
  rw [if_neg (by omega)]
  obtain ⟨cap, hcap⟩ : ∃ cap, cap = min (min (max policy.minBytesPerJob codeSliceMinChunkBytes)
    (policy.cacheChunkLen dataShards outputShards)) shardSize := ⟨_, rfl⟩
  rw [← hcap]
  have hcappos : 0 < cap := by omega
  have hcount := le_divCeil_mul shardSize hcappos
  have hcountpos : 0 < divCeil shardSize cap := by
    by_contra hzero
    rw [Nat.eq_zero_of_not_pos hzero, Nat.zero_mul] at hcount
    omega
  obtain ⟨useful, huseful⟩ : ∃ useful, useful = max (if outputShards ≤ 2 then
    max (divCeil shardSize cap) 1 else
      saturate (outputShards * max (divCeil shardSize cap) 1)) 1 := ⟨_, rfl⟩
  have hbound : useful ≤ outputShards * divCeil shardSize cap := by
    have hone : max (divCeil shardSize cap) 1 = divCeil shardSize cap := by omega
    have hle := Nat.le_mul_of_pos_left (divCeil shardSize cap) houtput
    rw [huseful, hone]
    unfold saturate
    split_ifs <;> omega
  rw [← huseful]
  obtain ⟨jobs, hjobs⟩ : ∃ jobs, jobs = max (min (max (if policy.maxJobs = 0 then
    max availableParallelism 1 else min policy.maxJobs (max availableParallelism 1)) 1) useful) 1 :=
    ⟨_, rfl⟩
  rw [← hjobs]
  split_ifs with hfew
  · have hchunk : 0 < min (serialCodeChunkLen shardSize)
        (policy.cacheChunkLen dataShards outputShards) := by omega
    have hle := alignChunkLen_le (min (serialCodeChunkLen shardSize)
      (policy.cacheChunkLen dataShards outputShards))
    exact .serial ⟨alignChunkLen_pos hchunk, by omega, by omega⟩
  · have htwo : 2 ≤ jobs := by omega
    have hlimit : jobs ≤ policy.jobLimit availableParallelism := by
      unfold jobLimit
      split_ifs at hjobs ⊢ <;> omega
    have hshare := le_divCeil_mul shardSize (b := max 1 (divCeil jobs outputShards)) (by omega)
    have hsharepos : 0 < divCeil shardSize (max 1 (divCeil jobs outputShards)) := by
      by_contra hzero
      rw [Nat.eq_zero_of_not_pos hzero, Nat.zero_mul] at hshare
      omega
    obtain ⟨chunkLen, hchunk⟩ : ∃ chunkLen, chunkLen = alignChunkLen (min (divCeil shardSize
      (max 1 (divCeil jobs outputShards))) cap) := ⟨_, rfl⟩
    have hle := alignChunkLen_le (min (divCeil shardSize
      (max 1 (divCeil jobs outputShards))) cap)
    have hpos := alignChunkLen_pos (show 0 < min (divCeil shardSize
      (max 1 (divCeil jobs outputShards))) cap by omega)
    rw [← hchunk] at hle hpos ⊢
    have hchunks := divCeil_antitone shardSize (b := min chunkLen shardSize) (c := cap) (by omega)
      (by omega)
    refine .parallel ⟨by omega, by omega, by omega⟩ htwo hlimit ?_
    calc jobs ≤ useful := by omega
      _ ≤ outputShards * divCeil shardSize cap := hbound
      _ ≤ outputShards * divCeil shardSize (min chunkLen shardSize) :=
        Nat.mul_le_mul_left outputShards hchunks

theorem checkedDiv_eq (a : Nat) {b : Nat} (hb : 0 < b) : checkedDiv a b = .ok (a / b) :=
  if_neg (by omega)

theorem checkedDivCeil_eq (a : Nat) {b : Nat} (hb : 0 < b) :
    checkedDivCeil a b = .ok (divCeil a b) := if_neg (by omega)

/-- Deciding never overflows and never divides by zero. -/
theorem decideChecked_eq (hshard : shardSize < usizeLimit)
    (dataShards outputShards availableParallelism : Nat) :
    policy.decideChecked shardSize dataShards outputShards availableParallelism =
      .ok (policy.decide shardSize dataShards outputShards availableParallelism) := by
  have hcachepos := policy.cacheChunkLen_pos dataShards outputShards
  have hcache : policy.cacheChunkLenChecked dataShards outputShards =
      .ok (policy.cacheChunkLen dataShards outputShards) := by
    unfold cacheChunkLenChecked cacheChunkLen
    rw [checkedDiv_eq _ (by omega), Outcome.ok_bind]
    split_ifs <;> rfl
  simp only [decideChecked, decide, hcache, Outcome.ok_bind]
  by_cases hempty : shardSize = 0 ∨ dataShards = 0 ∨ outputShards = 0
  · rw [if_pos hempty, if_pos hempty]
  have hserial := serialCodeChunkLen_bounds (show 0 < shardSize by omega)
  have hmin : 0 < max policy.minBytesPerJob codeSliceMinChunkBytes := by
    unfold codeSliceMinChunkBytes
    omega
  rw [if_neg hempty, if_neg hempty, checkedDivCeil_eq _ (by omega), Outcome.ok_bind,
    checkedDivCeil_eq _ (by omega), Outcome.ok_bind, checkedDivCeil_eq _ (by omega),
    Outcome.ok_bind, alignChecked_eq (by omega), alignChecked_eq (by omega), Outcome.ok_bind,
    Outcome.ok_bind]
  split_ifs <;> rfl

/-- What a decision on shards of `shardLen` elements keeps to. -/
structure Respects (shardLen elementSize dataShards outputShards availableParallelism : Nat)
    (decision : ParallelDecision) : Prop where
  jobs_pos : 1 ≤ decision.jobs
  jobs_le : decision.jobs ≤ max 1 (if policy.maxJobs = 0 then availableParallelism
    else min policy.maxJobs availableParallelism)
  useParallel_iff : decision.useParallel = true ↔ 2 ≤ decision.jobs
  chunkLen_bounds : 0 < shardLen → 0 < dataShards → 0 < outputShards →
    1 ≤ decision.chunkLen ∧ decision.chunkLen ≤ shardLen
  cache_fits : policy.l2CacheBytes ≠ 0 → 0 < dataShards → 0 < outputShards →
    decision.chunkLen = 1 ∨
      decision.chunkLen * elementSize * (dataShards + outputShards) ≤ policy.l2CacheBytes

variable {policy}

theorem Decides.respects {decision : ParallelDecision} (hlimit : policy.l2CacheBytes < usizeLimit)
    (h : policy.Decides shardSize dataShards outputShards availableParallelism decision) :
    policy.Respects shardSize 1 dataShards outputShards availableParallelism decision := by
  have hcache {chunkLen : Nat}
      (hfits : policy.ChunkFits shardSize dataShards outputShards chunkLen)
      (hl2 : policy.l2CacheBytes ≠ 0) : chunkLen = 1 ∨
        chunkLen * 1 * (dataShards + outputShards) ≤ policy.l2CacheBytes := by
    have hpos := hfits.pos
    rw [Nat.mul_one]
    rcases policy.cacheChunkLen_fits hl2 hlimit hfits.le_cache with hone | hle
    · exact .inl (by omega)
    · exact .inr hle
  cases h with
  | serial hfits =>
    exact ⟨le_rfl, le_max_left _ _, by simp, fun _ _ _ => ⟨hfits.pos, hfits.le_shard⟩,
      fun hl2 _ _ => hcache hfits hl2⟩
  | parallel hfits htwo hjobs huseful =>
    exact ⟨by simp only; omega, hjobs, by simp [htwo], fun _ _ _ => ⟨hfits.pos, hfits.le_shard⟩,
      fun hl2 _ _ => hcache hfits hl2⟩

theorem respects_decide (hlimit : policy.l2CacheBytes < usizeLimit) :
    policy.Respects shardSize 1 dataShards outputShards availableParallelism
      (policy.decide shardSize dataShards outputShards availableParallelism) := by
  by_cases hempty : shardSize = 0 ∨ dataShards = 0 ∨ outputShards = 0
  · have heq : policy.decide shardSize dataShards outputShards availableParallelism =
        ⟨false, 1, shardSize⟩ := by
      unfold decide
      rw [if_pos hempty]
    rw [heq]
    refine ⟨le_rfl, le_max_left _ _, by simp, fun h1 h2 h3 => ?_, fun _ h2 h3 => .inr ?_⟩
    · omega
    · have hzero : shardSize = 0 := by omega
      simp [hzero]
  · exact (policy.decide_cases (by omega) (by omega) (by omega) availableParallelism).respects hlimit

theorem respects_decideForElements (hlimit : policy.l2CacheBytes < usizeLimit)
    (shardLen elementSize : Nat) :
    policy.Respects shardLen elementSize dataShards outputShards availableParallelism
      (policy.decideForElements shardLen elementSize dataShards outputShards
        availableParallelism) := by
  obtain ⟨size, hsize⟩ : ∃ size, size = max elementSize 1 := ⟨_, rfl⟩
  obtain ⟨decision, hdecision⟩ : ∃ decision, decision = policy.decide (saturate (shardLen * size))
    dataShards outputShards availableParallelism := ⟨_, rfl⟩
  have h : policy.Respects (saturate (shardLen * size)) 1 dataShards outputShards
      availableParallelism (policy.decide (saturate (shardLen * size)) dataShards outputShards
        availableParallelism) := respects_decide hlimit
  rw [← hdecision] at h
  unfold decideForElements
  simp only
  rw [← hsize, ← hdecision]
  refine ⟨h.jobs_pos, h.jobs_le, h.useParallel_iff, fun h1 _ _ => ?_, fun hl2 hd ho => ?_⟩
  · simp only
    rw [if_neg (by omega)]
    omega
  · simp only
    by_cases hzero : shardLen = 0
    · rw [if_pos hzero]
      exact .inr (by simp)
    · rw [if_neg hzero]
      obtain ⟨chunkLen, hchunk⟩ : ∃ chunkLen,
        chunkLen = min (max (decision.chunkLen / size) 1) shardLen := ⟨_, rfl⟩
      rw [← hchunk]
      by_cases hone : chunkLen = 1
      · exact .inl hone
      · have hle : chunkLen ≤ decision.chunkLen / size := by omega
        have hmul := (Nat.le_div_iff_mul_le (by omega : 0 < size)).mp hle
        have htwo : 2 * size ≤ chunkLen * size := Nat.mul_le_mul_right size (by omega)
        have hcache := (h.cache_fits hl2 hd ho).resolve_left (by omega)
        refine .inr (le_trans ?_ hcache)
        rw [Nat.mul_one]
        have helement : chunkLen * elementSize ≤ decision.chunkLen :=
          (Nat.mul_le_mul_left chunkLen (by omega)).trans hmul
        exact Nat.mul_le_mul_right _ helement

theorem decideForElementsChecked_eq
    (shardLen elementSize dataShards outputShards availableParallelism : Nat) :
    policy.decideForElementsChecked shardLen elementSize dataShards outputShards
        availableParallelism =
      .ok (policy.decideForElements shardLen elementSize dataShards outputShards
        availableParallelism) := by
  have hfits : saturate (shardLen * max elementSize 1) < usizeLimit := by
    unfold saturate usizeLimit
    omega
  simp only [decideForElementsChecked, decideForElements]
  rw [policy.decideChecked_eq hfits, Outcome.ok_bind]
  split_ifs
  · rfl
  · rw [checkedDiv_eq _ (by omega)]
    rfl

/-- Planning is total and respects its limits; the cache bound is that of requests with data
and outputs. -/
theorem planning_respects_limits (hlimit : policy.l2CacheBytes < usizeLimit) {shardLen : Nat}
    (hlen : shardLen < usizeLimit) (dataShards outputShards availableParallelism : Nat) :
    (policy.decideChecked shardLen dataShards outputShards availableParallelism =
        .ok (policy.decide shardLen dataShards outputShards availableParallelism) ∧
      policy.Respects shardLen 1 dataShards outputShards availableParallelism
        (policy.decide shardLen dataShards outputShards availableParallelism) ∧
      ((policy.decide shardLen dataShards outputShards availableParallelism).useParallel = true →
        (policy.decide shardLen dataShards outputShards availableParallelism).jobs ≤
          outputShards * divCeil shardLen
            (policy.decide shardLen dataShards outputShards availableParallelism).chunkLen)) ∧
    ∀ elementSize, policy.decideForElementsChecked shardLen elementSize dataShards outputShards
          availableParallelism =
        .ok (policy.decideForElements shardLen elementSize dataShards outputShards
          availableParallelism) ∧
      policy.Respects shardLen elementSize dataShards outputShards availableParallelism
        (policy.decideForElements shardLen elementSize dataShards outputShards
          availableParallelism) := by
  refine ⟨⟨policy.decideChecked_eq hlen dataShards outputShards availableParallelism,
    respects_decide hlimit, fun hparallel => ?_⟩, fun elementSize =>
      ⟨decideForElementsChecked_eq shardLen elementSize dataShards outputShards
        availableParallelism, respects_decideForElements hlimit shardLen elementSize⟩⟩
  by_cases hempty : shardLen = 0 ∨ dataShards = 0 ∨ outputShards = 0
  · unfold decide at hparallel
    rw [if_pos hempty] at hparallel
    cases hparallel
  · have hcases := policy.decide_cases (show 0 < shardLen by omega)
      (show 0 < dataShards by omega) (show 0 < outputShards by omega) availableParallelism
    cases hdecision : policy.decide shardLen dataShards outputShards availableParallelism
    rw [hdecision] at hcases hparallel
    cases hcases with
    | serial => cases hparallel
    | parallel _ _ _ huseful => exact huseful

theorem planning_respects_limits_sample :
    (⟨1, 16384, 0, 65536⟩ : ParallelPolicy).Respects 1048576 1 10 4 8
      ((⟨1, 16384, 0, 65536⟩ : ParallelPolicy).decide 1048576 10 4 8) :=
  (planning_respects_limits
    (show (⟨1, 16384, 0, 65536⟩ : ParallelPolicy).l2CacheBytes < usizeLimit by decide)
    (show 1048576 < usizeLimit by decide) 10 4 8).1.2.1

/-- Without data shards the whole shard is one chunk, whatever the cache holds. -/
theorem decide_without_data_exceeds_cache :
    (⟨1, 16384, 0, 1000⟩ : ParallelPolicy).l2CacheBytes ≠ 0 ∧
      ¬(((⟨1, 16384, 0, 1000⟩ : ParallelPolicy).decide 4096 0 4 8).chunkLen = 1 ∨
        ((⟨1, 16384, 0, 1000⟩ : ParallelPolicy).decide 4096 0 4 8).chunkLen * 1 * (0 + 4) ≤
          (⟨1, 16384, 0, 1000⟩ : ParallelPolicy).l2CacheBytes) := by
  decide

end ParallelPolicy

end ErasureCodec
