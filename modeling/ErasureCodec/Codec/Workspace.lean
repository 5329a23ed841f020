import ErasureCodec.Codec.Reconstruct

namespace ErasureCodec

open CodecField ReconstructShard

/-- An owned plan and the format it was prepared for. -/
structure ReconstructWorkspace (E : Type) where
  plan : ClassicReconstructPlan E
  format : EncodingFormat E

namespace ReedSolomon

section Layout

variable {E : Type} (codec : ReedSolomon E)

/-- Validate all lengths and tell the observer which shards are present. -/
def scanClassicReconstructShape {σ : Type} (lengths : List (Option Nat))
    (observe : σ → Nat → Bool → σ) (start : σ) : Outcome Error (ClassicShardLengths × σ) := do
  codec.validateClassicShardCount lengths.length
  lengths.zipIdx.foldlM (fun acc entry => do
    let (present, state) ← acc.1.observe entry.1
    pure (state, observe acc.2 entry.2 present)) ({}, start)

/-- The streaming merge with the missing list: the iterator left and whether the
pattern is still the same. -/
def samePatternStep (state : List Nat × Bool) (index : Nat) (present : Bool) : List Nat × Bool :=
  let (wasMissing, missing) := peekNext state.1 index
  (missing, state.2 && (present != wasMissing))

def validateClassicPlanLayout (lengths : List (Option Nat)) (expected : ClassicReconstructShape) :
    Outcome Error Unit := do
  let (state, _, samePattern) ←
    codec.scanClassicReconstructShape lengths samePatternStep (expected.invalidIndices, true)
  if samePattern = false then .err .invalidShardFlags
  else if state.shardLen ≠ expected.shardLen then .err .incorrectShardSize
  else .ok ()

end Layout

section Entry

variable {E S : Type} [CodecField E] [DecidableEq E] [CachePlatform E] [ReconstructShard E S]
  (codec : ReedSolomon E)

def prepareReconstructWorkspaceWithGoal (cache : InversionCache E) (shards : List S)
    (goal : ReconstructionGoal) : Outcome Error (ReconstructWorkspace E) × InversionCache E :=
  match (do
    checkCount shards.length codec.totalShardCount .tooFewShards .tooManyShards
    if codec.isLeopardFamily then .err .unsupportedCodecFamily
    else codec.classicReconstructShape (lengthsOf shards) :
      Outcome Error ClassicReconstructShape) with
  | .err e => (.err e, cache)
  | .panic => (.panic, cache)
  | .ok shape =>
    let (plan, cache) := codec.fillClassicReconstructPlan cache shape goal
    (plan >>= fun plan => .ok ⟨plan, codec.format⟩, cache)

def prepareReconstructWorkspace (cache : InversionCache E) (shards : List S) :
    Outcome Error (ReconstructWorkspace E) × InversionCache E :=
  codec.prepareReconstructWorkspaceWithGoal cache shards .all

def prepareReconstructDataWorkspace (cache : InversionCache E) (shards : List S) :
    Outcome Error (ReconstructWorkspace E) × InversionCache E :=
  codec.prepareReconstructWorkspaceWithGoal cache shards .data

def prepareReconstructSomeWorkspace (cache : InversionCache E) (shards : List S)
    (required : List Bool) : Outcome Error (ReconstructWorkspace E) × InversionCache E :=
  if required.length ≠ codec.dataShardCount ∧ required.length ≠ codec.totalShardCount then
    (.err .invalidShardFlags, cache)
  else codec.prepareReconstructWorkspaceWithGoal cache shards (.required required)

/-- The three preparations by their goal. -/
def prepare (cache : InversionCache E) (shards : List S) (goal : ReconstructionGoal) :
    Outcome Error (ReconstructWorkspace E) × InversionCache E :=
  match goal with
  | .all => codec.prepareReconstructWorkspace cache shards
  | .data => codec.prepareReconstructDataWorkspace cache shards
  | .required mask => codec.prepareReconstructSomeWorkspace cache shards mask

omit [CodecField E] [CachePlatform E] in
def validateReconstructWorkspace (shards : List S) (workspace : ReconstructWorkspace E) :
    Outcome Error Unit := do
  checkCount shards.length codec.totalShardCount .tooFewShards .tooManyShards
  if codec.isLeopardFamily then .err .unsupportedCodecFamily
  checkCount workspace.format.dataShards codec.dataShardCount .tooFewDataShards .tooManyDataShards
  checkCount workspace.format.parityShards codec.parityShardCount .tooFewParityShards
    .tooManyParityShards
  if codec.format ≠ workspace.format then .err .invalidCustomMatrix
  codec.validateClassicPlanLayout (lengthsOf shards) workspace.plan.shape

omit [CachePlatform E] in
/-- `reconstruct_with_workspace`: no cache is read and no plan is built. -/
def reconstructWithWorkspace (shards : List S) (workspace : ReconstructWorkspace E) :
    Outcome Error Unit × List S :=
  match codec.validateReconstructWorkspace shards workspace with
  | .ok _ => codec.executeClassicPlanSerial workspace.plan shards
  | failed => (failed, shards)

end Entry

section LayoutSpec

variable {E : Type} {codec : ReedSolomon E} {lengths : List (Option Nat)}

theorem presentIndices_eq_complement (lengths : List (Option Nat)) :
    presentIndices lengths = complement lengths.length (missingIndices lengths) := by
  refine (ascending_presentIndices lengths).eq_of_mem_iff (ascending_complement _ _) (fun i => ?_)
  rw [mem_presentIndices, mem_complement, mem_missingIndices, Option.isSome_iff_ne_none]
  constructor
  · rintro ⟨h1, h2⟩
    exact ⟨h1, fun h => h2 h.2⟩
  · rintro ⟨h1, h2⟩
    exact ⟨h1, fun h => h2 ⟨h1, h⟩⟩

/-- The merge so far agrees with the expected missing list. -/
def PatternUpTo (lengths : List (Option Nat)) (expected : List Nat) (i : Nat) : Prop :=
  ∀ j, j < i → (lengths.getD j none = none ↔ j ∈ expected)

theorem patternUpTo_succ {expected : List Nat} {i : Nat} :
    PatternUpTo lengths expected (i + 1) ↔
      PatternUpTo lengths expected i ∧ (lengths.getD i none = none ↔ i ∈ expected) := by
  constructor
  · intro h
    exact ⟨fun j hj => h j (by omega), h i (Nat.lt_succ_self i)⟩
  · rintro ⟨h, hi⟩ j hj
    rcases Nat.lt_succ_iff_lt_or_eq.mp hj with hlt | rfl
    · exact h j hlt
    · exact hi

theorem patternUpTo_length {expected : List Nat} (hasc : Ascending expected)
    (hlt : ∀ i ∈ expected, i < lengths.length) :
    PatternUpTo lengths expected lengths.length ↔ missingIndices lengths = expected := by
  constructor
  · intro h
    refine (ascending_missingIndices lengths).eq_of_mem_iff hasc (fun i => ?_)
    rw [mem_missingIndices]
    exact ⟨fun hi => (h i hi.1).mp hi.2, fun hi => ⟨hlt i hi, (h i (hlt i hi)).mpr hi⟩⟩
  · rintro rfl j hj
    rw [mem_missingIndices]
    exact ⟨fun h => ⟨hj, h⟩, fun h => h.2⟩

/-- The scan sees every length and every mismatch with the expected pattern. -/
theorem scanPattern_spec (codec : ReedSolomon E) {expected : List Nat} (hasc : Ascending expected)
    (hlen : lengths.length = codec.totalShardCount) :
    (codec.scanClassicReconstructShape lengths samePatternStep (expected, true)).Sat
      (fun r => Observed lengths r.1 ∧
        (r.2.2 = true ↔ PatternUpTo lengths expected lengths.length))
      (fun _ => ∀ len, ¬Uniform len lengths) False := by
  unfold scanClassicReconstructShape
  rw [show codec.validateClassicShardCount lengths.length = .ok () from checkCount_ok.mpr hlen]
  have hloop := Outcome.Sat.foldlM_zipIdx
    (f := fun (acc : ClassicShardLengths × List Nat × Bool) (entry : Option Nat × Nat) =>
      ((acc.1.observe entry.1) >>= fun r =>
        pure (r.2, samePatternStep acc.2 entry.2 r.1) : Outcome Error _))
    (P := fun (i : Nat) (acc : ClassicShardLengths × List Nat × Bool) =>
      Observed (lengths.take i) acc.1 ∧ acc.2.1 = expected.filter (i ≤ ·) ∧
        (acc.2.2 = true ↔ PatternUpTo lengths expected i))
    (Q := fun _ => ∀ len, ¬Uniform len lengths) (R := False) lengths 0 ({}, expected, true)
    ⟨observed_nil, by simp, by simp [PatternUpTo]⟩ (by
      rintro i length hi ⟨state, missing, same⟩ ⟨hobs, hmissing, hsame⟩
      rw [Nat.zero_add] at hobs hmissing hsame ⊢
      simp only at hobs hmissing hsame
      obtain ⟨hlt, hget⟩ := List.getElem?_eq_some_iff.mp hi
      have hsplit : lengths.take i ++ length :: lengths.drop (i + 1) = lengths := by
        rw [← hget, ← List.drop_eq_getElem_cons hlt, List.take_append_drop]
      have hstep := observe_spec hobs length (lengths.drop (i + 1))
      rw [hsplit] at hstep
      refine Outcome.Sat.bind hstep ?_
      rintro ⟨present, state'⟩ ⟨hpresent, hobs'⟩
      simp only at hpresent hobs'
      have hgetD : lengths.getD i none = length := by
        rw [List.getD_eq_getElem _ _ hlt, hget]
      refine ⟨?_, ?_, ?_⟩
      · simp only
        rwa [List.take_succ_eq_append_getElem hlt, hget]
      · simp only [samePatternStep, hmissing, hasc.peekNext_eq]
      · simp only [samePatternStep, hmissing, hasc.peekNext_eq, Bool.and_eq_true, hsame]
        rw [patternUpTo_succ, hgetD, hpresent]
        refine and_congr_right (fun _ => ?_)
        cases length <;> by_cases hm : i ∈ expected <;> simp [hm])
  rw [Nat.zero_add] at hloop
  refine hloop.mono (fun r hr => ?_) (fun _ h => h) id
  rw [List.take_length] at hr
  exact ⟨hr.1, hr.2.2⟩

/-- Layout validation accepts exactly the lengths with the planned pattern and length. -/
theorem validateClassicPlanLayout_ok {lengths' : List (Option Nat)}
    {shape : ClassicReconstructShape} (hdata : 0 < codec.dataShardCount)
    (h : codec.ShapeOf lengths shape) (hlen : lengths'.length = codec.totalShardCount) :
    codec.validateClassicPlanLayout lengths' shape = .ok () ↔
      Uniform shape.shardLen lengths' ∧ missingIndices lengths' = missingIndices lengths := by
  have hasc := ascending_missingIndices lengths
  have hlt : ∀ i ∈ missingIndices lengths, i < lengths'.length := by
    intro i hi
    have h1 := (mem_missingIndices.mp hi).1
    have h2 := h.recoverable.length_eq
    omega
  have hscan := codec.scanPattern_spec hasc hlen
  rw [patternUpTo_length hasc hlt, ← h.invalid_eq] at hscan
  unfold validateClassicPlanLayout
  cases hres : codec.scanClassicReconstructShape lengths' samePatternStep
      (shape.invalidIndices, true) with
  | panic =>
    rw [hres] at hscan
    exact hscan.elim
  | err e =>
    rw [hres] at hscan
    refine ⟨fun h => (by cases h), fun hcond => ?_⟩
    exact absurd hcond.1 (hscan _)
  | ok r =>
    rw [hres] at hscan
    obtain ⟨state, rest, same⟩ := r
    obtain ⟨hobs, hsame⟩ := hscan
    simp only [h.invalid_eq] at hobs hsame
    simp only [Outcome.ok_bind]
    -- a shard of the planned pattern is present
    have hpresent (hpat : missingIndices lengths' = missingIndices lengths) :
        ∃ l, some l ∈ lengths' := by
      apply exists_present
      have hq := h.recoverable.quorum
      rw [presentIndices_eq_complement, hpat, hlen, ← h.recoverable.length_eq,
        ← presentIndices_eq_complement]
      intro hnil
      rw [hnil, List.length_nil] at hq
      omega
    split_ifs with hpat hsize
    · refine ⟨fun h => (by cases h), fun hcond => ?_⟩
      rw [hsame.mpr hcond.2] at hpat
      cases hpat
    · refine ⟨fun h => (by cases h), fun hcond => absurd ?_ hsize⟩
      obtain ⟨l, hl⟩ := hpresent hcond.2
      rw [← (hobs.length_eq l hl).1, hcond.1.2 l hl]
    · refine ⟨fun _ => ⟨⟨h.recoverable.uniform.1, fun l hl => ?_⟩, ?_⟩, fun _ => rfl⟩
      · rw [(hobs.length_eq l hl).1, not_not.mp hsize]
      · exact hsame.mp (by simpa using hpat)

/-- A layout is one for every codec of the format and every list of the pattern. -/
theorem ShapeOf.transport {codec' : ReedSolomon E} (hformat : codec'.format = codec.format)
    {lengths' : List (Option Nat)} {shape : ClassicReconstructShape}
    (h : codec.ShapeOf lengths shape) (hlen : lengths'.length = codec'.totalShardCount)
    (huniform : Uniform shape.shardLen lengths')
    (hmissing : missingIndices lengths' = missingIndices lengths) :
    codec'.ShapeOf lengths' shape := by
  obtain ⟨format, options⟩ := codec
  obtain ⟨format', options'⟩ := codec'
  obtain rfl : format' = format := hformat
  have hpresent : presentIndices lengths' = presentIndices lengths := by
    rw [presentIndices_eq_complement, presentIndices_eq_complement, hmissing, hlen,
      h.recoverable.length_eq]
    rfl
  refine ⟨⟨hlen, huniform, ?_⟩, ?_, ?_, fun hne => ?_⟩
  · rw [hpresent]
    exact h.recoverable.quorum
  · rw [hpresent]
    exact h.numberPresent_eq
  · rw [hmissing]
    exact h.invalid_eq
  · rw [hmissing] at hne
    rw [hpresent]
    exact h.valid_eq hne

theorem validMask_of_format {codec' : ReedSolomon E} (hformat : codec'.format = codec.format)
    {goal : ReconstructionGoal} (hmask : codec.validMask goal = true) :
    codec'.validMask goal = true := by
  rw [← hmask]
  cases goal with
  | all => rfl
  | data => rfl
  | required mask => simp only [validMask, dataShardCount, totalShardCount, hformat]

end LayoutSpec

section WorkspaceSpec

variable {E S : Type} [CodecField E] [LawfulField E] [DecidableEq E] [CachePlatform E]
  [LawfulPlatform E] [ReconstructShard E S] {codec : ReedSolomon E}

omit [DecidableEq E] [CachePlatform E] [LawfulPlatform E] in
/-- A plan is one for every codec of the format and every list of the pattern. -/
theorem PlanOf.transport {codec' : ReedSolomon E} (hformat : codec'.format = codec.format)
    {lengths lengths' : List (Option Nat)} {goal : ReconstructionGoal}
    {plan : ClassicReconstructPlan E} (h : codec.PlanOf lengths goal plan)
    (hlen : lengths'.length = codec'.totalShardCount)
    (huniform : Uniform plan.shape.shardLen lengths')
    (hmissing : missingIndices lengths' = missingIndices lengths) :
    codec'.PlanOf lengths' goal plan := by
  have hshape := h.shape.transport hformat hlen huniform hmissing
  obtain ⟨format, options⟩ := codec
  obtain ⟨format', options'⟩ := codec'
  obtain rfl : format' = format := hformat
  have htargets : targets ⟨format', options'⟩ goal lengths' =
      targets ⟨format', options⟩ goal lengths := by
    unfold targets
    rw [hmissing]
    exact List.filter_congr (fun i _ => by cases goal <;> rfl)
  refine ⟨hshape, ?_, ?_, ?_, ?_, ?_⟩
  · rw [htargets]
    exact h.dataTargets_eq
  · rw [htargets]
    exact h.parityTargets_eq
  · rw [htargets, hmissing]
    intro h1 h2
    obtain ⟨inverse, hsome, hdec⟩ := h.inverse h1 h2
    exact ⟨inverse, hsome, ⟨hdec.rowCount_eq, hdec.colCount_eq, hdec.mul_eq⟩⟩
  · rw [hmissing]
    exact h.direct
  · rw [hmissing]
    exact h.indirect

/-- A prepared workspace carries the plan of its shards. -/
theorem prepare_spec (hinv : codec.ClassicInv) {cache : InversionCache E}
    (hc : codec.CacheInv cache) {shards : List S} {goal : ReconstructionGoal}
    {workspace : ReconstructWorkspace E}
    (hprep : (codec.prepare cache shards goal).1 = .ok workspace) :
    codec.validMask goal = true ∧ workspace.format = codec.format ∧
      codec.PlanOf (lengthsOf shards) goal workspace.plan := by
  have hmask : codec.validMask goal = true := by
    cases goal with
    | all => rfl
    | data => rfl
    | required mask =>
      simp only [prepare, prepareReconstructSomeWorkspace] at hprep
      split_ifs at hprep with hlen
      rw [validMask, Bool.or_eq_true, beq_iff_eq, beq_iff_eq]
      by_contra hne
      exact hlen (not_or.mp hne)
  have hgoal : (codec.prepareReconstructWorkspaceWithGoal cache shards goal).1 = .ok workspace := by
    cases goal with
    | all => exact hprep
    | data => exact hprep
    | required mask =>
      simp only [prepare, prepareReconstructSomeWorkspace] at hprep
      split_ifs at hprep with hlen
      exact hprep
  refine ⟨hmask, ?_⟩
  unfold prepareReconstructWorkspaceWithGoal at hgoal
  cases hshape : (do
    checkCount shards.length codec.totalShardCount .tooFewShards .tooManyShards
    if codec.isLeopardFamily then .err .unsupportedCodecFamily
    else codec.classicReconstructShape (lengthsOf shards) :
      Outcome Error ClassicReconstructShape) with
  | err e =>
    rw [hshape] at hgoal
    cases hgoal
  | panic =>
    rw [hshape] at hgoal
    cases hgoal
  | ok shape =>
    rw [hshape] at hgoal
    obtain ⟨-, -, hshape⟩ := Outcome.bind_eq_ok.mp hshape
    split_ifs at hshape with hleopard
    have hof : (codec.classicReconstructShape (lengthsOf shards)).Sat
        (codec.ShapeOf (lengthsOf shards)) _ _ := classicReconstructShape_spec hinv.data_pos
    rw [hshape] at hof
    obtain ⟨hfill, -⟩ := fillClassicReconstructPlan_spec hinv hc hof hmask
    obtain ⟨plan, hplan, hspace⟩ := Outcome.bind_eq_ok.mp hgoal
    rw [hplan] at hfill
    obtain rfl := Outcome.ok.inj hspace
    exact ⟨rfl, hfill.2⟩

variable {S' : Type} [ReconstructShard E S'] {codec' : ReedSolomon E}

omit [CachePlatform E] [LawfulPlatform E] in
/-- Validation accepts exactly the same format, pattern and length. -/
theorem validateReconstructWorkspace_ok (hinv' : codec'.ClassicInv) {shards : List S}
    (shards' : List S') {goal : ReconstructionGoal} {workspace : ReconstructWorkspace E}
    (hformat : workspace.format = codec.format)
    (hplan : codec.PlanOf (lengthsOf shards) goal workspace.plan) :
    codec'.validateReconstructWorkspace shards' workspace = .ok () ↔
      codec'.format = workspace.format ∧ shards'.length = codec'.totalShardCount ∧
        Uniform workspace.plan.shape.shardLen (lengthsOf shards') ∧
        missingIndices (lengthsOf shards') = missingIndices (lengthsOf shards) := by
  have hclassic : ¬codec'.isLeopardFamily = true := by
    rw [isLeopardFamily, hinv'.family_eq]
    decide
  -- once the formats agree, what is left is the layout
  have hlayout (hf : codec'.format = workspace.format)
      (hlen : shards'.length = codec'.totalShardCount) :
      codec'.validateClassicPlanLayout (lengthsOf shards') workspace.plan.shape = .ok () ↔
        Uniform workspace.plan.shape.shardLen (lengthsOf shards') ∧
          missingIndices (lengthsOf shards') = missingIndices (lengthsOf shards) := by
    have hsame := hf.trans hformat
    refine validateClassicPlanLayout_ok hinv'.data_pos
      (hplan.shape.transport hsame ?_ hplan.shape.recoverable.uniform rfl) (by simpa using hlen)
    rw [hplan.shape.recoverable.length_eq]
    simp only [totalShardCount, hsame]
  simp only [validateReconstructWorkspace, Outcome.check_bind_eq_ok, Outcome.err_bind,
    Outcome.guard_eq_ok, checkCount_ok, not_not]
  constructor
  · rintro ⟨hlen, -, -, -, hf, hvalid⟩
    exact ⟨hf, hlen, (hlayout hf hlen).mp hvalid⟩
  · rintro ⟨hf, hlen, hvalid⟩
    refine ⟨hlen, hclassic, ?_, ?_, hf, (hlayout hf hlen).mpr hvalid⟩
    · rw [← hf]
      rfl
    · rw [← hf]
      rfl

omit [DecidableEq E] [CachePlatform E] [LawfulPlatform E] in
/-- The shards that a plan fits can be planned for afresh. -/
theorem PlanOf.plannable [LawfulShard S] (hinv : codec.ClassicInv) {shards : List S}
    {goal : ReconstructionGoal} {plan : ClassicReconstructPlan E}
    (h : codec.PlanOf (lengthsOf shards) goal plan) (hmask : codec.validMask goal = true) :
    codec.Plannable goal plan.shape.shardLen shards := by
  refine ⟨h.shape.recoverable, hmask, fun ht => ?_⟩
  have hne := missing_ne_nil_of_targets ht
  have hunit := h.isUnit hinv ht hne
  rwa [h.shape.valid_eq hne] at hunit

omit [CachePlatform E] [LawfulPlatform E] in
/-- A validated call publishes the owed bytes of the plan's targets. -/
theorem PlanOf.reconstructWithWorkspace_eq [LawfulShard S] (hinv : codec.ClassicInv)
    {shards : List S} {goal : ReconstructionGoal} {workspace : ReconstructWorkspace E}
    (h : codec.PlanOf (lengthsOf shards) goal workspace.plan)
    (hvalid : codec.validateReconstructWorkspace shards workspace = .ok ()) :
    codec.reconstructWithWorkspace shards workspace = publish workspace.plan.shape.shardLen
      (codec.recoveredOutputs goal workspace.plan.shape.shardLen shards) shards := by
  simp only [reconstructWithWorkspace, hvalid]
  exact executeClassicPlanSerial_eq hinv h

/-- A workspace is reused soundly and exactly: validation accepts the same format,
length and missing set and nothing else, and then the call is the fresh one. -/
theorem workspace_reuse_exact [LawfulShard S'] (h : codec.IsClassic) (h' : codec'.IsClassic)
    {cache : InversionCache E} (hc : codec.CacheReachable cache) {cache' : InversionCache E}
    (hc' : codec'.CacheReachable cache') {shards : List S} {goal : ReconstructionGoal}
    {workspace : ReconstructWorkspace E}
    (hprep : (codec.prepare cache shards goal).1 = .ok workspace) (shards' : List S') :
    (codec'.validateReconstructWorkspace shards' workspace = .ok () ↔
      codec'.format = workspace.format ∧ shards'.length = codec'.totalShardCount ∧
        Uniform workspace.plan.shape.shardLen (lengthsOf shards') ∧
        missingIndices (lengthsOf shards') = missingIndices (lengthsOf shards)) ∧
    (codec'.validateReconstructWorkspace shards' workspace = .ok () →
      codec'.reconstructWithWorkspace shards' workspace =
        (codec'.recover cache' shards' goal).1) := by
  obtain ⟨hmask, hformat, hplan⟩ := prepare_spec h.inv (hc.inv h.inv) hprep
  have hiff := validateReconstructWorkspace_ok h'.inv shards' hformat hplan
  refine ⟨hiff, fun hvalid => ?_⟩
  obtain ⟨hf, hlen, huniform, hmissing⟩ := hiff.mp hvalid
  have hplan' := hplan.transport (hf.trans hformat) (by simpa using hlen) huniform hmissing
  have hmask' := validMask_of_format (hf.trans hformat) hmask
  rw [hplan'.reconstructWithWorkspace_eq h'.inv hvalid,
    (hplan'.plannable h'.inv hmask').recover_eq_publish h'.inv (hc'.inv h'.inv)]

/-- The missing pattern of `sampleErased` with other contents. -/
def sampleReused : List (Option (List Galois8)) := [none, some [9#8], some [4#8], none]

theorem workspace_reuse_exact_sample :
    ∃ workspace, (sampleCodec.prepare (InversionCache.new 4 4096) sampleErased .all).1 =
        .ok workspace ∧
      sampleCodec.reconstructWithWorkspace sampleReused workspace =
        (sampleCodec.recover (InversionCache.new 1 1) sampleReused .all).1 := by
  have hrun : ((sampleCodec.prepare (InversionCache.new 4 4096) sampleErased .all).1 >>=
      sampleCodec.validateReconstructWorkspace sampleReused) = .ok () := by
    decide +kernel
  obtain ⟨workspace, hprep, hvalid⟩ := Outcome.bind_eq_ok.mp hrun
  exact ⟨workspace, hprep, (workspace_reuse_exact sampleCodec_isClassic sampleCodec_isClassic
    ⟨4, 4096, [], by simp, rfl⟩ ⟨1, 1, [], by simp, rfl⟩ hprep sampleReused).2 hvalid⟩

end WorkspaceSpec

section Calls

variable {E S : Type} [CodecField E] [DecidableEq E] [CachePlatform E] [ReconstructShard E S]

/-- The recovery calls of a Classic codec. -/
inductive RecoveryCall (E : Type) where
  | reconstruct
  | reconstructData
  | reconstructSome (required : List Bool)
  | reconstructWithWorkspace (workspace : ReconstructWorkspace E)

/-- The result of a call and the shards it leaves. -/
def RecoveryCall.run (codec : ReedSolomon E) (cache : InversionCache E) (shards : List S) :
    RecoveryCall E → Outcome Error Unit × List S
  | .reconstruct => (codec.reconstruct cache shards).1
  | .reconstructData => (codec.reconstructData cache shards).1
  | .reconstructSome required => (codec.reconstructSome cache shards required).1
  | .reconstructWithWorkspace workspace => codec.reconstructWithWorkspace shards workspace

/-- The validation and planning half of a call. -/
def RecoveryCall.check (codec : ReedSolomon E) (cache : InversionCache E) (shards : List S) :
    RecoveryCall E → Outcome Error Unit
  | .reconstruct => (codec.planClassicReconstruct cache (lengthsOf shards) .all).1 >>=
      fun _ => .ok ()
  | .reconstructData => (codec.planClassicReconstruct cache (lengthsOf shards) .data).1 >>=
      fun _ => .ok ()
  | .reconstructSome required =>
    (codec.planClassicReconstruct cache (lengthsOf shards) (.required required)).1 >>=
      fun _ => .ok ()
  | .reconstructWithWorkspace workspace => codec.validateReconstructWorkspace shards workspace

/-- The goal of a call; a workspace keeps the goal it was prepared with. -/
def RecoveryCall.HasGoal (goal : ReconstructionGoal) : RecoveryCall E → Prop
  | .reconstruct => goal = .all
  | .reconstructData => goal = .data
  | .reconstructSome required => goal = .required required
  | .reconstructWithWorkspace workspace =>
    ∃ (T : Type) (_ : ReconstructShard E T) (codec : ReedSolomon E) (cache : InversionCache E)
      (shards : List T), codec.IsClassic ∧ codec.CacheReachable cache ∧
        (codec.prepare cache shards goal).1 = .ok workspace

end Calls

section Atomicity

variable {E S : Type} [CodecField E] [LawfulField E] [DecidableEq E] [CachePlatform E]
  [LawfulPlatform E] [ReconstructShard E S] [LawfulShard S] {codec : ReedSolomon E}

/-- What a refused destination leaves behind: the targets before it hold their
shards of the codeword through the survivors, everything else is as before. -/
structure PublishedUpTo (codec : ReedSolomon E) (goal : ReconstructionGoal) (shards after : List S)
    (done : List Nat) (t : Nat) (later : List Nat) : Prop where
  order : (codec.targets goal (lengthsOf shards)).filter (· < codec.dataShardCount) ++
    (codec.targets goal (lengthsOf shards)).filter (codec.dataShardCount ≤ ·) = done ++ t :: later
  nodup : (done ++ t :: later).Nodup
  refused : ∃ n s x, Uniform n (lengthsOf shards) ∧ shards[t]? = some s ∧
    buffer s = some x ∧ x.length ≠ n
  recovered : ∃ n word, Uniform n (lengthsOf shards) ∧ codec.IsCodeword n word ∧
    (∀ j ∈ codec.selected shards, word j = contentOf shards j) ∧
    ∀ i ∈ done, ∃ s, after[i]? = some s ∧ get s = some (word i)
  untouched : ∀ i, i ∉ done → after[i]? = shards[i]?

omit [CodecField E] [LawfulField E] [DecidableEq E] [CachePlatform E] [LawfulPlatform E] in
theorem Recoverable.selected_content {shards : List S} {n : Nat}
    (h : codec.Recoverable (lengthsOf shards) n) :
    Grid codec.dataShardCount n ((codec.selected shards).map (contentOf shards)) := by
  have hq := h.quorum
  refine grid_of_forall ?_ (fun row hrow => ?_)
  · rw [List.length_map, selected, List.length_take]
    omega
  · obtain ⟨i, hi, rfl⟩ := List.mem_map.mp hrow
    have hp := List.mem_of_mem_take hi
    have hlt := (mem_presentIndices.mp hp).1
    rw [length_lengthsOf] at hlt
    exact (present_content h.uniform hp (List.getElem?_eq_getElem hlt)).2

omit [DecidableEq E] [CachePlatform E] [LawfulPlatform E] in
/-- A publication that ends in an error was refused by a destination. -/
theorem Plannable.publishedUpTo (hinv : codec.ClassicInv) {goal : ReconstructionGoal} {n : Nat}
    {shards after : List S} (h : codec.Plannable goal n shards) {e : Error}
    (hpub : publish n (codec.recoveredOutputs goal n shards) shards = (.err e, after)) :
    e = .incorrectShardSize ∧
      ∃ done t later, codec.PublishedUpTo goal shards after done t later := by
  obtain ⟨done, rest, hsplit, hdone, hframe, hend⟩ := publish_recoveredOutputs codec goal n shards
  rw [hpub] at hdone hframe hend
  have hasc := codec.ascending_targets goal (lengthsOf shards)
  rcases hend with ⟨hok, -⟩ | ⟨t, later, s, rfl, hs, -, ⟨x, hbuf, hx⟩, herr⟩
  · cases hok
  have htargets : codec.targets goal (lengthsOf shards) ≠ [] := by
    rw [hsplit]
    simp
  have hunit := h.isUnit htargets
  have hgrid := h.recoverable.selected_content
  refine ⟨Outcome.err.inj herr, done, t, later, ⟨?_, ?_, ?_, ?_, hframe⟩⟩
  · rw [hasc.filter_lt_append_le, hsplit]
  · rw [← hsplit]
    exact hasc.nodup
  · exact ⟨n, s, x, h.recoverable.uniform, hs, hbuf, hx⟩
  · refine ⟨n, codec.recoveredShard shards n, h.recoverable.uniform,
      isCodeword_restoredShard hinv _ _ n, fun j hj => ?_, fun i hi => ?_⟩
    · obtain ⟨i, hi, rfl⟩ := exists_getD_of_mem hj
      have hlen := hgrid.length_eq
      rw [List.length_map] at hlen
      rw [recoveredShard, restoredShard_survivor hunit hgrid (by omega),
        getD_map_of_lt _ _ _ hi 0]
    · obtain ⟨_, s', -, -, hafter, hget⟩ := hdone i hi
      exact ⟨s', hafter, hget⟩

/-- A fresh call fails in planning or at a destination. -/
theorem recover_error (hinv : codec.ClassicInv) {cache : InversionCache E}
    (hc : codec.CacheInv cache) {shards after : List S} {goal : ReconstructionGoal} {e : Error}
    (hrun : (codec.recover cache shards goal).1 = (.err e, after)) :
    ((codec.planClassicReconstruct cache (lengthsOf shards) goal).1 >>= fun _ => .ok ()) =
        (.err e : Outcome Error Unit) ∧ after = shards ∨
      ((codec.planClassicReconstruct cache (lengthsOf shards) goal).1 >>= fun _ => .ok ()) =
        (.ok () : Outcome Error Unit) ∧ e = .incorrectShardSize ∧
        ∃ done t later, codec.PublishedUpTo goal shards after done t later := by
  rcases recover_spec hinv hc shards goal with ⟨e', hplan, hfail, -⟩ | ⟨n, p, hplan, hable, hpub⟩
  · rw [hrun] at hfail
    obtain ⟨he, rfl⟩ := Prod.mk.inj hfail
    obtain rfl := Outcome.err.inj he
    exact .inl ⟨by rw [hplan]; rfl, rfl⟩
  · exact .inr ⟨by rw [hplan]; rfl, hable.publishedUpTo hinv (hpub.symm.trans hrun)⟩

/-- Recovery errors are atomic: validation and planning change nothing, and a
refused destination ends the call between two targets. -/
theorem recovery_error_atomicity (h : codec.IsClassic) {cache : InversionCache E}
    (hc : codec.CacheReachable cache) {call : RecoveryCall E} {goal : ReconstructionGoal}
    (hgoal : call.HasGoal goal) {shards after : List S} {e : Error}
    (hrun : call.run codec cache shards = (.err e, after)) :
    call.check codec cache shards = .err e ∧ after = shards ∨
      call.check codec cache shards = .ok () ∧ e = .incorrectShardSize ∧
        ∃ done t later, codec.PublishedUpTo goal shards after done t later := by
  cases call with
  | reconstruct =>
    obtain rfl : goal = .all := hgoal
    exact recover_error h.inv (hc.inv h.inv) hrun
  | reconstructData =>
    obtain rfl : goal = .data := hgoal
    exact recover_error h.inv (hc.inv h.inv) hrun
  | reconstructSome required =>
    obtain rfl : goal = .required required := hgoal
    exact recover_error h.inv (hc.inv h.inv) hrun
  | reconstructWithWorkspace workspace =>
    obtain ⟨T, _, codec', cache', shards', h', hc', hprep⟩ := hgoal
    obtain ⟨hmask, hformat, hplan⟩ := prepare_spec h'.inv (hc'.inv h'.inv) hprep
    have hiff := validateReconstructWorkspace_ok h.inv shards hformat hplan
    simp only [RecoveryCall.run, RecoveryCall.check, reconstructWithWorkspace] at hrun ⊢
    cases hvalid : codec.validateReconstructWorkspace shards workspace with
    | err e' =>
      rw [hvalid] at hrun
      obtain ⟨he, rfl⟩ := Prod.mk.inj hrun
      exact .inl ⟨he, rfl⟩
    | panic =>
      rw [hvalid] at hrun
      cases hrun
    | ok u =>
      obtain ⟨hf, hlen, huniform, hmissing⟩ := hiff.mp hvalid
      have hplan' := hplan.transport (hf.trans hformat) (by simpa using hlen) huniform hmissing
      have hable := hplan'.plannable h.inv (validMask_of_format (hf.trans hformat) hmask)
      rw [hvalid] at hrun
      refine .inr ⟨rfl, hable.publishedUpTo h.inv ?_⟩
      rw [← executeClassicPlanSerial_eq h.inv hplan']
      exact hrun

/-- Two missing shards, the second with a buffer of the wrong length. -/
def sampleSlots : List (List Galois8 × Bool) :=
  [([0#8], false), ([2#8], true), ([7#8], true), ([0#8, 0#8], false)]

/-- The first of them is recovered before the second refuses. -/
theorem recovery_error_atomicity_sample :
    ∃ done t later, sampleCodec.PublishedUpTo .all sampleSlots
      (sampleSlots.set 0 ([5#8], true)) done t later := by
  have hrun : RecoveryCall.reconstruct.run sampleCodec (InversionCache.new 4 4096) sampleSlots =
      (.err .incorrectShardSize, sampleSlots.set 0 ([5#8], true)) := by
    decide +kernel
  have hgoal : RecoveryCall.HasGoal .all (.reconstruct : RecoveryCall Galois8) := rfl
  rcases recovery_error_atomicity sampleCodec_isClassic ⟨4, 4096, [], by simp, rfl⟩ hgoal hrun with
    ⟨-, hsame⟩ | ⟨-, -, hdone⟩
  · exact absurd hsame (by decide)
  · exact hdone

end Atomicity

end ReedSolomon

end ErasureCodec
