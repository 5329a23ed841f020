import ErasureCodec.Codec.InversionCache
import ErasureCodec.Codec.Shards

namespace ErasureCodec

open CodecField

inductive ReconstructionGoal where
  | all
  | data
  | required (mask : List Bool)
  deriving Repr, DecidableEq

/-- `matches!(goal, ReconstructionGoal::Required(_))`. -/
def ReconstructionGoal.isRequired : ReconstructionGoal → Bool
  | .required _ => true
  | _ => false

/-- The validation state carried over the present prefix and the recovery suffix. -/
structure ClassicShardLengths where
  shardLen : Nat := 0
  numberPresent : Nat := 0

namespace ClassicShardLengths

def observe (state : ClassicShardLengths) (length : Option Nat) :
    Outcome Error (Bool × ClassicShardLengths) :=
  match length with
  | none => .ok (false, state)
  | some length =>
    if length = 0 then .err .emptyShard
    else if state.shardLen ≠ 0 ∧ length ≠ state.shardLen then .err .incorrectShardSize
    else .ok (true, ⟨length, state.numberPresent + 1⟩)

/-- Stop at the first erasure: its index, the state and the lengths not read yet. -/
def scanPresentPrefix (state : ClassicShardLengths) : List (Option Nat × Nat) →
    Outcome Error (Option Nat × ClassicShardLengths × List (Option Nat × Nat))
  | [] => .ok (none, state, [])
  | (length, index) :: rest => do
    let (present, state) ← state.observe length
    if present then state.scanPresentPrefix rest else pure (some index, state, rest)

end ClassicShardLengths

structure ClassicReconstructShape where
  shardLen : Nat := 0
  numberPresent : Nat := 0
  validIndices : List Nat := []
  invalidIndices : List Nat := []

def ClassicReconstructShape.missingDataCount (shape : ClassicReconstructShape)
    (dataShards : Nat) : Nat :=
  partitionPoint (· < dataShards) shape.invalidIndices

structure ClassicReconstructPlan (E : Type) where
  shape : ClassicReconstructShape
  selectedTargets : Option (List Nat) := none
  dataTargetCount : Nat := 0
  dataOnly : Bool
  directParity : Bool := false
  decodeMatrix : Option (CodingMatrix E) := none
  parityDecodeRows : List (List E) := []

namespace ClassicReconstructPlan

variable {E : Type} (plan : ClassicReconstructPlan E)

def targetIndices : List Nat := plan.selectedTargets.getD plan.shape.invalidIndices

def dataTargets : List Nat := plan.targetIndices.take plan.dataTargetCount

def parityTargets : List Nat :=
  if plan.dataOnly then [] else plan.targetIndices.drop plan.dataTargetCount

def hasOutputs : Bool := !plan.dataTargets.isEmpty || !plan.parityTargets.isEmpty

/-- The rows of the data outputs; without an inverse the first one is a panic. -/
def dataRows : Outcome Error (List (List E)) :=
  match plan.decodeMatrix with
  | some inverse => .ok (plan.dataTargets.map inverse.getRow)
  | none => if plan.dataTargets.isEmpty then .ok [] else .panic

def parityRows (codec : ReedSolomon E) : List (List E) :=
  if plan.directParity then plan.parityDecodeRows
  else plan.parityTargets.map codec.format.matrix.getRow

end ClassicReconstructPlan

/-- The inline capacity of the index lists. -/
def inlineIndices : Nat := 32

namespace ReedSolomon

section Shape

variable {E : Type} (codec : ReedSolomon E)

def validateClassicShardCount (count : Nat) : Outcome Error Unit :=
  checkCount count codec.totalShardCount .tooFewShards .tooManyShards

/-- One length of the recovery suffix; survivors are listed while they fit inline. -/
def observeSuffix (inlineInputs : Nat) (acc : ClassicShardLengths × List Nat × List Nat)
    (entry : Option Nat × Nat) : Outcome Error (ClassicShardLengths × List Nat × List Nat) := do
  let (present, state) ← acc.1.observe entry.1
  if present then
    pure (state, if acc.2.1.length < inlineInputs then acc.2.1 ++ [entry.2] else acc.2.1, acc.2.2)
  else pure (state, acc.2.1, acc.2.2 ++ [entry.2])

/-- The survivors past the inline capacity, read off the erasure list. -/
def extendSurvivors (validIndices invalidIndices : List Nat) : List Nat :=
  let remaining := codec.dataShardCount - validIndices.length
  if remaining ≠ 0 then
    let start := (validIndices.getLast?.map (· + 1)).getD 0
    let firstErasure := partitionPoint (· < start) invalidIndices
    validIndices ++ (unlisted start (codec.totalShardCount - start)
      (invalidIndices.drop firstErasure)).take remaining
  else validIndices

def fillClassicReconstructShapeFromSuffix (lengths : List (Option Nat × Nat))
    (state : ClassicShardLengths) (firstMissing : Nat) :
    Outcome Error ClassicReconstructShape := do
  let inlineInputs := min codec.dataShardCount inlineIndices
  let (state, validIndices, invalidIndices) ← lengths.foldlM (observeSuffix inlineInputs)
    (state, List.range (min firstMissing inlineInputs), [firstMissing])
  if state.numberPresent < codec.dataShardCount then .err .tooFewShardsPresent
  else
    pure {
      shardLen := state.shardLen
      numberPresent := state.numberPresent
      validIndices := codec.extendSurvivors validIndices invalidIndices
      invalidIndices }

/-- The scan both planners start with: the validated lengths, and the erasure
layout when a shard is missing. -/
def scanClassicLengths (lengths : List (Option Nat)) :
    Outcome Error (ClassicShardLengths × Option ClassicReconstructShape) := do
  codec.validateClassicShardCount lengths.length
  let (firstMissing, state, rest) ← ClassicShardLengths.scanPresentPrefix {} lengths.zipIdx
  match firstMissing with
  | some firstMissing => do
    let shape ← codec.fillClassicReconstructShapeFromSuffix rest state firstMissing
    pure (state, some shape)
  | none => pure (state, none)

def classicReconstructShape (lengths : List (Option Nat)) :
    Outcome Error ClassicReconstructShape := do
  let (state, shape) ← codec.scanClassicLengths lengths
  pure (shape.getD { shardLen := state.shardLen, numberPresent := state.numberPresent })

end Shape

section Plan

variable {E : Type} [CodecField E] [DecidableEq E] [CachePlatform E] (codec : ReedSolomon E)

omit [CodecField E] [DecidableEq E] [CachePlatform E] in
/-- A mask covers the data shards or all shards. -/
def validMask (goal : ReconstructionGoal) : Bool :=
  match goal with
  | .required mask =>
    mask.length == codec.dataShardCount || mask.length == codec.totalShardCount
  | _ => true

omit [CodecField E] [DecidableEq E] [CachePlatform E] in
/-- The requested targets and how many of them are data; a list of its own is
made only when the mask excludes something. -/
def selectTargets (shape : ClassicReconstructShape) (goal : ReconstructionGoal) :
    Option (List Nat) × Nat :=
  let missingDataCount := shape.missingDataCount codec.dataShardCount
  match goal with
  | .all | .data => (none, missingDataCount)
  | .required mask =>
    match shape.invalidIndices.findIdx? fun index => !mask.getD index false with
    | some firstExcluded =>
      let targets := shape.invalidIndices.take firstExcluded ++
        (shape.invalidIndices.drop (firstExcluded + 1)).filter fun index => mask.getD index false
      (some targets, partitionPoint (· < codec.dataShardCount) targets)
    | none => (none, missingDataCount)

omit [CodecField E] [DecidableEq E] [CachePlatform E] in
/-- A plan with its targets and no matrix work yet. -/
def targetPlan (shape : ClassicReconstructShape) (goal : ReconstructionGoal) :
    ClassicReconstructPlan E :=
  let (selectedTargets, dataTargetCount) := codec.selectTargets shape goal
  { shape, selectedTargets, dataTargetCount, dataOnly := goal = .data }

omit [DecidableEq E] [CachePlatform E] in
/-- A requested parity row composed with the inverse: surviving data is substituted
directly, missing data through its decode row. -/
def composeParityRow (shape : ClassicReconstructShape) (missingData : List Nat)
    (inverse : CodingMatrix E) (index : Nat) : List E :=
  let parity := codec.format.matrix.getRow index
  (List.range codec.dataShardCount).map fun column =>
    let survivor := shape.validIndices.getD column 0
    let known := if survivor < codec.dataShardCount then parity.getD survivor zero else zero
    missingData.foldl (fun sum data =>
      add sum (mul (parity.getD data zero) (inverse.get data column))) known

omit [DecidableEq E] [CachePlatform E] in
/-- The last step of planning, once the inverse is there. -/
def composeParity (plan : ClassicReconstructPlan E) (goal : ReconstructionGoal)
    (missingData : List Nat) : Outcome Error (ClassicReconstructPlan E) :=
  if goal.isRequired && !missingData.isEmpty && !plan.parityTargets.isEmpty then
    match plan.decodeMatrix with
    | none => .panic
    | some inverse => .ok
        { plan with
          directParity := true
          parityDecodeRows := (plan.targetIndices.drop plan.dataTargetCount).map
            (codec.composeParityRow plan.shape missingData inverse) }
  else .ok plan

def fillClassicReconstructPlan (cache : InversionCache E) (shape : ClassicReconstructShape)
    (goal : ReconstructionGoal) : Outcome Error (ClassicReconstructPlan E) × InversionCache E :=
  if shape.numberPresent < codec.dataShardCount then (.err .tooFewShardsPresent, cache)
  else if codec.validMask goal = false then (.err .invalidShardFlags, cache)
  else
    let missingData := shape.invalidIndices.take (shape.missingDataCount codec.dataShardCount)
    let plan := codec.targetPlan shape goal
    if !missingData.isEmpty && plan.hasOutputs then
      match codec.getDataDecodeMatrix cache shape.validIndices shape.invalidIndices with
      | (.ok inverse, cache) =>
        (codec.composeParity { plan with decodeMatrix := some inverse } goal missingData, cache)
      | (.err e, cache) => (.err e, cache)
      | (.panic, cache) => (.panic, cache)
    else (codec.composeParity plan goal missingData, cache)

/-- The planning half of `with_classic_reconstruct_plan`; with every shard present
there is no plan to run. -/
def planClassicReconstruct (cache : InversionCache E) (lengths : List (Option Nat))
    (goal : ReconstructionGoal) :
    Outcome Error (Option (ClassicReconstructPlan E)) × InversionCache E :=
  if codec.validMask goal = false then (.err .invalidShardFlags, cache)
  else
    match codec.scanClassicLengths lengths with
    | .ok (_, some shape) =>
      match codec.fillClassicReconstructPlan cache shape goal with
      | (.ok plan, cache) => (.ok (some plan), cache)
      | (.err e, cache) => (.err e, cache)
      | (.panic, cache) => (.panic, cache)
    | .ok (_, none) => (.ok none, cache)
    | .err e => (.err e, cache)
    | .panic => (.panic, cache)

end Plan

end ReedSolomon

section Lengths

/-- The indices of the present shards. -/
def presentIndices (lengths : List (Option Nat)) : List Nat :=
  (List.range lengths.length).filter fun i => (lengths.getD i none).isSome

/-- The indices of the missing shards. -/
def missingIndices (lengths : List (Option Nat)) : List Nat :=
  (List.range lengths.length).filter fun i => (lengths.getD i none).isNone

/-- All present shards have the one length `len`, which is not zero. -/
def Uniform (len : Nat) (lengths : List (Option Nat)) : Prop :=
  0 < len ∧ ∀ l, some l ∈ lengths → l = len

theorem ascending_presentIndices (lengths : List (Option Nat)) :
    Ascending (presentIndices lengths) := (ascending_range _).filter _

theorem ascending_missingIndices (lengths : List (Option Nat)) :
    Ascending (missingIndices lengths) := (ascending_range _).filter _

theorem mem_presentIndices {lengths : List (Option Nat)} {i : Nat} :
    i ∈ presentIndices lengths ↔ i < lengths.length ∧ (lengths.getD i none).isSome = true := by
  simp [presentIndices]

theorem mem_missingIndices {lengths : List (Option Nat)} {i : Nat} :
    i ∈ missingIndices lengths ↔ i < lengths.length ∧ lengths.getD i none = none := by
  simp [missingIndices]

theorem getD_append_left' {α : Type*} {a b : List α} {i : Nat} (h : i < a.length) (z : α) :
    (a ++ b).getD i z = a.getD i z := by
  simp only [List.getD_eq_getElem?_getD, List.getElem?_append_left h]

theorem filter_range_append_one {α : Type*} (seen : List α) (x z : α) (p : α → Bool) :
    (List.range (seen ++ [x]).length).filter (fun i => p ((seen ++ [x]).getD i z)) =
      (List.range seen.length).filter (fun i => p (seen.getD i z)) ++
        if p x then [seen.length] else [] := by
  rw [List.length_append, List.length_singleton, List.range_succ, List.filter_append]
  congr 1
  · refine List.filter_congr (fun i hi => ?_)
    rw [getD_append_left' (List.mem_range.mp hi)]
  · have hx : (seen ++ [x]).getD seen.length z = x := by
      simp [List.getD_eq_getElem?_getD]
    rw [List.filter_cons, hx, List.filter_nil]

theorem presentIndices_append (seen : List (Option Nat)) (length : Option Nat) :
    presentIndices (seen ++ [length]) =
      presentIndices seen ++ if length.isSome then [seen.length] else [] :=
  filter_range_append_one seen length none Option.isSome

theorem missingIndices_append (seen : List (Option Nat)) (length : Option Nat) :
    missingIndices (seen ++ [length]) =
      missingIndices seen ++ if length.isNone then [seen.length] else [] :=
  filter_range_append_one seen length none Option.isNone

/-- The validation state after the lengths `seen`. -/
structure Observed (seen : List (Option Nat)) (state : ClassicShardLengths) : Prop where
  numberPresent_eq : state.numberPresent = (presentIndices seen).length
  length_eq : ∀ l, some l ∈ seen → l = state.shardLen ∧ 0 < l
  shardLen_zero : presentIndices seen = [] → state.shardLen = 0

theorem observed_nil : Observed [] {} := ⟨rfl, fun _ h => absurd h List.not_mem_nil, fun _ => rfl⟩

theorem exists_present {seen : List (Option Nat)} (h : presentIndices seen ≠ []) :
    ∃ l, some l ∈ seen := by
  obtain ⟨i, hi⟩ := List.exists_mem_of_ne_nil _ h
  obtain ⟨hlt, hsome⟩ := mem_presentIndices.mp hi
  obtain ⟨l, hl⟩ := Option.isSome_iff_exists.mp hsome
  refine ⟨l, ?_⟩
  rw [← hl, List.getD_eq_getElem _ _ hlt]
  exact List.getElem_mem hlt

/-- One observation accepts a length exactly when it stays uniform. -/
theorem observe_spec {seen : List (Option Nat)} {state : ClassicShardLengths}
    (h : Observed seen state) (length : Option Nat) (rest : List (Option Nat)) :
    (state.observe length).Sat
      (fun r => r.1 = length.isSome ∧ Observed (seen ++ [length]) r.2)
      (fun _ => ∀ len, ¬Uniform len (seen ++ length :: rest)) False := by
  cases length with
  | none =>
    refine ⟨rfl, ?_, fun l hl => ?_, fun hnil => ?_⟩
    · rw [presentIndices_append]
      simpa using h.numberPresent_eq
    · rw [List.mem_append, List.mem_singleton] at hl
      exact h.length_eq l (hl.resolve_right (by simp))
    · rw [presentIndices_append] at hnil
      exact h.shardLen_zero (by simpa using hnil)
  | some length =>
    simp only [ClassicShardLengths.observe]
    split_ifs with h0 hdiff
    · rintro len ⟨hpos, hall⟩
      have := hall length (by simp)
      omega
    · rintro len ⟨hpos, hall⟩
      have hlen := hall length (by simp)
      obtain ⟨l, hl⟩ := exists_present (fun hnil => hdiff.1 (h.shardLen_zero hnil))
      have hl' := hall l (List.mem_append_left _ hl)
      have := (h.length_eq l hl).1
      omega
    · have hsame : presentIndices seen ≠ [] → state.shardLen = length := by
        intro hne
        obtain ⟨l, hl⟩ := exists_present hne
        have := h.length_eq l hl
        by_contra hcontra
        exact hdiff ⟨by omega, fun heq => hcontra heq.symm⟩
      refine ⟨rfl, ?_, fun l hl => ?_, fun hnil => ?_⟩
      · rw [presentIndices_append]
        simp [h.numberPresent_eq]
      · rw [List.mem_append, List.mem_singleton] at hl
        rcases hl with hl | hl
        · have hl' := h.length_eq l hl
          have hne : presentIndices seen ≠ [] := by
            intro hnil
            have := h.shardLen_zero hnil
            omega
          exact ⟨hl'.1.trans (hsame hne), hl'.2⟩
        · obtain rfl := Option.some.inj hl
          exact ⟨rfl, Nat.pos_of_ne_zero h0⟩
      · rw [presentIndices_append] at hnil
        simp at hnil

/-- The prefix scan stops at the first erasure. -/
theorem scanPresentPrefix_spec (rest seen : List (Option Nat)) {state : ClassicShardLengths}
    (h : Observed seen state) :
    (state.scanPresentPrefix (rest.zipIdx seen.length)).Sat
      (fun r => (r.1 = none ∧ Observed (seen ++ rest) r.2.1 ∧ ∀ l ∈ rest, l.isSome = true) ∨
        ∃ front back, rest = front ++ none :: back ∧ (∀ l ∈ front, l.isSome = true) ∧
          r.1 = some (seen ++ front).length ∧ Observed (seen ++ front ++ [none]) r.2.1 ∧
          r.2.2 = back.zipIdx ((seen ++ front).length + 1))
      (fun _ => ∀ len, ¬Uniform len (seen ++ rest)) False := by
  induction rest generalizing seen state with
  | nil => exact .inl ⟨rfl, by simpa using h, by simp⟩
  | cons length rest ih =>
    rw [List.zipIdx_cons, ClassicShardLengths.scanPresentPrefix]
    refine Outcome.Sat.bind (observe_spec h length rest) ?_
    rintro ⟨present, state'⟩ ⟨hpresent, hobs⟩
    simp only at hpresent hobs ⊢
    subst hpresent
    cases length with
    | none =>
      refine .inr ⟨[], rest, rfl, by simp, by simp, by simpa using hobs, by simp⟩
    | some l =>
      have hnext := ih (seen ++ [some l]) hobs
      rw [List.length_append, List.length_singleton] at hnext
      simp only [Option.isSome_some, if_true]
      refine hnext.mono ?_ ?_ id
      · rintro r (⟨hr, hend, hall⟩ | ⟨front, back, hrest, hall, hr, hend, hback⟩)
        · refine .inl ⟨hr, by simpa using hend, ?_⟩
          intro l' hl'
          rcases List.mem_cons.mp hl' with rfl | hl'
          · rfl
          · exact hall l' hl'
        · refine .inr ⟨some l :: front, back, by rw [hrest]; rfl, ?_, ?_, ?_, ?_⟩
          · intro l' hl'
            rcases List.mem_cons.mp hl' with rfl | hl'
            · rfl
            · exact hall l' hl'
          · rw [hr]
            simp
          · simpa using hend
          · rw [hback]
            simp
      · intro e hne len
        have := hne len
        rwa [List.append_assoc, List.singleton_append] at this

/-- The suffix scan lists the erasures, and the survivors while they fit. -/
theorem foldlM_observeSuffix_spec (inlineInputs : Nat) (rest seen : List (Option Nat))
    (acc : ClassicShardLengths × List Nat × List Nat) (h : Observed seen acc.1)
    (hvalid : acc.2.1 = (presentIndices seen).take inlineInputs)
    (hinvalid : acc.2.2 = missingIndices seen) :
    ((rest.zipIdx seen.length).foldlM (ReedSolomon.observeSuffix inlineInputs) acc).Sat
      (fun r => Observed (seen ++ rest) r.1 ∧
        r.2.1 = (presentIndices (seen ++ rest)).take inlineInputs ∧
        r.2.2 = missingIndices (seen ++ rest))
      (fun _ => ∀ len, ¬Uniform len (seen ++ rest)) False := by
  induction rest generalizing seen acc with
  | nil => exact ⟨by simpa using h, by simpa using hvalid, by simpa using hinvalid⟩
  | cons length rest ih =>
    rw [List.zipIdx_cons, List.foldlM_cons]
    have hsplit : seen ++ length :: rest = (seen ++ [length]) ++ rest := by simp
    refine Outcome.Sat.bind (P := fun acc' => Observed (seen ++ [length]) acc'.1 ∧
      acc'.2.1 = (presentIndices (seen ++ [length])).take inlineInputs ∧
      acc'.2.2 = missingIndices (seen ++ [length])) ?_ ?_
    · refine Outcome.Sat.bind (observe_spec h length rest) ?_
      rintro ⟨present, state'⟩ ⟨hpresent, hobs⟩
      simp only at hpresent hobs ⊢
      subst hpresent
      rw [presentIndices_append, missingIndices_append]
      cases length with
      | none => exact ⟨hobs, by simpa using hvalid, by simp [hinvalid]⟩
      | some l =>
        refine ⟨hobs, ?_, by simp [hinvalid]⟩
        simp only [Option.isSome_some, if_true, hvalid, List.length_take]
        by_cases hroom : (presentIndices seen).length < inlineInputs
        · rw [if_pos (by omega), List.take_of_length_le hroom.le, List.take_of_length_le]
          rw [List.length_append, List.length_singleton]
          omega
        · rw [if_neg (by omega), List.take_append_of_le_length (by omega)]
    · rintro acc' ⟨hobs, hv, hi⟩
      have hnext := ih (seen ++ [length]) acc' hobs hv hi
      rw [List.length_append, List.length_singleton] at hnext
      rw [hsplit]
      exact hnext

end Lengths

section Offences

/-- The offence of length `i`: it is zero, or it differs from an earlier one. -/
def offence (lengths : List (Option Nat)) (i : Nat) : Option Error :=
  match lengths.getD i none with
  | none => none
  | some l =>
    if l = 0 then some .emptyShard
    else if ∃ j ∈ List.range i, ∃ l' ∈ lengths.getD j none, l' ≠ l then some .incorrectShardSize
    else none

/-- The offence of the first length that has one. -/
def firstOffence (lengths : List (Option Nat)) : Option Error :=
  (List.range lengths.length).findSome? (offence lengths)

theorem offence_append (seen rest : List (Option Nat)) {i : Nat} (hi : i < seen.length) :
    offence (seen ++ rest) i = offence seen i := by
  have hget (j : Nat) (hj : j ≤ i) : (seen ++ rest).getD j none = seen.getD j none :=
    getD_append_left' (by omega) none
  have hearlier (l : Nat) : (∃ j ∈ List.range i, ∃ l' ∈ (seen ++ rest).getD j none, l' ≠ l) ↔
      ∃ j ∈ List.range i, ∃ l' ∈ seen.getD j none, l' ≠ l := by
    constructor
    · rintro ⟨j, hj, hl⟩
      rw [hget j (List.mem_range.mp hj).le] at hl
      exact ⟨j, hj, hl⟩
    · rintro ⟨j, hj, hl⟩
      rw [← hget j (List.mem_range.mp hj).le] at hl
      exact ⟨j, hj, hl⟩
  unfold offence
  rw [hget i le_rfl]
  simp only [hearlier]

/-- Lengths that were observed have no offence. -/
theorem Observed.firstOffence_eq {seen : List (Option Nat)} {state : ClassicShardLengths}
    (h : Observed seen state) : firstOffence seen = none := by
  have hmem (i l : Nat) (hl : seen.getD i none = some l) : some l ∈ seen := by
    by_cases hi : i < seen.length
    · rw [List.getD_eq_getElem _ _ hi] at hl
      rw [← hl]
      exact List.getElem_mem hi
    · rw [List.getD_eq_default _ _ (by omega)] at hl
      cases hl
  unfold firstOffence
  rw [List.findSome?_eq_none_iff]
  intro i _
  unfold offence
  cases hl : seen.getD i none with
  | none => rfl
  | some l =>
    obtain ⟨hlen, hpos⟩ := h.length_eq l (hmem i l hl)
    simp only
    rw [if_neg (by omega), if_neg]
    rintro ⟨j, -, l', hl', hne⟩
    have := (h.length_eq l' (hmem j l' hl')).1
    omega

/-- The first offence is found where the lengths before it were observed. -/
theorem firstOffence_append {seen : List (Option Nat)} {state : ClassicShardLengths}
    (h : Observed seen state) {length : Option Nat} (rest : List (Option Nat)) {e : Error}
    (he : state.observe length = .err e) :
    firstOffence (seen ++ length :: rest) = some e := by
  have hnone := h.firstOffence_eq
  unfold firstOffence at hnone ⊢
  rw [List.findSome?_eq_none_iff] at hnone
  have hhere : offence (seen ++ length :: rest) seen.length = some e := by
    have hget : (seen ++ length :: rest).getD seen.length none = length := by
      simp [List.getD_eq_getElem?_getD]
    unfold offence
    rw [hget]
    cases length with
    | none => cases he
    | some l =>
      simp only [ClassicShardLengths.observe] at he ⊢
      split_ifs at he with h0 hdiff
      · rw [if_pos h0]
        exact congrArg some (Outcome.err.inj he)
      · -- some earlier length set the state
        obtain ⟨i, hi⟩ := List.exists_mem_of_ne_nil _ (fun hnil => hdiff.1 (h.shardLen_zero hnil))
        obtain ⟨hlt, hsome⟩ := mem_presentIndices.mp hi
        obtain ⟨l', hl'⟩ := Option.isSome_iff_exists.mp hsome
        have hmem : some l' ∈ seen := by
          rw [← hl', List.getD_eq_getElem _ _ hlt]
          exact List.getElem_mem hlt
        have hlen := (h.length_eq l' hmem).1
        rw [if_neg h0, if_pos]
        · exact congrArg some (Outcome.err.inj he)
        · refine ⟨i, List.mem_range.mpr hlt, l', ?_, by omega⟩
          rw [getD_append_left' hlt, hl']
          rfl
  have hlength : (seen ++ length :: rest).length = seen.length + (rest.length + 1) := by simp
  rw [hlength, List.range_add, List.findSome?_append, List.range_succ_eq_map, List.map_cons,
    List.findSome?_cons, Nat.add_zero, hhere, Option.or_eq_some_iff]
  refine .inr ⟨?_, rfl⟩
  rw [List.findSome?_eq_none_iff]
  intro i hi
  rw [offence_append _ _ (List.mem_range.mp hi)]
  exact hnone i hi

theorem scanPresentPrefix_error (rest seen : List (Option Nat)) {state : ClassicShardLengths}
    (h : Observed seen state) {e : Error}
    (he : state.scanPresentPrefix (rest.zipIdx seen.length) = .err e) :
    firstOffence (seen ++ rest) = some e := by
  induction rest generalizing seen state with
  | nil => cases he
  | cons length rest ih =>
    have hspec := observe_spec h length rest
    rw [List.zipIdx_cons, ClassicShardLengths.scanPresentPrefix] at he
    cases hobs : state.observe length with
    | panic =>
      rw [hobs] at hspec
      exact hspec.elim
    | err e' =>
      rw [hobs, Outcome.err_bind] at he
      rw [← Outcome.err.inj he]
      exact firstOffence_append h rest hobs
    | ok r =>
      rw [hobs] at hspec he
      obtain ⟨present, next⟩ := r
      obtain ⟨-, hnext⟩ := hspec
      simp only [Outcome.ok_bind] at he
      cases present with
      | true =>
        have hrest := ih (seen ++ [length]) hnext (by simpa using he)
        simpa using hrest
      | false => cases he

theorem foldlM_observeSuffix_error (inlineInputs : Nat) (rest seen : List (Option Nat))
    (acc : ClassicShardLengths × List Nat × List Nat) (h : Observed seen acc.1) {e : Error}
    (he : (rest.zipIdx seen.length).foldlM (ReedSolomon.observeSuffix inlineInputs) acc = .err e) :
    firstOffence (seen ++ rest) = some e := by
  induction rest generalizing seen acc with
  | nil => cases he
  | cons length rest ih =>
    have hspec := observe_spec h length rest
    rw [List.zipIdx_cons, List.foldlM_cons, ReedSolomon.observeSuffix] at he
    cases hobs : acc.1.observe length with
    | panic =>
      rw [hobs] at hspec
      exact hspec.elim
    | err e' =>
      rw [hobs, Outcome.err_bind, Outcome.err_bind] at he
      rw [← Outcome.err.inj he]
      exact firstOffence_append h rest hobs
    | ok r =>
      rw [hobs] at hspec he
      obtain ⟨present, next⟩ := r
      obtain ⟨-, hnext⟩ := hspec
      simp only [Outcome.ok_bind] at he
      have hrest (valid invalid : List Nat)
          (he : (rest.zipIdx (seen.length + 1)).foldlM (ReedSolomon.observeSuffix inlineInputs)
            (next, valid, invalid) = .err e) : firstOffence (seen ++ length :: rest) = some e := by
        have := ih (seen ++ [length]) (next, valid, invalid) hnext (by simpa using he)
        simpa using this
      cases present with
      | true => exact hrest _ _ he
      | false => exact hrest _ _ he

end Offences

namespace ReedSolomon

section ShapeSpec

variable {E : Type} {codec : ReedSolomon E} {lengths : List (Option Nat)}

/-- Lengths that recovery can be planned for. -/
structure Recoverable (codec : ReedSolomon E) (lengths : List (Option Nat)) (len : Nat) : Prop where
  length_eq : lengths.length = codec.totalShardCount
  uniform : Uniform len lengths
  quorum : codec.dataShardCount ≤ (presentIndices lengths).length

/-- The layout that planning starts from: the first present shards are selected. -/
structure ShapeOf (codec : ReedSolomon E) (lengths : List (Option Nat))
    (shape : ClassicReconstructShape) : Prop where
  recoverable : codec.Recoverable lengths shape.shardLen
  numberPresent_eq : shape.numberPresent = (presentIndices lengths).length
  invalid_eq : shape.invalidIndices = missingIndices lengths
  valid_eq : missingIndices lengths ≠ [] →
    shape.validIndices = (presentIndices lengths).take codec.dataShardCount

/-- Both the inline and the spilled path select the first present shards. -/
theorem extendSurvivors_eq (hlen : lengths.length = codec.totalShardCount)
    (hq : codec.dataShardCount ≤ (presentIndices lengths).length) {n : Nat}
    (hn : n ≤ codec.dataShardCount) :
    codec.extendSurvivors ((presentIndices lengths).take n) (missingIndices lengths) =
      (presentIndices lengths).take codec.dataShardCount := by
  have hlength : ((presentIndices lengths).take n).length = n := by
    rw [List.length_take]
    omega
  simp only [extendSurvivors, hlength]
  split_ifs with hrem
  swap
  · rw [show n = codec.dataShardCount by omega]
  have hrest (start : Nat) (hfilter : (presentIndices lengths).filter (start ≤ ·) =
      (presentIndices lengths).drop n) (hstart : start ≤ codec.totalShardCount) :
      (presentIndices lengths).take n ++ (unlisted start (codec.totalShardCount - start)
        ((missingIndices lengths).drop
          (partitionPoint (· < start) (missingIndices lengths)))).take
          (codec.dataShardCount - n) = (presentIndices lengths).take codec.dataShardCount := by
    rw [(ascending_missingIndices lengths).drop_partitionPoint,
      (ascending_missingIndices lengths).unlisted_eq]
    have hsurv : (List.range' start (codec.totalShardCount - start)).filter
        (fun i => i ∉ missingIndices lengths) = (presentIndices lengths).drop n := by
      rw [← hfilter]
      refine ((ascending_range' _ _).filter _).eq_of_mem_iff
        ((ascending_presentIndices lengths).filter _) (fun i => ?_)
      simp only [List.mem_filter, List.mem_range'_1, mem_missingIndices, mem_presentIndices,
        decide_eq_true_eq, not_and, hlen]
      rw [Option.isSome_iff_ne_none]
      constructor
      · rintro ⟨⟨h1, h2⟩, h3⟩
        exact ⟨⟨by omega, h3 (by omega)⟩, h1⟩
      · rintro ⟨⟨h1, h2⟩, h3⟩
        exact ⟨⟨h3, by omega⟩, fun _ => h2⟩
    rw [hsurv, ← List.take_add, Nat.add_sub_of_le hn]
  cases hlast : ((presentIndices lengths).take n).getLast? with
  | none =>
    have hn0 : n = 0 := by
      rw [List.getLast?_eq_none_iff.mp hlast] at hlength
      exact hlength.symm
    refine hrest 0 ?_ (Nat.zero_le _)
    rw [hn0, List.drop_zero, List.filter_eq_self]
    intro i _
    exact decide_eq_true (Nat.zero_le i)
  | some last =>
    refine hrest (last + 1) ((ascending_presentIndices lengths).filter_after_take hlast) ?_
    have hmem := List.mem_of_mem_take (List.mem_of_getLast? hlast)
    have := (mem_presentIndices.mp hmem).1
    omega

theorem presentIndices_all {seen : List (Option Nat)} (h : ∀ l ∈ seen, l.isSome = true) :
    presentIndices seen = List.range seen.length ∧ missingIndices seen = [] := by
  have hget (i : Nat) (hi : i < seen.length) : (seen.getD i none).isSome = true := by
    rw [List.getD_eq_getElem _ _ hi]
    exact h _ (List.getElem_mem hi)
  refine ⟨List.filter_eq_self.mpr (fun i hi => hget i (List.mem_range.mp hi)),
    List.filter_eq_nil_iff.mpr (fun i hi => ?_)⟩
  have := hget i (List.mem_range.mp hi)
  rw [Option.isSome_iff_ne_none] at this
  simpa using this

/-- The suffix scan fills in the layout, or the lengths cannot be recovered from. -/
theorem fillShape_spec (hdata : 0 < codec.dataShardCount) {front back : List (Option Nat)}
    (hlengths : lengths = front ++ none :: back) (hlen : lengths.length = codec.totalShardCount)
    (hfront : ∀ l ∈ front, l.isSome = true) {state : ClassicShardLengths}
    (hobs : Observed (front ++ [none]) state) :
    (codec.fillClassicReconstructShapeFromSuffix (back.zipIdx (front.length + 1)) state
      front.length).Sat (codec.ShapeOf lengths)
      (fun _ => ∀ len, ¬codec.Recoverable lengths len) False := by
  have hsplit : front ++ [none] ++ back = lengths := by rw [hlengths]; simp
  obtain ⟨hpres, hmiss⟩ := presentIndices_all hfront
  have hloop := foldlM_observeSuffix_spec (min codec.dataShardCount inlineIndices) back
    (front ++ [none])
    (state, List.range (min front.length (min codec.dataShardCount inlineIndices)), [front.length])
    hobs
    (by rw [presentIndices_append, hpres]; simp [List.take_range, Nat.min_comm])
    (by rw [missingIndices_append, hmiss]; simp)
  rw [List.length_append, List.length_singleton, hsplit] at hloop
  unfold fillClassicReconstructShapeFromSuffix
  refine Outcome.Sat.bind (hloop.mono (fun _ h => h)
    (fun e hne len hrec => hne len hrec.uniform) id) ?_
  rintro ⟨state', valid, invalid⟩ ⟨hend, hvalid, hinvalid⟩
  simp only at hend hvalid hinvalid ⊢
  split_ifs with hfew
  · intro len hrec
    have := hrec.quorum
    rw [hend.numberPresent_eq] at hfew
    omega
  · have hq : codec.dataShardCount ≤ (presentIndices lengths).length := by
      rw [hend.numberPresent_eq] at hfew
      omega
    have hne : presentIndices lengths ≠ [] := by
      intro hnil
      rw [hnil] at hq
      exact absurd hq (by simp; omega)
    obtain ⟨l, hl⟩ := exists_present hne
    refine ⟨⟨hlen, ⟨?_, fun l hl => (hend.length_eq l hl).1⟩, hq⟩, hend.numberPresent_eq, hinvalid,
      fun _ => ?_⟩
    · have := hend.length_eq l hl
      simp only
      omega
    · simp only
      rw [hvalid, hinvalid]
      exact extendSurvivors_eq hlen hq (min_le_left _ _)

/-- The scan accepts exactly the lengths that recovery can be planned for. -/
theorem scanClassicLengths_spec (lengths : List (Option Nat)) (hdata : 0 < codec.dataShardCount) :
    (codec.scanClassicLengths lengths).Sat
      (fun r => (∃ shape, r.2 = some shape ∧ missingIndices lengths ≠ [] ∧
          codec.ShapeOf lengths shape) ∨
        r.2 = none ∧ missingIndices lengths = [] ∧
          codec.ShapeOf lengths
            { shardLen := r.1.shardLen, numberPresent := r.1.numberPresent })
      (fun _ => ∀ len, ¬codec.Recoverable lengths len) False := by
  unfold scanClassicLengths
  refine Outcome.Sat.bind (P := fun _ => lengths.length = codec.totalShardCount) ?_ ?_
  · unfold validateClassicShardCount checkCount
    split_ifs with h1 h2
    · intro len hrec
      have := hrec.length_eq
      omega
    · intro len hrec
      have := hrec.length_eq
      omega
    · change lengths.length = codec.totalShardCount
      omega
  intro _ hlen
  have hscan := scanPresentPrefix_spec lengths [] observed_nil
  simp only [List.nil_append, List.length_nil] at hscan
  refine Outcome.Sat.bind (hscan.mono (fun _ h => h)
    (fun e hne len hrec => hne len hrec.uniform) id) ?_
  rintro ⟨firstMissing, state, rest⟩
    (⟨hnone, hobs, hall⟩ | ⟨front, back, hlengths, hfront, hsome, hobs, hrest⟩)
  · simp only at hnone hobs
    subst hnone
    obtain ⟨hpres, hmiss⟩ := presentIndices_all hall
    have htotal := codec.totalShardCount_eq
    have hq : codec.dataShardCount ≤ (presentIndices lengths).length := by
      rw [hpres, List.length_range]
      omega
    have hne : presentIndices lengths ≠ [] := by
      intro hnil
      rw [hnil] at hq
      exact absurd hq (by simp; omega)
    obtain ⟨l, hl⟩ := exists_present hne
    have hl' := hobs.length_eq l hl
    exact .inr ⟨rfl, hmiss, ⟨hlen, ⟨by simp only; omega, fun l hl => (hobs.length_eq l hl).1⟩, hq⟩,
      hobs.numberPresent_eq, hmiss.symm, fun h => absurd hmiss h⟩
  · simp only at hsome hobs hrest
    subst hsome hrest
    have hmem : front.length ∈ missingIndices lengths := by
      rw [mem_missingIndices, hlengths]
      refine ⟨by simp, ?_⟩
      simp [List.getD_eq_getElem?_getD]
    refine Outcome.Sat.bind (fillShape_spec hdata hlengths hlen hfront hobs) ?_
    intro shape hshape
    exact .inl ⟨shape, rfl, List.ne_nil_of_mem hmem, hshape⟩

theorem classicReconstructShape_spec (hdata : 0 < codec.dataShardCount) :
    (codec.classicReconstructShape lengths).Sat (codec.ShapeOf lengths)
      (fun _ => ∀ len, ¬codec.Recoverable lengths len) False := by
  unfold classicReconstructShape
  refine Outcome.Sat.bind (scanClassicLengths_spec lengths hdata) ?_
  rintro ⟨state, shape⟩ (⟨shape', hsome, -, hshape⟩ | ⟨hnone, -, hshape⟩)
  · simp only at hsome
    subst hsome
    exact hshape
  · simp only at hnone
    subst hnone
    exact hshape

/-- An error is the first offence, or the quorum is missed. -/
theorem scanClassicLengths_error (hlen : lengths.length = codec.totalShardCount) {e : Error}
    (he : codec.scanClassicLengths lengths = .err e) :
    firstOffence lengths = some e ∨ firstOffence lengths = none ∧ e = .tooFewShardsPresent := by
  have hcount : codec.validateClassicShardCount lengths.length = .ok () := checkCount_ok.mpr hlen
  unfold scanClassicLengths at he
  rw [hcount, Outcome.ok_bind] at he
  have hscan := scanPresentPrefix_spec lengths [] observed_nil
  have herror (e : Error) := scanPresentPrefix_error lengths [] observed_nil (e := e)
  simp only [List.nil_append, List.length_nil] at hscan herror
  cases hscanned : ClassicShardLengths.scanPresentPrefix {} lengths.zipIdx with
  | panic =>
    rw [hscanned] at hscan
    exact hscan.elim
  | err e' =>
    rw [hscanned, Outcome.err_bind] at he
    rw [← Outcome.err.inj he]
    exact .inl (herror e' hscanned)
  | ok r =>
    rw [hscanned] at hscan he
    obtain ⟨found, state, rest⟩ := r
    rcases hscan with ⟨hnone, -, -⟩ | ⟨front, back, hlengths, hfront, hsome, hobs, hrest⟩
    · simp only at hnone
      subst hnone
      cases he
    · simp only at hsome hobs hrest
      subst hsome hrest
      simp only [Outcome.ok_bind, fillClassicReconstructShapeFromSuffix] at he
      have hsplit : front ++ [none] ++ back = lengths := by rw [hlengths]; simp
      obtain ⟨hpres, hmiss⟩ := presentIndices_all hfront
      obtain ⟨acc, hacc⟩ : ∃ acc : ClassicShardLengths × List Nat × List Nat, acc = (state,
        List.range (min front.length (min codec.dataShardCount inlineIndices)),
        [front.length]) := ⟨_, rfl⟩
      have hobs' : Observed (front ++ [none]) acc.1 := by
        rw [hacc]
        exact hobs
      have hloop := foldlM_observeSuffix_spec (min codec.dataShardCount inlineIndices) back
        (front ++ [none]) acc hobs'
        (by rw [hacc, presentIndices_append, hpres]; simp [List.take_range, Nat.min_comm])
        (by rw [hacc, missingIndices_append, hmiss]; simp)
      have hsuffix (e : Error) := foldlM_observeSuffix_error
        (min codec.dataShardCount inlineIndices) back (front ++ [none]) acc hobs' (e := e)
      rw [← hacc] at he
      simp only [List.length_append, List.length_singleton, hsplit] at hloop hsuffix
      cases hfold : (back.zipIdx (front.length + 1)).foldlM
        (observeSuffix (min codec.dataShardCount inlineIndices)) acc with
      | panic =>
        rw [hfold] at hloop
        exact hloop.elim
      | err e' =>
        rw [hfold, Outcome.err_bind, Outcome.err_bind] at he
        rw [← Outcome.err.inj he]
        exact .inl (hsuffix e' hfold)
      | ok r =>
        rw [hfold] at hloop he
        obtain ⟨state', valid, invalid⟩ := r
        simp only [Outcome.ok_bind] at he
        split_ifs at he
        · exact .inr ⟨hloop.1.firstOffence_eq, (Outcome.err.inj he).symm⟩
        · cases he

/-- Survivor selection: a layout is planned exactly where the present lengths agree, are not
zero and reach the quorum, it lists the first present shards and all missing ones, and what
else is reported is the first offence. -/
theorem classicReconstructShape_exact {E : Type} [CodecField E] [LawfulField E] [DecidableEq E]
    {codec : ReedSolomon E} (hclassic : codec.IsClassic) {lengths : List (Option Nat)}
    (hlen : lengths.length = codec.totalShardCount) (hmissing : none ∈ lengths) :
    ((∃ shape, codec.classicReconstructShape lengths = .ok shape) ↔
      (∃ len, Uniform len lengths) ∧
        codec.dataShardCount ≤ (presentIndices lengths).length) ∧
    (∀ shape, codec.classicReconstructShape lengths = .ok shape →
      shape.validIndices = (presentIndices lengths).take codec.dataShardCount ∧
        shape.invalidIndices = missingIndices lengths) ∧
    ((¬∃ shape, codec.classicReconstructShape lengths = .ok shape) →
      codec.classicReconstructShape lengths =
        .err ((firstOffence lengths).getD .tooFewShardsPresent)) := by
  have hspec : (codec.classicReconstructShape lengths).Sat (codec.ShapeOf lengths)
      (fun _ => ∀ len, ¬codec.Recoverable lengths len) False :=
    classicReconstructShape_spec hclassic.inv.data_pos
  have hne : missingIndices lengths ≠ [] := by
    obtain ⟨i, hi, hget⟩ := List.getElem_of_mem hmissing
    refine List.ne_nil_of_mem (mem_missingIndices.mpr ⟨hi, ?_⟩)
    rw [List.getD_eq_getElem _ _ hi, hget]
  refine ⟨⟨fun hok => ?_, fun hrec => ?_⟩, fun shape hok => ?_, fun herr => ?_⟩
  · obtain ⟨shape, hok⟩ := hok
    rw [hok] at hspec
    exact ⟨⟨_, hspec.recoverable.uniform⟩, hspec.recoverable.quorum⟩
  · obtain ⟨⟨len, huniform⟩, hquorum⟩ := hrec
    cases hresult : codec.classicReconstructShape lengths with
    | ok shape => exact ⟨shape, rfl⟩
    | err e =>
      rw [hresult] at hspec
      exact absurd ⟨hlen, huniform, hquorum⟩ (hspec len)
    | panic =>
      rw [hresult] at hspec
      exact hspec.elim
  · rw [hok] at hspec
    exact ⟨hspec.valid_eq hne, hspec.invalid_eq⟩
  · cases hresult : codec.classicReconstructShape lengths with
    | ok shape => exact absurd ⟨shape, hresult⟩ herr
    | panic =>
      rw [hresult] at hspec
      exact hspec.elim
    | err e =>
      have hscan : codec.scanClassicLengths lengths = .err e := by
        unfold classicReconstructShape at hresult
        cases h : codec.scanClassicLengths lengths with
        | ok r =>
          rw [h] at hresult
          cases hresult
        | err e' =>
          rw [h, Outcome.err_bind] at hresult
          rw [Outcome.err.inj hresult]
        | panic =>
          rw [h] at hresult
          cases hresult
      rcases scanClassicLengths_error hlen hscan with hfirst | ⟨hnone, rfl⟩
      · rw [hfirst, Option.getD_some]
      · rw [hnone, Option.getD_none]

theorem classicReconstructShape_exact_sample :
    (∀ shape, sampleCodec.classicReconstructShape [some 4, none, some 4, some 4] = .ok shape →
      shape.validIndices = [0, 2] ∧ shape.invalidIndices = [1]) ∧
    sampleCodec.classicReconstructShape [some 4, none, some 3, some 0] =
      .err .incorrectShardSize := by
  constructor
  · have hmissing : none ∈ [some 4, none, some 4, some 4] := by simp
    exact (classicReconstructShape_exact sampleCodec_isClassic (show
      [some 4, none, some 4, some 4].length = sampleCodec.totalShardCount from rfl) hmissing).2.1
  · have hmissing : none ∈ [some 4, none, some 3, some 0] := by simp
    exact (classicReconstructShape_exact sampleCodec_isClassic (show
      [some 4, none, some 3, some 0].length = sampleCodec.totalShardCount from rfl) hmissing).2.2
      (by rintro ⟨shape, hok⟩; cases hok)

/-- Whether a goal asks for a missing shard. -/
def wants (codec : ReedSolomon E) : ReconstructionGoal → Nat → Bool
  | .all, _ => true
  | .data, index => index < codec.dataShardCount
  | .required mask, index => mask.getD index false

/-- The missing shards a goal asks for. -/
def targets (codec : ReedSolomon E) (goal : ReconstructionGoal) (lengths : List (Option Nat)) :
    List Nat :=
  (missingIndices lengths).filter (codec.wants goal)

theorem ascending_targets (codec : ReedSolomon E) (goal : ReconstructionGoal)
    (lengths : List (Option Nat)) : Ascending (codec.targets goal lengths) :=
  (ascending_missingIndices lengths).filter _

theorem ShapeOf.missingData_eq {shape : ClassicReconstructShape} (h : codec.ShapeOf lengths shape) :
    shape.invalidIndices.take (shape.missingDataCount codec.dataShardCount) =
      (missingIndices lengths).filter (· < codec.dataShardCount) := by
  rw [ClassicReconstructShape.missingDataCount, h.invalid_eq,
    (ascending_missingIndices lengths).take_partitionPoint]

/-- A mask keeps the requested erasures, whether it needs a list of its own or not. -/
theorem selectTargets_required (codec : ReedSolomon E) (shape : ClassicReconstructShape)
    (mask : List Bool) :
    (codec.selectTargets shape (.required mask)).1.getD shape.invalidIndices =
        shape.invalidIndices.filter (fun i => mask.getD i false) ∧
      (codec.selectTargets shape (.required mask)).2 = partitionPoint (· < codec.dataShardCount)
        (shape.invalidIndices.filter fun i => mask.getD i false) := by
  simp only [selectTargets]
  cases hfind : shape.invalidIndices.findIdx? (fun index => !mask.getD index false) with
  | none =>
    have hall : shape.invalidIndices.filter (fun i => mask.getD i false) = shape.invalidIndices := by
      rw [List.filter_eq_self]
      intro i hi
      simpa using List.findIdx?_eq_none_iff.mp hfind i hi
    simp only [Option.getD_none, hall, ClassicReconstructShape.missingDataCount, and_self]
  | some n =>
    obtain ⟨hn, hex, hbefore⟩ := List.findIdx?_eq_some_iff_getElem.mp hfind
    have hsplit : shape.invalidIndices.filter (fun i => mask.getD i false) =
        shape.invalidIndices.take n ++
          (shape.invalidIndices.drop (n + 1)).filter fun i => mask.getD i false := by
      conv_lhs => rw [← List.take_append_drop n shape.invalidIndices,
        List.drop_eq_getElem_cons hn]
      rw [List.filter_append, List.filter_cons, if_neg (by simpa using hex)]
      congr 1
      rw [List.filter_eq_self]
      intro i hi
      obtain ⟨j, hj, rfl⟩ := List.mem_iff_getElem.mp hi
      rw [List.length_take] at hj
      rw [List.getElem_take]
      simpa using hbefore j (by omega)
    simp only [Option.getD_some, hsplit, and_self]

/-- The targets of a plan before any matrix work. -/
theorem targetPlan_targets {shape : ClassicReconstructShape} (h : codec.ShapeOf lengths shape)
    (goal : ReconstructionGoal) :
    (codec.targetPlan shape goal).dataTargets =
        (codec.targets goal lengths).filter (· < codec.dataShardCount) ∧
      (codec.targetPlan shape goal).parityTargets =
        (codec.targets goal lengths).filter (codec.dataShardCount ≤ ·) := by
  set plan := codec.targetPlan shape goal with hplan
  have hshape : plan.shape = shape := rfl
  have hsel : (plan.selectedTargets, plan.dataTargetCount) = codec.selectTargets shape goal := rfl
  have honly : plan.dataOnly = decide (goal = .data) := rfl
  have hasc := ascending_missingIndices lengths
  have hwhole (hs : plan.selectedTargets = none)
      (hc : plan.dataTargetCount = partitionPoint (· < codec.dataShardCount) shape.invalidIndices) :
      plan.targetIndices.take plan.dataTargetCount =
          (missingIndices lengths).filter (· < codec.dataShardCount) ∧
        plan.targetIndices.drop plan.dataTargetCount =
          (missingIndices lengths).filter (codec.dataShardCount ≤ ·) := by
    rw [ClassicReconstructPlan.targetIndices, hs, hc, hshape, Option.getD_none, h.invalid_eq]
    exact ⟨hasc.take_partitionPoint _, hasc.drop_partitionPoint _⟩
  cases goal with
  | all =>
    obtain ⟨h1, h2⟩ := Prod.mk.inj hsel
    obtain ⟨htake, hdrop⟩ := hwhole h1 h2
    have hall : codec.targets .all lengths = missingIndices lengths :=
      List.filter_eq_self.mpr (fun _ _ => rfl)
    rw [hall, ClassicReconstructPlan.dataTargets, ClassicReconstructPlan.parityTargets, honly]
    exact ⟨htake, hdrop⟩
  | data =>
    obtain ⟨h1, h2⟩ := Prod.mk.inj hsel
    obtain ⟨htake, -⟩ := hwhole h1 h2
    rw [ClassicReconstructPlan.dataTargets, ClassicReconstructPlan.parityTargets, honly, htake]
    refine ⟨?_, ?_⟩
    · simp [targets, wants, List.filter_filter]
    · symm
      simp only [targets, decide_true, if_true, List.filter_filter, List.filter_eq_nil_iff, wants]
      intro i _
      simp
  | required mask =>
    obtain ⟨h1, h2⟩ := selectTargets_required codec shape mask
    rw [← hsel] at h1 h2
    simp only at h1 h2
    have htarget : plan.targetIndices = codec.targets (.required mask) lengths := by
      rw [ClassicReconstructPlan.targetIndices, hshape, h1, h.invalid_eq]
      rfl
    have hasc' := codec.ascending_targets (.required mask) lengths
    have hcount : plan.dataTargetCount = partitionPoint (· < codec.dataShardCount)
        (codec.targets (.required mask) lengths) := by
      rw [h2, h.invalid_eq]
      rfl
    rw [ClassicReconstructPlan.dataTargets, ClassicReconstructPlan.parityTargets, honly, htarget,
      hcount]
    exact ⟨hasc'.take_partitionPoint _, hasc'.drop_partitionPoint _⟩

theorem targetPlan_hasOutputs {shape : ClassicReconstructShape} (h : codec.ShapeOf lengths shape)
    (goal : ReconstructionGoal) :
    (codec.targetPlan shape goal).hasOutputs = true ↔ codec.targets goal lengths ≠ [] := by
  obtain ⟨hdata, hparity⟩ := targetPlan_targets h goal
  rw [ClassicReconstructPlan.hasOutputs, hdata, hparity]
  constructor
  · rintro hout hnil
    rw [hnil] at hout
    cases hout
  · intro hne
    obtain ⟨i, hi⟩ := List.exists_mem_of_ne_nil _ hne
    rw [Bool.or_eq_true]
    rcases Nat.lt_or_ge i codec.dataShardCount with hlt | hge
    · refine .inl ?_
      have hmem : i ∈ (codec.targets goal lengths).filter (· < codec.dataShardCount) :=
        List.mem_filter.mpr ⟨hi, decide_eq_true hlt⟩
      simpa using List.ne_nil_of_mem hmem
    · refine .inr ?_
      have hmem : i ∈ (codec.targets goal lengths).filter (codec.dataShardCount ≤ ·) :=
        List.mem_filter.mpr ⟨hi, decide_eq_true hge⟩
      simpa using List.ne_nil_of_mem hmem

/-- A layout asks for its inverse with all erasures below the last survivor. -/
theorem ShapeOf.decodeRequest {shape : ClassicReconstructShape} (h : codec.ShapeOf lengths shape)
    (hne : missingIndices lengths ≠ []) :
    codec.DecodeRequest shape.validIndices shape.invalidIndices := by
  have hasc := ascending_presentIndices lengths
  have hlen := h.recoverable.length_eq
  rw [h.valid_eq hne, h.invalid_eq]
  refine ⟨⟨hasc.take _, ?_, fun i hi => ?_⟩, ascending_missingIndices lengths, fun i hi hv => ?_,
    fun j hj i hij hnot => ?_⟩
  · rw [List.length_take]
    have := h.recoverable.quorum
    omega
  · have := (mem_presentIndices.mp (List.mem_of_mem_take hi)).1
    omega
  · have h1 := (mem_missingIndices.mp hi).2
    have h2 := (mem_presentIndices.mp (List.mem_of_mem_take hv)).2
    rw [h1] at h2
    cases h2
  · have hj' := (mem_presentIndices.mp (List.mem_of_mem_take hj)).1
    rw [mem_missingIndices]
    refine ⟨by omega, ?_⟩
    by_contra hsome
    exact hnot (hasc.mem_take_of_lt hj (mem_presentIndices.mpr
      ⟨by omega, Option.isSome_iff_ne_none.mpr hsome⟩) hij)

end ShapeSpec

section PlanSpec

variable {E : Type} [CodecField E] [LawfulField E] [DecidableEq E] [CachePlatform E]
  [LawfulPlatform E] {codec : ReedSolomon E} {lengths : List (Option Nat)}

/-- What a finished plan carries for the shards it was made for. -/
structure PlanOf (codec : ReedSolomon E) (lengths : List (Option Nat)) (goal : ReconstructionGoal)
    (plan : ClassicReconstructPlan E) : Prop where
  shape : codec.ShapeOf lengths plan.shape
  dataTargets_eq : plan.dataTargets =
    (codec.targets goal lengths).filter (· < codec.dataShardCount)
  parityTargets_eq : plan.parityTargets =
    (codec.targets goal lengths).filter (codec.dataShardCount ≤ ·)
  inverse : codec.targets goal lengths ≠ [] →
    (missingIndices lengths).filter (· < codec.dataShardCount) ≠ [] →
      ∃ inverse, plan.decodeMatrix = some inverse ∧ codec.Decodes plan.shape.validIndices inverse
  direct : plan.directParity = true →
    (missingIndices lengths).filter (· < codec.dataShardCount) ≠ [] ∧
      ∀ inverse, plan.decodeMatrix = some inverse → plan.parityDecodeRows = plan.parityTargets.map
        (codec.composeParityRow plan.shape
          ((missingIndices lengths).filter (· < codec.dataShardCount)) inverse)
  indirect : plan.directParity = false → plan.parityTargets ≠ [] →
    plan.dataTargets = (missingIndices lengths).filter (· < codec.dataShardCount)

omit [LawfulPlatform E] [DecidableEq E] [CachePlatform E] in
/-- The last planning step, with or without an inverse. -/
theorem composeParity_spec {goal : ReconstructionGoal} (plan : ClassicReconstructPlan E)
    (hshape : codec.ShapeOf lengths plan.shape)
    (hdata : plan.dataTargets = (codec.targets goal lengths).filter (· < codec.dataShardCount))
    (hparity : plan.parityTargets = (codec.targets goal lengths).filter (codec.dataShardCount ≤ ·))
    (honly : plan.dataOnly = decide (goal = .data)) (hdirect : plan.directParity = false)
    (hinverse : codec.targets goal lengths ≠ [] →
      (missingIndices lengths).filter (· < codec.dataShardCount) ≠ [] →
        ∃ inverse, plan.decodeMatrix = some inverse ∧
          codec.Decodes plan.shape.validIndices inverse) :
    ∃ plan', codec.composeParity plan goal
        ((missingIndices lengths).filter (· < codec.dataShardCount)) = .ok plan' ∧
      plan'.shape = plan.shape ∧ codec.PlanOf lengths goal plan' := by
  have htargets : plan.parityTargets ≠ [] → codec.targets goal lengths ≠ [] := by
    intro hne hnil
    rw [hparity, hnil] at hne
    exact hne rfl
  have hempty (l : List Nat) : (!l.isEmpty) = true ↔ l ≠ [] := by cases l <;> simp
  by_cases hcompose : goal.isRequired = true ∧
      (missingIndices lengths).filter (· < codec.dataShardCount) ≠ [] ∧ plan.parityTargets ≠ []
  · obtain ⟨hreq, hmiss, hpar⟩ := hcompose
    obtain ⟨inverse, hinv, hdec⟩ := hinverse (htargets hpar) hmiss
    have hdrop : plan.targetIndices.drop plan.dataTargetCount = plan.parityTargets := by
      rw [ClassicReconstructPlan.parityTargets, honly, if_neg]
      simp only [decide_eq_true_eq]
      rintro rfl
      cases hreq
    simp only [composeParity, hreq, (hempty _).mpr hmiss, (hempty _).mpr hpar, Bool.and_self,
      if_true, hinv]
    refine ⟨_, rfl, rfl, hshape, hdata, hparity, fun _ _ => ⟨inverse, rfl, hdec⟩, fun _ => ⟨hmiss, ?_⟩,
      fun h => absurd h (by simp)⟩
    intro inverse' hinv'
    obtain rfl := Option.some.inj hinv'
    change (plan.targetIndices.drop plan.dataTargetCount).map _ = plan.parityTargets.map _
    rw [hdrop]
  · have hno : (goal.isRequired &&
        !((missingIndices lengths).filter (· < codec.dataShardCount)).isEmpty &&
          !plan.parityTargets.isEmpty) = false := by
      rw [Bool.eq_false_iff]
      intro h
      rw [Bool.and_eq_true, Bool.and_eq_true] at h
      exact hcompose ⟨h.1.1, (hempty _).mp h.1.2, (hempty _).mp h.2⟩
    refine ⟨plan, ?_, rfl, hshape, hdata, hparity, hinverse, fun h => ?_, fun _ hpar => ?_⟩
    · simp only [composeParity]
      rw [if_neg (by rw [hno]; simp)]
    · rw [hdirect] at h
      cases h
    · rw [hdata]
      cases goal with
      | all => simp [targets, wants]
      | data =>
        exfalso
        rw [ClassicReconstructPlan.parityTargets, honly] at hpar
        exact hpar (by simp)
      | required mask =>
        have hnone : (missingIndices lengths).filter (· < codec.dataShardCount) = [] := by
          by_contra hmiss
          exact hcompose ⟨rfl, hmiss, hpar⟩
        rw [hnone, targets, List.filter_filter, List.filter_eq_nil_iff]
        intro i hi
        have := List.filter_eq_nil_iff.mp hnone i hi
        simp only [decide_eq_true_eq] at this
        simp [this]

/-- Planning succeeds unless the goal needs the inverse of singular survivors. -/
theorem fillClassicReconstructPlan_spec (hinv : codec.ClassicInv) {cache : InversionCache E}
    (hc : codec.CacheInv cache) {shape : ClassicReconstructShape}
    (h : codec.ShapeOf lengths shape) {goal : ReconstructionGoal}
    (hmask : codec.validMask goal = true) :
    (codec.fillClassicReconstructPlan cache shape goal).1.Sat
        (fun plan => plan.shape = shape ∧ codec.PlanOf lengths goal plan)
        (fun _ => missingIndices lengths ≠ [] ∧ codec.targets goal lengths ≠ [] ∧
          ¬IsUnit (codec.survivorMatrix shape.validIndices)) False ∧
      codec.CacheInv (codec.fillClassicReconstructPlan cache shape goal).2 := by
  unfold fillClassicReconstructPlan
  rw [if_neg (by rw [h.numberPresent_eq]; exact not_lt.mpr h.recoverable.quorum),
    if_neg (by rw [hmask]; simp)]
  simp only [h.missingData_eq]
  obtain ⟨hdata, hparity⟩ := targetPlan_targets h goal
  have houtputs := targetPlan_hasOutputs h goal
  by_cases hneed : (missingIndices lengths).filter (· < codec.dataShardCount) ≠ [] ∧
      codec.targets goal lengths ≠ []
  · have hmissing : missingIndices lengths ≠ [] := by
      intro hnil
      rw [hnil] at hneed
      exact hneed.1 rfl
    have hreq := h.decodeRequest hmissing
    obtain ⟨hresult, hcache⟩ := getDataDecodeMatrix_eq hinv hc hreq
    have hbuilt := buildDataDecodeMatrix_spec hinv hreq.survivors
    rw [if_pos (by rw [houtputs.mpr hneed.2]; simpa using hneed.1)]
    rcases hget : codec.getDataDecodeMatrix cache shape.validIndices shape.invalidIndices with
      ⟨result, cache'⟩
    rw [hget] at hresult hcache
    simp only at hresult hcache
    rw [← hresult] at hbuilt
    cases result with
    | ok inverse =>
      obtain ⟨plan, hplan, hof⟩ := composeParity_spec
        { codec.targetPlan shape goal with decodeMatrix := some inverse } h hdata hparity rfl rfl
        (fun _ _ => ⟨inverse, rfl, hbuilt⟩)
      simp only [hplan]
      exact ⟨hof, hcache⟩
    | err e => exact ⟨⟨hmissing, hneed.2, hbuilt.2⟩, hcache⟩
    | panic => exact ⟨hbuilt, hcache⟩
  · obtain ⟨plan, hplan, hof⟩ := composeParity_spec (codec.targetPlan shape goal) h hdata hparity
      rfl rfl (fun h1 h2 => absurd ⟨h2, h1⟩ hneed)
    rw [if_neg, hplan]
    · exact ⟨hof, hc⟩
    · intro hcond
      rw [Bool.and_eq_true, houtputs] at hcond
      exact hneed ⟨by simpa using hcond.1, hcond.2⟩

/-- What planning returns, and when it fails. -/
theorem planClassicReconstruct_spec (hinv : codec.ClassicInv) {cache : InversionCache E}
    (hc : codec.CacheInv cache) (lengths : List (Option Nat)) (goal : ReconstructionGoal) :
    (codec.planClassicReconstruct cache lengths goal).1.Sat
        (fun plan => codec.validMask goal = true ∧
          (plan = none ∧ missingIndices lengths = [] ∧ (∃ len, codec.Recoverable lengths len) ∨
            ∃ p, plan = some p ∧ missingIndices lengths ≠ [] ∧ codec.PlanOf lengths goal p))
        (fun _ => codec.validMask goal = false ∨ (∀ len, ¬codec.Recoverable lengths len) ∨
          missingIndices lengths ≠ [] ∧ codec.targets goal lengths ≠ [] ∧ ¬IsUnit
            (codec.survivorMatrix ((presentIndices lengths).take codec.dataShardCount))) False ∧
      codec.CacheInv (codec.planClassicReconstruct cache lengths goal).2 := by
  unfold planClassicReconstruct
  split_ifs with hmask
  · exact ⟨.inl hmask, hc⟩
  rw [Bool.not_eq_false] at hmask
  have hscan := scanClassicLengths_spec lengths hinv.data_pos
  cases hres : codec.scanClassicLengths lengths with
  | err e =>
    rw [hres] at hscan
    exact ⟨.inr (.inl hscan), hc⟩
  | panic =>
    rw [hres] at hscan
    exact ⟨hscan, hc⟩
  | ok r =>
    rw [hres] at hscan
    obtain ⟨state, found⟩ := r
    rcases hscan with ⟨shape, hsome, hne, hshape⟩ | ⟨hnone, hmiss, hshape⟩
    · simp only at hsome
      subst hsome
      obtain ⟨hplan, hcache⟩ := fillClassicReconstructPlan_spec hinv hc hshape hmask
      simp only
      rcases hfill : codec.fillClassicReconstructPlan cache shape goal with ⟨result, cache'⟩
      rw [hfill] at hplan hcache
      cases result with
      | ok plan => exact ⟨⟨hmask, .inr ⟨plan, rfl, hne, hplan.2⟩⟩, hcache⟩
      | err e =>
        have hplan' := hplan
        simp only [Outcome.Sat] at hplan'
        rw [hshape.valid_eq hne] at hplan'
        exact ⟨.inr (.inr hplan'), hcache⟩
      | panic => exact ⟨hplan, hcache⟩
    · simp only at hnone
      subst hnone
      exact ⟨⟨hmask, .inl ⟨rfl, hmiss, _, hshape.recoverable⟩⟩, hc⟩

end PlanSpec

end ReedSolomon

end ErasureCodec
