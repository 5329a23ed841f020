import ErasureCodec.Codec.Execute

namespace ErasureCodec

open CodecField ReconstructShard

namespace ReedSolomon

section Entry

variable {E S : Type} [CodecField E] [DecidableEq E] [CachePlatform E] [ReconstructShard E S]
  (codec : ReedSolomon E)

/-- `with_classic_reconstruct_plan`: the result, the shards and the cache it leaves. -/
def withClassicReconstructPlan (cache : InversionCache E) (shards : List S)
    (goal : ReconstructionGoal)
    (execute : List S → ClassicReconstructPlan E → Outcome Error Unit × List S) :
    (Outcome Error Unit × List S) × InversionCache E :=
  match codec.planClassicReconstruct cache (lengthsOf shards) goal with
  | (.ok none, cache) => ((.ok (), shards), cache)
  | (.ok (some plan), cache) => (execute shards plan, cache)
  | (.err e, cache) => ((.err e, shards), cache)
  | (.panic, cache) => ((.panic, shards), cache)

def reconstructInternal (cache : InversionCache E) (shards : List S) (dataOnly : Bool) :
    (Outcome Error Unit × List S) × InversionCache E :=
  let goal := if dataOnly then ReconstructionGoal.data else .all
  codec.withClassicReconstructPlan cache shards goal fun shards plan =>
    codec.executeClassicPlanSerial plan shards

/-- `reconstruct` of a Classic codec. -/
def reconstruct (cache : InversionCache E) (slices : List S) :
    (Outcome Error Unit × List S) × InversionCache E :=
  codec.reconstructInternal cache slices false

/-- `reconstruct_data` of a Classic codec. -/
def reconstructData (cache : InversionCache E) (slices : List S) :
    (Outcome Error Unit × List S) × InversionCache E :=
  codec.reconstructInternal cache slices true

/-- `reconstruct_some` of a Classic codec. -/
def reconstructSome (cache : InversionCache E) (shards : List S) (required : List Bool) :
    (Outcome Error Unit × List S) × InversionCache E :=
  if required.length ≠ codec.dataShardCount ∧ required.length ≠ codec.totalShardCount then
    ((.err .invalidShardFlags, shards), cache)
  else codec.withClassicReconstructPlan cache shards (.required required) fun shards plan =>
    codec.executeClassicPlanSerial plan shards

/-- The three recoveries by their goal. -/
def recover (cache : InversionCache E) (shards : List S) (goal : ReconstructionGoal) :
    (Outcome Error Unit × List S) × InversionCache E :=
  match goal with
  | .all => codec.reconstruct cache shards
  | .data => codec.reconstructData cache shards
  | .required mask => codec.reconstructSome cache shards mask

/-- All entry points plan first; the mask check of `reconstruct_some` is the one
planning makes. -/
theorem recover_eq (cache : InversionCache E) (shards : List S) (goal : ReconstructionGoal) :
    codec.recover cache shards goal = codec.withClassicReconstructPlan cache shards goal
      fun shards plan => codec.executeClassicPlanSerial plan shards := by
  cases goal with
  | all => rfl
  | data => rfl
  | required mask =>
    simp only [recover, reconstructSome]
    split_ifs with hmask
    · have hvalid : codec.validMask (.required mask) = false := by
        rw [validMask, Bool.or_eq_false_iff, beq_eq_false_iff_ne, beq_eq_false_iff_ne]
        exact hmask
      rw [withClassicReconstructPlan, planClassicReconstruct, if_pos hvalid]
    · rfl

end Entry

/-- All recoveries of the same shards use the same length. -/
theorem Recoverable.length_unique {E : Type} {codec : ReedSolomon E} {n n' : Nat}
    {lengths : List (Option Nat)} (hdata : 0 < codec.dataShardCount)
    (h : codec.Recoverable lengths n) (h' : codec.Recoverable lengths n') : n = n' := by
  have hne : presentIndices lengths ≠ [] := by
    intro hnil
    have := h.quorum
    rw [hnil, List.length_nil] at this
    omega
  obtain ⟨l, hl⟩ := exists_present hne
  rw [← h.uniform.2 l hl, h'.uniform.2 l hl]

section RecoverSpec

variable {E S : Type} [CodecField E] [LawfulField E] [DecidableEq E] [CachePlatform E]
  [LawfulPlatform E] [ReconstructShard E S] [LawfulShard S] {codec : ReedSolomon E}

/-- The shards and goals whose recovery can be planned. -/
structure Plannable (codec : ReedSolomon E) (goal : ReconstructionGoal) (n : Nat)
    (shards : List S) : Prop where
  recoverable : codec.Recoverable (lengthsOf shards) n
  validMask : codec.validMask goal = true
  isUnit : codec.targets goal (lengthsOf shards) ≠ [] →
    IsUnit (codec.survivorMatrix (codec.selected shards))

/-- A recovery either fails in planning, where it changes nothing, or publishes the
owed bytes of its targets. -/
theorem recover_spec (hinv : codec.ClassicInv) {cache : InversionCache E}
    (hc : codec.CacheInv cache) (shards : List S) (goal : ReconstructionGoal) :
    (∃ e, (codec.planClassicReconstruct cache (lengthsOf shards) goal).1 = .err e ∧
        (codec.recover cache shards goal).1 = (.err e, shards) ∧
        ∀ n, ¬codec.Plannable goal n shards) ∨
      ∃ n p, (codec.planClassicReconstruct cache (lengthsOf shards) goal).1 = .ok p ∧
        codec.Plannable goal n shards ∧
        (codec.recover cache shards goal).1 =
          publish n (codec.recoveredOutputs goal n shards) shards := by
  obtain ⟨hspec, -⟩ := planClassicReconstruct_spec hinv hc (lengthsOf shards) goal
  rw [recover_eq]
  unfold withClassicReconstructPlan
  rcases hplan : codec.planClassicReconstruct cache (lengthsOf shards) goal with ⟨result, cache'⟩
  rw [hplan] at hspec
  cases result with
  | panic => exact hspec.elim
  | err e =>
    refine .inl ⟨e, rfl, rfl, fun n hn => ?_⟩
    rcases hspec with hmask | hrec | ⟨-, htargets, hunit⟩
    · rw [hn.validMask] at hmask
      cases hmask
    · exact hrec n hn.recoverable
    · exact hunit (hn.isUnit htargets)
  | ok p =>
    refine .inr ?_
    obtain ⟨hmask, ⟨rfl, hnone, n, hrec⟩ | ⟨plan, rfl, hne, hof⟩⟩ := hspec
    · have htargets : codec.targets goal (lengthsOf shards) = [] := by rw [targets, hnone]; rfl
      refine ⟨n, none, rfl, ⟨hrec, hmask, fun h => absurd htargets h⟩, ?_⟩
      rw [recoveredOutputs, htargets]
      rfl
    · refine ⟨plan.shape.shardLen, some plan, rfl, ⟨hof.shape.recoverable, hmask, fun ht => ?_⟩,
        executeClassicPlanSerial_eq hinv hof⟩
      have hunit := hof.isUnit hinv ht hne
      rwa [hof.shape.valid_eq hne] at hunit

/-- A plannable recovery publishes. -/
theorem Plannable.recover_eq_publish (hinv : codec.ClassicInv) {cache : InversionCache E}
    (hc : codec.CacheInv cache) {shards : List S} {goal : ReconstructionGoal} {n : Nat}
    (h : codec.Plannable goal n shards) : (codec.recover cache shards goal).1 =
      publish n (codec.recoveredOutputs goal n shards) shards := by
  rcases recover_spec hinv hc shards goal with ⟨e, -, -, hnone⟩ | ⟨n', p, -, hplan, hpub⟩
  · exact absurd h (hnone n)
  · rw [h.recoverable.length_unique hinv.data_pos hplan.recoverable]
    exact hpub

omit [DecidableEq E] [CachePlatform E] [LawfulPlatform E] in
/-- What publishing the outputs of a recovery leaves behind. -/
theorem publish_recoveredOutputs (codec : ReedSolomon E) (goal : ReconstructionGoal) (n : Nat)
    (shards : List S) :
    ∃ done rest, codec.targets goal (lengthsOf shards) = done ++ rest ∧
      (∀ t ∈ done, ∃ s s', shards[t]? = some s ∧
        recoverShard n (codec.recoveredShard shards n t) s = .ok s' ∧
        (publish n (codec.recoveredOutputs goal n shards) shards).2[t]? = some s' ∧
        get s' = some (codec.recoveredShard shards n t)) ∧
      (∀ i, i ∉ done →
        (publish n (codec.recoveredOutputs goal n shards) shards).2[i]? = shards[i]?) ∧
      ((publish n (codec.recoveredOutputs goal n shards) shards).1 = .ok () ∧ rest = [] ∨
        ∃ t later s, rest = t :: later ∧ shards[t]? = some s ∧
          recoverShard n (codec.recoveredShard shards n t) s = .err .incorrectShardSize ∧
          (∃ x : List E, buffer s = some x ∧ x.length ≠ n) ∧
          (publish n (codec.recoveredOutputs goal n shards) shards).1 =
            .err .incorrectShardSize) := by
  obtain ⟨done, rest, hsplit, hdone, hframe, hend⟩ := publish_spec (n := n)
    (codec.recoveredOutputs goal n shards) shards
    (by
      rw [recoveredOutputs, map_fst_pair]
      exact (codec.ascending_targets goal (lengthsOf shards)).nodup)
    (fun t ht => by
      obtain ⟨i, hi, rfl⟩ := List.mem_map.mp ht
      exact missing_slot (List.mem_of_mem_filter hi))
    (fun t ht => by
      obtain ⟨i, -, rfl⟩ := List.mem_map.mp ht
      exact length_restoredShard _ _ _ _ _)
  have hpair (t : Nat × List E) (ht : t ∈ done ++ rest) :
      t.2 = codec.recoveredShard shards n t.1 := by
    rw [← hsplit, recoveredOutputs] at ht
    obtain ⟨i, -, rfl⟩ := List.mem_map.mp ht
    rfl
  refine ⟨done.map Prod.fst, rest.map Prod.fst, ?_, ?_, hframe, ?_⟩
  · rw [← List.map_append, ← hsplit, recoveredOutputs, map_fst_pair]
  · intro i hi
    obtain ⟨t, ht, rfl⟩ := List.mem_map.mp hi
    rw [← hpair t (List.mem_append_left _ ht)]
    exact hdone t ht
  · refine hend.imp (fun h => ⟨h.1, by rw [h.2]; rfl⟩) ?_
    rintro ⟨t, later, s, hrest, hs, herr, hbuf, hres⟩
    refine ⟨t.1, later.map Prod.fst, s, by rw [hrest]; rfl, hs, ?_, hbuf, hres⟩
    rw [← hpair t (by rw [hrest]; simp)]
    exact herr

omit [LawfulShard S] [ReconstructShard E S] in
/-- Vectors have no buffer to refuse with: a plannable recovery fills in all of them. -/
theorem Plannable.reconstruct_option (hinv : codec.ClassicInv) {cache : InversionCache E}
    (hc : codec.CacheInv cache) {shards : List (Option (List E))} {n : Nat}
    (h : codec.Plannable .all n shards) : (codec.reconstruct cache shards).1 =
      (.ok (), shards.mapIdx fun i shard => some (shard.getD (codec.recoveredShard shards n i))) := by
  have hall : codec.targets .all (lengthsOf shards) = missingIndices (lengthsOf shards) :=
    List.filter_eq_self.mpr (fun _ _ => rfl)
  rw [show codec.reconstruct cache shards = codec.recover cache shards .all from rfl,
    h.recover_eq_publish hinv hc]
  obtain ⟨done, rest, hsplit, hdone, hframe, hend⟩ := publish_recoveredOutputs codec .all n shards
  rw [hall] at hsplit
  have hok : (publish n (codec.recoveredOutputs .all n shards) shards).1 = .ok () ∧ rest = [] := by
    rcases hend with h | ⟨t, later, s, hrest, hs, -, ⟨x, hbuf, -⟩, -⟩
    · exact h
    · exfalso
      have ht : t ∈ missingIndices (lengthsOf shards) := by
        rw [hsplit, hrest]
        simp
      obtain ⟨u, hu, hget⟩ := missing_slot ht
      obtain rfl := Option.some.inj (hs.symm.trans hu)
      rw [show (buffer s : Option (List E)) = get s from rfl, hget] at hbuf
      cases hbuf
  rw [hok.2, List.append_nil] at hsplit
  refine Prod.ext hok.1 (List.ext_getElem? (fun i => ?_))
  rw [List.getElem?_mapIdx]
  by_cases hi : i ∈ done
  · obtain ⟨s, s', hs, -, hafter, hget⟩ := hdone i hi
    rw [← hsplit] at hi
    obtain ⟨u, hu, hnone⟩ := missing_slot hi
    obtain rfl : u = none := hnone
    obtain rfl : s' = some (codec.recoveredShard shards n i) := hget
    rw [hafter, hu]
    rfl
  · rw [hframe i hi]
    cases hs : shards[i]? with
    | none => rfl
    | some s =>
      cases s with
      | some bytes => rfl
      | none =>
        exfalso
        apply hi
        rw [← hsplit, mem_missingIndices, length_lengthsOf]
        exact ⟨(List.getElem?_eq_some_iff.mp hs).1, by rw [getD_lengthsOf hs]; rfl⟩

end RecoverSpec

section Selective

variable {E S : Type} [CodecField E] [LawfulField E] [DecidableEq E] [CachePlatform E]
  [LawfulPlatform E] [ReconstructShard E S] [LawfulShard S] {codec : ReedSolomon E}

/-- `final` has the wanted missing shards of `after` and is `shards` elsewhere. -/
structure Selects (wanted : Nat → Bool) (shards after final : List S) : Prop where
  recovered : ∀ i ∈ missingIndices (lengthsOf shards), wanted i = true →
    ∃ s bytes, after[i]? = some s ∧ final[i]? = some s ∧ get s = some bytes
  untouched : ∀ i, ¬(i ∈ missingIndices (lengthsOf shards) ∧ wanted i = true) →
    final[i]? = shards[i]?

/-- A full recovery that succeeds makes every recovery of less succeed the same way. -/
theorem recover_selects (hinv : codec.ClassicInv) {cache cache' : InversionCache E}
    (hc : codec.CacheInv cache) (hc' : codec.CacheInv cache') {shards after : List S}
    (hfull : (codec.reconstruct cache shards).1 = (.ok (), after)) (goal : ReconstructionGoal)
    (hmask : codec.validMask goal = true) :
    ∃ final, (codec.recover cache' shards goal).1 = (.ok (), final) ∧
      Selects (codec.wants goal) shards after final := by
  have hall : codec.targets .all (lengthsOf shards) = missingIndices (lengthsOf shards) :=
    List.filter_eq_self.mpr (fun _ _ => rfl)
  rcases recover_spec hinv hc shards .all with ⟨e, -, hrun, -⟩ | ⟨n, p, -, hplan, hrun⟩
  · rw [show codec.recover cache shards .all = codec.reconstruct cache shards from rfl,
      hfull] at hrun
    cases hrun
  rw [show codec.recover cache shards .all = codec.reconstruct cache shards from rfl,
    hfull] at hrun
  have hplan' : codec.Plannable goal n shards := by
    refine ⟨hplan.recoverable, hmask, fun hne => hplan.isUnit (fun hnil => hne ?_)⟩
    rw [hall] at hnil
    rw [targets, hnil]
    rfl
  -- the full recovery accepted every missing shard
  obtain ⟨done, rest, hsplit, hdone, -, hend⟩ := publish_recoveredOutputs codec .all n shards
  rw [← hrun] at hdone hend
  have hrest : rest = [] := by
    rcases hend with h | ⟨_, _, _, _, _, _, _, h⟩
    · exact h.2
    · cases h
  rw [hrest, List.append_nil, hall] at hsplit
  obtain ⟨done', rest', hsplit', hdone', hframe', hend'⟩ :=
    publish_recoveredOutputs codec goal n shards
  rw [hplan'.recover_eq_publish hinv hc']
  have hok : (publish n (codec.recoveredOutputs goal n shards) shards).1 = .ok () ∧ rest' = [] := by
    rcases hend' with h | ⟨t, later, s, hrest', hs, herr, -, -⟩
    · exact h
    · exfalso
      have ht : t ∈ codec.targets goal (lengthsOf shards) := by rw [hsplit', hrest']; simp
      obtain ⟨u, u', hu, hok, -⟩ := hdone t (by rw [← hsplit]; exact List.mem_of_mem_filter ht)
      obtain rfl := Option.some.inj (hs.symm.trans hu)
      rw [herr] at hok
      cases hok
  rw [hok.2, List.append_nil] at hsplit'
  refine ⟨_, Prod.ext hok.1 rfl, ⟨fun i hi hw => ?_, fun i hi => ?_⟩⟩
  · obtain ⟨s, s', hs, hrec, hafter, hget⟩ := hdone i (by rw [← hsplit]; exact hi)
    obtain ⟨u, u', hu, hrec', hfinal, -⟩ := hdone' i (by
      rw [← hsplit']
      exact List.mem_filter.mpr ⟨hi, hw⟩)
    obtain rfl := Option.some.inj (hs.symm.trans hu)
    obtain rfl := Outcome.ok.inj (hrec.symm.trans hrec')
    exact ⟨s', _, hafter, hfinal, hget⟩
  · refine hframe' i (fun hmem => hi ?_)
    rw [← hsplit'] at hmem
    exact List.mem_filter.mp hmem

/-- Selective recovery agrees with full recovery, whatever the survivors hold and
whatever the caches have seen. -/
theorem selective_recovery_agrees (h : codec.IsClassic)
    {cache cacheSome cacheData : InversionCache E} (hc : codec.CacheReachable cache)
    (hs : codec.CacheReachable cacheSome) (hd : codec.CacheReachable cacheData)
    {shards after : List S} (hfull : (codec.reconstruct cache shards).1 = (.ok (), after)) :
    (∀ required : List Bool, required.length = codec.dataShardCount ∨
        required.length = codec.totalShardCount →
      ∃ final, (codec.reconstructSome cacheSome shards required).1 = (.ok (), final) ∧
        Selects (fun i => required.getD i false) shards after final) ∧
    ∃ final, (codec.reconstructData cacheData shards).1 = (.ok (), final) ∧
      Selects (fun i => i < codec.dataShardCount) shards after final := by
  refine ⟨fun required hlen => ?_, ?_⟩
  · refine recover_selects h.inv (hc.inv h.inv) (hs.inv h.inv) hfull (.required required) ?_
    rw [validMask, Bool.or_eq_true, beq_iff_eq, beq_iff_eq]
    exact hlen
  · exact recover_selects h.inv (hc.inv h.inv) (hd.inv h.inv) hfull .data rfl

/-- Four shards whose survivors `[2]` and `[7]` determine the other two. -/
def sampleErased : List (Option (List Galois8)) := [none, some [2#8], some [7#8], none]

theorem selective_recovery_agrees_sample :
    ∃ final, (sampleCodec.reconstructSome (InversionCache.new 4 4096) sampleErased
        [false, false, false, true]).1 = (.ok (), final) ∧
      Selects (fun i => [false, false, false, true].getD i false) sampleErased
        [some [5#8], some [2#8], some [7#8], some [1#8]] final :=
  (selective_recovery_agrees sampleCodec_isClassic ⟨4, 4096, [], by simp, rfl⟩
    ⟨4, 4096, [], by simp, rfl⟩ ⟨4, 4096, [], by simp, rfl⟩ (by decide +kernel)).1
    [false, false, false, true] (.inr rfl)

end Selective

end ReedSolomon

end ErasureCodec
