import ErasureCodec.Codec.LeopardStaging

namespace ErasureCodec

open CodecField ReconstructShard

/-- What the validation of a Leopard recovery knows after some shards. -/
structure LeopardScan where
  shardLen : Option Nat := none
  numberPresent : Nat := 0
  hasRequiredMissing : Bool := false
  deriving Repr, DecidableEq

section Definitions

variable {E S σ : Type} [CodecField E] [ReconstructShard E S]

/-- One shard of `validate_leopard_reconstruction`. -/
def scanLeopardShard (required : Nat → Bool) (scan : LeopardScan) (entry : S × Nat) :
    Outcome Error LeopardScan :=
  match (get entry.1 : Option (List E)) with
  | some data =>
    if data.length = 0 then .err .emptyShard
    else if len entry.1 ≠ some data.length ∨ scan.shardLen.any (· ≠ data.length) ∨
        data.length % 64 ≠ 0 then .err .incorrectShardSize
    else .ok { scan with shardLen := some data.length, numberPresent := scan.numberPresent + 1 }
  | none =>
    if (len entry.1).isSome then .err .incorrectShardSize
    else .ok { scan with hasRequiredMissing := scan.hasRequiredMissing || required entry.2 }

namespace ReedSolomon

variable (codec : ReedSolomon E)

/-- The shard length of a recovery that has something to do. -/
def validateLeopardReconstruction (required : Nat → Bool) (slices : List S) :
    Outcome Error (Option Nat) := do
  checkCount slices.length codec.totalShardCount .tooFewShards .tooManyShards
  let scan ← slices.zipIdx.foldlM (scanLeopardShard required) {}
  if scan.numberPresent < codec.dataShardCount then .err .tooFewShardsPresent
  else if !scan.hasRequiredMissing then .ok none
  else
    match scan.shardLen with
    | some shardLen => .ok (some shardLen)
    | none => .err .tooFewShardsPresent

/-- `reconstruct_leopard_staged`: the inline layouts are compiled in or not. -/
def reconstructLeopardStaged (inlineStaging : Bool) (decode : SliceDecoder E σ)
    (required : Nat → Bool) (shardLen : Nat) (st : σ) (slices : List S) :
    Outcome Error Unit × σ × List S :=
  if inlineStaging ∧ slices.length ≤ 32 ∧
      (checked (slices.length * shardLen)).any (· ≤ leopardInlineRecoveryBytes) then
    reconstructLeopardSmall decode required shardLen st slices
  else if inlineStaging ∧ slices.length ≤ 32 ∧
      (checked (codec.parityShardCount * shardLen)).any (· ≤ leopardInlineRecoveryBytes) then
    reconstructLeopardPacked decode required shardLen st slices
  else reconstructLeopardHeap decode required shardLen st slices

def reconstructLeopardImpl (inlineStaging : Bool) (decode : SliceDecoder E σ)
    (required : Nat → Bool) (st : σ) (slices : List S) : Outcome Error Unit × σ × List S :=
  match codec.validateLeopardReconstruction required slices with
  | .ok none => (.ok (), st, slices)
  | .ok (some shardLen) =>
    codec.reconstructLeopardStaged inlineStaging decode required shardLen st slices
  | .err e => (.err e, st, slices)
  | .panic => (.panic, st, slices)

end ReedSolomon

/-- The requested missing vectors are allocated. -/
def openRequested (required : Nat → Bool) (shardLen : Nat) (shards : List (Option (List E))) :
    List (Option (List E)) :=
  shards.mapIdx fun index shard =>
    if shard.isNone && required index then some (List.replicate shardLen zero) else shard

/-- The `Rollback` guard: what was allocated is dropped again. -/
def rollBack (present : List Bool) (required : Nat → Bool) (shards : List (Option (List E))) :
    List (Option (List E)) :=
  shards.mapIdx fun index shard =>
    if !present.getD index false && required index then none else shard

/-- `reconstruct_leopard_option_direct_with`: vectors are decoded in place. -/
def ReedSolomon.reconstructLeopardOptionDirectWith (codec : ReedSolomon E)
    (decode : SliceDecoder E σ) (required : Nat → Bool) (st : σ) (shards : List (Option (List E))) :
    Outcome Error Unit × σ × List (Option (List E)) :=
  match codec.validateLeopardReconstruction required shards with
  | .ok none => (.ok (), st, shards)
  | .ok (some shardLen) =>
    let present := shards.map Option.isSome
    let opened := openRequested required shardLen shards
    let inputs := opened.mapIdx fun index shard => if present.getD index false then shard else none
    let outputs := opened.mapIdx fun index shard =>
      if present.getD index false then [] else shard.getD []
    let (result, st, outputs) := decode.run st present outputs inputs
    let written := opened.mapIdx fun index shard =>
      if present.getD index false then shard else shard.map fun _ => outputs.getD index []
    match result with
    | .ok _ => (.ok (), st, written)
    | .err e => (.err e, st, rollBack present required written)
    | .panic => (.panic, st, rollBack present required written)
  | .err e => (.err e, st, shards)
  | .panic => (.panic, st, shards)

end Definitions

section Validation

variable {E S : Type} [ReconstructShard E S] [LawfulShard S] {required : Nat → Bool}

/-- The invariant of the validation loop over the shards it has seen. -/
structure Scanned (required : Nat → Bool) (seen : List S) (scan : LeopardScan) : Prop where
  numberPresent : scan.numberPresent = (presentIndices (lengthsOf seen)).length
  hasRequiredMissing : scan.hasRequiredMissing = (missingIndices (lengthsOf seen)).any required
  uniform : ∀ l, some l ∈ lengthsOf seen → scan.shardLen = some l ∧ 0 < l ∧ 64 ∣ l
  found : ∀ l, scan.shardLen = some l → some l ∈ lengthsOf seen

/-- What the validation accepts. -/
structure LeopardShards (codec : ReedSolomon E) (shardLen : Nat) (slices : List S) : Prop where
  length_eq : slices.length = codec.totalShardCount
  enough : codec.dataShardCount ≤ (presentIndices (lengthsOf slices)).length
  uniform : Uniform shardLen (lengthsOf slices)
  aligned : 64 ∣ shardLen

/-- A shard extends the scan, or the shards have no common length that is accepted. -/
theorem scanLeopardShard_sat {seen : List S} {scan : LeopardScan} (h : Scanned required seen scan)
    (s : S) : (scanLeopardShard required scan (s, seen.length)).Sat (Scanned required (seen ++ [s]))
      (fun _ => ¬∃ n, Uniform n (lengthsOf (seen ++ [s])) ∧ 64 ∣ n) False := by
  have hlen : len s = (get s : Option (List E)).map List.length := LawfulShard.len_eq s
  have hsplit : lengthsOf (seen ++ [s]) = lengthsOf seen ++ [len s] := by
    rw [lengthsOf, List.map_append]
    rfl
  have hpresent := presentIndices_append (lengthsOf seen) (len s)
  have hmissing := missingIndices_append (lengthsOf seen) (len s)
  rw [length_lengthsOf] at hpresent hmissing
  unfold scanLeopardShard
  cases hget : (get s : Option (List E)) with
  | none =>
    rw [hget, Option.map_none] at hlen
    simp only [hlen, Option.isSome_none, Bool.false_eq_true, if_false]
    rw [hlen] at hsplit hpresent hmissing
    refine ⟨?_, ?_, fun l hl => ?_, fun l hl => ?_⟩
    · rw [hsplit, hpresent, h.numberPresent]
      simp
    · rw [hsplit, hmissing, List.any_append, ← h.hasRequiredMissing]
      simp
    · rw [hsplit, List.mem_append] at hl
      exact h.uniform l (hl.resolve_right (by simp))
    · rw [hsplit, List.mem_append]
      exact .inl (h.found l hl)
  | some data =>
    rw [hget, Option.map_some] at hlen
    have hmem : some data.length ∈ lengthsOf (seen ++ [s]) := by
      rw [hsplit, hlen]
      simp
    simp only
    split_ifs with h0 hbad
    · rintro ⟨n, huniform, -⟩
      have := huniform.1
      have := huniform.2 _ hmem
      omega
    · rintro ⟨n, huniform, hn⟩
      have hdata := huniform.2 _ hmem
      rcases hbad with hbad | hbad | hbad
      · exact hbad hlen
      · obtain ⟨l, hl, hne⟩ := (Option.any_eq_true _ _).mp hbad
        have hold := huniform.2 l (by
          rw [hsplit, List.mem_append]
          exact .inl (h.found l hl))
        simp only [ne_eq, decide_not, Bool.not_eq_true', decide_eq_false_iff_not] at hne
        exact hne (hold.trans hdata.symm)
      · rw [hdata] at hbad
        exact hbad (Nat.mod_eq_zero_of_dvd hn)
    · push Not at hbad
      obtain ⟨-, hsame, h64⟩ := hbad
      refine ⟨?_, ?_, fun l hl => ?_, fun l hl => ?_⟩
      · rw [hsplit, hpresent, hlen, h.numberPresent]
        simp
      · rw [hsplit, hmissing, hlen, h.hasRequiredMissing]
        simp
      · have hthis : l = data.length → some data.length = some l ∧ 0 < l ∧ 64 ∣ l := by
          rintro rfl
          exact ⟨rfl, Nat.pos_of_ne_zero h0, Nat.dvd_of_mod_eq_zero h64⟩
        rw [hsplit, List.mem_append, hlen] at hl
        rcases hl with hl | hl
        · have hold := (h.uniform l hl).1
          rw [hold] at hsame
          apply hthis
          simpa using hsame
        · exact hthis (by simpa using hl)
      · rw [hsplit, hlen]
        obtain rfl := Option.some.inj hl
        simp

theorem scanLeopardShards_sat (required : Nat → Bool) (slices : List S) :
    (slices.zipIdx.foldlM (scanLeopardShard required) {}).Sat (Scanned required slices)
      (fun _ => ¬∃ n, Uniform n (lengthsOf slices) ∧ 64 ∣ n) False := by
  have h := Outcome.Sat.foldlM_zipIdx
    (P := fun i => Scanned required (slices.take i))
    (Q := fun _ => ¬∃ n, Uniform n (lengthsOf slices) ∧ 64 ∣ n) (R := False)
    (f := scanLeopardShard required) slices 0 {}
    ⟨rfl, rfl, fun l hl => by simp [lengthsOf] at hl, fun l hl => by cases hl⟩
    (fun i s hs scan hscan => by
      have hlt := (List.getElem?_eq_some_iff.mp hs).1
      have hnext := List.take_concat_get' slices i hlt
      rw [show slices[i] = s from (List.getElem?_eq_some_iff.mp hs).2] at hnext
      rw [Nat.zero_add] at hscan ⊢
      have hstep := scanLeopardShard_sat hscan s
      rw [hnext, List.length_take, min_eq_left hlt.le] at hstep
      refine hstep.mono (fun _ ht => ht) (fun _ hbad => ?_) id
      rintro ⟨n, huniform, hn⟩
      refine hbad ⟨n, ⟨huniform.1, fun l hl => huniform.2 l ?_⟩, hn⟩
      rw [lengthsOf, List.map_take] at hl
      exact List.mem_of_mem_take hl)
  rwa [Nat.zero_add, List.take_length] at h

/-- The validation accepts just the shard lists of the codec with enough shards of one aligned
length, and says whether there is a requested shard to recover. -/
theorem validateLeopardReconstruction_sat (codec : ReedSolomon E) (hdata : 0 < codec.dataShardCount)
    (required : Nat → Bool) (slices : List S) :
    (codec.validateLeopardReconstruction required slices).Sat
      (fun
        | none => (∃ n, LeopardShards codec n slices) ∧
          ∀ i ∈ missingIndices (lengthsOf slices), required i = false
        | some n => LeopardShards codec n slices ∧
          ∃ i ∈ missingIndices (lengthsOf slices), required i = true)
      (fun _ => ¬∃ n, LeopardShards codec n slices) False := by
  unfold ReedSolomon.validateLeopardReconstruction
  cases hcount : checkCount slices.length codec.totalShardCount .tooFewShards .tooManyShards with
  | panic =>
    unfold checkCount at hcount
    split_ifs at hcount
  | err e =>
    rw [Outcome.err_bind]
    rintro ⟨n, h⟩
    rw [checkCount_ok.mpr h.length_eq] at hcount
    cases hcount
  | ok u =>
    have hlength := checkCount_ok.mp hcount
    rw [Outcome.ok_bind]
    have hscan := scanLeopardShards_sat required slices
    cases hfold : slices.zipIdx.foldlM (scanLeopardShard required) {} with
    | panic =>
      rw [hfold] at hscan
      exact hscan.elim
    | err e =>
      rw [hfold] at hscan
      rw [Outcome.err_bind]
      rintro ⟨n, h⟩
      exact hscan ⟨n, h.uniform, h.aligned⟩
    | ok scan =>
      rw [hfold] at hscan
      have hscan : Scanned required slices scan := hscan
      rw [Outcome.ok_bind]
      have hshards (l : Nat) (hl : scan.shardLen = some l)
          (henough : ¬scan.numberPresent < codec.dataShardCount) : LeopardShards codec l slices := by
        obtain ⟨-, hpos, h64⟩ := hscan.uniform l (hscan.found l hl)
        refine ⟨hlength, by rw [← hscan.numberPresent]; omega, ⟨hpos, fun l' hl' => ?_⟩, h64⟩
        have hother := (hscan.uniform l' hl').1
        rw [hl] at hother
        exact (Option.some.inj hother).symm
      have hsome (henough : ¬scan.numberPresent < codec.dataShardCount) :
          ∃ l, scan.shardLen = some l := by
        have hpos : 0 < (presentIndices (lengthsOf slices)).length := by
          rw [← hscan.numberPresent]
          omega
        obtain ⟨i, hi⟩ := List.exists_mem_of_length_pos hpos
        obtain ⟨hlt, hpresent⟩ := mem_presentIndices.mp hi
        obtain ⟨l, hl⟩ := Option.isSome_iff_exists.mp hpresent
        rw [List.getD_eq_getElem _ _ hlt] at hl
        exact ⟨l, (hscan.uniform l (hl ▸ List.getElem_mem hlt)).1⟩
      split_ifs with hfew hnone
      · rintro ⟨n, h⟩
        have := h.enough
        rw [← hscan.numberPresent] at this
        omega
      · obtain ⟨l, hl⟩ := hsome hfew
        refine ⟨⟨l, hshards l hl hfew⟩, fun i hi => ?_⟩
        rw [hscan.hasRequiredMissing] at hnone
        simp only [Bool.not_eq_true', List.any_eq_false] at hnone
        simpa using hnone i hi
      · obtain ⟨l, hl⟩ := hsome hfew
        simp only [hl]
        refine ⟨hshards l hl hfew, ?_⟩
        rw [hscan.hasRequiredMissing] at hnone
        simpa using hnone

end Validation

section Recovery

variable {E S σ : Type} [CodecField E] [ReconstructShard E S] [LawfulShard S] {codec : ReedSolomon E}
  {required : Nat → Bool} {shardLen : Nat}

omit [LawfulShard S] in
/-- The layouts of the staging buffers do not show. -/
theorem reconstructLeopardStaged_eq (codec : ReedSolomon E) (inlineStaging : Bool)
    (decode : SliceDecoder E σ) (required : Nat → Bool) (h0 : 0 < shardLen) (st : σ)
    (slices : List S) :
    codec.reconstructLeopardStaged inlineStaging decode required shardLen st slices =
      decodeAndPublish decode required shardLen st slices := by
  unfold ReedSolomon.reconstructLeopardStaged
  split_ifs
  · exact reconstructLeopardSmall_eq decode required h0 st slices
  · exact reconstructLeopardPacked_eq decode required st slices
  · exact reconstructLeopardHeap_eq decode required h0 st slices

omit [CodecField E] in
/-- Accepted shards are bound. -/
theorem LeopardShards.mapM_bindInput {slices : List S} (h : LeopardShards codec shardLen slices) :
    slices.mapM (bindInput shardLen) = .ok (slices.map (get : S → Option (List E))) := by
  apply Outcome.mapM_eq_ok
  intro s hs
  unfold bindInput
  cases hget : (get s : Option (List E)) with
  | none => rfl
  | some data =>
    have hlen : data.length = shardLen := by
      apply h.uniform.2
      refine List.mem_map.mpr ⟨s, hs, ?_⟩
      rw [LawfulShard.len_eq, hget]
      rfl
    simp only
    rw [if_neg (not_not.mpr hlen)]

omit [CodecField E] in
/-- The requested missing shards, read off the inputs. -/
theorem filter_requestedFlags (required : Nat → Bool) (slices : List S) :
    ((List.range slices.length).filter fun index => (requestedFlags required
      (slices.map (get : S → Option (List E)))).getD index false) =
      (missingIndices (lengthsOf slices)).filter required := by
  unfold missingIndices
  rw [List.filter_filter, length_lengthsOf]
  apply List.filter_congr
  intro index hi
  have hlt := List.mem_range.mp hi
  rw [getD_requestedFlags required (by rwa [List.length_map]), Bool.and_comm]
  congr 1
  have hs := List.getElem?_eq_getElem hlt
  rw [getD_lengthsOf hs, LawfulShard.len_eq, Option.isNone_map,
    List.getD_eq_getElem _ _ (by rwa [List.length_map]), List.getElem_map]

/-- The slots of the requested missing shards hold `bytes` up to the index `cut`, and nothing
else has changed. -/
structure RecoveredBefore (required : Nat → Bool) (slices after : List S) (bytes : Nat → List E)
    (cut : Nat) : Prop where
  recovered : ∀ i ∈ missingIndices (lengthsOf slices), required i = true → i < cut →
    ∃ s, after[i]? = some s ∧ get s = some (bytes i)
  untouched : ∀ i, (i ∈ missingIndices (lengthsOf slices) → required i = true → cut ≤ i) →
    after[i]? = slices[i]?

omit [CodecField E] in
/-- Published targets are recovered, up to the first that refuses its buffer. -/
theorem publish_requested (required : Nat → Bool) (shardLen : Nat) (slices : List S)
    (bytes : Nat → List E)
    (hbytes : ∀ i ∈ missingIndices (lengthsOf slices), required i = true →
      (bytes i).length = shardLen) :
    ∃ cut after, RecoveredBefore required slices after bytes cut ∧
      (publish shardLen (((missingIndices (lengthsOf slices)).filter required).map
          fun i => (i, bytes i)) slices = (.ok (), after) ∧ slices.length ≤ cut ∨
        publish shardLen (((missingIndices (lengthsOf slices)).filter required).map
          fun i => (i, bytes i)) slices = (.err .incorrectShardSize, after) ∧
        cut ∈ missingIndices (lengthsOf slices) ∧ required cut = true ∧
        ∃ s x, slices[cut]? = some s ∧ buffer s = some x ∧ x.length ≠ shardLen) := by
  obtain ⟨wanted, hwanted⟩ : ∃ wanted, wanted = (missingIndices (lengthsOf slices)).filter required :=
    ⟨_, rfl⟩
  have hasc : Ascending wanted := by
    rw [hwanted]
    exact (ascending_missingIndices _).filter _
  have hmem (i : Nat) : i ∈ wanted ↔ i ∈ missingIndices (lengthsOf slices) ∧ required i = true := by
    rw [hwanted, List.mem_filter]
  have hfst : (wanted.map fun i => (i, bytes i)).map Prod.fst = wanted := map_fst_pair wanted bytes
  obtain ⟨done, rest, hsplit, hdone, hframe, hend⟩ := publish_spec (n := shardLen)
    (wanted.map fun i => (i, bytes i)) slices (by rw [hfst]; exact hasc.nodup)
    (fun t ht => by
      obtain ⟨i, hi, rfl⟩ := List.mem_map.mp ht
      exact missing_slot ((hmem i).mp hi).1)
    (fun t ht => by
      obtain ⟨i, hi, rfl⟩ := List.mem_map.mp ht
      exact hbytes i ((hmem i).mp hi).1 ((hmem i).mp hi).2)
  rw [← hwanted]
  have horder : wanted = done.map Prod.fst ++ rest.map Prod.fst := by
    rw [← hfst, hsplit, List.map_append]
  have hpair (t : Nat × List E) (ht : t ∈ done) : t.2 = bytes t.1 := by
    have hin : t ∈ wanted.map fun i => (i, bytes i) := by
      rw [hsplit]
      exact List.mem_append_left _ ht
    obtain ⟨i, -, rfl⟩ := List.mem_map.mp hin
    rfl
  -- what is done is what comes before `cut`
  have hbefore {cut : Nat} (hcut : ∀ i ∈ wanted, i ∈ done.map Prod.fst ↔ i < cut) :
      RecoveredBefore required slices (publish shardLen (wanted.map fun i => (i, bytes i)) slices).2
        bytes cut := by
    refine ⟨fun i hi hreq hlt => ?_, fun i hi => hframe i fun hin => ?_⟩
    · have hin := (hcut i ((hmem i).mpr ⟨hi, hreq⟩)).mpr hlt
      obtain ⟨t, ht, rfl⟩ := List.mem_map.mp hin
      obtain ⟨_, s, -, -, hafter, hget⟩ := hdone t ht
      exact ⟨s, hafter, by rw [hget, hpair t ht]⟩
    · have hw : i ∈ wanted := by
        rw [horder]
        exact List.mem_append_left _ hin
      have h1 := hi ((hmem i).mp hw).1 ((hmem i).mp hw).2
      have h2 := (hcut i hw).mp hin
      omega
  rcases hpub : publish shardLen (wanted.map fun i => (i, bytes i)) slices with ⟨result, after⟩
  rw [hpub] at hbefore hend
  rcases hend with ⟨hok, rfl⟩ | ⟨t, later, s, rfl, hs, -, ⟨x, hbuf, hx⟩, herr⟩
  · refine ⟨slices.length, after, hbefore fun i hi => ?_, .inl ⟨by rw [show result = .ok () from hok],
      le_rfl⟩⟩
    have hlt := (mem_missingIndices.mp ((hmem i).mp hi).1).1
    rw [length_lengthsOf] at hlt
    rw [List.map_nil, List.append_nil] at horder
    rw [← horder]
    exact ⟨fun _ => hlt, fun _ => hi⟩
  · have ht : t.1 ∈ wanted := by
      rw [horder]
      simp
    rw [List.map_cons] at horder
    rw [horder] at hasc
    exact ⟨t.1, after, hbefore fun i hi => hasc.mem_left_iff (horder ▸ hi),
      .inr ⟨by rw [show result = _ from herr], ((hmem t.1).mp ht).1, ((hmem t.1).mp ht).2,
        s, x, hs, hbuf, hx⟩⟩

/-- The call of the decoder that a recovery makes. -/
def decodeCall (decode : SliceDecoder E σ) (required : Nat → Bool) (shardLen : Nat) (st : σ)
    (slices : List S) : Outcome Error PUnit × σ × List (List E) :=
  decode.run st (slices.map fun s => (get s : Option (List E)).isSome)
    (zeroOutputs shardLen (requestedFlags required (slices.map get))) (slices.map get)

/-- A validated recovery is its decoder's call and the publication of what it decoded. -/
theorem LeopardShards.decodeAndPublish_eq {slices : List S}
    (h : LeopardShards codec shardLen slices) (decode : SliceDecoder E σ) (st : σ) :
    decodeAndPublish decode required shardLen st slices =
      finishStaged shardLen slices (((missingIndices (lengthsOf slices)).filter required).map
        fun i => (i, (decodeCall decode required shardLen st slices).2.2.getD i []))
        ((decodeCall decode required shardLen st slices).1,
          (decodeCall decode required shardLen st slices).2.1) := by
  unfold decodeAndPublish decodeCall
  rw [h.mapM_bindInput]
  simp only [length_requestedFlags, List.length_map, filter_requestedFlags, List.map_map]
  rfl

/-- What is published has the shards' length. -/
theorem length_decodeCall (shardLen : Nat) (decode : SliceDecoder E σ) (st : σ) (slices : List S) {i : Nat}
    (hi : i ∈ missingIndices (lengthsOf slices)) (hreq : required i = true) :
    ((decodeCall decode required shardLen st slices).2.2.getD i []).length = shardLen := by
  have hmem : i ∈ (missingIndices (lengthsOf slices)).filter required :=
    List.mem_filter.mpr ⟨hi, hreq⟩
  rw [← filter_requestedFlags (E := E), List.mem_filter] at hmem
  have hlt : i < (requestedFlags required (slices.map (get : S → Option (List E)))).length := by
    rw [length_requestedFlags, List.length_map]
    exact List.mem_range.mp hmem.1
  unfold decodeCall
  rw [decode.row_length, getD_zeroOutputs _ hlt, hmem.2, if_pos rfl, List.length_replicate]

/-- How a recovery can end: it has nothing to do; its shards are rejected or its decoder does not
succeed, and nothing is written; or its decoder succeeds, and the decoded shards are there, up to the
first whose buffer has the wrong length. -/
inductive RecoveryEnd (codec : ReedSolomon E) (decode : SliceDecoder E σ) (required : Nat → Bool)
    (st : σ) (slices : List S) : Outcome Error Unit × σ × List S → Prop
  | nothing (n : Nat) (h : LeopardShards codec n slices)
      (hnone : ∀ i ∈ missingIndices (lengthsOf slices), required i = false) :
      RecoveryEnd codec decode required st slices (.ok (), st, slices)
  | rejected (e : Error) (h : ¬∃ n, LeopardShards codec n slices)
      (hcheck : codec.validateLeopardReconstruction required slices = .err e) :
      RecoveryEnd codec decode required st slices (.err e, st, slices)
  | failed (n : Nat) (h : LeopardShards codec n slices) (e : Error)
      (hrun : (decodeCall decode required n st slices).1 = .err e) :
      RecoveryEnd codec decode required st slices
        (.err e, (decodeCall decode required n st slices).2.1, slices)
  | panicked (n : Nat) (h : LeopardShards codec n slices)
      (hrun : (decodeCall decode required n st slices).1 = .panic) :
      RecoveryEnd codec decode required st slices
        (.panic, (decodeCall decode required n st slices).2.1, slices)
  | published (n : Nat) (h : LeopardShards codec n slices) (after : List S)
      (hrun : (decodeCall decode required n st slices).1 = .ok ⟨⟩)
      (hafter : RecoveredBefore required slices after
        (fun i => (decodeCall decode required n st slices).2.2.getD i []) slices.length) :
      RecoveryEnd codec decode required st slices
        (.ok (), (decodeCall decode required n st slices).2.1, after)
  | refused (n : Nat) (h : LeopardShards codec n slices) (cut : Nat) (after : List S) (s : S)
      (x : List E) (hrun : (decodeCall decode required n st slices).1 = .ok ⟨⟩)
      (hcut : cut ∈ missingIndices (lengthsOf slices)) (hreq : required cut = true)
      (hs : slices[cut]? = some s) (hbuffer : buffer s = some x) (hx : x.length ≠ n)
      (hafter : RecoveredBefore required slices after
        (fun i => (decodeCall decode required n st slices).2.2.getD i []) cut) :
      RecoveryEnd codec decode required st slices
        (.err .incorrectShardSize, (decodeCall decode required n st slices).2.1, after)

omit [CodecField E] [LawfulShard S] in
theorem RecoveredBefore.mono {slices after : List S} {bytes : Nat → List E} {cut : Nat}
    (h : RecoveredBefore required slices after bytes cut) (hcut : slices.length ≤ cut) :
    RecoveredBefore required slices after bytes slices.length := by
  have hlt {i : Nat} (hi : i ∈ missingIndices (lengthsOf slices)) : i < slices.length := by
    have h := (mem_missingIndices.mp hi).1
    rwa [length_lengthsOf] at h
  refine ⟨fun i hi hreq _ => h.recovered i hi hreq (by have := hlt hi; omega),
    fun i hi => h.untouched i fun hm hreq => ?_⟩
  have h1 := hi hm hreq
  have h2 := hlt hm
  omega

/-- A Leopard recovery is atomic: before its decoder has succeeded no shard is written, and after
that every slot is either decoded or as it was, in the order of the shards. -/
theorem reconstructLeopardImpl_end (hdata : 0 < codec.dataShardCount) (inlineStaging : Bool)
    (decode : SliceDecoder E σ) (required : Nat → Bool) (st : σ) (slices : List S) :
    RecoveryEnd codec decode required st slices
      (codec.reconstructLeopardImpl inlineStaging decode required st slices) := by
  have hvalid := validateLeopardReconstruction_sat codec hdata required slices
  unfold ReedSolomon.reconstructLeopardImpl
  cases hres : codec.validateLeopardReconstruction required slices with
  | panic =>
    rw [hres] at hvalid
    exact hvalid.elim
  | err e =>
    rw [hres] at hvalid
    exact .rejected e hvalid hres
  | ok found =>
    rw [hres] at hvalid
    cases found with
    | none =>
      obtain ⟨⟨n, h⟩, hnone⟩ := hvalid
      exact .nothing n h hnone
    | some n =>
      obtain ⟨h, -⟩ : LeopardShards codec n slices ∧ _ := hvalid
      simp only
      rw [reconstructLeopardStaged_eq codec inlineStaging decode required h.uniform.1,
        h.decodeAndPublish_eq]
      cases hrun : (decodeCall decode required n st slices).1 with
      | err e => exact .failed n h e hrun
      | panic => exact .panicked n h hrun
      | ok u =>
        obtain ⟨cut, after, hafter, hpub⟩ := publish_requested required n slices
          (fun i => (decodeCall decode required n st slices).2.2.getD i [])
          (fun i hi hreq => length_decodeCall n decode st slices hi hreq)
        rcases hpub with ⟨hpub, hle⟩ | ⟨hpub, hcut, hreq, s, x, hs, hbuffer, hx⟩
        · simp only [finishStaged, hpub]
          exact .published n h after hrun (hafter.mono hle)
        · simp only [finishStaged, hpub]
          exact .refused n h cut after s x hrun hcut hreq hs hbuffer hx hafter

end Recovery

section Direct

variable {E σ : Type} [CodecField E] {codec : ReedSolomon E} {required : Nat → Bool} {shardLen : Nat}

/-- A missing vector has no buffer. -/
theorem mem_missing_option {shards : List (Option (List E))} {i : Nat} :
    i ∈ missingIndices (lengthsOf shards) ↔ shards[i]? = some none := by
  rw [mem_missingIndices, length_lengthsOf]
  constructor
  · rintro ⟨hlt, hnone⟩
    have hs := List.getElem?_eq_getElem hlt
    rw [getD_lengthsOf hs] at hnone
    have hnil : shards[i] = none := Option.map_eq_none_iff.mp hnone
    rw [hs, hnil]
  · intro hs
    refine ⟨(List.getElem?_eq_some_iff.mp hs).1, ?_⟩
    rw [getD_lengthsOf hs]
    rfl

/-- The slot of an opened list. -/
theorem getElem?_openRequested (shards : List (Option (List E))) (i : Nat) :
    (openRequested required shardLen shards)[i]? = shards[i]?.map fun shard =>
      if shard.isNone && required i then some (List.replicate shardLen zero) else shard := by
  unfold openRequested
  rw [List.getElem?_mapIdx]

omit [CodecField E] in
theorem getD_present {shards : List (Option (List E))} {i : Nat} {shard : Option (List E)}
    (h : shards[i]? = some shard) : (shards.map Option.isSome).getD i false = shard.isSome := by
  rw [List.getD_eq_getElem?_getD, List.getElem?_map, h]
  rfl

/-- The vectors after the decoder has written its outputs. -/
def writeOpened (required : Nat → Bool) (shardLen : Nat) (shards : List (Option (List E)))
    (outputs : List (List E)) : List (Option (List E)) :=
  (openRequested required shardLen shards).mapIdx fun index shard =>
    if (shards.map Option.isSome).getD index false then shard
    else shard.map fun _ => outputs.getD index []

theorem getElem?_writeOpened (shards : List (Option (List E))) (outputs : List (List E)) (i : Nat) :
    (writeOpened required shardLen shards outputs)[i]? = shards[i]?.map fun shard =>
      if shard.isNone && required i then some (outputs.getD i []) else shard := by
  unfold writeOpened
  rw [List.getElem?_mapIdx, getElem?_openRequested]
  cases hs : shards[i]? with
  | none => rfl
  | some shard =>
    rw [Option.map_some, Option.map_some, Option.map_some, getD_present hs]
    cases shard with
    | some data => rfl
    | none => cases required i <;> rfl

/-- A rollback leaves the vectors as they were. -/
theorem rollBack_writeOpened (shards : List (Option (List E))) (outputs : List (List E)) :
    rollBack (shards.map Option.isSome) required (writeOpened required shardLen shards outputs) =
      shards := by
  apply List.ext_getElem?
  intro i
  unfold rollBack
  rw [List.getElem?_mapIdx, getElem?_writeOpened]
  cases hs : shards[i]? with
  | none => rfl
  | some shard =>
    rw [Option.map_some, Option.map_some, getD_present hs]
    cases shard with
    | some data => rfl
    | none => cases required i <;> rfl

/-- The slots a decoder reads of an opened list. -/
theorem inputs_openRequested (shards : List (Option (List E))) :
    ((openRequested required shardLen shards).mapIdx fun index shard =>
      if (shards.map Option.isSome).getD index false then shard else none) = shards := by
  apply List.ext_getElem?
  intro i
  rw [List.getElem?_mapIdx, getElem?_openRequested]
  cases hs : shards[i]? with
  | none => rfl
  | some shard =>
    rw [Option.map_some, Option.map_some, getD_present hs]
    cases shard <;> rfl

/-- The slots it writes. -/
theorem outputs_openRequested (shards : List (Option (List E))) :
    ((openRequested required shardLen shards).mapIdx fun index shard =>
      if (shards.map Option.isSome).getD index false then [] else shard.getD []) =
      (zeroOutputs shardLen (requestedFlags required shards) : List (List E)) := by
  apply List.ext_getElem?
  intro i
  unfold zeroOutputs requestedFlags
  rw [List.getElem?_mapIdx, getElem?_openRequested, List.getElem?_map, List.getElem?_mapIdx]
  cases hs : shards[i]? with
  | none => rfl
  | some shard =>
    rw [Option.map_some, Option.map_some, Option.map_some, Option.map_some, getD_present hs]
    cases shard with
    | some data => rfl
    | none => cases required i <;> rfl

/-- What the decoder writes into an opened list is what is published from its outputs. -/
theorem RecoveredBefore.writeOpened_eq {shards after : List (Option (List E))} {cut : Nat}
    {outputs : List (List E)}
    (h : RecoveredBefore required shards after (fun i => outputs.getD i []) cut)
    (hcut : shards.length ≤ cut) : writeOpened required shardLen shards outputs = after := by
  apply List.ext_getElem?
  intro i
  refine (getElem?_writeOpened shards outputs i).trans ?_
  cases hs : shards[i]? with
  | none =>
    have hkeep := h.untouched i fun hm => by
      rw [mem_missing_option, hs] at hm
      cases hm
    rw [hkeep, hs]
    rfl
  | some shard =>
    cases shard with
    | some data =>
      have hkeep := h.untouched i fun hm => by
        rw [mem_missing_option, hs] at hm
        cases hm
      rw [hkeep, hs]
      rfl
    | none =>
      have hmissing := mem_missing_option.mpr hs
      have hlt := (List.getElem?_eq_some_iff.mp hs).1
      cases hreq : required i with
      | false =>
        have hkeep := h.untouched i fun _ hwant => by
          rw [hreq] at hwant
          cases hwant
        rw [hkeep, hs]
        rfl
      | true =>
        obtain ⟨s, hs', hget⟩ := h.recovered i hmissing hreq (by omega)
        rw [hs', show s = some (outputs.getD i []) from hget]
        rfl

/-- Vectors are decoded in place as they would be decoded into staging buffers and published. -/
theorem reconstructLeopardOptionDirectWith_eq (hdata : 0 < codec.dataShardCount)
    (inlineStaging : Bool) (decode : SliceDecoder E σ) (required : Nat → Bool) (st : σ)
    (shards : List (Option (List E))) :
    codec.reconstructLeopardOptionDirectWith decode required st shards =
      codec.reconstructLeopardImpl inlineStaging decode required st shards := by
  have hvalid := validateLeopardReconstruction_sat codec hdata required shards
  unfold ReedSolomon.reconstructLeopardOptionDirectWith ReedSolomon.reconstructLeopardImpl
  cases hres : codec.validateLeopardReconstruction required shards with
  | panic => rfl
  | err e => rfl
  | ok found =>
    rw [hres] at hvalid
    cases found with
    | none => rfl
    | some n =>
      obtain ⟨h, -⟩ : LeopardShards codec n shards ∧ _ := hvalid
      rcases hrun : decode.run st (shards.map Option.isSome)
        (zeroOutputs n (requestedFlags required shards)) shards with ⟨result, st', outputs⟩
      have hcall : decodeCall decode required n st shards = (result, st', outputs) := by
        rw [← hrun]
        unfold decodeCall
        rw [show shards.map (get : Option (List E) → Option (List E)) = shards from List.map_id _]
        rfl
      simp only [inputs_openRequested, outputs_openRequested, hrun]
      rw [reconstructLeopardStaged_eq codec inlineStaging decode required h.uniform.1,
        h.decodeAndPublish_eq, hcall]
      cases result with
      | err e => exact congrArg (fun l => (_, st', l)) (rollBack_writeOpened shards outputs)
      | panic => exact congrArg (fun l => (_, st', l)) (rollBack_writeOpened shards outputs)
      | ok u =>
        obtain ⟨cut, after, hafter, hpub⟩ := publish_requested required n shards
          (fun i => outputs.getD i []) (fun i hi hreq => by
            have hlen := length_decodeCall n decode st shards hi hreq
            rwa [hcall] at hlen)
        rcases hpub with ⟨hpub, hle⟩ | ⟨-, hcut, -, s, x, hs, hbuffer, -⟩
        · simp only [finishStaged, hpub]
          exact congrArg (fun l => (_, st', l)) (hafter.writeOpened_eq hle)
        -- a missing vector has no buffer of another length to refuse
        · rw [mem_missing_option, hs] at hcut
          rw [Option.some.inj hcut] at hbuffer
          cases hbuffer

end Direct

section Agreement

variable {E S σ : Type} [CodecField E] [ReconstructShard E S] {codec : ReedSolomon E}

/-- The inline, packed and heap layouts do the same, and so does decoding vectors in place. -/
theorem leopard_recovery_layouts_agree (hdata : 0 < codec.dataShardCount)
    (decode : SliceDecoder E σ) (required : Nat → Bool) (st : σ) :
    (∀ shardLen (slices : List S), 0 < shardLen →
      reconstructLeopardSmall decode required shardLen st slices =
          reconstructLeopardHeap decode required shardLen st slices ∧
        reconstructLeopardPacked decode required shardLen st slices =
          reconstructLeopardHeap decode required shardLen st slices ∧
        ∀ inlineStaging, codec.reconstructLeopardStaged inlineStaging decode required shardLen st
          slices = reconstructLeopardHeap decode required shardLen st slices) ∧
    ∀ inlineStaging (shards : List (Option (List E))),
      codec.reconstructLeopardOptionDirectWith decode required st shards =
        codec.reconstructLeopardImpl inlineStaging decode required st shards := by
  refine ⟨fun shardLen slices h0 => ?_, fun inlineStaging shards =>
    reconstructLeopardOptionDirectWith_eq hdata inlineStaging decode required st shards⟩
  have hheap := reconstructLeopardHeap_eq decode required h0 st slices
  refine ⟨?_, ?_, fun inlineStaging => ?_⟩
  · rw [hheap, reconstructLeopardSmall_eq decode required h0]
  · rw [hheap, reconstructLeopardPacked_eq]
  · rw [hheap, reconstructLeopardStaged_eq codec inlineStaging decode required h0]

/-- A decoder that fills every buffer with ones. -/
def onesDecoder : SliceDecoder Galois8 Unit where
  run st _ outputs _ := (.ok ⟨⟩, st, outputs.map fun output => List.replicate output.length 1#8)
  length_eq _ _ _ _ := List.length_map _
  row_length _ _ outputs _ i := by
    by_cases hi : i < outputs.length
    · rw [getD_map_of_lt _ _ _ hi []]
      exact List.length_replicate
    · rw [List.getD_eq_default _ _ (by rw [List.length_map]; omega),
        List.getD_eq_default _ _ (by omega)]

/-- Two missing shards, the second with a buffer of the wrong length. -/
def sampleLeopardSlots : List (List Galois8 × Bool) :=
  [(List.replicate 64 0#8, false), (List.replicate 64 2#8, true), (List.replicate 64 7#8, true),
    ([0#8], false)]

theorem leopard_recovery_layouts_agree_sample :
    reconstructLeopardSmall onesDecoder (fun _ => true) 64 () sampleLeopardSlots =
        reconstructLeopardHeap onesDecoder (fun _ => true) 64 () sampleLeopardSlots ∧
      sampleCodec.reconstructLeopardOptionDirectWith onesDecoder (fun _ => true) ()
          (sampleLeopardSlots.map get) =
        sampleCodec.reconstructLeopardImpl true onesDecoder (fun _ => true) ()
          (sampleLeopardSlots.map get) := by
  have hcodec : 0 < sampleCodec.dataShardCount := by decide
  have h := leopard_recovery_layouts_agree (S := List Galois8 × Bool) hcodec onesDecoder
    (fun _ => true) ()
  exact ⟨(h.1 64 sampleLeopardSlots (by decide)).1, h.2 true (sampleLeopardSlots.map get)⟩

variable [LawfulShard S]

/-- Staged in any layout or decoded in place, a recovery publishes what its decoder decoded, in the
order of the shards, and writes nothing before the decoder has succeeded. -/
theorem leopard_recovery_atomic (hdata : 0 < codec.dataShardCount) (inlineStaging : Bool)
    (decode : SliceDecoder E σ) (required : Nat → Bool) (st : σ) :
    (∀ slices : List S, RecoveryEnd codec decode required st slices
      (codec.reconstructLeopardImpl inlineStaging decode required st slices)) ∧
    ∀ shards : List (Option (List E)), RecoveryEnd codec decode required st shards
      (codec.reconstructLeopardOptionDirectWith decode required st shards) := by
  refine ⟨fun slices => reconstructLeopardImpl_end hdata inlineStaging decode required st slices,
    fun shards => ?_⟩
  rw [reconstructLeopardOptionDirectWith_eq hdata inlineStaging]
  exact reconstructLeopardImpl_end hdata inlineStaging decode required st shards

/-- The first of them is recovered before the second refuses. -/
theorem leopard_recovery_atomic_sample :
    RecoveryEnd sampleCodec onesDecoder (fun _ => true) () sampleLeopardSlots
      (.err .incorrectShardSize, (), sampleLeopardSlots.set 0 (List.replicate 64 1#8, true)) := by
  have hrun : sampleCodec.reconstructLeopardImpl true onesDecoder (fun _ => true) ()
      sampleLeopardSlots = (.err .incorrectShardSize, (),
        sampleLeopardSlots.set 0 (List.replicate 64 1#8, true)) := by
    decide +kernel
  rw [← hrun]
  exact (leopard_recovery_atomic (show 0 < sampleCodec.dataShardCount by decide) true onesDecoder
    (fun _ => true) ()).1 sampleLeopardSlots

end Agreement

end ErasureCodec
