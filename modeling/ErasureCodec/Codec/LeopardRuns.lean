import ErasureCodec.Codec.LeopardSystem

namespace ErasureCodec

open CodecField ReconstructShard Leopard

section Entries

variable {lru : LruMap DecodePlanKey (DecodePlan 16 × Nat)} {S : Type} [ReconstructShard Galois8 S]

namespace ReedSolomon

variable (codec : ReedSolomon Galois8)

/-- `encode` of a Leopard codec. -/
def encodeLeopard (env : LeopardEnv) (st : LeopardState lru) (shards : List (List Galois8)) :
    Outcome Error Unit × LeopardState lru × List (List Galois8) :=
  match (do
    checkCount shards.length codec.totalShardCount .tooFewShards .tooManyShards
    checkSlices shards : Outcome Error Unit) with
  | .ok _ =>
    let input := shards.take codec.dataShardCount
    let (result, st, output) :=
      codec.encodeSepLeopard env st input (shards.drop codec.dataShardCount)
    (result, st, input ++ output)
  | .err e => (.err e, st, shards)
  | .panic => (.panic, st, shards)

/-- The recovery entries, by what they recover. -/
def recoverLeopard (goal : ReconstructionGoal) (inlineStaging : Bool) (env : LeopardEnv)
    (st : LeopardState lru) (slices : List S) : Outcome Error Unit × LeopardState lru × List S :=
  match goal with
  | .all => codec.reconstructLeopard inlineStaging env st slices
  | .data => codec.reconstructDataLeopard inlineStaging env st slices
  | .required mask => codec.reconstructSomeLeopard inlineStaging env st slices mask

/-- The recovery entries for vectors. -/
def recoverOptLeopard (goal : ReconstructionGoal) (env : LeopardEnv) (st : LeopardState lru)
    (shards : List (Option (List Galois8))) :
    Outcome Error Unit × LeopardState lru × List (Option (List Galois8)) :=
  match goal with
  | .all => codec.reconstructOptLeopard env st shards
  | .data => codec.reconstructDataOptLeopard env st shards
  | .required mask => codec.reconstructSomeOptLeopard env st shards mask

/-- Every entry checks its mask and recovers what it wants. -/
theorem recoverLeopard_eq (goal : ReconstructionGoal) (inlineStaging : Bool) (env : LeopardEnv)
    (st : LeopardState lru) (slices : List S) :
    codec.recoverLeopard goal inlineStaging env st slices =
      if codec.validMask goal = true then
        codec.reconstructLeopardImpl inlineStaging (codec.leopardDecoder env) (codec.wants goal) st
          slices
      else (.err .invalidShardFlags, st, slices) := by
  cases goal with
  | all => rfl
  | data => rfl
  | required mask =>
    show codec.reconstructSomeLeopard inlineStaging env st slices mask = _
    unfold reconstructSomeLeopard
    by_cases hvalid : codec.validMask (.required mask) = true
    · rw [if_pos hvalid, if_neg]
      · rfl
      · simp only [validMask, Bool.or_eq_true, beq_iff_eq] at hvalid
        omega
    · rw [if_neg hvalid, if_pos]
      simp only [validMask, Bool.or_eq_true, beq_iff_eq] at hvalid
      omega

/-- The entries for vectors do what the staged ones do. -/
theorem recoverOptLeopard_eq (hdata : 0 < codec.dataShardCount) (goal : ReconstructionGoal)
    (inlineStaging : Bool) (env : LeopardEnv) (st : LeopardState lru)
    (shards : List (Option (List Galois8))) :
    codec.recoverOptLeopard goal env st shards =
      codec.recoverLeopard goal inlineStaging env st shards := by
  have heq (required : Nat → Bool) := reconstructLeopardOptionDirectWith_eq hdata inlineStaging
    (codec.leopardDecoder env) required st shards
  rw [recoverLeopard_eq]
  cases goal with
  | all =>
    rw [if_pos (show codec.validMask .all = true from rfl)]
    exact heq _
  | data =>
    rw [if_pos (show codec.validMask .data = true from rfl)]
    exact heq _
  | required mask =>
    show codec.reconstructSomeOptLeopard env st shards mask = _
    unfold reconstructSomeOptLeopard
    by_cases hvalid : codec.validMask (.required mask) = true
    · rw [if_pos hvalid, if_neg]
      · exact heq _
      · simp only [validMask, Bool.or_eq_true, beq_iff_eq] at hvalid
        omega
    · rw [if_neg hvalid, if_pos]
      simp only [validMask, Bool.or_eq_true, beq_iff_eq] at hvalid
      omega

end ReedSolomon

end Entries

section Ends

/-- Counts and lengths are checked without a panic. -/
theorem ReedSolomon.checkEncodeSep_ne_panic {E : Type} (codec : ReedSolomon E)
    (data parity : List (List E)) : codec.checkEncodeSep data parity ≠ .panic := by
  have hcount (count expected : Nat) (few many : Error) :
      (checkCount count expected few many).Sat (fun _ => True) (fun _ => True) False := by
    unfold checkCount
    split_ifs <;> trivial
  have hslices (slices : List (List E)) :
      (checkSlices slices).Sat (fun _ => True) (fun _ => True) False := by
    unfold checkSlices
    simp only
    split_ifs <;> trivial
  have hall : (codec.checkEncodeSep data parity).Sat (fun _ => True) (fun _ => True) False := by
    refine (hcount _ _ _ _).bind fun _ _ => (hcount _ _ _ _).bind fun _ _ =>
      (hslices _).bind fun _ _ => (hslices _).bind fun _ _ => ?_
    unfold checkSameLen
    split_ifs <;> trivial
  intro hpanic
  rwa [hpanic] at hall

variable {lru : LruMap DecodePlanKey (DecodePlan 16 × Nat)} {codec : ReedSolomon Galois8} {S : Type}
  [ReconstructShard Galois8 S] [LawfulShard S] {w k m : Nat} {D : Decoder w}

/-- An encode call is refused and changes nothing, or it writes the parity of the data. Which of
them, and what it writes, is the same on all good caches. -/
theorem LeopardEngine.encode_end (hlru : lru.Ordered) (h : LeopardEngine lru codec D k m)
    (data parity : List (List Galois8)) : ∃ result parity',
      (∀ (env : LeopardEnv) (st : LeopardState lru), st.Ok → ∃ st',
        codec.encodeSepLeopard env st data parity = (result, st', parity') ∧ st'.Ok) ∧
      ((∃ e, result = .err e) ∧ parity' = parity ∨
        result = .ok () ∧ ∃ size, 0 < size ∧ 64 ∣ size ∧ Grid codec.dataShardCount size data ∧
          Grid codec.parityShardCount size parity ∧
          IsParity D.toFamily codec.dataShardCount codec.parityShardCount k size data parity') := by
  have hshape := h.decodable
  cases hcheck : codec.checkEncodeSep data parity with
  | err e =>
    refine ⟨.err e, parity, fun env st hst => ⟨st, ?_, hst⟩, .inl ⟨⟨_, rfl⟩, rfl⟩⟩
    unfold ReedSolomon.encodeSepLeopard
    rw [hcheck]
  | panic => exact absurd hcheck (codec.checkEncodeSep_ne_panic data parity)
  | ok u =>
    obtain ⟨size, h0, hdata, hparity⟩ :=
      (ReedSolomon.checkEncodeSep_ok hshape.data_pos hshape.parity_pos).mp hcheck
    by_cases h64 : 64 ∣ size
    · -- one good state fixes the parity
      obtain ⟨_, parity', -, -, hpar⟩ := h.encode LeopardEnv.alone .new (LeopardState.ok_new hlru)
        h0 h64 hdata hparity
      refine ⟨.ok (), parity', fun env st hst => ?_,
        .inr ⟨rfl, size, h0, h64, hdata, hparity, hpar⟩⟩
      obtain ⟨st', parity'', hrun, hok, hpar'⟩ := h.encode env st hst h0 h64 hdata hparity
      exact ⟨st', by rw [hrun, hpar.unique h64 hpar'], hok⟩
    · exact ⟨.err .incorrectShardSize, parity, fun env st hst =>
        ⟨st, h.unaligned env st h0 h64 hdata hparity, hst⟩, .inl ⟨⟨_, rfl⟩, rfl⟩⟩

omit [LawfulShard S] in
/-- Some shard is there and has the length. -/
theorem LeopardShards.some_mem {slices : List S} {n : Nat} (h : LeopardShards codec n slices)
    (hdata : 0 < codec.dataShardCount) : some n ∈ lengthsOf slices := by
  have hpos : 0 < (presentIndices (lengthsOf slices)).length := Nat.lt_of_lt_of_le hdata h.enough
  obtain ⟨i, hi⟩ := List.exists_mem_of_length_pos hpos
  obtain ⟨hlt, hpresent⟩ := mem_presentIndices.mp hi
  obtain ⟨l, hl⟩ := Option.isSome_iff_exists.mp hpresent
  rw [List.getD_eq_getElem _ _ hlt] at hl
  have hmem : some l ∈ lengthsOf slices := hl ▸ List.getElem_mem hlt
  rwa [h.uniform.2 l hmem] at hmem

/-- The slots of the requested shards, `rows` being the decoded ones. -/
def publishedRows (required : Nat → Bool) (slices : List S) (rows : List (List Galois8)) :
    List (Nat × List Galois8) :=
  ((missingIndices (lengthsOf slices)).filter required).map fun i => (i, rows.getD i [])

/-- A recovery is refused and changes nothing, or it publishes decoded shards up to the first slot
that refuses its buffer. Which of them, and what is decoded, is the same on all good caches. -/
theorem LeopardEngine.recover_end (hlru : lru.Ordered) (h : LeopardEngine lru codec D k m)
    (required : Nat → Bool) (slices : List S)
    (hlimit : ∀ l, some l ∈ lengthsOf slices → l < usizeLimit) : ∃ result after,
      (∀ (inlineStaging : Bool) (env : LeopardEnv) (st : LeopardState lru), st.Ok → ∃ st',
        codec.reconstructLeopardImpl inlineStaging (codec.leopardDecoder env) required st slices =
          (result, st', after) ∧ st'.Ok) ∧
      ((∃ e, result = .err e) ∧ after = slices ∧ (¬∃ n, LeopardShards codec n slices) ∨
        ∃ (size : Nat) (rows : List (List Galois8)) (cut : Nat), LeopardShards codec size slices ∧
          IsDecoded D (presentFlags slices) (inputsOf slices) codec.dataShardCount
            codec.parityShardCount k m size (outputsFor required size slices) rows ∧
          RecoveredBefore required slices after (fun i => rows.getD i []) cut ∧
          (result = .ok () ∧ cut = slices.length ∨
            result = .err .incorrectShardSize ∧ cut ∈ missingIndices (lengthsOf slices) ∧
              required cut = true ∧
              ∃ s x, slices[cut]? = some s ∧ buffer s = some x ∧ x.length ≠ size)) := by
  have hdata := h.decodable.data_pos
  have hvalid := validateLeopardReconstruction_sat codec hdata required slices
  cases hres : codec.validateLeopardReconstruction required slices with
  | panic =>
    rw [hres] at hvalid
    exact hvalid.elim
  | err e =>
    rw [hres] at hvalid
    refine ⟨.err e, slices, fun _ env st hst => ⟨st, ?_, hst⟩, .inl ⟨⟨_, rfl⟩, rfl, hvalid⟩⟩
    unfold ReedSolomon.reconstructLeopardImpl
    rw [hres]
  | ok found =>
    rw [hres] at hvalid
    have hlt {n : Nat} (hshards : LeopardShards codec n slices) : n < usizeLimit :=
      hlimit n (hshards.some_mem hdata)
    cases found with
    | none =>
      obtain ⟨⟨n, hshards⟩, hnone⟩ := hvalid
      obtain ⟨_, rows, -, -, hdec⟩ := h.decodeCall_spec hshards (hlt hshards) required
        LeopardEnv.alone (LeopardState.ok_new hlru)
      refine ⟨.ok (), slices, fun _ env st hst => ⟨st, ?_, hst⟩,
        .inr ⟨n, rows, slices.length, hshards, hdec, ⟨fun i hi hreq => ?_, fun _ _ => rfl⟩,
          .inl ⟨rfl, rfl⟩⟩⟩
      · unfold ReedSolomon.reconstructLeopardImpl
        rw [hres]
      · rw [hnone i hi] at hreq
        cases hreq
    | some n =>
      obtain ⟨hshards, -⟩ : LeopardShards codec n slices ∧ _ := hvalid
      obtain ⟨_, rows, hrow, -, hdec⟩ := h.decodeCall_spec hshards (hlt hshards) required
        LeopardEnv.alone (LeopardState.ok_new hlru)
      obtain ⟨cut, after, hafter, hpub⟩ := publish_requested required n slices (fun i => rows.getD i []) (fun i hi hreq => by
          have hlen := length_decodeCall n (codec.leopardDecoder LeopardEnv.alone)
            (LeopardState.new : LeopardState lru) slices hi hreq
          rwa [hrow] at hlen)
      have hrun (inlineStaging : Bool) (env : LeopardEnv) (st : LeopardState lru) (hst : st.Ok) :
          ∃ st', codec.reconstructLeopardImpl inlineStaging (codec.leopardDecoder env) required st
            slices = ((publish n (publishedRows required slices rows) slices).1, st',
              (publish n (publishedRows required slices rows) slices).2) ∧ st'.Ok := by
        obtain ⟨st', rows', hcall, hok, hdec'⟩ := h.decodeCall_spec hshards (hlt hshards) required env
          hst
        have hin := hshards.decodeInput required
        obtain rfl := hdec.unique hin.size_dvd hin.outputs hdec'
        refine ⟨st', ?_, hok⟩
        unfold ReedSolomon.reconstructLeopardImpl
        rw [hres]
        simp only
        rw [reconstructLeopardStaged_eq codec inlineStaging _ required hshards.uniform.1,
          hshards.decodeAndPublish_eq, hcall]
        rfl
      rcases hpub with ⟨hpub, hle⟩ | ⟨hpub, hcut, hreq, s, x, hs, hbuffer, hx⟩
      · refine ⟨.ok (), after, fun inlineStaging env st hst => ?_,
          .inr ⟨n, rows, slices.length, hshards, hdec, hafter.mono hle, .inl ⟨rfl, rfl⟩⟩⟩
        obtain ⟨st', heq, hok⟩ := hrun inlineStaging env st hst
        refine ⟨st', heq.trans ?_, hok⟩
        exact congrArg (fun p => (p.1, st', p.2)) hpub
      · refine ⟨.err .incorrectShardSize, after, fun inlineStaging env st hst => ?_,
          .inr ⟨n, rows, cut, hshards, hdec, hafter, .inr ⟨rfl, hcut, hreq, s, x, hs, hbuffer, hx⟩⟩⟩
        obtain ⟨st', heq, hok⟩ := hrun inlineStaging env st hst
        refine ⟨st', heq.trans ?_, hok⟩
        exact congrArg (fun p => (p.1, st', p.2)) hpub

end Ends

section Sample

/-- A Leopard codec of three data and two parity shards. -/
def sampleLeopard (family : CodecFamily) : ReedSolomon Galois8 where
  format := ⟨3, 2, family, CodingMatrix.new 0 0⟩
  options := CodecOptions.toExecution { codecFamily := family } 3 2

theorem sampleLeopard_isLeopard {family : CodecFamily} (h : family ≠ .classic) :
    (sampleLeopard family).IsLeopard := by
  have hpow : Nat.nextPowerOfTwo 2 = 2 := nextPowerOfTwo_eq (k := 1) (by decide) (by decide)
  have hvalid : validateLeopardFamily Galois8 family 3 2 = .ok () := by
    unfold validateLeopardFamily leopardShardComboFits
    rw [hpow]
    cases family <;> rfl
  have hnew : ReedSolomon.withOptions 3 2 { codecFamily := family } =
      (validateLeopardFamily Galois8 family 3 2 >>= fun _ => .ok (sampleLeopard family)) := by
    cases family with
    | classic => exact absurd rfl h
    | leopardGF8 => rfl
    | leopardGF16 => rfl
  rw [hvalid] at hnew
  exact ⟨h, 3, 2, { codecFamily := family }, hnew⟩

/-- Three shards of one block. -/
def sampleLeopardData : List (List Galois8) :=
  [List.replicate 64 1#8, List.replicate 64 2#8, List.replicate 64 7#8]

def sampleLeopardParity : List (List Galois8) := List.replicate 2 (List.replicate 64 0#8)

end Sample

section Runs

variable {lru : LruMap DecodePlanKey (DecodePlan 16 × Nat)} {codec : ReedSolomon Galois8} {S : Type}
  [ReconstructShard Galois8 S] [LawfulShard S]

/-- The states of a process that makes Leopard calls, each in surroundings of its own. -/
inductive LeopardReachable (lru : LruMap DecodePlanKey (DecodePlan 16 × Nat)) :
    LeopardState lru → Prop
  | new : LeopardReachable lru .new
  | encode (codec : ReedSolomon Galois8) (hcodec : codec.IsLeopard) (env : LeopardEnv)
      (data parity : List (List Galois8)) {st : LeopardState lru} (h : LeopardReachable lru st) :
      LeopardReachable lru (codec.encodeSepLeopard env st data parity).2.1
  | recover (codec : ReedSolomon Galois8) (hcodec : codec.IsLeopard) (goal : ReconstructionGoal)
      (inlineStaging : Bool) (env : LeopardEnv) {S : Type} [ReconstructShard Galois8 S]
      [LawfulShard S] (slices : List S) (hlimit : ∀ l, some l ∈ lengthsOf slices → l < usizeLimit)
      {st : LeopardState lru} (h : LeopardReachable lru st) :
      LeopardReachable lru (codec.recoverLeopard goal inlineStaging env st slices).2.1
  | recoverOpt (codec : ReedSolomon Galois8) (hcodec : codec.IsLeopard) (goal : ReconstructionGoal)
      (env : LeopardEnv) (shards : List (Option (List Galois8)))
      (hlimit : ∀ l, some l ∈ lengthsOf shards → l < usizeLimit) {st : LeopardState lru}
      (h : LeopardReachable lru st) :
      LeopardReachable lru (codec.recoverOptLeopard goal env st shards).2.1

/-- A recovery entry on good caches, by its goal. -/
theorem ReedSolomon.IsLeopard.recover_ok (hlru : lru.Ordered) (hcodec : codec.IsLeopard)
    (goal : ReconstructionGoal) {slices : List S}
    (hlimit : ∀ l, some l ∈ lengthsOf slices → l < usizeLimit) (inlineStaging : Bool)
    (env : LeopardEnv) {st : LeopardState lru} (hst : st.Ok) :
    (codec.recoverLeopard goal inlineStaging env st slices).2.1.Ok := by
  obtain ⟨w, D, k, m, h⟩ := hcodec.engine hlru
  obtain ⟨_, _, hall, -⟩ := h.recover_end hlru (codec.wants goal) slices hlimit
  obtain ⟨st', hrun, hok⟩ := hall inlineStaging env st hst
  rw [codec.recoverLeopard_eq]
  split_ifs
  · rw [hrun]
    exact hok
  · exact hst

/-- The caches are good in every run. -/
theorem LeopardReachable.ok (hlru : lru.Ordered) {st : LeopardState lru}
    (h : LeopardReachable lru st) : st.Ok := by
  induction h with
  | new => exact LeopardState.ok_new hlru
  | @encode codec hcodec env data parity st _ ih =>
    obtain ⟨w, D, k, m, h⟩ := hcodec.engine hlru
    obtain ⟨_, _, hall, -⟩ := h.encode_end hlru data parity
    obtain ⟨st', hrun, hok⟩ := hall env st ih
    rw [hrun]
    exact hok
  | recover codec hcodec goal inlineStaging env slices hlimit _ ih =>
    exact hcodec.recover_ok hlru goal hlimit inlineStaging env ih
  | @recoverOpt codec hcodec goal env shards hlimit st _ ih =>
    obtain ⟨w, D, k, m, h⟩ := hcodec.engine hlru
    rw [codec.recoverOptLeopard_eq h.decodable.data_pos goal true]
    exact hcodec.recover_ok hlru goal hlimit true env ih

/-- No Leopard call panics, and what it returns and writes depends neither on the calls before it,
its own and those of other codecs and threads, nor on its surroundings or its staging buffers. -/
theorem leopard_calls_ignore_history (hlru : lru.Ordered) (hcodec : codec.IsLeopard)
    {st st' : LeopardState lru} (hst : LeopardReachable lru st) (hst' : LeopardReachable lru st')
    (env env' : LeopardEnv) :
    (∀ data parity, (codec.encodeSepLeopard env st data parity).1 ≠ .panic ∧
      (codec.encodeSepLeopard env' st' data parity).1 =
        (codec.encodeSepLeopard env st data parity).1 ∧
      (codec.encodeSepLeopard env' st' data parity).2.2 =
        (codec.encodeSepLeopard env st data parity).2.2) ∧
    ∀ (goal : ReconstructionGoal) (slices : List S) (inlineStaging inlineStaging' : Bool),
      (∀ l, some l ∈ lengthsOf slices → l < usizeLimit) →
      (codec.recoverLeopard goal inlineStaging env st slices).1 ≠ .panic ∧
      (codec.recoverLeopard goal inlineStaging' env' st' slices).1 =
        (codec.recoverLeopard goal inlineStaging env st slices).1 ∧
      (codec.recoverLeopard goal inlineStaging' env' st' slices).2.2 =
        (codec.recoverLeopard goal inlineStaging env st slices).2.2 := by
  obtain ⟨w, D, k, m, h⟩ := hcodec.engine hlru
  refine ⟨fun data parity => ?_, fun goal slices inlineStaging inlineStaging' hlimit => ?_⟩
  · obtain ⟨result, parity', hall, hend⟩ := h.encode_end hlru data parity
    obtain ⟨_, hrun, -⟩ := hall env st (hst.ok hlru)
    obtain ⟨_, hrun', -⟩ := hall env' st' (hst'.ok hlru)
    rw [hrun, hrun']
    refine ⟨?_, rfl, rfl⟩
    rcases hend with ⟨⟨e, rfl⟩, -⟩ | ⟨rfl, -⟩ <;> nofun
  · rw [codec.recoverLeopard_eq, codec.recoverLeopard_eq]
    split_ifs
    · obtain ⟨result, after, hall, hend⟩ := h.recover_end hlru (codec.wants goal) slices hlimit
      obtain ⟨_, hrun, -⟩ := hall inlineStaging env st (hst.ok hlru)
      obtain ⟨_, hrun', -⟩ := hall inlineStaging' env' st' (hst'.ok hlru)
      rw [hrun, hrun']
      refine ⟨?_, rfl, rfl⟩
      rcases hend with ⟨⟨e, rfl⟩, -⟩ | ⟨_, _, _, -, -, -, ⟨rfl, -⟩ | ⟨rfl, -⟩⟩ <;> nofun
    · exact ⟨nofun, rfl, rfl⟩

/-- A GF16 recovery returns after a GF8 encoding what it returns in a new process. -/
theorem leopard_calls_ignore_history_sample :
    ((sampleLeopard .leopardGF16).recoverLeopard .all false LeopardEnv.alone
      ((sampleLeopard .leopardGF8).encodeSepLeopard LeopardEnv.alone
        (LeopardState.new : LeopardState (listLru DecodePlanKey (DecodePlan 16 × Nat)))
        sampleLeopardData sampleLeopardParity).2.1
      (erase {0} (sampleLeopardData ++ sampleLeopardParity))).2.2 =
    ((sampleLeopard .leopardGF16).recoverLeopard .all true LeopardEnv.alone
      (LeopardState.new : LeopardState (listLru DecodePlanKey (DecodePlan 16 × Nat)))
      (erase {0} (sampleLeopardData ++ sampleLeopardParity))).2.2 := by
  have hreach := LeopardReachable.encode (sampleLeopard .leopardGF8)
    (sampleLeopard_isLeopard (by decide)) LeopardEnv.alone sampleLeopardData sampleLeopardParity
    (.new : LeopardReachable (listLru DecodePlanKey (DecodePlan 16 × Nat)) _)
  have huniform : Uniform 64 (lengthsOf (erase {0} (sampleLeopardData ++ sampleLeopardParity))) :=
    uniform_erase (by decide) (n := 5) ⟨by decide, by decide⟩
  have h := (leopard_calls_ignore_history (S := Option (List Galois8)) LruMap.listLru_ordered
    (sampleLeopard_isLeopard (show CodecFamily.leopardGF16 ≠ _ by decide)) .new hreach
    LeopardEnv.alone LeopardEnv.alone).2 .all (erase {0} (sampleLeopardData ++ sampleLeopardParity))
    true false (fun l hl => by rw [huniform.2 l hl]; decide)
  exact h.2.2

end Runs

section RoundTrip

variable {lru : LruMap DecodePlanKey (DecodePlan 16 × Nat)} {codec : ReedSolomon Galois8}
  {w k m size : Nat} {D : Decoder w}

/-- Enough shards are left when at most as many are lost as there are parity shards. -/
theorem leopardShards_erase (h0 : 0 < size) (h64 : 64 ∣ size) {encoded : List (List Galois8)}
    (hgrid : Grid codec.totalShardCount size encoded) {erased : Finset Nat}
    (hcard : erased.card ≤ codec.parityShardCount) :
    LeopardShards codec size (erase erased encoded) where
  length_eq := (length_erase erased encoded).trans hgrid.length_eq
  enough := by
    have hcount := length_present_erase erased encoded
    have htotal := codec.totalShardCount_eq
    rw [hgrid.length_eq] at hcount
    omega
  uniform := uniform_erase h0 hgrid
  aligned := h64

/-- Vectors with enough of them left are recovered: every requested one is decoded. -/
theorem LeopardEngine.recover_options (hlru : lru.Ordered) (h : LeopardEngine lru codec D k m)
    {shards : List (Option (List Galois8))} (hshards : LeopardShards codec size shards)
    (hsize : size < usizeLimit) (required : Nat → Bool) : ∃ rows : List (List Galois8),
      IsDecoded D (presentFlags shards) (inputsOf shards) codec.dataShardCount
        codec.parityShardCount k m size (outputsFor required size shards) rows ∧
      ∀ (inlineStaging : Bool) (env : LeopardEnv) (st : LeopardState lru), st.Ok → ∃ st',
        codec.reconstructLeopardImpl inlineStaging (codec.leopardDecoder env) required st shards =
          (.ok (), st', shards.mapIdx fun i shard =>
            if shard.isNone && required i then some (rows.getD i []) else shard) := by
  obtain ⟨result, after, hall, hend⟩ := h.recover_end hlru required shards
    (fun l hl => by rwa [hshards.uniform.2 l hl])
  rcases hend with ⟨-, -, hbad⟩ | ⟨size', rows, cut, hshards', hdec, hafter, hcut⟩
  · exact absurd ⟨size, hshards⟩ hbad
  obtain rfl : size' = size :=
    hshards.uniform.2 size' (hshards'.some_mem h.decodable.data_pos)
  -- a vector that is not there refuses no length
  have hcut : result = .ok () ∧ cut = shards.length := by
    rcases hcut with hcut | ⟨-, hm, -, s, x, hs, hbuffer, -⟩
    · exact hcut
    · rw [mem_missing_option.mp hm] at hs
      obtain rfl := Option.some.inj hs
      cases hbuffer
  obtain ⟨rfl, rfl⟩ := hcut
  refine ⟨rows, hdec, fun inlineStaging env st hst => ?_⟩
  obtain ⟨st', hrun, -⟩ := hall inlineStaging env st hst
  refine ⟨st', hrun.trans ?_⟩
  congr 2
  apply List.ext_getElem?
  intro i
  rw [List.getElem?_mapIdx]
  have hkept (hkeep : shards[i]? = some none → required i = false) :
      after[i]? = shards[i]? := by
    apply hafter.untouched i
    intro hm hreq
    rw [hkeep (mem_missing_option.mp hm)] at hreq
    cases hreq
  cases hs : shards[i]? with
  | none =>
    rw [hkept (by rw [hs]; nofun), hs]
    rfl
  | some shard =>
    cases shard with
    | some data =>
      rw [hkept (by rw [hs]; nofun), hs]
      rfl
    | none =>
      cases hreq : required i with
      | false =>
        rw [hkept fun _ => hreq, hs]
        simp
      | true =>
        obtain ⟨s, hs', hget⟩ := hafter.recovered i (mem_missing_option.mpr hs) hreq
          (List.getElem?_eq_some_iff.mp hs).1
        have hget : s = some (rows.getD i []) := hget
        rw [hs', hget]
        simp

/-- The shards of a code word that a goal does not want stay lost, and all others come back. -/
theorem LeopardEngine.recover_erase (hlru : lru.Ordered) (h : LeopardEngine lru codec D k m)
    (h0 : 0 < size) (h64 : 64 ∣ size) (hsize : size < usizeLimit) {data parity : List (List Galois8)}
    (hdata : Grid codec.dataShardCount size data)
    (hparity : IsParity D.toFamily codec.dataShardCount codec.parityShardCount k size data parity)
    {encoded : List (List Galois8)} (hencoded : encoded = data ++ parity) {erased : Finset Nat}
    (hcard : erased.card ≤ codec.parityShardCount) (required : Nat → Bool) (inlineStaging : Bool)
    (env : LeopardEnv) {st : LeopardState lru} (hst : st.Ok) :
    ∃ st', codec.reconstructLeopardImpl inlineStaging (codec.leopardDecoder env) required st
      (erase erased encoded) =
        (.ok (), st', erase (erased.filter fun i => required i = false) encoded) := by
  have hgrid : Grid codec.totalShardCount size encoded := by
    rw [hencoded]
    exact hdata.append hparity.grid
  have hshards := leopardShards_erase h0 h64 hgrid hcard
  obtain ⟨rows, hdec, hall⟩ := h.recover_options hlru hshards hsize required
  obtain ⟨st', hrun⟩ := hall inlineStaging env st hst
  have hin := hshards.decodeInput required
  have hinputs {j : Nat} (hj : j < codec.totalShardCount)
      (hp : (presentFlags (erase erased encoded)).getD j false = true) :
      (inputsOf (erase erased encoded)).getD j none = some (encoded.getD j []) := by
    have hj' : j < encoded.length := by rwa [hgrid.length_eq]
    rw [getD_presentFlags, getD_lengthsOf_erase hj'] at hp
    refine (getD_inputsOf (getElem?_erase hj')).trans ?_
    split_ifs at hp ⊢
    · cases hp
    · rfl
  have hrestores {i : Nat} (hi : i < encoded.length) (hmem : i ∈ erased)
      (hreq : required i = true) : rows.getD i [] = encoded.getD i [] := by
    have hi' := hi
    rw [hgrid.length_eq] at hi'
    have hword : rows.getD i [] = (data ++ parity).getD i [] :=
      hdec.restores h.decodable h64 hdata hparity (fun j hj hp => (hinputs hj hp).trans
        (congrArg (fun l => some (l.getD j [])) hencoded)) hin.missing_le hin.outputs hi'
        ((requested_outputsFor h0 i).mpr ⟨mem_missing_erase.mpr ⟨hi, hmem⟩, hreq⟩)
    rw [hword, hencoded]
  refine ⟨st', hrun.trans ?_⟩
  congr 2
  apply List.ext_getElem?
  intro i
  rw [List.getElem?_mapIdx]
  rcases Nat.lt_or_ge i encoded.length with hi | hi
  · rw [getElem?_erase hi, getElem?_erase hi, Option.map_some]
    congr 1
    by_cases hmem : i ∈ erased
    · cases hreq : required i with
      | true =>
        rw [hrestores hi hmem hreq]
        simp [hmem, hreq]
      | false => simp [hmem, hreq]
    · simp [hmem]
  · rw [List.getElem?_eq_none (by rwa [length_erase]), List.getElem?_eq_none (by rwa [length_erase])]
    rfl

/-- Encoding, losing at most as many shards as there are parity shards and recovering gives the
shards back that the goal wants. The two calls can be made in two processes, on any threads, after
any other calls. -/
theorem leopard_round_trip (hlru : lru.Ordered) (hcodec : codec.IsLeopard) (h0 : 0 < size)
    (h64 : 64 ∣ size) (hsize : size < usizeLimit) {data parity : List (List Galois8)}
    (hdata : Grid codec.dataShardCount size data) (hparity : Grid codec.parityShardCount size parity)
    {st st' : LeopardState lru} (hst : LeopardReachable lru st) (hst' : LeopardReachable lru st')
    (env env' : LeopardEnv) {goal : ReconstructionGoal} (hmask : codec.validMask goal = true)
    {erased : Finset Nat} (hcard : erased.card ≤ codec.parityShardCount) (inlineStaging : Bool) :
    ∃ encoded st₁ st₂,
      codec.encodeLeopard env st (data ++ parity) = (.ok (), st₁, encoded) ∧
      encoded.take codec.dataShardCount = data ∧
      codec.recoverLeopard goal inlineStaging env' st' (erase erased encoded) =
        (.ok (), st₂, erase (erased.filter fun i => codec.wants goal i = false) encoded) ∧
      codec.recoverOptLeopard goal env' st' (erase erased encoded) =
        (.ok (), st₂, erase (erased.filter fun i => codec.wants goal i = false) encoded) := by
  obtain ⟨w, D, k, m, h⟩ := hcodec.engine hlru
  have hshape := h.decodable
  obtain ⟨st₁, parity', hencode, -, hpar⟩ := h.encode env st (hst.ok hlru) h0 h64 hdata hparity
  obtain ⟨encoded, hencoded⟩ : ∃ encoded : List (List Galois8), encoded = data ++ parity' := ⟨_, rfl⟩
  obtain ⟨st₂, hrecover⟩ := h.recover_erase hlru h0 h64 hsize hdata hpar hencoded hcard
    (codec.wants goal) inlineStaging env' (hst'.ok hlru)
  have hgoal : codec.recoverLeopard goal inlineStaging env' st' (erase erased encoded) =
      (.ok (), st₂, erase (erased.filter fun i => codec.wants goal i = false) encoded) := by
    rw [codec.recoverLeopard_eq, if_pos hmask, hrecover]
  refine ⟨encoded, st₁, st₂, ?_, ?_, hgoal, ?_⟩
  · have hgrid : Grid codec.totalShardCount size (data ++ parity) := hdata.append hparity
    have hne : data ++ parity ≠ [] := by
      apply List.ne_nil_of_length_pos
      rw [hgrid.length_eq]
      have := hshape.data_pos
      have := codec.totalShardCount_eq
      omega
    unfold ReedSolomon.encodeLeopard
    rw [checkCount_ok.mpr hgrid.length_eq, Outcome.ok_bind,
      (checkSlices_ok hne).mpr ⟨size, h0, fun s hs => hgrid.forall hs⟩]
    simp only
    rw [List.take_left' hdata.length_eq, List.drop_left' hdata.length_eq, hencode, hencoded]
  · rw [hencoded]
    exact List.take_left' hdata.length_eq
  · rw [codec.recoverOptLeopard_eq hshape.data_pos goal inlineStaging]
    exact hgoal

/-- A data shard comes back that was lost with a parity shard. -/
theorem leopard_round_trip_sample : ∃ encoded st₁ st₂,
    (sampleLeopard .leopardGF8).encodeLeopard LeopardEnv.alone
        (LeopardState.new : LeopardState (listLru DecodePlanKey (DecodePlan 16 × Nat)))
        (sampleLeopardData ++ sampleLeopardParity) = (.ok (), st₁, encoded) ∧
      encoded.take 3 = sampleLeopardData ∧
      (sampleLeopard .leopardGF8).recoverLeopard .data true LeopardEnv.alone
        (LeopardState.new : LeopardState (listLru DecodePlanKey (DecodePlan 16 × Nat)))
        (erase {0, 4} encoded) = (.ok (), st₂, erase {4} encoded) := by
  have hdata : Grid 3 64 sampleLeopardData := ⟨by decide, by decide⟩
  have hparity : Grid 2 64 sampleLeopardParity := ⟨by decide, by decide⟩
  have hcodec := sampleLeopard_isLeopard (show CodecFamily.leopardGF8 ≠ _ by decide)
  have hmask : (sampleLeopard .leopardGF8).validMask .data = true := rfl
  have hcard : ({0, 4} : Finset Nat).card ≤ (sampleLeopard .leopardGF8).parityShardCount := by decide
  obtain ⟨encoded, st₁, st₂, hencode, htake, hrecover, -⟩ := leopard_round_trip
    LruMap.listLru_ordered hcodec (by decide) dvd_rfl (by decide) hdata hparity .new .new
    LeopardEnv.alone LeopardEnv.alone hmask hcard true
  exact ⟨encoded, st₁, st₂, hencode, htake, hrecover⟩

end RoundTrip

section Blocks

variable {lru : LruMap DecodePlanKey (DecodePlan 16 × Nat)} {codec : ReedSolomon Galois8}
  {w k m size b : Nat} {D : Decoder w}

/-- The `b`-th blocks of the shards that are there. -/
def blocksOf (b : Nat) (shards : List (Option (List Galois8))) : List (Option (List Galois8)) :=
  shards.map (Option.map (block b))

theorem getElem?_blocksOf (shards : List (Option (List Galois8))) (i : Nat) :
    (blocksOf b shards)[i]? = shards[i]?.map (Option.map (block b)) := List.getElem?_map

theorem missing_blocksOf (shards : List (Option (List Galois8))) :
    missingIndices (lengthsOf (blocksOf b shards)) = missingIndices (lengthsOf shards) := by
  refine (ascending_missingIndices _).eq_of_mem_iff (ascending_missingIndices _) fun i => ?_
  rw [mem_missing_option, mem_missing_option, getElem?_blocksOf]
  cases shards[i]? with
  | none => simp
  | some shard => cases shard <;> simp

theorem presentFlags_blocksOf (shards : List (Option (List Galois8))) :
    presentFlags (blocksOf b shards) = presentFlags shards := by
  unfold presentFlags blocksOf
  rw [List.map_map]
  apply List.map_congr_left
  intro shard _
  cases shard <;> rfl

theorem inputsOf_options (shards : List (Option (List Galois8))) : inputsOf shards = shards :=
  List.map_id _

theorem inputsOf_blocksOf (shards : List (Option (List Galois8))) :
    inputsOf (blocksOf b shards) = (inputsOf shards).map (Option.map (block b)) :=
  (inputsOf_options _).trans
    (congrArg (fun l => l.map (Option.map (block b))) (inputsOf_options shards).symm)

theorem block_replicate {α : Type} {b size : Nat} (hb : 64 * (b + 1) ≤ size) (a : α) :
    block b (List.replicate size a) = List.replicate 64 a := by
  unfold block slice
  rw [List.drop_replicate, List.take_replicate]
  congr 1
  omega

theorem outputsFor_blocksOf (hb : 64 * (b + 1) ≤ size) (required : Nat → Bool)
    (shards : List (Option (List Galois8))) :
    outputsFor required 64 (blocksOf b shards) =
      (outputsFor required size shards).map (block b) := by
  have hlen : (blocksOf b shards).length = shards.length := List.length_map _
  apply getD_ext [] (by rw [length_outputsFor, List.length_map, length_outputsFor, hlen])
  intro i hi
  rw [length_outputsFor, hlen] at hi
  have hnone : (lengthsOf (blocksOf b shards)).getD i none = none ↔
      (lengthsOf shards).getD i none = none := by
    have h1 : i ∈ missingIndices (lengthsOf (blocksOf b shards)) ↔ _ := mem_missingIndices
    have h2 : i ∈ missingIndices (lengthsOf shards) ↔ _ := mem_missingIndices
    rw [missing_blocksOf, h2, length_lengthsOf, length_lengthsOf, hlen] at h1
    tauto
  rw [getD_map_block, getD_outputsFor (by rwa [hlen]), getD_outputsFor hi]
  simp only [hnone]
  split_ifs
  · exact (block_replicate hb _).symm
  · exact (block_nil b).symm

theorem LeopardShards.blocksOf {shards : List (Option (List Galois8))}
    (h : LeopardShards codec size shards) (hb : 64 * (b + 1) ≤ size) :
    LeopardShards codec 64 (blocksOf b shards) where
  length_eq := (List.length_map _).trans h.length_eq
  enough := by
    have hcount := count_presentFlags (S := Option (List Galois8)) (ErasureCodec.blocksOf b shards)
    rw [presentFlags_blocksOf, count_presentFlags] at hcount
    rw [← hcount]
    exact h.enough
  uniform := by
    refine ⟨by decide, fun l hl => ?_⟩
    obtain ⟨block, hblock, hlen⟩ := List.mem_map.mp hl
    obtain ⟨shard, hshard, rfl⟩ := List.mem_map.mp hblock
    cases shard with
    | none => cases hlen
    | some data =>
      have hsize : data.length = size := h.uniform.2 _ (List.mem_map.mpr ⟨some data, hshard, rfl⟩)
      obtain rfl := Option.some.inj hlen
      exact length_block (by rwa [hsize])
  aligned := dvd_rfl

/-- The decoded blocks are the blocks of the decoded shards. -/
theorem LeopardEngine.recover_blocks (hlru : lru.Ordered) (h : LeopardEngine lru codec D k m)
    {shards : List (Option (List Galois8))} (hshards : LeopardShards codec size shards)
    (hsize : size < usizeLimit) (hb : 64 * (b + 1) ≤ size) (required : Nat → Bool) :
    ∃ after : List (Option (List Galois8)),
      ∀ (inlineStaging : Bool) (env : LeopardEnv) (st : LeopardState lru), st.Ok →
        (∃ st', codec.reconstructLeopardImpl inlineStaging (codec.leopardDecoder env) required st
          shards = (.ok (), st', after)) ∧
        ∃ st', codec.reconstructLeopardImpl inlineStaging (codec.leopardDecoder env) required st
          (blocksOf b shards) = (.ok (), st', blocksOf b after) := by
  have hblocks := hshards.blocksOf hb
  obtain ⟨rows, hdec, hall⟩ := h.recover_options hlru hshards hsize required
  obtain ⟨rows', hdec', hall'⟩ := h.recover_options hlru hblocks (by decide) required
  have hin := hshards.decodeInput required
  have hin' := hblocks.decodeInput required
  have hcut := hdec.block hin.size_dvd hin.received hin.outputs hb
  rw [← outputsFor_blocksOf hb, ← inputsOf_blocksOf, ← presentFlags_blocksOf (b := b)] at hcut
  have hrows : rows' = rows.map (block b) := hdec'.unique dvd_rfl hin'.outputs hcut
  refine ⟨_, fun inlineStaging env st hst => ⟨hall inlineStaging env st hst, ?_⟩⟩
  obtain ⟨st', hrun⟩ := hall' inlineStaging env st hst
  refine ⟨st', hrun.trans ?_⟩
  congr 2
  apply List.ext_getElem?
  intro i
  rw [getElem?_blocksOf, List.getElem?_mapIdx, List.getElem?_mapIdx, getElem?_blocksOf]
  cases shards[i]? with
  | none => rfl
  | some shard =>
    cases shard with
    | some data => simp
    | none =>
      cases required i with
      | false => simp
      | true =>
        have hrow : rows'.getD i [] = block b (rows.getD i []) := by
          rw [hrows]
          exact getD_map_block b rows i
        simp only [Option.map_some, Option.map_none, Option.isNone_none, Bool.true_and, if_true,
          hrow]

/-- Each block of 64 bytes is encoded and recovered on its own: encoding the blocks gives the
blocks of the parity, and recovering them those of the recovered shards, in any two processes. -/
theorem leopard_blocks_independent (hlru : lru.Ordered) (hcodec : codec.IsLeopard)
    (hsize : size < usizeLimit) (hb : 64 * (b + 1) ≤ size) {st st' : LeopardState lru}
    (hst : LeopardReachable lru st) (hst' : LeopardReachable lru st') (env env' : LeopardEnv) :
    (∀ data parity parity' blockParity st₁, Grid codec.dataShardCount size data →
      codec.encodeSepLeopard env st data parity = (.ok (), st₁, parity') →
      Grid codec.parityShardCount 64 blockParity →
      ∃ st₂, codec.encodeSepLeopard env' st' (data.map (block b)) blockParity =
        (.ok (), st₂, parity'.map (block b))) ∧
    ∀ (goal : ReconstructionGoal) (inlineStaging inlineStaging' : Bool)
      (shards after : List (Option (List Galois8))) (st₁ : LeopardState lru),
      Uniform size (lengthsOf shards) →
      codec.recoverLeopard goal inlineStaging env st shards = (.ok (), st₁, after) →
      ∃ st₂, codec.recoverLeopard goal inlineStaging' env' st' (blocksOf b shards) =
        (.ok (), st₂, blocksOf b after) := by
  obtain ⟨w, D, k, m, h⟩ := hcodec.engine hlru
  have hshape := h.decodable
  refine ⟨fun data parity parity' blockParity st₁ hdata hrun hblock => ?_,
    fun goal inlineStaging inlineStaging' shards after st₁ huniform hrun => ?_⟩
  · obtain ⟨result, written, hall, hend⟩ := h.encode_end hlru data parity
    obtain ⟨st₂, hrun', -⟩ := hall env st (hst.ok hlru)
    rw [hrun] at hrun'
    obtain ⟨rfl, -, rfl⟩ : .ok () = result ∧ st₁ = st₂ ∧ parity' = written := by simpa using hrun'
    rcases hend with ⟨⟨e, hbad⟩, -⟩ | ⟨-, size', h0, h64, hdata', -, hpar⟩
    · cases hbad
    obtain rfl : size' = size := by
      rw [← hdata.row_length 0 hshape.data_pos, ← hdata'.row_length 0 hshape.data_pos]
    have hblocks : Grid codec.dataShardCount 64 (data.map (block b)) := grid_block hdata hb
    obtain ⟨st₃, written, hrun₃, -, hpar'⟩ := h.encode env' st' (hst'.ok hlru)
      (show 0 < 64 by decide) dvd_rfl hblocks hblock
    refine ⟨st₃, hrun₃.trans ?_⟩
    congr 2
    exact hpar'.unique dvd_rfl (hpar.block h64 hdata hb)
  · rw [codec.recoverLeopard_eq] at hrun ⊢
    split_ifs at hrun ⊢ with hmask
    · obtain ⟨result, written, hall, hend⟩ := h.recover_end hlru (codec.wants goal)
        shards (fun l hl => by rwa [huniform.2 l hl])
      obtain ⟨st₂, hrun', -⟩ := hall inlineStaging env st (hst.ok hlru)
      rw [hrun] at hrun'
      obtain ⟨rfl, -, rfl⟩ : .ok () = result ∧ st₁ = st₂ ∧ after = written := by simpa using hrun'
      rcases hend with ⟨⟨e, hbad⟩, -⟩ | ⟨size', -, -, hshards, -⟩
      · cases hbad
      obtain rfl : size' = size := huniform.2 size' (hshards.some_mem hshape.data_pos)
      obtain ⟨after', hboth⟩ := h.recover_blocks hlru hshards hsize hb (codec.wants goal)
      obtain ⟨⟨st₃, hrun₃⟩, -⟩ := hboth inlineStaging env st (hst.ok hlru)
      obtain ⟨-, st₄, hrun₄⟩ := hboth inlineStaging' env' st' (hst'.ok hlru)
      rw [hrun] at hrun₃
      obtain ⟨-, rfl⟩ : st₁ = st₃ ∧ after = after' := by simpa using hrun₃
      exact ⟨st₄, hrun₄⟩
    · cases hrun

/-- The second blocks of the parity of shards of two blocks are the parity of the second blocks. -/
theorem leopard_blocks_independent_sample : ∃ parity st₁ st₂,
    (sampleLeopard .leopardGF16).encodeSepLeopard LeopardEnv.alone
        (LeopardState.new : LeopardState (listLru DecodePlanKey (DecodePlan 16 × Nat)))
        (List.replicate 3 (List.replicate 64 1#8 ++ List.replicate 64 7#8))
        (List.replicate 2 (List.replicate 128 0#8)) = (.ok (), st₁, parity) ∧
      (sampleLeopard .leopardGF16).encodeSepLeopard LeopardEnv.alone
        (LeopardState.new : LeopardState (listLru DecodePlanKey (DecodePlan 16 × Nat)))
        (List.map (block 1) (List.replicate 3 (List.replicate 64 1#8 ++ List.replicate 64 7#8)))
        sampleLeopardParity = (.ok (), st₂, parity.map (block 1)) := by
  have hlru := LruMap.listLru_ordered (K := DecodePlanKey) (V := DecodePlan 16 × Nat)
  have hcodec := sampleLeopard_isLeopard (show CodecFamily.leopardGF16 ≠ _ by decide)
  have hdata : Grid 3 128 (List.replicate 3 (List.replicate 64 1#8 ++ List.replicate 64 7#8)) :=
    grid_of_forall rfl fun row hrow => by rw [(List.mem_replicate.mp hrow).2]; rfl
  have hparity : Grid 2 128 (List.replicate 2 (List.replicate 128 0#8)) :=
    grid_of_forall rfl fun row hrow => by rw [(List.mem_replicate.mp hrow).2]; rfl
  obtain ⟨w, D, k, m, h⟩ := hcodec.engine hlru
  obtain ⟨st₁, parity, hrun, -, -⟩ := h.encode LeopardEnv.alone .new (LeopardState.ok_new hlru)
    (show 0 < 128 by decide) (by decide) hdata hparity
  obtain ⟨st₂, hblock⟩ := (leopard_blocks_independent hlru hcodec (show 128 < usizeLimit by decide)
    (show 64 * (1 + 1) ≤ 128 by decide) .new .new LeopardEnv.alone LeopardEnv.alone).1 _ _ parity
    sampleLeopardParity st₁ hdata hrun ⟨by decide, by decide⟩
  exact ⟨parity, st₁, st₂, hrun, hblock⟩

end Blocks

end ErasureCodec
