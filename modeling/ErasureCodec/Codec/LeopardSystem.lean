import ErasureCodec.Codec.LeopardCodec
import ErasureCodec.Codec.RoundTrip
import ErasureCodec.Leopard.CodeWord

namespace ErasureCodec

open CodecField ReconstructShard Leopard

section Engine

variable {lru : LruMap DecodePlanKey (DecodePlan 16 × Nat)} {codec : ReedSolomon Galois8}

/-- A Leopard codec as a constructor returns it. -/
def ReedSolomon.IsLeopard (codec : ReedSolomon Galois8) : Prop :=
  codec.format.family ≠ .classic ∧ ∃ dataShards parityShards options,
    ReedSolomon.withOptions dataShards parityShards options = .ok codec

/-- What the engine behind a codec does on good caches: it writes the parity of the data, and
decodes what it is given. -/
structure LeopardEngine (lru : LruMap DecodePlanKey (DecodePlan 16 × Nat))
    (codec : ReedSolomon Galois8) {w : Nat} (D : Decoder w) (k n : Nat) : Prop where
  decodable : Decodable w codec.dataShardCount codec.parityShardCount k n
  encode : ∀ (env : LeopardEnv) (st : LeopardState lru) {size : Nat}
    {data parity : List (List Galois8)}, st.Ok → 0 < size → 64 ∣ size →
    Grid codec.dataShardCount size data → Grid codec.parityShardCount size parity →
    ∃ st' parity', codec.encodeSepLeopard env st data parity = (.ok (), st', parity') ∧ st'.Ok ∧
      IsParity D.toFamily codec.dataShardCount codec.parityShardCount k size data parity'
  unaligned : ∀ (env : LeopardEnv) (st : LeopardState lru) {size : Nat}
    {data parity : List (List Galois8)}, 0 < size → ¬64 ∣ size →
    Grid codec.dataShardCount size data → Grid codec.parityShardCount size parity →
    codec.encodeSepLeopard env st data parity = (.err .incorrectShardSize, st, parity)
  decode : ∀ (env : LeopardEnv) (st : LeopardState lru) {size : Nat} {present : List Bool}
    {outputs : List (List Galois8)} {inputs : List (Option (List Galois8))}, st.Ok →
    size < usizeLimit → validateLeopardDecodeBuffers present outputs inputs codec.dataShardCount
      codec.parityShardCount = .ok size →
    ∃ st' outputs', codec.leopardDecode env st present outputs inputs = (.ok ⟨⟩, st', outputs') ∧
      st'.Ok ∧ IsDecoded D present inputs codec.dataShardCount codec.parityShardCount k n size
        outputs outputs'

/-- The shape of a Leopard codec passed the validator of its family. -/
theorem ReedSolomon.IsLeopard.fits (h : codec.IsLeopard) :
    leopardShardComboFits codec.dataShardCount codec.parityShardCount
      (if codec.isLeopardGf8Family then leopardGf8MaxShards else leopardGf16MaxShards) = true := by
  obtain ⟨hne, dataShards, parityShards, options, hok⟩ := h
  unfold ReedSolomon.withOptions at hok
  obtain ⟨family, hfamily⟩ : ∃ family, family = resolveCodecFamily options.codecFamily
    options.leopardMode (isByteField Galois8) (dataShards + parityShards) parityShards := ⟨_, rfl⟩
  simp only [← hfamily] at hok
  split_ifs at hok
  obtain ⟨_, hvalid, hok⟩ := Outcome.bind_eq_ok.mp hok
  obtain ⟨matrix, -, hok⟩ := Outcome.bind_eq_ok.mp hok
  obtain rfl : _ = codec := Outcome.ok.inj hok
  have hbyte : isByteField Galois8 = true := rfl
  rw [validateLeopardFamily_eq hbyte hne] at hvalid
  have hfits : leopardShardComboFits dataShards parityShards
      (maxTotalShardsForFamily Galois8 family) = true := by
    by_contra hbad
    rw [if_neg hbad] at hvalid
    cases hvalid
  cases family with
  | classic => exact absurd rfl hne
  | leopardGF8 => exact hfits
  | leopardGF16 => exact hfits

theorem prepareViews_ok {d p size : Nat} {data parity : List (List Galois8)}
    (hdata : Grid d size data) (hparity : Grid p size parity) :
    prepareViews data parity size = .ok () := by
  unfold prepareViews
  rw [if_neg, if_neg]
  · rw [List.any_eq_true]
    rintro ⟨shard, hshard, hbad⟩
    simp [hparity.forall hshard] at hbad
  · rw [List.any_eq_true]
    rintro ⟨shard, hshard, hbad⟩
    simp [hdata.forall hshard] at hbad

/-- Slices of one size reach the encoder. -/
theorem encodeLeopardSepInner_eq {σ : Type} {d p size : Nat} {data parity : List (List Galois8)}
    (hd : 0 < d) (hdata : Grid d size data) (hparity : Grid p size parity)
    (encodeFn : σ → List (List Galois8) → List (List Galois8) →
      Outcome Error Unit × σ × List (List Galois8)) (st : σ) :
    encodeLeopardSepInner encodeFn st data parity = encodeFn st data parity := by
  obtain ⟨shard, rest, rfl⟩ : ∃ shard rest, data = shard :: rest :=
    List.exists_cons_of_length_pos (by rw [hdata.length_eq]; exact hd)
  unfold encodeLeopardSepInner
  simp only [List.head?_cons]
  rw [hdata.forall List.mem_cons_self, prepareViews_ok hdata hparity]

theorem LeopardState.setThread_self (st : LeopardState lru) (thread : Nat) :
    st.setThread thread (st.threads thread) = st := by
  unfold LeopardState.setThread
  rw [Function.update_eq_self]

/-- A shard length that is no multiple of 64 is refused before any cache is touched. -/
theorem encodeWithTables_unaligned {w d p size : Nat} {F : Family w} (env : EncodeEnv w)
    (caches : EncodeCaches w) (hd : 0 < d) (h64 : ¬64 ∣ size)
    {data parity : List (List (BitVec 8))} (hdata : Grid d size data)
    (hparity : Grid p size parity) :
    encodeWithTables F env caches d p data parity = (.err .incorrectShardSize, caches, parity) := by
  obtain ⟨shard, rest, rfl⟩ : ∃ shard rest, data = shard :: rest :=
    List.exists_cons_of_length_pos (by rw [hdata.length_eq]; exact hd)
  have hmultiple : leopardShardMultiple = 64 := rfl
  unfold encodeWithTables
  rw [if_neg (by rw [hdata.length_eq, hparity.length_eq]; simp)]
  simp only [List.head?_cons]
  rw [hdata.forall List.mem_cons_self]
  unfold Family.encodeDriver buildEncodeDriver validateLeopardShardLen
  rw [if_pos (.inr (by rw [hmultiple]; omega)), Outcome.err_bind]

theorem leopardEngine8 (hfamily : codec.isLeopardGf8Family = true) {k n : Nat}
    (h : Decodable 8 codec.dataShardCount codec.parityShardCount k n) :
    LeopardEngine lru codec gf8Decoder k n where
  decodable := h
  encode env st size data parity hok h0 h64 hdata hparity := by
    obtain ⟨caches', parity', hrun, hcaches, hpar⟩ := encodeWithTables_spec (F := gf8Family)
      env.encode8 h.toAdmitted h0 h64 hdata hparity (hok.encode8 env.thread)
    refine ⟨st.setThread env.thread { st.threads env.thread with encode8 := caches' }, parity', ?_,
      hok.setThread env.thread hcaches (hok.encode16 _) (hok.decode8 _), hpar⟩
    unfold ReedSolomon.encodeSepLeopard
    rw [(ReedSolomon.checkEncodeSep_ok h.data_pos h.parity_pos).mpr ⟨size, h0, hdata, hparity⟩]
    simp only [hfamily, if_true]
    rw [encodeLeopardSepInner_eq h.data_pos hdata hparity]
    unfold leopardGf8Encode
    simp only [hrun]
  unaligned env st size data parity h0 h64 hdata hparity := by
    unfold ReedSolomon.encodeSepLeopard
    rw [(ReedSolomon.checkEncodeSep_ok h.data_pos h.parity_pos).mpr ⟨size, h0, hdata, hparity⟩]
    simp only [hfamily, if_true]
    rw [encodeLeopardSepInner_eq h.data_pos hdata hparity]
    have hrun := encodeWithTables_unaligned (F := gf8Family) env.encode8
      (st.threads env.thread).encode8 h.data_pos h64 hdata hparity
    unfold leopardGf8Encode
    simp only [hrun]
    exact congrArg (fun st => (_, st, parity)) (st.setThread_self env.thread)
  decode env st size present outputs inputs hok hsize hvalid := by
    obtain ⟨cache', outputs', hrun, hcache, hdec⟩ := reconstructWithTables_spec env.decode8
      (hok.decode8 env.thread) h hvalid
    refine ⟨st.setThread env.thread { st.threads env.thread with decode8 := cache' }, outputs', ?_,
      hok.setThread env.thread (hok.encode8 _) (hok.encode16 _) hcache, hdec⟩
    unfold ReedSolomon.leopardDecode
    simp only [hfamily, if_true]
    unfold leopardGf8Reconstruct
    simp only [hrun]

theorem leopardEngine16 (hlru : lru.Ordered) (hfamily : codec.isLeopardGf8Family = false)
    {k n : Nat} (h : Decodable 16 codec.dataShardCount codec.parityShardCount k n) :
    LeopardEngine lru codec gf16Decoder k n where
  decodable := h
  encode env st size data parity hok h0 h64 hdata hparity := by
    obtain ⟨caches', parity', hrun, hcaches, hpar⟩ := encodeWithTables_spec (F := gf16Family)
      env.encode16 h.toAdmitted h0 h64 hdata hparity (hok.encode16 env.thread)
    refine ⟨st.setThread env.thread { st.threads env.thread with encode16 := caches' }, parity', ?_,
      hok.setThread env.thread (hok.encode8 _) hcaches (hok.decode8 _), hpar⟩
    unfold ReedSolomon.encodeSepLeopard
    rw [(ReedSolomon.checkEncodeSep_ok h.data_pos h.parity_pos).mpr ⟨size, h0, hdata, hparity⟩]
    simp only [hfamily, Bool.false_eq_true, if_false]
    rw [encodeLeopardSepInner_eq h.data_pos hdata hparity]
    unfold leopardGf16Encode
    simp only [hrun]
  unaligned env st size data parity h0 h64 hdata hparity := by
    unfold ReedSolomon.encodeSepLeopard
    rw [(ReedSolomon.checkEncodeSep_ok h.data_pos h.parity_pos).mpr ⟨size, h0, hdata, hparity⟩]
    simp only [hfamily, Bool.false_eq_true, if_false]
    rw [encodeLeopardSepInner_eq h.data_pos hdata hparity]
    have hrun := encodeWithTables_unaligned (F := gf16Family) env.encode16
      (st.threads env.thread).encode16 h.data_pos h64 hdata hparity
    unfold leopardGf16Encode
    simp only [hrun]
    exact congrArg (fun st => (_, st, parity)) (st.setThread_self env.thread)
  decode env st size present outputs inputs hok hsize hvalid := by
    obtain ⟨caches', outputs', hrun, hcaches, hdec⟩ := reconstructWithTables16_spec hlru env.decode16
      (fun cache hc => env.interfere_ok hlru hc) env.schedule env.thread
      codec.options.maxParallelJobs hok.decode16 h hsize hvalid
    refine ⟨{ st with decode16 := caches' }, outputs', ?_,
      ⟨hok.encode8, hok.encode16, hok.decode8, hcaches⟩, hdec⟩
    unfold ReedSolomon.leopardDecode
    simp only [hfamily, Bool.false_eq_true, if_false]
    unfold leopardGf16Reconstruct
    simp only [hrun]

/-- Every Leopard codec has its engine. -/
theorem ReedSolomon.IsLeopard.engine (hlru : lru.Ordered) (h : codec.IsLeopard) :
    ∃ (w : Nat) (D : Decoder w) (k n : Nat), LeopardEngine lru codec D k n := by
  have hfits := h.fits
  cases hfamily : codec.isLeopardGf8Family with
  | true =>
    rw [hfamily, if_pos rfl] at hfits
    obtain ⟨k, hshape⟩ := admitted_of_fits (w := 8) hfits
    obtain ⟨n, hn, -⟩ := hshape.decodeDriver_eq gf8Family (show 0 < 64 by decide) dvd_rfl
    exact ⟨8, gf8Decoder, k, n, leopardEngine8 hfamily hn⟩
  | false =>
    rw [hfamily, if_neg (by decide)] at hfits
    obtain ⟨k, hshape⟩ := admitted_of_fits (w := 16) hfits
    obtain ⟨n, hn, -⟩ := hshape.decodeDriver_eq gf16Family (show 0 < 64 by decide) dvd_rfl
    exact ⟨16, gf16Decoder, k, n, leopardEngine16 hlru hfamily hn⟩

end Engine

section Calls

variable {lru : LruMap DecodePlanKey (DecodePlan 16 × Nat)} {codec : ReedSolomon Galois8} {S : Type}
  [ReconstructShard Galois8 S] [LawfulShard S] {slices : List S} {required : Nat → Bool} {size : Nat}

/-- The flags that a decode call gets. -/
def presentFlags (slices : List S) : List Bool :=
  slices.map fun s => (get s : Option (List Galois8)).isSome

/-- The inputs that a decode call gets. -/
def inputsOf (slices : List S) : List (Option (List (BitVec 8))) :=
  slices.map fun s => (get s : Option (List Galois8))

/-- The outputs that a decode call gets. -/
def outputsFor (required : Nat → Bool) (size : Nat) (slices : List S) : List (List (BitVec 8)) :=
  let outputs : List (List Galois8) := zeroOutputs size (requestedFlags required (slices.map get))
  outputs

omit [LawfulShard S] in
theorem length_presentFlags (slices : List S) : (presentFlags slices).length = slices.length :=
  List.length_map _

omit [LawfulShard S] in
theorem length_inputsOf (slices : List S) : (inputsOf slices).length = slices.length :=
  List.length_map _

omit [LawfulShard S] in
theorem length_outputsFor (required : Nat → Bool) (size : Nat) (slices : List S) :
    (outputsFor required size slices).length = slices.length := by
  have h := length_zeroOutputs (E := Galois8) size (requestedFlags
    required (slices.map (get : S → Option (List Galois8))))
  rw [length_requestedFlags, List.length_map] at h
  exact h

theorem count_true_eq (flags : List Bool) :
    flags.count true = ((List.range flags.length).filter fun i => flags.getD i false).length := by
  have hflags : flags = (List.range flags.length).map fun i => flags.getD i false := by
    apply List.ext_getElem (by simp)
    intro i h1 h2
    rw [List.getElem_map, List.getElem_range, List.getD_eq_getElem _ _ h1]
  conv_lhs => rw [hflags]
  rw [List.count_eq_length_filter, List.filter_map, List.length_map]
  congr 1
  apply List.filter_congr
  intro i _
  simp

theorem getD_presentFlags (slices : List S) (i : Nat) :
    (presentFlags slices).getD i false = ((lengthsOf slices).getD i none).isSome := by
  by_cases hi : i < slices.length
  · have hs := List.getElem?_eq_getElem hi
    rw [getD_lengthsOf hs, LawfulShard.len_eq, Option.isSome_map]
    unfold presentFlags
    rw [List.getD_eq_getElem _ _ (by rwa [List.length_map]), List.getElem_map]
  · rw [List.getD_eq_default (presentFlags slices) _ (by rw [length_presentFlags]; omega),
      List.getD_eq_default (lengthsOf slices) _ (by rw [length_lengthsOf]; omega)]
    rfl

theorem count_presentFlags (slices : List S) :
    (presentFlags slices).count true = (presentIndices (lengthsOf slices)).length := by
  rw [count_true_eq]
  unfold presentIndices
  rw [length_lengthsOf, length_presentFlags]
  congr 1
  apply List.filter_congr
  intro i _
  exact getD_presentFlags slices i

omit [LawfulShard S] in
theorem getD_inputsOf {s : S} {i : Nat} (hs : slices[i]? = some s) :
    (inputsOf slices).getD i none = (get s : Option (List Galois8)) := by
  have h : (slices.map fun s => (get s : Option (List Galois8))).getD i none = get s := by
    rw [List.getD_eq_getElem?_getD, List.getElem?_map, hs]
    rfl
  exact h

/-- Just the requested missing shards get a buffer. -/
theorem getD_outputsFor {i : Nat} (hi : i < slices.length) :
    (outputsFor required size slices).getD i [] =
      if (lengthsOf slices).getD i none = none ∧ required i = true then List.replicate size 0#8
      else [] := by
  have hs := List.getElem?_eq_getElem hi
  have hlen : i < (slices.map (get : S → Option (List Galois8))).length := by
    rwa [List.length_map]
  have h : (zeroOutputs size (requestedFlags required (slices.map get)) : List (List Galois8)).getD
      i [] = _ := getD_zeroOutputs _ (by rwa [length_requestedFlags])
  rw [getD_requestedFlags required hlen, List.getD_eq_getElem _ _ hlen, List.getElem_map] at h
  refine h.trans ?_
  rw [getD_lengthsOf hs, LawfulShard.len_eq]
  cases (get slices[i] : Option (List Galois8)) with
  | some data =>
    simp only [Option.isNone_some, Bool.false_and, Bool.false_eq_true, Option.map_some,
      reduceCtorEq, false_and, if_false]
    rfl
  | none =>
    cases required i with
    | false =>
      simp only [Bool.and_false, Bool.false_eq_true, and_false, if_false]
      rfl
    | true =>
      simp only [Option.isNone_none, Bool.and_true, if_true, Option.map_none, and_self]
      rfl

theorem outputsFor_lengths (required : Nat → Bool) (size : Nat) (slices : List S) :
    ∀ output ∈ outputsFor required size slices, output = [] ∨ output.length = size := by
  intro output hmem
  obtain ⟨i, hi, rfl⟩ := List.getElem_of_mem hmem
  have hlt : i < slices.length := by rwa [length_outputsFor] at hi
  rw [← List.getD_eq_getElem _ [] hi, getD_outputsFor hlt]
  split_ifs
  · exact .inr List.length_replicate
  · exact .inl rfl

theorem requested_outputsFor (h0 : 0 < size) (i : Nat) :
    Requested (presentFlags slices) (outputsFor required size slices) i ↔
      i ∈ missingIndices (lengthsOf slices) ∧ required i = true := by
  unfold Requested
  rw [getD_presentFlags, mem_missingIndices, length_lengthsOf]
  by_cases hi : i < slices.length
  · have hne : List.replicate size 0#8 ≠ [] :=
      List.ne_nil_of_length_pos (by rwa [List.length_replicate])
    rw [getD_outputsFor hi]
    cases (lengthsOf slices).getD i none with
    | some l => simp
    | none => cases required i <;> simp [hi, hne]
  · rw [List.getD_eq_default (outputsFor required size slices) _ (by rw [length_outputsFor]; omega)]
    simp [hi]

/-- Accepted shards are accepted by the engine. -/
theorem LeopardShards.decodeInput (h : LeopardShards codec size slices) (required : Nat → Bool) :
    DecodeInput (presentFlags slices) (outputsFor required size slices) (inputsOf slices)
      codec.dataShardCount codec.parityShardCount size where
  present_length := (length_presentFlags slices).trans h.length_eq
  inputs_length := (length_inputsOf slices).trans h.length_eq
  size_pos := h.uniform.1
  size_dvd := h.aligned
  received i hi hp := by
    have hlt : i < slices.length := by
      rw [h.length_eq]
      exact hi
    have hs := List.getElem?_eq_getElem hlt
    rw [getD_presentFlags] at hp
    obtain ⟨hget, hlen⟩ := present_content h.uniform (mem_presentIndices.mpr
      ⟨by rwa [length_lengthsOf], hp⟩) hs
    exact ⟨_, (getD_inputsOf hs).trans hget, hlen⟩
  enough := by
    rw [count_presentFlags]
    exact h.enough
  outputs := by
    refine ⟨(length_outputsFor required size slices).trans h.length_eq, fun i hreq => ?_⟩
    have hne := hreq.2
    by_cases hi : i < slices.length
    · rw [getD_outputsFor hi] at hne ⊢
      split_ifs at hne ⊢ with hwant
      · exact List.length_replicate
      · exact absurd rfl hne
    · exact absurd (List.getD_eq_default _ _ (by rw [length_outputsFor]; omega)) hne

variable {w k m : Nat} {D : Decoder w}

/-- The decoder succeeds on accepted shards. -/
theorem LeopardEngine.decodeCall_spec (h : LeopardEngine lru codec D k m)
    (hshards : LeopardShards codec size slices) (hsize : size < usizeLimit)
    (required : Nat → Bool) (env : LeopardEnv) {st : LeopardState lru} (hst : st.Ok) :
    ∃ st' rows, decodeCall (codec.leopardDecoder env) required size st slices =
        (.ok ⟨⟩, st', rows) ∧ st'.Ok ∧
      IsDecoded D (presentFlags slices) (inputsOf slices) codec.dataShardCount
        codec.parityShardCount k m size (outputsFor required size slices) rows := by
  have hshape := h.decodable
  have hin := hshards.decodeInput required
  have htotal := hshape.toAdmitted.total_le
  have hw := D.width_le
  have hpow : 2 ^ w ≤ 2 ^ 16 := Nat.pow_le_pow_right (by decide) hw
  have hlimit : usizeLimit = 2 ^ 64 := rfl
  exact h.decode env st hst hsize (validateLeopardDecodeBuffers_eq hin hshape.data_pos
    hshape.parity_pos (by omega) (outputsFor_lengths required size slices))

end Calls

end ErasureCodec
