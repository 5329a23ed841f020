import ErasureCodec.Codec.Execute

namespace ErasureCodec

open CodecField ReconstructShard

/-- A decoder on borrowed slices, which keep their lengths; `σ` is what it keeps between calls. -/
structure SliceDecoder (E σ : Type) where
  run : σ → List Bool → List (List E) → List (Option (List E)) →
    Outcome Error PUnit × σ × List (List E)
  length_eq : ∀ st present outputs inputs,
    (run st present outputs inputs).2.2.length = outputs.length
  row_length : ∀ st present outputs inputs i,
    ((run st present outputs inputs).2.2.getD i []).length = (outputs.getD i []).length

def leopardInlineRecoveryBytes : Nat := 2048

section Layouts

variable {E S σ : Type} [CodecField E] [ReconstructShard E S]

/-- The input of a shard, whose length is checked once more when it is bound. -/
def bindInput (shardLen : Nat) (shard : S) : Outcome Error (Option (List E)) :=
  match get shard with
  | some data => if data.length ≠ shardLen then .err .incorrectShardSize else .ok (some data)
  | none => .ok none

/-- The missing shards that a call asks for. -/
def requestedFlags (required : Nat → Bool) (inputs : List (Option (List E))) : List Bool :=
  inputs.mapIdx fun index input => input.isNone && required index

/-- The end of a staged call: the targets of a decoder that succeeded are published. -/
def finishStaged (shardLen : Nat) (slices : List S) (targets : List (Nat × List E)) :
    Outcome Error PUnit × σ → Outcome Error Unit × σ × List S
  | (.ok _, st) => ((publish shardLen targets slices).1, st, (publish shardLen targets slices).2)
  | (.err e, st) => (.err e, st, slices)
  | (.panic, st) => (.panic, st, slices)

/-- The heap layout: a vector for every requested shard. -/
def reconstructLeopardHeap (decode : SliceDecoder E σ) (required : Nat → Bool) (shardLen : Nat)
    (st : σ) (slices : List S) : Outcome Error Unit × σ × List S :=
  match slices.mapM (bindInput shardLen) with
  | .ok inputs =>
    let recovered := inputs.mapIdx fun index input =>
      if input.isNone && required index then List.replicate shardLen zero else []
    let (result, st, recovered) := decode.run st (inputs.map Option.isSome) recovered inputs
    finishStaged shardLen slices
      ((recovered.zipIdx.filter fun p => !p.1.isEmpty).map fun p => (p.2, p.1)) (result, st)
  | .err e => (.err e, st, slices)
  | .panic => (.panic, st, slices)

/-- The chunks of a zeroed array. -/
def zeroChunks (bytes shardLen : Nat) : List (List E) :=
  List.replicate (bytes / shardLen) (List.replicate shardLen zero)

/-- `reconstruct_leopard_small`: a chunk of the array for every shard. -/
def reconstructLeopardSmall (decode : SliceDecoder E σ) (required : Nat → Bool) (shardLen : Nat)
    (st : σ) (slices : List S) : Outcome Error Unit × σ × List S :=
  let scratch := zeroChunks (slices.length * shardLen) shardLen
  match slices.mapM (bindInput shardLen) with
  | .ok inputs =>
    let requested := requestedFlags required inputs
    let outputs := requested.mapIdx fun index wanted => if wanted then scratch.getD index [] else []
    let (result, st, outputs) := decode.run st (inputs.map Option.isSome) outputs inputs
    let scratch := scratch.mapIdx fun index chunk =>
      if requested.getD index false then outputs.getD index [] else chunk
    finishStaged shardLen slices
      (((scratch.zip requested).zipIdx.filter fun p => p.1.2).map fun p => (p.2, p.1.1)) (result, st)
  | .err e => (.err e, st, slices)
  | .panic => (.panic, st, slices)

/-- Requested shards take the staged buffers in turn, and the extra ones after these; running
out of both is a panic. -/
def handOut : List Bool → List Nat → List Nat → Outcome Error (List (Option Nat))
  | [], _, _ => .ok []
  | false :: requested, staged, extra => do
    let slots ← handOut requested staged extra
    pure (none :: slots)
  | true :: requested, slot :: staged, extra => do
    let slots ← handOut requested staged extra
    pure (some slot :: slots)
  | true :: requested, [], slot :: extra => do
    let slots ← handOut requested [] extra
    pure (some slot :: slots)
  | true :: _, [], [] => .panic

/-- `reconstruct_leopard_packed`: the chunks of the array go to the requested shards alone. The
buffers are the chunks and, behind them, the overflow vectors. -/
def reconstructLeopardPacked (decode : SliceDecoder E σ) (required : Nat → Bool) (shardLen : Nat)
    (st : σ) (slices : List S) : Outcome Error Unit × σ × List S :=
  match slices.mapM (bindInput shardLen) with
  | .ok inputs =>
    let requested := requestedFlags required inputs
    let inlineCount := leopardInlineRecoveryBytes / shardLen
    let overflow := requested.count true - inlineCount
    let buffers := zeroChunks leopardInlineRecoveryBytes shardLen ++
      List.replicate overflow (List.replicate shardLen zero)
    match handOut requested (List.range inlineCount) (List.range' inlineCount overflow) with
    | .ok slots =>
      let outputs := slots.map fun slot => (slot.map fun k => buffers.getD k []).getD []
      let (result, st, outputs) := decode.run st (inputs.map Option.isSome) outputs inputs
      let buffers := (slots.zip outputs).foldl (fun buffers p =>
        match p.1 with
        | some k => buffers.set k p.2
        | none => buffers) buffers
      finishStaged shardLen slices (slots.zipIdx.filterMap fun p =>
        p.1.map fun k => (p.2, buffers.getD k [])) (result, st)
    | .err e => (.err e, st, slices)
    | .panic => (.panic, st, slices)
  | .err e => (.err e, st, slices)
  | .panic => (.panic, st, slices)

end Layouts

section HandOut

/-- The requested shards are numbered from `count` on. -/
def numbered : Nat → List Bool → List (Option Nat)
  | _, [] => []
  | count, false :: requested => none :: numbered count requested
  | count, true :: requested => some count :: numbered (count + 1) requested

theorem length_numbered (count : Nat) (requested : List Bool) :
    (numbered count requested).length = requested.length := by
  induction requested generalizing count with
  | nil => rfl
  | cons wanted requested ih => cases wanted <;> simp [numbered, ih]

/-- Buffers that suffice are handed out in their order, the staged ones first. -/
theorem handOut_eq (requested : List Bool) (count staged extra : Nat)
    (h : requested.count true ≤ staged + extra) :
    handOut requested (List.range' count staged) (List.range' (count + staged) extra) =
      .ok (numbered count requested) := by
  induction requested generalizing count staged extra with
  | nil => rfl
  | cons wanted requested ih =>
    cases wanted with
    | false =>
      rw [List.count_cons_of_ne (by decide)] at h
      rw [handOut, ih count staged extra h]
      rfl
    | true =>
      rw [List.count_cons_self] at h
      cases staged with
      | zero =>
        cases extra with
        | zero => omega
        | succ extra =>
          have hrest := ih (count + 1) 0 extra (by omega)
          simp only [List.range'_zero, Nat.add_zero, List.range'_succ] at hrest ⊢
          rw [handOut, hrest]
          rfl
      | succ staged =>
        have hrest := ih (count + 1) staged extra (by omega)
        rw [show count + 1 + staged = count + (staged + 1) by omega] at hrest
        rw [List.range'_succ, handOut, hrest]
        rfl

/-- The number of a requested shard, and none for the others. -/
theorem getD_numbered (count : Nat) (requested : List Bool) (index : Nat) :
    (numbered count requested).getD index none =
      if requested.getD index false then some (count + (requested.take index).count true)
      else none := by
  induction requested generalizing count index with
  | nil => simp [numbered]
  | cons wanted requested ih =>
    cases index with
    | zero => cases wanted <;> simp [numbered]
    | succ index =>
      cases wanted with
      | false =>
        simp only [numbered, List.getD_cons_succ, ih, List.take_succ_cons]
        rw [List.count_cons_of_ne (by decide)]
      | true =>
        simp only [numbered, List.getD_cons_succ, ih, List.take_succ_cons, List.count_cons_self]
        rw [Nat.add_assoc, Nat.add_comm 1]

/-- Outputs that are stored under their numbers are found there. -/
theorem foldl_numbered {α : Type} (requested : List Bool) (outputs : List (List α))
    (hlen : outputs.length = requested.length) (count : Nat) (buffers : List (List α))
    (hbuffers : count + requested.count true ≤ buffers.length) :
    let final := ((numbered count requested).zip outputs).foldl (fun buffers p =>
      match p.1 with
      | some k => buffers.set k p.2
      | none => buffers) buffers
    (∀ j, j < count → final.getD j [] = buffers.getD j []) ∧
      ∀ index k, (numbered count requested).getD index none = some k →
        final.getD k [] = outputs.getD index [] := by
  induction requested generalizing outputs count buffers with
  | nil => exact ⟨fun _ _ => rfl, fun index k h => by simp [numbered] at h⟩
  | cons wanted requested ih =>
    obtain ⟨output, outputs, rfl⟩ := List.exists_cons_of_length_eq_add_one hlen
    have hrest : outputs.length = requested.length := by simpa using hlen
    cases wanted with
    | false =>
      rw [List.count_cons_of_ne (by decide)] at hbuffers
      obtain ⟨hkeep, hfound⟩ := ih outputs hrest count buffers hbuffers
      refine ⟨hkeep, fun index k hk => ?_⟩
      cases index with
      | zero => cases hk
      | succ index => exact hfound index k hk
    | true =>
      rw [List.count_cons_self] at hbuffers
      obtain ⟨hkeep, hfound⟩ := ih outputs hrest (count + 1) (buffers.set count output)
        (by rw [List.length_set]; omega)
      refine ⟨fun j hj => ?_, fun index k hk => ?_⟩
      · refine (hkeep j (by omega)).trans ?_
        rw [getD_set, if_neg (by omega)]
      · cases index with
        | zero =>
          obtain rfl : count = k := Option.some.inj hk
          refine (hkeep count (by omega)).trans ?_
          rw [getD_set, if_pos ⟨rfl, by omega⟩]
          rfl
        | succ index => exact hfound index k hk

end HandOut

section Agreement

variable {E S σ : Type} {shardLen : Nat}

/-- The pairs that a filtered enumeration keeps. -/
theorem filter_zipIdx_eq {α β : Type} (l : List α) (z : α) (p : α → Bool) (f : α → β) :
    ((l.zipIdx.filter fun e => p e.1).map fun e => (e.2, f e.1)) =
      ((List.range l.length).filter fun i => p (l.getD i z)).map fun i => (i, f (l.getD i z)) := by
  have hzip : l.zipIdx = (List.range l.length).map fun i => (l.getD i z, i) := by
    apply List.ext_getElem (by simp)
    intro i h1 h2
    simp [List.getD_eq_getElem?_getD, List.getElem?_eq_getElem (show i < l.length by simpa using h1)]
  rw [hzip, List.filter_map, List.map_map]
  rfl

theorem length_requestedFlags (required : Nat → Bool) (inputs : List (Option (List E))) :
    (requestedFlags required inputs).length = inputs.length := List.length_mapIdx

theorem getD_requestedFlags (required : Nat → Bool) {inputs : List (Option (List E))}
    {index : Nat} (hi : index < inputs.length) :
    (requestedFlags required inputs).getD index false =
      ((inputs.getD index none).isNone && required index) :=
  getD_mapIdx_of_lt _ _ _ hi none false

variable [CodecField E]

/-- The zeroed buffers of the requested shards. -/
def zeroOutputs (shardLen : Nat) (requested : List Bool) : List (List E) :=
  requested.map fun wanted => if wanted then List.replicate shardLen zero else []

theorem length_zeroOutputs (shardLen : Nat) (requested : List Bool) :
    (zeroOutputs shardLen requested : List (List E)).length = requested.length := List.length_map _

theorem getD_zeroOutputs (requested : List Bool) {index : Nat} (hi : index < requested.length) :
    (zeroOutputs shardLen requested : List (List E)).getD index [] =
      if requested.getD index false then List.replicate shardLen zero else [] :=
  getD_map_of_lt _ _ _ hi false []

/-- A decoded output is empty just where its shard was not requested. -/
theorem isEmpty_output (decode : SliceDecoder E σ) (st : σ) (present requested : List Bool)
    (inputs : List (Option (List E))) (h0 : 0 < shardLen) {index : Nat}
    (hi : index < requested.length) :
    (!((decode.run st present (zeroOutputs shardLen requested) inputs).2.2.getD index []).isEmpty) =
      requested.getD index false := by
  have hlen := decode.row_length st present (zeroOutputs shardLen requested) inputs index
  rw [getD_zeroOutputs requested hi] at hlen
  cases hwanted : requested.getD index false with
  | true =>
    rw [hwanted, if_pos rfl, List.length_replicate] at hlen
    rw [Bool.not_eq_true', List.isEmpty_eq_false_iff]
    intro hnil
    rw [hnil, List.length_nil] at hlen
    omega
  | false =>
    rw [hwanted, if_neg (by decide), List.length_nil] at hlen
    rw [List.length_eq_zero_iff.mp hlen]
    rfl

variable [ReconstructShard E S]

/-- The abstract recovery: the requested shards are decoded into zeroed buffers of their own and
then published in their order. -/
def decodeAndPublish (decode : SliceDecoder E σ) (required : Nat → Bool) (shardLen : Nat) (st : σ)
    (slices : List S) : Outcome Error Unit × σ × List S :=
  match slices.mapM (bindInput shardLen) with
  | .ok inputs =>
    let requested := requestedFlags required inputs
    let (result, st, outputs) := decode.run st (inputs.map Option.isSome)
      (zeroOutputs shardLen requested) inputs
    finishStaged shardLen slices (((List.range requested.length).filter fun index =>
      requested.getD index false).map fun index => (index, outputs.getD index [])) (result, st)
  | .err e => (.err e, st, slices)
  | .panic => (.panic, st, slices)

theorem reconstructLeopardHeap_eq (decode : SliceDecoder E σ) (required : Nat → Bool)
    (h0 : 0 < shardLen) (st : σ) (slices : List S) :
    reconstructLeopardHeap decode required shardLen st slices =
      decodeAndPublish decode required shardLen st slices := by
  unfold reconstructLeopardHeap decodeAndPublish
  cases slices.mapM (bindInput shardLen) with
  | ok inputs =>
    have houtputs : (inputs.mapIdx fun index input =>
        if input.isNone && required index then List.replicate shardLen zero else []) =
        (zeroOutputs shardLen (requestedFlags required inputs) : List (List E)) := by
      apply List.ext_getElem (by simp [zeroOutputs, requestedFlags])
      intro index h1 h2
      simp [zeroOutputs, requestedFlags]
    simp only [houtputs]
    have htargets := filter_zipIdx_eq (decode.run st (inputs.map Option.isSome)
      (zeroOutputs shardLen (requestedFlags required inputs)) inputs).2.2 [] (fun o => !o.isEmpty) id
    simp only [id_eq] at htargets
    rw [htargets, decode.length_eq, length_zeroOutputs]
    have hfilter : ((List.range (requestedFlags required inputs).length).filter fun index =>
        !((decode.run st (inputs.map Option.isSome)
          (zeroOutputs shardLen (requestedFlags required inputs)) inputs).2.2.getD index []).isEmpty) =
        (List.range (requestedFlags required inputs).length).filter fun index =>
          (requestedFlags required inputs).getD index false := by
      apply List.filter_congr
      intro index hi
      exact isEmpty_output decode st _ _ inputs h0 (List.mem_range.mp hi)
    rw [hfilter]
  | err e => rfl
  | panic => rfl

theorem getD_zeroChunks {bytes index : Nat} (h : index < bytes / shardLen) :
    (zeroChunks bytes shardLen : List (List E)).getD index [] = List.replicate shardLen zero := by
  unfold zeroChunks
  rw [List.getD_eq_getElem _ _ (by rwa [List.length_replicate]), List.getElem_replicate]

omit [CodecField E] in
/-- The inputs that are bound are the contents of the shards. -/
theorem bindInputs_eq {slices : List S} {inputs : List (Option (List E))}
    (h : slices.mapM (bindInput shardLen) = .ok inputs) : inputs = slices.map get := by
  induction slices generalizing inputs with
  | nil => exact (Outcome.ok.inj h).symm
  | cons shard slices ih =>
    rw [List.mapM_cons] at h
    obtain ⟨input, hinput, h⟩ := Outcome.bind_eq_ok.mp h
    obtain ⟨rest, hrest, h⟩ := Outcome.bind_eq_ok.mp h
    obtain rfl : input :: rest = inputs := Outcome.ok.inj h
    rw [List.map_cons, ← ih hrest]
    congr 1
    unfold bindInput at hinput
    cases hget : (get shard : Option (List E)) with
    | none =>
      rw [hget] at hinput
      exact (Outcome.ok.inj hinput).symm
    | some data =>
      rw [hget] at hinput
      simp only at hinput
      split_ifs at hinput
      exact (Outcome.ok.inj hinput).symm

theorem reconstructLeopardSmall_eq (decode : SliceDecoder E σ) (required : Nat → Bool)
    (h0 : 0 < shardLen) (st : σ) (slices : List S) :
    reconstructLeopardSmall decode required shardLen st slices =
      decodeAndPublish decode required shardLen st slices := by
  unfold reconstructLeopardSmall decodeAndPublish
  cases hbind : slices.mapM (bindInput shardLen) with
  | ok inputs =>
    obtain ⟨requested, hrequested⟩ : ∃ requested, requested = requestedFlags required inputs :=
      ⟨_, rfl⟩
    have hlen : requested.length = slices.length := by
      rw [hrequested, length_requestedFlags, bindInputs_eq hbind, List.length_map]
    have hchunks : slices.length * shardLen / shardLen = slices.length := Nat.mul_div_cancel _ h0
    have houtputs : (requested.mapIdx fun index wanted =>
        if wanted then (zeroChunks (slices.length * shardLen) shardLen : List (List E)).getD index []
        else []) = zeroOutputs shardLen requested := by
      apply List.ext_getElem (by simp [zeroOutputs])
      intro index h1 h2
      rw [List.getElem_mapIdx, getD_zeroChunks (by
        rw [List.length_mapIdx] at h1
        omega)]
      simp [zeroOutputs]
    simp only [← hrequested, houtputs]
    obtain ⟨outputs, houts⟩ : ∃ outputs, outputs = (decode.run st (inputs.map Option.isSome)
      (zeroOutputs shardLen requested) inputs).2.2 := ⟨_, rfl⟩
    have htargets := filter_zipIdx_eq (((zeroChunks (slices.length * shardLen) shardLen :
      List (List E)).mapIdx fun index chunk =>
        if requested.getD index false then outputs.getD index [] else chunk).zip requested)
      ([], false) Prod.snd Prod.fst
    rw [← houts, htargets]
    have hwidth : (((zeroChunks (slices.length * shardLen) shardLen : List (List E)).mapIdx
        fun index chunk => if requested.getD index false then outputs.getD index [] else chunk).zip
        requested).length = requested.length := by
      rw [List.length_zip, List.length_mapIdx, hlen]
      simp [zeroChunks, hchunks]
    have hpair (index : Nat) (hi : index < requested.length) :
        (((zeroChunks (slices.length * shardLen) shardLen : List (List E)).mapIdx
          fun index chunk => if requested.getD index false then outputs.getD index [] else chunk).zip
          requested).getD index ([], false) =
        (if requested.getD index false then outputs.getD index [] else List.replicate shardLen zero,
          requested.getD index false) := by
      rw [List.getD_eq_getElem _ _ (by rw [hwidth]; exact hi), List.getElem_zip,
        List.getD_eq_getElem _ _ hi, List.getElem_mapIdx]
      simp [zeroChunks, List.getElem?_eq_getElem hi]
    rw [hwidth]
    have hfilter : ((List.range requested.length).filter fun index => ((((zeroChunks
        (slices.length * shardLen) shardLen : List (List E)).mapIdx fun index chunk =>
          if requested.getD index false then outputs.getD index [] else chunk).zip
          requested).getD index ([], false)).2) =
        (List.range requested.length).filter fun index => requested.getD index false := by
      apply List.filter_congr
      intro index hi
      rw [hpair index (List.mem_range.mp hi)]
    rw [hfilter]
    congr 1
    apply List.map_congr_left
    intro index hi
    obtain ⟨hi, hwanted⟩ := List.mem_filter.mp hi
    rw [hpair index (List.mem_range.mp hi), hwanted, if_pos rfl]
  | err e => rfl
  | panic => rfl

/-- An enumeration filtered by an option. -/
theorem filterMap_eq_map_filter {α β : Type} {f : α → Option β} {p : α → Bool} {g : α → β}
    {l : List α} (h : ∀ a ∈ l, f a = if p a then some (g a) else none) :
    l.filterMap f = (l.filter p).map g := by
  induction l with
  | nil => rfl
  | cons a l ih =>
    have hrest := ih (fun b hb => h b (List.mem_cons_of_mem a hb))
    rw [List.filterMap_cons, h a List.mem_cons_self, List.filter_cons]
    cases hp : p a <;> simp [hrest]

theorem reconstructLeopardPacked_eq (decode : SliceDecoder E σ) (required : Nat → Bool) (st : σ)
    (slices : List S) :
    reconstructLeopardPacked decode required shardLen st slices =
      decodeAndPublish decode required shardLen st slices := by
  unfold reconstructLeopardPacked decodeAndPublish
  cases slices.mapM (bindInput shardLen) with
  | ok inputs =>
    obtain ⟨requested, hrequested⟩ : ∃ requested, requested = requestedFlags required inputs :=
      ⟨_, rfl⟩
    obtain ⟨staged, hstaged⟩ : ∃ staged, staged = leopardInlineRecoveryBytes / shardLen := ⟨_, rfl⟩
    obtain ⟨extra, hextra⟩ : ∃ extra, extra = requested.count true - staged := ⟨_, rfl⟩
    have hslots : handOut requested (List.range staged) (List.range' staged extra) =
        .ok (numbered 0 requested) := by
      have h := handOut_eq requested 0 staged extra (by omega)
      rwa [Nat.zero_add, ← List.range_eq_range'] at h
    have hbuffers : (zeroChunks leopardInlineRecoveryBytes shardLen ++
        List.replicate extra (List.replicate shardLen zero) : List (List E)) =
        List.replicate (staged + extra) (List.replicate shardLen zero) := by
      unfold zeroChunks
      rw [← hstaged, List.replicate_append_replicate]
    have hslot (index : Nat) (hi : index < requested.length) :
        (numbered 0 requested).getD index none = if requested.getD index false then
          some ((requested.take index).count true) else none := by
      rw [getD_numbered, Nat.zero_add]
    have hnumber (index : Nat) (hi : index < requested.length)
        (hwanted : requested.getD index false = true) :
        (requested.take index).count true < requested.count true := by
      have hsplit := congrArg (List.count true) (List.take_append_drop index requested)
      rw [List.count_append, List.drop_eq_getElem_cons hi,
        show requested[index] = true by rwa [List.getD_eq_getElem _ _ hi] at hwanted,
        List.count_cons_self] at hsplit
      omega
    have houtputs : (numbered 0 requested).map (fun slot => (slot.map fun k =>
        (List.replicate (staged + extra) (List.replicate shardLen zero : List E)).getD k []).getD []) =
        zeroOutputs shardLen requested := by
      apply getD_ext [] (by rw [List.length_map, length_numbered, length_zeroOutputs])
      intro index hi
      rw [List.length_map, length_numbered] at hi
      rw [getD_map_of_lt _ _ _ (by rwa [length_numbered]) none, hslot index hi,
        getD_zeroOutputs requested hi]
      cases hwanted : requested.getD index false with
      | true =>
        have := hnumber index hi hwanted
        simp only [if_true, Option.map_some, Option.getD_some]
        rw [List.getD_eq_getElem _ _ (by rw [List.length_replicate]; omega), List.getElem_replicate]
      | false => rfl
    simp only [← hrequested, ← hstaged, ← hextra, hslots, hbuffers, houtputs]
    obtain ⟨outputs, houts⟩ : ∃ outputs, outputs = (decode.run st (inputs.map Option.isSome)
      (zeroOutputs shardLen requested) inputs).2.2 := ⟨_, rfl⟩
    rw [← houts]
    have hlen : outputs.length = requested.length := by
      rw [houts, decode.length_eq, length_zeroOutputs]
    obtain ⟨-, hfound⟩ := foldl_numbered requested outputs hlen 0
      (List.replicate (staged + extra) (List.replicate shardLen zero))
      (by rw [List.length_replicate]; omega)
    congr 1
    have hzip : (numbered 0 requested).zipIdx = (List.range requested.length).map fun i =>
        ((numbered 0 requested).getD i none, i) := by
      apply List.ext_getElem (by simp [length_numbered])
      intro i h1 h2
      rw [List.length_zipIdx] at h1
      simp [List.getD_eq_getElem?_getD, List.getElem?_eq_getElem h1]
    rw [hzip, List.filterMap_map]
    apply filterMap_eq_map_filter
    intro index hi
    have hi := List.mem_range.mp hi
    simp only [Function.comp_apply]
    cases hwanted : requested.getD index false with
    | true =>
      have hk := hslot index hi
      rw [hwanted, if_pos rfl] at hk
      rw [hk, Option.map_some, if_pos rfl, hfound index _ hk]
    | false =>
      have hk := hslot index hi
      rw [hwanted, if_neg (by decide)] at hk
      rw [hk]
      rfl
  | err e => rfl
  | panic => rfl

end Agreement

end ErasureCodec
