import ErasureCodec.Codec.Encode

namespace ErasureCodec

open CodecField

inductive SBSError where
  | tooManyCalls
  | leftoverShards
  | rsError (e : Error)
  deriving Repr, DecidableEq

/-- Bookkeeper for shard by shard encoding. -/
structure ShardByShard (E : Type) where
  codec : ReedSolomon E
  curInput : Nat

namespace ShardByShard

variable {E : Type} [CodecField E]

def new (codec : ReedSolomon E) : ShardByShard E := ⟨codec, 0⟩

def parityReady (sbs : ShardByShard E) : Bool := sbs.curInput == sbs.codec.dataShardCount

def reset (sbs : ShardByShard E) : Outcome SBSError Unit × ShardByShard E :=
  if sbs.curInput > 0 ∧ sbs.parityReady = false then (.err .leftoverShards, sbs)
  else (.ok (), { sbs with curInput := 0 })

def resetForce (sbs : ShardByShard E) : ShardByShard E := { sbs with curInput := 0 }

def sbsEncodeChecks (sbs : ShardByShard E) (slices : List (List E)) : Outcome SBSError Unit :=
  if sbs.parityReady then .err .tooManyCalls
  else Outcome.mapErr .rsError (do
    checkCount slices.length sbs.codec.totalShardCount .tooFewShards .tooManyShards
    checkSlices slices)

def sbsEncodeSepChecks (sbs : ShardByShard E) (data parity : List (List E)) :
    Outcome SBSError Unit :=
  if sbs.parityReady then .err .tooManyCalls
  else Outcome.mapErr .rsError (sbs.codec.checkEncodeSep data parity)

/-- `map_err(SBSError::RSError)?` on the codec call, then the step is counted. -/
def returnOkAndIncreCurInput (sbs : ShardByShard E) (result : Outcome Error Unit) :
    Outcome SBSError Unit × ShardByShard E :=
  match result with
  | .ok _ => (.ok (), { sbs with curInput := sbs.curInput + 1 })
  | failed => (failed.mapErr .rsError, sbs)

def encode (sbs : ShardByShard E) (shards : List (List E)) :
    Outcome SBSError Unit × ShardByShard E × List (List E) :=
  match sbs.sbsEncodeChecks shards with
  | .ok _ =>
    let (result, shards) := sbs.codec.encodeSingle sbs.curInput shards
    let (result, sbs) := sbs.returnOkAndIncreCurInput result
    (result, sbs, shards)
  | failed => (failed, sbs, shards)

def encodeSep (sbs : ShardByShard E) (data parity : List (List E)) :
    Outcome SBSError Unit × ShardByShard E × List (List E) :=
  match sbs.sbsEncodeSepChecks data parity with
  | .ok _ =>
    let (result, parity) :=
      sbs.codec.encodeSingleSep sbs.curInput (data.getD sbs.curInput []) parity
    let (result, sbs) := sbs.returnOkAndIncreCurInput result
    (result, sbs, parity)
  | failed => (failed, sbs, parity)

/-- The calls of a user who keeps all shards in one list; `encodeSep` is handed
the two sides of any split of it. -/
inductive Call where
  | encode
  | encodeSep (split : Nat)
  | reset
  | resetForce

def Call.run (call : Call) (sbs : ShardByShard E) (shards : List (List E)) :
    Outcome SBSError Unit × ShardByShard E × List (List E) :=
  match call with
  | .encode => sbs.encode shards
  | .encodeSep split =>
    let (result, sbs, parity) := sbs.encodeSep (shards.take split) (shards.drop split)
    (result, sbs, shards.take split ++ parity)
  | .reset => let (result, sbs) := sbs.reset; (result, sbs, shards)
  | .resetForce => (.ok (), sbs.resetForce, shards)

/-- The states of a bookkeeper and its shard set. Between calls the user may fill
in any data shard whose step is still to come, and parity before a batch. -/
inductive Reachable (codec : ReedSolomon E) : ShardByShard E → List (List E) → Prop where
  | new (shards : List (List E)) : Reachable codec (new codec) shards
  | call (c : Call) {sbs : ShardByShard E} {shards : List (List E)} :
    Reachable codec sbs shards →
      Reachable codec (c.run sbs shards).2.1 (c.run sbs shards).2.2
  | write (i : Nat) (shard : List E) {sbs : ShardByShard E} {shards : List (List E)} :
    Reachable codec sbs shards → (i < codec.dataShardCount → sbs.curInput ≤ i) →
      (codec.dataShardCount ≤ i → sbs.curInput = 0) → Reachable codec sbs (shards.set i shard)

end ShardByShard

namespace ReedSolomon

section SingleSpec

variable {E : Type} [CodecField E] {codec : ReedSolomon E}

theorem encodeSingleSep_ok (h : codec.ClassicInv) {i len : Nat} (hi : i < codec.dataShardCount)
    (hlen : 0 < len) {single : List E} {parity : List (List E)} (hs : single.length = len)
    (hp : Grid codec.parityShardCount len parity) :
    codec.encodeSingleSep i single parity =
      (.ok (), codeSingleSlice codec.getParityRows i single parity) := by
  have hne : parity ≠ [] := List.ne_nil_of_length_pos (by rw [hp.length_eq]; exact h.parity_pos)
  simp only [encodeSingleSep, h.isLeopardFamily_eq, Bool.false_eq_true, if_false, if_neg (not_le.mpr hi),
    Outcome.ok_bind, checkCount_ok.mpr hp.length_eq,
    (checkSlices_ok hne).mpr ⟨len, hlen, fun s h => hp.forall h⟩, checkSameLen,
    hp.row_length 0 h.parity_pos, hs, ne_eq, not_true_eq_false]

theorem encodeSingle_ok (h : codec.ClassicInv) {i len : Nat} (hi : i < codec.dataShardCount)
    (hlen : 0 < len) {shards : List (List E)} (hg : Grid codec.totalShardCount len shards) :
    codec.encodeSingle i shards = (.ok (), shards.take codec.dataShardCount ++
      codeSingleSlice codec.getParityRows i (shards.getD i [])
        (shards.drop codec.dataShardCount)) := by
  have htotal := codec.totalShardCount_eq
  have hne : shards ≠ [] := List.ne_nil_of_length_pos (by rw [hg.length_eq]; omega)
  simp only [encodeSingle, h.isLeopardFamily_eq, Bool.false_eq_true, if_false, if_neg (not_le.mpr hi),
    Outcome.ok_bind, checkCount_ok.mpr hg.length_eq,
    (checkSlices_ok hne).mpr ⟨len, hlen, fun s h => hg.forall h⟩, getD_take hi,
    encodeSingleSep_ok h hi hlen (hg.row_length i (by omega)) (hg.drop htotal)]

theorem encodeSingleSep_unchanged (i : Nat) (single : List E) (parity : List (List E))
    (h : (codec.encodeSingleSep i single parity).1 ≠ .ok ()) :
    (codec.encodeSingleSep i single parity).2 = parity := by
  unfold encodeSingleSep at h ⊢
  split at h
  · exact absurd rfl h
  · rfl

theorem encodeSingle_unchanged (i : Nat) (shards : List (List E))
    (h : (codec.encodeSingle i shards).1 ≠ .ok ()) : (codec.encodeSingle i shards).2 = shards := by
  unfold encodeSingle at h ⊢
  split at h
  · simp only at h ⊢
    rw [encodeSingleSep_unchanged _ _ _ h, List.take_append_drop]
  · rfl

end SingleSpec

end ReedSolomon

namespace ShardByShard

section Spec

variable {E : Type} [CodecField E]

omit [CodecField E] in
private theorem returnOk_unchanged (sbs : ShardByShard E) {result : Outcome Error Unit}
    (h : (sbs.returnOkAndIncreCurInput result).1 ≠ .ok ()) :
    result ≠ .ok () ∧ (sbs.returnOkAndIncreCurInput result).2 = sbs := by
  cases result with
  | ok _ => exact absurd rfl h
  | err e => exact ⟨by simp, rfl⟩
  | panic => exact ⟨by simp, rfl⟩

/-- A failing call leaves the bookkeeper and every shard as they were. -/
theorem Call.run_unchanged (call : Call) (sbs : ShardByShard E) (shards : List (List E))
    (h : (call.run sbs shards).1 ≠ .ok ()) : (call.run sbs shards).2 = (sbs, shards) := by
  cases call with
  | encode =>
    simp only [run, ShardByShard.encode] at h ⊢
    split at h
    · obtain ⟨hresult, hsbs⟩ := returnOk_unchanged sbs h
      simp only [hsbs, sbs.codec.encodeSingle_unchanged _ _ hresult]
    · rfl
  | encodeSep split =>
    simp only [run, ShardByShard.encodeSep] at h ⊢
    split at h
    · obtain ⟨hresult, hsbs⟩ := returnOk_unchanged sbs h
      simp only [hsbs, sbs.codec.encodeSingleSep_unchanged _ _ _ hresult, List.take_append_drop]
    · simp only [List.take_append_drop]
  | reset =>
    simp only [run, ShardByShard.reset] at h ⊢
    split_ifs at h ⊢ with hc
    · rfl
    · exact absurd rfl h
  | resetForce => exact absurd rfl h

omit [CodecField E] in
theorem reset_ok_iff (sbs : ShardByShard E) :
    sbs.reset.1 = .ok () ↔ sbs.curInput = 0 ∨ sbs.curInput = sbs.codec.dataShardCount := by
  unfold reset parityReady
  split_ifs with h
  · simp only [gt_iff_lt, beq_eq_false_iff_ne, ne_eq] at h
    simp only [false_iff, not_or]
    exact ⟨by omega, h.2⟩
  · simp only [gt_iff_lt, beq_eq_false_iff_ne, ne_eq, not_and, not_not] at h
    simp only [true_iff]
    by_cases h0 : sbs.curInput = 0
    · exact .inl h0
    · exact .inr (h (Nat.pos_of_ne_zero h0))

variable [LawfulField E]

/-- Parity holds the sum over the first `n` columns. -/
structure PartialParity (codec : ReedSolomon E) (n len : Nat) (shards : List (List E)) : Prop where
  len_pos : 0 < len
  length_eq : shards.length = codec.totalShardCount
  data_length : ∀ c, c < n → (shards.getD c []).length = len
  parity_length : ∀ r, r < codec.parityShardCount →
    (shards.getD (codec.dataShardCount + r) []).length = len
  parity_entry : ∀ r x, r < codec.parityShardCount → x < len →
    (shards.getD (codec.dataShardCount + r) []).getD x 0 = ∑ c ∈ Finset.range n,
      codec.format.matrix.get (codec.dataShardCount + r) c * (shards.getD c []).getD x 0

/-- The invariant of the bookkeeper: only a batch in progress says anything about parity. -/
structure Inv (codec : ReedSolomon E) (sbs : ShardByShard E) (shards : List (List E)) : Prop where
  codec_eq : sbs.codec = codec
  curInput_le : sbs.curInput ≤ codec.dataShardCount
  parity : 0 < sbs.curInput → ∃ len, PartialParity codec sbs.curInput len shards

variable {codec : ReedSolomon E} {sbs : ShardByShard E} {shards : List (List E)}

theorem PartialParity.write {n len i : Nat} (h : PartialParity codec n len shards) (shard : List E)
    (hn : n ≤ i) (hi : i < codec.dataShardCount) :
    PartialParity codec n len (shards.set i shard) := by
  have hold (j : Nat) (hj : i ≠ j) : (shards.set i shard).getD j [] = shards.getD j [] := by
    rw [getD_set, if_neg (fun h => hj h.1)]
  refine ⟨h.len_pos, by rw [List.length_set]; exact h.length_eq, fun c hc => ?_, fun r hr => ?_,
    fun r x hr hx => ?_⟩
  · rw [hold c (by omega)]
    exact h.data_length c hc
  · rw [hold _ (by omega)]
    exact h.parity_length r hr
  · rw [hold _ (by omega), h.parity_entry r x hr hx]
    refine Finset.sum_congr rfl (fun c hc => ?_)
    rw [hold c (by have := Finset.mem_range.mp hc; omega)]

/-- The step of one data shard extends the sum by its column: the first input
overwrites what parity held before the batch. -/
theorem partialParity_step (hinv : codec.ClassicInv) {n len : Nat} (hn : n < codec.dataShardCount)
    (hlen : 0 < len) (hg : Grid codec.totalShardCount len shards)
    (hpar : 0 < n → ∃ len', PartialParity codec n len' shards) :
    PartialParity codec (n + 1) len (shards.take codec.dataShardCount ++
      codeSingleSlice codec.getParityRows n (shards.getD n [])
        (shards.drop codec.dataShardCount)) := by
  have htotal := codec.totalShardCount_eq
  have hlength : shards.length = codec.totalShardCount := hg.length_eq
  have hp : Grid codec.parityShardCount len (shards.drop codec.dataShardCount) := hg.drop htotal
  have hin : (shards.getD n []).length = len := hg.row_length n (by omega)
  obtain ⟨hout, hval⟩ := codeSingleSliceRange_spec 0 codec.getParityRows n hin hp le_rfl
  rw [← hin, ← codeSingleSlice, hin] at hout hval
  have hdata (c : Nat) (hc : c < codec.dataShardCount) (t : List (List E)) :
      (shards.take codec.dataShardCount ++ t).getD c [] = shards.getD c [] := by
    rw [getD_take_append (by omega), if_pos hc]
  have hparity (r : Nat) (t : List (List E)) :
      (shards.take codec.dataShardCount ++ t).getD (codec.dataShardCount + r) [] =
        t.getD r [] := by
    rw [getD_take_append (by omega), if_neg (by omega), Nat.add_sub_cancel_left]
  refine ⟨hlen, ?_, fun c hc => ?_, fun r hr => ?_, fun r x hr hx => ?_⟩
  · rw [List.length_append, List.length_take, hout.length_eq, hlength]
    omega
  · rw [hdata c (by omega)]
    exact hg.row_length c (by omega)
  · rw [hparity]
    exact hout.row_length r hr
  · rw [hparity, hval r x hr hx, if_pos ⟨Nat.zero_le x, hx⟩, Finset.sum_range_succ,
      ReedSolomon.getParityRows_getD codec hr,
      codec.format.matrix.getD_getRow (by rw [hinv.colCount_eq]; exact hn) _
        (by rw [hinv.rowCount_eq]; omega), hdata n hn]
    congr 1
    by_cases h0 : n = 0
    · rw [if_pos h0, h0, Finset.sum_range_zero]
    · obtain ⟨len', hpp⟩ := hpar (Nat.pos_of_ne_zero h0)
      have hll : len' = len := by
        rw [← hpp.data_length 0 (Nat.pos_of_ne_zero h0)]
        exact hg.row_length 0 (by omega)
      subst hll
      rw [if_neg h0, getD_drop, hpp.parity_entry r x hr hx]
      refine Finset.sum_congr rfl (fun c hc => ?_)
      rw [hdata c (by have := Finset.mem_range.mp hc; omega)]

omit [LawfulField E] in
/-- What the checks of `encode` let through. -/
theorem sbsEncodeChecks_ok (hinv : codec.ClassicInv) (hc : sbs.codec = codec)
    (h : sbs.sbsEncodeChecks shards = .ok ()) :
    sbs.curInput ≠ codec.dataShardCount ∧
      ∃ len, 0 < len ∧ Grid codec.totalShardCount len shards := by
  subst hc
  simp only [sbsEncodeChecks, parityReady, beq_iff_eq] at h
  split_ifs at h with hready
  refine ⟨hready, ?_⟩
  cases hcount : checkCount shards.length sbs.codec.totalShardCount .tooFewShards .tooManyShards with
  | ok _ =>
    rw [hcount, Outcome.ok_bind] at h
    have hlength := checkCount_ok.mp hcount
    have hslices : checkSlices shards = .ok () := by
      cases hs : checkSlices shards with
      | ok _ => rfl
      | err e => rw [hs] at h; cases h
      | panic => rw [hs] at h; cases h
    obtain ⟨len, hlen, hall⟩ := (checkSlices_ok (List.ne_nil_of_length_pos
      (by rw [hlength]; exact Nat.add_pos_left hinv.data_pos _))).mp hslices
    exact ⟨len, hlen, grid_of_forall hlength hall⟩
  | err e => rw [hcount] at h; cases h
  | panic => rw [hcount] at h; cases h

omit [LawfulField E] in
/-- What the checks of `encode_sep` let through: only the codec's own split. -/
theorem sbsEncodeSepChecks_ok (hinv : codec.ClassicInv) (hc : sbs.codec = codec) {split : Nat}
    (h : sbs.sbsEncodeSepChecks (shards.take split) (shards.drop split) = .ok ()) :
    sbs.curInput ≠ codec.dataShardCount ∧ split = codec.dataShardCount ∧
      ∃ len, 0 < len ∧ Grid codec.totalShardCount len shards := by
  subst hc
  simp only [sbsEncodeSepChecks, parityReady, beq_iff_eq] at h
  split_ifs at h with hready
  have hchecks : sbs.codec.checkEncodeSep (shards.take split) (shards.drop split) = .ok () := by
    cases hs : sbs.codec.checkEncodeSep (shards.take split) (shards.drop split) with
    | ok _ => rfl
    | err e => rw [hs] at h; cases h
    | panic => rw [hs] at h; cases h
  obtain ⟨len, hlen, hd, hp⟩ :=
    (ReedSolomon.checkEncodeSep_ok hinv.data_pos hinv.parity_pos).mp hchecks
  have h1 := hd.length_eq
  have h2 := hp.length_eq
  have hpos := hinv.parity_pos
  rw [List.length_take] at h1
  rw [List.length_drop] at h2
  refine ⟨hready, by omega, len, hlen, grid_of_forall ?_ (fun row hrow => ?_)⟩
  · rw [sbs.codec.totalShardCount_eq]
    omega
  · rw [← List.take_append_drop split shards, List.mem_append] at hrow
    rcases hrow with hrow | hrow
    · exact hd.forall hrow
    · exact hp.forall hrow

/-- A codec call that went through moves the bookkeeper one column on. -/
private theorem inv_step (hinv : codec.ClassicInv) (h : Inv codec sbs shards)
    (hready : sbs.curInput ≠ codec.dataShardCount) {len : Nat} (hlen : 0 < len)
    (hg : Grid codec.totalShardCount len shards) :
    Inv codec { sbs with curInput := sbs.curInput + 1 }
      (shards.take codec.dataShardCount ++ codeSingleSlice codec.getParityRows sbs.curInput
        (shards.getD sbs.curInput []) (shards.drop codec.dataShardCount)) := by
  have hle := h.curInput_le
  exact ⟨h.codec_eq, by simp only; omega, fun _ =>
    ⟨len, partialParity_step hinv (by omega) hlen hg h.parity⟩⟩

/-- Every call keeps the invariant. -/
theorem Inv.call (hinv : codec.ClassicInv) (h : Inv codec sbs shards) (c : Call) :
    Inv codec (c.run sbs shards).2.1 (c.run sbs shards).2.2 := by
  by_cases hok : (c.run sbs shards).1 = .ok ()
  swap
  · rw [c.run_unchanged sbs shards hok]
    exact h
  cases c with
  | encode =>
    simp only [Call.run, encode] at hok ⊢
    split at hok
    case h_2 hfail => exact absurd hok (fun h => hfail () h)
    case h_1 hchecks =>
      obtain ⟨hready, len, hlen, hg⟩ := sbsEncodeChecks_ok hinv h.codec_eq hchecks
      have hle := h.curInput_le
      rw [h.codec_eq, ReedSolomon.encodeSingle_ok hinv (by omega) hlen hg]
      exact inv_step hinv h hready hlen hg
  | encodeSep split =>
    simp only [Call.run, encodeSep] at hok ⊢
    split at hok
    case h_2 hfail => exact absurd hok (fun h => hfail () h)
    case h_1 hchecks =>
      obtain ⟨hready, rfl, len, hlen, hg⟩ := sbsEncodeSepChecks_ok hinv h.codec_eq hchecks
      have hle := h.curInput_le
      have htotal := codec.totalShardCount_eq
      rw [h.codec_eq, getD_take (by omega), ReedSolomon.encodeSingleSep_ok hinv (by omega) hlen
        (hg.row_length sbs.curInput (by omega)) (hg.drop htotal)]
      exact inv_step hinv h hready hlen hg
  | reset =>
    simp only [Call.run, reset] at hok ⊢
    split_ifs with hleft
    · exact h
    · exact ⟨h.codec_eq, Nat.zero_le _, fun h0 => absurd h0 (lt_irrefl 0)⟩
  | resetForce => exact ⟨h.codec_eq, Nat.zero_le _, fun h0 => absurd h0 (lt_irrefl 0)⟩

/-- The invariant holds in every state of every run. -/
theorem Reachable.inv (hinv : codec.ClassicInv) (h : Reachable codec sbs shards) :
    Inv codec sbs shards := by
  induction h with
  | new shards => exact ⟨rfl, Nat.zero_le _, fun h0 => absurd h0 (lt_irrefl 0)⟩
  | call c _ ih => exact ih.call hinv c
  | write i shard _ hdata hparity ih =>
    refine ⟨ih.codec_eq, ih.curInput_le, fun h0 => ?_⟩
    obtain ⟨len, hpp⟩ := ih.parity h0
    have hi : i < codec.dataShardCount := by
      by_contra hge
      have := hparity (by omega)
      omega
    exact ⟨len, hpp.write shard (hdata hi) hi⟩

/-- Parity that accumulated every column is what `encode` computes. -/
theorem PartialParity.encode_eq (hinv : codec.ClassicInv) {len : Nat}
    (h : PartialParity codec codec.dataShardCount len shards) :
    Grid codec.totalShardCount len shards ∧ ∀ parity, Grid codec.parityShardCount len parity →
      codec.encode (shards.take codec.dataShardCount ++ parity) = (.ok (), shards) := by
  have htotal := codec.totalShardCount_eq
  have hlength := h.length_eq
  have hg : Grid codec.totalShardCount len shards := by
    refine ⟨hlength, fun r hr => ?_⟩
    by_cases hd : r < codec.dataShardCount
    · exact h.data_length r hd
    · have := h.parity_length (r - codec.dataShardCount) (by omega)
      rwa [Nat.add_sub_of_le (by omega)] at this
  refine ⟨hg, fun parity hparity => ?_⟩
  have hd : Grid codec.dataShardCount len (shards.take codec.dataShardCount) :=
    hg.take (by omega)
  have hp : Grid codec.parityShardCount len (shards.drop codec.dataShardCount) := hg.drop htotal
  have hproduct : codec.parityProduct (shards.take codec.dataShardCount) len =
      shards.drop codec.dataShardCount := by
    refine Grid.ext (codec.grid_parityProduct _ len) hp 0 (fun r x hr hx => ?_)
    rw [ReedSolomon.getD_parityProduct _ _ hr hx, getD_drop, h.parity_entry r x hr hx]
    refine Finset.sum_congr rfl (fun c hc => ?_)
    rw [getD_take (Finset.mem_range.mp hc)]
  rw [ReedSolomon.encode_eq hinv h.len_pos hd hparity, hproduct, List.take_append_drop]

variable [DecidableEq E]

/-- The shard by shard state machine over every run: the position stays in range,
failing calls change nothing, `reset` succeeds exactly between batches, and ready
parity is what `encode` computes from the data, whatever parity held. -/
theorem shard_by_shard_runs (h : codec.IsClassic) (hr : Reachable codec sbs shards) :
    sbs.curInput ≤ codec.dataShardCount ∧
      (∀ (c : Call) (e : SBSError), (c.run sbs shards).1 = .err e →
        (c.run sbs shards).2 = (sbs, shards)) ∧
      (sbs.reset.1 = .ok () ↔ sbs.curInput = 0 ∨ sbs.curInput = codec.dataShardCount) ∧
      (sbs.parityReady = true → ∃ len, 0 < len ∧ Grid codec.totalShardCount len shards ∧
        ∀ parity, Grid codec.parityShardCount len parity →
          codec.encode (shards.take codec.dataShardCount ++ parity) = (.ok (), shards)) := by
  have hinv := hr.inv h.inv
  refine ⟨hinv.curInput_le, fun c e he => c.run_unchanged sbs shards (by rw [he]; simp), ?_, ?_⟩
  · rw [reset_ok_iff, hinv.codec_eq]
  · intro hready
    have hcur : sbs.curInput = codec.dataShardCount := by
      rw [← hinv.codec_eq]
      exact beq_iff_eq.mp hready
    obtain ⟨len, hpp⟩ := hinv.parity (by rw [hcur]; exact h.inv.data_pos)
    rw [hcur] at hpp
    exact ⟨len, hpp.len_pos, hpp.encode_eq h.inv⟩

theorem shard_by_shard_runs_sample :
    let first := (Call.encode.run (new sampleCodec) sampleShards).2
    let ready := (Call.encode.run first.1 first.2).2
    ready.1.parityReady = true ∧ ∃ len, 0 < len ∧ Grid 4 len ready.2 ∧
      ∀ parity, Grid 2 len parity →
        sampleCodec.encode (ready.2.take 2 ++ parity) = (.ok (), ready.2) := by
  have hready := shard_by_shard_runs sampleCodec_isClassic
    (.call .encode (.call .encode (.new sampleShards)))
  exact ⟨by decide +kernel, hready.2.2.2 (by decide +kernel)⟩

end Spec

end ShardByShard

end ErasureCodec
