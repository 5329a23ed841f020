import ErasureCodec.Codec.Encode

namespace ErasureCodec

open CodecField

namespace ReedSolomon

section Update

variable {E : Type} [CodecField E] [DecidableEq E] (codec : ReedSolomon E)

/-- The delta scratch and the parity shards during an update. -/
structure UpdateState (E : Type) where
  delta : List E
  parity : List (List E)

/-- One chunk of a changed shard. The scratch is cleared before it is filled. -/
def updateChunk (iData : Nat) (old new : List E) (state : UpdateState E) (window : Nat × Nat) :
    UpdateState E :=
  let old := slice old window.1 window.2
  let new := slice new window.1 window.2
  if old = new then state
  else
    let delta := List.zipWith add old new
    let start := window.1
    let stop := start + delta.length
    { delta := delta
      parity := state.parity.mapIdx fun row output =>
        overwrite start (mulSliceAdd (codec.format.matrix.get (codec.dataShardCount + row) iData)
          delta (slice output start stop)) output }

def updateShard (chunkLen iData : Nat) (old : List E) (new : Option (List E))
    (state : UpdateState E) : UpdateState E :=
  match new with
  | none => state
  | some new => (chunkRanges old.length chunkLen).foldl (codec.updateChunk iData old new) state

/-- The general matrix path. With the small-update feature the same loop runs on
an inline scratch. -/
def updateDelta (oldData : List (List E)) (newData : List (Option (List E)))
    (parity : List (List E)) (chunkLen : Nat) : List (List E) :=
  ((List.range (min oldData.length newData.length)).foldl (fun state iData =>
    codec.updateShard chunkLen iData (oldData.getD iData []) (newData.getD iData none) state)
    ⟨[], parity⟩).parity

/-- Fold one replacement into the single parity shard. -/
def updateFastShard (dst old : List E) (new : Option (List E)) : List E :=
  match new with
  | none => dst
  | some new => overwrite 0 (List.zipWith add dst (List.zipWith add old new)) dst

def updateFastOneParity (oldData : List (List E)) (newData : List (Option (List E)))
    (parity : List (List E)) : List (List E) :=
  parity.set 0 ((List.range (min oldData.length newData.length)).foldl (fun dst iData =>
    updateFastShard dst (oldData.getD iData []) (newData.getD iData none)) (parity.getD 0 []))

def checkUpdate (oldData : List (List E)) (newData : List (Option (List E)))
    (parity : List (List E)) : Outcome Error Unit := do
  if codec.isLeopardFamily then .err .unsupportedCodecFamily
  checkCount oldData.length codec.dataShardCount .tooFewDataShards .tooManyDataShards
  checkCount parity.length codec.parityShardCount .tooFewParityShards .tooManyParityShards
  checkCount newData.length codec.dataShardCount .tooFewDataShards .tooManyDataShards
  checkSlices oldData
  checkSlices parity
  checkSameLen (oldData.getD 0 []) (parity.getD 0 [])
  let shardLen := (oldData.getD 0 []).length
  if shardLen = 0 then .err .emptyShard
  if (newData.filterMap id).any (fun new => new.length ≠ shardLen) then .err .incorrectShardSize

/-- `update`: the result and the parity it leaves. -/
def update (oldData : List (List E)) (newData : List (Option (List E)))
    (parity : List (List E)) : Outcome Error Unit × List (List E) :=
  match codec.checkUpdate oldData newData parity with
  | .ok _ =>
    if newData.any Option.isSome = false then (.ok (), parity)
    else if codec.fastOneParityEnabled then (.ok (), updateFastOneParity oldData newData parity)
    else (.ok (), codec.updateDelta oldData newData parity
      (codeChunkLen (oldData.getD 0 []).length))
  | failed => (failed, parity)

/-- The data shards with the replacements applied. -/
def replaced (oldData : List (List E)) (newData : List (Option (List E))) : List (List E) :=
  List.zipWith (fun old new => new.getD old) oldData newData

end Update

section Spec

variable {E : Type} [CodecField E] [LawfulField E] [DecidableEq E] {codec : ReedSolomon E}

/-- A complete set of replacements for data shards of length `len`. -/
structure Replacements (k len : Nat) (newData : List (Option (List E))) : Prop where
  length_eq : newData.length = k
  len_eq : ∀ i new, newData.getD i none = some new → new.length = len

omit [CodecField E] [LawfulField E] [DecidableEq E] in
theorem getD_replaced {k len i : Nat} {oldData : List (List E)} {newData : List (Option (List E))}
    (hold : Grid k len oldData) (hnew : Replacements k len newData) (hi : i < k) :
    (replaced oldData newData).getD i [] = (newData.getD i none).getD (oldData.getD i []) :=
  getD_zipWith _ _ _ _ (by rw [hold.length_eq]; exact hi) (by rw [hnew.length_eq]; exact hi) [] none _

omit [CodecField E] [LawfulField E] [DecidableEq E] in
theorem grid_replaced {k len : Nat} {oldData : List (List E)} {newData : List (Option (List E))}
    (hold : Grid k len oldData) (hnew : Replacements k len newData) :
    Grid k len (replaced oldData newData) where
  length_eq := by
    rw [replaced, List.length_zipWith, hold.length_eq, hnew.length_eq, Nat.min_self]
  row_length i hi := by
    rw [getD_replaced hold hnew hi]
    cases h : newData.getD i none with
    | none => exact hold.row_length i hi
    | some new => exact hnew.len_eq i new h

omit [CodecField E] [LawfulField E] [DecidableEq E] in
theorem getD_eq_of_slice_eq {start stop x : Nat} {old new : List E}
    (heq : slice old start stop = slice new start stop)
    (hx : start ≤ x ∧ x < stop) (z : E) : old.getD x z = new.getD x z := by
  have ho : (slice old start stop).getD (x - start) z = old.getD x z := by
    rw [getD_slice _ _ _ _ (by omega), Nat.add_sub_of_le hx.1]
  have hn : (slice new start stop).getD (x - start) z = new.getD x z := by
    rw [getD_slice _ _ _ _ (by omega), Nat.add_sub_of_le hx.1]
  rw [← ho, ← hn, heq]

/-- One chunk adds the coefficient's multiple of the change on its window alone. -/
theorem updateChunk_spec {n len start stop : Nat} (codec : ReedSolomon E) (iData : Nat)
    {old new : List E} {state : UpdateState E} (hold : old.length = len) (hnew : new.length = len)
    (hp : Grid n len state.parity) (hw : start < stop) (hstop : stop ≤ len) :
    Grid n len (codec.updateChunk iData old new state (start, stop)).parity ∧
      ∀ r x, r < n → x < len →
        ((codec.updateChunk iData old new state (start, stop)).parity.getD r []).getD x 0 =
          if start ≤ x ∧ x < stop then (state.parity.getD r []).getD x 0 +
            codec.format.matrix.get (codec.dataShardCount + r) iData * (old.getD x 0 + new.getD x 0)
          else (state.parity.getD r []).getD x 0 := by
  have hso := length_slice old start stop (by omega)
  have hsn := length_slice new start stop (by omega)
  simp only [updateChunk]
  split_ifs with heq
  · refine ⟨hp, fun r x hr hx => ?_⟩
    split_ifs with hin
    · rw [getD_eq_of_slice_eq heq hin 0, CharTwo.add_self_eq_zero, mul_zero, add_zero]
    · rfl
  · have hdelta : (List.zipWith add (slice old start stop) (slice new start stop)).length =
        stop - start := by
      rw [List.length_zipWith, hso, hsn, Nat.min_self]
    have hend : start + (List.zipWith add (slice old start stop) (slice new start stop)).length =
        stop := by omega
    simp only [hend]
    have hrow (r : Nat) (hr : r < n) := mulSliceAdd_window
      (codec.format.matrix.get (codec.dataShardCount + r) iData) hdelta (hp.row_length r hr) hstop
    refine ⟨hp.mapIdx _ (fun r hr => (hrow r hr).1), fun r x hr hx => ?_⟩
    rw [getD_mapIdx_of_lt _ _ _ (by rw [hp.length_eq]; exact hr) [], (hrow r hr).2 x hx]
    split_ifs with hin
    · rw [getD_zipWith _ _ _ _ (by omega) (by omega) 0 0, getD_slice _ _ _ _ (by omega),
        getD_slice _ _ _ _ (by omega), Nat.add_sub_of_le hin.1]
      rfl
    · rfl

/-- A pass over one shard adds its whole change, once. -/
theorem updateShard_spec {n len chunkLen : Nat} (codec : ReedSolomon E) (hchunk : 0 < chunkLen)
    (iData : Nat) {old : List E} {new : Option (List E)} {state : UpdateState E}
    (hold : old.length = len) (hnew : ∀ shard, new = some shard → shard.length = len)
    (hp : Grid n len state.parity) :
    Grid n len (codec.updateShard chunkLen iData old new state).parity ∧
      ∀ r x, r < n → x < len →
        ((codec.updateShard chunkLen iData old new state).parity.getD r []).getD x 0 =
          (state.parity.getD r []).getD x 0 +
            codec.format.matrix.get (codec.dataShardCount + r) iData *
              (old.getD x 0 + (new.getD old).getD x 0) := by
  cases new with
  | none =>
    refine ⟨hp, fun r x _ _ => ?_⟩
    rw [Option.getD_none, CharTwo.add_self_eq_zero, mul_zero, add_zero]
    rfl
  | some new =>
    simp only [updateShard, hold, Option.getD_some]
    obtain ⟨hg, hval⟩ := foldl_chunkRanges hchunk (fun pos (t : UpdateState E) =>
      Grid n len t.parity ∧ ∀ r x, r < n → x < len → (t.parity.getD r []).getD x 0 =
        if x < pos then (state.parity.getD r []).getD x 0 +
          codec.format.matrix.get (codec.dataShardCount + r) iData * (old.getD x 0 + new.getD x 0)
        else (state.parity.getD r []).getD x 0)
      (codec.updateChunk iData old new) state ⟨hp, fun r x _ _ => by simp⟩ (by
        intro start stop hw hstop _ t ht
        obtain ⟨hg, hval⟩ := updateChunk_spec codec iData hold (hnew new rfl) ht.1 hw hstop
        refine ⟨hg, fun r x hr hx => ?_⟩
        rw [hval r x hr hx, ht.2 r x hr hx]
        by_cases hdone : x < start
        · rw [if_neg (by omega), if_pos hdone, if_pos (by omega)]
        · rw [if_neg hdone]
          exact if_congr (by omega) rfl rfl)
    exact ⟨hg, fun r x hr hx => (hval r x hr hx).trans (if_pos hx)⟩

omit [DecidableEq E] in
/-- What an update has to leave: each entry moved by the change of every shard. -/
theorem parityProduct_replaced {len r x : Nat} {oldData newData : List (List E)}
    (hr : r < codec.parityShardCount) (hx : x < len) :
    ((codec.parityProduct oldData len).getD r []).getD x 0 +
        ∑ c ∈ Finset.range codec.dataShardCount,
          codec.format.matrix.get (codec.dataShardCount + r) c *
            ((oldData.getD c []).getD x 0 + (newData.getD c []).getD x 0) =
      ((codec.parityProduct newData len).getD r []).getD x 0 := by
  rw [getD_parityProduct _ _ hr hx, getD_parityProduct _ _ hr hx, ← Finset.sum_add_distrib]
  apply Finset.sum_congr rfl
  intro c _
  rw [mul_add, ← add_assoc, CharTwo.add_self_eq_zero, zero_add]

theorem updateDelta_eq {len chunkLen : Nat} (hchunk : 0 < chunkLen) {oldData : List (List E)}
    {newData : List (Option (List E))} (hold : Grid codec.dataShardCount len oldData)
    (hnew : Replacements codec.dataShardCount len newData) :
    codec.updateDelta oldData newData (codec.parityProduct oldData len) chunkLen =
      codec.parityProduct (replaced oldData newData) len := by
  have hparity := codec.grid_parityProduct oldData len
  unfold updateDelta
  rw [hold.length_eq, hnew.length_eq, Nat.min_self]
  obtain ⟨hg, hval⟩ := foldl_range_inv (fun i (t : UpdateState E) =>
    Grid codec.parityShardCount len t.parity ∧ ∀ r x, r < codec.parityShardCount → x < len →
      (t.parity.getD r []).getD x 0 = ((codec.parityProduct oldData len).getD r []).getD x 0 +
        ∑ c ∈ Finset.range i, codec.format.matrix.get (codec.dataShardCount + r) c *
          ((oldData.getD c []).getD x 0 + ((replaced oldData newData).getD c []).getD x 0))
    (fun state iData =>
      codec.updateShard chunkLen iData (oldData.getD iData []) (newData.getD iData none) state)
    codec.dataShardCount ⟨[], codec.parityProduct oldData len⟩
    ⟨hparity, fun r x _ _ => by simp⟩ (by
      intro i hi t ht
      obtain ⟨hg, hval⟩ := updateShard_spec codec hchunk i (hold.row_length i hi)
        (fun shard h => hnew.len_eq i shard h) ht.1
      refine ⟨hg, fun r x hr hx => ?_⟩
      rw [hval r x hr hx, ht.2 r x hr hx, Finset.sum_range_succ, getD_replaced hold hnew hi,
        add_assoc])
  apply Grid.ext hg (codec.grid_parityProduct _ len) 0
  intro r x hr hx
  rw [hval r x hr hx, parityProduct_replaced hr hx]

omit [DecidableEq E] in
theorem updateFastShard_spec {len : Nat} {dst old : List E} {new : Option (List E)}
    (hdst : dst.length = len) (hold : old.length = len)
    (hnew : ∀ shard, new = some shard → shard.length = len) :
    (updateFastShard dst old new).length = len ∧ ∀ x, x < len →
      (updateFastShard dst old new).getD x 0 =
        dst.getD x 0 + (old.getD x 0 + (new.getD old).getD x 0) := by
  cases new with
  | none =>
    refine ⟨hdst, fun x _ => ?_⟩
    rw [Option.getD_none, CharTwo.add_self_eq_zero, add_zero]
    rfl
  | some new =>
    have hn := hnew new rfl
    have hdelta : (List.zipWith add old new).length = len := by simp [hold, hn]
    simp only [updateFastShard, Option.getD_some]
    refine ⟨by rw [length_overwrite, hdst], fun x hx => ?_⟩
    rw [getD_overwrite, if_pos ⟨Nat.zero_le x, by simp; omega, by omega⟩, Nat.sub_zero,
      getD_zipWith _ _ _ _ (by omega) (by omega) 0 0, getD_zipWith _ _ _ _ (by omega) (by omega) 0 0]
    rfl

omit [DecidableEq E] in
theorem updateFastOneParity_eq (h : codec.ClassicInv) (hfast : codec.fastOneParityEnabled = true)
    {len : Nat} {oldData : List (List E)} {newData : List (Option (List E))}
    (hold : Grid codec.dataShardCount len oldData)
    (hnew : Replacements codec.dataShardCount len newData) :
    updateFastOneParity oldData newData (codec.parityProduct oldData len) =
      codec.parityProduct (replaced oldData newData) len := by
  have hone : codec.parityShardCount = 1 := by
    simp only [fastOneParityEnabled, Bool.and_eq_true, beq_iff_eq] at hfast
    exact hfast.2
  have hones := h.fast_ones hfast
  have hparity := codec.grid_parityProduct oldData len
  have hpos : 0 < (codec.parityProduct oldData len).length := by
    rw [hparity.length_eq]
    exact h.parity_pos
  unfold updateFastOneParity
  rw [hold.length_eq, hnew.length_eq, Nat.min_self]
  obtain ⟨hl, hval⟩ := foldl_range_inv (fun i (t : List E) =>
    t.length = len ∧ ∀ x, x < len →
      t.getD x 0 = ((codec.parityProduct oldData len).getD 0 []).getD x 0 +
        ∑ c ∈ Finset.range i, codec.format.matrix.get (codec.dataShardCount + 0) c *
          ((oldData.getD c []).getD x 0 + ((replaced oldData newData).getD c []).getD x 0))
    (fun dst iData => updateFastShard dst (oldData.getD iData []) (newData.getD iData none))
    codec.dataShardCount ((codec.parityProduct oldData len).getD 0 [])
    ⟨hparity.row_length 0 h.parity_pos, fun x _ => by simp⟩ (by
      intro i hi t ht
      obtain ⟨hl, hval⟩ := updateFastShard_spec ht.1 (hold.row_length i hi)
        (fun shard h => hnew.len_eq i shard h)
      refine ⟨hl, fun x hx => ?_⟩
      rw [hval x hx, ht.2 x hx, Finset.sum_range_succ, getD_replaced hold hnew hi, Nat.add_zero,
        hones i hi, one_eq, one_mul, add_assoc])
  apply Grid.ext ⟨by rw [List.length_set]; exact hparity.length_eq, fun r hr => ?_⟩
    (codec.grid_parityProduct _ len) 0
  · intro r x hr hx
    obtain rfl : r = 0 := by omega
    rw [getD_set, if_pos ⟨rfl, hpos⟩, hval x hx, parityProduct_replaced hr hx]
  · rw [getD_set, if_pos ⟨by omega, hpos⟩]
    exact hl

omit [CodecField E] [LawfulField E] [DecidableEq E] in
theorem checkUpdate_eq_ok {codec : ReedSolomon E} (hfamily : codec.isLeopardFamily = false)
    (hd : 0 < codec.dataShardCount) (hp : 0 < codec.parityShardCount) {len : Nat} (hlen : 0 < len)
    {oldData parity : List (List E)} {newData : List (Option (List E))}
    (hold : Grid codec.dataShardCount len oldData)
    (hnew : Replacements codec.dataShardCount len newData)
    (hparity : Grid codec.parityShardCount len parity) :
    codec.checkUpdate oldData newData parity = .ok () := by
  have hcounts := (checkEncodeSep_ok hd hp).mpr ⟨len, hlen, hold, hparity⟩
  simp only [checkEncodeSep, Outcome.check_bind_eq_ok] at hcounts
  obtain ⟨h1, h2, h3, h4, h5⟩ := hcounts
  have h6 : checkCount newData.length codec.dataShardCount .tooFewDataShards .tooManyDataShards =
      .ok () := checkCount_ok.mpr hnew.length_eq
  have hhead := hold.row_length 0 hd
  have hlens : (newData.filterMap id).any (fun new => new.length ≠ len) = false := by
    rw [List.any_eq_false]
    intro new hmem
    obtain ⟨i, hi, hget⟩ := List.mem_iff_getElem.mp (by simpa using hmem : some new ∈ newData)
    have := hnew.len_eq i new (by rw [List.getD_eq_getElem _ _ hi, hget])
    simpa using this
  simp only [checkUpdate, hfamily, h1, h2, h3, h4, h5, h6, hhead, hlens, Outcome.ok_bind,
    Bool.false_eq_true, if_false, hlen.ne', Outcome.pure_eq]

theorem update_eq (h : codec.ClassicInv) {len : Nat} (hlen : 0 < len) {oldData : List (List E)}
    {newData : List (Option (List E))} (hold : Grid codec.dataShardCount len oldData)
    (hnew : Replacements codec.dataShardCount len newData) :
    codec.update oldData newData (codec.parityProduct oldData len) =
      (.ok (), codec.parityProduct (replaced oldData newData) len) := by
  unfold update
  rw [checkUpdate_eq_ok h.isLeopardFamily_eq h.data_pos h.parity_pos hlen hold hnew
    (codec.grid_parityProduct oldData len)]
  simp only [hold.row_length 0 h.data_pos]
  split_ifs with hnone hfast
  · -- without a replacement the data shards are the old ones
    have hsame : replaced oldData newData = oldData := by
      apply Grid.ext (grid_replaced hold hnew) hold 0
      intro r x hr _
      have hr' : r < newData.length := by rw [hnew.length_eq]; exact hr
      have hget : newData.getD r none = none := by
        rw [List.any_eq_false] at hnone
        rw [List.getD_eq_getElem _ _ hr']
        simpa using hnone _ (List.getElem_mem hr')
      rw [getD_replaced hold hnew hr, hget]
      rfl
    rw [hsame]
  · rw [updateFastOneParity_eq h hfast hold hnew]
  · rw [updateDelta_eq (codeChunkLen_pos hlen) hold hnew]

omit [LawfulField E] in
theorem update_err_parity (codec : ReedSolomon E) {oldData parity parity' : List (List E)}
    {newData : List (Option (List E))} {e : Error}
    (h : codec.update oldData newData parity = (.err e, parity')) : parity' = parity := by
  unfold update at h
  cases hcheck : codec.checkUpdate oldData newData parity with
  | ok _ =>
    rw [hcheck] at h
    simp only at h
    split_ifs at h <;> cases congrArg Prod.fst h
  | err e' =>
    rw [hcheck] at h
    exact (congrArg Prod.snd h).symm
  | panic =>
    rw [hcheck] at h
    exact (congrArg Prod.snd h).symm

/-- Updating the parity of the old data gives the parity of the new data, and a
rejected update leaves the parity alone. -/
theorem update_eq_reencode (codec : ReedSolomon E) :
    (codec.IsClassic → ∀ (len : Nat) (oldData blank parity : List (List E)) (newData : List (Option (List E))),
      0 < len → Grid codec.dataShardCount len oldData → Grid codec.parityShardCount len blank →
      newData.length = codec.dataShardCount →
      (∀ new, some new ∈ newData → new.length = len) →
      codec.encodeSep oldData blank = (.ok (), parity) →
      ∃ updated, codec.update oldData newData parity = (.ok (), updated) ∧
        codec.encodeSep (replaced oldData newData) blank = (.ok (), updated)) ∧
    ∀ (oldData parity parity' : List (List E)) (newData : List (Option (List E))) (e : Error),
      codec.update oldData newData parity = (.err e, parity') → parity' = parity := by
  refine ⟨?_, fun _ _ _ _ _ herr => update_err_parity codec herr⟩
  intro h len oldData blank parity newData hlen hold hblank hcount hlens hparity
  have hnew : Replacements codec.dataShardCount len newData := by
    refine ⟨hcount, fun i new hget => hlens new ?_⟩
    by_cases hi : i < newData.length
    · rw [List.getD_eq_getElem _ _ hi] at hget
      rw [← hget]
      exact List.getElem_mem hi
    · rw [List.getD_eq_default _ _ (Nat.le_of_not_lt hi)] at hget
      cases hget
  rw [encodeSep_eq h.inv hlen hold hblank] at hparity
  obtain rfl := (Prod.mk.inj hparity).2
  exact ⟨_, update_eq h.inv hlen hold hnew, encodeSep_eq h.inv hlen (grid_replaced hold hnew) hblank⟩

theorem update_eq_reencode_sample :
    ∃ updated, sampleCodec.update [[1#8, 4#8], [2#8, 5#8]] [none, some [2#8, 7#8]]
        (sampleCodec.encodeSep [[1#8, 4#8], [2#8, 5#8]] [[0#8, 0#8], [0#8, 0#8]]).2 =
          (.ok (), updated) ∧
      sampleCodec.encodeSep [[1#8, 4#8], [2#8, 7#8]] [[0#8, 0#8], [0#8, 0#8]] =
        (.ok (), updated) :=
  (update_eq_reencode sampleCodec).1 sampleCodec_isClassic 2 [[1#8, 4#8], [2#8, 5#8]] [[0#8, 0#8], [0#8, 0#8]]
    _ [none, some [2#8, 7#8]] (by decide) ⟨rfl, by decide⟩ ⟨rfl, by decide⟩ rfl
    (fun new hnew => by
      rcases List.mem_cons.mp hnew with hnew | hnew
      · cases hnew
      · rw [Option.some.inj (List.mem_singleton.mp hnew)]
        rfl) (Prod.ext (by decide +kernel) rfl)

end Spec

end ReedSolomon

end ErasureCodec
