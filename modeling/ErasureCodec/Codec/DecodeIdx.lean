import ErasureCodec.Codec.Restore

namespace ErasureCodec

open CodecField

section Accumulate

variable {E : Type} [CodecField E]

/-- `mul_slice_xor` on one window of an output. -/
def mulSliceXorWindow (coefficient : E) (input : List E) (window : Nat × Nat) (output : List E) :
    List E :=
  overwrite window.1 (mulSliceAdd coefficient (slice input window.1 window.2)
    (slice output window.1 window.2)) output

/-- The loop of a single output. -/
def accumulateOne (chunkLen : Nat) (row : List E) (inputs : List (List E)) (output : List E) :
    List E :=
  (chunkRanges output.length chunkLen).foldl (fun output window =>
    (List.range inputs.length).foldl (fun output iInput =>
      mulSliceXorWindow (row.getD iInput zero) (inputs.getD iInput []) window output) output) output

/-- The loop of two outputs, which share every input chunk. -/
def accumulateTwo (chunkLen : Nat) (row0 row1 : List E) (inputs : List (List E))
    (output0 output1 : List E) : List E × List E :=
  (chunkRanges output0.length chunkLen).foldl (fun outputs window =>
    let input0 := inputs.getD 0 []
    (List.range' 1 (inputs.length - 1)).foldl (fun outputs iInput =>
      let input := inputs.getD iInput []
      (mulSliceXorWindow (row0.getD iInput zero) input window outputs.1,
        mulSliceXorWindow (row1.getD iInput zero) input window outputs.2))
      (mulSliceXorWindow (row0.getD 0 zero) input0 window outputs.1,
        mulSliceXorWindow (row1.getD 0 zero) input0 window outputs.2)) (output0, output1)

/-- The loop of one of many outputs, over coefficient and input pairs. -/
def accumulateZip (chunkLen : Nat) (row : List E) (inputs : List (List E)) (output : List E) :
    List E :=
  (chunkRanges output.length chunkLen).foldl (fun output window =>
    (row.zip inputs).foldl (fun output pair =>
      mulSliceXorWindow pair.1 pair.2 window output) output) output

def decodeIdxAccumulateReducedOutputs (matrixRows inputs outputs : List (List E)) :
    List (List E) :=
  let shardLen := (inputs.head?.map List.length).getD 0
  if shardLen = 0 then outputs
  else
    let chunkLen := codeChunkLen shardLen
    match outputs with
    | [output] => [accumulateOne chunkLen (matrixRows.getD 0 []) inputs output]
    | [output0, output1] =>
      let (output0, output1) := accumulateTwo chunkLen (matrixRows.getD 0 [])
        (matrixRows.getD 1 []) inputs output0 output1
      [output0, output1]
    | outputs => List.zipWith (fun row output => accumulateZip chunkLen row inputs output)
        matrixRows outputs

end Accumulate

namespace ReedSolomon

section Entry

variable {E : Type} [CodecField E] [DecidableEq E] [CachePlatform E] (codec : ReedSolomon E)

/-- The coefficients of one output for the supplied columns only. -/
def reducedRow (dataDecodeMatrix : CodingMatrix E) (inputPositions : List Nat) (idx : Nat) :
    List E :=
  if idx < codec.dataShardCount then inputPositions.map (dataDecodeMatrix.get idx)
  else
    let parityRow := codec.getParityRows.getD (idx - codec.dataShardCount) []
    inputPositions.map fun col =>
      (List.range codec.dataShardCount).foldl (fun acc i =>
        add acc (mul (parityRow.getD i zero) (dataDecodeMatrix.get i col))) zero

/-- The columns and contents of the selected inputs that were supplied. -/
def suppliedInputs (validIndices : List Nat) (input : List (Option (List E))) :
    List (Nat × List E) :=
  (validIndices.take codec.dataShardCount).zipIdx.filterMap fun entry =>
    (input.getD entry.1 none).map fun shard => (entry.2, shard)

/-- Write `outputs` back to the destinations `indices`. -/
def writeOutputs (dst : List (Option (List E))) (indices : List Nat) (outputs : List (List E)) :
    List (Option (List E)) :=
  (indices.zip outputs).foldl (fun dst entry => dst.set entry.1 (some entry.2)) dst

/-- The contribution of one call once the layout is known. -/
def contribute (cache : InversionCache E) (dst input : List (Option (List E)))
    (validIndices invalidIndices : List Nat) :
    (Outcome Error Unit × List (Option (List E))) × InversionCache E :=
  let outputIndices := (List.range dst.length).filter fun idx => (dst.getD idx none).isSome
  let supplied := codec.suppliedInputs validIndices input
  if outputIndices.isEmpty || supplied.isEmpty then ((.ok (), dst), cache)
  else
    match codec.getDataDecodeMatrix cache validIndices invalidIndices with
    | (.err e, cache) => ((.err e, dst), cache)
    | (.panic, cache) => ((.panic, dst), cache)
    | (.ok dataDecodeMatrix, cache) =>
      let reducedRows := outputIndices.map
        (codec.reducedRow dataDecodeMatrix (supplied.map Prod.fst))
      let outputs := outputIndices.map fun idx => (dst.getD idx none).getD []
      ((.ok (), writeOutputs dst outputIndices (decodeIdxAccumulateReducedOutputs reducedRows
        (supplied.map Prod.snd) outputs)), cache)

/-- The checks and selection of a masked call. -/
def checkExpected (dst input : List (Option (List E))) (expected : List Bool) :
    Outcome Error (List Nat × List Nat) :=
  if expected.length ≠ codec.totalShardCount then .err .invalidShardFlags
  else
    let validIndices := (List.range expected.length).filter fun idx => expected.getD idx false
    let invalidIndices := (List.range expected.length).filter fun idx => !expected.getD idx false
    if validIndices.length < codec.dataShardCount then .err .tooFewShardsPresent
    else
      match (input ++ dst).findSome? fun shard => shard.map List.length with
      | none => .err .tooFewShardsPresent
      | some shardLen =>
        if input.any fun shard => shard.any fun shard => shard.length ≠ shardLen then
          .err .incorrectShardSize
        else if dst.any fun shard => shard.any fun shard => shard.length ≠ shardLen then
          .err .incorrectShardSize
        else .ok (validIndices, invalidIndices)

/-- One pair of the merge layout. -/
def checkMergePair (pair : Option (List E) × Option (List E)) : Outcome Error Unit :=
  match pair.2 with
  | none => .ok ()
  | some input =>
    match pair.1 with
    | none => .err .tooFewShards
    | some dst => if dst.length ≠ input.length then .err .incorrectShardSize else .ok ()

/-- One pair of the merge itself. -/
def mergePair (dst input : Option (List E)) : Option (List E) :=
  match dst, input with
  | some dst, some input => some (List.zipWith add dst input)
  | dst, _ => dst

/-- `decode_idx`: the result, the destinations and the cache it leaves. -/
def decodeIdx (cache : InversionCache E) (dst : List (Option (List E)))
    (expectInput : Option (List Bool)) (input : List (Option (List E))) :
    (Outcome Error Unit × List (Option (List E))) × InversionCache E :=
  match (do
    if codec.isLeopardFamily then .err .unsupportedCodecFamily
    checkCount dst.length codec.totalShardCount .tooFewShards .tooManyShards
    checkCount input.length codec.totalShardCount .tooFewShards .tooManyShards :
      Outcome Error Unit) with
  | .err e => ((.err e, dst), cache)
  | .panic => ((.panic, dst), cache)
  | .ok _ =>
    match expectInput with
    | some expected =>
      match codec.checkExpected dst input expected with
      | .err e => ((.err e, dst), cache)
      | .panic => ((.panic, dst), cache)
      | .ok (validIndices, invalidIndices) =>
        codec.contribute cache dst input validIndices invalidIndices
    | none =>
      match (dst.zip input).forM checkMergePair with
      | .err e => ((.err e, dst), cache)
      | .panic => ((.panic, dst), cache)
      | .ok _ => ((.ok (), List.zipWith mergePair dst input), cache)

end Entry

end ReedSolomon

section AccumulateSpec

variable {E : Type} [CodecField E] [LawfulField E]

/-- An output with the product of a row and the inputs added to it. -/
noncomputable def addCoded (row : List E) (inputs : List (List E)) (n : Nat) (output : List E) :
    List E :=
  List.zipWith (· + ·) output (codedShard row inputs n)

theorem length_addCoded {row output : List E} {inputs : List (List E)} {n : Nat}
    (h : output.length = n) : (addCoded row inputs n output).length = n := by
  simp [addCoded, h]

theorem getD_addCoded {row output : List E} {inputs : List (List E)} {n x : Nat}
    (h : output.length = n) (hx : x < n) : (addCoded row inputs n output).getD x 0 =
      output.getD x 0 + rowDot row inputs x := by
  rw [addCoded, getD_zipWith _ _ _ _ (by omega) (by rw [length_codedShard]; exact hx) 0 0,
    getD_codedShard _ _ hx]

/-- The first `i` inputs have been added to the window `start..stop`. -/
structure AddedInputs (row : List E) (inputs : List (List E)) (n start stop : Nat)
    (before : List E) (i : Nat) (output : List E) : Prop where
  length_eq : output.length = n
  value_eq : ∀ x, x < n → output.getD x 0 = before.getD x 0 +
    if start ≤ x ∧ x < stop then
      ∑ c ∈ Finset.range i, row.getD c 0 * (inputs.getD c []).getD x 0 else 0

theorem AddedInputs.step {row before output input : List E} {inputs : List (List E)}
    {n start stop i : Nat} (hstop : stop ≤ n) {coefficient : E}
    (hc : coefficient = row.getD i 0) (hin : inputs.getD i [] = input) (hlen : input.length = n)
    (h : AddedInputs row inputs n start stop before i output) :
    AddedInputs row inputs n start stop before (i + 1)
      (mulSliceXorWindow coefficient input (start, stop) output) := by
  obtain ⟨hl, hv⟩ := mulSliceAdd_window coefficient
    (length_slice input start stop (by omega)) h.length_eq hstop
  refine ⟨hl, fun x hx => ?_⟩
  rw [mulSliceXorWindow, hv x hx, h.value_eq x hx]
  by_cases hw : start ≤ x ∧ x < stop
  · rw [if_pos hw, if_pos hw, if_pos hw, getD_slice _ _ _ _ (by omega), Nat.add_sub_of_le hw.1,
      Finset.sum_range_succ, hin, hc, add_assoc]
  · rw [if_neg hw, if_neg hw, if_neg hw]

/-- The windows up to `i` have received all inputs. -/
structure AddedUpTo (row : List E) (inputs : List (List E)) (n : Nat) (before : List E) (i : Nat)
    (output : List E) : Prop where
  length_eq : output.length = n
  value_eq : ∀ x, x < n → output.getD x 0 = before.getD x 0 +
    if x < i then rowDot row inputs x else 0

theorem AddedUpTo.start {row before output : List E} {inputs : List (List E)} {n start stop : Nat}
    (h : AddedUpTo row inputs n before start output) :
    AddedInputs row inputs n start stop output 0 output :=
  ⟨h.length_eq, fun x _ => by simp⟩

theorem AddedUpTo.window {row before output output' : List E} {inputs : List (List E)}
    {n start stop : Nat} (hlt : start < stop) (h : AddedUpTo row inputs n before start output)
    (h' : AddedInputs row inputs n start stop output inputs.length output') :
    AddedUpTo row inputs n before stop output' := by
  refine ⟨h'.length_eq, fun x hx => ?_⟩
  rw [h'.value_eq x hx, h.value_eq x hx]
  rcases Nat.lt_or_ge x start with h1 | h1
  · rw [if_pos h1, if_neg (by omega), if_pos (by omega), add_zero]
  · rcases Nat.lt_or_ge x stop with h2 | h2
    · rw [if_neg (by omega), if_pos ⟨h1, h2⟩, if_pos h2, add_zero]
      rfl
    · rw [if_neg (by omega), if_neg (by omega), if_neg (by omega), add_zero]

theorem AddedUpTo.finish {row before output : List E} {inputs : List (List E)} {n : Nat}
    (hb : before.length = n) (h : AddedUpTo row inputs n before n output) :
    output = addCoded row inputs n before := by
  refine getD_ext 0 (by rw [h.length_eq, length_addCoded hb]) (fun x hx => ?_)
  rw [h.length_eq] at hx
  rw [h.value_eq x hx, if_pos hx, getD_addCoded hb hx]

variable {n m : Nat} {inputs : List (List E)}

theorem accumulateOne_eq (hin : Grid m n inputs) {size : Nat} (hs : 0 < size) (row : List E)
    {output : List E} (hout : output.length = n) :
    accumulateOne size row inputs output = addCoded row inputs n output := by
  refine AddedUpTo.finish hout ?_
  unfold accumulateOne
  rw [hout]
  refine foldl_chunkRanges hs (AddedUpTo row inputs n output) _ output
    ⟨hout, fun x _ => by simp⟩ (fun start stop hlt hstop _ t ht => ht.window hlt ?_)
  refine foldl_range_inv (AddedInputs row inputs n start stop t) _ inputs.length t ht.start
    (fun i hi u hu => hu.step hstop rfl rfl ?_)
  exact hin.row_length i (by rw [← hin.length_eq]; exact hi)

theorem accumulateTwo_eq (hin : Grid m n inputs) (hm : 0 < m) {size : Nat} (hs : 0 < size)
    (row0 row1 : List E) {output0 output1 : List E} (hout0 : output0.length = n)
    (hout1 : output1.length = n) :
    accumulateTwo size row0 row1 inputs output0 output1 =
      (addCoded row0 inputs n output0, addCoded row1 inputs n output1) := by
  have hend : AddedUpTo row0 inputs n output0 n
        (accumulateTwo size row0 row1 inputs output0 output1).1 ∧
      AddedUpTo row1 inputs n output1 n
        (accumulateTwo size row0 row1 inputs output0 output1).2 := by
    unfold accumulateTwo
    rw [hout0]
    refine foldl_chunkRanges hs (fun i t => AddedUpTo row0 inputs n output0 i t.1 ∧
      AddedUpTo row1 inputs n output1 i t.2) _ (output0, output1)
      ⟨⟨hout0, fun x _ => by simp⟩, ⟨hout1, fun x _ => by simp⟩⟩
      (fun start stop hlt hstop _ t ht => ?_)
    have hfirst := hin.row_length 0 hm
    have hloop := foldl_range'_inv (fun i u => AddedInputs row0 inputs n start stop t.1 i u.1 ∧
        AddedInputs row1 inputs n start stop t.2 i u.2)
      (fun outputs iInput =>
        (mulSliceXorWindow (row0.getD iInput zero) (inputs.getD iInput []) (start, stop) outputs.1,
          mulSliceXorWindow (row1.getD iInput zero) (inputs.getD iInput []) (start, stop) outputs.2))
      1 (inputs.length - 1)
      (mulSliceXorWindow (row0.getD 0 zero) (inputs.getD 0 []) (start, stop) t.1,
        mulSliceXorWindow (row1.getD 0 zero) (inputs.getD 0 []) (start, stop) t.2)
      ⟨ht.1.start.step hstop rfl rfl hfirst, ht.2.start.step hstop rfl rfl hfirst⟩
      (fun i _ hi u hu => by
        have hlen := hin.row_length i (by have := hin.length_eq; omega)
        exact ⟨hu.1.step hstop rfl rfl hlen, hu.2.step hstop rfl rfl hlen⟩)
    rw [show 1 + (inputs.length - 1) = inputs.length by have := hin.length_eq; omega] at hloop
    exact ⟨ht.1.window hlt hloop.1, ht.2.window hlt hloop.2⟩
  exact Prod.ext (hend.1.finish hout0) (hend.2.finish hout1)

theorem accumulateZip_eq (hin : Grid m n inputs) {size : Nat} (hs : 0 < size) {row : List E}
    (hrow : row.length = m) {output : List E} (hout : output.length = n) :
    accumulateZip size row inputs output = addCoded row inputs n output := by
  have hzip (window : Nat × Nat) (t : List E) :
      (row.zip inputs).foldl (fun output pair => mulSliceXorWindow pair.1 pair.2 window output) t =
        (List.range inputs.length).foldl (fun output iInput =>
          mulSliceXorWindow (row.getD iInput zero) (inputs.getD iInput []) window output) t := by
    have hpairs : row.zip inputs = (List.range inputs.length).map fun i =>
        (row.getD i zero, inputs.getD i []) := by
      refine List.ext_getElem (by simp [hrow, hin.length_eq]) (fun i h1 h2 => ?_)
      simp only [List.length_zip, lt_min_iff] at h1
      rw [List.getElem_zip, List.getElem_map, List.getElem_range,
        List.getD_eq_getElem _ _ h1.1, List.getD_eq_getElem _ _ h1.2]
    rw [hpairs, List.foldl_map]
  rw [← accumulateOne_eq hin hs row hout]
  unfold accumulateZip accumulateOne
  simp only [hzip]

/-- All three loops add the product to every output. -/
theorem decodeIdxAccumulateReducedOutputs_eq (hin : Grid m n inputs) (hm : 0 < m)
    {rows outputs : List (List E)} (hrows : Grid outputs.length m rows)
    (hout : ∀ output ∈ outputs, output.length = n) :
    decodeIdxAccumulateReducedOutputs rows inputs outputs =
      List.zipWith (fun row output => addCoded row inputs n output) rows outputs := by
  have hhead : (inputs.head?.map List.length).getD 0 = n := by
    have h0 := hin.row_length 0 hm
    cases inputs with
    | nil => exact absurd hin.length_eq (by simp; omega)
    | cons a l => simpa using h0
  have hget : rows = (List.range outputs.length).map (rows.getD · []) := by
    refine List.ext_getElem (by simp [hrows.length_eq]) (fun i h1 h2 => ?_)
    rw [List.getElem_map, List.getElem_range, List.getD_eq_getElem _ _ h1]
  unfold decodeIdxAccumulateReducedOutputs
  simp only [hhead]
  split_ifs with hn
  · subst hn
    refine List.ext_getElem (by simp [hrows.length_eq]) (fun i h1 h2 => ?_)
    have hnil (l : List E) (h : l.length = 0) : l = [] := List.eq_nil_of_length_eq_zero h
    rw [List.getElem_zipWith, hnil _ (hout _ (List.getElem_mem h1)), addCoded, List.zipWith_nil_left]
  · have hs := codeChunkLen_pos (Nat.pos_of_ne_zero hn)
    split
    · rename_i output
      rw [hget, accumulateOne_eq hin hs _ (hout output (by simp))]
      rfl
    · rename_i output0 output1
      rw [accumulateTwo_eq hin hm hs _ _ (hout output0 (by simp)) (hout output1 (by simp)), hget]
      rfl
    · refine List.ext_getElem (by simp) (fun i h1 h2 => ?_)
      simp only [List.length_zipWith, lt_min_iff] at h1
      rw [List.getElem_zipWith, List.getElem_zipWith, accumulateZip_eq hin hs
        (hrows.forall (List.getElem_mem h1.1)) (hout _ (List.getElem_mem h1.2))]

end AccumulateSpec

namespace ReedSolomon

section Progressive

variable {E : Type} [CodecField E] [DecidableEq E] [CachePlatform E]

/-- A progressive recovery: zeroed destinations, one more batch, or the merge of
two partial results. -/
inductive Progressive (E : Type) where
  | zero
  | contribute (rest : Progressive E) (batch : List (Option (List E)))
  | merge (left right : Progressive E)

/-- The batches in the order they are delivered. -/
def Progressive.batches : Progressive E → List (List (Option (List E)))
  | .zero => []
  | .contribute rest batch => rest.batches ++ [batch]
  | .merge left right => left.batches ++ right.batches

/-- Destinations at the indices `outs`. -/
def destinations (codec : ReedSolomon E) (outs : Nat → Bool) (content : Nat → List E) :
    List (Option (List E)) :=
  (List.range codec.totalShardCount).map fun i => if outs i then some (content i) else none

/-- Run a progressive recovery on destinations of length `n`. -/
def Progressive.run (codec : ReedSolomon E) (n : Nat) (outs : Nat → Bool) (expected : List Bool) :
    Progressive E → InversionCache E →
      (Outcome Error Unit × List (Option (List E))) × InversionCache E
  | .zero, cache => ((.ok (), codec.destinations outs fun _ => List.replicate n CodecField.zero), cache)
  | .contribute rest batch, cache =>
    match rest.run codec n outs expected cache with
    | ((.ok _, dst), cache) => codec.decodeIdx cache dst (some expected) batch
    | failed => failed
  | .merge left right, cache =>
    match left.run codec n outs expected cache with
    | ((.ok _, dst), cache) =>
      match right.run codec n outs expected cache with
      | ((.ok _, input), cache) => codec.decodeIdx cache dst none input
      | failed => failed
    | failed => failed

end Progressive

section Coefficients

variable {E : Type} [CodecField E] [LawfulField E] {codec : ReedSolomon E} {valid : List Nat}

/-- The coefficient of survivor column `col` in shard `t`. -/
noncomputable def coefficient (codec : ReedSolomon E) (decode : CodingMatrix E) (t col : Nat) : E :=
  ∑ i ∈ Finset.range codec.dataShardCount, codec.format.matrix.get t i * decode.get i col

private theorem foldl_range_add (k : Nat) (f : Nat → E) :
    (List.range k).foldl (fun acc i => add acc (f i)) zero = ∑ i ∈ Finset.range k, f i := by
  induction k with
  | zero => rfl
  | succ k ih =>
    rw [List.range_succ, List.foldl_append, ih, Finset.sum_range_succ]
    rfl

/-- Decode rows and composed parity rows hold the coefficients. -/
theorem reducedRow_eq (hinv : codec.ClassicInv) (decode : CodingMatrix E) (positions : List Nat)
    {t : Nat} (ht : t < codec.totalShardCount) :
    codec.reducedRow decode positions t = positions.map (codec.coefficient decode t) := by
  have htotal := codec.totalShardCount_eq
  unfold reducedRow
  split_ifs with hlt
  · refine List.map_congr_left (fun col _ => ?_)
    rw [coefficient, Finset.sum_eq_single t]
    · rw [hinv.systematic t t hlt hlt, if_pos rfl, one_eq, one_mul]
    · intro i hi hne
      rw [hinv.systematic t i hlt (Finset.mem_range.mp hi), if_neg (Ne.symm hne), zero_eq, zero_mul]
    · intro hnot
      exact absurd (Finset.mem_range.mpr hlt) hnot
  · refine List.map_congr_left (fun col _ => ?_)
    rw [foldl_range_add, coefficient, getParityRows_getD codec (by omega),
      Nat.add_sub_of_le (not_lt.mp hlt)]
    refine Finset.sum_congr rfl (fun i hi => ?_)
    rw [codec.format.matrix.getD_getRow (by rw [hinv.colCount_eq]; exact Finset.mem_range.mp hi) _
      (by rw [hinv.rowCount_eq]; exact ht)]
    rfl

/-- The coefficients restore any shard from the survivors. -/
theorem Decodes.restoredValue_eq {decode : CodingMatrix E} (h : codec.Decodes valid decode)
    (s : Nat → E) (t : Nat) : codec.restoredValue valid s t =
      ∑ col ∈ Finset.range codec.dataShardCount, codec.coefficient decode t col * s col := by
  unfold restoredValue coefficient
  simp only [Finset.sum_mul]
  rw [Finset.sum_comm]
  refine Finset.sum_congr rfl (fun i hi => ?_)
  rw [h.restoredData_eq s (Finset.mem_range.mp hi), Finset.mul_sum]
  refine Finset.sum_congr rfl (fun col _ => ?_)
  rw [mul_assoc]

private theorem sum_filterMap {α β M : Type*} [AddCommMonoid M] (l : List α) (g : α → Option β)
    (h : β → M) :
    ((l.filterMap g).map h).sum = (l.map fun a => ((g a).map h).getD 0).sum := by
  induction l with
  | nil => rfl
  | cons a l ih =>
    rw [List.filterMap_cons, List.map_cons, List.sum_cons, ← ih]
    cases g a with
    | none => simp
    | some b => simp

private theorem rowDot_pairs (l : List (Nat × List E)) (f : Nat → E) (x : Nat) :
    rowDot (l.map fun p => f p.1) (l.map Prod.snd) x =
      (l.map fun p => f p.1 * p.2.getD x 0).sum := by
  unfold rowDot
  rw [List.length_map]
  induction l with
  | nil => simp
  | cons p l ih =>
    rw [List.length_cons, Finset.sum_range_succ', List.map_cons, List.map_cons, List.map_cons,
      List.sum_cons, ← ih, add_comm]
    simp only [List.getD_cons_succ, List.getD_cons_zero]

private theorem sum_zipIdx {M : Type*} [AddCommMonoid M] (l : List Nat) (f : Nat → Nat → M)
    (a : Nat) : ((l.zipIdx a).map fun p => f p.1 p.2).sum =
      ∑ j ∈ Finset.range l.length, f (l.getD j 0) (a + j) := by
  induction l generalizing a with
  | nil => simp
  | cons b l ih =>
    rw [List.zipIdx_cons, List.map_cons, List.sum_cons, ih, List.length_cons,
      Finset.sum_range_succ', add_comm]
    simp only [List.getD_cons_succ, List.getD_cons_zero, Nat.add_zero]
    congr 1
    refine Finset.sum_congr rfl (fun j _ => ?_)
    rw [show a + 1 + j = a + (j + 1) by omega]

/-- A supplied batch contributes its shards, and nothing for the absent ones. -/
theorem rowDot_supplied (codec : ReedSolomon E) (hvalid : valid.length = codec.dataShardCount)
    (input : List (Option (List E))) (f : Nat → E) (x : Nat) :
    rowDot ((codec.suppliedInputs valid input).map fun p => f p.1)
        ((codec.suppliedInputs valid input).map Prod.snd) x =
      ∑ col ∈ Finset.range codec.dataShardCount,
        f col * ((input.getD (valid.getD col 0) none).getD []).getD x 0 := by
  rw [rowDot_pairs, suppliedInputs, sum_filterMap, List.take_of_length_le hvalid.le,
    sum_zipIdx valid (fun idx col => (((input.getD idx none).map fun shard => (col, shard)).map
      fun p => f p.1 * p.2.getD x 0).getD 0) 0, hvalid]
  refine Finset.sum_congr rfl (fun col _ => ?_)
  rw [Nat.zero_add]
  cases input.getD (valid.getD col 0) none with
  | none => simp
  | some shard => rfl

end Coefficients

section Destinations

variable {E : Type} {codec : ReedSolomon E} {outs : Nat → Bool}

theorem length_destinations (codec : ReedSolomon E) (outs : Nat → Bool) (content : Nat → List E) :
    (codec.destinations outs content).length = codec.totalShardCount := by
  simp [destinations]

theorem getD_destinations (content : Nat → List E) {i : Nat} (hi : i < codec.totalShardCount) :
    (codec.destinations outs content).getD i none = if outs i then some (content i) else none :=
  getD_map_range _ _ _ hi _

theorem mem_destinations {content : Nat → List E} {shard : List E} :
    some shard ∈ codec.destinations outs content ↔
      ∃ i, i < codec.totalShardCount ∧ outs i = true ∧ content i = shard := by
  simp only [destinations, List.mem_map, List.mem_range]
  constructor
  · rintro ⟨i, hi, heq⟩
    split_ifs at heq with ho
    exact ⟨i, hi, ho, Option.some.inj heq⟩
  · rintro ⟨i, hi, ho, rfl⟩
    exact ⟨i, hi, if_pos ho⟩

/-- Writing one shard for every destination index. -/
theorem writeOutputs_destinations (content content' : Nat → List E) :
    writeOutputs (codec.destinations outs content)
        ((List.range codec.totalShardCount).filter outs)
        (((List.range codec.totalShardCount).filter outs).map content') =
      codec.destinations outs content' := by
  have hloop (indices : List Nat) (dst : List (Option (List E))) (i : Nat)
      (hi : i < dst.length) : ((indices.zip (indices.map content')).foldl
        (fun dst entry => dst.set entry.1 (some entry.2)) dst).getD i none =
          if i ∈ indices then some (content' i) else dst.getD i none := by
    induction indices generalizing dst with
    | nil => simp
    | cons a l ih =>
      rw [List.map_cons, List.zip_cons_cons, List.foldl_cons, ih _ (by simpa using hi), getD_set]
      by_cases hl : i ∈ l
      · rw [if_pos hl, if_pos (List.mem_cons_of_mem a hl)]
      · by_cases ha : a = i
        · subst ha
          rw [if_neg hl, if_pos ⟨rfl, hi⟩, if_pos List.mem_cons_self]
        · rw [if_neg hl, if_neg (fun h => ha h.1), if_neg]
          simp [hl, Ne.symm ha]
  have hlen (indices : List Nat) (dst : List (Option (List E))) :
      ((indices.zip (indices.map content')).foldl
        (fun dst entry => dst.set entry.1 (some entry.2)) dst).length = dst.length := by
    refine foldl_inv (fun t : List (Option (List E)) => t.length = dst.length) _ _ _ rfl
      (fun a _ t ht => by rw [List.length_set, ht])
  refine getD_ext none (by rw [writeOutputs, hlen, length_destinations, length_destinations])
    (fun i hi => ?_)
  rw [writeOutputs, hlen, length_destinations] at hi
  rw [writeOutputs, hloop _ _ i (by rw [length_destinations]; exact hi), getD_destinations _ hi,
    getD_destinations _ hi]
  cases ho : outs i with
  | true => rw [if_pos (List.mem_filter.mpr ⟨List.mem_range.mpr hi, ho⟩)]; rfl
  | false =>
    rw [if_neg]
    · rfl
    · intro hmem
      rw [(List.mem_filter.mp hmem).2] at ho
      cases ho

theorem destinations_congr {content content' : Nat → List E}
    (h : ∀ i, i < codec.totalShardCount → outs i = true → content i = content' i) :
    codec.destinations outs content = codec.destinations outs content' := by
  refine List.map_congr_left (fun i hi => ?_)
  split_ifs with ho
  · rw [h i (List.mem_range.mp hi) ho]
  · rfl

theorem outputIndices_eq (content : Nat → List E) :
    (List.range (codec.destinations outs content).length).filter
        (fun idx => ((codec.destinations outs content).getD idx none).isSome) =
      (List.range codec.totalShardCount).filter outs := by
  rw [length_destinations]
  refine List.filter_congr (fun i hi => ?_)
  rw [getD_destinations _ (List.mem_range.mp hi)]
  cases outs i <;> rfl

variable [CodecField E]

theorem zipWith_mergePair (content content' : Nat → List E) :
    List.zipWith mergePair (codec.destinations outs content) (codec.destinations outs content') =
      codec.destinations outs fun i => List.zipWith add (content i) (content' i) := by
  unfold destinations
  rw [List.zipWith_map, List.zipWith_self]
  refine List.map_congr_left (fun i _ => ?_)
  split_ifs <;> rfl

end Destinations

section ProgressiveSpec

variable {E : Type} [CodecField E] [LawfulField E] {codec : ReedSolomon E} {outs : Nat → Bool}
  {valid : List Nat}

/-- What a batch adds to shard `t`. -/
noncomputable def contribution (codec : ReedSolomon E) (valid : List Nat) (n : Nat)
    (input : List (Option (List E))) (t : Nat) : List E :=
  (List.range n).map fun x => codec.restoredValue valid
    (fun j => ((input.getD (valid.getD j 0) none).getD []).getD x 0) t

theorem zipWith_add_zero {n : Nat} {l z : List E} (hl : l.length = n) (hz : z.length = n)
    (h : ∀ x, x < n → z.getD x 0 = 0) : List.zipWith (· + ·) l z = l := by
  refine getD_ext 0 (by simp [hl, hz]) (fun x hx => ?_)
  simp only [List.length_zipWith, lt_min_iff] at hx
  rw [getD_zipWith _ _ _ _ hx.1 hx.2 0 0, h x (by omega), add_zero]

variable [DecidableEq E] [CachePlatform E] [LawfulPlatform E]

/-- A masked call adds the contribution of its batch to every destination. -/
theorem contribute_eq (hinv : codec.ClassicInv) {cache : InversionCache E}
    (hc : codec.CacheInv cache) {invalid : List Nat} (hreq : codec.DecodeRequest valid invalid)
    (hunit : IsUnit (codec.survivorMatrix valid)) {n : Nat} {content : Nat → List E}
    (hcontent : ∀ i, i < codec.totalShardCount → outs i = true → (content i).length = n)
    {input : List (Option (List E))} (hin : ∀ i s, input.getD i none = some s → s.length = n) :
    ∃ cache', codec.contribute cache (codec.destinations outs content) input valid invalid =
        ((.ok (), codec.destinations outs fun t =>
          List.zipWith (· + ·) (content t) (codec.contribution valid n input t)), cache') ∧
      codec.CacheInv cache' := by
  have hvalid := hreq.survivors.length_eq
  have hsum (x : Nat) (f : Nat → E) := codec.rowDot_supplied hvalid input f x
  obtain ⟨hresult, hcache⟩ := getDataDecodeMatrix_eq hinv hc hreq
  obtain ⟨decode, hbuild, hdec⟩ := ((buildDataDecodeMatrix_spec hinv hreq.survivors).mono
    (fun _ h => h) (fun _ h => h.2 hunit) id).exists_ok
  rw [hbuild] at hresult
  -- the product of a row of coefficients with the supplied shards
  have hproduct (t : Nat) : codedShard ((codec.suppliedInputs valid input).map fun p =>
        codec.coefficient decode t p.1) ((codec.suppliedInputs valid input).map Prod.snd) n =
      codec.contribution valid n input t := by
    refine List.map_congr_left (fun x _ => ?_)
    rw [hsum x, hdec.restoredValue_eq]
  unfold contribute
  simp only [outputIndices_eq]
  split_ifs with hempty
  · refine ⟨cache, ?_, hc⟩
    refine Prod.ext (Prod.ext rfl ?_) rfl
    refine destinations_congr (fun i hi ho => ?_)
    rw [Bool.or_eq_true, List.isEmpty_iff, List.isEmpty_iff] at hempty
    rcases hempty with hnone | hnone
    · have hmem : i ∈ (List.range codec.totalShardCount).filter outs :=
        List.mem_filter.mpr ⟨List.mem_range.mpr hi, ho⟩
      rw [hnone] at hmem
      exact absurd hmem List.not_mem_nil
    · symm
      refine zipWith_add_zero (hcontent i hi ho) (by simp [contribution]) (fun x hx => ?_)
      rw [← hproduct i, hnone, getD_codedShard _ _ hx]
      simp [rowDot]
  · rw [Bool.or_eq_true, List.isEmpty_iff, List.isEmpty_iff, not_or] at hempty
    rcases hget : codec.getDataDecodeMatrix cache valid invalid with ⟨result, cache'⟩
    rw [hget] at hresult hcache
    simp only at hresult hcache
    subst hresult
    refine ⟨cache', ?_, hcache⟩
    have hgrid : Grid (codec.suppliedInputs valid input).length n
        ((codec.suppliedInputs valid input).map Prod.snd) := by
      refine grid_of_forall (by simp) (fun row hrow => ?_)
      obtain ⟨p, hp, rfl⟩ := List.mem_map.mp hrow
      obtain ⟨entry, -, hentry⟩ := List.mem_filterMap.mp hp
      obtain ⟨shard, hshard, rfl⟩ := Option.map_eq_some_iff.mp hentry
      exact hin _ _ hshard
    have hrows : ((List.range codec.totalShardCount).filter outs).map
        (codec.reducedRow decode ((codec.suppliedInputs valid input).map Prod.fst)) =
        ((List.range codec.totalShardCount).filter outs).map fun t =>
          (codec.suppliedInputs valid input).map fun p => codec.coefficient decode t p.1 := by
      refine List.map_congr_left (fun t ht => ?_)
      rw [reducedRow_eq hinv decode _ (List.mem_range.mp (List.mem_of_mem_filter ht)),
        List.map_map]
      rfl
    have houtputs : ((List.range codec.totalShardCount).filter outs).map
        (fun idx => ((codec.destinations outs content).getD idx none).getD []) =
        ((List.range codec.totalShardCount).filter outs).map content := by
      refine List.map_congr_left (fun t ht => ?_)
      obtain ⟨ht, ho⟩ := List.mem_filter.mp ht
      rw [getD_destinations _ (List.mem_range.mp ht), if_pos ho]
      rfl
    simp only [hrows, houtputs]
    rw [decodeIdxAccumulateReducedOutputs_eq hgrid (List.length_pos_iff.mpr hempty.2)
      (grid_of_forall (by simp) (fun row hrow => by
        obtain ⟨t, -, rfl⟩ := List.mem_map.mp hrow
        simp))
      (fun output ho => by
        obtain ⟨t, ht, rfl⟩ := List.mem_map.mp ho
        obtain ⟨ht, ho⟩ := List.mem_filter.mp ht
        exact hcontent t (List.mem_range.mp ht) ho), List.zipWith_map, List.zipWith_self]
    refine Prod.ext (Prod.ext rfl ?_) rfl
    simp only [addCoded, hproduct]
    exact writeOutputs_destinations content _

omit [CodecField E] [LawfulField E] [CachePlatform E] [LawfulPlatform E] [DecidableEq E] in
/-- The mask of a call selects its expected shards. -/
theorem checkExpected_ok {n : Nat} {dst input : List (Option (List E))} {expected : List Bool}
    (hlen : expected.length = codec.totalShardCount)
    (hcount : codec.dataShardCount ≤
      ((List.range expected.length).filter fun i => expected.getD i false).length)
    (hsome : ∃ s, some s ∈ input ++ dst) (hall : ∀ s, some s ∈ input ++ dst → s.length = n) :
    codec.checkExpected dst input expected =
      .ok ((List.range expected.length).filter fun i => expected.getD i false,
        (List.range expected.length).filter fun i => !expected.getD i false) := by
  have hany (l : List (Option (List E))) (hl : ∀ s, some s ∈ l → s.length = n) :
      ¬(l.any fun shard => shard.any fun shard => shard.length ≠ n) = true := by
    rw [List.any_eq_true]
    rintro ⟨shard, hmem, hshard⟩
    cases shard with
    | none => cases hshard
    | some s => exact absurd (hl s hmem) (by simpa using hshard)
  have hfind : (input ++ dst).findSome? (fun shard => shard.map List.length) = some n := by
    cases hres : (input ++ dst).findSome? fun shard => shard.map List.length with
    | none =>
      obtain ⟨s, hs⟩ := hsome
      have := List.findSome?_eq_none_iff.mp hres (some s) hs
      cases this
    | some l =>
      obtain ⟨shard, hmem, hshard⟩ := List.exists_of_findSome?_eq_some hres
      obtain ⟨s, rfl, rfl⟩ := Option.map_eq_some_iff.mp hshard
      rw [hall s hmem]
  unfold checkExpected
  rw [if_neg (not_not.mpr hlen)]
  simp only [hfind]
  rw [if_neg (not_lt.mpr hcount),
    if_neg (hany input (fun s hs => hall s (List.mem_append_left _ hs))),
    if_neg (hany dst (fun s hs => hall s (List.mem_append_right _ hs)))]

/-- The sum of what the batches hold for shard `i`. -/
noncomputable def delivered (batches : List (List (Option (List E)))) (i x : Nat) : E :=
  (batches.map fun batch => ((batch.getD i none).getD []).getD x 0).sum

/-- A partial result: shard `t` restored from what has been delivered so far. -/
noncomputable def deliveredShard (codec : ReedSolomon E) (valid : List Nat) (n : Nat)
    (batches : List (List (Option (List E)))) (t : Nat) : List E :=
  (List.range n).map fun x =>
    codec.restoredValue valid (fun j => delivered batches (valid.getD j 0) x) t

omit [DecidableEq E] [CachePlatform E] [LawfulPlatform E] in
theorem restoredValue_add {decode : CodingMatrix E} (h : codec.Decodes valid decode)
    (s s' : Nat → E) (t : Nat) : codec.restoredValue valid (fun j => s j + s' j) t =
      codec.restoredValue valid s t + codec.restoredValue valid s' t := by
  simp only [h.restoredValue_eq, mul_add, Finset.sum_add_distrib]

omit [DecidableEq E] [CachePlatform E] [LawfulPlatform E] in
/-- Delivering more adds up. -/
theorem deliveredShard_append {decode : CodingMatrix E} (h : codec.Decodes valid decode) (n : Nat)
    (batches batches' : List (List (Option (List E)))) (t : Nat) :
    List.zipWith (· + ·) (codec.deliveredShard valid n batches t)
        (codec.deliveredShard valid n batches' t) =
      codec.deliveredShard valid n (batches ++ batches') t := by
  unfold deliveredShard
  rw [List.zipWith_map, List.zipWith_self]
  refine List.map_congr_left (fun x _ => ?_)
  rw [← restoredValue_add h]
  simp only [delivered, List.map_append, List.sum_append]

/-- The shards a mask expects. -/
def expectedIndices (expected : List Bool) : List Nat :=
  (List.range expected.length).filter fun i => expected.getD i false

theorem length_expectedIndices (expected : List Bool) :
    (expectedIndices expected).length = expected.count true := by
  have hself : expected = (List.range expected.length).map (expected.getD · false) := by
    refine List.ext_getElem (by simp) (fun i h1 h2 => ?_)
    rw [List.getElem_map, List.getElem_range, List.getD_eq_getElem _ _ h1]
  conv_rhs => rw [hself]
  rw [List.count_eq_countP, List.countP_map, expectedIndices, ← List.countP_eq_length_filter]
  refine List.countP_congr (fun i _ => ?_)
  simp

omit [CodecField E] [LawfulField E] [CachePlatform E] [LawfulPlatform E] [DecidableEq E] in
/-- A mask of exactly the data count asks for its inverse with all other shards erased. -/
theorem decodeRequest_expected {expected : List Bool}
    (hlen : expected.length = codec.totalShardCount)
    (hcount : expected.count true = codec.dataShardCount) :
    codec.DecodeRequest (expectedIndices expected)
      ((List.range expected.length).filter fun i => !expected.getD i false) := by
  refine ⟨⟨(ascending_range _).filter _, ?_, fun i hi => ?_⟩, (ascending_range _).filter _,
    fun i hi hv => ?_, fun j hj i hij hnot => ?_⟩
  · rw [length_expectedIndices, hcount]
  · rw [← hlen]
    exact List.mem_range.mp (List.mem_of_mem_filter hi)
  · have h1 := (List.mem_filter.mp hi).2
    have h2 := (List.mem_filter.mp hv).2
    rw [h2] at h1
    cases h1
  · have hj' := List.mem_range.mp (List.mem_of_mem_filter hj)
    have hi : i < expected.length := by omega
    refine List.mem_filter.mpr ⟨List.mem_range.mpr hi, ?_⟩
    rw [Bool.not_eq_true', Bool.eq_false_iff]
    intro htrue
    exact hnot (List.mem_filter.mpr ⟨List.mem_range.mpr hi, htrue⟩)

/-- Batches a call accepts: one entry per shard and one length. -/
structure BatchLayout (codec : ReedSolomon E) (n : Nat) (outs : Nat → Bool)
    (batch : List (Option (List E))) : Prop where
  length_eq : batch.length = codec.totalShardCount
  shard_length : ∀ s, some s ∈ batch → s.length = n
  nonempty : (∃ s, some s ∈ batch) ∨ ∃ i, i < codec.totalShardCount ∧ outs i = true

/-- Any run holds exactly what its batches have delivered. -/
theorem Progressive.run_eq (hinv : codec.ClassicInv) {n : Nat} {expected : List Bool}
    (hlen : expected.length = codec.totalShardCount)
    (hcount : expected.count true = codec.dataShardCount)
    (hunit : IsUnit (codec.survivorMatrix (expectedIndices expected))) (plan : Progressive E)
    (hbatch : ∀ batch ∈ plan.batches, codec.BatchLayout n outs batch) {cache : InversionCache E}
    (hc : codec.CacheInv cache) :
    ∃ cache', plan.run codec n outs expected cache =
        ((.ok (), codec.destinations outs
          (codec.deliveredShard (expectedIndices expected) n plan.batches)), cache') ∧
      codec.CacheInv cache' := by
  have hreq := decodeRequest_expected hlen hcount
  obtain ⟨decode, -, hdec⟩ := ((buildDataDecodeMatrix_spec hinv hreq.survivors).mono
    (fun _ h => h) (fun _ h => h.2 hunit) id).exists_ok
  have hclassic : ¬codec.isLeopardFamily = true := by
    rw [hinv.isLeopardFamily_eq]
    decide
  have hcheck (dst input : List (Option (List E))) (hd : dst.length = codec.totalShardCount)
      (hi : input.length = codec.totalShardCount) : (do
        if codec.isLeopardFamily then .err .unsupportedCodecFamily
        checkCount dst.length codec.totalShardCount .tooFewShards .tooManyShards
        checkCount input.length codec.totalShardCount .tooFewShards .tooManyShards :
          Outcome Error Unit) = .ok () := by
    simp only [Outcome.check_bind_eq_ok, Outcome.err_bind, Outcome.guard_eq_ok, checkCount_ok]
    exact ⟨hclassic, hd, hi⟩
  have hshard (batches : List (List (Option (List E)))) (t : Nat) :
      (codec.deliveredShard (expectedIndices expected) n batches t).length = n := by
    simp [deliveredShard]
  induction plan generalizing cache with
  | zero =>
    refine ⟨cache, ?_, hc⟩
    refine Prod.ext (Prod.ext rfl (destinations_congr (fun t _ _ => ?_))) rfl
    refine getD_ext 0 (by rw [hshard]; simp) (fun x hx => ?_)
    rw [List.length_replicate] at hx
    rw [deliveredShard, getD_map_range _ _ _ hx, hdec.restoredValue_eq,
      List.getD_eq_getElem _ _ (by simpa using hx), List.getElem_replicate]
    simp [Progressive.batches, delivered]
  | contribute rest batch ih =>
    obtain ⟨cache₁, hrest, hc₁⟩ := ih
      (fun b hb => hbatch b (List.mem_append_left _ hb)) hc
    have hlayout := hbatch batch (by simp [Progressive.batches])
    simp only [Progressive.run, hrest, decodeIdx]
    rw [hcheck _ _ (length_destinations codec outs _) hlayout.length_eq,
      checkExpected_ok (n := n) hlen (by
        change codec.dataShardCount ≤ (expectedIndices expected).length
        rw [length_expectedIndices, hcount])
      (by
        rcases hlayout.nonempty with ⟨s, hs⟩ | ⟨i, hi, ho⟩
        · exact ⟨s, List.mem_append_left _ hs⟩
        · exact ⟨_, List.mem_append_right _ (mem_destinations.mpr ⟨i, hi, ho, rfl⟩)⟩)
      (fun s hs => by
        rcases List.mem_append.mp hs with hs | hs
        · exact hlayout.shard_length s hs
        · obtain ⟨i, -, -, rfl⟩ := mem_destinations.mp hs
          exact hshard _ _)]
    have hlengths (i : Nat) (s : List E) (hs : batch.getD i none = some s) : s.length = n := by
      refine hlayout.shard_length s ?_
      have hlt : i < batch.length := by
        by_contra hge
        rw [List.getD_eq_default _ _ (by omega)] at hs
        cases hs
      rw [List.getD_eq_getElem _ _ hlt] at hs
      rw [← hs]
      exact List.getElem_mem hlt
    obtain ⟨cache₂, hcall, hc₂⟩ := contribute_eq hinv hc₁ hreq hunit
      (fun i _ _ => hshard rest.batches i) hlengths
    refine ⟨cache₂, hcall.trans (Prod.ext (Prod.ext rfl ?_) rfl), hc₂⟩
    refine destinations_congr (fun t _ _ => ?_)
    rw [Progressive.batches, ← deliveredShard_append hdec]
    congr 1
    refine List.map_congr_left (fun x _ => ?_)
    congr 1
    funext j
    simp [delivered]
  | merge left right ihl ihr =>
    obtain ⟨cache₁, hleft, hc₁⟩ := ihl (fun b hb => hbatch b (List.mem_append_left _ hb)) hc
    obtain ⟨cache₂, hright, hc₂⟩ := ihr (fun b hb => hbatch b (List.mem_append_right _ hb)) hc₁
    simp only [Progressive.run, hleft, hright, decodeIdx]
    rw [hcheck _ _ (length_destinations codec outs _) (length_destinations codec outs _)]
    have hpairs : ((codec.destinations outs
          (codec.deliveredShard (expectedIndices expected) n left.batches)).zip
        (codec.destinations outs
          (codec.deliveredShard (expectedIndices expected) n right.batches))).forM
            (checkMergePair (E := E)) = .ok () := by
      refine Outcome.forM_eq_ok (fun pair hpair => ?_)
      unfold destinations at hpair
      rw [List.zip_map', List.mem_map] at hpair
      obtain ⟨i, -, rfl⟩ := hpair
      cases outs i with
      | false => rfl
      | true => simp [checkMergePair, hshard]
    rw [hpairs]
    refine ⟨cache₂, Prod.ext (Prod.ext rfl ?_) rfl, hc₂⟩
    simp only [zipWith_mergePair]
    refine destinations_congr (fun t _ _ => ?_)
    rw [Progressive.batches, ← deliveredShard_append hdec]
    rfl

/-- Progressive recovery: however the expected shards are spread over batches,
destination vectors and merges, the destinations end up as the codeword's shards. -/
theorem progressive_recovery (h : codec.IsClassic) {cache : InversionCache E}
    (hc : codec.CacheReachable cache) {n : Nat} {word : Nat → List E}
    (hword : codec.IsCodeword n word) {expected : List Bool}
    (hlen : expected.length = codec.totalShardCount)
    (hcount : expected.count true = codec.dataShardCount)
    (hunit : IsUnit (codec.survivorMatrix (expectedIndices expected))) (outs : Nat → Bool)
    (plan : Progressive E) (hbatch : ∀ batch ∈ plan.batches, codec.BatchLayout n outs batch)
    (hdeliver : ∀ i ∈ expectedIndices expected,
      plan.batches.filterMap (fun batch => batch.getD i none) = [word i]) :
    (plan.run codec n outs expected cache).1 = (.ok (), codec.destinations outs word) := by
  have hsurv := (decodeRequest_expected hlen hcount).survivors
  obtain ⟨cache', hrun, -⟩ := plan.run_eq h.inv hlen hcount hunit hbatch (hc.inv h.inv)
  rw [hrun]
  refine Prod.ext rfl (destinations_congr (fun t ht _ => ?_))
  rw [← hword.restoredShard_eq hsurv hunit ht]
  refine List.map_congr_left (fun x _ => ?_)
  refine restoredValue_congr (fun j hj => ?_) t
  have hjv : j < (expectedIndices expected).length := by rw [hsurv.length_eq]; exact hj
  have hsum := sum_filterMap plan.batches
    (fun batch => batch.getD ((expectedIndices expected).getD j 0) none) (fun s => s.getD x (0 : E))
  rw [hdeliver _ (getD_mem hjv)] at hsum
  rw [getD_map_of_lt _ _ _ hjv 0]
  refine Eq.trans ?_ (hsum.symm.trans (by simp))
  unfold delivered
  congr 1
  refine List.map_congr_left (fun batch _ => ?_)
  cases batch.getD ((expectedIndices expected).getD j 0) none with
  | none => simp
  | some s => rfl

end ProgressiveSpec

section Sample

/-- Two destination vectors that each see one expected shard of `sampleShards`; the
first batch also holds a shard outside the mask. -/
def sampleProgressive : Progressive Galois8 :=
  .merge (.contribute .zero [none, some [2#8], none, some [9#8]])
    (.contribute .zero [none, none, some [3#8], none])

theorem progressive_recovery_sample :
    (sampleProgressive.run sampleCodec 1 (fun i => i == 0 || i == 3) [false, true, true, false]
      (InversionCache.new 4 4096)).1 =
      (.ok (), sampleCodec.destinations (fun i => i == 0 || i == 3) (sampleShards.getD · [])) := by
  have hinv := sampleCodec_isClassic.inv
  have hgrid : Grid sampleCodec.dataShardCount 1 (sampleShards.take 2) :=
    grid_of_forall rfl (by decide)
  have hword : sampleCodec.IsCodeword 1 (sampleShards.getD · []) := by
    have hrun : sampleCodec.encode (sampleShards.take 2 ++ sampleShards.drop 2) =
        (.ok (), sampleShards) := by
      decide +kernel
    have hgrid' : Grid sampleCodec.parityShardCount 1 (sampleShards.drop 2) :=
      grid_of_forall rfl (by decide)
    rw [encode_eq hinv Nat.one_pos hgrid hgrid'] at hrun
    rw [← (Prod.mk.inj hrun).2]
    exact isCodeword_encoded hinv hgrid
  have hexpected : expectedIndices [false, true, true, false] = [1, 2] := by decide
  have hunit : IsUnit (sampleCodec.survivorMatrix (expectedIndices [false, true, true, false])) := by
    rw [hexpected]
    exact sampleCodec_isUnit
  refine progressive_recovery sampleCodec_isClassic ⟨4, 4096, [], by simp, rfl⟩ hword rfl rfl hunit
    _ _ (fun batch hb => ?_) ?_
  · rcases List.mem_cons.mp hb with rfl | hb
    · refine ⟨rfl, fun s hs => ?_, .inr ⟨0, by decide, rfl⟩⟩
      simp only [List.mem_cons, reduceCtorEq, Option.some.injEq, false_or, List.not_mem_nil,
        or_false] at hs
      rcases hs with rfl | rfl <;> rfl
    · rw [List.mem_singleton.mp hb]
      refine ⟨rfl, fun s hs => ?_, .inr ⟨0, by decide, rfl⟩⟩
      simp only [List.mem_cons, reduceCtorEq, Option.some.injEq, false_or, List.not_mem_nil,
        or_false] at hs
      rw [hs]
      rfl
  · decide +kernel

end Sample

end ReedSolomon

end ErasureCodec
