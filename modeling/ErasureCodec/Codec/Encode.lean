import ErasureCodec.Codec.Construct

namespace ErasureCodec

open CodecField

section Checks

variable {E : Type}

/-- `check_piece_count!`. -/
def checkCount (count expected : Nat) (few many : Error) : Outcome Error Unit :=
  if count < expected then .err few else if count > expected then .err many else .ok ()

/-- `check_slices!(multi => ...)`: one common nonzero length. -/
def checkSlices (slices : List (List E)) : Outcome Error Unit :=
  let size := (slices.getD 0 []).length
  if size = 0 then .err .emptyShard
  else if slices.any (fun slice => slice.length ≠ size) then .err .incorrectShardSize
  else .ok ()

/-- `check_slices!(single => ..., single => ...)`. -/
def checkSameLen (left right : List E) : Outcome Error Unit :=
  if left.length ≠ right.length then .err .incorrectShardSize else .ok ()

theorem checkCount_ok {count expected : Nat} {few many : Error} :
    checkCount count expected few many = .ok () ↔ count = expected := by
  unfold checkCount
  split_ifs <;> simp <;> omega

theorem checkSlices_ok {slices : List (List E)} (hne : slices ≠ []) :
    checkSlices slices = .ok () ↔ ∃ len, 0 < len ∧ ∀ slice ∈ slices, slice.length = len := by
  have hmem : slices.getD 0 [] ∈ slices := by
    rw [List.getD_eq_getElem _ _ (List.length_pos_iff.mpr hne)]
    exact List.getElem_mem _
  simp only [checkSlices]
  constructor
  · intro h
    split_ifs at h with h0 hany
    refine ⟨_, Nat.pos_of_ne_zero h0, fun slice hs => ?_⟩
    by_contra hlen
    exact hany (List.any_eq_true.mpr ⟨slice, hs, by simpa using hlen⟩)
  · rintro ⟨len, hpos, hall⟩
    rw [hall _ hmem, if_neg (by omega), if_neg]
    rw [List.any_eq_true]
    rintro ⟨slice, hs, hlen⟩
    exact absurd (hall slice hs) (by simpa using hlen)

end Checks

section Coding

variable {E : Type} [CodecField E]

def codeSliceMinChunkBytes : Nat := 16 * 1024

def codeSliceDefaultChunkBytes : Nat := 64 * 1024

def codeSliceLargeChunkBytes : Nat := 256 * 1024

def serialCodeChunkLen (shardLen : Nat) : Nat :=
  if shardLen ≤ codeSliceMinChunkBytes then shardLen
  else if shardLen ≤ codeSliceDefaultChunkBytes then codeSliceMinChunkBytes
  else if shardLen ≤ 4 * 1024 * 1024 then codeSliceDefaultChunkBytes
  else codeSliceLargeChunkBytes

def codeChunkLen (shardLen : Nat) : Nat := min (serialCodeChunkLen shardLen) shardLen

/-- Fold input `iInput` into the window `start..stop` of every output: the first
input overwrites, the others accumulate. -/
def codeSingleSliceRange (matrixRows : List (List E)) (iInput : Nat) (input : List E)
    (outputs : List (List E)) (start stop : Nat) : List (List E) :=
  let input := slice input start stop
  outputs.mapIdx fun iRow output =>
    let matrixRowToUse := (matrixRows.getD iRow []).getD iInput zero
    let window := slice output start stop
    overwrite start
      (if iInput = 0 then mulSlice matrixRowToUse input window
      else mulSliceAdd matrixRowToUse input window) output

def codeSingleSlice (matrixRows : List (List E)) (iInput : Nat) (input : List E)
    (outputs : List (List E)) : List (List E) :=
  codeSingleSliceRange matrixRows iInput input outputs 0 input.length

/-- The shared serial coding loop over cache-sized windows. The default build
compiles no vector row kernel in, so the loop is the whole body. -/
def codeSomeSlices (dataShardCount : Nat) (matrixRows inputs outputs : List (List E)) :
    List (List E) :=
  let shardLen := (inputs.head?.map List.length).getD 0
  if shardLen = 0 then outputs
  else (chunkRanges shardLen (codeChunkLen shardLen)).foldl (fun outputs window =>
    (List.range (min inputs.length dataShardCount)).foldl (fun outputs iInput =>
      codeSingleSliceRange matrixRows iInput (inputs.getD iInput []) outputs window.1 window.2)
      outputs) outputs

end Coding

namespace ReedSolomon

section Entry

variable {E : Type} [CodecField E] (codec : ReedSolomon E)

def getParityRows : List (List E) :=
  (List.range (codec.totalShardCount - codec.dataShardCount)).map fun i =>
    codec.format.matrix.getRow (codec.dataShardCount + i)

/-- The XOR-only path of single-parity codecs. -/
def encodeFastOneParity (data parity : List (List E)) : List (List E) :=
  parity.set 0 ((data.drop 1).foldl (fun output input => List.zipWith add output input)
    (data.getD 0 []))

/-- In the default build no generated kernel is selected and the shared coding
loop computes every parity shard. -/
def encodeClassicMatrix (data parity : List (List E)) : List (List E) :=
  codeSomeSlices codec.dataShardCount codec.getParityRows data parity

def checkEncodeSep (data parity : List (List E)) : Outcome Error Unit := do
  checkCount data.length codec.dataShardCount .tooFewDataShards .tooManyDataShards
  checkCount parity.length codec.parityShardCount .tooFewParityShards .tooManyParityShards
  checkSlices data
  checkSlices parity
  checkSameLen (data.getD 0 []) (parity.getD 0 [])

/-- `encode_sep` of a Classic codec: the result and the parity it leaves. -/
def encodeSep (data parity : List (List E)) : Outcome Error Unit × List (List E) :=
  match codec.checkEncodeSep data parity with
  | .ok _ =>
    (.ok (), if codec.fastOneParityEnabled then encodeFastOneParity data parity
      else codec.encodeClassicMatrix data parity)
  | failed => (failed, parity)

/-- `encode` of a Classic codec: the result and the shards it leaves. -/
def encode (shards : List (List E)) : Outcome Error Unit × List (List E) :=
  match (do
    checkCount shards.length codec.totalShardCount .tooFewShards .tooManyShards
    checkSlices shards : Outcome Error Unit) with
  | .ok _ =>
    let input := shards.take codec.dataShardCount
    let (result, output) := codec.encodeSep input (shards.drop codec.dataShardCount)
    (result, input ++ output)
  | failed => (failed, shards)

/-- `encode_single_sep`: the result and the parity it leaves. -/
def encodeSingleSep (iData : Nat) (singleData : List E) (parity : List (List E)) :
    Outcome Error Unit × List (List E) :=
  match (do
    if codec.isLeopardFamily then .err .unsupportedCodecFamily
    if iData ≥ codec.dataShardCount then .err .invalidIndex
    checkCount parity.length codec.parityShardCount .tooFewParityShards .tooManyParityShards
    checkSlices parity
    checkSameLen (parity.getD 0 []) singleData : Outcome Error Unit) with
  | .ok _ => (.ok (), codeSingleSlice codec.getParityRows iData singleData parity)
  | failed => (failed, parity)

/-- `encode_single`: the result and the shards it leaves. -/
def encodeSingle (iData : Nat) (shards : List (List E)) : Outcome Error Unit × List (List E) :=
  match (do
    if codec.isLeopardFamily then .err .unsupportedCodecFamily
    if iData ≥ codec.dataShardCount then .err .invalidIndex
    checkCount shards.length codec.totalShardCount .tooFewShards .tooManyShards
    checkSlices shards : Outcome Error Unit) with
  | .ok _ =>
    let mutInput := shards.take codec.dataShardCount
    let (result, output) :=
      codec.encodeSingleSep iData (mutInput.getD iData []) (shards.drop codec.dataShardCount)
    (result, mutInput ++ output)
  | failed => (failed, shards)

end Entry

end ReedSolomon

section Product

variable {E : Type} [CodecField E] [LawfulField E]

/-- Entry of the matrix product of one coefficient row with the inputs. -/
noncomputable def rowDot (row : List E) (inputs : List (List E)) (x : Nat) : E :=
  ∑ c ∈ Finset.range inputs.length, row.getD c 0 * (inputs.getD c []).getD x 0

/-- The shard a coefficient row stands for. -/
noncomputable def codedShard (row : List E) (inputs : List (List E)) (len : Nat) : List E :=
  (List.range len).map (rowDot row inputs)

@[simp] theorem length_codedShard (row : List E) (inputs : List (List E)) (len : Nat) :
    (codedShard row inputs len).length = len := by
  simp [codedShard]

theorem getD_codedShard (row : List E) (inputs : List (List E)) {len x : Nat} (hx : x < len) :
    (codedShard row inputs len).getD x 0 = rowDot row inputs x :=
  getD_map_range _ _ _ hx _

/-- A multiple added to one window of an output, entry by entry. -/
theorem mulSliceAdd_window {len start stop : Nat} (c : E) {delta output : List E}
    (hd : delta.length = stop - start) (hout : output.length = len) (hstop : stop ≤ len) :
    (overwrite start (mulSliceAdd c delta (slice output start stop)) output).length = len ∧
      ∀ x, x < len →
        (overwrite start (mulSliceAdd c delta (slice output start stop)) output).getD x 0 =
          if start ≤ x ∧ x < stop then output.getD x 0 + c * delta.getD (x - start) 0
          else output.getD x 0 := by
  have hslice := length_slice output start stop (by omega)
  rw [mulSliceAdd_eq_zipWith _ _ _ (by omega)]
  refine ⟨by rw [length_overwrite, hout], fun x hx => ?_⟩
  rw [getD_overwrite, List.length_zipWith, hslice, hd, Nat.min_self]
  by_cases hw : start ≤ x ∧ x < stop
  · rw [if_pos ⟨hw.1, by omega, by omega⟩, if_pos hw,
      getD_zipWith _ _ _ _ (by omega) (by omega) 0 0, getD_slice _ _ _ _ (by omega),
      Nat.add_sub_of_le hw.1]
  · rw [if_neg (fun h => hw ⟨h.1, by omega⟩), if_neg hw]

/-- One input folded into a window, entry by entry. -/
theorem codeSingleSliceRange_spec {n len stop : Nat} (start : Nat) (matrixRows : List (List E))
    (iInput : Nat) {input : List E} {outputs : List (List E)} (hin : input.length = len)
    (hout : Grid n len outputs) (hstop : stop ≤ len) :
    Grid n len (codeSingleSliceRange matrixRows iInput input outputs start stop) ∧
      ∀ r x, r < n → x < len →
        ((codeSingleSliceRange matrixRows iInput input outputs start stop).getD r []).getD x 0 =
          if start ≤ x ∧ x < stop then
            (if iInput = 0 then 0 else (outputs.getD r []).getD x 0) +
              (matrixRows.getD r []).getD iInput 0 * input.getD x 0
          else (outputs.getD r []).getD x 0 := by
  unfold codeSingleSliceRange
  refine ⟨hout.mapIdx _ (fun r hr => ?_), fun r x hr hx => ?_⟩
  · simp only [length_overwrite]
    exact hout.row_length r hr
  have hrow := hout.row_length r hr
  have hwin : (slice input start stop).length = (slice (outputs.getD r []) start stop).length := by
    rw [length_slice _ _ _ (by omega), length_slice _ _ _ (by omega)]
  have hlen := length_slice input start stop (by omega)
  rw [getD_mapIdx_of_lt _ _ _ (by rw [hout.length_eq]; exact hr) [], getD_overwrite]
  simp only [zero_eq]
  rw [mulSlice_eq_map _ _ _ hwin, mulSliceAdd_eq_zipWith _ _ _ hwin]
  by_cases hx' : start ≤ x ∧ x < stop
  · rw [if_pos hx']
    have hpos : x - start < (slice input start stop).length := by omega
    by_cases h0 : iInput = 0
    · rw [if_pos h0, if_pos h0, if_pos ⟨hx'.1, by rw [List.length_map]; omega, by omega⟩,
        getD_map_of_lt _ _ _ hpos 0, getD_slice _ _ _ _ (by omega), Nat.add_sub_of_le hx'.1,
        zero_add]
    · rw [if_neg h0, if_neg h0,
        if_pos ⟨hx'.1, by rw [List.length_zipWith, ← hwin]; omega, by omega⟩,
        getD_zipWith _ _ _ _ (by omega) hpos 0 0, getD_slice _ _ _ _ (by omega),
        getD_slice _ _ _ _ (by omega), Nat.add_sub_of_le hx'.1]
  · rw [if_neg hx', if_neg]
    intro h
    apply hx'
    refine ⟨h.1, ?_⟩
    have h2 := h.2.1
    split_ifs at h2
    · rw [List.length_map] at h2
      omega
    · rw [List.length_zipWith, ← hwin] at h2
      omega

/-- All inputs folded into one window leave the product there. -/
theorem codeWindow_spec {n len stop : Nat} (start : Nat) (matrixRows : List (List E))
    {inputs outputs : List (List E)} {k : Nat} (hk : 0 < k) (hin : Grid k len inputs)
    (hout : Grid n len outputs) (hstop : stop ≤ len) :
    let result := (List.range k).foldl (fun outputs iInput =>
      codeSingleSliceRange matrixRows iInput (inputs.getD iInput []) outputs start stop) outputs
    Grid n len result ∧ ∀ r x, r < n → x < len →
      (result.getD r []).getD x 0 =
        if start ≤ x ∧ x < stop then rowDot (matrixRows.getD r []) inputs x
        else (outputs.getD r []).getD x 0 := by
  intro result
  let P : Nat → List (List E) → Prop := fun i t => Grid n len t ∧ ∀ r x, r < n → x < len →
    (t.getD r []).getD x 0 =
      if start ≤ x ∧ x < stop ∧ 0 < i then
        ∑ c ∈ Finset.range i, (matrixRows.getD r []).getD c 0 * (inputs.getD c []).getD x 0
      else (outputs.getD r []).getD x 0
  have hP : P k result := by
    refine foldl_range_inv P _ k outputs ⟨hout, fun r x _ _ => by simp⟩ ?_
    rintro i hi t ⟨ht, hval⟩
    obtain ⟨hg, hentry⟩ := codeSingleSliceRange_spec start matrixRows i
      (hin.row_length i hi) ht hstop
    refine ⟨hg, fun r x hr hx => ?_⟩
    rw [hentry r x hr hx, hval r x hr hx]
    by_cases hw : start ≤ x ∧ x < stop
    · have hdone : start ≤ x ∧ x < stop ∧ 0 < i + 1 := ⟨hw.1, hw.2, Nat.succ_pos i⟩
      rw [if_pos hw, if_pos hdone, Finset.sum_range_succ]
      by_cases h0 : i = 0
      · rw [if_pos h0, h0, Finset.sum_range_zero]
      · rw [if_neg h0, if_pos ⟨hw.1, hw.2, Nat.pos_of_ne_zero h0⟩]
    · rw [if_neg hw, if_neg (fun h => hw ⟨h.1, h.2.1⟩), if_neg (fun h => hw ⟨h.1, h.2.1⟩)]
  refine ⟨hP.1, fun r x hr hx => ?_⟩
  rw [hP.2 r x hr hx]
  unfold rowDot
  rw [hin.length_eq]
  exact if_congr (by simp [hk]) rfl rfl

theorem codeChunkLen_pos {shardLen : Nat} (h : 0 < shardLen) : 0 < codeChunkLen shardLen := by
  unfold codeChunkLen serialCodeChunkLen codeSliceMinChunkBytes codeSliceDefaultChunkBytes
    codeSliceLargeChunkBytes
  split_ifs <;> omega

/-- The serial coding loop computes the matrix product, whatever the outputs held. -/
theorem codeSomeSlices_eq {n len k : Nat} (matrixRows : List (List E))
    {inputs outputs : List (List E)} (hk : 0 < k) (hlen : 0 < len) (hin : Grid k len inputs)
    (hout : Grid n len outputs) :
    codeSomeSlices k matrixRows inputs outputs =
      outputs.mapIdx fun r _ => codedShard (matrixRows.getD r []) inputs len := by
  have hhead : (inputs.head?.map List.length).getD 0 = len := by
    have h0 := hin.row_length 0 hk
    cases inputs with
    | nil => exact absurd hin.length_eq (by simp; omega)
    | cons a l => simpa using h0
  have hcols : min inputs.length k = k := by rw [hin.length_eq, Nat.min_self]
  simp only [codeSomeSlices, hhead, hcols]
  rw [if_neg (by omega)]
  have hchunk := codeChunkLen_pos hlen
  obtain ⟨hg, hval⟩ := foldl_cover (Grid n len) (fun p : Nat × Nat => p.1 < n ∧ p.2 < len)
    (fun t p => (t.getD p.1 []).getD p.2 0) (fun p => rowDot (matrixRows.getD p.1 []) inputs p.2)
    (fun w p => w.1 ≤ p.2 ∧ p.2 < w.2)
    (fun outputs window => (List.range k).foldl (fun outputs iInput =>
      codeSingleSliceRange matrixRows iInput (inputs.getD iInput []) outputs window.1 window.2)
      outputs) (chunkRanges len (codeChunkLen len)) outputs hout (by
      intro w hw t ht
      obtain ⟨hg, hval⟩ := codeWindow_spec w.1 matrixRows hk hin ht
        (chunkRanges_bounds hchunk hw).2.1
      refine ⟨hg, fun p hp => ⟨fun hc => ?_, fun hc => ?_⟩⟩
      · exact (hval p.1 p.2 hp.1 hp.2).trans (if_pos hc)
      · exact (hval p.1 p.2 hp.1 hp.2).trans (if_neg hc))
  refine Grid.ext hg (hout.mapIdx _ (fun r _ => length_codedShard _ _ len)) 0 (fun r x hr hx => ?_)
  obtain ⟨hmem, hcov⟩ := (mem_chunkRanges_iff hchunk x hx _).mpr rfl
  rw [getD_mapIdx_of_lt _ _ _ (by rw [hout.length_eq]; exact hr) [], getD_codedShard _ _ hx]
  exact (hval (r, x) ⟨hr, hx⟩).1 ⟨_, hmem, hcov⟩

end Product

namespace ReedSolomon

section Spec

variable {E : Type} [CodecField E] [LawfulField E] {codec : ReedSolomon E}

/-- The parity the encoding matrix assigns to the data shards. -/
noncomputable def parityProduct (codec : ReedSolomon E) (data : List (List E)) (len : Nat) :
    List (List E) :=
  (List.range codec.parityShardCount).map fun r => (List.range len).map fun x =>
    ∑ c ∈ Finset.range codec.dataShardCount,
      codec.format.matrix.get (codec.dataShardCount + r) c * (data.getD c []).getD x 0

theorem grid_parityProduct (codec : ReedSolomon E) (data : List (List E)) (len : Nat) :
    Grid codec.parityShardCount len (codec.parityProduct data len) := by
  refine grid_of_forall (by simp [parityProduct]) (fun row hrow => ?_)
  obtain ⟨r, -, rfl⟩ := List.mem_map.mp hrow
  simp

theorem getD_parityProduct (codec : ReedSolomon E) (data : List (List E)) {len r x : Nat}
    (hr : r < codec.parityShardCount) (hx : x < len) :
    ((codec.parityProduct data len).getD r []).getD x 0 =
      ∑ c ∈ Finset.range codec.dataShardCount,
        codec.format.matrix.get (codec.dataShardCount + r) c * (data.getD c []).getD x 0 := by
  unfold parityProduct
  rw [getD_map_range _ _ _ hr, getD_map_range _ _ _ hx]

omit [CodecField E] [LawfulField E] in
theorem getParityRows_getD (codec : ReedSolomon E) {r : Nat} (hr : r < codec.parityShardCount) :
    codec.getParityRows.getD r [] = codec.format.matrix.getRow (codec.dataShardCount + r) := by
  have htotal := codec.totalShardCount_eq
  exact getD_map_range _ _ _ (by omega) _

/-- A row of the encoding matrix evaluates to the stated sum. -/
theorem rowDot_getRow (h : codec.ClassicInv) {data : List (List E)}
    (hdata : data.length = codec.dataShardCount) {r : Nat} (hr : r < codec.totalShardCount)
    (x : Nat) :
    rowDot (codec.format.matrix.getRow r) data x = ∑ c ∈ Finset.range codec.dataShardCount,
      codec.format.matrix.get r c * (data.getD c []).getD x 0 := by
  unfold rowDot
  rw [hdata]
  refine Finset.sum_congr rfl (fun c hc => ?_)
  rw [codec.format.matrix.getD_getRow (by rw [h.colCount_eq]; exact Finset.mem_range.mp hc) _
    (by rw [h.rowCount_eq]; exact hr)]

theorem mapIdx_parityRows (h : codec.ClassicInv) {data parity : List (List E)} {len : Nat}
    (hd : data.length = codec.dataShardCount) (hp : Grid codec.parityShardCount len parity) :
    (parity.mapIdx fun r _ => codedShard (codec.getParityRows.getD r []) data len) =
      codec.parityProduct data len := by
  refine Grid.ext (hp.mapIdx _ (fun _ _ => length_codedShard _ _ len))
    (codec.grid_parityProduct data len) 0 (fun r x hr hx => ?_)
  rw [getD_mapIdx_of_lt _ _ _ (by rw [hp.length_eq]; exact hr) [], getD_codedShard _ _ hx,
    getParityRows_getD codec hr, getD_parityProduct _ _ hr hx,
    rowDot_getRow h hd (by rw [codec.totalShardCount_eq]; omega)]

theorem encodeClassicMatrix_eq (h : codec.ClassicInv) {data parity : List (List E)} {len : Nat}
    (hlen : 0 < len) (hd : Grid codec.dataShardCount len data)
    (hp : Grid codec.parityShardCount len parity) :
    codec.encodeClassicMatrix data parity = codec.parityProduct data len := by
  unfold encodeClassicMatrix
  rw [codeSomeSlices_eq _ h.data_pos hlen hd hp, mapIdx_parityRows h hd.length_eq hp]

private theorem foldl_xor_spec {len : Nat} (rest : List (List E)) (acc : List E)
    (hacc : acc.length = len) (hrest : ∀ input ∈ rest, input.length = len) :
    (rest.foldl (fun output input => List.zipWith add output input) acc).length = len ∧
      ∀ x, x < len → (rest.foldl (fun output input => List.zipWith add output input) acc).getD x 0 =
        acc.getD x 0 + ∑ c ∈ Finset.range rest.length, (rest.getD c []).getD x 0 := by
  induction rest generalizing acc with
  | nil => exact ⟨hacc, fun x _ => by simp⟩
  | cons input rest ih =>
    have hi := hrest input (by simp)
    obtain ⟨hl, hv⟩ := ih (List.zipWith add acc input) (by simp [hacc, hi])
      (fun i h => hrest i (by simp [h]))
    refine ⟨hl, fun x hx => (hv x hx).trans ?_⟩
    rw [getD_zipWith _ _ _ _ (by omega) (by omega) 0 0, List.length_cons, Finset.sum_range_succ',
      add_eq, List.getD_cons_zero, add_assoc, add_comm (input.getD x 0)]
    simp only [List.getD_cons_succ]

theorem encodeFastOneParity_eq (h : codec.ClassicInv) (hfast : codec.fastOneParityEnabled = true)
    {data parity : List (List E)} {len : Nat} (hd : Grid codec.dataShardCount len data)
    (hp : Grid codec.parityShardCount len parity) :
    encodeFastOneParity data parity = codec.parityProduct data len := by
  have hone : codec.parityShardCount = 1 := by
    simp only [fastOneParityEnabled, Bool.and_eq_true, beq_iff_eq] at hfast
    exact hfast.2
  have hones := h.fast_ones hfast
  have hpos := h.data_pos
  have hhead := hd.row_length 0 hpos
  obtain ⟨hl, hv⟩ := foldl_xor_spec (data.drop 1) (data.getD 0 []) hhead
    (fun input hi => hd.forall (List.mem_of_mem_drop hi))
  have hp1 : 0 < parity.length := by rw [hp.length_eq, hone]; exact Nat.one_pos
  unfold encodeFastOneParity
  refine Grid.ext ⟨by rw [List.length_set]; exact hp.length_eq, fun r hr => ?_⟩
    (codec.grid_parityProduct data len) 0 (fun r x hr hx => ?_)
  · rw [getD_set, if_pos ⟨by omega, hp1⟩]
    exact hl
  · obtain rfl : r = 0 := by omega
    rw [getD_set, if_pos ⟨rfl, hp1⟩, hv x hx, getD_parityProduct _ _ hr hx]
    have hcount : codec.dataShardCount = (data.drop 1).length + 1 := by
      rw [List.length_drop, hd.length_eq]
      omega
    have hterm (c : Nat) (hc : c < codec.dataShardCount) :
        codec.format.matrix.get (codec.dataShardCount + 0) c * (data.getD c []).getD x 0 =
          (data.getD c []).getD x 0 := by
      rw [Nat.add_zero, hones c hc, one_eq, one_mul]
    rw [Finset.sum_congr rfl (fun c hc => hterm c (Finset.mem_range.mp hc)), hcount,
      Finset.sum_range_succ', add_comm]
    congr 1
    refine Finset.sum_congr rfl (fun c _ => ?_)
    rw [getD_drop, Nat.add_comm]

omit [CodecField E] [LawfulField E] in
theorem checkEncodeSep_ok (h : 0 < codec.dataShardCount) (h' : 0 < codec.parityShardCount)
    {data parity : List (List E)} :
    codec.checkEncodeSep data parity = .ok () ↔
      ∃ len, 0 < len ∧ Grid codec.dataShardCount len data ∧
        Grid codec.parityShardCount len parity := by
  simp only [checkEncodeSep]
  constructor
  · intro hok
    obtain ⟨_, h1, hok⟩ := Outcome.bind_eq_ok.mp hok
    obtain ⟨_, h2, hok⟩ := Outcome.bind_eq_ok.mp hok
    obtain ⟨_, h3, hok⟩ := Outcome.bind_eq_ok.mp hok
    obtain ⟨_, h4, h5⟩ := Outcome.bind_eq_ok.mp hok
    have hd := checkCount_ok.mp h1
    have hp := checkCount_ok.mp h2
    obtain ⟨len, hlen, hall⟩ := (checkSlices_ok (List.ne_nil_of_length_pos (by omega))).mp h3
    obtain ⟨len', -, hall'⟩ := (checkSlices_ok (List.ne_nil_of_length_pos (by omega))).mp h4
    have hgd : Grid codec.dataShardCount len data := grid_of_forall hd hall
    have hgp : Grid codec.parityShardCount len' parity := grid_of_forall hp hall'
    unfold checkSameLen at h5
    split_ifs at h5 with hne
    rw [hgd.row_length 0 h, hgp.row_length 0 h', not_not] at hne
    subst hne
    exact ⟨len, hlen, hgd, hgp⟩
  · rintro ⟨len, hlen, hgd, hgp⟩
    rw [checkCount_ok.mpr hgd.length_eq, Outcome.ok_bind, checkCount_ok.mpr hgp.length_eq,
      Outcome.ok_bind, (checkSlices_ok (List.ne_nil_of_length_pos (by rw [hgd.length_eq]; exact h))).mpr
        ⟨len, hlen, fun s hs => hgd.forall hs⟩, Outcome.ok_bind,
      (checkSlices_ok (List.ne_nil_of_length_pos (by rw [hgp.length_eq]; exact h'))).mpr
        ⟨len, hlen, fun s hs => hgp.forall hs⟩, Outcome.ok_bind]
    unfold checkSameLen
    rw [hgd.row_length 0 h, hgp.row_length 0 h', if_neg (not_not.mpr rfl)]

/-- Encoding separate slices writes the product. -/
theorem encodeSep_eq (h : codec.ClassicInv) {data parity : List (List E)} {len : Nat}
    (hlen : 0 < len) (hd : Grid codec.dataShardCount len data)
    (hp : Grid codec.parityShardCount len parity) :
    codec.encodeSep data parity = (.ok (), codec.parityProduct data len) := by
  unfold encodeSep
  rw [(checkEncodeSep_ok h.data_pos h.parity_pos).mpr ⟨len, hlen, hd, hp⟩]
  simp only
  split_ifs with hfast
  · rw [encodeFastOneParity_eq h hfast hd hp]
  · rw [encodeClassicMatrix_eq h hlen hd hp]

/-- Encoding in place keeps the data shards and writes the product behind them. -/
theorem encode_eq (h : codec.ClassicInv) {data parity : List (List E)} {len : Nat}
    (hlen : 0 < len) (hd : Grid codec.dataShardCount len data)
    (hp : Grid codec.parityShardCount len parity) :
    codec.encode (data ++ parity) = (.ok (), data ++ codec.parityProduct data len) := by
  have hne : data ++ parity ≠ [] := by
    intro h0
    have := congrArg List.length h0
    rw [List.length_append, hd.length_eq, List.length_nil] at this
    have := h.data_pos
    omega
  unfold encode
  rw [checkCount_ok.mpr (by rw [List.length_append, hd.length_eq, hp.length_eq]; rfl),
    Outcome.ok_bind, (checkSlices_ok hne).mpr ⟨len, hlen, fun s hs => by
      rcases List.mem_append.mp hs with hs | hs
      · exact hd.forall hs
      · exact hp.forall hs⟩]
  simp only
  rw [List.take_left' hd.length_eq, List.drop_left' hd.length_eq, encodeSep_eq h hlen hd hp]

end Spec

end ReedSolomon

end ErasureCodec
