import ErasureCodec.Codec.RecoveryPlan

namespace ErasureCodec

open CodecField Matrix

namespace ReedSolomon

variable {E : Type} [CodecField E] [LawfulField E] {codec : ReedSolomon E} {valid : List Nat}

/-- The data that the selected survivors `s` determine: the inverse of the
survivor matrix applied to them. -/
noncomputable def restoredData (codec : ReedSolomon E) (valid : List Nat) (s : Nat → E)
    (i : Nat) : E :=
  if h : i < codec.dataShardCount then
    ((codec.survivorMatrix valid)⁻¹ *ᵥ fun j => s j) ⟨i, h⟩
  else 0

/-- The value of any shard that the selected survivors determine. -/
noncomputable def restoredValue (codec : ReedSolomon E) (valid : List Nat) (s : Nat → E)
    (t : Nat) : E :=
  ∑ c ∈ Finset.range codec.dataShardCount,
    codec.format.matrix.get t c * codec.restoredData valid s c

/-- The correct bytes of shard `t`, given the contents of the selected survivors. -/
noncomputable def restoredShard (codec : ReedSolomon E) (valid : List Nat)
    (inputs : List (List E)) (len t : Nat) : List E :=
  (List.range len).map fun x =>
    codec.restoredValue valid (fun j => (inputs.getD j []).getD x 0) t

@[simp] theorem length_restoredShard (codec : ReedSolomon E) (valid : List Nat)
    (inputs : List (List E)) (len t : Nat) :
    (codec.restoredShard valid inputs len t).length = len := by
  simp [restoredShard]

theorem getD_restoredShard (codec : ReedSolomon E) (valid : List Nat) (inputs : List (List E))
    {len x : Nat} (t : Nat) (hx : x < len) : (codec.restoredShard valid inputs len t).getD x 0 =
      codec.restoredValue valid (fun j => (inputs.getD j []).getD x 0) t :=
  getD_map_range _ _ _ hx _

/-- The survivors hold what they determine. -/
theorem survivorValue_restoredData (hunit : IsUnit (codec.survivorMatrix valid)) (s : Nat → E)
    {j : Nat} (hj : j < codec.dataShardCount) :
    codec.survivorValue valid (codec.restoredData valid s) j = s j := by
  have hmul : codec.survivorMatrix valid *ᵥ
      ((codec.survivorMatrix valid)⁻¹ *ᵥ fun j : Fin codec.dataShardCount => s j) =
        fun j : Fin codec.dataShardCount => s j := by
    rw [mulVec_mulVec, mul_nonsing_inv _ ((isUnit_iff_isUnit_det _).mp hunit), one_mulVec]
  have hj' := congrFun hmul ⟨j, hj⟩
  rw [← hj', survivorValue, Finset.sum_range]
  refine Finset.sum_congr rfl (fun c _ => ?_)
  rw [restoredData, dif_pos c.isLt]
  rfl

/-- What survivors of data `v` determine is `v`. -/
theorem restoredData_survivorValue (hunit : IsUnit (codec.survivorMatrix valid)) (v : Nat → E)
    {i : Nat} (hi : i < codec.dataShardCount) :
    codec.restoredData valid (codec.survivorValue valid v) i = v i := by
  have hvec : (fun j : Fin codec.dataShardCount => codec.survivorValue valid v j) =
      codec.survivorMatrix valid *ᵥ fun c => v c := by
    funext j
    rw [survivorValue, Finset.sum_range]
    rfl
  rw [restoredData, dif_pos hi, hvec, mulVec_mulVec,
    nonsing_inv_mul _ ((isUnit_iff_isUnit_det _).mp hunit), one_mulVec]

theorem restoredData_congr {s s' : Nat → E} (h : ∀ j, j < codec.dataShardCount → s j = s' j)
    (i : Nat) : codec.restoredData valid s i = codec.restoredData valid s' i := by
  have hfun : (fun j : Fin codec.dataShardCount => s j) =
      fun j : Fin codec.dataShardCount => s' j := by
    funext j
    exact h j j.isLt
  unfold restoredData
  rw [hfun]

/-- A decode matrix computes the restored data. -/
theorem Decodes.restoredData_eq {decode : CodingMatrix E} (h : codec.Decodes valid decode)
    (s : Nat → E) {i : Nat} (hi : i < codec.dataShardCount) :
    codec.restoredData valid s i =
      ∑ j ∈ Finset.range codec.dataShardCount, decode.get i j * s j := by
  rw [restoredData, dif_pos hi, inv_eq_left_inv h.mul_eq, Finset.sum_range]
  rfl

theorem restoredValue_congr {s s' : Nat → E} (h : ∀ j, j < codec.dataShardCount → s j = s' j)
    (t : Nat) : codec.restoredValue valid s t = codec.restoredValue valid s' t := by
  unfold restoredValue
  simp only [restoredData_congr h]

/-- Only the first bytes of the survivors count. -/
theorem restoredShard_congr {inputs inputs' : List (List E)} {len : Nat} (h : ∀ j x,
    j < codec.dataShardCount → x < len →
      (inputs.getD j []).getD x 0 = (inputs'.getD j []).getD x 0) (t : Nat) :
    codec.restoredShard valid inputs len t = codec.restoredShard valid inputs' len t :=
  List.map_congr_left (fun x hx =>
    restoredValue_congr (fun j hj => h j x hj (List.mem_range.mp hx)) t)

/-- A recovery goes on where its first part stopped. -/
theorem restoredShard_append (codec : ReedSolomon E) (valid : List Nat) (inputs : List (List E))
    (a b t : Nat) : codec.restoredShard valid inputs (a + b) t =
      codec.restoredShard valid inputs a t ++
        codec.restoredShard valid (inputs.map (List.drop a)) b t := by
  unfold restoredShard
  rw [List.range_add, List.map_append, List.map_map]
  congr 1
  refine List.map_congr_left (fun x _ => ?_)
  have hinput (j : Nat) : ((inputs.map (List.drop a)).getD j []).getD x 0 =
      (inputs.getD j []).getD (a + x) 0 := by
    by_cases hj : j < inputs.length
    · rw [getD_map_of_lt _ _ _ hj [], getD_drop]
    · have hj' : (inputs.map (List.drop a)).length ≤ j := by
        rw [List.length_map]
        omega
      rw [List.getD_eq_default (inputs.map (List.drop a)) [] hj',
        List.getD_eq_default inputs [] (by omega)]
      rfl
  simp only [Function.comp, hinput]

theorem restoredValue_data (hinv : codec.ClassicInv) (s : Nat → E) {t : Nat}
    (ht : t < codec.dataShardCount) :
    codec.restoredValue valid s t = codec.restoredData valid s t := by
  unfold restoredValue
  rw [Finset.sum_eq_single t]
  · rw [hinv.systematic t t ht ht, if_pos rfl, one_eq, one_mul]
  · intro c hc hne
    rw [hinv.systematic t c ht (Finset.mem_range.mp hc), if_neg (Ne.symm hne), zero_eq, zero_mul]
  · intro hnot
    exact absurd (Finset.mem_range.mpr ht) hnot

/-- A surviving data shard is restored to itself. -/
theorem Survivors.restoredData_known (h : codec.Survivors valid) (hinv : codec.ClassicInv)
    (hunit : IsUnit (codec.survivorMatrix valid)) (s : Nat → E) {j : Nat}
    (hj : j < (codec.knownData valid).length) :
    codec.restoredData valid s ((codec.knownData valid).getD j 0) = s j := by
  rw [← h.survivorValue_known hinv (codec.restoredData valid s) hj]
  exact survivorValue_restoredData hunit s (lt_of_lt_of_le hj h.known_length_le)

/-- The same, read off the rank of the shard among the surviving data. -/
theorem Survivors.restoredData_rank (h : codec.Survivors valid) (hinv : codec.ClassicInv)
    (hunit : IsUnit (codec.survivorMatrix valid)) (s : Nat → E) {i : Nat}
    (hi : i ∈ codec.knownData valid) :
    codec.restoredData valid s i = s ((codec.knownData valid).filter (· < i)).length := by
  obtain ⟨hrank, hget⟩ := h.ascending_known.getD_rank hi
  have hknown := h.restoredData_known hinv hunit s hrank
  rwa [hget] at hknown

/-- With all data shards selected there is nothing to solve. -/
theorem isUnit_survivorMatrix_range (hinv : codec.ClassicInv) :
    IsUnit (codec.survivorMatrix (List.range codec.dataShardCount)) := by
  have hone : codec.survivorMatrix (List.range codec.dataShardCount) = 1 := by
    ext i j
    rw [survivorMatrix, of_apply, one_apply]
    have hget : (List.range codec.dataShardCount).getD (i : Nat) 0 = i := by
      rw [List.getD_eq_getElem _ _ (by simp), List.getElem_range]
    rw [hget, hinv.systematic i j i.isLt j.isLt]
    exact if_congr Fin.ext_iff.symm rfl rfl
  rw [hone]
  exact isUnit_one

theorem restoredData_range (hinv : codec.ClassicInv) (s : Nat → E) {i : Nat}
    (hi : i < codec.dataShardCount) :
    codec.restoredData (List.range codec.dataShardCount) s i = s i := by
  rw [← survivorValue_restoredData (isUnit_survivorMatrix_range hinv) s hi, survivorValue]
  rw [List.getD_eq_getElem _ _ (by rwa [List.length_range]), List.getElem_range]
  exact (restoredValue_data hinv s hi).symm

section Rows

variable {inputs : List (List E)}

/-- A row of the decode matrix restores a data shard. -/
theorem rowDot_decodeRow (hinv : codec.ClassicInv) {decode : CodingMatrix E}
    (h : codec.Decodes valid decode) (hin : inputs.length = codec.dataShardCount) {t : Nat}
    (ht : t < codec.dataShardCount) (x : Nat) :
    rowDot (decode.getRow t) inputs x =
      codec.restoredValue valid (fun j => (inputs.getD j []).getD x 0) t := by
  rw [restoredValue_data hinv _ ht, h.restoredData_eq _ ht, rowDot, hin]
  refine Finset.sum_congr rfl (fun j hj => ?_)
  rw [decode.getD_getRow (by rw [h.colCount_eq]; exact Finset.mem_range.mp hj) _
    (by rw [h.rowCount_eq]; exact ht)]

/-- A row of the encoding matrix restores any shard from the restored data. -/
theorem rowDot_encodingRow (hinv : codec.ClassicInv) (hin : inputs.length = codec.dataShardCount)
    {s : Nat → E} {t x : Nat} (ht : t < codec.totalShardCount)
    (hdata : ∀ i, i < codec.dataShardCount →
      (inputs.getD i []).getD x 0 = codec.restoredData valid s i) :
    rowDot (codec.format.matrix.getRow t) inputs x = codec.restoredValue valid s t := by
  rw [rowDot_getRow hinv hin ht, restoredValue]
  refine Finset.sum_congr rfl (fun c hc => ?_)
  rw [hdata c (Finset.mem_range.mp hc)]

private theorem foldl_add_eq (l : List Nat) (f : Nat → E) (z : E) :
    l.foldl (fun sum i => add sum (f i)) z =
      z + ∑ j ∈ Finset.range l.length, f (l.getD j 0) := by
  induction l generalizing z with
  | nil => simp
  | cons a l ih =>
    rw [List.foldl_cons, ih, add_eq, List.length_cons, Finset.sum_range_succ', add_assoc,
      add_comm (f a)]
    simp only [List.getD_cons_succ, List.getD_cons_zero]

/-- A composed parity row restores its shard from the survivors directly. -/
theorem rowDot_composeParityRow (hinv : codec.ClassicInv) {shape : ClassicReconstructShape}
    (h : codec.Survivors shape.validIndices) {inverse : CodingMatrix E}
    (hdec : codec.Decodes shape.validIndices inverse)
    (hin : inputs.length = codec.dataShardCount) {t : Nat} (ht : t < codec.totalShardCount)
    (x : Nat) :
    rowDot (codec.composeParityRow shape
        (complement codec.dataShardCount (codec.knownData shape.validIndices)) inverse t) inputs x =
      codec.restoredValue shape.validIndices (fun j => (inputs.getD j []).getD x 0) t := by
  set s : Nat → E := fun j => (inputs.getD j []).getD x 0 with hs
  set known := codec.knownData shape.validIndices with hknown
  set missing := complement codec.dataShardCount known with hmissing
  have hrow (c : Nat) (hc : c < codec.dataShardCount) :
      (codec.format.matrix.getRow t).getD c zero = codec.format.matrix.get t c :=
    codec.format.matrix.getD_getRow (by rw [hinv.colCount_eq]; exact hc) _
      (by rw [hinv.rowCount_eq]; exact ht)
  have hmissingLt (i : Nat) (hi : i < missing.length) : missing.getD i 0 < codec.dataShardCount :=
    (mem_complement.mp (getD_mem hi)).1
  -- the entry of the composed row, with the known term on the selected data columns only
  have hentry (c : Nat) (hc : c < codec.dataShardCount) :
      (codec.composeParityRow shape missing inverse t).getD c 0 =
        (if c < known.length then codec.format.matrix.get t (known.getD c 0) else 0) +
          ∑ i ∈ Finset.range missing.length,
            codec.format.matrix.get t (missing.getD i 0) * inverse.get (missing.getD i 0) c := by
    rw [composeParityRow, getD_map_range _ _ _ hc, foldl_add_eq]
    congr 1
    · by_cases hck : c < known.length
      · have hget := h.known_getD hck
        have hlt := knownData_lt _ (getD_mem hck)
        rw [← hget, if_pos hlt, if_pos hck, hrow _ hlt]
      · rw [if_neg hck, if_neg, zero_eq]
        intro hlt
        apply hck
        have hin : shape.validIndices.getD c 0 ∈ known :=
          List.mem_filter.mpr ⟨getD_mem (by rw [h.length_eq]; exact hc), decide_eq_true hlt⟩
        obtain ⟨j, hj, heq⟩ := exists_getD_of_mem hin
        rw [h.known_getD hj] at heq
        have := h.ascending.getD_inj (by rw [h.length_eq]; exact lt_of_lt_of_le hj h.known_length_le)
          (by rw [h.length_eq]; exact hc) heq
        omega
    · refine Finset.sum_congr rfl (fun i hi => ?_)
      rw [hrow _ (hmissingLt i (Finset.mem_range.mp hi)), mul_eq]
  have hleft : rowDot (codec.composeParityRow shape missing inverse t) inputs x =
      ∑ c ∈ Finset.range codec.dataShardCount,
        (if c < known.length then codec.format.matrix.get t (known.getD c 0) else 0) * s c +
      ∑ i ∈ Finset.range missing.length, codec.format.matrix.get t (missing.getD i 0) *
        codec.restoredData shape.validIndices s (missing.getD i 0) := by
    rw [rowDot, hin]
    rw [Finset.sum_congr rfl (fun c hc => by
      rw [hentry c (Finset.mem_range.mp hc), add_mul] : ∀ c ∈ Finset.range codec.dataShardCount,
        _ = (if c < known.length then codec.format.matrix.get t (known.getD c 0) else 0) * s c + _),
      Finset.sum_add_distrib]
    congr 1
    simp only [Finset.sum_mul]
    rw [Finset.sum_comm]
    refine Finset.sum_congr rfl (fun i hi => ?_)
    rw [hdec.restoredData_eq s (hmissingLt i (Finset.mem_range.mp hi)), Finset.mul_sum]
    refine Finset.sum_congr rfl (fun c _ => ?_)
    rw [mul_assoc]
  have hright : codec.restoredValue shape.validIndices s t =
      ∑ c ∈ Finset.range known.length, codec.format.matrix.get t (known.getD c 0) *
        codec.restoredData shape.validIndices s (known.getD c 0) +
      ∑ i ∈ Finset.range missing.length, codec.format.matrix.get t (missing.getD i 0) *
        codec.restoredData shape.validIndices s (missing.getD i 0) :=
    h.ascending_known.sum_split knownData_lt _
  rw [hleft, hright]
  congr 1
  have hle : known.length ≤ codec.dataShardCount := h.known_length_le
  obtain ⟨extra, hextra⟩ := Nat.exists_eq_add_of_le hle
  rw [hextra, Finset.sum_range_add, Finset.sum_eq_zero (s := Finset.range extra) (fun c _ => by
    rw [if_neg (by omega), zero_mul]), add_zero]
  refine Finset.sum_congr rfl (fun c hc => ?_)
  rw [if_pos (Finset.mem_range.mp hc),
    h.restoredData_known hinv hdec.isUnit s (Finset.mem_range.mp hc)]

end Rows

section Codewords

/-- Shards of length `n` that the encoding matrix relates to the data among them. -/
structure IsCodeword (codec : ReedSolomon E) (n : Nat) (word : Nat → List E) : Prop where
  length_eq : ∀ i, i < codec.totalShardCount → (word i).length = n
  value_eq : ∀ i x, i < codec.totalShardCount → x < n → (word i).getD x 0 =
    ∑ c ∈ Finset.range codec.dataShardCount,
      codec.format.matrix.get i c * (word c).getD x 0

/-- Survivors of a codeword determine its shards. -/
theorem IsCodeword.restoredShard_eq {n : Nat} {word : Nat → List E}
    (hword : codec.IsCodeword n word) (h : codec.Survivors valid)
    (hunit : IsUnit (codec.survivorMatrix valid)) {t : Nat} (ht : t < codec.totalShardCount) :
    codec.restoredShard valid (valid.map word) n t = word t := by
  refine getD_ext 0 (by rw [length_restoredShard, hword.length_eq t ht]) (fun x hx => ?_)
  rw [length_restoredShard] at hx
  have hs : ∀ j, j < codec.dataShardCount →
      ((valid.map word).getD j []).getD x 0 =
        codec.survivorValue valid (fun c => (word c).getD x 0) j := by
    intro j hj
    have hjv : j < valid.length := by rw [h.length_eq]; exact hj
    rw [getD_map_of_lt _ _ _ hjv 0,
      hword.value_eq _ x (h.lt_total _ (getD_mem hjv)) hx]
    rfl
  rw [getD_restoredShard _ _ _ _ hx, hword.value_eq t x ht hx, restoredValue]
  refine Finset.sum_congr rfl (fun c hc => ?_)
  rw [← restoredData_survivorValue hunit (fun c => (word c).getD x 0) (Finset.mem_range.mp hc)]
  congr 1
  exact restoredData_congr hs c

/-- What solvable survivors determine is a codeword through them. -/
theorem isCodeword_restoredShard (hinv : codec.ClassicInv) (valid : List Nat)
    (inputs : List (List E)) (n : Nat) :
    codec.IsCodeword n (codec.restoredShard valid inputs n) := by
  refine ⟨fun i _ => length_restoredShard _ _ _ _ _, fun i x _ hx => ?_⟩
  rw [getD_restoredShard _ _ _ _ hx, restoredValue]
  refine Finset.sum_congr rfl (fun c hc => ?_)
  rw [getD_restoredShard _ _ _ _ hx, restoredValue_data hinv _ (Finset.mem_range.mp hc)]

theorem restoredShard_survivor (hunit : IsUnit (codec.survivorMatrix valid))
    {inputs : List (List E)} {n : Nat}
    (hin : Grid codec.dataShardCount n inputs) {j : Nat} (hj : j < codec.dataShardCount) :
    codec.restoredShard valid inputs n (valid.getD j 0) = inputs.getD j [] := by
  refine getD_ext 0 (by rw [length_restoredShard, hin.row_length j hj]) (fun x hx => ?_)
  rw [length_restoredShard] at hx
  rw [getD_restoredShard _ _ _ _ hx]
  exact survivorValue_restoredData hunit (fun j => (inputs.getD j []).getD x 0) hj

theorem grid_encoded {len : Nat} {data : List (List E)} (hd : Grid codec.dataShardCount len data) :
    Grid codec.totalShardCount len (data ++ codec.parityProduct data len) := by
  have hp := grid_parityProduct codec data len
  refine grid_of_forall ?_ (fun row hrow => ?_)
  · rw [List.length_append, hd.length_eq, hp.length_eq]
    rfl
  · rcases List.mem_append.mp hrow with h | h
    · exact hd.forall h
    · exact hp.forall h

/-- What encoding writes is a codeword. -/
theorem isCodeword_encoded (hinv : codec.ClassicInv) {len : Nat} {data : List (List E)}
    (hd : Grid codec.dataShardCount len data) :
    codec.IsCodeword len ((data ++ codec.parityProduct data len).getD · []) := by
  have hgrid := grid_encoded hd
  have htotal := codec.totalShardCount_eq
  have hdata (c : Nat) (hc : c < codec.dataShardCount) :
      (data ++ codec.parityProduct data len).getD c [] = data.getD c [] :=
    getD_append_left' (by rw [hd.length_eq]; exact hc) []
  refine ⟨fun i hi => hgrid.row_length i hi, fun i x hi hx => ?_⟩
  rw [Finset.sum_congr rfl (fun c hc => by rw [hdata c (Finset.mem_range.mp hc)])]
  rcases Nat.lt_or_ge i codec.dataShardCount with hlt | hge
  · rw [hdata i hlt, Finset.sum_eq_single i]
    · rw [hinv.systematic i i hlt hlt, if_pos rfl, one_eq, one_mul]
    · intro c hc hne
      rw [hinv.systematic i c hlt (Finset.mem_range.mp hc), if_neg (Ne.symm hne), zero_eq, zero_mul]
    · intro hnot
      exact absurd (Finset.mem_range.mpr hlt) hnot
  · obtain ⟨r, rfl⟩ := Nat.exists_eq_add_of_le hge
    have hr : r < codec.parityShardCount := by omega
    rw [List.getD_append_right _ _ _ _ (by rw [hd.length_eq]; exact hge), hd.length_eq,
      Nat.add_sub_cancel_left, getD_parityProduct codec data hr hx]

end Codewords

end ReedSolomon

end ErasureCodec
