import ErasureCodec.Math.Ascending
import ErasureCodec.Codec.Construct

namespace ErasureCodec

open CodecField

namespace ReedSolomon

section Definitions

variable {E : Type} [CodecField E] [DecidableEq E]

/-- The data indices a merge with the surviving ones leaves over. -/
def missingData (dataCount : Nat) (known : List Nat) : List Nat := unlisted 0 dataCount known

/-- One missing data shard: its parity equation is solved by the reciprocal of
the one unknown coefficient. -/
def singleErasureMatrix (codec : ReedSolomon E) (validIndices : List Nat) (presentCount : Nat) :
    Outcome Error (CodingMatrix E) :=
  let known := validIndices.take presentCount
  let missing := ((List.range presentCount).find? fun index =>
    index ≠ known.getD index 0).getD presentCount
  let parityRow := codec.format.matrix.getRow (validIndices.getD presentCount 0)
  let pivot := parityRow.getD missing zero
  if pivot = zero then .err .invalidCustomMatrix
  else
    let reciprocal := div one pivot
    let decode := (List.range presentCount).foldl (fun decode column =>
      (decode.set (known.getD column 0) column one).set missing column
        (mul reciprocal (parityRow.getD (known.getD column 0) zero)))
      (CodingMatrix.new codec.dataShardCount codec.dataShardCount)
    .ok (decode.set missing presentCount reciprocal)

/-- The survivor equations `[C | B | I]` with the unknown data columns first. -/
def survivorEquations (codec : ReedSolomon E) (missing known selectedParity : List Nat) :
    CodingMatrix E :=
  let missingCount := missing.length
  (List.range selectedParity.length).foldl (fun equations row =>
    let coefficients := codec.format.matrix.getRow (selectedParity.getD row 0)
    let equations := (List.range missingCount).foldl (fun equations column =>
      equations.set row column (coefficients.getD (missing.getD column 0) zero)) equations
    let equations := (List.range known.length).foldl (fun equations column =>
      equations.set row (missingCount + column) (coefficients.getD (known.getD column 0) zero))
      equations
    equations.set row (missingCount + known.length + row) one)
    (CodingMatrix.new missingCount (missingCount + codec.dataShardCount))

/-- Unit rows for the surviving data, the right block of the solved equations for
the missing data. -/
def scatterSolution (codec : ReedSolomon E) (missing known : List Nat)
    (equations : CodingMatrix E) : CodingMatrix E :=
  let decode := (List.range known.length).foldl (fun decode column =>
    decode.set (known.getD column 0) column one)
    (CodingMatrix.new codec.dataShardCount codec.dataShardCount)
  (List.range missing.length).foldl (fun decode row =>
    let values := (equations.getRow row).drop missing.length
    (List.range values.length).foldl (fun decode column =>
      decode.set (missing.getD row 0) column (values.getD column zero)) decode) decode

/-- Partial elimination when some but not all data shards survive. -/
def partialErasureMatrix (codec : ReedSolomon E) (validIndices : List Nat) (presentCount : Nat) :
    Outcome Error (CodingMatrix E) := do
  let known := validIndices.take presentCount
  let missing := missingData codec.dataShardCount known
  let equations ← ((codec.survivorEquations missing known
    (validIndices.drop presentCount)).gaussianElim).mapErr fun _ => Error.invalidCustomMatrix
  pure (codec.scatterSolution missing known equations)

/-- The dense inverse of the selected rows. -/
def denseMatrix (codec : ReedSolomon E) (validIndices : List Nat) :
    Outcome Error (CodingMatrix E) :=
  let selected := (CodingMatrix.new codec.dataShardCount codec.dataShardCount).fill
    codec.dataShardCount codec.dataShardCount
    fun row column => codec.format.matrix.get (validIndices.getD row 0) column
  selected.invert.mapErr fun _ => Error.invalidCustomMatrix

def buildDataDecodeMatrix (codec : ReedSolomon E) (validIndices : List Nat) :
    Outcome Error (CodingMatrix E) :=
  let dataCount := codec.dataShardCount
  let presentCount := partitionPoint (· < dataCount) validIndices
  if presentCount + 1 = dataCount then codec.singleErasureMatrix validIndices presentCount
  else
    let missingCount := dataCount - presentCount
    if presentCount ≠ 0 ∧ missingCount > 1 then
      codec.partialErasureMatrix validIndices presentCount
    else codec.denseMatrix validIndices

end Definitions

theorem missingData_eq {known : List Nat} (h : Ascending known) (n : Nat) :
    missingData n known = complement n known := by
  have hall : known.filter (0 ≤ ·) = known := List.filter_eq_self.mpr (fun _ _ => by simp)
  have hun := h.unlisted_eq 0 n
  rw [hall, ← List.range_eq_range'] at hun
  exact hun

section Selection

variable {E : Type} {codec : ReedSolomon E} {valid : List Nat}

/-- A request for the inverse of selected survivor rows. -/
structure Survivors (codec : ReedSolomon E) (validIndices : List Nat) : Prop where
  ascending : Ascending validIndices
  length_eq : validIndices.length = codec.dataShardCount
  lt_total : ∀ i ∈ validIndices, i < codec.totalShardCount

/-- The selected data shards, a prefix of the survivors. -/
def knownData (codec : ReedSolomon E) (valid : List Nat) : List Nat :=
  valid.filter (· < codec.dataShardCount)

theorem Survivors.take_eq (h : codec.Survivors valid) :
    valid.take (partitionPoint (· < codec.dataShardCount) valid) = codec.knownData valid :=
  h.ascending.take_partitionPoint _

theorem Survivors.partitionPoint_eq (h : codec.Survivors valid) :
    partitionPoint (· < codec.dataShardCount) valid = (codec.knownData valid).length := by
  rw [partitionPoint, (h.ascending.takeWhile_lt _).1, knownData]

theorem knownData_lt : ∀ i ∈ codec.knownData valid, i < codec.dataShardCount := by
  intro i hi
  simpa using (List.mem_filter.mp hi).2

theorem Survivors.known_length_le (h : codec.Survivors valid) :
    (codec.knownData valid).length ≤ codec.dataShardCount := by
  rw [← h.length_eq]
  exact List.length_filter_le _ _

theorem Survivors.ascending_known (h : codec.Survivors valid) : Ascending (codec.knownData valid) :=
  h.ascending.filter _

theorem Survivors.known_getD (h : codec.Survivors valid) {j : Nat}
    (hj : j < (codec.knownData valid).length) : (codec.knownData valid).getD j 0 = valid.getD j 0 := by
  rw [← h.take_eq, h.partitionPoint_eq]
  exact getD_take hj 0

end Selection

section Spec

variable {E : Type} [CodecField E] [LawfulField E] {codec : ReedSolomon E}

/-- The survivor matrix: the selected rows of the encoding matrix. -/
def survivorMatrix (codec : ReedSolomon E) (validIndices : List Nat) :
    Matrix (Fin codec.dataShardCount) (Fin codec.dataShardCount) E :=
  Matrix.of fun i j => codec.format.matrix.get (validIndices.getD i 0) j

/-- A decode matrix is the inverse of the survivor matrix. -/
structure Decodes (codec : ReedSolomon E) (validIndices : List Nat) (decode : CodingMatrix E) :
    Prop where
  rowCount_eq : decode.rowCount = codec.dataShardCount
  colCount_eq : decode.colCount = codec.dataShardCount
  mul_eq : decode.toMatrix codec.dataShardCount codec.dataShardCount *
    codec.survivorMatrix validIndices = 1

/-- Decode matrices of one selection are equal. -/
theorem Decodes.unique {valid : List Nat} {a b : CodingMatrix E} (ha : codec.Decodes valid a)
    (hb : codec.Decodes valid b) : a = b := by
  have hmat : a.toMatrix codec.dataShardCount codec.dataShardCount =
      b.toMatrix codec.dataShardCount codec.dataShardCount := by
    have hright := mul_eq_one_comm.mp hb.mul_eq
    calc a.toMatrix codec.dataShardCount codec.dataShardCount
        = a.toMatrix codec.dataShardCount codec.dataShardCount *
            (codec.survivorMatrix valid *
              b.toMatrix codec.dataShardCount codec.dataShardCount) := by
          rw [hright, Matrix.mul_one]
      _ = b.toMatrix codec.dataShardCount codec.dataShardCount := by
          rw [← Matrix.mul_assoc, ha.mul_eq, Matrix.one_mul]
  apply CodingMatrix.ext_get (ha.rowCount_eq.trans hb.rowCount_eq.symm)
    (ha.colCount_eq.trans hb.colCount_eq.symm)
  intro r c hr hc
  rw [ha.rowCount_eq] at hr
  rw [ha.colCount_eq] at hc
  exact congrFun (congrFun hmat ⟨r, hr⟩) ⟨c, hc⟩

/-- What a call that inverts the selected rows returns. -/
def Inverts (codec : ReedSolomon E) (valid : List Nat)
    (result : Outcome Error (CodingMatrix E)) : Prop :=
  result.Sat (codec.Decodes valid)
    (fun e => e = .invalidCustomMatrix ∧ ¬IsUnit (codec.survivorMatrix valid)) False

theorem Decodes.isUnit {valid : List Nat} {decode : CodingMatrix E} (h : codec.Decodes valid decode) :
    IsUnit (codec.survivorMatrix valid) := IsUnit.of_mul_eq_one_right _ h.mul_eq

/-- There is one way to invert the selected rows. -/
theorem Inverts.unique {valid : List Nat} {x y : Outcome Error (CodingMatrix E)} (hx : codec.Inverts valid x)
    (hy : codec.Inverts valid y) : x = y := by
  cases x with
  | panic => exact hx.elim
  | ok a =>
    cases y with
    | panic => exact hy.elim
    | ok b => exact congrArg Outcome.ok (Decodes.unique hx hy)
    | err e => exact absurd (Decodes.isUnit hx) hy.2
  | err e =>
    cases y with
    | panic => exact hy.elim
    | ok b => exact absurd (Decodes.isUnit hy) hx.2
    | err e' => rw [hx.1, hy.1]

/-- What the survivors hold for data `v`. -/
noncomputable def survivorValue (codec : ReedSolomon E) (validIndices : List Nat) (v : Nat → E)
    (j : Nat) : E :=
  ∑ c ∈ Finset.range codec.dataShardCount,
    codec.format.matrix.get (validIndices.getD j 0) c * v c

/-- A matrix that returns all data from what the survivors hold is the inverse. -/
theorem decodes_of_recovers {valid : List Nat} {decode : CodingMatrix E}
    (hr : decode.rowCount = codec.dataShardCount) (hc : decode.colCount = codec.dataShardCount)
    (h : ∀ (v : Nat → E) (i : Nat), i < codec.dataShardCount →
      ∑ j ∈ Finset.range codec.dataShardCount,
        decode.get i j * codec.survivorValue valid v j = v i) :
    codec.Decodes valid decode := by
  refine ⟨hr, hc, ?_⟩
  ext i c
  rw [Matrix.mul_apply, Matrix.one_apply]
  have hi := h (fun x => if x = (c : Nat) then 1 else 0) i i.isLt
  rw [Finset.sum_range] at hi
  have hval (j : Nat) : codec.survivorValue valid (fun x => if x = (c : Nat) then 1 else 0) j =
      codec.format.matrix.get (valid.getD j 0) c := by
    unfold survivorValue
    rw [Finset.sum_eq_single (c : Nat)]
    · simp only [if_true, mul_one]
    · intro b _ hb
      simp only [if_neg hb, mul_zero]
    · intro hmem
      exact absurd (Finset.mem_range.mpr c.isLt) hmem
  simp only [hval] at hi
  refine hi.trans (if_congr ?_ rfl rfl)
  rw [Fin.ext_iff]

/-- A nonzero data vector that the survivors do not see makes them singular. -/
theorem not_isUnit_of_survivorValue {valid : List Nat} (v : Nat → E) {c : Nat}
    (hc : c < codec.dataShardCount) (hne : v c ≠ 0)
    (h : ∀ j, j < codec.dataShardCount → codec.survivorValue valid v j = 0) :
    ¬IsUnit (codec.survivorMatrix valid) := by
  intro hunit
  have hker := (isUnit_iff_kernel _).mp hunit (fun j => v j) (funext fun j => by
    have hj := h j j.isLt
    rw [survivorValue, Finset.sum_range] at hj
    exact hj)
  exact hne (congrFun hker ⟨c, hc⟩)

section Split

variable {valid : List Nat}

/-- A surviving data shard holds its own data. -/
theorem Survivors.survivorValue_known (h : codec.Survivors valid) (hinv : codec.ClassicInv)
    (v : Nat → E) {j : Nat} (hj : j < (codec.knownData valid).length) :
    codec.survivorValue valid v j = v ((codec.knownData valid).getD j 0) := by
  have hlt := knownData_lt _ (getD_mem hj)
  unfold survivorValue
  rw [← h.known_getD hj, Finset.sum_eq_single ((codec.knownData valid).getD j 0)]
  · rw [hinv.systematic _ _ hlt hlt, if_pos rfl, one_eq, one_mul]
  · intro b hb hne
    rw [hinv.systematic _ _ hlt (Finset.mem_range.mp hb), if_neg (Ne.symm hne), zero_eq, zero_mul]
  · intro hmem
    exact absurd (Finset.mem_range.mpr hlt) hmem

/-- Any survivor holds its share of the known and of the missing data. -/
theorem Survivors.survivorValue_split (h : codec.Survivors valid) (v : Nat → E) (j : Nat) :
    codec.survivorValue valid v j =
      ∑ i ∈ Finset.range (codec.knownData valid).length,
        codec.format.matrix.get (valid.getD j 0) ((codec.knownData valid).getD i 0) *
          v ((codec.knownData valid).getD i 0) +
      ∑ i ∈ Finset.range (complement codec.dataShardCount (codec.knownData valid)).length,
        codec.format.matrix.get (valid.getD j 0)
            ((complement codec.dataShardCount (codec.knownData valid)).getD i 0) *
          v ((complement codec.dataShardCount (codec.knownData valid)).getD i 0) :=
  h.ascending_known.sum_split knownData_lt fun c => codec.format.matrix.get (valid.getD j 0) c * v c

/-- Unit rows for the known data and solved rows for the missing data decode. -/
theorem Survivors.decodes_of_rows (h : codec.Survivors valid) (hinv : codec.ClassicInv)
    {decode : CodingMatrix E} (hr : decode.rowCount = codec.dataShardCount)
    (hc : decode.colCount = codec.dataShardCount)
    (hknown : ∀ j, j < (codec.knownData valid).length → ∀ c, c < codec.dataShardCount →
      decode.get ((codec.knownData valid).getD j 0) c = if c = j then 1 else 0)
    (hmissing : ∀ i, i < codec.dataShardCount → i ∉ codec.knownData valid → ∀ v : Nat → E,
      ∑ j ∈ Finset.range codec.dataShardCount,
        decode.get i j * codec.survivorValue valid v j = v i) :
    codec.Decodes valid decode := by
  refine decodes_of_recovers hr hc (fun v i hi => ?_)
  by_cases hmem : i ∈ codec.knownData valid
  swap
  · exact hmissing i hi hmem v
  obtain ⟨j, hj, rfl⟩ := exists_getD_of_mem hmem
  have hjk : j < codec.dataShardCount := lt_of_lt_of_le hj h.known_length_le
  rw [Finset.sum_eq_single j]
  · rw [hknown j hj j hjk, if_pos rfl, one_mul, h.survivorValue_known hinv v hj]
  · intro b hb hne
    rw [hknown j hj b (Finset.mem_range.mp hb), if_neg hne, zero_mul]
  · intro hnot
    exact absurd (Finset.mem_range.mpr hjk) hnot

omit [LawfulField E] in
/-- Row access through a borrowed row. -/
theorem Survivors.getD_getRow (h : codec.Survivors valid) (hinv : codec.ClassicInv) {j c : Nat}
    (hj : j < codec.dataShardCount) (hc : c < codec.dataShardCount) :
    (codec.format.matrix.getRow (valid.getD j 0)).getD c zero =
      codec.format.matrix.get (valid.getD j 0) c := by
  have hlt := h.lt_total _ (getD_mem (by rw [h.length_eq]; exact hj))
  rw [codec.format.matrix.getD_getRow (by rw [hinv.colCount_eq]; exact hc) _
    (by rw [hinv.rowCount_eq]; exact hlt)]

end Split

variable [DecidableEq E] {valid : List Nat}

omit [DecidableEq E] in
/-- The loop of the single erasure branch, entry by entry. -/
private theorem singleErasure_loop {k : Nat} (known : List Nat) (missing : Nat) (recip : E)
    (row : Nat → E) (hmissing : missing < k) (hlt : ∀ c, c < known.length → known.getD c 0 < k)
    (hlen : known.length < k) :
    let t := (List.range known.length).foldl (fun decode column =>
      (decode.set (known.getD column 0) column one).set missing column
        (mul recip (row (known.getD column 0)))) (CodingMatrix.new k k : CodingMatrix E)
    t.rowCount = k ∧ t.colCount = k ∧ ∀ r c, r < k → c < k →
      t.get r c = if c < known.length then
        (if r = missing then recip * row (known.getD c 0) else
          if r = known.getD c 0 then 1 else 0) else 0 := by
  let P : Nat → CodingMatrix E → Prop := fun i t => t.rowCount = k ∧ t.colCount = k ∧
    ∀ r c, r < k → c < k → t.get r c = if c < i then
      (if r = missing then recip * row (known.getD c 0) else
        if r = known.getD c 0 then 1 else 0) else 0
  refine foldl_range_inv P _ known.length _ ⟨rfl, rfl, fun r c _ _ => ?_⟩ ?_
  · rw [CodingMatrix.get_new, if_neg (Nat.not_lt_zero c), zero_eq]
  rintro i hi t ⟨htr, htc, ht⟩
  refine ⟨htr, htc, fun r c hr hc => ?_⟩
  have hki := hlt i hi
  rw [CodingMatrix.get_set _ _ (by rw [CodingMatrix.rowCount_set, htr]; exact hmissing)
      (by rw [CodingMatrix.colCount_set, htc]; omega)
      (by rw [CodingMatrix.colCount_set, htc]; exact hc),
    CodingMatrix.get_set _ _ (by rw [htr]; exact hki) (by rw [htc]; omega) (by rw [htc]; exact hc),
    ht r c hr hc]
  by_cases hic : i = c
  · subst hic
    rw [if_pos (Nat.lt_succ_self i), if_neg (lt_irrefl i)]
    by_cases hm : missing = r
    · rw [if_pos ⟨hm, rfl⟩, if_pos hm.symm, mul_eq]
    · rw [if_neg (fun h => hm h.1), if_neg (Ne.symm hm)]
      by_cases hk : known.getD i 0 = r
      · rw [if_pos ⟨hk, rfl⟩, if_pos hk.symm, one_eq]
      · rw [if_neg (fun h => hk h.1), if_neg (Ne.symm hk)]
  · rw [if_neg (fun h => hic h.2), if_neg (fun h => hic h.2)]
    apply if_congr _ rfl rfl
    omega

theorem singleErasureMatrix_spec (hinv : codec.ClassicInv) (h : codec.Survivors valid)
    (hone : (codec.knownData valid).length + 1 = codec.dataShardCount) :
    (codec.singleErasureMatrix valid (codec.knownData valid).length).Sat (codec.Decodes valid)
      (fun e => e = .invalidCustomMatrix ∧ ¬IsUnit (codec.survivorMatrix valid)) False := by
  obtain ⟨hgapLe, hgap⟩ := h.ascending_known.firstGap_spec
  have htake : valid.take (codec.knownData valid).length = codec.knownData valid := by
    rw [← h.partitionPoint_eq]
    exact h.take_eq
  simp only [singleErasureMatrix, htake]
  set known := codec.knownData valid with hknown
  set missing := ((List.range known.length).find? fun i => i ≠ known.getD i 0).getD known.length
    with hmissing
  have hm : missing < codec.dataShardCount := by omega
  have hp : known.length < codec.dataShardCount := by omega
  have hcomp : complement codec.dataShardCount known = [missing] := by
    have hlen : (complement codec.dataShardCount known).length + known.length =
        codec.dataShardCount := h.ascending_known.length_complement knownData_lt
    obtain ⟨a, ha⟩ := List.length_eq_one_iff.mp (by omega :
      (complement codec.dataShardCount known).length = 1)
    have hmem : missing ∈ complement codec.dataShardCount known := mem_complement.mpr ⟨hm, hgap⟩
    rw [ha, List.mem_singleton] at hmem
    rw [ha, hmem]
  have hlast (v : Nat → E) : codec.survivorValue valid v known.length =
      ∑ i ∈ Finset.range known.length,
        codec.format.matrix.get (valid.getD known.length 0) (known.getD i 0) *
          v (known.getD i 0) +
      codec.format.matrix.get (valid.getD known.length 0) missing * v missing := by
    rw [h.survivorValue_split v known.length, ← hknown, hcomp, List.length_singleton,
      Finset.sum_range_one, List.getD_cons_zero]
  have hnotKnown (c : Nat) (hc : c < known.length) : known.getD c 0 ≠ missing := by
    intro heq
    exact hgap (heq ▸ getD_mem hc)
  have hltKnown (c : Nat) (hc : c < known.length) : known.getD c 0 < codec.dataShardCount :=
    knownData_lt _ (getD_mem hc)
  rw [h.getD_getRow hinv hp hm]
  split_ifs with hpivot
  · refine ⟨rfl, not_isUnit_of_survivorValue (fun x => if x = missing then 1 else 0) hm
      (by rw [if_pos rfl]; exact one_ne_zero) (fun j hj => ?_)⟩
    rcases Nat.lt_succ_iff_lt_or_eq.mp (by omega : j < known.length + 1) with hj' | rfl
    · rw [h.survivorValue_known hinv _ hj', if_neg (hnotKnown j hj')]
    · rw [hlast, hpivot, zero_eq, zero_mul, add_zero]
      refine Finset.sum_eq_zero (fun i hi => ?_)
      rw [if_neg (hnotKnown i (Finset.mem_range.mp hi)), mul_zero]
  · set recip := div one (codec.format.matrix.get (valid.getD known.length 0) missing) with hrecip
    have hunit : recip * codec.format.matrix.get (valid.getD known.length 0) missing = 1 :=
      LawfulField.div_mul _ _ hpivot
    obtain ⟨htr, htc, ht⟩ := singleErasure_loop known missing recip
      (fun c => (codec.format.matrix.getRow (valid.getD known.length 0)).getD c zero) hm hltKnown hp
    set t := (List.range known.length).foldl (fun decode column =>
      (decode.set (known.getD column 0) column one).set missing column
        (mul recip ((codec.format.matrix.getRow (valid.getD known.length 0)).getD
          (known.getD column 0) zero)))
      (CodingMatrix.new codec.dataShardCount codec.dataShardCount)
    have hget (r c : Nat) (hr : r < codec.dataShardCount) (hc : c < codec.dataShardCount) :
        (t.set missing known.length recip).get r c =
          if missing = r ∧ known.length = c then recip else t.get r c :=
      t.get_set _ (by rw [htr]; exact hm) (by rw [htc]; exact hp) (by rw [htc]; exact hc)
    refine h.decodes_of_rows hinv htr htc (fun j hj c hc => ?_) (fun i hi hnot v => ?_)
    · rw [hget _ _ (hltKnown j hj) hc, if_neg (fun h => hnotKnown j hj h.1.symm),
        ht _ _ (hltKnown j hj) hc, if_neg (hnotKnown j hj)]
      by_cases hcp : c < known.length
      · rw [if_pos hcp]
        apply if_congr _ rfl rfl
        constructor
        · intro heq
          exact (h.ascending_known.getD_inj hj hcp heq).symm
        · rintro rfl
          rfl
      · rw [if_neg hcp, if_neg (by rintro rfl; exact hcp hj)]
    · obtain rfl : i = missing := by
        have hmem : i ∈ complement codec.dataShardCount known := mem_complement.mpr ⟨hi, hnot⟩
        rwa [hcomp, List.mem_singleton] at hmem
      have hterm (j : Nat) (hj : j < known.length) :
          (t.set missing known.length recip).get missing j * codec.survivorValue valid v j =
            recip * (codec.format.matrix.get (valid.getD known.length 0) (known.getD j 0) *
              v (known.getD j 0)) := by
        rw [hget missing j hm (by omega), if_neg (by omega), ht missing j hm (by omega), if_pos hj,
          if_pos rfl, h.survivorValue_known hinv v hj, h.getD_getRow hinv hp (hltKnown j hj),
          mul_assoc]
      rw [← hone, Finset.sum_range_succ, Finset.sum_congr rfl (fun j hj =>
        hterm j (Finset.mem_range.mp hj)), hget missing known.length hm hp, if_pos ⟨rfl, rfl⟩, hlast,
        ← Finset.mul_sum, ← mul_add, ← add_assoc, CharTwo.add_self_eq_zero, zero_add, ← mul_assoc,
        hunit, one_mul]

omit [LawfulField E] [DecidableEq E] in
/-- The entries of the survivor equations. -/
theorem survivorEquations_spec (codec : ReedSolomon E) {missing known parity : List Nat}
    (hq : parity.length = missing.length)
    (hk : missing.length + known.length = codec.dataShardCount) :
    let t := codec.survivorEquations missing known parity
    let coefficient r c := (codec.format.matrix.getRow (parity.getD r 0)).getD c zero
    t.rowCount = missing.length ∧ t.colCount = missing.length + codec.dataShardCount ∧
      ∀ r c, r < missing.length → c < missing.length + codec.dataShardCount → t.get r c =
        if c < missing.length then coefficient r (missing.getD c 0)
        else if c < missing.length + known.length then
          coefficient r (known.getD (c - missing.length) 0)
        else if c = missing.length + known.length + r then one else zero := by
  intro t coefficient
  let f (r c : Nat) : E := if c < missing.length then coefficient r (missing.getD c 0)
    else if c < missing.length + known.length then
      coefficient r (known.getD (c - missing.length) 0)
    else if c = missing.length + known.length + r then one else zero
  let P : Nat → CodingMatrix E → Prop := fun i s => s.rowCount = missing.length ∧
    s.colCount = missing.length + codec.dataShardCount ∧
    ∀ r c, c < missing.length + codec.dataShardCount → s.get r c = if r < i then f r c else zero
  have hP : P missing.length t := by
    simp only [t, survivorEquations, hq]
    refine foldl_range_inv P _ missing.length _ ⟨rfl, rfl, fun r c _ => ?_⟩ ?_
    · rw [CodingMatrix.get_new, if_neg (Nat.not_lt_zero r)]
    rintro i hi s ⟨hsr, hsc, hs⟩
    -- the three groups of stores of row `i` cover the columns that hold something
    obtain ⟨har, hac, ha⟩ := s.foldl_set_spec missing.length (fun _ => i) (fun column => column)
      (fun column => coefficient i (missing.getD column 0)) f (fun _ _ => by omega)
      (fun c hc => by omega) (fun c hc => (if_pos hc).symm)
    obtain ⟨hbr, hbc, hb⟩ := CodingMatrix.foldl_set_spec ((List.range missing.length).foldl
      (fun s column => s.set i column (coefficient i (missing.getD column 0))) s) known.length
      (fun _ => i) (fun column => missing.length + column)
      (fun column => coefficient i (known.getD column 0)) f (fun _ _ => by omega)
      (fun c hc => by omega) (fun c hc => by
        simp only [f]
        rw [if_neg (by omega), if_pos (by omega), Nat.add_sub_cancel_left])
    have hrows := hbr.trans (har.trans hsr)
    have hcols := hbc.trans (hac.trans hsc)
    refine ⟨hrows, hcols, fun r c hc => ?_⟩
    refine (CodingMatrix.get_set _ _ (lt_of_lt_of_eq hi hrows.symm)
      (lt_of_lt_of_eq (by omega) hcols.symm) (lt_of_lt_of_eq hc hcols.symm)).trans ?_
    rw [hb r c (by omega), ha r c (by omega), hs r c hc]
    by_cases hri : i = r
    · subst hri
      rw [if_pos (Nat.lt_succ_self i), if_neg (lt_irrefl i)]
      by_cases h1 : c < missing.length
      · rw [if_neg (by omega), if_neg (by omega), if_pos ⟨c, h1, rfl, rfl⟩]
      · by_cases h2 : c < missing.length + known.length
        · rw [if_neg (by omega), if_pos ⟨c - missing.length, by omega, rfl, by omega⟩]
        · by_cases h3 : c = missing.length + known.length + i
          · rw [if_pos ⟨rfl, h3.symm⟩]
            simp only [f]
            rw [if_neg h1, if_neg h2, if_pos h3]
          · rw [if_neg (by omega), if_neg (by omega), if_neg (by omega)]
            simp only [f]
            rw [if_neg h1, if_neg h2, if_neg h3]
    · rw [if_neg (fun h => hri h.1), if_neg (by rintro ⟨_, -, h, -⟩; exact hri h),
        if_neg (by rintro ⟨_, -, h, -⟩; exact hri h)]
      apply if_congr _ rfl rfl
      omega
  refine ⟨hP.1, hP.2.1, fun r c hr hc => (hP.2.2 r c hc).trans (if_pos hr)⟩

omit [LawfulField E] [DecidableEq E] in
/-- The rows of the scattered solution. -/
theorem scatterSolution_spec (codec : ReedSolomon E) {missing known : List Nat}
    {equations : CodingMatrix E} (hmissing : Ascending missing)
    (hlt : ∀ i ∈ missing, i < codec.dataShardCount) (hknown : ∀ i ∈ known, i < codec.dataShardCount)
    (hp : known.length ≤ codec.dataShardCount) (hr : equations.rowCount = missing.length)
    (hc : equations.colCount = missing.length + codec.dataShardCount) :
    let t := codec.scatterSolution missing known equations
    t.rowCount = codec.dataShardCount ∧ t.colCount = codec.dataShardCount ∧
      (∀ i c, i < missing.length → c < codec.dataShardCount →
        t.get (missing.getD i 0) c = equations.get i (missing.length + c)) ∧
      ∀ r c, c < codec.dataShardCount → r ∉ missing →
        t.get r c = if c < known.length ∧ known.getD c 0 = r then one else zero := by
  intro t
  let k := codec.dataShardCount
  obtain ⟨hbr, hbc, hb⟩ := (CodingMatrix.new k k : CodingMatrix E).foldl_set_spec known.length
    (fun column => known.getD column 0) (fun column => column) (fun _ => one) (fun _ _ => one)
    (fun i hi => hknown _ (getD_mem hi)) (fun i hi => lt_of_lt_of_le hi hp) (fun _ _ => rfl)
  let P : Nat → CodingMatrix E → Prop := fun n s => s.rowCount = k ∧ s.colCount = k ∧
    (∀ i c, i < n → c < k → s.get (missing.getD i 0) c = equations.get i (missing.length + c)) ∧
    ∀ r c, c < k → r ∉ missing →
      s.get r c = if c < known.length ∧ known.getD c 0 = r then one else zero
  refine foldl_range_inv P _ missing.length _ ⟨hbr, hbc, fun i _ hi => absurd hi (Nat.not_lt_zero i),
    fun r c hck hrm => ?_⟩ ?_
  · refine (hb r c hck).trans ?_
    rw [CodingMatrix.get_new]
    apply if_congr _ rfl rfl
    constructor
    · rintro ⟨i, hi, hr, rfl⟩
      exact ⟨hi, hr⟩
    · rintro ⟨hi, hr⟩
      exact ⟨c, hi, hr, rfl⟩
  rintro n hn s ⟨hsr, hsc, hdone, hrest⟩
  have hlen : ((equations.getRow n).drop missing.length).length = k := by
    rw [List.length_drop, equations.length_getRow (by omega), hc]
    omega
  have hval (c : Nat) (hck : c < k) : ((equations.getRow n).drop missing.length).getD c zero =
      equations.get n (missing.length + c) := by
    rw [getD_drop]
    exact equations.getD_getRow (by rw [hc]; exact Nat.add_lt_add_left hck _) _ (by omega)
  obtain ⟨htr, htc, ht⟩ := s.foldl_set_spec k (fun _ => missing.getD n 0) (fun column => column)
    (fun column => ((equations.getRow n).drop missing.length).getD column zero)
    (fun _ c => equations.get n (missing.length + c))
    (fun _ _ => by rw [hsr]; exact hlt _ (getD_mem hn)) (fun c hck => by rw [hsc]; exact hck)
    (fun c hck => hval c hck)
  simp only [hlen]
  refine ⟨htr.trans hsr, htc.trans hsc, fun i c hi hck => ?_, fun r c hck hrm => ?_⟩
  · rw [ht _ c (by rw [hsc]; exact hck)]
    by_cases hin : i = n
    · rw [hin, if_pos ⟨c, hck, rfl, rfl⟩]
    · rw [if_neg, hdone i c (by omega) hck]
      rintro ⟨_, -, heq, -⟩
      exact hin (hmissing.getD_inj hn (by omega) heq).symm
  · rw [ht r c (by rw [hsc]; exact hck), if_neg, hrest r c hck hrm]
    rintro ⟨_, -, heq, -⟩
    exact hrm (heq ▸ getD_mem hn)

omit [DecidableEq E] in
/-- The survivor equations evaluated at a vector. -/
private theorem equations_kill (hinv : codec.ClassicInv) (h : codec.Survivors valid)
    (u : Nat → E) {r : Nat} {missing known parity : List Nat}
    (hm : missing = complement codec.dataShardCount (codec.knownData valid))
    (hkn : known = codec.knownData valid) (hpar : parity = valid.drop known.length)
    (hr : r < missing.length) :
    ∑ c ∈ Finset.range (missing.length + codec.dataShardCount),
        (codec.survivorEquations missing known parity).get r c * u c =
      (∑ c ∈ Finset.range missing.length,
          codec.format.matrix.get (valid.getD (known.length + r) 0) (missing.getD c 0) * u c +
        ∑ c ∈ Finset.range known.length,
          codec.format.matrix.get (valid.getD (known.length + r) 0) (known.getD c 0) *
            u (missing.length + c)) + u (missing.length + known.length + r) := by
  have hlen : missing.length + known.length = codec.dataShardCount := by
    rw [hm, hkn]
    exact h.ascending_known.length_complement knownData_lt
  have hq : parity.length = missing.length := by
    rw [hpar, List.length_drop, h.length_eq]
    omega
  obtain ⟨-, -, hget⟩ := survivorEquations_spec codec hq hlen
  simp only at hget
  have hcoef (c : Nat) (hc : c < codec.dataShardCount) :
      (codec.format.matrix.getRow (parity.getD r 0)).getD c zero =
        codec.format.matrix.get (valid.getD (known.length + r) 0) c := by
    rw [hpar, getD_drop]
    exact h.getD_getRow hinv (by omega) hc
  have hmissingLt (c : Nat) (hc : c < missing.length) : missing.getD c 0 < codec.dataShardCount := by
    have hmem := getD_mem hc
    rw [hm] at hmem ⊢
    exact (mem_complement.mp hmem).1
  have hknownLt (c : Nat) (hc : c < known.length) : known.getD c 0 < codec.dataShardCount := by
    have hmem := getD_mem hc
    rw [hkn] at hmem ⊢
    exact knownData_lt _ hmem
  rw [Finset.sum_range_add, ← hlen, Nat.add_comm missing.length known.length,
    Finset.sum_range_add, ← add_assoc]
  congr 1
  · congr 1
    · refine Finset.sum_congr rfl (fun c hc => ?_)
      rw [Finset.mem_range] at hc
      rw [hget r c hr (by omega), if_pos hc, hcoef _ (hmissingLt c hc)]
    · refine Finset.sum_congr rfl (fun c hc => ?_)
      rw [Finset.mem_range] at hc
      rw [hget r _ hr (by omega), if_neg (by omega), if_pos (by omega), Nat.add_sub_cancel_left,
        hcoef _ (hknownLt c hc)]
  · rw [Finset.sum_eq_single r]
    · rw [hget r _ hr (by omega), if_neg (by omega), if_neg (by omega), if_pos (by omega), one_eq,
        one_mul, Nat.add_left_comm, Nat.add_assoc]
    · intro c hc hne
      rw [Finset.mem_range] at hc
      rw [hget r _ hr (by omega), if_neg (by omega), if_neg (by omega), if_neg (by omega), zero_eq,
        zero_mul]
    · intro hnot
      exact absurd (Finset.mem_range.mpr hr) hnot

theorem partialErasureMatrix_spec (hinv : codec.ClassicInv) (h : codec.Survivors valid) :
    (codec.partialErasureMatrix valid (codec.knownData valid).length).Sat (codec.Decodes valid)
      (fun e => e = .invalidCustomMatrix ∧ ¬IsUnit (codec.survivorMatrix valid)) False := by
  have htake : valid.take (codec.knownData valid).length = codec.knownData valid := by
    rw [← h.partitionPoint_eq]
    exact h.take_eq
  simp only [partialErasureMatrix, htake, missingData_eq h.ascending_known]
  have hasc := ascending_complement codec.dataShardCount (codec.knownData valid)
  have hlen := h.ascending_known.length_complement knownData_lt
  have hkill := @equations_kill E _ _ codec valid hinv h
  have hsplit := h.survivorValue_split
  have hmem {i : Nat} : i ∈ complement codec.dataShardCount (codec.knownData valid) ↔
    i < codec.dataShardCount ∧ i ∉ codec.knownData valid := mem_complement
  have hself {j : Nat} (v : Nat → E) := h.survivorValue_known (j := j) hinv v
  set known := codec.knownData valid with hknown
  set missing := complement codec.dataShardCount known with hmissing
  set parity := valid.drop known.length with hparity
  have hq : parity.length = missing.length := by
    rw [hparity, List.length_drop, h.length_eq]
    omega
  obtain ⟨her, hec, -⟩ := survivorEquations_spec codec hq hlen
  have helim := (codec.survivorEquations missing known parity).gaussianElim_spec (by omega)
  cases hres : (codec.survivorEquations missing known parity).gaussianElim with
  | panic =>
    rw [hres] at helim
    exact helim
  | err e =>
    rw [hres] at helim
    obtain ⟨-, u, hu, ⟨c, hc, hne⟩, hz⟩ := helim
    rw [her] at hc hz
    -- data that only the unknown columns see
    have hv (i : Nat) (hi : i < missing.length) : u (missing.idxOf (missing.getD i 0)) = u i := by
      rw [hasc.idxOf_getD hi]
    have hvKnown (i : Nat) (hi : i < known.length) : u (missing.idxOf (known.getD i 0)) = 0 := by
      apply hz
      rw [List.idxOf_eq_length (fun hin => (hmem.mp hin).2 (getD_mem hi))]
    refine ⟨rfl, not_isUnit_of_survivorValue (fun x => u (missing.idxOf x))
      (hmem.mp (getD_mem hc)).1 (by rw [hv c hc]; exact hne) (fun j hj => ?_)⟩
    by_cases hjk : j < known.length
    · rw [hself _ hjk, hvKnown j hjk]
    · obtain ⟨r, rfl⟩ := Nat.exists_eq_add_of_le (Nat.le_of_not_lt hjk)
      have hr : r < missing.length := by omega
      have hrow := hu r (by rw [her]; exact hr)
      rw [hec, hkill u hmissing rfl hparity hr, hz _ (by omega), add_zero,
        Finset.sum_eq_zero (s := Finset.range known.length) (fun i _ => by
          rw [hz _ (Nat.le_add_right _ _), mul_zero]), add_zero] at hrow
      rw [hsplit, Finset.sum_eq_zero (fun i hi => by
        rw [hvKnown i (Finset.mem_range.mp hi), mul_zero]), zero_add, ← hrow]
      refine Finset.sum_congr rfl (fun i hi => ?_)
      rw [hv i (Finset.mem_range.mp hi)]
  | ok t =>
    rw [hres] at helim
    obtain ⟨hsame, hid⟩ := helim
    rw [her] at hid
    have htr : t.rowCount = missing.length := hsame.rowCount_eq.trans her
    have htc : t.colCount = missing.length + codec.dataShardCount := hsame.colCount_eq.trans hec
    obtain ⟨hdr, hdc, hdm, hdk⟩ := scatterSolution_spec codec hasc (fun i hi => (hmem.mp hi).1)
      knownData_lt h.known_length_le htr htc
    refine h.decodes_of_rows hinv hdr hdc (fun j hj c hc => ?_) (fun i hik hnot v => ?_)
    · rw [hdk _ c hc (fun hin => (hmem.mp hin).2 (getD_mem hj))]
      apply if_congr _ rfl rfl
      constructor
      · rintro ⟨hcp, heq⟩
        exact h.ascending_known.getD_inj hcp hj heq
      · rintro rfl
        exact ⟨hj, rfl⟩
    · obtain ⟨i, hi, rfl⟩ := exists_getD_of_mem (hmem.mpr ⟨hik, hnot⟩)
      let u : Nat → E := fun c => if c < missing.length then v (missing.getD c 0)
        else codec.survivorValue valid v (c - missing.length)
      have huLeft (c : Nat) (hc : c < missing.length) : u c = v (missing.getD c 0) := if_pos hc
      have huRight (c : Nat) : u (missing.length + c) = codec.survivorValue valid v c := by
        simp only [u]
        rw [if_neg (by omega), Nat.add_sub_cancel_left]
      have hu : (codec.survivorEquations missing known parity).Kills u := by
        intro r hr
        rw [her] at hr
        rw [hec, hkill u hmissing rfl hparity hr, Nat.add_assoc, huRight, hsplit,
          add_comm (∑ c ∈ Finset.range missing.length, _)]
        rw [Finset.sum_congr rfl (fun c hc => by
            rw [huRight, hself v (Finset.mem_range.mp hc)] :
              ∀ c ∈ Finset.range known.length, _ = _),
          Finset.sum_congr rfl (fun c hc => by
            rw [huLeft c (Finset.mem_range.mp hc)] : ∀ c ∈ Finset.range missing.length, _ = _),
          CharTwo.add_self_eq_zero]
      have hrow := (hsame.kills_iff u).mpr hu i (by rw [htr]; exact hi)
      rw [htc, Finset.sum_range_add, Finset.sum_eq_single i, hid i i hi hi, if_pos rfl, one_mul,
        huLeft i hi] at hrow
      · rw [CharTwo.add_eq_zero.mp hrow]
        refine Finset.sum_congr rfl (fun j hj => ?_)
        rw [hdm i j hi (Finset.mem_range.mp hj), huRight]
      · intro c hc hne
        rw [hid i c hi (Finset.mem_range.mp hc), if_neg (Ne.symm hne), zero_mul]
      · intro hnot
        exact absurd (Finset.mem_range.mpr hi) hnot

theorem denseMatrix_spec (codec : ReedSolomon E) (valid : List Nat) :
    (codec.denseMatrix valid).Sat (codec.Decodes valid)
      (fun e => e = .invalidCustomMatrix ∧ ¬IsUnit (codec.survivorMatrix valid)) False := by
  obtain ⟨hr, hc, hget⟩ := CodingMatrix.fill_spec
    (CodingMatrix.new codec.dataShardCount codec.dataShardCount)
    (fun row column => codec.format.matrix.get (valid.getD row 0) column) le_rfl le_rfl
  have hsel := CodingMatrix.invert_spec hr hc
  have hmat : ((CodingMatrix.new codec.dataShardCount codec.dataShardCount).fill
      codec.dataShardCount codec.dataShardCount fun row column =>
        codec.format.matrix.get (valid.getD row 0) column).toMatrix codec.dataShardCount
      codec.dataShardCount = codec.survivorMatrix valid := by
    ext i j
    exact (hget i j i.isLt j.isLt).trans (if_pos ⟨i.isLt, j.isLt⟩)
  simp only [denseMatrix]
  simp only [CodingMatrix.rowCount_new, CodingMatrix.colCount_new, hmat] at hsel
  cases hres : ((CodingMatrix.new codec.dataShardCount codec.dataShardCount).fill
      codec.dataShardCount codec.dataShardCount fun row column =>
        codec.format.matrix.get (valid.getD row 0) column).invert with
  | ok t =>
    rw [hres] at hsel
    exact ⟨hsel.1, hsel.2.1, mul_eq_one_comm.mp hsel.2.2⟩
  | err e =>
    rw [hres] at hsel
    exact ⟨rfl, hsel.2⟩
  | panic =>
    rw [hres] at hsel
    exact hsel

/-- The decode matrix is the inverse of the survivor matrix, and the only error
says that there is none. -/
theorem buildDataDecodeMatrix_spec (hinv : codec.ClassicInv) (h : codec.Survivors valid) :
    (codec.buildDataDecodeMatrix valid).Sat (codec.Decodes valid)
      (fun e => e = .invalidCustomMatrix ∧ ¬IsUnit (codec.survivorMatrix valid)) False := by
  simp only [buildDataDecodeMatrix, h.partitionPoint_eq]
  split_ifs with hone hpartial
  · exact singleErasureMatrix_spec hinv h hone
  · exact partialErasureMatrix_spec hinv h
  · exact denseMatrix_spec codec valid

/-- The decode matrix is exactly the inverse of the selected rows, and the three
ways to compute it agree. -/
theorem decode_matrix_exact (hclassic : codec.IsClassic) (h : codec.Survivors valid) :
    (IsUnit (codec.survivorMatrix valid) →
      ∃ decode, codec.buildDataDecodeMatrix valid = .ok decode ∧
        decode.rowCount = codec.dataShardCount ∧ decode.colCount = codec.dataShardCount ∧
        decode.toMatrix codec.dataShardCount codec.dataShardCount * codec.survivorMatrix valid = 1 ∧
        codec.survivorMatrix valid *
          decode.toMatrix codec.dataShardCount codec.dataShardCount = 1) ∧
    (¬IsUnit (codec.survivorMatrix valid) →
      codec.buildDataDecodeMatrix valid = .err .invalidCustomMatrix) ∧
    codec.partialErasureMatrix valid (partitionPoint (· < codec.dataShardCount) valid) =
      codec.denseMatrix valid ∧
    (partitionPoint (· < codec.dataShardCount) valid + 1 = codec.dataShardCount →
      codec.singleErasureMatrix valid (partitionPoint (· < codec.dataShardCount) valid) =
        codec.denseMatrix valid) := by
  have hinv := hclassic.inv
  have hspec := buildDataDecodeMatrix_spec hinv h
  have hdense : codec.Inverts valid (codec.denseMatrix valid) := denseMatrix_spec codec valid
  refine ⟨fun hunit => ?_, fun hunit => ?_, ?_, fun hone => ?_⟩
  · cases hres : codec.buildDataDecodeMatrix valid with
    | ok decode =>
      rw [hres] at hspec
      exact ⟨decode, rfl, hspec.rowCount_eq, hspec.colCount_eq, hspec.mul_eq,
        mul_eq_one_comm.mp hspec.mul_eq⟩
    | err e =>
      rw [hres] at hspec
      exact absurd hunit hspec.2
    | panic =>
      rw [hres] at hspec
      exact hspec.elim
  · cases hres : codec.buildDataDecodeMatrix valid with
    | ok decode =>
      rw [hres] at hspec
      exact absurd (Decodes.isUnit hspec) hunit
    | err e =>
      rw [hres] at hspec
      rw [hspec.1]
    | panic =>
      rw [hres] at hspec
      exact hspec.elim
  · rw [h.partitionPoint_eq]
    exact Inverts.unique (partialErasureMatrix_spec hinv h) hdense
  · rw [h.partitionPoint_eq] at hone ⊢
    exact Inverts.unique (singleErasureMatrix_spec hinv h hone) hdense

theorem decode_matrix_exact_sample :
    (IsUnit (sampleCodec.survivorMatrix [1, 2]) →
      ∃ decode, sampleCodec.buildDataDecodeMatrix [1, 2] = .ok decode ∧
        decode.rowCount = sampleCodec.dataShardCount ∧
        decode.colCount = sampleCodec.dataShardCount ∧
        decode.toMatrix sampleCodec.dataShardCount sampleCodec.dataShardCount *
          sampleCodec.survivorMatrix [1, 2] = 1 ∧
        sampleCodec.survivorMatrix [1, 2] *
          decode.toMatrix sampleCodec.dataShardCount sampleCodec.dataShardCount = 1) ∧
    (¬IsUnit (sampleCodec.survivorMatrix [1, 2]) →
      sampleCodec.buildDataDecodeMatrix [1, 2] = .err .invalidCustomMatrix) ∧
    sampleCodec.partialErasureMatrix [1, 2]
        (partitionPoint (· < sampleCodec.dataShardCount) [1, 2]) =
      sampleCodec.denseMatrix [1, 2] ∧
    (partitionPoint (· < sampleCodec.dataShardCount) [1, 2] + 1 = sampleCodec.dataShardCount →
      sampleCodec.singleErasureMatrix [1, 2]
          (partitionPoint (· < sampleCodec.dataShardCount) [1, 2]) =
        sampleCodec.denseMatrix [1, 2]) :=
  @decode_matrix_exact Galois8 _ _ sampleCodec _ [1, 2] sampleCodec_isClassic
    ⟨by decide, rfl, by decide⟩

/-- The two middle shards of `sampleCodec` determine the others. -/
theorem sampleCodec_isUnit : IsUnit (sampleCodec.survivorMatrix [1, 2]) := by
  have hbuild : (sampleCodec.buildDataDecodeMatrix [1, 2] >>= fun _ => .ok ()) = .ok () := by
    decide +kernel
  obtain ⟨decode, hok, -⟩ := Outcome.bind_eq_ok.mp hbuild
  have hsurvivors : sampleCodec.Survivors [1, 2] := ⟨by decide, rfl, by decide⟩
  have hspec := buildDataDecodeMatrix_spec sampleCodec_isClassic.inv hsurvivors
  rw [hok] at hspec
  exact hspec.isUnit

end Spec

end ReedSolomon

end ErasureCodec
