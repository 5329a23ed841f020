import ErasureCodec.Codec.Reconstruct

namespace ErasureCodec

open CodecField ReconstructShard

section Erasure

variable {E : Type} [CodecField E]

/-- The shards with those in `erased` missing. -/
def erase (erased : Finset Nat) (shards : List (List E)) : List (Option (List E)) :=
  shards.mapIdx fun i shard => if i ∈ erased then none else some shard

omit [CodecField E] in
theorem getElem?_erase {erased : Finset Nat} {shards : List (List E)} {i : Nat}
    (hi : i < shards.length) : (erase erased shards)[i]? =
      some (if i ∈ erased then none else some (shards.getD i [])) := by
  rw [erase, List.getElem?_mapIdx, List.getElem?_eq_getElem hi, List.getD_eq_getElem _ _ hi]
  rfl

omit [CodecField E] in
theorem length_erase (erased : Finset Nat) (shards : List (List E)) :
    (erase erased shards).length = shards.length := List.length_mapIdx

theorem getD_lengthsOf_erase {erased : Finset Nat} {shards : List (List E)} {i : Nat}
    (hi : i < shards.length) : (lengthsOf (erase erased shards)).getD i none =
      if i ∈ erased then none else some (shards.getD i []).length := by
  rw [getD_lengthsOf (getElem?_erase hi)]
  split_ifs <;> rfl

theorem mem_missing_erase {erased : Finset Nat} {shards : List (List E)} {i : Nat} :
    i ∈ missingIndices (lengthsOf (erase erased shards)) ↔ i < shards.length ∧ i ∈ erased := by
  rw [mem_missingIndices, length_lengthsOf, length_erase]
  refine and_congr_right (fun hi => ?_)
  rw [getD_lengthsOf_erase hi]
  split_ifs with h
  · simp [h]
  · simp [h]

theorem mem_present_erase {erased : Finset Nat} {shards : List (List E)} {i : Nat} :
    i ∈ presentIndices (lengthsOf (erase erased shards)) ↔ i < shards.length ∧ i ∉ erased := by
  rw [mem_presentIndices, length_lengthsOf, length_erase]
  refine and_congr_right (fun hi => ?_)
  rw [getD_lengthsOf_erase hi]
  split_ifs with h
  · simp [h]
  · simp [h]

theorem contentOf_erase {erased : Finset Nat} {shards : List (List E)} {i : Nat}
    (hi : i ∈ presentIndices (lengthsOf (erase erased shards))) :
    contentOf (erase erased shards) i = shards.getD i [] := by
  obtain ⟨hlt, hnot⟩ := mem_present_erase.mp hi
  rw [contentOf, getElem?_erase hlt, if_neg hnot]
  rfl

theorem uniform_erase {erased : Finset Nat} {shards : List (List E)} {n len : Nat} (hlen : 0 < len)
    (h : Grid n len shards) : Uniform len (lengthsOf (erase erased shards)) := by
  refine ⟨hlen, fun l hl => ?_⟩
  obtain ⟨i, hi, hget⟩ := List.mem_iff_getElem.mp hl
  rw [length_lengthsOf, length_erase] at hi
  rw [← List.getD_eq_getElem _ none, getD_lengthsOf_erase hi] at hget
  split_ifs at hget
  rw [← Option.some.inj hget]
  exact h.row_length i (by rw [← h.length_eq]; exact hi)

/-- At most as many shards are missing as were erased. -/
theorem length_present_erase (erased : Finset Nat) (shards : List (List E)) :
    shards.length ≤ (presentIndices (lengthsOf (erase erased shards))).length + erased.card := by
  have hpresent : presentIndices (lengthsOf (erase erased shards)) =
      complement shards.length (missingIndices (lengthsOf (erase erased shards))) := by
    refine (ascending_presentIndices _).eq_of_mem_iff (ascending_complement _ _) (fun i => ?_)
    rw [mem_present_erase, mem_complement, mem_missing_erase]
    tauto
  have hsize := (ascending_missingIndices (lengthsOf (erase erased shards))).length_complement
    (fun i hi => (mem_missing_erase.mp hi).1)
  have hcard : (missingIndices (lengthsOf (erase erased shards))).length ≤ erased.card := by
    rw [← List.toFinset_card_of_nodup (ascending_missingIndices _).nodup]
    refine Finset.card_le_card (fun i hi => ?_)
    exact (mem_missing_erase.mp (List.mem_toFinset.mp hi)).2
  rw [hpresent]
  omega

end Erasure

namespace ReedSolomon

section Survivors

variable {E : Type} [CodecField E] [LawfulField E]

/-- An MDS matrix has solvable survivors only, and nothing else has. -/
theorem isMDS_iff_survivors (codec : ReedSolomon E) :
    IsMDS (codec.format.matrix.toMatrix codec.totalShardCount codec.dataShardCount) ↔
      ∀ valid, codec.Survivors valid → IsUnit (codec.survivorMatrix valid) := by
  constructor
  · intro hmds valid h
    have hj (j : Fin codec.dataShardCount) : (j : Nat) < valid.length := by
      rw [h.length_eq]
      exact j.isLt
    let s : Fin codec.dataShardCount ↪ Fin codec.totalShardCount :=
      ⟨fun j => ⟨valid.getD j 0, h.lt_total _ (getD_mem (hj j))⟩, fun a b hab =>
        Fin.ext (h.ascending.getD_inj (hj a) (hj b) (Fin.mk.inj hab))⟩
    exact hmds s
  · intro hall
    rw [isMDS_iff_kernel]
    intro s v hv
    -- the chosen rows in ascending order
    let valid := (List.range codec.totalShardCount).filter fun i =>
      decide (∃ j, ((s j : Fin codec.totalShardCount) : Nat) = i)
    have hmem (i : Nat) : i ∈ valid ↔ ∃ j, ((s j : Fin codec.totalShardCount) : Nat) = i := by
      rw [List.mem_filter, List.mem_range, decide_eq_true_eq, and_iff_right_iff_imp]
      rintro ⟨j, rfl⟩
      exact (s j).isLt
    have hasc : Ascending valid := (ascending_range _).filter _
    have hlen : valid.length = codec.dataShardCount := by
      rw [← List.toFinset_card_of_nodup hasc.nodup]
      have himage : valid.toFinset =
          Finset.univ.image fun j => ((s j : Fin codec.totalShardCount) : Nat) := by
        ext i
        rw [List.mem_toFinset, hmem, Finset.mem_image]
        simp
      rw [himage, Finset.card_image_of_injective, Finset.card_univ, Fintype.card_fin]
      exact fun a b hab => s.injective (Fin.ext hab)
    have hsurv : codec.Survivors valid :=
      ⟨hasc, hlen, fun i hi => List.mem_range.mp (List.mem_of_mem_filter hi)⟩
    refine (isUnit_iff_kernel _).mp (hall valid hsurv) v ?_
    funext i
    obtain ⟨j, hj⟩ := (hmem _).mp (getD_mem (l := valid) (i := i) (by rw [hlen]; exact i.isLt))
    have hrow := hv j
    have heq : codec.survivorMatrix valid i =
        codec.format.matrix.toMatrix codec.totalShardCount codec.dataShardCount (s j) := by
      funext c
      rw [survivorMatrix, Matrix.of_apply, ← hj]
      rfl
    rw [Matrix.mulVec, heq]
    exact hrow

end Survivors

section RoundTrip

variable {E : Type} [CodecField E] [LawfulField E] [DecidableEq E] [CachePlatform E]
  [LawfulPlatform E] {codec : ReedSolomon E}

/-- Encoding, losing any shards up to the parity count and reconstructing gives
all shards back, through any cache. -/
def RoundTrips (codec : ReedSolomon E) : Prop :=
  ∀ (cache : InversionCache E) (len : Nat) (data parity : List (List E)) (erased : Finset Nat),
    codec.CacheReachable cache → 0 < len → Grid codec.dataShardCount len data →
    Grid codec.parityShardCount len parity → erased.card ≤ codec.parityShardCount →
    (∀ i ∈ erased, i < codec.totalShardCount) →
    ∃ encoded, codec.encode (data ++ parity) = (.ok (), encoded) ∧
      encoded.take codec.dataShardCount = data ∧
      (codec.reconstruct cache (erase erased encoded)).1 = (.ok (), encoded.map some)

/-- With solvable survivors the erased shards come back. -/
theorem reconstruct_erase (hinv : codec.ClassicInv) {cache : InversionCache E}
    (hc : codec.CacheInv cache) {len : Nat} (hlen : 0 < len) {encoded : List (List E)}
    (hgrid : Grid codec.totalShardCount len encoded)
    (hword : codec.IsCodeword len (encoded.getD · [])) {erased : Finset Nat}
    (hcard : erased.card ≤ codec.parityShardCount)
    (hunit : ∀ valid, codec.Survivors valid → IsUnit (codec.survivorMatrix valid)) :
    (codec.reconstruct cache (erase erased encoded)).1 = (.ok (), encoded.map some) := by
  have htotal := codec.totalShardCount_eq
  have hcount := length_present_erase erased encoded
  rw [hgrid.length_eq] at hcount
  have hrec : codec.Recoverable (lengthsOf (erase erased encoded)) len := by
    refine ⟨?_, uniform_erase hlen hgrid, by omega⟩
    rw [length_lengthsOf, length_erase, hgrid.length_eq]
  have hsurv : codec.Survivors (codec.selected (erase erased encoded)) := by
    refine ⟨(ascending_presentIndices _).take _, ?_, fun i hi => ?_⟩
    · rw [selected, List.length_take]
      omega
    · rw [← hgrid.length_eq]
      exact (mem_present_erase.mp (List.mem_of_mem_take hi)).1
  have hplan : codec.Plannable .all len (erase erased encoded) := ⟨hrec, rfl, fun _ => hunit _ hsurv⟩
  have hcontent : (codec.selected (erase erased encoded)).map (contentOf (erase erased encoded)) =
      (codec.selected (erase erased encoded)).map (encoded.getD · []) :=
    List.map_congr_left (fun i hi => contentOf_erase (List.mem_of_mem_take hi))
  have hbytes (t : Nat) (ht : t < codec.totalShardCount) :
      codec.recoveredShard (erase erased encoded) len t = encoded.getD t [] := by
    rw [recoveredShard, hcontent]
    exact hword.restoredShard_eq hsurv (hunit _ hsurv) ht
  rw [hplan.reconstruct_option hinv hc]
  congr 1
  refine List.ext_getElem? (fun i => ?_)
  rw [List.getElem?_mapIdx, List.getElem?_map]
  rcases Nat.lt_or_ge i encoded.length with hlt | hge
  · rw [getElem?_erase hlt, List.getElem?_eq_getElem hlt, List.getD_eq_getElem _ _ hlt]
    by_cases hi : i ∈ erased
    · rw [if_pos hi, Option.map_some, Option.getD_none, hbytes i (by rw [← hgrid.length_eq]; exact hlt),
        List.getD_eq_getElem _ _ hlt]
      rfl
    · rw [if_neg hi]
      rfl
  · rw [List.getElem?_eq_none (by rw [length_erase]; exact hge), List.getElem?_eq_none hge]
    rfl

/-- A codec round-trips exactly when its matrix is MDS. -/
theorem roundTrips_iff (hinv : codec.ClassicInv) : codec.RoundTrips ↔
    IsMDS (codec.format.matrix.toMatrix codec.totalShardCount codec.dataShardCount) := by
  rw [isMDS_iff_survivors]
  constructor
  · intro h valid hv
    have htotal := codec.totalShardCount_eq
    have hsize := hv.ascending.length_complement hv.lt_total
    rw [hv.length_eq] at hsize
    have hzero (n : Nat) : Grid n 1 (List.replicate n [(0 : E)]) :=
      grid_of_forall (by simp) (fun r hr => by rw [(List.mem_replicate.mp hr).2]; rfl)
    -- keep exactly the chosen shards of an all-zero codeword
    obtain ⟨encoded, henc, -, hrun⟩ := h (InversionCache.new 0 0) 1
      (List.replicate codec.dataShardCount [0]) (List.replicate codec.parityShardCount [0])
      (complement codec.totalShardCount valid).toFinset ⟨0, 0, [], by simp, rfl⟩ Nat.one_pos
      (hzero _) (hzero _)
      (by rw [List.toFinset_card_of_nodup (ascending_complement _ _).nodup]; omega)
      (fun i hi => (mem_complement.mp (List.mem_toFinset.mp hi)).1)
    have hlen : encoded.length = codec.totalShardCount := by
      rw [encode_eq hinv Nat.one_pos (hzero _) (hzero _)] at henc
      rw [← (Prod.mk.inj henc).2, List.length_append, List.length_replicate,
        (grid_parityProduct codec _ 1).length_eq]
      rfl
    have hpresent : presentIndices (lengthsOf (erase
        (complement codec.totalShardCount valid).toFinset encoded)) = valid := by
      refine (ascending_presentIndices _).eq_of_mem_iff hv.ascending (fun i => ?_)
      rw [mem_present_erase, List.mem_toFinset, mem_complement, hlen]
      constructor
      · rintro ⟨h1, h2⟩
        by_contra hnot
        exact h2 ⟨h1, hnot⟩
      · intro hi
        exact ⟨hv.lt_total i hi, fun h => h.2 hi⟩
    rcases recover_spec hinv (InversionCache.inv_new 0 0) (erase
      (complement codec.totalShardCount valid).toFinset encoded) .all with
      ⟨e, -, hfail, -⟩ | ⟨n, p, -, hplan, -⟩
    · rw [show codec.recover (InversionCache.new 0 0) _ .all =
        codec.reconstruct (InversionCache.new 0 0) _ from rfl, hrun] at hfail
      cases hfail
    · have hunit := hplan.isUnit (fun hnil => ?_)
      · rw [selected, hpresent, List.take_of_length_le hv.length_eq.le] at hunit
        exact hunit
      · have hpos := hinv.parity_pos
        obtain ⟨i, hi⟩ := List.exists_mem_of_ne_nil (complement codec.totalShardCount valid)
          (fun h0 => by rw [h0, List.length_nil] at hsize; omega)
        have hmem : i ∈ codec.targets .all (lengthsOf (erase
            (complement codec.totalShardCount valid).toFinset encoded)) :=
          List.mem_filter.mpr ⟨mem_missing_erase.mpr ⟨by
            rw [hlen]
            exact (mem_complement.mp hi).1, List.mem_toFinset.mpr hi⟩, rfl⟩
        rw [hnil] at hmem
        exact absurd hmem List.not_mem_nil
  · intro hunit cache len data parity erased hc hlen hd hp hcard _
    refine ⟨data ++ codec.parityProduct data len, encode_eq hinv hlen hd hp,
      List.take_left' hd.length_eq, ?_⟩
    exact reconstruct_erase hinv (hc.inv hinv) hlen (grid_encoded hd) (isCodeword_encoded hinv hd)
      hcard hunit

omit [LawfulField E] [CachePlatform E] [LawfulPlatform E] in
/-- A Classic construction within the field order is the matrix builder. -/
theorem withOptions_classic {data parity : Nat} {options : CodecOptions} (hd : 0 < data)
    (hp : 0 < parity) (ht : data + parity ≤ order E)
    (hfamily : resolveCodecFamily options.codecFamily options.leopardMode (isByteField E)
      (data + parity) parity = .classic) :
    (withOptions data parity options : Outcome Error (ReedSolomon E)) =
      (buildMatrixWithOptions data (data + parity) { options with codecFamily := .classic } >>=
        fun matrix => .ok
          { format := ⟨data, parity, .classic, matrix⟩
            options := options.toExecution data parity }) := by
  have hlimit := order_lt (E := E)
  simp only [withOptions, hfamily, maxTotalShardsForFamily, validateLeopardFamily,
    buildFamilyMatrix, Outcome.ok_bind, Outcome.pure_eq]
  rw [if_neg (by omega), if_neg (by omega), if_neg (by omega), if_neg (by omega)]

omit [CachePlatform E] [LawfulPlatform E] in
/-- The builders deliver an MDS matrix, except for a Jerasure-like one with a zero
evaluation point between its two unit rows. -/
theorem buildMatrixWithOptions_isMDS_iff {data parity : Nat} {options : CodecOptions}
    (hd : 0 < data) (hp : 0 < parity) (ht : data + parity ≤ order E)
    (hfamily : options.codecFamily = .classic) (hmode : options.matrixMode ≠ .custom) :
    (∃ m : CodingMatrix E, buildMatrixWithOptions data (data + parity) options = .ok m ∧
      IsMDS (m.toMatrix (data + parity) data)) ↔
      options.matrixMode ≠ .jerasureLike ∨ (options.fastOneParity = true ∧ parity = 1) ∨
        data = 1 ∨ ∀ r, 0 < r → r + 1 < data + parity → (nth r : E) ≠ zero := by
  unfold buildMatrixWithOptions
  rw [if_neg (not_not.mpr hfamily)]
  by_cases hfast : options.fastOneParity = true ∧ parity = 1
  · obtain ⟨hf, rfl⟩ := hfast
    rw [if_pos ⟨hf, rfl, hmode⟩]
    exact ⟨fun _ => .inr (.inl ⟨hf, rfl⟩),
      fun _ => ⟨_, rfl, (buildFastOneParityMatrix_spec data).mds⟩⟩
  · rw [if_neg (fun h => hfast ⟨h.1, by omega⟩)]
    cases hm : options.matrixMode with
    | custom => exact absurd hm hmode
    | vandermonde =>
      obtain ⟨m, hbuild, hgen⟩ := buildMatrix_spec (E := E) (Nat.le_add_right data parity) ht
      exact ⟨fun _ => .inl (by decide), fun _ => ⟨m, hbuild, hgen.mds⟩⟩
    | cauchy =>
      obtain ⟨m, hbuild, hgen⟩ := buildCauchyMatrix_spec (E := E) (Nat.le_add_right data parity) ht
      exact ⟨fun _ => .inl (by decide), fun _ => ⟨m, hbuild, hgen.mds⟩⟩
    | jerasureLike =>
      have hiff := buildJerasureLikeMatrix_iff (E := E) hd (by omega : data < data + parity) ht
      have hsat := buildJerasureLikeMatrix_sat (E := E) hd (by omega : data < data + parity)
      constructor
      · rintro ⟨m, hbuild, hmds⟩
        rw [show buildJerasureLikeMatrix data (data + parity) = .ok m from hbuild] at hsat
        refine .inr (.inr (hiff.mp ⟨m, hbuild, ⟨hsat.1.rowCount_eq, hsat.1.colCount_eq, hsat.2.1,
          hmds⟩, hsat.2.2.1, hsat.2.2.2⟩))
      · rintro (h | h | h)
        · exact absurd rfl h
        · exact absurd h hfast
        · obtain ⟨m, hbuild, hgen, -⟩ := hiff.mpr h
          exact ⟨m, hbuild, hgen.mds⟩

/-- The Classic round trip, and exactly when construction and recovery deliver it. -/
theorem classic_round_trip_iff {data parity : Nat} {options : CodecOptions} (hd : 0 < data)
    (hp : 0 < parity) (ht : data + parity ≤ order E)
    (hfamily : resolveCodecFamily options.codecFamily options.leopardMode (isByteField E)
      (data + parity) parity = .classic) (hmode : options.matrixMode ≠ .custom) :
    (∃ codec : ReedSolomon E, withOptions data parity options = .ok codec ∧ codec.RoundTrips) ↔
      options.matrixMode ≠ .jerasureLike ∨ (options.fastOneParity = true ∧ parity = 1) ∨
        data = 1 ∨ ∀ r, 0 < r → r + 1 < data + parity → (nth r : E) ≠ zero := by
  have hbuilder : (∃ m : CodingMatrix E, buildMatrixWithOptions data (data + parity)
      { options with codecFamily := .classic } = .ok m ∧ IsMDS (m.toMatrix (data + parity) data)) ↔
      _ := buildMatrixWithOptions_isMDS_iff hd hp ht rfl hmode
  rw [← hbuilder]
  have hwith := withOptions_classic (E := E) hd hp ht hfamily
  constructor
  · rintro ⟨codec, hcodec, hround⟩
    have hcodec' := hcodec
    rw [hwith] at hcodec'
    obtain ⟨m, hbuild, hok⟩ := Outcome.bind_eq_ok.mp hcodec'
    obtain rfl := Outcome.ok.inj hok
    exact ⟨m, hbuild, (roundTrips_iff (classicInv_withOptions hcodec rfl)).mp hround⟩
  · rintro ⟨m, hbuild, hmds⟩
    rw [hbuild, Outcome.ok_bind] at hwith
    exact ⟨_, hwith, (roundTrips_iff (classicInv_withOptions hwith rfl)).mpr hmds⟩

/-- A Vandermonde codec of the byte field round-trips. -/
theorem classic_round_trip_galois8 :
    ∃ codec : ReedSolomon Galois8, withOptions 4 2 {} = .ok codec ∧ codec.RoundTrips :=
  (classic_round_trip_iff (by decide) (by decide) (by decide) (by decide) (by decide)).mpr
    (.inl (by decide))

/-- With another assignment of elements to indices the Jerasure-like construction fails. -/
theorem classic_round_trip_fails_swapped :
    2 + 1 ≤ order SwappedGalois8 ∧
      (withOptions 2 1 { matrixMode := .jerasureLike } : Outcome Error (ReedSolomon SwappedGalois8)) =
        .err .invalidCustomMatrix := by
  refine ⟨by decide, ?_⟩
  rw [withOptions_classic (by decide) (by decide) (by decide) (by decide)]
  have hbuild : (buildMatrixWithOptions 2 (2 + 1) { matrixMode := .jerasureLike } :
      Outcome Error (CodingMatrix SwappedGalois8)) = .err .invalidCustomMatrix := by
    decide +kernel
  rw [hbuild]
  rfl

end RoundTrip

end ReedSolomon

end ErasureCodec
