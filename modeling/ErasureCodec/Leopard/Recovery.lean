import ErasureCodec.Leopard.Decode

namespace ErasureCodec

namespace Leopard

variable {w : Nat}

section Recover

open CantorPoints

variable {K : Kernel w} {dataShards parityShards k n : Nat} {present : List Bool}

/-- The code word of a data column: the parity lanes, with the padding, and the
data lanes. -/
noncomputable def codeWord (K : Kernel w) (dataShards k : Nat) (d : Nat → K.lawful.lfsr.Elem)
    (j : Nat) : K.lawful.lfsr.Elem :=
  if j < 2 ^ k then parityColumn K dataShards k d j else messageWord K dataShards k d j

/-- The coefficients of a group of data lanes. -/
theorem inverseTo_codeWord_group (d : Nat → K.lawful.lfsr.Elem) {g t : Nat} (ht : t < 2 ^ k) :
    K.lawful.points.inverseTo k (codeWord K dataShards k d) ((g + 1) * 2 ^ k + t) =
      K.lawful.points.inverseTo k (messageWord K dataShards k d) ((g + 1) * 2 ^ k + t) := by
  refine K.lawful.points.inverseTo_congr k (g + 1) (fun i hi => ?_) ht
  unfold codeWord
  rw [if_neg]
  rw [Nat.add_mul]
  omega

/-- The parity lanes hold the sum of the groups. -/
theorem inverseTo_codeWord_parity (d : Nat → K.lawful.lfsr.Elem) {t : Nat} (ht : t < 2 ^ k) :
    K.lawful.points.inverseTo k (codeWord K dataShards k d) t =
      ∑ g ∈ Finset.range (groupCount dataShards k),
        K.lawful.points.inverseTo k (messageWord K dataShards k d) ((g + 1) * 2 ^ k + t) := by
  have hblock : K.lawful.points.inverseTo k (codeWord K dataShards k d) (0 * 2 ^ k + t) =
      K.lawful.points.inverseTo k (parityColumn K dataShards k d) (0 * 2 ^ k + t) :=
    K.lawful.points.inverseTo_congr k 0 (fun i hi => by
      unfold codeWord
      rw [if_pos]
      omega) ht
  rw [Nat.zero_mul, Nat.zero_add] at hblock
  rw [hblock]
  exact congrFun (K.lawful.points.inverseTo_forwardFrom k _) t

/-- A code word is a polynomial of low degree: its top coefficients vanish. -/
theorem codeWord_top (h : Decodable w dataShards parityShards k n) (d : Nat → K.lawful.lfsr.Elem)
    {i : Nat} (hi : 2 ^ n - 2 ^ k ≤ i) (hlt : i < 2 ^ n) :
    K.lawful.points.inverseTo n (codeWord K dataShards k d) i = 0 := by
  have hk := h.k_le
  have hlanes := h.lanes_le
  have hpos := Nat.two_pow_pos k
  have hle := Nat.pow_le_pow_right (n := 2) (by decide) hk
  have hsplit : 2 ^ (n - k) * 2 ^ k = 2 ^ n := by rw [← Nat.pow_add, Nat.sub_add_cancel hk]
  obtain ⟨t, rfl⟩ : ∃ t, i = 2 ^ n - 2 ^ k + t := ⟨i - (2 ^ n - 2 ^ k), by omega⟩
  have ht : t < 2 ^ k := by omega
  have htop := K.lawful.points.inverseTo_top n k 0 hk (codeWord K dataShards k d) ht
  simp only [Nat.zero_mul, Nat.zero_add] at htop
  obtain ⟨groups, hgroups⟩ : ∃ groups, 2 ^ (n - k) = groups + 1 :=
    ⟨2 ^ (n - k) - 1, by have := Nat.two_pow_pos (n - k); omega⟩
  rw [htop, hgroups, Finset.sum_range_succ']
  rw [hgroups, Nat.add_mul, Nat.one_mul] at hsplit
  simp only [Nat.zero_mul, Nat.zero_add]
  rw [Finset.sum_congr rfl (fun g _ => inverseTo_codeWord_group d ht), inverseTo_codeWord_parity d ht]
  -- the groups past the data are zero
  have hsum : ∑ g ∈ Finset.range groups,
      K.lawful.points.inverseTo k (messageWord K dataShards k d) ((g + 1) * 2 ^ k + t) =
      ∑ g ∈ Finset.range (groupCount dataShards k),
        K.lawful.points.inverseTo k (messageWord K dataShards k d) ((g + 1) * 2 ^ k + t) := by
    symm
    apply Finset.sum_subset
    · intro g hg
      have hlt := (groupCount_spec h.data_pos).mp (Finset.mem_range.mp hg)
      refine Finset.mem_range.mpr (Nat.lt_of_mul_lt_mul_right (a := 2 ^ k) ?_)
      omega
    · intro g _ hg
      have hge : dataShards ≤ g * 2 ^ k := by
        by_contra hlt
        exact hg (Finset.mem_range.mpr ((groupCount_spec h.data_pos).mpr (by omega)))
      refine K.lawful.points.inverseTo_eq_zero k (g + 1) (fun j _ => ?_) ht
      rw [messageWord_group, if_neg (by omega)]
  rw [hsum]
  exact CharTwo.add_self_eq_zero _

/-- The erased positions are at most the parity lanes. -/
theorem card_erasures_le (h : Admitted w dataShards parityShards k)
    (hmissing : (missingIn present 0 (dataShards + parityShards)).length ≤ parityShards) :
    (erasures present dataShards parityShards (2 ^ k)).card ≤ 2 ^ k := by
  have hle := h.parity_le
  have hsub : erasures present dataShards parityShards (2 ^ k) ⊆
      (missingIn present 0 (dataShards + parityShards)).toFinset.image (laneOf dataShards (2 ^ k)) ∪
        Finset.Ico parityShards (2 ^ k) := by
    intro j hj
    rw [Finset.mem_union, Finset.mem_image, Finset.mem_Ico]
    rcases (mem_erasures hle).mp hj with ⟨hlt, hp⟩ | hpad | ⟨hge, hlt, hp⟩
    · refine .inl ⟨dataShards + j, List.mem_toFinset.mpr (mem_missingIn.mpr ?_), ?_⟩
      · exact ⟨Nat.zero_le _, by omega, hp⟩
      · unfold laneOf
        rw [if_pos (by omega), Nat.add_sub_cancel_left]
    · exact .inr hpad
    · refine .inl ⟨j - 2 ^ k, List.mem_toFinset.mpr (mem_missingIn.mpr ?_), ?_⟩
      · exact ⟨Nat.zero_le _, by omega, hp⟩
      · unfold laneOf
        rw [if_neg (by omega)]
        omega
  have h1 := Finset.card_le_card hsub
  have h2 := Finset.card_union_le
    ((missingIn present 0 (dataShards + parityShards)).toFinset.image (laneOf dataShards (2 ^ k)))
    (Finset.Ico parityShards (2 ^ k))
  have h3 := Finset.card_image_le (f := laneOf dataShards (2 ^ k))
    (s := (missingIn present 0 (dataShards + parityShards)).toFinset)
  have h4 := List.toFinset_card_le (missingIn present 0 (dataShards + parityShards))
  rw [Nat.card_Ico] at h2
  omega

/-- The value of a code word on the lane of a shard. -/
theorem codeWord_lane (h : Admitted w dataShards parityShards k) {r : Nat → K.lawful.lfsr.Elem}
    (hr : ∀ j, j < parityShards → r (dataShards + j) = parityColumn K dataShards k r j) {i : Nat}
    (hi : i < dataShards + parityShards) :
    codeWord K dataShards k r (laneOf dataShards (2 ^ k) i) = r i := by
  have hle := h.parity_le
  unfold codeWord laneOf
  by_cases hd : dataShards ≤ i
  · rw [if_pos hd, if_pos (by omega), ← hr _ (by omega),
      show dataShards + (i - dataShards) = i by omega]
  · rw [if_neg hd, if_neg (by omega)]
    unfold messageWord
    rw [if_neg (by omega), Nat.add_sub_cancel_left, if_pos (by omega)]

/-- At most `parityShards` erasures of a code word are recovered. -/
theorem recoveredColumn_eq (h : Decodable w dataShards parityShards k n)
    {r : Nat → K.lawful.lfsr.Elem}
    (hr : ∀ j, j < parityShards → r (dataShards + j) = parityColumn K dataShards k r j)
    (hmissing : (missingIn present 0 (dataShards + parityShards)).length ≤ parityShards) {i : Nat}
    (hi : i < dataShards + parityShards) (hp : present.getD i false = false) :
    recoveredColumn K present dataShards parityShards k n r i = r i := by
  have hle := h.parity_le
  have hlanes := h.lanes_le
  have hin := (erased_lane present h.toAdmitted hi).mpr hp
  have hE (e : Nat) (he : e ∈ erasures present dataShards parityShards (2 ^ k)) : e < 2 ^ n := by
    have := Finset.mem_range.mp (Finset.mem_filter.mp he).1
    omega
  have hscaled (j : Nat) (hj : j < 2 ^ n) : scaledColumn K present dataShards parityShards k r j =
      (∏ e ∈ erasures present dataShards parityShards (2 ^ k),
        (K.lawful.points.point j + K.lawful.points.point e)) * codeWord K dataShards k r j := by
    unfold scaledColumn
    by_cases herased : j ∈ erasures present dataShards parityShards (2 ^ k)
    · have hself := CharTwo.add_self_eq_zero (K.lawful.points.point j)
      rw [Finset.prod_eq_zero herased hself, zero_mul, zero_mul]
    · congr 1
      by_cases hshard : ∃ i, i < dataShards + parityShards ∧ j = laneOf dataShards (2 ^ k) i
      · obtain ⟨i, hi, rfl⟩ := hshard
        rw [receivedColumn_lane h.toAdmitted r hi, codeWord_lane h.toAdmitted hr hi]
        rw [erased_lane present h.toAdmitted hi, Bool.not_eq_false] at herased
        rw [if_pos herased]
      · have hpad : ¬(parityShards ≤ j ∧ j < 2 ^ k) := fun hpad =>
          herased ((mem_erasures hle).mpr (.inr (.inl hpad)))
        have hlow : ¬j < 2 ^ k := by
          intro hlow
          refine hshard ⟨dataShards + j, by omega, ?_⟩
          unfold laneOf
          rw [if_pos (by omega), Nat.add_sub_cancel_left]
        have hhigh : ¬j - 2 ^ k < dataShards := by
          intro hhigh
          refine hshard ⟨j - 2 ^ k, by omega, ?_⟩
          unfold laneOf
          rw [if_neg (by omega)]
          omega
        unfold receivedColumn codeWord messageWord
        rw [if_neg (by omega), if_neg hlow, if_neg hhigh, if_neg hlow, if_neg hlow, if_neg hhigh]
  have hrecover := K.lawful.points.recover h.k_le h.n_le (v := codeWord K dataShards k r)
    (fun i hi hlt => codeWord_top h r hi hlt) hE (card_erasures_le h.toAdmitted hmissing) hscaled hin
  have hne : (∏ e ∈ (erasures present dataShards parityShards (2 ^ k)).erase
      (laneOf dataShards (2 ^ k) i), (K.lawful.points.point (laneOf dataShards (2 ^ k) i) +
        K.lawful.points.point e)) ≠ 0 := by
    rw [Finset.prod_ne_zero_iff]
    intro e he hzero
    obtain ⟨hne, he⟩ := Finset.mem_erase.mp he
    have hw := h.two_pow_le
    have h1 := hE e he
    have h2 := hE _ hin
    exact hne (K.lawful.points.point_inj (by omega) (by omega) (CharTwo.add_eq_zero.mp hzero).symm)
  unfold recoveredColumn transformedColumn
  rw [hrecover, mul_comm, inv_mul_cancel_left₀ hne, codeWord_lane h.toAdmitted hr hi]

end Recover

end Leopard

end ErasureCodec
