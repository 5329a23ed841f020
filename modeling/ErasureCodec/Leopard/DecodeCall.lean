import ErasureCodec.Leopard.EncodeCall
import ErasureCodec.Leopard.Decode

namespace ErasureCodec

namespace Leopard

variable {w : Nat}

section Validate

/-- One shard of `validate_leopard_decode_buffers`: the shard size so far and the
number of present shards. -/
def checkDecodeInput (st : Option Nat × Nat) (p : Bool × Option (List (BitVec 8))) :
    Outcome Error (Option Nat × Nat) :=
  if p.1 then
    match p.2 with
    | none => .err .tooFewShardsPresent
    | some data =>
      if data.isEmpty then .err .emptyShard
      else if data.length % 64 ≠ 0 ∨ st.1.any (· ≠ data.length) then .err .incorrectShardSize
      else .ok (some data.length, st.2 + 1)
  else .ok st

/-- The checks after the loop. -/
def checkDecodeCounts (dataShards : Nat) (outputs : List (List (BitVec 8)))
    (st : Option Nat × Nat) : Outcome Error Nat :=
  if st.2 < dataShards then .err .tooFewShardsPresent
  else
    match st.1 with
    | none => .err .tooFewShardsPresent
    | some shardSize =>
      if outputs.any fun output => !output.isEmpty && output.length ≠ shardSize then
        .err .incorrectShardSize
      else .ok shardSize

def validateLeopardDecodeBuffers (present : List Bool) (outputs : List (List (BitVec 8)))
    (inputs : List (Option (List (BitVec 8)))) (dataShards parityShards : Nat) :
    Outcome Error Nat :=
  if dataShards = 0 then .err .tooFewDataShards
  else if parityShards = 0 then .err .tooFewParityShards
  else if usizeLimit ≤ dataShards + parityShards then .err .tooManyShards
  else if present.length ≠ dataShards + parityShards ∨ outputs.length ≠ dataShards + parityShards ∨
      inputs.length ≠ dataShards + parityShards then .err .incorrectShardSize
  else do
    let st ← (present.zip inputs).foldlM checkDecodeInput (none, 0)
    checkDecodeCounts dataShards outputs st

/-- What the validation accepts. -/
structure DecodeInput (present : List Bool) (outputs : List (List (BitVec 8)))
    (inputs : List (Option (List (BitVec 8)))) (dataShards parityShards shardSize : Nat) :
    Prop where
  present_length : present.length = dataShards + parityShards
  inputs_length : inputs.length = dataShards + parityShards
  size_pos : 0 < shardSize
  size_dvd : 64 ∣ shardSize
  received : Received present inputs (dataShards + parityShards) shardSize
  enough : dataShards ≤ present.count true
  outputs : OutputBuffers present (dataShards + parityShards) shardSize outputs

variable {present : List Bool} {outputs : List (List (BitVec 8))}
  {inputs : List (Option (List (BitVec 8)))} {dataShards parityShards shardSize : Nat}

/-- What the loop leaves: present inputs of one size, and their number. -/
theorem checkDecodeInput_sat (present : List Bool) (inputs : List (Option (List (BitVec 8))))
    (hlen : present.length = inputs.length) (st : Option Nat × Nat) :
    ((present.zip inputs).foldlM checkDecodeInput st).Sat
      (fun st' => (st.1 = none ∨ st'.1 = st.1) ∧ (present.count true = 0 → st'.1 = st.1) ∧
        st'.2 = st.2 + present.count true ∧
        ∀ i, present.getD i false = true → ∃ input, inputs.getD i none = some input ∧
          st'.1 = some input.length ∧ 0 < input.length ∧ 64 ∣ input.length)
      (fun _ => True) False := by
  induction present generalizing inputs st with
  | nil => exact ⟨.inr rfl, fun _ => rfl, rfl, fun i hi => absurd hi (by simp)⟩
  | cons here present ih =>
    cases inputs with
    | nil => simp at hlen
    | cons input inputs =>
      rw [List.zip_cons_cons, List.foldlM_cons]
      have hrest := fun st => ih inputs (by simpa using hlen) st
      cases here with
      | false =>
        refine (hrest st).mono ?_ (fun _ _ => trivial) id
        rintro st' ⟨hold, hzero, hcount, hin⟩
        refine ⟨hold, fun h => hzero (by simpa using h), by simpa using hcount, fun i hi => ?_⟩
        cases i with
        | zero => exact absurd hi (by simp)
        | succ i => exact hin i hi
      | true =>
        cases input with
        | none => trivial
        | some data =>
          unfold checkDecodeInput
          simp only [if_true]
          split_ifs with hempty hbad
          · trivial
          · trivial
          · rw [Outcome.ok_bind]
            push Not at hbad
            refine (hrest _).mono ?_ (fun _ _ => trivial) id
            rintro st' ⟨hold, -, hcount, hin⟩
            have hsize : st'.1 = some data.length := by
              rcases hold with hold | hold
              · cases hold
              · exact hold
            refine ⟨?_, fun h => absurd h (by simp), ?_, fun i hi => ?_⟩
            · cases hst : st.1 with
              | none => exact .inl rfl
              | some len =>
                rw [hst] at hbad
                have hne := hbad.2
                simp only [Option.any_some, ne_eq, decide_not, Bool.not_eq_true',
                  decide_eq_false_iff_not, Decidable.not_not] at hne
                exact .inr (by rw [hsize, hne])
            · rw [hcount]
              simp only [List.count_cons_self]
              omega
            · cases i with
              | zero =>
                refine ⟨data, rfl, hsize, ?_, Nat.dvd_of_mod_eq_zero hbad.1⟩
                rw [List.isEmpty_iff] at hempty
                exact List.length_pos_iff.mpr hempty
              | succ i => exact hin i hi

/-- An accepted call has consistent buffers. -/
theorem validateLeopardDecodeBuffers_ok
    (h : validateLeopardDecodeBuffers present outputs inputs dataShards parityShards =
      .ok shardSize) :
    DecodeInput present outputs inputs dataShards parityShards shardSize := by
  unfold validateLeopardDecodeBuffers at h
  rw [Outcome.guard_eq_ok, Outcome.guard_eq_ok, Outcome.guard_eq_ok, Outcome.guard_eq_ok] at h
  obtain ⟨hdata, hparity, hlimit, hlen, h⟩ := h
  push Not at hlen
  obtain ⟨st, hloop, hcounts⟩ := Outcome.bind_eq_ok.mp h
  have hsat := checkDecodeInput_sat present inputs (hlen.1.trans hlen.2.2.symm) (none, 0)
  rw [hloop] at hsat
  obtain ⟨-, -, hcount, hin⟩ := hsat
  unfold checkDecodeCounts at hcounts
  rw [Outcome.guard_eq_ok] at hcounts
  obtain ⟨henough, hcounts⟩ := hcounts
  cases hsize : st.1 with
  | none =>
    rw [hsize] at hcounts
    cases hcounts
  | some size =>
    rw [hsize] at hcounts hin
    simp only [Outcome.guard_eq_ok] at hcounts
    obtain ⟨hout, hcounts⟩ := hcounts
    obtain rfl : size = shardSize := Outcome.ok.inj hcounts
    have hsome : ∃ i, present.getD i false = true := by
      have hmem : true ∈ present := List.count_pos_iff.mp (by omega)
      obtain ⟨i, hi, hget⟩ := List.getElem_of_mem hmem
      exact ⟨i, by rw [List.getD_eq_getElem _ _ hi, hget]⟩
    obtain ⟨i, hi⟩ := hsome
    obtain ⟨input, -, hs, hpos, hdvd⟩ := hin i hi
    have hs : size = input.length := Option.some.inj hs
    refine ⟨hlen.1, hlen.2.2, hs ▸ hpos, hs ▸ hdvd, fun i _ hp => ?_, by omega, hlen.2.1, ?_⟩
    · obtain ⟨input, hinput, hs, -, -⟩ := hin i hp
      exact ⟨input, hinput, (Option.some.inj hs).symm⟩
    · intro i hreq
      by_contra hne
      apply hout
      rw [List.any_eq_true]
      have hlt : i < outputs.length := by
        by_contra hge
        exact hreq.2 (List.getD_eq_default _ _ (by omega))
      refine ⟨outputs[i], List.getElem_mem hlt, ?_⟩
      rw [List.getD_eq_getElem _ _ hlt] at hne
      have hnil := hreq.2
      rw [List.getD_eq_getElem _ _ hlt] at hnil
      simp [hnil, hne]

/-- The loop accepts present inputs of one size. -/
theorem checkDecodeInput_eq (h0 : 0 < shardSize) (h64 : 64 ∣ shardSize) (present : List Bool)
    (inputs : List (Option (List (BitVec 8)))) (hlen : present.length = inputs.length)
    (hin : ∀ i, present.getD i false = true →
      ∃ input, inputs.getD i none = some input ∧ input.length = shardSize)
    {st : Option Nat × Nat} (hst : st.1 = none ∨ st.1 = some shardSize) :
    (present.zip inputs).foldlM checkDecodeInput st =
      .ok (if present.count true = 0 then st.1 else some shardSize,
        st.2 + present.count true) := by
  induction present generalizing inputs st with
  | nil => rfl
  | cons here present ih =>
    cases inputs with
    | nil => simp at hlen
    | cons input inputs =>
      have hrest (st : Option Nat × Nat) (hst : st.1 = none ∨ st.1 = some shardSize) :=
        ih inputs (by simpa using hlen) (fun i hi => hin (i + 1) hi) hst
      rw [List.zip_cons_cons, List.foldlM_cons]
      cases here with
      | false =>
        have hskip : checkDecodeInput st (false, input) = .ok st := rfl
        rw [hskip, Outcome.ok_bind, hrest st hst]
        simp
      | true =>
        obtain ⟨data, hdata, hsize⟩ := hin 0 rfl
        obtain rfl : input = some data := hdata
        have htake : checkDecodeInput st (true, some data) = .ok (some shardSize, st.2 + 1) := by
          unfold checkDecodeInput
          have hne : data.isEmpty = false := by
            rw [List.isEmpty_eq_false_iff]
            intro hnil
            rw [hnil] at hsize
            simp only [List.length_nil] at hsize
            omega
          have hsame : ¬(data.length % 64 ≠ 0 ∨ st.1.any (· ≠ data.length) = true) := by
            rintro (hmod | hany)
            · rw [hsize] at hmod
              exact hmod (Nat.mod_eq_zero_of_dvd h64)
            · rcases hst with hst | hst <;> rw [hst] at hany
              · simp at hany
              · simp [hsize] at hany
          simp only [if_true, hne, Bool.false_eq_true, if_false]
          rw [if_neg hsame, hsize]
        rw [htake, Outcome.ok_bind, hrest _ (.inr rfl)]
        simp only [List.count_cons_self, ite_self, Nat.add_eq_zero_iff, one_ne_zero, and_false,
          if_false]
        congr 2
        omega

/-- Consistent buffers are accepted. -/
theorem validateLeopardDecodeBuffers_eq
    (h : DecodeInput present outputs inputs dataShards parityShards shardSize)
    (hdata : 0 < dataShards) (hparity : 0 < parityShards)
    (hlimit : dataShards + parityShards < usizeLimit)
    (hout : ∀ output ∈ outputs, output = [] ∨ output.length = shardSize) :
    validateLeopardDecodeBuffers present outputs inputs dataShards parityShards = .ok shardSize := by
  have henough := h.enough
  have hin (i : Nat) (hp : present.getD i false = true) :
      ∃ input, inputs.getD i none = some input ∧ input.length = shardSize := by
    apply h.received i _ hp
    by_contra hge
    rw [List.getD_eq_default _ _ (by rw [h.present_length]; omega)] at hp
    cases hp
  unfold validateLeopardDecodeBuffers
  rw [if_neg (by omega), if_neg (by omega), if_neg (by omega), if_neg (by
      rw [h.present_length, h.inputs_length, h.outputs.length_eq]
      simp),
    checkDecodeInput_eq h.size_pos h.size_dvd present inputs
      (h.present_length.trans h.inputs_length.symm) hin (.inl rfl), Outcome.ok_bind]
  unfold checkDecodeCounts
  rw [if_neg (by simp only; omega)]
  simp only
  rw [if_neg (show ¬present.count true = 0 by omega)]
  simp only
  rw [if_neg]
  intro hany
  obtain ⟨output, hmem, hbad⟩ := List.any_eq_true.mp hany
  rcases hout output hmem with rfl | hl
  · simp at hbad
  · simp [hl] at hbad

end Validate

section Decoded

variable {D : Decoder w} {present : List Bool} {outputs : List (List (BitVec 8))}
  {inputs : List (Option (List (BitVec 8)))} {dataShards parityShards k n shardSize : Nat}

/-- Where nothing is requested the outputs are decoded already. -/
theorem isDecoded_refl (hnone : present.all id = true ∨ outputs.all List.isEmpty = true)
    (hlen : present.length = dataShards + parityShards) :
    IsDecoded D present inputs dataShards parityShards k n shardSize outputs outputs := by
  refine ⟨Kept.refl present outputs, fun i x hi hreq _ => ?_⟩
  exfalso
  rcases hnone with hall | hall
  · rw [List.all_eq_true] at hall
    have htrue := hall (present.getD i false)
      (by rw [List.getD_eq_getElem _ _ (by omega)]; exact List.getElem_mem _)
    rw [id_eq, hreq.1] at htrue
    cases htrue
  · rw [List.all_eq_true] at hall
    have hlt : i < outputs.length := by
      by_contra hge
      exact hreq.2 (List.getD_eq_default _ _ (by omega))
    have hempty := hall (outputs.getD i [])
      (by rw [List.getD_eq_getElem _ _ hlt]; exact List.getElem_mem _)
    exact hreq.2 (List.isEmpty_iff.mp hempty)

/-- The missing shards are the others. -/
theorem length_missingIn (hlen : present.length = dataShards + parityShards) :
    (missingIn present 0 (dataShards + parityShards)).length + present.count true =
      dataShards + parityShards := by
  have hflags : present = (List.range present.length).map fun i => present.getD i false := by
    apply List.ext_getElem (by simp)
    intro i h1 h2
    rw [List.getElem_map, List.getElem_range, List.getD_eq_getElem _ _ h1]
  have hcount : present.count true =
      ((List.range present.length).filter fun i => present.getD i false).length := by
    conv_lhs => rw [hflags]
    rw [List.count_eq_length_filter, List.filter_map, List.length_map]
    congr 1
    apply List.filter_congr
    intro i _
    simp
  unfold missingIn
  rw [← List.range_eq_range', hcount, hlen, Nat.add_comm]
  have hsplit := List.length_eq_length_filter_add (l := List.range (dataShards + parityShards))
    (fun i => present.getD i false)
  rw [List.length_range] at hsplit
  exact hsplit.symm

/-- An accepted call has at most `parityShards` erasures. -/
theorem DecodeInput.missing_le
    (h : DecodeInput present outputs inputs dataShards parityShards shardSize) :
    (missingIn present 0 (dataShards + parityShards)).length ≤ parityShards := by
  have := length_missingIn h.present_length
  have := h.enough
  omega

end Decoded

end Leopard

end ErasureCodec
