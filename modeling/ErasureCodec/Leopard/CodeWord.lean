import ErasureCodec.Leopard.DecodeCall
import ErasureCodec.Leopard.Recovery

namespace ErasureCodec

namespace Leopard

variable {w : Nat}

section Restore

variable {D : Decoder w} {dataShards parityShards k n shardSize : Nat} {present : List Bool}
  {inputs : List (Option (List (BitVec 8)))}

/-- Only the inputs of present shards are decoded. -/
theorem decoded_congr {inputs' : List (Option (List (BitVec 8)))} {x x' : Nat}
    (h : ∀ i, i < dataShards + parityShards → present.getD i false = true →
      D.value ((inputs.getD i none).getD []) x = D.value ((inputs'.getD i none).getD []) x') (i : Nat) :
    D.decoded present inputs dataShards parityShards k n i x =
      D.decoded present inputs' dataShards parityShards k n i x' := by
  unfold Decoder.decoded recoveredColumn
  congr 1
  exact transformedColumn_congr h _

/-- Decoding what is left of a code word gives back its shards. -/
theorem IsDecoded.restores (h : Decodable w dataShards parityShards k n) (h64 : 64 ∣ shardSize)
    {data parity : List (List (BitVec 8))} (hdata : Grid dataShards shardSize data)
    (hparity : IsParity D.toFamily dataShards parityShards k shardSize data parity)
    (hinputs : ∀ i, i < dataShards + parityShards → present.getD i false = true →
      inputs.getD i none = some ((data ++ parity).getD i []))
    (hmissing : (missingIn present 0 (dataShards + parityShards)).length ≤ parityShards)
    {before after : List (List (BitVec 8))}
    (hbefore : OutputBuffers present (dataShards + parityShards) shardSize before)
    (hdec : IsDecoded D present inputs dataShards parityShards k n shardSize before after) {i : Nat}
    (hi : i < dataShards + parityShards) (hreq : Requested present before i) :
    after.getD i [] = (data ++ parity).getD i [] := by
  have hword := hdata.append hparity.grid
  have hl := (hdec.kept.row_length i).trans (hbefore.row_length i hreq)
  apply D.value_ext (by rw [hl]; exact h64) (hl.trans (hword.row_length i hi).symm)
  intro x hx
  rw [hl] at hx
  have hcolumn (j : Nat) (hj : j < parityShards) : D.value ((data ++ parity).getD (dataShards + j) []) x =
      parityColumn D.kernel dataShards k (fun i => D.value ((data ++ parity).getD i []) x) j := by
    have hsecond : (data ++ parity).getD (dataShards + j) [] = parity.getD j [] := by
      rw [List.getD_append_right _ _ _ _ (by rw [hdata.length_eq]; omega), hdata.length_eq,
        Nat.add_sub_cancel_left]
    rw [hsecond, hparity.value j x hj hx]
    apply parityColumn_congr
    intro i hi
    rw [List.getD_append _ _ _ _ (by rwa [hdata.length_eq])]
  have hrecover := recoveredColumn_eq (K := D.kernel)
    (r := fun i => D.value ((data ++ parity).getD i []) x) h hcolumn hmissing hi hreq.1
  rw [hdec.value i x hi hreq hx]
  refine Eq.trans ?_ hrecover
  unfold Decoder.decoded recoveredColumn
  congr 1
  apply transformedColumn_congr
  intro j hj hp
  rw [hinputs j hj hp, Option.getD_some]

end Restore

section Blocks

/-- The `b`-th block of 64 bytes. -/
def block {α : Type} (b : Nat) (shard : List α) : List α := slice shard (64 * b) (64 * (b + 1))

theorem length_block {α : Type} {b : Nat} {shard : List α} (h : 64 * (b + 1) ≤ shard.length) :
    (block b shard).length = 64 := by
  unfold block
  rw [length_slice _ _ _ h]
  omega

theorem block_nil {α : Type} (b : Nat) : block b ([] : List α) = [] := by
  simp [block, slice]

theorem getD_map_block {α : Type} (b : Nat) (rows : List (List α)) (i : Nat) :
    (rows.map (block b)).getD i [] = block b (rows.getD i []) := by
  by_cases hi : i < rows.length
  · rw [getD_map_of_lt _ _ _ hi []]
  · rw [List.getD_eq_default _ _ (by rw [List.length_map]; omega),
      List.getD_eq_default _ _ (by omega), block_nil]

/-- The elements of a block are elements of the shard. -/
theorem value_block (F : Family w) {shard : List (BitVec 8)} (h64 : 64 ∣ shard.length) {b : Nat}
    (hb : 64 * (b + 1) ≤ shard.length) {x : Nat} (hx : x < 64 / F.layout.unit) :
    F.value (block b shard) x = F.value shard (b * (64 / F.layout.unit) + x) := by
  obtain ⟨q, hq⟩ := F.layout.unit_dvd
  have hpos := F.layout.unit_pos
  have hdiv : 64 / F.layout.unit = q := by rw [hq, Nat.mul_div_cancel_left _ hpos]
  rw [hdiv] at hx ⊢
  have hstart : b * q * F.layout.unit = 64 * b := by
    rw [Nat.mul_assoc, Nat.mul_comm q, ← hq, Nat.mul_comm]
  have hstop : (b + 1) * q * F.layout.unit = 64 * (b + 1) := by
    rw [Nat.mul_assoc, Nat.mul_comm q, ← hq, Nat.mul_comm]
  have hle : b * q ≤ (b + 1) * q := Nat.mul_le_mul_right q (Nat.le_succ b)
  have hslice := (value_slice (F := F) shard x h64 (hstart ▸ Nat.dvd_mul_right 64 b)
    (hstop ▸ Nat.dvd_mul_right 64 (b + 1)) hle (hstop ▸ hb)).2 (by rw [Nat.add_mul]; omega)
  rw [hstart, hstop] at hslice
  exact hslice

theorem lt_of_block {F : Family w} {shardSize b x : Nat} (hb : 64 * (b + 1) ≤ shardSize)
    (hx : x < 64 / F.layout.unit) : b * (64 / F.layout.unit) + x < shardSize / F.layout.unit := by
  obtain ⟨q, hq⟩ := F.layout.unit_dvd
  have hpos := F.layout.unit_pos
  have hdiv : 64 / F.layout.unit = q := by rw [hq, Nat.mul_div_cancel_left _ hpos]
  rw [hdiv] at hx ⊢
  apply lt_of_lt_of_le (b := (b + 1) * q)
  · rw [Nat.add_mul]
    omega
  · rw [Nat.le_div_iff_mul_le hpos, Nat.mul_assoc, Nat.mul_comm q, ← hq, Nat.mul_comm]
    exact hb

variable {dataShards parityShards k n shardSize b : Nat}

theorem grid_block {rows : Nat} {data : List (List (BitVec 8))} (h : Grid rows shardSize data)
    (hb : 64 * (b + 1) ≤ shardSize) : Grid rows 64 (data.map (block b)) := by
  apply grid_of_forall (by rw [List.length_map, h.length_eq])
  intro row hrow
  obtain ⟨shard, hshard, rfl⟩ := List.mem_map.mp hrow
  exact length_block (by rw [h.forall hshard]; exact hb)

/-- The blocks of the parity are the parity of the blocks. -/
theorem IsParity.block {F : Family w} {data parity : List (List (BitVec 8))} (h64 : 64 ∣ shardSize)
    (hdata : Grid dataShards shardSize data)
    (h : IsParity F dataShards parityShards k shardSize data parity)
    (hb : 64 * (b + 1) ≤ shardSize) :
    IsParity F dataShards parityShards k 64 (data.map (block b)) (parity.map (block b)) := by
  refine ⟨grid_block h.grid hb, fun j x hj hx => ?_⟩
  have hlen := h.grid.row_length j hj
  rw [getD_map_block, value_block F (by rw [hlen]; exact h64) (by rw [hlen]; exact hb) hx,
    h.value j _ hj (lt_of_block hb hx)]
  apply parityColumn_congr
  intro i hi
  have hlen := hdata.row_length i hi
  rw [getD_map_block, value_block F (by rw [hlen]; exact h64) (by rw [hlen]; exact hb) hx]

/-- The blocks of decoded shards are decoded from the blocks. -/
theorem IsDecoded.block {D : Decoder w} {present : List Bool}
    {inputs : List (Option (List (BitVec 8)))} {before after : List (List (BitVec 8))}
    (h64 : 64 ∣ shardSize)
    (hrec : Received present inputs (dataShards + parityShards) shardSize)
    (hbefore : OutputBuffers present (dataShards + parityShards) shardSize before)
    (h : IsDecoded D present inputs dataShards parityShards k n shardSize before after)
    (hb : 64 * (b + 1) ≤ shardSize) :
    IsDecoded D present (inputs.map (Option.map (block b))) dataShards parityShards k n 64
      (before.map (block b)) (after.map (block b)) := by
  have hreq {i : Nat} : Requested present (before.map (Leopard.block b)) i ↔
      Requested present before i := by
    unfold Requested
    rw [getD_map_block]
    refine and_congr_right fun hp => not_congr ⟨fun hnil => ?_, fun hnil => by rw [hnil, block_nil]⟩
    by_contra hne
    have hlen : (Leopard.block b (before.getD i [])).length = 64 :=
      length_block (by rw [hbefore.row_length i ⟨hp, hne⟩]; exact hb)
    rw [hnil] at hlen
    cases hlen
  refine ⟨⟨?_, fun i => ?_, fun i hi => ?_⟩, fun i x hi hr hx => ?_⟩
  · rw [List.length_map, List.length_map, h.kept.length_eq]
  · rw [getD_map_block, getD_map_block]
    unfold Leopard.block slice
    rw [List.length_take, List.length_take, List.length_drop, List.length_drop,
      h.kept.row_length i]
  · rw [getD_map_block, getD_map_block, h.kept.frame i fun hr => hi (hreq.mpr hr)]
  · have hr := hreq.mp hr
    have hlen := (h.kept.row_length i).trans (hbefore.row_length i hr)
    rw [getD_map_block, value_block D.toFamily (by rw [hlen]; exact h64) (by rw [hlen]; exact hb) hx,
      h.value i _ hi hr (lt_of_block hb hx)]
    apply decoded_congr
    intro j hj hp
    obtain ⟨input, hinput, hsize⟩ := hrec j hj hp
    have hmap : (inputs.map (Option.map (Leopard.block b))).getD j none =
        some (Leopard.block b input) := by
      rw [List.getD_eq_getElem?_getD, List.getElem?_map]
      rw [List.getD_eq_getElem?_getD] at hinput
      cases hget : inputs[j]? with
      | none =>
        rw [hget] at hinput
        cases hinput
      | some found =>
        rw [hget] at hinput
        obtain rfl : found = some input := hinput
        rfl
    rw [hinput, hmap, Option.getD_some, Option.getD_some,
      value_block D.toFamily (by rw [hsize]; exact h64) (by rw [hsize]; exact hb) hx]

end Blocks

end Leopard

end ErasureCodec
