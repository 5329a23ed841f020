import ErasureCodec.Codec.Selection
import ErasureCodec.Codec.ParallelPolicy
import ErasureCodec.Codec.Encode
import ErasureCodec.Leopard.Plan
import ErasureCodec.Math.Bytes

namespace ErasureCodec

open CodecField Leopard

section Alignment

def leopardAlignedShardLen (dataLen dataShards : Nat) : Nat :=
  let shards := if dataShards = 0 then 1 else dataShards
  let perShard := divCeil dataLen shards
  let remainder := perShard % leopardShardMultiple
  let rounded := if remainder = 0 then perShard
    else saturate (perShard + (leopardShardMultiple - remainder))
  let clamped := max rounded leopardShardMultiple
  clamped - clamped % leopardShardMultiple

theorem divCeil_le {a b : Nat} (hb : 0 < b) : divCeil a b ≤ a := by
  unfold divCeil
  rw [← Nat.lt_add_one_iff, Nat.div_lt_iff_lt_mul hb, Nat.add_mul]
  have := Nat.le_mul_of_pos_right a hb
  omega

/-- The length is the rounded share of a shard, or the last multiple below the limit. -/
theorem leopardAlignedShardLen_eq {dataLen dataShards : Nat} (hlen : dataLen < usizeLimit) :
    leopardAlignedShardLen dataLen dataShards =
      if roundUp (divCeil dataLen (max dataShards 1)) 64 < usizeLimit then
        max (roundUp (divCeil dataLen (max dataShards 1)) 64) 64
      else usizeLimit - 64 := by
  have hshards : (if dataShards = 0 then 1 else dataShards) = max dataShards 1 := by
    split_ifs <;> omega
  have hneed : divCeil dataLen (max dataShards 1) < usizeLimit :=
    lt_of_le_of_lt (divCeil_le (by omega)) hlen
  obtain ⟨need, hdef⟩ : ∃ need, need = divCeil dataLen (max dataShards 1) := ⟨_, rfl⟩
  have hround := roundUp_eq_add need (m := 64) (by decide)
  have hlimit : usizeLimit = 2 ^ 64 := rfl
  unfold leopardAlignedShardLen saturate leopardShardMultiple
  rw [hshards]
  simp only [← hdef] at hneed ⊢
  split_ifs at hround ⊢ <;> omega

end Alignment

namespace ReedSolomon

section Definitions

variable {E : Type} [CodecField E]

/-- Shard `i` of a payload; index arithmetic beyond `usize` panics. -/
def splitShard (data : List E) (shardLen i : Nat) : Outcome Error (List E) :=
  let start := i * shardLen
  if usizeLimit ≤ start then .panic
  else if usizeLimit ≤ start + shardLen then .panic
  else
    let stop := min (start + shardLen) data.length
    let shard := List.replicate shardLen zero
    .ok (if start < data.length then overwrite 0 (slice data start stop) shard else shard)

def split (codec : ReedSolomon E) (data : List E) : Outcome Error (List (List E)) :=
  let dataShards := codec.dataShardCount
  let shardLen := if codec.isLeopardFamily then leopardAlignedShardLen data.length dataShards
    else divCeil data.length dataShards
  (List.range dataShards).mapM (splitShard data shardLen)

/-- One round of the loop of `join`; after the break nothing is taken. -/
def joinStep {E : Type} (targetLen : Nat) (result shard : List E) : List E :=
  let remaining := targetLen - result.length
  if remaining = 0 then result else result ++ shard.take (min remaining shard.length)

def join {E : Type} (codec : ReedSolomon E) (shards : List (List E)) (outLen : Nat) :
    Outcome Error (List E) := do
  checkCount shards.length codec.dataShardCount .tooFewDataShards .tooManyDataShards
  checkSlices shards
  let available := saturate ((shards.getD 0 []).length * shards.length)
  let targetLen := min outLen available
  pure ((shards.foldl (joinStep targetLen) []).take targetLen)

/-- A codec as one of the two constructors returns it. -/
def IsBuilt [DecidableEq E] (codec : ReedSolomon E) : Prop :=
  (∃ dataShards parityShards options, withOptions dataShards parityShards options = .ok codec) ∨
    ∃ dataShards parityShards customMatrix options,
      withCustomMatrix dataShards parityShards customMatrix options = .ok codec

end Definitions

section Join

variable {E : Type}

/-- The loop of `join` takes a prefix of the concatenation. -/
theorem foldl_joinStep (targetLen : Nat) (taken : List E) (shards : List (List E)) :
    shards.foldl (joinStep targetLen) (taken.take targetLen) =
      (taken ++ shards.flatten).take targetLen := by
  induction shards generalizing taken with
  | nil => simp
  | cons shard shards ih =>
    have hstep : joinStep targetLen (taken.take targetLen) shard =
        (taken ++ shard).take targetLen := by
      unfold joinStep
      simp only [List.length_take]
      by_cases hfull : targetLen ≤ taken.length
      · rw [Nat.min_eq_left hfull, Nat.sub_self, if_pos rfl, List.take_append_of_le_length hfull]
      · rw [Nat.min_eq_right (by omega), if_neg (by omega), List.take_append,
          ← List.take_eq_take_min]
    rw [List.foldl_cons, hstep, ih, List.flatten_cons, List.append_assoc]

theorem join_eq {codec : ReedSolomon E} {shards : List (List E)} {len outLen : Nat}
    (hcount : shards.length = codec.dataShardCount) (hdata : 0 < codec.dataShardCount)
    (hlen : 0 < len) (hshards : ∀ shard ∈ shards, shard.length = len) (hout : outLen < usizeLimit) :
    codec.join shards outLen =
      .ok (shards.flatten.take (min outLen (codec.dataShardCount * len))) := by
  have hne : shards ≠ [] := by
    intro h
    rw [h, List.length_nil] at hcount
    omega
  have hfirst : (shards.getD 0 []).length = len := by
    cases shards with
    | nil => exact absurd rfl hne
    | cons shard shards => exact hshards shard List.mem_cons_self
  have htarget : min outLen (saturate (len * codec.dataShardCount)) =
      min outLen (codec.dataShardCount * len) := by
    unfold saturate
    rw [Nat.mul_comm len]
    omega
  have hloop := foldl_joinStep (min outLen (codec.dataShardCount * len)) ([] : List E) shards
  rw [List.take_nil, List.nil_append] at hloop
  unfold join
  rw [checkCount_ok.mpr hcount, Outcome.ok_bind, (checkSlices_ok hne).mpr ⟨len, hlen, hshards⟩,
    Outcome.ok_bind, hfirst, hcount]
  simp only [htarget, hloop, List.take_take, Nat.min_self]
  rfl

end Join

section Split

variable {E : Type} [CodecField E]

/-- Entry `j` of shard `i` is entry `i * len + j` of the payload, or zero. -/
theorem splitShard_spec (data : List E) {len i : Nat} (hend : i * len + len < usizeLimit) :
    ∃ shard, splitShard data len i = .ok shard ∧ shard.length = len ∧
      ∀ j, j < len → shard.getD j zero = data.getD (i * len + j) zero := by
  unfold splitShard
  simp only
  rw [if_neg (by omega), if_neg (by omega)]
  refine ⟨_, rfl, ?_, fun j hj => ?_⟩
  · split_ifs <;> simp
  · split_ifs with hstart
    · have hslice := length_slice data (i * len) (min (i * len + len) data.length) (by omega)
      rw [getD_overwrite, hslice, List.length_replicate]
      split_ifs with hin
      · rw [Nat.sub_zero, getD_slice _ _ _ _ (by omega)]
      · rw [List.getD_replicate _ hj, List.getD_eq_default _ _ (by omega)]
    · rw [List.getD_replicate _ hj, List.getD_eq_default _ _ (by omega)]

/-- Split shards are the payload with zeros behind it. -/
theorem mapM_splitShard {data : List E} {len n : Nat} (hcover : data.length ≤ n * len)
    (hend : n * len < usizeLimit) :
    ∃ shards, (List.range n).mapM (splitShard data len) = .ok shards ∧ shards.length = n ∧
      (∀ shard ∈ shards, shard.length = len) ∧
      shards.flatten = data ++ List.replicate (n * len - data.length) zero := by
  have hbound (i : Nat) (hi : i < n) : i * len + len < usizeLimit := by
    have := Nat.mul_le_mul_right len (Nat.succ_le_of_lt hi)
    rw [Nat.succ_mul] at this
    omega
  choose! shard hok hlength hread using fun i (hi : i < n) =>
    splitShard_spec data (hbound i hi)
  have hall : ∀ s ∈ (List.range n).map shard, s.length = len := by
    intro s hs
    obtain ⟨i, hi, rfl⟩ := List.mem_map.mp hs
    exact hlength i (List.mem_range.mp hi)
  refine ⟨(List.range n).map shard, ?_, by simp, hall, ?_⟩
  · exact Outcome.mapM_eq_ok (fun i hi => hok i (List.mem_range.mp hi))
  · have hflat := length_flatten_of_forall hall
    rw [List.length_map, List.length_range] at hflat
    apply getD_ext zero
    · rw [hflat, List.length_append, List.length_replicate]
      omega
    · intro j hj
      rw [hflat] at hj
      have hpos : 0 < len := by
        rcases Nat.eq_zero_or_pos len with h0 | h0
        · rw [h0, Nat.mul_zero] at hj
          omega
        · exact h0
      have hrow : j / len < n := (Nat.div_lt_iff_lt_mul hpos).mpr hj
      have hpad : (data ++ List.replicate (n * len - data.length) zero).getD j zero =
          data.getD j zero := by
        by_cases hin : j < data.length
        · rw [List.getD_append _ _ _ _ hin]
        · rw [List.getD_append_right _ _ _ _ (by omega), List.getD_replicate _ (by omega),
            List.getD_eq_default _ _ (by omega)]
      rw [getD_flatten hall (by simpa using hj), getD_map_range _ _ _ hrow,
        hread _ hrow _ (Nat.mod_lt j hpos), Nat.div_add_mod', hpad]

end Split

section Inverse

variable {E : Type} [CodecField E] [DecidableEq E] {codec : ReedSolomon E}

/-- A slice or vector has at most `isize::MAX` bytes, so fewer elements than this. -/
def sliceLimit : Nat := 2 ^ 63

theorem IsBuilt.dataShards_pos (h : codec.IsBuilt) : 0 < codec.dataShardCount := by
  obtain ⟨_, _, _, h⟩ | ⟨_, _, _, _, h⟩ := h
  · simp only [withOptions] at h
    split_ifs at h with hd hp hmax htotal
    obtain ⟨-, -, h⟩ := Outcome.bind_eq_ok.mp h
    obtain ⟨_, _, h⟩ := Outcome.bind_eq_ok.mp h
    obtain rfl := Outcome.ok.inj h
    exact Nat.pos_of_ne_zero hd
  · simp only [withCustomMatrix] at h
    split_ifs at h with hd hp hmax htotal hfamily
    obtain ⟨_, _, h⟩ := Outcome.bind_eq_ok.mp h
    split_ifs at h
    obtain rfl := Outcome.ok.inj h
    exact Nat.pos_of_ne_zero hd

/-- The shards of a Leopard codec are points of a 16-bit field. -/
theorem IsBuilt.leopard_le (h : codec.IsBuilt) (hleopard : codec.isLeopardFamily = true) :
    codec.dataShardCount ≤ 65536 := by
  obtain ⟨dataShards, parityShards, options, h⟩ | ⟨_, _, _, _, h⟩ := h
  · simp only [withOptions] at h
    split_ifs at h with hd hp hmax htotal
    obtain ⟨-, -, h⟩ := Outcome.bind_eq_ok.mp h
    obtain ⟨_, _, h⟩ := Outcome.bind_eq_ok.mp h
    obtain rfl := Outcome.ok.inj h
    change dataShards ≤ 65536
    have hne : resolveCodecFamily options.codecFamily options.leopardMode (isByteField E)
        (dataShards + parityShards) parityShards ≠ .classic := by
      intro hclassic
      simp only [isLeopardFamily, hclassic, bne_self_eq_false, Bool.false_eq_true] at hleopard
    cases hfamily : resolveCodecFamily options.codecFamily options.leopardMode (isByteField E)
        (dataShards + parityShards) parityShards with
    | classic => exact absurd hfamily hne
    | leopardGF8 =>
      rw [hfamily] at htotal
      change ¬256 < _ at htotal
      omega
    | leopardGF16 =>
      rw [hfamily] at htotal
      change ¬65536 < _ at htotal
      omega
  · simp only [withCustomMatrix] at h
    split_ifs at h with hd hp hmax htotal hfamily
    obtain ⟨_, _, h⟩ := Outcome.bind_eq_ok.mp h
    split_ifs at h
    obtain rfl := Outcome.ok.inj h
    rw [not_not] at hfamily
    simp [isLeopardFamily, hfamily] at hleopard

theorem divCeil_mul (a b : Nat) : divCeil a b * b = roundUp a b := rfl

/-- The length of a split shard: the padded payload stays inside `usize`. -/
theorem IsBuilt.shardLen_spec (h : codec.IsBuilt)
    (hcount : codec.dataShardCount < sliceLimit) {data : List E}
    (hdata : data.length < sliceLimit) (hne : codec.isLeopardFamily = false → data ≠ []) :
    let shardLen := if codec.isLeopardFamily then
      leopardAlignedShardLen data.length codec.dataShardCount
      else divCeil data.length codec.dataShardCount
    0 < shardLen ∧ (codec.isLeopardFamily = true → 64 ∣ shardLen) ∧
      data.length ≤ codec.dataShardCount * shardLen ∧
      codec.dataShardCount * shardLen < usizeLimit := by
  have hpos := h.dataShards_pos
  have hge := le_roundUp data.length hpos
  have hlt := roundUp_lt data.length hpos
  rw [← divCeil_mul, Nat.mul_comm] at hge hlt
  have hlimit : usizeLimit = 2 ^ 64 := rfl
  have hslice : sliceLimit = 2 ^ 63 := rfl
  cases hfamily : codec.isLeopardFamily with
  | false =>
    simp only [Bool.false_eq_true, if_false, false_imp_iff, true_and]
    refine ⟨?_, hge, by omega⟩
    by_contra h0
    rw [Nat.eq_zero_of_not_pos h0, Nat.mul_zero] at hge
    exact hne hfamily (List.length_eq_zero_iff.mp (Nat.le_zero.mp hge))
  | true =>
    have hn := h.leopard_le hfamily
    obtain ⟨need, hdef⟩ : ∃ need, need = divCeil data.length codec.dataShardCount := ⟨_, rfl⟩
    have hneed : need ≤ data.length := by
      rw [hdef]
      exact divCeil_le hpos
    have hup := roundUp_lt need (m := 64) (by decide)
    have hup' := le_roundUp need (m := 64) (by decide)
    have hdvd := dvd_roundUp need 64
    simp only [if_true, leopardAlignedShardLen_eq (show data.length < usizeLimit by omega),
      Nat.max_eq_left (show 1 ≤ codec.dataShardCount from hpos), ← hdef, true_imp_iff] at hge hlt ⊢
    rw [if_pos (by omega)]
    have hlow := Nat.mul_le_mul_left codec.dataShardCount
      (show need ≤ max (roundUp need 64) 64 by omega)
    have hhigh := Nat.mul_le_mul_left codec.dataShardCount
      (show max (roundUp need 64) 64 ≤ need + 64 by omega)
    rw [Nat.mul_add] at hhigh
    refine ⟨by omega, ?_, by omega, by omega⟩
    rcases Nat.le_total 64 (roundUp need 64) with hle | hle
    · rwa [Nat.max_eq_left hle]
    · rw [Nat.max_eq_right hle]

/-- Splitting and joining are inverse, and the aligned length is the least one
that holds its share. -/
theorem split_join_inverse (h : codec.IsBuilt)
    (hcount : codec.dataShardCount < sliceLimit) :
    (∀ data : List E, data.length < sliceLimit → (codec.isLeopardFamily = false → data ≠ []) →
      ∃ shards len, codec.split data = .ok shards ∧ shards.length = codec.dataShardCount ∧ 0 < len ∧
        (∀ shard ∈ shards, shard.length = len) ∧
        (codec.isLeopardFamily = true → 64 ∣ len ∧ validateLeopardShardLen len = .ok ()) ∧
        shards.flatten =
          data ++ List.replicate (codec.dataShardCount * len - data.length) zero ∧
        codec.join shards data.length = .ok data) ∧
    (∀ (shards : List (List E)) (len outLen : Nat), shards.length = codec.dataShardCount → 0 < len →
      (∀ shard ∈ shards, shard.length = len) → outLen < usizeLimit →
      codec.join shards outLen =
        .ok (shards.flatten.take (min outLen (codec.dataShardCount * len)))) ∧
    ∀ len shards : Nat, len < usizeLimit → shards < usizeLimit →
      0 < leopardAlignedShardLen len shards ∧ 64 ∣ leopardAlignedShardLen len shards ∧
      ((∃ k, 64 ∣ k ∧ divCeil len (max shards 1) ≤ k ∧ k < usizeLimit) →
        IsLeast {k | 64 ∣ k ∧ 0 < k ∧ divCeil len (max shards 1) ≤ k}
          (leopardAlignedShardLen len shards)) ∧
      ((¬∃ k, 64 ∣ k ∧ divCeil len (max shards 1) ≤ k ∧ k < usizeLimit) →
        IsGreatest {k | 64 ∣ k ∧ k < usizeLimit} (leopardAlignedShardLen len shards)) := by
  have hpos := h.dataShards_pos
  refine ⟨fun data hdata hne => ?_, fun shards len outLen hlength hlen hall hout => ?_, ?_⟩
  · obtain ⟨hlen, hdvd, hcover, hend⟩ := h.shardLen_spec hcount hdata hne
    obtain ⟨shards, hsplit, hlength, hall, hflat⟩ := mapM_splitShard hcover hend
    refine ⟨shards, _, hsplit, hlength, hlen, hall, fun hleopard => ?_, hflat, ?_⟩
    · exact ⟨hdvd hleopard, validateLeopardShardLen_eq hlen (hdvd hleopard)⟩
    · have hlimit : sliceLimit < usizeLimit := by decide
      rw [join_eq hlength hpos hlen hall (by omega), Nat.min_eq_left hcover, hflat,
        List.take_left]
  · exact join_eq hlength hpos hlen hall hout
  · intro len shards hlen _
    obtain ⟨need, hdef⟩ : ∃ need, need = divCeil len (max shards 1) := ⟨_, rfl⟩
    have hneed : need < usizeLimit := by
      rw [hdef]
      exact lt_of_le_of_lt (divCeil_le (by omega)) hlen
    have hlimit : usizeLimit = 2 ^ 64 := rfl
    have hup := le_roundUp need (m := 64) (by decide)
    have hmax : 64 ∣ max (roundUp need 64) 64 := by
      rcases Nat.le_total 64 (roundUp need 64) with hle | hle
      · rw [Nat.max_eq_left hle]
        exact dvd_roundUp need 64
      · rw [Nat.max_eq_right hle]
    rw [leopardAlignedShardLen_eq hlen, ← hdef]
    by_cases hfits : roundUp need 64 < usizeLimit
    · rw [if_pos hfits]
      refine ⟨by omega, hmax, fun _ => ?_, fun hnone => ?_⟩
      · refine ⟨⟨hmax, by omega, by omega⟩, ?_⟩
        intro k ⟨hk, hk0, hle⟩
        exact max_le (roundUp_le (by decide) hk hle) (Nat.le_of_dvd hk0 hk)
      · exact absurd ⟨_, dvd_roundUp need 64, hup, hfits⟩ hnone
    · rw [if_neg hfits]
      refine ⟨by omega, by omega, fun hsome => ?_, fun _ => ⟨⟨by omega, by omega⟩, ?_⟩⟩
      · obtain ⟨k, hk, hle, hlt⟩ := hsome
        have := roundUp_le (by decide) hk hle
        omega
      · intro k ⟨hk, hlt⟩
        omega

theorem split_join_inverse_sample :
    (∃ shards, sampleCodec.split [1#8, 2#8, 3#8] = .ok shards ∧
      sampleCodec.join shards 3 = .ok [1#8, 2#8, 3#8]) ∧
    sampleCodec.join [[1#8, 2#8], [3#8, 0#8]] 9 = .ok [1#8, 2#8, 3#8, 0#8] := by
  have hcount : sampleCodec.dataShardCount < sliceLimit := by decide
  have hinverse := split_join_inverse sampleCodec_isClassic.2 hcount
  constructor
  · obtain ⟨shards, _, hsplit, -, -, -, -, -, hjoin⟩ :=
      hinverse.1 [1#8, 2#8, 3#8] (by decide) (fun _ => by simp)
    exact ⟨shards, hsplit, hjoin⟩
  · exact hinverse.2.1 [[1#8, 2#8], [3#8, 0#8]] 2 9 rfl (by decide) (by decide) (by decide)

end Inverse

end ReedSolomon

end ErasureCodec
