import ErasureCodec.Leopard.Encode

namespace ErasureCodec

namespace Leopard

variable {w : Nat}

section Definitions

/-- `u8::from(!present)` and its 16-bit sibling. -/
def absentFlag (present : Bool) : BitVec w := if present then 0#w else 1#w

/-- The erasures in the coordinates of the GF8 decoder: parity, padding, data. -/
def markAbsent (present : List Bool) (driver : DecodeDriver) : List (BitVec w) :=
  let errLocs := List.replicate (order w) 0#w
  let errLocs := (List.range driver.parityShards).foldl (fun errLocs i =>
    errLocs.set i (absentFlag (present.getD (driver.dataShards + i) false))) errLocs
  let errLocs := (List.range' driver.parityShards (driver.m - driver.parityShards)).foldl
    (fun errLocs i => errLocs.set i 1#w) errLocs
  (List.range driver.dataShards).foldl (fun errLocs i =>
    errLocs.set (driver.m + i) (absentFlag (present.getD i false))) errLocs

/-- The erasures from the lists of missing shards of the GF16 decoder. -/
def markMissing (missingParity missingData : List Nat) (driver : DecodeDriver) : List (BitVec w) :=
  let errLocs := List.replicate (order w) 0#w
  let errLocs := missingParity.foldl (fun errLocs shardIdx =>
    errLocs.set (shardIdx - driver.dataShards) 1#w) errLocs
  let errLocs := (List.range' driver.parityShards (driver.m - driver.parityShards)).foldl
    (fun errLocs i => errLocs.set i 1#w) errLocs
  missingData.foldl (fun errLocs shardIdx => errLocs.set (driver.m + shardIdx) 1#w) errLocs

/-- The product by a Walsh transform of the logarithms; zeros are skipped. -/
def walshProduct (logWalsh errLocs : List (BitVec w)) : List (BitVec w) :=
  (List.range (order w)).foldl (fun errLocs i =>
    if errLocs.getD i 0#w = 0#w then errLocs
    else errLocs.set i (BitVec.ofNat w
      ((errLocs.getD i 0#w).toNat * (logWalsh.getD i 0#w).toNat % modulus w))) errLocs

/-- The two transforms around the product. -/
def walshLocs (wordBits : Nat) (tables : Tables w) (workSize : Nat) (errLocs : List (BitVec w)) :
    List (BitVec w) :=
  fwhtVariable wordBits
    (walshProduct tables.logWalsh (fwhtMtrunc wordBits (order w) workSize errLocs))

/-- `compute_error_locs`. -/
def computeErrorLocs (present : List Bool) (driver : DecodeDriver) (tables : Tables 8) :
    List (BitVec 8) :=
  walshLocs gf8Params.wordBits tables driver.workSize (markAbsent present driver)

/-- `compute_error_locs16`. -/
def computeErrorLocs16 (missingParity missingData : List Nat) (driver : DecodeDriver)
    (tables : Tables 16) : List (BitVec 16) :=
  walshLocs gf16Params.wordBits tables driver.workSize
    (markMissing missingParity missingData driver)

def sparseLocatorMaxWorkSize : Nat := 256

def sparseLocatorMaxTerms : Nat := 16

/-- `fill_sparse_error_locs16`; the sums are `u32`. -/
def fillSparseErrorLocs16 (missingParity missingData : List Nat) (driver : DecodeDriver)
    (tables : Tables 16) : List (BitVec 16) :=
  (List.range driver.workSize).map fun i =>
    let sum := missingParity.foldl (fun sum shardIdx =>
      (sum + (tables.logLut.getD (i ^^^ (shardIdx - driver.dataShards)) 0#16).toNat) % 2 ^ 32) 0
    let sum := (List.range' driver.parityShards (driver.m - driver.parityShards)).foldl
      (fun sum pos => (sum + (tables.logLut.getD (i ^^^ pos) 0#16).toNat) % 2 ^ 32) sum
    let sum := missingData.foldl (fun sum shardIdx =>
      (sum + (tables.logLut.getD (i ^^^ (driver.m + shardIdx)) 0#16).toNat) % 2 ^ 32) sum
    BitVec.ofNat 16 (sum % modulus 16)

/-- The sentinel of a present shard whose locator is zero. -/
def markIdentity (present : List Bool) (driver : DecodeDriver) (locs : List (BitVec 16)) :
    List (BitVec 16) :=
  let sentinel := BitVec.ofNat 16 (modulus 16)
  let locs := ((present.take driver.dataShards).zipIdx).foldl (fun locs p =>
    if p.1 ∧ locs.getD (driver.m + p.2) 0#16 = 0#16 then locs.set (driver.m + p.2) sentinel
    else locs) locs
  (((present.drop driver.dataShards).take driver.parityShards).zipIdx).foldl (fun locs p =>
    if p.1 ∧ locs.getD p.2 0#16 = 0#16 then locs.set p.2 sentinel else locs) locs

/-- The locator of `build_decode_plan`. -/
def errorLocs16 (driver : DecodeDriver) (present : List Bool) (missingParity missingData : List Nat)
    (tables : Tables 16) : List (BitVec 16) :=
  let terms := missingParity.length + missingData.length + (driver.m - driver.parityShards)
  if driver.workSize ≤ sparseLocatorMaxWorkSize ∧ terms ≤ sparseLocatorMaxTerms then
    markIdentity present driver (fillSparseErrorLocs16 missingParity missingData driver tables)
  else (computeErrorLocs16 missingParity missingData driver tables).take driver.workSize

/-- The missing shards of a range of indexes. -/
def missingIn (present : List Bool) (start count : Nat) : List Nat :=
  (List.range' start count).filter fun i => !present.getD i false

end Definitions

section Erasures

/-- The erased positions: missing parity, padding and missing data. -/
def Erased (present : List Bool) (dataShards parityShards m j : Nat) : Prop :=
  (j < parityShards ∧ present.getD (dataShards + j) false = false) ∨ (parityShards ≤ j ∧ j < m) ∨
    (m ≤ j ∧ j < m + dataShards ∧ present.getD (j - m) false = false)

instance (present : List Bool) (dataShards parityShards m : Nat) :
    DecidablePred (Erased present dataShards parityShards m) :=
  fun _ => inferInstanceAs (Decidable (_ ∨ _ ∨ _))

/-- The erased positions as a set. -/
def erasures (present : List Bool) (dataShards parityShards m : Nat) : Finset Nat :=
  (Finset.range (m + dataShards)).filter (Erased present dataShards parityShards m)

variable {present : List Bool} {dataShards parityShards m : Nat}

theorem mem_erasures {j : Nat} (hm : parityShards ≤ m) :
    j ∈ erasures present dataShards parityShards m ↔ Erased present dataShards parityShards m j := by
  unfold erasures
  rw [Finset.mem_filter, Finset.mem_range]
  refine ⟨fun h => h.2, fun h => ⟨?_, h⟩⟩
  rcases h with ⟨h, -⟩ | ⟨-, h⟩ | ⟨-, h, -⟩ <;> omega

/-- The flag of a position. -/
def flag (present : List Bool) (dataShards parityShards m j : Nat) : BitVec w :=
  if Erased present dataShards parityShards m j then 1#w else 0#w

theorem absentFlag_eq {here : Bool} {j : Nat}
    (h : Erased present dataShards parityShards m j ↔ here = false) :
    (absentFlag here : BitVec w) = flag present dataShards parityShards m j := by
  unfold absentFlag flag
  cases here with
  | false => rw [if_neg (by decide), if_pos (h.mpr rfl)]
  | true => rw [if_pos rfl, if_neg (fun he => by simpa using h.mp he)]

/-- Stores that agree with the flags. -/
theorem store_flags {ι : Type*} (tasks : List ι) (pos : ι → Nat) (value : ι → BitVec w)
    (target : Nat → BitVec w) {n : Nat} {errLocs : List (BitVec w)} (hlen : errLocs.length = n)
    (hval : ∀ t ∈ tasks, value t = target (pos t)) :
    let stored := tasks.foldl (fun errLocs t => errLocs.set (pos t) (value t)) errLocs
    stored.length = n ∧ ∀ j, j < n →
      ((∃ t ∈ tasks, pos t = j) → stored.getD j 0#w = target j) ∧
      ((∀ t ∈ tasks, ¬pos t = j) → stored.getD j 0#w = errLocs.getD j 0#w) := by
  apply foldl_cover (fun l : List (BitVec w) => l.length = n) (fun j => j < n)
    (fun l j => l.getD j 0#w) target (fun t j => pos t = j) _ tasks errLocs hlen
  intro t ht u hu
  refine ⟨by rw [List.length_set, hu], fun j hj => ⟨?_, ?_⟩⟩
  · rintro rfl
    rw [getD_set, if_pos ⟨rfl, by rw [hu]; exact hj⟩, hval t ht]
  · intro hne
    rw [getD_set, if_neg (fun h => hne h.1)]

/-- Three loops of stores that cover the erasures set the flags. -/
theorem three_stores {ι : Type*} (first third : List ι) (pos1 pos3 : ι → Nat)
    (value1 value3 : ι → BitVec w)
    (h1 : ∀ t ∈ first, value1 t = flag present dataShards parityShards m (pos1 t))
    (h3 : ∀ t ∈ third, value3 t = flag present dataShards parityShards m (pos3 t))
    (hcover : ∀ j, Erased present dataShards parityShards m j →
      (∃ t ∈ first, pos1 t = j) ∨ (parityShards ≤ j ∧ j < m) ∨ ∃ t ∈ third, pos3 t = j) :
    let marked := third.foldl (fun errLocs t => errLocs.set (pos3 t) (value3 t))
      ((List.range' parityShards (m - parityShards)).foldl (fun errLocs i => errLocs.set i 1#w)
        (first.foldl (fun errLocs t => errLocs.set (pos1 t) (value1 t))
          (List.replicate (order w) 0#w)))
    marked.length = 2 ^ w ∧ ∀ j, j < 2 ^ w →
      marked.getD j 0#w = flag present dataShards parityShards m j := by
  have hzero : (List.replicate (order w) 0#w).length = 2 ^ w := List.length_replicate
  obtain ⟨hl1, hc1⟩ := store_flags first pos1 value1 (flag present dataShards parityShards m) hzero h1
  obtain ⟨hl2, hc2⟩ := store_flags (List.range' parityShards (m - parityShards)) id (fun _ => 1#w)
    (flag present dataShards parityShards m) hl1 (by
      intro i hi
      have hr := List.mem_range'_1.mp hi
      unfold flag
      rw [if_pos (.inr (.inl ⟨hr.1, by simp only [id]; omega⟩))])
  obtain ⟨hl3, hc3⟩ := store_flags third pos3 value3 (flag present dataShards parityShards m) hl2 h3
  refine ⟨hl3, fun j hj => ?_⟩
  by_cases hthird : ∃ t ∈ third, pos3 t = j
  · exact (hc3 j hj).1 hthird
  push Not at hthird
  refine ((hc3 j hj).2 hthird).trans ?_
  by_cases hsecond : parityShards ≤ j ∧ j < m
  · exact (hc2 j hj).1 ⟨j, List.mem_range'_1.mpr (by omega), rfl⟩
  refine ((hc2 j hj).2 (fun i hi h => hsecond ?_)).trans ?_
  · have hr := List.mem_range'_1.mp hi
    simp only [id] at h
    omega
  by_cases hfirst : ∃ t ∈ first, pos1 t = j
  · exact (hc1 j hj).1 hfirst
  push Not at hfirst
  rw [(hc1 j hj).2 hfirst, List.getD_eq_getElem?_getD, List.getElem?_getD_replicate_default_eq]
  unfold flag
  rw [if_neg]
  intro herased
  rcases hcover j herased with ⟨t, ht, h⟩ | h | ⟨t, ht, h⟩
  · exact hfirst t ht h
  · exact hsecond h
  · exact hthird t ht h

theorem markAbsent_spec (present : List Bool) {driver : DecodeDriver} (hm : driver.parityShards ≤ driver.m) :
    (markAbsent present driver : List (BitVec w)).length = 2 ^ w ∧ ∀ j, j < 2 ^ w →
      (markAbsent present driver).getD j 0#w =
        flag present driver.dataShards driver.parityShards driver.m j := by
  apply three_stores (List.range driver.parityShards) (List.range driver.dataShards) id
    (fun i => driver.m + i)
    (fun i => absentFlag (present.getD (driver.dataShards + i) false))
    (fun i => absentFlag (present.getD i false))
  · intro i hi
    have hlt := List.mem_range.mp hi
    apply absentFlag_eq
    unfold Erased
    simp only [id]
    constructor
    · rintro (h | h | h)
      · exact h.2
      · omega
      · omega
    · exact fun hp => .inl ⟨hlt, hp⟩
  · intro i hi
    have hlt := List.mem_range.mp hi
    apply absentFlag_eq
    unfold Erased
    rw [Nat.add_sub_cancel_left]
    constructor
    · rintro (h | h | h)
      · omega
      · omega
      · exact h.2.2
    · exact fun hp => .inr (.inr ⟨by omega, by omega, hp⟩)
  · rintro j (⟨hlt, -⟩ | h | ⟨hge, hlt, -⟩)
    · exact .inl ⟨j, List.mem_range.mpr hlt, rfl⟩
    · exact .inr (.inl h)
    · exact .inr (.inr ⟨j - driver.m, List.mem_range.mpr (by omega), by omega⟩)

theorem mem_missingIn {start count i : Nat} :
    i ∈ missingIn present start count ↔
      start ≤ i ∧ i < start + count ∧ present.getD i false = false := by
  unfold missingIn
  rw [List.mem_filter, List.mem_range'_1, Bool.not_eq_true']
  tauto

/-- Lists of the missing shards of a pattern. -/
structure MissingLists (present : List Bool) (driver : DecodeDriver)
    (missingParity missingData : List Nat) : Prop where
  mem_parity : ∀ i, i ∈ missingParity ↔ driver.dataShards ≤ i ∧
    i < driver.dataShards + driver.parityShards ∧ present.getD i false = false
  mem_data : ∀ i, i ∈ missingData ↔ i < driver.dataShards ∧ present.getD i false = false
  nodup_parity : missingParity.Nodup
  nodup_data : missingData.Nodup

theorem nodup_missingIn (start count : Nat) : (missingIn present start count).Nodup :=
  List.Nodup.filter _ List.nodup_range'

theorem missingLists_missingIn (present : List Bool) (driver : DecodeDriver) :
    MissingLists present driver (missingIn present driver.dataShards driver.parityShards)
      (missingIn present 0 driver.dataShards) where
  mem_parity _ := mem_missingIn
  mem_data i := by
    rw [mem_missingIn]
    simp
  nodup_parity := nodup_missingIn _ _
  nodup_data := nodup_missingIn _ _

theorem markMissing_spec {driver : DecodeDriver} {missingParity missingData : List Nat}
    (h : MissingLists present driver missingParity missingData) :
    (markMissing missingParity missingData driver : List (BitVec w)).length = 2 ^ w ∧
    ∀ j, j < 2 ^ w → (markMissing missingParity missingData driver).getD j 0#w =
      flag present driver.dataShards driver.parityShards driver.m j := by
  apply three_stores _ _ (fun i => i - driver.dataShards) (fun i => driver.m + i) (fun _ => 1#w)
    (fun _ => 1#w)
  · intro i hi
    obtain ⟨hge, hlt, hp⟩ := (h.mem_parity i).mp hi
    refine (if_pos (.inl ⟨by omega, ?_⟩)).symm
    rw [show driver.dataShards + (i - driver.dataShards) = i by omega]
    exact hp
  · intro i hi
    obtain ⟨hlt, hp⟩ := (h.mem_data i).mp hi
    refine (if_pos (.inr (.inr ⟨by omega, by omega, ?_⟩))).symm
    rw [Nat.add_sub_cancel_left]
    exact hp
  · rintro j (⟨hlt, hp⟩ | hpad | ⟨hge, hlt, hp⟩)
    · exact .inl ⟨driver.dataShards + j, (h.mem_parity _).mpr ⟨by omega, by omega, hp⟩, by omega⟩
    · exact .inr (.inl hpad)
    · exact .inr (.inr ⟨j - driver.m, (h.mem_data _).mpr ⟨by omega, hp⟩, by omega⟩)

end Erasures

section Values

variable {K : Kernel w}

/-- The logarithms of the products of point differences, up to multiples of the
group order. -/
def IsLocator (K : Kernel w) (E : Finset Nat) (n : Nat) (errLocs : List (BitVec w)) : Prop :=
  ∀ i, i < n → K.lawful.lfsr.gen ^ (errLocs.getD i 0#w).toNat =
    ∏ e ∈ E.erase i, (K.lawful.points.point i + K.lawful.points.point e)

theorem gen_residue {errLocs : List (BitVec w)} {i n : Nat}
    (h : residue errLocs i = (n : ZMod (modulus w))) :
    K.lawful.lfsr.gen ^ (errLocs.getD i 0#w).toNat = K.lawful.lfsr.gen ^ n := by
  have hmod := (ZMod.natCast_eq_natCast_iff _ _ _).mp h
  rw [← K.lawful.lfsr.gen_pow_mod, ← K.lawful.lfsr.gen_pow_mod n]
  exact congrArg _ hmod

/-- The logarithm at the difference of two positions. -/
theorem gen_log_xor {i e : Nat} (hi : i < 2 ^ w) (he : e < 2 ^ w) :
    K.lawful.lfsr.gen ^ logAt K.params (i ^^^ e) =
      if e = i then 1 else K.lawful.points.point i + K.lawful.points.point e := by
  obtain ⟨-, hzero, hlog⟩ := initLogLut_spec K.lawful
  split_ifs with heq
  · rw [heq, Nat.xor_self, hzero]
    exact K.lawful.lfsr.gen_pow_period
  · have hne : i ^^^ e ≠ 0 := fun h => heq (Nat.xor_eq_zero_iff.mp h).symm
    rw [(hlog _ (Nat.xor_lt_two_pow hi he) hne).2, K.lawful.points.point_xor i e hi he]

/-- The sum of the logarithms is the logarithm of the product. -/
theorem gen_sum_log {E : Finset Nat} (hE : ∀ e ∈ E, e < 2 ^ w) {i : Nat} (hi : i < 2 ^ w) :
    K.lawful.lfsr.gen ^ (∑ e ∈ E, logAt K.params (i ^^^ e)) =
      ∏ e ∈ E.erase i, (K.lawful.points.point i + K.lawful.points.point e) := by
  rw [Finset.prod_pow_eq_pow_sum .. |>.symm]
  have hterm : ∀ e ∈ E, K.lawful.lfsr.gen ^ logAt K.params (i ^^^ e) =
      if e = i then 1 else K.lawful.points.point i + K.lawful.points.point e :=
    fun e he => gen_log_xor hi (hE e he)
  rw [Finset.prod_congr rfl hterm]
  symm
  apply Finset.prod_subset_one_on_sdiff (Finset.erase_subset _ _)
  · intro e he
    obtain ⟨hin, hout⟩ := Finset.mem_sdiff.mp he
    have heq : e = i := by
      by_contra hne
      exact hout (Finset.mem_erase.mpr ⟨hne, hin⟩)
    rw [if_pos heq]
  · intro e he
    rw [if_neg (Finset.mem_erase.mp he).1]

theorem walshProduct_spec (logWalsh : List (BitVec w)) {errLocs : List (BitVec w)} (hw : 0 < w)
    (hlen : errLocs.length = 2 ^ w) :
    (walshProduct logWalsh errLocs).length = 2 ^ w ∧ ∀ i, i < 2 ^ w →
      residue (walshProduct logWalsh errLocs) i = residue errLocs i * residue logWalsh i := by
  obtain ⟨hmod, hpos⟩ := modulus_add_one hw
  have hrun := foldl_range_inv (fun t u => u.length = 2 ^ w ∧ ∀ i, i < 2 ^ w → residue u i =
      if i < t then residue errLocs i * residue logWalsh i else residue errLocs i)
    (fun errLocs i => if errLocs.getD i 0#w = 0#w then errLocs
      else errLocs.set i (BitVec.ofNat w
        ((errLocs.getD i 0#w).toNat * (logWalsh.getD i 0#w).toNat % modulus w)))
    (2 ^ w) errLocs ⟨hlen, fun i _ => by rw [if_neg (by omega)]⟩
    (by
      intro t ht u ⟨hu, hres⟩
      have hold := hres t ht
      rw [if_neg (by omega)] at hold
      have hother (i : Nat) (hit : i ≠ t) (hi : i < 2 ^ w) : residue u i =
          if i < t + 1 then residue errLocs i * residue logWalsh i else residue errLocs i := by
        rw [hres i hi]
        by_cases hlt : i < t
        · rw [if_pos hlt, if_pos (by omega)]
        · rw [if_neg hlt, if_neg (by omega)]
      split_ifs with hzero
      · refine ⟨hu, fun i hi => ?_⟩
        by_cases hit : i = t
        · have hz : residue errLocs t = 0 := by
            rw [← hold]
            unfold residue
            rw [hzero]
            simp
          rw [hit, hold, if_pos (by omega), hz, zero_mul]
        · exact hother i hit hi
      · refine ⟨by rw [List.length_set, hu], fun i hi => ?_⟩
        rw [residue_set _ _ _ (by rw [hu]; exact ht)]
        by_cases hit : i = t
        · have hlt := Nat.mod_lt ((u.getD t 0#w).toNat * (logWalsh.getD t 0#w).toNat) hpos
          rw [if_pos hit, if_pos (by omega), toNat_ofNat_of_lt (by omega), ZMod.natCast_mod,
            Nat.cast_mul, hit, ← hold]
          rfl
        · rw [if_neg hit]
          exact hother i hit hi)
  refine ⟨hrun.1, fun i hi => ?_⟩
  have hfinal := hrun.2 i hi
  rwa [if_pos hi] at hfinal

theorem two_pow_residue (hw : 0 < w) : (2 ^ w : ZMod (modulus w)) = 1 := by
  obtain ⟨hmod, -⟩ := modulus_add_one hw
  have hcast : ((2 ^ w : Nat) : ZMod (modulus w)) = ((modulus w + 1 : Nat) : ZMod (modulus w)) := by
    rw [hmod]
  push_cast at hcast
  rw [hcast, ZMod.natCast_self, zero_add]

/-- The transforms of the flags sum the logarithms at the erasures. -/
theorem walshLocs_residue {present : List Bool} {dataShards parityShards m : Nat}
    (hm : parityShards ≤ m) (hwork : m + dataShards ≤ 2 ^ w) {errLocs : List (BitVec w)}
    (hlen : errLocs.length = 2 ^ w)
    (hflag : ∀ j, j < 2 ^ w → errLocs.getD j 0#w = flag present dataShards parityShards m j) :
    (walshLocs K.params.wordBits K.tables (m + dataShards) errLocs).length = 2 ^ w ∧
      ∀ i, i < 2 ^ w → residue (walshLocs K.params.wordBits K.tables (m + dataShards) errLocs) i =
        ((∑ e ∈ erasures present dataShards parityShards m, logAt K.params (i ^^^ e) : Nat) :
          ZMod (modulus w)) := by
  have hw := K.lawful.lfsr.pos
  have hE : ∀ e ∈ erasures present dataShards parityShards m, e < 2 ^ w := by
    intro e he
    have := Finset.mem_range.mp (Finset.mem_filter.mp he).1
    omega
  have hres (j : Nat) (hj : j < 2 ^ w) : residue errLocs j =
      if j ∈ erasures present dataShards parityShards m then 1 else 0 := by
    unfold residue
    rw [hflag j hj]
    unfold flag
    by_cases he : Erased present dataShards parityShards m j
    · rw [if_pos he, if_pos ((mem_erasures hm).mpr he), BitVec.toNat_ofNat,
        Nat.mod_eq_of_lt (Nat.one_lt_two_pow (by omega)), Nat.cast_one]
    · rw [if_neg he, if_neg (fun h => he ((mem_erasures hm).mp h)), BitVec.toNat_ofNat, Nat.zero_mod,
        Nat.cast_zero]
  obtain ⟨hl1, hf1, -⟩ := fwhtMtrunc_spec hw K.even K.lawful.wordBits_ge hwork hlen (by
    intro j hge hj
    rw [hres j hj, if_neg]
    intro he
    have := Finset.mem_range.mp (Finset.mem_filter.mp he).1
    omega)
  obtain ⟨-, hlog⟩ := initLogWalsh_spec K.lawful K.even
  obtain ⟨hl2, hf2⟩ := walshProduct_spec K.tables.logWalsh hw hl1
  obtain ⟨hl3, hf3⟩ := fwhtVariable_spec hw K.lawful.wordBits_ge hl2
  refine ⟨hl3, fun i hi => ?_⟩
  have hprod : ∀ j, j < 2 ^ w → residue (walshProduct K.tables.logWalsh
      (fwhtMtrunc K.params.wordBits (order w) (m + dataShards) errLocs)) j =
      Walsh.transform w (residue errLocs) j *
        Walsh.transform w (fun i => (logAt K.params i : ZMod (modulus w))) j := by
    intro j hj
    rw [hf2 j hj, hf1 j hj]
    congr 1
    exact hlog j hj
  refine (hf3 i hi).trans ?_
  rw [Walsh.transform_congr w hprod hi, Walsh.transform_mul w _ _ hi, two_pow_residue hw, one_mul]
  unfold Walsh.xorConv
  rw [Nat.cast_sum, ← Finset.sum_filter_add_sum_filter_not (Finset.range (2 ^ w))
    (fun e => e ∈ erasures present dataShards parityShards m)]
  have hzero : ∑ e ∈ (Finset.range (2 ^ w)).filter
      (fun e => ¬e ∈ erasures present dataShards parityShards m),
      residue errLocs e * (logAt K.params (i ^^^ e) : ZMod (modulus w)) = 0 := by
    apply Finset.sum_eq_zero
    intro e he
    obtain ⟨hr, hout⟩ := Finset.mem_filter.mp he
    rw [hres e (Finset.mem_range.mp hr), if_neg hout, zero_mul]
  have hsub : (Finset.range (2 ^ w)).filter
      (fun e => e ∈ erasures present dataShards parityShards m) =
      erasures present dataShards parityShards m := by
    ext e
    rw [Finset.mem_filter, Finset.mem_range]
    exact ⟨fun h => h.2, fun h => ⟨hE e h, h⟩⟩
  rw [hzero, add_zero, hsub]
  apply Finset.sum_congr rfl
  intro e he
  rw [hres e (hE e he), if_pos he, one_mul]

theorem erasures_lt {present : List Bool} {dataShards parityShards m n : Nat}
    (hwork : m + dataShards ≤ n) :
    ∀ e ∈ erasures present dataShards parityShards m, e < n := by
  intro e he
  have := Finset.mem_range.mp (Finset.mem_filter.mp he).1
  omega

theorem tables_log (K : Kernel w) (j : Nat) :
    (K.tables.logLut.getD j 0#w).toNat = logAt K.params j := rfl

/-- The transforms of the flags, as integers. -/
theorem walshLocs_modEq {present : List Bool} {dataShards parityShards m : Nat}
    (hm : parityShards ≤ m) (hwork : m + dataShards ≤ 2 ^ w) {errLocs : List (BitVec w)}
    (hlen : errLocs.length = 2 ^ w)
    (hflag : ∀ j, j < 2 ^ w → errLocs.getD j 0#w = flag present dataShards parityShards m j)
    {i : Nat} (hi : i < 2 ^ w) :
    ((walshLocs K.params.wordBits K.tables (m + dataShards) errLocs).getD i 0#w).toNat ≡
      ∑ e ∈ erasures present dataShards parityShards m,
        (K.tables.logLut.getD (i ^^^ e) 0#w).toNat [MOD modulus w] := by
  simp only [tables_log]
  exact (ZMod.natCast_eq_natCast_iff _ _ _).mp ((walshLocs_residue hm hwork hlen hflag).2 i hi)

/-- The transforms of the flags give the locator of the erasures. -/
theorem walshLocs_spec {present : List Bool} {dataShards parityShards m : Nat}
    (hm : parityShards ≤ m) (hwork : m + dataShards ≤ 2 ^ w) {errLocs : List (BitVec w)}
    (hlen : errLocs.length = 2 ^ w)
    (hflag : ∀ j, j < 2 ^ w → errLocs.getD j 0#w = flag present dataShards parityShards m j) :
    (walshLocs K.params.wordBits K.tables (m + dataShards) errLocs).length = 2 ^ w ∧
      IsLocator K (erasures present dataShards parityShards m) (2 ^ w)
        (walshLocs K.params.wordBits K.tables (m + dataShards) errLocs) := by
  obtain ⟨hlength, hres⟩ := walshLocs_residue (K := K) hm hwork hlen hflag
  refine ⟨hlength, fun i hi => ?_⟩
  rw [← gen_sum_log (erasures_lt hwork) hi]
  exact gen_residue (hres i hi)

end Values

section Sparse

variable {present : List Bool} {driver : DecodeDriver}

/-- The erased positions in the order of the loops. -/
def erasedPositions (missingParity missingData : List Nat) (driver : DecodeDriver) : List Nat :=
  missingParity.map (fun i => i - driver.dataShards) ++
    List.range' driver.parityShards (driver.m - driver.parityShards) ++
    missingData.map fun i => driver.m + i

theorem erasedPositions_spec {missingParity missingData : List Nat}
    (h : MissingLists present driver missingParity missingData)
    (hm : driver.parityShards ≤ driver.m) :
    (erasedPositions missingParity missingData driver).Nodup ∧
      (erasedPositions missingParity missingData driver).toFinset =
        erasures present driver.dataShards driver.parityShards driver.m := by
  constructor
  · unfold erasedPositions
    rw [List.nodup_append, List.nodup_append]
    refine ⟨⟨?_, List.nodup_range', ?_⟩, ?_, ?_⟩
    · apply h.nodup_parity.map_on
      intro a ha b hb hab
      have h1 := ((h.mem_parity a).mp ha).1
      have h2 := ((h.mem_parity b).mp hb).1
      omega
    · intro a ha b hb
      obtain ⟨i, hi, rfl⟩ := List.mem_map.mp ha
      have h1 := (h.mem_parity i).mp hi
      have h2 := List.mem_range'_1.mp hb
      omega
    · apply h.nodup_data.map_on
      intro a _ b _ hab
      omega
    · intro a ha b hb
      obtain ⟨i, hi, rfl⟩ := List.mem_map.mp hb
      rcases List.mem_append.mp ha with ha | ha
      · obtain ⟨i', hi', rfl⟩ := List.mem_map.mp ha
        have h1 := (h.mem_parity i').mp hi'
        omega
      · have h2 := List.mem_range'_1.mp ha
        omega
  · ext j
    rw [List.mem_toFinset, mem_erasures hm]
    unfold erasedPositions
    rw [List.mem_append, List.mem_append, List.mem_map, List.mem_map, List.mem_range'_1]
    constructor
    · rintro ((⟨i, hi, rfl⟩ | hpad) | ⟨i, hi, rfl⟩)
      · obtain ⟨hge, hlt, hp⟩ := (h.mem_parity i).mp hi
        refine .inl ⟨by omega, ?_⟩
        rwa [show driver.dataShards + (i - driver.dataShards) = i by omega]
      · exact .inr (.inl ⟨hpad.1, by omega⟩)
      · obtain ⟨hlt, hp⟩ := (h.mem_data i).mp hi
        refine .inr (.inr ⟨by omega, by omega, ?_⟩)
        rwa [Nat.add_sub_cancel_left]
    · rintro (⟨hlt, hp⟩ | ⟨hge, hlt⟩ | ⟨hge, hlt, hp⟩)
      · exact .inl (.inl ⟨driver.dataShards + j, (h.mem_parity _).mpr ⟨by omega, by omega, hp⟩,
          by omega⟩)
      · exact .inl (.inr ⟨hge, by omega⟩)
      · exact .inr ⟨j - driver.m, (h.mem_data _).mpr ⟨by omega, hp⟩, by omega⟩

/-- A sum in wrapping arithmetic. -/
theorem foldl_add_mod {α : Type*} (l : List α) (f : α → Nat) (n s : Nat) (hs : s < n) :
    l.foldl (fun s x => (s + f x) % n) s = (s + (l.map f).sum) % n := by
  induction l generalizing s with
  | nil => simp [Nat.mod_eq_of_lt hs]
  | cons x l ih =>
    rw [List.foldl_cons, ih _ (Nat.mod_lt _ (by omega)), List.map_cons, List.sum_cons,
      Nat.mod_add_mod, Nat.add_assoc]

/-- The addends of a direct sum, in the order of the loops. -/
def sparseTerms (missingParity missingData : List Nat) (driver : DecodeDriver) (tables : Tables 16)
    (i : Nat) : List Nat :=
  (erasedPositions missingParity missingData driver).map fun e =>
    (tables.logLut.getD (i ^^^ e) 0#16).toNat

/-- Sixteen logarithms stay inside 32 bits. -/
theorem sparseTerms_sum_lt {missingParity missingData : List Nat} (tables : Tables 16)
    (hterms : missingParity.length + missingData.length + (driver.m - driver.parityShards) ≤ 16)
    (i : Nat) : (sparseTerms missingParity missingData driver tables i).sum < 2 ^ 32 := by
  have hle : ∀ x ∈ sparseTerms missingParity missingData driver tables i, x ≤ 65535 := by
    intro x hx
    obtain ⟨e, -, rfl⟩ := List.mem_map.mp hx
    have := (tables.logLut.getD (i ^^^ e) 0#16).isLt
    omega
  have hlen : (sparseTerms missingParity missingData driver tables i).length ≤ 16 := by
    simp only [sparseTerms, erasedPositions, List.length_map, List.length_append,
      List.length_range']
    omega
  have hsum := List.sum_le_card_nsmul _ _ hle
  rw [smul_eq_mul] at hsum
  have hmul := Nat.mul_le_mul_right 65535 hlen
  omega

/-- A direct sum in wrapping arithmetic is a sum over the erased positions. -/
theorem getD_fillSparse {missingParity missingData : List Nat} (tables : Tables 16)
    (hterms : missingParity.length + missingData.length + (driver.m - driver.parityShards) ≤ 16)
    {i : Nat} (hi : i < driver.workSize) :
    ((fillSparseErrorLocs16 missingParity missingData driver tables).getD i 0#16).toNat =
      (sparseTerms missingParity missingData driver tables i).sum % modulus 16 := by
  have hbound := sparseTerms_sum_lt tables hterms i
  obtain ⟨log, hlog⟩ : ∃ log : Nat → Nat, log = fun e => (tables.logLut.getD (i ^^^ e) 0#16).toNat :=
    ⟨_, rfl⟩
  have htotal : (sparseTerms missingParity missingData driver tables i).sum =
      (missingParity.map fun shardIdx => log (shardIdx - driver.dataShards)).sum +
      ((List.range' driver.parityShards (driver.m - driver.parityShards)).map log).sum +
      (missingData.map fun shardIdx => log (driver.m + shardIdx)).sum := by
    unfold sparseTerms erasedPositions
    rw [← hlog, List.map_append, List.map_append, List.sum_append, List.sum_append, List.map_map,
      List.map_map]
    rfl
  unfold fillSparseErrorLocs16
  rw [getD_map_range _ _ _ hi]
  simp only
  have h0 : (0 : Nat) < 2 ^ 32 := by decide
  have hread (e : Nat) : (tables.logLut.getD (i ^^^ e) 0#16).toNat = log e := by rw [hlog]
  simp only [hread]
  rw [foldl_add_mod _ (fun shardIdx => log (shardIdx - driver.dataShards)) _ _ h0,
    foldl_add_mod _ log _ _ (Nat.mod_lt _ h0),
    foldl_add_mod _ (fun shardIdx => log (driver.m + shardIdx)) _ _ (Nat.mod_lt _ h0), Nat.zero_add,
    Nat.mod_eq_of_lt (show _ < 2 ^ 32 by omega), Nat.mod_eq_of_lt (show _ < 2 ^ 32 by omega),
    Nat.mod_eq_of_lt (show _ < 2 ^ 32 by omega), ← htotal]
  exact toNat_ofNat_of_lt (lt_trans (Nat.mod_lt _ (by decide)) (by decide))

/-- The addends sum the logarithms at the erasures. -/
theorem sparseTerms_sum {K : Kernel 16} {missingParity missingData : List Nat}
    (h : MissingLists present driver missingParity missingData)
    (hm : driver.parityShards ≤ driver.m) (i : Nat) :
    (sparseTerms missingParity missingData driver K.tables i).sum =
      ∑ e ∈ erasures present driver.dataShards driver.parityShards driver.m,
        logAt K.params (i ^^^ e) := by
  obtain ⟨hnodup, hset⟩ := erasedPositions_spec h hm
  simp only [sparseTerms, tables_log]
  rw [← hset, List.sum_toFinset _ hnodup]

/-- The direct sums give the locator of the erasures. -/
theorem fillSparse_spec {K : Kernel 16} {missingParity missingData : List Nat}
    (h : MissingLists present driver missingParity missingData)
    (hm : driver.parityShards ≤ driver.m)
    (hwork : driver.workSize ≤ 2 ^ 16) (hend : driver.m + driver.dataShards ≤ 2 ^ 16)
    (hterms : missingParity.length + missingData.length + (driver.m - driver.parityShards) ≤ 16) :
    IsLocator K (erasures present driver.dataShards driver.parityShards driver.m)
      driver.workSize (fillSparseErrorLocs16 missingParity missingData driver K.tables) := by
  intro i hi
  rw [getD_fillSparse K.tables hterms hi, ← gen_sum_log (erasures_lt hend) (by omega),
    sparseTerms_sum h hm]
  exact K.lawful.lfsr.gen_pow_mod _

/-- A property of the sentinel's stores. -/
theorem markIdentity_inv (P : List (BitVec 16) → Prop) (locs : List (BitVec 16)) (h0 : P locs)
    (hdata : ∀ i u, i < driver.dataShards → present.getD i false = true → P u →
      u.getD (driver.m + i) 0#16 = 0#16 →
      P (u.set (driver.m + i) (BitVec.ofNat 16 (modulus 16))))
    (hparity : ∀ i u, i < driver.parityShards →
      present.getD (driver.dataShards + i) false = true → P u → u.getD i 0#16 = 0#16 →
      P (u.set i (BitVec.ofNat 16 (modulus 16)))) :
    P (markIdentity present driver locs) := by
  have hread {l : List Bool} {p : Bool × Nat} (hp : p ∈ l.zipIdx) (h : p.1 = true) :
      p.2 < l.length ∧ l.getD p.2 false = true := by
    have hget := List.mk_mem_zipIdx_iff_getElem?.mp hp
    obtain ⟨hlt, -⟩ := List.getElem?_eq_some_iff.mp hget
    refine ⟨hlt, ?_⟩
    rw [List.getD_eq_getElem?_getD, hget]
    exact h
  unfold markIdentity
  apply foldl_inv P
  · apply foldl_inv P _ _ _ h0
    intro p hp u hu
    split_ifs with hset
    · obtain ⟨hlt, hpres⟩ := hread hp hset.1
      have hlt' := lt_of_lt_of_le hlt (List.length_take_le _ _)
      rw [getD_take hlt'] at hpres
      exact hdata p.2 u hlt' hpres hu hset.2
    · exact hu
  · intro p hp u hu
    split_ifs with hset
    · obtain ⟨hlt, hpres⟩ := hread hp hset.1
      have hlt' := lt_of_lt_of_le hlt (List.length_take_le _ _)
      rw [getD_take hlt', getD_drop] at hpres
      exact hparity p.2 u hlt' hpres hu hset.2
    · exact hu

/-- The sentinel stands for the same logarithm as zero. -/
theorem markIdentity_modEq (present : List Bool) (driver : DecodeDriver) (locs : List (BitVec 16)) (i : Nat) :
    ((markIdentity present driver locs).getD i 0#16).toNat ≡ (locs.getD i 0#16).toNat
      [MOD modulus 16] := by
  have hset (u : List (BitVec 16)) (pos : Nat) (hzero : u.getD pos 0#16 = 0#16)
      (hu : (u.getD i 0#16).toNat ≡ (locs.getD i 0#16).toNat [MOD modulus 16]) :
      ((u.set pos (BitVec.ofNat 16 (modulus 16))).getD i 0#16).toNat ≡ (locs.getD i 0#16).toNat
        [MOD modulus 16] := by
    rw [getD_set]
    split_ifs with hpos
    · rw [hpos.1] at hzero
      rw [hzero] at hu
      have hperiod : (BitVec.ofNat 16 (modulus 16)).toNat ≡ (0#16).toNat [MOD modulus 16] := by
        decide
      exact hperiod.trans hu
    · exact hu
  exact markIdentity_inv (fun u => (u.getD i 0#16).toNat ≡ (locs.getD i 0#16).toNat
    [MOD modulus 16]) locs (Nat.ModEq.refl _) (fun j u _ _ hu hz => hset u _ hz hu)
    (fun j u _ _ hu hz => hset u _ hz hu)

theorem gen_markIdentity (K : Kernel 16) (locs : List (BitVec 16)) (i : Nat) :
    K.lawful.lfsr.gen ^ ((markIdentity present driver locs).getD i 0#16).toNat =
      K.lawful.lfsr.gen ^ (locs.getD i 0#16).toNat := by
  rw [← K.lawful.lfsr.gen_pow_mod, ← K.lawful.lfsr.gen_pow_mod (locs.getD i 0#16).toNat]
  exact congrArg _ (markIdentity_modEq present driver locs i)

/-- Both ways to compute the GF16 locator. -/
theorem errorLocs16_spec (hm : driver.parityShards ≤ driver.m)
    (hwork : driver.workSize = driver.m + driver.dataShards)
    (hend : driver.m + driver.dataShards ≤ 2 ^ 16) :
    IsLocator gf16Kernel (erasures present driver.dataShards driver.parityShards driver.m)
      driver.workSize (errorLocs16 driver present
        (missingIn present driver.dataShards driver.parityShards)
        (missingIn present 0 driver.dataShards) gf16Kernel.tables) := by
  unfold errorLocs16
  simp only
  split_ifs with hsparse
  · intro i hi
    rw [gen_markIdentity]
    exact fillSparse_spec (missingLists_missingIn present driver) hm (by omega) hend hsparse.2 i hi
  · intro i hi
    obtain ⟨hlen, hflag⟩ := markMissing_spec (w := 16) (missingLists_missingIn present driver)
    have hlocs := (walshLocs_spec (K := gf16Kernel) hm hend hlen hflag).2 i (by omega)
    rw [getD_take hi]
    unfold computeErrorLocs16
    rw [hwork]
    exact hlocs

theorem computeErrorLocs_spec (hm : driver.parityShards ≤ driver.m)
    (hwork : driver.workSize = driver.m + driver.dataShards)
    (hend : driver.m + driver.dataShards ≤ 2 ^ 8) :
    IsLocator gf8Kernel (erasures present driver.dataShards driver.parityShards driver.m)
      driver.workSize (computeErrorLocs present driver gf8Kernel.tables) := by
  intro i hi
  obtain ⟨hlen, hflag⟩ := markAbsent_spec (w := 8) present hm
  unfold computeErrorLocs
  rw [hwork]
  exact (walshLocs_spec (K := gf8Kernel) hm hend hlen hflag).2 i (by omega)

theorem computeErrorLocs_modEq (present : List Bool) (driver : DecodeDriver)
    (hm : driver.parityShards ≤ driver.m)
    (hwork : driver.workSize = driver.m + driver.dataShards)
    (hend : driver.m + driver.dataShards ≤ 2 ^ 8) {i : Nat} (hi : i < 2 ^ 8) :
    ((computeErrorLocs present driver gf8Kernel.tables).getD i 0#8).toNat ≡
      ∑ e ∈ erasures present driver.dataShards driver.parityShards driver.m,
        (gf8Kernel.tables.logLut.getD (i ^^^ e) 0#8).toNat [MOD modulus 8] := by
  obtain ⟨hlen, hflag⟩ := markAbsent_spec (w := 8) present hm
  unfold computeErrorLocs
  rw [hwork]
  exact walshLocs_modEq (K := gf8Kernel) hm hend hlen hflag hi

theorem computeErrorLocs16_modEq {missingParity missingData : List Nat}
    (h : MissingLists present driver missingParity missingData)
    (hm : driver.parityShards ≤ driver.m) (hwork : driver.workSize = driver.m + driver.dataShards)
    (hend : driver.m + driver.dataShards ≤ 2 ^ 16) {i : Nat} (hi : i < 2 ^ 16) :
    ((computeErrorLocs16 missingParity missingData driver gf16Kernel.tables).getD i 0#16).toNat ≡
      ∑ e ∈ erasures present driver.dataShards driver.parityShards driver.m,
        (gf16Kernel.tables.logLut.getD (i ^^^ e) 0#16).toNat [MOD modulus 16] := by
  obtain ⟨hlen, hflag⟩ := markMissing_spec (w := 16) h
  unfold computeErrorLocs16
  rw [hwork]
  exact walshLocs_modEq (K := gf16Kernel) hm hend hlen hflag hi

theorem fillSparse_modEq {missingParity missingData : List Nat}
    (h : MissingLists present driver missingParity missingData)
    (hm : driver.parityShards ≤ driver.m)
    (hterms : missingParity.length + missingData.length + (driver.m - driver.parityShards) ≤ 16)
    {i : Nat} (hi : i < driver.workSize) :
    ((fillSparseErrorLocs16 missingParity missingData driver
      gf16Kernel.tables).getD i 0#16).toNat ≡
      ∑ e ∈ erasures present driver.dataShards driver.parityShards driver.m,
        (gf16Kernel.tables.logLut.getD (i ^^^ e) 0#16).toNat [MOD modulus 16] := by
  have hsum := sparseTerms_sum (K := gf16Kernel) h hm i
  simp only [← tables_log] at hsum
  rw [getD_fillSparse _ hterms hi, hsum]
  exact Nat.mod_modEq _ _

/-- On both sides of the threshold the locator is the sum of the logarithms. -/
theorem errorLocs16_modEq {missingParity missingData : List Nat}
    (h : MissingLists present driver missingParity missingData)
    (hm : driver.parityShards ≤ driver.m) (hwork : driver.workSize = driver.m + driver.dataShards)
    (hend : driver.m + driver.dataShards ≤ 2 ^ 16) (pattern : List Bool) {i : Nat}
    (hi : i < driver.workSize) :
    ((errorLocs16 driver pattern missingParity missingData gf16Kernel.tables).getD i 0#16).toNat ≡
      ∑ e ∈ erasures present driver.dataShards driver.parityShards driver.m,
        (gf16Kernel.tables.logLut.getD (i ^^^ e) 0#16).toNat [MOD modulus 16] := by
  unfold errorLocs16
  simp only
  split_ifs with hsparse
  · exact (markIdentity_modEq _ _ _ i).trans (fillSparse_modEq h hm hsparse.2 hi)
  · rw [getD_take hi]
    exact computeErrorLocs16_modEq h hm hwork hend (by omega)

end Sparse

end Leopard

end ErasureCodec
