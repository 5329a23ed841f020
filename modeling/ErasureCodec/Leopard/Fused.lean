import ErasureCodec.Leopard.Decode
import ErasureCodec.Codec.Selection

namespace ErasureCodec

namespace Leopard

variable {w : Nat}

section Definitions

/-- `user_to_work_mul`: the sentinel converts directly. -/
def userToWorkMul (user : List (BitVec 8)) (logM : BitVec 16) : List (BitVec 16) :=
  if logM.toNat = modulus 16 then userBytesToWorkU16 user
  else (userBytesToWorkU16 user).map (mul16 logM)

/-- `work_mul_to_user`. -/
def workMulToUser (work : List (BitVec 16)) (logM : BitVec 16) : List (BitVec 8) :=
  if logM.toNat = modulus 16 then workU16ToUserBytes work
  else workU16ToUserBytes (work.map (mul16 logM))

end Definitions

section Scaling

variable (K : Kernel w)

/-- Only the residue of a logarithm matters. -/
theorem Kernel.mul_congr {a b : BitVec w} (h : a.toNat ≡ b.toNat [MOD modulus w]) :
    K.mul a = K.mul b := by
  funext x
  apply K.elem_inj
  rw [K.elem_mul, K.elem_mul, ← K.lawful.lfsr.gen_pow_mod, ← K.lawful.lfsr.gen_pow_mod b.toNat]
  exact congrArg (fun e => K.elem x * K.lawful.lfsr.gen ^ e) h

theorem Kernel.mul_inv_congr {a b : BitVec w} (h : a.toNat ≡ b.toNat [MOD modulus w]) :
    K.mul (BitVec.ofNat w (modulus w) - a) = K.mul (BitVec.ofNat w (modulus w) - b) := by
  funext x
  apply K.elem_inj
  have hpow : K.lawful.lfsr.gen ^ a.toNat = K.lawful.lfsr.gen ^ b.toNat := by
    rw [← K.lawful.lfsr.gen_pow_mod, ← K.lawful.lfsr.gen_pow_mod b.toNat]
    exact congrArg _ h
  rw [K.elem_mul, K.elem_mul, gen_invErr, gen_invErr, hpow]

/-- The inverse of a locator value undoes its scaling. -/
theorem Kernel.mul_invErr (err x : BitVec w) :
    K.mul (BitVec.ofNat w (modulus w) - err) (K.mul err x) = x := by
  apply K.elem_inj
  rw [K.elem_mul, K.elem_mul, gen_invErr, mul_assoc, mul_inv_cancel₀, mul_one]
  exact pow_ne_zero _ K.lawful.lfsr.gen_ne_zero

/-- The sentinel is an ordinary logarithm of one. -/
theorem mul16_eq_mulLog (logM a : BitVec 16) :
    mul16 logM a = mulLog (initLogLut gf16Params) (initExpLut gf16Params) a logM := by
  apply gf16Kernel.elem_inj
  exact (gf16Kernel.mul_spec logM a).trans (mulLog_spec gf16Lawful a logM).symm

theorem userToWorkMul_eq (user : List (BitVec 8)) (logM : BitVec 16) :
    userToWorkMul user logM = (userBytesToWorkU16 user).map (mul16 logM) := by
  unfold userToWorkMul
  split_ifs with hm
  · have hid : mul16 logM = id := by
      funext a
      simp [mul16, hm]
    rw [hid, List.map_id]
  · rfl

theorem workMulToUser_eq (work : List (BitVec 16)) (logM : BitVec 16) :
    workMulToUser work logM = workU16ToUserBytes (work.map (mul16 logM)) := by
  unfold workMulToUser
  split_ifs with hm
  · have hid : mul16 logM = id := by
      funext a
      simp [mul16, hm]
    rw [hid, List.map_id]
  · rfl

end Scaling

section Selection

open Outcome

variable {F : Family w} {driver : DecodeDriver} {a b : List (BitVec w)}

/-- Locators with the same residues on the work lanes. -/
def SameResidues (driver : DecodeDriver) (a b : List (BitVec w)) : Prop :=
  ∀ i, i < driver.m + driver.dataShards →
    (a.getD i 0#w).toNat ≡ (b.getD i 0#w).toNat [MOD modulus w]

theorem laneOf_lt (hm : driver.parityShards ≤ driver.m) {i : Nat}
    (hi : i < driver.dataShards + driver.parityShards) :
    laneOf driver.dataShards driver.m i < driver.m + driver.dataShards := by
  unfold laneOf
  split_ifs <;> omega

theorem decodeChunk_congr (hm : driver.parityShards ≤ driver.m) (h : SameResidues driver a b)
    (plan : DecodePlan w) (present : List Bool) (inputs : List (Option (List (BitVec 8))))
    (start stop : Nat) (work : Work w) :
    decodeChunk F { plan with errLocs := a } driver present inputs start stop work =
      decodeChunk F { plan with errLocs := b } driver present inputs start stop work := by
  have hload : ∀ task ∈ receivedLanes driver, ∀ s,
      loadReceived F a present inputs start stop s task =
        loadReceived F b present inputs start stop s task := by
    intro task htask s
    obtain ⟨hshard, hlane⟩ := mem_receivedLanes.mp htask
    have hlt := laneOf_lt hm hshard
    rw [← hlane] at hlt
    unfold loadReceived
    rw [F.kernel.mul_congr (h task.2 hlt)]
  unfold decodeChunk
  rw [runAll_congr hload]
  rfl

theorem recoverOutputs_congr (hm : driver.parityShards ≤ driver.m) (h : SameResidues driver a b)
    (present : List Bool) (requested outputs : List (List (BitVec 8))) (dests : List (Nat × Nat))
    (views : Work w) :
    recoverOutputs F (recoveryTargets driver present a requested) dests views outputs =
      recoverOutputs F (recoveryTargets driver present b requested) dests views outputs := by
  unfold recoverOutputs recoveryTargets
  simp only
  rw [List.zip_map_left, List.zip_map_left, List.foldl_map, List.foldl_map]
  apply foldl_congr_inv (fun _ => True) _ _ _ _ trivial
  intro t ht outs _
  have hshard := List.mem_range.mp (List.mem_filter.mp (List.of_mem_zip ht).1).1
  simp only [Prod.map_fst, Prod.map_snd, id, F.kernel.mul_inv_congr (h _ (laneOf_lt hm hshard))]
  exact ⟨trivial, trivial⟩

/-- A chunk is recovered in the same way with either locator. -/
theorem decodeStep_congr (hm : driver.parityShards ≤ driver.m) (h : SameResidues driver a b)
    (plan : DecodePlan w) (present : List Bool) (inputs : List (Option (List (BitVec 8))))
    (requested : List (List (BitVec 8))) (dests : List (Nat × Nat))
    (st : Work w × List (List (BitVec 8))) (window : Nat × Nat) :
    decodeStep F { plan with errLocs := a } driver present inputs
        (recoveryTargets driver present a requested) dests st window =
      decodeStep F { plan with errLocs := b } driver present inputs
        (recoveryTargets driver present b requested) dests st window := by
  simp only [decodeStep, decodeChunk_congr hm h plan, recoverOutputs_congr hm h]

end Selection

section Locators

open Outcome

/-- A vanishing position adds a full period. -/
theorem sum_log_erase (K : Kernel w) (E : Finset Nat) (i : Nat) :
    ∑ e ∈ E, (K.tables.logLut.getD (i ^^^ e) 0#w).toNat ≡
      ∑ e ∈ E.erase i, (K.tables.logLut.getD (i ^^^ e) 0#w).toNat [MOD modulus w] := by
  by_cases hi : i ∈ E
  · obtain ⟨-, hzero, -⟩ := initLogLut_spec K.lawful
    rw [← Finset.add_sum_erase E _ hi, Nat.xor_self, tables_log, hzero]
    simp [Nat.ModEq]
  · rw [Finset.erase_eq_of_notMem hi]

/-- A locator value and its inverse cancel on a lane. -/
theorem Kernel.map_invErr (K : Kernel w) (err : BitVec w) (lane : List (BitVec w)) :
    (lane.map (K.mul err)).map (K.mul (BitVec.ofNat w (modulus w) - err)) = lane := by
  have hid : K.mul (BitVec.ofNat w (modulus w) - err) ∘ K.mul err = id :=
    funext (K.mul_invErr err)
  rw [List.map_map, hid, List.map_id]

/-- The GF8 locator holds the logarithm of the erasure polynomial, without the
factor that vanishes, and its inverse undoes its scaling. -/
theorem gf8_locator_log {dataShards parityShards shardSize : Nat}
    (hfits : leopardShardComboFits dataShards parityShards leopardGf8MaxShards = true)
    (h0 : 0 < shardSize) (h64 : 64 ∣ shardSize) (present : List Bool) :
    ∃ driver, gf8Family.decodeDriver dataShards parityShards shardSize = .ok driver ∧
      ∀ i, i < driver.workSize →
        ((computeErrorLocs present driver gf8Kernel.tables).getD i 0#8).toNat ≡
          ∑ j ∈ (erasures present dataShards parityShards driver.m).erase i,
            (gf8Kernel.tables.logLut.getD (i ^^^ j) 0#8).toNat [MOD 255] ∧
        ∀ lane : List (BitVec 8),
          (lane.map (mul8 ((computeErrorLocs present driver gf8Kernel.tables).getD i 0#8))).map
            (mul8 (255#8 - (computeErrorLocs present driver gf8Kernel.tables).getD i 0#8)) =
              lane := by
  obtain ⟨k, hshape⟩ := admitted_of_fits (w := 8) hfits
  obtain ⟨n, -, hdriver⟩ := hshape.decodeDriver_eq gf8Family h0 h64
  have hwork : 2 ^ k + dataShards ≤ 2 ^ 8 := hshape.workSize_le
  refine ⟨_, hdriver, fun i hi => ⟨?_, fun lane => gf8Kernel.map_invErr _ lane⟩⟩
  have hlocs := computeErrorLocs_modEq present
    (gf8Family.decodeDriverAt dataShards parityShards shardSize k n) hshape.parity_le rfl
    hwork (lt_of_lt_of_le hi hwork)
  exact hlocs.trans (sum_log_erase gf8Kernel _ i)

theorem gf8_locator_log_sample :
    ∃ driver, gf8Family.decodeDriver 3 2 64 = .ok driver ∧
      ∀ i, i < driver.workSize →
        ((computeErrorLocs [true, false, true, true, false] driver
          gf8Kernel.tables).getD i 0#8).toNat ≡
          ∑ j ∈ (erasures [true, false, true, true, false] 3 2 driver.m).erase i,
            (gf8Kernel.tables.logLut.getD (i ^^^ j) 0#8).toNat [MOD 255] ∧
        ∀ lane : List (BitVec 8),
          (lane.map (mul8 ((computeErrorLocs [true, false, true, true, false] driver
            gf8Kernel.tables).getD i 0#8))).map
            (mul8 (255#8 - (computeErrorLocs [true, false, true, true, false] driver
              gf8Kernel.tables).getD i 0#8)) = lane :=
  gf8_locator_log (leopardShardComboFits_of_pow (k := 1) (by decide) (by decide) (by decide)
    (by decide)) (by decide) (by decide) _

/-- The pattern that two lists of missing shards describe. -/
def patternOf (total : Nat) (missingParity missingData : List Nat) : List Bool :=
  (List.range total).map fun i => decide (i ∉ missingParity ∧ i ∉ missingData)

theorem missingLists_patternOf (driver : DecodeDriver) {missingParity missingData : List Nat}
    (hp : missingParity.Nodup) (hd : missingData.Nodup)
    (hparity : ∀ i ∈ missingParity, driver.dataShards ≤ i ∧
      i < driver.dataShards + driver.parityShards)
    (hdata : ∀ i ∈ missingData, i < driver.dataShards) :
    MissingLists (patternOf (driver.dataShards + driver.parityShards) missingParity missingData)
      driver missingParity missingData := by
  have hread {i : Nat} (hi : i < driver.dataShards + driver.parityShards) :
      (patternOf (driver.dataShards + driver.parityShards) missingParity missingData).getD i false =
        false ↔ i ∈ missingParity ∨ i ∈ missingData := by
    unfold patternOf
    rw [getD_map_range _ _ _ hi, decide_eq_false_iff_not]
    tauto
  refine ⟨fun i => ⟨fun hi => ?_, fun hi => ?_⟩, fun i => ⟨fun hi => ?_, fun hi => ?_⟩, hp, hd⟩
  · obtain ⟨hge, hlt⟩ := hparity i hi
    exact ⟨hge, hlt, (hread hlt).mpr (.inl hi)⟩
  · rcases (hread hi.2.1).mp hi.2.2 with h | h
    · exact h
    · have := hdata i h
      omega
  · have hlt := hdata i hi
    exact ⟨hlt, (hread (by omega)).mpr (.inr hi)⟩
  · rcases (hread (by omega)).mp hi.2 with h | h
    · have := (hparity i h).1
      omega
    · exact h

/-- The sentinel is not stored at a missing shard. -/
theorem markIdentity_missing {present : List Bool} {driver : DecodeDriver}
    (hm : driver.parityShards ≤ driver.m) (locs : List (BitVec 16)) {i : Nat}
    (hi : i < driver.dataShards + driver.parityShards) (hp : present.getD i false = false) :
    (markIdentity present driver locs).getD (laneOf driver.dataShards driver.m i) 0#16 =
      locs.getD (laneOf driver.dataShards driver.m i) 0#16 := by
  apply markIdentity_inv (fun u => u.getD (laneOf driver.dataShards driver.m i) 0#16 =
    locs.getD (laneOf driver.dataShards driver.m i) 0#16) locs rfl
  · intro j u hj hpres hu _
    rw [getD_set, if_neg, hu]
    unfold laneOf
    rintro ⟨hlane, -⟩
    split_ifs at hlane with hdata
    · omega
    · rw [show i = j by omega, hpres] at hp
      cases hp
  · intro j u hj hpres hu _
    rw [getD_set, if_neg, hu]
    unfold laneOf
    rintro ⟨hlane, -⟩
    split_ifs at hlane with hdata
    · rw [show i = driver.dataShards + j by omega, hpres] at hp
      cases hp
    · omega

/-- The GF16 locators on two sides of the threshold. -/
structure LocatorsAgree (driver : DecodeDriver) (missingParity missingData : List Nat) : Prop where
  walsh : ∀ i, i < driver.workSize →
    ((computeErrorLocs16 missingParity missingData driver gf16Kernel.tables).getD i 0#16).toNat ≡
      ∑ j ∈ (erasedPositions missingParity missingData driver).toFinset,
        (gf16Kernel.tables.logLut.getD (i ^^^ j) 0#16).toNat [MOD 65535]
  sparse : driver.workSize ≤ sparseLocatorMaxWorkSize →
    missingParity.length + missingData.length + (driver.m - driver.parityShards) ≤
      sparseLocatorMaxTerms → ∀ i, i < driver.workSize →
      (∀ added, added <+: sparseTerms missingParity missingData driver gf16Kernel.tables i →
        added.sum < 2 ^ 32) ∧
      ((fillSparseErrorLocs16 missingParity missingData driver
        gf16Kernel.tables).getD i 0#16).toNat ≡
        ∑ j ∈ (erasedPositions missingParity missingData driver).toFinset,
          (gf16Kernel.tables.logLut.getD (i ^^^ j) 0#16).toNat [MOD 65535]
  /-- The sentinel changes no conversion. -/
  sentinel : ∀ (present : List Bool) (locs : List (BitVec 16)) (i : Nat),
    i < driver.dataShards + driver.parityShards →
    (present.getD i false = true → ∀ user,
      userToWorkMul user ((markIdentity present driver locs).getD
          (laneOf driver.dataShards driver.m i) 0#16) =
        userToWorkMul user (locs.getD (laneOf driver.dataShards driver.m i) 0#16)) ∧
    (present.getD i false = false → ∀ work,
      workMulToUser work (65535#16 - (markIdentity present driver locs).getD
          (laneOf driver.dataShards driver.m i) 0#16) =
        workMulToUser work (65535#16 - locs.getD (laneOf driver.dataShards driver.m i) 0#16))
  /-- A chunk is recovered in the same way on both sides. -/
  recovery : ∀ (plan : DecodePlan 16) (present : List Bool)
    (inputs : List (Option (List (BitVec 8)))) (requested : List (List (BitVec 8)))
    (dests : List (Nat × Nat)) (st : Work 16 × List (List (BitVec 8))) (window : Nat × Nat),
    let selected := errorLocs16 driver present missingParity missingData gf16Kernel.tables
    let full := computeErrorLocs16 missingParity missingData driver gf16Kernel.tables
    decodeStep gf16Family { plan with errLocs := selected } driver present inputs
        (recoveryTargets driver present selected requested) dests st window =
      decodeStep gf16Family { plan with errLocs := full } driver present inputs
        (recoveryTargets driver present full requested) dests st window

/-- The direct sums and the transforms give one locator modulo the group order,
whatever stands for zero. -/
theorem gf16_locators_agree {dataShards parityShards shardSize : Nat}
    (hfits : leopardShardComboFits dataShards parityShards leopardGf16MaxShards = true)
    (h0 : 0 < shardSize) (h64 : 64 ∣ shardSize) {missingParity missingData : List Nat}
    (hp : missingParity.Nodup) (hd : missingData.Nodup)
    (hparity : ∀ i ∈ missingParity, dataShards ≤ i ∧ i < dataShards + parityShards)
    (hdata : ∀ i ∈ missingData, i < dataShards) :
    ∃ driver, gf16Family.decodeDriver dataShards parityShards shardSize = .ok driver ∧
      LocatorsAgree driver missingParity missingData := by
  obtain ⟨k, hshape⟩ := admitted_of_fits (w := 16) hfits
  obtain ⟨n, -, hdriver⟩ := hshape.decodeDriver_eq gf16Family h0 h64
  obtain ⟨driver, hdef⟩ : ∃ driver,
      driver = gf16Family.decodeDriverAt dataShards parityShards shardSize k n := ⟨_, rfl⟩
  have hm : driver.parityShards ≤ driver.m := by
    rw [hdef]
    exact hshape.parity_le
  have hwork : driver.workSize = driver.m + driver.dataShards := by rw [hdef]; rfl
  have hend : driver.m + driver.dataShards ≤ 2 ^ 16 := by
    rw [hdef]
    exact hshape.workSize_le
  have hlists := missingLists_patternOf driver hp hd (by rw [hdef]; exact hparity)
    (by rw [hdef]; exact hdata)
  have hset := (erasedPositions_spec hlists hm).2
  refine ⟨driver, by rw [hdef]; exact hdriver, ?_, ?_, ?_, ?_⟩
  · intro i hi
    rw [hset]
    exact computeErrorLocs16_modEq hlists hm hwork hend (by omega)
  · intro hsize hterms i hi
    constructor
    · intro added hadded
      exact lt_of_le_of_lt (hadded.sublist.sum_le_sum (by simp))
        (sparseTerms_sum_lt gf16Kernel.tables hterms i)
    · rw [hset]
      exact fillSparse_modEq hlists hm hterms hi
  · intro present locs i hi
    constructor
    · intro _ user
      have hmul := gf16Kernel.mul_congr (markIdentity_modEq present driver
        locs (laneOf driver.dataShards driver.m i))
      rw [userToWorkMul_eq, userToWorkMul_eq]
      exact congrArg (fun f => (userBytesToWorkU16 user).map f) hmul
    · intro hmissing work
      rw [markIdentity_missing hm locs hi hmissing]
  · intro plan present inputs requested dests st window selected full
    apply decodeStep_congr hm
    intro i hi
    exact (errorLocs16_modEq hlists hm hwork hend present (by omega)).trans
      (computeErrorLocs16_modEq hlists hm hwork hend (by omega)).symm

theorem gf16_locators_agree_sample :
    ∃ driver, gf16Family.decodeDriver 3 2 64 = .ok driver ∧ LocatorsAgree driver [4] [1] :=
  gf16_locators_agree (leopardShardComboFits_of_pow (k := 1) (by decide) (by decide) (by decide)
    (by decide)) (by decide) (by decide) (by decide) (by decide) (by decide) (by decide)

end Locators

end Leopard

end ErasureCodec
