import ErasureCodec.Leopard.Locator

namespace ErasureCodec

namespace Leopard

variable {w : Nat}

section Definitions

/-- The end of the received lanes. -/
structure InputEnd (present : List Bool) (driver : DecodeDriver) (count : Nat) : Prop where
  m_le : driver.m ≤ count
  le_workSize : count ≤ driver.m + driver.dataShards
  covers : ∀ i, i < driver.dataShards → present.getD i false = true → driver.m + i < count

/-- The locator of a family and the end of its received lanes. -/
structure Decoder (w : Nat) extends Family w where
  inputCount : List Bool → DecodeDriver → Nat
  errorLocs : List Bool → DecodeDriver → List (BitVec w)
  inputCount_spec : ∀ present driver, InputEnd present driver (inputCount present driver)
  errorLocs_spec : ∀ present driver, driver.parityShards ≤ driver.m →
    driver.workSize = driver.m + driver.dataShards → driver.m + driver.dataShards ≤ 2 ^ w →
    IsLocator kernel (erasures present driver.dataShards driver.parityShards driver.m)
      driver.workSize (errorLocs present driver)
  /-- Plans do not depend on the shard size. -/
  shardSize_free : ∀ present driver shardSize,
    inputCount present { driver with shardSize } = inputCount present driver ∧
      errorLocs present { driver with shardSize } = errorLocs present driver

/-- `iter().rposition()`. -/
def rposition (flags : List Bool) : Option Nat :=
  (flags.reverse.findIdx? id).map fun i => flags.length - 1 - i

/-- The end of the received lanes in the GF8 `DecodePlan::new`. -/
def inputCount8 (present : List Bool) (driver : DecodeDriver) : Nat :=
  match rposition (present.take driver.dataShards) with
  | none => driver.m
  | some index => driver.m + index + 1

/-- The end of the received lanes in `build_decode_plan`. -/
def inputCount16 (present : List Bool) (driver : DecodeDriver) : Nat :=
  (present.take driver.dataShards).zipIdx.foldl (fun inputCount p =>
    if p.1 then driver.m + p.2 + 1 else inputCount) driver.m

structure DecodePlan (w : Nat) where
  errLocs : List (BitVec w)
  ifftPlan : IfftDitPlan w
  fftPlan : FftDitPlan w
  deriving Repr, DecidableEq

/-- The GF8 `DecodePlan::new` without its key, and `build_decode_plan`. -/
def buildDecodePlan (D : Decoder w) (present : List Bool) (driver : DecodeDriver) :
    Outcome Error (DecodePlan w) := do
  let ifftPlan ← buildIfftDecodeDitPlan (D.inputCount present driver) driver.n
    D.kernel.tables.fftSkew
  let fftPlan ← buildFftDitPlan driver.workSize driver.n D.kernel.tables.fftSkew
  pure { errLocs := D.errorLocs present driver, ifftPlan, fftPlan }

/-- Shard indexes with their lanes, in the order they are loaded. -/
def receivedLanes (driver : DecodeDriver) : List (Nat × Nat) :=
  (List.range driver.dataShards).map (fun i => (i, driver.m + i)) ++
    (List.range driver.parityShards).map fun i => (driver.dataShards + i, i)

/-- A received shard is scaled by its locator value, and a missing one is zero. -/
def loadReceived (F : Family w) (errLocs : List (BitVec w)) (present : List Bool)
    (inputs : List (Option (List (BitVec 8)))) (start stop : Nat) (work : Work w)
    (task : Nat × Nat) : Outcome Error PUnit × Work w :=
  if present.getD task.1 false then
    match inputs.getD task.1 none with
    | none => (.err .tooFewShardsPresent, work)
    | some input =>
      (.ok ⟨⟩, work.set task.2 ((F.layout.toWork (slice input (start * F.layout.unit)
        (stop * F.layout.unit))).map (F.kernel.mul (errLocs.getD task.2 0#w))))
  else (.ok ⟨⟩, work.set task.2 (clearLane (work.getD task.2 [])))

/-- The transforms of a chunk. -/
def decodeTransforms (F : Family w) (plan : DecodePlan w) (driver : DecodeDriver) (work : Work w) :
    Work w :=
  let work := zeroLanes driver.parityShards (driver.m - driver.parityShards) work
  let work := zeroLanes driver.workSize (driver.n - driver.workSize) work
  let work := ifftDitDecodeWithPlan F.kernel plan.ifftPlan work
  let work := computeFormalDerivative driver.n work
  fftDitWithPlan F.kernel .directSafe plan.fftPlan work

/-- `compute_reconstruct_chunk` and the same steps of the GF8 decoder, on the
lane views of a chunk. -/
def decodeChunk (F : Family w) (plan : DecodePlan w) (driver : DecodeDriver) (present : List Bool)
    (inputs : List (Option (List (BitVec 8)))) (start stop : Nat) (work : Work w) :
    Outcome Error PUnit × Work w :=
  match Outcome.runAll (loadReceived F plan.errLocs present inputs start stop)
    (receivedLanes driver) work with
  | (.ok _, work) => (.ok ⟨⟩, decodeTransforms F plan driver work)
  | failed => failed

/-- The lane of a shard. -/
def laneOf (dataShards m i : Nat) : Nat := if dataShards ≤ i then i - dataShards else m + i

/-- A recovered shard: its index, its lane and the inverse of its locator value. -/
structure RecoveryTarget (w : Nat) where
  shard : Nat
  lane : Nat
  invErr : BitVec w
  deriving Repr, DecidableEq

/-- The missing shards that have an output buffer. -/
def recoveryTargets (driver : DecodeDriver) (present : List Bool) (errLocs : List (BitVec w))
    (outputs : List (List (BitVec 8))) : List (RecoveryTarget w) :=
  ((List.range (driver.dataShards + driver.parityShards)).filter fun i =>
    !present.getD i false && !(outputs.getD i []).isEmpty).map fun i =>
      let lane := laneOf driver.dataShards driver.m i
      ⟨i, lane, BitVec.ofNat w (modulus w) - errLocs.getD lane 0#w⟩

/-- The recovered lanes go to windows of the outputs: `dests` has the output and
the first byte of each. -/
def recoverOutputs (F : Family w) (targets : List (RecoveryTarget w)) (dests : List (Nat × Nat))
    (views : Work w) (outputs : List (List (BitVec 8))) : List (List (BitVec 8)) :=
  (targets.zip dests).foldl (fun outputs t =>
    outputs.set t.2.1 (overwrite t.2.2
      (F.layout.toUser ((views.getD t.1.lane []).map (F.kernel.mul t.1.invErr)))
      (outputs.getD t.2.1 []))) outputs

/-- One chunk of the decoders: the work buffer and the outputs. -/
def decodeStep (F : Family w) (plan : DecodePlan w) (driver : DecodeDriver) (present : List Bool)
    (inputs : List (Option (List (BitVec 8)))) (targets : List (RecoveryTarget w))
    (dests : List (Nat × Nat)) (st : Work w × List (List (BitVec 8))) (window : Nat × Nat) :
    Outcome Error PUnit × (Work w × List (List (BitVec 8))) :=
  let size := window.2 - window.1
  match decodeChunk F plan driver present inputs window.1 window.2 (st.1.map (List.take size)) with
  | (.ok _, views) => (.ok ⟨⟩, (putViews size st.1 views, recoverOutputs F targets dests views st.2))
  | (failed, views) => (failed, (putViews size st.1 views, st.2))

end Definitions

section InputEnd

variable {present : List Bool} {driver : DecodeDriver}

theorem inputCount8_spec (present : List Bool) (driver : DecodeDriver) :
    InputEnd present driver (inputCount8 present driver) := by
  have hflag (i : Nat) (hi : i < driver.dataShards) :
      (present.take driver.dataShards).getD i false = present.getD i false := getD_take hi _
  obtain ⟨flags, hflags⟩ : ∃ flags, flags = present.take driver.dataShards := ⟨_, rfl⟩
  have hlen : flags.length ≤ driver.dataShards := by rw [hflags]; exact List.length_take_le _ _
  rw [← hflags] at hflag
  unfold inputCount8 rposition
  rw [← hflags]
  cases hfind : flags.reverse.findIdx? id with
  | none =>
    refine ⟨le_rfl, Nat.le_add_right _ _, fun i hi hp => ?_⟩
    rw [List.findIdx?_eq_none_iff] at hfind
    rw [← hflag i hi] at hp
    have hmem : true ∈ flags := by
      rw [← hp]
      by_cases hlt : i < flags.length
      · rw [List.getD_eq_getElem _ _ hlt]
        exact List.getElem_mem hlt
      · rw [List.getD_eq_default _ _ (by omega)] at hp
        exact absurd hp (by decide)
    have := hfind true (List.mem_reverse.mpr hmem)
    simp at this
  | some j =>
    obtain ⟨hj, -, hbefore⟩ := List.findIdx?_eq_some_iff_getElem.mp hfind
    rw [List.length_reverse] at hj
    simp only [Option.map_some]
    refine ⟨by omega, by omega, fun i hi hp => ?_⟩
    by_contra hge
    rw [← hflag i hi] at hp
    by_cases hlt : i < flags.length
    · have hlater := hbefore (flags.length - 1 - i) (by omega)
      rw [List.getElem_reverse] at hlater
      rw [List.getD_eq_getElem _ _ hlt] at hp
      have hidx : flags.length - 1 - (flags.length - 1 - i) = i := by omega
      simp only [hidx, id_eq] at hlater
      exact hlater hp
    · rw [List.getD_eq_default _ _ (by omega)] at hp
      exact absurd hp (by decide)

theorem inputCount16_spec (present : List Bool) (driver : DecodeDriver) :
    InputEnd present driver (inputCount16 present driver) := by
  have hrun (flags : List Bool) (first count : Nat) (hm : driver.m ≤ count)
      (hc : count ≤ driver.m + first) :
      let result := (flags.zipIdx first).foldl (fun inputCount p =>
        if p.1 then driver.m + p.2 + 1 else inputCount) count
      count ≤ result ∧ result ≤ driver.m + first + flags.length ∧
        ∀ i, flags.getD i false = true → driver.m + first + i < result := by
    induction flags generalizing first count with
    | nil => exact ⟨le_rfl, hc, fun i hi => absurd hi (by simp)⟩
    | cons here flags ih =>
      simp only [List.zipIdx_cons, List.foldl_cons, List.length_cons]
      cases here with
      | true =>
        obtain ⟨h1, h2, h3⟩ := ih (first + 1) (driver.m + first + 1) (by omega) (by omega)
        refine ⟨by simp only [if_true]; omega, by simp only [if_true]; omega, fun i hi => ?_⟩
        cases i with
        | zero => simp only [if_true]; omega
        | succ i =>
          have := h3 i hi
          simp only [if_true]
          omega
      | false =>
        obtain ⟨h1, h2, h3⟩ := ih (first + 1) count hm (by omega)
        simp only [Bool.false_eq_true, if_false]
        refine ⟨h1, by omega, fun i hi => ?_⟩
        cases i with
        | zero => exact absurd hi (by simp)
        | succ i =>
          have := h3 i hi
          omega
  have hle := List.length_take_le driver.dataShards present
  obtain ⟨h1, h2, h3⟩ := hrun (present.take driver.dataShards) 0 driver.m le_rfl (by omega)
  refine ⟨h1, by unfold inputCount16; omega, fun i hi hp => ?_⟩
  rw [← getD_take hi] at hp
  exact h3 i hp

end InputEnd

/-- The GF8 decoder. -/
def gf8Decoder : Decoder 8 where
  toFamily := gf8Family
  inputCount := inputCount8
  errorLocs present driver := computeErrorLocs present driver gf8Kernel.tables
  inputCount_spec := inputCount8_spec
  errorLocs_spec _ _ hm hwork hend := computeErrorLocs_spec hm hwork hend
  shardSize_free _ _ _ := ⟨rfl, rfl⟩

/-- The GF16 decoder. -/
def gf16Decoder : Decoder 16 where
  toFamily := gf16Family
  inputCount := inputCount16
  errorLocs present driver := errorLocs16 driver present
    (missingIn present driver.dataShards driver.parityShards)
    (missingIn present 0 driver.dataShards) gf16Kernel.tables
  inputCount_spec := inputCount16_spec
  errorLocs_spec _ _ hm hwork hend := errorLocs16_spec hm hwork hend
  shardSize_free _ _ _ := ⟨rfl, rfl⟩

section Shape

/-- An admitted shape with the `2 ^ n` lanes of its decoder. -/
structure Decodable (w dataShards parityShards k n : Nat) : Prop
    extends Admitted w dataShards parityShards k where
  n_eq : ceilPow2 (2 ^ k + dataShards) = 2 ^ n
  k_le : k ≤ n
  n_le : n ≤ w
  lanes_le : 2 ^ k + dataShards ≤ 2 ^ n

/-- The decode driver of a family. -/
def Family.decodeDriver (F : Family w) (dataShards parityShards shardSize : Nat) :
    Outcome Error DecodeDriver :=
  buildDecodeDriver (modulus w) (order w) F.decodeChunkSize dataShards parityShards shardSize

theorem decodeDriver_gf8Family : gf8Family.decodeDriver = buildLeopardGf8DecodeDriver := rfl

theorem decodeDriver_gf16Family : gf16Family.decodeDriver = buildLeopardGf16DecodeDriver := rfl

/-- The driver that a decodable shape gets. -/
def Family.decodeDriverAt (F : Family w) (dataShards parityShards shardSize k n : Nat) :
    DecodeDriver :=
  ⟨dataShards, parityShards, shardSize, 2 ^ k, 2 ^ n, 2 ^ k + dataShards, F.decodeChunkSize⟩

/-- The decode plan, with lookups that cannot fail. -/
def decodePlanAt (D : Decoder w) (present : List Bool) (driver : DecodeDriver) : DecodePlan w where
  errLocs := D.errorLocs present driver
  ifftPlan := ifftPlanAt D.kernel.tables.fftSkew 0 (D.inputCount present driver) driver.n
  fftPlan := fftPlanAt D.kernel.tables.fftSkew driver.workSize driver.n

variable {dataShards parityShards k n shardSize : Nat}

theorem Admitted.decodeDriver_eq (F : Family w) (h : Admitted w dataShards parityShards k)
    (h0 : 0 < shardSize) (h64 : 64 ∣ shardSize) :
    ∃ n, Decodable w dataShards parityShards k n ∧
      F.decodeDriver dataShards parityShards shardSize =
        .ok (F.decodeDriverAt dataShards parityShards shardSize k n) := by
  have hw := F.width_le
  obtain ⟨n, hpow, hk, hn, hlanes, heq⟩ := h.buildDecodeDriver_eq (by omega) F.decodeChunkSize h0 h64
  exact ⟨n, ⟨h, hpow, hk, hn, hlanes⟩, heq⟩

/-- A shape has one number of lanes. -/
theorem Decodable.unique {k' n' : Nat} (h : Decodable w dataShards parityShards k n)
    (h' : Decodable w dataShards parityShards k' n') : k' = k ∧ n' = n := by
  have hk : k' = k := Nat.pow_right_injective le_rfl (h'.m_eq.symm.trans h.m_eq)
  subst hk
  exact ⟨rfl, Nat.pow_right_injective le_rfl (h'.n_eq.symm.trans h.n_eq)⟩

theorem Decodable.two_pow_le (h : Decodable w dataShards parityShards k n) : 2 ^ n ≤ 2 ^ w :=
  Nat.pow_le_pow_right (by decide) h.n_le

theorem buildDecodePlan_eq (D : Decoder w) (h : Decodable w dataShards parityShards k n)
    (present : List Bool) :
    buildDecodePlan D present (D.decodeDriverAt dataShards parityShards shardSize k n) =
      .ok (decodePlanAt D present (D.decodeDriverAt dataShards parityShards shardSize k n)) := by
  have hmod : modulus w + 1 = 2 ^ w := Nat.sub_add_cancel (Nat.two_pow_pos w)
  have hlen := D.kernel.fftSkew_length
  have hle := h.two_pow_le
  have hcount := (D.inputCount_spec present
    (D.decodeDriverAt dataShards parityShards shardSize k n)).le_workSize
  have hlanes := h.lanes_le
  unfold buildDecodePlan Family.decodeDriverAt at *
  simp only at hcount ⊢
  rw [buildIfftDecodeDitPlan_eq (by omega) (by omega), Outcome.ok_bind,
    buildFftDitPlan_eq hlanes (by omega), Outcome.ok_bind]
  rfl

/-- Plans do not depend on the shard size. -/
theorem decodePlanAt_shardSize (D : Decoder w) (present : List Bool)
    (dataShards parityShards shardSize shardSize' k n : Nat) :
    decodePlanAt D present (D.decodeDriverAt dataShards parityShards shardSize k n) =
      decodePlanAt D present (D.decodeDriverAt dataShards parityShards shardSize' k n) := by
  obtain ⟨hcount, hlocs⟩ := D.shardSize_free present
    (D.decodeDriverAt dataShards parityShards shardSize' k n) shardSize
  have hdriver : ({ D.decodeDriverAt dataShards parityShards shardSize' k n with shardSize } :
      DecodeDriver) = D.decodeDriverAt dataShards parityShards shardSize k n := rfl
  rw [hdriver] at hcount hlocs
  unfold decodePlanAt
  rw [hcount, hlocs]
  rfl

/-- Plans that a fresh call of the shape would build. -/
def DecodePlanFor (D : Decoder w) (dataShards parityShards : Nat) (present : List Bool)
    (plan : DecodePlan w) : Prop :=
  ∃ k n, Decodable w dataShards parityShards k n ∧ ∀ shardSize, plan =
    decodePlanAt D present (D.decodeDriverAt dataShards parityShards shardSize k n)

theorem DecodePlanFor.eq {D : Decoder w} {present : List Bool} {plan : DecodePlan w}
    (hplan : DecodePlanFor D dataShards parityShards present plan)
    (h : Decodable w dataShards parityShards k n) : plan =
      decodePlanAt D present (D.decodeDriverAt dataShards parityShards shardSize k n) := by
  obtain ⟨k', n', h', heq⟩ := hplan
  obtain ⟨rfl, rfl⟩ := h.unique h'
  exact heq shardSize

theorem Decodable.planFor {D : Decoder w} (h : Decodable w dataShards parityShards k n)
    (present : List Bool) : DecodePlanFor D dataShards parityShards present
      (decodePlanAt D present (D.decodeDriverAt dataShards parityShards shardSize k n)) :=
  ⟨k, n, h, fun _ => decodePlanAt_shardSize D present _ _ _ _ _ _⟩

/-- The shards of a shape are no more than the points. -/
theorem Admitted.total_le (h : Admitted w dataShards parityShards k) :
    dataShards + parityShards ≤ 2 ^ w := by
  have := h.workSize_le
  have := h.parity_le
  omega

end Shape

section Chunk

open CantorPoints

variable {dataShards parityShards k n shardSize len p : Nat} {present : List Bool}

/-- The received values on the lanes of the decoder. -/
noncomputable def receivedColumn (K : Kernel w) (present : List Bool)
    (dataShards parityShards k : Nat) (r : Nat → K.lawful.lfsr.Elem) (j : Nat) :
    K.lawful.lfsr.Elem :=
  if j < parityShards then if present.getD (dataShards + j) false then r (dataShards + j) else 0
  else if j < 2 ^ k then 0
  else if j - 2 ^ k < dataShards then if present.getD (j - 2 ^ k) false then r (j - 2 ^ k) else 0
  else 0

/-- The received values scaled by the locator. -/
noncomputable def scaledColumn (K : Kernel w) (present : List Bool)
    (dataShards parityShards k : Nat) (r : Nat → K.lawful.lfsr.Elem) (j : Nat) :
    K.lawful.lfsr.Elem :=
  (∏ e ∈ erasures present dataShards parityShards (2 ^ k),
    (K.lawful.points.point j + K.lawful.points.point e)) *
    receivedColumn K present dataShards parityShards k r j

/-- The lanes after the transforms. -/
noncomputable def transformedColumn (K : Kernel w) (present : List Bool)
    (dataShards parityShards k n : Nat) (r : Nat → K.lawful.lfsr.Elem) (j : Nat) :
    K.lawful.lfsr.Elem :=
  K.lawful.points.forwardFrom n (derived n (K.lawful.points.inverseTo n
    (scaledColumn K present dataShards parityShards k r))) j

theorem receivedColumn_lane {K : Kernel w} (h : Admitted w dataShards parityShards k)
    (r : Nat → K.lawful.lfsr.Elem) {i : Nat} (hi : i < dataShards + parityShards) :
    receivedColumn K present dataShards parityShards k r (laneOf dataShards (2 ^ k) i) =
      if present.getD i false then r i else 0 := by
  have hle := h.parity_le
  unfold receivedColumn laneOf
  by_cases hd : dataShards ≤ i
  · rw [if_pos hd, if_pos (by omega), show dataShards + (i - dataShards) = i by omega]
  · rw [if_neg hd, if_neg (by omega), if_neg (by omega), Nat.add_sub_cancel_left,
      if_pos (by omega)]

theorem erased_lane (present : List Bool) (h : Admitted w dataShards parityShards k) {i : Nat}
    (hi : i < dataShards + parityShards) :
    laneOf dataShards (2 ^ k) i ∈ erasures present dataShards parityShards (2 ^ k) ↔
      present.getD i false = false := by
  have hle := h.parity_le
  rw [mem_erasures hle]
  unfold Erased laneOf
  by_cases hd : dataShards ≤ i
  · rw [if_pos hd, show dataShards + (i - dataShards) = i by omega]
    constructor
    · rintro (h1 | h2 | h3)
      · exact h1.2
      · omega
      · omega
    · exact fun hp => .inl ⟨by omega, hp⟩
  · rw [if_neg hd, Nat.add_sub_cancel_left]
    constructor
    · rintro (h1 | h2 | h3)
      · omega
      · omega
      · exact h3.2.2
    · exact fun hp => .inr (.inr ⟨by omega, by omega, hp⟩)

/-- The loaded lanes are the lanes of the shards. -/
theorem mem_receivedLanes {driver : DecodeDriver} {task : Nat × Nat} :
    task ∈ receivedLanes driver ↔ task.1 < driver.dataShards + driver.parityShards ∧
      task.2 = laneOf driver.dataShards driver.m task.1 := by
  obtain ⟨i, lane⟩ := task
  unfold receivedLanes laneOf
  simp only [List.mem_append, List.mem_map, List.mem_range, Prod.mk.injEq]
  constructor
  · rintro (⟨j, hj, rfl, rfl⟩ | ⟨j, hj, rfl, rfl⟩)
    · exact ⟨by omega, by rw [if_neg (by omega)]⟩
    · exact ⟨by omega, by rw [if_pos (by omega)]; omega⟩
  · rintro ⟨hi, rfl⟩
    by_cases hd : driver.dataShards ≤ i
    · exact .inr ⟨i - driver.dataShards, by omega, by omega, by rw [if_pos hd]⟩
    · exact .inl ⟨i, by omega, rfl, by rw [if_neg hd]⟩

/-- The lane that a received shard is loaded to. -/
def receivedLane (F : Family w) (errLocs : List (BitVec w)) (present : List Bool)
    (inputs : List (Option (List (BitVec 8)))) (start stop : Nat) (work : Work w)
    (task : Nat × Nat) : List (BitVec w) :=
  if present.getD task.1 false then
    (F.layout.toWork (slice ((inputs.getD task.1 none).getD []) (start * F.layout.unit)
      (stop * F.layout.unit))).map (F.kernel.mul (errLocs.getD task.2 0#w))
  else clearLane (work.getD task.2 [])

variable {F : Family w} {inputs : List (Option (List (BitVec 8)))} {start stop : Nat}
  {work : Work w}

/-- With an input for every present shard the loads succeed. -/
theorem runAll_loadReceived (errLocs : List (BitVec w)) (driver : DecodeDriver)
    (hin : ∀ i, i < driver.dataShards + driver.parityShards → present.getD i false = true →
      ∃ input, inputs.getD i none = some input) :
    Outcome.runAll (loadReceived F errLocs present inputs start stop) (receivedLanes driver) work =
      (.ok ⟨⟩, (receivedLanes driver).foldl (fun work task =>
        work.set task.2 (receivedLane F errLocs present inputs start stop work task)) work) := by
  apply Outcome.runAll_eq_foldl (fun _ => True) _ _ _ _ trivial
  intro task htask u _
  refine ⟨?_, trivial⟩
  unfold loadReceived receivedLane
  cases hp : present.getD task.1 false with
  | false => simp
  | true =>
    obtain ⟨input, hinput⟩ := hin task.1 (mem_receivedLanes.mp htask).1 hp
    simp only [if_true]
    rw [hinput]
    rfl

/-- The element of a loaded lane. -/
theorem receivedLane_spec {errLocs : List (BitVec w)}
    (h : Admitted w dataShards parityShards k)
    (hloc : IsLocator F.kernel (erasures present dataShards parityShards (2 ^ k))
      (2 ^ k + dataShards) errLocs)
    (hlen : ∀ i, i < dataShards + parityShards → present.getD i false = true →
      (F.layout.toWork (slice ((inputs.getD i none).getD []) (start * F.layout.unit)
        (stop * F.layout.unit))).length = len)
    (hp : p < len) (hwork : Grid (2 ^ n) len work) {i : Nat} (hi : i < dataShards + parityShards)
    (hlane : laneOf dataShards (2 ^ k) i < 2 ^ n) :
    let lane := receivedLane F errLocs present inputs start stop work
      (i, laneOf dataShards (2 ^ k) i)
    lane.length = len ∧ F.kernel.elem (lane.getD p 0#w) =
      scaledColumn F.kernel present dataShards parityShards k (fun i => F.kernel.elem
        ((F.layout.toWork (slice ((inputs.getD i none).getD []) (start * F.layout.unit)
          (stop * F.layout.unit))).getD p 0#w)) (laneOf dataShards (2 ^ k) i) := by
  have hmem := erased_lane present h hi
  unfold receivedLane scaledColumn
  rw [receivedColumn_lane h _ hi]
  cases hpres : present.getD i false with
  | false =>
    simp only [Bool.false_eq_true, if_false, mul_zero]
    unfold clearLane
    rw [List.length_replicate, hwork.row_length _ hlane, List.getD_eq_getElem?_getD,
      List.getElem?_getD_replicate_default_eq, F.kernel.elem_zero]
    exact ⟨rfl, rfl⟩
  | true =>
    have hnot : laneOf dataShards (2 ^ k) i ∉ erasures present dataShards parityShards (2 ^ k) := by
      rw [hmem, hpres]
      decide
    have hl := hlen i hi hpres
    have hlt : laneOf dataShards (2 ^ k) i < 2 ^ k + dataShards := by
      have := h.parity_le
      unfold laneOf
      split_ifs <;> omega
    have hgen := hloc _ hlt
    rw [Finset.erase_eq_of_notMem hnot] at hgen
    simp only [if_true]
    rw [List.length_map, getD_map_of_lt _ _ _ (by omega) 0#w, F.kernel.elem_mul, hgen]
    exact ⟨hl, mul_comm _ _⟩

/-- The loaded lanes, the padding and the lanes past the data hold the scaled word. -/
theorem holds_received (shardSize : Nat) {errLocs : List (BitVec w)} (h : Decodable w dataShards parityShards k n)
    (hloc : IsLocator F.kernel (erasures present dataShards parityShards (2 ^ k))
      (2 ^ k + dataShards) errLocs)
    (hlen : ∀ i, i < dataShards + parityShards → present.getD i false = true →
      (F.layout.toWork (slice ((inputs.getD i none).getD []) (start * F.layout.unit)
        (stop * F.layout.unit))).length = len)
    (hp : p < len) (hwork : Grid (2 ^ n) len work) :
    Holds F.kernel (2 ^ n) len 0 p
      (scaledColumn F.kernel present dataShards parityShards k (fun i => F.kernel.elem
        ((F.layout.toWork (slice ((inputs.getD i none).getD []) (start * F.layout.unit)
          (stop * F.layout.unit))).getD p 0#w)))
      (zeroLanes (2 ^ k + dataShards) (2 ^ n - (2 ^ k + dataShards))
        (zeroLanes parityShards (2 ^ k - parityShards)
          ((receivedLanes (F.decodeDriverAt dataShards parityShards shardSize k n)).foldl
            (fun work task => work.set task.2
              (receivedLane F errLocs present inputs start stop work task)) work))) := by
  have hpar := h.parity_le
  have hlanes := h.lanes_le
  have hlane (i : Nat) (hi : i < dataShards + parityShards) :
      laneOf dataShards (2 ^ k) i < 2 ^ n := by
    unfold laneOf
    split_ifs <;> omega
  obtain ⟨r, hr⟩ : ∃ r : Nat → F.kernel.lawful.lfsr.Elem, r = fun i => F.kernel.elem
    ((F.layout.toWork (slice ((inputs.getD i none).getD []) (start * F.layout.unit)
      (stop * F.layout.unit))).getD p 0#w) := ⟨_, rfl⟩
  obtain ⟨hgrid, hload⟩ := foldl_cover (Grid (2 ^ n) len) (fun j => j < 2 ^ n)
    (fun u j => column F.kernel 0 p u j) (scaledColumn F.kernel present dataShards parityShards k r)
    (fun task j => j = task.2)
    (fun work task => work.set task.2 (receivedLane F errLocs present inputs start stop work task))
    (receivedLanes (F.decodeDriverAt dataShards parityShards shardSize k n)) work hwork
    (by
      intro task htask u hu
      obtain ⟨i, lane⟩ := task
      obtain ⟨hi, hl⟩ := mem_receivedLanes.mp htask
      simp only [Family.decodeDriverAt] at hi hl
      subst hl
      obtain ⟨hlength, helem⟩ := receivedLane_spec (F := F) h.toAdmitted hloc hlen hp hu hi
        (hlane i hi)
      refine ⟨grid_set hu _ hlength, fun j _ => ⟨fun hj => ?_, fun hj => ?_⟩⟩
      · rw [column_set hu (hlane i hi), Nat.zero_add, if_pos hj, helem, hj, hr]
      · rw [column_set hu (hlane i hi), Nat.zero_add, if_neg hj])
  obtain ⟨hgrid1, hcol1⟩ := column_zeroLanes (K := F.kernel) hgrid 0 p parityShards
    (2 ^ k - parityShards) (by omega)
  obtain ⟨hgrid2, hcol2⟩ := column_zeroLanes (K := F.kernel) hgrid1 0 p (2 ^ k + dataShards)
    (2 ^ n - (2 ^ k + dataShards)) (by omega)
  refine ⟨hgrid2, fun j hj => ?_⟩
  rw [← hr, hcol2 j hj, hcol1 j hj, Nat.zero_add]
  have hzero (hout : (parityShards ≤ j ∧ j < 2 ^ k) ∨ 2 ^ k + dataShards ≤ j) :
      scaledColumn F.kernel present dataShards parityShards k r j = 0 := by
    unfold scaledColumn receivedColumn
    rw [if_neg (by omega)]
    rcases hout with hpad | hpast
    · rw [if_pos hpad.2, mul_zero]
    · rw [if_neg (by omega), if_neg (by omega), mul_zero]
  by_cases hpast : 2 ^ k + dataShards ≤ j
  · rw [if_pos (by omega), hzero (.inr hpast)]
  · rw [if_neg (by omega)]
    by_cases hpad : parityShards ≤ j ∧ j < 2 ^ k
    · rw [if_pos (by omega), hzero (.inl hpad)]
    · rw [if_neg (by omega)]
      apply (hload j hj).1
      have hshard : ∃ i, i < dataShards + parityShards ∧ j = laneOf dataShards (2 ^ k) i := by
        unfold laneOf
        by_cases hlow : j < 2 ^ k
        · exact ⟨dataShards + j, by omega, by rw [if_pos (by omega)]; omega⟩
        · exact ⟨j - 2 ^ k, by omega, by rw [if_neg (by omega)]; omega⟩
      obtain ⟨i, hi, heq⟩ := hshard
      exact ⟨(i, j), mem_receivedLanes.mpr ⟨hi, heq⟩, rfl⟩

/-- A chunk of the decoder transforms the received columns, whatever the lanes
held. -/
theorem decodeChunk_spec {D : Decoder w} (shardSize : Nat) (h : Decodable w dataShards parityShards k n)
    (hin : ∀ i, i < dataShards + parityShards → present.getD i false = true →
      ∃ input, inputs.getD i none = some input ∧
        (D.layout.toWork (slice input (start * D.layout.unit) (stop * D.layout.unit))).length = len)
    (h0 : 0 < len) (hwork : Grid (2 ^ n) len work) :
    ∃ views, decodeChunk D.toFamily
        (decodePlanAt D present (D.decodeDriverAt dataShards parityShards shardSize k n))
        (D.decodeDriverAt dataShards parityShards shardSize k n) present inputs start stop work =
        (.ok ⟨⟩, views) ∧
      Grid (2 ^ n) len views ∧ ∀ p j, p < len → j < 2 ^ k + dataShards →
        column D.kernel 0 p views j =
          transformedColumn D.kernel present dataShards parityShards k n (fun i => D.kernel.elem
            ((D.layout.toWork (slice ((inputs.getD i none).getD []) (start * D.layout.unit)
              (stop * D.layout.unit))).getD p 0#w)) j := by
  have hpar := h.parity_le
  have hlanes := h.lanes_le
  have hle := h.two_pow_le
  have hpos := Nat.two_pow_pos k
  obtain ⟨count, hcount⟩ : ∃ count, count =
    D.inputCount present (D.decodeDriverAt dataShards parityShards shardSize k n) := ⟨_, rfl⟩
  have hrange := D.inputCount_spec present (D.decodeDriverAt dataShards parityShards shardSize k n)
  rw [← hcount] at hrange
  have hm : 2 ^ k ≤ count := hrange.m_le
  have hend : count ≤ 2 ^ k + dataShards := hrange.le_workSize
  have hcovers : ∀ i, i < dataShards → present.getD i false = true → 2 ^ k + i < count :=
    hrange.covers
  have hloc := D.errorLocs_spec present (D.decodeDriverAt dataShards parityShards shardSize k n) hpar
    rfl h.workSize_le
  have hsome (i : Nat) (hi : i < dataShards + parityShards) (hp : present.getD i false = true) :
      ∃ input, inputs.getD i none = some input := (hin i hi hp).imp fun _ h => h.1
  have hlen (i : Nat) (hi : i < dataShards + parityShards) (hp : present.getD i false = true) :
      (D.layout.toWork (slice ((inputs.getD i none).getD []) (start * D.layout.unit)
        (stop * D.layout.unit))).length = len := by
    obtain ⟨input, hinput, hl⟩ := hin i hi hp
    rw [hinput]
    exact hl
  unfold decodeChunk
  rw [runAll_loadReceived _ _ hsome]
  simp only
  refine ⟨_, rfl, ?_⟩
  unfold decodeTransforms decodePlanAt
  rw [← hcount]
  have hholds (p : Nat) (hp : p < len) := holds_received shardSize h hloc hlen hp hwork
  have hrun (p : Nat) (hp : p < len) := holds_fft (K := D.kernel) h.n_le hlanes hp
    (show Dit4Strategy.directSafe ≠ .auto by decide) (holds_derivative hp
      (holds_ifftDitDecode (dvd_zero _) (by omega) (by omega : 0 < count) (by omega) hp
        (by
          intro j hj hlt
          unfold scaledColumn receivedColumn
          rw [Nat.zero_add, if_neg (by omega), if_neg (by omega)]
          split_ifs with hd hpres
          · have := hcovers (j - 2 ^ k) hd hpres
            omega
          · exact mul_zero _
          · exact mul_zero _)
        (fun _ _ => rfl) (hholds p hp)))
  exact ⟨(hrun 0 h0).1, fun p j hp hj => (hrun p hp).2 j hj⟩

end Chunk

section Step

variable {dataShards parityShards k n shardSize : Nat} {present : List Bool}
  {inputs : List (Option (List (BitVec 8)))}

/-- A missing shard with an output buffer. -/
def Requested (present : List Bool) (outputs : List (List (BitVec 8))) (i : Nat) : Prop :=
  present.getD i false = false ∧ outputs.getD i [] ≠ []

/-- Outputs of the same lengths, written at the requested shards only. -/
structure Kept (present : List Bool) (before after : List (List (BitVec 8))) : Prop where
  length_eq : after.length = before.length
  row_length : ∀ i, (after.getD i []).length = (before.getD i []).length
  frame : ∀ i, ¬Requested present before i → after.getD i [] = before.getD i []

theorem Kept.refl (present : List Bool) (outputs : List (List (BitVec 8))) :
    Kept present outputs outputs := ⟨rfl, fun _ => rfl, fun _ _ => rfl⟩

theorem Kept.requested {before after : List (List (BitVec 8))} (h : Kept present before after)
    (i : Nat) : Requested present after i ↔ Requested present before i := by
  have hnil : after.getD i [] = [] ↔ before.getD i [] = [] := by
    rw [← List.length_eq_zero_iff, h.row_length, List.length_eq_zero_iff]
  unfold Requested
  rw [ne_eq, ne_eq, hnil]

theorem Kept.trans {before mid after : List (List (BitVec 8))} (h : Kept present before mid)
    (h' : Kept present mid after) : Kept present before after where
  length_eq := h'.length_eq.trans h.length_eq
  row_length i := (h'.row_length i).trans (h.row_length i)
  frame i hi := (h'.frame i (fun hr => hi ((h.requested i).mp hr))).trans (h.frame i hi)

/-- Every present shard has an input. -/
def Received (present : List Bool) (inputs : List (Option (List (BitVec 8))))
    (total shardSize : Nat) : Prop :=
  ∀ i, i < total → present.getD i false = true →
    ∃ input, inputs.getD i none = some input ∧ input.length = shardSize

/-- The recovered value of a shard. -/
noncomputable def recoveredColumn (K : Kernel w) (present : List Bool)
    (dataShards parityShards k n : Nat) (r : Nat → K.lawful.lfsr.Elem) (i : Nat) :
    K.lawful.lfsr.Elem :=
  transformedColumn K present dataShards parityShards k n r (laneOf dataShards (2 ^ k) i) *
    (∏ e ∈ (erasures present dataShards parityShards (2 ^ k)).erase (laneOf dataShards (2 ^ k) i),
      (K.lawful.points.point (laneOf dataShards (2 ^ k) i) + K.lawful.points.point e))⁻¹

/-- Only present shards are read. -/
theorem transformedColumn_congr {K : Kernel w} {r r' : Nat → K.lawful.lfsr.Elem}
    (h : ∀ i, i < dataShards + parityShards → present.getD i false = true → r i = r' i) (j : Nat) :
    transformedColumn K present dataShards parityShards k n r j =
      transformedColumn K present dataShards parityShards k n r' j := by
  have hword : scaledColumn K present dataShards parityShards k r =
      scaledColumn K present dataShards parityShards k r' := by
    funext j
    unfold scaledColumn receivedColumn
    split_ifs with h1 h2 h3 h4 h5
    · rw [h _ (by omega) h2]
    · rfl
    · rfl
    · rw [h _ (by omega) h5]
    · rfl
    · rfl
  unfold transformedColumn
  rw [hword]

/-- The inverse of a locator value. -/
theorem gen_invErr {K : Kernel w} (err : BitVec w) :
    K.lawful.lfsr.gen ^ (BitVec.ofNat w (modulus w) - err).toNat =
      (K.lawful.lfsr.gen ^ err.toNat)⁻¹ := by
  have hlt := err.isLt
  have hpos := Nat.two_pow_pos w
  have hmod : modulus w = 2 ^ w - 1 := rfl
  have hsub : (BitVec.ofNat w (modulus w) - err).toNat = modulus w - err.toNat := by
    rw [BitVec.toNat_sub, BitVec.toNat_ofNat, Nat.mod_eq_of_lt (by omega : modulus w < 2 ^ w),
      show 2 ^ w - err.toNat + modulus w = modulus w - err.toNat + 2 ^ w by omega,
      Nat.add_mod_right, Nat.mod_eq_of_lt (by omega)]
  apply eq_inv_of_mul_eq_one_left
  rw [hsub, ← pow_add, Nat.sub_add_cancel (by omega)]
  exact K.lawful.lfsr.gen_pow_period

theorem mem_recoveryTargets {driver : DecodeDriver} {errLocs : List (BitVec w)}
    {outputs : List (List (BitVec 8))} {t : RecoveryTarget w} :
    t ∈ recoveryTargets driver present errLocs outputs ↔
      t.shard < driver.dataShards + driver.parityShards ∧ Requested present outputs t.shard ∧
        t.lane = laneOf driver.dataShards driver.m t.shard ∧
        t.invErr = BitVec.ofNat w (modulus w) - errLocs.getD t.lane 0#w := by
  unfold recoveryTargets Requested
  simp only [List.mem_map, List.mem_filter, List.mem_range, Bool.and_eq_true, Bool.not_eq_true',
    List.isEmpty_eq_false_iff]
  constructor
  · rintro ⟨i, ⟨hi, hreq⟩, rfl⟩
    exact ⟨hi, hreq, rfl, rfl⟩
  · rintro ⟨hi, hreq, hlane, hinv⟩
    refine ⟨t.shard, ⟨hi, hreq⟩, ?_⟩
    obtain ⟨shard, lane, invErr⟩ := t
    simp only at hlane hinv ⊢
    rw [hinv, hlane]

/-- The targets are told apart by their shards. -/
theorem nodup_recoveryTargets (driver : DecodeDriver) (present : List Bool)
    (errLocs : List (BitVec w)) (outputs : List (List (BitVec 8))) :
    ((recoveryTargets driver present errLocs outputs).map RecoveryTarget.shard).Nodup := by
  unfold recoveryTargets
  rw [List.map_map]
  have hid : (RecoveryTarget.shard ∘ fun i => (⟨i, laneOf driver.dataShards driver.m i,
      BitVec.ofNat w (modulus w) - errLocs.getD (laneOf driver.dataShards driver.m i) 0#w⟩ :
      RecoveryTarget w)) = id := rfl
  rw [hid, List.map_id]
  exact List.nodup_range.filter _

/-- The targets depend on which outputs are empty only. -/
theorem Kept.recoveryTargets_eq {before after : List (List (BitVec 8))}
    (h : Kept present before after) (driver : DecodeDriver) (errLocs : List (BitVec w)) :
    recoveryTargets driver present errLocs after = recoveryTargets driver present errLocs before := by
  have hflag (i : Nat) : (after.getD i []).isEmpty = (before.getD i []).isEmpty := by
    rw [Bool.eq_iff_iff, List.isEmpty_iff_length_eq_zero, List.isEmpty_iff_length_eq_zero,
      h.row_length]
  unfold recoveryTargets
  simp only [hflag]

theorem zip_map_self {α β : Type*} (l : List α) (f : α → β) :
    l.zip (l.map f) = l.map fun a => (a, f a) := by
  have hmap := List.zip_map' (f := id) (g := f) (l := l)
  rwa [List.map_id] at hmap

/-- What a chunk writes: the recovered values on its window, and the other
elements and outputs are kept. -/
theorem recoverOutputs_spec {D : Decoder w} (h : Decodable w dataShards parityShards k n)
    {errLocs : List (BitVec w)} (hloc : IsLocator D.kernel (erasures present dataShards parityShards
      (2 ^ k)) (2 ^ k + dataShards) errLocs) (h64 : 64 ∣ shardSize) {start : Nat} (size : Nat)
    (ha : 64 ∣ start * D.layout.unit) (hsize : 64 ∣ size * D.layout.unit)
    (hend : (start + size) * D.layout.unit ≤ shardSize) {views : Work w}
    (hviews : Grid (2 ^ n) size views) {r : Nat → Nat → D.kernel.lawful.lfsr.Elem}
    (hcol : ∀ p j, p < size → j < 2 ^ k + dataShards → column D.kernel 0 p views j =
      transformedColumn D.kernel present dataShards parityShards k n (r (start + p)) j)
    {outputs : List (List (BitVec 8))} (hlength : outputs.length = dataShards + parityShards)
    (hout : ∀ i, Requested present outputs i → (outputs.getD i []).length = shardSize)
    {targets : List (RecoveryTarget w)} (htargets : targets = recoveryTargets
      (D.decodeDriverAt dataShards parityShards shardSize k n) present errLocs outputs) :
    let result := recoverOutputs D.toFamily targets
      (targets.map fun t => (t.shard, start * D.layout.unit)) views outputs
    Kept present outputs result ∧ ∀ i x, i < dataShards + parityShards →
      Requested present outputs i → x < shardSize / D.layout.unit →
      D.value (result.getD i []) x = if start ≤ x ∧ x < start + size then
        recoveredColumn D.kernel present dataShards parityShards k n (r x) i
      else D.value (outputs.getD i []) x := by
  have hpar := h.parity_le
  have hlanes := h.lanes_le
  have hmem {t : RecoveryTarget w} (ht : t ∈ targets) : t.shard < dataShards + parityShards ∧
      Requested present outputs t.shard ∧ t.lane = laneOf dataShards (2 ^ k) t.shard ∧
      t.invErr = BitVec.ofNat w (modulus w) - errLocs.getD t.lane 0#w := by
    rw [htargets] at ht
    exact mem_recoveryTargets.mp ht
  have hlane (i : Nat) (hi : i < dataShards + parityShards) :
      laneOf dataShards (2 ^ k) i < 2 ^ k + dataShards := by
    unfold laneOf
    split_ifs <;> omega
  have hzip := zip_map_self targets fun t => (t.shard, start * D.layout.unit)
  have hnodup : (targets.map RecoveryTarget.shard).Nodup := by
    rw [htargets]
    exact nodup_recoveryTargets _ _ _ _
  intro result
  have hresult : result = targets.foldl (fun outputs t => outputs.set t.shard (overwrite
      (start * D.layout.unit) (D.layout.toUser ((views.getD t.lane []).map
        (D.kernel.mul t.invErr))) (outputs.getD t.shard []))) outputs := by
    change recoverOutputs _ _ _ _ _ = _
    unfold recoverOutputs
    rw [hzip, List.foldl_map]
  obtain ⟨hlen, hwrite, hframe⟩ := foldl_set_distinct targets RecoveryTarget.shard
    (fun t output => overwrite (start * D.layout.unit) (D.layout.toUser ((views.getD t.lane []).map
      (D.kernel.mul t.invErr))) output) hnodup outputs []
    (fun t ht => by rw [hlength]; exact (hmem ht).1)
  rw [← hresult] at hlen hwrite hframe
  have htarget (i : Nat) (hi : i < dataShards + parityShards) (hreq : Requested present outputs i) :
      ∃ t ∈ targets, t.shard = i := by
    refine ⟨⟨i, laneOf dataShards (2 ^ k) i, BitVec.ofNat w (modulus w) -
      errLocs.getD (laneOf dataShards (2 ^ k) i) 0#w⟩, ?_, rfl⟩
    rw [htargets]
    exact mem_recoveryTargets.mpr ⟨hi, hreq, rfl, rfl⟩
  refine ⟨⟨hlen, fun i => ?_, fun i hi => ?_⟩, fun i x hi hreq hx => ?_⟩
  · by_cases hin : i ∈ targets.map RecoveryTarget.shard
    · obtain ⟨t, ht, rfl⟩ := List.mem_map.mp hin
      rw [hwrite t ht, length_overwrite]
    · rw [hframe i hin]
  · apply hframe
    intro hin
    obtain ⟨t, ht, rfl⟩ := List.mem_map.mp hin
    exact hi (hmem ht).2.1
  · obtain ⟨t, ht, rfl⟩ := htarget i hi hreq
    obtain ⟨-, -, hl, hinv⟩ := hmem ht
    have hrow : (views.getD t.lane []).length = size :=
      hviews.row_length _ (by rw [hl]; have := hlane _ hi; omega)
    have hlen' := hout _ hreq
    rw [hwrite t ht, value_overwrite (F := D.toFamily) _ size x (by rw [hlen']; exact h64) ha
      (by rw [List.length_map]; exact hrow) hsize (by rw [hlen']; exact hend)
      (by rw [hlen']; exact hx)]
    by_cases hin : start ≤ x ∧ x < start + size
    · rw [if_pos hin, if_pos hin, getD_map_of_lt _ _ _ (by omega) 0#w, D.kernel.elem_mul, hinv,
        gen_invErr]
      have hc := hcol (x - start) t.lane (by omega) (by rw [hl]; exact hlane _ hi)
      unfold column at hc
      rw [if_neg (by omega), Nat.sub_zero, show start + (x - start) = x by omega] at hc
      rw [hc, hloc _ (by rw [hl]; exact hlane _ hi), hl]
      rfl
    · rw [if_neg hin, if_neg hin]

/-- The value that decoding gives element `x` of shard `i`. -/
noncomputable def Decoder.decoded (D : Decoder w) (present : List Bool)
    (inputs : List (Option (List (BitVec 8)))) (dataShards parityShards k n i x : Nat) :
    D.kernel.lawful.lfsr.Elem :=
  recoveredColumn D.kernel present dataShards parityShards k n
    (fun i => D.value ((inputs.getD i none).getD []) x) i

/-- The outputs that a call starts with. -/
structure OutputBuffers (present : List Bool) (total shardSize : Nat)
    (outputs : List (List (BitVec 8))) : Prop where
  length_eq : outputs.length = total
  row_length : ∀ i, Requested present outputs i → (outputs.getD i []).length = shardSize

/-- One chunk succeeds, and decodes its window whatever the buffers held. -/
theorem decodeStep_spec {D : Decoder w} (h : Decodable w dataShards parityShards k n)
    (h64 : 64 ∣ shardSize) (hrec : Received present inputs (dataShards + parityShards) shardSize)
    {outputs : List (List (BitVec 8))}
    (hout : OutputBuffers present (dataShards + parityShards) shardSize outputs)
    {plan : DecodePlan w} (hplan : plan = decodePlanAt D present
      (D.decodeDriverAt dataShards parityShards shardSize k n))
    {targets : List (RecoveryTarget w)} (htargets : targets = recoveryTargets
      (D.decodeDriverAt dataShards parityShards shardSize k n) present plan.errLocs outputs)
    {window : Nat × Nat} (hlt : window.1 < window.2) (hle : window.2 ≤ shardSize / D.layout.unit)
    (ha : 64 ∣ window.1 * D.layout.unit) (hb : 64 ∣ window.2 * D.layout.unit) {cap : Nat}
    (hcap : window.2 - window.1 ≤ cap) {lanes : Work w} (hlanes : Grid (2 ^ n) cap lanes)
    {current : List (List (BitVec 8))} (hkept : Kept present outputs current) :
    ∃ lanes' current', decodeStep D.toFamily plan
        (D.decodeDriverAt dataShards parityShards shardSize k n) present inputs targets
        (targets.map fun t => (t.shard, window.1 * D.layout.unit)) (lanes, current) window =
        (.ok ⟨⟩, (lanes', current')) ∧
      Grid (2 ^ n) cap lanes' ∧ Kept present outputs current' ∧
      ∀ i x, i < dataShards + parityShards → Requested present outputs i →
        x < shardSize / D.layout.unit → D.value (current'.getD i []) x =
          if window.1 ≤ x ∧ x < window.2 then
            D.decoded present inputs dataShards parityShards k n i x
          else D.value (current.getD i []) x := by
  obtain ⟨start, stop⟩ := window
  simp only at hlt hle ha hb hcap ⊢
  have hpar := h.parity_le
  have hstop : stop * D.layout.unit ≤ shardSize := (Nat.le_div_iff_mul_le D.layout.unit_pos).mp hle
  have hwin : 64 ∣ (stop - start) * D.layout.unit := by
    rw [Nat.sub_mul]
    exact Nat.dvd_sub hb ha
  have hin (i : Nat) (hi : i < dataShards + parityShards) (hp : present.getD i false = true) :
      ∃ input, inputs.getD i none = some input ∧
        (D.layout.toWork (slice input (start * D.layout.unit) (stop * D.layout.unit))).length =
          stop - start := by
    obtain ⟨input, hinput, hl⟩ := hrec i hi hp
    exact ⟨input, hinput, (value_slice (F := D.toFamily) input 0 (by rw [hl]; exact h64) ha hb hlt.le
      (by rw [hl]; exact hstop)).1⟩
  obtain ⟨views, hchunk, hgrid, hcol⟩ := decodeChunk_spec shardSize h hin (by omega)
    (grid_views hlanes hcap)
  rw [← hplan] at hchunk
  have hstep : decodeStep D.toFamily plan (D.decodeDriverAt dataShards parityShards shardSize k n)
      present inputs targets (targets.map fun t => (t.shard, start * D.layout.unit))
      (lanes, current) (start, stop) = (.ok ⟨⟩, (putViews (stop - start) lanes views,
        recoverOutputs D.toFamily targets (targets.map fun t => (t.shard, start * D.layout.unit))
          views current)) := by
    unfold decodeStep
    simp only [hchunk]
  have hloc : IsLocator D.kernel (erasures present dataShards parityShards (2 ^ k))
      (2 ^ k + dataShards) plan.errLocs := by
    rw [hplan]
    exact D.errorLocs_spec present (D.decodeDriverAt dataShards parityShards shardSize k n) hpar rfl
      h.workSize_le
  obtain ⟨hkept', hval⟩ := recoverOutputs_spec (D := D)
    (r := fun x i => D.value ((inputs.getD i none).getD []) x) h hloc h64 (stop - start) ha hwin
    (by rw [show start + (stop - start) = stop by omega]; exact hstop) hgrid
    (by
      intro p j hp hj
      rw [hcol p j hp hj]
      apply transformedColumn_congr
      intro i hi hpres
      obtain ⟨input, hinput, hl⟩ := hrec i hi hpres
      rw [hinput, Option.getD_some]
      exact (value_slice (F := D.toFamily) input p (by rw [hl]; exact h64) ha hb hlt.le
        (by rw [hl]; exact hstop)).2 hp)
    (hkept.length_eq.trans hout.length_eq)
    (fun i hi => (hkept.row_length i).trans (hout.row_length i ((hkept.requested i).mp hi)))
    (htargets.trans (hkept.recoveryTargets_eq _ _).symm)
  refine ⟨_, _, hstep, grid_putViews hlanes hgrid hcap, hkept.trans hkept', ?_⟩
  intro i x hi hreq hx
  rw [hval i x hi ((hkept.requested i).mpr hreq) hx, show start + (stop - start) = stop by omega]
  rfl

/-- The result of decoding: every requested shard is decoded and the rest is kept. -/
structure IsDecoded (D : Decoder w) (present : List Bool) (inputs : List (Option (List (BitVec 8))))
    (dataShards parityShards k n shardSize : Nat) (before after : List (List (BitVec 8))) :
    Prop where
  kept : Kept present before after
  value : ∀ i x, i < dataShards + parityShards → Requested present before i →
    x < shardSize / D.layout.unit →
    D.value (after.getD i []) x = D.decoded present inputs dataShards parityShards k n i x

/-- The decoded outputs are determined. -/
theorem IsDecoded.unique {D : Decoder w} (h64 : 64 ∣ shardSize)
    {before after after' : List (List (BitVec 8))}
    (hout : OutputBuffers present (dataShards + parityShards) shardSize before)
    (h : IsDecoded D present inputs dataShards parityShards k n shardSize before after)
    (h' : IsDecoded D present inputs dataShards parityShards k n shardSize before after') :
    after = after' := by
  have hlen := h.kept.length_eq
  apply getD_ext [] (hlen.trans h'.kept.length_eq.symm)
  intro i hi
  by_cases hreq : Requested present before i
  · rw [hlen, hout.length_eq] at hi
    have hl := (h.kept.row_length i).trans (hout.row_length i hreq)
    have hl' := (h'.kept.row_length i).trans (hout.row_length i hreq)
    apply D.value_ext (by rw [hl]; exact h64) (hl.trans hl'.symm)
    intro x hx
    rw [hl] at hx
    rw [h.value i x hi hreq hx, h'.value i x hi hreq hx]
  · rw [h.kept.frame i hreq, h'.kept.frame i hreq]

/-- A window that a chunk buffer of `cap` elements takes. -/
structure ChunkWindow (D : Decoder w) (shardSize cap : Nat) (window : Nat × Nat) : Prop where
  lt : window.1 < window.2
  le : window.2 ≤ shardSize / D.layout.unit
  start_dvd : 64 ∣ window.1 * D.layout.unit
  stop_dvd : 64 ∣ window.2 * D.layout.unit
  cap_le : window.2 - window.1 ≤ cap

/-- A loop over windows succeeds and decodes what they cover; `step` is one way
to run a chunk on outputs of unchanged lengths. -/
theorem runAll_decodeStep {D : Decoder w} (h : Decodable w dataShards parityShards k n)
    (h64 : 64 ∣ shardSize) (hrec : Received present inputs (dataShards + parityShards) shardSize)
    {outputs : List (List (BitVec 8))}
    (hout : OutputBuffers present (dataShards + parityShards) shardSize outputs)
    {plan : DecodePlan w} (hplan : plan = decodePlanAt D present
      (D.decodeDriverAt dataShards parityShards shardSize k n))
    {targets : List (RecoveryTarget w)} (htargets : targets = recoveryTargets
      (D.decodeDriverAt dataShards parityShards shardSize k n) present plan.errLocs outputs)
    (step : Work w × List (List (BitVec 8)) → Nat × Nat →
      Outcome Error PUnit × (Work w × List (List (BitVec 8)))) {windows : List (Nat × Nat)}
    (hstep : ∀ window ∈ windows, ∀ st, Kept present outputs st.2 → step st window =
      decodeStep D.toFamily plan (D.decodeDriverAt dataShards parityShards shardSize k n) present
        inputs targets (targets.map fun t => (t.shard, window.1 * D.layout.unit)) st window)
    {cap : Nat} (hwin : ∀ window ∈ windows, ChunkWindow D shardSize cap window) {lanes : Work w}
    (hlanes : Grid (2 ^ n) cap lanes) {current : List (List (BitVec 8))}
    (hkept : Kept present outputs current) :
    ∃ lanes' current', Outcome.runAll step windows (lanes, current) = (.ok ⟨⟩, (lanes', current')) ∧
      Grid (2 ^ n) cap lanes' ∧ Kept present outputs current' ∧
      ∀ i x, i < dataShards + parityShards → Requested present outputs i →
        x < shardSize / D.layout.unit →
        ((∃ window ∈ windows, window.1 ≤ x ∧ x < window.2) →
          D.value (current'.getD i []) x =
            D.decoded present inputs dataShards parityShards k n i x) ∧
        ((∀ window ∈ windows, ¬(window.1 ≤ x ∧ x < window.2)) →
          D.value (current'.getD i []) x = D.value (current.getD i []) x) := by
  have hone (window : Nat × Nat) (hmem : window ∈ windows) (st : Work w × List (List (BitVec 8)))
      (hst : Grid (2 ^ n) cap st.1 ∧ Kept present outputs st.2) :
      ∃ next, step st window = (.ok ⟨⟩, next) ∧ (Grid (2 ^ n) cap next.1 ∧ Kept present outputs next.2) ∧
        ∀ i x, i < dataShards + parityShards → Requested present outputs i →
          x < shardSize / D.layout.unit → D.value (next.2.getD i []) x =
            if window.1 ≤ x ∧ x < window.2 then
              D.decoded present inputs dataShards parityShards k n i x
            else D.value (st.2.getD i []) x := by
    have hw := hwin window hmem
    obtain ⟨lanes', current', heq, hgrid, hkept', hval⟩ := decodeStep_spec (D := D) h h64 hrec hout
      hplan htargets hw.lt hw.le hw.start_dvd hw.stop_dvd hw.cap_le hst.1 hst.2
    exact ⟨(lanes', current'), (hstep window hmem st hst.2).trans heq, ⟨hgrid, hkept'⟩, hval⟩
  have hrun := Outcome.runAll_eq_foldl
    (fun st : Work w × List (List (BitVec 8)) => Grid (2 ^ n) cap st.1 ∧ Kept present outputs st.2)
    step (fun st window => (step st window).2) windows (lanes, current) ⟨hlanes, hkept⟩
    (by
      intro window hmem st hst
      obtain ⟨next, heq, hnext, -⟩ := hone window hmem st hst
      rw [heq]
      exact ⟨rfl, hnext⟩)
  obtain ⟨hok, hread⟩ := foldl_cover
    (fun st : Work w × List (List (BitVec 8)) => Grid (2 ^ n) cap st.1 ∧ Kept present outputs st.2)
    (fun q : Nat × Nat => q.1 < dataShards + parityShards ∧ Requested present outputs q.1 ∧
      q.2 < shardSize / D.layout.unit)
    (fun st q => D.value (st.2.getD q.1 []) q.2)
    (fun q => D.decoded present inputs dataShards parityShards k n q.1 q.2)
    (fun window q => window.1 ≤ q.2 ∧ q.2 < window.2)
    (fun st window => (step st window).2) windows (lanes, current) ⟨hlanes, hkept⟩
    (by
      intro window hmem st hst
      obtain ⟨next, heq, hnext, hval⟩ := hone window hmem st hst
      rw [heq]
      refine ⟨hnext, fun q hq => ⟨fun hin => ?_, fun hout => ?_⟩⟩
      · exact (hval q.1 q.2 hq.1 hq.2.1 hq.2.2).trans (if_pos hin)
      · exact (hval q.1 q.2 hq.1 hq.2.1 hq.2.2).trans (if_neg hout))
  exact ⟨_, _, hrun, hok.1, hok.2, fun i x hi hreq hx => hread (i, x) ⟨hi, hreq, hx⟩⟩

/-- The windows of a loop over a whole shard, in elements. -/
theorem chunkWindow_chunkRanges {D : Decoder w} (h64 : 64 ∣ shardSize) {window : Nat × Nat}
    (hmem : window ∈ chunkRanges (shardSize / D.layout.unit) D.decodeChunkSize) :
    ChunkWindow D shardSize (min (shardSize / D.layout.unit) D.decodeChunkSize) window := by
  obtain ⟨hpos, halign⟩ := D.decodeChunk_spec
  have hlen : shardSize / D.layout.unit * D.layout.unit = shardSize :=
    Nat.div_mul_cancel (dvd_trans D.layout.unit_dvd h64)
  obtain ⟨hlt, hle, hsize⟩ := chunkRanges_bounds hpos hmem
  obtain ⟨ha, hb⟩ := chunkRanges_aligned halign (by rw [hlen]; exact h64) hmem
  exact ⟨hlt, hle, ha, hb, by omega⟩

end Step

end Leopard

end ErasureCodec
