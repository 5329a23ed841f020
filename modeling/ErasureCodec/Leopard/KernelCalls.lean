import ErasureCodec.Leopard.CodeWord
import ErasureCodec.Leopard.DecodeGf16
import ErasureCodec.Leopard.DecodeGf8
import ErasureCodec.Leopard.Fused
import ErasureCodec.Leopard.KernelRuns
import ErasureCodec.Leopard.LayoutSimd
import ErasureCodec.Leopard.MulGf8

namespace ErasureCodec

namespace Leopard

section Gf16

/-- What the GF16 kernels of a thread share: the matrix cache and the scratch lane. -/
structure KernelState16 where
  cache : MatrixCache
  scratch : List (BitVec 16)

/-- `scratch.resize(size, 0)` where a conversion needs it. -/
def Machine.resizeScratch (machine : Machine) (size : Nat) (st : KernelState16) : KernelState16 :=
  if machine.std ∧ st.scratch.length < size then
    { st with scratch := st.scratch ++ List.replicate (size - st.scratch.length) 0#16 }
  else st

/-- `conversion_scratch`, with what it leaves out. -/
def Machine.conversionScratch (machine : Machine) (scratch : List (BitVec 16)) (size : Nat) :
    List (BitVec 16) × List (BitVec 16) :=
  if machine.std then (scratch.take size, scratch.drop size) else (scratch, [])

def Machine.loadMul (machine : Machine) (logM : BitVec 16) (user : List (BitVec 8))
    (lane : List (BitVec 16)) (st : KernelState16) : Option (List (BitVec 16) × KernelState16) :=
  let (scratch, rest) := machine.conversionScratch st.scratch lane.length
  (machine.userToWorkMul user lane scratch logM .canonical st.cache).map fun result =>
    (result.1.1, ⟨result.2, result.1.2 ++ rest⟩)

def Machine.storeMul (machine : Machine) (logM : BitVec 16) (lane : List (BitVec 16))
    (user : List (BitVec 8)) (st : KernelState16) : Option (List (BitVec 8) × KernelState16) :=
  let (scratch, rest) := machine.conversionScratch st.scratch lane.length
  (machine.workMulToUser lane user scratch logM .canonical st.cache).map fun result =>
    (result.1.1, ⟨result.2, result.1.2 ++ rest⟩)

/-- `fft_dit2_16` and `ifft_dit2_16`. -/
def Machine.dit2 (machine : Machine) (dir : TransformDir) (logM : BitVec 16)
    (x y : List (BitVec 16)) (st : KernelState16) :
    (List (BitVec 16) × List (BitVec 16)) × KernelState16 :=
  let result := match dir with
    | .forward => dit2Step16 machine x y logM .canonical st.cache
    | .inverse => dit2StepInv16 machine x y logM .canonical st.cache
  (result.1, { st with cache := result.2 })

/-- A cache that answers right and, where conversions use one, a scratch lane that is long
enough. -/
structure Machine.Ready (machine : Machine) (len : Nat) (st : KernelState16) : Prop where
  cache : st.cache.Sound
  scratch : machine.std = true → len ≤ st.scratch.length

variable {machine : Machine} {k len : Nat} {st : KernelState16}

theorem Machine.ready_resize (len : Nat) (h : machine.Ready k st) :
    machine.Ready len (machine.resizeScratch len st) := by
  rw [resizeScratch]
  split_ifs with hshort
  · refine ⟨h.cache, fun _ => ?_⟩
    rw [List.length_append, List.length_replicate]
    omega
  · refine ⟨h.cache, fun hstd => ?_⟩
    by_contra hlt
    exact hshort ⟨hstd, by omega⟩

theorem Machine.length_conversionScratch (h : machine.Ready len st) :
    (machine.std = true → (machine.conversionScratch st.scratch len).1.length = len) ∧
      (machine.conversionScratch st.scratch len).1.length +
        (machine.conversionScratch st.scratch len).2.length = st.scratch.length := by
  have hscratch := h.scratch
  rw [conversionScratch]
  split_ifs with hstd
  · have hle := hscratch hstd
    refine ⟨fun _ => ?_, ?_⟩
    · rw [List.length_take, Nat.min_eq_left hle]
    · rw [List.length_take, List.length_drop]
      omega
  · exact ⟨fun h => absurd h hstd, rfl⟩

theorem Machine.dit2_yields (dir : TransformDir) (logM : BitVec 16) {x y : List (BitVec 16)}
    (hlen : y.length = x.length) (h : machine.Ready k st) :
    Yields (machine.Ready k) (some (machine.dit2 dir logM x y st))
      (Leopard.dit2 gf16Kernel dir logM x y) := by
  rw [← butterflyWords_eq_dit2 dir logM hlen]
  cases dir with
  | forward =>
    obtain ⟨hvalue, more, hcache⟩ := dit2Step16_spec built_canonical machine logM hlen h.cache
    have hsound := sound_lookUps more h.cache
    rw [← hcache] at hsound
    exact ⟨_, congrArg some (Prod.ext hvalue rfl), ⟨hsound, h.scratch⟩⟩
  | inverse =>
    obtain ⟨hvalue, more, hcache⟩ := dit2StepInv16_spec built_canonical machine logM hlen h.cache
    have hsound := sound_lookUps more h.cache
    rw [← hcache] at hsound
    exact ⟨_, congrArg some (Prod.ext hvalue rfl), ⟨hsound, h.scratch⟩⟩

theorem Machine.loadMul_yields (logM : BitVec 16) {user : List (BitVec 8)}
    {lane : List (BitVec 16)} (hfits : gf16Layout.Fits user lane) (h : machine.Ready lane.length st) :
    Yields (machine.Ready lane.length) (machine.loadMul logM user lane st)
      (Leopard.userToWorkMul user logM) := by
  obtain ⟨hscratch, hrest⟩ := Machine.length_conversionScratch h
  obtain ⟨scratch, more, hlen, hcall⟩ := machine.userToWorkMul_spec built_canonical logM
    hfits.length_eq hfits.blocks hscratch h.cache
  refine ⟨⟨lookUps more st.cache, scratch ++ (machine.conversionScratch st.scratch lane.length).2⟩,
    ?_, ⟨sound_lookUps more h.cache, fun hstd => ?_⟩⟩
  · simp only [Machine.loadMul, hcall, userToWorkMul_eq]
    rfl
  · rw [List.length_append, hlen, hrest]
    exact h.scratch hstd

theorem Machine.storeMul_yields (logM : BitVec 16) {user : List (BitVec 8)}
    {lane : List (BitVec 16)} (hfits : gf16Layout.Fits user lane) (h : machine.Ready lane.length st) :
    Yields (machine.Ready lane.length) (machine.storeMul logM lane user st)
      (Leopard.workMulToUser lane logM) := by
  obtain ⟨hscratch, hrest⟩ := Machine.length_conversionScratch h
  obtain ⟨scratch, more, hlen, hcall⟩ := machine.workMulToUser_spec built_canonical logM
    hfits.length_eq hfits.blocks hscratch h.cache
  refine ⟨⟨lookUps more st.cache, scratch ++ (machine.conversionScratch st.scratch lane.length).2⟩,
    ?_, ⟨sound_lookUps more h.cache, fun hstd => ?_⟩⟩
  · simp only [Machine.storeMul, hcall, workMulToUser_eq]
    rfl
  · rw [List.length_append, hlen, hrest]
    exact h.scratch hstd

/-- The GF16 kernels of a machine. -/
def gf16Engine (machine : Machine) : Engine gf16Family where
  State := KernelState16
  Ready := machine.Ready
  resize := machine.resizeScratch
  sliceXor input out := sliceXorU16 machine out input
  dit2 := machine.dit2
  load := machine.userBytesToWorkU16Into
  loadMul := machine.loadMul
  store lane user := some (machine.workU16ToUserBytes lane user)
  storeMul := machine.storeMul
  ready_resize len h := Machine.ready_resize len h
  sliceXor_eq h := sliceXorU16_eq machine h
  dit2_yields dir logM _ _ hlen h := Machine.dit2_yields dir logM hlen h
  load_eq hfits := machine.userBytesToWorkU16Into_eq hfits.length_eq hfits.blocks
  loadMul_yields logM _ _ hfits h := by
    have hcall := Machine.loadMul_yields logM hfits h
    rwa [userToWorkMul_eq] at hcall
  store_eq hfits := congrArg some (machine.workU16ToUserBytes_eq hfits.length_eq hfits.blocks)
  storeMul_yields logM _ _ hfits h := by
    have hcall := Machine.storeMul_yields logM hfits h
    rwa [workMulToUser_eq] at hcall

end Gf16

section Gf8

/-- `copy_from_slice`. -/
def copyFromSlice (src dst : List (BitVec 8)) : Option (List (BitVec 8)) :=
  if src.length = dst.length then some src else none

def Cpu.dit2 (cpu : Cpu) (dir : TransformDir) (logM : BitVec 8) (x y : List (BitVec 8)) :
    List (BitVec 8) × List (BitVec 8) :=
  match dir with
  | .forward => fftDit2 cpu x y logM
  | .inverse => ifftDit2 cpu x y logM

theorem Cpu.dit2_eq (cpu : Cpu) (dir : TransformDir) (logM : BitVec 8) {x y : List (BitVec 8)}
    (h : y.length = x.length) : cpu.dit2 dir logM x y = Leopard.dit2 gf8Kernel dir logM x y := by
  cases dir with
  | forward => exact fftDit2_eq cpu logM h
  | inverse => exact ifftDit2_eq cpu logM h

theorem fits_gf8 {user lane : List (BitVec 8)} (h : gf8Layout.Fits user lane) :
    user.length = lane.length := h.length_eq.trans (Nat.mul_one _)

/-- The GF8 kernels of a processor. -/
def gf8Engine (cpu : Cpu) : Engine gf8Family where
  State := Unit
  Ready _ _ := True
  resize _ s := s
  sliceXor := sliceXor8 cpu
  dit2 dir logM x y s := (cpu.dit2 dir logM x y, s)
  load := copyFromSlice
  loadMul logM user lane s := some (mulgf8 cpu lane user logM, s)
  store := copyFromSlice
  storeMul logM lane user s := some (mulgf8 cpu user lane logM, s)
  ready_resize _ _ := trivial
  sliceXor_eq h := sliceXor8_eq cpu h
  dit2_yields dir logM _ _ hlen _ :=
    ⟨(), congrArg (fun t => some (t, ())) (cpu.dit2_eq dir logM hlen), trivial⟩
  load_eq hfits := if_pos (fits_gf8 hfits)
  loadMul_yields logM _ _ hfits _ :=
    ⟨(), congrArg (fun t => some (t, ())) (mulgf8_eq cpu logM (fits_gf8 hfits)), trivial⟩
  store_eq hfits := if_pos (fits_gf8 hfits).symm
  storeMul_yields logM _ _ hfits _ :=
    ⟨(), congrArg (fun t => some (t, ())) (mulgf8_eq cpu logM (fits_gf8 hfits).symm), trivial⟩

end Gf8

section Groups

variable {w : Nat}

/-- The four-lane kernels. -/
def Cpu.dit4 (cpu : Cpu) (dir : TransformDir) (lanes : Lanes4 8) (logM01 logM23 logM02 : BitVec 8) :
    Lanes4 8 :=
  match dir with
  | .forward => fftDit4FullLutScratch cpu lanes logM01 logM23 logM02
  | .inverse => ifftDit4FullLutScratch cpu lanes logM01 logM23 logM02

/-- The lanes of a group. -/
def laneGroup (dist a : Nat) (work : Work w) : Lanes4 w :=
  (work.getD a [], work.getD (a + dist) [], work.getD (a + dist * 2) [],
    work.getD (a + dist * 3) [])

def putLaneGroup (dist a : Nat) (lanes : Lanes4 w) (work : Work w) : Work w :=
  (((work.set a lanes.1).set (a + dist) lanes.2.1).set (a + dist * 2) lanes.2.2.1).set
    (a + dist * 3) lanes.2.2.2

variable (cpu : Cpu) (user : Nat → List (BitVec 8)) (dir : TransformDir)
  {s : (gf8Engine cpu).State}

theorem step_gf8Engine (logM : BitVec 8) {work : Work 8} {i j : Nat} (hij : i ≠ j)
    (hi : i < work.length) (hj : j < work.length) :
    (gf8Engine cpu).step user (work, s) (.dit2 dir logM i j) =
      some ((work.set i (cpu.dit2 dir logM (work.getD i []) (work.getD j [])).1).set j
        (cpu.dit2 dir logM (work.getD i []) (work.getD j [])).2, s) := by
  have hskip : ¬(i = j ∨ work.length ≤ i ∨ work.length ≤ j) := by omega
  rw [Engine.step, if_neg hskip]
  rfl

/-- The butterflies of a whole group are one call of a four-lane kernel. -/
theorem run_directOps {block : Stage4Block 8} {work : Work 8} {a : Nat} (hdist : 0 < block.dist)
    (hd : a + block.dist * 3 < work.length) :
    (gf8Engine cpu).run user (directOps dir block a) (work, s) =
      some (putLaneGroup block.dist a (cpu.dit4 dir (laneGroup block.dist a work) block.logM01
        block.logM23 block.logM02) work, s) := by
  have ha : a < work.length := by omega
  have hb : a + block.dist < work.length := by omega
  have hc : a + block.dist * 2 < work.length := by omega
  have hab : a ≠ a + block.dist := by omega
  have hac : a ≠ a + block.dist * 2 := by omega
  have had : a ≠ a + block.dist * 3 := by omega
  have hbc : a + block.dist ≠ a + block.dist * 2 := by omega
  have hbd : a + block.dist ≠ a + block.dist * 3 := by omega
  have hcd : a + block.dist * 2 ≠ a + block.dist * 3 := by omega
  simp only [directOps, Cpu.dit4, laneGroup, putLaneGroup]
  generalize a + block.dist = b at *
  generalize a + block.dist * 2 = c at *
  generalize a + block.dist * 3 = d at *
  -- the four steps one after another, and then lane by lane
  cases dir with
  | forward =>
    simp only [Engine.run, List.foldlM_cons, List.foldlM_nil, step_gf8Engine, List.length_set,
      getD_set, Option.pure_def, Option.bind_eq_bind, Option.bind_fun_some, Option.bind_some, ne_eq,
      not_false_eq_true, and_self, and_true, if_true, if_false, ha, hb, hc, hd, hab, hac, had, hbc,
      hbd, hcd, hab.symm, hac.symm, had.symm, hbc.symm, hbd.symm, hcd.symm, Option.some.injEq,
      Prod.mk.injEq]
    apply List.ext_getElem?
    intro p
    simp only [List.getElem?_set, List.length_set, fftDit4FullLutScratch, Cpu.dit2]
    grind
  | inverse =>
    simp only [Engine.run, List.foldlM_cons, List.foldlM_nil, step_gf8Engine, List.length_set,
      getD_set, Option.pure_def, Option.bind_eq_bind, Option.bind_fun_some, Option.bind_some, ne_eq,
      not_false_eq_true, and_self, and_true, if_true, if_false, ha, hb, hc, hd, hab, hac, had, hbc,
      hbd, hcd, hab.symm, hac.symm, had.symm, hbc.symm, hbd.symm, hcd.symm, Option.some.injEq,
      Prod.mk.injEq]
    apply List.ext_getElem?
    intro p
    simp only [List.getElem?_set, List.length_set, ifftDit4FullLutScratch, Cpu.dit2]
    grind

end Groups

section Calls

variable {w : Nat}

/-- An accepted encode call, with its driver and its plans. -/
structure EncodeCall (F : Family w) (dataShards parityShards : Nat) (driver : EncodeDriver)
    (plans : EncodePlans w) (data parity : List (List (BitVec 8))) : Prop where
  fits : leopardShardComboFits dataShards parityShards (2 ^ w) = true
  driver_eq : F.encodeDriver dataShards parityShards driver.shardSize = .ok driver
  plans_eq : EncodePlans.new dataShards parityShards driver F.kernel.tables = .ok plans
  data : Grid dataShards driver.shardSize data
  parity : Grid parityShards driver.shardSize parity

/-- An accepted decode call, with its driver and its plan. -/
structure DecodeCall (D : Decoder w) (present : List Bool) (outputs : List (List (BitVec 8)))
    (inputs : List (Option (List (BitVec 8)))) (driver : DecodeDriver) (plan : DecodePlan w) :
    Prop where
  fits : leopardShardComboFits driver.dataShards driver.parityShards (2 ^ w) = true
  buffers : validateLeopardDecodeBuffers present outputs inputs driver.dataShards
    driver.parityShards = .ok driver.shardSize
  driver_eq : D.decodeDriver driver.dataShards driver.parityShards driver.shardSize = .ok driver
  plan_eq : buildDecodePlan D present driver = .ok plan

/-- A serial chunk loop by the kernels. -/
def Engine.runSerial {F : Family w} (E : Engine F) (driver : DecodeDriver) (present : List Bool)
    (inputs : List (Option (List (BitVec 8)))) (plan : DecodePlan w)
    (targets : List (RecoveryTarget w)) (shardLen : Nat)
    (st : (Work w × List (List (BitVec 8))) × E.State) :
    Option ((Outcome Error PUnit × (Work w × List (List (BitVec 8)))) × E.State) :=
  E.decodeWindows plan driver present inputs (fun _ => targets)
    (fun _ window => targets.map fun t => (t.shard, window.1 * F.layout.unit))
    (chunkRanges shardLen driver.chunkSize) st

/-- `runGroup` by the kernels. -/
def Engine.runGroup (E : Engine gf16Family) (driver : DecodeDriver) (present : List Bool)
    (inputs : List (Option (List (BitVec 8)))) (plan : DecodePlan 16)
    (targets : List (RecoveryTarget 16)) (group : ChunkGroup)
    (st : (Work 16 × List (List (BitVec 8))) × E.State) :
    Option ((Outcome Error PUnit × (Work 16 × List (List (BitVec 8)))) × E.State) :=
  E.decodeWindows plan driver present inputs (fun _ => targets)
    (fun _ window => group.views.map fun view =>
      (view.1, view.2 + (window.1 - group.start) * gf16Layout.unit))
    (windowsFrom group.start group.stop driver.chunkSize) st

/-- `reconstructWithResources` by the kernels. -/
def Engine.reconstructWithResources (E : Engine gf8Family) (driver : DecodeDriver)
    (present : List Bool) (inputs : List (Option (List (BitVec 8)))) (plan : DecodePlan 8)
    (st : (Work 8 × List (List (BitVec 8))) × E.State) :
    Option ((Outcome Error PUnit × (Work 8 × List (List (BitVec 8)))) × E.State) :=
  E.decodeWindows plan driver present inputs (recoveryTargets driver present plan.errLocs)
    (fun outputs window => (recoveryTargets driver present plan.errLocs outputs).map fun t =>
      (t.shard, window.1 * gf8Layout.unit)) (chunkRanges driver.shardSize driver.chunkSize) st

theorem buildEncodeDriver_ok {modulus : Nat} {chunkSize : Nat → Nat}
    {dataShards parityShards shardSize : Nat} {driver : EncodeDriver}
    (h : buildEncodeDriver modulus chunkSize dataShards parityShards shardSize = .ok driver) :
    0 < shardSize ∧ 64 ∣ shardSize := by
  obtain ⟨_, hlen, -⟩ := Outcome.bind_eq_ok.mp h
  unfold validateLeopardShardLen leopardShardMultiple at hlen
  rw [Outcome.guard_eq_ok] at hlen
  omega

/-- What an accepted encode call runs with. -/
structure EncodeShape (F : Family w) (dataShards parityShards k : Nat) (driver : EncodeDriver)
    (plans : EncodePlans w) : Prop extends Admitted w dataShards parityShards k where
  plans_eq : plans = encodePlansAt F.kernel.tables.fftSkew dataShards parityShards (2 ^ k)
  sized : driver.Sized dataShards driver.shardSize (2 ^ k)
  size_dvd : 64 ∣ driver.shardSize
  chunk_pos : 0 < driver.chunkSize
  chunk_dvd : 64 ∣ driver.chunkSize * F.layout.unit

theorem EncodeCall.shape {F : Family w} {dataShards parityShards : Nat} {driver : EncodeDriver}
    {plans : EncodePlans w} {data parity : List (List (BitVec 8))}
    (h : EncodeCall F dataShards parityShards driver plans data parity) :
    ∃ k, EncodeShape F dataShards parityShards k driver plans := by
  obtain ⟨k, hk⟩ := admitted_of_fits h.fits
  obtain ⟨h0, h64⟩ := buildEncodeDriver_ok h.driver_eq
  obtain ⟨built, hbuild, hsized, hchunk⟩ := hk.buildEncodeDriver_eq
    (F.encodeChunkSize dataShards parityShards driver.shardSize) h0 h64
  obtain rfl : built = driver := Outcome.ok.inj (hbuild.symm.trans h.driver_eq)
  obtain ⟨hpos, halign⟩ := F.encodeChunk_spec dataShards parityShards built.shardSize
    (dataShards % 2 ^ k)
  rw [← hchunk] at hpos halign
  have hplans := hk.encodePlans_eq F.kernel.fftSkew_length hsized
  exact ⟨k, hk, Outcome.ok.inj (h.plans_eq.symm.trans hplans), hsized, h64, hpos, halign⟩

/-- What an accepted decode call runs with. -/
structure DecodeShape (D : Decoder w) (present : List Bool) (outputs : List (List (BitVec 8)))
    (inputs : List (Option (List (BitVec 8)))) (k n : Nat) (driver : DecodeDriver)
    (plan : DecodePlan w) : Prop
    extends Decodable w driver.dataShards driver.parityShards k n where
  input : DecodeInput present outputs inputs driver.dataShards driver.parityShards driver.shardSize
  driver_eq : driver =
    D.decodeDriverAt driver.dataShards driver.parityShards driver.shardSize k n
  plan_eq : plan = decodePlanAt D present driver

theorem DecodeCall.shape {D : Decoder w} {present : List Bool} {outputs : List (List (BitVec 8))}
    {inputs : List (Option (List (BitVec 8)))} {driver : DecodeDriver} {plan : DecodePlan w}
    (h : DecodeCall D present outputs inputs driver plan) :
    ∃ k n, DecodeShape D present outputs inputs k n driver plan := by
  obtain ⟨k, hk⟩ := admitted_of_fits h.fits
  have hinput := validateLeopardDecodeBuffers_ok h.buffers
  obtain ⟨n, hshape, hdriver⟩ := hk.decodeDriver_eq D.toFamily hinput.size_pos hinput.size_dvd
  have heq : driver = D.decodeDriverAt driver.dataShards driver.parityShards driver.shardSize k n :=
    Outcome.ok.inj (h.driver_eq.symm.trans hdriver)
  have hplan : buildDecodePlan D present driver = .ok (decodePlanAt D present driver) := by
    rw [heq]
    exact buildDecodePlan_eq D hshape present
  exact ⟨k, n, hshape, hinput, heq, Outcome.ok.inj (h.plan_eq.symm.trans hplan)⟩

section Encode

variable {F : Family w} {dataShards parityShards : Nat} {driver : EncodeDriver}
  {plans : EncodePlans w} {data parity : List (List (BitVec 8))}

/-- The kernels encode as the family does. -/
theorem Engine.encode_refines (E : Engine F)
    (h : EncodeCall F dataShards parityShards driver plans data parity) (strategy : Dit4Strategy)
    {work : Work w} (hwork : Grid driver.workSlices (F.chunkCap driver) work) {s : E.State}
    (hs : E.Usable s) :
    Yields E.Usable (E.encodeChunks strategy plans driver data ((work, parity), s))
      (Leopard.encodeChunks F strategy plans driver data (work, parity)) := by
  obtain ⟨k, hshape⟩ := h.shape
  obtain ⟨len, hready⟩ := hs
  rw [hshape.sized.workSlices_eq] at hwork
  have hrun := Engine.encodeChunks_yields strategy hshape.toAdmitted
    hshape.size_dvd hshape.sized hshape.chunk_pos hshape.chunk_dvd h.data h.parity hwork hready
  rw [← hshape.plans_eq] at hrun
  exact hrun.mono fun s hs => ⟨len, hs⟩

end Encode

section Decode

variable {D : Decoder w} {present : List Bool} {outputs current : List (List (BitVec 8))}
  {inputs : List (Option (List (BitVec 8)))} {k n : Nat} {driver : DecodeDriver}
  {plan : DecodePlan w}

theorem SameLengths.requested (h : SameLengths outputs current) (i : Nat) :
    Requested present current i ↔ Requested present outputs i := by
  have hnil : current.getD i [] = [] ↔ outputs.getD i [] = [] := by
    rw [← List.length_eq_zero_iff, h, List.length_eq_zero_iff]
  unfold Requested
  rw [ne_eq, ne_eq, hnil]

theorem DecodeShape.chunkSize_eq (h : DecodeShape D present outputs inputs k n driver plan) :
    driver.chunkSize = D.decodeChunkSize := by
  rw [h.driver_eq]
  rfl

theorem DecodeShape.laneOf_lt (h : DecodeShape D present outputs inputs k n driver plan) {i : Nat}
    (hi : i < driver.dataShards + driver.parityShards) :
    laneOf driver.dataShards driver.m i < driver.n := by
  have hpar := h.parity_le
  have hlanes := h.lanes_le
  rw [h.driver_eq]
  change laneOf driver.dataShards (2 ^ k) i < 2 ^ n
  unfold laneOf
  split_ifs <;> omega

/-- A window of every requested output takes the lanes of its targets. -/
theorem DecodeShape.destsFit (h : DecodeShape D present outputs inputs k n driver plan) {cap : Nat}
    {window : Nat × Nat} (hwindow : ChunkWindow D driver.shardSize cap window)
    (hcurrent : SameLengths outputs current) {named : List (List (BitVec 8))}
    (hnamed : SameLengths outputs named) :
    DestsFit D.layout driver.n (window.2 - window.1) current
      (recoveryTargets driver present plan.errLocs named)
      ((recoveryTargets driver present plan.errLocs named).map fun t =>
        (t.shard, window.1 * D.layout.unit)) := by
  have hlt := hwindow.lt
  have hstop : window.2 * D.layout.unit ≤ driver.shardSize :=
    (Nat.le_div_iff_mul_le D.layout.unit_pos).mp hwindow.le
  intro p hp
  rw [zip_map_self, List.mem_map] at hp
  obtain ⟨t, ht, rfl⟩ := hp
  obtain ⟨hshard, hreq, hlane, -⟩ := mem_recoveryTargets.mp ht
  have hrow := h.input.outputs.row_length _ ((hnamed.requested t.shard).mp hreq)
  simp only
  rw [hlane, hcurrent, hrow, ← Nat.add_mul, Nat.add_sub_cancel' hlt.le]
  exact ⟨h.laneOf_lt hshard, hstop⟩

theorem DecodeShape.inputsReach (h : DecodeShape D present outputs inputs k n driver plan)
    {stop : Nat} (hstop : stop ≤ driver.shardSize) : InputsReach present inputs stop := by
  intro i input hpresent hinput
  have hi : i < driver.dataShards + driver.parityShards := by
    rw [← h.input.present_length]
    by_contra hge
    rw [List.getD_eq_default _ _ (by omega)] at hpresent
    cases hpresent
  obtain ⟨found, hfound, hlen⟩ := h.input.received i hi hpresent
  rw [hinput] at hfound
  rw [Option.some.inj hfound, hlen]
  exact hstop

/-- A loop by the kernels that recovers the requested shards window by window. -/
theorem Engine.decodeWindows_refines (E : Engine D.toFamily)
    (h : DecodeShape D present outputs inputs k n driver plan) {cap : Nat}
    {windows : List (Nat × Nat)}
    (hwindows : ∀ window ∈ windows, ChunkWindow D driver.shardSize cap window)
    {targets : List (List (BitVec 8)) → List (RecoveryTarget w)}
    (htargets : ∀ current, SameLengths outputs current → ∃ named, SameLengths outputs named ∧
      targets current = recoveryTargets driver present plan.errLocs named)
    {dests : List (List (BitVec 8)) → Nat × Nat → List (Nat × Nat)}
    (hdests : ∀ current, SameLengths outputs current → ∀ window ∈ windows,
      dests current window = (targets current).map fun t => (t.shard, window.1 * D.layout.unit))
    {work : Work w} (hwork : Grid driver.n cap work) (hcurrent : SameLengths outputs current)
    {s : E.State} (hs : E.Usable s) :
    Yields E.Usable
      (E.decodeWindows plan driver present inputs targets dests windows ((work, current), s))
      (Outcome.runAll (fun st window => Leopard.decodeStep D.toFamily plan driver present inputs
        (targets st.2) (dests st.2 window) st window) windows (work, current)) := by
  apply Engine.decodeWindows_yields plan hwork _ _ hs
  · intro task htask
    obtain ⟨hshard, hlane⟩ := mem_receivedLanes.mp htask
    rw [hlane]
    exact h.laneOf_lt hshard
  · intro window hmem
    have hwindow := hwindows window hmem
    have hstop : window.2 * D.layout.unit ≤ driver.shardSize :=
      (Nat.le_div_iff_mul_le D.layout.unit_pos).mp hwindow.le
    refine ⟨hwindow.start_dvd, hwindow.stop_dvd, hwindow.cap_le, h.inputsReach hstop,
      fun latest hlatest => ?_⟩
    have hsame : SameLengths outputs latest := fun i => (hlatest i).trans (hcurrent i)
    obtain ⟨named, hnamed, heq⟩ := htargets latest hsame
    rw [hdests latest hsame window hmem, heq]
    exact h.destsFit hwindow hsame hnamed

/-- The serial loop by the kernels. -/
theorem Engine.runSerial_refines (E : Engine D.toFamily)
    (h : DecodeShape D present outputs inputs k n driver plan) {work : Work w}
    (hwork : Grid driver.n (min (driver.shardSize / D.layout.unit) driver.chunkSize) work)
    (hcurrent : SameLengths outputs current) {s : E.State} (hs : E.Usable s) :
    let targets := recoveryTargets driver present plan.errLocs outputs
    Yields E.Usable
      (E.runSerial driver present inputs plan targets (driver.shardSize / D.layout.unit)
        ((work, current), s))
      (Outcome.runAll (fun st window => Leopard.decodeStep D.toFamily plan driver present inputs
        targets (targets.map fun t => (t.shard, window.1 * D.layout.unit)) st window)
        (chunkRanges (driver.shardSize / D.layout.unit) driver.chunkSize) (work, current)) := by
  intro targets
  have hchunk := h.chunkSize_eq
  refine Engine.decodeWindows_refines E h (fun window hmem => ?_)
    (fun _ _ => ⟨outputs, fun _ => rfl, rfl⟩) (fun _ _ _ _ => rfl) hwork hcurrent hs
  rw [hchunk] at hmem ⊢
  exact chunkWindow_chunkRanges h.input.size_dvd hmem

end Decode

section Decode16

variable {present : List Bool} {outputs current : List (List (BitVec 8))}
  {inputs : List (Option (List (BitVec 8)))} {k n : Nat} {driver : DecodeDriver}
  {plan : DecodePlan 16}

/-- The loop of a group by the kernels. -/
theorem Engine.runGroup_refines (E : Engine gf16Family)
    (h : DecodeShape gf16Decoder present outputs inputs k n driver plan) {group : ChunkGroup}
    (hgroup : group.Ok driver.shardSize (requestedOutputs present outputs)) {work : Work 16}
    (hwork : Grid driver.n (chunkCap16 driver.shardSize) work)
    (hcurrent : SameLengths outputs current) {s : E.State} (hs : E.Usable s) :
    let targets := recoveryTargets driver present plan.errLocs outputs
    Yields E.Usable (E.runGroup driver present inputs plan targets group ((work, current), s))
      (Leopard.runGroup driver present inputs plan targets group (work, current)) := by
  intro targets
  have hviews : targets.map RecoveryTarget.shard = requestedOutputs present outputs :=
    map_shard_recoveryTargets driver present plan.errLocs h.input.outputs.length_eq
  have hchunk : driver.chunkSize = workSize16 := h.chunkSize_eq
  have hunit : gf16Layout.unit = 2 := rfl
  have hlt := hgroup.lt
  have hle := hgroup.le
  obtain ⟨hwindows, -⟩ := windowsFrom_spec (show 0 < workSize16 by decide)
    (show 64 ∣ workSize16 * gf16Layout.unit by decide) hgroup.start_dvd hgroup.stop_dvd hlt.le
  refine Engine.decodeWindows_refines (D := gf16Decoder) E h (fun window hmem => ?_)
    (fun _ _ => ⟨outputs, fun _ => rfl, rfl⟩) (fun _ _ window hmem => ?_) hwork hcurrent hs
  · rw [hchunk] at hmem
    obtain ⟨h1, h2, h3, h4, h5, h6⟩ := hwindows window hmem
    refine ⟨h2, ?_, h5, h6, ?_⟩
    · change window.2 ≤ driver.shardSize / 2
      omega
    · rw [Nat.le_min]
      omega
  · rw [hchunk] at hmem
    have hstart := (hwindows window hmem).1
    have hbyte : group.start * 2 + (window.1 - group.start) * gf16Layout.unit =
        window.1 * gf16Layout.unit := by
      rw [hunit]
      omega
    rw [hgroup.views_eq, ← hviews, List.map_map, List.map_map]
    apply List.map_congr_left
    intro t _
    simp only [Function.comp_apply, hbyte]
    rfl

end Decode16

section Decode8

variable {present : List Bool} {outputs : List (List (BitVec 8))}
  {inputs : List (Option (List (BitVec 8)))} {k n : Nat} {driver : DecodeDriver}
  {plan : DecodePlan 8}

/-- The GF8 loop by the kernels. -/
theorem Engine.reconstructWithResources_refines (E : Engine gf8Family)
    (h : DecodeShape gf8Decoder present outputs inputs k n driver plan) {work : Work 8}
    (hwork : Grid driver.n (min driver.shardSize driver.chunkSize) work) {s : E.State}
    (hs : E.Usable s) :
    Yields E.Usable
      (E.reconstructWithResources driver present inputs plan ((work, outputs), s))
      (Leopard.reconstructWithResources driver present inputs plan (work, outputs)) := by
  have hchunk := h.chunkSize_eq
  have hunit : driver.shardSize / gf8Decoder.layout.unit = driver.shardSize := Nat.div_one _
  refine Engine.decodeWindows_refines (D := gf8Decoder) E h (fun window hmem => ?_)
    (fun latest hlatest => ⟨latest, hlatest, rfl⟩) (fun _ _ _ _ => rfl) hwork (fun _ => rfl) hs
  rw [hchunk] at hmem ⊢
  rw [← hunit] at hmem
  have hwindow := chunkWindow_chunkRanges (D := gf8Decoder) h.input.size_dvd hmem
  rwa [hunit] at hwindow

end Decode8

end Calls

end Leopard

end ErasureCodec
