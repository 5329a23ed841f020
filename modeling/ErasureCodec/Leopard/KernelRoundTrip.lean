import ErasureCodec.Leopard.KernelCalls

namespace ErasureCodec

namespace Leopard

section Refine

/-- The serial loop of the GF16 decoder by the kernels, with its targets. -/
def Engine.reconstructSerial16 (E : Engine gf16Family) (driver : DecodeDriver)
    (present : List Bool) (inputs : List (Option (List (BitVec 8)))) (plan : DecodePlan 16)
    (st : (Work 16 × List (List (BitVec 8))) × E.State) :
    Option ((Outcome Error PUnit × (Work 16 × List (List (BitVec 8)))) × E.State) :=
  E.runSerial driver present inputs plan (recoveryTargets driver present plan.errLocs st.1.2)
    (driver.shardSize / 2) st

/-- On any machine and processor the kernels run every chunk loop of an accepted call without a
failing assertion, and do what the loops of the families do. -/
structure KernelsRefine (machine : Machine) (cpu : Cpu) : Prop where
  /-- The states that calls find: anything looked up before, and any scratch lane. -/
  usable : ∀ requests scratch, (gf16Engine machine).Usable ⟨lookUps requests .empty, scratch⟩
  /-- A whole group of four lanes is one call of a four-lane kernel. -/
  fourLanes8 : ∀ user dir {block : Stage4Block 8} {work a} s, 0 < block.dist →
    a + block.dist * 3 < work.length →
    (gf8Engine cpu).run user (directOps dir block a) (work, s) =
      some (putLaneGroup block.dist a (cpu.dit4 dir (laneGroup block.dist a work) block.logM01
        block.logM23 block.logM02) work, s)
  encode16 : ∀ {dataShards parityShards driver plans data parity},
    EncodeCall gf16Family dataShards parityShards driver plans data parity →
    ∀ strategy work s, Grid driver.workSlices (gf16Family.chunkCap driver) work →
    (gf16Engine machine).Usable s →
    Yields (gf16Engine machine).Usable
      ((gf16Engine machine).encodeChunks strategy plans driver data ((work, parity), s))
      (encodeChunks gf16Family strategy plans driver data (work, parity))
  encode8 : ∀ {dataShards parityShards driver plans data parity},
    EncodeCall gf8Family dataShards parityShards driver plans data parity →
    ∀ strategy work s, Grid driver.workSlices (gf8Family.chunkCap driver) work →
    (gf8Engine cpu).Usable s →
    Yields (gf8Engine cpu).Usable
      ((gf8Engine cpu).encodeChunks strategy plans driver data ((work, parity), s))
      (encodeChunks gf8Family strategy plans driver data (work, parity))
  serial16 : ∀ {present outputs inputs driver plan},
    DecodeCall gf16Decoder present outputs inputs driver plan →
    ∀ work s, Grid driver.n (chunkCap16 driver.shardSize) work → (gf16Engine machine).Usable s →
    Yields (gf16Engine machine).Usable
      ((gf16Engine machine).reconstructSerial16 driver present inputs plan ((work, outputs), s))
      (runSerial driver present inputs plan (recoveryTargets driver present plan.errLocs outputs)
        (driver.shardSize / 2) (work, outputs))
  /-- A group of a parallel call, whatever groups before it have written. -/
  group16 : ∀ {present outputs inputs driver plan},
    DecodeCall gf16Decoder present outputs inputs driver plan → driver.shardSize < usizeLimit →
    ∀ maxParallelJobs availableJobs, ∀ group ∈ chunkGroups driver.shardSize
      (groupBytes driver.chunkSize (driver.shardSize / 2) maxParallelJobs availableJobs)
      (requestedOutputs present outputs),
    ∀ work current s, Grid driver.n (chunkCap16 driver.shardSize) work →
    SameLengths outputs current → (gf16Engine machine).Usable s →
    Yields (gf16Engine machine).Usable
      ((gf16Engine machine).runGroup driver present inputs plan
        (recoveryTargets driver present plan.errLocs outputs) group ((work, current), s))
      (runGroup driver present inputs plan (recoveryTargets driver present plan.errLocs outputs)
        group (work, current))
  serial8 : ∀ {present outputs inputs driver plan},
    DecodeCall gf8Decoder present outputs inputs driver plan →
    ∀ work s, Grid driver.n (min driver.shardSize driver.chunkSize) work →
    (gf8Engine cpu).Usable s →
    Yields (gf8Engine cpu).Usable
      ((gf8Engine cpu).reconstructWithResources driver present inputs plan ((work, outputs), s))
      (reconstructWithResources driver present inputs plan (work, outputs))

theorem runSerial16_refines {machine : Machine} {present : List Bool}
    {outputs : List (List (BitVec 8))} {inputs : List (Option (List (BitVec 8)))} {k n : Nat}
    {driver : DecodeDriver} {plan : DecodePlan 16}
    (h : DecodeShape gf16Decoder present outputs inputs k n driver plan) {work : Work 16}
    (hwork : Grid driver.n (chunkCap16 driver.shardSize) work)
    {s : (gf16Engine machine).State} (hs : (gf16Engine machine).Usable s) :
    Yields (gf16Engine machine).Usable
      ((gf16Engine machine).reconstructSerial16 driver present inputs plan ((work, outputs), s))
      (runSerial driver present inputs plan (recoveryTargets driver present plan.errLocs outputs)
        (driver.shardSize / 2) (work, outputs)) := by
  have hlanes : Grid driver.n (min (driver.shardSize / 2) driver.chunkSize) work := by
    rw [h.chunkSize_eq]
    exact hwork
  exact Engine.runSerial_refines (D := gf16Decoder) (gf16Engine machine) h hlanes (fun _ => rfl) hs

end Refine

section RoundTrip

variable {w : Nat}

/-- Every shard that is there is the one of the code word. -/
def Remains (present : List Bool) (inputs : List (Option (List (BitVec 8))))
    (word : List (List (BitVec 8))) : Prop :=
  ∀ i, i < word.length → present.getD i false = true → inputs.getD i none = some (word.getD i [])

/-- The requested shards are those of the code word, and the other outputs are as they were. -/
structure Restored (present : List Bool) (before after word : List (List (BitVec 8))) : Prop where
  kept : Kept present before after
  shard : ∀ i, i < word.length → Requested present before i → after.getD i [] = word.getD i []

/-- A chunk loop of a decoder by the kernels. -/
abbrev Engine.Loop {F : Family w} (E : Engine F) : Type :=
  DecodeDriver → List Bool → List (Option (List (BitVec 8))) → DecodePlan w →
    (Work w × List (List (BitVec 8))) × E.State →
    Option ((Outcome Error PUnit × (Work w × List (List (BitVec 8)))) × E.State)

/-- What the kernels of one build encode, those of another restore from any accepted rest. -/
def RoundTrips (D : Decoder w) (E E' : Engine D.toFamily) (loop : E'.Loop) : Prop :=
  ∀ {dataShards parityShards shardSize : Nat} {data parity : List (List (BitVec 8))},
    leopardShardComboFits dataShards parityShards (2 ^ w) = true → 0 < shardSize → 64 ∣ shardSize →
    Grid dataShards shardSize data → Grid parityShards shardSize parity →
    ∃ driver plans, EncodeCall D.toFamily dataShards parityShards driver plans data parity ∧
      driver.shardSize = shardSize ∧
      ∀ configured work s, Grid driver.workSlices (D.chunkCap driver) work → E.Usable s →
      ∃ work' parity' s',
        E.encodeChunks (D.activeStrategy configured shardSize) plans driver data
          ((work, parity), s) = some ((work', parity'), s') ∧
        E.Usable s' ∧ Grid parityShards shardSize parity' ∧
        ∀ present outputs inputs,
          validateLeopardDecodeBuffers present outputs inputs dataShards parityShards =
            .ok shardSize →
          Remains present inputs (data ++ parity') →
          ∃ driver' plan, DecodeCall D present outputs inputs driver' plan ∧
            ∀ lanes t, Grid driver'.n (min (shardSize / D.layout.unit) driver'.chunkSize) lanes →
            E'.Usable t →
            ∃ lanes' outputs' t',
              loop driver' present inputs plan ((lanes, outputs), t) =
                some ((.ok ⟨⟩, (lanes', outputs')), t') ∧
              E'.Usable t' ∧ Restored present outputs outputs' (data ++ parity')

variable {D : Decoder w} {dataShards parityShards shardSize k n : Nat}

theorem exists_encodeCall (F : Family w) {data parity : List (List (BitVec 8))}
    (h : leopardShardComboFits dataShards parityShards (2 ^ w) = true) (h0 : 0 < shardSize)
    (h64 : 64 ∣ shardSize) (hdata : Grid dataShards shardSize data)
    (hparity : Grid parityShards shardSize parity) :
    ∃ driver plans, EncodeCall F dataShards parityShards driver plans data parity ∧
      driver.shardSize = shardSize := by
  obtain ⟨k, hk⟩ := admitted_of_fits h
  obtain ⟨driver, hbuild, hsized, -⟩ := hk.buildEncodeDriver_eq
    (F.encodeChunkSize dataShards parityShards shardSize) h0 h64
  have hplans := hk.encodePlans_eq F.kernel.fftSkew_length hsized
  obtain rfl := hsized.shardSize_eq
  exact ⟨driver, _, ⟨h, hbuild, hplans, hdata, hparity⟩, rfl⟩

theorem exists_decodeCall (D : Decoder w) {present : List Bool} {outputs : List (List (BitVec 8))}
    {inputs : List (Option (List (BitVec 8)))}
    (h : leopardShardComboFits dataShards parityShards (2 ^ w) = true)
    (hvalid : validateLeopardDecodeBuffers present outputs inputs dataShards parityShards =
      .ok shardSize) :
    ∃ k n plan, Decodable w dataShards parityShards k n ∧
      DecodeCall D present outputs inputs
        (D.decodeDriverAt dataShards parityShards shardSize k n) plan := by
  obtain ⟨k, hk⟩ := admitted_of_fits h
  have hinput := validateLeopardDecodeBuffers_ok hvalid
  obtain ⟨n, hshape, hdriver⟩ := hk.decodeDriver_eq D.toFamily hinput.size_pos hinput.size_dvd
  exact ⟨k, n, _, hshape, ⟨h, hvalid, hdriver, buildDecodePlan_eq D hshape present⟩⟩

/-- A round trip needs a loop that decodes. -/
theorem roundTrips {E E' : Engine D.toFamily} {loop : E'.Loop}
    (hloop : ∀ {present outputs inputs k n driver plan},
      DecodeShape D present outputs inputs k n driver plan → ∀ lanes t,
      Grid driver.n (min (driver.shardSize / D.layout.unit) driver.chunkSize) lanes → E'.Usable t →
      ∃ lanes' outputs' t', loop driver present inputs plan ((lanes, outputs), t) =
          some ((.ok ⟨⟩, (lanes', outputs')), t') ∧ E'.Usable t' ∧
        IsDecoded D present inputs driver.dataShards driver.parityShards k n driver.shardSize
          outputs outputs') :
    RoundTrips D E E' loop := by
  intro dataShards parityShards shardSize data parity hfits h0 h64 hdata hparity
  obtain ⟨driver, plans, hcall, hsize⟩ := exists_encodeCall D.toFamily hfits h0 h64 hdata hparity
  obtain ⟨k, hshape⟩ := hcall.shape
  refine ⟨driver, plans, hcall, hsize, fun configured work s hwork hs => ?_⟩
  subst hsize
  have hstrategy := D.activeStrategy_ne configured driver.shardSize
  obtain ⟨s', hrun, hs'⟩ := Engine.encode_refines E hcall
    (D.activeStrategy configured driver.shardSize) hwork hs
  -- the parity is that of the data, whatever the buffers held
  have hlanes := hwork
  rw [hshape.sized.workSlices_eq] at hlanes
  obtain ⟨⟨-, hgrid⟩, hvalue⟩ := encodeChunks_spec (F := D.toFamily) hshape.toAdmitted h64 hstrategy
    hshape.sized hshape.chunk_pos hshape.chunk_dvd hdata hparity hlanes
  rw [← hshape.plans_eq] at hgrid hvalue
  rcases hresult : encodeChunks D.toFamily (D.activeStrategy configured driver.shardSize) plans driver
    data (work, parity) with ⟨work', parity'⟩
  rw [hresult] at hrun hgrid hvalue
  have hword : IsParity D.toFamily dataShards parityShards k driver.shardSize data parity' :=
    ⟨hgrid, hvalue⟩
  refine ⟨work', parity', s', hrun, hs', hgrid, fun present outputs inputs hvalid hremains => ?_⟩
  obtain ⟨k', n, plan, hdecodable, hdecode⟩ := exists_decodeCall D hfits hvalid
  obtain rfl : k' = k :=
    Nat.pow_right_injective le_rfl (hdecodable.m_eq.symm.trans hshape.m_eq)
  obtain ⟨k₂, n₂, hdshape⟩ := hdecode.shape
  obtain ⟨rfl, rfl⟩ := hdecodable.unique hdshape.toDecodable
  refine ⟨_, plan, hdecode, fun lanes t hgrid' ht => ?_⟩
  obtain ⟨lanes', outputs', t', hloop', ht', hdecoded⟩ := hloop hdshape lanes t hgrid' ht
  have hlength : (data ++ parity').length = dataShards + parityShards :=
    (hdata.append hgrid).length_eq
  refine ⟨lanes', outputs', t', hloop', ht', ⟨hdecoded.kept, fun i hi hreq => ?_⟩⟩
  rw [hlength] at hi
  refine IsDecoded.restores (D := D) hdecodable h64 hdata hword (fun i hi hpresent => ?_)
    hdshape.input.missing_le hdshape.input.outputs hdecoded hi hreq
  exact hremains i (hlength ▸ hi) hpresent

end RoundTrip

end Leopard

end ErasureCodec
