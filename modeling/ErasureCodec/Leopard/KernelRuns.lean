import ErasureCodec.Leopard.Engine

namespace ErasureCodec

namespace Leopard

variable {w : Nat} {F : Family w} {E : Engine F} {j k n len : Nat}

section Encode

variable {dataShards parityShards shardSize : Nat} (strategy : Dit4Strategy) {s : E.State}
  {user : Nat → List (BitVec 8)}

/-- The inputs of the lanes below a bound are whole blocks of `len` elements. -/
def Inputs (L : Layout w) (len bound : Nat) (user : Nat → List (BitVec 8)) : Prop :=
  ∀ i, i < bound → (user i).length = len * L.unit ∧ 64 ∣ (user i).length

theorem Engine.ifftEncoder_yields {work : Work w} (h : Grid n len work) {plan : IfftDitPlan w}
    (hplan : plan.mtrunc ≤ n) (huser : Inputs F.layout len plan.mtrunc user) (hs : E.Ready j s) :
    Grid n len (ifftDitEncoderWithPlan F.kernel strategy (fun i => F.layout.toWork (user i)) plan
        work) ∧
      Yields (E.Ready j) (E.run user (ifftEncoderOps work.length strategy plan) (work, s))
        (ifftDitEncoderWithPlan F.kernel strategy (fun i => F.layout.toWork (user i)) plan work) := by
  rw [h.length_eq]
  apply Engine.yields_of_executes h (executes_ifftEncoderOps strategy plan) _ hs
  intro i hi
  have hlt := lt_of_load_mem hi
  exact ⟨by omega, huser i hlt⟩

theorem Engine.fft_yields (user : Nat → List (BitVec 8)) {work : Work w} (h : Grid n len work)
    (plan : FftDitPlan w) (hs : E.Ready j s) : Grid n len (fftDitWithPlan F.kernel strategy plan work) ∧
      Yields (E.Ready j) (E.run user (fftOps work.length strategy plan) (work, s))
        (fftDitWithPlan F.kernel strategy plan work) := by
  rw [h.length_eq]
  apply Engine.yields_of_executes h (executes_fftOps strategy plan) _ hs
  exact fun i hi => absurd hi (load_notMem_fftOps strategy plan)

theorem Engine.xorLanes_eq (E : Engine F) {m : Nat} {src dst : Work w} (hsrc : Grid m len src)
    (hdst : Grid m len dst) : Grid m len (Leopard.xorLanes m src dst) ∧
      E.xorLanes m src dst = Leopard.xorLanes m src dst := by
  have hlane {t : Nat} (ht : t < m) {u : Work w} (hu : Grid m len u) :
      (Leopard.sliceXor (src.getD t []) (u.getD t [])).length = len := by
    rw [Leopard.sliceXor, List.length_zipWith, hsrc.row_length t ht, hu.row_length t ht, Nat.min_self]
  have hstep (t : Nat) (ht : t < m) (u : Work w) (hu : Grid m len u) :
      E.sliceXor (src.getD t []) (u.getD t []) = Leopard.sliceXor (src.getD t []) (u.getD t []) :=
    E.sliceXor_eq ((hsrc.row_length t ht).trans (hu.row_length t ht).symm)
  constructor
  · apply foldl_inv (Grid m len) _ _ _ hdst
    intro t ht u hu
    exact grid_set hu t (hlane (List.mem_range.mp ht) hu)
  · apply foldl_congr_inv (Grid m len) _ _ _ _ hdst
    intro t ht u hu
    rw [List.mem_range] at ht
    rw [hstep t ht u hu]
    exact ⟨grid_set hu t (hlane ht hu), rfl⟩

/-- The lanes of the sum and of a group. -/
structure GroupGrid (m len : Nat) (st : GroupState w) : Prop where
  xorDst : Grid m len st.xorDst
  tempWork : Grid m len st.tempWork

theorem Engine.encodeGroup_yields {m : Nat} {st : GroupState w} (h : GroupGrid m len st)
    {plan : IfftDitPlan w} (hm : plan.m = m) (hplan : plan.mtrunc ≤ m)
    (huser : Inputs F.layout len plan.mtrunc fun i => user (st.groupOffset + i))
    (hs : E.Ready j s) :
    GroupGrid m len (Leopard.encodeGroup F.kernel strategy m (fun i => F.layout.toWork (user i)) st
        plan) ∧
      Yields (E.Ready j) (E.encodeGroup strategy m user (st, s) plan)
        (Leopard.encodeGroup F.kernel strategy m (fun i => F.layout.toWork (user i)) st plan) := by
  obtain ⟨hgrid, hrun⟩ := Engine.ifftEncoder_yields (E := E) strategy h.tempWork hplan huser hs
  obtain ⟨hxor, heq⟩ := E.xorLanes_eq (hm ▸ hgrid) (hm ▸ h.xorDst)
  refine ⟨⟨hm ▸ hxor, hgrid⟩, ?_⟩
  apply hrun.bind
  intro s' hs'
  rw [heq]
  exact Yields.pure hs' _

/-- The groups after the first by the kernels. -/
theorem Engine.encodeGroups_yields (h : Admitted w dataShards parityShards k)
    (huser : Inputs F.layout len dataShards user) {st : GroupState w}
    (hst : GroupGrid (2 ^ k) len st) (hoff : st.groupOffset = 2 ^ k) (hs : E.Ready j s) :
    let plans := encodePlansAt F.kernel.tables.fftSkew dataShards parityShards (2 ^ k)
    let later := plans.laterIfftPlans ++ plans.remainderIfftPlan.toList
    let result := later.foldl (Leopard.encodeGroup F.kernel strategy (2 ^ k) fun i =>
      F.layout.toWork (user i)) st
    GroupGrid (2 ^ k) len result ∧
      Yields (E.Ready j) (later.foldlM (E.encodeGroup strategy (2 ^ k) user) (st, s)) result := by
  intro plans later result
  have hdata := h.data_pos
  -- group `g + 1` starts at the offset that the groups before it have reached
  have hloop : (GroupGrid (2 ^ k) len result ∧
        result.groupOffset = (later.length + 1) * 2 ^ k) ∧
      Yields (E.Ready j) (later.foldlM (E.encodeGroup strategy (2 ^ k) user) (st, s)) result := by
    apply Yields.foldlM_indexed
      (fun i (st : GroupState w) => GroupGrid (2 ^ k) len st ∧ st.groupOffset = (i + 1) * 2 ^ k)
      _ ⟨hst, by rw [hoff, Nat.zero_add, Nat.one_mul]⟩ hs
    intro i plan hplan st hst
    obtain ⟨hst, hoff⟩ := hst
    simp only [later, plans] at hplan
    rw [later_plans _ hdata, List.getElem?_map] at hplan
    obtain ⟨g, hg, hplan⟩ := Option.map_eq_some_iff.mp hplan
    obtain ⟨hi, hgi⟩ := List.getElem?_eq_some_iff.mp hg
    rw [List.getElem_range] at hgi
    have hm : plan.m = 2 ^ k := hplan ▸ rfl
    have hmtrunc : plan.mtrunc = min (dataShards - (i + 1) * 2 ^ k) (2 ^ k) :=
      hgi ▸ hplan ▸ rfl
    have hinputs : Inputs F.layout len plan.mtrunc fun t => user (st.groupOffset + t) := by
      intro t ht
      apply huser
      omega
    have hgroup (s : E.State) (hs : E.Ready j s) :=
      Engine.encodeGroup_yields strategy hst hm (by omega) hinputs hs
    refine ⟨⟨(hgroup s hs).1, ?_⟩, fun s hs => (hgroup s hs).2⟩
    rw [Leopard.encodeGroup, hoff, Nat.add_mul (i + 1), Nat.one_mul]
  exact ⟨hloop.1.1, hloop.2⟩

/-- A chunk by the kernels. -/
theorem Engine.encodeChunk_yields (h : Admitted w dataShards parityShards k)
    (huser : Inputs F.layout len dataShards user) {work : Work w}
    (hwork : Grid (2 ^ k * 2) len work) (hs : E.Ready j s) :
    let plans := encodePlansAt F.kernel.tables.fftSkew dataShards parityShards (2 ^ k)
    Grid (2 ^ k * 2) len (Leopard.encodeChunk F.kernel strategy plans (2 ^ k)
        (fun i => F.layout.toWork (user i)) work) ∧
      Yields (E.Ready j) (E.encodeChunk strategy plans (2 ^ k) user (work, s))
        (Leopard.encodeChunk F.kernel strategy plans (2 ^ k) (fun i => F.layout.toWork (user i))
          work) := by
  intro plans
  have htake : Grid (2 ^ k) len (work.take (2 ^ k)) := hwork.take (by omega)
  have hmtrunc : plans.firstIfftPlan.mtrunc ≤ 2 ^ k := Nat.min_le_right dataShards (2 ^ k)
  have hfirst (s : E.State) (hs : E.Ready j s) := Engine.ifftEncoder_yields strategy htake hmtrunc
    (fun i hi => huser i (lt_of_lt_of_le hi (Nat.min_le_left dataShards (2 ^ k)))) hs
  have hstart : GroupGrid (2 ^ k) len ⟨ifftDitEncoderWithPlan F.kernel strategy
      (fun i => F.layout.toWork (user i)) plans.firstIfftPlan (work.take (2 ^ k)),
      work.drop (2 ^ k), 2 ^ k⟩ :=
    ⟨(hfirst s hs).1, hwork.drop (by omega)⟩
  have hgroups (s : E.State) (hs : E.Ready j s) :=
    Engine.encodeGroups_yields strategy h huser hstart rfl hs
  have hgrids := (hgroups s hs).1
  have hfft (s : E.State) (hs : E.Ready j s) :=
    Engine.fft_yields strategy user hgrids.xorDst plans.fftPlan hs
  constructor
  · have happend := (hfft s hs).1.append hgrids.tempWork
    rwa [← Nat.mul_two] at happend
  · apply (hfirst s hs).2.bind
    intro s₁ hs₁
    apply (hgroups s₁ hs₁).2.bind
    intro s₂ hs₂
    apply (hfft s₂ hs₂).2.bind
    intro s₃ hs₃
    exact Yields.pure hs₃ _

theorem mapM_some {α β : Type*} {f : α → Option β} {g : α → β} {l : List α}
    (h : ∀ x ∈ l, f x = some (g x)) : l.mapM f = some (l.map g) := by
  induction l with
  | nil => rfl
  | cons x l ih =>
    rw [List.mapM_cons, h x List.mem_cons_self, ih fun y hy => h y (List.mem_cons_of_mem x hy)]
    rfl

/-- The bytes of a window of a shard fit the lanes of the window. -/
theorem fits_slice {L : Layout w} {shard : List (BitVec 8)} {lane : List (BitVec w)}
    {start stop : Nat} (ha : 64 ∣ start * L.unit) (hb : 64 ∣ stop * L.unit)
    (hstop : stop * L.unit ≤ shard.length) (hlane : lane.length = stop - start) :
    L.Fits (slice shard (start * L.unit) (stop * L.unit)) lane where
  length_eq := by rw [length_slice _ _ _ hstop, hlane, Nat.sub_mul]
  blocks := by
    rw [length_slice _ _ _ hstop]
    exact Nat.dvd_sub hb ha

/-- One chunk by the kernels: the buffer and the parity. -/
theorem Engine.encodeStep_yields (h : Admitted w dataShards parityShards k)
    {data : List (List (BitVec 8))} (hdata : Grid dataShards shardSize data) {cap : Nat}
    {st : Work w × List (List (BitVec 8))} (hwork : Grid (2 ^ k * 2) cap st.1)
    (hparity : Grid parityShards shardSize st.2) {window : Nat × Nat}
    (hle : window.2 ≤ shardSize / F.layout.unit) (ha : 64 ∣ window.1 * F.layout.unit)
    (hb : 64 ∣ window.2 * F.layout.unit) (hcap : window.2 - window.1 ≤ cap) (hs : E.Ready j s) :
    let plans := encodePlansAt F.kernel.tables.fftSkew dataShards parityShards (2 ^ k)
    let result := Leopard.encodeStep F strategy plans (2 ^ k) data st window
    (Grid (2 ^ k * 2) cap result.1 ∧ Grid parityShards shardSize result.2) ∧
      Yields (E.Ready j) (E.encodeStep strategy plans (2 ^ k) data (st, s) window) result := by
  intro plans result
  obtain ⟨start, stop⟩ := window
  simp only at hle ha hb hcap
  have hpar := h.parity_le
  have hstop : stop * F.layout.unit ≤ shardSize :=
    (Nat.le_div_iff_mul_le F.layout.unit_pos).mp hle
  have huser : Inputs F.layout (stop - start) dataShards fun i =>
      slice (data.getD i []) (start * F.layout.unit) (stop * F.layout.unit) := by
    intro i hi
    have hlen := length_slice (data.getD i []) (start * F.layout.unit) (stop * F.layout.unit)
      (by rw [hdata.row_length i hi]; exact hstop)
    rw [hlen, ← Nat.sub_mul]
    refine ⟨rfl, ?_⟩
    rw [Nat.sub_mul]
    exact Nat.dvd_sub hb ha
  obtain ⟨hviews, hrun⟩ := Engine.encodeChunk_yields strategy h huser (grid_views hwork hcap) hs
  -- every parity shard takes the window of its lane
  have hstore (views : Work w) (hgrid : Grid (2 ^ k * 2) (stop - start) views) :
      (st.2.zipIdx.mapM fun output =>
        (E.store (views.getD output.2 []) (slice output.1 (start * F.layout.unit)
          (stop * F.layout.unit))).map fun bytes =>
            overwrite (start * F.layout.unit) bytes output.1) =
        some (st.2.mapIdx fun i output =>
          overwrite (start * F.layout.unit) (F.layout.toUser (views.getD i [])) output) := by
    rw [List.mapIdx_eq_zipIdx_map]
    apply mapM_some
    intro output hmem
    have hi := List.snd_lt_of_mem_zipIdx hmem
    have hrow := hparity.forall (List.fst_mem_of_mem_zipIdx hmem)
    rw [hparity.length_eq, Nat.add_zero] at hi
    rw [E.store_eq (fits_slice ha hb (by rw [hrow]; exact hstop) (hgrid.row_length _ (by omega)))]
    rfl
  constructor
  · refine ⟨grid_putViews hwork hviews hcap, hparity.mapIdx _ fun r hr => ?_⟩
    rw [length_overwrite]
    exact hparity.row_length r hr
  · apply hrun.bind
    intro s' hs'
    rw [hstore _ hviews]
    exact Yields.pure hs' _

/-- The chunk loop of the encoders by the kernels. -/
theorem Engine.encodeChunks_yields (h : Admitted w dataShards parityShards k)
    (h64 : 64 ∣ shardSize) {driver : EncodeDriver} (hdriver : driver.Sized dataShards shardSize (2 ^ k))
    (hchunk : 0 < driver.chunkSize) (hchunk64 : 64 ∣ driver.chunkSize * F.layout.unit)
    {data parity : List (List (BitVec 8))} (hdata : Grid dataShards shardSize data)
    (hparity : Grid parityShards shardSize parity) {work : Work w}
    (hwork : Grid (2 ^ k * 2) (min (shardSize / F.layout.unit) driver.chunkSize) work)
    (hs : E.Ready j s) :
    let plans := encodePlansAt F.kernel.tables.fftSkew dataShards parityShards (2 ^ k)
    Yields (E.Ready j) (E.encodeChunks strategy plans driver data ((work, parity), s))
      (Leopard.encodeChunks F strategy plans driver data (work, parity)) := by
  intro plans
  have hlen : shardSize / F.layout.unit * F.layout.unit = shardSize :=
    Nat.div_mul_cancel (dvd_trans F.layout.unit_dvd h64)
  rw [Engine.encodeChunks, Leopard.encodeChunks, hdriver.shardSize_eq, hdriver.m_eq]
  refine (Yields.foldlM (fun st => Grid (2 ^ k * 2)
    (min (shardSize / F.layout.unit) driver.chunkSize) st.1 ∧ Grid parityShards shardSize st.2)
    ?_ ⟨hwork, hparity⟩ hs).2
  intro window hmem st hst
  obtain ⟨hlt, hle, hsize⟩ := chunkRanges_bounds hchunk hmem
  obtain ⟨ha, hb⟩ := chunkRanges_aligned hchunk64 (by rw [hlen]; exact h64) hmem
  have hstep (s : E.State) (hs : E.Ready j s) := Engine.encodeStep_yields strategy
    h hdata hst.1 hst.2 hle ha hb (by omega) hs
  exact ⟨(hstep s hs).1, fun s hs => (hstep s hs).2⟩

end Encode

section Decode

variable (plan : DecodePlan w) {driver : DecodeDriver} {present : List Bool}
  {inputs : List (Option (List (BitVec 8)))} {start stop : Nat} {s : E.State}

/-- The inputs that are there reach to the end of a window. -/
def InputsReach (present : List Bool) (inputs : List (Option (List (BitVec 8)))) (stop : Nat) :
    Prop :=
  ∀ i input, present.getD i false = true → inputs.getD i none = some input → stop ≤ input.length

theorem Engine.loadReceived_yields (errLocs : List (BitVec w)) {work : Work w}
    (h : Grid n (stop - start) work) (ha : 64 ∣ start * F.layout.unit)
    (hb : 64 ∣ stop * F.layout.unit) (hin : InputsReach present inputs (stop * F.layout.unit))
    {task : Nat × Nat} (htask : task.2 < n) (hs : E.Ready (stop - start) s) :
    Grid n (stop - start) (Leopard.loadReceived F errLocs present inputs start stop work task).2 ∧
      Yields (E.Ready (stop - start))
        (E.loadReceived errLocs present inputs start stop (work, s) task)
        (Leopard.loadReceived F errLocs present inputs start stop work task) := by
  have hlane := h.row_length task.2 htask
  simp only [Engine.loadReceived, Leopard.loadReceived]
  cases hpresent : present.getD task.1 false with
  | false =>
    simp only [Bool.false_eq_true, if_false]
    exact ⟨grid_set h _ (by rw [clearLane, List.length_replicate, hlane]), Yields.pure hs _⟩
  | true =>
    simp only [if_true]
    cases hinput : inputs.getD task.1 none with
    | none => exact ⟨h, Yields.pure hs _⟩
    | some input =>
      have hfits := fits_slice (L := F.layout) ha hb (hin _ input hpresent hinput) hlane
      obtain ⟨s', hrun, hs'⟩ := E.loadMul_yields (errLocs.getD task.2 0#w) hfits (hlane ▸ hs)
      refine ⟨grid_set h _ ?_, ?_⟩
      · rw [List.length_map, F.layout.length_toWork _ hfits.blocks, hfits.length_eq, hlane]
        exact Nat.mul_div_cancel _ F.layout.unit_pos
      · simp only [hrun, Option.bind_some]
        exact Yields.pure (hlane ▸ hs') _

theorem executes_decodeOps {load : Nat → List (BitVec w)} (driver : DecodeDriver) :
    Executes F.kernel load driver.n (decodeOps plan driver) (decodeTransforms F plan driver) :=
  ((((executes_clearOps _ _).append (executes_clearOps _ _)).append
    (executes_ifftDecodeOps plan.ifftPlan)).append (executes_derivativeOps driver.n)).append
      (executes_fftOps .directSafe plan.fftPlan)

theorem load_notMem_decodeOps {i : Nat} : .load i ∉ decodeOps plan driver := by
  simp [decodeOps]

/-- The pass that loads what was received, by the kernels. -/
theorem Engine.receive_yields {work : Work w} (h : Grid driver.n (stop - start) work)
    (hlanes : ∀ task ∈ receivedLanes driver, task.2 < driver.n)
    (ha : 64 ∣ start * F.layout.unit) (hb : 64 ∣ stop * F.layout.unit)
    (hin : InputsReach present inputs (stop * F.layout.unit)) (hs : E.Ready (stop - start) s) :
    let result := Outcome.runAll (Leopard.loadReceived F plan.errLocs present inputs start stop)
      (receivedLanes driver) work
    Grid driver.n (stop - start) result.2 ∧
      Yields (E.Ready (stop - start))
        (runAllOn (E.loadReceived plan.errLocs present inputs start stop) (receivedLanes driver)
          (work, s)) result := by
  apply Yields.runAll (Grid driver.n (stop - start)) _ h hs
  intro task htask u hu
  have hload (s : E.State) (hs : E.Ready (stop - start) s) :=
    Engine.loadReceived_yields plan.errLocs hu ha hb hin (hlanes task htask) hs
  exact ⟨(hload _ hs).1, fun s hs => (hload s hs).2⟩

/-- A chunk by the kernels, also where an input is missing. -/
theorem Engine.decodeChunk_yields {work : Work w} (h : Grid driver.n (stop - start) work)
    (hlanes : ∀ task ∈ receivedLanes driver, task.2 < driver.n)
    (ha : 64 ∣ start * F.layout.unit) (hb : 64 ∣ stop * F.layout.unit)
    (hin : InputsReach present inputs (stop * F.layout.unit)) (hs : E.Usable s) :
    Grid driver.n (stop - start)
        (Leopard.decodeChunk F plan driver present inputs start stop work).2 ∧
      Yields (E.Ready (stop - start))
        (E.decodeChunk plan driver present inputs start stop (work, s))
        (Leopard.decodeChunk F plan driver present inputs start stop work) := by
  obtain ⟨len, hs⟩ := hs
  have hload := Engine.receive_yields plan h hlanes ha hb hin (E.ready_resize (stop - start) hs)
  obtain ⟨hgrid, s', hrun, hs'⟩ := hload
  simp only [Engine.decodeChunk, Leopard.decodeChunk, hrun, Option.bind_some]
  rcases hend : Outcome.runAll (Leopard.loadReceived F plan.errLocs present inputs start stop)
    (receivedLanes driver) work with ⟨result, loaded⟩
  rw [hend] at hgrid
  cases result with
  | ok _ =>
    obtain ⟨hout, htransforms⟩ : _ ∧ Yields (E.Ready (stop - start))
        (E.run (fun _ => []) (decodeOps plan driver) (loaded, s')) _ :=
      Engine.yields_of_executes hgrid (executes_decodeOps plan driver)
        (fun i hi => absurd hi (load_notMem_decodeOps plan)) hs'
    refine ⟨hout, ?_⟩
    apply htransforms.bind
    intro s hs
    exact Yields.pure hs _
  | err e => exact ⟨hgrid, Yields.pure hs' _⟩
  | panic => exact ⟨hgrid, Yields.pure hs' _⟩

/-- Where a window of `size` elements goes in outputs of the lengths of `outputs`. -/
def DestsFit (L : Layout w) (n size : Nat) (outputs : List (List (BitVec 8)))
    (targets : List (RecoveryTarget w)) (dests : List (Nat × Nat)) : Prop :=
  ∀ p ∈ targets.zip dests, p.1.lane < n ∧ p.2.2 + size * L.unit ≤ (outputs.getD p.2.1 []).length

/-- Outputs of the same lengths. -/
def SameLengths (before after : List (List (BitVec 8))) : Prop :=
  ∀ i, (after.getD i []).length = (before.getD i []).length

theorem Engine.recoverOutputs_yields {size : Nat} {targets : List (RecoveryTarget w)}
    {dests : List (Nat × Nat)} {views : Work w} (hviews : Grid n size views)
    (hsize : 64 ∣ size * F.layout.unit) {outputs : List (List (BitVec 8))}
    (hdests : DestsFit F.layout n size outputs targets dests) (hs : E.Ready size s) :
    SameLengths outputs (Leopard.recoverOutputs F targets dests views outputs) ∧
      Yields (E.Ready size) (E.recoverOutputs size targets dests views (outputs, s))
        (Leopard.recoverOutputs F targets dests views outputs) := by
  apply Yields.foldlM (SameLengths outputs) _ (fun _ => rfl) hs
  intro p hp current hcurrent
  obtain ⟨hlane, hend⟩ := hdests p hp
  have hview := hviews.row_length _ hlane
  have hfits : F.layout.Fits (slice (current.getD p.2.1 []) p.2.2 (p.2.2 + size * F.layout.unit))
      (views.getD p.1.lane []) := by
    have hlen := length_slice (current.getD p.2.1 []) p.2.2 (p.2.2 + size * F.layout.unit)
      (by rw [hcurrent]; exact hend)
    rw [Nat.add_sub_cancel_left] at hlen
    exact ⟨by rw [hlen, hview], by rw [hlen]; exact hsize⟩
  constructor
  · intro i
    rw [getD_set]
    split_ifs with hi
    · rw [length_overwrite, hi.1, hcurrent]
    · exact hcurrent i
  · intro s hs
    have hstore := E.storeMul_yields p.1.invErr hfits (hview.symm ▸ hs)
    rw [hview] at hstore
    apply hstore.bind
    intro s' hs'
    exact Yields.pure hs' _

/-- One chunk of the decoders by the kernels. -/
theorem Engine.decodeStep_yields {cap : Nat} {st : Work w × List (List (BitVec 8))}
    (hwork : Grid driver.n cap st.1) (hlanes : ∀ task ∈ receivedLanes driver, task.2 < driver.n)
    {window : Nat × Nat} (ha : 64 ∣ window.1 * F.layout.unit) (hb : 64 ∣ window.2 * F.layout.unit)
    (hcap : window.2 - window.1 ≤ cap)
    (hin : InputsReach present inputs (window.2 * F.layout.unit))
    {targets : List (RecoveryTarget w)} {dests : List (Nat × Nat)}
    (hdests : DestsFit F.layout driver.n (window.2 - window.1) st.2 targets dests)
    (hs : E.Usable s) :
    let result := Leopard.decodeStep F plan driver present inputs targets dests st window
    (Grid driver.n cap result.2.1 ∧ SameLengths st.2 result.2.2) ∧
      Yields E.Usable (E.decodeStep plan driver present inputs targets dests (st, s) window)
        result := by
  intro result
  obtain ⟨hgrid, s', hrun, hs'⟩ := Engine.decodeChunk_yields (E := E) plan
    (grid_views hwork hcap) hlanes ha hb hin hs
  have hsize : 64 ∣ (window.2 - window.1) * F.layout.unit := by
    rw [Nat.sub_mul]
    exact Nat.dvd_sub hb ha
  simp only [result, Engine.decodeStep, Leopard.decodeStep, hrun, Option.bind_some]
  rcases hend : Leopard.decodeChunk F plan driver present inputs window.1 window.2
    (st.1.map (List.take (window.2 - window.1))) with ⟨outcome, views⟩
  rw [hend] at hgrid
  have hput := grid_putViews hwork hgrid hcap
  cases outcome with
  | ok _ =>
    obtain ⟨hlengths, hrecover⟩ := Engine.recoverOutputs_yields (E := E) hgrid hsize hdests hs'
    refine ⟨⟨hput, hlengths⟩, ?_⟩
    have husable : Yields E.Usable
        (E.recoverOutputs (window.2 - window.1) targets dests views (st.2, s')) _ :=
      hrecover.mono fun s hs => ⟨_, hs⟩
    apply husable.bind
    intro s hs
    exact Yields.pure hs _
  | err e => exact ⟨⟨hput, fun _ => rfl⟩, Yields.pure ⟨_, hs'⟩ _⟩
  | panic => exact ⟨⟨hput, fun _ => rfl⟩, Yields.pure ⟨_, hs'⟩ _⟩

/-- The chunk loops of the decoders by the kernels. -/
theorem Engine.decodeWindows_yields {cap : Nat} {work : Work w} (hwork : Grid driver.n cap work)
    (hlanes : ∀ task ∈ receivedLanes driver, task.2 < driver.n)
    {targets : List (List (BitVec 8)) → List (RecoveryTarget w)}
    {dests : List (List (BitVec 8)) → Nat × Nat → List (Nat × Nat)} {windows : List (Nat × Nat)}
    {outputs : List (List (BitVec 8))}
    (hwindows : ∀ window ∈ windows, 64 ∣ window.1 * F.layout.unit ∧
      64 ∣ window.2 * F.layout.unit ∧ window.2 - window.1 ≤ cap ∧
      InputsReach present inputs (window.2 * F.layout.unit) ∧
      ∀ current, SameLengths outputs current → DestsFit F.layout driver.n
        (window.2 - window.1) current (targets current) (dests current window))
    (hs : E.Usable s) :
    Yields E.Usable
      (E.decodeWindows plan driver present inputs targets dests windows ((work, outputs), s))
      (Outcome.runAll (fun st window => Leopard.decodeStep F plan driver present inputs
        (targets st.2) (dests st.2 window) st window) windows (work, outputs)) := by
  refine (Yields.runAll (fun st => Grid driver.n cap st.1 ∧ SameLengths outputs st.2) ?_
    ⟨hwork, fun _ => rfl⟩ hs).2
  intro window hmem st hst
  obtain ⟨ha, hb, hcap, hin, hdests⟩ := hwindows window hmem
  have hstep (s : E.State) (hs : E.Usable s) := Engine.decodeStep_yields plan hst.1 hlanes ha hb hcap hin (hdests st.2 hst.2) hs
  obtain ⟨hgrid, hlengths⟩ := (hstep s hs).1
  exact ⟨⟨hgrid, fun i => (hlengths i).trans (hst.2 i)⟩, fun s hs => (hstep s hs).2⟩

end Decode

end Leopard

end ErasureCodec
