import ErasureCodec.Framework.Yields
import ErasureCodec.Leopard.Decode
import ErasureCodec.Leopard.LanePrograms

namespace ErasureCodec

namespace Leopard

variable {w : Nat}

/-- The bytes of a lane: whole blocks. -/
structure Layout.Fits (L : Layout w) (user : List (BitVec 8)) (lane : List (BitVec w)) : Prop where
  length_eq : user.length = lane.length * L.unit
  blocks : 64 ∣ user.length

/-- The kernels of a build and the state that they share: a call with lanes of the lengths the
transforms pass does not fail, and computes what the family says. -/
structure Engine (F : Family w) where
  State : Type
  /-- A state in which the kernels run on lanes of a length. -/
  Ready : Nat → State → Prop
  /-- What a decoder does with the state before a chunk. -/
  resize : Nat → State → State
  sliceXor : List (BitVec w) → List (BitVec w) → List (BitVec w)
  dit2 : TransformDir → BitVec w → List (BitVec w) → List (BitVec w) → State →
    (List (BitVec w) × List (BitVec w)) × State
  /-- A conversion into a lane, alone and with a product. -/
  load : List (BitVec 8) → List (BitVec w) → Option (List (BitVec w))
  loadMul : BitVec w → List (BitVec 8) → List (BitVec w) → State →
    Option (List (BitVec w) × State)
  /-- A conversion of a lane into bytes, alone and with a product. -/
  store : List (BitVec w) → List (BitVec 8) → Option (List (BitVec 8))
  storeMul : BitVec w → List (BitVec w) → List (BitVec 8) → State →
    Option (List (BitVec 8) × State)
  ready_resize : ∀ {k s} len, Ready k s → Ready len (resize len s)
  sliceXor_eq : ∀ {input out : List (BitVec w)}, input.length = out.length →
    sliceXor input out = Leopard.sliceXor input out
  dit2_yields : ∀ {k s} dir logM {x y : List (BitVec w)}, y.length = x.length → Ready k s →
    Yields (Ready k) (some (dit2 dir logM x y s)) (Leopard.dit2 F.kernel dir logM x y)
  load_eq : ∀ {user lane}, F.layout.Fits user lane → load user lane = some (F.layout.toWork user)
  loadMul_yields : ∀ {s} logM {user lane}, F.layout.Fits user lane → Ready lane.length s →
    Yields (Ready lane.length) (loadMul logM user lane s)
      ((F.layout.toWork user).map (F.kernel.mul logM))
  store_eq : ∀ {user lane}, F.layout.Fits user lane → store lane user = some (F.layout.toUser lane)
  storeMul_yields : ∀ {s} logM {user lane}, F.layout.Fits user lane → Ready lane.length s →
    Yields (Ready lane.length) (storeMul logM lane user s)
      (F.layout.toUser (lane.map (F.kernel.mul logM)))

/-- A state that calls find. -/
def Engine.Usable {F : Family w} (E : Engine F) (s : E.State) : Prop := ∃ len, E.Ready len s

section Definitions

variable {F : Family w} (E : Engine F)

/-- One operation by the kernels; a lane that is not there takes no input. -/
def Engine.step (user : Nat → List (BitVec 8)) (st : Work w × E.State) :
    LaneOp w → Option (Work w × E.State)
  | .dit2 dir logM i j =>
    if i = j ∨ st.1.length ≤ i ∨ st.1.length ≤ j then some st
    else
      let t := E.dit2 dir logM (st.1.getD i []) (st.1.getD j []) st.2
      some ((st.1.set i t.1.1).set j t.1.2, t.2)
  | .add src dst => some (onPair (fun hi lo => (hi, E.sliceXor hi lo)) src dst st.1, st.2)
  | .clear i => some (st.1.set i (clearLane (st.1.getD i [])), st.2)
  | .load i =>
    if i < st.1.length then
      (E.load (user i) (st.1.getD i [])).map fun lane => (st.1.set i lane, st.2)
    else none

def Engine.run (user : Nat → List (BitVec 8)) (ops : List (LaneOp w)) (st : Work w × E.State) :
    Option (Work w × E.State) :=
  ops.foldlM (E.step user) st

/-- `xorLanes` by the kernels. -/
def Engine.xorLanes (m : Nat) (src dst : Work w) : Work w :=
  (List.range m).foldl (fun dst i => dst.set i (E.sliceXor (src.getD i []) (dst.getD i []))) dst

/-- `encodeGroup` by the kernels. -/
def Engine.encodeGroup (strategy : Dit4Strategy) (m : Nat) (user : Nat → List (BitVec 8))
    (st : GroupState w × E.State) (plan : IfftDitPlan w) : Option (GroupState w × E.State) :=
  (E.run (fun i => user (st.1.groupOffset + i)) (ifftEncoderOps st.1.tempWork.length strategy plan)
    (st.1.tempWork, st.2)).bind fun temp =>
      some (⟨E.xorLanes plan.m temp.1 st.1.xorDst, temp.1, st.1.groupOffset + m⟩, temp.2)

/-- `encodeChunk` by the kernels. -/
def Engine.encodeChunk (strategy : Dit4Strategy) (plans : EncodePlans w) (m : Nat)
    (user : Nat → List (BitVec 8)) (st : Work w × E.State) : Option (Work w × E.State) :=
  (E.run user (ifftEncoderOps (st.1.take m).length strategy plans.firstIfftPlan)
    (st.1.take m, st.2)).bind fun first =>
      ((plans.laterIfftPlans ++ plans.remainderIfftPlan.toList).foldlM
        (E.encodeGroup strategy m user) (⟨first.1, st.1.drop m, m⟩, first.2)).bind fun groups =>
          (E.run user (fftOps groups.1.xorDst.length strategy plans.fftPlan)
            (groups.1.xorDst, groups.2)).bind fun parity =>
              some (parity.1 ++ groups.1.tempWork, parity.2)

/-- `encodeStep` by the kernels. -/
def Engine.encodeStep (strategy : Dit4Strategy) (plans : EncodePlans w) (m : Nat)
    (data : List (List (BitVec 8))) (st : (Work w × List (List (BitVec 8))) × E.State)
    (window : Nat × Nat) : Option ((Work w × List (List (BitVec 8))) × E.State) :=
  let size := window.2 - window.1
  let start := window.1 * F.layout.unit
  let stop := window.2 * F.layout.unit
  (E.encodeChunk strategy plans m (fun i => slice (data.getD i []) start stop)
    (st.1.1.map (List.take size), st.2)).bind fun views =>
      (st.1.2.zipIdx.mapM fun output =>
        (E.store (views.1.getD output.2 []) (slice output.1 start stop)).map fun bytes =>
          overwrite start bytes output.1).map fun parity =>
            ((putViews size st.1.1 views.1, parity), views.2)

/-- `encodeChunks` by the kernels. -/
def Engine.encodeChunks (strategy : Dit4Strategy) (plans : EncodePlans w) (driver : EncodeDriver)
    (data : List (List (BitVec 8))) (st : (Work w × List (List (BitVec 8))) × E.State) :
    Option ((Work w × List (List (BitVec 8))) × E.State) :=
  (chunkRanges (driver.shardSize / F.layout.unit) driver.chunkSize).foldlM
    (E.encodeStep strategy plans driver.m data) st

/-- `loadReceived` by the kernels. -/
def Engine.loadReceived (errLocs : List (BitVec w)) (present : List Bool)
    (inputs : List (Option (List (BitVec 8)))) (start stop : Nat) (st : Work w × E.State)
    (task : Nat × Nat) : Option ((Outcome Error PUnit × Work w) × E.State) :=
  if present.getD task.1 false then
    match inputs.getD task.1 none with
    | none => some ((.err .tooFewShardsPresent, st.1), st.2)
    | some input =>
      (E.loadMul (errLocs.getD task.2 0#w)
        (slice input (start * F.layout.unit) (stop * F.layout.unit)) (st.1.getD task.2 [])
        st.2).bind fun lane => some ((.ok ⟨⟩, st.1.set task.2 lane.1), lane.2)
  else some ((.ok ⟨⟩, st.1.set task.2 (clearLane (st.1.getD task.2 []))), st.2)

/-- The operations of `decodeTransforms`. -/
def decodeOps (plan : DecodePlan w) (driver : DecodeDriver) : List (LaneOp w) :=
  clearOps driver.parityShards (driver.m - driver.parityShards) ++
    clearOps driver.workSize (driver.n - driver.workSize) ++ ifftDecodeOps driver.n plan.ifftPlan ++
    derivativeOps driver.n ++ fftOps driver.n .directSafe plan.fftPlan

/-- `decodeChunk` by the kernels. -/
def Engine.decodeChunk (plan : DecodePlan w) (driver : DecodeDriver) (present : List Bool)
    (inputs : List (Option (List (BitVec 8)))) (start stop : Nat) (st : Work w × E.State) :
    Option ((Outcome Error PUnit × Work w) × E.State) :=
  (runAllOn (E.loadReceived plan.errLocs present inputs start stop) (receivedLanes driver)
    (st.1, E.resize (stop - start) st.2)).bind fun loaded =>
      match loaded.1.1 with
      | .ok _ => (E.run (fun _ => []) (decodeOps plan driver) (loaded.1.2, loaded.2)).bind fun work =>
          some ((.ok ⟨⟩, work.1), work.2)
      | _ => some loaded

/-- `recoverOutputs` by the kernels. -/
def Engine.recoverOutputs (size : Nat) (targets : List (RecoveryTarget w))
    (dests : List (Nat × Nat)) (views : Work w) (st : List (List (BitVec 8)) × E.State) :
    Option (List (List (BitVec 8)) × E.State) :=
  (targets.zip dests).foldlM (fun st t =>
    (E.storeMul t.1.invErr (views.getD t.1.lane [])
      (slice (st.1.getD t.2.1 []) t.2.2 (t.2.2 + size * F.layout.unit)) st.2).bind fun bytes =>
        some (st.1.set t.2.1 (overwrite t.2.2 bytes.1 (st.1.getD t.2.1 [])), bytes.2)) st

/-- `decodeStep` by the kernels. -/
def Engine.decodeStep (plan : DecodePlan w) (driver : DecodeDriver) (present : List Bool)
    (inputs : List (Option (List (BitVec 8)))) (targets : List (RecoveryTarget w))
    (dests : List (Nat × Nat)) (st : (Work w × List (List (BitVec 8))) × E.State)
    (window : Nat × Nat) :
    Option ((Outcome Error PUnit × (Work w × List (List (BitVec 8)))) × E.State) :=
  let size := window.2 - window.1
  (E.decodeChunk plan driver present inputs window.1 window.2
    (st.1.1.map (List.take size), st.2)).bind fun chunk =>
      match chunk.1.1 with
      | .ok _ => (E.recoverOutputs size targets dests chunk.1.2 (st.1.2, chunk.2)).bind fun out =>
          some ((.ok ⟨⟩, (putViews size st.1.1 chunk.1.2, out.1)), out.2)
      | failed => some ((failed, (putViews size st.1.1 chunk.1.2, st.1.2)), chunk.2)

/-- The chunk loops of the decoders by the kernels: `targets` and `dests` say what a window
recovers, and where it goes. -/
def Engine.decodeWindows (plan : DecodePlan w) (driver : DecodeDriver) (present : List Bool)
    (inputs : List (Option (List (BitVec 8))))
    (targets : List (List (BitVec 8)) → List (RecoveryTarget w))
    (dests : List (List (BitVec 8)) → Nat × Nat → List (Nat × Nat)) (windows : List (Nat × Nat))
    (st : (Work w × List (List (BitVec 8))) × E.State) :
    Option ((Outcome Error PUnit × (Work w × List (List (BitVec 8)))) × E.State) :=
  runAllOn (fun st window => E.decodeStep plan driver present inputs (targets st.1.2)
    (dests st.1.2 window) st window) windows st

end Definitions

section Lanes

variable {F : Family w} {E : Engine F} {k n len : Nat} {work : Work w} {s : E.State}

/-- A step on lanes of one length means what its operation means. -/
theorem Engine.step_yields (h : Grid n len work) {user : Nat → List (BitVec 8)} {op : LaneOp w}
    (hload : ∀ i, op = .load i → i < n ∧ F.layout.Fits (user i) (work.getD i []))
    (hs : E.Ready k s) :
    Grid n len (op.apply F.kernel (fun i => F.layout.toWork (user i)) work) ∧
      Yields (E.Ready k) (E.step user (work, s) op)
        (op.apply F.kernel (fun i => F.layout.toWork (user i)) work) := by
  cases op with
  | dit2 dir logM i j =>
    refine ⟨grid_onPair h dir logM i j, ?_⟩
    simp only [Engine.step, LaneOp.apply, onPair]
    split_ifs with hskip
    · exact Yields.pure hs work
    · rw [not_or, not_or, not_le, not_le, h.length_eq] at hskip
      have hi := h.row_length i hskip.2.1
      have hj := h.row_length j hskip.2.2
      obtain ⟨s', hrun, hs'⟩ := E.dit2_yields dir logM (hj.trans hi.symm) hs
      rw [Option.some.inj hrun]
      exact Yields.pure hs' _
  | add src dst =>
    have hpair : onPair (fun hi lo => (hi, E.sliceXor hi lo)) src dst work =
        onPair (fun hi lo => (hi, Leopard.sliceXor hi lo)) src dst work := by
      simp only [onPair]
      split_ifs with hskip
      · rfl
      · rw [not_or, not_or, not_le, not_le, h.length_eq] at hskip
        have hsrc := h.row_length src hskip.2.1
        have hdst := h.row_length dst hskip.2.2
        rw [E.sliceXor_eq (hsrc.trans hdst.symm)]
    refine ⟨?_, ⟨s, congrArg (fun work => some (work, s)) hpair, hs⟩⟩
    simp only [LaneOp.apply, onPair]
    split_ifs with hskip
    · exact h
    · rw [not_or, not_or, not_le, not_le, h.length_eq] at hskip
      have hsrc := h.row_length src hskip.2.1
      have hdst := h.row_length dst hskip.2.2
      refine grid_set (grid_set h src hsrc) dst ?_
      rw [Leopard.sliceXor, List.length_zipWith, hsrc, hdst, Nat.min_self]
  | clear i =>
    refine ⟨?_, Yields.pure hs _⟩
    by_cases hi : i < n
    · exact grid_set h i (by rw [clearLane, List.length_replicate, h.row_length i hi])
    · rw [LaneOp.apply, List.set_eq_of_length_le (by rw [h.length_eq]; omega)]
      exact h
  | load i =>
    obtain ⟨hi, hfits⟩ := hload i rfl
    have hlane := h.row_length i hi
    have hlen : (F.layout.toWork (user i)).length = len := by
      rw [F.layout.length_toWork _ hfits.blocks, hfits.length_eq, hlane]
      exact Nat.mul_div_cancel _ F.layout.unit_pos
    refine ⟨grid_set h i hlen, ?_⟩
    simp only [Engine.step, LaneOp.apply]
    rw [if_pos (by rw [h.length_eq]; exact hi), E.load_eq hfits]
    exact Yields.pure hs _

/-- A program on lanes of one length means what its operations mean one after another. -/
theorem Engine.run_yields (h : Grid n len work) {user : Nat → List (BitVec 8)}
    {ops : List (LaneOp w)} (hload : ∀ i, .load i ∈ ops →
      i < n ∧ (user i).length = len * F.layout.unit ∧ 64 ∣ (user i).length) (hs : E.Ready k s) :
    Grid n len (applyOps F.kernel (fun i => F.layout.toWork (user i)) ops work) ∧
      Yields (E.Ready k) (E.run user ops (work, s))
        (applyOps F.kernel (fun i => F.layout.toWork (user i)) ops work) := by
  apply Yields.foldlM (Grid n len) _ h hs
  intro op hop b hb
  have hfits (i : Nat) (hi : op = .load i) :
      i < n ∧ F.layout.Fits (user i) (b.getD i []) := by
    obtain ⟨hn, hlen, h64⟩ := hload i (hi ▸ hop)
    exact ⟨hn, by rw [hb.row_length i hn]; exact hlen, h64⟩
  refine ⟨(Engine.step_yields (E := E) (s := s) hb hfits hs).1, fun s hs => ?_⟩
  exact (Engine.step_yields hb hfits hs).2

/-- The kernels do to lanes what a function does that their program executes. -/
theorem Engine.yields_of_executes (h : Grid n len work) {user : Nat → List (BitVec 8)}
    {ops : List (LaneOp w)} {f : Work w → Work w}
    (hexec : Executes F.kernel (fun i => F.layout.toWork (user i)) n ops f)
    (hload : ∀ i, .load i ∈ ops →
      i < n ∧ (user i).length = len * F.layout.unit ∧ 64 ∣ (user i).length) (hs : E.Ready k s) :
    Grid n len (f work) ∧ Yields (E.Ready k) (E.run user ops (work, s)) (f work) := by
  have hrun := Engine.run_yields h hload hs
  rwa [hexec work h.length_eq] at hrun

end Lanes

end Leopard

end ErasureCodec
