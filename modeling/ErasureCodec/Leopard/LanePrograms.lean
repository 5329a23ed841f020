import ErasureCodec.Leopard.Encode

namespace ErasureCodec

namespace Leopard

variable {w : Nat}

section Definitions

/-- One operation on the lanes of a transform. -/
inductive LaneOp (w : Nat) where
  | dit2 (dir : TransformDir) (logM : BitVec w) (i j : Nat)
  /-- The first lane is added to the second. -/
  | add (src dst : Nat)
  | clear (i : Nat)
  /-- The lane is overwritten by the input of its index. -/
  | load (i : Nat)
  deriving DecidableEq

/-- What an operation means: `load` yields the inputs. -/
def LaneOp.apply (K : Kernel w) (load : Nat → List (BitVec w)) (work : Work w) :
    LaneOp w → Work w
  | .dit2 dir logM i j => onPair (Leopard.dit2 K dir logM) i j work
  | .add src dst => onPair (fun hi lo => (hi, sliceXor hi lo)) src dst work
  | .clear i => work.set i (clearLane (work.getD i []))
  | .load i => work.set i (load i)

def applyOps (K : Kernel w) (load : Nat → List (BitVec w)) (ops : List (LaneOp w))
    (work : Work w) : Work w :=
  ops.foldl (LaneOp.apply K load) work

def clearOps (start count : Nat) : List (LaneOp w) := (List.range' start count).map .clear

def loadOps (start count : Nat) : List (LaneOp w) := (List.range' start count).map .load

/-- The butterflies of a group one by one. -/
def pairwiseOps (dir : TransformDir) (block : Stage4Block w) (a : Nat) : List (LaneOp w) :=
  let b := a + block.dist
  let c := a + block.dist * 2
  let d := a + block.dist * 3
  match dir with
  | .forward => [.dit2 dir block.logM02 a c, .dit2 dir block.logM02 b d,
      .dit2 dir block.logM01 a b, .dit2 dir block.logM23 c d]
  | .inverse => [.dit2 dir block.logM01 a b, .dit2 dir block.logM23 c d,
      .dit2 dir block.logM02 a c, .dit2 dir block.logM02 b d]

/-- The butterflies of a group on four lanes. -/
def directOps (dir : TransformDir) (block : Stage4Block w) (a : Nat) : List (LaneOp w) :=
  let b := a + block.dist
  let c := a + block.dist * 2
  let d := a + block.dist * 3
  match dir with
  | .forward => [.dit2 dir block.logM02 a c, .dit2 dir block.logM02 b d,
      .dit2 dir block.logM01 a b, .dit2 dir block.logM23 c d]
  | .inverse => [.dit2 dir block.logM01 a b, .dit2 dir block.logM23 c d,
      .dit2 dir block.logM02 b d, .dit2 dir block.logM02 a c]

def directOneOps (n : Nat) (dir : TransformDir) (block : Stage4Block w) (i : Nat) :
    List (LaneOp w) :=
  if block.r + i + block.dist * 3 < n then directOps dir block (block.r + i)
  else pairwiseOps dir block (block.r + i)

/-- The operations of a block on `n` lanes. -/
def dit4Ops (n : Nat) (strategy : Dit4Strategy) (dir : TransformDir) (block : Stage4Block w) :
    List (LaneOp w) :=
  match strategy with
  | .decomposed => (List.range block.dist).flatMap fun i => pairwiseOps dir block (block.r + i)
  | .direct =>
    let bulkEnd := min block.dist (n - (block.r + block.dist * 3))
    ((List.range bulkEnd).flatMap fun i => directOps dir block (block.r + i)) ++
      (List.range' bulkEnd (block.dist - bulkEnd)).flatMap (directOneOps n dir block)
  | .directSafe => (List.range block.dist).flatMap (directOneOps n dir block)
  | .auto => []

def prepareOps (fill : Nat → Nat → List (LaneOp w)) (mtrunc r : Nat) : List (LaneOp w) :=
  let available := min (mtrunc - r) 4
  fill r available ++ clearOps (r + available) (4 - available)

def ifftPassOps (n : Nat) (strategy : Dit4Strategy) (fill : Nat → Nat → List (LaneOp w))
    (plan : IfftDitPlan w) : List (LaneOp w) :=
  if plan.initialBlocks.isEmpty then
    fill 0 plan.mtrunc ++ clearOps plan.mtrunc (plan.m - plan.mtrunc)
  else
    (plan.initialBlocks.flatMap fun block =>
      prepareOps fill plan.mtrunc block.r ++ dit4Ops n strategy .inverse block) ++
      clearOps plan.clearStart (plan.m - plan.clearStart) ++
      plan.laterBlocks.flatMap (dit4Ops n strategy .inverse)

def ifftFinalOps (finalStage : Option (Stage2Block w)) : List (LaneOp w) :=
  match finalStage with
  | none => []
  | some stage => (List.range stage.dist).map fun i => .dit2 .inverse stage.logM i (i + stage.dist)

/-- The inverse transform of a group that is loaded. -/
def ifftEncoderOps (n : Nat) (strategy : Dit4Strategy) (plan : IfftDitPlan w) : List (LaneOp w) :=
  ifftPassOps n strategy loadOps plan ++ ifftFinalOps plan.finalStage

/-- The inverse transform of lanes that hold their input. -/
def ifftDecodeOps (n : Nat) (plan : IfftDitPlan w) : List (LaneOp w) :=
  ifftPassOps n .directSafe (fun _ _ => []) plan ++ ifftFinalOps plan.finalStage

def fftOps (n : Nat) (strategy : Dit4Strategy) (plan : FftDitPlan w) : List (LaneOp w) :=
  plan.stage4Blocks.flatMap (dit4Ops n strategy .forward) ++
    plan.finalStage.map fun stage => .dit2 .forward stage.logM stage.r (stage.r + stage.dist)

/-- The additions of one round of the derivative. -/
def derivativeRoundOps (n i : Nat) : List (LaneOp w) :=
  let width := ((i ^^^ (i - 1)) + 1) >>> 1
  (List.range width).flatMap fun j =>
    if i + j < n ∧ i - width + j < n then [.add (i + j) (i - width + j)] else []

def derivativeOps (n : Nat) : List (LaneOp w) := (List.range' 1 (n - 1)).flatMap (derivativeRoundOps n)

end Definitions

section Executes

variable {K : Kernel w} {load : Nat → List (BitVec w)} {n : Nat}

theorem length_onPair (f : List (BitVec w) → List (BitVec w) → List (BitVec w) × List (BitVec w))
    (i j : Nat) (work : Work w) : (onPair f i j work).length = work.length := by
  rw [onPair]
  split_ifs
  · rfl
  · rw [List.length_set, List.length_set]

theorem length_apply (op : LaneOp w) (work : Work w) :
    (op.apply K load work).length = work.length := by
  cases op with
  | dit2 dir logM i j => exact length_onPair _ i j work
  | add src dst => exact length_onPair (fun hi lo => (hi, sliceXor hi lo)) src dst work
  | clear i => exact List.length_set
  | load i => exact List.length_set

theorem length_applyOps (ops : List (LaneOp w)) (work : Work w) :
    (applyOps K load ops work).length = work.length := by
  induction ops generalizing work with
  | nil => rfl
  | cons op ops ih => exact (ih _).trans (length_apply op work)

/-- The operations do what a function does to `n` lanes. -/
def Executes (K : Kernel w) (load : Nat → List (BitVec w)) (n : Nat) (ops : List (LaneOp w))
    (f : Work w → Work w) : Prop :=
  ∀ work : Work w, work.length = n → applyOps K load ops work = f work

theorem executes_nil : Executes K load n [] fun work => work := fun _ _ => rfl

theorem executes_one (op : LaneOp w) : Executes K load n [op] fun work => op.apply K load work :=
  fun _ _ => rfl

theorem Executes.append {ops ops' : List (LaneOp w)} {f f' : Work w → Work w}
    (h : Executes K load n ops f) (h' : Executes K load n ops' f') :
    Executes K load n (ops ++ ops') fun work => f' (f work) := by
  intro work hn
  have hlen : (f work).length = n := by rw [← h work hn, length_applyOps, hn]
  calc applyOps K load (ops ++ ops') work
      = applyOps K load ops' (applyOps K load ops work) := List.foldl_append
    _ = applyOps K load ops' (f work) := by rw [h work hn]
    _ = f' (f work) := h' _ hlen

/-- Operations one after another are a loop. -/
theorem Executes.foldl {α : Type*} {l : List α} {ops : α → List (LaneOp w)}
    {f : Work w → α → Work w} (h : ∀ x ∈ l, Executes K load n (ops x) fun work => f work x) :
    Executes K load n (l.flatMap ops) fun work => l.foldl f work := by
  induction l with
  | nil => exact executes_nil
  | cons x l ih =>
    rw [List.flatMap_cons]
    exact (h x List.mem_cons_self).append (ih fun y hy => h y (List.mem_cons_of_mem x hy))

theorem executes_map {α : Type*} (l : List α) (op : α → LaneOp w) :
    Executes K load n (l.map op) fun work => l.foldl (fun work x => (op x).apply K load work) work :=
  fun _ _ => List.foldl_map

end Executes

section Loads

variable {n i : Nat}

theorem mem_loadOps {start count : Nat} :
    (.load i : LaneOp w) ∈ loadOps start count ↔ start ≤ i ∧ i < start + count := by
  simp [loadOps]

@[simp]
theorem load_notMem_clearOps (start count : Nat) : (.load i : LaneOp w) ∉ clearOps start count := by
  simp [clearOps]

@[simp]
theorem load_notMem_pairwiseOps (dir : TransformDir) (block : Stage4Block w) (a : Nat) :
    .load i ∉ pairwiseOps dir block a := by
  cases dir <;> simp [pairwiseOps]

@[simp]
theorem load_notMem_directOps (dir : TransformDir) (block : Stage4Block w) (a : Nat) :
    .load i ∉ directOps dir block a := by
  cases dir <;> simp [directOps]

@[simp]
theorem load_notMem_directOneOps (dir : TransformDir) (block : Stage4Block w) (a : Nat) :
    .load i ∉ directOneOps n dir block a := by
  rw [directOneOps]
  split_ifs <;> simp

@[simp]
theorem load_notMem_dit4Ops (strategy : Dit4Strategy) (dir : TransformDir) (block : Stage4Block w) :
    .load i ∉ dit4Ops n strategy dir block := by
  cases strategy <;> simp [dit4Ops]

@[simp]
theorem load_notMem_ifftFinalOps (finalStage : Option (Stage2Block w)) :
    .load i ∉ ifftFinalOps finalStage := by
  cases finalStage <;> simp [ifftFinalOps]

@[simp]
theorem load_notMem_fftOps (strategy : Dit4Strategy) (plan : FftDitPlan w) :
    .load i ∉ fftOps n strategy plan := by
  simp [fftOps]

@[simp]
theorem load_notMem_derivativeOps : (.load i : LaneOp w) ∉ derivativeOps n := by
  simp only [derivativeOps, derivativeRoundOps, List.mem_flatMap, not_exists, not_and]
  intro t _ j _
  split_ifs <;> simp

@[simp]
theorem load_notMem_ifftDecodeOps (plan : IfftDitPlan w) : .load i ∉ ifftDecodeOps n plan := by
  simp only [ifftDecodeOps, ifftPassOps, prepareOps]
  split_ifs <;> simp

/-- A group loads no lane from its end on. -/
theorem lt_of_load_mem {strategy : Dit4Strategy} {plan : IfftDitPlan w}
    (h : .load i ∈ ifftEncoderOps n strategy plan) : i < plan.mtrunc := by
  simp only [ifftEncoderOps, ifftPassOps, prepareOps] at h
  split_ifs at h
  · simp only [List.mem_append, mem_loadOps, load_notMem_clearOps, load_notMem_ifftFinalOps,
      or_false] at h
    omega
  · simp only [List.mem_append, List.mem_flatMap, mem_loadOps, load_notMem_clearOps,
      load_notMem_dit4Ops, load_notMem_ifftFinalOps, and_false, exists_false, or_false] at h
    obtain ⟨block, -, hstart, hend⟩ := h
    omega

end Loads

section Transforms

variable {K : Kernel w} {load : Nat → List (BitVec w)} {n : Nat}

theorem executes_clearOps (start count : Nat) :
    Executes K load n (clearOps start count) (zeroLanes start count) :=
  executes_map _ _

theorem executes_loadOps (start count : Nat) :
    Executes K load n (loadOps start count) (loadLanes load start count) :=
  executes_map _ _

theorem executes_pairwiseOps (dir : TransformDir) (block : Stage4Block w) (a : Nat) :
    Executes K load n (pairwiseOps dir block a) (dit4PairwiseOne K dir block a) := by
  intro work _
  cases dir <;> rfl

theorem executes_directOps (dir : TransformDir) (block : Stage4Block w) (a : Nat) :
    Executes K load n (directOps dir block a) (dit4Direct K dir block a) := by
  intro work _
  cases dir <;> rfl

theorem executes_directOneOps (dir : TransformDir) (block : Stage4Block w) (i : Nat) :
    Executes K load n (directOneOps n dir block i) fun work => dit4DirectOne K dir block work i := by
  intro work hn
  simp only [directOneOps, dit4DirectOne, hn]
  split_ifs
  · exact executes_directOps dir block _ work hn
  · exact executes_pairwiseOps dir block _ work hn

theorem executes_dit4Ops (strategy : Dit4Strategy) (dir : TransformDir) (block : Stage4Block w) :
    Executes K load n (dit4Ops n strategy dir block) fun work =>
      dit4At K strategy dir work block := by
  have hone (l : List Nat) : Executes K load n (l.flatMap (directOneOps n dir block)) fun work =>
      l.foldl (dit4DirectOne K dir block) work :=
    Executes.foldl fun i _ => executes_directOneOps dir block i
  cases strategy with
  | decomposed => exact Executes.foldl fun i _ => executes_pairwiseOps dir block (block.r + i)
  | direct =>
    intro work hn
    simp only [dit4Ops, dit4At, hn]
    refine Executes.append (Executes.foldl fun i _ => ?_) (hone _) work hn
    exact executes_directOps dir block (block.r + i)
  | directSafe => exact hone _
  | auto => exact executes_nil

theorem executes_prepareOps {fill : Nat → Nat → Work w → Work w}
    {fillOps : Nat → Nat → List (LaneOp w)}
    (hfill : ∀ start count, Executes K load n (fillOps start count) (fill start count))
    (mtrunc r : Nat) : Executes K load n (prepareOps fillOps mtrunc r) (prepareGroup fill mtrunc r) :=
  (hfill _ _).append (executes_clearOps _ _)

theorem executes_ifftPassOps {fill : Nat → Nat → Work w → Work w}
    {fillOps : Nat → Nat → List (LaneOp w)}
    (hfill : ∀ start count, Executes K load n (fillOps start count) (fill start count))
    (strategy : Dit4Strategy) (plan : IfftDitPlan w) :
    Executes K load n (ifftPassOps n strategy fillOps plan) (ifftPasses K strategy fill plan) := by
  intro work hn
  rw [ifftPassOps, ifftPasses]
  split_ifs
  · exact (hfill _ _).append (executes_clearOps _ _) work hn
  · refine Executes.append (Executes.append (Executes.foldl fun block _ => ?_)
      (executes_clearOps _ _)) (Executes.foldl fun block _ => ?_) work hn
    · exact (executes_prepareOps hfill plan.mtrunc block.r).append
        (executes_dit4Ops strategy .inverse block)
    · exact executes_dit4Ops strategy .inverse block

theorem executes_ifftFinalOps (finalStage : Option (Stage2Block w)) :
    Executes K load n (ifftFinalOps finalStage) (ifftFinalPairs K finalStage) := by
  cases finalStage with
  | none => exact executes_nil
  | some stage => exact executes_map _ _

/-- The encoder's inverse transform is the operations of its plan in their order. -/
theorem executes_ifftEncoderOps (strategy : Dit4Strategy) (plan : IfftDitPlan w) :
    Executes K load n (ifftEncoderOps n strategy plan)
      (ifftDitEncoderWithPlan K strategy load plan) :=
  (executes_ifftPassOps executes_loadOps strategy plan).append (executes_ifftFinalOps _)

theorem executes_ifftDecodeOps (plan : IfftDitPlan w) :
    Executes K load n (ifftDecodeOps n plan) (ifftDitDecodeWithPlan K plan) :=
  (executes_ifftPassOps (fun _ _ => executes_nil) .directSafe plan).append
    (executes_ifftFinalOps _)

theorem executes_fftOps (strategy : Dit4Strategy) (plan : FftDitPlan w) :
    Executes K load n (fftOps n strategy plan) (fftDitWithPlan K strategy plan) := by
  have hblocks : Executes K load n (plan.stage4Blocks.flatMap (dit4Ops n strategy .forward))
      fun work => plan.stage4Blocks.foldl (dit4At K strategy .forward) work :=
    Executes.foldl fun block _ => executes_dit4Ops strategy .forward block
  intro work hn
  exact hblocks.append (executes_map plan.finalStage fun stage =>
    .dit2 .forward stage.logM stage.r (stage.r + stage.dist)) work hn

theorem executes_derivativeOps (n : Nat) :
    Executes K load n (derivativeOps n) (computeFormalDerivative n) := by
  apply Executes.foldl
  intro i _
  apply Executes.foldl
  intro j _ work hn
  split_ifs
  · exact executes_one _ work hn
  · rfl

end Transforms

end Leopard

end ErasureCodec
