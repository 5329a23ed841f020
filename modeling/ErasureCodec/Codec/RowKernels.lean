import ErasureCodec.Codec.Construct
import ErasureCodec.Field.Gfni

namespace ErasureCodec

namespace Galois8

open Reg

section Definitions

/-- The positions of `(start..stop).step_by(step)`. -/
def stepBy (start stop step : Nat) : List Nat :=
  (List.range ((stop - start + step - 1) / step)).map fun k => start + k * step

/-- A row, the inputs, a chunk of the output and where the chunk starts. -/
abbrev DotFn :=
  List (BitVec 8) → List (List (BitVec 8)) → List (BitVec 8) → Nat → List (BitVec 8)

/-- An input with what a kernel multiplies it by. -/
structure Term (κ : Type) where
  input : List (BitVec 8)
  factor : κ

/-- A table of terms of which the first `general` have a factor and those up to `count` are
added as they are. -/
structure DotPlan (κ : Type) where
  terms : List (Term κ)
  general : Nat
  count : Nat

variable {κ : Type}

/-- Write the next entry of a table. -/
def pushTerm (st : List (Term κ) × Nat) (write : Term κ → Term κ) : List (Term κ) × Nat :=
  (st.1.modify st.2 write, st.2 + 1)

/-- General products first, then unit coefficients; zeros take no entry. -/
def loadPlan (capacity : Nat) (blank : κ) (prepare : BitVec 8 → κ) (row : List (BitVec 8))
    (inputs : List (List (BitVec 8))) : DotPlan κ :=
  let general := (row.zip inputs).foldl (fun st pair =>
    if 1#8 < pair.1 then pushTerm st fun _ => ⟨pair.2, prepare pair.1⟩ else st)
    (List.replicate capacity ⟨[], blank⟩, 0)
  let all := (row.zip inputs).foldl (fun st pair =>
    if pair.1 = 1#8 then pushTerm st fun term => { term with input := pair.2 } else st) general
  ⟨all.1, general.2, all.2⟩

/-- Four accumulators. -/
structure Quad where
  a : Reg
  b : Reg
  c : Reg
  d : Reg

def Quad.zero : Quad := ⟨setzero, setzero, setzero, setzero⟩

def Quad.add (q : Quad) (a b c d : Reg) : Quad :=
  ⟨xorSi q.a a, xorSi q.b b, xorSi q.c c, xorSi q.d d⟩

/-- The sums of four neighbouring vectors. -/
def batchSums (width : Nat) (product : κ → Reg → Reg) (general units : List (Term κ)) (pos : Nat) :
    Quad :=
  let q := general.foldl (fun q plan => q.add (product plan.factor (loadu plan.input pos))
    (product plan.factor (loadu plan.input (pos + width)))
    (product plan.factor (loadu plan.input (pos + width * 2)))
    (product plan.factor (loadu plan.input (pos + width * 3)))) Quad.zero
  units.foldl (fun q plan => q.add (loadu plan.input pos) (loadu plan.input (pos + width))
    (loadu plan.input (pos + width * 2)) (loadu plan.input (pos + width * 3))) q

def scalarTail : DotFn := fun row inputs output start =>
  let stop := start + output.length
  (row.zip inputs).foldl (fun output pair =>
    if pair.1 = 0#8 then output
    else List.zipWith (fun byte input => byte ^^^ if pair.1 = 1#8 then input else mul pair.1 input)
      output (slice pair.2 start stop)) (List.replicate output.length 0#8)

/-- The row kernels: batches of four vectors, single vectors, then bytes. -/
def dotKernel (capacity width : Nat) (blank : κ) (prepare : BitVec 8 → κ)
    (product : κ → Reg → Reg) (vector : List (Term κ) → List (Term κ) → Nat → Reg) : DotFn :=
  fun row inputs output start =>
    let plan := loadPlan capacity blank prepare row inputs
    let general := plan.terms.take plan.general
    let units := slice plan.terms plan.general plan.count
    if plan.count = 0 then List.replicate output.length 0#8
    else
      let batch := width * 4
      let batched := output.length / batch * batch
      let done := output.length / width * width
      let output := (stepBy 0 batched batch).foldl (fun output offset =>
        let q := batchSums width product general units (start + offset)
        let output := storeu width output offset q.a
        let output := storeu width output (offset + width) q.b
        let output := storeu width output (offset + width * 2) q.c
        storeu width output (offset + width * 3) q.d) output
      let output := (stepBy batched done width).foldl (fun output offset =>
        storeu width output offset (vector general units (start + offset))) output
      if done < output.length then
        output.take done ++ scalarTail row inputs (output.drop done) (start + done)
      else output

/-- `_mm256_gf2p8affine_epi64_epi8` with the broadcast matrix of a term. -/
def gfniProduct (matrix : BitVec 64) (v : Reg) : Reg := affineEpi64 v (set1Epi64 matrix)

/-- One vector of the GFNI kernels, with the terms taken in groups of four. -/
def gfniVector (general units : List (Term (BitVec 64))) (pos : Nat) : Reg :=
  let groups := asChunks4 general
  let unitGroups := asChunks4 units
  let load (plan : Term (BitVec 64)) := loadu plan.input pos
  let times (plan : Term (BitVec 64)) := gfniProduct plan.factor (load plan)
  let q := groups.1.foldl (fun q plan =>
    q.add (times plan.1) (times plan.2.1) (times plan.2.2.1) (times plan.2.2.2)) Quad.zero
  let q := unitGroups.1.foldl (fun q plan =>
    q.add (load plan.1) (load plan.2.1) (load plan.2.2.1) (load plan.2.2.2)) q
  let sum := xorSi (xorSi q.a q.b) (xorSi q.c q.d)
  let sum := groups.2.foldl (fun sum plan => xorSi sum (times plan)) sum
  unitGroups.2.foldl (fun sum plan => xorSi sum (load plan)) sum

/-- `dot_kernel!` for a vector width. -/
def gfniDot (width : Nat) : DotFn :=
  dotKernel 32 width 0#64 gfniMultiplyMatrix gfniProduct gfniVector

def dotAvx2 : DotFn := gfniDot 32

def dotAvx512 : DotFn := gfniDot 64

/-- `load_table_halves`: the products by the low and by the high nibbles. -/
def loadTableHalves (c : BitVec 8) : List (BitVec 8) × List (BitVec 8) :=
  ((List.range 16).map fun b => multiply c (BitVec.ofNat 8 b),
    (List.range 16).map fun b => multiply c (BitVec.ofNat 8 (b <<< 4)))

/-- The product of a vector by two nibble tables. -/
def tableProduct (tables : List (BitVec 8) × List (BitVec 8)) (v : Reg) : Reg :=
  let nibbleMask := set1Epi8 0x0f#8
  let lowTbl := broadcastI128 (loadu tables.1 0)
  let highTbl := broadcastI128 (loadu tables.2 0)
  xorSi (shuffleEpi8 lowTbl (andSi v nibbleMask))
    (shuffleEpi8 highTbl (andSi (srliEpi64 4 v) nibbleMask))

/-- One vector of the table kernels, term by term. -/
def tableVector (general units : List (Term (List (BitVec 8) × List (BitVec 8)))) (pos : Nat) :
    Reg :=
  let sum := general.foldl (fun sum plan =>
    xorSi sum (tableProduct plan.factor (loadu plan.input pos))) setzero
  units.foldl (fun sum plan => xorSi sum (loadu plan.input pos)) sum

def tableDot (width : Nat) : DotFn :=
  dotKernel 16 width ([], []) loadTableHalves tableProduct tableVector

def dotTableAvx2 : DotFn := tableDot 32

def dotTableAvx512 : DotFn := tableDot 64

/-- Every view is checked before the first output write. -/
def executeRows (maxInputs : Nat) (code : DotFn) (rows inputs outputs : List (List (BitVec 8)))
    (shardLen chunkLen : Nat) : Except Error Unit × List (List (BitVec 8)) :=
  if inputs.length < 4 then (.error .tooFewDataShards, outputs)
  else if maxInputs < inputs.length then (.error .tooManyDataShards, outputs)
  else if outputs.isEmpty then (.error .tooFewParityShards, outputs)
  else if 4 < outputs.length then (.error .tooManyParityShards, outputs)
  else if rows.length ≠ outputs.length ∨ rows.any (fun row => row.length != inputs.length) then
    (.error .invalidCustomMatrix, outputs)
  else if chunkLen = 0 ∨ inputs.any (fun v => v.length != shardLen) ∨
      outputs.any (fun v => v.length != shardLen) then
    (.error .incorrectShardSize, outputs)
  else
    (.ok (), (stepBy 0 shardLen chunkLen).foldl (fun outputs start =>
      let stop := min (saturate (start + chunkLen)) shardLen
      List.zipWith (fun row output =>
        overwrite start (code row inputs (slice output start stop) start) output) rows outputs)
      outputs)

structure SelectedRowKernel where
  code : DotFn
  width : Nat

namespace SelectedRowKernel

def fromBackend : BackendId → Option SelectedRowKernel
  | .rustGfniAvx2 => some ⟨dotAvx2, 32⟩
  | .rustGfniAvx512 => some ⟨dotAvx512, 64⟩
  | _ => none

def execute (self : SelectedRowKernel) (rows inputs outputs : List (List (BitVec 8)))
    (shardLen chunkLen : Nat) : Except Error Unit × List (List (BitVec 8)) :=
  executeRows 32 self.code rows inputs outputs shardLen chunkLen

/-- `select` on a machine with this active backend. -/
def select (backend : BackendId) (inputs outputs shardLen : Nat) : Option SelectedRowKernel :=
  if ¬(4 ≤ inputs ∧ inputs ≤ 32) ∨ ¬(2 ≤ outputs ∧ outputs ≤ 4) ∨ shardLen < 128 then none
  else (fromBackend backend).filter fun kernel => kernel.width * 4 ≤ shardLen

end SelectedRowKernel

structure SelectedTableRowKernel where
  code : DotFn
  width : Nat

namespace SelectedTableRowKernel

def fromBackend : BackendId → Option SelectedTableRowKernel
  | .rustAvx2 => some ⟨dotTableAvx2, 32⟩
  | .rustAvx512 => some ⟨dotTableAvx512, 64⟩
  | _ => none

def execute (self : SelectedTableRowKernel) (rows inputs outputs : List (List (BitVec 8)))
    (shardLen chunkLen : Nat) : Except Error Unit × List (List (BitVec 8)) :=
  executeRows 16 self.code rows inputs outputs shardLen chunkLen

def select (backend : BackendId) (inputs outputs shardLen : Nat) : Option SelectedTableRowKernel :=
  if ¬(4 ≤ inputs ∧ inputs ≤ 16) ∨ ¬(1 ≤ outputs ∧ outputs ≤ 4) ∨ shardLen < 128 then none
  else (fromBackend backend).filter fun kernel => kernel.width * 4 ≤ shardLen

end SelectedTableRowKernel

end Definitions

section Steps

theorem stepBy_multiples (base n : Nat) {step : Nat} (hstep : 0 < step) :
    stepBy base (base + n * step) step = (List.range n).map fun k => base + k * step := by
  have hcount : (base + n * step - base + step - 1) / step = n := by
    rw [Nat.add_sub_cancel_left, Nat.add_sub_assoc hstep, Nat.mul_comm, Nat.mul_add_div hstep,
      Nat.div_eq_of_lt (by omega), Nat.add_zero]
  rw [stepBy, hcount]

theorem chunkRanges_eq_stepBy (len size : Nat) : chunkRanges len size =
    (stepBy 0 len size).map fun start => (start, min (start + size) len) := by
  rw [chunkRanges, stepBy, List.map_map, Nat.sub_zero]
  apply List.map_congr_left
  intro k _
  rw [Function.comp_apply, Nat.zero_add, Nat.succ_mul]

end Steps

section Plans

variable {κ α γ : Type}

theorem modify_append_length {β : Type} (pre : List β) (t : β) (rest : List β) (f : β → β) :
    (pre ++ t :: rest).modify pre.length f = pre ++ f t :: rest := by
  induction pre with
  | nil => rfl
  | cons a pre ih => simp [ih]

/-- Writing the entries of a list that pass a test behind each other into a table: `o` is what
is observed of an entry and `w` what is written. -/
theorem foldl_pushTerm (p : α → Prop) [DecidablePred p] (write : α → Term κ → Term κ)
    (o : Term κ → γ) (w : α → γ) (hw : ∀ a t, o (write a t) = w a) (l : List α)
    (pre rest : List (Term κ)) (h : (l.filter p).length ≤ rest.length) :
    ∃ written rest', l.foldl (fun st a => if p a then pushTerm st (write a) else st)
        (pre ++ rest, pre.length) = (pre ++ written ++ rest', pre.length + written.length) ∧
      written.map o = (l.filter p).map w ∧ rest.length = written.length + rest'.length := by
  induction l generalizing pre rest with
  | nil => exact ⟨[], rest, by simp, rfl, by simp⟩
  | cons a l ih =>
    by_cases hp : p a
    · cases rest with
      | nil => simp [hp] at h
      | cons t rest =>
        simp only [List.filter_cons, hp, decide_true, if_true, List.length_cons,
          Nat.add_le_add_iff_right] at h
        obtain ⟨written, rest', hrun, hread, hlen⟩ := ih (pre ++ [write a t]) rest h
        refine ⟨write a t :: written, rest', ?_, ?_, ?_⟩
        · rw [List.foldl_cons, if_pos hp, pushTerm, modify_append_length]
          simpa [Nat.add_assoc, Nat.add_left_comm, Nat.add_comm] using hrun
        · simp [hp, hw, hread]
        · simp only [List.length_cons, hlen]
          omega
    · simp only [List.filter_cons, hp, decide_false] at h
      obtain ⟨written, rest', hrun, hread, hlen⟩ := ih pre rest h
      refine ⟨written, rest', ?_, ?_, hlen⟩
      · rw [List.foldl_cons, if_neg hp, hrun]
      · simp [hp, hread]

/-- The pairs of a general coefficient and its input. -/
def generalPairs (pairs : List (BitVec 8 × List (BitVec 8))) : List (BitVec 8 × List (BitVec 8)) :=
  pairs.filter fun pair => 1#8 < pair.1

def unitPairs (pairs : List (BitVec 8 × List (BitVec 8))) : List (BitVec 8 × List (BitVec 8)) :=
  pairs.filter fun pair => pair.1 = 1#8

theorem coefficient_cases : ∀ c : BitVec 8, c = 0#8 ∨ c = 1#8 ∨ 1#8 < c := by decide +kernel

theorem length_pairs_le (pairs : List (BitVec 8 × List (BitVec 8))) :
    (generalPairs pairs).length + (unitPairs pairs).length ≤ pairs.length := by
  induction pairs with
  | nil => rfl
  | cons pair pairs ih =>
    simp only [generalPairs, unitPairs] at ih
    rcases coefficient_cases pair.1 with h | h | h
    · simp [generalPairs, unitPairs, h]
      omega
    · simp [generalPairs, unitPairs, h]
      omega
    · have hne : ¬pair.1 = 1#8 := fun heq => by simp [heq] at h
      simp [generalPairs, unitPairs, h, hne]
      omega

/-- The plan of a row: the general terms, then the unit ones. -/
theorem loadPlan_spec (capacity : Nat) (blank : κ) (prepare : BitVec 8 → κ)
    {row : List (BitVec 8)} {inputs : List (List (BitVec 8))}
    (h : (row.zip inputs).length ≤ capacity) :
    let plan := loadPlan capacity blank prepare row inputs
    plan.terms.take plan.general =
        (generalPairs (row.zip inputs)).map (fun pair => ⟨pair.2, prepare pair.1⟩) ∧
      (slice plan.terms plan.general plan.count).map Term.input =
        (unitPairs (row.zip inputs)).map Prod.snd ∧
      plan.count = (generalPairs (row.zip inputs)).length +
        (unitPairs (row.zip inputs)).length := by
  have hle := length_pairs_le (row.zip inputs)
  obtain ⟨general, rest, hrun, hread, hlen⟩ := foldl_pushTerm (fun pair => 1#8 < pair.1)
    (fun pair _ => (⟨pair.2, prepare pair.1⟩ : Term κ)) id
    (fun pair : BitVec 8 × List (BitVec 8) => ⟨pair.2, prepare pair.1⟩) (fun _ _ => rfl)
    (row.zip inputs) [] (List.replicate capacity ⟨[], blank⟩)
    (by rw [List.length_replicate]; exact (Nat.le_of_add_right_le hle).trans h)
  rw [List.map_id] at hread
  have hgeneral : general.length = (generalPairs (row.zip inputs)).length := by
    rw [hread, List.length_map]
    rfl
  rw [List.length_replicate] at hlen
  obtain ⟨units, rest', hrun', hread', -⟩ := foldl_pushTerm (fun pair => pair.1 = 1#8)
    (fun pair (t : Term κ) => { t with input := pair.2 }) Term.input
    (fun pair : BitVec 8 × List (BitVec 8) => pair.2) (fun _ _ => rfl)
    (row.zip inputs) general rest (by simp only [unitPairs] at hle; omega)
  have hunits : units.length = (unitPairs (row.zip inputs)).length := by
    rw [← List.length_map (f := Term.input), hread', List.length_map]
    rfl
  simp only [List.nil_append, List.length_nil, Nat.zero_add] at hrun
  simp only [loadPlan, hrun, hrun']
  refine ⟨?_, ?_, by rw [hgeneral, hunits]⟩
  · rw [List.append_assoc, List.take_left' rfl, hread]
    rfl
  · rw [slice, List.append_assoc, List.drop_left' rfl, Nat.add_sub_cancel_left,
      List.take_left' rfl, hread']
    rfl

end Plans

section Sums

/-- The sum of a row's products at a position. -/
def dotAt (row : List (BitVec 8)) (inputs : List (List (BitVec 8))) (x : Nat) : BitVec 8 :=
  xorSum ((row.zip inputs).map fun pair => mul pair.1 (pair.2.getD x 0#8))

/-- General products and unit terms make up the whole sum. -/
theorem xorSum_general_unit (g : List (BitVec 8) → BitVec 8)
    (pairs : List (BitVec 8 × List (BitVec 8))) :
    xorSum ((generalPairs pairs).map fun pair => mul pair.1 (g pair.2)) ^^^
        xorSum ((unitPairs pairs).map fun pair => g pair.2) =
      xorSum (pairs.map fun pair => mul pair.1 (g pair.2)) := by
  induction pairs with
  | nil => simp [generalPairs, unitPairs]
  | cons pair pairs ih =>
    simp only [generalPairs, unitPairs] at ih
    rcases coefficient_cases pair.1 with h | h | h
    · simp [generalPairs, unitPairs, h, zero_mul, ih]
    · simp only [generalPairs, unitPairs, h, List.filter_cons, List.map_cons, xorSum_cons, one_mul,
        decide_true, if_true, ← ih]
      simp
      ac_rfl
    · have hne : ¬pair.1 = 1#8 := fun heq => by simp [heq] at h
      simp only [generalPairs, unitPairs, h, hne, List.filter_cons, List.map_cons, xorSum_cons,
        decide_true, decide_false, if_true, ← ih]
      simp
      ac_rfl

/-- What the four accumulators hold together. -/
def Quad.total (q : Quad) (i : Nat) : BitVec 8 :=
  (q.a.byte i ^^^ q.b.byte i) ^^^ (q.c.byte i ^^^ q.d.byte i)

theorem total_foldl_add {α : Type} (f : α → Reg) (groups : List (α × α × α × α)) (q : Quad)
    (i : Nat) :
    (groups.foldl (fun q g => q.add (f g.1) (f g.2.1) (f g.2.2.1) (f g.2.2.2)) q).total i =
      q.total i ^^^ xorSum ((groups.flatMap fun g => [g.1, g.2.1, g.2.2.1, g.2.2.2]).map
        fun t => (f t).byte i) := by
  induction groups generalizing q with
  | nil => simp
  | cons g groups ih =>
    rw [List.foldl_cons, ih]
    simp only [Quad.total, Quad.add, byte_xorSi, List.flatMap_cons, List.map_append,
      xorSum_append, List.map_cons, List.map_nil, xorSum_cons, xorSum_nil, BitVec.xor_zero]
    ac_rfl

theorem byte_gfniVector (general units : List (Term (BitVec 64))) (pos i : Nat) :
    (gfniVector general units pos).byte i =
      xorSum (general.map fun t => (gfniProduct t.factor (loadu t.input pos)).byte i) ^^^
        xorSum (units.map fun t => (loadu t.input pos).byte i) := by
  have hgeneral := asChunks4_flatten general
  have hunits := asChunks4_flatten units
  have htotal := total_foldl_add (fun t : Term (BitVec 64) => loadu t.input pos)
    (asChunks4 units).1 ((asChunks4 general).1.foldl (fun q plan =>
      q.add (gfniProduct plan.1.factor (loadu plan.1.input pos))
        (gfniProduct plan.2.1.factor (loadu plan.2.1.input pos))
        (gfniProduct plan.2.2.1.factor (loadu plan.2.2.1.input pos))
        (gfniProduct plan.2.2.2.factor (loadu plan.2.2.2.input pos))) Quad.zero) i
  have hproducts := total_foldl_add
    (fun t : Term (BitVec 64) => gfniProduct t.factor (loadu t.input pos))
    (asChunks4 general).1 Quad.zero i
  have hzero : Quad.zero.total i = 0#8 := by
    simp [Quad.total, Quad.zero]
  rw [hproducts, hzero, BitVec.zero_xor] at htotal
  nth_rewrite 2 [← hgeneral]
  nth_rewrite 2 [← hunits]
  simp only [gfniVector, byte_foldl_xorSi, byte_xorSi, List.map_append, xorSum_append]
  rw [Quad.total] at htotal
  rw [htotal]
  ac_rfl

/-- The sum of one vector, term by term. -/
def vectorSum {κ : Type} (product : κ → Reg → Reg) (general units : List (Term κ)) (pos : Nat) :
    Reg :=
  let sum := general.foldl (fun sum plan =>
    xorSi sum (product plan.factor (loadu plan.input pos))) setzero
  units.foldl (fun sum plan => xorSi sum (loadu plan.input pos)) sum

theorem byte_vectorSum {κ : Type} (product : κ → Reg → Reg) (general units : List (Term κ))
    (pos i : Nat) : (vectorSum product general units pos).byte i =
      xorSum (general.map fun t => (product t.factor (loadu t.input pos)).byte i) ^^^
        xorSum (units.map fun t => (loadu t.input pos).byte i) := by
  simp only [vectorSum, byte_foldl_xorSi, byte_setzero, BitVec.zero_xor]

theorem foldl_quad_add {α : Type} (f0 f1 f2 f3 : α → Reg) (l : List α) (q : Quad) :
    l.foldl (fun q t => q.add (f0 t) (f1 t) (f2 t) (f3 t)) q =
      ⟨l.foldl (fun sum t => xorSi sum (f0 t)) q.a, l.foldl (fun sum t => xorSi sum (f1 t)) q.b,
        l.foldl (fun sum t => xorSi sum (f2 t)) q.c, l.foldl (fun sum t => xorSi sum (f3 t)) q.d⟩ := by
  induction l generalizing q with
  | nil => rfl
  | cons t l ih =>
    rw [List.foldl_cons, ih]
    rfl

/-- A batch is four vectors. -/
theorem batchSums_eq {κ : Type} (width : Nat) (product : κ → Reg → Reg)
    (general units : List (Term κ)) (pos : Nat) :
    batchSums width product general units pos =
      ⟨vectorSum product general units pos, vectorSum product general units (pos + width),
        vectorSum product general units (pos + width * 2),
        vectorSum product general units (pos + width * 3)⟩ := by
  simp only [batchSums, foldl_quad_add, vectorSum, Quad.zero]

end Sums

section Products

theorem byte_gfniProduct (c : BitVec 8) (v : Reg) (i : Nat) :
    (gfniProduct (gfniMultiplyMatrix c) v).byte i = mul c (v.byte i) := by
  rw [gfniProduct, byte_affineEpi64, ← affineByte_gfniMultiplyMatrix]
  apply affineByte_congr
  intro r hr
  change byteOf (gfniMultiplyMatrix c) ((i / 8 * 8 + r) % 8) = _
  rw [show (i / 8 * 8 + r) % 8 = r by omega]

theorem byte_tableProduct (c : BitVec 8) (v : Reg) (i : Nat) :
    (tableProduct (loadTableHalves c) v).byte i = mul c (v.byte i) := by
  obtain ⟨hlow, hhigh⟩ := nibble_bounds (v.byte i)
  have hlowByte : (shuffleEpi8 (broadcastI128 (loadu (loadTableHalves c).1 0))
      (andSi v (set1Epi8 15#8))).byte i = mul c (BitVec.ofNat 8 (v.byte i &&& 15#8).toNat) := by
    rw [byte_shuffleEpi8_table hlow, byte_loadu, Nat.zero_add, byte_low_nibble, mul_eq_multiply]
    exact getD_map_range (fun b => multiply c (BitVec.ofNat 8 b)) 16 _ hlow 0#8
  have hhighByte : (shuffleEpi8 (broadcastI128 (loadu (loadTableHalves c).2 0))
      (andSi (srliEpi64 4 v) (set1Epi8 15#8))).byte i =
        mul c (BitVec.ofNat 8 ((v.byte i >>> 4).toNat <<< 4)) := by
    rw [← byte_high_nibble64] at hhigh
    rw [byte_shuffleEpi8_table hhigh, byte_loadu, Nat.zero_add, byte_high_nibble64, mul_eq_multiply]
    rw [byte_high_nibble64] at hhigh
    exact getD_map_range (fun b => multiply c (BitVec.ofNat 8 (b <<< 4))) 16 _ hhigh 0#8
  simp only [tableProduct]
  rw [byte_xorSi, hlowByte, hhighByte, ← mul_xor, Nat.shiftLeft_eq]
  exact congrArg (mul c) (nibbles_xor (v.byte i))

end Products

section Rows

variable {κ : Type} {row : List (BitVec 8)} {inputs : List (List (BitVec 8))}

/-- The scalar loop adds the products of the terms to what the bytes hold. -/
theorem foldl_scalarTail (n start : Nat) (pairs : List (BitVec 8 × List (BitVec 8)))
    (hend : ∀ pair ∈ pairs, start + n ≤ pair.2.length) (g : Nat → BitVec 8) :
    pairs.foldl (fun output pair => if pair.1 = 0#8 then output
      else List.zipWith (fun byte input =>
        byte ^^^ if pair.1 = 1#8 then input else mul pair.1 input)
        output (slice pair.2 start (start + n))) ((List.range n).map g) =
      (List.range n).map fun x =>
        g x ^^^ xorSum (pairs.map fun pair => mul pair.1 (pair.2.getD (start + x) 0#8)) := by
  induction pairs generalizing g with
  | nil => simp
  | cons pair pairs ih =>
    have hrest := ih (fun pair' h => hend pair' (List.mem_cons_of_mem pair h))
    have hlen := length_slice pair.2 start (start + n) (hend pair List.mem_cons_self)
    have hstep : (if pair.1 = 0#8 then (List.range n).map g
        else List.zipWith (fun byte input =>
          byte ^^^ if pair.1 = 1#8 then input else mul pair.1 input)
          ((List.range n).map g) (slice pair.2 start (start + n))) =
        (List.range n).map fun x => g x ^^^ mul pair.1 (pair.2.getD (start + x) 0#8) := by
      by_cases hzero : pair.1 = 0#8
      · simp [hzero, zero_mul]
      · rw [if_neg hzero]
        apply getD_ext 0#8 (by simp [hlen])
        intro x hx
        have hx' : x < n := by simpa [hlen] using hx
        rw [getD_zipWith _ _ _ _ (by simpa using hx') (by omega) 0#8 0#8,
          getD_map_range _ _ _ hx', getD_map_range _ _ _ hx', getD_slice _ _ _ _ (by omega)]
        split_ifs with hone
        · rw [hone, one_mul]
        · rfl
    rw [List.foldl_cons, hstep, hrest]
    simp only [List.map_cons, xorSum_cons, BitVec.xor_assoc]

theorem scalarTail_eq {output : List (BitVec 8)} {start : Nat}
    (hend : ∀ input ∈ inputs, start + output.length ≤ input.length) :
    scalarTail row inputs output start =
      (List.range output.length).map fun x => dotAt row inputs (start + x) := by
  have hzero : List.replicate output.length 0#8 = (List.range output.length).map fun _ => 0#8 := by
    rw [List.map_const', List.length_range]
  simp only [scalarTail, hzero]
  rw [foldl_scalarTail _ _ _ (fun pair h => hend pair.2 (List.of_mem_zip h).2)]
  simp only [BitVec.zero_xor, dotAt]

/-- What a vector of a planned row holds. -/
theorem planned_sum {prepare : BitVec 8 → κ} {product : κ → Reg → Reg}
    (hproduct : ∀ c v i, (product (prepare c) v).byte i = mul c (v.byte i))
    {units : List (Term κ)}
    (hunits : units.map Term.input = (unitPairs (row.zip inputs)).map Prod.snd) (pos i : Nat) :
    xorSum (((generalPairs (row.zip inputs)).map fun pair => (⟨pair.2, prepare pair.1⟩ : Term κ)).map
        fun t => (product t.factor (loadu t.input pos)).byte i) ^^^
      xorSum (units.map fun t => (loadu t.input pos).byte i) = dotAt row inputs (pos + i) := by
  have hunit : (units.map fun t => (loadu t.input pos).byte i) =
      (unitPairs (row.zip inputs)).map fun pair => pair.2.getD (pos + i) 0#8 := by
    have h := congrArg (List.map fun input : List (BitVec 8) => input.getD (pos + i) 0#8) hunits
    rw [List.map_map, List.map_map] at h
    exact h
  rw [hunit, List.map_map, dotAt,
    ← xorSum_general_unit (fun input => input.getD (pos + i) 0#8) (row.zip inputs)]
  congr 2
  apply List.map_congr_left
  intro pair _
  exact hproduct _ _ _

/-- Four neighbouring stores. -/
theorem storeu_four (w : Nat) (out : List (BitVec 8)) (off : Nat) (a b c d : Reg) :
    storeu w (storeu w (storeu w (storeu w out off a) (off + w) b) (off + w * 2) c)
        (off + w * 3) d =
      storeu (w * 4) out off (concat (w * 3) (concat (w * 2) (concat w a b) c) d) := by
  have h2 : w * 2 = w + w := by omega
  have h3 : w * 3 = w * 2 + w := by omega
  have h4 : w * 4 = w * 3 + w := by omega
  rw [storeu_storeu, ← h2, storeu_storeu, ← h3, storeu_storeu, ← h4]

theorem byte_four {w pos : Nat} {r : Nat → Reg} {g : Nat → BitVec 8}
    (h : ∀ p i, (r p).byte i = g (p + i)) (i : Nat) :
    (concat (w * 3) (concat (w * 2) (concat w (r pos) (r (pos + w))) (r (pos + w * 2)))
      (r (pos + w * 3))).byte i = g (pos + i) := by
  rw [byte_concat, byte_concat, byte_concat]
  split_ifs with h3 h2 h1
  · rw [h]
  · rw [h]
    congr 1
    omega
  · rw [h]
    congr 1
    omega
  · rw [h]
    congr 1
    omega

/-- Batches of four vectors, then single ones, reach every whole vector. -/
theorem foldl_batches {w : Nat} (hw : 0 < w) (start : Nat) (output : List (BitVec 8))
    {r v : Nat → Reg} {g : Nat → BitVec 8} (hr : ∀ p i, (r p).byte i = g (p + i))
    (hv : ∀ p i, (v p).byte i = g (p + i)) :
    let batched := output.length / (w * 4) * (w * 4)
    let done := output.length / w * w
    let first := (stepBy 0 batched (w * 4)).foldl (fun output offset =>
      storeu (w * 4) output offset (concat (w * 3) (concat (w * 2) (concat w (r (start + offset))
        (r (start + offset + w))) (r (start + offset + w * 2))) (r (start + offset + w * 3)))) output
    let last := (stepBy batched done w).foldl (fun output offset =>
      storeu w output offset (v (start + offset))) first
    last.length = output.length ∧ ∀ p, p < done → last.getD p 0#8 = g (start + p) := by
  have hbatches := Nat.div_mul_le_self output.length (w * 4)
  have hvectors := Nat.div_mul_le_self output.length w
  have hmul : output.length / (w * 4) * (w * 4) = output.length / (w * 4) * 4 * w := by ring
  have hle : output.length / (w * 4) * 4 ≤ output.length / w :=
    (Nat.le_div_iff_mul_le hw).mpr (by omega)
  have hdone : output.length / w * w = output.length / (w * 4) * (w * 4) +
      (output.length / w - output.length / (w * 4) * 4) * w := by
    rw [hmul, ← Nat.add_mul, Nat.add_sub_cancel' hle]
  have hfirst := stepBy_multiples 0 (output.length / (w * 4)) (show 0 < w * 4 by omega)
  have hlast := stepBy_multiples (output.length / (w * 4) * (w * 4))
    (output.length / w - output.length / (w * 4) * 4) hw
  rw [Nat.zero_add] at hfirst
  rw [← hdone] at hlast
  simp only [hfirst, hlast, List.foldl_map]
  obtain ⟨hlen, hread⟩ := foldl_storeu_from (w * 4) 0 (output.length / (w * 4))
    (fun k => concat (w * 3) (concat (w * 2) (concat w (r (start + (0 + k * (w * 4))))
      (r (start + (0 + k * (w * 4)) + w))) (r (start + (0 + k * (w * 4)) + w * 2)))
      (r (start + (0 + k * (w * 4)) + w * 3)))
    (fun p => g (start + p)) output (by omega) (fun k _ i _ => by
      rw [byte_four hr, Nat.add_assoc])
  obtain ⟨hlen', hread'⟩ := foldl_storeu_from w (output.length / (w * 4) * (w * 4))
    (output.length / w - output.length / (w * 4) * 4)
    (fun k => v (start + (output.length / (w * 4) * (w * 4) + k * w))) (fun p => g (start + p))
    _ (by rw [hlen]; omega) (fun k _ i _ => by rw [hv, Nat.add_assoc])
  refine ⟨hlen'.trans hlen, fun p hp => ?_⟩
  rw [hread', hread]
  split_ifs
  · rfl
  · rfl
  · omega

/-- A list whose first entries are computed, completed by the computed rest. -/
theorem take_append_map_range {f : Nat → BitVec 8} {last : List (BitVec 8)} {n done : Nat}
    (hlen : last.length = n) (hdone : done ≤ n) (h : ∀ p, p < done → last.getD p 0#8 = f p) :
    last.take done ++ (List.range (n - done)).map (fun x => f (done + x)) =
      (List.range n).map f := by
  apply getD_ext 0#8
  · rw [List.length_append, List.length_take, List.length_map, List.length_range, List.length_map,
      List.length_range]
    omega
  · intro p hp
    rw [List.length_append, List.length_take, List.length_map, List.length_range] at hp
    rw [getD_take_append (by omega), getD_map_range f n p (by omega)]
    split_ifs with hlow
    · exact h p hlow
    · rw [getD_map_range _ _ _ (by omega), Nat.add_sub_cancel' (by omega)]

/-- A row kernel writes the sums of the products, whatever its chunk held before. -/
theorem dotKernel_eq {capacity width : Nat} {blank : κ} {prepare : BitVec 8 → κ}
    {product : κ → Reg → Reg} {vector : List (Term κ) → List (Term κ) → Nat → Reg}
    (hwidth : 0 < width)
    (hproduct : ∀ c v i, (product (prepare c) v).byte i = mul c (v.byte i))
    (hvector : ∀ general units pos i, (vector general units pos).byte i =
      xorSum (general.map fun t => (product t.factor (loadu t.input pos)).byte i) ^^^
        xorSum (units.map fun t => (loadu t.input pos).byte i))
    (hcapacity : inputs.length ≤ capacity) {output : List (BitVec 8)} {start : Nat}
    (hend : ∀ input ∈ inputs, start + output.length ≤ input.length) :
    dotKernel capacity width blank prepare product vector row inputs output start =
      (List.range output.length).map fun x => dotAt row inputs (start + x) := by
  have hpairs : (row.zip inputs).length ≤ capacity := by
    rw [List.length_zip]
    omega
  obtain ⟨hgeneral, hunits, hcount⟩ := loadPlan_spec capacity blank prepare hpairs
  have hsum := planned_sum hproduct hunits
  rw [← hgeneral] at hsum
  obtain ⟨hlen, hread⟩ := foldl_batches hwidth start output
    (fun p i => (byte_vectorSum product _ _ p i).trans (hsum p i))
    (fun p i => (hvector _ _ p i).trans (hsum p i))
  have hdone := Nat.div_mul_le_self output.length width
  simp only [dotKernel, batchSums_eq, storeu_four]
  split_ifs with hnone hmore
  · have hg : generalPairs (row.zip inputs) = [] := List.length_eq_zero_iff.mp (by omega)
    have hu : unitPairs (row.zip inputs) = [] := List.length_eq_zero_iff.mp (by omega)
    have hzero (x : Nat) : dotAt row inputs x = 0#8 := by
      rw [dotAt, ← xorSum_general_unit (fun input => input.getD x 0#8), hg, hu]
      simp
    simp only [hzero, List.map_const', List.length_range]
  · rw [scalarTail_eq (fun input h => by
      have := hend input h
      rw [List.length_drop, hlen]
      omega), List.length_drop, hlen]
    simpa only [Nat.add_assoc] using take_append_map_range hlen hdone hread
  · have hall : output.length / width * width = output.length := by omega
    have hfull := take_append_map_range hlen le_rfl (fun p hp => hread p (by omega))
    rwa [Nat.sub_self, List.range_zero, List.map_nil, List.append_nil,
      List.take_of_length_le hlen.le] at hfull

end Rows

section Execute

/-- What `execute` relies on: a kernel fills its chunk with the sums of the row. -/
def DotExact (maxInputs : Nat) (code : DotFn) : Prop :=
  ∀ row inputs output start, inputs.length ≤ maxInputs →
    (∀ input ∈ inputs, start + output.length ≤ input.length) →
    code row inputs output start = (List.range output.length).map fun x => dotAt row inputs (start + x)

theorem gfniDot_exact {width : Nat} (hwidth : 0 < width) : DotExact 32 (gfniDot width) :=
  fun _ _ _ _ hcapacity hend => dotKernel_eq hwidth byte_gfniProduct byte_gfniVector hcapacity hend

theorem tableDot_exact {width : Nat} (hwidth : 0 < width) : DotExact 16 (tableDot width) :=
  fun _ _ _ _ hcapacity hend =>
    dotKernel_eq hwidth byte_tableProduct (byte_vectorSum tableProduct) hcapacity hend

variable {maxInputs shardLen chunkLen : Nat} {code : DotFn}
  {rows inputs outputs : List (List (BitVec 8))}

/-- The rows of a chunk one after another. -/
def chunkRows (code : DotFn) (rows inputs : List (List (BitVec 8)))
    (outputs : List (List (BitVec 8))) (window : Nat × Nat) : List (List (BitVec 8)) :=
  List.zipWith (fun row output => overwrite window.1
    (code row inputs (slice output window.1 window.2) window.1) output) rows outputs

/-- The chunks that `execute` works off are the windows of the shard. -/
theorem foldl_stepBy_eq (hshard : shardLen < usizeLimit) :
    (stepBy 0 shardLen chunkLen).foldl (fun outputs start =>
      List.zipWith (fun row output => overwrite start
        (code row inputs (slice output start (min (saturate (start + chunkLen)) shardLen)) start)
        output) rows outputs) outputs =
      (chunkRanges shardLen chunkLen).foldl (chunkRows code rows inputs) outputs := by
  have hstop (start : Nat) : min (saturate (start + chunkLen)) shardLen =
      min (start + chunkLen) shardLen := by
    rw [saturate]
    omega
  simp only [chunkRanges_eq_stepBy, List.foldl_map, hstop, chunkRows]

/-- A chunk completes its window of every output. -/
theorem chunkRows_spec (hcode : DotExact maxInputs code) (hcount : inputs.length ≤ maxInputs)
    (hinputs : ∀ v ∈ inputs, v.length = shardLen) {start stop : Nat} (hlt : start < stop)
    (hstop : stop ≤ shardLen) (hgrid : Grid rows.length shardLen outputs)
    (hread : ∀ r x, r < rows.length → x < start →
      (outputs.getD r []).getD x 0#8 = dotAt (rows.getD r []) inputs x) :
    Grid rows.length shardLen (chunkRows code rows inputs outputs (start, stop)) ∧
    ∀ r x, r < rows.length → x < stop →
      ((chunkRows code rows inputs outputs (start, stop)).getD r []).getD x 0#8 =
        dotAt (rows.getD r []) inputs x := by
  have hrow (r : Nat) (hr : r < rows.length) :
      (chunkRows code rows inputs outputs (start, stop)).getD r [] =
        overwrite start ((List.range (stop - start)).map fun x =>
          dotAt (rows.getD r []) inputs (start + x)) (outputs.getD r []) := by
    have hlen := hgrid.row_length r hr
    have hslice := length_slice (outputs.getD r []) start stop (by omega)
    have hrows := getD_zipWith (fun row output => overwrite start
      (code row inputs (slice output start stop) start) output) rows outputs r hr
      (hgrid.length_eq.symm ▸ hr) [] [] []
    rw [hcode _ _ _ _ hcount (fun input h => by rw [hslice, hinputs input h]; omega), hslice] at hrows
    exact hrows
  refine ⟨⟨?_, fun r hr => ?_⟩, fun r x hr hx => ?_⟩
  · rw [chunkRows, List.length_zipWith, hgrid.length_eq, min_self]
  · rw [hrow r hr, length_overwrite, hgrid.row_length r hr]
  · rw [hrow r hr, getD_overwrite, List.length_map, List.length_range, hgrid.row_length r hr]
    by_cases hlow : x < start
    · rw [if_neg (by omega)]
      exact hread r x hr hlow
    · rw [if_pos (by omega), getD_map_range _ _ _ (by omega), Nat.add_sub_cancel' (by omega)]

/-- When all views fit together. -/
structure ViewsFit (maxInputs : Nat) (rows inputs outputs : List (List (BitVec 8)))
    (shardLen chunkLen : Nat) : Prop where
  inputs_count : 4 ≤ inputs.length ∧ inputs.length ≤ maxInputs
  outputs_count : 1 ≤ outputs.length ∧ outputs.length ≤ 4
  rows_count : rows.length = outputs.length
  row_length : ∀ row ∈ rows, row.length = inputs.length
  chunk_pos : 1 ≤ chunkLen
  input_length : ∀ v ∈ inputs, v.length = shardLen
  output_length : ∀ v ∈ outputs, v.length = shardLen

theorem any_length_ne {l : List (List (BitVec 8))} {n : Nat} :
    l.any (fun v => v.length != n) = true ↔ ¬∀ v ∈ l, v.length = n := by
  simp

/-- A call is refused before the first write, or all views fit and every chunk is worked off. -/
theorem executeRows_cases (maxInputs chunkLen : Nat) (code : DotFn)
    (rows inputs outputs : List (List (BitVec 8))) (hshard : shardLen < usizeLimit) :
    (¬ViewsFit maxInputs rows inputs outputs shardLen chunkLen ∧ ∃ e,
      executeRows maxInputs code rows inputs outputs shardLen chunkLen = (.error e, outputs)) ∨
    ViewsFit maxInputs rows inputs outputs shardLen chunkLen ∧
      executeRows maxInputs code rows inputs outputs shardLen chunkLen =
        (.ok (), (chunkRanges shardLen chunkLen).foldl (chunkRows code rows inputs) outputs) := by
  simp only [executeRows, any_length_ne, foldl_stepBy_eq hshard]
  split_ifs with hfew hmany hempty hparity hmatrix hsize
  · exact .inl ⟨fun h => by have := h.inputs_count; omega, _, rfl⟩
  · exact .inl ⟨fun h => by have := h.inputs_count; omega, _, rfl⟩
  · refine .inl ⟨fun h => ?_, _, rfl⟩
    have hcount := h.outputs_count
    rw [List.isEmpty_iff.mp hempty] at hcount
    exact absurd hcount.1 (by decide)
  · exact .inl ⟨fun h => by have := h.outputs_count; omega, _, rfl⟩
  · exact .inl ⟨fun h => hmatrix.elim (fun hne => hne h.rows_count) (fun hne => hne h.row_length),
      _, rfl⟩
  · refine .inl ⟨fun h => ?_, _, rfl⟩
    rcases hsize with hzero | hin | hout
    · have := h.chunk_pos
      omega
    · exact hin h.input_length
    · exact hout h.output_length
  · refine .inr ⟨⟨⟨by omega, by omega⟩, ⟨?_, by omega⟩, ?_, ?_, ?_, ?_, ?_⟩, rfl⟩
    · exact List.length_pos_iff.mpr fun h => hempty (List.isEmpty_iff.mpr h)
    · exact not_not.mp fun h => hmatrix (.inl h)
    · exact not_not.mp fun h => hmatrix (.inr h)
    · exact Nat.one_le_iff_ne_zero.mpr fun h => hsize (.inl h)
    · exact not_not.mp fun h => hsize (.inr (.inl h))
    · exact not_not.mp fun h => hsize (.inr (.inr h))

theorem foldl_chunkRows (hcode : DotExact maxInputs code)
    (hfit : ViewsFit maxInputs rows inputs outputs shardLen chunkLen) :
    let result := (chunkRanges shardLen chunkLen).foldl (chunkRows code rows inputs) outputs
    Grid outputs.length shardLen result ∧ ∀ r x, r < outputs.length → x < shardLen →
      (result.getD r []).getD x 0#8 = dotAt (rows.getD r []) inputs x := by
  rw [← hfit.rows_count]
  apply foldl_chunkRanges hfit.chunk_pos (fun pos outs => Grid rows.length shardLen outs ∧
    ∀ r x, r < rows.length → x < pos →
      (outs.getD r []).getD x 0#8 = dotAt (rows.getD r []) inputs x)
  · exact ⟨grid_of_forall hfit.rows_count.symm hfit.output_length,
      fun r x _ hx => absurd hx (Nat.not_lt_zero x)⟩
  · intro start stop hlt hstop _ outs houts
    exact chunkRows_spec hcode hfit.inputs_count.2 hfit.input_length hlt hstop houts.1 houts.2

end Execute

section Exact

variable {maxInputs shardLen chunkLen : Nat} {rows inputs outputs : List (List (BitVec 8))}

theorem byte_xorSum (l : List (BitVec 8)) : byte (xorSum l) = (l.map byte).sum := by
  induction l with
  | nil => rfl
  | cons a l ih =>
    rw [xorSum_cons, byte_xor, ih, List.map_cons, List.sum_cons]

/-- The sum of a row over the byte field. -/
theorem byte_dotAt {row : List (BitVec 8)} (hrow : row.length = inputs.length) (x : Nat) :
    byte (dotAt row inputs x) = ∑ c ∈ Finset.range inputs.length,
      byte (row.getD c 0#8) * byte ((inputs.getD c []).getD x 0#8) := by
  have hzip : row.zip inputs = (List.range inputs.length).map fun c =>
      (row.getD c 0#8, inputs.getD c []) := by
    apply List.ext_getElem
    · rw [List.length_zip, hrow, min_self, List.length_map, List.length_range]
    · intro c h1 h2
      rw [List.length_map, List.length_range] at h2
      rw [List.getElem_zip, List.getElem_map, List.getElem_range,
        List.getD_eq_getElem _ _ (hrow.symm ▸ h2), List.getD_eq_getElem _ _ h2]
  rw [dotAt, byte_xorSum, hzip, List.map_map, List.map_map]
  rfl

/-- What a call of a row kernel is to do: succeed exactly where the views fit, leave the matrix
product then, and no change else. -/
structure RowsExact (maxInputs : Nat) (rows inputs outputs : List (List (BitVec 8)))
    (shardLen chunkLen : Nat) (result : Except Error Unit × List (List (BitVec 8))) : Prop where
  ok_iff : result.1 = .ok () ↔ ViewsFit maxInputs rows inputs outputs shardLen chunkLen
  product : result.1 = .ok () → Grid outputs.length shardLen result.2 ∧
    ∀ r x, r < outputs.length → x < shardLen → byte ((result.2.getD r []).getD x 0#8) =
      ∑ c ∈ Finset.range inputs.length,
        byte ((rows.getD r []).getD c 0#8) * byte ((inputs.getD c []).getD x 0#8)
  untouched : ∀ e, result.1 = .error e → result.2 = outputs

theorem executeRows_exact {code : DotFn} (hcode : DotExact maxInputs code)
    (hshard : shardLen < usizeLimit) : RowsExact maxInputs rows inputs outputs shardLen chunkLen
      (executeRows maxInputs code rows inputs outputs shardLen chunkLen) := by
  rcases executeRows_cases maxInputs chunkLen code rows inputs outputs hshard with
    ⟨hnot, e, hrun⟩ | ⟨hfit, hrun⟩
  · rw [hrun]
    exact ⟨⟨(by intro h; cases h), fun h => absurd h hnot⟩, (by intro h; cases h), fun _ _ => rfl⟩
  · rw [hrun]
    obtain ⟨hgrid, hread⟩ := foldl_chunkRows hcode hfit
    refine ⟨⟨fun _ => hfit, fun _ => rfl⟩, fun _ => ⟨hgrid, fun r x hr hx => ?_⟩,
      (by intro e h; cases h)⟩
    have hrow : (rows.getD r []).length = inputs.length := by
      have hlt : r < rows.length := hfit.rows_count.symm ▸ hr
      rw [List.getD_eq_getElem _ _ hlt]
      exact hfit.row_length _ (List.getElem_mem hlt)
    exact (congrArg byte (hread r x hr hx)).trans (byte_dotAt hrow x)

/-- The kernels of every backend compute the matrix product or touch nothing. -/
theorem row_kernels_exact (hshard : shardLen < usizeLimit) (chunkLen : Nat)
    (rows inputs outputs : List (List (BitVec 8))) :
    (∀ backend kernel, SelectedRowKernel.fromBackend backend = some kernel →
      RowsExact 32 rows inputs outputs shardLen chunkLen
        (kernel.execute rows inputs outputs shardLen chunkLen)) ∧
    ∀ backend kernel, SelectedTableRowKernel.fromBackend backend = some kernel →
      RowsExact 16 rows inputs outputs shardLen chunkLen
        (kernel.execute rows inputs outputs shardLen chunkLen) := by
  constructor
  · intro backend kernel hkernel
    cases backend <;> cases hkernel
    · exact executeRows_exact (gfniDot_exact (by decide)) hshard
    · exact executeRows_exact (gfniDot_exact (by decide)) hshard
  · intro backend kernel hkernel
    cases backend <;> cases hkernel
    · exact executeRows_exact (tableDot_exact (by decide)) hshard
    · exact executeRows_exact (tableDot_exact (by decide)) hshard

theorem row_kernels_exact_sample :
    RowsExact 32 [[0#8, 1#8, 2#8, 142#8]] (List.replicate 4 (List.replicate 300 7#8))
        [List.replicate 300 0xa5#8] 300 128
        ((⟨dotAvx512, 64⟩ : SelectedRowKernel).execute [[0#8, 1#8, 2#8, 142#8]]
          (List.replicate 4 (List.replicate 300 7#8)) [List.replicate 300 0xa5#8] 300 128) ∧
      RowsExact 16 [[0#8, 1#8, 2#8, 142#8]] (List.replicate 4 (List.replicate 300 7#8))
        [List.replicate 300 0xa5#8] 300 128
        ((⟨dotTableAvx2, 32⟩ : SelectedTableRowKernel).execute [[0#8, 1#8, 2#8, 142#8]]
          (List.replicate 4 (List.replicate 300 7#8)) [List.replicate 300 0xa5#8] 300 128) :=
  have h := row_kernels_exact (show 300 < usizeLimit by decide) 128 [[0#8, 1#8, 2#8, 142#8]]
    (List.replicate 4 (List.replicate 300 7#8)) [List.replicate 300 0xa5#8]
  ⟨h.1 .rustGfniAvx512 _ rfl, h.2 .rustAvx2 _ rfl⟩

/-- A selected kernel is never refused for the number of its views. -/
theorem selected_counts_fit {backend : BackendId} {i o len : Nat} :
    (∀ kernel, SelectedRowKernel.select backend i o len = some kernel →
      SelectedRowKernel.fromBackend backend = some kernel ∧ (4 ≤ i ∧ i ≤ 32) ∧ 1 ≤ o ∧ o ≤ 4) ∧
    ∀ kernel, SelectedTableRowKernel.select backend i o len = some kernel →
      SelectedTableRowKernel.fromBackend backend = some kernel ∧ (4 ≤ i ∧ i ≤ 16) ∧ 1 ≤ o ∧ o ≤ 4 := by
  constructor
  · intro kernel h
    rw [SelectedRowKernel.select] at h
    split_ifs at h with hcounts
    exact ⟨Option.eq_some_of_filter_eq_some h, by omega, by omega⟩
  · intro kernel h
    rw [SelectedTableRowKernel.select] at h
    split_ifs at h with hcounts
    exact ⟨Option.eq_some_of_filter_eq_some h, by omega, by omega⟩

end Exact

end Galois8

end ErasureCodec
