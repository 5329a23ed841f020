import ErasureCodec.Leopard.Plan

namespace ErasureCodec

namespace Leopard

variable {w : Nat}

/-- The product by a logarithm in the tables of one family. -/
structure Kernel (w : Nat) where
  params : TableParams w
  lawful : LawfulParams params
  even : w % 2 = 0
  mul : BitVec w → BitVec w → BitVec w
  mul_spec : ∀ logM a, lawful.points.point (mul logM a).toNat =
    lawful.points.point a.toNat * lawful.lfsr.gen ^ logM.toNat

/-- The element of `mulgf8`. -/
def mul8 (logM a : BitVec 8) : BitVec 8 :=
  (mul8Value (initLogLut gf8Params) (initExpLut gf8Params) logM).getD a.toNat 0#8

/-- The element of `mulgf16`: the sentinel copies. -/
def mul16 (logM a : BitVec 16) : BitVec 16 :=
  if logM.toNat = modulus 16 then a
  else mulLog (initLogLut gf16Params) (initExpLut gf16Params) a logM

def gf8Kernel : Kernel 8 where
  params := gf8Params
  lawful := gf8Lawful
  even := rfl
  mul := mul8
  mul_spec logM a := mul8Value_spec gf8Lawful a logM

def gf16Kernel : Kernel 16 where
  params := gf16Params
  lawful := gf16Lawful
  even := rfl
  mul := mul16
  mul_spec logM a := by
    unfold mul16
    split_ifs with hm
    · rw [hm]
      exact ((congrArg _ gf16Lawful.lfsr.gen_pow_period).trans (mul_one _)).symm
    · exact mulLog_spec gf16Lawful a logM

section Definitions

/-- Work lanes; one list of elements each. -/
abbrev Work (w : Nat) : Type := List (List (BitVec w))

/-- `slice_xor`, `slice_xor_u16`. -/
def sliceXor (input out : List (BitVec w)) : List (BitVec w) := List.zipWith (· ^^^ ·) out input

/-- `lut_xor_prebuilt`, `mulgf16_xor`. -/
def mulXor (K : Kernel w) (logM : BitVec w) (input out : List (BitVec w)) : List (BitVec w) :=
  List.zipWith (fun dst src => dst ^^^ K.mul logM src) out input

inductive TransformDir where
  | forward
  | inverse
  deriving Repr, DecidableEq

/-- `fft_dit2` and `ifft_dit2`: the logarithm of zero stands for no product. -/
def dit2 (K : Kernel w) (dir : TransformDir) (logM : BitVec w) (x y : List (BitVec w)) :
    List (BitVec w) × List (BitVec w) :=
  if logM.toNat = modulus w then (x, sliceXor x y)
  else match dir with
    | .forward =>
      let x := mulXor K logM y x
      (x, sliceXor x y)
    | .inverse =>
      let y := sliceXor x y
      (mulXor K logM y x, y)

/-- An operation on two lanes; nothing happens where one is missing. -/
def onPair (f : List (BitVec w) → List (BitVec w) → List (BitVec w) × List (BitVec w)) (i j : Nat)
    (work : Work w) : Work w :=
  if i = j ∨ work.length ≤ i ∨ work.length ≤ j then work
  else
    let t := f (work.getD i []) (work.getD j [])
    (work.set i t.1).set j t.2

/-- `dit4_pairwise_one` and its siblings: the four butterflies one by one, each
where its lanes exist. -/
def dit4PairwiseOne (K : Kernel w) (dir : TransformDir) (block : Stage4Block w) (a : Nat)
    (work : Work w) : Work w :=
  let b := a + block.dist
  let c := a + block.dist * 2
  let d := a + block.dist * 3
  match dir with
  | .forward =>
    let work := onPair (dit2 K dir block.logM02) a c work
    let work := onPair (dit2 K dir block.logM02) b d work
    let work := onPair (dit2 K dir block.logM01) a b work
    onPair (dit2 K dir block.logM23) c d work
  | .inverse =>
    let work := onPair (dit2 K dir block.logM01) a b work
    let work := onPair (dit2 K dir block.logM23) c d work
    let work := onPair (dit2 K dir block.logM02) a c work
    onPair (dit2 K dir block.logM02) b d work

/-- `fft_dit4` and `ifft_dit4` on four lanes. -/
def dit4Direct (K : Kernel w) (dir : TransformDir) (block : Stage4Block w) (a : Nat)
    (work : Work w) : Work w :=
  let b := a + block.dist
  let c := a + block.dist * 2
  let d := a + block.dist * 3
  match dir with
  | .forward =>
    let work := onPair (dit2 K dir block.logM02) a c work
    let work := onPair (dit2 K dir block.logM02) b d work
    let work := onPair (dit2 K dir block.logM01) a b work
    onPair (dit2 K dir block.logM23) c d work
  | .inverse =>
    let work := onPair (dit2 K dir block.logM01) a b work
    let work := onPair (dit2 K dir block.logM23) c d work
    let work := onPair (dit2 K dir block.logM02) b d work
    onPair (dit2 K dir block.logM02) a c work

inductive Dit4Strategy where
  | decomposed
  | direct
  | directSafe
  | auto
  deriving Repr, DecidableEq

/-- `active_dit4_strategy`. -/
def activeDit4Strategy (configured : Dit4Strategy) (shardSize : Nat) : Dit4Strategy :=
  match configured with
  | .auto => if shardSize < 64 * 1024 then .decomposed else .direct
  | other => other

/-- One group of the direct strategies. -/
def dit4DirectOne (K : Kernel w) (dir : TransformDir) (block : Stage4Block w) (work : Work w)
    (i : Nat) : Work w :=
  if block.r + i + block.dist * 3 < work.length then dit4Direct K dir block (block.r + i) work
  else dit4PairwiseOne K dir block (block.r + i) work

/-- `dit4_at`, and the loops of the other families, which are direct ones. The
last case is not reached: an active strategy is never `auto`. -/
def dit4At (K : Kernel w) (strategy : Dit4Strategy) (dir : TransformDir) (work : Work w)
    (block : Stage4Block w) : Work w :=
  match strategy with
  | .decomposed =>
    (List.range block.dist).foldl
      (fun work i => dit4PairwiseOne K dir block (block.r + i) work) work
  | .direct =>
    let bulkEnd := min block.dist (work.length - (block.r + block.dist * 3))
    let work := (List.range bulkEnd).foldl
      (fun work i => dit4Direct K dir block (block.r + i) work) work
    (List.range' bulkEnd (block.dist - bulkEnd)).foldl (dit4DirectOne K dir block) work
  | .directSafe => (List.range block.dist).foldl (dit4DirectOne K dir block) work
  | .auto => work

end Definitions

section Columns

open CantorPoints

variable (K : Kernel w)

/-- The field element of a value. -/
noncomputable def Kernel.elem (a : BitVec w) : K.lawful.lfsr.Elem := K.lawful.points.point a.toNat

/-- Element `p` of the lanes, lane zero at position `base`. -/
noncomputable def column (base p : Nat) (work : Work w) (j : Nat) : K.lawful.lfsr.Elem :=
  if j < base then 0 else K.elem ((work.getD (j - base) []).getD p 0#w)

theorem Kernel.elem_zero : K.elem 0#w = 0 := by
  unfold Kernel.elem
  rw [BitVec.toNat_ofNat, Nat.zero_mod, K.lawful.points.point_zero]

theorem Kernel.elem_xor (a b : BitVec w) : K.elem (a ^^^ b) = K.elem a + K.elem b := by
  unfold Kernel.elem
  rw [BitVec.toNat_xor]
  exact K.lawful.points.point_xor _ _ a.isLt b.isLt

theorem Kernel.elem_mul (logM a : BitVec w) :
    K.elem (K.mul logM a) = K.elem a * K.lawful.lfsr.gen ^ logM.toNat := K.mul_spec logM a

theorem Kernel.elem_inj {a b : BitVec w} (h : K.elem a = K.elem b) : a = b :=
  BitVec.eq_of_toNat_eq (K.lawful.points.point_inj a.isLt b.isLt h)

/-- The multiplier of a butterfly. -/
noncomputable def Kernel.multiplier (logM : BitVec w) : K.lawful.lfsr.Elem :=
  if logM.toNat = modulus w then 0 else K.lawful.lfsr.gen ^ logM.toNat

/-- A butterfly on two elements. -/
noncomputable def Kernel.pairOp (dir : TransformDir) (t x y : K.lawful.lfsr.Elem) :
    K.lawful.lfsr.Elem × K.lawful.lfsr.Elem :=
  match dir with
  | .forward => (x + t * y, x + (t + 1) * y)
  | .inverse => (x + t * (x + y), x + y)

theorem length_dit2 (dir : TransformDir) (logM : BitVec w) {x y : List (BitVec w)} {len : Nat}
    (hx : x.length = len) (hy : y.length = len) :
    (dit2 K dir logM x y).1.length = len ∧ (dit2 K dir logM x y).2.length = len := by
  cases dir <;> unfold dit2 <;> split_ifs <;> simp [mulXor, sliceXor, hx, hy]

theorem elem_dit2 (dir : TransformDir) (logM : BitVec w) {x y : List (BitVec w)} {len p : Nat}
    (hx : x.length = len) (hy : y.length = len) (hp : p < len) :
    (K.elem ((dit2 K dir logM x y).1.getD p 0#w), K.elem ((dit2 K dir logM x y).2.getD p 0#w)) =
      K.pairOp dir (K.multiplier logM) (K.elem (x.getD p 0#w)) (K.elem (y.getD p 0#w)) := by
  have hxor (a b : List (BitVec w)) (ha : a.length = len) (hb : b.length = len) :
      K.elem ((sliceXor a b).getD p 0#w) = K.elem (b.getD p 0#w) + K.elem (a.getD p 0#w) := by
    unfold sliceXor
    rw [getD_zipWith _ _ _ _ (by omega) (by omega) 0#w 0#w, K.elem_xor]
  have hmul (a b : List (BitVec w)) (ha : a.length = len) (hb : b.length = len) :
      K.elem ((mulXor K logM a b).getD p 0#w) =
        K.elem (b.getD p 0#w) + K.elem (a.getD p 0#w) * K.lawful.lfsr.gen ^ logM.toNat := by
    unfold mulXor
    rw [getD_zipWith _ _ _ _ (by omega) (by omega) 0#w 0#w, K.elem_xor, K.elem_mul]
  have hlx (a b : List (BitVec w)) (ha : a.length = len) (hb : b.length = len) :
      (sliceXor a b).length = len := by simp [sliceXor, ha, hb]
  have hlm (a b : List (BitVec w)) (ha : a.length = len) (hb : b.length = len) :
      (mulXor K logM a b).length = len := by simp [mulXor, ha, hb]
  unfold dit2 Kernel.multiplier
  split_ifs with hm
  · rw [hxor x y hx hy]
    cases dir <;> simp [Kernel.pairOp, add_comm]
  · cases dir with
    | forward =>
      simp only [Kernel.pairOp]
      rw [hxor _ y (hlm y x hy hx) hy, hmul y x hy hx]
      refine Prod.ext ?_ ?_
      · simp only
        ring
      · simp only
        ring
    | inverse =>
      simp only [Kernel.pairOp]
      rw [hmul _ x (hlx x y hx hy) hx, hxor x y hx hy]
      refine Prod.ext ?_ ?_
      · simp only
        ring
      · simp only
        ring

variable {K} {n len : Nat} {work : Work w}

theorem grid_set (h : Grid n len work) (i : Nat) {lane : List (BitVec w)}
    (hlane : lane.length = len) : Grid n len (work.set i lane) where
  length_eq := by rw [List.length_set, h.length_eq]
  row_length r hr := by
    rw [getD_set]
    split_ifs
    · exact hlane
    · exact h.row_length r hr

theorem column_set (h : Grid n len work) {base p i : Nat} (hi : i < n) (lane : List (BitVec w))
    (j : Nat) : column K base p (work.set i lane) j =
      if j = base + i then K.elem (lane.getD p 0#w) else column K base p work j := by
  unfold column
  by_cases hj : j = base + i
  · rw [if_neg (by omega), if_pos hj, getD_set, if_pos ⟨by omega, by rw [h.length_eq]; exact hi⟩]
  · rw [if_neg hj]
    split_ifs with hlt
    · rfl
    · rw [getD_set, if_neg (by omega)]

theorem grid_onPair (h : Grid n len work) (dir : TransformDir) (logM : BitVec w) (i j : Nat) :
    Grid n len (onPair (dit2 K dir logM) i j work) := by
  unfold onPair
  split_ifs with hskip
  · exact h
  · push Not at hskip
    rw [h.length_eq] at hskip
    obtain ⟨h1, h2⟩ := length_dit2 K dir logM (h.row_length i hskip.2.1) (h.row_length j hskip.2.2)
    exact grid_set (grid_set h i h1) j h2

/-- A butterfly on two lanes updates two positions of every column. -/
theorem column_onPair (h : Grid n len work) (dir : TransformDir) (logM : BitVec w) (base : Nat)
    {p i j : Nat} (hij : i ≠ j) (hi : i < n) (hj : j < n) (hp : p < len) :
    column K base p (onPair (dit2 K dir logM) i j work) =
      pairUpdate (K.pairOp dir (K.multiplier logM)) (base + i) (base + j)
        (column K base p work) := by
  have hli := h.row_length i hi
  have hlj := h.row_length j hj
  obtain ⟨h1, h2⟩ := length_dit2 K dir logM hli hlj
  have hread (r : Nat) : column K base p work (base + r) =
      K.elem ((work.getD r []).getD p 0#w) := by
    unfold column
    rw [if_neg (by omega), Nat.add_sub_cancel_left]
  have hop := elem_dit2 K dir logM hli hlj hp
  unfold onPair
  rw [if_neg (by rw [h.length_eq]; omega)]
  funext q
  unfold pairUpdate
  rw [column_set (grid_set h i h1) hj, column_set h hi, hread i, hread j, ← hop]
  by_cases hq : q = base + j
  · rw [if_pos hq, if_neg (by omega), if_pos hq]
  · rw [if_neg hq]
    by_cases hqi : q = base + i
    · rw [if_pos hqi, if_pos hqi]
    · rw [if_neg hqi, if_neg hqi, if_neg hq]

/-- The tables of a family. -/
def Kernel.tables (K : Kernel w) : Tables w := buildTables K.params

theorem Kernel.fftSkew_length (K : Kernel w) : K.tables.fftSkew.length = modulus w :=
  (initFftSkew_spec K.lawful).1

/-- The skew table yields the multipliers of the layers. -/
theorem multiplier_skew {b q i : Nat} (hq : (q + 1) * 2 ^ (b + 1) ≤ 2 ^ w)
    (hi : i = skewIndex b q) :
    K.multiplier (K.tables.fftSkew.getD i 0#w) = K.lawful.points.point (2 * q) := by
  have hlog : (K.tables.fftSkew.getD i 0#w).toNat = logAt K.params (2 * q) := by
    rw [hi]
    exact (initFftSkew_spec K.lawful).2 b q hq
  have hlt : 2 * q < 2 ^ w := by
    have h1 := Nat.mul_le_mul_left (q + 1) (Nat.pow_le_pow_right (n := 2) (by decide)
      (show 1 ≤ b + 1 by omega))
    omega
  obtain ⟨-, hzero, hpos⟩ := initLogLut_spec K.lawful
  unfold Kernel.multiplier
  rw [hlog]
  by_cases h0 : 2 * q = 0
  · rw [h0, hzero, if_pos rfl, K.lawful.points.point_zero]
  · obtain ⟨hne, hgen⟩ := hpos (2 * q) hlt h0
    rw [if_neg (by omega), hgen]

/-- One layer of a transform. -/
noncomputable def Kernel.layer (K : Kernel w) (dir : TransformDir) (b : Nat)
    (v : Nat → K.lawful.lfsr.Elem) : Nat → K.lawful.lfsr.Elem :=
  match dir with
  | .forward => K.lawful.points.forward b v
  | .inverse => K.lawful.points.inverse b v

theorem pairOp_layer (dir : TransformDir) (b q : Nat) (v : Nat → K.lawful.lfsr.Elem) {i : Nat}
    (hi : i < 2 ^ b) :
    K.pairOp dir (K.lawful.points.point (2 * q)) (v (q * 2 ^ (b + 1) + i))
        (v (q * 2 ^ (b + 1) + 2 ^ b + i)) =
      (K.layer dir b v (q * 2 ^ (b + 1) + i), K.layer dir b v (q * 2 ^ (b + 1) + 2 ^ b + i)) := by
  cases dir with
  | forward =>
    obtain ⟨h1, h2⟩ := K.lawful.points.forward_pair b q v hi
    exact Prod.ext h1.symm h2.symm
  | inverse =>
    obtain ⟨h1, h2⟩ := K.lawful.points.inverse_pair b q v hi
    exact Prod.ext h1.symm h2.symm

/-- The two layers of a radix-4 block, in the order of the direction. -/
noncomputable def Kernel.layers (K : Kernel w) (dir : TransformDir) (b : Nat)
    (v : Nat → K.lawful.lfsr.Elem) : Nat → K.lawful.lfsr.Elem :=
  match dir with
  | .forward => K.layer .forward b (K.layer .forward (b + 1) v)
  | .inverse => K.layer .inverse (b + 1) (K.layer .inverse b v)

/-- The group step of a strategy. -/
def dit4One (K : Kernel w) (direct : Bool) (dir : TransformDir) (block : Stage4Block w) (a : Nat)
    (work : Work w) : Work w :=
  if direct then dit4Direct K dir block a work else dit4PairwiseOne K dir block a work

theorem grid_dit4One (h : Grid n len work) (direct : Bool) (dir : TransformDir)
    (block : Stage4Block w) (a : Nat) : Grid n len (dit4One K direct dir block a work) := by
  unfold dit4One dit4Direct dit4PairwiseOne
  cases direct <;> cases dir <;>
    exact grid_onPair (grid_onPair (grid_onPair (grid_onPair h _ _ _ _) _ _ _ _) _ _ _ _) _ _ _ _

/-- A group as updates of two positions each. -/
theorem column_dit4One (h : Grid n len work) (direct : Bool) (dir : TransformDir)
    (block : Stage4Block w) (base : Nat) {a p : Nat} (hd : 0 < block.dist) (ha : a + block.dist * 3 < n)
    (hp : p < len) :
    let t01 := K.multiplier block.logM01
    let t23 := K.multiplier block.logM23
    let t02 := K.multiplier block.logM02
    let b := base + a + block.dist
    let c := base + a + block.dist * 2
    let d := base + a + block.dist * 3
    column K base p (dit4One K direct dir block a work) =
      match dir with
      | .forward => pairUpdate (K.pairOp dir t23) c d (pairUpdate (K.pairOp dir t01) (base + a) b
          (pairUpdate (K.pairOp dir t02) b d (pairUpdate (K.pairOp dir t02) (base + a) c
            (column K base p work))))
      | .inverse => pairUpdate (K.pairOp dir t02) b d (pairUpdate (K.pairOp dir t02) (base + a) c
          (pairUpdate (K.pairOp dir t23) c d (pairUpdate (K.pairOp dir t01) (base + a) b
            (column K base p work)))) := by
  intro t01 t23 t02 b c d
  have hpair {work : Work w} (h : Grid n len work) (logM : BitVec w) {x y : Nat} (hxy : x ≠ y)
      (hx : x < n) (hy : y < n) := column_onPair (K := K) h dir logM base (p := p) (i := x)
      (j := y) hxy hx hy hp
  have e1 : base + (a + block.dist) = b := by omega
  have e2 : base + (a + block.dist * 2) = c := by omega
  have e3 : base + (a + block.dist * 3) = d := by omega
  have hb : a + block.dist < n := by omega
  have hc : a + block.dist * 2 < n := by omega
  have g1 (x y : Nat) (logM : BitVec w) := grid_onPair (K := K) h dir logM x y
  have g2 (x y x' y' : Nat) (logM logM' : BitVec w) :=
    grid_onPair (K := K) (g1 x y logM) dir logM' x' y'
  have g3 (x y x' y' x'' y'' : Nat) (logM logM' logM'' : BitVec w) :=
    grid_onPair (K := K) (g2 x y x' y' logM logM') dir logM'' x'' y''
  unfold dit4One dit4Direct dit4PairwiseOne
  cases dir with
  | forward =>
    simp only [ite_self]
    rw [hpair (g3 _ _ _ _ _ _ _ _ _) _ (by omega) hc ha, hpair (g2 _ _ _ _ _ _) _ (by omega)
      (by omega) hb, hpair (g1 _ _ _) _ (by omega) hb ha, hpair h _ (by omega) (by omega) hc, e1, e2,
      e3]
  | inverse =>
    cases direct with
    | false =>
      simp only [Bool.false_eq_true, if_false]
      rw [hpair (g3 _ _ _ _ _ _ _ _ _) _ (by omega) hb ha, hpair (g2 _ _ _ _ _ _) _ (by omega)
        (by omega) hc, hpair (g1 _ _ _) _ (by omega) hc ha, hpair h _ (by omega) (by omega) hb, e1,
        e2, e3]
    | true =>
      -- the direct kernel takes the outer pairs in the other order
      simp only [if_true]
      rw [hpair (g3 _ _ _ _ _ _ _ _ _) _ (by omega) (by omega) hc, hpair (g2 _ _ _ _ _ _) _
        (by omega) hb ha, hpair (g1 _ _ _) _ (by omega) hc ha, hpair h _ (by omega) (by omega) hb, e1,
        e2, e3]
      exact pairUpdate_comm _ _ _ (by omega) (by omega) (by omega) (by omega)

/-- The four butterflies of a group compute two layers on its positions. -/
theorem column_group (h : Grid n len work) (direct : Bool) (dir : TransformDir) (base : Nat)
    {r b q i p : Nat} (hq : base + r = q * 2 ^ (b + 2)) (hw : (q + 1) * 2 ^ (b + 2) ≤ 2 ^ w)
    (hr : r + 2 ^ b * 4 ≤ n) (hi : i < 2 ^ b) (hp : p < len) {f : Nat → K.lawful.lfsr.Elem}
    (hf : ∀ j, Quad (2 ^ b) (base + r + i) j → column K base p work j = f j) :
    (∀ j, Quad (2 ^ b) (base + r + i) j →
      column K base p (dit4One K direct dir (blockAt K.tables.fftSkew base r (2 ^ b)) (r + i) work)
        j = K.layers dir b f j) ∧
    ∀ j, ¬Quad (2 ^ b) (base + r + i) j →
      column K base p (dit4One K direct dir (blockAt K.tables.fftSkew base r (2 ^ b)) (r + i) work)
        j = column K base p work j := by
  have hpos := Nat.two_pow_pos b
  have hpow1 : 2 ^ (b + 1) = 2 * 2 ^ b := by rw [Nat.pow_succ, Nat.mul_comm]
  have hpow2 : 2 ^ (b + 2) = 4 * 2 ^ b := by rw [Nat.pow_add]; omega
  obtain ⟨⟨e0, e1⟩, ⟨e2, e3⟩, t2, t1, t3⟩ := quad_index b q i
  obtain ⟨⟨s0, s1⟩, ⟨s2, s3⟩, u2, u1, u3⟩ := quad_index b q 0
  rw [Nat.add_mul, Nat.one_mul] at hw
  -- the three multipliers of the block
  have hm01 : K.multiplier (blockAt K.tables.fftSkew base r (2 ^ b)).logM01 =
      K.lawful.points.point (2 * (2 * q)) := by
    apply multiplier_skew (b := b)
    · rw [Nat.add_mul, Nat.one_mul]
      omega
    · unfold skewIndex
      omega
  have hm23 : K.multiplier (blockAt K.tables.fftSkew base r (2 ^ b)).logM23 =
      K.lawful.points.point (2 * (2 * q + 1)) := by
    apply multiplier_skew (b := b)
    · rw [Nat.add_mul (2 * q + 1), Nat.one_mul]
      omega
    · unfold skewIndex
      omega
  have hm02 : K.multiplier (blockAt K.tables.fftSkew base r (2 ^ b)).logM02 =
      K.lawful.points.point (2 * q) := by
    apply multiplier_skew (b := b + 1)
    · rw [Nat.add_mul, Nat.one_mul]
      exact hw
    · unfold skewIndex
      omega
  have hcol := column_dit4One (K := K) h direct dir (blockAt K.tables.fftSkew base r (2 ^ b)) base
    (a := r + i) (p := p) hpos (by change r + i + 2 ^ b * 3 < n; omega) hp
  simp only at hcol
  rw [hm01, hm23, hm02] at hcol
  have hlow (v : Nat → K.lawful.lfsr.Elem) := pairOp_layer (K := K) dir b (2 * q) v hi
  have hhigh (v : Nat → K.lawful.lfsr.Elem) := pairOp_layer (K := K) dir b (2 * q + 1) v hi
  have htop0 (v : Nat → K.lawful.lfsr.Elem) :=
    pairOp_layer (K := K) dir (b + 1) q v (i := i) (by omega)
  have htop1 (v : Nat → K.lawful.lfsr.Elem) :=
    pairOp_layer (K := K) dir (b + 1) q v (i := i + 2 ^ b) (by omega)
  rw [← e0, ← e1] at hlow
  rw [← e2, ← e3] at hhigh
  rw [← t2, show q * 2 ^ (b + 1 + 1) + i = q * 2 ^ (b + 2) + i from rfl] at htop0
  rw [← t1, ← t3] at htop1
  obtain ⟨off, hoff⟩ : ∃ off, off = q * 2 ^ (b + 2) + i := ⟨_, rfl⟩
  have hbase : base + (r + i) = off := by omega
  rw [show base + r + i = off by omega] at hf ⊢
  rw [← hoff] at hlow hhigh htop0 htop1
  rw [hbase] at hcol
  have hfa := hf off (.inl rfl)
  have hfb := hf (off + 2 ^ b) (.inr (.inl rfl))
  have hfc := hf (off + 2 ^ b * 2) (.inr (.inr (.inl rfl)))
  have hfd := hf (off + 2 ^ b * 3) (.inr (.inr (.inr rfl)))
  have hresult : ∀ j, column K base p (dit4One K direct dir (blockAt K.tables.fftSkew base r (2 ^ b))
      (r + i) work) j = if j = off ∨ j = off + 2 ^ b ∨ j = off + 2 ^ b * 2 ∨ j = off + 2 ^ b * 3 then
        K.layers dir b f j else column K base p work j := by
    intro j
    rw [hcol]
    cases dir with
    | forward =>
      have hquad := pairUpdate_quad (K.pairOp .forward (K.lawful.points.point (2 * q)))
        (K.pairOp .forward (K.lawful.points.point (2 * q)))
        (K.pairOp .forward (K.lawful.points.point (2 * (2 * q))))
        (K.pairOp .forward (K.lawful.points.point (2 * (2 * q + 1)))) (f := column K base p work)
        (g := K.layer .forward (b + 1) f) (h := K.layers .forward b f) (a := off)
        (b := off + 2 ^ b * 2) (c := off + 2 ^ b) (d := off + 2 ^ b * 3) (by omega) (by omega)
        (by omega) (by omega) (by omega) (by omega) (by rw [hfa, hfc]; exact htop0 f)
        (by rw [hfb, hfd]; exact htop1 f) (hlow _) (hhigh _) j
      refine hquad.trans ?_
      by_cases hj : j = off ∨ j = off + 2 ^ b ∨ j = off + 2 ^ b * 2 ∨ j = off + 2 ^ b * 3
      · rw [if_pos hj, if_pos (by tauto)]
      · rw [if_neg hj, if_neg (by tauto)]
    | inverse =>
      exact pairUpdate_quad (K.pairOp .inverse (K.lawful.points.point (2 * (2 * q))))
        (K.pairOp .inverse (K.lawful.points.point (2 * (2 * q + 1))))
        (K.pairOp .inverse (K.lawful.points.point (2 * q)))
        (K.pairOp .inverse (K.lawful.points.point (2 * q))) (f := column K base p work)
        (g := K.layer .inverse b f) (h := K.layers .inverse b f) (a := off) (b := off + 2 ^ b)
        (c := off + 2 ^ b * 2) (d := off + 2 ^ b * 3) (by omega) (by omega) (by omega) (by omega)
        (by omega) (by omega) (by rw [hfa, hfb]; exact hlow f) (by rw [hfc, hfd]; exact hhigh f)
        (htop0 _) (htop1 _) j
  exact ⟨fun j hj => (hresult j).trans (if_pos hj), fun j hj => (hresult j).trans (if_neg hj)⟩

end Columns

end Leopard

end ErasureCodec
