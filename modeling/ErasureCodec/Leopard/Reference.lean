import ErasureCodec.Leopard.Transform

namespace ErasureCodec

namespace Leopard

variable {w : Nat}

section Definitions

/-- `gf16_mul`: the product by the tables. -/
def gfMul (tables : Tables w) (a b : BitVec w) : BitVec w :=
  if a = 0#w ∨ b = 0#w then 0#w
  else tables.expLut.getD (addMod (tables.logLut.getD a.toNat 0#w)
    (tables.logLut.getD b.toNat 0#w)).toNat 0#w

/-- The multiplier of the block of half-width `dist` that starts at position `r`. -/
def refMultiplier (tables : Tables w) (r dist : Nat) : BitVec w :=
  let log := tables.fftSkew.getD (r + dist - 1) 0#w
  if log.toNat = modulus w then 0#w else tables.expLut.getD log.toNat 0#w

/-- A radix-2 butterfly. -/
def refPair (tables : Tables w) (dir : TransformDir) (t x y : BitVec w) : BitVec w × BitVec w :=
  match dir with
  | .forward =>
    let x := x ^^^ gfMul tables t y
    (x, y ^^^ x)
  | .inverse =>
    let y := y ^^^ x
    (x ^^^ gfMul tables t y, y)

/-- The layer of half-width `2 ^ b` on the lanes at the positions from `off` on. -/
def refLayer (tables : Tables w) (dir : TransformDir) (off b : Nat) (f : Nat → BitVec w) (j : Nat) :
    BitVec w :=
  let dist := 2 ^ b
  let r := j / (2 * dist) * (2 * dist)
  let t := refMultiplier tables (off + r) dist
  if j - r < dist then (refPair tables dir t (f j) (f (j + dist))).1
  else (refPair tables dir t (f (j - dist)) (f j)).2

/-- The inverse transform of `2 ^ k` lanes, all layers in full. -/
def refInverse (tables : Tables w) (off : Nat) : Nat → (Nat → BitVec w) → Nat → BitVec w
  | 0, f => f
  | k + 1, f => refLayer tables .inverse off k (refInverse tables off k f)

/-- The forward transform of `2 ^ k` lanes, all layers in full. -/
def refForward (tables : Tables w) (off : Nat) : Nat → (Nat → BitVec w) → Nat → BitVec w
  | 0, f => f
  | k + 1, f => refForward tables off k (refLayer tables .forward off k f)

/-- Element `p` of a lane. -/
def laneElem (work : Work w) (p i : Nat) : BitVec w := (work.getD i []).getD p 0#w

end Definitions

section Elements

variable {K : Kernel w}

theorem elem_gfMul (a b : BitVec w) :
    K.elem (gfMul K.tables a b) = K.elem a * K.elem b := by
  obtain ⟨-, -, hlog⟩ := initLogLut_spec K.lawful
  unfold gfMul
  split_ifs with h
  · rcases h with rfl | rfl
    · rw [K.elem_zero, zero_mul]
    · rw [K.elem_zero, mul_zero]
  · push Not at h
    have hb0 : b.toNat ≠ 0 := by
      intro hz
      exact h.2 (BitVec.eq_of_toNat_eq (by rw [hz, BitVec.toNat_ofNat, Nat.zero_mod]))
    have hspec := mulLog_spec K.lawful a ((initLogLut K.params).getD b.toNat 0#w)
    unfold mulLog at hspec
    rw [if_neg h.1] at hspec
    change K.lawful.points.point _ = _
    exact hspec.trans (congrArg _ (hlog b.toNat b.isLt hb0).2)

theorem elem_refMultiplier (r dist : Nat) : K.elem (refMultiplier K.tables r dist) =
    K.multiplier (K.tables.fftSkew.getD (r + dist - 1) 0#w) := by
  obtain ⟨hmod, -⟩ := modulus_add_one K.lawful.lfsr.pos
  unfold refMultiplier Kernel.multiplier
  simp only
  split_ifs with h
  · exact K.elem_zero
  · have hlt := (K.tables.fftSkew.getD (r + dist - 1) 0#w).isLt
    exact initExpLut_spec K.lawful (by omega)

theorem elem_refPair (dir : TransformDir) (t x y : BitVec w) :
    (K.elem (refPair K.tables dir t x y).1, K.elem (refPair K.tables dir t x y).2) =
      K.pairOp dir (K.elem t) (K.elem x) (K.elem y) := by
  cases dir with
  | forward =>
    simp only [refPair, Kernel.pairOp, K.elem_xor, elem_gfMul]
    refine Prod.ext rfl ?_
    simp only
    ring
  | inverse =>
    simp only [refPair, Kernel.pairOp, K.elem_xor, elem_gfMul]
    refine Prod.ext ?_ ?_
    · simp only
      ring
    · simp only
      ring

variable {k off : Nat}

/-- A layer on the lanes is the layer of the field at their positions. -/
theorem elem_refLayer (hdvd : 2 ^ k ∣ off) (hoff : off + 2 ^ k ≤ 2 ^ w) (dir : TransformDir)
    {b : Nat} (hb : b < k) {f : Nat → BitVec w} {g : Nat → K.lawful.lfsr.Elem}
    (hf : ∀ j, j < 2 ^ k → K.elem (f j) = g (off + j)) {j : Nat} (hj : j < 2 ^ k) :
    K.elem (refLayer K.tables dir off b f j) = K.layer dir b g (off + j) := by
  have hpos := Nat.two_pow_pos b
  have hpow : 2 ^ (b + 1) = 2 * 2 ^ b := by rw [Nat.pow_succ, Nat.mul_comm]
  have hdvd' : 2 ^ (b + 1) ∣ 2 ^ k := Nat.pow_dvd_pow 2 hb
  obtain ⟨c, rfl⟩ := dvd_trans hdvd' hdvd
  obtain ⟨q, i, hi, hcase⟩ := exists_pair b j
  have hend := block_end_le hdvd' (show q * 2 ^ (b + 1) < 2 ^ k by omega)
  rw [Nat.add_mul, Nat.one_mul] at hend
  obtain ⟨-, h2, -, h4⟩ := pair_index b q hi
  have hlayer := pairOp_layer dir b (c + q) g hi
  have hmult : K.elem (refMultiplier K.tables (2 ^ (b + 1) * c + q * 2 ^ (b + 1)) (2 ^ b)) =
      K.lawful.points.point (2 * (c + q)) := by
    rw [elem_refMultiplier, show 2 ^ (b + 1) * c + q * 2 ^ (b + 1) = (c + q) * 2 ^ (b + 1) by ring]
    refine multiplier_skew ?_ rfl
    rw [show (c + q + 1) * 2 ^ (b + 1) = 2 ^ (b + 1) * c + (q * 2 ^ (b + 1) + 2 ^ (b + 1)) by ring]
    omega
  have hpair := elem_refPair (K := K) dir
    (refMultiplier K.tables (2 ^ (b + 1) * c + q * 2 ^ (b + 1)) (2 ^ b))
    (f (q * 2 ^ (b + 1) + i)) (f (q * 2 ^ (b + 1) + 2 ^ b + i))
  have e1 : (c + q) * 2 ^ (b + 1) + i = 2 ^ (b + 1) * c + (q * 2 ^ (b + 1) + i) := by ring
  have e2 : (c + q) * 2 ^ (b + 1) + 2 ^ b + i =
      2 ^ (b + 1) * c + (q * 2 ^ (b + 1) + 2 ^ b + i) := by ring
  rw [e1, e2] at hlayer
  rw [hmult, hf _ (by omega), hf _ (by omega), hlayer] at hpair
  obtain ⟨hlow, hhigh⟩ := Prod.ext_iff.mp hpair
  unfold refLayer
  simp only [← hpow]
  rcases hcase with rfl | rfl
  · rw [h2, if_pos (by omega),
      show q * 2 ^ (b + 1) + i + 2 ^ b = q * 2 ^ (b + 1) + 2 ^ b + i by omega]
    exact hlow
  · rw [h4, if_neg (by omega),
      show q * 2 ^ (b + 1) + 2 ^ b + i - 2 ^ b = q * 2 ^ (b + 1) + i by omega]
    exact hhigh

theorem elem_refInverse (hdvd : 2 ^ k ∣ off) (hoff : off + 2 ^ k ≤ 2 ^ w) {f : Nat → BitVec w}
    {g : Nat → K.lawful.lfsr.Elem} (hf : ∀ j, j < 2 ^ k → K.elem (f j) = g (off + j)) {b : Nat}
    (hb : b ≤ k) {j : Nat} (hj : j < 2 ^ k) :
    K.elem (refInverse K.tables off b f j) = K.lawful.points.inverseTo b g (off + j) := by
  induction b generalizing j with
  | zero => exact hf j hj
  | succ b ih =>
    exact elem_refLayer hdvd hoff .inverse (by omega) (fun i hi => ih (by omega) hi) hj

theorem elem_refForward (hdvd : 2 ^ k ∣ off) (hoff : off + 2 ^ k ≤ 2 ^ w) {f : Nat → BitVec w}
    {g : Nat → K.lawful.lfsr.Elem} (hf : ∀ j, j < 2 ^ k → K.elem (f j) = g (off + j)) {b : Nat}
    (hb : b ≤ k) {j : Nat} (hj : j < 2 ^ k) :
    K.elem (refForward K.tables off b f j) = K.lawful.points.forwardFrom b g (off + j) := by
  induction b generalizing f g with
  | zero => exact hf j hj
  | succ b ih =>
    exact ih (fun i hi => elem_refLayer hdvd hoff .forward (by omega) hf hi) (by omega)

end Elements

section Agreement

open CantorPoints

theorem activeDit4Strategy_ne (configured : Dit4Strategy) (shardSize : Nat) :
    activeDit4Strategy configured shardSize ≠ .auto := by
  cases configured with
  | auto =>
    simp only [activeDit4Strategy]
    split_ifs <;> decide
  | _ => simp [activeDit4Strategy]

/-- Plans with truncation and two layers a pass against the reference transforms,
for `2 ^ k` lanes of `len` elements. -/
structure PlansExact (K : Kernel w) : Prop where
  ifft_encoder : ∀ k off mtrunc len configured shardSize (load : Nat → List (BitVec w)) work,
    k ≤ w → 0 < off → 2 ^ k ∣ off → off + 2 ^ k ≤ order w → 1 ≤ mtrunc → mtrunc ≤ 2 ^ k →
    (∀ i, i < mtrunc → (load i).length = len) → Grid (2 ^ k) len work →
    ∃ plan, (do
        let skew ← skewFrom K.tables.fftSkew (off - 1)
        buildIfftDitPlan mtrunc (2 ^ k) skew) = .ok plan ∧
      let out := ifftDitEncoderWithPlan K (activeDit4Strategy configured shardSize) load plan work
      ∀ p, p < len → Grid (2 ^ k) len out ∧ ∀ i, i < 2 ^ k → laneElem out p i =
        refInverse K.tables off k (fun j => if j < mtrunc then (load j).getD p 0#w else 0#w) i
  ifft_decode : ∀ k mtrunc len work, k ≤ w → 1 ≤ mtrunc → mtrunc ≤ 2 ^ k →
    Grid (2 ^ k) len work →
    ∃ plan, buildIfftDecodeDitPlan mtrunc (2 ^ k) K.tables.fftSkew = .ok plan ∧
      let out := ifftDitDecodeWithPlan K plan work
      ∀ p, p < len → Grid (2 ^ k) len out ∧ ∀ i, i < 2 ^ k → laneElem out p i =
        refInverse K.tables 0 k (fun j => if j < mtrunc then laneElem work p j else 0#w) i
  fft : ∀ k mtrunc len configured shardSize work, k ≤ w → 1 ≤ mtrunc → mtrunc ≤ 2 ^ k →
    Grid (2 ^ k) len work →
    ∃ plan, buildFftDitPlan mtrunc (2 ^ k) K.tables.fftSkew = .ok plan ∧
      let out := fftDitWithPlan K (activeDit4Strategy configured shardSize) plan work
      ∀ p, p < len → Grid (2 ^ k) len out ∧ ∀ i, i < mtrunc → laneElem out p i =
        refForward K.tables 0 k (laneElem work p) i
  forward_inverse : ∀ k off (f : Nat → BitVec w), 2 ^ k ∣ off → off + 2 ^ k ≤ order w →
    ∀ i, i < 2 ^ k → refForward K.tables off k (refInverse K.tables off k f) i = f i

variable {K : Kernel w}

theorem column_eq_elem (off p : Nat) (work : Work w) (i : Nat) :
    column K off p work (off + i) = K.elem (laneElem work p i) := by
  unfold column laneElem
  rw [if_neg (by omega), Nat.add_sub_cancel_left]

/-- The values of `f` at the positions from `off` on, zero past the first `mtrunc`. -/
noncomputable def Kernel.truncated (K : Kernel w) (off mtrunc : Nat) (f : Nat → BitVec w)
    (i : Nat) : K.lawful.lfsr.Elem := if i - off < mtrunc then K.elem (f (i - off)) else 0

theorem truncated_add (off mtrunc : Nat) (f : Nat → BitVec w) (j : Nat) :
    K.truncated off mtrunc f (off + j) = K.elem (if j < mtrunc then f j else 0#w) := by
  unfold Kernel.truncated
  rw [Nat.add_sub_cancel_left]
  split_ifs
  · rfl
  · exact K.elem_zero.symm

theorem plansExact (K : Kernel w) : PlansExact K where
  ifft_encoder k off mtrunc len configured shardSize load work hk h0 hdvd hoff hm1 hm hload hwork := by
    have hpos := Nat.two_pow_pos k
    have hlen : off + 2 ^ k ≤ K.tables.fftSkew.length + 1 := by
      rw [K.fftSkew_length, (modulus_add_one K.lawful.lfsr.pos).1]
      exact hoff
    refine ⟨ifftPlanAt K.tables.fftSkew off mtrunc (2 ^ k), ?_, fun p hp => ?_⟩
    · rw [skewFrom, if_pos (by omega), Outcome.ok_bind]
      exact buildIfftDitPlan_eq h0 hm hlen
    · have hval (j : Nat) := truncated_add (K := K) off mtrunc (fun j => (load j).getD p 0#w) j
      have hholds := holds_ifftDitEncoder (K := K)
        (v := K.truncated off mtrunc fun j => (load j).getD p 0#w) hdvd hoff hm1 hm hp
        (activeDit4Strategy_ne configured shardSize)
        (fun i hi => ⟨hload i hi, by rw [hval i, if_pos hi]⟩)
        (fun i hge _ => by rw [hval i, if_neg (by omega), K.elem_zero]) hwork
      refine ⟨hholds.grid, fun i hi => K.elem_inj ?_⟩
      rw [← column_eq_elem off, hholds.value i hi]
      exact (elem_refInverse hdvd hoff (fun j _ => (hval j).symm) le_rfl hi).symm
  ifft_decode k mtrunc len work hk hm1 hm hwork := by
    have hle := Nat.pow_le_pow_right (n := 2) (by decide) hk
    have hlen : 2 ^ k ≤ K.tables.fftSkew.length + 1 := by
      rw [K.fftSkew_length, (modulus_add_one K.lawful.lfsr.pos).1]
      exact hle
    refine ⟨ifftPlanAt K.tables.fftSkew 0 mtrunc (2 ^ k), buildIfftDecodeDitPlan_eq hm hlen,
      fun p hp => ?_⟩
    have hval (j : Nat) := truncated_add (K := K) 0 mtrunc (laneElem work p) j
    have hbefore : Holds K (2 ^ k) len 0 p (column K 0 p work) work := ⟨hwork, fun _ _ => rfl⟩
    have hholds := holds_ifftDitDecode (v := K.truncated 0 mtrunc (laneElem work p)) (dvd_zero _)
      (by omega) hm1 hm hp (fun i hge _ => by rw [hval i, if_neg (by omega), K.elem_zero])
      (fun i hi => by rw [hval i, if_pos hi, column_eq_elem]) hbefore
    refine ⟨hholds.grid, fun i hi => K.elem_inj ?_⟩
    rw [← column_eq_elem 0, hholds.value i hi]
    exact (elem_refInverse (dvd_zero _) (by omega) (fun j _ => (hval j).symm) le_rfl hi).symm
  fft k mtrunc len configured shardSize work hk hm1 hm hwork := by
    have hle := Nat.pow_le_pow_right (n := 2) (by decide) hk
    have hlen : 2 ^ k ≤ K.tables.fftSkew.length + 1 := by
      rw [K.fftSkew_length, (modulus_add_one K.lawful.lfsr.pos).1]
      exact hle
    refine ⟨fftPlanAt K.tables.fftSkew mtrunc (2 ^ k), buildFftDitPlan_eq hm hlen,
      fun p hp => ?_⟩
    have hholds := holds_fft (K := K) (f := column K 0 p work) hk hm hp
      (activeDit4Strategy_ne configured shardSize) ⟨hwork, fun _ _ => rfl⟩
    refine ⟨hholds.1, fun i hi => K.elem_inj ?_⟩
    have hcol := column_eq_elem (K := K) 0 p
      (fftDitWithPlan K (activeDit4Strategy configured shardSize)
        (fftPlanAt K.tables.fftSkew mtrunc (2 ^ k)) work) i
    rw [Nat.zero_add] at hcol
    rw [← hcol, hholds.2 i hi]
    have href := elem_refForward (K := K) (f := laneElem work p) (g := column K 0 p work)
      (dvd_zero (2 ^ k)) (by omega) (fun j _ => (column_eq_elem 0 p work j).symm) le_rfl
      (show i < 2 ^ k by omega)
    rw [Nat.zero_add] at href
    exact href.symm
  forward_inverse k off f hdvd hoff i hi := by
    apply K.elem_inj
    have hval (j : Nat) (hj : j < 2 ^ k) :
        K.elem (f j) = K.truncated off (2 ^ k) f (off + j) := by
      rw [truncated_add, if_pos hj]
    rw [elem_refForward hdvd hoff (fun j hj => elem_refInverse hdvd hoff hval le_rfl hj) le_rfl hi,
      K.lawful.points.forwardFrom_inverseTo, ← hval i hi]

/-- The plans of both families compute the reference transforms. -/
theorem truncated_plans_exact : PlansExact gf8Kernel ∧ PlansExact gf16Kernel :=
  ⟨plansExact gf8Kernel, plansExact gf16Kernel⟩

end Agreement

end Leopard

end ErasureCodec
