import ErasureCodec.Leopard.Fwht

namespace ErasureCodec

namespace Leopard

variable {w : Nat}

section Definitions

structure SkewState (w : Nat) where
  temp : List (BitVec w)
  fftSkew : List (BitVec w)

/-- The innermost loop of `init_fft_skew`: the entries from `s` on repeat those
below it, shifted by one basis element. -/
def skewRound (m s : Nat) (shift : BitVec w) (fftSkew : List (BitVec w)) : List (BitVec w) :=
  (stepRange (1 <<< m - 1) s (1 <<< (m + 1))).foldl
    (fun fftSkew j => fftSkew.set (j + s) (fftSkew.getD j 0#w ^^^ shift)) fftSkew

/-- One round of the outer loop of `init_fft_skew`. -/
def skewStage (logLut expLut : List (BitVec w)) (st : SkewState w) (m : Nat) : SkewState w :=
  let fftSkew := (List.range' m (w - 1 - m)).foldl
    (fun fftSkew i => skewRound m (1 <<< (i + 1)) (st.temp.getD i 0#w) fftSkew)
    (st.fftSkew.set (1 <<< m - 1) 0#w)
  let t := st.temp.getD m 0#w
  let gfProd := mulLog logLut expLut t (logLut.getD (t ^^^ 1#w).toNat 0#w)
  let factor := BitVec.ofNat w (modulus w - (logLut.getD gfProd.toNat 0#w).toNat)
  let temp := (List.range' (m + 1) (w - 1 - (m + 1))).foldl
    (fun temp i =>
      let sum := addMod (logLut.getD (temp.getD i 0#w ^^^ 1#w).toNat 0#w) factor
      temp.set i (mulLog logLut expLut (temp.getD i 0#w) sum))
    (st.temp.set m factor)
  ⟨temp, fftSkew⟩

/-- `init_fft_skew8`, `init_fft_skew16`: the skew table. -/
def initFftSkew (logLut expLut : List (BitVec w)) : List (BitVec w) :=
  let st := (List.range (w - 1)).foldl (skewStage logLut expLut)
    ⟨(List.range (w - 1)).map fun i => BitVec.ofNat w (1 <<< (i + 1)),
      List.replicate (modulus w) 0#w⟩
  st.fftSkew.map fun skew => logLut.getD skew.toNat 0#w

/-- `init_fft_skew8`, `init_fft_skew16`: the transformed logarithms. -/
def initLogWalsh (wordBits : Nat) (logLut : List (BitVec w)) : List (BitVec w) :=
  fwht wordBits (logLut.set 0 0#w)

structure Tables (w : Nat) where
  logLut : List (BitVec w)
  expLut : List (BitVec w)
  fftSkew : List (BitVec w)
  logWalsh : List (BitVec w)

/-- `build_tables8`, `build_tables16`. -/
def buildTables (params : TableParams w) : Tables w where
  logLut := initLogLut params
  expLut := initExpLut params
  fftSkew := initFftSkew (initLogLut params) (initExpLut params)
  logWalsh := initLogWalsh params.wordBits (initLogLut params)

/-- `init_mul8_lut` for one logarithm: the products of the nibbles. -/
def mul8Nibbles (logLut expLut : List (BitVec 8)) (logM : BitVec 8) : List (BitVec 8) :=
  (List.range 4).flatMap fun nibble => (List.range 16).map fun x =>
    mulLog logLut expLut (BitVec.ofNat 8 (x <<< (4 * nibble))) logM

/-- `Mul8Lut::value`. -/
def mul8Value (logLut expLut : List (BitVec 8)) (logM : BitVec 8) : List (BitVec 8) :=
  let tmp := mul8Nibbles logLut expLut logM
  (List.range 256).map fun i => tmp.getD (i &&& 15) 0#8 ^^^ tmp.getD (i >>> 4 + 16) 0#8

end Definitions

section Skew

/-- Table index of the multiplier of block `q` on the layer of distance `2 ^ b`. -/
def skewIndex (b q : Nat) : Nat := q * 2 ^ (b + 1) + 2 ^ b - 1

theorem skewIndex_succ (b q : Nat) : skewIndex b q + 1 = 2 ^ b * (2 * q + 1) := by
  have hpos := Nat.two_pow_pos b
  unfold skewIndex
  rw [Nat.sub_add_cancel (by omega), Nat.pow_succ]
  ring

theorem skewIndex_inj {b q c r : Nat} (h : skewIndex b q = skewIndex c r) : b = c ∧ q = r := by
  have heq : 2 ^ b * (2 * q + 1) = 2 ^ c * (2 * r + 1) := by
    rw [← skewIndex_succ, ← skewIndex_succ, h]
  -- the larger power would leave an even cofactor on the other side
  have key (b q c r : Nat) (heq : 2 ^ b * (2 * q + 1) = 2 ^ c * (2 * r + 1)) : c ≤ b := by
    by_contra hlt
    obtain ⟨d, rfl⟩ : ∃ d, c = b + (d + 1) := ⟨c - b - 1, by omega⟩
    rw [Nat.pow_add, Nat.mul_assoc] at heq
    have hodd := Nat.eq_of_mul_eq_mul_left (Nat.two_pow_pos b) heq
    rw [Nat.pow_succ, Nat.mul_comm (2 ^ d), Nat.mul_assoc] at hodd
    omega
  obtain rfl : b = c := le_antisymm (key c r b q heq.symm) (key b q c r heq)
  have hodd := Nat.eq_of_mul_eq_mul_left (Nat.two_pow_pos b) heq
  exact ⟨rfl, by omega⟩

theorem skewIndex_lt {b q : Nat} (h : (q + 1) * 2 ^ (b + 1) ≤ 2 ^ w) :
    skewIndex b q < modulus w := by
  have hpos := Nat.two_pow_pos b
  have hpow : 2 ^ (b + 1) = 2 * 2 ^ b := by rw [Nat.pow_succ, Nat.mul_comm]
  rw [Nat.add_mul, Nat.one_mul] at h
  unfold skewIndex modulus order
  omega

theorem skewIndex_add (m c d : Nat) :
    skewIndex m (c + 2 ^ d) = skewIndex m c + 2 ^ (m + d + 1) := by
  have hpos := Nat.two_pow_pos m
  have hpow : 2 ^ d * 2 ^ (m + 1) = 2 ^ (m + d + 1) := by
    rw [← Nat.pow_add]
    congr 1
    omega
  unfold skewIndex
  rw [Nat.add_mul, hpow]
  omega

/-- The entries of one layer that lie below `2 ^ (m + d + 1)`. -/
theorem skewIndex_lt_iff (m c d : Nat) : skewIndex m c < 2 ^ (m + d + 1) ↔ c < 2 ^ d := by
  have hpos := Nat.two_pow_pos m
  have hpow : 2 ^ (m + 1) = 2 * 2 ^ m := by rw [Nat.pow_succ, Nat.mul_comm]
  have hsplit : 2 ^ (m + d + 1) = 2 ^ d * 2 ^ (m + 1) := by
    rw [← Nat.pow_add]
    congr 1
    omega
  unfold skewIndex
  rw [hsplit]
  constructor
  · intro h
    by_contra hge
    have := Nat.mul_le_mul_right (2 ^ (m + 1)) (Nat.le_of_not_lt hge)
    omega
  · intro h
    have := Nat.mul_le_mul_right (2 ^ (m + 1)) (show c + 1 ≤ 2 ^ d from h)
    rw [Nat.add_mul, Nat.one_mul] at this
    omega

/-- The skew values before their logarithms are taken: layers below `done` are
finished, and so are the first `2 ^ d` entries of layer `done`. -/
def SkewFilled (done d : Nat) (fftSkew : List (BitVec w)) : Prop :=
  fftSkew.length = modulus w ∧ ∀ b q, (q + 1) * 2 ^ (b + 1) ≤ 2 ^ w →
    (b < done → fftSkew.getD (skewIndex b q) 0#w = BitVec.ofNat w (2 * q)) ∧
    (b = done → q < 2 ^ d → fftSkew.getD (skewIndex b q) 0#w = BitVec.ofNat w (2 * q)) ∧
    (done < b → fftSkew.getD (skewIndex b q) 0#w = 0#w)

theorem mem_skewRange {m d j : Nat} :
    j ∈ stepRange (1 <<< m - 1) (2 ^ (m + d + 1)) (1 <<< (m + 1)) ↔
      ∃ c, c < 2 ^ d ∧ j = skewIndex m c := by
  have hpos := Nat.two_pow_pos m
  rw [mem_stepRange (by rw [Nat.one_shiftLeft]; exact Nat.two_pow_pos _), Nat.one_shiftLeft,
    Nat.one_shiftLeft]
  constructor
  · rintro ⟨c, rfl, hlt⟩
    have hidx : 2 ^ m - 1 + c * 2 ^ (m + 1) = skewIndex m c := by unfold skewIndex; omega
    rw [hidx] at hlt ⊢
    exact ⟨c, (skewIndex_lt_iff m c d).mp hlt, rfl⟩
  · rintro ⟨c, hc, rfl⟩
    exact ⟨c, by unfold skewIndex; omega, (skewIndex_lt_iff m c d).mpr hc⟩

theorem ofNat_xor_two_pow {d c : Nat} (hc : c < 2 ^ d) :
    BitVec.ofNat w (2 * c) ^^^ BitVec.ofNat w (2 ^ (d + 1)) = BitVec.ofNat w (2 * (c + 2 ^ d)) := by
  have hlt : 2 * c < 2 ^ (d + 1) := by rw [Nat.pow_succ]; omega
  have hxor := (xor_add_two_pow hlt (Nat.two_pow_pos (d + 1))).1
  rw [Nat.zero_add, Nat.xor_zero] at hxor
  rw [← BitVec.ofNat_xor, hxor, Nat.pow_succ]
  congr 1
  omega

theorem skewFilled_round {m d : Nat} (hd : m + d + 2 ≤ w) {fftSkew : List (BitVec w)}
    (h : SkewFilled m d fftSkew) :
    SkewFilled m (d + 1)
      (skewRound m (1 <<< (m + d + 1)) (BitVec.ofNat w (2 ^ (d + 1))) fftSkew) := by
  obtain ⟨hlen, hval⟩ := h
  have hfits (c : Nat) (hc : c < 2 ^ (d + 1)) : (c + 1) * 2 ^ (m + 1) ≤ 2 ^ w := by
    calc
      (c + 1) * 2 ^ (m + 1) ≤ 2 ^ (d + 1) * 2 ^ (m + 1) := Nat.mul_le_mul_right _ hc
      _ = 2 ^ (m + d + 2) := by rw [← Nat.pow_add]; congr 1; omega
      _ ≤ 2 ^ w := Nat.pow_le_pow_right (by decide) hd
  have hpow : 2 ^ (d + 1) = 2 ^ d + 2 ^ d := by rw [Nat.pow_succ]; omega
  rw [Nat.one_shiftLeft]
  obtain ⟨⟨hlen', hlow⟩, hread⟩ := foldl_cover
    (fun t : List (BitVec w) => t.length = modulus w ∧
      ∀ c, c < 2 ^ d → t.getD (skewIndex m c) 0#w = BitVec.ofNat w (2 * c))
    (fun _ => True) (fun t p => t.getD p 0#w)
    (fun p => fftSkew.getD (p - 2 ^ (m + d + 1)) 0#w ^^^ BitVec.ofNat w (2 ^ (d + 1)))
    (fun j p => p = j + 2 ^ (m + d + 1))
    (fun t j => t.set (j + 2 ^ (m + d + 1)) (t.getD j 0#w ^^^ BitVec.ofNat w (2 ^ (d + 1))))
    (stepRange (1 <<< m - 1) (2 ^ (m + d + 1)) (1 <<< (m + 1))) fftSkew
    ⟨hlen, fun c hc => (hval m c (hfits c (by omega))).2.1 rfl hc⟩ (by
      intro j hj t ⟨htlen, ht⟩
      obtain ⟨c, hc, rfl⟩ := mem_skewRange.mp hj
      refine ⟨⟨by rw [List.length_set, htlen], fun c' hc' => ?_⟩, fun p _ => ⟨?_, ?_⟩⟩
      · have hlt := (skewIndex_lt_iff m c' d).mpr hc'
        rw [getD_set, if_neg (by omega)]
        exact ht c' hc'
      · rintro rfl
        have hin := skewIndex_lt (hfits (c + 2 ^ d) (by omega))
        rw [skewIndex_add] at hin
        rw [getD_set, if_pos ⟨rfl, by rw [htlen]; exact hin⟩, ht c hc, Nat.add_sub_cancel,
          (hval m c (hfits c (by omega))).2.1 rfl hc]
      · intro hp
        rw [getD_set, if_neg (fun hc => hp hc.1.symm)])
  -- other layers are not written
  have hframe (b q : Nat) (hb : b ≠ m) : (skewRound m (2 ^ (m + d + 1))
      (BitVec.ofNat w (2 ^ (d + 1))) fftSkew).getD (skewIndex b q) 0#w =
        fftSkew.getD (skewIndex b q) 0#w := by
    apply (hread _ trivial).2
    intro j hj heq
    obtain ⟨c, -, rfl⟩ := mem_skewRange.mp hj
    rw [← skewIndex_add] at heq
    exact hb (skewIndex_inj heq).1
  refine ⟨hlen', fun b q hq => ⟨?_, ?_, ?_⟩⟩
  · intro hb
    rw [hframe b q (by omega)]
    exact (hval b q hq).1 hb
  · rintro rfl hq'
    by_cases hlt : q < 2 ^ d
    · exact hlow q hlt
    · obtain ⟨c, rfl⟩ : ∃ c, q = c + 2 ^ d := ⟨q - 2 ^ d, by omega⟩
      refine ((hread _ trivial).1 ⟨skewIndex b c, mem_skewRange.mpr ⟨c, by omega, rfl⟩,
        skewIndex_add b c d⟩).trans ?_
      rw [skewIndex_add, Nat.add_sub_cancel, (hval b c (hfits c (by omega))).2.1 rfl (by omega),
        ofNat_xor_two_pow (by omega)]
  · intro hb
    rw [hframe b q (by omega)]
    exact (hval b q hq).2.2 hb

/-- Between the rounds of the outer loop. -/
theorem skewFilled_start {m : Nat} (hm : m + 1 ≤ w) {fftSkew : List (BitVec w)}
    (hlen : fftSkew.length = modulus w)
    (hval : ∀ b q, (q + 1) * 2 ^ (b + 1) ≤ 2 ^ w → fftSkew.getD (skewIndex b q) 0#w =
      if b < m then BitVec.ofNat w (2 * q) else 0#w) :
    SkewFilled m 0 (fftSkew.set (1 <<< m - 1) 0#w) := by
  have hidx : 1 <<< m - 1 = skewIndex m 0 := by
    rw [Nat.one_shiftLeft]
    unfold skewIndex
    omega
  rw [hidx]
  refine ⟨by rw [List.length_set, hlen], fun b q hq => ⟨?_, ?_, ?_⟩⟩
  · intro hb
    rw [getD_set, if_neg (fun h => by have := (skewIndex_inj h.1).1; omega), hval b q hq, if_pos hb]
  · rintro rfl hq0
    obtain rfl : q = 0 := by omega
    rw [getD_set, if_pos ⟨rfl, by rw [hlen]; exact skewIndex_lt hq⟩]
  · intro hb
    rw [getD_set, if_neg (fun h => by have := (skewIndex_inj h.1).1; omega), hval b q hq,
      if_neg (by omega)]

variable {params : TableParams w}

/-- The basis elements in use at round `m`, and the skew values of the finished layers. -/
def SkewInv (m : Nat) (st : SkewState w) : Prop :=
  (st.temp.length = w - 1 ∧
    ∀ i, m ≤ i → i < w - 1 → st.temp.getD i 0#w = BitVec.ofNat w (2 ^ (i + 1 - m))) ∧
  st.fftSkew.length = modulus w ∧
    ∀ b q, (q + 1) * 2 ^ (b + 1) ≤ 2 ^ w → st.fftSkew.getD (skewIndex b q) 0#w =
      if b < m then BitVec.ofNat w (2 * q) else 0#w

theorem toNat_ofNat_of_lt {t : Nat} (ht : t < 2 ^ w) : (BitVec.ofNat w t).toNat = t := by
  rw [BitVec.toNat_ofNat, Nat.mod_eq_of_lt ht]

theorem gen_log_succ (h : LawfulParams params) {t : Nat} (ht : t < 2 ^ w) (heven : t % 2 = 0) :
    h.lfsr.gen ^ ((initLogLut params).getD (BitVec.ofNat w t ^^^ 1#w).toNat 0#w).toNat =
      h.points.point t + 1 := by
  have hpow := h.lfsr.two_le_pow
  have hx0 : t ^^^ 1 ≠ 0 := by
    intro hz
    have := Nat.xor_eq_zero_iff.mp hz
    omega
  have hlog := ((initLogLut_spec h).2.2 (t ^^^ 1) (Nat.xor_lt_two_pow ht (by omega)) hx0).2
  unfold logAt at hlog
  rw [BitVec.toNat_xor, toNat_ofNat_of_lt ht, toNat_ofNat_of_lt (by omega), hlog,
    h.points.point_xor t 1 ht (by omega), h.points.point_one]

/-- The product of an even point with its successor steps down the Cantor basis. -/
theorem mulLog_halve (h : LawfulParams params) {t : Nat} (ht : t < 2 ^ w) {logB : BitVec w}
    (hlog : h.lfsr.gen ^ logB.toNat = h.points.point t + 1) :
    mulLog (initLogLut params) (initExpLut params) (BitVec.ofNat w t) logB =
      BitVec.ofNat w (t / 2) := by
  apply BitVec.eq_of_toNat_eq
  rw [toNat_ofNat_of_lt (show t / 2 < 2 ^ w by omega)]
  apply h.points.point_inj (BitVec.isLt _) (by omega)
  rw [mulLog_spec h, toNat_ofNat_of_lt ht, hlog, ← h.points.point_sq t ht]
  ring

/-- One round halves the basis elements and fills one layer of skew values. -/
theorem skewInv_stage (h : LawfulParams params) {m : Nat} (hm : m < w - 1) {st : SkewState w}
    (hst : SkewInv m st) :
    SkewInv (m + 1) (skewStage (initLogLut params) (initExpLut params) st m) := by
  obtain ⟨⟨htlen, ht⟩, hslen, hskew⟩ := hst
  have hpow := h.lfsr.two_le_pow
  constructor
  · -- the product of the first element with its successor is one, and so is its inverse
    have h2 : st.temp.getD m 0#w = BitVec.ofNat w 2 := by
      rw [ht m le_rfl hm, show m + 1 - m = 1 by omega, Nat.pow_one]
    have h2lt : 2 < 2 ^ w := lt_of_lt_of_le (by decide)
      (Nat.pow_le_pow_right (n := 2) (by decide) (show 2 ≤ w by omega))
    obtain ⟨prod, hprod⟩ : ∃ prod, prod = mulLog (initLogLut params) (initExpLut params)
        (st.temp.getD m 0#w) ((initLogLut params).getD (st.temp.getD m 0#w ^^^ 1#w).toNat 0#w) :=
      ⟨_, rfl⟩
    obtain ⟨factor, hfactor⟩ : ∃ factor, factor = BitVec.ofNat w
        (modulus w - ((initLogLut params).getD prod.toNat 0#w).toNat) := ⟨_, rfl⟩
    have hone : prod = BitVec.ofNat w 1 := by
      rw [hprod, h2, mulLog_halve h h2lt (gen_log_succ h h2lt rfl)]
    have hgen : h.lfsr.gen ^ factor.toNat = 1 := by
      obtain ⟨hlt, hlog⟩ := (initLogLut_spec h).2.2 1 (by omega) (by decide)
      unfold logAt at hlt hlog
      obtain ⟨hmod, -⟩ := modulus_add_one h.lfsr.pos
      rw [h.points.point_one] at hlog
      have hperiod := h.lfsr.gen_pow_period
      rw [hfactor, hone, toNat_ofNat_of_lt (show 1 < 2 ^ w by omega), toNat_ofNat_of_lt (by omega)]
      rw [show 2 ^ w - 1 = modulus w - ((initLogLut params).getD 1 0#w).toNat +
        ((initLogLut params).getD 1 0#w).toNat by unfold modulus order at *; omega, pow_add, hlog,
        mul_one] at hperiod
      exact hperiod
    let P : Nat → List (BitVec w) → Prop := fun n temp => temp.length = w - 1 ∧
      (∀ i, m + 1 ≤ i → i < n → temp.getD i 0#w = BitVec.ofNat w (2 ^ (i + 1 - (m + 1)))) ∧
      ∀ i, n ≤ i → i < w - 1 → temp.getD i 0#w = BitVec.ofNat w (2 ^ (i + 1 - m))
    have hloop := foldl_range'_inv P (fun temp i => temp.set i (mulLog (initLogLut params)
        (initExpLut params) (temp.getD i 0#w) (addMod ((initLogLut params).getD
          (temp.getD i 0#w ^^^ 1#w).toNat 0#w) factor)))
      (m + 1) (w - 1 - (m + 1)) (st.temp.set m factor)
      ⟨by rw [List.length_set, htlen], fun i hi hi' => by omega, fun i hi hi' => by
        rw [getD_set, if_neg (by omega)]
        exact ht i (by omega) hi'⟩ (by
      rintro i hi hi' temp ⟨hlen, hdone, hrest⟩
      have hval := hrest i le_rfl (by omega)
      have hlt : 2 ^ (i + 1 - m) < 2 ^ w := Nat.pow_lt_pow_right (by decide) (by omega)
      have hhalf : 2 ^ (i + 1 - m) = 2 ^ (i + 1 - (m + 1)) * 2 := by
        rw [← Nat.pow_succ]
        congr 1
        omega
      refine ⟨by rw [List.length_set, hlen], fun j hj hj' => ?_, fun j hj hj' => ?_⟩
      · by_cases hji : j = i
        · subst hji
          rw [getD_set, if_pos ⟨rfl, by omega⟩, hval, mulLog_halve h hlt, hhalf,
            Nat.mul_div_cancel _ (by decide)]
          rw [gen_addMod h, hgen, mul_one, gen_log_succ h hlt (by omega)]
        · rw [getD_set, if_neg (by omega)]
          exact hdone j hj (by omega)
      · rw [getD_set, if_neg (by omega)]
        exact hrest j (by omega) hj')
    rw [show m + 1 + (w - 1 - (m + 1)) = w - 1 by omega] at hloop
    subst hfactor hprod
    exact ⟨hloop.1, fun i hi hi' => hloop.2.1 i hi hi'⟩
  · have hloop := foldl_range'_inv (fun i fftSkew => SkewFilled m (i - m) fftSkew)
      (fun fftSkew i => skewRound m (1 <<< (i + 1)) (st.temp.getD i 0#w) fftSkew) m (w - 1 - m)
      (st.fftSkew.set (1 <<< m - 1) 0#w)
      (by rw [Nat.sub_self]; exact skewFilled_start (by omega) hslen hskew) (by
      intro i hi hi' fftSkew hfill
      obtain ⟨d, rfl⟩ := Nat.exists_eq_add_of_le hi
      rw [ht (m + d) hi (by omega), show m + d + 1 - m = d + 1 by omega]
      rw [Nat.add_sub_cancel_left] at hfill
      exact skewFilled_round (by omega) hfill)
    rw [show m + (w - 1 - m) = w - 1 by omega] at hloop
    refine ⟨hloop.1, fun b q hq => ?_⟩
    obtain ⟨hlow, hmid, hhigh⟩ := hloop.2 b q hq
    rcases Nat.lt_trichotomy b m with hb | hb | hb
    · rw [if_pos (by omega)]
      exact hlow hb
    · subst hb
      rw [if_pos (by omega)]
      refine hmid rfl ?_
      have hsplit : 2 ^ w = 2 ^ (w - 1 - b) * 2 ^ (b + 1) := by
        rw [← Nat.pow_add]
        congr 1
        omega
      rw [hsplit] at hq
      exact Nat.le_of_mul_le_mul_right hq (Nat.two_pow_pos _)
    · rw [if_neg (by omega)]
      exact hhigh hb

/-- The skew table holds the logarithms of the multipliers of the layers. -/
theorem initFftSkew_spec (h : LawfulParams params) :
    (initFftSkew (initLogLut params) (initExpLut params)).length = modulus w ∧
    ∀ b q, (q + 1) * 2 ^ (b + 1) ≤ 2 ^ w →
      ((initFftSkew (initLogLut params) (initExpLut params)).getD (skewIndex b q) 0#w).toNat =
        logAt params (2 * q) := by
  have hpos := h.lfsr.pos
  obtain ⟨-, hlen, hskew⟩ := foldl_range_inv SkewInv
    (skewStage (initLogLut params) (initExpLut params)) (w - 1)
    ⟨(List.range (w - 1)).map fun i => BitVec.ofNat w (1 <<< (i + 1)),
      List.replicate (modulus w) 0#w⟩
    ⟨⟨by simp, fun i _ hi => by rw [getD_map_range _ _ _ hi, Nat.one_shiftLeft, Nat.sub_zero]⟩,
      by simp, fun b q hq => by
        rw [if_neg (by omega), List.getD_replicate _ (skewIndex_lt hq)]⟩
    (fun m hm st hst => skewInv_stage h hm hst)
  unfold initFftSkew
  refine ⟨by rw [List.length_map, hlen], fun b q hq => ?_⟩
  have hle : 2 * q + 2 ≤ 2 ^ w := by
    have h1 := Nat.mul_le_mul_left (q + 1) (Nat.pow_le_pow_right (n := 2) (by decide)
      (show 1 ≤ b + 1 by omega))
    omega
  rw [getD_map_of_lt _ _ _ (by rw [hlen]; exact skewIndex_lt hq) 0#w, hskew b q hq]
  unfold logAt
  split_ifs with hb
  · rw [toNat_ofNat_of_lt (by omega)]
  · -- the last layer has one block and keeps its initial zero
    obtain rfl : q = 0 := by
      by_contra hq0
      have h1 := Nat.pow_le_pow_right (n := 2) (by decide) (show w ≤ b + 1 by omega)
      have h2 := Nat.mul_le_mul_right (2 ^ (b + 1)) (show 2 ≤ q + 1 by omega)
      have := Nat.two_pow_pos w
      omega
    rw [toNat_ofNat_of_lt (by omega)]

end Skew

section Walsh

variable {params : TableParams w}

/-- The logarithm of a point, zero for the point that has none. -/
theorem residue_log (h : LawfulParams params) (j : Nat) :
    residue ((initLogLut params).set 0 0#w) j = (logAt params j : ZMod (modulus w)) := by
  obtain ⟨hlen, hzero, -⟩ := initLogLut_spec h
  have hpos := Nat.two_pow_pos w
  rw [residue_set _ _ _ (by omega)]
  split_ifs with h0
  · rw [h0, hzero]
    simp
  · rfl

theorem initLogWalsh_spec (h : LawfulParams params) (heven : w % 2 = 0) :
    (initLogWalsh params.wordBits (initLogLut params)).length = 2 ^ w ∧
    ∀ j, j < 2 ^ w → residue (initLogWalsh params.wordBits (initLogLut params)) j =
      Walsh.transform w (fun i => (logAt params i : ZMod (modulus w))) j := by
  obtain ⟨hlen, -⟩ := initLogLut_spec h
  have hset : ((initLogLut params).set 0 0#w).length = 2 ^ w := by rw [List.length_set, hlen]
  obtain ⟨h1, h2⟩ := fwht_spec h.lfsr.pos heven h.wordBits_ge hset
  refine ⟨h1, fun j hj => ?_⟩
  rw [initLogWalsh, h2 j hj]
  exact Walsh.transform_congr w (fun i _ => residue_log h i) hj

end Walsh

section Products

theorem mul8Nibbles_getD (logLut expLut : List (BitVec 8)) (logM : BitVec 8) {nibble x : Nat}
    (hn : nibble < 4) (hx : x < 16) :
    (mul8Nibbles logLut expLut logM).getD (nibble * 16 + x) 0#8 =
      mulLog logLut expLut (BitVec.ofNat 8 (x <<< (4 * nibble))) logM := by
  have hflat : mul8Nibbles logLut expLut logM = (List.range 64).map fun p =>
      mulLog logLut expLut (BitVec.ofNat 8 ((p % 16) <<< (4 * (p / 16)))) logM := rfl
  rw [hflat, getD_map_range _ _ _ (by omega), show (nibble * 16 + x) % 16 = x by omega,
    show (nibble * 16 + x) / 16 = nibble by omega]

/-- The product table of a logarithm, put together from its two nibbles. -/
theorem mul8Value_spec (h : LawfulParams gf8Params) (a logM : BitVec 8) :
    h.points.point ((mul8Value (initLogLut gf8Params) (initExpLut gf8Params) logM).getD a.toNat
      0#8).toNat = h.points.point a.toNat * h.lfsr.gen ^ logM.toNat := by
  have ha := a.isLt
  have hlow : a.toNat &&& 15 = a.toNat % 16 := Nat.and_two_pow_sub_one_eq_mod a.toNat 4
  have hhigh : a.toNat >>> 4 = a.toNat / 16 := Nat.shiftRight_eq_div_pow a.toNat 4
  have hsplit : a.toNat = a.toNat % 16 ^^^ (a.toNat / 16) <<< 4 := by
    have hdiv : (a.toNat % 16 ^^^ (a.toNat / 16) <<< 4) / 2 ^ 4 = a.toNat / 16 := by
      rw [Nat.xor_div_two_pow, Nat.shiftLeft_eq, Nat.mul_div_cancel _ (by decide),
        Nat.div_eq_of_lt (Nat.mod_lt _ (by decide)), Nat.zero_xor]
    have hmod : (a.toNat % 16 ^^^ (a.toNat / 16) <<< 4) % 2 ^ 4 = a.toNat % 16 := by
      rw [Nat.xor_mod_two_pow, Nat.shiftLeft_eq, Nat.mul_mod_left, Nat.xor_zero]
      exact Nat.mod_mod _ _
    omega
  have hnat (x : Nat) (hx : x < 256) : (BitVec.ofNat 8 x).toNat = x := toNat_ofNat_of_lt hx
  have hshift : (a.toNat / 16) <<< 4 < 256 := by rw [Nat.shiftLeft_eq]; omega
  unfold mul8Value
  simp only
  rw [getD_map_range _ _ _ ha, hlow, hhigh]
  have h0 := mul8Nibbles_getD (initLogLut gf8Params) (initExpLut gf8Params) logM
    (show 0 < 4 by decide) (show a.toNat % 16 < 16 by omega)
  have h1 := mul8Nibbles_getD (initLogLut gf8Params) (initExpLut gf8Params) logM
    (show 1 < 4 by decide) (show a.toNat / 16 < 16 by omega)
  simp only [Nat.zero_mul, Nat.zero_add, Nat.mul_zero, Nat.shiftLeft_zero] at h0
  simp only [Nat.one_mul, Nat.mul_one, Nat.add_comm 16] at h1
  rw [h0, h1, BitVec.toNat_xor, h.points.point_xor _ _ (BitVec.isLt _) (BitVec.isLt _),
    mulLog_spec h, mulLog_spec h, hnat _ (by omega), hnat _ hshift, ← add_mul,
    ← h.points.point_xor _ _ (by omega) hshift, ← hsplit]

end Products

end Leopard

end ErasureCodec
