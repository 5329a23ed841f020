import ErasureCodec.Math.Slices
import ErasureCodec.Field.Basic
import Mathlib.Dynamics.PeriodicPts.Defs
import Mathlib.Data.Fintype.Card

namespace ErasureCodec

namespace Galois8

section Tables

def fieldSize : Nat := 256

def generatingPolynomial : Nat := 29

/-- The loop body of `gen_log_table` on the running power of two. -/
def logStep (polynomial b : Nat) : Nat :=
  let b := b <<< 1
  if fieldSize ≤ b then (b - fieldSize) ^^^ polynomial else b

def genLogTable (polynomial : Nat) : List (BitVec 8) :=
  ((List.range (fieldSize - 1)).foldl
    (fun st log => (st.1.set st.2 (BitVec.ofNat 8 log), logStep polynomial st.2))
    (List.replicate fieldSize 0#8, 1)).1

def expTableSize : Nat := fieldSize * 2 - 2

def genExpTable (logTable : List (BitVec 8)) : List (BitVec 8) :=
  (List.range' 1 (fieldSize - 1)).foldl (fun result i =>
    let log := (logTable.getD i 0#8).toNat
    (result.set log (BitVec.ofNat 8 i)).set (log + fieldSize - 1) (BitVec.ofNat 8 i))
    (List.replicate expTableSize 0#8)

def logTable : List (BitVec 8) := genLogTable generatingPolynomial

def expTable : List (BitVec 8) := genExpTable logTable

/-- `LOG_TABLE[a]` as an exponent. -/
def log (a : BitVec 8) : Nat := (logTable.getD a.toNat 0#8).toNat

/-- One cell of the generated multiplication table. -/
def multiply (a b : BitVec 8) : BitVec 8 :=
  if a = 0#8 ∨ b = 0#8 then 0#8 else expTable.getD (log a + log b) 0#8

def mulTable : List (List (BitVec 8)) :=
  (List.range fieldSize).map fun a => (List.range fieldSize).map fun b =>
    multiply (BitVec.ofNat 8 a) (BitVec.ofNat 8 b)

def mul (a b : BitVec 8) : BitVec 8 := (mulTable.getD a.toNat []).getD b.toNat 0#8

def div (a b : BitVec 8) : BitVec 8 :=
  if a = 0#8 ∨ b = 0#8 then 0#8
  else
    let logResult : Int := (log a : Int) - log b
    let logResult := if logResult < 0 then logResult + 255 else logResult
    expTable.getD logResult.toNat 0#8

def exp (a : BitVec 8) (n : Nat) : BitVec 8 :=
  if n = 0 then 1#8
  else if a = 0#8 then 0#8
  else
    let period := fieldSize - 1
    expTable.getD ((log a * (n % period)) % period) 0#8

def mulSlicePureRust (c : BitVec 8) (input out : List (BitVec 8)) : List (BitVec 8) :=
  if c = 0#8 then out.map fun _ => 0#8
  else if c = 1#8 then input
  else input.map (mul c)

def mulSliceXorPureRust (c : BitVec 8) (input out : List (BitVec 8)) : List (BitVec 8) :=
  if c = 0#8 then out
  else if c = 1#8 then List.zipWith (fun o i => o ^^^ i) out input
  else List.zipWith (fun o i => o ^^^ mul c i) out input

end Tables

section Generator

/-- Multiplication by the generator `x` modulo `x^8 + x^4 + x^3 + x^2 + 1`. -/
def xtime (b : BitVec 8) : BitVec 8 := (b <<< 1) ^^^ if b.msb then 29#8 else 0#8

/-- The powers of the generator. -/
def power (i : Nat) : BitVec 8 := xtime^[i] 1#8

theorem logStep_toNat : ∀ b : BitVec 8, logStep 29 b.toNat = (xtime b).toNat := by
  decide +kernel

theorem xtime_eq_zero : ∀ b : BitVec 8, xtime b = 0#8 → b = 0#8 := by
  decide +kernel

theorem xtime_zero : xtime 0#8 = 0#8 := by decide

/-- Multiplication by the generator is linear. -/
theorem xtime_xor (a b : BitVec 8) : xtime (a ^^^ b) = xtime a ^^^ xtime b := by
  have hred : ∀ x y : Bool, (if x ^^ y then 29#8 else 0#8) =
      (if x then 29#8 else 0#8) ^^^ if y then 29#8 else 0#8 := by decide
  unfold xtime
  rw [BitVec.shiftLeft_xor_distrib, BitVec.msb_xor, hred]
  ac_rfl

theorem iterate_xtime_xor (i : Nat) (a b : BitVec 8) :
    xtime^[i] (a ^^^ b) = xtime^[i] a ^^^ xtime^[i] b := by
  induction i generalizing a b with
  | zero => rfl
  | succ i ih => rw [Function.iterate_succ_apply, xtime_xor, ih]; rfl

theorem iterate_xtime_zero (i : Nat) : xtime^[i] 0#8 = 0#8 :=
  Function.iterate_fixed xtime_zero i

theorem power_zero : power 0 = 1#8 := rfl

theorem iterate_power (i j : Nat) : xtime^[j] (power i) = power (i + j) := by
  unfold power
  rw [← Function.iterate_add_apply, Nat.add_comm]

theorem power_ne_zero (i : Nat) : power i ≠ 0#8 := by
  induction i with
  | zero => decide
  | succ i ih =>
    intro h
    apply ih
    apply xtime_eq_zero
    rwa [← Function.iterate_one xtime, iterate_power]

/-- The generator has order 255: its period divides 255 and none of the three
maximal proper divisors. -/
theorem minimalPeriod_xtime : Function.minimalPeriod xtime 1#8 = 255 := by
  have h255 : Function.IsPeriodicPt xtime 255 1#8 := by
    change xtime^[255] 1#8 = 1#8
    decide +kernel
  have hne : ∀ d, d = 15 ∨ d = 51 ∨ d = 85 → ¬Function.IsPeriodicPt xtime d 1#8 := by
    rintro d (rfl | rfl | rfl) <;> (change ¬xtime^[_] 1#8 = 1#8; decide +kernel)
  have hdvd := h255.minimalPeriod_dvd
  have hperiod := Function.isPeriodicPt_minimalPeriod xtime 1#8
  have hmem : Function.minimalPeriod xtime 1#8 ∈ Nat.divisors 255 :=
    Nat.mem_divisors.mpr ⟨hdvd, by decide⟩
  have hdiv : Nat.divisors 255 = {1, 3, 5, 15, 17, 51, 85, 255} := by decide +kernel
  rw [hdiv] at hmem
  simp only [Finset.mem_insert, Finset.mem_singleton] at hmem
  rcases hmem with h | h | h | h | h | h | h | h
  · exact absurd (hperiod.trans_dvd (by rw [h]; decide)) (hne 15 (by decide))
  · exact absurd (hperiod.trans_dvd (by rw [h]; decide)) (hne 15 (by decide))
  · exact absurd (hperiod.trans_dvd (by rw [h]; decide)) (hne 15 (by decide))
  · exact absurd (hperiod.trans_dvd (by rw [h])) (hne 15 (by decide))
  · exact absurd (hperiod.trans_dvd (by rw [h]; decide)) (hne 51 (by decide))
  · exact absurd (hperiod.trans_dvd (by rw [h])) (hne 51 (by decide))
  · exact absurd (hperiod.trans_dvd (by rw [h])) (hne 85 (by decide))
  · exact h

theorem power_inj {i j : Nat} (hi : i < 255) (hj : j < 255) (h : power i = power j) : i = j := by
  have hinj := Function.iterate_injOn_Iio_minimalPeriod (f := xtime) (x := 1#8)
  rw [minimalPeriod_xtime] at hinj
  exact hinj hi hj h

theorem power_add_period (i : Nat) : power (i + 255) = power i := by
  have h := Function.isPeriodicPt_minimalPeriod xtime 1#8
  rw [minimalPeriod_xtime] at h
  unfold power
  rw [Function.iterate_add_apply]
  exact congrArg _ h

theorem power_mod (i : Nat) : power (i % 255) = power i := by
  have h := (Function.isPeriodicPt_minimalPeriod xtime 1#8).iterate_mod_apply i
  rw [minimalPeriod_xtime] at h
  exact h

/-- Every nonzero byte is a power of the generator. -/
theorem exists_power (a : BitVec 8) (ha : a ≠ 0#8) : ∃ i, i < 255 ∧ power i = a := by
  let S : Finset Nat := (Finset.range 255).image fun i => (power i).toNat
  have hcard : S.card = 255 := by
    rw [Finset.card_image_of_injOn, Finset.card_range]
    intro i hi j hj hij
    exact power_inj (by simpa using hi) (by simpa using hj) (BitVec.eq_of_toNat_eq hij)
  have hsub : S ⊆ (Finset.range 256).erase 0 := by
    intro x hx
    obtain ⟨i, -, rfl⟩ := Finset.mem_image.mp hx
    refine Finset.mem_erase.mpr ⟨fun h => power_ne_zero i (BitVec.eq_of_toNat_eq h), ?_⟩
    exact Finset.mem_range.mpr (power i).isLt
  have heq : S = (Finset.range 256).erase 0 := by
    apply Finset.eq_of_subset_of_card_le hsub
    rw [hcard, Finset.card_erase_of_mem (by simp), Finset.card_range]
  have hmem : a.toNat ∈ S := by
    rw [heq]
    exact Finset.mem_erase.mpr
      ⟨fun h => ha (BitVec.eq_of_toNat_eq h), Finset.mem_range.mpr a.isLt⟩
  obtain ⟨i, hi, hia⟩ := Finset.mem_image.mp hmem
  exact ⟨i, by simpa using hi, BitVec.eq_of_toNat_eq hia⟩

end Generator

section Lookup

/-- The log table inverts the powers of the generator. -/
theorem logTable_spec : logTable.length = 256 ∧
    ∀ j, j < 255 → (logTable.getD (power j).toNat 0#8).toNat = j := by
  let P : Nat → List (BitVec 8) × Nat → Prop := fun i st => st.1.length = 256 ∧
    st.2 = (power i).toNat ∧ ∀ j, j < i → st.1.getD (power j).toNat 0#8 = BitVec.ofNat 8 j
  have hP := foldl_range_inv P
    (fun st log => (st.1.set st.2 (BitVec.ofNat 8 log), logStep generatingPolynomial st.2))
    (fieldSize - 1) (List.replicate fieldSize 0#8, 1)
    ⟨List.length_replicate, rfl, fun j hj => by omega⟩ (by
      rintro i hi ⟨res, b⟩ ⟨hlen, rfl, hres⟩
      change i < 255 at hi
      simp only at hlen hres ⊢
      refine ⟨by rw [List.length_set]; exact hlen, ?_, fun j hj => ?_⟩
      · have h := logStep_toNat (power i)
        rwa [← Function.iterate_one xtime, iterate_power] at h
      · simp only
        rw [getD_set]
        rcases Nat.lt_succ_iff_lt_or_eq.mp hj with hlt | rfl
        · rw [if_neg (fun h => ?_)]
          · exact hres j hlt
          · have := power_inj hi (by omega) (BitVec.eq_of_toNat_eq h.1)
            omega
        · rw [if_pos ⟨rfl, by rw [hlen]; exact (power j).isLt⟩])
  obtain ⟨hlen, -, hres⟩ := hP
  refine ⟨hlen, fun j hj => ?_⟩
  change ((genLogTable generatingPolynomial).getD _ _).toNat = j
  unfold genLogTable
  rw [hres j hj, BitVec.toNat_ofNat, Nat.mod_eq_of_lt (by omega)]

theorem log_power {i : Nat} (hi : i < 255) : log (power i) = i := logTable_spec.2 i hi

theorem power_log {a : BitVec 8} (ha : a ≠ 0#8) : log a < 255 ∧ power (log a) = a := by
  obtain ⟨i, hi, rfl⟩ := exists_power a ha
  rw [log_power hi]
  exact ⟨hi, rfl⟩

/-- The doubled exponent table lists the powers of the generator. -/
theorem expTable_getD {i : Nat} (hi : i < 510) : expTable.getD i 0#8 = power i := by
  let P : Nat → List (BitVec 8) → Prop := fun x res => res.length = 510 ∧
    ∀ a : BitVec 8, a ≠ 0#8 → a.toNat < x →
      res.getD (log a) 0#8 = a ∧ res.getD (log a + 255) 0#8 = a
  have hP := foldl_range'_inv P (fun result i =>
      (result.set (logTable.getD i 0#8).toNat (BitVec.ofNat 8 i)).set
        ((logTable.getD i 0#8).toNat + fieldSize - 1) (BitVec.ofNat 8 i))
    1 (fieldSize - 1) (List.replicate expTableSize 0#8)
    ⟨List.length_replicate, fun a ha h =>
      absurd (BitVec.eq_of_toNat_eq (Nat.lt_one_iff.mp h)) ha⟩ (by
      rintro x h1 h2 res ⟨hlen, hres⟩
      change x < 1 + 255 at h2
      have hx : (BitVec.ofNat 8 x).toNat = x := by
        rw [BitVec.toNat_ofNat, Nat.mod_eq_of_lt (by omega)]
      have hx0 : BitVec.ofNat 8 x ≠ 0#8 := by
        intro h
        have := congrArg BitVec.toNat h
        rw [hx] at this
        change x = 0 at this
        omega
      have hlog : (logTable.getD x 0#8).toNat = log (BitVec.ofNat 8 x) := by
        unfold log
        rw [hx]
      obtain ⟨hlt, hpow⟩ := power_log hx0
      rw [hlog]
      refine ⟨by rw [List.length_set, List.length_set]; exact hlen, fun a ha hax => ?_⟩
      obtain ⟨hal, hap⟩ := power_log ha
      have hidx : log (BitVec.ofNat 8 x) + fieldSize - 1 = log (BitVec.ofNat 8 x) + 255 := rfl
      rw [hidx]
      rcases Nat.lt_succ_iff_lt_or_eq.mp hax with hlt' | heq
      · have hne : log (BitVec.ofNat 8 x) ≠ log a := by
          intro h
          rw [h, hap] at hpow
          rw [hpow, hx] at hlt'
          omega
        rw [getD_set, getD_set, getD_set, getD_set, List.length_set, if_neg (by omega),
          if_neg (by omega), if_neg (by omega), if_neg (by omega)]
        exact hres a ha hlt'
      · obtain rfl : BitVec.ofNat 8 x = a := BitVec.eq_of_toNat_eq (by rw [hx, heq])
        rw [getD_set, getD_set, getD_set, getD_set, List.length_set, if_neg (by omega),
          if_pos (by omega), if_pos (by omega)]
        exact ⟨rfl, rfl⟩)
  obtain ⟨-, hres⟩ := hP
  have hget (a : BitVec 8) (ha : a ≠ 0#8) := hres a ha a.isLt
  change (genExpTable logTable).getD i 0#8 = power i
  unfold genExpTable
  rcases Nat.lt_or_ge i 255 with hlt | hge
  · have h := (hget (power i) (power_ne_zero i)).1
    rwa [log_power hlt] at h
  · have h := (hget (power (i - 255)) (power_ne_zero _)).2
    rw [log_power (by omega), Nat.sub_add_cancel hge] at h
    rw [h, ← power_add_period, Nat.sub_add_cancel hge]

theorem mul_eq_multiply (a b : BitVec 8) : mul a b = multiply a b := by
  unfold mul mulTable
  rw [getD_map_range _ fieldSize _ a.isLt, getD_map_range _ fieldSize _ b.isLt, BitVec.ofNat_toNat,
    BitVec.ofNat_toNat, BitVec.setWidth_eq, BitVec.setWidth_eq]

theorem zero_mul (b : BitVec 8) : mul 0#8 b = 0#8 := by
  rw [mul_eq_multiply]
  exact if_pos (Or.inl rfl)

theorem mul_zero (a : BitVec 8) : mul a 0#8 = 0#8 := by
  rw [mul_eq_multiply]
  exact if_pos (Or.inr rfl)

/-- A product by a nonzero factor shifts through the powers of the generator. -/
theorem mul_eq_iterate (a b : BitVec 8) (hb : b ≠ 0#8) : mul a b = xtime^[log b] a := by
  by_cases ha : a = 0#8
  · rw [ha, zero_mul, iterate_xtime_zero]
  · obtain ⟨hla, hpa⟩ := power_log ha
    obtain ⟨hlb, -⟩ := power_log hb
    rw [mul_eq_multiply]
    unfold multiply
    rw [if_neg (not_or.mpr ⟨ha, hb⟩), expTable_getD (by omega), ← iterate_power, hpa]

theorem mul_power (i : Nat) (b : BitVec 8) (hb : b ≠ 0#8) :
    mul (power i) b = power (i + log b) := by
  rw [mul_eq_iterate _ _ hb, iterate_power]

theorem mul_comm (a b : BitVec 8) : mul a b = mul b a := by
  by_cases ha : a = 0#8
  · rw [ha, zero_mul, mul_zero]
  by_cases hb : b = 0#8
  · rw [hb, zero_mul, mul_zero]
  have h1 := mul_power (log a) b hb
  have h2 := mul_power (log b) a ha
  rw [(power_log ha).2] at h1
  rw [(power_log hb).2] at h2
  rw [h1, h2, Nat.add_comm]

theorem mul_assoc (a b c : BitVec 8) : mul (mul a b) c = mul a (mul b c) := by
  by_cases ha : a = 0#8
  · rw [ha, zero_mul, zero_mul, zero_mul]
  by_cases hb : b = 0#8
  · rw [hb, mul_zero, zero_mul, mul_zero]
  by_cases hc : c = 0#8
  · rw [hc, mul_zero, mul_zero, mul_zero]
  have hab : mul a b = power (log a + log b) := by
    rw [← mul_power _ _ hb, (power_log ha).2]
  have hbc : mul b c = power (log b + log c) := by
    rw [← mul_power _ _ hc, (power_log hb).2]
  rw [hab, hbc, mul_power _ _ hc, mul_comm a, mul_power _ _ ha]
  exact congrArg power (by omega)

theorem one_mul (a : BitVec 8) : mul 1#8 a = a := by
  by_cases ha : a = 0#8
  · rw [ha, mul_zero]
  · rw [← power_zero, mul_power _ _ ha, Nat.zero_add, (power_log ha).2]

theorem mul_xor (a b c : BitVec 8) : mul a (b ^^^ c) = mul a b ^^^ mul a c := by
  by_cases ha : a = 0#8
  · rw [ha, zero_mul, zero_mul, zero_mul]
    decide
  · rw [mul_comm a, mul_comm a, mul_comm a, mul_eq_iterate _ _ ha, mul_eq_iterate _ _ ha,
      mul_eq_iterate _ _ ha, iterate_xtime_xor]

theorem div_mul (a b : BitVec 8) (hb : b ≠ 0#8) : mul (div a b) b = a := by
  by_cases ha : a = 0#8
  · rw [ha]
    unfold div
    rw [if_pos (Or.inl rfl), zero_mul]
  obtain ⟨hla, hpa⟩ := power_log ha
  obtain ⟨hlb, -⟩ := power_log hb
  unfold div
  rw [if_neg (not_or.mpr ⟨ha, hb⟩)]
  simp only
  split_ifs with hneg
  · rw [expTable_getD (by omega), mul_power _ _ hb,
      show ((log a : Int) - log b + 255).toNat + log b = log a + 255 by omega, power_add_period,
      hpa]
  · rw [expTable_getD (by omega), mul_power _ _ hb,
      show ((log a : Int) - log b).toNat + log b = log a by omega, hpa]

/-- The exponent reduction of `exp` does not change the power. -/
theorem exp_eq_power (a : BitVec 8) (ha : a ≠ 0#8) (n : Nat) : exp a n = power (log a * n) := by
  unfold exp
  by_cases hn : n = 0
  · rw [if_pos hn, hn, Nat.mul_zero, power_zero]
  · rw [if_neg hn, if_neg ha]
    change expTable.getD ((log a * (n % 255)) % 255) 0#8 = _
    rw [expTable_getD (lt_trans (Nat.mod_lt _ (by decide)) (by decide)), Nat.mul_mod_mod,
      power_mod]

theorem exp_succ (a : BitVec 8) (n : Nat) : exp a (n + 1) = mul (exp a n) a := by
  by_cases ha : a = 0#8
  · rw [ha, mul_zero]
    unfold exp
    rw [if_neg (Nat.succ_ne_zero n), if_pos rfl]
  · rw [exp_eq_power a ha, exp_eq_power a ha, mul_power _ _ ha, Nat.mul_succ]

theorem mulSlicePureRust_eq (c : BitVec 8) (input out : List (BitVec 8))
    (h : input.length = out.length) : mulSlicePureRust c input out = input.map (mul c) := by
  unfold mulSlicePureRust
  split_ifs with h0 h1
  · rw [h0]
    apply List.ext_getElem (by simp [h])
    intro i _ _
    simp [zero_mul]
  · rw [h1, show mul 1#8 = id from funext one_mul, List.map_id]
  · rfl

theorem mulSliceXorPureRust_eq (c : BitVec 8) (input out : List (BitVec 8))
    (h : input.length = out.length) :
    mulSliceXorPureRust c input out = List.zipWith (fun o i => o ^^^ mul c i) out input := by
  unfold mulSliceXorPureRust
  split_ifs with h0 h1
  · rw [h0]
    apply List.ext_getElem (by simp [h])
    intro i _ _
    simp [zero_mul]
  · rw [h1]
    simp [one_mul]
  · rfl

end Lookup

end Galois8

/-- The byte field of `galois_8`. -/
def Galois8 : Type := BitVec 8

instance : DecidableEq Galois8 := inferInstanceAs (DecidableEq (BitVec 8))

theorem byteOrder_lt : 256 < usizeLimit := by decide

instance : CodecField Galois8 where
  order := 256
  order_lt := byteOrder_lt
  zero := 0#8
  one := 1#8
  add a b := BitVec.xor a b
  mul := Galois8.mul
  div := Galois8.div
  exp := Galois8.exp
  nthInternal n := BitVec.ofNat 8 n
  asGf8Slice := true
  asGf8SliceMut := true
  mulSlice := Galois8.mulSlicePureRust
  mulSliceAdd := Galois8.mulSliceXorPureRust

instance : LawfulField Galois8 where
  add_assoc a b c := BitVec.xor_assoc a b c
  zero_add _ := BitVec.zero_xor
  add_self _ := BitVec.xor_self
  mul_assoc := Galois8.mul_assoc
  mul_comm := Galois8.mul_comm
  one_mul := Galois8.one_mul
  mul_add := Galois8.mul_xor
  one_ne_zero := by decide
  div_mul := Galois8.div_mul
  exp_zero _ := rfl
  exp_succ := Galois8.exp_succ
  nthInternal_inj m n hm hn h := by
    have hval := congrArg BitVec.toNat h
    change m % 256 = n % 256 at hval
    change m < 256 at hm
    change n < 256 at hn
    rwa [Nat.mod_eq_of_lt hm, Nat.mod_eq_of_lt hn] at hval
  mulSlice_eq := Galois8.mulSlicePureRust_eq
  mulSliceAdd_eq := Galois8.mulSliceXorPureRust_eq

namespace Galois8

section Bytes

/-- A byte as an element of the byte field. -/
def byte (a : BitVec 8) : Galois8 := a

theorem byte_inj {a b : BitVec 8} (h : byte a = byte b) : a = b := h

theorem byte_zero : byte 0#8 = 0 := rfl

theorem byte_one : byte 1#8 = 1 := rfl

theorem byte_xor (a b : BitVec 8) : byte (a ^^^ b) = byte a + byte b := rfl

theorem byte_mul (a b : BitVec 8) : byte (mul a b) = byte a * byte b := rfl

theorem byte_div (a b : BitVec 8) (hb : b ≠ 0#8) : byte (div a b) = byte a / byte b :=
  CodecField.div_eq (byte a) (byte b) hb

end Bytes

end Galois8

end ErasureCodec
