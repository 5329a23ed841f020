import ErasureCodec.Leopard.Locator

namespace ErasureCodec

namespace Leopard

section Intrinsics

/-- A vector register of 16-bit lanes. -/
abbrev Lanes (n : Nat) := Vector (BitVec 16) n

variable {n : Nat}

/-- `_mm256_add_epi16`, `_mm_add_epi16`, `vaddq_u16`: wrapping sums. -/
def addEpi16 (a b : Lanes n) : Lanes n := Vector.zipWith (· + ·) a b

/-- `_mm256_sub_epi16`, `_mm_sub_epi16`, `vsubq_u16`: wrapping differences. -/
def subEpi16 (a b : Lanes n) : Lanes n := Vector.zipWith (· - ·) a b

/-- `_mm256_xor_si256`, `_mm_xor_si128`. -/
def xorSi (a b : Lanes n) : Lanes n := Vector.zipWith (· ^^^ ·) a b

/-- `_mm256_cmpgt_epi16`, `_mm_cmpgt_epi16`: a signed comparison, all ones where it holds. -/
def cmpgtEpi16 (a b : Lanes n) : Lanes n :=
  Vector.zipWith (fun x y => if y.slt x then BitVec.allOnes 16 else 0#16) a b

/-- `vcltq_u16`: an unsigned comparison, all ones where it holds. -/
def vcltqU16 (a b : Lanes n) : Lanes n :=
  Vector.zipWith (fun x y => if x.ult y then BitVec.allOnes 16 else 0#16) a b

/-- `_mm256_set1_epi16`, `_mm_set1_epi16`. -/
def set1Epi16 (n : Nat) (x : BitVec 16) : Lanes n := Vector.replicate n x

/-- `_mm256_loadu_si256`, `_mm_loadu_si128`, `vld1q_u16`. -/
def loadu (n : Nat) (data : List (BitVec 16)) (off : Nat) : Lanes n :=
  Vector.ofFn fun l => data.getD (off + l) 0#16

/-- `_mm256_storeu_si256`, `_mm_storeu_si128`, `vst1q_u16`. -/
def storeu (data : List (BitVec 16)) (off : Nat) (v : Lanes n) : List (BitVec 16) :=
  data.mapIdx fun p x => if h : off ≤ p ∧ p - off < n then v[p - off] else x

end Intrinsics

section Kernels

variable {n : Nat}

/-- `add_mod_avx2`, `add_mod_sse2`. -/
def addModBiased (bias a b : Lanes n) : Lanes n :=
  let s := addEpi16 a b
  let mask := cmpgtEpi16 (xorSi a bias) (xorSi s bias)
  subEpi16 s mask

/-- `sub_mod_avx2`, `sub_mod_sse2`. -/
def subModBiased (bias a b : Lanes n) : Lanes n :=
  let d := subEpi16 a b
  let mask := cmpgtEpi16 (xorSi b bias) (xorSi a bias)
  addEpi16 d mask

def addModNeon (a b : Lanes n) : Lanes n :=
  let s := addEpi16 a b
  subEpi16 s (vcltqU16 s a)

def subModNeon (a b : Lanes n) : Lanes n :=
  let d := subEpi16 a b
  addEpi16 d (vcltqU16 a b)

/-- The windows of a radix-4 block at offset `off`, through the butterflies. -/
def quadLanes (add sub : Lanes n → Lanes n → Lanes n) (data : List (BitVec 16)) (dist off : Nat) :
    (Lanes n × Lanes n) × Lanes n × Lanes n :=
  let v0 := loadu n data off
  let v1 := loadu n data (off + dist)
  let v2 := loadu n data (off + dist * 2)
  let v3 := loadu n data (off + dist * 3)
  let t0 := add v0 v1
  let t1 := sub v0 v1
  let t2 := add v2 v3
  let t3 := sub v2 v3
  ((add t0 t2, add t1 t3), sub t0 t2, sub t1 t3)

/-- `radix4_avx2`, `radix4_sse2`. -/
def radix4Biased (n : Nat) (data : List (BitVec 16)) (r dist : Nat) : List (BitVec 16) :=
  let bias := set1Epi16 n 0x8000#16
  (stepRange r (r + dist) n).foldl (fun data off =>
    let u := quadLanes (addModBiased bias) (subModBiased bias) data dist off
    let data := storeu data off u.1.1
    let data := storeu data (off + dist) u.1.2
    let data := storeu data (off + dist * 2) u.2.1
    storeu data (off + dist * 3) u.2.2) data

/-- `radix2_avx2`, `radix2_sse2`. -/
def radix2Biased (n : Nat) (data : List (BitVec 16)) (r dist : Nat) : List (BitVec 16) :=
  let bias := set1Epi16 n 0x8000#16
  (stepRange r (r + dist) n).foldl (fun data off =>
    let v0 := loadu n data off
    let v1 := loadu n data (off + dist)
    let data := storeu data off (addModBiased bias v0 v1)
    storeu data (off + dist) (subModBiased bias v0 v1)) data

def radix4Avx2 : List (BitVec 16) → Nat → Nat → List (BitVec 16) := radix4Biased 16

def radix2Avx2 : List (BitVec 16) → Nat → Nat → List (BitVec 16) := radix2Biased 16

def radix4Sse2 : List (BitVec 16) → Nat → Nat → List (BitVec 16) := radix4Biased 8

def radix2Sse2 : List (BitVec 16) → Nat → Nat → List (BitVec 16) := radix2Biased 8

/-- The stores come in another order than on x86. -/
def radix4Neon (data : List (BitVec 16)) (r dist : Nat) : List (BitVec 16) :=
  (stepRange r (r + dist) 8).foldl (fun data off =>
    let u := quadLanes (n := 8) addModNeon subModNeon data dist off
    let data := storeu data off u.1.1
    let data := storeu data (off + dist * 2) u.2.1
    let data := storeu data (off + dist) u.1.2
    storeu data (off + dist * 3) u.2.2) data

def radix2Neon (data : List (BitVec 16)) (r dist : Nat) : List (BitVec 16) :=
  (stepRange r (r + dist) 8).foldl (fun data off =>
    let v0 := loadu 8 data off
    let v1 := loadu 8 data (off + dist)
    let data := storeu data off (addModNeon v0 v1)
    storeu data (off + dist) (subModNeon v0 v1)) data

/-- The targets that the block functions tell apart. -/
inductive Target where
  | x86 (avx2 : Bool)
  | aarch64
  | other
  deriving DecidableEq, Repr

/-- `radix4_block`. -/
def radix4Block (target : Target) (data : List (BitVec 16)) (r dist : Nat) : List (BitVec 16) :=
  match target with
  | .x86 avx2 =>
    if 16 ≤ dist ∧ avx2 = true then radix4Avx2 data r dist
    else if 8 ≤ dist then radix4Sse2 data r dist
    else radix4Scalar 32 data r dist
  | .aarch64 => if 8 ≤ dist then radix4Neon data r dist else radix4Scalar 32 data r dist
  | .other => radix4Scalar 32 data r dist

/-- `radix2_block`. -/
def radix2Block (target : Target) (data : List (BitVec 16)) (r dist : Nat) : List (BitVec 16) :=
  match target with
  | .x86 avx2 =>
    if 16 ≤ dist ∧ avx2 = true then radix2Avx2 data r dist
    else if 8 ≤ dist then radix2Sse2 data r dist
    else radix2Scalar 32 data r dist
  | .aarch64 => if 8 ≤ dist then radix2Neon data r dist else radix2Scalar 32 data r dist
  | .other => radix2Scalar 32 data r dist

/-- `fwht16_variable`, with the blocks of the target. -/
def fwht16Variable (target : Target) (data : List (BitVec 16)) : List (BitVec 16) :=
  let n := data.length
  let passes := radix4Up n 1 4
  let data := passes.1.foldl (fun data dists =>
    (stepRange 0 n dists.2).foldl (fun data r => radix4Block target data r dists.1) data) data
  let dist := passes.2
  if dist < n ∧ dist * 2 ≤ n then
    (stepRange 0 n (dist * 2)).foldl (fun data r => radix2Block target data r dist) data
  else data

end Kernels

section Lanes

variable {n : Nat}

/-- The bias turns the unsigned order into the signed one. -/
theorem toInt_biased (a : BitVec 16) : (a ^^^ 0x8000#16).toInt = (a.toNat : Int) - 2 ^ 15 := by
  have ha := a.isLt
  rw [BitVec.toInt_eq_toNat_cond, BitVec.toNat_xor]
  rcases Nat.lt_or_ge a.toNat (2 ^ 15) with h | h
  · have hx := (xor_add_two_pow (e := 0) h (by decide)).1
    rw [Nat.zero_add, Nat.xor_zero] at hx
    rw [show (0x8000#16).toNat = 2 ^ 15 from rfl, hx, if_neg (by omega)]
    push_cast
    omega
  · have hx := (xor_add_two_pow (k := 15) (i := a.toNat - 2 ^ 15) (e := 0) (by omega) (by decide)).2.2
    rw [Nat.zero_add, Nat.xor_zero, Nat.sub_add_cancel h] at hx
    rw [show (0x8000#16).toNat = 2 ^ 15 from rfl, hx, if_pos (by omega)]
    omega

theorem slt_biased (a b : BitVec 16) :
    (a ^^^ 0x8000#16).slt (b ^^^ 0x8000#16) = a.ult b := by
  rw [BitVec.slt_eq_decide, toInt_biased, toInt_biased]
  unfold BitVec.ult
  apply decide_eq_decide.mpr
  omega

theorem add_mask (a b : BitVec 16) :
    (a + b - if (a + b).ult a then BitVec.allOnes 16 else 0#16) = addMod a b := by
  apply BitVec.eq_of_toNat_eq
  have ha := a.isLt
  have hb := b.isLt
  simp only [addMod, BitVec.ult, BitVec.toNat_add, Nat.shiftRight_eq_div_pow]
  split_ifs with h
  · simp only [decide_eq_true_eq] at h
    simp
    omega
  · simp only [decide_eq_true_eq] at h
    simp
    omega

theorem sub_mask (a b : BitVec 16) :
    (a - b + if a.ult b then BitVec.allOnes 16 else 0#16) = subMod 32 a b := by
  apply BitVec.eq_of_toNat_eq
  have ha := a.isLt
  have hb := b.isLt
  rw [subMod_toNat (by decide) (by decide)]
  simp only [BitVec.ult, modulus, order]
  split_ifs with h h' h'
  · simp only [decide_eq_true_eq] at h
    omega
  · simp
    omega
  · simp
    omega
  · simp only [decide_eq_true_eq] at h
    omega

theorem getElem_addModBiased (a b : Lanes n) (l : Nat) (hl : l < n) :
    (addModBiased (set1Epi16 n 0x8000#16) a b)[l] = addMod a[l] b[l] := by
  simp only [addModBiased, addEpi16, subEpi16, cmpgtEpi16, xorSi, set1Epi16,
    Vector.getElem_zipWith, Vector.getElem_replicate, slt_biased]
  exact add_mask _ _

theorem getElem_subModBiased (a b : Lanes n) (l : Nat) (hl : l < n) :
    (subModBiased (set1Epi16 n 0x8000#16) a b)[l] = subMod 32 a[l] b[l] := by
  simp only [subModBiased, addEpi16, subEpi16, cmpgtEpi16, xorSi, set1Epi16,
    Vector.getElem_zipWith, Vector.getElem_replicate, slt_biased]
  exact sub_mask _ _

theorem getElem_addModNeon (a b : Lanes n) (l : Nat) (hl : l < n) :
    (addModNeon a b)[l] = addMod a[l] b[l] := by
  simp only [addModNeon, addEpi16, subEpi16, vcltqU16, Vector.getElem_zipWith]
  exact add_mask _ _

theorem getElem_subModNeon (a b : Lanes n) (l : Nat) (hl : l < n) :
    (subModNeon a b)[l] = subMod 32 a[l] b[l] := by
  simp only [subModNeon, addEpi16, subEpi16, vcltqU16, Vector.getElem_zipWith]
  exact sub_mask _ _

theorem getElem_loadu (data : List (BitVec 16)) (off l : Nat) (hl : l < n) :
    (loadu n data off)[l] = entries data (off + l) := by
  simp [loadu, entries]

@[simp] theorem length_storeu (data : List (BitVec 16)) (off : Nat) (v : Lanes n) :
    (storeu data off v).length = data.length := by
  simp [storeu]

theorem entries_storeu (v : Lanes n) {data : List (BitVec 16)} {off l : Nat} (hl : l < n)
    (hlen : off + n ≤ data.length) : entries (storeu data off v) (off + l) = v[l] := by
  have hp : off + l < data.length := by omega
  unfold entries storeu
  rw [List.getD_eq_getElem _ _ (by simpa using hp), List.getElem_mapIdx,
    dif_pos ⟨by omega, by omega⟩]
  simp only [Nat.add_sub_cancel_left]

theorem entries_storeu_other (v : Lanes n) {data : List (BitVec 16)} {off p : Nat}
    (hp : p < off ∨ off + n ≤ p) : entries (storeu data off v) p = entries data p := by
  unfold entries storeu
  rcases Nat.lt_or_ge p data.length with h | h
  · rw [List.getD_eq_getElem _ _ (by simpa using h), List.getElem_mapIdx,
      List.getD_eq_getElem _ _ h, dif_neg (by omega)]
  · rw [List.getD_eq_default _ _ (by simpa using h), List.getD_eq_default _ _ h]

end Lanes

section Blocks

variable {n : Nat}

theorem storeu_comm (u v : Lanes n) (data : List (BitVec 16)) {off off' : Nat}
    (h : off + n ≤ off') :
    storeu (storeu data off u) off' v = storeu (storeu data off' v) off u := by
  apply List.ext_getElem (by simp)
  intro p h1 h2
  simp only [storeu, List.getElem_mapIdx]
  by_cases hu : off ≤ p ∧ p - off < n
  · rw [dif_neg (by omega), dif_pos hu, dif_pos hu]
  · by_cases hv : off' ≤ p ∧ p - off' < n
    · rw [dif_pos hv, dif_neg hu, dif_pos hv]
    · rw [dif_neg hv, dif_neg hu, dif_neg hu, dif_neg hv]

/-- Lane operations that compute the scalar butterfly. -/
structure LaneOps (add sub : Lanes n → Lanes n → Lanes n) : Prop where
  add_eq : ∀ a b l (hl : l < n), (add a b)[l] = addMod a[l] b[l]
  sub_eq : ∀ a b l (hl : l < n), (sub a b)[l] = subMod 32 a[l] b[l]

theorem laneOps_biased :
    LaneOps (addModBiased (set1Epi16 n 0x8000#16)) (subModBiased (set1Epi16 n 0x8000#16)) :=
  ⟨fun a b l hl => getElem_addModBiased a b l hl, fun a b l hl => getElem_subModBiased a b l hl⟩

theorem laneOps_neon : LaneOps (n := n) addModNeon subModNeon :=
  ⟨fun a b l hl => getElem_addModNeon a b l hl, fun a b l hl => getElem_subModNeon a b l hl⟩

/-- The body of the radix-4 kernels. -/
def quadStep (add sub : Lanes n → Lanes n → Lanes n) (dist : Nat) (data : List (BitVec 16))
    (off : Nat) : List (BitVec 16) :=
  let u := quadLanes add sub data dist off
  storeu (storeu (storeu (storeu data off u.1.1) (off + dist) u.1.2) (off + dist * 2) u.2.1)
    (off + dist * 3) u.2.2

/-- The body of the radix-2 kernels. -/
def pairStep (add sub : Lanes n → Lanes n → Lanes n) (dist : Nat) (data : List (BitVec 16))
    (off : Nat) : List (BitVec 16) :=
  let v0 := loadu n data off
  let v1 := loadu n data (off + dist)
  storeu (storeu data off (add v0 v1)) (off + dist) (sub v0 v1)

variable {add sub : Lanes n → Lanes n → Lanes n}

theorem entries_quadStep (h : LaneOps add sub) {data : List (BitVec 16)} {dist off l p : Nat}
    (hn : n ≤ dist) (hlen : off + dist * 3 + n ≤ data.length) (hl : l < n)
    (hp : Quad dist (off + l) p) :
    entries (quadStep add sub dist data off) p = quadOut 32 dist (off + l) (entries data) p := by
  unfold quadStep
  simp only
  rcases hp with rfl | rfl | rfl | rfl
  · rw [entries_storeu_other _ (by omega), entries_storeu_other _ (by omega),
      entries_storeu_other _ (by omega), entries_storeu _ hl (by omega)]
    simp [quadLanes, quadOut, fwht2Alt, h.add_eq, getElem_loadu, Nat.add_right_comm]
  · rw [entries_storeu_other _ (by omega), entries_storeu_other _ (by omega),
      Nat.add_right_comm off l dist, entries_storeu _ hl (by simp; omega)]
    simp [quadLanes, quadOut, fwht2Alt, h.add_eq, h.sub_eq, getElem_loadu, Nat.add_right_comm,
      show dist ≠ 0 by omega]
  · rw [entries_storeu_other _ (by omega), Nat.add_right_comm off l (dist * 2),
      entries_storeu _ hl (by simp; omega)]
    simp [quadLanes, quadOut, fwht2Alt, h.add_eq, h.sub_eq, getElem_loadu, Nat.add_right_comm,
      show dist ≠ 0 by omega]
    intro heq
    omega
  · rw [Nat.add_right_comm off l (dist * 3), entries_storeu _ hl (by simp; omega)]
    simp [quadLanes, quadOut, fwht2Alt, h.sub_eq, getElem_loadu, Nat.add_right_comm,
      show dist ≠ 0 by omega]
    intro heq
    omega

theorem entries_quadStep_other {data : List (BitVec 16)} {dist off p : Nat}
    (hp : ∀ l, l < n → ¬Quad dist (off + l) p) :
    entries (quadStep add sub dist data off) p = entries data p := by
  have hout (c : Nat) (hc : c = off ∨ c = off + dist ∨ c = off + dist * 2 ∨ c = off + dist * 3) :
      p < c ∨ c + n ≤ p := by
    by_contra hin
    apply hp (p - c) (by omega)
    unfold Quad
    omega
  unfold quadStep
  simp only
  rw [entries_storeu_other _ (hout _ (by omega)), entries_storeu_other _ (hout _ (by omega)),
    entries_storeu_other _ (hout _ (by omega)), entries_storeu_other _ (hout _ (by omega))]

theorem entries_pairStep (h : LaneOps add sub) {data : List (BitVec 16)} {dist off l p : Nat}
    (hn : n ≤ dist) (hlen : off + dist + n ≤ data.length) (hl : l < n)
    (hp : p = off + l ∨ p = off + l + dist) : entries (pairStep add sub dist data off) p =
      pairUpdate (fwht2Alt 32) (off + l) (off + l + dist) (entries data) p := by
  unfold pairStep
  simp only
  rcases hp with rfl | rfl
  · rw [entries_storeu_other _ (by omega), entries_storeu _ hl (by omega), h.add_eq _ _ _ hl]
    simp [pairUpdate, fwht2Alt, getElem_loadu, Nat.add_right_comm]
  · rw [Nat.add_right_comm off l dist, entries_storeu _ hl (by simp; omega), h.sub_eq _ _ _ hl]
    simp [pairUpdate, fwht2Alt, getElem_loadu, show dist ≠ 0 by omega]

theorem entries_pairStep_other {data : List (BitVec 16)} {dist off p : Nat}
    (hp : ∀ l, l < n → ¬(p = off + l ∨ p = off + l + dist)) :
    entries (pairStep add sub dist data off) p = entries data p := by
  have hout (c : Nat) (hc : c = off ∨ c = off + dist) : p < c ∨ c + n ≤ p := by
    by_contra hin
    exact hp (p - c) (by omega) (by omega)
  unfold pairStep
  simp only
  rw [entries_storeu_other _ (hout _ (by omega)), entries_storeu_other _ (hout _ (by omega))]

/-- The radix-4 kernels compute the scalar block. -/
theorem quadKernel_eq (h : LaneOps add sub) (hn : 0 < n) {r dist : Nat} (hdvd : n ∣ dist)
    (hd : 0 < dist) {data : List (BitVec 16)} (hlen : r + 4 * dist ≤ data.length) :
    (stepRange r (r + dist) n).foldl (quadStep add sub dist) data = radix4Scalar 32 data r dist := by
  have hle := Nat.le_of_dvd hd hdvd
  obtain ⟨hok, hin, hout⟩ := foldl_windows (fun u => u.length = data.length) entries (entries data)
    (fun p => quadOut 32 dist (r + (p - r) % dist) (entries data) p)
    (fun i p => Quad dist (r + i) p) (quadStep add sub dist) (r := r) hn hdvd data rfl
    (fun i hi p hp => rfl)
    (fun i j p hi hj hpi hpj => (quad_place hi hpi).2.symm.trans (quad_place hj hpj).2) (by
      intro t ht u hu hbase
      simp only [← Nat.add_assoc] at hbase ⊢
      refine ⟨by simp [quadStep, hu], fun l hl p hp => ?_, fun p hp => entries_quadStep_other hp⟩
      rw [entries_quadStep h hle (by omega) hl hp,
        (quad_place (r := r) (i := t + l) (by omega) (by rwa [← Nat.add_assoc])).2,
        ← Nat.add_assoc]
      exact quadOut_congr (fun q hq => hbase l hl q hq) hp)
  obtain ⟨hlen', hblock⟩ := entries_radix4Scalar 32 hd hlen
  refine ext_entries (hok.trans hlen'.symm) fun p _ => ?_
  rw [hblock p]
  split_ifs with hp
  · exact hin _ (Nat.mod_lt _ hd) p (quad_place_self hd hp)
  · exact hout p (fun i hi hq => hp (quad_place hi hq).1)

/-- The radix-2 kernels compute the scalar block. -/
theorem pairKernel_eq (h : LaneOps add sub) (hn : 0 < n) {r dist : Nat} (hdvd : n ∣ dist)
    (hd : 0 < dist) {data : List (BitVec 16)} (hlen : r + 2 * dist ≤ data.length) :
    (stepRange r (r + dist) n).foldl (pairStep add sub dist) data = radix2Scalar 32 data r dist := by
  have hle := Nat.le_of_dvd hd hdvd
  obtain ⟨hok, hin, hout⟩ := foldl_windows (fun u => u.length = data.length) entries (entries data)
    (fun p => pairUpdate (fwht2Alt 32) (r + (p - r) % dist) (r + (p - r) % dist + dist)
      (entries data) p)
    (fun i p => p = r + i ∨ p = r + i + dist) (pairStep add sub dist) (r := r) hn hdvd data rfl
    (fun i hi p hp => rfl)
    (fun i j p hi hj hpi hpj => (pair_place hi hpi).2.symm.trans (pair_place hj hpj).2) (by
      intro t ht u hu hbase
      simp only [← Nat.add_assoc] at hbase ⊢
      refine ⟨by simp [pairStep, hu], fun l hl p hp => ?_, fun p hp => entries_pairStep_other hp⟩
      rw [entries_pairStep h hle (by omega) hl hp,
        (pair_place (r := r) (i := t + l) (by omega) (by rwa [← Nat.add_assoc])).2,
        ← Nat.add_assoc]
      unfold pairUpdate
      rw [hbase l hl _ (.inl rfl), hbase l hl _ (.inr rfl), hbase l hl p hp])
  obtain ⟨hlen', hblock⟩ := entries_radix2Scalar 32 hd hlen
  refine ext_entries (hok.trans hlen'.symm) fun p _ => ?_
  rw [hblock p]
  split_ifs with hp
  · exact hin _ (Nat.mod_lt _ hd) p (pair_place_self hp)
  · exact hout p (fun i hi hq => hp (pair_place hi hq).1)

theorem radix4Avx2_eq {r dist : Nat} (hdvd : 16 ∣ dist) (hd : 0 < dist)
    {data : List (BitVec 16)} (hlen : r + 4 * dist ≤ data.length) :
    radix4Avx2 data r dist = radix4Scalar 32 data r dist :=
  quadKernel_eq laneOps_biased (by decide) hdvd hd hlen

theorem radix4Sse2_eq {r dist : Nat} (hdvd : 8 ∣ dist) (hd : 0 < dist)
    {data : List (BitVec 16)} (hlen : r + 4 * dist ≤ data.length) :
    radix4Sse2 data r dist = radix4Scalar 32 data r dist :=
  quadKernel_eq laneOps_biased (by decide) hdvd hd hlen

theorem radix2Avx2_eq {r dist : Nat} (hdvd : 16 ∣ dist) (hd : 0 < dist)
    {data : List (BitVec 16)} (hlen : r + 2 * dist ≤ data.length) :
    radix2Avx2 data r dist = radix2Scalar 32 data r dist :=
  pairKernel_eq laneOps_biased (by decide) hdvd hd hlen

theorem radix2Sse2_eq {r dist : Nat} (hdvd : 8 ∣ dist) (hd : 0 < dist)
    {data : List (BitVec 16)} (hlen : r + 2 * dist ≤ data.length) :
    radix2Sse2 data r dist = radix2Scalar 32 data r dist :=
  pairKernel_eq laneOps_biased (by decide) hdvd hd hlen

theorem radix4Neon_eq {r dist : Nat} (hdvd : 8 ∣ dist) (hd : 0 < dist)
    {data : List (BitVec 16)} (hlen : r + 4 * dist ≤ data.length) :
    radix4Neon data r dist = radix4Scalar 32 data r dist := by
  have hle := Nat.le_of_dvd hd hdvd
  rw [← quadKernel_eq laneOps_neon (by decide) hdvd hd hlen]
  unfold radix4Neon quadStep
  simp only
  congr 1
  funext data off
  rw [storeu_comm _ _ _ (show off + dist + 8 ≤ off + dist * 2 by omega)]

theorem radix2Neon_eq {r dist : Nat} (hdvd : 8 ∣ dist) (hd : 0 < dist)
    {data : List (BitVec 16)} (hlen : r + 2 * dist ≤ data.length) :
    radix2Neon data r dist = radix2Scalar 32 data r dist :=
  pairKernel_eq laneOps_neon (by decide) hdvd hd hlen

/-- A power of two that is large enough is a whole number of windows. -/
theorem window_dvd {a b : Nat} (h : 2 ^ a ≤ 2 ^ b) : 2 ^ a ∣ 2 ^ b :=
  Nat.pow_dvd_pow 2 ((Nat.pow_le_pow_iff_right (by decide)).mp h)

theorem radix4Block_eq (target : Target) (b : Nat) {r : Nat} {data : List (BitVec 16)}
    (hlen : r + 4 * 2 ^ b ≤ data.length) :
    radix4Block target data r (2 ^ b) = radix4Scalar 32 data r (2 ^ b) := by
  have hpos := Nat.two_pow_pos b
  have h16 (h : 16 ≤ 2 ^ b) : 16 ∣ 2 ^ b := window_dvd (a := 4) h
  have h8 (h : 8 ≤ 2 ^ b) : 8 ∣ 2 ^ b := window_dvd (a := 3) h
  cases target with
  | x86 avx2 =>
    simp only [radix4Block]
    split_ifs with h h'
    · exact radix4Avx2_eq (h16 h.1) hpos hlen
    · exact radix4Sse2_eq (h8 h') hpos hlen
    · rfl
  | aarch64 =>
    simp only [radix4Block]
    split_ifs with h
    · exact radix4Neon_eq (h8 h) hpos hlen
    · rfl
  | other => rfl

theorem radix2Block_eq (target : Target) (b : Nat) {r : Nat} {data : List (BitVec 16)}
    (hlen : r + 2 * 2 ^ b ≤ data.length) :
    radix2Block target data r (2 ^ b) = radix2Scalar 32 data r (2 ^ b) := by
  have hpos := Nat.two_pow_pos b
  have h16 (h : 16 ≤ 2 ^ b) : 16 ∣ 2 ^ b := window_dvd (a := 4) h
  have h8 (h : 8 ≤ 2 ^ b) : 8 ∣ 2 ^ b := window_dvd (a := 3) h
  cases target with
  | x86 avx2 =>
    simp only [radix2Block]
    split_ifs with h h'
    · exact radix2Avx2_eq (h16 h.1) hpos hlen
    · exact radix2Sse2_eq (h8 h') hpos hlen
    · rfl
  | aarch64 =>
    simp only [radix2Block]
    split_ifs with h
    · exact radix2Neon_eq (h8 h) hpos hlen
    · rfl
  | other => rfl

/-- Blocks that agree with the scalar ones make the same pass. -/
theorem foldl_blocks_eq {block scalar : List (BitVec 16) → Nat → List (BitVec 16)} {size len : Nat}
    (hsize : 0 < size) (hdvd : size ∣ len)
    (hlength : ∀ data r, r + size ≤ data.length → (scalar data r).length = data.length)
    (heq : ∀ data r, r + size ≤ data.length → block data r = scalar data r)
    {data : List (BitVec 16)} (hlen : data.length = len) :
    (stepRange 0 len size).foldl block data = (stepRange 0 len size).foldl scalar data ∧
      ((stepRange 0 len size).foldl scalar data).length = len := by
  have hmem : ∀ r ∈ stepRange 0 len size, r + size ≤ len := by
    intro r hr
    obtain ⟨q, rfl, hlt⟩ := (mem_stepRange hsize).mp hr
    have hend := block_end_le hdvd (show q * size < len by omega)
    rw [Nat.add_mul, Nat.one_mul] at hend
    omega
  generalize stepRange 0 len size = rs at hmem
  induction rs generalizing data with
  | nil => exact ⟨rfl, hlen⟩
  | cons r rs ih =>
    have hr : r + size ≤ data.length := by
      rw [hlen]
      exact hmem r List.mem_cons_self
    simp only [List.foldl_cons]
    rw [heq data r hr]
    exact ih ((hlength data r hr).trans hlen) (fun r' h' => hmem r' (List.mem_cons_of_mem r h'))

/-- The transform does not depend on the target. -/
theorem fwht16Variable_eq (target : Target) {k : Nat} {data : List (BitVec 16)}
    (hlen : data.length = 2 ^ k) : fwht16Variable target data = fwhtVariable 32 data := by
  let pass (data : List (BitVec 16)) (dists : Nat × Nat) : List (BitVec 16) :=
    (stepRange 0 (2 ^ k) dists.2).foldl (fun data r => radix4Block target data r dists.1) data
  have hsplit (l : List (Nat × Nat)) (s s' : List (BitVec 16)) :
      l.foldl (fun t d => (pass t.1 d, fwhtPass 32 (2 ^ k) t.2 d)) (s, s') =
        (l.foldl pass s, l.foldl (fwhtPass 32 (2 ^ k)) s') := by
    induction l generalizing s s' with
    | nil => rfl
    | cons d l ih => exact ih _ _
  let P : Nat → List (BitVec 16) × List (BitVec 16) → Prop := fun _ t =>
    t.1 = t.2 ∧ t.2.length = 2 ^ k
  obtain ⟨hdist, hrun⟩ := foldl_radix4Up P
    (fun t d => (pass t.1 d, fwhtPass 32 (2 ^ k) t.2 d)) k 0 (by omega) (data, data)
    ⟨rfl, hlen⟩ (by
      rintro b hb ⟨t, t'⟩ ⟨heq, htlen⟩
      dsimp only at heq htlen
      subst heq
      have hpow : 2 ^ (b + 2) = 4 * 2 ^ b := by rw [Nat.pow_add]; omega
      exact foldl_blocks_eq (Nat.two_pow_pos _) (Nat.pow_dvd_pow 2 hb)
        (fun data r hr => (entries_radix4Scalar 32 (Nat.two_pow_pos b) (by omega)).1)
        (fun data r hr => radix4Block_eq target b (by omega)) htlen)
  rw [hsplit] at hrun
  obtain ⟨heq, hlen'⟩ := hrun
  dsimp only at heq hlen'
  simp only [Nat.sub_zero] at hdist
  unfold fwht16Variable fwhtVariable
  simp only [hlen]
  rw [show radix4Up (2 ^ k) 1 4 = radix4Up (2 ^ k) (2 ^ 0) (2 ^ (0 + 2)) from rfl, hdist]
  split_ifs with hlt
  · have hsize : 2 ^ (k - k % 2) * 2 = 2 ^ (k - k % 2 + 1) := (Nat.pow_succ 2 _).symm
    rw [hsize, ← heq]
    rw [← heq] at hlen'
    exact (foldl_blocks_eq (Nat.two_pow_pos (k - k % 2 + 1)) (window_dvd (by omega))
      (fun data r hr => (entries_radix2Scalar 32 (Nat.two_pow_pos (k - k % 2)) (by omega)).1)
      (fun data r hr => radix2Block_eq target (k - k % 2) (by omega)) hlen').1
  · exact heq

end Blocks

section Laws

/-- What the transforms of one element width satisfy. -/
structure WalshLaws (w wordBits : Nat) (variableSize : List (BitVec w) → List (BitVec w)) :
    Prop where
  signed_sum : ∀ k data, k ≤ w → data.length = 2 ^ k → ∀ i, i < 2 ^ k →
    (entries (variableSize data) i).toNat ≡
      ∑ j ∈ Finset.range (2 ^ k), (-1) ^ Walsh.popcount (i &&& j) * ((entries data j).toNat : Int)
      [ZMOD modulus w]
  twice : ∀ k data, k ≤ w → data.length = 2 ^ k → ∀ i, i < 2 ^ k →
    (entries (variableSize (variableSize data)) i).toNat ≡ 2 ^ k * (entries data i).toNat
      [MOD modulus w]
  full_twice : ∀ data, data.length = order w → ∀ i, i < order w →
    (entries (variableSize (variableSize data)) i).toNat ≡ (entries data i).toNat [MOD modulus w]
  truncated : ∀ mtrunc data, mtrunc ≤ order w → data.length = order w →
    (∀ p, mtrunc ≤ p → p < order w → entries data p = 0#w) →
    fwhtMtrunc wordBits (order w) mtrunc data = fwht wordBits data

variable {w wordBits : Nat}

/-- The laws follow from the residues that the transform computes. -/
theorem walshLaws_of_spec (hw : 0 < w) {variableSize : List (BitVec w) → List (BitVec w)}
    (hspec : ∀ k data, data.length = 2 ^ k → (variableSize data).length = 2 ^ k ∧
      ∀ p, p < 2 ^ k → residue (variableSize data) p = Walsh.transform k (residue data) p) :
    WalshLaws w wordBits variableSize := by
  have htwice (k : Nat) (data : List (BitVec w)) (hlen : data.length = 2 ^ k) (i : Nat)
      (hi : i < 2 ^ k) :
      residue (variableSize (variableSize data)) i = 2 ^ k * residue data i := by
    obtain ⟨h1, h2⟩ := hspec k data hlen
    rw [(hspec k _ h1).2 i hi, Walsh.transform_congr k h2 hi, Walsh.transform_transform k _ hi]
  constructor
  · intro k data _ hlen i hi
    have h := (hspec k data hlen).2 i hi
    rw [Walsh.transform_eq_sum k _ hi] at h
    apply (ZMod.intCast_eq_intCast_iff _ _ _).mp
    push_cast
    exact h
  · intro k data _ hlen i hi
    apply (ZMod.natCast_eq_natCast_iff _ _ _).mp
    push_cast
    exact htwice k data hlen i hi
  · intro data hlen i hi
    apply (ZMod.natCast_eq_natCast_iff _ _ _).mp
    have h := htwice w data hlen i hi
    rw [two_pow_residue hw, one_mul] at h
    exact h
  · intro mtrunc data hm hlen hzero
    exact fwhtMtrunc_eq hm hlen hzero

/-- The vector blocks and the scalar blocks of `dist` a power of two, where the
block lies in the slice. -/
structure BlocksAgree : Prop where
  radix4_avx2 : ∀ b r data, 16 ≤ 2 ^ b → r + 4 * 2 ^ b ≤ data.length →
    radix4Avx2 data r (2 ^ b) = radix4Scalar 32 data r (2 ^ b)
  radix4_sse2 : ∀ b r data, 8 ≤ 2 ^ b → r + 4 * 2 ^ b ≤ data.length →
    radix4Sse2 data r (2 ^ b) = radix4Scalar 32 data r (2 ^ b)
  radix2_avx2 : ∀ b r data, 16 ≤ 2 ^ b → r + 2 * 2 ^ b ≤ data.length →
    radix2Avx2 data r (2 ^ b) = radix2Scalar 32 data r (2 ^ b)
  radix2_sse2 : ∀ b r data, 8 ≤ 2 ^ b → r + 2 * 2 ^ b ≤ data.length →
    radix2Sse2 data r (2 ^ b) = radix2Scalar 32 data r (2 ^ b)

/-- The Walsh transforms of both fields: signed sums modulo the group order on
every target, exact truncation, and vector blocks equal to the scalar ones. -/
theorem walsh_transform_laws :
    (∀ target, WalshLaws 16 32 (fwht16Variable target)) ∧ WalshLaws 8 64 (fwhtVariable 64) ∧
      BlocksAgree := by
  refine ⟨fun target => ?_, ?_, ?_⟩
  · apply walshLaws_of_spec (by decide)
    intro k data hlen
    rw [fwht16Variable_eq target hlen]
    exact fwhtVariable_spec (by decide) (by decide) hlen
  · apply walshLaws_of_spec (by decide)
    intro k data hlen
    exact fwhtVariable_spec (by decide) (by decide) hlen
  · constructor
    · intro b r data hb hlen
      exact radix4Avx2_eq (window_dvd (a := 4) hb) (Nat.two_pow_pos b) hlen
    · intro b r data hb hlen
      exact radix4Sse2_eq (window_dvd (a := 3) hb) (Nat.two_pow_pos b) hlen
    · intro b r data hb hlen
      exact radix2Avx2_eq (window_dvd (a := 4) hb) (Nat.two_pow_pos b) hlen
    · intro b r data hb hlen
      exact radix2Sse2_eq (window_dvd (a := 3) hb) (Nat.two_pow_pos b) hlen

/-- Sixteen lanes of a radix-2 block, with a carry and a borrow. -/
example : radix2Avx2 ((List.replicate 16 0xffff#16) ++ List.replicate 16 1#16) 0 16 =
    List.replicate 16 1#16 ++ List.replicate 16 0xfffe#16 := by decide +kernel

end Laws

end Leopard
end ErasureCodec
