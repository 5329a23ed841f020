import ErasureCodec.Leopard.Luts
import ErasureCodec.Math.Walsh

namespace ErasureCodec

namespace Leopard

variable {w : Nat}

section Definitions

/-- `fwht2_alt8`, `fwht2_alt16`. -/
def fwht2Alt (wordBits : Nat) (a b : BitVec w) : BitVec w × BitVec w :=
  (addMod a b, subMod wordBits a b)

def fwhtPair (wordBits i j : Nat) (data : List (BitVec w)) : List (BitVec w) :=
  let t := fwht2Alt wordBits (data.getD i 0#w) (data.getD j 0#w)
  (data.set i t.1).set j t.2

/-- The radix-4 body of the transforms. -/
def fwhtGroup (wordBits dist off : Nat) (data : List (BitVec w)) : List (BitVec w) :=
  let data := fwhtPair wordBits off (off + dist) data
  let data := fwhtPair wordBits (off + dist * 2) (off + dist * 3) data
  let data := fwhtPair wordBits off (off + dist * 2) data
  fwhtPair wordBits (off + dist) (off + dist * 3) data

def fwhtPass (wordBits stop : Nat) (data : List (BitVec w)) (dists : Nat × Nat) :
    List (BitVec w) :=
  (stepRange 0 stop dists.2).foldl (fun data r =>
    (List.range dists.1).foldl (fun data i => fwhtGroup wordBits dists.1 (r + i) data) data) data

/-- `fwht8_mtrunc`, `fwht16_mtrunc`: blocks that start at `mtrunc` or later are left alone. -/
def fwhtMtrunc (wordBits m mtrunc : Nat) (data : List (BitVec w)) : List (BitVec w) :=
  (radix4Up m 1 4).1.foldl (fwhtPass wordBits mtrunc) data

/-- `fwht8`, `fwht16`. -/
def fwht (wordBits : Nat) (data : List (BitVec w)) : List (BitVec w) :=
  fwhtMtrunc wordBits (order w) (order w) data

/-- `fwht_variable`, `fwht16_variable`: an odd number of layers ends with a pairwise pass. -/
def fwhtVariable (wordBits : Nat) (data : List (BitVec w)) : List (BitVec w) :=
  let n := data.length
  let passes := radix4Up n 1 4
  let data := passes.1.foldl (fwhtPass wordBits n) data
  let dist := passes.2
  if dist < n ∧ dist * 2 ≤ n then
    (stepRange 0 n (dist * 2)).foldl (fun data r =>
      (List.range dist).foldl (fun data i => fwhtPair wordBits (r + i) (r + i + dist) data) data)
      data
  else data

/-- `radix4_scalar`. -/
def radix4Scalar (wordBits : Nat) (data : List (BitVec w)) (r dist : Nat) : List (BitVec w) :=
  (List.range dist).foldl (fun data i => fwhtGroup wordBits dist (r + i) data) data

/-- `radix2_scalar`. -/
def radix2Scalar (wordBits : Nat) (data : List (BitVec w)) (r dist : Nat) : List (BitVec w) :=
  (List.range dist).foldl (fun data i => fwhtPair wordBits (r + i) (r + i + dist) data) data

end Definitions

section Entries

variable {wordBits : Nat}

/-- An entry of the vector, zero past its end. -/
def entries (data : List (BitVec w)) (p : Nat) : BitVec w := data.getD p 0#w

theorem ext_entries {data data' : List (BitVec w)} (hlen : data.length = data'.length)
    (h : ∀ p, p < data.length → entries data p = entries data' p) : data = data' := by
  apply List.ext_getElem hlen
  intro p h1 h2
  have hp := h p h1
  unfold entries at hp
  rwa [List.getD_eq_getElem _ _ h1, List.getD_eq_getElem _ _ h2] at hp

theorem length_fwhtPair (i j : Nat) (data : List (BitVec w)) :
    (fwhtPair wordBits i j data).length = data.length := by
  simp [fwhtPair]

theorem length_fwhtGroup (dist off : Nat) (data : List (BitVec w)) :
    (fwhtGroup wordBits dist off data).length = data.length := by
  simp [fwhtGroup, length_fwhtPair]

theorem fwhtPass_eq (stop dist dist4 : Nat) (data : List (BitVec w)) :
    fwhtPass wordBits stop data (dist, dist4) = (quadStarts stop dist dist4).foldl
      (fun data off => fwhtGroup wordBits dist off data) data := by
  unfold fwhtPass quadStarts
  rw [List.foldl_flatMap]
  simp only [List.foldl_map]

theorem entries_fwhtPair (data : List (BitVec w)) {i j : Nat} (hij : i ≠ j) (hi : i < data.length)
    (hj : j < data.length) : entries (fwhtPair wordBits i j data) =
      pairUpdate (fwht2Alt wordBits) i j (entries data) := by
  funext p
  unfold fwhtPair pairUpdate entries
  simp only [getD_set, List.length_set]
  by_cases hpi : p = i
  · subst hpi
    simp [hij.symm, hi]
  · by_cases hpj : p = j
    · subst hpj
      simp [hij.symm, hj]
    · simp [hpi, hpj, Ne.symm hpi, Ne.symm hpj]

/-- The values after a radix-4 body. -/
def quadOut (wordBits dist off : Nat) (f : Nat → BitVec w) (p : Nat) : BitVec w :=
  let t := fwht2Alt wordBits (f off) (f (off + dist))
  let s := fwht2Alt wordBits (f (off + dist * 2)) (f (off + dist * 3))
  let low := fwht2Alt wordBits t.1 s.1
  let high := fwht2Alt wordBits t.2 s.2
  if p = off then low.1 else if p = off + dist then high.1 else
    if p = off + dist * 2 then low.2 else if p = off + dist * 3 then high.2 else f p

theorem quadOut_congr {dist off : Nat} {f g : Nat → BitVec w}
    (h : ∀ p, Quad dist off p → f p = g p) {p : Nat} (hp : Quad dist off p) :
    quadOut wordBits dist off f p = quadOut wordBits dist off g p := by
  unfold quadOut
  rw [h _ (.inl rfl), h _ (.inr (.inl rfl)), h _ (.inr (.inr (.inl rfl))),
    h _ (.inr (.inr (.inr rfl))), h p hp]

theorem quadOut_other {dist off : Nat} {f : Nat → BitVec w} {p : Nat} (hp : ¬Quad dist off p) :
    quadOut wordBits dist off f p = f p := by
  simp only [Quad, not_or] at hp
  simp [quadOut, hp]

theorem entries_fwhtGroup {dist off : Nat} (hd : 0 < dist) {data : List (BitVec w)}
    (hlen : off + dist * 3 < data.length) : entries (fwhtGroup wordBits dist off data) =
      quadOut wordBits dist off (entries data) := by
  unfold fwhtGroup
  simp only
  rw [entries_fwhtPair _ (by omega) (by simp only [length_fwhtPair]; omega)
      (by simp only [length_fwhtPair]; omega),
    entries_fwhtPair _ (by omega) (by simp only [length_fwhtPair]; omega)
      (by simp only [length_fwhtPair]; omega),
    entries_fwhtPair _ (by omega) (by simp only [length_fwhtPair]; omega)
      (by simp only [length_fwhtPair]; omega),
    entries_fwhtPair _ (by omega) (by omega) (by omega)]
  funext p
  let s := fwht2Alt wordBits (entries data off) (entries data (off + dist))
  let t := fwht2Alt wordBits (entries data (off + dist * 2)) (entries data (off + dist * 3))
  let mid : Nat → BitVec w := fun p => if p = off then s.1 else if p = off + dist then s.2 else
    if p = off + dist * 2 then t.1 else t.2
  have h1 : off ≠ off + dist := by omega
  have h2 : off ≠ off + dist * 2 := by omega
  have h3 : off ≠ off + dist * 3 := by omega
  have h4 : off + dist ≠ off + dist * 2 := by omega
  have h5 : off + dist ≠ off + dist * 3 := by omega
  have h6 : off + dist * 2 ≠ off + dist * 3 := by omega
  have hquad := pairUpdate_quad (fwht2Alt wordBits) (fwht2Alt wordBits) (fwht2Alt wordBits)
    (fwht2Alt wordBits) (f := entries data) (g := mid)
    (h := quadOut wordBits dist off (entries data)) h1 h2 h3 h4 h5 h6
    (by simp only [mid, if_pos, if_neg h1.symm]; rfl)
    (by simp only [mid, if_pos, if_neg h2.symm, if_neg h3.symm, if_neg h4.symm, if_neg h5.symm,
          if_neg h6.symm]; rfl)
    (by simp only [mid, quadOut, if_pos, if_neg h2.symm, if_neg h4.symm]; rfl)
    (by simp only [mid, quadOut, if_pos, if_neg h1.symm, if_neg h3.symm, if_neg h5.symm,
          if_neg h6.symm]; rfl) p
  rw [hquad]
  split_ifs with hp
  · rfl
  · exact (quadOut_other hp).symm

variable (wordBits) in
/-- A pass, entry by entry: the blocks that start at `stop` or later are left alone. -/
theorem entries_fwhtPass {k b stop : Nat} (hb : b + 2 ≤ k) (hstop : stop ≤ 2 ^ k)
    {data : List (BitVec w)} (hlen : data.length = 2 ^ k) :
    (fwhtPass wordBits stop data (2 ^ b, 2 ^ (b + 2))).length = 2 ^ k ∧
      ∀ p, entries (fwhtPass wordBits stop data (2 ^ b, 2 ^ (b + 2))) p =
        if p / 2 ^ (b + 2) * 2 ^ (b + 2) < stop then
          quadOut wordBits (2 ^ b) (p / 2 ^ (b + 2) * 2 ^ (b + 2) + p % 2 ^ b) (entries data) p
        else entries data p := by
  have hpow : 2 ^ (b + 2) = 4 * 2 ^ b := by rw [Nat.pow_add]; omega
  have hpos := Nat.two_pow_pos b
  have hinside (q : Nat) (hq : q * 2 ^ (b + 2) < stop) :
      q * 2 ^ (b + 2) + 2 ^ (b + 2) ≤ 2 ^ k := by
    have h := block_end_le (Nat.pow_dvd_pow 2 hb) (lt_of_lt_of_le hq hstop)
    rwa [Nat.add_mul, Nat.one_mul] at h
  rw [fwhtPass_eq, hpow]
  obtain ⟨hok, hin, hout⟩ := foldl_inPlace (fun data => data.length = 2 ^ k) entries (entries data)
    (fun p => quadOut wordBits (2 ^ b) (p / (4 * 2 ^ b) * (4 * 2 ^ b) + p % 2 ^ b) (entries data) p)
    (Quad (2 ^ b)) (fun data off => fwhtGroup wordBits (2 ^ b) off data)
    (quadStarts stop (2 ^ b) (4 * 2 ^ b)) data hlen (fun off hoff p hp => rfl)
    pairwise_quadStarts (by
      intro off hoff u hu hbase
      obtain ⟨q, i, hi, hq, rfl⟩ := (mem_quadStarts (by omega)).mp hoff
      have hend := hinside q (by rwa [hpow])
      rw [hpow] at hend
      rw [entries_fwhtGroup hpos (by omega)]
      refine ⟨(length_fwhtGroup _ _ _).trans hu, fun p hp => ?_, fun p hp => quadOut_other hp⟩
      rw [(quad_block hi hp).1, (quad_block hi hp).2]
      exact quadOut_congr hbase hp)
  refine ⟨hok, fun p => ?_⟩
  split_ifs with hlt
  · exact hin p ((exists_quad hpos).mpr hlt)
  · exact hout p (fun off hoff hq => hlt ((exists_quad hpos).mp ⟨off, hoff, hq⟩))

variable (wordBits) in
/-- A radix-4 block, entry by entry. -/
theorem entries_radix4Scalar {r dist : Nat} (hd : 0 < dist) {data : List (BitVec w)}
    (hlen : r + 4 * dist ≤ data.length) :
    (radix4Scalar wordBits data r dist).length = data.length ∧
      ∀ p, entries (radix4Scalar wordBits data r dist) p =
        if r ≤ p ∧ p < r + 4 * dist then
          quadOut wordBits dist (r + (p - r) % dist) (entries data) p
        else entries data p := by
  obtain ⟨hok, hin, hout⟩ := foldl_inPlace (fun u => u.length = data.length) entries (entries data)
    (fun p => quadOut wordBits dist (r + (p - r) % dist) (entries data) p)
    (fun i p => Quad dist (r + i) p) (fun data i => fwhtGroup wordBits dist (r + i) data)
    (List.range dist) data rfl (fun i hi p hp => rfl) (by
      apply List.pairwise_lt_range.imp_of_mem
      intro i j hi hj hij p hpi hpj
      have h1 := (quad_place (List.mem_range.mp hi) hpi).2
      have h2 := (quad_place (List.mem_range.mp hj) hpj).2
      omega) (by
      intro i hi u hu hbase
      have hi' := List.mem_range.mp hi
      rw [entries_fwhtGroup hd (by omega)]
      refine ⟨(length_fwhtGroup _ _ _).trans hu, fun p hp => ?_, fun p hp => quadOut_other hp⟩
      rw [(quad_place hi' hp).2]
      exact quadOut_congr hbase hp)
  refine ⟨hok, fun p => ?_⟩
  split_ifs with hp
  · exact hin p ⟨(p - r) % dist, List.mem_range.mpr (Nat.mod_lt _ hd), quad_place_self hd hp⟩
  · exact hout p (fun i hi hq => hp (quad_place (List.mem_range.mp hi) hq).1)

variable (wordBits) in
/-- A radix-2 block, entry by entry. -/
theorem entries_radix2Scalar {r dist : Nat} (hd : 0 < dist) {data : List (BitVec w)}
    (hlen : r + 2 * dist ≤ data.length) :
    (radix2Scalar wordBits data r dist).length = data.length ∧
      ∀ p, entries (radix2Scalar wordBits data r dist) p =
        if r ≤ p ∧ p < r + 2 * dist then
          pairUpdate (fwht2Alt wordBits) (r + (p - r) % dist) (r + (p - r) % dist + dist)
            (entries data) p
        else entries data p := by
  obtain ⟨hok, hin, hout⟩ := foldl_inPlace (fun u => u.length = data.length) entries (entries data)
    (fun p => pairUpdate (fwht2Alt wordBits) (r + (p - r) % dist) (r + (p - r) % dist + dist)
      (entries data) p)
    (fun i p => p = r + i ∨ p = r + i + dist)
    (fun data i => fwhtPair wordBits (r + i) (r + i + dist) data)
    (List.range dist) data rfl (fun i hi p hp => rfl) (by
      apply List.pairwise_lt_range.imp_of_mem
      intro i j hi hj hij p hpi hpj
      have h1 := (pair_place (List.mem_range.mp hi) hpi).2
      have h2 := (pair_place (List.mem_range.mp hj) hpj).2
      omega) (by
      intro i hi u hu hbase
      have hi' := List.mem_range.mp hi
      rw [entries_fwhtPair u (by omega) (by omega) (by omega)]
      refine ⟨(length_fwhtPair _ _ _).trans hu, fun p hp => ?_, fun p hp => ?_⟩
      · rw [(pair_place hi' hp).2]
        unfold pairUpdate
        rw [hbase _ (.inl rfl), hbase _ (.inr rfl), hbase p hp]
      · unfold pairUpdate
        rw [if_neg (fun h => hp (.inl h)), if_neg (fun h => hp (.inr h))])
  refine ⟨hok, fun p => ?_⟩
  split_ifs with hp
  · exact hin p ⟨(p - r) % dist, List.mem_range.mpr (Nat.mod_lt _ hd), pair_place_self hp⟩
  · exact hout p (fun i hi hq => hp (pair_place (List.mem_range.mp hi) hq).1)

theorem quadOut_zero {dist off : Nat} {f : Nat → BitVec w}
    (h : ∀ p, Quad dist off p → f p = 0#w) {p : Nat} (hp : Quad dist off p) :
    quadOut wordBits dist off f p = 0#w := by
  rw [quadOut_congr (g := fun _ => 0#w) h hp]
  simp [quadOut, fwht2Alt, addMod, subMod]

/-- Skipping the blocks of zeros changes no entry. -/
theorem fwhtMtrunc_eq {mtrunc : Nat} (hm : mtrunc ≤ order w) {data : List (BitVec w)}
    (hlen : data.length = order w)
    (hzero : ∀ p, mtrunc ≤ p → p < order w → entries data p = 0#w) :
    fwhtMtrunc wordBits (order w) mtrunc data = fwht wordBits data := by
  let P : Nat → List (BitVec w) × List (BitVec w) → Prop := fun b t => t.1 = t.2 ∧
    t.1.length = 2 ^ w ∧ ∀ p, p < 2 ^ w → mtrunc ≤ p / 2 ^ b * 2 ^ b → entries t.1 p = 0#w
  have hrun := (foldl_radix4Up P
    (fun t d => (fwhtPass wordBits mtrunc t.1 d, fwhtPass wordBits (order w) t.2 d)) w 0 (by omega)
    (data, data) ⟨rfl, hlen, fun p hp hle => hzero p (by omega) hp⟩ (by
      rintro b hb ⟨t, t'⟩ ⟨heq, htlen, ht⟩
      dsimp only at heq htlen ht
      subst heq
      have hpow : 2 ^ (b + 2) = 4 * 2 ^ b := by rw [Nat.pow_add]; omega
      obtain ⟨hlen1, hpass1⟩ := entries_fwhtPass wordBits hb hm htlen
      obtain ⟨hlen2, hpass2⟩ := entries_fwhtPass wordBits hb (le_refl (2 ^ w)) htlen
      have hskip (p : Nat) (hp : p < 2 ^ w) (hge : mtrunc ≤ p / 2 ^ (b + 2) * 2 ^ (b + 2)) :
          entries t p = 0#w :=
        ht p hp (hge.trans (block_start_le (by omega) p))
      refine ⟨ext_entries (hlen1.trans hlen2.symm) fun p hp => ?_, hlen1, fun p hp hge => ?_⟩
      · rw [hlen1] at hp
        refine (hpass1 p).trans (Eq.trans ?_ (hpass2 p).symm)
        rw [if_pos (lt_of_le_of_lt (Nat.div_mul_le_self _ _) hp)]
        split_ifs with hlt
        · rfl
        · -- a skipped block holds zeros before and after
          have hself := quad_self (Nat.two_pow_pos b) p
          rw [← hpow] at hself
          rw [hskip p hp (by omega)]
          refine (quadOut_zero (fun u hu => ?_) hself).symm
          rw [hpow] at hu
          have hblock := (quad_block (Nat.mod_lt p (Nat.two_pow_pos b)) hu).1
          have hend := block_end_le (Nat.pow_dvd_pow 2 hb)
            (lt_of_le_of_lt (Nat.div_mul_le_self p (2 ^ (b + 2))) hp)
          have hu' := Nat.lt_div_mul_add (a := u) (Nat.two_pow_pos (b + 2))
          rw [← hpow] at hblock
          rw [hblock] at hu'
          rw [Nat.add_mul, Nat.one_mul] at hend
          exact hskip u (by omega) (by rw [hblock]; omega)
      · change entries (fwhtPass wordBits mtrunc t _) p = 0#w
        rw [hpass1 p, if_neg (by omega)]
        exact hskip p hp hge)).2
  have hsplit (l : List (Nat × Nat)) (s s' : List (BitVec w)) :
      l.foldl (fun t d => (fwhtPass wordBits mtrunc t.1 d, fwhtPass wordBits (order w) t.2 d))
        (s, s') = (l.foldl (fwhtPass wordBits mtrunc) s,
          l.foldl (fwhtPass wordBits (order w)) s') := by
    induction l generalizing s s' with
    | nil => rfl
    | cons d l ih => exact ih _ _
  rw [hsplit] at hrun
  exact hrun.1

end Entries
section Transform

/-- An entry as an integer modulo the group order. -/
def residue (data : List (BitVec w)) (j : Nat) : ZMod (modulus w) :=
  ((data.getD j 0#w).toNat : ZMod (modulus w))

variable {wordBits : Nat}

theorem residue_set (data : List (BitVec w)) (i : Nat) (v : BitVec w) (hi : i < data.length)
    (p : Nat) : residue (data.set i v) p =
      if p = i then (v.toNat : ZMod (modulus w)) else residue data p := by
  unfold residue
  rw [getD_set]
  by_cases hp : p = i
  · rw [if_pos ⟨hp.symm, hi⟩, if_pos hp]
  · rw [if_neg (fun h => hp h.1.symm), if_neg hp]

/-- A layer read on a pair of positions. -/
theorem layer_pair (b q : Nat) (f : Nat → ZMod (modulus w)) {i : Nat} (hi : i < 2 ^ b) :
    Walsh.layer b f (q * 2 ^ (b + 1) + i) =
        f (q * 2 ^ (b + 1) + i) + f (q * 2 ^ (b + 1) + 2 ^ b + i) ∧
      Walsh.layer b f (q * 2 ^ (b + 1) + 2 ^ b + i) =
        f (q * 2 ^ (b + 1) + i) - f (q * 2 ^ (b + 1) + 2 ^ b + i) := by
  obtain ⟨h1, -, h3, -⟩ := pair_index b q hi
  unfold Walsh.layer
  constructor
  · rw [h1, if_pos (by omega), Nat.add_right_comm]
  · rw [h3, if_neg (by omega),
      show q * 2 ^ (b + 1) + 2 ^ b + i - 2 ^ b = q * 2 ^ (b + 1) + i by omega]

/-- The radix-4 body computes two layers. -/
theorem cast_quadOut (hw : 0 < w) (hword : 2 * w ≤ wordBits) {b q i : Nat} (hi : i < 2 ^ b)
    {f : Nat → BitVec w} {g : Nat → ZMod (modulus w)}
    (hf : ∀ p, Quad (2 ^ b) (q * 2 ^ (b + 2) + i) p → ((f p).toNat : ZMod (modulus w)) = g p)
    {p : Nat} (hp : Quad (2 ^ b) (q * 2 ^ (b + 2) + i) p) :
    ((quadOut wordBits (2 ^ b) (q * 2 ^ (b + 2) + i) f p).toNat : ZMod (modulus w)) =
      Walsh.layer (b + 1) (Walsh.layer b g) p := by
  have hpos := Nat.two_pow_pos b
  have hpow1 : 2 ^ (b + 1) = 2 * 2 ^ b := by rw [Nat.pow_succ, Nat.mul_comm]
  obtain ⟨⟨e0, e1⟩, ⟨e2, e3⟩, t2, t1, t3⟩ := quad_index b q i
  have hlow := layer_pair b (2 * q) g hi
  have hhigh := layer_pair b (2 * q + 1) g hi
  have htop0 := layer_pair (b + 1) q (Walsh.layer b g) (i := i) (by omega)
  have htop1 := layer_pair (b + 1) q (Walsh.layer b g) (i := i + 2 ^ b) (by omega)
  rw [← e0, ← e1] at hlow
  rw [← e2, ← e3] at hhigh
  rw [← t2] at htop0
  rw [← t1, ← t3] at htop1
  obtain ⟨off, hoff⟩ : ∃ off, off = q * 2 ^ (b + 2) + i := ⟨_, rfl⟩
  rw [show q * 2 ^ (b + 1 + 1) + i = q * 2 ^ (b + 2) + i from rfl] at htop0
  rw [← hoff] at hf hp hlow hhigh htop0 htop1 ⊢
  have h0 := hf _ (.inl rfl)
  have h1 := hf _ (.inr (.inl rfl))
  have h2 := hf _ (.inr (.inr (.inl rfl)))
  have h3 := hf _ (.inr (.inr (.inr rfl)))
  rcases hp with rfl | rfl | rfl | rfl
  · rw [htop0.1, hlow.1, hhigh.1, ← h0, ← h1, ← h2, ← h3]
    simp [quadOut, fwht2Alt, cast_addMod hw]
  · rw [htop1.1, hlow.2, hhigh.2, ← h0, ← h1, ← h2, ← h3]
    simp [quadOut, fwht2Alt, cast_addMod hw, cast_subMod hw hword]
  · rw [htop0.2, hlow.1, hhigh.1, ← h0, ← h1, ← h2, ← h3]
    simp [quadOut, fwht2Alt, cast_addMod hw, cast_subMod hw hword]
  · rw [htop1.2, hlow.2, hhigh.2, ← h0, ← h1, ← h2, ← h3]
    simp [quadOut, fwht2Alt, cast_subMod hw hword]

/-- A pass adds two layers to the blocks below `stop`. -/
theorem residue_fwhtPass (hw : 0 < w) (hword : 2 * w ≤ wordBits) {k b stop : Nat}
    (hb : b + 2 ≤ k) (hstop : stop ≤ 2 ^ k) {data : List (BitVec w)} (hlen : data.length = 2 ^ k)
    (f : Nat → ZMod (modulus w)) (hf : ∀ p, p < 2 ^ k → residue data p = f p) :
    (fwhtPass wordBits stop data (2 ^ b, 2 ^ (b + 2))).length = 2 ^ k ∧
      ∀ p, p < 2 ^ k → residue (fwhtPass wordBits stop data (2 ^ b, 2 ^ (b + 2))) p =
        if p / 2 ^ (b + 2) * 2 ^ (b + 2) < stop then Walsh.layer (b + 1) (Walsh.layer b f) p
        else f p := by
  have hpow : 2 ^ (b + 2) = 4 * 2 ^ b := by rw [Nat.pow_add]; omega
  have hpos := Nat.two_pow_pos b
  obtain ⟨hlen', hpass⟩ := entries_fwhtPass wordBits hb hstop hlen
  refine ⟨hlen', fun p hp => ?_⟩
  have hself := quad_self hpos p
  rw [← hpow] at hself
  have hend := block_end_le (Nat.pow_dvd_pow 2 hb)
    (lt_of_le_of_lt (Nat.div_mul_le_self p (2 ^ (b + 2))) hp)
  rw [Nat.add_mul, Nat.one_mul] at hend
  have hmod := Nat.mod_lt p hpos
  change ((entries _ p).toNat : ZMod (modulus w)) = _
  rw [hpass p]
  split_ifs with hlt
  · apply cast_quadOut hw hword hmod _ hself
    intro t ht
    apply hf
    unfold Quad at ht
    omega
  · exact hf p hp

/-- The truncated transform is the full one where the entries it skips are zero. -/
theorem fwhtMtrunc_spec (hw : 0 < w) (heven : w % 2 = 0) (hword : 2 * w ≤ wordBits) {mtrunc : Nat}
    (hm : mtrunc ≤ 2 ^ w) {data : List (BitVec w)} (hlen : data.length = 2 ^ w)
    (hzero : ∀ p, mtrunc ≤ p → p < 2 ^ w → residue data p = 0) :
    (fwhtMtrunc wordBits (order w) mtrunc data).length = 2 ^ w ∧
      (∀ p, p < 2 ^ w → residue (fwhtMtrunc wordBits (order w) mtrunc data) p =
        Walsh.transform w (residue data) p) ∧ (radix4Up (order w) 1 4).2 = 2 ^ w := by
  let P : Nat → List (BitVec w) → Prop := fun b t => t.length = 2 ^ w ∧
    ∀ p, p < 2 ^ w → residue t p = Walsh.transform b (residue data) p
  have hempty (b q i : Nat) (hb : b ≤ w) (hi : i < 2 ^ b) (hp : i + q * 2 ^ b < 2 ^ w)
      (hge : mtrunc ≤ q * 2 ^ b) : Walsh.transform b (residue data) (i + q * 2 ^ b) = 0 := by
    apply Walsh.transform_eq_zero b q _ hi
    intro t ht
    have hend := block_end_le (Nat.pow_dvd_pow 2 hb) (lt_of_le_of_lt (Nat.le_add_left _ i) hp)
    rw [Nat.add_mul, Nat.one_mul] at hend
    exact hzero _ (by omega) (by omega)
  obtain ⟨hdist, hlen', hres⟩ := foldl_radix4Up P (fwhtPass wordBits mtrunc) w 0 (by omega) data
    ⟨hlen, fun p _ => rfl⟩ (by
      rintro b hb t ⟨htlen, ht⟩
      obtain ⟨h1, h2⟩ := residue_fwhtPass hw hword hb hm htlen (Walsh.transform b (residue data)) ht
      refine ⟨h1, fun p hp => ?_⟩
      rw [h2 p hp]
      split_ifs with hlt
      · rfl
      · -- a skipped block holds zeros before and after
        have hblock (c : Nat) (hc : c ≤ b + 2) :
            Walsh.transform c (residue data) p = 0 := by
          have hsplit := Nat.mod_add_div' p (2 ^ c)
          have hmod := Nat.mod_lt p (Nat.two_pow_pos c)
          have hle := block_start_le hc p
          have h := hempty c (p / 2 ^ c) (p % 2 ^ c) (by omega) hmod (by omega) (by omega)
          rwa [hsplit] at h
        rw [hblock b (by omega), hblock (b + 2) le_rfl])
  simp only [Nat.sub_zero, heven] at hdist hres
  exact ⟨hlen', hres, hdist⟩

theorem fwht_spec (hw : 0 < w) (heven : w % 2 = 0) (hword : 2 * w ≤ wordBits)
    {data : List (BitVec w)} (hlen : data.length = 2 ^ w) :
    (fwht wordBits data).length = 2 ^ w ∧
      ∀ p, p < 2 ^ w → residue (fwht wordBits data) p = Walsh.transform w (residue data) p := by
  obtain ⟨h1, h2, -⟩ := fwhtMtrunc_spec hw heven hword (le_refl (2 ^ w)) hlen
    (fun p h1 h2 => by omega)
  exact ⟨h1, h2⟩

/-- The remaining pairwise pass adds a layer. -/
theorem residue_radix2Scalar (hw : 0 < w) (hword : 2 * w ≤ wordBits) {b : Nat}
    {data : List (BitVec w)} (hlen : data.length = 2 ^ (b + 1)) (f : Nat → ZMod (modulus w))
    (hf : ∀ p, p < 2 ^ (b + 1) → residue data p = f p) :
    (radix2Scalar wordBits data 0 (2 ^ b)).length = 2 ^ (b + 1) ∧
      ∀ p, p < 2 ^ (b + 1) → residue (radix2Scalar wordBits data 0 (2 ^ b)) p =
        Walsh.layer b f p := by
  have hpow : 2 ^ (b + 1) = 2 * 2 ^ b := by rw [Nat.pow_succ, Nat.mul_comm]
  have hpos := Nat.two_pow_pos b
  have hroom : 0 + 2 * 2 ^ b ≤ data.length := by omega
  obtain ⟨hlen', hblock⟩ := entries_radix2Scalar wordBits hpos hroom
  refine ⟨hlen'.trans hlen, fun p hp => ?_⟩
  have hmod := Nat.mod_lt p hpos
  have hpair := layer_pair b 0 f hmod
  simp only [Nat.zero_mul, Nat.zero_add, Nat.add_comm (2 ^ b)] at hpair
  change ((entries _ p).toNat : ZMod (modulus w)) = _
  rw [hblock p, if_pos ⟨Nat.zero_le p, by omega⟩]
  simp only [Nat.zero_add, Nat.sub_zero]
  have h0 : ((entries data (p % 2 ^ b)).toNat : ZMod (modulus w)) = f (p % 2 ^ b) :=
    hf _ (by omega)
  have h1 : ((entries data (p % 2 ^ b + 2 ^ b)).toNat : ZMod (modulus w)) =
      f (p % 2 ^ b + 2 ^ b) := hf _ (by omega)
  rcases Nat.lt_or_ge p (2 ^ b) with hlt | hge
  · have hp0 : p % 2 ^ b = p := Nat.mod_eq_of_lt hlt
    rw [hp0] at hpair h0 h1 ⊢
    rw [hpair.1, ← h0, ← h1]
    simp [pairUpdate, fwht2Alt, cast_addMod hw]
  · have hp1 : p % 2 ^ b + 2 ^ b = p := by
      rw [Nat.mod_eq_sub_mod hge, Nat.mod_eq_of_lt (by omega), Nat.sub_add_cancel hge]
    rw [hp1] at hpair h1 ⊢
    rw [hpair.2, ← h0, ← h1]
    simp [pairUpdate, fwht2Alt, cast_subMod hw hword, show p ≠ p % 2 ^ b by omega]

theorem fwhtVariable_spec (hw : 0 < w) (hword : 2 * w ≤ wordBits) {k : Nat}
    {data : List (BitVec w)} (hlen : data.length = 2 ^ k) :
    (fwhtVariable wordBits data).length = 2 ^ k ∧
      ∀ p, p < 2 ^ k → residue (fwhtVariable wordBits data) p =
        Walsh.transform k (residue data) p := by
  let P : Nat → List (BitVec w) → Prop := fun b t => t.length = 2 ^ k ∧
    ∀ p, p < 2 ^ k → residue t p = Walsh.transform b (residue data) p
  obtain ⟨hdist, hlen', hres⟩ := foldl_radix4Up P (fwhtPass wordBits (2 ^ k)) k 0 (by omega) data
    ⟨hlen, fun p _ => rfl⟩ (by
      rintro b hb t ⟨htlen, ht⟩
      obtain ⟨h1, h2⟩ := residue_fwhtPass hw hword hb le_rfl htlen
        (Walsh.transform b (residue data)) ht
      refine ⟨h1, fun p hp => ?_⟩
      rw [h2 p hp, if_pos (lt_of_le_of_lt (Nat.div_mul_le_self _ _) hp)]
      rfl)
  simp only [Nat.sub_zero] at hdist hlen' hres
  unfold fwhtVariable
  simp only [hlen]
  rw [show radix4Up (2 ^ k) 1 4 = radix4Up (2 ^ k) (2 ^ 0) (2 ^ (0 + 2)) from rfl, hdist]
  rcases Nat.mod_two_eq_zero_or_one k with hk | hk
  · rw [hk, Nat.sub_zero, if_neg (by omega)]
    rw [hk, Nat.sub_zero] at hres
    exact ⟨hlen', hres⟩
  · obtain ⟨b, rfl⟩ : ∃ b, k = b + 1 := ⟨k - 1, by omega⟩
    have hpow : 2 ^ (b + 1) = 2 ^ b * 2 := Nat.pow_succ 2 b
    have hpos := Nat.two_pow_pos b
    have hone : stepRange 0 (2 ^ b * 2) (2 ^ b * 2) = [0] := by
      unfold stepRange
      rw [show (2 ^ b * 2 - 0 + 2 ^ b * 2 - 1) / (2 ^ b * 2) = 1 by
        apply Nat.div_eq_of_lt_le <;> omega]
      simp
    rw [hk, Nat.add_sub_cancel] at hres ⊢
    rw [if_pos ⟨by omega, by omega⟩, hpow, hone]
    exact residue_radix2Scalar hw hword hlen' _ hres

end Transform

end Leopard

end ErasureCodec
