import ErasureCodec.Math.Loop
import Mathlib.Data.List.GetD

namespace ErasureCodec

variable {α : Type*}

/-- `&data[start..stop]`. -/
def slice (data : List α) (start stop : Nat) : List α := (data.drop start).take (stop - start)

/-- `data[start..start + xs.len()].copy_from_slice(xs)`: the positions below
the length of `data` that the window covers take the new values. -/
def overwrite (start : Nat) (xs data : List α) : List α :=
  data.mapIdx fun i v => if start ≤ i then xs.getD (i - start) v else v

/-- The `(start, stop)` windows of `chunks(size)` on a slice of `len` elements,
which are also those of a `while start < len` loop that advances by `size`. -/
def chunkRanges (len size : Nat) : List (Nat × Nat) :=
  (List.range ((len + size - 1) / size)).map fun k => (k * size, min ((k + 1) * size) len)

/-- `for (o, v) in out.iter_mut().zip(input)`, which ends with the shorter one. -/
def zipInto {β : Type*} (f : α → β → α) : List α → List β → List α
  | o :: out, v :: input => f o v :: zipInto f out input
  | out, _ => out

/-- `as_chunks::<4>`: whole groups, and what is left. -/
def asChunks4 {α : Type} : List α → List (α × α × α × α) × List α
  | a :: b :: c :: d :: rest => ((a, b, c, d) :: (asChunks4 rest).1, (asChunks4 rest).2)
  | rest => ([], rest)

theorem getD_ext (z : α) {a b : List α} (hl : a.length = b.length)
    (h : ∀ x, x < a.length → a.getD x z = b.getD x z) : a = b := by
  apply List.ext_getElem hl
  intro i h1 h2
  have hi := h i h1
  rwa [List.getD_eq_getElem _ _ h1, List.getD_eq_getElem _ _ h2] at hi

theorem getD_map_of_lt {β : Type*} (f : α → β) (l : List α) (i : Nat) (h : i < l.length)
    (z : α) (w : β) : (l.map f).getD i w = f (l.getD i z) := by
  rw [List.getD_eq_getElem _ _ (by simpa using h), List.getD_eq_getElem _ _ h, List.getElem_map]

theorem getD_map_range {β : Type*} (f : Nat → β) (n i : Nat) (h : i < n) (w : β) :
    ((List.range n).map f).getD i w = f i := by
  rw [List.getD_eq_getElem _ _ (by simpa using h), List.getElem_map, List.getElem_range]

theorem getD_mapIdx_of_lt {β : Type*} (f : Nat → α → β) (l : List α) (i : Nat)
    (h : i < l.length) (z : α) (w : β) : (l.mapIdx f).getD i w = f i (l.getD i z) := by
  rw [List.getD_eq_getElem _ _ (by simpa using h), List.getD_eq_getElem _ _ h,
    List.getElem_mapIdx]

theorem mapIdx_self (l : List α) : (l.mapIdx fun _ a => a) = l :=
  List.ext_getElem (by simp) (by simp)

theorem getD_set (l : List α) (i j : Nat) (v z : α) :
    (l.set i v).getD j z = if i = j ∧ i < l.length then v else l.getD j z := by
  simp only [List.getD_eq_getElem?_getD, List.getElem?_set]
  by_cases hij : i = j
  · subst hij
    by_cases hl : i < l.length <;> simp [hl]
  · simp [hij]

/-- Two entries that take the values of a function. -/
theorem getD_set_set (data : List α) {p q : Nat} {a b : α} (target : Nat → α) (z : α)
    (hp : p < data.length) (hq : q < data.length) (ha : a = target p) (hb : b = target q) (k : Nat) :
    ((data.set p a).set q b).getD k z = if k = p ∨ k = q then target k else data.getD k z := by
  rw [getD_set, getD_set, List.length_set]
  by_cases hkq : q = k
  · rw [if_pos ⟨hkq, hq⟩, if_pos (.inr hkq.symm), hb, hkq]
  · by_cases hkp : p = k
    · rw [if_neg (fun h => hkq h.1), if_pos ⟨hkp, hp⟩, if_pos (.inl hkp.symm), ha, hkp]
    · rw [if_neg (fun h => hkq h.1), if_neg (fun h => hkp h.1),
        if_neg (fun h => h.elim (hkp ·.symm) (hkq ·.symm))]

@[simp] theorem length_overwrite (start : Nat) (xs data : List α) :
    (overwrite start xs data).length = data.length := by
  simp [overwrite]

theorem getD_overwrite (start : Nat) (xs data : List α) (i : Nat) (z : α) :
    (overwrite start xs data).getD i z =
      if start ≤ i ∧ i < start + xs.length ∧ i < data.length then xs.getD (i - start) z
      else data.getD i z := by
  by_cases hi : i < data.length
  · rw [overwrite, getD_mapIdx_of_lt _ _ _ hi z]
    by_cases hs : start ≤ i
    · rw [if_pos hs]
      by_cases hx : i - start < xs.length
      · rw [if_pos ⟨hs, by omega, hi⟩, List.getD_eq_getElem _ _ hx, List.getD_eq_getElem _ _ hx]
      · rw [if_neg (by omega), List.getD_eq_default _ _ (Nat.le_of_not_lt hx)]
    · rw [if_neg hs, if_neg (fun h => hs h.1)]
  · rw [if_neg (fun h => hi h.2.2), List.getD_eq_default _ _ (by simpa using Nat.le_of_not_lt hi),
      List.getD_eq_default _ _ (Nat.le_of_not_lt hi)]

theorem take_overwrite_zero {xs data : List α} (h : xs.length ≤ data.length) :
    (overwrite 0 xs data).take xs.length = xs := by
  have hlen : ((overwrite 0 xs data).take xs.length).length = xs.length := by
    rw [List.length_take, length_overwrite, Nat.min_eq_left h]
  apply List.ext_getElem hlen
  intro i h1 h2
  have hi := getD_overwrite 0 xs data i xs[i]
  rw [if_pos ⟨Nat.zero_le i, by omega, by omega⟩, Nat.sub_zero, List.getD_eq_getElem _ _ h2,
    List.getD_eq_getElem _ _ (by rw [length_overwrite]; omega)] at hi
  rw [List.getElem_take, hi]

/-- The prefix up to the end of an overwritten window. -/
theorem take_overwrite_append (start : Nat) (xs data : List α)
    (h : start + xs.length ≤ data.length) :
    (overwrite start xs data).take (start + xs.length) = data.take start ++ xs := by
  refine List.ext_getElem (by simp; omega) (fun i h1 h2 => ?_)
  have hi : i < start + xs.length := by
    simp only [List.length_take] at h1
    omega
  have hdata : i < data.length := by omega
  have hz := getD_overwrite start xs data i data[i]
  rw [List.getElem_take, ← List.getD_eq_getElem _ data[i], hz]
  rw [List.getElem_append]
  by_cases hs : start ≤ i
  · rw [if_pos ⟨hs, hi, by omega⟩, dif_neg (by simp; omega), List.getD_eq_getElem _ _ (by omega)]
    congr 1
    simp
    omega
  · rw [if_neg (by omega), dif_pos (by simp; omega), List.getElem_take,
      List.getD_eq_getElem _ _ (by omega)]

theorem length_slice (data : List α) (start stop : Nat) (h : stop ≤ data.length) :
    (slice data start stop).length = stop - start := by
  simp [slice]
  omega

theorem getD_slice (data : List α) (start stop i : Nat) (h : i < stop - start) (z : α) :
    (slice data start stop).getD i z = data.getD (start + i) z := by
  simp only [slice, List.getD_eq_getElem?_getD, List.getElem?_take, List.getElem?_drop, h,
    if_true]

theorem slice_append (buf : List α) {a b c : Nat} (hab : a ≤ b) (hbc : b ≤ c) :
    slice buf a b ++ slice buf b c = slice buf a c := by
  obtain ⟨i, rfl⟩ := Nat.exists_eq_add_of_le hab
  obtain ⟨j, rfl⟩ := Nat.exists_eq_add_of_le hbc
  simp only [slice, Nat.add_sub_cancel_left]
  rw [Nat.add_assoc, Nat.add_sub_cancel_left, List.take_add, List.drop_drop]

theorem slice_full (data : List α) : slice data 0 data.length = data := by
  simp [slice]

theorem length_take_append_drop {l : List α} {k : Nat} (f : List α → List α)
    (hf : (f (l.drop k)).length = (l.drop k).length) :
    (l.take k ++ f (l.drop k)).length = l.length := by
  have h := congrArg List.length (List.take_append_drop k l)
  rw [List.length_append] at h ⊢
  omega

theorem getD_take_append {l t : List α} {k c : Nat} (hk : k ≤ l.length) (z : α) :
    (l.take k ++ t).getD c z = if c < k then l.getD c z else t.getD (c - k) z := by
  simp only [List.getD_eq_getElem?_getD, List.getElem?_append, List.length_take,
    Nat.min_eq_left hk]
  split_ifs with h
  · rw [List.getElem?_take_of_lt h]
  · rfl

theorem getD_take {l : List α} {k c : Nat} (h : c < k) (z : α) :
    (l.take k).getD c z = l.getD c z := by
  simp only [List.getD_eq_getElem?_getD, List.getElem?_take_of_lt h]

theorem getD_drop (l : List α) (k c : Nat) (z : α) : (l.drop k).getD c z = l.getD (k + c) z := by
  simp only [List.getD_eq_getElem?_getD, List.getElem?_drop]

/-- Lists that agree below a position. -/
theorem take_congr {a b : List α} {n : Nat} (hl : a.length = b.length) (z : α)
    (h : ∀ p, p < a.length → p < n → a.getD p z = b.getD p z) : a.take n = b.take n := by
  apply getD_ext z
  · rw [List.length_take, List.length_take, hl]
  · intro p hp
    rw [List.length_take] at hp
    rw [getD_take (by omega), getD_take (by omega), h p (by omega) (by omega)]

/-- Lists that agree from a position on. -/
theorem drop_congr {a b : List α} {n : Nat} (hl : a.length = b.length) (z : α)
    (h : ∀ p, p < a.length → n ≤ p → a.getD p z = b.getD p z) : a.drop n = b.drop n := by
  apply getD_ext z
  · rw [List.length_drop, List.length_drop, hl]
  · intro p hp
    rw [List.length_drop] at hp
    rw [getD_drop, getD_drop, h (n + p) (by omega) (by omega)]

theorem zipInto_eq {β : Type*} (f : α → β → α) {out : List α} {input : List β}
    (h : out.length ≤ input.length) : zipInto f out input = List.zipWith f out input := by
  induction out generalizing input with
  | nil => cases input <;> rfl
  | cons o out ih =>
    cases input with
    | nil => simp at h
    | cons v input =>
      rw [zipInto, List.zipWith_cons_cons, ih (by simpa using h)]

theorem exists_cons_four {l : List α} (h : 4 ≤ l.length) :
    ∃ a b c d tail, l = a :: b :: c :: d :: tail := by
  obtain ⟨a, l, rfl⟩ := List.exists_cons_of_length_pos (show 0 < l.length by omega)
  rw [List.length_cons] at h
  obtain ⟨b, l, rfl⟩ := List.exists_cons_of_length_pos (show 0 < l.length by omega)
  rw [List.length_cons] at h
  obtain ⟨c, l, rfl⟩ := List.exists_cons_of_length_pos (show 0 < l.length by omega)
  rw [List.length_cons] at h
  obtain ⟨d, l, rfl⟩ := List.exists_cons_of_length_pos (show 0 < l.length by omega)
  exact ⟨a, b, c, d, l, rfl⟩

theorem asChunks4_short {α : Type} {l : List α} (h : l.length < 4) : asChunks4 l = ([], l) := by
  match l, h with
  | [], _ => rfl
  | [_], _ => rfl
  | [_, _], _ => rfl
  | [_, _, _], _ => rfl

theorem asChunks4_flatten {α : Type} (l : List α) :
    ((asChunks4 l).1.flatMap fun g => [g.1, g.2.1, g.2.2.1, g.2.2.2]) ++ (asChunks4 l).2 = l := by
  fun_induction asChunks4 l with
  | case1 a b c d rest ih => simp [ih]
  | case2 rest h => simp

/-- A loop that updates the entries at distinct indexes. -/
theorem foldl_set_distinct {ι : Type*} (tasks : List ι) (index : ι → Nat) (f : ι → α → α)
    (hnodup : (tasks.map index).Nodup) (l : List α) (z : α)
    (hlt : ∀ t ∈ tasks, index t < l.length) :
    let result := tasks.foldl (fun l t => l.set (index t) (f t (l.getD (index t) z))) l
    result.length = l.length ∧
      (∀ t ∈ tasks, result.getD (index t) z = f t (l.getD (index t) z)) ∧
      ∀ i, i ∉ tasks.map index → result.getD i z = l.getD i z := by
  induction tasks generalizing l with
  | nil => exact ⟨rfl, by simp, fun _ _ => rfl⟩
  | cons t tasks ih =>
    rw [List.map_cons, List.nodup_cons] at hnodup
    obtain ⟨hnot, hnodup⟩ := hnodup
    obtain ⟨next, hnext⟩ : ∃ next, next = l.set (index t) (f t (l.getD (index t) z)) := ⟨_, rfl⟩
    have hlen : next.length = l.length := by rw [hnext, List.length_set]
    have hother (i : Nat) (hi : i ≠ index t) : next.getD i z = l.getD i z := by
      rw [hnext, getD_set, if_neg (fun h => hi h.1.symm)]
    obtain ⟨hlength, hwrite, hframe⟩ := ih hnodup next
      (fun t' ht' => by rw [hlen]; exact hlt t' (List.mem_cons_of_mem t ht'))
    simp only [List.foldl_cons]
    rw [← hnext]
    refine ⟨hlength.trans hlen, fun t' ht' => ?_, fun i hi => ?_⟩
    · rcases List.mem_cons.mp ht' with rfl | ht'
      · rw [hframe _ hnot, hnext, getD_set, if_pos ⟨rfl, hlt _ List.mem_cons_self⟩]
      · rw [hwrite t' ht', hother]
        intro heq
        exact hnot (heq ▸ List.mem_map_of_mem ht')
    · rw [List.map_cons, List.mem_cons, not_or] at hi
      rw [hframe i hi.2, hother i hi.1]

theorem getD_zipWith {β γ : Type*} (f : α → β → γ) (a : List α) (b : List β) (i : Nat)
    (ha : i < a.length) (hb : i < b.length) (x : α) (y : β) (z : γ) :
    (List.zipWith f a b).getD i z = f (a.getD i x) (b.getD i y) := by
  rw [List.getD_eq_getElem _ _ (by simp; omega), List.getD_eq_getElem _ _ ha,
    List.getD_eq_getElem _ _ hb, List.getElem_zipWith]

/-- A loop over a prefix of two lists is completed by one over the rest. -/
theorem zipWith_tail {β : Type*} (f : α → β → α) {out words : List α} {input : List β} (z : α) (y : β)
    (h : input.length = out.length) (hlen : words.length = out.length) {done : Nat}
    (hread : ∀ p, p < out.length → words.getD p z =
      if p < done then f (out.getD p z) (input.getD p y) else out.getD p z) :
    words.take done ++ List.zipWith f (words.drop done) (input.drop done) =
      List.zipWith f out input := by
  have hzip : (List.zipWith f out input).length = out.length := by simp [h]
  have htake : words.take done = (List.zipWith f out input).take done := by
    apply take_congr (hlen.trans hzip.symm) z
    intro p hp hlow
    rw [hread p (hlen ▸ hp), if_pos hlow,
      getD_zipWith f out input p (hlen ▸ hp) (by omega) z y z]
  have hdrop : words.drop done = out.drop done := by
    apply drop_congr hlen z
    intro p hp hhigh
    rw [hread p (hlen ▸ hp), if_neg (by omega)]
  rw [htake, hdrop, ← List.drop_zipWith, List.take_append_drop]

/-- Nested loops of which round `(c, i)` writes the positions that it covers of window `c`. -/
theorem foldl_blocks_set (z : α) {size m n N : Nat} (covers : Nat → Nat → Nat → Prop)
    [∀ c i k, Decidable (covers c i k)] (step : List α → Nat → Nat → List α) (target : Nat → α)
    (hcovers : ∀ c k, c * size ≤ k ∧ k < (c + 1) * size ↔ ∃ i, i < m ∧ covers c i k)
    (hstep : ∀ c, c < n → ∀ i, i < m → ∀ data, data.length = N → (step data c i).length = N ∧
      ∀ k, (step data c i).getD k z = if covers c i k then target k else data.getD k z)
    {data : List α} (hdata : data.length = N) :
    let out := (List.range n).foldl (fun data c =>
      (List.range m).foldl (fun data i => step data c i) data) data
    out.length = N ∧ ∀ k, out.getD k z = if k < n * size then target k else data.getD k z := by
  apply foldl_range_windows (fun data : List α => data.length = N) (fun data k => data.getD k z)
    (fun k _ => target k) _ size n data hdata
  intro c hc t ht
  obtain ⟨hlen, hread⟩ := foldl_cover (fun data : List α => data.length = N) (fun _ => True)
    (fun data k => data.getD k z) target (fun i k => covers c i k) (fun data i => step data c i)
    (List.range m) t ht (by
      intro i hi u hu
      obtain ⟨hlen, hread⟩ := hstep c hc i (List.mem_range.mp hi) u hu
      exact ⟨hlen, fun k _ => ⟨fun hk => (hread k).trans (if_pos hk),
        fun hk => (hread k).trans (if_neg hk)⟩⟩)
  refine ⟨hlen, fun k => ?_⟩
  split_ifs with hk
  · obtain ⟨i, hi, hcov⟩ := (hcovers c k).mp hk
    exact (hread k trivial).1 ⟨i, List.mem_range.mpr hi, hcov⟩
  · exact (hread k trivial).2 (fun i hi hcov => hk ((hcovers c k).mpr ⟨i, List.mem_range.mp hi, hcov⟩))

/-- Every window is non-empty, at most `size` long and inside the slice. -/
theorem chunkRanges_bounds {len size : Nat} (hs : 0 < size) {w : Nat × Nat}
    (hw : w ∈ chunkRanges len size) :
    w.1 < w.2 ∧ w.2 ≤ len ∧ w.2 - w.1 ≤ size := by
  simp only [chunkRanges, List.mem_map, List.mem_range] at hw
  obtain ⟨k, hk, rfl⟩ := hw
  have hlt : k * size < len := by
    have h := (Nat.lt_div_iff_mul_lt hs).mp hk
    omega
  have hmul : (k + 1) * size = k * size + size := Nat.succ_mul k size
  simp only [hmul]
  omega

/-- The windows tile the slice: position `x` lies in window `x / size` alone. -/
theorem mem_chunkRanges_iff {len size : Nat} (hs : 0 < size) (x : Nat) (hx : x < len)
    (w : Nat × Nat) :
    (w ∈ chunkRanges len size ∧ w.1 ≤ x ∧ x < w.2) ↔
      w = (x / size * size, min ((x / size + 1) * size) len) := by
  have hdiv := Nat.div_add_mod x size
  have hmod := Nat.mod_lt x hs
  constructor
  · rintro ⟨hw, h1, h2⟩
    simp only [chunkRanges, List.mem_map, List.mem_range] at hw
    obtain ⟨k, -, rfl⟩ := hw
    have hk : k = x / size := by
      apply Nat.le_antisymm
      · exact (Nat.le_div_iff_mul_le hs).mpr h1
      · have hlt : x < (k + 1) * size := lt_of_lt_of_le h2 (min_le_left _ _)
        exact Nat.lt_succ_iff.mp ((Nat.div_lt_iff_lt_mul hs).mpr hlt)
    rw [hk]
  · rintro rfl
    have hle : x / size * size ≤ x := Nat.div_mul_le_self x size
    have hlt : x < (x / size + 1) * size := by
      rw [Nat.add_mul, Nat.one_mul, Nat.mul_comm]
      omega
    refine ⟨?_, hle, lt_min hlt hx⟩
    simp only [chunkRanges, List.mem_map, List.mem_range]
    refine ⟨x / size, ?_, rfl⟩
    rw [Nat.div_lt_iff_lt_mul hs, Nat.mul_comm]
    have hq : size * ((len + size - 1) / size) + (len + size - 1) % size = len + size - 1 :=
      Nat.div_add_mod _ _
    have hr := Nat.mod_lt (len + size - 1) hs
    omega

/-- Every position lies in a window. -/
theorem exists_chunkRanges {len size x : Nat} (hs : 0 < size) (hx : x < len) :
    ∃ window ∈ chunkRanges len size, window.1 ≤ x ∧ x < window.2 := by
  obtain ⟨hmem, h1, h2⟩ := (mem_chunkRanges_iff hs x hx _).mpr rfl
  exact ⟨_, hmem, h1, h2⟩

/-- Loop rule for chunks: an invariant indexed by the position reached survives a
pass over consecutive windows. -/
theorem foldl_chunkRanges {σ : Type*} {len size : Nat} (hs : 0 < size) (P : Nat → σ → Prop)
    (step : σ → Nat × Nat → σ) (s : σ) (h0 : P 0 s)
    (hstep : ∀ start stop, start < stop → stop ≤ len → stop ≤ start + size →
      ∀ t, P start t → P stop (step t (start, stop))) :
    P len ((chunkRanges len size).foldl step s) := by
  have hbound (k : Nat) (hk : k < (len + size - 1) / size) : k * size < len := by
    have h := (Nat.lt_div_iff_mul_lt hs).mp hk
    omega
  rw [chunkRanges, List.foldl_map]
  have hloop := foldl_range_inv (fun k t => P (min (k * size) len) t)
    (fun t k => step t (k * size, min ((k + 1) * size) len)) ((len + size - 1) / size) s
    (by simpa using h0) (by
      intro k hk t ht
      have hlt := hbound k hk
      have hmul : (k + 1) * size = k * size + size := Nat.succ_mul k size
      rw [min_eq_left hlt.le] at ht
      exact hstep _ _ (by omega) (min_le_right _ _) (by omega) t ht)
  have hend : len ≤ (len + size - 1) / size * size := by
    have h1 := Nat.div_add_mod (len + size - 1) size
    have h2 := Nat.mod_lt (len + size - 1) hs
    rw [Nat.mul_comm] at h1
    omega
  rwa [min_eq_right hend] at hloop

/-- A rectangular list of lists. -/
structure Grid (n len : Nat) (m : List (List α)) : Prop where
  length_eq : m.length = n
  row_length : ∀ r, r < n → (m.getD r []).length = len

theorem grid_of_forall {n len : Nat} {m : List (List α)} (hn : m.length = n)
    (h : ∀ row ∈ m, row.length = len) : Grid n len m where
  length_eq := hn
  row_length r hr := by
    rw [List.getD_eq_getElem _ _ (by omega)]
    exact h _ (List.getElem_mem _)

theorem Grid.forall {n len : Nat} {m : List (List α)} (h : Grid n len m) {row : List α}
    (hrow : row ∈ m) : row.length = len := by
  obtain ⟨r, hr, rfl⟩ := List.mem_iff_getElem.mp hrow
  have := h.row_length r (by rw [← h.length_eq]; exact hr)
  rwa [List.getD_eq_getElem _ _ hr] at this

theorem Grid.take {n len : Nat} {m : List (List α)} (h : Grid n len m) {k : Nat} (hk : k ≤ n) :
    Grid k len (m.take k) :=
  grid_of_forall (by rw [List.length_take, h.length_eq]; omega)
    (fun _ hrow => h.forall (List.mem_of_mem_take hrow))

theorem Grid.drop {n len k r : Nat} {m : List (List α)} (h : Grid n len m) (hk : n = k + r) :
    Grid r len (m.drop k) :=
  grid_of_forall (by rw [List.length_drop, h.length_eq]; omega)
    (fun _ hrow => h.forall (List.mem_of_mem_drop hrow))

theorem Grid.append {m n len : Nat} {upper lower : List (List α)} (h : Grid m len upper)
    (h' : Grid n len lower) : Grid (m + n) len (upper ++ lower) := by
  apply grid_of_forall (by rw [List.length_append, h.length_eq, h'.length_eq])
  intro row hrow
  rcases List.mem_append.mp hrow with hrow | hrow
  · exact h.forall hrow
  · exact h'.forall hrow

/-- Grids of one shape are equal when all entries are. -/
theorem Grid.ext {n len : Nat} {a b : List (List α)} (ha : Grid n len a) (hb : Grid n len b) (z : α)
    (h : ∀ r x, r < n → x < len → (a.getD r []).getD x z = (b.getD r []).getD x z) : a = b := by
  apply getD_ext [] (ha.length_eq.trans hb.length_eq.symm)
  intro r hr
  have hr' : r < n := by rw [← ha.length_eq]; exact hr
  apply getD_ext z ((ha.row_length r hr').trans (hb.row_length r hr').symm)
  intro x hx
  exact h r x hr' (by rw [← ha.row_length r hr']; exact hx)

theorem Grid.mapIdx {β : Type*} {n len len' : Nat} {m : List (List α)} (h : Grid n len m)
    (f : Nat → List α → List β) (hf : ∀ r, r < n → (f r (m.getD r [])).length = len') :
    Grid n len' (m.mapIdx f) where
  length_eq := by rw [List.length_mapIdx]; exact h.length_eq
  row_length r hr := by
    rw [getD_mapIdx_of_lt _ _ _ (by rw [h.length_eq]; exact hr) []]
    exact hf r hr

end ErasureCodec
