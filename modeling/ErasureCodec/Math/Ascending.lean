import ErasureCodec.Math.Loop
import Mathlib.Data.List.GetD
import Mathlib.Data.List.Sort
import Mathlib.Tactic

namespace ErasureCodec

/-- Index lists in strictly increasing order. -/
def Ascending (l : List Nat) : Prop := l.Pairwise (· < ·)

instance (l : List Nat) : Decidable (Ascending l) :=
  inferInstanceAs (Decidable (l.Pairwise (· < ·)))

/-- `slice::partition_point` on a partitioned slice. -/
def partitionPoint (p : Nat → Bool) (l : List Nat) : Nat := (l.takeWhile p).length

/-- One look at a peekable index iterator: `i` is consumed when it comes next. -/
def peekNext (rest : List Nat) (i : Nat) : Bool × List Nat :=
  if rest.head? = some i then (true, rest.tail) else (false, rest)

/-- The indices from `start` on that a sweep past a peekable iterator keeps. -/
def unlisted (start count : Nat) (listed : List Nat) : List Nat :=
  ((List.range' start count).foldl (fun (state : List Nat × List Nat) index =>
    let (found, rest) := peekNext state.1 index
    if found then (rest, state.2) else (rest, state.2 ++ [index])) (listed, [])).2

/-- The indices below `n` that a list leaves out. -/
def complement (n : Nat) (l : List Nat) : List Nat := (List.range n).filter fun i => i ∉ l

theorem Ascending.filter {l : List Nat} (h : Ascending l) (p : Nat → Bool) :
    Ascending (l.filter p) :=
  List.Pairwise.filter p h

theorem Ascending.take {l : List Nat} (h : Ascending l) (n : Nat) : Ascending (l.take n) :=
  List.Pairwise.sublist (List.take_sublist n l) h

/-- What stands before an entry of an ascending list is what is smaller. -/
theorem Ascending.mem_left_iff {before after : List Nat} {t i : Nat}
    (h : Ascending (before ++ t :: after)) (hi : i ∈ before ++ t :: after) :
    i ∈ before ↔ i < t := by
  obtain ⟨-, hafter, hcross⟩ := List.pairwise_append.mp h
  refine ⟨fun hin => hcross i hin t List.mem_cons_self, fun hlt => ?_⟩
  rw [List.mem_append, List.mem_cons] at hi
  rcases hi with hi | rfl | hi
  · exact hi
  · exact absurd hlt (lt_irrefl _)
  · have hgt := (List.pairwise_cons.mp hafter).1 i hi
    omega

theorem Ascending.eq_of_mem_iff {l l' : List Nat} (h : Ascending l) (h' : Ascending l')
    (hmem : ∀ i, i ∈ l ↔ i ∈ l') : l = l' :=
  List.Pairwise.eq_of_mem_iff h h' hmem

theorem ascending_range (n : Nat) : Ascending (List.range n) := List.pairwise_lt_range

theorem ascending_range' (a n : Nat) : Ascending (List.range' a n) := List.pairwise_lt_range'

theorem ascending_complement (n : Nat) (l : List Nat) : Ascending (complement n l) :=
  (ascending_range n).filter _

theorem mem_complement {n i : Nat} {l : List Nat} : i ∈ complement n l ↔ i < n ∧ i ∉ l := by
  simp [complement]

theorem Ascending.complement_complement {l : List Nat} (h : Ascending l) {n : Nat}
    (hlt : ∀ i ∈ l, i < n) : complement n (complement n l) = l := by
  refine (ascending_complement n _).eq_of_mem_iff h (fun i => ?_)
  rw [mem_complement, mem_complement]
  constructor
  · rintro ⟨hi, hnot⟩
    by_contra hil
    exact hnot ⟨hi, hil⟩
  · intro hi
    exact ⟨hlt i hi, fun hc => hc.2 hi⟩

theorem complement_succ_of_mem {l : List Nat} {n : Nat} (h : n ∈ l) :
    complement (n + 1) l = complement n l := by
  refine (ascending_complement _ l).eq_of_mem_iff (ascending_complement n l) (fun i => ?_)
  rw [mem_complement, mem_complement]
  constructor
  · rintro ⟨hi, hnot⟩
    rcases Nat.lt_succ_iff_lt_or_eq.mp hi with hi | rfl
    · exact ⟨hi, hnot⟩
    · exact absurd h hnot
  · rintro ⟨hi, hnot⟩
    exact ⟨Nat.lt_succ_of_lt hi, hnot⟩

theorem Ascending.le_getLast {l : List Nat} (h : Ascending l) {last i : Nat}
    (hlast : l.getLast? = some last) (hi : i ∈ l) : i ≤ last := by
  obtain ⟨front, rfl⟩ := List.getLast?_eq_some_iff.mp hlast
  rcases List.mem_append.mp hi with hi | hi
  · exact ((List.pairwise_append.mp h).2.2 i hi last (by simp)).le
  · exact (List.mem_singleton.mp hi).le

theorem Ascending.getD_lt {l : List Nat} (h : Ascending l) {i j : Nat} (hij : i < j)
    (hj : j < l.length) : l.getD i 0 < l.getD j 0 := by
  rw [List.getD_eq_getElem _ _ (by omega), List.getD_eq_getElem _ _ hj]
  exact List.pairwise_iff_getElem.mp h i j (by omega) hj hij

theorem getD_mem {l : List Nat} {i : Nat} (h : i < l.length) : l.getD i 0 ∈ l := by
  rw [List.getD_eq_getElem _ _ h]
  exact List.getElem_mem h

theorem exists_getD_of_mem {l : List Nat} {a : Nat} (h : a ∈ l) :
    ∃ i, i < l.length ∧ l.getD i 0 = a := by
  obtain ⟨i, hi, rfl⟩ := List.mem_iff_getElem.mp h
  exact ⟨i, hi, List.getD_eq_getElem _ _ hi⟩

theorem Ascending.getD_inj {l : List Nat} (h : Ascending l) {i j : Nat} (hi : i < l.length)
    (hj : j < l.length) (hij : l.getD i 0 = l.getD j 0) : i = j := by
  rcases Nat.lt_trichotomy i j with hlt | rfl | hgt
  · exact absurd hij (h.getD_lt hlt hj).ne
  · rfl
  · exact absurd hij (h.getD_lt hgt hi).ne'

theorem Ascending.idxOf_getD {l : List Nat} (h : Ascending l) {i : Nat} (hi : i < l.length) :
    l.idxOf (l.getD i 0) = i := by
  rw [List.getD_eq_getElem _ _ hi]
  exact h.nodup.idxOf_getElem i hi

/-- In an increasing list the entries below `d` are a prefix. -/
theorem Ascending.takeWhile_lt {l : List Nat} (h : Ascending l) (d : Nat) :
    l.takeWhile (· < d) = l.filter (· < d) ∧ l.dropWhile (· < d) = l.filter (d ≤ ·) := by
  induction l with
  | nil => exact ⟨rfl, rfl⟩
  | cons a l ih =>
    obtain ⟨hhead, htail⟩ := List.pairwise_cons.mp h
    by_cases ha : a < d
    · obtain ⟨h1, h2⟩ := ih htail
      simp only [List.takeWhile_cons, List.dropWhile_cons, List.filter_cons, ha, decide_true,
        if_true, h1, h2, not_le.mpr ha, decide_false, Bool.false_eq_true, if_false, and_self]
    · have hnone : l.filter (· < d) = [] := by
        rw [List.filter_eq_nil_iff]
        intro b hb
        have := hhead b hb
        simp only [decide_eq_true_eq]
        omega
      have hall : l.filter (d ≤ ·) = l := by
        rw [List.filter_eq_self]
        intro b hb
        have := hhead b hb
        simp only [decide_eq_true_eq]
        omega
      simp only [List.takeWhile_cons, List.dropWhile_cons, List.filter_cons, ha, decide_false,
        Bool.false_eq_true, if_false, hnone, hall, not_lt.mp ha, decide_true, if_true, and_self]

theorem Ascending.take_partitionPoint {l : List Nat} (h : Ascending l) (d : Nat) :
    l.take (partitionPoint (· < d) l) = l.filter (· < d) := by
  have hsplit := List.takeWhile_append_dropWhile (p := (· < d)) (l := l)
  rw [← (h.takeWhile_lt d).1, partitionPoint]
  nth_rewrite 2 [← hsplit]
  exact List.take_left

theorem Ascending.drop_partitionPoint {l : List Nat} (h : Ascending l) (d : Nat) :
    l.drop (partitionPoint (· < d) l) = l.filter (d ≤ ·) := by
  have hsplit := List.takeWhile_append_dropWhile (p := (· < d)) (l := l)
  rw [← (h.takeWhile_lt d).2, partitionPoint]
  nth_rewrite 2 [← hsplit]
  exact List.drop_left

theorem Ascending.filter_lt_append_le {l : List Nat} (h : Ascending l) (d : Nat) :
    l.filter (· < d) ++ l.filter (d ≤ ·) = l := by
  rw [← h.take_partitionPoint d, ← h.drop_partitionPoint d, List.take_append_drop]

/-- Peeking at every index in turn finds exactly the members: the iterator has
consumed what lies below the index. -/
theorem Ascending.peekNext_eq {l : List Nat} (h : Ascending l) (i : Nat) :
    peekNext (l.filter (i ≤ ·)) i = (decide (i ∈ l), l.filter (i + 1 ≤ ·)) := by
  induction l with
  | nil => rfl
  | cons a l ih =>
    obtain ⟨hhead, htail⟩ := List.pairwise_cons.mp h
    have hne (b : Nat) (hb : b ∈ l) (hai : i ≤ a) : i + 1 ≤ b := by
      have := hhead b hb
      omega
    rcases Nat.lt_trichotomy a i with hlt | rfl | hgt
    · have h1 : ¬i ≤ a := by omega
      have h2 : ¬i + 1 ≤ a := by omega
      have h3 : (i ∈ a :: l) ↔ i ∈ l := by simp [List.mem_cons, hlt.ne']
      simp only [List.filter_cons, h1, h2, h3, decide_false, Bool.false_eq_true, if_false]
      exact ih htail
    · have hall : l.filter (a < ·) = l :=
        List.filter_eq_self.mpr (fun b hb => decide_eq_true (hne b hb le_rfl))
      have hall' : l.filter (a ≤ ·) = l :=
        List.filter_eq_self.mpr (fun b hb => decide_eq_true (Nat.le_of_succ_le (hne b hb le_rfl)))
      simp [peekNext, hall, hall']
    · have hall : l.filter (i < ·) = l :=
        List.filter_eq_self.mpr (fun b hb => decide_eq_true (hne b hb hgt.le))
      have hall' : l.filter (i ≤ ·) = l :=
        List.filter_eq_self.mpr
          (fun b hb => decide_eq_true (Nat.le_of_succ_le (hne b hb hgt.le)))
      have hnot : i ∉ a :: l := by
        intro hmem
        rcases List.mem_cons.mp hmem with rfl | hmem
        · exact lt_irrefl _ hgt
        · have := hhead i hmem
          omega
      simp [peekNext, hall, hall', hnot, hgt.le, hgt, hgt.ne']

theorem Ascending.unlisted_eq {l : List Nat} (h : Ascending l) (start count : Nat) :
    unlisted start count (l.filter (start ≤ ·)) =
      (List.range' start count).filter fun i => i ∉ l := by
  let P : Nat → List Nat × List Nat → Prop := fun i state => state.1 = l.filter (i ≤ ·) ∧
    state.2 = (List.range' start (i - start)).filter fun i => i ∉ l
  have hP : P (start + count) ((List.range' start count).foldl
      (fun (state : List Nat × List Nat) index =>
        let (found, rest) := peekNext state.1 index
        if found then (rest, state.2) else (rest, state.2 ++ [index]))
      (l.filter (start ≤ ·), [])) := by
    refine foldl_range'_inv P _ start count _ ⟨rfl, by simp⟩ ?_
    rintro i hi - ⟨rest, kept⟩ ⟨hrest, hkept⟩
    simp only at hrest hkept
    have hnext : List.range' start (i + 1 - start) = List.range' start (i - start) ++ [i] := by
      rw [Nat.sub_add_comm hi, List.range'_concat, Nat.one_mul, Nat.add_sub_of_le hi]
    simp only [hrest, h.peekNext_eq i]
    by_cases hil : i ∈ l
    · refine ⟨by simp [hil], ?_⟩
      simp [hil, hnext, hkept]
    · refine ⟨by simp [hil], ?_⟩
      simp [hil, hnext, hkept]
  rw [unlisted, hP.2, Nat.add_sub_cancel_left]

/-- The complement has the remaining size. -/
theorem Ascending.length_complement {l : List Nat} (h : Ascending l) {n : Nat}
    (hlt : ∀ i ∈ l, i < n) : (complement n l).length + l.length = n := by
  have hin : (List.range n).filter (fun i => decide (i ∈ l)) = l :=
    ((ascending_range n).filter _).eq_of_mem_iff h (fun i => by
      simp only [List.mem_filter, List.mem_range, decide_eq_true_eq, and_iff_right_iff_imp]
      exact hlt i)
  have hsplit := List.length_eq_length_filter_add (l := List.range n) (fun i => decide (i ∈ l))
  rw [hin, List.length_range] at hsplit
  have hnot : (List.range n).filter (fun i => !decide (i ∈ l)) = complement n l := by
    simp [complement]
  rw [hnot] at hsplit
  omega

theorem Ascending.le_getD {l : List Nat} (h : Ascending l) {i : Nat} (hi : i < l.length) :
    i ≤ l.getD i 0 := by
  induction i with
  | zero => exact Nat.zero_le _
  | succ i ih =>
    have h1 := ih (by omega)
    have h2 : l.getD i 0 < l.getD (i + 1) 0 := h.getD_lt (Nat.lt_succ_self i) hi
    omega

/-- The first position an increasing list disagrees with is an index it leaves out. -/
theorem Ascending.firstGap_spec {l : List Nat} (h : Ascending l) :
    ((List.range l.length).find? fun i => i ≠ l.getD i 0).getD l.length ≤ l.length ∧
      ((List.range l.length).find? fun i => i ≠ l.getD i 0).getD l.length ∉ l := by
  cases hfind : (List.range l.length).find? fun i => i ≠ l.getD i 0 with
  | none =>
    refine ⟨le_rfl, fun hmem => ?_⟩
    obtain ⟨j, hj, hjl⟩ := exists_getD_of_mem hmem
    have hfix := List.find?_eq_none.mp hfind j (List.mem_range.mpr hj)
    simp only [ne_eq, decide_not, Bool.not_eq_eq_eq_not, Bool.not_true, decide_eq_false_iff_not,
      not_not] at hfix
    simp only [Option.getD_none] at hjl
    omega
  | some i =>
    obtain ⟨hne, hi, hbefore⟩ := List.find?_range_eq_some.mp hfind
    simp only [ne_eq, decide_not, Bool.not_eq_eq_eq_not, Bool.not_true,
      decide_eq_false_iff_not] at hne
    rw [List.mem_range] at hi
    refine ⟨hi.le, fun hmem => ?_⟩
    obtain ⟨j, hj, hjl⟩ := exists_getD_of_mem hmem
    simp only [Option.getD_some] at hjl
    rcases Nat.lt_trichotomy j i with hlt | rfl | hgt
    · have hfix := hbefore j hlt
      simp only [ne_eq, decide_not, Bool.not_not, decide_eq_true_eq] at hfix
      omega
    · exact hne hjl.symm
    · have h1 := h.getD_lt hgt hj
      have h2 := h.le_getD hi
      omega

/-- A prefix of an increasing list is closed below. -/
theorem Ascending.mem_take_of_lt {l : List Nat} (h : Ascending l) {n i j : Nat}
    (hj : j ∈ l.take n) (hi : i ∈ l) (hij : i < j) : i ∈ l.take n := by
  have hsplit : (l.take n ++ l.drop n).Pairwise (· < ·) := by
    rw [List.take_append_drop]
    exact h
  obtain ⟨-, -, hcross⟩ := List.pairwise_append.mp hsplit
  rw [← List.take_append_drop n l, List.mem_append] at hi
  refine hi.resolve_right (fun hdrop => ?_)
  have := hcross j hj i hdrop
  omega

/-- Past the last of the first `n` entries come the others. -/
theorem Ascending.filter_after_take {l : List Nat} (h : Ascending l) {n last : Nat}
    (hlast : (l.take n).getLast? = some last) : l.filter (last + 1 ≤ ·) = l.drop n := by
  have hsplit : (l.take n ++ l.drop n).Pairwise (· < ·) := by
    rw [List.take_append_drop]
    exact h
  obtain ⟨-, -, hcross⟩ := List.pairwise_append.mp hsplit
  have hmem : last ∈ l.take n := List.mem_of_getLast? hlast
  conv_lhs => rw [← List.take_append_drop n l]
  rw [List.filter_append, List.filter_eq_nil_iff.mpr, List.filter_eq_self.mpr, List.nil_append]
  · intro i hi
    exact decide_eq_true (hcross last hmem i hi)
  · intro i hi
    have := (h.take n).le_getLast hlast hi
    simp only [decide_eq_true_eq]
    omega

theorem filter_of_forall_lt {l : List Nat} {n : Nat} (h : ∀ i ∈ l, i < n) :
    l.filter (n ≤ ·) = [] ∧ l.filter (· < n) = l := by
  refine ⟨List.filter_eq_nil_iff.mpr (fun i hi => ?_), List.filter_eq_self.mpr (fun i hi => ?_)⟩
  · simpa using h i hi
  · exact decide_eq_true (h i hi)

theorem filter_le_of_notMem {l : List Nat} {i : Nat} (h : i ∉ l) :
    l.filter (i ≤ ·) = l.filter (i + 1 ≤ ·) := by
  refine List.filter_congr (fun j hj => ?_)
  have hne : i ≠ j := by
    rintro rfl
    exact h hj
  exact decide_eq_decide.mpr ⟨fun hle => by omega, fun hle => by omega⟩

theorem filter_lt_of_notMem {l : List Nat} {i : Nat} (h : i ∉ l) :
    l.filter (· < i + 1) = l.filter (· < i) := by
  refine List.filter_congr (fun j hj => ?_)
  have hne : i ≠ j := by
    rintro rfl
    exact h hj
  exact decide_eq_decide.mpr ⟨fun hlt => by omega, fun hlt => by omega⟩

theorem Ascending.filter_lt_of_mem {l : List Nat} (h : Ascending l) {i : Nat} (hi : i ∈ l) :
    l.filter (· < i + 1) = l.filter (· < i) ++ [i] := by
  refine (h.filter _).eq_of_mem_iff ?_ (fun j => ?_)
  · refine List.pairwise_append.mpr ⟨h.filter _, List.pairwise_singleton _ _, fun a ha b hb => ?_⟩
    rw [List.mem_singleton.mp hb]
    simpa using (List.mem_filter.mp ha).2
  · simp only [List.mem_filter, List.mem_append, List.mem_singleton, decide_eq_true_eq]
    constructor
    · rintro ⟨hj, hlt⟩
      rcases Nat.lt_or_ge j i with hlt' | hge
      · exact .inl ⟨hj, hlt'⟩
      · exact .inr (by omega)
    · rintro (⟨hj, hlt⟩ | rfl)
      · exact ⟨hj, by omega⟩
      · exact ⟨hi, by omega⟩

/-- The rank of an index is its position. -/
theorem Ascending.getD_rank {l : List Nat} (h : Ascending l) {i : Nat} (hi : i ∈ l) :
    (l.filter (· < i)).length < l.length ∧ l.getD (l.filter (· < i)).length 0 = i := by
  induction l with
  | nil => exact absurd hi List.not_mem_nil
  | cons a l ih =>
    obtain ⟨hhead, htail⟩ := List.pairwise_cons.mp h
    rcases List.mem_cons.mp hi with rfl | hil
    · have hnone : l.filter (· < i) = [] := by
        rw [List.filter_eq_nil_iff]
        intro b hb
        have := hhead b hb
        simp only [decide_eq_true_eq]
        omega
      rw [List.filter_cons, if_neg (by simp), hnone]
      exact ⟨by simp, rfl⟩
    · obtain ⟨h1, h2⟩ := ih htail hil
      rw [List.filter_cons, if_pos (by simpa using hhead i hil), List.length_cons, List.length_cons,
        List.getD_cons_succ]
      exact ⟨by omega, h2⟩

/-- Whether the last listed index up to `i` is `i` itself. -/
theorem Ascending.last_eq_iff_mem {l : List Nat} (h : Ascending l) {i : Nat} :
    ((l.filter (· < i + 1)).length ≠ 0 ∧ l.getD ((l.filter (· < i + 1)).length - 1) 0 = i) ↔
      i ∈ l := by
  constructor
  · rintro ⟨hpos, hlast⟩
    have hle := List.length_filter_le (· < i + 1) l
    rw [← hlast]
    exact getD_mem (by omega)
  · intro hi
    rw [h.filter_lt_of_mem hi, List.length_append, List.length_singleton]
    exact ⟨by omega, (h.getD_rank hi).2⟩

section Sums

variable {M : Type*} [AddCommMonoid M]

theorem sum_map_eq_getD (l : List Nat) (f : Nat → M) :
    (l.map f).sum = ∑ j ∈ Finset.range l.length, f (l.getD j 0) := by
  induction l with
  | nil => simp
  | cons a l ih =>
    rw [List.map_cons, List.sum_cons, ih, List.length_cons, Finset.sum_range_succ', add_comm]
    simp only [List.getD_cons_succ, List.getD_cons_zero]

/-- A sum over all indices splits into the listed ones and the others. -/
theorem Ascending.sum_split {l : List Nat} (h : Ascending l) {n : Nat} (hlt : ∀ i ∈ l, i < n)
    (f : Nat → M) :
    ∑ i ∈ Finset.range n, f i = ∑ j ∈ Finset.range l.length, f (l.getD j 0) +
      ∑ j ∈ Finset.range (complement n l).length, f ((complement n l).getD j 0) := by
  have hperm : (List.range n).Perm (l ++ complement n l) := by
    rw [List.perm_ext_iff_of_nodup List.nodup_range]
    · intro i
      rw [List.mem_range, List.mem_append, mem_complement]
      constructor
      · intro hi
        by_cases hl : i ∈ l
        · exact .inl hl
        · exact .inr ⟨hi, hl⟩
      · rintro (hi | hi)
        · exact hlt i hi
        · exact hi.1
    · refine List.nodup_append.mpr ⟨h.nodup, (ascending_complement n l).nodup, ?_⟩
      rintro a ha b hb rfl
      exact (mem_complement.mp hb).2 ha
  rw [← sum_map_eq_getD, ← sum_map_eq_getD, ← List.sum_append, ← List.map_append,
    ← (hperm.map f).sum_eq]
  rfl

end Sums

end ErasureCodec
