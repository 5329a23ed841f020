import ErasureCodec.Math.Rounding
import ErasureCodec.Math.Slices

namespace ErasureCodec

variable {α : Type*}

/-- Consecutive non-empty windows from `a` to the last position. -/
inductive Tiles : Nat → List (Nat × Nat) → Nat → Prop where
  | nil (a : Nat) : Tiles a [] a
  | cons {a b c : Nat} {ws : List (Nat × Nat)} (hab : a < b) (hws : Tiles b ws c) :
      Tiles a ((a, b) :: ws) c

namespace Tiles

theorem le {a b : Nat} {ws : List (Nat × Nat)} (h : Tiles a ws b) : a ≤ b := by
  induction h with
  | nil => exact le_rfl
  | cons hab _ ih => omega

theorem append {a b c : Nat} {ws ws' : List (Nat × Nat)} (h : Tiles a ws b)
    (h' : Tiles b ws' c) : Tiles a (ws ++ ws') c := by
  induction h with
  | nil => exact h'
  | cons hab _ ih => exact .cons hab (ih h')

/-- The same windows further on. -/
theorem shift {a b : Nat} {ws : List (Nat × Nat)} (h : Tiles a ws b) (d : Nat) :
    Tiles (d + a) (ws.map fun w => (d + w.1, d + w.2)) (d + b) := by
  induction h with
  | nil => exact .nil _
  | cons hab _ ih => exact .cons (by omega) ih

/-- Every window is split into windows of its own. -/
theorem flatMap {a b : Nat} {ws : List (Nat × Nat)} (h : Tiles a ws b)
    {f : Nat × Nat → List (Nat × Nat)} (hf : ∀ w ∈ ws, Tiles w.1 (f w) w.2) :
    Tiles a (ws.flatMap f) b := by
  induction h with
  | nil => exact .nil _
  | cons hab _ ih =>
    rw [List.flatMap_cons]
    exact (hf _ List.mem_cons_self).append (ih fun w hw => hf w (List.mem_cons_of_mem _ hw))

/-- A position between the ends lies in exactly one window. -/
theorem countP_eq {a b : Nat} {ws : List (Nat × Nat)} (h : Tiles a ws b) (x : Nat) :
    (ws.countP fun w => w.1 ≤ x ∧ x < w.2) = if a ≤ x ∧ x < b then 1 else 0 := by
  induction h with
  | nil =>
    rw [List.countP_nil, if_neg]
    omega
  | cons hab hws ih =>
    have hle := hws.le
    rw [List.countP_cons, ih]
    simp only [decide_eq_true_eq]
    split_ifs <;> omega

/-- The positions of the windows, in their order. -/
theorem flatMap_range' {a b : Nat} {ws : List (Nat × Nat)} (h : Tiles a ws b) :
    (ws.flatMap fun w => List.range' w.1 (w.2 - w.1)) = List.range' a (b - a) := by
  induction h with
  | nil => simp
  | @cons a b c ws hab hws ih =>
    have hle := hws.le
    have hsplit := List.range'_append_1 (s := a) (m := b - a) (n := c - b)
    rw [show a + (b - a) = b by omega, show b - a + (c - b) = c - a by omega] at hsplit
    rw [List.flatMap_cons, ih, hsplit]

/-- The slices of the windows, put together. -/
theorem flatMap_slice {a b : Nat} {ws : List (Nat × Nat)} (h : Tiles a ws b) (l : List α) :
    (ws.flatMap fun w => slice l w.1 w.2) = slice l a b := by
  induction h with
  | nil => simp [slice]
  | @cons a b c ws hab hws ih =>
    have hle := hws.le
    rw [List.flatMap_cons, ih]
    unfold slice
    have hsplit := List.take_add (l := l.drop a) (i := b - a) (j := c - b)
    rw [List.drop_drop, show a + (b - a) = b by omega, show b - a + (c - b) = c - a by omega]
      at hsplit
    exact hsplit.symm

end Tiles

/-- The windows of `chunks` tile the slice. -/
theorem tiles_chunkRanges (len : Nat) {size : Nat} (hs : 0 < size) :
    Tiles 0 (chunkRanges len size) len := by
  have hbound (k : Nat) (hk : k < (len + size - 1) / size) : k * size < len := by
    have h := (Nat.lt_div_iff_mul_lt hs).mp hk
    omega
  have hscanned (k : Nat) (hk : k ≤ (len + size - 1) / size) : Tiles 0
      ((List.range k).map fun k => (k * size, min ((k + 1) * size) len)) (min (k * size) len) := by
    induction k with
    | zero =>
      rw [Nat.zero_mul, Nat.zero_min]
      exact .nil 0
    | succ k ih =>
      have hlt := hbound k hk
      have hmul : (k + 1) * size = k * size + size := Nat.succ_mul k size
      have hprev := ih (by omega)
      rw [min_eq_left hlt.le] at hprev
      rw [List.range_succ, List.map_append]
      exact hprev.append (.cons (by omega) (.nil _))
  have hend : len ≤ (len + size - 1) / size * size := le_roundUp len hs
  have hall := hscanned _ le_rfl
  rwa [min_eq_right hend] at hall

theorem length_chunkRanges (len size : Nat) :
    (chunkRanges len size).length = (len + size - 1) / size := by
  simp [chunkRanges]

/-- A loop over enumerated chunks, where the body reads the index as an offset. -/
theorem mapIdx_chunkRanges {β : Type*} (len size : Nat) {f : Nat → Nat × Nat → β}
    {g : Nat × Nat → β} (h : ∀ k stop, f k (k * size, stop) = g (k * size, stop)) :
    (chunkRanges len size).mapIdx f = (chunkRanges len size).map g := by
  apply List.ext_getElem (by simp)
  intro i h1 h2
  simp [chunkRanges, h]

end ErasureCodec
