import ErasureCodec.Math.Slices

namespace ErasureCodec

/-- How a value is stored in two bytes. -/
structure PairCode (α : Type) where
  first : α → BitVec 8
  second : α → BitVec 8
  make : BitVec 8 → BitVec 8 → α
  zero : α
  make_eq : ∀ a, make (first a) (second a) = a
  first_make : ∀ x y, first (make x y) = x
  second_make : ∀ x y, second (make x y) = y
  first_zero : first zero = 0#8
  second_zero : second zero = 0#8

namespace PairCode

variable {α : Type} (P : PairCode α)

/-- The bytes of some values, one value behind the other. -/
def flatten (xs : List α) : List (BitVec 8) :=
  (List.range (2 * xs.length)).map fun p =>
    if p % 2 = 0 then P.first (xs.getD (p / 2) P.zero) else P.second (xs.getD (p / 2) P.zero)

/-- The values that lie behind a byte view. -/
def unflatten (bytes : List (BitVec 8)) : List α :=
  (List.range (bytes.length / 2)).map fun i =>
    P.make (bytes.getD (2 * i) 0#8) (bytes.getD (2 * i + 1) 0#8)

@[simp] theorem length_flatten (xs : List α) : (P.flatten xs).length = 2 * xs.length := by
  rw [flatten, List.length_map, List.length_range]

@[simp] theorem length_unflatten (bytes : List (BitVec 8)) :
    (P.unflatten bytes).length = bytes.length / 2 := by
  rw [unflatten, List.length_map, List.length_range]

theorem getD_flatten (xs : List α) (p : Nat) : (P.flatten xs).getD p 0#8 =
    if p % 2 = 0 then P.first (xs.getD (p / 2) P.zero) else P.second (xs.getD (p / 2) P.zero) := by
  by_cases hp : p < 2 * xs.length
  · exact getD_map_range _ _ _ hp _
  · rw [List.getD_eq_default _ _ (by rw [length_flatten]; omega),
      List.getD_eq_default _ _ (by omega : xs.length ≤ p / 2), P.first_zero, P.second_zero, ite_self]

theorem getD_flatten_even (xs : List α) (i : Nat) :
    (P.flatten xs).getD (2 * i) 0#8 = P.first (xs.getD i P.zero) := by
  rw [getD_flatten, if_pos (by omega), show 2 * i / 2 = i by omega]

theorem getD_flatten_odd (xs : List α) (i : Nat) :
    (P.flatten xs).getD (2 * i + 1) 0#8 = P.second (xs.getD i P.zero) := by
  rw [getD_flatten, if_neg (by omega), show (2 * i + 1) / 2 = i by omega]

theorem getD_unflatten {bytes : List (BitVec 8)} {i : Nat} (hi : i < bytes.length / 2) :
    (P.unflatten bytes).getD i P.zero =
      P.make (bytes.getD (2 * i) 0#8) (bytes.getD (2 * i + 1) 0#8) := getD_map_range _ _ _ hi _

/-- A byte view determines its values. -/
theorem unflatten_eq {bytes : List (BitVec 8)} {xs : List α} (hlen : bytes.length = 2 * xs.length)
    (h : ∀ p, p < bytes.length → bytes.getD p 0#8 = (P.flatten xs).getD p 0#8) :
    P.unflatten bytes = xs := by
  apply getD_ext P.zero
  · rw [length_unflatten, hlen]
    omega
  · intro i hi
    rw [length_unflatten] at hi
    rw [getD_unflatten P hi, h _ (by omega), h _ (by omega), getD_flatten_even, getD_flatten_odd,
      P.make_eq]

@[simp] theorem unflatten_flatten (xs : List α) : P.unflatten (P.flatten xs) = xs :=
  P.unflatten_eq (P.length_flatten xs) (fun _ _ => rfl)

end PairCode

end ErasureCodec
