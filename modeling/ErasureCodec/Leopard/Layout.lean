import ErasureCodec.Math.Slices

namespace ErasureCodec

namespace Leopard

/-- How a family lays out its elements in the bytes of a shard: blocks of 64
bytes are converted on their own. -/
structure Layout (w : Nat) where
  /-- Bytes of an element. -/
  unit : Nat
  toWork : List (BitVec 8) → List (BitVec w)
  toUser : List (BitVec w) → List (BitVec 8)
  unit_pos : 0 < unit
  unit_dvd : unit ∣ 64
  length_toWork : ∀ user, 64 ∣ user.length → (toWork user).length = user.length / unit
  length_toUser : ∀ work, 64 ∣ work.length * unit → (toUser work).length = work.length * unit
  toWork_slice : ∀ user start stop, 64 ∣ user.length → 64 ∣ start * unit → 64 ∣ stop * unit →
    start ≤ stop → stop * unit ≤ user.length →
    toWork (slice user (start * unit) (stop * unit)) = slice (toWork user) start stop
  toWork_overwrite : ∀ user work start, 64 ∣ user.length → 64 ∣ start * unit →
    64 ∣ work.length * unit → (start + work.length) * unit ≤ user.length →
    toWork (overwrite (start * unit) (toUser work) user) = overwrite start work (toWork user)
  toWork_inj : ∀ a b, 64 ∣ a.length → a.length = b.length → toWork a = toWork b → a = b

/-- Bytes are elements. -/
def gf8Layout : Layout 8 where
  unit := 1
  toWork user := user
  toUser work := work
  unit_pos := by decide
  unit_dvd := by decide
  length_toWork user _ := (Nat.div_one _).symm
  length_toUser work _ := (Nat.mul_one _).symm
  toWork_slice user start stop _ _ _ _ _ := by rw [Nat.mul_one, Nat.mul_one]
  toWork_overwrite user work start _ _ _ _ := by rw [Nat.mul_one]
  toWork_inj a b _ _ h := h

section SplitBytes

/-- `user_bytes_to_work_u16_into`: element `i` of a block has its low byte at
`i` and its high byte at `i + 32`. -/
def userBytesToWorkU16 (user : List (BitVec 8)) : List (BitVec 16) :=
  (List.range (user.length / 2)).map fun j =>
    user.getD (64 * (j / 32) + j % 32 + 32) 0#8 ++ user.getD (64 * (j / 32) + j % 32) 0#8

/-- `work_u16_to_user_bytes`. -/
def workU16ToUserBytes (work : List (BitVec 16)) : List (BitVec 8) :=
  (List.range (work.length * 2)).map fun b =>
    let value := work.getD (b / 64 * 32 + b % 32) 0#16
    if b % 64 < 32 then value.extractLsb' 0 8 else value.extractLsb' 8 8

theorem getD_userBytesToWorkU16 {user : List (BitVec 8)} {j : Nat} (hj : j < user.length / 2) :
    (userBytesToWorkU16 user).getD j 0#16 =
      user.getD (64 * (j / 32) + j % 32 + 32) 0#8 ++ user.getD (64 * (j / 32) + j % 32) 0#8 :=
  getD_map_range _ _ _ hj _

theorem length_userBytesToWorkU16 (user : List (BitVec 8)) :
    (userBytesToWorkU16 user).length = user.length / 2 := by
  simp [userBytesToWorkU16]

theorem getD_workU16ToUserBytes {work : List (BitVec 16)} {b : Nat} (hb : b < work.length * 2) :
    (workU16ToUserBytes work).getD b 0#8 =
      if b % 64 < 32 then (work.getD (b / 64 * 32 + b % 32) 0#16).extractLsb' 0 8
      else (work.getD (b / 64 * 32 + b % 32) 0#16).extractLsb' 8 8 :=
  getD_map_range _ _ _ hb _

theorem length_workU16ToUserBytes (work : List (BitVec 16)) :
    (workU16ToUserBytes work).length = work.length * 2 := by
  simp [workU16ToUserBytes]

theorem userBytesToWorkU16_slice {user : List (BitVec 8)} {start stop : Nat}
    (hs : 64 ∣ start * 2) (ht : 64 ∣ stop * 2) (hle : start ≤ stop)
    (hend : stop * 2 ≤ user.length) :
    userBytesToWorkU16 (slice user (start * 2) (stop * 2)) =
      slice (userBytesToWorkU16 user) start stop := by
  have hlen := length_slice user (start * 2) (stop * 2) hend
  have hlen' := length_slice (userBytesToWorkU16 user) start stop
    (by rw [length_userBytesToWorkU16]; omega)
  apply getD_ext 0#16
  · rw [length_userBytesToWorkU16, hlen, hlen']
    omega
  · intro j hj
    rw [length_userBytesToWorkU16, hlen] at hj
    obtain ⟨t, ht'⟩ : ∃ t, start = 32 * t := ⟨start / 32, by omega⟩
    rw [getD_userBytesToWorkU16 (by rw [hlen]; omega), getD_slice _ _ _ _ (by omega),
      getD_slice _ _ _ _ (by omega), getD_slice _ _ _ _ (by omega),
      getD_userBytesToWorkU16 (by omega),
      show 64 * ((start + j) / 32) + (start + j) % 32 = start * 2 + (64 * (j / 32) + j % 32) by omega,
      Nat.add_assoc (start * 2)]

theorem userBytesToWorkU16_overwrite {user : List (BitVec 8)} {work : List (BitVec 16)}
    {start : Nat} (hs : 64 ∣ start * 2) (hl : 64 ∣ work.length * 2)
    (hend : (start + work.length) * 2 ≤ user.length) :
    userBytesToWorkU16 (overwrite (start * 2) (workU16ToUserBytes work) user) =
      overwrite start work (userBytesToWorkU16 user) := by
  apply getD_ext 0#16
  · simp [length_userBytesToWorkU16]
  · intro j hj
    rw [length_userBytesToWorkU16, length_overwrite] at hj
    obtain ⟨t, ht'⟩ : ∃ t, start = 32 * t := ⟨start / 32, by omega⟩
    obtain ⟨n, hn⟩ : ∃ n, work.length = 32 * n := ⟨work.length / 32, by omega⟩
    have hdiv := Nat.div_add_mod j 32
    have hmod := Nat.mod_lt j (show 0 < 32 by decide)
    rw [getD_userBytesToWorkU16 (by rw [length_overwrite]; exact hj), getD_overwrite,
      getD_overwrite, getD_overwrite, length_workU16ToUserBytes, length_userBytesToWorkU16]
    by_cases hin : start ≤ j ∧ j < start + work.length
    · -- both bytes lie in the window and come from one element
      rw [if_pos (by omega), if_pos (by omega), if_pos (by omega),
        getD_workU16ToUserBytes (by omega), getD_workU16ToUserBytes (by omega)]
      have e1 : (64 * (j / 32) + j % 32 + 32 - start * 2) % 64 = j % 32 + 32 := by omega
      have e2 : (64 * (j / 32) + j % 32 - start * 2) % 64 = j % 32 := by omega
      have e3 : (64 * (j / 32) + j % 32 + 32 - start * 2) / 64 * 32 +
          (64 * (j / 32) + j % 32 + 32 - start * 2) % 32 = j - start := by omega
      have e4 : (64 * (j / 32) + j % 32 - start * 2) / 64 * 32 +
          (64 * (j / 32) + j % 32 - start * 2) % 32 = j - start := by omega
      rw [e1, e2, e3, e4, if_neg (by omega), if_pos (by omega)]
      apply BitVec.eq_of_getLsbD_eq
      intro i hi
      rw [BitVec.getLsbD_append]
      by_cases h8 : i < 8
      · simp [h8]
      · simp [h8, show i - 8 < 8 by omega, show 8 + (i - 8) = i by omega]
    · rw [if_neg (by omega), if_neg (by omega), if_neg (by omega), getD_userBytesToWorkU16 hj]

theorem userBytesToWorkU16_inj {a b : List (BitVec 8)} (h64 : 64 ∣ a.length)
    (hl : a.length = b.length) (h : userBytesToWorkU16 a = userBytesToWorkU16 b) : a = b := by
  have hpair {x y x' y' : BitVec 8} (heq : x ++ y = x' ++ y') : x = x' ∧ y = y' := by
    have hx := congrArg (fun v : BitVec (8 + 8) => v.extractLsb' 8 8) heq
    have hy := congrArg (fun v : BitVec (8 + 8) => v.extractLsb' 0 8) heq
    simp only [BitVec.extractLsb'_append_eq_left, BitVec.extractLsb'_append_eq_right] at hx hy
    exact ⟨hx, hy⟩
  apply getD_ext 0#8 hl
  intro i hi
  have hj : i / 64 * 32 + i % 32 < a.length / 2 := by omega
  have hat := congrArg (fun l => l.getD (i / 64 * 32 + i % 32) 0#16) h
  rw [getD_userBytesToWorkU16 hj, getD_userBytesToWorkU16 (by omega)] at hat
  obtain ⟨hhi, hlo⟩ := hpair hat
  by_cases hlow : i % 64 < 32
  · rwa [show 64 * ((i / 64 * 32 + i % 32) / 32) + (i / 64 * 32 + i % 32) % 32 = i by omega] at hlo
  · rwa [show 64 * ((i / 64 * 32 + i % 32) / 32) + (i / 64 * 32 + i % 32) % 32 + 32 = i by omega]
      at hhi

end SplitBytes

def gf16Layout : Layout 16 where
  unit := 2
  toWork := userBytesToWorkU16
  toUser := workU16ToUserBytes
  unit_pos := by decide
  unit_dvd := by decide
  length_toWork user _ := length_userBytesToWorkU16 user
  length_toUser work _ := length_workU16ToUserBytes work
  toWork_slice _ _ _ _ hs ht hle hend := userBytesToWorkU16_slice hs ht hle hend
  toWork_overwrite _ _ _ _ hs hl hend := userBytesToWorkU16_overwrite hs hl hend
  toWork_inj _ _ h64 hl h := userBytesToWorkU16_inj h64 hl h

end Leopard

end ErasureCodec
