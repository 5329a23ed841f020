import ErasureCodec.Framework.PairBytes
import ErasureCodec.Framework.Registers

namespace ErasureCodec

namespace Reg

section Words

def lowByte (v : BitVec 16) : BitVec 8 := byteOf v 0

def highByte (v : BitVec 16) : BitVec 8 := byteOf v 1

theorem highByte_append_lowByte (v : BitVec 16) : highByte v ++ lowByte v = v :=
  byteOf_append_byteOf v

@[simp] theorem lowByte_append (h l : BitVec 8) : lowByte (h ++ l) = l := byteOf_zero_append h l

@[simp] theorem highByte_append (h l : BitVec 8) : highByte (h ++ l) = h := byteOf_one_append h l

/-- Words of a little-endian target. -/
def wordCode : PairCode (BitVec 16) where
  first := lowByte
  second := highByte
  make l h := h ++ l
  zero := 0#16
  make_eq := highByte_append_lowByte
  first_make _ _ := lowByte_append _ _
  second_make _ _ := highByte_append _ _
  first_zero := by decide
  second_zero := by decide

theorem xorLinear_lowByte : XorLinear lowByte := xorLinear_byteOf 0

theorem xorLinear_highByte : XorLinear highByte := xorLinear_byteOf 1

end Words

section Words

variable {a b : Reg} {i j : Nat}

theorem word_congr (h : ∀ i, i / 2 = j → a.byte i = b.byte i) : a.word j = b.word j := by
  rw [word, word, h (2 * j) (by omega), h (2 * j + 1) (by omega)]

@[simp] theorem word_xorSi : (xorSi a b).word j = a.word j ^^^ b.word j := by
  apply BitVec.eq_of_getLsbD_eq
  intro k hk
  rw [BitVec.getLsbD_xor, getLsbD_word _ hk, getLsbD_word _ hk, getLsbD_word _ hk, byte_xorSi,
    BitVec.getLsbD_xor]

/-- An operation on the words of a register. -/
def mapWords (f : BitVec 16 → BitVec 16) (a : Reg) : Reg :=
  ⟨fun i => byteOf (f (a.word (i / 2))) (i % 2)⟩

theorem byte_mapWords (f : BitVec 16 → BitVec 16) (a : Reg) (i : Nat) :
    (mapWords f a).byte i =
      if i % 2 = 0 then lowByte (f (a.word (i / 2))) else highByte (f (a.word (i / 2))) := by
  rcases Nat.mod_two_eq_zero_or_one i with h | h
  · simp [mapWords, lowByte, h]
  · simp [mapWords, highByte, h]

@[simp] theorem word_mapWords (f : BitVec 16 → BitVec 16) : (mapWords f a).word j = f (a.word j) := by
  rw [word, byte_mapWords, byte_mapWords, if_neg (by omega), if_pos (by omega),
    show (2 * j + 1) / 2 = j by omega, show 2 * j / 2 = j by omega, highByte_append_lowByte]

/-- What is stored for a product word. -/
def mergeWord (accumulate : Bool) (value old : BitVec 16) : BitVec 16 :=
  if accumulate then old ^^^ value else value

@[simp] theorem word_mergeReg (accumulate : Bool) :
    (mergeReg accumulate a b).word j = mergeWord accumulate (a.word j) (b.word j) := by
  cases accumulate
  · rfl
  · exact word_xorSi.trans (BitVec.xor_comm _ _)

theorem word_concat {width m : Nat} (h : width = 2 * m) (a b : Reg) :
    (concat width a b).word j = if j < m then a.word j else b.word (j - m) := by
  rw [word, byte_concat, byte_concat]
  by_cases hj : j < m
  · rw [if_pos (by omega), if_pos (by omega), if_pos hj, word]
  · rw [if_neg (by omega), if_neg (by omega), if_neg hj, word,
      show 2 * j + 1 - width = 2 * (j - m) + 1 by omega,
      show 2 * j - width = 2 * (j - m) by omega]

end Words

section Buffers

/-- The word at position `p` of a byte buffer. -/
def wordAt (bytes : List (BitVec 8)) (p : Nat) : BitVec 16 :=
  bytes.getD (2 * p + 1) 0#8 ++ bytes.getD (2 * p) 0#8

@[simp] theorem wordAt_flatten (xs : List (BitVec 16)) (p : Nat) :
    wordAt (wordCode.flatten xs) p = xs.getD p 0#16 := by
  rw [wordAt, wordCode.getD_flatten_even, wordCode.getD_flatten_odd]
  exact highByte_append_lowByte _

theorem getD_unflatten_words {bytes : List (BitVec 8)} {i : Nat} (hi : i < bytes.length / 2) :
    (wordCode.unflatten bytes).getD i 0#16 = wordAt bytes i := wordCode.getD_unflatten hi

theorem word_loadu (bytes : List (BitVec 8)) {off w : Nat} (h : off = 2 * w) (j : Nat) :
    (loadu bytes off).word j = wordAt bytes (w + j) := by
  rw [word, byte_loadu, byte_loadu, wordAt, show off + (2 * j + 1) = 2 * (w + j) + 1 by omega,
    show off + 2 * j = 2 * (w + j) by omega]

theorem wordAt_storeu {width off m w : Nat} (hwidth : width = 2 * m) (hoff : off = 2 * w) (v : Reg)
    {dst : List (BitVec 8)} {p : Nat} (hp : 2 * p + 1 < dst.length) :
    wordAt (storeu width dst off v) p =
      if w ≤ p ∧ p < w + m then v.word (p - w) else wordAt dst p := by
  rw [wordAt, getD_storeu _ _ _ _ hp, getD_storeu _ _ _ _ (by omega)]
  by_cases hin : w ≤ p ∧ p < w + m
  · rw [if_pos (by omega), if_pos (by omega), if_pos hin, word,
      show 2 * p + 1 - off = 2 * (p - w) + 1 by omega,
      show 2 * p - off = 2 * (p - w) by omega]
  · rw [if_neg (by omega), if_neg (by omega), if_neg hin, wordAt]

variable {N m width : Nat} {off : Nat → Nat}

/-- A loop that stores `m` words a round in each of two buffers of `N` words. -/
theorem foldl_store_words (n : Nat) (hwidth : width = 2 * m) (hoff : ∀ b, off b = 2 * (b * m))
    (r s : List (BitVec 8) × List (BitVec 8) → Nat → Reg)
    (op : BitVec 16 → BitVec 16 → BitVec 16 × BitVec 16) (dst : List (BitVec 8) × List (BitVec 8))
    (hlen : dst.1.length = 2 * N ∧ dst.2.length = 2 * N)
    (h : ∀ b, b < n → ∀ t : List (BitVec 8) × List (BitVec 8), ∀ j, j < m →
      ((r t b).word j, (s t b).word j) = op (wordAt t.1 (b * m + j)) (wordAt t.2 (b * m + j))) :
    let out := (List.range n).foldl (fun t b =>
      (storeu width t.1 (off b) (r t b), storeu width t.2 (off b) (s t b))) dst
    (out.1.length = 2 * N ∧ out.2.length = 2 * N) ∧
      ∀ p, p < N → (wordAt out.1 p, wordAt out.2 p) =
        if p < n * m then op (wordAt dst.1 p) (wordAt dst.2 p)
        else (wordAt dst.1 p, wordAt dst.2 p) := by
  -- positions past the buffers read as they did at first
  have hloop := foldl_range_windows
    (fun t : List (BitVec 8) × List (BitVec 8) => t.1.length = 2 * N ∧ t.2.length = 2 * N)
    (fun t p => if p < N then (wordAt t.1 p, wordAt t.2 p) else (0#16, 0#16))
    (fun p w => if p < N then op w.1 w.2 else w)
    (fun t b => (storeu width t.1 (off b) (r t b), storeu width t.2 (off b) (s t b)))
    m n dst hlen (by
      intro b hb t ht
      have hsucc : (b + 1) * m = b * m + m := Nat.succ_mul b m
      refine ⟨⟨by rw [length_storeu, ht.1], by rw [length_storeu, ht.2]⟩, fun p => ?_⟩
      by_cases hp : p < N
      · simp only [if_pos hp]
        rw [wordAt_storeu hwidth (hoff b) _ (by omega), wordAt_storeu hwidth (hoff b) _ (by omega),
          hsucc]
        split_ifs with hin
        · rw [h b hb t _ (by omega), Nat.add_sub_cancel' hin.1]
        · rfl
      · simp only [if_neg hp, ite_self])
  refine ⟨hloop.1, fun p hp => ?_⟩
  have hread := hloop.2 p
  simp only [if_pos hp] at hread
  exact hread

/-- The same for one buffer. -/
theorem foldl_store_words_one (n : Nat) (hwidth : width = 2 * m) (hoff : ∀ b, off b = 2 * (b * m))
    (r : List (BitVec 8) → Nat → Reg) (g : Nat → BitVec 16 → BitVec 16) (dst : List (BitVec 8))
    (hlen : dst.length = 2 * N) (h : ∀ b, b < n → ∀ t : List (BitVec 8), ∀ j, j < m →
      (r t b).word j = g (b * m + j) (wordAt t (b * m + j))) :
    let out := (List.range n).foldl (fun t b => storeu width t (off b) (r t b)) dst
    out.length = 2 * N ∧
      ∀ p, p < N → wordAt out p = if p < n * m then g p (wordAt dst p) else wordAt dst p := by
  have hloop := foldl_range_windows (fun t : List (BitVec 8) => t.length = 2 * N)
    (fun t p => if p < N then wordAt t p else 0#16) (fun p w => if p < N then g p w else w)
    (fun t b => storeu width t (off b) (r t b)) m n dst hlen (by
      intro b hb t ht
      have hsucc : (b + 1) * m = b * m + m := Nat.succ_mul b m
      refine ⟨by rw [length_storeu, ht], fun p => ?_⟩
      by_cases hp : p < N
      · simp only [if_pos hp]
        rw [wordAt_storeu hwidth (hoff b) _ (by omega), hsucc]
        split_ifs with hin
        · rw [h b hb t _ (by omega), Nat.add_sub_cancel' hin.1]
        · rfl
      · simp only [if_neg hp, ite_self])
  refine ⟨hloop.1, fun p hp => ?_⟩
  have hread := hloop.2 p
  simp only [if_pos hp] at hread
  exact hread

end Buffers

end Reg

end ErasureCodec
