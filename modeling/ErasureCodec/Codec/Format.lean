import ErasureCodec.Math.Bytes
import ErasureCodec.Codec.Construct

namespace ErasureCodec

open CodecField

/-- The two format hooks of the `Field` trait. Writing an element returns the
byte count, if any, and what the output slice then holds. -/
structure FormatHooks (E : Type) where
  stableFormat : Option (String × Nat)
  writeFormatElement : E → List (BitVec 8) → Option Nat × List (BitVec 8)
  length_write : ∀ element output, (writeFormatElement element output).2.length = output.length

def encodingFormatVersion : Nat := 1

/-- `b"RSEFMT\0\0"`. -/
def idMagic : List (BitVec 8) := [82#8, 83#8, 69#8, 70#8, 77#8, 84#8, 0#8, 0#8]

def fixedIdBytes : Nat := 59

def maxIdBytes : Nat := 64 * 1024 * 1024

/-- `try_from` into an unsigned integer of the given number of bits, and the
checked operations of `usize`. -/
def fits (bits n : Nat) : Option Nat := if n < 2 ^ bits then some n else none

theorem fits_bind_eq_some {α : Type} {bits n : Nat} {f : Nat → Option α} {a : α} :
    (fits bits n >>= f) = some a ↔ n < 2 ^ bits ∧ f n = some a := by
  unfold fits
  split_ifs with h
  · simp [h]
  · simp [h]

def familyTag : CodecFamily → BitVec 8
  | .classic => 0#8
  | .leopardGF8 => 1#8
  | .leopardGF16 => 2#8

theorem familyTag_inj {f g : CodecFamily} (h : familyTag f = familyTag g) : f = g := by
  cases f <;> cases g <;> first | rfl | exact absurd h (by decide)

namespace EncodingFormat

section Identity

variable {E : Type}

/-- `EncodingFormat::eq`. A shared matrix allocation only skips the comparison of
a matrix with itself. -/
def eq [DecidableEq E] (a b : EncodingFormat E) : Bool :=
  a.dataShards == b.dataShards && a.parityShards == b.parityShards && a.family == b.family &&
    (a.matrix.rowCount == b.matrix.rowCount && a.matrix.colCount == b.matrix.colCount &&
      (List.range a.matrix.rowCount).all fun row => a.matrix.getRow row == b.matrix.getRow row)

/-- Everything in front of the coefficients. -/
def idHeader (format : EncodingFormat E) (fieldId : List (BitVec 8)) (elementWidth order : Nat) :
    List (BitVec 8) :=
  idMagic ++ (toBeBytes 2 encodingFormatVersion ++ ([familyTag format.family] ++
    (toBeBytes 4 fieldId.length ++ (fieldId ++ (toBeBytes 4 elementWidth ++
      [order, format.dataShards, format.parityShards, format.matrix.rowCount,
        format.matrix.colCount].flatMap (toBeBytes 8))))))

/-- Write one coefficient at the running offset. -/
def writeCoefficient (hooks : FormatHooks E) (elementWidth : Nat)
    (state : Nat × List (BitVec 8)) (element : E) : Option (Nat × List (BitVec 8)) := do
  let stop ← fits 64 (state.1 + elementWidth)
  let written := hooks.writeFormatElement element (slice state.2 state.1 stop)
  let count ← written.1
  if count ≠ elementWidth then none
  else some (stop, overwrite state.1 written.2 state.2)

/-- `stable_id_bytes` with an allocation that succeeds. -/
def stableIdBytes [CodecField E] (hooks : FormatHooks E) (format : EncodingFormat E) :
    Option (List (BitVec 8)) := do
  let (fieldId, elementWidth) ← hooks.stableFormat
  if fieldId.isEmpty ∨ elementWidth = 0 then none
  else
    let fieldIdBytes := utf8Bytes fieldId
    let _ ← fits 32 fieldIdBytes.length
    let _ ← fits 32 elementWidth
    let fieldOrder ← fits 64 (order E)
    let _ ← fits 64 format.dataShards
    let _ ← fits 64 format.parityShards
    let _ ← fits 64 format.matrix.rowCount
    let _ ← fits 64 format.matrix.colCount
    let coefficients ← fits 64 (format.matrix.rowCount * format.matrix.colCount)
    let coefficientBytes ← fits 64 (coefficients * elementWidth)
    let idBytes ← fits 64 (fixedIdBytes + fieldIdBytes.length)
    let totalBytes ← fits 64 (idBytes + coefficientBytes)
    if totalBytes > maxIdBytes ∨ elementWidth > maxIdBytes then none
    else
      let header := format.idHeader fieldIdBytes elementWidth fieldOrder
      let bytes := header ++ List.replicate (totalBytes - header.length) 0#8
      let final ← (List.range format.matrix.rowCount).foldlM (fun state row =>
        (format.matrix.getRow row).foldlM (writeCoefficient hooks elementWidth) state)
        (header.length, bytes)
      some final.2

end Identity

end EncodingFormat

/-- The stable encoding of one element: what its hook writes over zero bytes. -/
def FormatHooks.encodeElement {E : Type} (hooks : FormatHooks E) (elementWidth : Nat)
    (element : E) : List (BitVec 8) :=
  (hooks.writeFormatElement element (List.replicate elementWidth 0#8)).2

/-- The documented contract of a field that opts in. -/
structure StableField {E : Type} (hooks : FormatHooks E) (fieldId : String) (elementWidth : Nat) :
    Prop where
  format_eq : hooks.stableFormat = some (fieldId, elementWidth)
  writes : ∀ element output, output.length = elementWidth →
    (hooks.writeFormatElement element output).1 = some elementWidth
  injective : Function.Injective (hooks.encodeElement elementWidth)

namespace EncodingFormat

section Spec

variable {E : Type} {hooks : FormatHooks E} {format : EncodingFormat E}

theorem length_idHeader (format : EncodingFormat E) (fieldId : List (BitVec 8))
    (elementWidth order : Nat) :
    (format.idHeader fieldId elementWidth order).length = 59 + fieldId.length := by
  simp [idHeader, idMagic]
  omega

theorem length_encodeElement (hooks : FormatHooks E) (elementWidth : Nat) (element : E) :
    (hooks.encodeElement elementWidth element).length = elementWidth := by
  rw [FormatHooks.encodeElement, hooks.length_write, List.length_replicate]

theorem length_of_mem_encoded (hooks : FormatHooks E) (elementWidth : Nat) (elements : List E) :
    ∀ x ∈ elements.map (hooks.encodeElement elementWidth), x.length = elementWidth := by
  intro x hx
  obtain ⟨element, -, rfl⟩ := List.mem_map.mp hx
  exact length_encodeElement hooks elementWidth element

/-- Writing over the zeros behind `done` appends the element's encoding. -/
theorem writeCoefficient_eq {elementWidth rest : Nat} {done : List (BitVec 8)} {element : E}
    {state : Nat × List (BitVec 8)}
    (h : writeCoefficient hooks elementWidth
      (done.length, done ++ List.replicate (elementWidth + rest) 0#8) element = some state) :
    state.1 = done.length + elementWidth ∧
      state.2 = done ++ hooks.encodeElement elementWidth element ++ List.replicate rest 0#8 := by
  have hslice : slice (done ++ List.replicate (elementWidth + rest) 0#8) done.length
      (done.length + elementWidth) = List.replicate elementWidth 0#8 := by
    simp [slice]
  obtain ⟨-, h⟩ := fits_bind_eq_some.mp h
  obtain ⟨count, -, h⟩ := Option.bind_eq_some_iff.mp h
  split_ifs at h with hcount
  rw [hslice] at h
  obtain rfl := Option.some.inj h
  refine ⟨rfl, ?_⟩
  have hlen := length_encodeElement hooks elementWidth element
  change overwrite done.length (hooks.encodeElement elementWidth element) _ = _
  apply getD_ext 0#8
  · simp [hlen]
  intro x hx
  rw [getD_overwrite, hlen]
  simp only [length_overwrite, List.length_append, List.length_replicate] at hx ⊢
  simp only [List.getD_eq_getElem?_getD]
  by_cases h1 : x < done.length
  · rw [if_neg (by omega), List.append_assoc, List.getElem?_append_left h1,
      List.getElem?_append_left h1]
  by_cases h2 : x < done.length + elementWidth
  · rw [if_pos ⟨by omega, h2, hx⟩, List.append_assoc, List.getElem?_append_right (by omega),
      List.getElem?_append_left (by omega)]
  · rw [if_neg (by omega), List.getElem?_append_right (by omega),
      List.getElem?_append_right (by simp; omega)]
    simp only [List.length_append, hlen, List.getElem?_replicate]
    rw [if_pos (by omega), if_pos (by omega)]

/-- A run over coefficients appends their encodings in order. -/
theorem foldlM_writeCoefficient {elementWidth : Nat} (elements : List E) {done : List (BitVec 8)}
    {rest : Nat} {state : Nat × List (BitVec 8)}
    (h : elements.foldlM (writeCoefficient hooks elementWidth)
      (done.length, done ++ List.replicate (elements.length * elementWidth + rest) 0#8) =
        some state) :
    state.2 = done ++ (elements.map (hooks.encodeElement elementWidth)).flatten ++
      List.replicate rest 0#8 := by
  induction elements generalizing done with
  | nil =>
    simp only [List.foldlM_nil, Option.pure_def] at h
    obtain rfl := Option.some.inj h
    simp
  | cons element elements ih =>
    rw [List.length_cons, Nat.succ_mul, Nat.add_comm (elements.length * elementWidth), Nat.add_assoc,
      List.foldlM_cons, Option.bind_eq_bind, Option.bind_eq_some_iff] at h
    obtain ⟨next, hnext, h⟩ := h
    obtain ⟨hoffset, hbytes⟩ := writeCoefficient_eq hnext
    have hlen := length_encodeElement hooks elementWidth element
    have hstate : next = ((done ++ hooks.encodeElement elementWidth element).length,
        (done ++ hooks.encodeElement elementWidth element) ++
          List.replicate (elements.length * elementWidth + rest) 0#8) := by
      apply Prod.ext
      · rw [hoffset, List.length_append, hlen]
      · exact hbytes
    rw [hstate] at h
    rw [ih h, List.map_cons, List.flatten_cons]
    simp only [List.append_assoc]

/-- The rows in order are the stored coefficients. -/
theorem flatMap_getRow (m : CodingMatrix E) : (List.range m.rowCount).flatMap m.getRow = m.data := by
  have hrows (n : Nat) : (List.range n).flatMap m.getRow = m.data.take (n * m.colCount) := by
    induction n with
    | zero => simp
    | succ n ih =>
      rw [List.range_succ, List.flatMap_append, ih, List.flatMap_singleton, CodingMatrix.getRow, slice,
        Nat.add_sub_cancel_left, Nat.succ_mul, List.take_add]
  rw [hrows, ← m.size_eq, List.take_length]

theorem foldlM_rows {σ : Type} (m : CodingMatrix E) (f : σ → E → Option σ) (s : σ) :
    (List.range m.rowCount).foldlM (fun s row => (m.getRow row).foldlM f s) s =
      m.data.foldlM f s := by
  rw [← flatMap_getRow m]
  generalize List.range m.rowCount = rows
  induction rows generalizing s with
  | nil => rfl
  | cons row rows ih =>
    rw [List.foldlM_cons, List.flatMap_cons, List.foldlM_append]
    exact bind_congr (fun t => ih t)

/-- What a returned identifier is, with the bounds its checks establish. -/
structure IsStableId [CodecField E] (hooks : FormatHooks E) (fieldId : String) (elementWidth : Nat)
    (format : EncodingFormat E) (bytes : List (BitVec 8)) : Prop where
  bytes_eq : bytes = format.idHeader (utf8Bytes fieldId) elementWidth (order E) ++
    (format.matrix.data.map (hooks.encodeElement elementWidth)).flatten
  fieldId_lt : (utf8Bytes fieldId).length < 256 ^ 4
  width_lt : elementWidth < 256 ^ 4
  order_lt : order E < 256 ^ 8
  data_lt : format.dataShards < 256 ^ 8
  parity_lt : format.parityShards < 256 ^ 8
  rows_lt : format.matrix.rowCount < 256 ^ 8
  cols_lt : format.matrix.colCount < 256 ^ 8

theorem isStableId_of_stableIdBytes [CodecField E] {fieldId : String} {elementWidth : Nat}
    {bytes : List (BitVec 8)} (hformat : hooks.stableFormat = some (fieldId, elementWidth))
    (h : format.stableIdBytes hooks = some bytes) :
    IsStableId hooks fieldId elementWidth format bytes := by
  unfold stableIdBytes at h
  rw [hformat, Option.bind_eq_bind, Option.bind_some] at h
  change (if _ then _ else _) = _ at h
  split_ifs at h with hempty
  obtain ⟨hid, h⟩ := fits_bind_eq_some.mp h
  obtain ⟨hwidth, h⟩ := fits_bind_eq_some.mp h
  obtain ⟨horder, h⟩ := fits_bind_eq_some.mp h
  obtain ⟨hdata, h⟩ := fits_bind_eq_some.mp h
  obtain ⟨hparity, h⟩ := fits_bind_eq_some.mp h
  obtain ⟨hrows, h⟩ := fits_bind_eq_some.mp h
  obtain ⟨hcols, h⟩ := fits_bind_eq_some.mp h
  obtain ⟨-, h⟩ := fits_bind_eq_some.mp h
  obtain ⟨-, h⟩ := fits_bind_eq_some.mp h
  obtain ⟨-, h⟩ := fits_bind_eq_some.mp h
  obtain ⟨-, h⟩ := fits_bind_eq_some.mp h
  split_ifs at h with hmax
  obtain ⟨final, hfinal, h⟩ := Option.bind_eq_some_iff.mp h
  obtain rfl := Option.some.inj h
  rw [foldlM_rows] at hfinal
  refine ⟨?_, by simpa using hid, by simpa using hwidth, by simpa using horder,
    by simpa using hdata, by simpa using hparity, by simpa using hrows, by simpa using hcols⟩
  have hheader := format.length_idHeader (utf8Bytes fieldId) elementWidth (order E)
  have hspare : fixedIdBytes + (utf8Bytes fieldId).length +
      format.matrix.rowCount * format.matrix.colCount * elementWidth -
        (format.idHeader (utf8Bytes fieldId) elementWidth (order E)).length =
      format.matrix.data.length * elementWidth + 0 := by
    rw [hheader, format.matrix.size_eq, fixedIdBytes]
    omega
  rw [hspare] at hfinal
  simpa using foldlM_writeCoefficient format.matrix.data hfinal

variable {E' : Type} {hooks' : FormatHooks E'} {format' : EncodingFormat E'}

/-- Reading an identifier off the front of another determines every part of it. -/
theorem IsStableId.determined [CodecField E] [CodecField E'] {fieldId fieldId' : String}
    {elementWidth elementWidth' : Nat} {bytes bytes' : List (BitVec 8)}
    (h : IsStableId hooks fieldId elementWidth format bytes)
    (h' : IsStableId hooks' fieldId' elementWidth' format' bytes') (hpre : bytes <+: bytes') :
    bytes = bytes' ∧ fieldId = fieldId' ∧ elementWidth = elementWidth' ∧ order E = order E' ∧
      format.family = format'.family ∧ format.dataShards = format'.dataShards ∧
      format.parityShards = format'.parityShards ∧
      format.matrix.rowCount = format'.matrix.rowCount ∧
      format.matrix.colCount = format'.matrix.colCount ∧
      format.matrix.data.map (hooks.encodeElement elementWidth) =
        format'.matrix.data.map (hooks'.encodeElement elementWidth') := by
  have hpeel := hpre
  rw [h.bytes_eq, h'.bytes_eq] at hpeel
  simp only [idHeader, List.append_assoc, List.flatMap_cons, List.flatMap_nil,
    List.append_nil] at hpeel
  obtain ⟨-, hpeel⟩ := prefix_peel rfl hpeel
  obtain ⟨-, hpeel⟩ := prefix_peel rfl hpeel
  obtain ⟨htag, hpeel⟩ := prefix_peel (by simp) hpeel
  obtain ⟨hidLen, hpeel⟩ := prefix_peel (by simp) hpeel
  have hidLen := toBeBytes_inj h.fieldId_lt h'.fieldId_lt hidLen
  obtain ⟨hid, hpeel⟩ := prefix_peel hidLen hpeel
  obtain ⟨hwidth, hpeel⟩ := prefix_peel (by simp) hpeel
  obtain ⟨horder, hpeel⟩ := prefix_peel (by simp) hpeel
  obtain ⟨hdata, hpeel⟩ := prefix_peel (by simp) hpeel
  obtain ⟨hparity, hpeel⟩ := prefix_peel (by simp) hpeel
  obtain ⟨hrows, hpeel⟩ := prefix_peel (by simp) hpeel
  obtain ⟨hcols, hpeel⟩ := prefix_peel (by simp) hpeel
  obtain rfl := toBeBytes_inj h.width_lt h'.width_lt hwidth
  have hrows := toBeBytes_inj h.rows_lt h'.rows_lt hrows
  have hcols := toBeBytes_inj h.cols_lt h'.cols_lt hcols
  have hcount : (format.matrix.data.map (hooks.encodeElement elementWidth)).length =
      (format'.matrix.data.map (hooks'.encodeElement elementWidth)).length := by
    rw [List.length_map, List.length_map, format.matrix.size_eq, format'.matrix.size_eq, hrows, hcols]
  have hblocks := length_of_mem_encoded hooks elementWidth format.matrix.data
  have hblocks' := length_of_mem_encoded hooks' elementWidth format'.matrix.data
  have harea := hpeel.eq_of_length (by
    rw [length_flatten_of_forall hblocks, length_flatten_of_forall hblocks', hcount])
  have hbytes : bytes = bytes' := by
    apply hpre.eq_of_length
    rw [h.bytes_eq, h'.bytes_eq, List.length_append, List.length_append, length_idHeader,
      length_idHeader, hidLen, harea]
  exact ⟨hbytes, utf8Bytes_inj hid, rfl, toBeBytes_inj h.order_lt h'.order_lt horder,
    familyTag_inj (List.cons.inj htag).1, toBeBytes_inj h.data_lt h'.data_lt hdata,
    toBeBytes_inj h.parity_lt h'.parity_lt hparity, hrows, hcols,
    flatten_inj_of_length hcount hblocks hblocks' harea⟩

theorem IsStableId.length_eq [CodecField E] {fieldId : String} {elementWidth : Nat}
    {bytes : List (BitVec 8)} (h : IsStableId hooks fieldId elementWidth format bytes) :
    bytes.length = 59 + (utf8Bytes fieldId).length +
      format.matrix.rowCount * format.matrix.colCount * elementWidth := by
  have hblocks := length_of_mem_encoded hooks elementWidth format.matrix.data
  rw [h.bytes_eq, List.length_append, length_idHeader, length_flatten_of_forall hblocks,
    List.length_map, format.matrix.size_eq]

theorem eq_of_parts {a b : EncodingFormat E} (hd : a.dataShards = b.dataShards)
    (hp : a.parityShards = b.parityShards) (hf : a.family = b.family)
    (hr : a.matrix.rowCount = b.matrix.rowCount) (hc : a.matrix.colCount = b.matrix.colCount)
    (hdata : a.matrix.data = b.matrix.data) : a = b := by
  obtain ⟨_, _, _, ⟨_, _, _, _⟩⟩ := a
  obtain ⟨_, _, _, ⟨_, _, _, _⟩⟩ := b
  simp only at hd hp hf hr hc hdata
  subst hd hp hf hr hc hdata
  rfl

/-- The source's comparison is equality of the effective formats. -/
theorem eq_iff [DecidableEq E] {a b : EncodingFormat E} : a.eq b = true ↔ a = b := by
  constructor
  · intro h
    simp only [eq, Bool.and_eq_true, beq_iff_eq, List.all_eq_true, List.mem_range] at h
    obtain ⟨⟨⟨hd, hp⟩, hf⟩, ⟨hr, hc⟩, hrows⟩ := h
    have hdata : a.matrix.data = b.matrix.data := by
      rw [← flatMap_getRow a.matrix, ← flatMap_getRow b.matrix, ← hr]
      exact List.flatMap_congr (fun row hrow => hrows row (List.mem_range.mp hrow))
    exact eq_of_parts hd hp hf hr hc hdata
  · rintro rfl
    simp [eq]

/-- Identifiers are equal exactly for equal formats, determine every part of the
format across fields, and form a prefix-free code of known length. -/
theorem stable_id_faithful [CodecField E] [CodecField E'] [DecidableEq E] {fieldId fieldId' : String}
    {elementWidth elementWidth' : Nat} (h : StableField hooks fieldId elementWidth)
    (h' : StableField hooks' fieldId' elementWidth') :
    (∀ (a b : EncodingFormat E) (idA idB : List (BitVec 8)), a.stableIdBytes hooks = some idA →
      b.stableIdBytes hooks = some idB → (idA = idB ↔ a.eq b = true)) ∧
    (∀ (a : EncodingFormat E) (b : EncodingFormat E') (bytes : List (BitVec 8)),
      a.stableIdBytes hooks = some bytes → b.stableIdBytes hooks' = some bytes →
      fieldId = fieldId' ∧ elementWidth = elementWidth' ∧ order E = order E' ∧
        a.family = b.family ∧ a.dataShards = b.dataShards ∧ a.parityShards = b.parityShards ∧
        a.matrix.rowCount = b.matrix.rowCount ∧ a.matrix.colCount = b.matrix.colCount ∧
        a.matrix.data.map (hooks.encodeElement elementWidth) =
          b.matrix.data.map (hooks'.encodeElement elementWidth')) ∧
    (∀ (a : EncodingFormat E) (b : EncodingFormat E') (idA idB : List (BitVec 8)),
      a.stableIdBytes hooks = some idA → b.stableIdBytes hooks' = some idB →
      idA <+: idB → idA = idB) ∧
    ∀ (a : EncodingFormat E) (bytes : List (BitVec 8)), a.stableIdBytes hooks = some bytes →
      bytes.length = 59 + (utf8Bytes fieldId).length +
        a.matrix.rowCount * a.matrix.colCount * elementWidth := by
  refine ⟨?_, ?_, ?_, ?_⟩
  · intro a b idA idB ha hb
    have hidA := isStableId_of_stableIdBytes h.format_eq ha
    have hidB := isStableId_of_stableIdBytes h.format_eq hb
    constructor
    · intro hid
      obtain ⟨-, -, -, -, hf, hd, hp, hr, hc, hdata⟩ := hidA.determined hidB (hid ▸ List.prefix_rfl)
      apply eq_iff.mpr
      exact eq_of_parts hd hp hf hr hc (List.map_injective_iff.mpr h.injective hdata)
    · intro heq
      obtain rfl := eq_iff.mp heq
      exact Option.some.inj (ha.symm.trans hb)
  · intro a b bytes ha hb
    exact ((isStableId_of_stableIdBytes h.format_eq ha).determined
      (isStableId_of_stableIdBytes h'.format_eq hb) List.prefix_rfl).2
  · intro a b idA idB ha hb hpre
    exact ((isStableId_of_stableIdBytes h.format_eq ha).determined
      (isStableId_of_stableIdBytes h'.format_eq hb) hpre).1
  · intro a bytes ha
    exact (isStableId_of_stableIdBytes h.format_eq ha).length_eq

end Spec

/-- The hooks of the byte field. -/
def galois8Format : FormatHooks Galois8 where
  stableFormat := some ("rustfs.gf8.poly-11d.u8.v1", 1)
  writeFormatElement element output :=
    if output.length ≠ 1 then (none, output) else (some 1, output.set 0 element)
  length_write element output := by
    split_ifs
    · rfl
    · exact List.length_set

theorem galois8Format_stable : StableField galois8Format "rustfs.gf8.poly-11d.u8.v1" 1 where
  format_eq := rfl
  writes element output h := by simp [galois8Format, h]
  injective a b h := (List.cons.inj h).1

/-- The sample format with another last coefficient. -/
def otherFormat : EncodingFormat Galois8 :=
  ⟨2, 2, .classic, ⟨4, 2, [1#8, 0#8, 0#8, 1#8, 1#8, 1#8, 1#8, 3#8], rfl⟩⟩

theorem stable_id_faithful_galois8 :
    ∃ bytes other, sampleCodec.format.stableIdBytes galois8Format = some bytes ∧
      otherFormat.stableIdBytes galois8Format = some other ∧ bytes ≠ other ∧
      bytes.length = 59 + 25 + 4 * 2 * 1 := by
  have hsome : (sampleCodec.format.stableIdBytes galois8Format).isSome = true := by decide +kernel
  obtain ⟨bytes, hbytes⟩ := Option.isSome_iff_exists.mp hsome
  have hsome' : (otherFormat.stableIdBytes galois8Format).isSome = true := by decide +kernel
  obtain ⟨other, hother⟩ := Option.isSome_iff_exists.mp hsome'
  have h := stable_id_faithful galois8Format_stable galois8Format_stable
  refine ⟨bytes, other, hbytes, hother, fun hid => ?_, (h.2.2.2 _ _ hbytes).trans
    (by decide +kernel)⟩
  have hdiffer : ¬sampleCodec.format.eq otherFormat = true := by decide +kernel
  exact hdiffer ((h.1 _ _ _ _ hbytes hother).mp hid)

end EncodingFormat

end ErasureCodec
