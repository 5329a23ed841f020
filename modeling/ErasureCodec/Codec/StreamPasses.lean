import ErasureCodec.Codec.StreamReconstruct

namespace ErasureCodec

open CodecField

namespace Stream

section Buffers

/-- Storage of one stream: the last read filled `readLen` bytes, and the codec sees `blockLen`. -/
structure StreamReadBuffer where
  bytes : List Byte
  readLen : Nat
  blockLen : Nat
  deriving DecidableEq

namespace StreamReadBuffer

def new : StreamReadBuffer := ⟨[], 0, 0⟩

def readFrom (buffer : StreamReadBuffer) (reader : Reader) (maxLen : Nat) :
    Except IoError Unit × Reader × StreamReadBuffer :=
  match readOneStream reader buffer.bytes maxLen with
  | (.ok readLen, reader, bytes) => (.ok (), reader, { buffer with bytes, readLen })
  | (.error e, reader, bytes) => (.error e, reader, { buffer with bytes })

/-- The rest of the block is cleared, as it may hold an earlier one. -/
def finishBlock (buffer : StreamReadBuffer) (blockLen : Nat) : StreamReadBuffer :=
  let bytes :=
    if buffer.readLen < blockLen then
      overwrite buffer.readLen (List.replicate (blockLen - buffer.readLen) zero) buffer.bytes
    else buffer.bytes
  { buffer with bytes, blockLen }

/-- `as_ref`. -/
def asRef (buffer : StreamReadBuffer) : List Byte := buffer.bytes.take buffer.blockLen

end StreamReadBuffer

/-- Reading one block of a stream. -/
def readStream (maxLen index : Nat) (stream : Reader × StreamReadBuffer) :
    Except StreamError Unit × (Reader × StreamReadBuffer) :=
  match stream.2.readFrom stream.1 maxLen with
  | (.ok (), stream) => (.ok (), stream)
  | (.error e, stream) => (.error (.read index e), stream)

/-- `read_block_with_mode`: the result, the readers and the buffers. -/
def readBlockWithMode (pool : TryForEach.Pool) (time : Nat) (readers : List Reader)
    (buffers : List StreamReadBuffer) (maxLen : Nat) (useParallelIo : Bool) :
    Except StreamError (Bool × Nat) × List Reader × List StreamReadBuffer :=
  match forEachStream pool time useParallelIo (readStream maxLen) (readers.zip buffers) with
  | (.ok (), streams) =>
    let actualLen := (streams.map (·.2.readLen)).max?.getD 0
    (.ok (actualLen == 0, actualLen), streams.map Prod.fst,
      streams.map fun stream => stream.2.finishBlock actualLen)
  | (.error e, streams) => (.error e, streams.map Prod.fst, streams.map Prod.snd)

end Buffers

section Outputs

/-- One task of `write_block_par`. -/
def writeStream (len _index : Nat) (stream : Writer × List Byte) :
    Except IoError Unit × (Writer × List Byte) :=
  let (result, writer) := writeLoop writeZeroError stream.1 stream.2 len 0
  (result, writer, stream.2)

/-- `write_block_with_mode`: the result and the writers. -/
def writeBlockWithMode (pool : TryForEach.Pool) (time : Nat) (writers : List Writer)
    (buffers : List (List Byte)) (len shardOffset : Nat) (useParallelIo : Bool) :
    Except StreamError Unit × List Writer :=
  if useParallelIo then
    let job := writeBlockPar writers buffers len shardOffset
    let s := pool.run time job none
    (writeBlockParResult job shardOffset s,
      (TryForEach.itemsAfter (writeStream len) s (writers.zip buffers)).map Prod.fst)
  else writeBlock writers buffers len shardOffset

end Outputs

section Padding

/-- The length of the longest stream. -/
def longest (streams : List (List Byte)) : Nat := (streams.map List.length).max?.getD 0

/-- Buffers that are resized for a block. -/
theorem grid_resized {n : Nat} {bufs : List (List Byte)} (h : bufs.length = n) (len : Nat) :
    Grid n len (bufs.map fun buf => resize buf len) := by
  apply grid_of_forall (by rw [List.length_map, h])
  intro row hrow
  obtain ⟨buf, -, rfl⟩ := List.mem_map.mp hrow
  exact length_resize _ _

/-- The blocks of a size that cover the longest stream. -/
theorem longest_le_blocks (streams : List (List Byte)) {size : Nat} (hsize : 0 < size) :
    longest streams ≤ (0 + (longest streams / size + 1)) * size := by
  have hdiv := Nat.div_add_mod' (longest streams) size
  have hmod := Nat.mod_lt (longest streams) hsize
  rw [Nat.zero_add, Nat.succ_mul]
  omega

/-- Block `k` of a stream. -/
def blockOf (size k : Nat) (bytes : List Byte) : List Byte := (bytes.drop (k * size)).take size

/-- How many bytes block `k` of the longest stream holds. -/
def blockLen (size k : Nat) (streams : List (List Byte)) : Nat :=
  min size (longest streams - k * size)

theorem length_blockOf (size k : Nat) (bytes : List Byte) :
    (blockOf size k bytes).length = min size (bytes.length - k * size) := by
  rw [blockOf, List.length_take, List.length_drop]

theorem getD_blockOf {size k x : Nat} (bytes : List Byte) (hx : x < size) (z : Byte) :
    (blockOf size k bytes).getD x z = bytes.getD (k * size + x) z := by
  rw [blockOf, getD_take hx, getD_drop]

/-- The largest value of a monotone function is its value at the largest argument. -/
theorem max?_map {f : Nat → Nat} (hf : Monotone f) (h0 : f 0 = 0) (l : List Nat) :
    (l.map f).max?.getD 0 = f (l.max?.getD 0) := by
  cases hl : l.max? with
  | none =>
    obtain rfl := List.max?_eq_none_iff.mp hl
    exact h0.symm
  | some m =>
    obtain ⟨hm, hle⟩ := List.max?_eq_some_iff.mp hl
    have hmax : (l.map f).max? = some (f m) := by
      rw [List.max?_eq_some_iff]
      refine ⟨List.mem_map_of_mem hm, fun b hb => ?_⟩
      obtain ⟨a, ha, rfl⟩ := List.mem_map.mp hb
      exact hf (hle a ha)
    rw [hmax]
    rfl

theorem le_longest {streams : List (List Byte)} {bytes : List Byte} (h : bytes ∈ streams) :
    bytes.length ≤ longest streams := by
  unfold longest
  have hmem : bytes.length ∈ streams.map List.length := List.mem_map_of_mem h
  cases hl : (streams.map List.length).max? with
  | none =>
    rw [List.max?_eq_none_iff.mp hl] at hmem
    exact absurd hmem List.not_mem_nil
  | some m => exact (List.max?_eq_some_iff.mp hl).2 _ hmem

/-- The blocks that are read are as long as that of the longest stream. -/
theorem max_delivered (size k : Nat) (streams : List (List Byte)) :
    (streams.map (ReedSolomon.deliveredLen size k)).max?.getD 0 = blockLen size k streams := by
  have hmono : Monotone fun len => min size (len - k * size) := fun a b hab => by
    simp only
    omega
  have hmax := max?_map hmono (by simp) (streams.map List.length)
  rw [List.map_map] at hmax
  exact hmax

theorem resize_of_le {bytes : List Byte} {len : Nat} (h : bytes.length ≤ len) :
    resize bytes len = bytes ++ List.replicate (len - bytes.length) zero := by
  rw [resize, List.take_of_length_le h]

theorem getD_resize {bytes : List Byte} {len : Nat} (h : bytes.length ≤ len) (x : Nat) :
    (resize bytes len).getD x zero = bytes.getD x zero := by
  rw [resize_of_le h]
  by_cases hx : x < bytes.length
  · rw [List.getD_append _ _ _ _ hx]
  · have hright : bytes.getD x zero = zero := List.getD_eq_default _ _ (by omega)
    rw [List.getD_append_right _ _ _ _ (by omega), hright]
    by_cases hrest : x - bytes.length < len - bytes.length
    · rw [List.getD_eq_getElem _ _ (by simpa using hrest), List.getElem_replicate]
    · rw [List.getD_eq_default _ _ (by simpa using hrest)]

/-- The block of a padded stream is the padded block of the stream. -/
theorem blockOf_resize {bytes : List Byte} {size k len : Nat} (h : bytes.length ≤ len) :
    blockOf size k (resize bytes len) =
      resize (blockOf size k bytes) (min size (len - k * size)) := by
  have hblock : (blockOf size k bytes).length ≤ min size (len - k * size) := by
    rw [length_blockOf]
    omega
  have hlen : (blockOf size k (resize bytes len)).length =
      (resize (blockOf size k bytes) (min size (len - k * size))).length := by
    rw [length_blockOf, length_resize, length_resize]
  refine getD_ext zero hlen (fun x hx => ?_)
  rw [length_blockOf] at hx
  rw [getD_blockOf _ (by omega), getD_resize h, getD_resize hblock, getD_blockOf _ (by omega)]

/-- All streams, padded with zeros to the longest one. -/
def padded (streams : List (List Byte)) : List (List Byte) :=
  streams.map fun bytes => resize bytes (longest streams)

theorem grid_padded (streams : List (List Byte)) :
    Grid streams.length (longest streams) (padded streams) :=
  grid_of_forall (List.length_map _) fun row hrow => by
    obtain ⟨bytes, -, rfl⟩ := List.mem_map.mp hrow
    exact length_resize _ _

theorem grid_blocks {n len : Nat} {shards : List (List Byte)} (h : Grid n len shards)
    (size k : Nat) : Grid n (min size (len - k * size)) (shards.map (blockOf size k)) :=
  grid_of_forall (by rw [List.length_map, h.length_eq]) fun row hrow => by
    obtain ⟨shard, hshard, rfl⟩ := List.mem_map.mp hrow
    rw [length_blockOf, h.forall hshard]

/-- The first `k` blocks and block `k`. -/
theorem take_append_blockOf (size k : Nat) (bytes : List Byte) :
    bytes.take (k * size) ++ blockOf size k bytes = bytes.take ((k + 1) * size) := by
  rw [blockOf, Nat.succ_mul, List.take_add]

end Padding

section Scripts

variable {α β : Type} {script : α → List β} {streams streams' streams'' : List α}

/-- Each stream has used up a beginning of its script. -/
def Continues (script : α → List β) (streams streams' : List α) : Prop :=
  ∀ (i : Nat) (s' : α), streams'[i]? = some s' →
    ∃ s, streams[i]? = some s ∧ script s' <:+ script s

theorem Continues.refl (script : α → List β) (streams : List α) :
    Continues script streams streams :=
  fun _ s hs => ⟨s, hs, List.suffix_rfl⟩

theorem Continues.trans (h : Continues script streams streams')
    (h' : Continues script streams' streams'') : Continues script streams streams'' := by
  intro i s'' hs''
  obtain ⟨s', hs', hlast⟩ := h' i s'' hs''
  obtain ⟨s, hs, hfirst⟩ := h i s' hs'
  exact ⟨s, hs, hlast.trans hfirst⟩

/-- An error with which the reader can end a read. -/
def Reader.Fails (reader : Reader) (e : IoError) : Prop :=
  .error e ∈ reader.script ∧ e.kind ≠ .interrupted

/-- An error with which the writer can end a write: its own, or that it takes no byte. -/
def Writer.Fails (writer : Writer) (e : IoError) : Prop :=
  .error e ∈ writer.script ∧ e.kind ≠ .interrupted ∨
    .accept 0 ∈ writer.script ∧ e = writeZeroError

theorem Reader.Fails.of_suffix {reader reader' : Reader} {e : IoError} (h : reader'.Fails e)
    (hs : reader'.script <:+ reader.script) : reader.Fails e :=
  ⟨hs.subset h.1, h.2⟩

theorem Writer.Fails.of_suffix {writer writer' : Writer} {e : IoError} (h : writer'.Fails e)
    (hs : writer'.script <:+ writer.script) : writer.Fails e := by
  rcases h with ⟨hmem, hkind⟩ | ⟨hmem, hzero⟩
  · exact .inl ⟨hs.subset hmem, hkind⟩
  · exact .inr ⟨hs.subset hmem, hzero⟩

theorem Reader.Cooperative.not_fails {reader : Reader} (h : reader.Cooperative) (e : IoError) :
    ¬reader.Fails e :=
  fun hfail => hfail.2 (h e hfail.1)

theorem Writer.Cooperative.not_fails {writer : Writer} (h : writer.Cooperative) (e : IoError) :
    ¬writer.Fails e := by
  intro hfail
  rcases hfail with ⟨hmem, hkind⟩ | ⟨hmem, -⟩
  · exact hkind (h (.error e) hmem)
  · exact absurd (h (.accept 0) hmem) (lt_irrefl 0)

theorem Reader.read_script {reader reader' : Reader} {room : Nat}
    {result : Except IoError (List Byte)} (h : reader.read room = (result, reader')) :
    reader'.script <:+ reader.script := by
  rw [Reader.read] at h
  cases hscript : reader.script with
  | nil =>
    rw [hscript] at h
    rw [← (Prod.mk.inj h).2]
  | cons reply script =>
    rw [hscript] at h
    cases reply with
    | give n =>
      rw [← (Prod.mk.inj h).2]
      exact List.suffix_cons _ _
    | error e =>
      rw [← (Prod.mk.inj h).2]
      exact List.suffix_cons _ _

theorem Writer.write_script {writer writer' : Writer} {buf : List Byte}
    {result : Except IoError Nat} (h : writer.write buf = (result, writer')) :
    writer'.script <:+ writer.script := by
  rw [Writer.write] at h
  cases hscript : writer.script with
  | nil =>
    rw [hscript] at h
    rw [← (Prod.mk.inj h).2]
  | cons reply script =>
    rw [hscript] at h
    cases reply with
    | accept n =>
      rw [← (Prod.mk.inj h).2]
      exact List.suffix_cons _ _
    | error e =>
      rw [← (Prod.mk.inj h).2]
      exact List.suffix_cons _ _

/-- A read uses up a beginning of the script, and ends with an error of it only. -/
theorem readLoop_script (reader : Reader) (buf : List Byte) (maxLen total : Nat) :
    (readLoop reader buf maxLen total).2.1.script <:+ reader.script ∧
      ∀ e, (readLoop reader buf maxLen total).1 = .error e → reader.Fails e := by
  fun_induction readLoop reader buf maxLen total with
  | case1 reader buf total hlt reader' hread =>
    exact ⟨Reader.read_script hread, fun e he => by cases he⟩
  | case2 reader buf total hlt b bytes reader' hread ih =>
    have hstep := Reader.read_script hread
    exact ⟨ih.1.trans hstep, fun e he => (ih.2 e he).of_suffix hstep⟩
  | case3 reader buf total hlt e reader' hread hkind ih =>
    have hstep := Reader.read_script hread
    exact ⟨ih.1.trans hstep, fun e he => (ih.2 e he).of_suffix hstep⟩
  | case4 reader buf total hlt e reader' hread hkind =>
    obtain ⟨hscript, -⟩ := Reader.read_error hread
    refine ⟨Reader.read_script hread, fun e' he' => ?_⟩
    obtain rfl := Except.error.inj he'
    exact ⟨by rw [hscript]; exact List.mem_cons_self, hkind⟩
  | case5 reader buf total hge => exact ⟨List.suffix_rfl, fun e he => by cases he⟩

/-- So does a write. -/
theorem writeLoop_script (writer : Writer) (buf : List Byte) (len written : Nat)
    (hlen : len ≤ buf.length) :
    (writeLoop writeZeroError writer buf len written).2.script <:+ writer.script ∧
      ∀ e, (writeLoop writeZeroError writer buf len written).1 = .error e → writer.Fails e := by
  fun_induction writeLoop writeZeroError writer buf len written with
  | case1 writer written hlt writer' hwrite =>
    refine ⟨Writer.write_script hwrite, fun e he => .inr ⟨?_, (Except.error.inj he).symm⟩⟩
    have hroom := length_slice buf written len hlen
    cases hscript : writer.script with
    | nil =>
      rw [Writer.write, hscript] at hwrite
      have := Except.ok.inj (Prod.mk.inj hwrite).1
      omega
    | cons reply script =>
      rw [Writer.write, hscript] at hwrite
      cases reply with
      | accept n =>
        have hmin := Except.ok.inj (Prod.mk.inj hwrite).1
        obtain rfl : n = 0 := by omega
        exact List.mem_cons_self
      | error e => cases (Prod.mk.inj hwrite).1
  | case2 writer written hlt n writer' hwrite ih =>
    have hstep := Writer.write_script hwrite
    exact ⟨ih.1.trans hstep, fun e he => (ih.2 e he).of_suffix hstep⟩
  | case3 writer written hlt e writer' hwrite hkind ih =>
    have hstep := Writer.write_script hwrite
    exact ⟨ih.1.trans hstep, fun e he => (ih.2 e he).of_suffix hstep⟩
  | case4 writer written hlt e writer' hwrite hkind =>
    refine ⟨Writer.write_script hwrite, fun e' he' => .inl ⟨?_, ?_⟩⟩
    · obtain rfl := Except.error.inj he'
      cases hscript : writer.script with
      | nil =>
        rw [Writer.write, hscript] at hwrite
        cases (Prod.mk.inj hwrite).1
      | cons reply script =>
        rw [Writer.write, hscript] at hwrite
        cases reply with
        | accept n => cases (Prod.mk.inj hwrite).1
        | error e =>
          rw [← Except.error.inj (Prod.mk.inj hwrite).1]
          exact List.mem_cons_self
    · obtain rfl := Except.error.inj he'
      exact hkind
  | case5 writer written hge => exact ⟨List.suffix_rfl, fun e he => by cases he⟩

end Scripts

section Passes

variable {streams : List (List Byte)} {size k : Nat}

theorem StreamReadBuffer.finishBlock_asRef (buffer : StreamReadBuffer) {got : List Byte} {len : Nat}
    (hgot : buffer.bytes.take buffer.readLen = got) (hle : buffer.readLen ≤ len)
    (hbytes : len ≤ buffer.bytes.length) : (buffer.finishBlock len).asRef = resize got len := by
  have hlen : got.length = buffer.readLen := by
    rw [← hgot, List.length_take]
    omega
  rw [resize_of_le (by omega), hlen, ← hgot]
  simp only [asRef, finishBlock]
  by_cases hlt : buffer.readLen < len
  · have hcover := take_overwrite_append buffer.readLen
      (List.replicate (len - buffer.readLen) (zero : Byte)) buffer.bytes (by simp; omega)
    rw [List.length_replicate, Nat.add_sub_cancel' hle] at hcover
    rw [if_pos hlt, hcover]
  · obtain rfl : buffer.readLen = len := by omega
    rw [if_neg hlt, Nat.sub_self, List.replicate_zero, List.append_nil]

/-- What a reader delivers into any buffer when it does not fail. -/
theorem readLoop_ok (reader : Reader) (buf : List Byte) (maxLen total : Nat)
    (hbuf : buf.length = maxLen) (htotal : total ≤ maxLen) {n : Nat} {reader' : Reader}
    {buf' : List Byte} (h : readLoop reader buf maxLen total = (.ok n, reader', buf')) :
    n = total + min (maxLen - total) reader.pending.length ∧
      reader'.pending = reader.pending.drop (maxLen - total) ∧ buf'.length = maxLen ∧
      buf'.take n = buf.take total ++ reader.pending.take (maxLen - total) := by
  fun_induction readLoop reader buf maxLen total with
  | case1 reader buf total hlt reader₁ hread =>
    obtain ⟨-, -, hsplit, hend⟩ := Reader.read_ok hread
    have hnil := hend rfl (by omega)
    rw [hnil] at hsplit
    obtain ⟨h1, h2⟩ := Prod.mk.inj h
    obtain ⟨rfl, rfl⟩ := Prod.mk.inj h2
    obtain rfl : total = n := by simpa using h1
    exact ⟨by simp [hnil], by simpa [hnil] using hsplit.symm, hbuf, by simp [hnil]⟩
  | case2 reader buf total hlt b bytes reader₁ hread ih =>
    obtain ⟨-, hle, hsplit, -⟩ := Reader.read_ok hread
    simp only [List.length_cons] at hle
    obtain ⟨hn, hpending, hlen, htake⟩ := ih (by simpa using hbuf) (by omega) h
    have hroom : maxLen - (total + (bytes.length + 1)) = maxLen - total - (b :: bytes).length := by
      rw [List.length_cons]
      omega
    have hall : (b :: bytes).length ≤ maxLen - total := by simpa using hle
    refine ⟨?_, ?_, hlen, ?_⟩
    · rw [hn, hsplit, List.length_append, List.length_cons]
      omega
    · rw [hpending, hsplit, List.drop_append, List.drop_of_length_le hall, List.nil_append, hroom]
    · rw [htake, hsplit, List.take_append, List.take_of_length_le hall, ← List.append_assoc, hroom,
        ← List.length_cons, take_overwrite_append _ _ _ (by omega)]
  | case3 reader buf total hlt e reader₁ hread hkind ih =>
    obtain ⟨-, hpending⟩ := Reader.read_error hread
    rw [hpending] at ih
    exact ih hbuf htotal h
  | case4 reader buf total hlt e reader₁ hread hkind =>
    cases h
  | case5 reader buf total hge =>
    have hzero : maxLen - total = 0 := by omega
    obtain ⟨h1, h2⟩ := Prod.mk.inj h
    obtain ⟨rfl, rfl⟩ := Prod.mk.inj h2
    obtain rfl : total = n := by simpa using h1
    exact ⟨by simp [hzero], by simp [hzero], hbuf, by simp [hzero]⟩

/-- A reader that does not fail delivers its next bytes. -/
structure Reads (maxLen : Nat) (reader reader' : Reader) (buffer' : StreamReadBuffer) : Prop where
  pending_eq : reader'.pending = reader.pending.drop maxLen
  readLen_eq : buffer'.readLen = min maxLen reader.pending.length
  bytes_length : buffer'.bytes.length = maxLen
  take_eq : buffer'.bytes.take buffer'.readLen = reader.pending.take maxLen

theorem readStream_ok {reader reader' : Reader} {buffer buffer' : StreamReadBuffer}
    {maxLen index : Nat} (h : readStream maxLen index (reader, buffer) = (.ok (), reader', buffer')) :
    Reads maxLen reader reader' buffer' := by
  simp only [readStream, StreamReadBuffer.readFrom] at h
  rcases hrun : readOneStream reader buffer.bytes maxLen with ⟨e | total, last, bytes⟩
  · rw [hrun] at h
    cases h
  · rw [hrun] at h
    obtain ⟨-, h⟩ := Prod.mk.inj h
    obtain ⟨rfl, rfl⟩ := Prod.mk.inj h
    obtain ⟨hn, hpending, hlen, htake⟩ := readLoop_ok reader (prepareReadBuffer buffer.bytes maxLen)
      maxLen 0 (length_prepareReadBuffer _ _) (Nat.zero_le _) hrun
    exact ⟨by simpa using hpending, by simpa using hn, hlen, by simpa using htake⟩

theorem readStream_script (maxLen index : Nat) (stream : Reader × StreamReadBuffer) :
    (readStream maxLen index stream).2.1.script <:+ stream.1.script ∧
      ∀ e, (readStream maxLen index stream).1 = .error e →
        ∃ io, stream.1.Fails io ∧ e = .read index io := by
  have hloop := readLoop_script stream.1 (prepareReadBuffer stream.2.bytes maxLen) maxLen 0
  simp only [readStream, StreamReadBuffer.readFrom, readOneStream]
  rcases hrun : readLoop stream.1 (prepareReadBuffer stream.2.bytes maxLen) maxLen 0 with
    ⟨io | total, last, bytes⟩
  · rw [hrun] at hloop
    exact ⟨hloop.1, fun e he => ⟨io, hloop.2 io rfl, (Except.error.inj he).symm⟩⟩
  · rw [hrun] at hloop
    exact ⟨hloop.1, fun e he => by cases he⟩

/-- A pass succeeds when all of its tasks do, and else returns the error of one, in either mode. -/
theorem forEachStream_ok_or_error {ε α : Type} (pool : TryForEach.Pool) (time : Nat)
    (useParallelIo : Bool) (task : Nat → α → Except ε Unit × α) (items : List α) :
    forEachStream pool time useParallelIo task items =
        (.ok (), items.mapIdx fun i item => (task i item).2) ∧
      (∀ i item, items[i]? = some item → (task i item).1 = .ok ()) ∨
    ∃ e i item, items[i]? = some item ∧ (task i item).1 = .error e ∧
      (forEachStream pool time useParallelIo task items).1 = .error e := by
  have hcases : (∀ i item, items[i]? = some item → (task i item).1 = .ok ()) ∨
      ∃ e i item, items[i]? = some item ∧ (task i item).1 = .error e ∧
        (forEachStream pool time useParallelIo task items).1 = .error e := by
    cases useParallelIo with
    | true => exact pool.forEach_ok_or_error time task items
    | false => simpa [forEachStream] using TryForEach.forEach_ok_or_error task items 0
  rcases hcases with hok | herr
  · exact .inl ⟨forEachStream_eq pool time useParallelIo task items hok, hok⟩
  · exact .inr herr

/-- The readers and buffers once block `k` of every stream is read and padded. -/
structure Buffered (streams : List (List Byte)) (size k : Nat) (readers : List Reader)
    (buffers : List StreamReadBuffer) : Prop where
  pending_eq : readers.map Reader.pending = streams.map (List.drop ((k + 1) * size))
  asRef_eq : buffers.map StreamReadBuffer.asRef = (padded streams).map (blockOf size k)
  readLen_eq : buffers.map (·.readLen) = streams.map (ReedSolomon.deliveredLen size k)

theorem Buffered.length_eq {readers : List Reader} {buffers : List StreamReadBuffer}
    (h : Buffered streams size k readers buffers) : buffers.length = readers.length := by
  have h1 : buffers.length = streams.length := by simpa using congrArg List.length h.readLen_eq
  have h2 : readers.length = streams.length := by simpa using congrArg List.length h.pending_eq
  omega

section Delivered

variable {readers : List Reader} {after : List (Reader × StreamReadBuffer)}
  (hpending : readers.map Reader.pending = streams.map (List.drop (k * size)))

include hpending

theorem pending_getElem {i : Nat} (hi : i < readers.length) (hs : i < streams.length) :
    readers[i].pending = streams[i].drop (k * size) := by
  have := congrArg (·[i]?) hpending
  simpa [List.getElem?_map, hi, hs] using this

variable (hsize : after.length = readers.length)
  (hreads : ∀ (i : Nat) (h : i < after.length) (hi : i < readers.length),
    Reads size readers[i] after[i].1 after[i].2)

include hsize hreads

/-- What the streams deliver when each reads its own block. -/
theorem readLen_of_reads :
    after.map (·.2.readLen) = streams.map (ReedSolomon.deliveredLen size k) := by
  have hcount : readers.length = streams.length := by simpa using congrArg List.length hpending
  refine List.ext_getElem (by simp [hsize, hcount]) fun i h1 h2 => ?_
  simp only [List.length_map] at h1 h2
  simp only [List.getElem_map]
  rw [(hreads i h1 (by omega)).readLen_eq, pending_getElem hpending (by omega) h2,
    List.length_drop, ReedSolomon.deliveredLen]

/-- The blocks the streams deliver, padded to the longest one. -/
theorem asRef_of_reads :
    (after.map fun stream => stream.2.finishBlock (blockLen size k streams)).map
        StreamReadBuffer.asRef = (padded streams).map (blockOf size k) := by
  have hcount : readers.length = streams.length := by simpa using congrArg List.length hpending
  refine List.ext_getElem (by simp [hsize, hcount, padded]) fun i h1 h2 => ?_
  simp only [List.length_map] at h1
  have hs : i < streams.length := by omega
  obtain ⟨-, hread, hbytes, htake⟩ := hreads i h1 (by omega)
  rw [pending_getElem hpending (by omega) hs] at hread htake
  have hlongest := le_longest (List.getElem_mem hs)
  have hblock : blockLen size k streams = min size (longest streams - k * size) := rfl
  simp only [List.getElem_map, padded]
  rw [blockOf_resize hlongest, ← hblock]
  refine StreamReadBuffer.finishBlock_asRef _ htake ?_ ?_
  · rw [hread, List.length_drop]
    omega
  · rw [hbytes]
    omega

theorem buffered_of_reads :
    Buffered streams size k (after.map Prod.fst)
      (after.map fun stream => stream.2.finishBlock (blockLen size k streams)) := by
  have hcount : readers.length = streams.length := by simpa using congrArg List.length hpending
  refine ⟨?_, asRef_of_reads hpending hsize hreads, ?_⟩
  · refine List.ext_getElem (by simp [hsize, hcount]) fun i h1 h2 => ?_
    simp only [List.length_map] at h1 h2
    simp only [List.getElem_map]
    rw [(hreads i h1 (by omega)).pending_eq, pending_getElem hpending (by omega) h2,
      List.drop_drop, ← Nat.succ_mul]
  · rw [List.map_map, ← readLen_of_reads hpending hsize hreads]
    rfl

end Delivered

/-- A pass reads block `k` of each stream, whatever the buffers held, or returns the error of one
reader. -/
theorem readBlockWithMode_spec (pool : TryForEach.Pool) (time : Nat) (useParallelIo : Bool)
    {readers : List Reader} (buffers : List StreamReadBuffer)
    (hpending : readers.map Reader.pending = streams.map (List.drop (k * size)))
    (hlen : buffers.length = readers.length) :
    (∃ readers' buffers', readBlockWithMode pool time readers buffers size useParallelIo =
        (.ok (blockLen size k streams == 0, blockLen size k streams), readers', buffers') ∧
      Buffered streams size k readers' buffers' ∧
      Continues Reader.script readers readers') ∨
    ∃ i r e, readers[i]? = some r ∧ r.Fails e ∧
      (readBlockWithMode pool time readers buffers size useParallelIo).1 = .error (.read i e) := by
  rcases forEachStream_ok_or_error pool time useParallelIo (readStream size) (readers.zip buffers)
    with ⟨hpass, hok⟩ | ⟨e, i, stream, hi, herr, hpass⟩
  · left
    set after := (readers.zip buffers).mapIdx fun i stream => (readStream size i stream).2
      with hafter
    have hsize : after.length = readers.length := by simp [hafter, hlen]
    have heq (i : Nat) (h : i < after.length) (hi : i < readers.length) :
        after[i] = (readStream size i (readers[i], buffers[i])).2 := by simp [hafter]
    have hreads (i : Nat) (h : i < after.length) (hi : i < readers.length) :
        Reads size readers[i] after[i].1 after[i].2 := by
      have hzip : (readers.zip buffers)[i]? = some (readers[i], buffers[i]) :=
        List.getElem?_zip_eq_some.mpr
          ⟨List.getElem?_eq_getElem hi, List.getElem?_eq_getElem (by omega)⟩
      have hrun : readStream size i (readers[i], buffers[i]) = (.ok (), after[i].1, after[i].2) := by
        rw [heq i h hi, ← hok i _ hzip]
      exact readStream_ok hrun
    refine ⟨after.map Prod.fst, _, ?_, buffered_of_reads hpending hsize hreads, fun i r hr => ?_⟩
    · simp only [readBlockWithMode, hpass]
      rw [readLen_of_reads hpending hsize hreads, max_delivered]
    · rw [List.getElem?_map, Option.map_eq_some_iff] at hr
      obtain ⟨stream, hi, rfl⟩ := hr
      obtain ⟨hlt, rfl⟩ := List.getElem?_eq_some_iff.mp hi
      refine ⟨_, List.getElem?_eq_getElem (by omega), ?_⟩
      rw [heq i hlt (by omega)]
      exact (readStream_script size i (readers[i], buffers[i])).1
  · right
    obtain ⟨h1, -⟩ := List.getElem?_zip_eq_some.mp hi
    obtain ⟨io, hfail, rfl⟩ := (readStream_script size i stream).2 e herr
    refine ⟨i, stream.1, io, h1, hfail, ?_⟩
    rcases hrun : forEachStream pool time useParallelIo (readStream size) (readers.zip buffers) with
      ⟨result, streams'⟩
    rw [hrun] at hpass
    simp only at hpass
    subst hpass
    simp only [readBlockWithMode, hrun]

/-- A writer takes a part of what is left of its block, and all of it unless it fails. -/
theorem writeLoop_takes (zero : IoError) (writer : Writer) (buf : List Byte) (len written : Nat)
    (hlen : len ≤ buf.length) (hle : written ≤ len) :
    ∃ n, written ≤ n ∧ n ≤ len ∧
      (writeLoop zero writer buf len written).2.written = writer.written ++ slice buf written n ∧
      ((writeLoop zero writer buf len written).1 = .ok () → n = len) := by
  have hnil : slice buf written written = [] := by rw [slice, Nat.sub_self, List.take_zero]
  fun_induction writeLoop zero writer buf len written with
  | case1 writer written hlt writer' hwrite =>
    obtain ⟨-, -, htaken⟩ := Writer.write_ok hwrite
    exact ⟨written, le_rfl, hle, by rw [htaken, hnil, List.take_zero], fun h => by cases h⟩
  | case2 writer written hlt n writer' hwrite ih =>
    obtain ⟨-, hn, htaken⟩ := Writer.write_ok hwrite
    rw [length_slice _ _ _ hlen] at hn
    obtain ⟨m, hm, hmlen, hlast, hok⟩ := ih (by omega) (by rw [slice, Nat.sub_self, List.take_zero])
    have hpart : (slice buf written len).take (n + 1) = slice buf written (written + (n + 1)) := by
      rw [slice, slice, List.take_take, Nat.min_eq_left hn, Nat.add_sub_cancel_left]
    refine ⟨m, by omega, hmlen, ?_, hok⟩
    rw [hlast, htaken, hpart, List.append_assoc, slice_append _ (Nat.le_add_right _ _) hm]
  | case3 writer written hlt e writer' hwrite hkind ih =>
    obtain ⟨-, hsame⟩ := Writer.write_error hwrite
    obtain ⟨m, hm, hmlen, hlast, hok⟩ := ih hle hnil
    exact ⟨m, hm, hmlen, by rw [hlast, hsame], hok⟩
  | case4 writer written hlt e writer' hwrite hkind =>
    obtain ⟨-, hsame⟩ := Writer.write_error hwrite
    exact ⟨written, le_rfl, hle, by rw [hsame, hnil, List.append_nil], fun h => by cases h⟩
  | case5 writer written hge =>
    exact ⟨written, le_rfl, hle, by rw [hnil, List.append_nil], fun _ => by omega⟩

/-- What a pass over the writers leaves: each holds a part of its block behind what it had. -/
structure WroteBlock (buffers : List (List Byte)) (len shardOffset : Nat)
    (writers writers' : List Writer) (result : Except StreamError Unit) : Prop where
  length_eq : writers'.length = writers.length
  taken : ∀ (j : Nat) (w w' : Writer), writers[j]? = some w → writers'[j]? = some w' →
    ∃ n, n ≤ len ∧ w'.written = w.written ++ (buffers.getD j []).take n ∧
      (result = .ok () → n = len)
  error : ∀ e, result = .error e →
    ∃ j w io, writers[j]? = some w ∧ w.Fails io ∧ e = .write (shardOffset + j) io
  continues : Continues Writer.script writers writers'

theorem writeBlock_wrote {writers : List Writer} (buffers : List (List Byte)) (len shardOffset : Nat)
    (hcount : buffers.length = writers.length) (hlen : ∀ buf ∈ buffers, len ≤ buf.length) :
    WroteBlock buffers len shardOffset writers (writeBlock writers buffers len shardOffset).2
      (writeBlock writers buffers len shardOffset).1 := by
  induction writers generalizing buffers shardOffset with
  | nil =>
    refine ⟨by simp [writeBlock], fun j w w' hw => ?_, fun e he => ?_, .refl _ _⟩
    · cases hw
    · simp [writeBlock] at he
  | cons writer writers ih =>
    cases buffers with
    | nil => cases hcount
    | cons buf buffers =>
      have hbuf := hlen buf List.mem_cons_self
      obtain ⟨n, -, hn, hwritten, hall⟩ := writeLoop_takes writeZeroError writer buf len 0 hbuf
        (Nat.zero_le len)
      have hrest := ih buffers (shardOffset + 1) (Nat.succ.inj hcount)
        (fun b hb => hlen b (List.mem_cons_of_mem _ hb))
      obtain ⟨hscript, hfails⟩ := writeLoop_script writer buf len 0 hbuf
      rcases hrun : writeLoop writeZeroError writer buf len 0 with ⟨e | u, writer'⟩
      · rw [hrun] at hwritten hscript hfails
        simp only [writeBlock, hrun]
        refine ⟨by simp, fun j w w' hw hw' => ?_, fun e' he' => ?_, fun j w' hw' => ?_⟩
        · cases j with
          | zero =>
            obtain rfl : writer = w := by simpa using hw
            obtain rfl : writer' = w' := by simpa using hw'
            exact ⟨n, hn, hwritten, fun h => by cases h⟩
          | succ j =>
            have hsame : w = w' := Option.some.inj (hw.symm.trans hw')
            exact ⟨0, Nat.zero_le _, by rw [hsame, List.take_zero, List.append_nil], fun h => by cases h⟩
        · exact ⟨0, writer, e, rfl, hfails e rfl, (Except.error.inj he').symm⟩
        · cases j with
          | zero =>
            obtain rfl : writer' = w' := by simpa using hw'
            exact ⟨writer, rfl, hscript⟩
          | succ j => exact ⟨w', hw', List.suffix_rfl⟩
      · rw [hrun] at hwritten hall hscript
        simp only [writeBlock, hrun]
        refine ⟨by simp [hrest.length_eq], fun j w w' hw hw' => ?_, fun e' he' => ?_,
          fun j w' hw' => ?_⟩
        · cases j with
          | zero =>
            obtain rfl : writer = w := by simpa using hw
            obtain rfl : writer' = w' := by simpa using hw'
            exact ⟨n, hn, hwritten, fun _ => hall rfl⟩
          | succ j => exact hrest.taken j w w' hw hw'
        · obtain ⟨j, w, io, hj, hfail, rfl⟩ := hrest.error e' he'
          exact ⟨j + 1, w, io, hj, hfail, by rw [Nat.add_right_comm, Nat.add_assoc]⟩
        · cases j with
          | zero =>
            obtain rfl : writer' = w' := by simpa using hw'
            exact ⟨writer, rfl, hscript⟩
          | succ j => exact hrest.continues j w' hw'

/-- A task of `write_block_par` fails with the error that ends its loop. -/
theorem writeFate_eq {writers : List Writer} {buffers : List (List Byte)} {len i : Nat}
    {fate : Option IoError} (hw : i < writers.length) (hb : i < buffers.length)
    (h : writeFate writers buffers len i = fate) :
    (writeLoop writeZeroError writers[i] buffers[i] len 0).1 = fate.elim (.ok ()) .error := by
  simp only [writeFate, List.getElem?_eq_getElem hw, List.getElem?_eq_getElem hb] at h
  rcases hloop : (writeLoop writeZeroError writers[i] buffers[i] len 0).1 with e | u
  · rw [hloop] at h
    rw [← h]
    rfl
  · rw [hloop] at h
    rw [← h]
    rfl

/-- Without a failing writer every task of `write_block_par` has returned. -/
theorem returned_of_not_writerFails (pool : TryForEach.Pool) (time : Nat) {writers : List Writer}
    {buffers : List (List Byte)} {len : Nat} (shardOffset : Nat)
    (hnone : ∀ i, ¬WriterFails writers buffers len i) {i : Nat} (hw : i < writers.length)
    (hb : i < buffers.length) :
    writeFate writers buffers len i = none ∧
      (pool.run time (writeBlockPar writers buffers len shardOffset) none).tasks i =
        .returned true := by
  have hall (j : Nat) (hj : j < min writers.length buffers.length) :
      writeFate writers buffers len j = none :=
    Option.not_isSome_iff_eq_none.mp fun h => hnone j ⟨hj, h⟩
  have hi : i < min writers.length buffers.length := lt_min hw hb
  set job := writeBlockPar writers buffers len shardOffset
  exact ⟨hall i hi, (TryForEach.complete_of_no_fate (pool.reaches time job none)
    (pool.complete time job none) hall).2.2 i hi⟩

/-- A writer ends as its task leaves it, or was never reached. -/
theorem getElem?_writersAfter {σ : Type} (s : TryForEach.State σ) {writers : List Writer}
    {buffers : List (List Byte)} (len : Nat) {j : Nat} (hw : j < writers.length)
    (hb : j < buffers.length) :
    let after := (TryForEach.itemsAfter (writeStream len) s (writers.zip buffers)).map Prod.fst
    after[j]? = some (writeLoop writeZeroError writers[j] buffers[j] len 0).2 ∨
      after[j]? = some writers[j] ∧ s.tasks j ≠ .returned true := by
  rcases htask : s.tasks j with _ | _ | _ | ok | _
  case returned =>
    left
    simp [TryForEach.itemsAfter, htask, writeStream, hw, hb]
  all_goals
    right
    simp [TryForEach.itemsAfter, htask, hw, hb]

/-- The parallel pass over the writers, under any schedule. -/
theorem writeBlockPar_wrote (pool : TryForEach.Pool) (time : Nat) (writers : List Writer)
    (buffers : List (List Byte)) (len shardOffset : Nat)
    (hcount : buffers.length = writers.length) (hlen : ∀ buf ∈ buffers, len ≤ buf.length) :
    let job := writeBlockPar writers buffers len shardOffset
    let s := pool.run time job none
    WroteBlock buffers len shardOffset writers
      ((TryForEach.itemsAfter (writeStream len) s (writers.zip buffers)).map Prod.fst)
      (writeBlockParResult job shardOffset s) := by
  intro job s
  have hresult := writeBlockParResult_cases (pool.reaches time job none)
    (pool.complete time job none)
  have hsize : ((TryForEach.itemsAfter (writeStream len) s (writers.zip buffers)).map
      Prod.fst).length = writers.length := by
    simp [TryForEach.itemsAfter, hcount]
  have hreturned (hres : writeBlockParResult job shardOffset s = .ok ()) (i : Nat)
      (hi : i < writers.length) :
      writeFate writers buffers len i = none ∧ s.tasks i = .returned true := by
    rcases hresult with ⟨-, hnone⟩ | ⟨i, e, -, -, herr⟩
    · exact returned_of_not_writerFails pool time shardOffset hnone hi (by omega)
    · have hclash := hres.symm.trans herr
      cases hclash
  refine ⟨hsize, fun j w w' hw hw' => ?_, fun e he => ?_, fun j w' hw' => ?_⟩
  · obtain ⟨hj, rfl⟩ := List.getElem?_eq_some_iff.mp hw
    have hb : j < buffers.length := by omega
    obtain ⟨n, -, hn, hwritten, hall⟩ := writeLoop_takes writeZeroError writers[j] buffers[j] len 0
      (hlen _ (List.getElem_mem hb)) (Nat.zero_le len)
    rw [List.getD_eq_getElem _ _ hb]
    rcases getElem?_writersAfter s len hj hb with hsome | ⟨hsome, hidle⟩
    · obtain rfl := Option.some.inj (hsome.symm.trans hw')
      exact ⟨n, hn, hwritten, fun hres => hall (writeFate_eq hj hb (hreturned hres j hj).1)⟩
    · obtain rfl := Option.some.inj (hsome.symm.trans hw')
      exact ⟨0, Nat.zero_le _, by rw [List.take_zero, List.append_nil],
        fun hres => absurd (hreturned hres j hj).2 hidle⟩
  · rcases hresult with ⟨hres, -⟩ | ⟨i, io, hfails, hfate, herr⟩
    · have hclash := hres.symm.trans he
      cases hclash
    · have hi : i < writers.length := lt_of_lt_of_le hfails.1 (Nat.min_le_left _ _)
      have hb : i < buffers.length := lt_of_lt_of_le hfails.1 (Nat.min_le_right _ _)
      have hfail := (writeLoop_script writers[i] buffers[i] len 0 (hlen _ (List.getElem_mem hb))).2
        io (writeFate_eq hi hb hfate)
      exact ⟨i, writers[i], io, List.getElem?_eq_getElem hi, hfail,
        Except.error.inj (he.symm.trans herr)⟩
  · have hj : j < writers.length := by
      rw [← hsize]
      exact (List.getElem?_eq_some_iff.mp hw').1
    have hb : j < buffers.length := by omega
    refine ⟨writers[j], List.getElem?_eq_getElem hj, ?_⟩
    rcases getElem?_writersAfter s len hj hb with hsome | ⟨hsome, -⟩
    · obtain rfl := Option.some.inj (hsome.symm.trans hw')
      exact (writeLoop_script writers[j] buffers[j] len 0 (hlen _ (List.getElem_mem hb))).1
    · obtain rfl := Option.some.inj (hsome.symm.trans hw')
      exact List.suffix_rfl

/-- A pass over the writers, in either mode and with any failures. -/
theorem writeBlockWithMode_wrote (pool : TryForEach.Pool) (time : Nat) (useParallelIo : Bool)
    (writers : List Writer) (buffers : List (List Byte)) (len shardOffset : Nat)
    (hcount : buffers.length = writers.length) (hlen : ∀ buf ∈ buffers, len ≤ buf.length) :
    WroteBlock buffers len shardOffset writers
      (writeBlockWithMode pool time writers buffers len shardOffset useParallelIo).2
      (writeBlockWithMode pool time writers buffers len shardOffset useParallelIo).1 := by
  cases useParallelIo with
  | false => exact writeBlock_wrote buffers len shardOffset hcount hlen
  | true => exact writeBlockPar_wrote pool time writers buffers len shardOffset hcount hlen

end Passes

end Stream

end ErasureCodec
