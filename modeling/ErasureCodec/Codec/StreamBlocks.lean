import ErasureCodec.Codec.Encode
import ErasureCodec.Codec.StreamIo

namespace ErasureCodec

namespace Stream

section Options

def minBlockSizeBytes : Nat := 1024

def maxBlockSizeBytes : Nat := 16 * 1024 * 1024

inductive StreamIoMode where
  | auto
  | serial
  | parallel
  deriving Repr, DecidableEq

structure StreamOptions where
  blockSize : Nat := 4 * 1024 * 1024
  ioMode : StreamIoMode := .auto
  deriving Repr, DecidableEq

/-- `clamp(MIN_BLOCK_SIZE_BYTES, MAX_BLOCK_SIZE_BYTES)`. -/
def clampBlockSize (size : Nat) : Nat := max minBlockSizeBytes (min size maxBlockSizeBytes)

def useParallelStreamIoAuto (blockSize streamCount : Nat) : Bool :=
  decide (blockSize ≥ 4 * 1024 * 1024 ∧ streamCount ≥ 10)

def useParallelStreamIo (options : StreamOptions) (streamCount : Nat) : Bool :=
  match options.ioMode with
  | .serial => false
  | .parallel => true
  | .auto => useParallelStreamIoAuto options.blockSize streamCount

def validateStreamCount (actual expected : Nat) : Outcome StreamError Unit :=
  if actual < expected then .err (.codec 0 .tooFewShards)
  else if actual > expected then .err (.codec 0 .tooManyShards)
  else .ok ()

theorem clampBlockSize_pos (size : Nat) : 0 < clampBlockSize size :=
  lt_of_lt_of_le (by decide) (Nat.le_max_left _ _)

end Options

section Readers

/-- The answer to one call of `read`: at most `n + 1` bytes, or an error. -/
inductive ReadReply where
  | give (n : Nat)
  | error (e : IoError)
  deriving Repr, DecidableEq

/-- A reader: its next answers, and the bytes it has not delivered yet. When the
answers run out it delivers all it is asked for; behind the last byte it stays
at the end. -/
structure Reader where
  script : List ReadReply
  pending : List Byte
  deriving DecidableEq

/-- `Read::read` into a buffer of `room` bytes. -/
def Reader.read (reader : Reader) (room : Nat) : Except IoError (List Byte) × Reader :=
  match reader.script with
  | [] => (.ok (reader.pending.take room), ⟨[], reader.pending.drop room⟩)
  | .give n :: script =>
    (.ok (reader.pending.take (min (n + 1) room)), ⟨script, reader.pending.drop (min (n + 1) room)⟩)
  | .error e :: script => (.error e, ⟨script, reader.pending⟩)

theorem Reader.read_ok {reader reader' : Reader} {room : Nat} {bytes : List Byte}
    (h : reader.read room = (.ok bytes, reader')) :
    reader'.script.length ≤ reader.script.length ∧ bytes.length ≤ room ∧
      reader.pending = bytes ++ reader'.pending ∧
      (bytes = [] → 0 < room → reader.pending = []) := by
  unfold Reader.read at h
  split at h
  · rename_i hscript
    obtain ⟨h1, rfl⟩ := Prod.mk.inj h
    obtain rfl : reader.pending.take room = bytes := by simpa using h1
    refine ⟨by simp, by simp, by simp, fun hnil hroom => ?_⟩
    simp only [List.take_eq_nil_iff] at hnil
    exact hnil.resolve_left (by omega)
  · rename_i n script hscript
    obtain ⟨h1, rfl⟩ := Prod.mk.inj h
    obtain rfl : reader.pending.take (min (n + 1) room) = bytes := by simpa using h1
    refine ⟨by simp [hscript], ?_, by simp, fun hnil hroom => ?_⟩
    · rw [List.length_take]
      omega
    · simp only [List.take_eq_nil_iff] at hnil
      exact hnil.resolve_left (by omega)
  · simp at h

theorem Reader.read_error {reader reader' : Reader} {room : Nat} {e : IoError}
    (h : reader.read room = (.error e, reader')) :
    reader.script = .error e :: reader'.script ∧ reader'.pending = reader.pending := by
  unfold Reader.read at h
  split at h
  · simp at h
  · simp at h
  · rename_i e' script hscript
    obtain ⟨h1, rfl⟩ := Prod.mk.inj h
    obtain rfl : e' = e := by simpa using h1
    exact ⟨hscript, rfl⟩

/-- `Vec::resize` with zeros. -/
def resize (buf : List Byte) (len : Nat) : List Byte :=
  buf.take len ++ List.replicate (len - buf.length) CodecField.zero

@[simp] theorem length_resize (buf : List Byte) (len : Nat) : (resize buf len).length = len := by
  simp [resize]
  omega

def prepareReadBuffer (buf : List Byte) (maxLen : Nat) : List Byte :=
  match compare buf.length maxLen with
  | .lt => resize buf maxLen
  | .gt => buf.take maxLen
  | .eq => buf

@[simp] theorem length_prepareReadBuffer (buf : List Byte) (maxLen : Nat) :
    (prepareReadBuffer buf maxLen).length = maxLen := by
  unfold prepareReadBuffer
  split
  · simp
  · rename_i h
    rw [List.length_take, Nat.min_eq_left (Nat.compare_eq_gt.mp h).le]
  · rename_i h
    exact Nat.compare_eq_eq.mp h

/-- The loop of `read_one_stream`: `total` bytes of the buffer are filled. -/
def readLoop (reader : Reader) (buf : List Byte) (maxLen total : Nat) :
    Except IoError Nat × Reader × List Byte :=
  if _hlt : total < maxLen then
    match h : reader.read (maxLen - total) with
    | (.ok [], reader) => (.ok total, reader, buf)
    | (.ok (b :: bytes), reader) =>
      readLoop reader (overwrite total (b :: bytes) buf) maxLen (total + (bytes.length + 1))
    | (.error e, reader) =>
      if e.kind = .interrupted then readLoop reader buf maxLen total else (.error e, reader, buf)
  else (.ok total, reader, buf)
termination_by reader.script.length + (maxLen - total)
decreasing_by
  · have := Reader.read_ok h
    simp only [List.length_cons] at this
    omega
  · rw [(Reader.read_error h).1, List.length_cons]
    omega

/-- `read_one_stream`: the bytes read, the reader and the buffer. -/
def readOneStream (reader : Reader) (buf : List Byte) (maxLen : Nat) :
    Except IoError Nat × Reader × List Byte :=
  readLoop reader (prepareReadBuffer buf maxLen) maxLen 0

/-- A reader that only ever interrupts its caller or delivers less than it could. -/
def Reader.Cooperative (reader : Reader) : Prop :=
  ∀ e, .error e ∈ reader.script → e.kind = .interrupted

theorem Reader.Cooperative.tail {reader : Reader} (h : reader.Cooperative) {room : Nat}
    {result : Except IoError (List Byte)} {reader' : Reader}
    (hread : reader.read room = (result, reader')) : reader'.Cooperative := by
  unfold Reader.read at hread
  intro e he
  apply h e
  split at hread
  all_goals
    obtain ⟨-, rfl⟩ := Prod.mk.inj hread
    simp_all

/-- A cooperative reader fills the buffer as far as it has bytes, in however many
calls. -/
theorem readLoop_spec (reader : Reader) (buf : List Byte) (maxLen total : Nat)
    (h : reader.Cooperative) (hbuf : buf.length = maxLen) (htotal : total ≤ maxLen) :
    ∃ reader' buf', readLoop reader buf maxLen total =
        (.ok (total + min (maxLen - total) reader.pending.length), reader', buf') ∧
      reader'.Cooperative ∧ reader'.pending = reader.pending.drop (maxLen - total) ∧
      buf'.length = maxLen ∧
      buf'.take (total + min (maxLen - total) reader.pending.length) =
        buf.take total ++ reader.pending.take (maxLen - total) := by
  fun_induction readLoop reader buf maxLen total with
  | case1 reader buf total hlt reader' hread =>
    obtain ⟨-, -, hsplit, hend⟩ := Reader.read_ok hread
    have hnil := hend rfl (by omega)
    rw [hnil] at hsplit
    refine ⟨reader', buf, by simp [hnil], h.tail hread, ?_, hbuf, by simp [hnil]⟩
    simpa [hnil] using hsplit.symm
  | case2 reader buf total hlt b bytes reader' hread ih =>
    obtain ⟨-, hle, hsplit, -⟩ := Reader.read_ok hread
    simp only [List.length_cons] at hle
    obtain ⟨last, buf', hrun, hcoop, hpending, hlen, htake⟩ :=
      ih (h.tail hread) (by simpa using hbuf) (by omega)
    have hcount : total + (bytes.length + 1) +
        min (maxLen - (total + (bytes.length + 1))) reader'.pending.length =
          total + min (maxLen - total) reader.pending.length := by
      rw [hsplit, List.length_append, List.length_cons]
      omega
    rw [hcount] at hrun htake
    have hroom : maxLen - (total + (bytes.length + 1)) = maxLen - total - (b :: bytes).length := by
      rw [List.length_cons]
      omega
    have hall : (b :: bytes).length ≤ maxLen - total := by simpa using hle
    refine ⟨last, buf', hrun, hcoop, ?_, hlen, ?_⟩
    · rw [hpending, hsplit, List.drop_append, List.drop_of_length_le hall, List.nil_append, hroom]
    · rw [htake, hsplit, List.take_append, List.take_of_length_le hall, ← List.append_assoc, hroom,
        ← List.length_cons, take_overwrite_append _ _ _ (by omega)]
  | case3 reader buf total hlt e reader' hread hkind ih =>
    obtain ⟨-, hpending⟩ := Reader.read_error hread
    rw [hpending] at ih
    exact ih (h.tail hread) hbuf htotal
  | case4 reader buf total hlt e reader' hread hkind =>
    obtain ⟨hscript, -⟩ := Reader.read_error hread
    exact absurd (h e (by simp [hscript])) hkind
  | case5 reader buf total hge =>
    have hzero : maxLen - total = 0 := by omega
    exact ⟨reader, buf, by simp [hzero], h, by simp [hzero], hbuf, by simp [hzero]⟩

/-- What a cooperative reader delivers into any buffer. -/
theorem readOneStream_spec (reader : Reader) (buf : List Byte) (maxLen : Nat)
    (h : reader.Cooperative) :
    ∃ reader' buf', readOneStream reader buf maxLen =
        (.ok (min maxLen reader.pending.length), reader', buf') ∧
      reader'.Cooperative ∧ reader'.pending = reader.pending.drop maxLen ∧ buf'.length = maxLen ∧
      buf'.take (min maxLen reader.pending.length) = reader.pending.take maxLen := by
  have hloop := readLoop_spec reader (prepareReadBuffer buf maxLen) maxLen 0 h
    (length_prepareReadBuffer buf maxLen) (Nat.zero_le _)
  simpa [readOneStream] using hloop

end Readers

section Writers

/-- A writer that only ever interrupts its caller or takes a part of what it is given. -/
def Writer.Cooperative (writer : Writer) : Prop :=
  ∀ reply ∈ writer.script, match reply with
    | .accept n => 0 < n
    | .error e => e.kind = .interrupted

theorem Writer.Cooperative.tail {writer : Writer} (h : writer.Cooperative) {buf : List Byte}
    {result : Except IoError Nat} {writer' : Writer} (hwrite : writer.write buf = (result, writer')) :
    writer'.Cooperative := by
  unfold Writer.write at hwrite
  intro reply hreply
  apply h reply
  split at hwrite
  all_goals
    obtain ⟨-, rfl⟩ := Prod.mk.inj hwrite
    simp_all

/-- A cooperative writer takes something. -/
theorem Writer.Cooperative.pos {writer : Writer} (h : writer.Cooperative) {buf : List Byte}
    (hbuf : buf ≠ []) {n : Nat} {writer' : Writer}
    (hwrite : writer.write buf = (.ok n, writer')) : 0 < n := by
  have hlen := List.length_pos_iff.mpr hbuf
  unfold Writer.write at hwrite
  split at hwrite
  · obtain ⟨h1, -⟩ := Prod.mk.inj hwrite
    obtain rfl : buf.length = n := by simpa using h1
    exact hlen
  · rename_i m script hscript
    obtain ⟨h1, -⟩ := Prod.mk.inj hwrite
    obtain rfl : min m buf.length = n := by simpa using h1
    have hm : 0 < m := h (.accept m) (by simp [hscript])
    omega
  · simp at hwrite

theorem Writer.Cooperative.interrupted {writer : Writer} (h : writer.Cooperative)
    {buf : List Byte} {e : IoError} {writer' : Writer}
    (hwrite : writer.write buf = (.error e, writer')) : e.kind = .interrupted := by
  unfold Writer.write at hwrite
  split at hwrite
  · simp at hwrite
  · simp at hwrite
  · rename_i e' script hscript
    obtain ⟨h1, -⟩ := Prod.mk.inj hwrite
    obtain rfl : e' = e := by simpa using h1
    exact h (.error e') (by simp [hscript])

/-- A cooperative writer takes the whole block, in however many calls. -/
theorem writeLoop_spec (zero : IoError) (writer : Writer) (buf : List Byte) (len written : Nat)
    (h : writer.Cooperative) (hlen : len ≤ buf.length) :
    ∃ writer', writeLoop zero writer buf len written = (.ok (), writer') ∧ writer'.Cooperative ∧
      writer'.written = writer.written ++ slice buf written len := by
  fun_induction writeLoop zero writer buf len written with
  | case1 writer written hlt writer' hwrite =>
    have hne : slice buf written len ≠ [] := by
      intro hnil
      have := length_slice buf written len hlen
      rw [hnil, List.length_nil] at this
      omega
    exact absurd (h.pos hne hwrite) (lt_irrefl 0)
  | case2 writer written hlt n writer' hwrite ih =>
    obtain ⟨last, hrun, hcoop, hwritten⟩ := ih (h.tail hwrite)
    obtain ⟨-, hn, htaken⟩ := Writer.write_ok hwrite
    refine ⟨last, hrun, hcoop, ?_⟩
    rw [length_slice _ _ _ hlen] at hn
    have hrest : slice buf (written + (n + 1)) len = (slice buf written len).drop (n + 1) := by
      simp only [slice, List.drop_take, List.drop_drop]
      congr 1
      omega
    rw [hwritten, htaken, List.append_assoc, hrest, List.take_append_drop]
  | case3 writer written hlt e writer' hwrite hkind ih =>
    obtain ⟨-, hwritten⟩ := Writer.write_error hwrite
    obtain ⟨last, hrun, hcoop, hlast⟩ := ih (h.tail hwrite)
    exact ⟨last, hrun, hcoop, by rw [hlast, hwritten]⟩
  | case4 writer written hlt e writer' hwrite hkind =>
    exact absurd (h.interrupted hwrite) hkind
  | case5 writer written hge =>
    refine ⟨writer, rfl, h, ?_⟩
    rw [slice, show len - written = 0 by omega, List.take_zero, List.append_nil]

end Writers

section Passes

/-- A pass over streams that each have a task: on the pool, or one after the other. -/
def forEachStream {ε α : Type} (pool : TryForEach.Pool) (time : Nat) (useParallelIo : Bool)
    (task : Nat → α → Except ε Unit × α) (items : List α) : Except ε Unit × List α :=
  if useParallelIo then pool.forEach time task items else TryForEach.forEach task 0 items

/-- Reading one block of a present stream; the buffer keeps what was read. -/
def readPresent (maxLen index : Nat) (stream : Option Reader × List Byte) :
    Except StreamError Unit × (Option Reader × List Byte) :=
  match stream with
  | (some reader, buf) =>
    match readOneStream reader buf maxLen with
    | (.ok total, reader, buf) => (.ok (), some reader, buf.take total)
    | (.error e, reader, buf) => (.error (.read index e), some reader, buf)
  | (none, buf) => (.ok (), none, buf)

/-- The length check behind a reading pass; missing buffers do not count. -/
def checkPresentLengths (streams : List (Option Reader × List Byte)) :
    Except StreamError (Bool × Nat) :=
  let actualLen := ((streams.filter fun stream => stream.1.isSome).map (·.2.length)).max?.getD 0
  let bad :=
    if actualLen ≠ 0 then
      streams.findIdx? fun stream => stream.1.isSome && stream.2.length != actualLen
    else none
  match bad with
  | some bad => .error (.codec bad .incorrectShardSize)
  | none => .ok (actualLen == 0, actualLen)

/-- `read_present_streams_with_mode`: the result, the readers and the buffers. -/
def readPresentStreamsWithMode (pool : TryForEach.Pool) (time : Nat)
    (readers : List (Option Reader)) (buffers : List (List Byte)) (maxLen : Nat)
    (useParallelIo : Bool) :
    Except StreamError (Bool × Nat) × List (Option Reader) × List (List Byte) :=
  let (result, streams) :=
    forEachStream pool time useParallelIo (readPresent maxLen) (readers.zip buffers)
  (result >>= fun _ => checkPresentLengths streams, streams.map Prod.fst, streams.map Prod.snd)

def writeAllError : IoError := ⟨.writeZero, "failed to write whole buffer"⟩

/-- Writing one recovered block to its writer. -/
def writeMissing (len index : Nat) (stream : Option Writer × List Byte) :
    Except StreamError Unit × (Option Writer × List Byte) :=
  match stream with
  | (some writer, buf) =>
    match writeLoop writeAllError writer buf len 0 with
    | (.ok (), writer) => (.ok (), some writer, buf)
    | (.error e, writer) => (.error (.write index e), some writer, buf)
  | (none, buf) => (.ok (), none, buf)

/-- `write_missing_streams_with_mode`: the result and the writers. -/
def writeMissingStreamsWithMode (pool : TryForEach.Pool) (time : Nat)
    (writers : List (Option Writer)) (buffers : List (List Byte)) (len : Nat)
    (useParallelIo : Bool) : Except StreamError Unit × List (Option Writer) :=
  let (result, streams) :=
    forEachStream pool time useParallelIo (writeMissing len) (writers.zip buffers)
  (result, streams.map Prod.fst)

theorem forEachStream_eq {ε α : Type} (pool : TryForEach.Pool) (time : Nat)
    (useParallelIo : Bool) (task : Nat → α → Except ε Unit × α) (items : List α)
    (h : ∀ i item, items[i]? = some item → (task i item).1 = .ok ()) :
    forEachStream pool time useParallelIo task items =
      (.ok (), items.mapIdx fun i item => (task i item).2) := by
  unfold forEachStream
  cases useParallelIo with
  | true => exact pool.forEach_eq time items h
  | false => simpa using TryForEach.forEach_eq items 0 (fun i item hi => by simpa using h i item hi)

/-- What the readers have still to deliver. -/
def pendings (readers : List (Option Reader)) : List (Option (List Byte)) :=
  readers.map (Option.map Reader.pending)

/-- What the writers have taken. -/
def writtens (writers : List (Option Writer)) : List (Option (List Byte)) :=
  writers.map (Option.map Writer.written)

/-- The buffers after a pass that read up to `maxLen` bytes of every present stream. -/
def blockBuffers (rests : List (Option (List Byte))) (buffers : List (List Byte)) (maxLen : Nat) :
    List (List Byte) :=
  List.zipWith (fun rest buf => (rest.map (List.take maxLen)).getD buf) rests buffers

theorem readPresent_spec {reader : Option Reader} (h : ∀ r, reader = some r → r.Cooperative)
    (buf : List Byte) (maxLen index : Nat) :
    (readPresent maxLen index (reader, buf)).1 = .ok () ∧
      (∀ r, (readPresent maxLen index (reader, buf)).2.1 = some r → r.Cooperative) ∧
      (readPresent maxLen index (reader, buf)).2.1.map Reader.pending =
        (reader.map Reader.pending).map (List.drop maxLen) ∧
      (readPresent maxLen index (reader, buf)).2.2 =
        ((reader.map Reader.pending).map (List.take maxLen)).getD buf := by
  cases reader with
  | none => simp [readPresent]
  | some reader =>
    obtain ⟨reader', buf', hrun, hcoop, hpending, -, htake⟩ :=
      readOneStream_spec reader buf maxLen (h reader rfl)
    simp only [readPresent, hrun]
    exact ⟨trivial, fun r hr => by obtain rfl := Option.some.inj hr; exact hcoop, by simp [hpending],
      by simpa using htake⟩

/-- A pass over cooperative readers reads one block of each present stream, in
either mode. -/
theorem readPresentStreams_spec (pool : TryForEach.Pool) (time : Nat) (useParallelIo : Bool)
    {readers : List (Option Reader)} (buffers : List (List Byte)) (maxLen : Nat)
    (h : ∀ r, some r ∈ readers → r.Cooperative) (hlen : buffers.length = readers.length) :
    ∃ readers', (∀ r, some r ∈ readers' → r.Cooperative) ∧
      pendings readers' = (pendings readers).map (Option.map (List.drop maxLen)) ∧
      readPresentStreamsWithMode pool time readers buffers maxLen useParallelIo =
        (checkPresentLengths (readers'.zip (blockBuffers (pendings readers) buffers maxLen)),
          readers', blockBuffers (pendings readers) buffers maxLen) := by
  have hreader (i : Nat) (stream : Option Reader × List Byte)
      (hi : (readers.zip buffers)[i]? = some stream) (r : Reader) (hr : stream.1 = some r) :
      r.Cooperative := by
    apply h
    rw [← hr]
    exact (List.of_mem_zip (List.mem_of_getElem? hi)).1
  have hpass := forEachStream_eq pool time useParallelIo (readPresent maxLen)
    (readers.zip buffers) (fun i stream hi => (readPresent_spec (hreader i stream hi) _ _ _).1)
  set streams := (readers.zip buffers).mapIdx fun i stream => (readPresent maxLen i stream).2
    with hstreams
  have hcount : streams.length = readers.length := by simp [hstreams, hlen]
  have hget (i : Nat) (hi : i < streams.length) (hr : i < readers.length)
      (hb : i < buffers.length) :
      streams[i] = (readPresent maxLen i (readers[i], buffers[i])).2 := by
    simp [hstreams]
  have hbuf : streams.map Prod.snd = blockBuffers (pendings readers) buffers maxLen := by
    refine List.ext_getElem (by simp [hcount, blockBuffers, pendings, hlen]) (fun i h1 h2 => ?_)
    have hi : i < streams.length := by simpa using h1
    simp only [List.getElem_map, hget i hi (by omega) (by omega), blockBuffers,
      List.getElem_zipWith, pendings]
    exact (readPresent_spec (fun r hr => h r (by rw [← hr]; exact List.getElem_mem _)) _ _ _).2.2.2
  refine ⟨streams.map Prod.fst, fun r hr => ?_, ?_, ?_⟩
  · obtain ⟨stream, hmem, hr⟩ := List.mem_map.mp hr
    obtain ⟨i, hi, rfl⟩ := List.mem_iff_getElem.mp hmem
    rw [hget i hi (by omega) (by omega)] at hr
    exact (readPresent_spec (fun r hr => h r (by rw [← hr]; exact List.getElem_mem _)) _ _ _).2.1 r hr
  · refine List.ext_getElem (by simp [hcount, pendings]) (fun i h1 h2 => ?_)
    have hi : i < streams.length := by simpa [pendings] using h1
    simp only [pendings, List.getElem_map, hget i hi (by omega) (by omega)]
    exact (readPresent_spec (fun r hr => h r (by rw [← hr]; exact List.getElem_mem _)) _ _ _).2.2.1
  · unfold readPresentStreamsWithMode
    rw [hpass, ← hbuf]
    simp only [← List.unzip_fst, ← List.unzip_snd, List.zip_unzip]
    rfl

section Lengths

variable {streams : List (Option Reader × List Byte)}

/-- `n` is the length of the longest buffer of a present stream. -/
def Longest (streams : List (Option Reader × List Byte)) (n : Nat) : Prop :=
  (∃ stream ∈ streams, stream.1.isSome ∧ stream.2.length = n) ∧
    ∀ stream ∈ streams, stream.1.isSome → stream.2.length ≤ n

theorem Longest.max_eq {n : Nat} (h : Longest streams n) :
    ((streams.filter fun stream => stream.1.isSome).map (·.2.length)).max?.getD 0 = n := by
  obtain ⟨⟨stream, hmem, hsome, hlen⟩, hle⟩ := h
  have hmax : ((streams.filter fun stream => stream.1.isSome).map (·.2.length)).max? = some n := by
    rw [List.max?_eq_some_iff]
    refine ⟨List.mem_map.mpr ⟨stream, List.mem_filter.mpr ⟨hmem, hsome⟩, hlen⟩, fun m hm => ?_⟩
    obtain ⟨stream', hmem', rfl⟩ := List.mem_map.mp hm
    obtain ⟨hin, hpresent⟩ := List.mem_filter.mp hmem'
    exact hle stream' hin hpresent
  rw [hmax]
  rfl

theorem exists_longest (h : ∃ stream ∈ streams, stream.1.isSome) : ∃ n, Longest streams n := by
  obtain ⟨stream, hmem, hsome⟩ := h
  cases hmax : ((streams.filter fun stream => stream.1.isSome).map (·.2.length)).max? with
  | none =>
    have hnil := List.max?_eq_none_iff.mp hmax
    have hin : stream ∈ streams.filter fun stream => stream.1.isSome :=
      List.mem_filter.mpr ⟨hmem, hsome⟩
    rw [List.map_eq_nil_iff.mp hnil] at hin
    exact absurd hin List.not_mem_nil
  | some n =>
    obtain ⟨hn, hle⟩ := List.max?_eq_some_iff.mp hmax
    obtain ⟨longest, hlongest, hlen⟩ := List.mem_map.mp hn
    obtain ⟨hin, hpresent⟩ := List.mem_filter.mp hlongest
    exact ⟨n, ⟨longest, hin, hpresent, hlen⟩, fun s hs hs' =>
      hle _ (List.mem_map.mpr ⟨s, List.mem_filter.mpr ⟨hs, hs'⟩, rfl⟩)⟩

/-- Present streams that read the same number of bytes pass. -/
theorem checkPresentLengths_ok {n : Nat} (h : Longest streams n)
    (hall : ∀ stream ∈ streams, stream.1.isSome → stream.2.length = n) :
    checkPresentLengths streams = .ok (n == 0, n) := by
  have hnone : (streams.findIdx? fun stream => stream.1.isSome && stream.2.length != n) = none := by
    rw [List.findIdx?_eq_none_iff]
    intro stream hmem
    cases hsome : stream.1.isSome with
    | false => rfl
    | true => simp [hall stream hmem hsome]
  simp only [checkPresentLengths, h.max_eq, hnone, ite_self]

/-- The first present stream that read less than the longest one is reported. -/
theorem checkPresentLengths_error {n bad : Nat} (h : Longest streams n)
    (hbad : ∃ stream, streams[bad]? = some stream ∧ stream.1.isSome ∧ stream.2.length < n)
    (hfirst : ∀ i stream, i < bad → streams[i]? = some stream → stream.1.isSome →
      ¬stream.2.length < n) :
    checkPresentLengths streams = .error (.codec bad .incorrectShardSize) := by
  obtain ⟨stream, hget, hsome, hshort⟩ := hbad
  obtain ⟨hlt, rfl⟩ := List.getElem?_eq_some_iff.mp hget
  have hfind : (streams.findIdx? fun stream => stream.1.isSome && stream.2.length != n) =
      some bad := by
    rw [List.findIdx?_eq_some_iff_getElem]
    refine ⟨hlt, by simp [hsome]; omega, fun i hi => ?_⟩
    have hi' : i < streams.length := by omega
    cases hpresent : streams[i].1.isSome with
    | false => simp
    | true =>
      have hle := h.2 _ (List.getElem_mem hi') hpresent
      have hge := hfirst i _ hi (List.getElem?_eq_getElem hi') hpresent
      simp
      omega
  simp only [checkPresentLengths, h.max_eq]
  rw [if_pos (by omega), hfind]

end Lengths

theorem writeMissing_spec {writer : Option Writer} (h : ∀ w, writer = some w → w.Cooperative)
    {buf : List Byte} {len : Nat} (hlen : len ≤ buf.length) (index : Nat) :
    (writeMissing len index (writer, buf)).1 = .ok () ∧
      (∀ w, (writeMissing len index (writer, buf)).2.1 = some w → w.Cooperative) ∧
      (writeMissing len index (writer, buf)).2.1.map Writer.written =
        (writer.map Writer.written).map (· ++ buf.take len) := by
  cases writer with
  | none => simp [writeMissing]
  | some writer =>
    obtain ⟨writer', hrun, hcoop, hwritten⟩ :=
      writeLoop_spec writeAllError writer buf len 0 (h writer rfl) hlen
    simp only [writeMissing, hrun]
    refine ⟨trivial, fun w hw => by obtain rfl := Option.some.inj hw; exact hcoop, ?_⟩
    simp [hwritten, slice]

/-- A pass over cooperative writers appends one block to each of them, in either mode. -/
theorem writeMissingStreams_spec (pool : TryForEach.Pool) (time : Nat) (useParallelIo : Bool)
    {writers : List (Option Writer)} (buffers : List (List Byte)) (len : Nat)
    (h : ∀ w, some w ∈ writers → w.Cooperative) (hcount : buffers.length = writers.length)
    (hlen : ∀ buf ∈ buffers, len ≤ buf.length) :
    ∃ writers', (∀ w, some w ∈ writers' → w.Cooperative) ∧
      writtens writers' = (writtens writers).mapIdx
        (fun i written => written.map (· ++ (buffers.getD i []).take len)) ∧
      writeMissingStreamsWithMode pool time writers buffers len useParallelIo =
        (.ok (), writers') := by
  have hitem (i : Nat) (stream : Option Writer × List Byte)
      (hi : (writers.zip buffers)[i]? = some stream) := List.of_mem_zip (List.mem_of_getElem? hi)
  have hpass := forEachStream_eq pool time useParallelIo (writeMissing len)
    (writers.zip buffers) (fun i stream hi => (writeMissing_spec
      (fun w hw => h w (by rw [← hw]; exact (hitem i stream hi).1))
      (hlen _ (hitem i stream hi).2) _).1)
  set streams := (writers.zip buffers).mapIdx fun i stream => (writeMissing len i stream).2
    with hstreams
  have hsize : streams.length = writers.length := by simp [hstreams, hcount]
  have hspec (i : Nat) (hw : i < writers.length) (hb : i < buffers.length) := writeMissing_spec
    (fun w (hsome : writers[i] = some w) => h w (by rw [← hsome]; exact List.getElem_mem _))
    (hlen buffers[i] (List.getElem_mem _)) i
  have hget (i : Nat) (hi : i < streams.length) (hw : i < writers.length)
      (hb : i < buffers.length) :
      streams[i] = (writeMissing len i (writers[i], buffers[i])).2 := by
    simp [hstreams]
  refine ⟨streams.map Prod.fst, fun w hw => ?_, ?_, ?_⟩
  · obtain ⟨stream, hmem, hw⟩ := List.mem_map.mp hw
    obtain ⟨i, hi, rfl⟩ := List.mem_iff_getElem.mp hmem
    rw [hget i hi (by omega) (by omega)] at hw
    exact (hspec i (by omega) (by omega)).2.1 w hw
  · refine List.ext_getElem (by simp [hsize, writtens]) (fun i h1 h2 => ?_)
    have hi : i < streams.length := by simpa [writtens] using h1
    simp only [writtens, List.getElem_map, hget i hi (by omega) (by omega), List.getElem_mapIdx]
    rw [(hspec i (by omega) (by omega)).2.2, List.getD_eq_getElem _ _ (by omega)]
  · unfold writeMissingStreamsWithMode
    rw [hpass]

end Passes

end Stream

end ErasureCodec
