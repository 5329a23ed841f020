import ErasureCodec.Codec.StreamPasses
import ErasureCodec.Codec.Verify

namespace ErasureCodec

open CodecField ErasureCodec.Stream

namespace ReedSolomon

section Definitions

/-- What a stream encoding returns and what it leaves behind. -/
structure StreamEncoding where
  result : Outcome StreamError Unit
  readers : List Reader
  writers : List Writer

/-- What a block loop does not change: the threads, the schedule of the codec for the block of
each time and length, and the modes. -/
structure StreamPasses where
  pool : TryForEach.Pool
  runs : Nat → Nat → ParallelRun
  blockSize : Nat
  useParallelRead : Bool
  useParallelWrite : Bool

variable (codec : ReedSolomon Galois8)

/-- The checks of `encode_stream` before any I/O. -/
def checkEncodeStream (readers : List Reader) (writers : List Writer) : Outcome StreamError Unit := do
  if codec.isLeopardFamily then .err (.codec 0 .unsupportedCodecFamily)
  validateStreamCount readers.length codec.dataShardCount
  validateStreamCount writers.length codec.parityShardCount

/-- The block loop of `encode_stream`; without fuel for its blocks it has no result. -/
def encodeLoop (passes : StreamPasses) : Nat → Nat → List Reader → List Writer →
    List StreamReadBuffer → List (List Byte) → Option StreamEncoding
  | 0, _, _, _, _, _ => none
  | fuel + 1, time, readers, writers, dataBufs, parityBufs =>
    match readBlockWithMode passes.pool time readers dataBufs passes.blockSize
      passes.useParallelRead with
    | (.error e, readers, _) => some ⟨.err e, readers, writers⟩
    | (.ok (true, _), readers, _) => some ⟨.ok (), readers, writers⟩
    | (.ok (false, actualLen), readers, dataBufs) =>
      let run := passes.runs time actualLen
      match codec.encodeSepPar run.decision run.schedule (dataBufs.map StreamReadBuffer.asRef)
        (parityBufs.map fun buf => resize buf actualLen) with
      | (.err e, _) => some ⟨.err (.codec 0 e), readers, writers⟩
      | (.panic, _) => some ⟨.panic, readers, writers⟩
      | (.ok _, parityBufs) =>
        match writeBlockWithMode passes.pool (time + 1) writers parityBufs actualLen
          codec.dataShardCount passes.useParallelWrite with
        | (.error e, writers) => some ⟨.err e, readers, writers⟩
        | (.ok (), writers) =>
          encodeLoop passes fuel (time + 2) readers writers dataBufs parityBufs

/-- `encode_stream`, with the threads and schedules it runs on and fuel for the blocks. -/
def encodeStream (pool : TryForEach.Pool) (runs : Nat → Nat → ParallelRun) (fuel : Nat)
    (readers : List Reader) (writers : List Writer) (options : StreamOptions) :
    Option StreamEncoding :=
  match codec.checkEncodeStream readers writers with
  | .err e => some ⟨.err e, readers, writers⟩
  | .panic => some ⟨.panic, readers, writers⟩
  | .ok _ =>
    codec.encodeLoop
      { pool, runs
        blockSize := clampBlockSize options.blockSize
        useParallelRead := useParallelStreamIo options codec.dataShardCount
        useParallelWrite := useParallelStreamIo options codec.parityShardCount }
      fuel 0 readers writers (List.replicate codec.dataShardCount StreamReadBuffer.new)
      (List.replicate codec.parityShardCount [])

end Definitions

section Blocks

variable {codec : ReedSolomon Galois8} {streams base : List (List Byte)} {size k : Nat}

/-- The parity of a block is that block of the parity. -/
theorem parityProduct_blockOf (codec : ReedSolomon Galois8) {data : List (List Byte)} {len : Nat}
    (h : Grid codec.dataShardCount len data) (size k : Nat) :
    codec.parityProduct (data.map (blockOf size k)) (min size (len - k * size)) =
      (codec.parityProduct data len).map (blockOf size k) := by
  have hproduct := codec.grid_parityProduct data len
  refine Grid.ext (codec.grid_parityProduct _ _) (grid_blocks hproduct size k) 0
    (fun r x hr hx => ?_)
  rw [getD_parityProduct _ _ hr hx, getD_map_of_lt _ _ _ (by rw [hproduct.length_eq]; exact hr) [],
    getD_blockOf _ (by omega), getD_parityProduct _ _ hr (by omega)]
  refine Finset.sum_congr rfl (fun c hc => ?_)
  have hlt : c < data.length := by
    rw [h.length_eq]
    exact Finset.mem_range.mp hc
  rw [getD_map_of_lt _ _ _ hlt [], getD_blockOf _ (by omega)]

/-- The parity of the streams, padded to the longest one. -/
noncomputable def streamParity (codec : ReedSolomon Galois8) (streams : List (List Byte)) :
    List (List Byte) :=
  codec.parityProduct (padded streams) (longest streams)

theorem grid_streamParity (codec : ReedSolomon Galois8) (streams : List (List Byte)) :
    Grid codec.parityShardCount (longest streams) (codec.streamParity streams) :=
  codec.grid_parityProduct _ _

/-- The state of the block loop before block `k`. -/
structure Encoding (codec : ReedSolomon Galois8) (streams base : List (List Byte)) (size k : Nat)
    (readers : List Reader) (writers : List Writer) (dataBufs : List StreamReadBuffer)
    (parityBufs : List (List Byte)) : Prop where
  pending_eq : readers.map Reader.pending = streams.map (List.drop (k * size))
  dataBufs_length : dataBufs.length = readers.length
  parityBufs_length : parityBufs.length = codec.parityShardCount
  writers_length : writers.length = codec.parityShardCount
  written : ∀ (j : Nat) (w : Writer), writers[j]? = some w →
    w.written = base.getD j [] ++ ((codec.streamParity streams).getD j []).take (k * size)

/-- How an encoding of `readers` into `writers` ends: whatever fails, each writer holds a part of its
parity shard behind what it held before, and an error is one of a stream's own. -/
structure Encoded (codec : ReedSolomon Galois8) (readers : List Reader) (writers : List Writer)
    (parity : List (List Byte)) (run : StreamEncoding) : Prop where
  written : ∀ (j : Nat) (w : Writer), run.writers[j]? = some w →
    ∃ part, part <+: parity.getD j [] ∧
      w.written = (writers.map Writer.written).getD j [] ++ part
  complete : run.result = .ok () →
    run.writers.map Writer.written =
        List.zipWith (· ++ ·) (writers.map Writer.written) parity ∧
      ∀ r ∈ run.readers, r.pending = []
  failure : ∀ e, run.result = .err e →
    (∃ i r io, readers[i]? = some r ∧ r.Fails io ∧ e = .read i io) ∨
      ∃ j w io, writers[j]? = some w ∧ w.Fails io ∧ e = .write (codec.dataShardCount + j) io
  ne_panic : run.result ≠ .panic

/-- Streams that cannot fail are encoded. -/
theorem Encoded.result_eq_ok {first : List Reader} {onto : List Writer} {parity : List (List Byte)}
    {run : StreamEncoding} (h : codec.Encoded first onto parity run)
    (hr : ∀ r ∈ first, r.Cooperative) (hw : ∀ w ∈ onto, w.Cooperative) : run.result = .ok () := by
  cases hresult : run.result with
  | ok u => rfl
  | panic => exact absurd hresult h.ne_panic
  | err e =>
    rcases h.failure e hresult with ⟨i, r, io, hi, hfail, -⟩ | ⟨j, w, io, hj, hfail, -⟩
    · exact absurd hfail ((hr r (List.mem_of_getElem? hi)).not_fails io)
    · exact absurd hfail ((hw w (List.mem_of_getElem? hj)).not_fails io)

variable {first readers : List Reader} {onto writers : List Writer}
  {dataBufs : List StreamReadBuffer} {parityBufs : List (List Byte)}

theorem Encoding.written_part (h : codec.Encoding streams base size k readers writers dataBufs
    parityBufs) (j : Nat) (w : Writer) (hw : writers[j]? = some w) :
    ∃ part, part <+: (codec.streamParity streams).getD j [] ∧ w.written = base.getD j [] ++ part :=
  ⟨_, List.take_prefix _ _, h.written j w hw⟩

/-- Behind the last block all is written. -/
theorem Encoding.done (h : codec.Encoding streams base size k readers writers dataBufs parityBufs)
    (hbase : base.length = codec.parityShardCount) (hend : longest streams ≤ k * size) :
    writers.map Writer.written = List.zipWith (· ++ ·) base (codec.streamParity streams) := by
  have hgrid := codec.grid_streamParity streams
  have hlen := hgrid.length_eq
  refine List.ext_getElem (by simp [h.writers_length, hbase, hlen]) fun j h1 h2 => ?_
  have hj : j < writers.length := by simpa using h1
  have hjp : j < codec.parityShardCount := by rw [← h.writers_length]; exact hj
  have hrow := hgrid.row_length j hjp
  rw [List.getElem_map, h.written j _ (List.getElem?_eq_getElem hj),
    List.take_of_length_le (by omega), List.getElem_zipWith, List.getD_eq_getElem _ _ (by omega),
    List.getD_eq_getElem _ _ (by omega)]

/-- Block `k` of the parity. -/
noncomputable def parityBlock (codec : ReedSolomon Galois8) (streams : List (List Byte))
    (size k : Nat) : List (List Byte) := (codec.streamParity streams).map (blockOf size k)

theorem grid_parityBlock (codec : ReedSolomon Galois8) (streams : List (List Byte)) (size k : Nat) :
    Grid codec.parityShardCount (blockLen size k streams) (codec.parityBlock streams size k) :=
  grid_blocks (codec.grid_streamParity streams) size k

theorem getD_parityBlock {j : Nat} (hj : j < codec.parityShardCount) :
    (codec.parityBlock streams size k).getD j [] =
      blockOf size k ((codec.streamParity streams).getD j []) :=
  getD_map_of_lt _ _ _ (by rw [(codec.grid_streamParity streams).length_eq]; exact hj) [] []

/-- The codec computes block `k` of the parity. -/
theorem encodeSepPar_block (hinv : codec.ClassicInv) (hstreams : streams.length = codec.dataShardCount)
    (hpos : 0 < blockLen size k streams) {run : ParallelRun}
    (hrun : run.For codec (blockLen size k streams))
    (hbufs : parityBufs.length = codec.parityShardCount) :
    codec.encodeSepPar run.decision run.schedule ((padded streams).map (blockOf size k))
        (parityBufs.map fun buf => resize buf (blockLen size k streams)) =
      (.ok (), codec.parityBlock streams size k) := by
  have hdata : Grid codec.dataShardCount (longest streams) (padded streams) := by
    rw [← hstreams]
    exact grid_padded streams
  have hencode := encodeSepPar_eq hinv hpos (grid_blocks hdata size k) (grid_resized hbufs _)
    hrun.chunk_pos hrun.schedule
  have hlen : blockLen size k streams = min size (longest streams - k * size) := rfl
  rw [hlen, parityProduct_blockOf codec hdata, ← hlen] at hencode
  exact hencode

/-- An encoding that a reader stops. -/
theorem Encoding.readFailed
    (h : codec.Encoding streams (onto.map Writer.written) size k readers writers dataBufs parityBufs)
    (hr : Continues Reader.script first readers) {i : Nat} {r : Reader} {io : IoError}
    (hi : readers[i]? = some r) (hfail : r.Fails io) (readers' : List Reader) :
    codec.Encoded first onto (codec.streamParity streams) ⟨.err (.read i io), readers', writers⟩ where
  written := h.written_part
  complete hok := by cases hok
  failure e he := by
    obtain ⟨r₀, hr₀, hscript⟩ := hr i r hi
    exact .inl ⟨i, r₀, io, hr₀, hfail.of_suffix hscript, (Outcome.err.inj he).symm⟩
  ne_panic hpanic := by cases hpanic

/-- An encoding whose streams are all read. -/
theorem Encoding.finished
    (h : codec.Encoding streams (onto.map Writer.written) size k readers writers dataBufs parityBufs)
    (honto : onto.length = codec.parityShardCount) (hend : longest streams ≤ k * size)
    {readers' : List Reader} {dataBufs' : List StreamReadBuffer}
    (hbuf : Buffered streams size k readers' dataBufs') :
    codec.Encoded first onto (codec.streamParity streams) ⟨.ok (), readers', writers⟩ where
  written := h.written_part
  complete _ := by
    refine ⟨h.done (by rw [List.length_map, honto]) hend, fun r hr => ?_⟩
    have hmem : r.pending ∈ streams.map (List.drop ((k + 1) * size)) := by
      rw [← hbuf.pending_eq]
      exact List.mem_map_of_mem hr
    obtain ⟨bytes, hbytes, hdrop⟩ := List.mem_map.mp hmem
    have hle := le_longest hbytes
    rw [← hdrop, List.drop_eq_nil_iff, Nat.succ_mul]
    omega
  failure e he := by cases he
  ne_panic hpanic := by cases hpanic

variable {offset : Nat} {writers' : List Writer} {result : Except StreamError Unit}

/-- Each writer holds its parity up to block `k`, and then a part of that block. -/
theorem Encoding.taken (h : codec.Encoding streams base size k readers writers dataBufs parityBufs)
    (hwrote : WroteBlock (codec.parityBlock streams size k) (blockLen size k streams) offset writers
      writers' result) (j : Nat) (w' : Writer) (hw' : writers'[j]? = some w') :
    ∃ n, w'.written = base.getD j [] ++ (((codec.streamParity streams).getD j []).take (k * size) ++
        (blockOf size k ((codec.streamParity streams).getD j [])).take n) ∧
      (result = .ok () → n = blockLen size k streams) := by
  obtain ⟨hj, -⟩ := List.getElem?_eq_some_iff.mp hw'
  have hlt : j < writers.length := by rw [← hwrote.length_eq]; exact hj
  have hget := List.getElem?_eq_getElem hlt
  obtain ⟨n, -, hwritten, hall⟩ := hwrote.taken j writers[j] w' hget hw'
  rw [h.written j _ hget, getD_parityBlock (by rw [← h.writers_length]; exact hlt)] at hwritten
  exact ⟨n, by rw [hwritten, List.append_assoc], hall⟩

/-- An encoding that a writer stops. -/
theorem Encoding.writeFailed
    (h : codec.Encoding streams (onto.map Writer.written) size k readers writers dataBufs parityBufs)
    (hw : Continues Writer.script onto writers) {e : StreamError}
    (hwrote : WroteBlock (codec.parityBlock streams size k) (blockLen size k streams)
      codec.dataShardCount writers writers' (.error e)) (readers' : List Reader) :
    codec.Encoded first onto (codec.streamParity streams) ⟨.err e, readers', writers'⟩ where
  written j w' hw' := by
    obtain ⟨n, hwritten, -⟩ := h.taken hwrote j w' hw'
    refine ⟨_, ?_, hwritten⟩
    rw [blockOf, List.take_take, ← List.take_add]
    exact List.take_prefix _ _
  complete hok := by cases hok
  failure e' he' := by
    obtain rfl := Outcome.err.inj he'
    obtain ⟨j, w, io, hj, hfail, rfl⟩ := hwrote.error e rfl
    obtain ⟨w₀, hw₀, hscript⟩ := hw j w hj
    exact .inr ⟨j, w₀, io, hw₀, hfail.of_suffix hscript, rfl⟩
  ne_panic hpanic := by cases hpanic

/-- After block `k` the state is the one before the next block. -/
theorem Encoding.next (h : codec.Encoding streams base size k readers writers dataBufs parityBufs)
    (hwrote : WroteBlock (codec.parityBlock streams size k) (blockLen size k streams) offset writers
      writers' (.ok ())) {readers' : List Reader} {dataBufs' : List StreamReadBuffer}
    (hbuf : Buffered streams size k readers' dataBufs') :
    codec.Encoding streams base size (k + 1) readers' writers' dataBufs'
      (codec.parityBlock streams size k) where
  pending_eq := hbuf.pending_eq
  dataBufs_length := hbuf.length_eq
  parityBufs_length := (codec.grid_parityBlock streams size k).length_eq
  writers_length := by rw [hwrote.length_eq, h.writers_length]
  written j w' hw' := by
    obtain ⟨n, hwritten, hall⟩ := h.taken hwrote j w' hw'
    have hj : j < codec.parityShardCount := by
      rw [← h.writers_length, ← hwrote.length_eq]
      exact (List.getElem?_eq_some_iff.mp hw').1
    have hrow := (codec.grid_parityBlock streams size k).row_length j hj
    rw [getD_parityBlock hj] at hrow
    have hfull : (blockOf size k ((codec.streamParity streams).getD j [])).take n =
        blockOf size k ((codec.streamParity streams).getD j []) :=
      List.take_of_length_le (by rw [hrow, hall rfl])
    rw [hwritten, hfull, take_append_blockOf]

/-- One round of the block loop: it ends the encoding or leaves the state before the next block. -/
theorem Encoding.round
    (h : codec.Encoding streams (onto.map Writer.written) size k readers writers dataBufs parityBufs)
    (hr : Continues Reader.script first readers) (hw : Continues Writer.script onto writers)
    (hinv : codec.ClassicInv) {passes : StreamPasses} (hblock : passes.blockSize = size)
    (hsize : 0 < size) (hruns : ∀ time len, 0 < len → (passes.runs time len).For codec len)
    (hstreams : streams.length = codec.dataShardCount)
    (honto : onto.length = codec.parityShardCount) (time : Nat) :
    (∃ run, (∀ fuel, codec.encodeLoop passes (fuel + 1) time readers writers dataBufs parityBufs =
        some run) ∧ codec.Encoded first onto (codec.streamParity streams) run) ∨
    k * size < longest streams ∧ ∃ readers' writers' dataBufs' parityBufs',
      (∀ fuel, codec.encodeLoop passes (fuel + 1) time readers writers dataBufs parityBufs =
        codec.encodeLoop passes fuel (time + 2) readers' writers' dataBufs' parityBufs') ∧
      codec.Encoding streams (onto.map Writer.written) size (k + 1) readers' writers' dataBufs'
        parityBufs' ∧
      Continues Reader.script first readers' ∧ Continues Writer.script onto writers' := by
  have hlen : blockLen size k streams = min size (longest streams - k * size) := rfl
  rcases readBlockWithMode_spec passes.pool time passes.useParallelRead dataBufs h.pending_eq
    h.dataBufs_length with ⟨readers', dataBufs', hread, hbuf, hr'⟩ | ⟨i, r, io, hi, hfail, herr⟩
  swap
  · left
    rcases hread : readBlockWithMode passes.pool time readers dataBufs size passes.useParallelRead
      with ⟨result, readers', dataBufs'⟩
    rw [hread] at herr
    simp only at herr
    subst herr
    refine ⟨_, fun fuel => ?_, h.readFailed hr hi hfail readers'⟩
    simp only [encodeLoop, hblock, hread]
  by_cases hend : longest streams ≤ k * size
  · left
    have heof : blockLen size k streams = 0 := by omega
    refine ⟨_, fun fuel => ?_, h.finished honto hend hbuf⟩
    simp only [encodeLoop, hblock, hread, heof]
    rfl
  have hpos : 0 < blockLen size k streams := by omega
  have hne : (blockLen size k streams == 0) = false := by simp; omega
  have hview : dataBufs'.map StreamReadBuffer.asRef = (padded streams).map (blockOf size k) :=
    hbuf.asRef_eq
  have hencode := encodeSepPar_block hinv hstreams hpos (hruns time _ hpos) h.parityBufs_length
  have hgrid := codec.grid_parityBlock streams size k
  have hwrote := writeBlockWithMode_wrote passes.pool (time + 1) passes.useParallelWrite
    writers (codec.parityBlock streams size k) (blockLen size k streams) codec.dataShardCount
    (by rw [hgrid.length_eq, h.writers_length]) (fun buf hmem => (hgrid.forall hmem).ge)
  rcases hwrite : writeBlockWithMode passes.pool (time + 1) writers
    (codec.parityBlock streams size k) (blockLen size k streams) codec.dataShardCount
    passes.useParallelWrite with ⟨result, writers'⟩
  rw [hwrite] at hwrote
  cases result with
  | error e =>
    left
    refine ⟨_, fun fuel => ?_, h.writeFailed hw hwrote readers'⟩
    simp only [encodeLoop, hblock, hread, hne, hview, hencode, hwrite]
  | ok u =>
    right
    refine ⟨by omega, readers', writers', dataBufs', _, fun fuel => ?_, h.next hwrote hbuf,
      hr.trans hr', hw.trans hwrote.continues⟩
    simp only [encodeLoop, hblock, hread, hne, hview, hencode, hwrite]

/-- The block loop ends within the blocks of the longest stream. -/
theorem Encoding.run (hinv : codec.ClassicInv) (passes : StreamPasses)
    (hblock : passes.blockSize = size) (hsize : 0 < size)
    (hruns : ∀ time len, 0 < len → (passes.runs time len).For codec len)
    (hstreams : streams.length = codec.dataShardCount)
    (honto : onto.length = codec.parityShardCount) (count : Nat) (time : Nat)
    (h : codec.Encoding streams (onto.map Writer.written) size k readers writers dataBufs parityBufs)
    (hr : Continues Reader.script first readers) (hw : Continues Writer.script onto writers)
    (hcount : longest streams ≤ (k + count) * size) :
    ∃ run, (∀ extra, codec.encodeLoop passes (extra + count + 1) time readers writers dataBufs
        parityBufs = some run) ∧ codec.Encoded first onto (codec.streamParity streams) run := by
  induction count generalizing k time readers writers dataBufs parityBufs with
  | zero =>
    rcases h.round hr hw hinv hblock hsize hruns hstreams honto time with
      ⟨run, hrun, hencoded⟩ | ⟨hmore, -⟩
    · exact ⟨run, fun extra => hrun extra, hencoded⟩
    · rw [Nat.add_zero] at hcount
      omega
  | succ count ih =>
    rcases h.round hr hw hinv hblock hsize hruns hstreams honto time with
      ⟨run, hrun, hencoded⟩ | ⟨-, readers', writers', dataBufs', parityBufs', hloop, hnext, hr', hw'⟩
    · exact ⟨run, fun extra => hrun (extra + (count + 1)), hencoded⟩
    · obtain ⟨run, hrun, hencoded⟩ := ih (time + 2) hnext hr' hw'
        (by rwa [show k + 1 + count = k + (count + 1) by omega])
      exact ⟨run, fun extra => (hloop (extra + (count + 1))).trans (hrun extra), hencoded⟩

end Blocks

section Whole

/-- Encoding streams ends within their blocks, and gives what encoding their zero-padded shards
gives: behind what it held, each parity writer has a part of its parity shard, and all of it unless
a stream failed with one of its errors. -/
theorem encode_stream_exact {codec : ReedSolomon Galois8} (hclassic : codec.IsClassic)
    (pool : TryForEach.Pool) {runs : Nat → Nat → ParallelRun}
    (hruns : ∀ time len, 0 < len → (runs time len).For codec len) (options : StreamOptions)
    {readers : List Reader} {writers : List Writer} (hr : readers.length = codec.dataShardCount)
    (hw : writers.length = codec.parityShardCount) :
    ∃ parity run, Grid codec.parityShardCount (longest (readers.map Reader.pending)) parity ∧
      (0 < longest (readers.map Reader.pending) → ∀ blank,
        Grid codec.parityShardCount (longest (readers.map Reader.pending)) blank →
          codec.encodeSep (padded (readers.map Reader.pending)) blank = (.ok (), parity)) ∧
      (∀ fuel, longest (readers.map Reader.pending) / clampBlockSize options.blockSize + 1 < fuel →
        codec.encodeStream pool runs fuel readers writers options = some run) ∧
      codec.Encoded readers writers parity run ∧
      ((∀ r ∈ readers, r.Cooperative) → (∀ w ∈ writers, w.Cooperative) →
        run.result = .ok ()) := by
  have hinv := hclassic.inv
  have hsize := clampBlockSize_pos options.blockSize
  set streams := readers.map Reader.pending with hstreams
  set size := clampBlockSize options.blockSize with hsizeDef
  have hcount : streams.length = codec.dataShardCount := by rw [hstreams, List.length_map, hr]
  have hdata : Grid codec.dataShardCount (longest streams) (padded streams) := by
    rw [← hcount]
    exact grid_padded streams
  have hstart : codec.Encoding streams (writers.map Writer.written) size 0 readers writers
      (List.replicate codec.dataShardCount StreamReadBuffer.new)
      (List.replicate codec.parityShardCount []) := by
    refine ⟨by simp [hstreams], by simp [hr], List.length_replicate, hw, fun j w hj => ?_⟩
    obtain ⟨hlt, rfl⟩ := List.getElem?_eq_some_iff.mp hj
    rw [Nat.zero_mul, List.take_zero, List.append_nil, List.getD_eq_getElem _ _ (by simpa using hlt),
      List.getElem_map]
  obtain ⟨run, hrun, hencoded⟩ := Encoding.run hinv
    { pool, runs
      blockSize := size
      useParallelRead := useParallelStreamIo options codec.dataShardCount
      useParallelWrite := useParallelStreamIo options codec.parityShardCount }
    rfl hsize hruns hcount hw (longest streams / size + 1) 0 hstart (.refl _ readers)
    (.refl _ writers) (longest_le_blocks streams hsize)
  refine ⟨codec.streamParity streams, run, codec.grid_streamParity _, fun hpos blank hblank =>
    encodeSep_eq hinv hpos hdata hblank, fun fuel hfuel => ?_, hencoded, hencoded.result_eq_ok⟩
  have hcheck : codec.checkEncodeStream readers writers = .ok () := by
    unfold checkEncodeStream
    rw [hinv.isLeopardFamily_eq, validateStreamCount_eq, validateStreamCount_eq, if_pos hr, if_pos hw]
    rfl
  obtain ⟨extra, rfl⟩ : ∃ extra, fuel = extra + (longest streams / size + 1) + 1 :=
    ⟨fuel - (longest streams / size + 1) - 1, by omega⟩
  simp only [encodeStream, hcheck]
  exact hrun extra

/-- One thread that computes the output chunks in their order. -/
def sampleRuns (_time len : Nat) : ParallelRun :=
  ⟨⟨true, 1, 1⟩, (outputChunkGroups 2 len 1 1).flatten⟩

theorem sampleRuns_for (time len : Nat) (_hlen : 0 < len) :
    (sampleRuns time len).For sampleCodec len := ⟨le_rfl, List.Perm.refl _⟩

/-- The shorter stream is padded, and the first writer takes its block in two calls. -/
theorem encode_stream_exact_sample : ∃ parity run,
    sampleCodec.encodeSep [[1#8, 2#8], [3#8, 0#8]] [[0#8, 0#8], [0#8, 0#8]] = (.ok (), parity) ∧
      sampleCodec.encodeStream .sequential sampleRuns 3
        [⟨[.give 0], [1#8, 2#8]⟩, ⟨[], [3#8]⟩] [⟨[.accept 1], [7#8]⟩, ⟨[], []⟩] {} = some run ∧
      run.result = .ok () ∧
      run.writers.map Writer.written = List.zipWith (· ++ ·) ([[7#8], []] : List (List Byte)) parity := by
  obtain ⟨parity, run, -, hparity, hrun, hencoded, hok⟩ := encode_stream_exact sampleCodec_isClassic
    .sequential sampleRuns_for {}
    (show ([⟨[.give 0], [1#8, 2#8]⟩, ⟨[], [3#8]⟩] : List Reader).length = _ from rfl)
    (show ([⟨[.accept 1], [7#8]⟩, ⟨[], []⟩] : List Writer).length = _ from rfl)
  have hresult := hok (by simp [Reader.Cooperative]) (by simp [Writer.Cooperative])
  exact ⟨parity, run, hparity (by decide) [[0#8, 0#8], [0#8, 0#8]] ⟨rfl, by decide⟩,
    hrun 3 (by decide), hresult, (hencoded.complete hresult).1⟩

end Whole

end ReedSolomon

end ErasureCodec
