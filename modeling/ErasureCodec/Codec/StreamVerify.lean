import ErasureCodec.Codec.StreamEncode

namespace ErasureCodec

open CodecField ErasureCodec.Stream

namespace ReedSolomon

section Definitions

/-- What a stream verification returns and what it leaves behind. -/
structure StreamVerification where
  result : Outcome StreamError Bool
  readers : List Reader

/-- The Leopard encoder behind a call that is refused for Leopard codecs. -/
def noLeopard (st : Unit) (_data parity : List (List Galois8)) :
    Outcome Error Unit × Unit × List (List Galois8) :=
  (.panic, st, parity)

variable (codec : ReedSolomon Galois8)

/-- The checks of `verify_stream` before any I/O. -/
def checkVerifyStream (readers : List Reader) : Outcome StreamError Unit := do
  if codec.isLeopardFamily then .err (.codec 0 .unsupportedCodecFamily)
  validateStreamCount readers.length codec.totalShardCount

/-- The block loop of `verify_stream`; without fuel for its blocks it has no result. -/
def verifyLoop (passes : StreamPasses) : Nat → Nat → List Reader → List StreamReadBuffer →
    List (List Byte) → Option StreamVerification
  | 0, _, _, _, _ => none
  | fuel + 1, time, readers, bufs, verifyBufs =>
    match readBlockWithMode passes.pool time readers bufs passes.blockSize passes.useParallelRead with
    | (.error e, readers, _) => some ⟨.err e, readers⟩
    | (.ok (true, _), readers, _) => some ⟨.ok true, readers⟩
    | (.ok (false, actualLen), readers, bufs) =>
      match bufs.findIdx? fun buffer => buffer.readLen != actualLen with
      | some bad => some ⟨.err (.codec bad .incorrectShardSize), readers⟩
      | none =>
        match codec.verifyWithBufferPar noLeopard (passes.runs time actualLen) ()
          (bufs.map StreamReadBuffer.asRef) (verifyBufs.map fun buf => resize buf actualLen) with
        | (.err e, _, _) => some ⟨.err (.codec 0 e), readers⟩
        | (.panic, _, _) => some ⟨.panic, readers⟩
        | (.ok false, _, _) => some ⟨.ok false, readers⟩
        | (.ok true, _, verifyBufs) => verifyLoop passes fuel (time + 2) readers bufs verifyBufs

/-- `verify_stream`, with the threads and schedules it runs on and fuel for the blocks. -/
def verifyStream (pool : TryForEach.Pool) (runs : Nat → Nat → ParallelRun) (fuel : Nat)
    (readers : List Reader) (options : StreamOptions) : Option StreamVerification :=
  match codec.checkVerifyStream readers with
  | .err e => some ⟨.err e, readers⟩
  | .panic => some ⟨.panic, readers⟩
  | .ok _ =>
    codec.verifyLoop
      { pool, runs
        blockSize := clampBlockSize options.blockSize
        useParallelRead := useParallelStreamIo options codec.totalShardCount
        useParallelWrite := false }
      fuel 0 readers (List.replicate codec.totalShardCount StreamReadBuffer.new)
      (List.replicate codec.parityShardCount [])

end Definitions

section Words

variable {codec : ReedSolomon Galois8} {shards : List (List Byte)} {len : Nat}

/-- The parity shards are the product of the data shards. -/
def IsWord (codec : ReedSolomon Galois8) (shards : List (List Byte)) (len : Nat) : Prop :=
  codec.parityProduct (shards.take codec.dataShardCount) len = shards.drop codec.dataShardCount

/-- The parity of the first bytes is the beginning of the parity. -/
theorem parityProduct_take (codec : ReedSolomon Galois8) {data : List (List Byte)}
    (h : Grid codec.dataShardCount len data) (n : Nat) :
    codec.parityProduct (data.map (List.take n)) (min n len) =
      (codec.parityProduct data len).map (List.take n) := by
  have hsame : blockOf n 0 = List.take n := by
    funext row
    rw [blockOf, Nat.zero_mul, List.drop_zero]
  have hblock := parityProduct_blockOf codec h n 0
  rwa [hsame, Nat.zero_mul, Nat.sub_zero] at hblock

theorem grid_data (h : Grid codec.totalShardCount len shards) :
    Grid codec.dataShardCount len (shards.take codec.dataShardCount) :=
  h.take (by
    have := codec.totalShardCount_eq
    omega)

/-- The blocks of a word are words. -/
theorem IsWord.blocks (h : codec.IsWord shards len) (hgrid : Grid codec.totalShardCount len shards)
    (size k : Nat) : codec.IsWord (shards.map (blockOf size k)) (min size (len - k * size)) := by
  unfold IsWord
  rw [← List.map_take, ← List.map_drop, parityProduct_blockOf codec (grid_data hgrid), h]

/-- The beginnings of a word are words. -/
theorem IsWord.take (h : codec.IsWord shards len) (hgrid : Grid codec.totalShardCount len shards)
    (n : Nat) : codec.IsWord (shards.map (List.take n)) (min n len) := by
  unfold IsWord
  rw [← List.map_take, ← List.map_drop, parityProduct_take codec (grid_data hgrid), h]

/-- Shards that begin with `k` blocks of a word and go on with a word of one block. -/
theorem IsWord.succ (hgrid : Grid codec.totalShardCount len shards) {size k : Nat}
    (h : codec.IsWord (shards.map (List.take (k * size))) (min (k * size) len))
    (hblock : codec.IsWord (shards.map (blockOf size k)) (min size (len - k * size))) :
    codec.IsWord (shards.map (List.take ((k + 1) * size))) (min ((k + 1) * size) len) := by
  unfold IsWord at h hblock ⊢
  rw [← List.map_take, ← List.map_drop, parityProduct_take codec (grid_data hgrid)] at h ⊢
  rw [← List.map_take, ← List.map_drop, parityProduct_blockOf codec (grid_data hgrid)] at hblock
  set product := codec.parityProduct (shards.take codec.dataShardCount) len
  have hsize : product.length = (shards.drop codec.dataShardCount).length := by
    simpa using congrArg List.length h
  refine List.ext_getElem (by simpa using hsize) fun i h1 h2 => ?_
  have hi : i < product.length := by simpa using h1
  have hhead := congrArg (·[i]?) h
  have hlast := congrArg (·[i]?) hblock
  simp only [List.getElem?_map, List.getElem?_eq_getElem hi,
    List.getElem?_eq_getElem (hsize ▸ hi), Option.map_some, Option.some.injEq] at hhead hlast
  simp only [List.getElem_map]
  rw [← take_append_blockOf, ← take_append_blockOf, hhead, hlast]

/-- The verifier tells whether the shards are a word. -/
theorem ClassicInv.verify_eq (h : codec.ClassicInv) (hlen : 0 < len)
    (hgrid : Grid codec.totalShardCount len shards) :
    ∃ answer, (codec.verify noLeopard () shards).1 = .ok answer ∧
      (answer = true ↔ codec.IsWord shards len) := by
  have hencodes : codec.Encodes noLeopard (fun _ => True) len (shards.take codec.dataShardCount)
      (codec.parityProduct (shards.take codec.dataShardCount) len) :=
    h.encodes hlen (grid_data hgrid)
  obtain ⟨st', hverify, -⟩ := (hencodes.verifiesAs hlen hgrid trivial).verify
  refine ⟨decide (codec.parityProduct (shards.take codec.dataShardCount) len =
    shards.drop codec.dataShardCount), by rw [hverify], ?_⟩
  rw [decide_eq_true_iff]
  rfl

/-- So does the one that works on buffers in parallel. -/
theorem ClassicInv.verifyWithBufferPar_eq (h : codec.ClassicInv) (hlen : 0 < len)
    (hgrid : Grid codec.totalShardCount len shards) {run : ParallelRun} (hrun : run.For codec len)
    {buffer : List (List Byte)} (hbuffer : Grid codec.parityShardCount len buffer) :
    ∃ answer, codec.verifyWithBufferPar noLeopard run () shards buffer =
        (.ok answer, (), codec.parityProduct (shards.take codec.dataShardCount) len) ∧
      (answer = true ↔ codec.IsWord shards len) := by
  have hencodes : codec.Encodes noLeopard (fun _ => True) len (shards.take codec.dataShardCount)
      (codec.parityProduct (shards.take codec.dataShardCount) len) :=
    h.encodes hlen (grid_data hgrid)
  obtain ⟨st', hverify, -⟩ := hencodes.verifyWithBufferPar_eq hlen hgrid trivial hrun hbuffer
  refine ⟨decide (codec.parityProduct (shards.take codec.dataShardCount) len =
    shards.drop codec.dataShardCount), hverify, ?_⟩
  rw [decide_eq_true_iff]
  rfl

end Words

section Blocks

variable {codec : ReedSolomon Galois8} {streams : List (List Byte)} {size k : Nat}
  {first readers : List Reader} {bufs : List StreamReadBuffer} {verifyBufs : List (List Byte)}

theorem blockOf_take (size k n : Nat) (bytes : List Byte) :
    blockOf size k (bytes.take n) = (blockOf size k bytes).take (n - k * size) := by
  rw [blockOf, blockOf, List.drop_take, List.take_take, List.take_take, Nat.min_comm]

/-- How the verification of the streams of `readers` ends. -/
structure StreamVerified (codec : ReedSolomon Galois8) (readers : List Reader) (size : Nat)
    (run : StreamVerification) : Prop where
  valid : run.result = .ok true →
    (∀ r ∈ readers, r.pending.length = longest (readers.map Reader.pending)) ∧
      (0 < longest (readers.map Reader.pending) →
        (codec.verify noLeopard () (readers.map Reader.pending)).1 = .ok true)
  invalid : run.result = .ok false → ∃ n, 0 < n ∧ (∀ r ∈ readers, n ≤ r.pending.length) ∧
    (codec.verify noLeopard () (readers.map fun r => r.pending.take n)).1 = .ok false
  failure : ∀ e, run.result = .err e →
    (∃ i r io, readers[i]? = some r ∧ r.Fails io ∧ e = .read i io) ∨
      ∃ block bad, FirstShort (readers.map fun r => some r.pending) size block bad ∧
        e = .codec bad .incorrectShardSize
  ne_panic : run.result ≠ .panic

/-- Readers that cannot fail are not reported. -/
theorem StreamVerified.ne_read {first : List Reader} {run : StreamVerification}
    (h : codec.StreamVerified first size run) (hr : ∀ r ∈ first, r.Cooperative) (i : Nat)
    (io : IoError) : run.result ≠ .err (.read i io) := by
  intro hresult
  rcases h.failure _ hresult with ⟨j, r, io', hj, hfail, -⟩ | ⟨block, bad, -, he⟩
  · exact (hr r (List.mem_of_getElem? hj)).not_fails io' hfail
  · cases congrArg StreamError.kind he

/-- The state of the block loop before block `k`: the streams have all begun like a word. -/
structure Verifying (codec : ReedSolomon Galois8) (streams : List (List Byte)) (size k : Nat)
    (readers : List Reader) (bufs : List StreamReadBuffer) (verifyBufs : List (List Byte)) :
    Prop where
  pending_eq : readers.map Reader.pending = streams.map (List.drop (k * size))
  bufs_length : bufs.length = readers.length
  verifyBufs_length : verifyBufs.length = codec.parityShardCount
  long : ∀ bytes ∈ streams, min (k * size) (longest streams) ≤ bytes.length
  word : codec.IsWord ((padded streams).map (List.take (k * size)))
    (min (k * size) (longest streams))

/-- Streams of one length are not padded. -/
theorem padded_eq {len : Nat} (h : ∀ bytes ∈ streams, bytes.length = len)
    (hlen : longest streams = len) : padded streams = streams := by
  unfold padded
  rw [hlen]
  refine (List.map_congr_left fun bytes hbytes => ?_).trans (List.map_id streams)
  rw [resize_of_le (h bytes hbytes).le, h bytes hbytes, Nat.sub_self, List.replicate_zero,
    List.append_nil]
  rfl

/-- Behind the last block the streams are a word. -/
theorem Verifying.valid (h : codec.Verifying streams size k readers bufs verifyBufs)
    (hinv : codec.ClassicInv) (hstreams : streams.length = codec.totalShardCount)
    (hend : longest streams ≤ k * size) :
    (∀ bytes ∈ streams, bytes.length = longest streams) ∧
      (0 < longest streams → (codec.verify noLeopard () streams).1 = .ok true) := by
  have hall (bytes : List Byte) (hbytes : bytes ∈ streams) : bytes.length = longest streams := by
    have hge := h.long bytes hbytes
    have hle := le_longest hbytes
    omega
  refine ⟨hall, fun hpos => ?_⟩
  have hword := h.word
  have hfull : streams.map (List.take (k * size)) = streams :=
    (List.map_congr_left fun bytes hbytes => by
      rw [List.take_of_length_le (by rw [hall bytes hbytes]; exact hend)]
      rfl).trans (List.map_id streams)
  rw [padded_eq hall rfl, hfull, Nat.min_eq_right hend] at hword
  obtain ⟨answer, hverify, hiff⟩ := hinv.verify_eq hpos (grid_of_forall hstreams hall)
  rw [hverify, hiff.mpr hword]

/-- A block that is no word tells that the streams up to its end are none. -/
theorem Verifying.invalid (hinv : codec.ClassicInv)
    (hstreams : streams.length = codec.totalShardCount) (hsize : 0 < size)
    (hmore : k * size < longest streams)
    (hlong : ∀ bytes ∈ streams, min ((k + 1) * size) (longest streams) ≤ bytes.length)
    (hbad : ¬codec.IsWord ((padded streams).map (blockOf size k)) (blockLen size k streams)) :
    ∃ n, 0 < n ∧ (∀ bytes ∈ streams, n ≤ bytes.length) ∧
      (codec.verify noLeopard () (streams.map (List.take n))).1 = .ok false := by
  set n := min ((k + 1) * size) (longest streams) with hn
  have hmul : (k + 1) * size = k * size + size := Nat.succ_mul k size
  have hlen : blockLen size k streams = min size (longest streams - k * size) := rfl
  have hcut : Grid codec.totalShardCount n (streams.map (List.take n)) :=
    grid_of_forall (by rw [List.length_map, hstreams]) fun row hrow => by
      obtain ⟨bytes, hbytes, rfl⟩ := List.mem_map.mp hrow
      rw [List.length_take, Nat.min_eq_left (hlong bytes hbytes)]
  obtain ⟨answer, hverify, hiff⟩ := hinv.verify_eq (by omega) hcut
  refine ⟨n, by omega, hlong, ?_⟩
  rw [hverify]
  cases answer with
  | false => rfl
  | true =>
    exfalso
    apply hbad
    have hblock := (hiff.mp rfl).blocks hcut size k
    have hsame : (streams.map (List.take n)).map (blockOf size k) =
        (padded streams).map (blockOf size k) := by
      rw [padded, List.map_map, List.map_map]
      refine List.map_congr_left fun bytes hbytes => ?_
      have hge := hlong bytes hbytes
      have hle := le_longest hbytes
      have hbytesLen := length_blockOf size k bytes
      simp only [Function.comp]
      rw [blockOf_take, blockOf_resize hle, List.take_of_length_le (by omega),
        resize_of_le (by omega), hbytesLen,
        show min size (longest streams - k * size) - min size (bytes.length - k * size) = 0 by omega,
        List.replicate_zero, List.append_nil]
    rw [hsame, show min size (n - k * size) = blockLen size k streams by omega] at hblock
    exact hblock

/-- The first buffer of another length belongs to the first stream that falls short. -/
theorem firstShort_of_findIdx {bad : Nat}
    (hread : bufs.map (·.readLen) = streams.map (deliveredLen size k))
    (hbad : (bufs.findIdx? fun buffer => buffer.readLen != blockLen size k streams) = some bad) :
    FirstShort (streams.map some) size k bad := by
  have hcount : bufs.length = streams.length := by simpa using congrArg List.length hread
  have hget (i : Nat) (h : i < bufs.length) (hs : i < streams.length) :
      bufs[i].readLen = deliveredLen size k streams[i] := by
    have := congrArg (·[i]?) hread
    simpa [h, hs] using this
  have hle (bytes : List Byte) (hbytes : bytes ∈ streams) :
      deliveredLen size k bytes ≤ blockLen size k streams := by
    have := le_longest hbytes
    rw [deliveredLen, blockLen]
    omega
  rw [List.findIdx?_eq_some_iff_getElem] at hbad
  obtain ⟨hlt, hne, hfirst⟩ := hbad
  have hs : bad < streams.length := by omega
  rw [hget bad hlt hs] at hne
  -- some stream has the full block
  obtain ⟨j, hj, hfull⟩ : ∃ (j : Nat) (hj : j < streams.length),
      deliveredLen size k streams[j] = blockLen size k streams := by
    have hmax := max_delivered size k streams
    cases hl : (streams.map (deliveredLen size k)).max? with
    | none =>
      have hnil := List.map_eq_nil_iff.mp (List.max?_eq_none_iff.mp hl)
      rw [hnil] at hs
      exact absurd hs (Nat.not_lt_zero bad)
    | some m =>
      rw [hl, Option.getD_some] at hmax
      obtain ⟨bytes, hbytes, hm⟩ := List.mem_map.mp (List.max?_eq_some_iff.mp hl).1
      obtain ⟨j, hj, rfl⟩ := List.mem_iff_getElem.mp hbytes
      exact ⟨j, hj, hm.trans hmax⟩
  have hlow := hle _ (List.getElem_mem hs)
  have hne : deliveredLen size k streams[bad] ≠ blockLen size k streams := by simpa using hne
  refine ⟨⟨streams[bad], by simp [hs], j, streams[j], by simp [hj], by omega⟩,
    fun i bytes hi hbytes j' other hother => ?_⟩
  obtain ⟨hi', rfl⟩ : ∃ h : i < streams.length, streams[i] = bytes := by
    rw [List.getElem?_map, Option.map_eq_some_iff] at hbytes
    obtain ⟨b, hb, hsome⟩ := hbytes
    obtain ⟨hlt', rfl⟩ := List.getElem?_eq_some_iff.mp hb
    exact ⟨hlt', Option.some.inj hsome⟩
  have hsame := hfirst i hi
  rw [hget i (by omega) hi'] at hsame
  have hsame : deliveredLen size k streams[i] = blockLen size k streams := by simpa using hsame
  have hmem : other ∈ streams := by
    have := List.mem_of_getElem? hother
    simpa using this
  rw [hsame]
  exact hle other hmem

/-- A block that is read in full by all streams. -/
theorem Verifying.long_succ (h : codec.Verifying streams size k readers bufs verifyBufs)
    (hmore : k * size < longest streams)
    (hfull : ∀ bytes ∈ streams, deliveredLen size k bytes = blockLen size k streams)
    (bytes : List Byte) (hbytes : bytes ∈ streams) :
    min ((k + 1) * size) (longest streams) ≤ bytes.length := by
  have hge := h.long bytes hbytes
  have hsame := hfull bytes hbytes
  have hmul : (k + 1) * size = k * size + size := Nat.succ_mul k size
  rw [deliveredLen, blockLen] at hsame
  omega

/-- A verification that a reader stops. -/
theorem StreamVerified.of_read (hr : Continues Reader.script first readers) {i : Nat} {r : Reader}
    {io : IoError} (hi : readers[i]? = some r) (hfail : r.Fails io) (readers' : List Reader) :
    codec.StreamVerified first size ⟨.err (.read i io), readers'⟩ where
  valid hv := by cases hv
  invalid hv := by cases hv
  failure e he := by
    obtain ⟨r₀, hr₀, hscript⟩ := hr i r hi
    exact .inl ⟨i, r₀, io, hr₀, hfail.of_suffix hscript, (Outcome.err.inj he).symm⟩
  ne_panic hpanic := by cases hpanic

/-- A verification of streams that are all read. -/
theorem Verifying.finished (h : codec.Verifying streams size k readers bufs verifyBufs)
    (hfirst : first.map Reader.pending = streams) (hinv : codec.ClassicInv)
    (hstreams : streams.length = codec.totalShardCount) (hend : longest streams ≤ k * size)
    (readers' : List Reader) : codec.StreamVerified first size ⟨.ok true, readers'⟩ where
  valid _ := by
    obtain ⟨hall, hverify⟩ := h.valid hinv hstreams hend
    subst hfirst
    exact ⟨fun r hr => hall _ (List.mem_map_of_mem hr), hverify⟩
  invalid hv := by cases hv
  failure e he := by cases he
  ne_panic hpanic := by cases hpanic

/-- A verification that a short stream stops. -/
theorem StreamVerified.of_short (hfirst : first.map Reader.pending = streams) {bad : Nat}
    (hread : bufs.map (·.readLen) = streams.map (deliveredLen size k))
    (hbad : (bufs.findIdx? fun buffer => buffer.readLen != blockLen size k streams) = some bad)
    (readers' : List Reader) :
    codec.StreamVerified first size ⟨.err (.codec bad .incorrectShardSize), readers'⟩ where
  valid hv := by cases hv
  invalid hv := by cases hv
  failure e he := by
    have hshort := firstShort_of_findIdx hread hbad
    rw [← hfirst, List.map_map] at hshort
    exact .inr ⟨k, bad, hshort, (Outcome.err.inj he).symm⟩
  ne_panic hpanic := by cases hpanic

/-- A verification that ends at a block that is no word. -/
theorem StreamVerified.of_invalid (hfirst : first.map Reader.pending = streams)
    (hbad : ∃ n, 0 < n ∧ (∀ bytes ∈ streams, n ≤ bytes.length) ∧
      (codec.verify noLeopard () (streams.map (List.take n))).1 = .ok false)
    (readers' : List Reader) : codec.StreamVerified first size ⟨.ok false, readers'⟩ where
  valid hv := by cases hv
  invalid _ := by
    obtain ⟨n, hn, hle, hcut⟩ := hbad
    subst hfirst
    rw [List.map_map] at hcut
    exact ⟨n, hn, fun r hr => hle _ (List.mem_map_of_mem hr), hcut⟩
  failure e he := by cases he
  ne_panic hpanic := by cases hpanic

/-- Where no buffer falls short, every stream delivers a full block. -/
theorem delivered_eq_of_findIdx
    (hread : bufs.map (·.readLen) = streams.map (deliveredLen size k))
    (hnone : (bufs.findIdx? fun buffer => buffer.readLen != blockLen size k streams) = none)
    (bytes : List Byte) (hbytes : bytes ∈ streams) :
    deliveredLen size k bytes = blockLen size k streams := by
  have hmem : deliveredLen size k bytes ∈ bufs.map (·.readLen) := by
    rw [hread]
    exact List.mem_map_of_mem hbytes
  obtain ⟨buffer, hbuffer, hsame⟩ := List.mem_map.mp hmem
  have hequal := List.findIdx?_eq_none_iff.mp hnone buffer hbuffer
  rw [← hsame]
  simpa using hequal

/-- One round of the block loop: it ends the verification or leaves the state before the next
block. -/
theorem Verifying.round (h : codec.Verifying streams size k readers bufs verifyBufs)
    (hfirst : first.map Reader.pending = streams) (hr : Continues Reader.script first readers)
    (hinv : codec.ClassicInv) {passes : StreamPasses} (hblock : passes.blockSize = size)
    (hsize : 0 < size) (hruns : ∀ time len, 0 < len → (passes.runs time len).For codec len)
    (hstreams : streams.length = codec.totalShardCount) (time : Nat) :
    (∃ run, (∀ fuel, codec.verifyLoop passes (fuel + 1) time readers bufs verifyBufs = some run) ∧
      codec.StreamVerified first size run) ∨
    k * size < longest streams ∧ ∃ readers' bufs' verifyBufs',
      (∀ fuel, codec.verifyLoop passes (fuel + 1) time readers bufs verifyBufs =
        codec.verifyLoop passes fuel (time + 2) readers' bufs' verifyBufs') ∧
      codec.Verifying streams size (k + 1) readers' bufs' verifyBufs' ∧
      Continues Reader.script first readers' := by
  rcases readBlockWithMode_spec passes.pool time passes.useParallelRead bufs h.pending_eq
    h.bufs_length with ⟨readers', bufs', hread, hbuf, hr'⟩ | ⟨i, r, io, hi, hfail, herr⟩
  swap
  · left
    rcases hread : readBlockWithMode passes.pool time readers bufs size passes.useParallelRead
      with ⟨result, readers', bufs'⟩
    rw [hread] at herr
    simp only at herr
    subst herr
    refine ⟨_, fun fuel => ?_, .of_read hr hi hfail readers'⟩
    simp only [verifyLoop, hblock, hread]
  have hlen : blockLen size k streams = min size (longest streams - k * size) := rfl
  by_cases hend : longest streams ≤ k * size
  · left
    have heof : blockLen size k streams = 0 := by omega
    refine ⟨_, fun fuel => ?_, h.finished hfirst hinv hstreams hend readers'⟩
    simp only [verifyLoop, hblock, hread, heof]
    rfl
  have hpos : 0 < blockLen size k streams := by omega
  have hne : (blockLen size k streams == 0) = false := by simp; omega
  cases hfind : bufs'.findIdx? fun buffer => buffer.readLen != blockLen size k streams with
  | some bad =>
    left
    refine ⟨_, fun fuel => ?_, .of_short hfirst hbuf.readLen_eq hfind readers'⟩
    simp only [verifyLoop, hblock, hread, hne, hfind]
  | none =>
    have hlong := h.long_succ (by omega) (delivered_eq_of_findIdx hbuf.readLen_eq hfind)
    -- the codec checks block `k` of all streams
    have hgrid : Grid codec.totalShardCount (longest streams) (padded streams) := by
      rw [← hstreams]
      exact grid_padded streams
    obtain ⟨answer, hverify, hiff⟩ := hinv.verifyWithBufferPar_eq hpos (grid_blocks hgrid size k)
      (hruns time _ hpos) (grid_resized h.verifyBufs_length _)
    rw [← hbuf.asRef_eq] at hverify
    cases answer with
    | false =>
      left
      have hbad := Verifying.invalid hinv hstreams hsize (by omega) hlong
        fun hword => Bool.false_ne_true (hiff.mpr hword)
      refine ⟨_, fun fuel => ?_, .of_invalid hfirst hbad readers'⟩
      simp only [verifyLoop, hblock, hread, hne, hfind, hverify]
    | true =>
      right
      refine ⟨by omega, readers', bufs', codec.parityProduct
        ((bufs'.map StreamReadBuffer.asRef).take codec.dataShardCount) (blockLen size k streams),
        fun fuel => ?_, ⟨hbuf.pending_eq, hbuf.length_eq, (codec.grid_parityProduct _ _).length_eq,
          hlong, h.word.succ hgrid (hiff.mp rfl)⟩, hr.trans hr'⟩
      simp only [verifyLoop, hblock, hread, hne, hfind, hverify]

/-- The block loop ends within the blocks of the longest stream. -/
theorem Verifying.run (hinv : codec.ClassicInv) (passes : StreamPasses)
    (hblock : passes.blockSize = size) (hsize : 0 < size)
    (hruns : ∀ time len, 0 < len → (passes.runs time len).For codec len)
    (hfirst : first.map Reader.pending = streams)
    (hstreams : streams.length = codec.totalShardCount) (count : Nat) (time : Nat)
    (h : codec.Verifying streams size k readers bufs verifyBufs)
    (hr : Continues Reader.script first readers)
    (hcount : longest streams ≤ (k + count) * size) :
    ∃ run, (∀ extra, codec.verifyLoop passes (extra + count + 1) time readers bufs verifyBufs =
        some run) ∧ codec.StreamVerified first size run := by
  induction count generalizing k time readers bufs verifyBufs with
  | zero =>
    rcases h.round hfirst hr hinv hblock hsize hruns hstreams time with ⟨run, hrun, hdone⟩ | ⟨hmore, -⟩
    · exact ⟨run, fun extra => hrun extra, hdone⟩
    · rw [Nat.add_zero] at hcount
      omega
  | succ count ih =>
    rcases h.round hfirst hr hinv hblock hsize hruns hstreams time with
      ⟨run, hrun, hdone⟩ | ⟨-, readers', bufs', verifyBufs', hloop, hnext, hr'⟩
    · exact ⟨run, fun extra => hrun (extra + (count + 1)), hdone⟩
    · obtain ⟨run, hrun, hdone⟩ := ih (time + 2) hnext hr'
        (by rwa [show k + 1 + count = k + (count + 1) by omega])
      exact ⟨run, fun extra => (hloop (extra + (count + 1))).trans (hrun extra), hdone⟩

end Blocks

section Whole

variable {codec : ReedSolomon Galois8}

/-- `verify` accepts the beginnings of shards it accepts. -/
theorem ClassicInv.verify_take (hinv : codec.ClassicInv) {shards : List (List Byte)} {len n : Nat}
    (hgrid : Grid codec.totalShardCount len shards) (hn : 0 < n) (hle : n ≤ len)
    (h : (codec.verify noLeopard () shards).1 = .ok true) :
    (codec.verify noLeopard () (shards.map (List.take n))).1 = .ok true := by
  obtain ⟨answer, hverify, hiff⟩ := hinv.verify_eq (by omega) hgrid
  have hword := (hiff.mp (Outcome.ok.inj (hverify.symm.trans h))).take hgrid n
  rw [Nat.min_eq_left hle] at hword
  have hgrid' : Grid codec.totalShardCount n (shards.map (List.take n)) :=
    grid_of_forall (by rw [List.length_map, hgrid.length_eq]) fun row hrow => by
      obtain ⟨shard, hshard, rfl⟩ := List.mem_map.mp hrow
      rw [List.length_take, hgrid.forall hshard, Nat.min_eq_left hle]
  obtain ⟨answer', hverify', hiff'⟩ := hinv.verify_eq hn hgrid'
  rw [hverify', hiff'.mpr hword]

/-- Streams of one length are answered unless a reader fails. -/
theorem StreamVerified.ne_err {readers : List Reader} {size len : Nat} {run : StreamVerification}
    (h : codec.StreamVerified readers size run)
    (hread : ∀ i io, run.result ≠ .err (.read i io)) (hlen : ∀ r ∈ readers, r.pending.length = len)
    (e : StreamError) : run.result ≠ .err e := by
  intro hresult
  rcases h.failure e hresult with ⟨i, r, io, -, -, rfl⟩ | ⟨block, bad, hshort, -⟩
  · exact hread i io hresult
  · obtain ⟨⟨short, hbad, j, longer, hj, hlt⟩, -⟩ := hshort
    have hall (bytes : List Byte) (i : Nat)
        (hi : (readers.map fun r => some r.pending)[i]? = some (some bytes)) :
        bytes.length = len := by
      obtain ⟨r, hr, hbytes⟩ := List.mem_map.mp (List.mem_of_getElem? hi)
      rw [← Option.some.inj hbytes]
      exact hlen r hr
    rw [deliveredLen, deliveredLen, hall short bad hbad, hall longer j hj] at hlt
    exact absurd hlt (lt_irrefl _)

/-- Streams of one length get the answer of `verify` unless a reader fails. -/
theorem StreamVerified.answer {readers : List Reader} {size len : Nat} {run : StreamVerification}
    (h : codec.StreamVerified readers size run) (hinv : codec.ClassicInv)
    (hreaders : readers.length = codec.totalShardCount)
    (hread : ∀ i io, run.result ≠ .err (.read i io)) (hlen : ∀ r ∈ readers, r.pending.length = len) :
    ∃ answer, run.result = .ok answer ∧ (len = 0 → answer = true) ∧
      (0 < len → (codec.verify noLeopard () (readers.map Reader.pending)).1 = .ok answer) := by
  have htotal : 0 < codec.totalShardCount := by
    have := hinv.data_pos
    have := codec.totalShardCount_eq
    omega
  obtain ⟨first, hfirst⟩ := List.exists_mem_of_length_pos (hreaders.symm ▸ htotal)
  cases hresult : run.result with
  | panic => exact absurd hresult h.ne_panic
  | err e => exact absurd hresult (h.ne_err hread hlen e)
  | ok answer =>
    refine ⟨answer, rfl, ?_⟩
    cases answer with
    | true =>
      obtain ⟨hall, hverify⟩ := h.valid hresult
      refine ⟨fun _ => rfl, fun hpos => hverify ?_⟩
      rwa [← hall first hfirst, hlen first hfirst]
    | false =>
      obtain ⟨n, hn, hle, hcut⟩ := h.invalid hresult
      have hnlen : n ≤ len := by
        rw [← hlen first hfirst]
        exact hle first hfirst
      refine ⟨fun h0 => by omega, fun hpos => ?_⟩
      have hgrid : Grid codec.totalShardCount len (readers.map Reader.pending) :=
        grid_of_forall (by rw [List.length_map, hreaders]) fun bytes hbytes => by
          obtain ⟨r, hr, rfl⟩ := List.mem_map.mp hbytes
          exact hlen r hr
      obtain ⟨answer, hverify, -⟩ := hinv.verify_eq hpos hgrid
      rw [hverify]
      cases answer with
      | false => rfl
      | true =>
        have haccept := hinv.verify_take hgrid hn hnlen (by rw [hverify])
        rw [List.map_map] at haccept
        have hclash := haccept.symm.trans hcut
        cases hclash

/-- Nothing is read and nothing checked when verification starts. -/
theorem Verifying.start (codec : ReedSolomon Galois8) {readers : List Reader} (size : Nat)
    (hr : readers.length = codec.totalShardCount) :
    codec.Verifying (readers.map Reader.pending) size 0 readers
      (List.replicate codec.totalShardCount StreamReadBuffer.new)
      (List.replicate codec.parityShardCount []) := by
  have hgrid := grid_padded (readers.map Reader.pending)
  rw [List.length_map, hr] at hgrid
  refine ⟨by simp, by simp [hr], List.length_replicate,
    fun bytes _ => by rw [Nat.zero_mul, Nat.zero_min]; exact Nat.zero_le _, ?_⟩
  have hempty := parityProduct_take codec (grid_data hgrid) 0
  unfold IsWord
  rw [Nat.zero_mul, ← List.map_take, hempty, ← List.map_drop]
  have hnil (l : List (List Byte)) : l.map (List.take 0) = List.replicate l.length [] := by
    rw [List.eq_replicate_iff]
    simp
  have htotal := codec.totalShardCount_eq
  rw [hnil, hnil, (codec.grid_parityProduct _ _).length_eq, List.length_drop, hgrid.length_eq]
  congr 1
  omega

/-- Verifying streams ends within their blocks, whatever the readers do: streams are accepted only
when they have one length and are empty or `verify` accepts them, they are rejected only when
`verify` rejects their beginnings, and an error is one of a reader's own or tells of the first stream
that is short. If no reader fails, streams of one length get the answer of `verify`, and empty ones
are accepted. -/
theorem verify_stream_exact (hclassic : codec.IsClassic) (pool : TryForEach.Pool)
    {runs : Nat → Nat → ParallelRun}
    (hruns : ∀ time len, 0 < len → (runs time len).For codec len) (options : StreamOptions)
    {readers : List Reader} (hr : readers.length = codec.totalShardCount) :
    ∃ run, (∀ fuel,
        longest (readers.map Reader.pending) / clampBlockSize options.blockSize + 1 < fuel →
          codec.verifyStream pool runs fuel readers options = some run) ∧
      codec.StreamVerified readers (clampBlockSize options.blockSize) run ∧
      ((∀ r ∈ readers, r.Cooperative) → (∀ i io, run.result ≠ .err (.read i io)) ∧
        ∀ len, (∀ r ∈ readers, r.pending.length = len) →
          ∃ answer, run.result = .ok answer ∧ (len = 0 → answer = true) ∧
            (0 < len → (codec.verify noLeopard () (readers.map Reader.pending)).1 =
              .ok answer)) := by
  have hinv := hclassic.inv
  have hsize := clampBlockSize_pos options.blockSize
  have hstart := Verifying.start codec (clampBlockSize options.blockSize) hr
  set streams := readers.map Reader.pending with hstreams
  set size := clampBlockSize options.blockSize with hsizeDef
  have hcount : streams.length = codec.totalShardCount := by rw [hstreams, List.length_map, hr]
  obtain ⟨run, hrun, hverified⟩ := Verifying.run hinv
    { pool, runs
      blockSize := size
      useParallelRead := useParallelStreamIo options codec.totalShardCount
      useParallelWrite := false }
    rfl hsize hruns rfl hcount (longest streams / size + 1) 0 hstart (.refl _ readers)
    (longest_le_blocks streams hsize)
  refine ⟨run, fun fuel hfuel => ?_, hverified, fun hcoop => ⟨hverified.ne_read hcoop, fun len hlen =>
    hverified.answer hinv hr (hverified.ne_read hcoop) hlen⟩⟩
  have hcheck : codec.checkVerifyStream readers = .ok () := by
    unfold checkVerifyStream
    rw [hinv.isLeopardFamily_eq, validateStreamCount_eq, if_pos hr]
    rfl
  obtain ⟨extra, rfl⟩ : ∃ extra, fuel = extra + (longest streams / size + 1) + 1 :=
    ⟨fuel - (longest streams / size + 1) - 1, by omega⟩
  simp only [verifyStream, hcheck]
  exact hrun extra

/-- Four streams, the first one read in two pieces. -/
theorem verify_stream_exact_sample : ∃ run,
    sampleCodec.verifyStream .sequential sampleRuns 3
        [⟨[.give 0], [1#8, 2#8]⟩, ⟨[], [3#8, 0#8]⟩, ⟨[], [4#8, 5#8]⟩, ⟨[], [6#8, 7#8]⟩] {} =
      some run ∧
    ∃ answer, run.result = .ok answer ∧ (sampleCodec.verify noLeopard ()
      [[1#8, 2#8], [3#8, 0#8], [4#8, 5#8], [6#8, 7#8]]).1 = .ok answer := by
  obtain ⟨run, hrun, -, hcoop⟩ := verify_stream_exact sampleCodec_isClassic .sequential
    sampleRuns_for {} (show ([⟨[.give 0], [1#8, 2#8]⟩, ⟨[], [3#8, 0#8]⟩, ⟨[], [4#8, 5#8]⟩,
      ⟨[], [6#8, 7#8]⟩] : List Reader).length = _ from rfl)
  obtain ⟨answer, hresult, -, hverify⟩ := (hcoop (by simp [Reader.Cooperative])).2 2 (by decide)
  exact ⟨run, hrun 3 (by decide), answer, hresult, hverify (by decide)⟩

end Whole

end ReedSolomon

end ErasureCodec
