import ErasureCodec.Codec.StreamReconstruct

namespace ErasureCodec

open CodecField ReconstructShard ErasureCodec.Stream

/-- `Cursor<Vec<u8>>`. -/
structure Cursor where
  bytes : List Byte
  position : Nat
  deriving DecidableEq

namespace Cursor

/-- A cursor reads on from its position. -/
def reader (cursor : Cursor) : Reader := ⟨[], cursor.bytes.drop cursor.position⟩

/-- A cursor when its streams are done: a reader has moved the position, and a writer has filled the
bytes but left the position. -/
def after (cursor : Cursor) (reader : Option Reader) (writer : Option Writer) : Cursor :=
  match reader, writer with
  | some reader, _ => { cursor with position := cursor.bytes.length - reader.pending.length }
  | none, some writer => { cursor with bytes := writer.written }
  | none, none => cursor

/-- A cursor without bytes is a missing shard. -/
def content (cursor : Cursor) : Option (List Byte) :=
  if cursor.bytes.isEmpty then none else some cursor.bytes

end Cursor

namespace ReedSolomon

section Equal

variable {codec : ReedSolomon Galois8} {content base : List (Option (List Byte))}
  {blocks : StreamBlocks} {readers : List (Option Reader)} {writers : List (Option Writer)}
  {len : Nat}

/-- The block loop writes streams of one length to their end. -/
theorem Recovering.finish (h : codec.Recovering content base blocks) (hsize : 0 < blocks.blockSize)
    (hsome : ∃ (i : Nat) (bytes : List Byte), content[i]? = some (some bytes))
    (hlen : ∀ (i : Nat) (bytes : List Byte), content[i]? = some (some bytes) → bytes.length = len)
    (count : Nat) {k n : Nat} {buffers : List (List Byte)} (time : Nat)
    (hread : HasRead content blocks.blockSize k readers buffers)
    (hwritten : HasWritten codec content base (k * blocks.blockSize) writers)
    (hn : n = min blocks.blockSize (len - k * blocks.blockSize)) (hmore : k * blocks.blockSize < len)
    (hcount : len ≤ (k + count + 1) * blocks.blockSize) :
    ∃ last readers' buffers' writers',
      (∀ extra, codec.reconstructLoop blocks (extra + count + 1) time readers writers buffers n =
        some (.ok (), readers', writers')) ∧
      HasRead content blocks.blockSize last readers' buffers' ∧ len ≤ last * blocks.blockSize ∧
      HasWritten codec content base len writers' := by
  have hdelivered (m : Nat) (i : Nat) (bytes : List Byte) (hi : content[i]? = some (some bytes)) :
      deliveredLen blocks.blockSize m bytes = min blocks.blockSize (len - m * blocks.blockSize) := by
    rw [deliveredLen, hlen i bytes hi]
  have hround (k n time : Nat) {readers : List (Option Reader)} {buffers : List (List Byte)}
      {writers : List (Option Writer)} (hread : HasRead content blocks.blockSize k readers buffers)
      (hwritten : HasWritten codec content base (k * blocks.blockSize) writers)
      (hn : n = min blocks.blockSize (len - k * blocks.blockSize))
      (hmore : k * blocks.blockSize < len) :=
    h.loop_succ time hread (show 0 < n by omega)
      (fun i bytes hi => (hdelivered k i bytes hi).trans hn.symm) hsome hwritten
  induction count generalizing k n time readers writers buffers with
  | zero =>
    obtain ⟨result, readers', buffers', writers', hloop, hread', hwritten', hnext, -⟩ :=
      hround k n time hread hwritten hn hmore
    have hmul : (k + 1) * blocks.blockSize = k * blocks.blockSize + blocks.blockSize :=
      Nat.succ_mul k blocks.blockSize
    have hresult := hnext 0 (fun i bytes hi => by
      rw [hdelivered _ i bytes hi]
      rw [Nat.add_zero] at hcount
      omega)
    subst hresult
    rw [show k * blocks.blockSize + n = len by
      rw [Nat.add_zero] at hcount
      omega] at hwritten'
    exact ⟨k + 1, readers', buffers', writers', fun extra => hloop extra, hread', hcount, hwritten'⟩
  | succ count ih =>
    obtain ⟨result, readers', buffers', writers', hloop, hread', hwritten', hnext, -⟩ :=
      hround k n time hread hwritten hn hmore
    have hmul : (k + 1) * blocks.blockSize = k * blocks.blockSize + blocks.blockSize :=
      Nat.succ_mul k blocks.blockSize
    have hresult := hnext _ (hdelivered (k + 1))
    subst hresult
    by_cases hend : len ≤ (k + 1) * blocks.blockSize
    · rw [show k * blocks.blockSize + n = len by omega] at hwritten'
      refine ⟨k + 1, readers', buffers', writers', fun extra => ?_, hread', hend, hwritten'⟩
      have hzero : min blocks.blockSize (len - (k + 1) * blocks.blockSize) = 0 := by omega
      rw [hloop, hzero]
      rfl
    · rw [show k * blocks.blockSize + n = (k + 1) * blocks.blockSize by omega] at hwritten'
      obtain ⟨last, readers₂, buffers₂, writers₂, hrest, hread₂, hlast, hwritten₂⟩ :=
        ih (time + 2) hread' hwritten' rfl (by omega) (by
          rwa [show k + 1 + count + 1 = k + (count + 1) + 1 by omega])
      refine ⟨last, readers₂, buffers₂, writers₂, fun extra => ?_, hread₂, hlast, hwritten₂⟩
      have hne : (min blocks.blockSize (len - (k + 1) * blocks.blockSize) == 0) = false := by
        simp
        omega
      rw [hloop, hne]
      exact hrest extra

/-- What reconstruction gives and what it leaves of streams of one length. -/
structure Recovered (codec : ReedSolomon Galois8) (readers : List (Option Reader))
    (writers : List (Option Writer)) (len : Nat) (run : StreamRun) : Prop where
  result : run.result = .ok ()
  drained : pendings run.readers = (pendings readers).map (Option.map fun _ => [])
  written : writtens run.writers = (writtens writers).mapIdx fun i written =>
    written.map (· ++ codec.recoveredShard (pendings readers) len i)

theorem HasRead.drained {k size : Nat} {readers' : List (Option Reader)} {buffers : List (List Byte)}
    (h : HasRead content size k readers' buffers) (hend : len ≤ (k + 1) * size)
    (hlen : ∀ (i : Nat) (bytes : List Byte), content[i]? = some (some bytes) → bytes.length = len) :
    pendings readers' = content.map (Option.map fun _ => []) := by
  rw [h.pending_eq]
  refine List.map_congr_left fun c hc => ?_
  obtain ⟨i, hi⟩ := List.mem_iff_getElem?.mp hc
  cases c with
  | none => rfl
  | some bytes =>
    simp only [Option.map_some, Option.some.injEq]
    rw [List.drop_eq_nil_iff, hlen i bytes hi]
    exact hend

/-- Streams of one length with solvable survivors are recovered to their end. -/
theorem Readable.recovered (h : codec.Readable readers writers) (hinv : codec.ClassicInv)
    {cache : InversionCache Galois8} (hc : codec.CacheInv cache) (pool : TryForEach.Pool)
    (options : StreamOptions) (hlen : ∀ (i : Nat) (bytes : List Byte),
      (pendings readers)[i]? = some (some bytes) → bytes.length = len) :
    ∃ run, (∀ fuel, len / clampBlockSize options.blockSize < fuel →
        codec.reconstructStreamFrom pool fuel cache readers writers options = some run) ∧
      codec.Recovered readers writers len run := by
  have hsize := clampBlockSize_pos options.blockSize
  have hsome := h.exists_present hinv
  obtain ⟨readers', buffers, hread, -, hempty, hstart⟩ := h.start hinv hc pool options
  set size := clampBlockSize options.blockSize with hsizeDef
  rcases Nat.eq_zero_or_pos len with rfl | hpos
  · refine ⟨⟨.ok (), readers', writers, cache⟩, fun fuel _ => hempty hlen fuel, rfl,
      hread.drained (Nat.zero_le _) hlen, ?_⟩
    exact h.hasWritten_zero.written_eq
  · obtain ⟨blocks, cache', hrec, hblock, hrun⟩ := hstart (min size len) (by omega)
      (fun i bytes hi => by rw [deliveredLen, hlen i bytes hi, Nat.zero_mul, Nat.sub_zero])
    rw [← hblock] at hread hsize hrun ⊢
    have hdiv := Nat.div_add_mod' len blocks.blockSize
    have hmod := Nat.mod_lt len hsize
    have hmul : (0 + len / blocks.blockSize + 1) * blocks.blockSize =
        len / blocks.blockSize * blocks.blockSize + blocks.blockSize := by
      rw [Nat.zero_add]
      exact Nat.succ_mul _ _
    obtain ⟨last, readers₁, buffers₁, writers₁, hloop, hread₁, hlast, hwritten₁⟩ :=
      hrec.finish hsize hsome hlen (len / blocks.blockSize) 1 hread
        (by rw [Nat.zero_mul]; exact h.hasWritten_zero) (by rw [Nat.zero_mul, Nat.sub_zero])
        (by rw [Nat.zero_mul]; exact hpos) (by omega)
    refine ⟨⟨.ok (), readers₁, writers₁, cache'⟩, fun fuel hfuel => ?_, rfl,
      hread₁.drained (le_trans hlast (Nat.mul_le_mul_right _ (Nat.le_succ last))) hlen,
      hwritten₁.written_eq⟩
    obtain ⟨extra, rfl⟩ : ∃ extra, fuel = extra + len / blocks.blockSize + 1 :=
      ⟨fuel - len / blocks.blockSize - 1, by omega⟩
    rw [hrun, hloop]
    rfl

end Equal

section Singular

variable {codec : ReedSolomon Galois8} {readers : List (Option Reader)}
  {writers : List (Option Writer)} {len : Nat}

/-- Shards that are all there have solvable survivors. -/
theorem isUnit_of_complete (hinv : codec.ClassicInv) {lengths : List (Option Nat)}
    (hcount : lengths.length = codec.totalShardCount) (hnone : missingIndices lengths = []) :
    IsUnit (codec.survivorMatrix ((presentIndices lengths).take codec.dataShardCount)) := by
  have hall : presentIndices lengths = List.range lengths.length := by
    unfold presentIndices
    rw [List.filter_eq_self]
    intro i hi
    by_contra hi'
    have hmem : i ∈ missingIndices lengths := by
      rw [mem_missingIndices]
      exact ⟨List.mem_range.mp hi, by simpa using hi'⟩
    rw [hnone] at hmem
    exact List.not_mem_nil hmem
  have hle : codec.dataShardCount ≤ lengths.length := by
    have := codec.totalShardCount_eq
    omega
  rw [hall, List.take_range, Nat.min_eq_left hle]
  exact isUnit_survivorMatrix_range hinv

/-- Planning fails when the survivors cannot be solved. -/
theorem streamReconstructPlan_err (hinv : codec.ClassicInv) {cache : InversionCache Galois8}
    (hc : codec.CacheInv cache) {lengths : List (Option Nat)} {n : Nat}
    (hrec : codec.Recoverable lengths n)
    (hnot : ¬IsUnit (codec.survivorMatrix ((presentIndices lengths).take codec.dataShardCount))) :
    ∃ e, (codec.streamReconstructPlan cache (missingIndices lengths) n).1 = .err e := by
  have hlengths : streamLengths (missingIndices lengths) codec.totalShardCount n = lengths := by
    rw [streamLengths_eq (ascending_missingIndices lengths), ← hrec.length_eq]
    refine List.ext_getElem (by simp) fun i h1 h2 => ?_
    simp only [List.getElem_map, List.getElem_range, mem_missingIndices, h2, true_and]
    rw [List.getD_eq_getElem _ _ h2]
    cases hi : lengths[i] with
    | none => rfl
    | some l =>
      rw [if_neg (by simp), hrec.uniform.2 l (by rw [← hi]; exact List.getElem_mem h2)]
  have hshape : (codec.classicReconstructShape lengths).Sat (codec.ShapeOf lengths) _ _ :=
    classicReconstructShape_spec hinv.data_pos
  have hne : missingIndices lengths ≠ [] := fun hnone =>
    hnot (isUnit_of_complete hinv hrec.length_eq hnone)
  unfold streamReconstructPlan
  rw [hlengths]
  rcases hres : codec.classicReconstructShape lengths with shape | e | _
  · rw [hres] at hshape
    have hfill := (fillClassicReconstructPlan_spec hinv hc hshape
      (show codec.validMask .all = true from rfl)).1
    simp only
    rcases hplan : (codec.fillClassicReconstructPlan cache shape .all).1 with plan | e | _
    · rw [hplan] at hfill
      obtain ⟨-, hof⟩ := hfill
      have htargets : codec.targets .all lengths ≠ [] := by rwa [targets_all]
      have hunit := hof.isUnit hinv htargets hne
      rw [hof.shape.valid_eq hne] at hunit
      exact absurd hunit hnot
    · exact ⟨e, rfl⟩
    · rw [hplan] at hfill
      exact hfill.elim
  · exact ⟨e, rfl⟩
  · rw [hres] at hshape
    exact hshape.elim

theorem Accepts.length_pendings (h : codec.Accepts readers writers) :
    (pendings readers).length = codec.totalShardCount := by
  rw [pendings, List.length_map, h.readers_length]

theorem Accepts.recoverable (h : codec.Accepts readers writers) {n : Nat} (hn : 0 < n) :
    codec.Recoverable (blockLengths (pendings readers) n) n := by
  refine ⟨by simp [blockLengths, h.length_pendings], ⟨hn, fun l hl => ?_⟩, ?_⟩
  · obtain ⟨c, -, hc⟩ := List.mem_map.mp hl
    cases c with
    | none => cases hc
    | some bytes => exact (Option.some.inj hc).symm
  · rw [(indices_blockLengths _ n).1, length_present]
    exact h.quorum

/-- The first read of streams of one length. -/
theorem Accepts.first_read (h : codec.Accepts readers writers) (hinv : codec.ClassicInv)
    (pool : TryForEach.Pool) (useParallelRead : Bool) (size : Nat)
    (hcoop : ∀ r, some r ∈ readers → r.Cooperative) (hlen : ∀ (i : Nat) (bytes : List Byte),
      (pendings readers)[i]? = some (some bytes) → bytes.length = len) :
    ∃ readers' buffers, readPresentStreamsWithMode pool 0 readers (readers.map fun _ => []) size
      useParallelRead = (.ok (min size len == 0, min size len), readers', buffers) ∧
      HasRead (pendings readers) size 0 readers' buffers := by
  have hstart : pendings readers = (pendings readers).map (Option.map (List.drop (0 * size))) := by
    rw [pendings, List.map_map]
    refine List.map_congr_left fun r _ => ?_
    cases r <;> simp
  obtain ⟨result, readers', buffers, hrun, hread, hequal, -⟩ := readBlock_spec (pendings readers)
    size 0 pool 0 useParallelRead (readers.map fun _ => []) hcoop hstart (by simp [pendings])
  have hsome : ∃ (i : Nat) (bytes : List Byte), (pendings readers)[i]? = some (some bytes) := by
    have hquorum := h.quorum
    rw [← length_present] at hquorum
    obtain ⟨i, hi⟩ := List.exists_mem_of_ne_nil (presentIndices (lengthsOf (pendings readers)))
      (List.ne_nil_of_length_pos (lt_of_lt_of_le hinv.data_pos hquorum))
    exact ⟨i, _, mem_present_content hi⟩
  have hresult := hequal (min size len) hsome (fun i bytes hi => by
    rw [deliveredLen, hlen i bytes hi, Nat.zero_mul, Nat.sub_zero])
  exact ⟨readers', buffers, by rw [hrun, hresult], hread⟩

/-- Empty streams are done after the first read. -/
theorem Accepts.empty (h : codec.Accepts readers writers) (hinv : codec.ClassicInv)
    (cache : InversionCache Galois8) (pool : TryForEach.Pool) (options : StreamOptions)
    (hcoop : ∀ r, some r ∈ readers → r.Cooperative) (hlen : ∀ (i : Nat) (bytes : List Byte),
      (pendings readers)[i]? = some (some bytes) → bytes.length = 0) :
    ∃ readers', ∀ fuel, codec.reconstructStreamFrom pool fuel cache readers writers options =
      some ⟨.ok (), readers', writers, cache⟩ := by
  obtain ⟨readers', buffers, hread, -⟩ := h.first_read hinv pool
    (useParallelStreamIo options (codec.totalShardCount -
      (missingIndices (lengthsOf (pendings readers))).length))
    (clampBlockSize options.blockSize) hcoop hlen
  refine ⟨readers', fun fuel => ?_⟩
  simp only [reconstructStreamFrom, h.check_eq, hread, Nat.min_zero]
  rfl

/-- Streams with survivors that cannot be solved are refused before anything is written. -/
theorem Accepts.singular (h : codec.Accepts readers writers) (hinv : codec.ClassicInv)
    {cache : InversionCache Galois8} (hc : codec.CacheInv cache) (pool : TryForEach.Pool)
    (options : StreamOptions) (hcoop : ∀ r, some r ∈ readers → r.Cooperative) (hpos : 0 < len)
    (hlen : ∀ (i : Nat) (bytes : List Byte),
      (pendings readers)[i]? = some (some bytes) → bytes.length = len)
    (hnot : ¬IsUnit (codec.survivorMatrix (codec.selected (pendings readers)))) :
    ∃ readers' cache' e, ∀ fuel,
      codec.reconstructStreamFrom pool fuel cache readers writers options =
        some ⟨.err (.codec 0 e), readers', writers, cache'⟩ := by
  have hsize := clampBlockSize_pos options.blockSize
  set missing := missingIndices (lengthsOf (pendings readers)) with hmissing
  set size := clampBlockSize options.blockSize with hsizeDef
  obtain ⟨readers', buffers, hread, -⟩ := h.first_read hinv pool
    (useParallelStreamIo options (codec.totalShardCount - missing.length)) size hcoop hlen
  have hindices := indices_blockLengths (pendings readers) (min size len)
  obtain ⟨e, hplan⟩ := streamReconstructPlan_err hinv hc
    (h.recoverable (show 0 < min size len by omega)) (by rwa [hindices.1])
  rw [hindices.2, ← hmissing] at hplan
  rcases hfull : codec.streamReconstructPlan cache missing (min size len) with ⟨result, cache'⟩
  rw [hfull] at hplan
  simp only at hplan
  subst hplan
  rw [show (min size len == 0) = false by simp; omega] at hread
  refine ⟨readers', cache', e, fun fuel => ?_⟩
  simp only [reconstructStreamFrom, h.check_eq, ← hmissing, ← hsizeDef, hread, hfull]

end Singular

section Whole

variable {codec : ReedSolomon Galois8} {readers : List (Option Reader)}
  {writers : List (Option Writer)} {len : Nat}

/-- What reconstruction of shards of one length gives: the recovered shards, or an error when the
survivors cannot be solved. -/
theorem reconstruct_equal (hinv : codec.ClassicInv) {cache : InversionCache Galois8}
    (hc : codec.CacheInv cache) {shards : List (Option (List Byte))}
    (hrec : codec.Recoverable (lengthsOf shards) len) :
    IsUnit (codec.survivorMatrix (codec.selected shards)) ∧
        (codec.reconstruct cache shards).1 = (.ok (),
          shards.mapIdx fun i shard => some (shard.getD (codec.recoveredShard shards len i))) ∨
      ¬IsUnit (codec.survivorMatrix (codec.selected shards)) ∧
        ∃ e, (codec.reconstruct cache shards).1 = (.err e, shards) := by
  by_cases hunit : IsUnit (codec.survivorMatrix (codec.selected shards))
  · exact .inl ⟨hunit, Plannable.reconstruct_option hinv hc ⟨hrec, rfl, fun _ => hunit⟩⟩
  · right
    refine ⟨hunit, ?_⟩
    rcases recover_spec hinv hc shards .all with ⟨e, -, hrun, -⟩ | ⟨n, p, -, hplan, -⟩
    · exact ⟨e, hrun⟩
    · exfalso
      apply hunit
      apply hplan.isUnit
      rw [targets_all]
      exact fun hnone => hunit (isUnit_of_complete hinv hrec.length_eq hnone)

theorem lengthsOf_equal {content : List (Option (List Byte))}
    (hlen : ∀ (i : Nat) (bytes : List Byte), content[i]? = some (some bytes) → bytes.length = len) :
    lengthsOf content = blockLengths content len := by
  unfold lengthsOf blockLengths
  refine List.map_congr_left fun c hc => ?_
  obtain ⟨i, hi⟩ := List.mem_iff_getElem?.mp hc
  cases c with
  | none => rfl
  | some bytes => exact congrArg some (hlen i bytes hi)

/-- What reconstruction of streams does, beside that of the whole shards: it appends to each missing
stream the recovered shard, or refuses what cannot be solved and writes nothing. -/
structure RecoversAs (codec : ReedSolomon Galois8) (cache : InversionCache Galois8)
    (readers : List (Option Reader)) (writers : List (Option Writer)) (len : Nat) (run : StreamRun) :
    Prop where
  empty : len = 0 → run.result = .ok () ∧ run.writers = writers
  whole : 0 < len →
    (∃ recovered, (codec.reconstruct cache (pendings readers)).1 = (.ok (), recovered) ∧
      run.result = .ok () ∧ pendings run.readers = (pendings readers).map (Option.map fun _ => []) ∧
      writtens run.writers = (writtens writers).mapIdx fun i written =>
        written.map (· ++ contentOf recovered i)) ∨
    ∃ e e', (codec.reconstruct cache (pendings readers)).1 = (.err e, pendings readers) ∧
      run.result = .err (.codec 0 e') ∧ run.writers = writers

theorem Accepts.recovers (h : codec.Accepts readers writers) (hinv : codec.ClassicInv)
    {cache cache' : InversionCache Galois8} (hc : codec.CacheInv cache)
    (hc' : codec.CacheInv cache') (pool : TryForEach.Pool) (options : StreamOptions)
    (hreaders : ∀ r, some r ∈ readers → r.Cooperative)
    (hwriters : ∀ w, some w ∈ writers → w.Cooperative) (hlen : ∀ (i : Nat) (bytes : List Byte),
      (pendings readers)[i]? = some (some bytes) → bytes.length = len) :
    ∃ run, (∀ fuel, len / clampBlockSize options.blockSize < fuel →
        codec.reconstructStreamFrom pool fuel cache readers writers options = some run) ∧
      codec.RecoversAs cache' readers writers len run := by
  rcases Nat.eq_zero_or_pos len with rfl | hpos
  · obtain ⟨readers', hrun⟩ := h.empty hinv cache pool options hreaders hlen
    exact ⟨_, fun fuel _ => hrun fuel, fun _ => ⟨rfl, rfl⟩, fun h0 => absurd h0 (lt_irrefl 0)⟩
  have hrec : codec.Recoverable (lengthsOf (pendings readers)) len := by
    rw [lengthsOf_equal hlen]
    exact h.recoverable hpos
  rcases reconstruct_equal hinv hc' hrec with ⟨hunit, hwhole⟩ | ⟨hnot, e, hwhole⟩
  · have hreadable : codec.Readable readers writers := ⟨h, hreaders, hwriters, hunit⟩
    obtain ⟨run, hrun, hdone⟩ := hreadable.recovered hinv hc pool options hlen
    refine ⟨run, hrun, fun h0 => absurd h0 hpos.ne', fun _ => .inl ⟨_, hwhole, hdone.result,
      hdone.drained, ?_⟩⟩
    rw [hdone.written]
    refine List.ext_getElem (by simp) fun i h1 h2 => ?_
    have hi : i < (writtens writers).length := by simpa using h1
    simp only [List.getElem_mapIdx]
    cases hb : (writtens writers)[i] with
    | none => rfl
    | some written =>
      have hnone := hreadable.base_missing i written (by rw [List.getElem?_eq_getElem hi, hb])
      have hcontent : contentOf ((pendings readers).mapIdx fun i shard =>
          some (shard.getD (codec.recoveredShard (pendings readers) len i))) i =
            codec.recoveredShard (pendings readers) len i := by
        simp [contentOf, hnone, ReconstructShard.get]
      rw [hcontent]
  · obtain ⟨readers', cache₁, e', hrun⟩ := h.singular hinv hc pool options hreaders hpos hlen hnot
    exact ⟨_, fun fuel _ => hrun fuel, fun h0 => absurd h0 hpos.ne', fun _ =>
      .inr ⟨e, e', hwhole, rfl, rfl⟩⟩

/-- Reconstructing streams of one length, block by block and in any fragments, appends to each
missing stream exactly the bytes that reconstruction of the whole shards recovers, in whatever
states the caches of the two are. -/
theorem reconstruct_stream_from_exact (hclassic : codec.IsClassic)
    {cache cache' : InversionCache Galois8} (hc : codec.CacheReachable cache)
    (hc' : codec.CacheReachable cache') (pool : TryForEach.Pool) (options : StreamOptions)
    (h : codec.Accepts readers writers) (hreaders : ∀ r, some r ∈ readers → r.Cooperative)
    (hwriters : ∀ w, some w ∈ writers → w.Cooperative) (hlen : ∀ (i : Nat) (bytes : List Byte),
      (pendings readers)[i]? = some (some bytes) → bytes.length = len) :
    ∃ run, (∀ fuel, len / clampBlockSize options.blockSize < fuel →
        codec.reconstructStreamFrom pool fuel cache readers writers options = some run) ∧
      codec.RecoversAs cache' readers writers len run :=
  h.recovers hclassic.inv (hc.inv hclassic.inv) (hc'.inv hclassic.inv) pool options hreaders hwriters
    hlen

/-- Streams that the first block holds whole. -/
theorem reconstruct_stream_from_exact_sample :
    ∃ run, sampleCodec.reconstructStreamFrom .sequential 1 (InversionCache.new 4 4096)
        (sampleReaders [1#8, 2#8] [3#8, 4#8]) sampleWriters {} = some run ∧
      sampleCodec.RecoversAs (InversionCache.new 0 0) (sampleReaders [1#8, 2#8] [3#8, 4#8])
        sampleWriters 2 run := by
  have hreadable := sampleReaders_readable [1#8, 2#8] [3#8, 4#8]
  obtain ⟨run, hrun, hdone⟩ := reconstruct_stream_from_exact sampleCodec_isClassic
    ⟨4, 4096, [], by simp, rfl⟩ ⟨0, 0, [], by simp, rfl⟩ .sequential {} hreadable.accepts
    hreadable.readers_cooperative hreadable.writers_cooperative (fun i bytes hi => by
      have hi' : i < 4 := (List.getElem?_eq_some_iff.mp hi).1
      interval_cases i
      · cases hi
      · obtain rfl := Option.some.inj (Option.some.inj hi)
        rfl
      · obtain rfl := Option.some.inj (Option.some.inj hi)
        rfl
      · cases hi)
  exact ⟨run, hrun 1 (by decide), hdone⟩

end Whole

section Cursors

/-- The reader of each present cursor, from its beginning. -/
def cursorReaders (shards : List Cursor) : List (Option Reader) :=
  shards.map fun shard =>
    if shard.bytes.isEmpty then none else some { shard with position := 0 }.reader

/-- The writer into each missing cursor. -/
def cursorWriters (shards : List Cursor) : List (Option Writer) :=
  shards.map fun shard => if shard.bytes.isEmpty then some ⟨[], shard.bytes⟩ else none

/-- `reconstruct_stream`: the result, the cursors and the cache. -/
def reconstructStream (codec : ReedSolomon Galois8) (pool : TryForEach.Pool) (fuel : Nat)
    (cache : InversionCache Galois8) (shards : List Cursor) (options : StreamOptions) :
    Option (Outcome StreamError Unit × List Cursor × InversionCache Galois8) :=
  match (do
    validateStreamCount shards.length codec.totalShardCount
    if codec.isLeopardFamily then .err (.codec 0 .unsupportedCodecFamily) :
      Outcome StreamError Unit) with
  | .err e => some (.err e, shards, cache)
  | .panic => some (.panic, shards, cache)
  | .ok _ =>
    let presentCount := shards.countP fun shard => shard.bytes.length ≠ 0
    if presentCount = 0 then some (.ok (), shards, cache)
    else if presentCount < codec.dataShardCount then
      some (.err (.codec 0 .tooFewShardsPresent), shards, cache)
    else
      (codec.reconstructStreamFrom pool fuel cache (cursorReaders shards) (cursorWriters shards)
        options).map fun run =>
          (run.result, shards.mapIdx fun i shard =>
            shard.after (run.readers.getD i none) (run.writers.getD i none), run.cache)

variable {codec : ReedSolomon Galois8} {shards : List Cursor} {len : Nat}

theorem pendings_cursorReaders (shards : List Cursor) :
    pendings (cursorReaders shards) = shards.map Cursor.content := by
  unfold pendings cursorReaders
  rw [List.map_map]
  refine List.map_congr_left fun shard _ => ?_
  simp only [Function.comp, Cursor.content, Cursor.reader]
  split_ifs <;> simp

theorem presentCount_cursorReaders (shards : List Cursor) :
    presentCount (cursorReaders shards) = shards.countP fun shard => shard.bytes.length ≠ 0 := by
  unfold presentCount cursorReaders
  rw [List.countP_map]
  refine List.countP_congr fun shard _ => ?_
  simp only [Function.comp]
  split_ifs with hempty <;> simp_all

/-- The streams of the cursors can be reconstructed when enough are present. -/
theorem accepts_cursors (hinv : codec.ClassicInv) (hcount : shards.length = codec.totalShardCount)
    (hquorum : codec.dataShardCount ≤ shards.countP fun shard => shard.bytes.length ≠ 0) :
    codec.Accepts (cursorReaders shards) (cursorWriters shards) where
  readers_length := by rw [cursorReaders, List.length_map, hcount]
  writers_length := by rw [cursorWriters, List.length_map, hcount]
  family := hinv.isLeopardFamily_eq
  alternates i hi := by
    have hlt : i < shards.length := by rw [hcount]; exact hi
    unfold Alternates cursorReaders cursorWriters
    rw [getD_map_of_lt _ _ _ hlt ⟨[], 0⟩, getD_map_of_lt _ _ _ hlt ⟨[], 0⟩]
    split_ifs <;> simp
  quorum := by rw [presentCount_cursorReaders]; exact hquorum

/-- What the streams leave in the cursors. -/
theorem bytes_after (shards : List Cursor) (run : StreamRun) (f : Nat → List Byte)
    (hwritten : writtens run.writers = (writtens (cursorWriters shards)).mapIdx fun i written =>
      written.map (· ++ f i))
    (hreaders : ∀ (i : Nat) (shard : Cursor), shards[i]? = some shard → shard.bytes = [] →
      f i ≠ [] → run.readers.getD i none = none) :
    (shards.mapIdx fun i shard => shard.after (run.readers.getD i none)
      (run.writers.getD i none)).map Cursor.bytes =
    shards.mapIdx fun i shard => if shard.bytes.isEmpty then f i else shard.bytes := by
  refine List.ext_getElem (by simp) fun i h1 h2 => ?_
  have hi : i < shards.length := by simpa using h1
  have hlen : run.writers.length = shards.length := by
    simpa [writtens, cursorWriters] using congrArg List.length hwritten
  have hget : run.writers.getD i none = run.writers[i] :=
    List.getD_eq_getElem _ _ (by omega)
  have hentry := congrArg (·[i]?) hwritten
  simp only [writtens, cursorWriters, List.getElem?_map, List.getElem?_mapIdx,
    List.getElem?_eq_getElem hi, List.getElem?_eq_getElem (hlen ▸ hi), Option.map_some,
    Option.some.injEq] at hentry
  simp only [List.getElem_map, List.getElem_mapIdx]
  rw [hget]
  by_cases hempty : shards[i].bytes.isEmpty = true
  · have hnil : shards[i].bytes = [] := List.isEmpty_iff.mp hempty
    rw [if_pos hempty] at hentry ⊢
    rw [hnil] at hentry
    cases hw : run.writers[i] with
    | none =>
      rw [hw] at hentry
      cases hentry
    | some writer =>
      rw [hw] at hentry
      have hbytes : writer.written = f i := by simpa using hentry
      by_cases hfi : f i = []
      · cases run.readers.getD i none with
        | none => rw [Cursor.after, hbytes]
        | some reader => rw [Cursor.after, hnil, hfi]
      · rw [hreaders i shards[i] (List.getElem?_eq_getElem hi) hnil hfi, Cursor.after, hbytes]
  · rw [if_neg hempty] at hentry ⊢
    cases hw : run.writers[i] with
    | none => cases run.readers.getD i none <;> rfl
    | some writer =>
      rw [hw] at hentry
      cases hentry

/-- What reconstruction of cursors does, beside that of the whole shards. -/
structure RecoversCursors (codec : ReedSolomon Galois8) (cache : InversionCache Galois8)
    (shards : List Cursor) (result : Outcome StreamError Unit) (shards' : List Cursor) : Prop where
  empty : (∀ shard ∈ shards, shard.bytes = []) → result = .ok () ∧ shards' = shards
  few : (∃ shard ∈ shards, shard.bytes ≠ []) →
    (shards.countP fun shard => shard.bytes.length ≠ 0) < codec.dataShardCount →
      result = .err (.codec 0 .tooFewShardsPresent) ∧ shards' = shards
  whole : codec.dataShardCount ≤ (shards.countP fun shard => shard.bytes.length ≠ 0) →
    (∃ recovered, (codec.reconstruct cache (shards.map Cursor.content)).1 = (.ok (), recovered) ∧
      result = .ok () ∧ shards'.map (fun shard => some shard.bytes) = recovered) ∨
    ∃ e e', (codec.reconstruct cache (shards.map Cursor.content)).1 =
        (.err e, shards.map Cursor.content) ∧
      result = .err (.codec 0 e') ∧ shards'.map Cursor.bytes = shards.map Cursor.bytes

theorem getElem?_content {i : Nat} {bytes : List Byte}
    (h : (shards.map Cursor.content)[i]? = some (some bytes)) :
    ∃ shard, shards[i]? = some shard ∧ shard.bytes ≠ [] ∧ shard.bytes = bytes := by
  rw [List.getElem?_map, Option.map_eq_some_iff] at h
  obtain ⟨shard, hi, hcontent⟩ := h
  unfold Cursor.content at hcontent
  split_ifs at hcontent with hempty
  exact ⟨shard, hi, fun hnil => hempty (by rw [hnil]; rfl), Option.some.inj hcontent⟩

theorem countP_eq_zero_iff (shards : List Cursor) :
    (shards.countP fun shard => shard.bytes.length ≠ 0) = 0 ↔
      ∀ shard ∈ shards, shard.bytes = [] := by
  simp [List.countP_eq_zero]

/-- Reconstructing cursors, wherever the present ones stand, fills each empty one with the shard
that reconstruction of the whole shards recovers and leaves the bytes of the others. -/
theorem reconstruct_stream_exact (hclassic : codec.IsClassic)
    {cache cache' : InversionCache Galois8} (hc : codec.CacheReachable cache)
    (hc' : codec.CacheReachable cache') (pool : TryForEach.Pool) (options : StreamOptions)
    (hcount : shards.length = codec.totalShardCount)
    (hlen : ∀ shard ∈ shards, shard.bytes ≠ [] → shard.bytes.length = len) :
    ∃ result shards' cache₁, (∀ fuel, len / clampBlockSize options.blockSize < fuel →
        codec.reconstructStream pool fuel cache shards options = some (result, shards', cache₁)) ∧
      codec.RecoversCursors cache' shards result shards' := by
  have hinv := hclassic.inv
  have hdata := hinv.data_pos
  have hcheck : (do
      validateStreamCount shards.length codec.totalShardCount
      if codec.isLeopardFamily then .err (.codec 0 .unsupportedCodecFamily) :
        Outcome StreamError Unit) = .ok () := by
    rw [hinv.isLeopardFamily_eq, validateStreamCount_eq, if_pos hcount]
    rfl
  set presentCount := shards.countP fun shard => shard.bytes.length ≠ 0 with hpresent
  have hzero := countP_eq_zero_iff shards
  rw [← hpresent] at hzero
  by_cases hnone : presentCount = 0
  · refine ⟨.ok (), shards, cache, fun fuel _ => ?_, fun _ => ⟨rfl, rfl⟩, fun hsome => ?_,
      fun hquorum => by omega⟩
    · simp only [reconstructStream, hcheck, ← hpresent, if_pos hnone]
    · obtain ⟨shard, hmem, hne⟩ := hsome
      exact absurd (hzero.mp hnone shard hmem) hne
  by_cases hfew : presentCount < codec.dataShardCount
  · refine ⟨.err (.codec 0 .tooFewShardsPresent), shards, cache, fun fuel _ => ?_, fun hall =>
      absurd (hzero.mpr hall) hnone, fun _ _ => ⟨rfl, rfl⟩, fun hquorum => by omega⟩
    simp only [reconstructStream, hcheck, ← hpresent, if_neg hnone, if_pos hfew]
  have haccepts := accepts_cursors hinv hcount (not_lt.mp hfew)
  have hcontent := pendings_cursorReaders shards
  have hlen' (i : Nat) (bytes : List Byte)
      (hi : (pendings (cursorReaders shards))[i]? = some (some bytes)) : bytes.length = len := by
    rw [hcontent] at hi
    obtain ⟨shard, hshard, hne, rfl⟩ := getElem?_content hi
    exact hlen shard (List.mem_of_getElem? hshard) hne
  obtain ⟨run, hrun, hdone⟩ := haccepts.recovers hinv (hc.inv hinv) (hc'.inv hinv) pool options
    (fun r hr => by
      obtain ⟨shard, -, hshard⟩ := List.mem_map.mp hr
      split_ifs at hshard
      obtain rfl := Option.some.inj hshard
      exact fun e he => absurd he List.not_mem_nil)
    (fun w hw => by
      obtain ⟨shard, -, hshard⟩ := List.mem_map.mp hw
      split_ifs at hshard
      obtain rfl := Option.some.inj hshard
      exact fun reply hreply => absurd hreply List.not_mem_nil) hlen'
  refine ⟨run.result, shards.mapIdx fun i shard => shard.after (run.readers.getD i none)
    (run.writers.getD i none), run.cache, fun fuel hfuel => ?_,
    fun hall => absurd (hzero.mpr hall) hnone, fun _ hlt => absurd hlt hfew, fun _ => ?_⟩
  · simp only [reconstructStream, hcheck, ← hpresent, if_neg hnone, if_neg hfew, hrun fuel hfuel]
    rfl
  have hpos : 0 < len := by
    obtain ⟨shard, hmem, hne⟩ : ∃ shard ∈ shards, shard.bytes ≠ [] := by
      by_contra hall
      push Not at hall
      exact hnone (hzero.mpr hall)
    rw [← hlen shard hmem hne]
    exact List.length_pos_iff.mpr hne
  have hrec : codec.Recoverable (lengthsOf (shards.map Cursor.content)) len := by
    rw [← hcontent, lengthsOf_equal hlen']
    exact haccepts.recoverable hpos
  have hwhole := reconstruct_equal hinv (hc'.inv hinv) hrec
  have hdone := hdone.whole hpos
  rw [hcontent] at hdone
  rcases hdone with ⟨recovered, hrecovered, hresult, hdrained, hwritten⟩ | ⟨e, e', herr, hresult, hkept⟩
  · left
    refine ⟨recovered, hrecovered, hresult, ?_⟩
    have hall : recovered = (shards.map Cursor.content).mapIdx fun i shard =>
        some (shard.getD (codec.recoveredShard (shards.map Cursor.content) len i)) := by
      rcases hwhole with ⟨-, hwhole⟩ | ⟨-, e, hwhole⟩
      · exact (Prod.mk.inj (hrecovered.symm.trans hwhole)).2
      · cases (Prod.mk.inj (hrecovered.symm.trans hwhole)).1
    have hbytes := bytes_after shards run (contentOf recovered) hwritten fun i shard hi hnil _ => by
      have hlt : i < shards.length := (List.getElem?_eq_some_iff.mp hi).1
      have hsize : run.readers.length = shards.length := by
        simpa [pendings] using congrArg List.length hdrained
      have hentry := congrArg (·[i]?) hdrained
      simp only [pendings, List.getElem?_map, hi, Option.map_some,
        List.getElem?_eq_getElem (hsize ▸ hlt)] at hentry
      rw [List.getD_eq_getElem _ _ (hsize ▸ hlt)]
      cases hr : run.readers[i] with
      | none => rfl
      | some r =>
        rw [hr] at hentry
        simp [Cursor.content, hnil] at hentry
    have hsome := congrArg (List.map some) hbytes
    rw [List.map_map] at hsome
    refine hsome.trans ?_
    rw [hall]
    refine List.ext_getElem (by simp) fun i h1 h2 => ?_
    have hi : i < shards.length := by simpa using h1
    have hcont : (shards.map Cursor.content)[i]? = some shards[i].content := by
      rw [List.getElem?_map, List.getElem?_eq_getElem hi]
      rfl
    simp only [List.getElem_map, List.getElem_mapIdx]
    by_cases hempty : shards[i].bytes.isEmpty = true
    · have hc : shards[i].content = none := if_pos hempty
      rw [if_pos hempty, hc]
      simp [contentOf, hi, hc, ReconstructShard.get]
    · have hc : shards[i].content = some shards[i].bytes := if_neg hempty
      rw [if_neg hempty, hc]
      rfl
  · right
    refine ⟨e, e', herr, hresult, ?_⟩
    have hbytes := bytes_after shards run (fun _ => []) (by
      rw [hkept]
      refine List.ext_getElem (by simp) fun i h1 h2 => ?_
      simp only [List.getElem_mapIdx]
      cases (writtens (cursorWriters shards))[i] <;> simp) fun i shard _ _ hne => absurd rfl hne
    rw [hbytes]
    refine List.ext_getElem (by simp) fun i h1 h2 => ?_
    simp only [List.getElem_mapIdx, List.getElem_map]
    split_ifs with hempty
    · exact (List.isEmpty_iff.mp hempty).symm
    · rfl

/-- Two of four cursors are empty, and a present one stands at its end. -/
theorem reconstruct_stream_exact_sample : ∃ result shards' cache₁,
    sampleCodec.reconstructStream .sequential 1 (InversionCache.new 4 4096)
        [⟨[], 0⟩, ⟨[1#8, 2#8], 2⟩, ⟨[3#8, 4#8], 0⟩, ⟨[], 5⟩] {} = some (result, shards', cache₁) ∧
      sampleCodec.RecoversCursors (InversionCache.new 0 0)
        [⟨[], 0⟩, ⟨[1#8, 2#8], 2⟩, ⟨[3#8, 4#8], 0⟩, ⟨[], 5⟩] result shards' := by
  obtain ⟨result, shards', cache₁, hrun, hdone⟩ := reconstruct_stream_exact sampleCodec_isClassic
    ⟨4, 4096, [], by simp, rfl⟩ ⟨0, 0, [], by simp, rfl⟩ .sequential {}
    (show ([⟨[], 0⟩, ⟨[1#8, 2#8], 2⟩, ⟨[3#8, 4#8], 0⟩, ⟨[], 5⟩] : List Cursor).length = _ from rfl)
    (show ∀ shard : Cursor, shard ∈ _ → _ → shard.bytes.length = 2 by decide)
  exact ⟨result, shards', cache₁, hrun 1 (by decide), hdone⟩

end Cursors

end ReedSolomon

end ErasureCodec
