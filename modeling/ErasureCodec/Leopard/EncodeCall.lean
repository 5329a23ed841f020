import ErasureCodec.Framework.TwoEntryCache
import ErasureCodec.Leopard.Encode

namespace ErasureCodec

namespace Leopard

variable {w : Nat}

section Definitions

/-- `FlatWork`, `FlatWork16`: one allocation of lanes. -/
structure FlatWork (w : Nat) where
  lanes : Nat
  laneLen : Nat
  rows : Work w

def FlatWork.new (lanes laneLen : Nat) : FlatWork w :=
  ⟨lanes, laneLen, List.replicate lanes (List.replicate laneLen 0#w)⟩

/-- An allocation that is not zeroed: `garbage` is what the memory held. -/
def FlatWork.newUninit (garbage : Nat → Nat → BitVec w) (lanes laneLen : Nat) : FlatWork w :=
  ⟨lanes, laneLen, (List.range lanes).map fun i => (List.range laneLen).map (garbage i)⟩

def FlatWork.canReuse (lanes laneLen : Nat) (flat : FlatWork w) : Bool :=
  flat.lanes = lanes ∧ flat.laneLen = laneLen

def FlatWork.allocatedBytes (unit : Nat) (flat : FlatWork w) : Nat :=
  saturate (saturate (flat.lanes * flat.laneLen) * unit)

def leopardMaxCachedWorkBytes : Nat := 4 * 1024 * 1024

def leopardWorkCacheFits (workBytes scratchBytes : Nat) : Bool :=
  saturate (workBytes + scratchBytes) ≤ leopardMaxCachedWorkBytes

def maxCachedPlanBytes : Nat := 1024 * 1024

/-- The thread's encode caches of one family. -/
structure EncodeCaches (w : Nat) where
  work : TwoEntryCache (Nat × Nat) (FlatWork w)
  plans : TwoEntryCache (Nat × Nat) (EncodePlans w)

def EncodeCaches.new : EncodeCaches w :=
  ⟨TwoEntryCache.new leopardMaxCachedWorkBytes, TwoEntryCache.new maxCachedPlanBytes⟩

/-- What one encode call takes from its surroundings: `RSE_DIT4_STRATEGY`, the
contents of uninitialized memory, and the capacities of vectors. -/
structure EncodeEnv (w : Nat) where
  configuredMode : Dit4Strategy
  garbage : Nat → Nat → BitVec w
  scratchCapacity : Nat → Nat
  planBytes : EncodePlans w → Nat

/-- The chunk capacity of an encode call. -/
def Family.chunkCap (F : Family w) (driver : EncodeDriver) : Nat :=
  min (driver.shardSize / F.layout.unit) driver.chunkSize

def Family.cacheable (F : Family w) (driver : EncodeDriver) : Bool :=
  leopardWorkCacheFits
    (saturate (saturate (driver.workSlices * F.chunkCap driver) * F.layout.unit))
    (if F.scratch then saturate (F.chunkCap driver * F.layout.unit) else 0)

def Family.freshWork (F : Family w) (env : EncodeEnv w) (lanes laneLen : Nat) : FlatWork w :=
  if F.uninit then FlatWork.newUninit env.garbage lanes laneLen else FlatWork.new lanes laneLen

/-- The heap bytes that a returned buffer is charged for. -/
def Family.bufferBytes (F : Family w) (env : EncodeEnv w) (flat : FlatWork w) : Nat :=
  if F.scratch then
    saturate (flat.allocatedBytes F.layout.unit + env.scratchCapacity flat.laneLen)
  else flat.allocatedBytes F.layout.unit

/-- The plans of a call, taken from the cache or built. -/
def checkoutPlans (F : Family w) (caches : EncodeCaches w) (dataShards parityShards : Nat)
    (driver : EncodeDriver) : Outcome Error (EncodePlans w) × EncodeCaches w :=
  if F.cacheable driver then
    match caches.plans.take (dataShards, parityShards) with
    | (some plans, rest) => (.ok plans, { caches with plans := rest })
    | (none, rest) => (EncodePlans.new dataShards parityShards driver F.kernel.tables,
        { caches with plans := rest })
  else (EncodePlans.new dataShards parityShards driver F.kernel.tables, caches)

/-- The buffer of a call. -/
def checkoutWork (F : Family w) (env : EncodeEnv w) (caches : EncodeCaches w)
    (driver : EncodeDriver) : FlatWork w × EncodeCaches w :=
  if F.cacheable driver then
    let (cached, rest) := caches.work.take (driver.workSlices, F.chunkCap driver)
    (cached.getD (F.freshWork env driver.workSlices (F.chunkCap driver)), { caches with work := rest })
  else (F.freshWork env driver.workSlices (F.chunkCap driver), caches)

/-- The buffer and the plans go back to the caches. -/
def returnEncode (F : Family w) (env : EncodeEnv w) (caches : EncodeCaches w)
    (dataShards parityShards : Nat) (driver : EncodeDriver) (flat : FlatWork w)
    (plans : EncodePlans w) : EncodeCaches w :=
  if F.cacheable driver then
    { work := caches.work.insert (flat.lanes, flat.laneLen) flat (F.bufferBytes env flat)
      plans := caches.plans.insert (dataShards, parityShards) plans (env.planBytes plans) }
  else caches

/-- `encode_with_tables` and `encode_with_tables16` after the driver is built. -/
def encodeWithDriver (F : Family w) (env : EncodeEnv w) (caches : EncodeCaches w)
    (dataShards parityShards : Nat) (driver : EncodeDriver) (data parity : List (List (BitVec 8))) :
    Outcome Error PUnit × EncodeCaches w × List (List (BitVec 8)) :=
  match checkoutPlans F caches dataShards parityShards driver with
  | (.ok plans, caches) =>
    let (flat, caches) := checkoutWork F env caches driver
    let result := encodeChunks F (F.activeStrategy env.configuredMode driver.shardSize) plans driver
      data (flat.rows, parity)
    (.ok ⟨⟩, returnEncode F env caches dataShards parityShards driver { flat with rows := result.1 }
      plans, result.2)
  | (.err e, caches) => (.err e, caches, parity)
  | (.panic, caches) => (.panic, caches, parity)

/-- `encode_with_tables`, `encode_with_tables16`. -/
def encodeWithTables (F : Family w) (env : EncodeEnv w) (caches : EncodeCaches w)
    (dataShards parityShards : Nat) (data parity : List (List (BitVec 8))) :
    Outcome Error PUnit × EncodeCaches w × List (List (BitVec 8)) :=
  if data.length ≠ dataShards ∨ parity.length ≠ parityShards then (.err .tooFewShards, caches, parity)
  else
    match data.head? with
    | none => (.err .tooFewShards, caches, parity)
    | some shard =>
      match F.encodeDriver dataShards parityShards shard.length with
      | .ok driver => encodeWithDriver F env caches dataShards parityShards driver data parity
      | .err e => (.err e, caches, parity)
      | .panic => (.panic, caches, parity)

end Definitions

section Spec

variable {F : Family w} {dataShards parityShards k shardSize : Nat}

theorem grid_new (lanes laneLen : Nat) :
    Grid lanes laneLen (FlatWork.new lanes laneLen : FlatWork w).rows := by
  unfold FlatWork.new
  apply grid_of_forall List.length_replicate
  intro row hrow
  rw [List.eq_of_mem_replicate hrow, List.length_replicate]

theorem grid_newUninit (garbage : Nat → Nat → BitVec w) (lanes laneLen : Nat) :
    Grid lanes laneLen (FlatWork.newUninit garbage lanes laneLen).rows := by
  unfold FlatWork.newUninit
  apply grid_of_forall (by rw [List.length_map, List.length_range])
  intro row hrow
  obtain ⟨i, -, rfl⟩ := List.mem_map.mp hrow
  rw [List.length_map, List.length_range]

/-- A buffer of the given size, whatever it holds. -/
structure FlatWork.Sized (flat : FlatWork w) (lanes laneLen : Nat) : Prop where
  lanes_eq : flat.lanes = lanes
  laneLen_eq : flat.laneLen = laneLen
  grid : Grid lanes laneLen flat.rows

theorem sized_freshWork (env : EncodeEnv w) (lanes laneLen : Nat) :
    (F.freshWork env lanes laneLen).Sized lanes laneLen := by
  unfold Family.freshWork
  split_ifs
  · exact ⟨rfl, rfl, grid_newUninit _ _ _⟩
  · exact ⟨rfl, rfl, grid_new _ _⟩

/-- Plans that a fresh call of the shape would build. -/
def PlansFor (F : Family w) (shape : Nat × Nat) (plans : EncodePlans w) : Prop :=
  ∃ k, Admitted w shape.1 shape.2 k ∧
    plans = encodePlansAt F.kernel.tables.fftSkew shape.1 shape.2 (2 ^ k)

/-- The invariant of the encode caches: buffers have the size of their key and
any contents, and plans are the plans of their key. -/
structure EncodeCaches.Ok (F : Family w) (caches : EncodeCaches w) : Prop where
  work : caches.work.All fun key flat => flat.Sized key.1 key.2
  plans : caches.plans.All (PlansFor F)

theorem EncodeCaches.ok_new : (EncodeCaches.new : EncodeCaches w).Ok F :=
  ⟨TwoEntryCache.all_new _, TwoEntryCache.all_new _⟩

variable {caches : EncodeCaches w} {driver : EncodeDriver}

/-- Cached or built, the plans are those of the shape. -/
theorem checkoutPlans_spec (h : Admitted w dataShards parityShards k)
    (hdriver : driver.Sized dataShards shardSize (2 ^ k)) (hok : caches.Ok F) :
    ∃ caches', checkoutPlans F caches dataShards parityShards driver =
        (.ok (encodePlansAt F.kernel.tables.fftSkew dataShards parityShards (2 ^ k)), caches') ∧
      caches'.Ok F := by
  have hbuild := h.encodePlans_eq F.kernel.fftSkew_length hdriver
  have htake := TwoEntryCache.all_take hok.plans (dataShards, parityShards)
  unfold checkoutPlans
  split_ifs with hcache
  · rcases hres : caches.plans.take (dataShards, parityShards) with ⟨cached, rest⟩
    rw [hres] at htake
    have hrest : ({ caches with plans := rest } : EncodeCaches w).Ok F := ⟨hok.work, htake.2⟩
    cases cached with
    | none =>
      simp only [hbuild]
      exact ⟨_, rfl, hrest⟩
    | some plans =>
      obtain ⟨k', h', rfl⟩ := htake.1 plans rfl
      have hk : 2 ^ k' = 2 ^ k := h'.m_eq.symm.trans h.m_eq
      simp only [hk]
      exact ⟨_, rfl, hrest⟩
  · exact ⟨_, by rw [hbuild], hok⟩

theorem checkoutWork_spec (env : EncodeEnv w) (driver : EncodeDriver) (hok : caches.Ok F) :
    ∃ flat caches', checkoutWork F env caches driver = (flat, caches') ∧
      flat.Sized driver.workSlices (F.chunkCap driver) ∧ caches'.Ok F := by
  have htake := TwoEntryCache.all_take hok.work (driver.workSlices, F.chunkCap driver)
  have hfresh := sized_freshWork (F := F) env driver.workSlices (F.chunkCap driver)
  unfold checkoutWork
  split_ifs with hcache
  · rcases hres : caches.work.take (driver.workSlices, F.chunkCap driver) with ⟨cached, rest⟩
    rw [hres] at htake
    refine ⟨_, _, rfl, ?_, ⟨htake.2, hok.plans⟩⟩
    cases cached with
    | none => exact hfresh
    | some flat => exact htake.1 flat rfl
  · exact ⟨_, _, rfl, hfresh, hok⟩

theorem returnEncode_ok (env : EncodeEnv w) (h : Admitted w dataShards parityShards k)
    (hok : caches.Ok F) {flat : FlatWork w} {lanes laneLen : Nat} (hflat : flat.Sized lanes laneLen) :
    (returnEncode F env caches dataShards parityShards driver flat
      (encodePlansAt F.kernel.tables.fftSkew dataShards parityShards (2 ^ k))).Ok F := by
  unfold returnEncode
  split_ifs
  · refine ⟨TwoEntryCache.all_insert hok.work ?_ _, TwoEntryCache.all_insert hok.plans ⟨k, h, rfl⟩ _⟩
    rw [hflat.lanes_eq, hflat.laneLen_eq]
    exact hflat
  · exact hok

/-- The parity shards that hold the parity columns of the data. -/
structure IsParity (F : Family w) (dataShards parityShards k shardSize : Nat)
    (data parity : List (List (BitVec 8))) : Prop where
  grid : Grid parityShards shardSize parity
  value : ∀ j x, j < parityShards → x < shardSize / F.layout.unit →
    F.value (parity.getD j []) x =
      parityColumn F.kernel dataShards k (fun i => F.value (data.getD i []) x) j

/-- The parity is determined by the data. -/
theorem IsParity.unique {data parity parity' : List (List (BitVec 8))} (h64 : 64 ∣ shardSize)
    (h : IsParity F dataShards parityShards k shardSize data parity)
    (h' : IsParity F dataShards parityShards k shardSize data parity') : parity = parity' := by
  apply getD_ext [] (h.grid.length_eq.trans h'.grid.length_eq.symm)
  intro j hj
  rw [h.grid.length_eq] at hj
  have hl := h.grid.row_length j hj
  have hl' := h'.grid.row_length j hj
  apply F.value_ext (by rw [hl]; exact h64) (hl.trans hl'.symm)
  intro x hx
  rw [hl] at hx
  rw [h.value j x hj hx, h'.value j x hj hx]

/-- An encode call succeeds and writes the parity of the data, whatever the
caches and the parity buffers held. -/
theorem encodeWithTables_spec (env : EncodeEnv w) (h : Admitted w dataShards parityShards k)
    (h0 : 0 < shardSize) (h64 : 64 ∣ shardSize) {data parity : List (List (BitVec 8))}
    (hdata : Grid dataShards shardSize data) (hparity : Grid parityShards shardSize parity)
    (hok : caches.Ok F) :
    ∃ caches' parity', encodeWithTables F env caches dataShards parityShards data parity =
        (.ok ⟨⟩, caches', parity') ∧ caches'.Ok F ∧
      IsParity F dataShards parityShards k shardSize data parity' := by
  obtain ⟨driver, hbuild, hdriver, hchunk⟩ := h.buildEncodeDriver_eq
    (F.encodeChunkSize dataShards parityShards shardSize) h0 h64
  obtain ⟨hpos, halign⟩ := F.encodeChunk_spec dataShards parityShards shardSize (dataShards % 2 ^ k)
  rw [← hchunk] at hpos halign
  obtain ⟨caches₁, hplans, hok₁⟩ := checkoutPlans_spec h hdriver hok
  obtain ⟨flat, caches₂, hwork, hflat, hok₂⟩ := checkoutWork_spec env driver hok₁
  have hcap : F.chunkCap driver = min (shardSize / F.layout.unit) driver.chunkSize := by
    unfold Family.chunkCap
    rw [hdriver.shardSize_eq]
  have hgrid : Grid (2 ^ k * 2) (min (shardSize / F.layout.unit) driver.chunkSize) flat.rows := by
    have hg := hflat.grid
    rwa [hdriver.workSlices_eq, hcap] at hg
  obtain ⟨⟨hlanes, hout⟩, hval⟩ := encodeChunks_spec (F := F) h h64
    (F.activeStrategy_ne env.configuredMode driver.shardSize) hdriver hpos halign hdata hparity hgrid
  obtain ⟨shard, rest, rfl⟩ : ∃ shard rest, data = shard :: rest :=
    List.exists_cons_of_length_pos (by rw [hdata.length_eq]; exact h.data_pos)
  have hshard : shard.length = shardSize := hdata.forall List.mem_cons_self
  unfold encodeWithTables
  rw [if_neg (by rw [hdata.length_eq, hparity.length_eq]; simp)]
  simp only [List.head?_cons, hshard]
  unfold Family.encodeDriver
  rw [hbuild]
  simp only
  unfold encodeWithDriver
  rw [hplans]
  simp only [hwork]
  have hback : FlatWork.Sized { flat with rows := (encodeChunks F (F.activeStrategy
      env.configuredMode driver.shardSize) (encodePlansAt F.kernel.tables.fftSkew dataShards
      parityShards (2 ^ k)) driver (shard :: rest) (flat.rows, parity)).1 } driver.workSlices
      (F.chunkCap driver) := by
    refine ⟨hflat.lanes_eq, hflat.laneLen_eq, ?_⟩
    rw [hdriver.workSlices_eq, hcap]
    exact hlanes
  exact ⟨_, _, rfl, returnEncode_ok env h hok₂ hback, ⟨hout, hval⟩⟩

end Spec

end Leopard

end ErasureCodec
