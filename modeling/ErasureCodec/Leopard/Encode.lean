import ErasureCodec.Leopard.Transform
import ErasureCodec.Leopard.Layout

namespace ErasureCodec

namespace Leopard

variable {w : Nat}

section Definitions

/-- One of the two families. -/
structure Family (w : Nat) where
  kernel : Kernel w
  layout : Layout w
  /-- Elements of an encoder chunk, by the shape, the shard size and the size of
  the last group. -/
  encodeChunkSize : Nat → Nat → Nat → Nat → Nat
  /-- Elements of a decoder chunk. -/
  decodeChunkSize : Nat
  /-- The strategy of the encoder's butterflies, by the configured one and the
  shard size. -/
  activeStrategy : Dit4Strategy → Nat → Dit4Strategy
  /-- Whether a fresh encode buffer is left uninitialized. -/
  uninit : Bool
  /-- Whether the encoder keeps a scratch vector with its buffer. -/
  scratch : Bool
  activeStrategy_ne : ∀ configured size, activeStrategy configured size ≠ .auto
  encodeChunk_spec : ∀ data parity size last, 0 < encodeChunkSize data parity size last ∧
    64 ∣ encodeChunkSize data parity size last * layout.unit
  decodeChunk_spec : 0 < decodeChunkSize ∧ 64 ∣ decodeChunkSize * layout.unit
  width_le : w ≤ 16

def gf8Family : Family 8 where
  kernel := gf8Kernel
  layout := gf8Layout
  encodeChunkSize := gf8ChunkSize
  decodeChunkSize := workSize8
  activeStrategy := activeDit4Strategy
  uninit := true
  scratch := true
  activeStrategy_ne configured size := by
    cases configured with
    | auto =>
      unfold activeDit4Strategy
      simp only
      split_ifs <;> simp
    | decomposed => simp [activeDit4Strategy]
    | direct => simp [activeDit4Strategy]
    | directSafe => simp [activeDit4Strategy]
  encodeChunk_spec data parity size last := by
    unfold gf8ChunkSize
    simp only
    split_ifs <;> decide
  decodeChunk_spec := by decide
  width_le := by decide

def gf16Family : Family 16 where
  kernel := gf16Kernel
  layout := gf16Layout
  encodeChunkSize _ _ _ _ := workSize16
  decodeChunkSize := workSize16
  activeStrategy _ _ := .directSafe
  uninit := false
  scratch := false
  activeStrategy_ne _ _ := by decide
  encodeChunk_spec _ _ _ _ := by decide
  decodeChunk_spec := by decide
  width_le := by decide

/-- The encode driver of a family. -/
def Family.encodeDriver (F : Family w) (dataShards parityShards shardSize : Nat) :
    Outcome Error EncodeDriver :=
  buildEncodeDriver (modulus w) (F.encodeChunkSize dataShards parityShards shardSize) dataShards
    parityShards shardSize

theorem encodeDriver_gf8Family : gf8Family.encodeDriver = buildLeopardGf8EncodeDriver := rfl

theorem encodeDriver_gf16Family : gf16Family.encodeDriver = buildLeopardGf16EncodeDriver := rfl

/-- The lanes `[..m]` of `dst` with those of `src` added. -/
def xorLanes (m : Nat) (src dst : Work w) : Work w :=
  (List.range m).foldl (fun dst i => dst.set i (sliceXor (src.getD i []) (dst.getD i []))) dst

/-- The lanes of the sum, those of the group and the offset of the next group. -/
structure GroupState (w : Nat) where
  xorDst : Work w
  tempWork : Work w
  groupOffset : Nat

/-- A group after the first: its coefficients are added to the sum. -/
def encodeGroup (K : Kernel w) (strategy : Dit4Strategy) (m : Nat) (load : Nat → List (BitVec w))
    (st : GroupState w) (plan : IfftDitPlan w) : GroupState w :=
  let tempWork := ifftDitEncoderWithPlan K strategy (fun i => load (st.groupOffset + i)) plan
    st.tempWork
  ⟨xorLanes plan.m tempWork st.xorDst, tempWork, st.groupOffset + m⟩

/-- The loop body of `encode_with_tables` and `encode_with_tables16` on the
lane views of a chunk; the parity is in the first lanes. -/
def encodeChunk (K : Kernel w) (strategy : Dit4Strategy) (plans : EncodePlans w) (m : Nat)
    (load : Nat → List (BitVec w)) (work : Work w) : Work w :=
  let first := ifftDitEncoderWithPlan K strategy load plans.firstIfftPlan (work.take m)
  let st := (plans.laterIfftPlans ++ plans.remainderIfftPlan.toList).foldl
    (encodeGroup K strategy m load) ⟨first, work.drop m, m⟩
  fftDitWithPlan K strategy plans.fftPlan st.xorDst ++ st.tempWork

/-- The allocation behind lane views of `size` elements. -/
def putViews (size : Nat) (lanes views : Work w) : Work w :=
  List.zipWith (fun lane view => view ++ lane.drop size) lanes views

/-- One chunk: the work buffer and the parity. -/
def encodeStep (F : Family w) (strategy : Dit4Strategy) (plans : EncodePlans w) (m : Nat)
    (data : List (List (BitVec 8))) (st : Work w × List (List (BitVec 8))) (window : Nat × Nat) :
    Work w × List (List (BitVec 8)) :=
  let size := window.2 - window.1
  let start := window.1 * F.layout.unit
  let stop := window.2 * F.layout.unit
  let views := encodeChunk F.kernel strategy plans m
    (fun i => F.layout.toWork (slice (data.getD i []) start stop)) (st.1.map (List.take size))
  (putViews size st.1 views,
    st.2.mapIdx fun i output => overwrite start (F.layout.toUser (views.getD i [])) output)

/-- The loop over the chunks. -/
def encodeChunks (F : Family w) (strategy : Dit4Strategy) (plans : EncodePlans w)
    (driver : EncodeDriver) (data : List (List (BitVec 8)))
    (st : Work w × List (List (BitVec 8))) : Work w × List (List (BitVec 8)) :=
  (chunkRanges (driver.shardSize / F.layout.unit) driver.chunkSize).foldl
    (encodeStep F strategy plans driver.m data) st

end Definitions

section Chunk

open CantorPoints

variable {K : Kernel w} {dataShards parityShards k len p : Nat} {work : Work w}

theorem column_shift (base p : Nat) (work : Work w) (i : Nat) :
    column K base p work (base + i) = column K 0 p work i := by
  unfold column
  rw [if_neg (by omega), if_neg (by omega), Nat.add_sub_cancel_left, Nat.sub_zero]

theorem column_xorLanes {src dst : Work w} {m : Nat} (hsrc : Grid m len src) (hdst : Grid m len dst)
    (hp : p < len) :
    Grid m len (xorLanes m src dst) ∧ ∀ i, i < m →
      column K 0 p (xorLanes m src dst) i = column K 0 p dst i + column K 0 p src i := by
  have hread (u : Work w) (i : Nat) : column K 0 p u i = K.elem ((u.getD i []).getD p 0#w) := by
    unfold column
    rw [if_neg (by omega), Nat.sub_zero]
  have hrun := foldl_range_inv (fun t u => Grid m len u ∧ ∀ i, i < m → column K 0 p u i =
      if i < t then column K 0 p dst i + column K 0 p src i else column K 0 p dst i)
    (fun dst i => dst.set i (sliceXor (src.getD i []) (dst.getD i []))) m dst
    ⟨hdst, fun i _ => by rw [if_neg (by omega)]⟩
    (by
      intro t ht u ⟨hu, hcol⟩
      have hls := hsrc.row_length t ht
      have hlu := hu.row_length t ht
      have hlen : (sliceXor (src.getD t []) (u.getD t [])).length = len := by
        rw [sliceXor, List.length_zipWith, hls, hlu, Nat.min_self]
      refine ⟨grid_set hu t hlen, fun i hi => ?_⟩
      rw [column_set hu ht, Nat.zero_add]
      by_cases hit : i = t
      · have hold := hcol t ht
        rw [if_neg (by omega)] at hold
        rw [if_pos hit, if_pos (by omega), hit, sliceXor,
          getD_zipWith _ _ _ _ (by omega) (by omega) 0#w 0#w, K.elem_xor, ← hread, ← hread, hold]
      · rw [if_neg hit, hcol i hi]
        by_cases hlt : i < t
        · rw [if_pos hlt, if_pos (by omega)]
        · rw [if_neg hlt, if_neg (by omega)])
  refine ⟨hrun.1, fun i hi => ?_⟩
  have hfinal := hrun.2 i hi
  rwa [if_pos hi] at hfinal

/-- The word that a data column asks for: zeros on the positions of the parity
and past the data. -/
noncomputable def messageWord (K : Kernel w) (dataShards k : Nat) (d : Nat → K.lawful.lfsr.Elem)
    (j : Nat) : K.lawful.lfsr.Elem :=
  if j < 2 ^ k then 0 else if j - 2 ^ k < dataShards then d (j - 2 ^ k) else 0

/-- The number of groups of data lanes. -/
def groupCount (dataShards k : Nat) : Nat := (dataShards + 2 ^ k - 1) / 2 ^ k

/-- The parity of a data column: the values of the sum of the group
coefficients. -/
noncomputable def parityColumn (K : Kernel w) (dataShards k : Nat) (d : Nat → K.lawful.lfsr.Elem)
    (j : Nat) : K.lawful.lfsr.Elem :=
  K.lawful.points.forwardFrom k (fun i => ∑ g ∈ Finset.range (groupCount dataShards k),
    K.lawful.points.inverseTo k (messageWord K dataShards k d) ((g + 1) * 2 ^ k + i)) j

/-- Only the data shards are read. -/
theorem parityColumn_congr {d d' : Nat → K.lawful.lfsr.Elem} (h : ∀ i, i < dataShards → d i = d' i)
    (j : Nat) : parityColumn K dataShards k d j = parityColumn K dataShards k d' j := by
  have hword : messageWord K dataShards k d = messageWord K dataShards k d' := by
    funext t
    unfold messageWord
    split_ifs with ht1 ht2
    · rfl
    · exact h _ ht2
    · rfl
  unfold parityColumn
  rw [hword]

theorem groupCount_spec (hdata : 0 < dataShards) {g : Nat} :
    g < groupCount dataShards k ↔ g * 2 ^ k < dataShards := by
  have hpos := Nat.two_pow_pos k
  unfold groupCount
  rw [Nat.lt_div_iff_mul_lt hpos]
  omega

/-- The plans of the groups after the first. -/
theorem later_plans (fftSkew : List (BitVec w)) (hdata : 0 < dataShards) (parityShards : Nat) :
    (encodePlansAt fftSkew dataShards parityShards (2 ^ k)).laterIfftPlans ++
        (encodePlansAt fftSkew dataShards parityShards (2 ^ k)).remainderIfftPlan.toList =
      (List.range (groupCount dataShards k - 1)).map fun g =>
        ifftPlanAt fftSkew ((g + 2) * 2 ^ k) (min (dataShards - (g + 1) * 2 ^ k) (2 ^ k)) (2 ^ k) := by
  have hpos := Nat.two_pow_pos k
  have hdiv := Nat.div_add_mod' dataShards (2 ^ k)
  have hmod := Nat.mod_lt dataShards hpos
  have hfull (g : Nat) (hg : g < dataShards / 2 ^ k - 1) :
      min (dataShards - (g + 1) * 2 ^ k) (2 ^ k) = 2 ^ k := by
    have hle : (g + 1 + 1) * 2 ^ k ≤ dataShards / 2 ^ k * 2 ^ k := Nat.mul_le_mul_right _ (by omega)
    rw [Nat.add_mul (g + 1), Nat.one_mul] at hle
    omega
  have hlater : (encodePlansAt fftSkew dataShards parityShards (2 ^ k)).laterIfftPlans =
      (List.range (dataShards / 2 ^ k - 1)).map fun g => ifftPlanAt fftSkew ((g + 2) * 2 ^ k)
        (min (dataShards - (g + 1) * 2 ^ k) (2 ^ k)) (2 ^ k) := by
    unfold encodePlansAt
    rw [laterOffsets_eq hpos, List.map_map]
    apply List.map_congr_left
    intro g hg
    rw [hfull g (List.mem_range.mp hg)]
    simp only [Function.comp_apply]
    rw [show 2 ^ k + (g + 1) * 2 ^ k = (g + 2) * 2 ^ k by ring]
  have hcount : groupCount dataShards k =
      if dataShards % 2 ^ k = 0 then dataShards / 2 ^ k else dataShards / 2 ^ k + 1 := by
    unfold groupCount
    split_ifs with hrem
    · apply Nat.div_eq_of_lt_le
      · omega
      · rw [Nat.add_mul, Nat.one_mul]
        omega
    · apply Nat.div_eq_of_lt_le
      · rw [Nat.add_mul, Nat.one_mul]
        omega
      · rw [Nat.add_mul, Nat.add_mul, Nat.one_mul]
        omega
  rw [hlater, hcount]
  unfold encodePlansAt
  simp only
  by_cases hrem : dataShards % 2 ^ k = 0
  · rw [if_neg (by omega), if_pos hrem, Option.toList_none, List.append_nil]
  · rw [if_neg hrem, Nat.add_sub_cancel]
    rcases Nat.lt_or_ge (2 ^ k) dataShards with hlt | hge
    · have hone : 1 ≤ dataShards / 2 ^ k := (Nat.one_le_div_iff hpos).mpr (by omega)
      rw [if_pos ⟨hlt, hrem⟩, Option.toList_some]
      obtain ⟨c, hc⟩ : ∃ c, dataShards / 2 ^ k = c + 1 := ⟨dataShards / 2 ^ k - 1, by omega⟩
      rw [hc] at hdiv ⊢
      rw [Nat.add_sub_cancel, List.range_succ, List.map_append, List.map_singleton]
      rw [show min (dataShards - (c + 1) * 2 ^ k) (2 ^ k) = dataShards % 2 ^ k by omega,
        show (c + 2) * 2 ^ k = 2 ^ k + (c + 1) * 2 ^ k by ring]
    · have hzero : dataShards / 2 ^ k = 0 := by
        rcases Nat.lt_or_ge dataShards (2 ^ k) with h | h
        · exact Nat.div_eq_of_lt h
        · exact absurd (by rw [show dataShards = 2 ^ k by omega, Nat.mod_self]) hrem
      rw [if_neg (by omega), hzero]
      rfl

/-- The input of group `g`, lane by lane. -/
theorem messageWord_group {d : Nat → K.lawful.lfsr.Elem} {g i : Nat} :
    messageWord K dataShards k d ((g + 1) * 2 ^ k + i) =
      if g * 2 ^ k + i < dataShards then d (g * 2 ^ k + i) else 0 := by
  unfold messageWord
  rw [Nat.add_mul, Nat.one_mul, if_neg (by omega),
    show g * 2 ^ k + 2 ^ k + i - 2 ^ k = g * 2 ^ k + i by omega]

/-- The coefficients of a group. -/
theorem holds_group (h : Admitted w dataShards parityShards k) (hp : p < len)
    {strategy : Dit4Strategy} (hs : strategy ≠ .auto) {load : Nat → List (BitVec w)}
    (hload : ∀ i, i < dataShards → (load i).length = len) {g : Nat}
    (hg : g * 2 ^ k < dataShards) (hwork : Grid (2 ^ k) len work) :
    Holds K (2 ^ k) len ((g + 1) * 2 ^ k) p (K.lawful.points.inverseTo k
        (messageWord K dataShards k fun i => K.elem ((load i).getD p 0#w)))
      (ifftDitEncoderWithPlan K strategy (fun i => load (g * 2 ^ k + i))
        (ifftPlanAt K.tables.fftSkew ((g + 1) * 2 ^ k) (min (dataShards - g * 2 ^ k) (2 ^ k))
          (2 ^ k)) work) := by
  have hpos := Nat.two_pow_pos k
  have hfit := h.group_le hg
  apply holds_ifftDitEncoder (dvd_mul_left _ _) _ (by omega) (by omega) hp hs
  · intro i hi
    refine ⟨hload _ (by omega), ?_⟩
    rw [messageWord_group, if_pos (by omega)]
  · intro i hge hi
    rw [messageWord_group, if_neg (by omega)]
  · exact hwork
  · rw [Nat.add_mul, Nat.one_mul]
    omega

/-- A chunk leaves the parity of every data column in the first lanes, whatever
the lanes held. -/
theorem encodeChunk_spec (h : Admitted w dataShards parityShards k) (hp : p < len)
    {strategy : Dit4Strategy} (hs : strategy ≠ .auto) (load : Nat → List (BitVec w))
    (hload : ∀ i, i < dataShards → (load i).length = len) (hwork : Grid (2 ^ k * 2) len work) :
    Grid (2 ^ k * 2) len (encodeChunk K strategy
        (encodePlansAt K.tables.fftSkew dataShards parityShards (2 ^ k)) (2 ^ k) load work) ∧
      ∀ j, j < parityShards → column K 0 p (encodeChunk K strategy
          (encodePlansAt K.tables.fftSkew dataShards parityShards (2 ^ k)) (2 ^ k) load work) j =
        parityColumn K dataShards k (fun i => K.elem ((load i).getD p 0#w)) j := by
  obtain ⟨word, hword⟩ : ∃ word, word =
    messageWord K dataShards k fun i => K.elem ((load i).getD p 0#w) := ⟨_, rfl⟩
  have hdata := h.data_pos
  have hgroup (g : Nat) (hg : g < groupCount dataShards k) {work : Work w}
      (hwork : Grid (2 ^ k) len work) := holds_group (K := K) h hp hs hload
    ((groupCount_spec hdata).mp hg) hwork
  rw [← hword] at hgroup
  have hcount : 0 < groupCount dataShards k := (groupCount_spec hdata).mpr (by omega)
  -- the first group
  have hfirst := hgroup 0 hcount (hwork.take (k := 2 ^ k) (by omega))
  simp only [Nat.zero_mul, Nat.zero_add, Nat.one_mul, Nat.sub_zero] at hfirst
  -- the others are added one by one
  have hrun := foldl_range_inv (fun t (st : GroupState w) =>
      Holds K (2 ^ k) len 0 p (fun i => ∑ g ∈ Finset.range (t + 1),
        K.lawful.points.inverseTo k word ((g + 1) * 2 ^ k + i)) st.xorDst ∧
      Grid (2 ^ k) len st.tempWork ∧ st.groupOffset = (t + 1) * 2 ^ k)
    (fun st g => encodeGroup K strategy (2 ^ k) load st (ifftPlanAt K.tables.fftSkew
      ((g + 2) * 2 ^ k) (min (dataShards - (g + 1) * 2 ^ k) (2 ^ k)) (2 ^ k)))
    (groupCount dataShards k - 1)
    ⟨ifftDitEncoderWithPlan K strategy load (ifftPlanAt K.tables.fftSkew (2 ^ k)
      (min dataShards (2 ^ k)) (2 ^ k)) (work.take (2 ^ k)), work.drop (2 ^ k), 2 ^ k⟩
    (by
      refine ⟨⟨hfirst.grid, fun i hi => ?_⟩, hwork.drop (by omega), (Nat.one_mul _).symm⟩
      rw [Nat.zero_add, ← column_shift (2 ^ k), hfirst.value i hi]
      simp)
    (by
      intro t ht st ⟨hsum, htemp, hoff⟩
      have hnext := hgroup (t + 1) (by omega) htemp
      unfold encodeGroup
      simp only [hoff]
      obtain ⟨hgrid, hcol⟩ := column_xorLanes (K := K) hnext.grid hsum.grid hp
      refine ⟨⟨hgrid, fun i hi => ?_⟩, hnext.grid, by ring⟩
      have hold := hsum.value i hi
      rw [Nat.zero_add] at hold ⊢
      refine (hcol i hi).trans ?_
      rw [hold, ← column_shift ((t + 1 + 1) * 2 ^ k), hnext.value i hi]
      exact (Finset.sum_range_succ _ _).symm)
  obtain ⟨st, hst⟩ : ∃ st, st = (List.range (groupCount dataShards k - 1)).foldl
    (fun st g => encodeGroup K strategy (2 ^ k) load st (ifftPlanAt K.tables.fftSkew
      ((g + 2) * 2 ^ k) (min (dataShards - (g + 1) * 2 ^ k) (2 ^ k)) (2 ^ k)))
    ⟨ifftDitEncoderWithPlan K strategy load (ifftPlanAt K.tables.fftSkew (2 ^ k)
      (min dataShards (2 ^ k)) (2 ^ k)) (work.take (2 ^ k)), work.drop (2 ^ k), 2 ^ k⟩ := ⟨_, rfl⟩
  have hchunk : encodeChunk K strategy (encodePlansAt K.tables.fftSkew dataShards parityShards
      (2 ^ k)) (2 ^ k) load work = fftDitWithPlan K strategy (fftPlanAt K.tables.fftSkew parityShards
        (2 ^ k)) st.xorDst ++ st.tempWork := by
    unfold encodeChunk
    rw [later_plans _ hdata, hst]
    simp only [List.foldl_map]
    rfl
  rw [Nat.sub_add_cancel hcount, ← hst] at hrun
  rw [hchunk]
  obtain ⟨hsum, htemp, -⟩ := hrun
  have hk : k ≤ w := by
    rw [← Nat.pow_le_pow_iff_right (a := 2) (by decide)]
    have := h.workSize_le
    omega
  obtain ⟨hgrid, hcol⟩ := holds_fft hk h.parity_le hp hs hsum
  constructor
  · apply grid_of_forall
    · rw [List.length_append, hgrid.length_eq, htemp.length_eq]
      omega
    · intro row hrow
      rcases List.mem_append.mp hrow with hrow | hrow
      · exact hgrid.forall hrow
      · exact htemp.forall hrow
  · intro j hj
    have hj' := hcol j hj
    have hlt : j < 2 ^ k := by have := h.parity_le; omega
    unfold column at hj' ⊢
    rw [if_neg (by omega), Nat.sub_zero] at hj' ⊢
    rw [List.getD_append _ _ _ _ (by rw [hgrid.length_eq]; exact hlt)]
    exact hj'.trans (by rw [hword]; rfl)

end Chunk

section Chunks

variable {F : Family w} {dataShards parityShards k shardSize : Nat}

/-- Element `x` of a shard. -/
noncomputable def Family.value (F : Family w) (shard : List (BitVec 8)) (x : Nat) :
    F.kernel.lawful.lfsr.Elem :=
  F.kernel.elem ((F.layout.toWork shard).getD x 0#w)

/-- A shard is known by its elements. -/
theorem Family.value_ext {a b : List (BitVec 8)} (h64 : 64 ∣ a.length) (hl : a.length = b.length)
    (h : ∀ x, x < a.length / F.layout.unit → F.value a x = F.value b x) : a = b := by
  apply F.layout.toWork_inj a b h64 hl
  have hla := F.layout.length_toWork a h64
  have hlb := F.layout.length_toWork b (hl ▸ h64)
  apply getD_ext 0#w (by rw [hla, hlb, hl])
  intro x hx
  exact F.kernel.elem_inj (h x (by omega))

/-- Chunk windows start and end at whole blocks. -/
theorem chunkRanges_aligned {len size unit : Nat} (hsize : 64 ∣ size * unit)
    (hlen : 64 ∣ len * unit) {window : Nat × Nat} (hw : window ∈ chunkRanges len size) :
    64 ∣ window.1 * unit ∧ 64 ∣ window.2 * unit := by
  have hmul (c : Nat) : 64 ∣ c * size * unit := by
    rw [Nat.mul_assoc]
    exact dvd_mul_of_dvd_right hsize c
  simp only [chunkRanges, List.mem_map, List.mem_range] at hw
  obtain ⟨c, -, rfl⟩ := hw
  refine ⟨hmul c, ?_⟩
  rcases Nat.le_total ((c + 1) * size) len with h | h
  · rw [show min ((c + 1) * size) len = (c + 1) * size from Nat.min_eq_left h]
    exact hmul (c + 1)
  · rw [show min ((c + 1) * size) len = len from Nat.min_eq_right h]
    exact hlen

theorem grid_views {lanes : Work w} {n cap size : Nat} (h : Grid n cap lanes) (hs : size ≤ cap) :
    Grid n size (lanes.map (List.take size)) := by
  apply grid_of_forall (by rw [List.length_map, h.length_eq])
  intro row hrow
  obtain ⟨lane, hlane, rfl⟩ := List.mem_map.mp hrow
  rw [List.length_take, h.forall hlane]
  exact Nat.min_eq_left hs

theorem grid_putViews {lanes views : Work w} {n cap size : Nat} (h : Grid n cap lanes)
    (hv : Grid n size views) (hs : size ≤ cap) : Grid n cap (putViews size lanes views) where
  length_eq := by rw [putViews, List.length_zipWith, h.length_eq, hv.length_eq, Nat.min_self]
  row_length r hr := by
    rw [putViews, getD_zipWith _ _ _ _ (by rw [h.length_eq]; exact hr)
      (by rw [hv.length_eq]; exact hr) [] [], List.length_append, List.length_drop,
      h.row_length r hr, hv.row_length r hr]
    omega

/-- The elements of a shard after a chunk is written to it. -/
theorem value_overwrite (shard : List (BitVec 8)) {lane : List (BitVec w)} {start : Nat}
    (size x : Nat)
    (h64 : 64 ∣ shard.length) (hs : 64 ∣ start * F.layout.unit)
    (hl : lane.length = size) (he : 64 ∣ size * F.layout.unit)
    (hend : (start + size) * F.layout.unit ≤ shard.length) (hx : x < shard.length / F.layout.unit) :
    F.value (overwrite (start * F.layout.unit) (F.layout.toUser lane) shard) x =
      if start ≤ x ∧ x < start + size then F.kernel.elem (lane.getD (x - start) 0#w)
      else F.value shard x := by
  have hlen := F.layout.length_toWork shard h64
  subst hl
  unfold Family.value
  rw [F.layout.toWork_overwrite _ _ _ h64 hs he hend, getD_overwrite, hlen]
  by_cases hin : start ≤ x ∧ x < start + lane.length
  · rw [if_pos ⟨hin.1, hin.2, hx⟩, if_pos hin]
  · rw [if_neg (fun h => hin ⟨h.1, h.2.1⟩), if_neg hin]

/-- The elements of a window of a shard. -/
theorem value_slice (shard : List (BitVec 8)) {start stop : Nat} (p : Nat) (h64 : 64 ∣ shard.length)
    (hs : 64 ∣ start * F.layout.unit) (he : 64 ∣ stop * F.layout.unit) (hlt : start ≤ stop)
    (hend : stop * F.layout.unit ≤ shard.length) :
    (F.layout.toWork (slice shard (start * F.layout.unit) (stop * F.layout.unit))).length =
        stop - start ∧
      (p < stop - start → F.kernel.elem ((F.layout.toWork (slice shard (start * F.layout.unit)
        (stop * F.layout.unit))).getD p 0#w) = F.value shard (start + p)) := by
  have hle : stop ≤ (F.layout.toWork shard).length := by
    rw [F.layout.length_toWork shard h64, Nat.le_div_iff_mul_le F.layout.unit_pos]
    exact hend
  rw [F.layout.toWork_slice _ _ _ h64 hs he hlt hend]
  refine ⟨length_slice _ _ _ hle, fun hp => ?_⟩
  unfold Family.value
  rw [getD_slice _ _ _ _ hp]

/-- The chunk loop writes the parity of every data column, whatever the buffers
held. -/
theorem encodeChunks_spec (h : Admitted w dataShards parityShards k)
    (h64 : 64 ∣ shardSize) {strategy : Dit4Strategy} (hs : strategy ≠ .auto) {driver : EncodeDriver}
    (hdriver : driver.Sized dataShards shardSize (2 ^ k)) (hchunk : 0 < driver.chunkSize)
    (hchunk64 : 64 ∣ driver.chunkSize * F.layout.unit) {data parity : List (List (BitVec 8))}
    (hdata : Grid dataShards shardSize data) (hparity : Grid parityShards shardSize parity)
    {work : Work w}
    (hwork : Grid (2 ^ k * 2) (min (shardSize / F.layout.unit) driver.chunkSize) work) :
    let result := encodeChunks F strategy (encodePlansAt F.kernel.tables.fftSkew dataShards
      parityShards (2 ^ k)) driver data (work, parity)
    (Grid (2 ^ k * 2) (min (shardSize / F.layout.unit) driver.chunkSize) result.1 ∧
      Grid parityShards shardSize result.2) ∧
    ∀ j x, j < parityShards → x < shardSize / F.layout.unit →
      F.value (result.2.getD j []) x = parityColumn F.kernel dataShards k
        (fun i => F.value (data.getD i []) x) j := by
  have hunit : F.layout.unit ∣ shardSize := dvd_trans F.layout.unit_dvd h64
  have hlen : shardSize / F.layout.unit * F.layout.unit = shardSize := Nat.div_mul_cancel hunit
  have hupos := F.layout.unit_pos
  have hk2 : parityShards ≤ 2 ^ k * 2 := by have := h.parity_le; omega
  intro result
  obtain ⟨hok, hread⟩ := foldl_cover
    (fun st : Work w × List (List (BitVec 8)) =>
      Grid (2 ^ k * 2) (min (shardSize / F.layout.unit) driver.chunkSize) st.1 ∧
        Grid parityShards shardSize st.2)
    (fun q : Nat × Nat => q.1 < parityShards ∧ q.2 < shardSize / F.layout.unit)
    (fun st q => F.value (st.2.getD q.1 []) q.2)
    (fun q => parityColumn F.kernel dataShards k (fun i => F.value (data.getD i []) q.2) q.1)
    (fun window q => window.1 ≤ q.2 ∧ q.2 < window.2)
    (encodeStep F strategy (encodePlansAt F.kernel.tables.fftSkew dataShards parityShards (2 ^ k))
      (2 ^ k) data) (chunkRanges (shardSize / F.layout.unit) driver.chunkSize) (work, parity)
    ⟨hwork, hparity⟩
    (by
      rintro ⟨start, stop⟩ hmem ⟨lanes, out⟩ ⟨hlanes, hout⟩
      obtain ⟨hlt, hle, hsize⟩ := chunkRanges_bounds hchunk hmem
      obtain ⟨ha, hb⟩ := chunkRanges_aligned hchunk64 (by rw [hlen]; exact h64) hmem
      simp only at hlt hle hsize ha hb
      have hcap : stop - start ≤ min (shardSize / F.layout.unit) driver.chunkSize := by omega
      have hstop : stop * F.layout.unit ≤ shardSize := (Nat.le_div_iff_mul_le hupos).mp hle
      have hwin : 64 ∣ (stop - start) * F.layout.unit := by
        rw [Nat.sub_mul]
        exact Nat.dvd_sub hb ha
      have hload (i : Nat) (hi : i < dataShards) := value_slice (F := F) (data.getD i []) 0
        (by rw [hdata.row_length i hi]; exact h64) ha hb hlt.le (by rw [hdata.row_length i hi]; exact hstop)
      have hcols (p : Nat) (hp : p < stop - start) := encodeChunk_spec (K := F.kernel) h hp hs
        (fun i => F.layout.toWork (slice (data.getD i []) (start * F.layout.unit)
          (stop * F.layout.unit))) (fun i hi => (hload i hi).1)
        (grid_views hlanes hcap)
      obtain ⟨views, hviews⟩ : ∃ views, views = encodeChunk F.kernel strategy (encodePlansAt
          F.kernel.tables.fftSkew dataShards parityShards (2 ^ k)) (2 ^ k)
        (fun i => F.layout.toWork (slice (data.getD i []) (start * F.layout.unit)
          (stop * F.layout.unit))) (lanes.map (List.take (stop - start))) := ⟨_, rfl⟩
      rw [← hviews] at hcols
      have hgrid := (hcols 0 (by omega)).1
      have hlane (j : Nat) (hj : j < parityShards) : (views.getD j []).length = stop - start :=
        hgrid.row_length j (by omega)
      have hstep : encodeStep F strategy (encodePlansAt F.kernel.tables.fftSkew dataShards
          parityShards (2 ^ k)) (2 ^ k) data (lanes, out) (start, stop) =
          (putViews (stop - start) lanes views, out.mapIdx fun i output =>
            overwrite (start * F.layout.unit) (F.layout.toUser (views.getD i [])) output) := by
        rw [hviews]
        rfl
      rw [hstep]
      refine ⟨⟨grid_putViews hlanes hgrid hcap, hout.mapIdx _ (fun r hr => ?_)⟩, ?_⟩
      · rw [length_overwrite]
        exact hout.row_length r hr
      · rintro ⟨j, x⟩ ⟨hj, hx⟩
        simp only at hj hx
        have hrow := hout.row_length j hj
        have hval := value_overwrite (F := F) (out.getD j []) (stop - start) x
          (by rw [hrow]; exact h64) ha (hlane j hj) hwin
          (by rw [hrow, show start + (stop - start) = stop by omega]; exact hstop)
          (by rw [hrow]; exact hx)
        have hout' : (out.mapIdx fun i output => overwrite (start * F.layout.unit)
            (F.layout.toUser (views.getD i [])) output).getD j [] =
            overwrite (start * F.layout.unit) (F.layout.toUser (views.getD j [])) (out.getD j []) :=
          getD_mapIdx_of_lt _ _ _ (by rw [hout.length_eq]; exact hj) [] []
        simp only
        rw [hout', hval]
        constructor
        · intro hin
          rw [if_pos (by omega)]
          have hcol := (hcols (x - start) (by omega)).2 j hj
          unfold column at hcol
          rw [if_neg (by omega), Nat.sub_zero] at hcol
          rw [hcol]
          apply parityColumn_congr
          intro i hi
          have hv := (value_slice (F := F) (data.getD i []) (x - start)
            (by rw [hdata.row_length i hi]; exact h64) ha hb hlt.le
            (by rw [hdata.row_length i hi]; exact hstop)).2 (by omega)
          rw [hv, show start + (x - start) = x by omega]
        · intro hout
          rw [if_neg (by omega)])
  have heq : result = (chunkRanges (shardSize / F.layout.unit) driver.chunkSize).foldl
      (encodeStep F strategy (encodePlansAt F.kernel.tables.fftSkew dataShards parityShards (2 ^ k))
        (2 ^ k) data) (work, parity) := by
    change encodeChunks _ _ _ _ _ _ = _
    unfold encodeChunks
    rw [hdriver.shardSize_eq, hdriver.m_eq]
  rw [heq]
  refine ⟨hok, fun j x hj hx => (hread (j, x) ⟨hj, hx⟩).1 ?_⟩
  obtain ⟨hmem, h1, h2⟩ := (mem_chunkRanges_iff hchunk x hx _).mpr rfl
  exact ⟨_, hmem, h1, h2⟩

end Chunks

end Leopard

end ErasureCodec
