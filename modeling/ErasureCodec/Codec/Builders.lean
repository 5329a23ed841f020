import ErasureCodec.Matrix.Elimination
import ErasureCodec.Field.Galois8

namespace ErasureCodec

open CodecField

inductive Error where
  | tooFewShards
  | tooManyShards
  | tooFewDataShards
  | tooManyDataShards
  | tooFewParityShards
  | tooManyParityShards
  | tooFewBufferShards
  | tooManyBufferShards
  | incorrectShardSize
  | tooFewShardsPresent
  | emptyShard
  | invalidShardFlags
  | invalidIndex
  | invalidCustomMatrix
  | unsupportedCodecFamily
  | unsupportedLeopardPrototype
  deriving Repr, DecidableEq

section Definitions

variable {E : Type} [CodecField E] [DecidableEq E]

/-- The Vandermonde matrix times the inverse of its top square. -/
def buildMatrix (dataShards totalShards : Nat) : Outcome Error (CodingMatrix E) := do
  let vandermonde := CodingMatrix.vandermonde totalShards dataShards
  let top := vandermonde.subMatrix 0 0 dataShards dataShards
  let topInverted ← top.invert.mapErr fun _ => .invalidCustomMatrix
  (vandermonde.multiply topInverted).mapErr fun _ => .invalidCustomMatrix

def buildCauchyMatrix (dataShards totalShards : Nat) : Outcome Error (CodingMatrix E) :=
  (List.range totalShards).foldlM (fun result r =>
    if r < dataShards then .ok (result.set r r one)
    else (List.range dataShards).foldlM (fun result c =>
      let denominator : E := add (nth r) (nth c)
      if denominator = zero then .err .invalidCustomMatrix
      else .ok (result.set r c (div one denominator))) result)
    (CodingMatrix.new totalShards dataShards)

/-- The matrix of the single-parity fast mode: the identity over a row of ones. -/
def buildFastOneParityMatrix (dataShards totalShards : Nat) : CodingMatrix E :=
  (List.range dataShards).foldl
    (fun matrix col => (matrix.set col col one).set dataShards col one)
    (CodingMatrix.new totalShards dataShards)

/-- The first rows of a caller's parity matrix under an identity. -/
def buildCustomMatrix (dataShards totalShards : Nat) (customMatrix : List (List E)) :
    Outcome Error (CodingMatrix E) :=
  let parityShards := totalShards - dataShards
  if customMatrix.length < parityShards then .err .invalidCustomMatrix
  else if (customMatrix.take parityShards).any (fun row => row.length < dataShards) then
    .err .invalidCustomMatrix
  else
    let result := (List.range dataShards).foldl (fun result row => result.set row row one)
      (CodingMatrix.new totalShards dataShards)
    .ok ((List.range parityShards).foldl (fun result offset =>
      (List.range dataShards).foldl (fun result col =>
        result.set (dataShards + offset) col ((customMatrix.getD offset []).getD col zero))
        result) result)

end Definitions

namespace CodingMatrix

/-- The first `n` rows are the identity. -/
def Systematic {E : Type} [CodecField E] (m : CodingMatrix E) (n : Nat) : Prop :=
  ∀ r c, r < n → c < n → m.get r c = if r = c then one else zero

/-- A `total × data` matrix whose top is the identity and whose every `data`
distinct rows are invertible. -/
structure IsGenerator {E : Type} [CodecField E] [LawfulField E] (m : CodingMatrix E)
    (data total : Nat) : Prop where
  rowCount_eq : m.rowCount = total
  colCount_eq : m.colCount = data
  systematic : m.Systematic data
  mds : IsMDS (m.toMatrix total data)

end CodingMatrix

section Proofs

variable {E : Type} [CodecField E] [LawfulField E]

/-- The identity rows as an embedding of the columns into the rows. -/
def dataRows {k n : Nat} (h : k ≤ n) : Fin k ↪ Fin n := Fin.castLEEmb h

theorem dataRows_ne {k n : Nat} (h : k ≤ n) {r : Fin n} (hr : k ≤ r) (i : Fin k) :
    dataRows h i ≠ r := by
  intro hi
  have := congrArg Fin.val hi
  simp only [dataRows, Fin.castLEEmb_apply, Fin.val_castLE] at this
  omega

theorem le_of_dataRows_ne {k n : Nat} (h : k ≤ n) {r : Fin n} (hr : ∀ i, dataRows h i ≠ r) :
    k ≤ r := by
  by_contra hlt
  exact hr ⟨r, by omega⟩ (Fin.ext rfl)

theorem CodingMatrix.Systematic.apply {m : CodingMatrix E} {k n : Nat} (hm : m.Systematic k)
    (h : k ≤ n) (i j : Fin k) : m.toMatrix n k (dataRows h i) j = if i = j then 1 else 0 :=
  (hm i j i.isLt j.isLt).trans (if_congr Fin.ext_iff.symm rfl rfl)

theorem nth_injective {n : Nat} (hn : n ≤ order E) :
    Function.Injective fun r : Fin n => (nth (r : Nat) : E) := by
  intro a b hab
  exact Fin.ext (nth_injOn (by omega) (by omega) hab)

/-- The distinct rows of the Vandermonde matrix form an MDS generator. -/
theorem isMDS_vandermonde {n : Nat} (k : Nat) (hn : n ≤ order E) :
    IsMDS ((CodingMatrix.vandermonde n k : CodingMatrix E).toMatrix n k) := by
  have h := isMDS_evalRow k (fun r : Fin n => some (nth (r : Nat) : E))
    (fun a b hab => nth_injective hn (Option.some.inj hab))
  convert h using 1
  ext r j
  rw [CodingMatrix.toMatrix_apply, CodingMatrix.get_vandermonde r.isLt j.isLt, exp_eq]
  rfl

variable [DecidableEq E]

theorem buildMatrix_spec {k n : Nat} (hkn : k ≤ n) (hn : n ≤ order E) :
    ∃ m : CodingMatrix E, buildMatrix k n = .ok m ∧ m.IsGenerator k n := by
  let V : CodingMatrix E := CodingMatrix.vandermonde n k
  let top : CodingMatrix E := V.subMatrix 0 0 k k
  have hV : IsMDS (V.toMatrix n k) := isMDS_vandermonde k hn
  have htop (i j : Fin k) : top.get i j = V.get i j := by
    rw [CodingMatrix.get_subMatrix _ _ _ _ _ (by omega) (by omega), Nat.zero_add, Nat.zero_add]
  have hunit : IsUnit (top.toMatrix k k) := by
    have h := hV (dataRows hkn)
    convert h using 1
    ext i j
    exact htop i j
  obtain ⟨b, hb, hbr, hbc, hmul⟩ : ∃ b, top.invert = .ok b ∧ b.rowCount = k ∧ b.colCount = k ∧
      top.toMatrix k k * b.toMatrix k k = 1 := by
    have h := CodingMatrix.invert_spec (m := top) (n := k)
      (CodingMatrix.rowCount_subMatrix _ _ _ _ _) (CodingMatrix.colCount_subMatrix _ _ _ _ _)
    exact (h.mono (fun _ h => h) (fun e he => he.2 hunit) id).exists_ok
  obtain ⟨p, hp, hpr, hpc, hget⟩ := V.multiply_spec b (by
    rw [hbr]
    exact CodingMatrix.colCount_vandermonde n k)
  rw [CodingMatrix.rowCount_vandermonde] at hpr hget
  rw [CodingMatrix.colCount_vandermonde, hbc] at hget
  have hprod : p.toMatrix n k = V.toMatrix n k * b.toMatrix k k := by
    ext r c
    rw [CodingMatrix.toMatrix_apply, hget r c r.isLt c.isLt, Finset.sum_range, Matrix.mul_apply]
    rfl
  refine ⟨p, ?_, hpr, hpc.trans hbc, fun r c hr hc => ?_, ?_⟩
  · change (top.invert.mapErr _ >>= fun topInverted => (V.multiply topInverted).mapErr _) = _
    rw [hb, Outcome.mapErr_ok, Outcome.ok_bind, hp, Outcome.mapErr_ok]
  · have h1 := congrFun (congrFun hmul ⟨r, hr⟩) ⟨c, hc⟩
    have h2 := congrFun (congrFun hprod ⟨r, by omega⟩) ⟨c, hc⟩
    rw [Matrix.one_apply, Matrix.mul_apply] at h1
    rw [Matrix.mul_apply] at h2
    refine h2.trans (Eq.trans ?_ (h1.trans (if_congr Fin.ext_iff rfl rfl)))
    refine Finset.sum_congr rfl (fun j _ => ?_)
    rw [CodingMatrix.toMatrix_apply, CodingMatrix.toMatrix_apply top]
    exact congrArg (· * _) (htop ⟨r, hr⟩ j).symm
  · refine hV.transport (Function.Embedding.refl _) (fun _ => 1) (fun _ => one_ne_zero)
      (fun v => (b.toMatrix k k).mulVec v) (fun v hv => ?_) (fun r v => ?_)
    · rw [← Matrix.one_mulVec v, ← hmul, ← Matrix.mulVec_mulVec, hv, Matrix.mulVec_zero]
    · rw [hprod, one_mul, ← Matrix.mulVec_mulVec]
      rfl

private theorem cauchyRow_spec {k n r : Nat} (hr : r < n) (hkr : k ≤ r) (hn : n ≤ order E)
    {m : CodingMatrix E} (hmr : m.rowCount = n) (hmc : m.colCount = k) :
    ((List.range k).foldlM (fun result c =>
      if add (nth r) (nth c : E) = zero then .err .invalidCustomMatrix
      else .ok (result.set r c (div one (add (nth r) (nth c))))) m : Outcome Error _).Sat
      (fun t : CodingMatrix E => t.rowCount = n ∧ t.colCount = k ∧ ∀ i c, i < n → c < k →
        t.get i c = if i = r then (nth r + nth c : E)⁻¹ else m.get i c)
      (fun _ => False) False := by
  refine Outcome.Sat.mono (P := fun t : CodingMatrix E => t.rowCount = n ∧ t.colCount = k ∧
    ∀ i c, i < n → c < k →
      t.get i c = if i = r ∧ c < k then (nth r + nth c : E)⁻¹ else m.get i c)
    (Outcome.Sat.foldlM_range (P := fun j (t : CodingMatrix E) => t.rowCount = n ∧ t.colCount = k ∧
      ∀ i c, i < n → c < k →
        t.get i c = if i = r ∧ c < j then (nth r + nth c : E)⁻¹ else m.get i c)
      k m ⟨hmr, hmc, fun i c _ _ => by simp⟩ ?_) ?_ (fun _ h => h) id
  · rintro j hj t ⟨htr, htc, ht⟩
    have hne : (nth r + nth j : E) ≠ 0 := by
      intro h0
      have := nth_injOn (by omega) (by omega) (CharTwo.add_eq_zero.mp h0)
      omega
    rw [if_neg (by simpa using hne)]
    refine ⟨htr, htc, fun i c hi hc => ?_⟩
    rw [CodingMatrix.get_set _ _ (by omega) (by omega) (by omega), ht i c hi hc, add_eq,
      div_eq _ _ hne, one_eq, one_div]
    by_cases h : r = i ∧ j = c
    · obtain ⟨rfl, rfl⟩ := h
      simp
    · rw [if_neg h]
      apply if_congr _ rfl rfl
      omega
  · rintro t ⟨htr, htc, ht⟩
    refine ⟨htr, htc, fun i c hi hc => ?_⟩
    rw [ht i c hi hc]
    apply if_congr _ rfl rfl
    omega

/-- Identity rows over Cauchy rows. -/
theorem buildCauchyMatrix_entries {k n : Nat} (hn : n ≤ order E) :
    ∃ m : CodingMatrix E, buildCauchyMatrix k n = .ok m ∧ m.rowCount = n ∧ m.colCount = k ∧
      ∀ r c, r < n → c < k → m.get r c =
        if r < k then if r = c then 1 else 0 else (nth r + nth c)⁻¹ := by
  apply Outcome.Sat.exists_ok
  refine Outcome.Sat.mono (P := fun t : CodingMatrix E => t.rowCount = n ∧ t.colCount = k ∧
    ∀ r c, r < n → c < k → t.get r c =
      if r < n then if r < k then if r = c then 1 else 0 else (nth r + nth c)⁻¹ else 0)
    (Outcome.Sat.foldlM_range (P := fun i (t : CodingMatrix E) => t.rowCount = n ∧ t.colCount = k ∧
      ∀ r c, r < n → c < k → t.get r c =
        if r < i then if r < k then if r = c then 1 else 0 else (nth r + nth c)⁻¹ else 0)
      n _ ⟨rfl, rfl, fun r c _ _ => by simp [CodingMatrix.get_new]⟩ ?_) ?_ (fun _ h => h) id
  · rintro i hi t ⟨htr, htc, ht⟩
    by_cases hik : i < k
    · rw [if_pos hik]
      refine ⟨htr, htc, fun r c hr hc => ?_⟩
      rw [CodingMatrix.get_set _ _ (by omega) (by omega) (by omega), ht r c hr hc]
      rcases lt_trichotomy r i with hlt | rfl | hgt
      · rw [if_neg (by omega), if_pos hlt, if_pos (by omega : r < i + 1)]
      · rw [if_neg (lt_irrefl r), if_pos (Nat.lt_succ_self r), if_pos hik]
        exact if_congr (by simp) rfl rfl
      · rw [if_neg (by omega), if_neg (by omega), if_neg (by omega : ¬r < i + 1)]
    · rw [if_neg hik]
      refine (cauchyRow_spec (by omega) (by omega) hn htr htc).mono ?_ (fun _ h => h) id
      rintro s ⟨hsr, hsc, hs⟩
      refine ⟨hsr, hsc, fun r c hr hc => ?_⟩
      rw [hs r c hr hc, ht r c hr hc]
      by_cases hri : r = i
      · subst hri
        rw [if_pos rfl, if_pos (Nat.lt_succ_self r), if_neg hik]
      · rw [if_neg hri]
        apply if_congr _ rfl rfl
        omega
  · rintro t ⟨htr, htc, ht⟩
    refine ⟨htr, htc, fun r c hr hc => ?_⟩
    rw [ht r c hr hc, if_pos hr]

theorem buildCauchyMatrix_spec {k n : Nat} (hkn : k ≤ n) (hn : n ≤ order E) :
    ∃ m : CodingMatrix E, buildCauchyMatrix k n = .ok m ∧ m.IsGenerator k n := by
  obtain ⟨m, hm, hmr, hmc, hget⟩ := buildCauchyMatrix_entries (E := E) (k := k) hn
  have hsys : m.Systematic k := fun r c hr hc => by
    rw [hget r c (by omega) hc, if_pos hr]
    rfl
  refine ⟨m, hm, hmr, hmc, hsys, isMDS_of_systematic (dataRows hkn) (hsys.apply hkn) ?_⟩
  intro T R hcard hR v hz
  have hparity (r : Fin n) (hr : r ∈ R) : k ≤ r := le_of_dataRows_ne hkn (hR r hr)
  apply cauchy_kernel T (fun j => nth (j : Nat)) v
    (fun a _ b _ hab => Fin.ext (nth_injOn (by omega) (by omega) hab))
    (R.map ⟨fun r : Fin n => (nth (r : Nat) : E), nth_injective hn⟩)
    (by rw [Finset.card_map, hcard])
  · intro x hx j _ h0
    obtain ⟨r, hr, rfl⟩ := Finset.mem_map.mp hx
    have hrj := nth_injOn (by omega) (by omega) (sub_eq_zero.mp h0)
    have := hparity r hr
    omega
  · intro x hx
    obtain ⟨r, hr, rfl⟩ := Finset.mem_map.mp hx
    refine Eq.trans (Finset.sum_congr rfl (fun j _ => ?_)) (hz r hr)
    rw [CodingMatrix.toMatrix_apply, hget r j r.isLt j.isLt, if_neg (by
      have := hparity r hr
      omega), CharTwo.sub_eq_add]
    rfl

/-- Both default builders always return a systematic MDS generator. -/
theorem vandermonde_and_cauchy_generators (data parity : Nat) (ht : data + parity ≤ order E) :
    (∃ m : CodingMatrix E, buildMatrix data (data + parity) = .ok m ∧
      m.IsGenerator data (data + parity)) ∧
    ∃ m : CodingMatrix E, buildCauchyMatrix data (data + parity) = .ok m ∧
      m.IsGenerator data (data + parity) :=
  ⟨buildMatrix_spec (Nat.le_add_right data parity) ht,
    buildCauchyMatrix_spec (Nat.le_add_right data parity) ht⟩

theorem vandermonde_and_cauchy_generators_galois8 :
    (∃ m : CodingMatrix Galois8, buildMatrix 10 14 = .ok m ∧ m.IsGenerator 10 14) ∧
    ∃ m : CodingMatrix Galois8, buildCauchyMatrix 10 14 = .ok m ∧ m.IsGenerator 10 14 :=
  vandermonde_and_cauchy_generators 10 4 (by decide)

omit [LawfulField E] [DecidableEq E] in
theorem buildFastOneParityMatrix_entries (k : Nat) :
    (buildFastOneParityMatrix k (k + 1) : CodingMatrix E).rowCount = k + 1 ∧
      (buildFastOneParityMatrix k (k + 1) : CodingMatrix E).colCount = k ∧
      ∀ r c, r < k + 1 → c < k → (buildFastOneParityMatrix k (k + 1) : CodingMatrix E).get r c =
        if r = k ∨ r = c then one else zero := by
  let P : Nat → CodingMatrix E → Prop := fun i t => t.rowCount = k + 1 ∧ t.colCount = k ∧
    ∀ r c, r < k + 1 → c < k → t.get r c = if (r = k ∨ r = c) ∧ c < i then one else zero
  have hP := foldl_range_inv P (fun matrix col => (matrix.set col col one).set k col one) k
    (CodingMatrix.new (k + 1) k) ⟨rfl, rfl, fun r c _ _ => by simp [CodingMatrix.get_new]⟩ (by
      rintro i hi t ⟨htr, htc, ht⟩
      refine ⟨htr, htc, fun r c hr hc => ?_⟩
      rw [CodingMatrix.get_set _ _ (by rw [CodingMatrix.rowCount_set]; omega)
          (by rw [CodingMatrix.colCount_set]; omega) (by rw [CodingMatrix.colCount_set]; omega),
        CodingMatrix.get_set _ _ (by omega) (by omega) (by omega), ht r c hr hc]
      split_ifs <;> first | rfl | omega)
  obtain ⟨h1, h2, h3⟩ := hP
  refine ⟨h1, h2, fun r c hr hc => (h3 r c hr hc).trans ?_⟩
  apply if_congr _ rfl rfl
  simp [hc]

omit [DecidableEq E] in
theorem buildFastOneParityMatrix_spec (k : Nat) :
    (buildFastOneParityMatrix k (k + 1) : CodingMatrix E).IsGenerator k (k + 1) := by
  obtain ⟨hr, hc, hget⟩ := buildFastOneParityMatrix_entries (E := E) k
  have hsys : (buildFastOneParityMatrix k (k + 1) : CodingMatrix E).Systematic k :=
    fun r c h1 h2 => by
      rw [hget r c (by omega) h2]
      apply if_congr _ rfl rfl
      omega
  refine ⟨hr, hc, hsys, isMDS_of_systematic (dataRows (Nat.le_succ k)) (hsys.apply _) ?_⟩
  intro T R hcard hR v hz j hj
  -- A single row is left below the identity, so at most one column is unknown.
  have hsingle : R ⊆ {Fin.last k} := by
    intro r hr
    have := le_of_dataRows_ne _ (hR r hr)
    rw [Finset.mem_singleton, Fin.ext_iff, Fin.val_last]
    omega
  have hT : T = {j} := by
    have h1 := Finset.card_le_card hsingle
    rw [Finset.card_singleton, hcard] at h1
    exact (Finset.eq_singleton_iff_unique_mem.mpr
      ⟨hj, fun i hi => Finset.card_le_one.mp h1 i hi j hj⟩)
  obtain ⟨r, hr⟩ : R.Nonempty := by
    rw [← Finset.card_pos, hcard, hT, Finset.card_singleton]
    exact one_pos
  have hrk := Finset.mem_singleton.mp (hsingle hr)
  have h0 := hz r hr
  rw [hT, Finset.sum_singleton, CodingMatrix.toMatrix_apply, hget r j r.isLt j.isLt,
    if_pos (Or.inl (by rw [hrk, Fin.val_last])), one_eq, one_mul] at h0
  exact h0

omit [LawfulField E] [DecidableEq E] in
/-- What a custom matrix becomes: the caller's rows under an identity. -/
theorem buildCustomMatrix_spec {k n : Nat} (hkn : k ≤ n) (customMatrix : List (List E))
    (m : CodingMatrix E) (hm : buildCustomMatrix k n customMatrix = .ok m) :
    m.rowCount = n ∧ m.colCount = k ∧ m.Systematic k ∧
      ∀ r c, r < n - k → c < k → m.get (k + r) c = (customMatrix.getD r []).getD c zero := by
  unfold buildCustomMatrix at hm
  simp only at hm
  split_ifs at hm
  obtain rfl := Outcome.ok.inj hm
  let P : Nat → CodingMatrix E → Prop := fun i t => t.rowCount = n ∧ t.colCount = k ∧
    ∀ r c, r < n → c < k → t.get r c = if r < i ∧ r = c then one else zero
  have hid := foldl_range_inv P (fun result row => result.set row row one) k
    (CodingMatrix.new n k) ⟨rfl, rfl, fun r c _ _ => by simp [CodingMatrix.get_new]⟩ (by
      rintro i hi t ⟨htr, htc, ht⟩
      refine ⟨htr, htc, fun r c hr hc => ?_⟩
      rw [CodingMatrix.get_set _ _ (by omega) (by omega) (by omega), ht r c hr hc]
      split_ifs <;> first | rfl | omega)
  generalize (List.range k).foldl (fun (result : CodingMatrix E) row => result.set row row one)
    (CodingMatrix.new n k) = base at hid ⊢
  obtain ⟨hbr, hbc, hbase⟩ := hid
  let V : Nat → Nat → E := fun r c => (customMatrix.getD (r - k) []).getD c zero
  let Q : Nat → CodingMatrix E → Prop := fun i t => t.rowCount = n ∧ t.colCount = k ∧
    ∀ r c, r < n → c < k → t.get r c = if k ≤ r ∧ r < k + i then V r c else base.get r c
  have hQ := foldl_range_inv Q (fun result offset => (List.range k).foldl (fun result col =>
      result.set (k + offset) col ((customMatrix.getD offset []).getD col zero)) result) (n - k)
    base ⟨hbr, hbc, fun r c _ _ => by rw [if_neg (by omega)]⟩ (by
      rintro i hi t ⟨htr, htc, ht⟩
      let S : Nat → CodingMatrix E → Prop := fun j s => s.rowCount = n ∧ s.colCount = k ∧
        ∀ r c, r < n → c < k → s.get r c = if r = k + i ∧ c < j then V r c else t.get r c
      have hS := foldl_range_inv S (fun result col =>
          result.set (k + i) col ((customMatrix.getD i []).getD col zero)) k t
        ⟨htr, htc, fun r c _ _ => by rw [if_neg (by omega)]⟩ (by
          rintro j hj s ⟨hsr, hsc, hs⟩
          refine ⟨hsr, hsc, fun r c hr hc => ?_⟩
          rw [CodingMatrix.get_set _ _ (by omega) (by omega) (by omega), hs r c hr hc]
          by_cases h : k + i = r ∧ j = c
          · obtain ⟨rfl, rfl⟩ := h
            rw [if_pos ⟨rfl, rfl⟩, if_pos ⟨rfl, Nat.lt_succ_self j⟩]
            simp only [V]
            rw [Nat.add_sub_cancel_left]
          · rw [if_neg h]
            apply if_congr _ rfl rfl
            omega)
      obtain ⟨hsr, hsc, hs⟩ := hS
      refine ⟨hsr, hsc, fun r c hr hc => ?_⟩
      rw [hs r c hr hc, ht r c hr hc]
      split_ifs <;> first | rfl | omega)
  obtain ⟨hr, hc, hget⟩ := hQ
  refine ⟨hr, hc, fun r c h1 h2 => ?_, fun r c h1 h2 => ?_⟩
  · rw [hget r c (by omega) h2, if_neg (by omega), hbase r c (by omega) h2]
    apply if_congr _ rfl rfl
    omega
  · rw [hget (k + r) c (by omega) h2, if_pos (by omega)]
    simp only [V]
    rw [Nat.add_sub_cancel_left]

end Proofs

end ErasureCodec
