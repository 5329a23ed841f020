import Mathlib.LinearAlgebra.Matrix.NonsingularInverse
import Mathlib.LinearAlgebra.Lagrange
import Mathlib.Tactic

namespace ErasureCodec

open Matrix Polynomial

section Mds

variable {K ι κ : Type*} [Field K] [Fintype κ] [DecidableEq κ]

/-- A generator matrix is MDS when every choice of as many distinct rows as it
has columns is an invertible square matrix. -/
def IsMDS (G : Matrix ι κ K) : Prop := ∀ s : κ ↪ ι, IsUnit (G.submatrix s id)

theorem isUnit_iff_kernel (A : Matrix κ κ K) :
    IsUnit A ↔ ∀ v : κ → K, A *ᵥ v = 0 → v = 0 := by
  rw [← mulVec_injective_iff_isUnit]
  constructor
  · intro h v hv
    exact h (hv.trans (mulVec_zero A).symm)
  · intro h v w hvw
    apply sub_eq_zero.mp
    apply h
    rw [mulVec_sub, sub_eq_zero]
    exact hvw

/-- The kernel reading of MDS: a vector that vanishes on enough rows is zero. -/
theorem isMDS_iff_kernel (G : Matrix ι κ K) :
    IsMDS G ↔ ∀ (s : κ ↪ ι) (v : κ → K), (∀ i, (G *ᵥ v) (s i) = 0) → v = 0 := by
  have hrow (s : κ ↪ ι) (v : κ → K) :
      G.submatrix s id *ᵥ v = 0 ↔ ∀ i, (G *ᵥ v) (s i) = 0 := by
    rw [funext_iff]
    rfl
  constructor
  · intro h s v hv
    exact (isUnit_iff_kernel _).mp (h s) v ((hrow s v).mpr hv)
  · intro h s
    exact (isUnit_iff_kernel _).mpr (fun v hv => h s v ((hrow s v).mp hv))

/-- Relabelling rows, scaling each row by a nonzero scalar and substituting the
columns along a map with trivial kernel keep a generator MDS. -/
theorem IsMDS.transport {ι' : Type*} {G : Matrix ι κ K} {G' : Matrix ι' κ K} (h : IsMDS G)
    (σ : ι' ↪ ι) (c : ι' → K) (hc : ∀ r, c r ≠ 0) (f : (κ → K) → κ → K)
    (hf : ∀ v, f v = 0 → v = 0) (hG : ∀ r v, (G' *ᵥ v) r = c r * (G *ᵥ f v) (σ r)) :
    IsMDS G' := by
  rw [isMDS_iff_kernel] at h ⊢
  intro s v hv
  apply hf
  apply h (s.trans σ)
  intro i
  have hi := hv i
  rw [hG] at hi
  exact (mul_eq_zero.mp hi).resolve_left (hc _)

private theorem IsMDS.scale {A B : Matrix ι κ K} (hA : IsMDS A) (ρ : ι → K) (γ : κ → K)
    (hρ : ∀ r, ρ r ≠ 0) (hγ : ∀ c, γ c ≠ 0) (h : ∀ r c, B r c = ρ r * A r c * γ c) :
    IsMDS B := by
  refine hA.transport (Function.Embedding.refl ι) ρ hρ (fun v c => γ c * v c) (fun v hv => ?_)
    (fun r v => ?_)
  · funext c
    exact (mul_eq_zero.mp (congrFun hv c)).resolve_left (hγ c)
  · simp only [mulVec, dotProduct, Finset.mul_sum]
    refine Finset.sum_congr rfl (fun c _ => ?_)
    rw [h]
    change _ = ρ r * (A r c * _)
    ring

/-- Nonzero row and column factors do not matter. -/
theorem isMDS_iff_of_scale {A B : Matrix ι κ K} (ρ : ι → K) (γ : κ → K) (hρ : ∀ r, ρ r ≠ 0)
    (hγ : ∀ c, γ c ≠ 0) (h : ∀ r c, B r c = ρ r * A r c * γ c) : IsMDS A ↔ IsMDS B := by
  refine ⟨fun hA => hA.scale ρ γ hρ hγ h, fun hB => hB.scale (fun r => (ρ r)⁻¹)
    (fun c => (γ c)⁻¹) (fun r => inv_ne_zero (hρ r)) (fun c => inv_ne_zero (hγ c))
    (fun r c => ?_)⟩
  rw [h]
  field_simp [hρ r, hγ c]

private theorem IsMDS.colAdd {A B : Matrix ι κ K} (hA : IsMDS A) {i j : κ} (hij : i ≠ j) (x : K)
    (h : ∀ r c, B r c = if c = j then A r j + x * A r i else A r c) : IsMDS B := by
  refine hA.transport (Function.Embedding.refl ι) (fun _ => 1) (fun _ => one_ne_zero)
    (fun v => Function.update v i (v i + x * v j)) (fun v hv => ?_) (fun r v => ?_)
  · have hoff (c : κ) (hc : c ≠ i) : v c = 0 := by
      simpa [Function.update_of_ne hc] using congrFun hv c
    funext c
    by_cases hc : c = i
    · have h1 := congrFun hv i
      rw [Function.update_self, hoff j (Ne.symm hij), mul_zero, add_zero] at h1
      rw [hc]
      exact h1
    · exact hoff c hc
  · have hleft : (B *ᵥ v) r = ∑ c, A r c * v c + x * A r i * v j := by
      have hc (c : κ) : B r c * v c = A r c * v c + if c = j then x * A r i * v j else 0 := by
        rw [h]
        split_ifs with hcj
        · rw [hcj]
          ring
        · rw [add_zero]
      simp only [mulVec, dotProduct, hc, Finset.sum_add_distrib, Finset.sum_ite_eq',
        Finset.mem_univ, if_true]
    have hright : ∑ c, A r c * Function.update v i (v i + x * v j) c =
        ∑ c, A r c * v c + x * A r i * v j := by
      have hc (c : κ) : A r c * Function.update v i (v i + x * v j) c =
          A r c * v c + if c = i then x * A r i * v j else 0 := by
        by_cases hci : c = i
        · rw [hci, Function.update_self, if_pos rfl]
          ring
        · rw [Function.update_of_ne hci, if_neg hci, add_zero]
      simp only [hc, Finset.sum_add_distrib, Finset.sum_ite_eq', Finset.mem_univ, if_true]
    rw [hleft, one_mul]
    exact hright.symm

/-- Adding a multiple of one column to another does not matter. -/
theorem isMDS_iff_of_colAdd {A B : Matrix ι κ K} {i j : κ} (hij : i ≠ j) (x : K)
    (h : ∀ r c, B r c = if c = j then A r j + x * A r i else A r c) : IsMDS A ↔ IsMDS B := by
  refine ⟨fun hA => hA.colAdd hij x h, fun hB => hB.colAdd hij (-x) (fun r c => ?_)⟩
  rw [h r j, h r i, h r c, if_pos rfl, if_neg hij]
  split_ifs with hc
  · rw [hc]
    ring
  · rfl

/-- Exchanging rows does not matter. -/
theorem isMDS_iff_of_perm {A B : Matrix ι κ K} (σ : Equiv.Perm ι)
    (h : ∀ r c, B r c = A (σ r) c) : IsMDS A ↔ IsMDS B := by
  have hmv (r : ι) (v : κ → K) : (B *ᵥ v) r = 1 * (A *ᵥ v) (σ r) := by
    simp only [mulVec, dotProduct, h, one_mul]
  constructor
  · intro hA
    exact hA.transport σ.toEmbedding (fun _ => 1) (fun _ => one_ne_zero) id (fun _ hv => hv) hmv
  · intro hB
    refine hB.transport σ.symm.toEmbedding (fun _ => 1) (fun _ => one_ne_zero) id
      (fun _ hv => hv) (fun r v => ?_)
    change _ = 1 * (B *ᵥ v) (σ.symm r)
    rw [hmv, Equiv.apply_symm_apply, one_mul, one_mul]

/-- No column of an MDS generator with enough rows vanishes. -/
theorem IsMDS.exists_ne_zero {G : Matrix ι κ K} (h : IsMDS G) (t : κ ↪ ι) (j : κ) :
    ∃ r, G r j ≠ 0 := by
  by_contra hall
  have hz : ∀ r, G r j = 0 := fun r => by
    by_contra hr
    exact hall ⟨r, hr⟩
  have hv := (isMDS_iff_kernel G).mp h t (Pi.single j 1) (fun i => by
    rw [mulVec_single_one]
    exact hz _)
  have h1 := congrFun hv j
  simp at h1

/-- Below the identity rows of a systematic MDS generator no entry is zero. -/
theorem IsMDS.entry_ne_zero {G : Matrix ι κ K} (h : IsMDS G) (t : κ ↪ ι)
    (ht : ∀ i j, G (t i) j = if i = j then 1 else 0) (r : ι) (hr : ∀ i, t i ≠ r) (j : κ) :
    G r j ≠ 0 := by
  intro hz
  let s : κ ↪ ι :=
    ⟨fun i => if i = j then r else t i, by
      intro a b hab
      by_cases ha : a = j <;> by_cases hb : b = j <;> simp only [ha, hb, if_true, if_false] at hab ⊢
      · exact absurd hab.symm (hr b)
      · exact absurd hab (hr a)
      · exact t.injective hab⟩
  have hv := (isMDS_iff_kernel G).mp h s (Pi.single j 1) (fun i => by
    rw [mulVec_single_one]
    change G (if i = j then r else t i) j = 0
    by_cases hi : i = j
    · rw [if_pos hi]; exact hz
    · rw [if_neg hi, ht, if_neg hi])
  have h1 := congrFun hv j
  simp at h1

/-- Equal rows exclude MDS as soon as two rows have to be chosen. -/
theorem IsMDS.row_not_multiple {G : Matrix ι κ K} (h : IsMDS G) (s : κ ↪ ι) (a b : κ)
    (hab : a ≠ b) (c : K) : ∃ j, G (s a) j ≠ c * G (s b) j := by
  by_contra hall
  have hrow : ∀ j, G (s a) j = c * G (s b) j := fun j => by
    by_contra hj
    exact hall ⟨j, hj⟩
  obtain ⟨N, hN⟩ := (h s).exists_right_inv
  have ha := congrFun (congrFun hN a) a
  have hb := congrFun (congrFun hN b) a
  rw [mul_apply, one_apply_eq] at ha
  rw [mul_apply, one_apply_ne (Ne.symm hab)] at hb
  simp only [submatrix_apply, id] at ha hb
  have : (∑ j, G (s a) j * N j a) = c * ∑ j, G (s b) j * N j a := by
    rw [Finset.mul_sum]
    exact Finset.sum_congr rfl (fun j _ => by rw [hrow j]; ring)
  rw [this, hb, mul_zero] at ha
  exact zero_ne_one ha

/-- For a systematic generator only the square blocks below the identity have to
be inspected: `T` collects the unknown columns, `R` the parity rows in use. -/
theorem isMDS_of_systematic [DecidableEq ι] {G : Matrix ι κ K} (t : κ ↪ ι)
    (ht : ∀ i j, G (t i) j = if i = j then 1 else 0)
    (hblock : ∀ (T : Finset κ) (R : Finset ι), R.card = T.card → (∀ r ∈ R, ∀ i, t i ≠ r) →
      ∀ v : κ → K, (∀ r ∈ R, ∑ j ∈ T, G r j * v j = 0) → ∀ j ∈ T, v j = 0) :
    IsMDS G := by
  rw [isMDS_iff_kernel]
  intro s v hv
  let A : Finset κ := Finset.univ.filter fun j => ∃ i, s i = t j
  let R : Finset ι := (Finset.univ.map s).filter fun r => ∀ j, t j ≠ r
  have hknown (j : κ) (hj : j ∈ A) : v j = 0 := by
    obtain ⟨i, hi⟩ := (Finset.mem_filter.mp hj).2
    have hz := hv i
    rw [hi] at hz
    simpa [mulVec, dotProduct, ht] using hz
  have hsplit : (Finset.univ.map s).filter (fun r => ¬∀ j, t j ≠ r) = A.map t := by
    ext r
    simp only [A, Finset.mem_filter, Finset.mem_map, Finset.mem_univ, true_and, not_forall,
      not_not]
    constructor
    · rintro ⟨⟨i, rfl⟩, j, hj⟩
      exact ⟨j, ⟨i, hj.symm⟩, hj⟩
    · rintro ⟨j, ⟨i, hi⟩, rfl⟩
      exact ⟨⟨i, hi⟩, j, rfl⟩
  have hcard : R.card = Aᶜ.card := by
    have h := Finset.card_filter_add_card_filter_not (s := Finset.univ.map s)
      (fun r => ∀ j, t j ≠ r)
    rw [hsplit, Finset.card_map, Finset.card_map, Finset.card_univ] at h
    have hc := Finset.card_compl A
    have hle := Finset.card_le_univ A
    change R.card + A.card = _ at h
    omega
  have hrows : ∀ r ∈ R, ∑ j ∈ Aᶜ, G r j * v j = 0 := by
    intro r hr
    obtain ⟨hr, -⟩ := Finset.mem_filter.mp hr
    obtain ⟨i, -, rfl⟩ := Finset.mem_map.mp hr
    rw [← hv i]
    change _ = ∑ j, G (s i) j * v j
    apply Finset.sum_subset (Finset.subset_univ _)
    intro j _ hj
    rw [hknown j (by simpa using hj), mul_zero]
  have hrest := hblock Aᶜ R hcard (fun r hr i => (Finset.mem_filter.mp hr).2 i) v hrows
  funext j
  by_cases hj : j ∈ A
  · exact hknown j hj
  · exact hrest j (by simpa using hj)

end Mds

section Generators

variable {K : Type*} [Field K]

/-- The row of the evaluation point `x`: the powers of a finite point, the top
coefficient for the point at infinity. -/
def evalRow (k : Nat) (x : Option K) (j : Fin k) : K :=
  match x with
  | some a => a ^ (j : Nat)
  | none => if (j : Nat) + 1 = k then 1 else 0

private theorem coeff_sum_fin {k : Nat} (v : Fin k → K) (m : Nat) :
    (∑ j : Fin k, C (v j) * X ^ (j : Nat)).coeff m = if h : m < k then v ⟨m, h⟩ else 0 := by
  rw [finsetSum_coeff]
  simp only [coeff_C_mul_X_pow]
  split_ifs with h
  · rw [Finset.sum_eq_single ⟨m, h⟩]
    · simp
    · intro b _ hb
      rw [if_neg]
      intro hm
      exact hb (Fin.ext hm.symm)
    · simp
  · apply Finset.sum_eq_zero
    intro j _
    rw [if_neg]
    have := j.isLt
    omega

/-- Distinct evaluation points, infinity included, give an MDS generator. -/
theorem isMDS_evalRow {ι : Type*} (k : Nat) (x : ι → Option K) (hx : Function.Injective x) :
    IsMDS (Matrix.of fun (r : ι) (j : Fin k) => evalRow k (x r) j) := by
  classical
  rw [isMDS_iff_kernel]
  intro s v hv
  let p : K[X] := ∑ j : Fin k, C (v j) * X ^ (j : Nat)
  let S : Finset (Fin k) := Finset.univ.filter fun i => (x (s i)).isSome
  let y : Fin k → K := fun i => (x (s i)).getD 0
  have hy {i : Fin k} (hi : i ∈ S) : x (s i) = some (y i) := by
    obtain ⟨a, ha⟩ := Option.isSome_iff_exists.mp (Finset.mem_filter.mp hi).2
    simp [y, ha]
  have hinj : Set.InjOn y S := by
    intro a ha b hb hab
    apply s.injective
    apply hx
    rw [hy ha, hy hb, hab]
  have heval : ∀ i ∈ S, p.eval (y i) = 0 := by
    intro i hi
    rw [← hv i]
    simp only [p, eval_finsetSum, eval_mul, eval_C, eval_pow, eval_X]
    change _ = ∑ j : Fin k, evalRow k (x (s i)) j * v j
    rw [hy hi]
    exact Finset.sum_congr rfl (fun j _ => mul_comm _ _)
  -- A missing finite point means that infinity was chosen and the top coefficient vanishes.
  have hdeg : p.degree < S.card := by
    rw [degree_lt_iff_coeff_zero]
    intro m hm
    rw [coeff_sum_fin]
    split_ifs with hk
    · obtain ⟨i, hi⟩ : ∃ i, i ∉ S := by
        by_contra hall
        have hu : S = Finset.univ := by
          ext i
          simp only [Finset.mem_univ, iff_true]
          by_contra hi
          exact hall ⟨i, hi⟩
        rw [hu, Finset.card_univ, Fintype.card_fin] at hm
        omega
      have hnone : x (s i) = none := by
        simpa [S] using hi
      have hothers : ∀ i', i' ∉ S → i' = i := by
        intro i' hi'
        apply s.injective
        apply hx
        rw [hnone]
        simpa [S] using hi'
      have hcard : k ≤ S.card + 1 := by
        have hsub : Finset.univ ⊆ insert i S := by
          intro i' _
          by_cases hi' : i' ∈ S
          · exact Finset.mem_insert_of_mem hi'
          · rw [hothers i' hi']; exact Finset.mem_insert_self _ _
        have h := Finset.card_le_card hsub
        rw [Finset.card_univ, Fintype.card_fin] at h
        exact h.trans (Finset.card_insert_le _ _)
      have hz := hv i
      have hm' : m + 1 = k := by omega
      simp only [mulVec, dotProduct, of_apply, hnone, evalRow] at hz
      rw [Finset.sum_eq_single ⟨m, hk⟩] at hz
      · simpa [hm'] using hz
      · intro b _ hb
        rw [if_neg, zero_mul]
        intro hb'
        apply hb
        apply Fin.ext
        change (b : Nat) = m
        omega
      · simp
    · rfl
  have hp : p = 0 := eq_zero_of_degree_lt_of_eval_index_eq_zero S hinj hdeg heval
  funext j
  have hc := coeff_sum_fin v j
  rw [dif_pos j.isLt] at hc
  change p.coeff j = v j at hc
  rw [← hc, hp]
  simp

/-- The Cauchy argument: a combination of as many reciprocals `1/(x - y)` as it
has zeros is trivial. -/
theorem cauchy_kernel {κ : Type*} [DecidableEq κ] (T : Finset κ) (y v : κ → K)
    (hy : Set.InjOn y T) (R : Finset K) (hcard : R.card = T.card)
    (hne : ∀ x ∈ R, ∀ j ∈ T, x - y j ≠ 0)
    (hzero : ∀ x ∈ R, ∑ j ∈ T, (x - y j)⁻¹ * v j = 0) : ∀ j ∈ T, v j = 0 := by
  let p : K[X] := ∑ j ∈ T, C (v j) * ∏ i ∈ T.erase j, (X - C (y i))
  have hdeg : p.degree < R.card := by
    apply lt_of_le_of_lt (degree_sum_le _ _)
    rw [Finset.sup_lt_iff (by exact WithBot.bot_lt_coe _)]
    intro j hj
    have hprod : (∏ i ∈ T.erase j, (X - C (y i))).degree = ((T.erase j).card : WithBot Nat) := by
      rw [degree_prod]
      simp
    have hle : (C (v j) * ∏ i ∈ T.erase j, (X - C (y i))).degree ≤
        ((T.erase j).card : WithBot Nat) := by
      rw [← hprod]
      exact (degree_mul_le _ _).trans (by simpa using add_le_add_left degree_C_le _)
    refine lt_of_le_of_lt hle ?_
    rw [hcard, Finset.card_erase_of_mem hj]
    have hpos : 0 < T.card := Finset.card_pos.mpr ⟨j, hj⟩
    exact_mod_cast Nat.sub_lt hpos one_pos
  have heval : ∀ x ∈ R, p.eval x = 0 := by
    intro x hx
    have hterm : ∀ j ∈ T, v j * ∏ i ∈ T.erase j, (x - y i) =
        (∏ i ∈ T, (x - y i)) * ((x - y j)⁻¹ * v j) := by
      intro j hj
      rw [← Finset.mul_prod_erase T (fun i => x - y i) hj]
      field_simp [hne x hx j hj]
    have hsum : p.eval x = ∑ j ∈ T, v j * ∏ i ∈ T.erase j, (x - y i) := by
      simp [p, eval_finsetSum, eval_prod]
    rw [hsum, Finset.sum_congr rfl hterm, ← Finset.mul_sum, hzero x hx, mul_zero]
  have hp : p = 0 := eq_zero_of_degree_lt_of_eval_finset_eq_zero R hdeg heval
  intro j hj
  have hev : p.eval (y j) = v j * ∏ i ∈ T.erase j, (y j - y i) := by
    simp only [p, eval_finsetSum, eval_mul, eval_C, eval_prod, eval_sub, eval_X]
    apply Finset.sum_eq_single_of_mem j hj
    intro b hb hbj
    rw [Finset.prod_eq_zero (Finset.mem_erase.mpr ⟨Ne.symm hbj, hj⟩) (sub_self _), mul_zero]
  rw [hp, eval_zero] at hev
  apply (mul_eq_zero.mp hev.symm).resolve_right
  change _ ≠ 0
  rw [Finset.prod_ne_zero_iff]
  intro i hi
  obtain ⟨hij, hi⟩ := Finset.mem_erase.mp hi
  exact sub_ne_zero.mpr (fun h => hij (hy hj hi h).symm)

end Generators

end ErasureCodec
