import ErasureCodec.Codec.Construct
import ErasureCodec.Math.Blocks
import ErasureCodec.Math.Rounding

namespace ErasureCodec

open CodecField

/-- The validator's rule: the rounded data and one more group fit the points. -/
theorem leopardShardComboFits_iff {dataShards parityShards limit : Nat}
    (hlimit : limit < usizeLimit) :
    leopardShardComboFits dataShards parityShards limit = true ↔
      0 < dataShards ∧ 0 < parityShards ∧
        roundUp dataShards (Nat.nextPowerOfTwo parityShards) +
          Nat.nextPowerOfTwo parityShards ≤ limit := by
  obtain ⟨k, hk, -, -⟩ := nextPowerOfTwo_spec parityShards
  have hpos := Nat.two_pow_pos k
  unfold leopardShardComboFits roundUp
  simp only [hk]
  constructor
  · intro h
    split_ifs at h with h1 h2 h3
    have := of_decide_eq_true h
    omega
  · intro ⟨hd, hp, hle⟩
    rw [if_neg (by omega), if_neg (by omega), if_neg (by omega)]
    exact decide_eq_true (by omega)

/-- The rule with the group size given. -/
theorem leopardShardComboFits_of_pow {dataShards parityShards limit k : Nat}
    (hlimit : limit < usizeLimit) (hd : 0 < dataShards)
    (hpow : parityShards ≤ 2 ^ k ∧ 2 ^ k < 2 * parityShards)
    (hle : roundUp dataShards (2 ^ k) + 2 ^ k ≤ limit) :
    leopardShardComboFits dataShards parityShards limit = true := by
  rw [leopardShardComboFits_iff hlimit, nextPowerOfTwo_eq hpow.1 hpow.2]
  exact ⟨hd, by omega, hle⟩

section Selection

variable {E : Type} [CodecField E] {dataShards parityShards : Nat} {options : CodecOptions}

/-- The constructor returns a codec. -/
def Accepts (E : Type) [CodecField E] [DecidableEq E] (dataShards parityShards : Nat)
    (options : CodecOptions) : Prop :=
  ∃ codec : ReedSolomon E, ReedSolomon.withOptions dataShards parityShards options = .ok codec

/-- The options with an explicit family instead of a preference. -/
def CodecOptions.explicit (options : CodecOptions) (family : CodecFamily) : CodecOptions :=
  { options with codecFamily := family, leopardMode := .disabled }

/-- Some family that a preference stands for takes the shape. -/
def Servable (E : Type) [CodecField E] [DecidableEq E] (dataShards parityShards : Nat)
    (options : CodecOptions) : Prop :=
  match options.leopardMode with
  | .disabled => Accepts E dataShards parityShards (options.explicit .classic)
  | .asNeeded => Accepts E dataShards parityShards (options.explicit .classic) ∨
      (256 < dataShards + parityShards ∧
        Accepts E dataShards parityShards (options.explicit .leopardGF16))
  | .preferGF16 => Accepts E dataShards parityShards (options.explicit .leopardGF16)
  | .preferLeopard => Accepts E dataShards parityShards (options.explicit .leopardGF8) ∨
      Accepts E dataShards parityShards (options.explicit .leopardGF16)

/-- The family that the constructor settles on. -/
def resolvedFamily (E : Type) [CodecField E] (dataShards parityShards : Nat)
    (options : CodecOptions) : CodecFamily :=
  resolveCodecFamily options.codecFamily options.leopardMode (isByteField E)
    (dataShards + parityShards) parityShards

theorem resolvedFamily_explicit (family : CodecFamily) :
    resolvedFamily E dataShards parityShards (options.explicit family) = family := by
  unfold resolvedFamily resolveCodecFamily CodecOptions.explicit
  cases family <;> simp

/-- The validator of the Leopard families on a byte field. -/
theorem validateLeopardFamily_eq (hbyte : isByteField E = true) {family : CodecFamily}
    (hne : family ≠ .classic) :
    validateLeopardFamily E family dataShards parityShards =
      if leopardShardComboFits dataShards parityShards (maxTotalShardsForFamily E family) then
        .ok () else .err .tooManyShards := by
  cases family with
  | classic => exact absurd rfl hne
  | leopardGF8 =>
    simp only [validateLeopardFamily, hbyte, Bool.true_eq_false, if_false]
    rfl
  | leopardGF16 =>
    simp only [validateLeopardFamily, hbyte, Bool.true_eq_false, if_false]
    rfl

theorem maxTotalShards_lt {family : CodecFamily} (hne : family ≠ .classic) :
    maxTotalShardsForFamily E family < usizeLimit := by
  cases family with
  | classic => exact absurd rfl hne
  | leopardGF8 =>
    change 256 < usizeLimit
    decide
  | leopardGF16 =>
    change 65536 < usizeLimit
    decide

theorem order_of_isByteField (hbyte : isByteField E = true) : order E = 256 := by
  simp only [isByteField, Bool.and_eq_true, beq_iff_eq] at hbyte
  exact hbyte.1.1

variable [DecidableEq E]

/-- Construction depends on the preference only through the family. -/
theorem withOptions_explicit :
    (ReedSolomon.withOptions dataShards parityShards
      (options.explicit (resolvedFamily E dataShards parityShards options)) :
        Outcome Error (ReedSolomon E)) =
      ReedSolomon.withOptions dataShards parityShards options := by
  have hres : resolvedFamily E dataShards parityShards
      (options.explicit (resolvedFamily E dataShards parityShards options)) = _ :=
    resolvedFamily_explicit _
  simp only [resolvedFamily] at hres
  simp only [ReedSolomon.withOptions, resolvedFamily, hres]
  rfl

theorem accepts_explicit {family : CodecFamily}
    (hres : resolvedFamily E dataShards parityShards options = family) :
    Accepts E dataShards parityShards (options.explicit family) ↔
      Accepts E dataShards parityShards options := by
  unfold Accepts
  rw [← hres, withOptions_explicit]

/-- No codec has more shards than its family. -/
theorem Accepts.total_le (h : Accepts E dataShards parityShards options) :
    dataShards + parityShards ≤
      maxTotalShardsForFamily E (resolvedFamily E dataShards parityShards options) := by
  obtain ⟨codec, h⟩ := h
  simp only [ReedSolomon.withOptions] at h
  split_ifs at h with hd hp hmax htotal
  exact not_lt.mp htotal

/-- A Leopard codec is built exactly where the validator lets it pass. -/
theorem accepts_leopard_iff (hbyte : isByteField E = true) {family : CodecFamily}
    (hne : family ≠ .classic)
    (hres : resolvedFamily E dataShards parityShards options = family) :
    Accepts E dataShards parityShards options ↔
      0 < dataShards ∧ 0 < parityShards ∧
        roundUp dataShards (Nat.nextPowerOfTwo parityShards) + Nat.nextPowerOfTwo parityShards ≤
          maxTotalShardsForFamily E family := by
  obtain ⟨k, hk, hpar, -⟩ := nextPowerOfTwo_spec parityShards
  have hround := le_roundUp dataShards (Nat.two_pow_pos k)
  have hlimit := maxTotalShards_lt (E := E) hne
  rw [← leopardShardComboFits_iff hlimit]
  unfold resolvedFamily at hres
  simp only [Accepts, ReedSolomon.withOptions, hres, validateLeopardFamily_eq hbyte hne]
  constructor
  · intro haccepts
    obtain ⟨codec, h⟩ := haccepts
    split_ifs at h with hd hp hmax htotal hfits
    · exact hfits
    · cases h
  · intro hfits
    obtain ⟨hd, hp, hle⟩ := (leopardShardComboFits_iff hlimit).mp hfits
    rw [hk] at hle
    rw [if_neg (by omega), if_neg (by omega), if_neg (by omega), if_neg (by omega), if_pos hfits,
      Outcome.ok_bind]
    cases family with
    | classic => exact absurd rfl hne
    | leopardGF8 => exact ⟨_, rfl⟩
    | leopardGF16 => exact ⟨_, rfl⟩

/-- The shapes that `PreferLeopard` takes when GF8 is its choice. -/
theorem preferLeopard_small_iff (hbyte : isByteField E = true)
    (hfamily : options.codecFamily = .classic) (hmode : options.leopardMode = .preferLeopard)
    (hd : 0 < dataShards) (hp : 0 < parityShards) (htotal : dataShards + parityShards ≤ 256)
    (hparity : parityShards ≤ 128) :
    Servable E dataShards parityShards options ∧ (Accepts E dataShards parityShards options ↔
      roundUp dataShards (Nat.nextPowerOfTwo parityShards) +
        Nat.nextPowerOfTwo parityShards ≤ 256) := by
  have hres : resolvedFamily E dataShards parityShards options = .leopardGF8 := by
    unfold resolvedFamily resolveCodecFamily
    rw [if_neg (by simp [hfamily, hbyte]), hmode]
    exact if_pos ⟨htotal, hparity⟩
  have hgf16 : resolvedFamily E dataShards parityShards (options.explicit .leopardGF16) =
      .leopardGF16 := resolvedFamily_explicit _
  have hexplicit := accepts_leopard_iff hbyte (by decide) hgf16
  have haccepts := accepts_leopard_iff hbyte (by decide) hres
  obtain ⟨k, hk, hpar, hmin⟩ := nextPowerOfTwo_spec parityShards
  have hpow := Nat.pow_le_pow_right (n := 2) (by decide) (hmin 7 (by omega))
  have hround := roundUp_lt dataShards (Nat.two_pow_pos k)
  constructor
  · unfold Servable
    rw [hmode]
    apply Or.inr
    rw [hexplicit, hk]
    refine ⟨hd, hp, ?_⟩
    change _ ≤ 65536
    omega
  · rw [haccepts]
    exact ⟨fun h => h.2.2, fun h => ⟨hd, hp, h⟩⟩

/-- A preference rejects a shape it could serve exactly where GF8 is chosen by the
counts and the rounded data overflow its points. -/
theorem selection_serves_iff (hbyte : isByteField E = true)
    (hfamily : options.codecFamily = .classic) (hd : 0 < dataShards) (hp : 0 < parityShards) :
    (Servable E dataShards parityShards options → Accepts E dataShards parityShards options) ↔
      ¬(options.leopardMode = .preferLeopard ∧ dataShards + parityShards ≤ 256 ∧
        parityShards ≤ 128 ∧ 256 < roundUp dataShards (Nat.nextPowerOfTwo parityShards) +
          Nat.nextPowerOfTwo parityShards) := by
  have hserved {family : CodecFamily}
      (hres : resolvedFamily E dataShards parityShards options = family)
      (h : Accepts E dataShards parityShards (options.explicit family)) :
      Accepts E dataShards parityShards options := (accepts_explicit hres).mp h
  have hres : resolvedFamily E dataShards parityShards options =
      match options.leopardMode with
      | .disabled => .classic
      | .asNeeded => if dataShards + parityShards ≤ 256 then .classic else .leopardGF16
      | .preferGF16 => .leopardGF16
      | .preferLeopard => if dataShards + parityShards ≤ 256 ∧ parityShards ≤ 128 then .leopardGF8
          else .leopardGF16 := by
    unfold resolvedFamily resolveCodecFamily
    rw [if_neg (by simp [hfamily, hbyte])]
    rfl
  cases hmode : options.leopardMode with
  | disabled =>
    rw [hmode] at hres
    simp only [Servable, hmode, reduceCtorEq, false_and, not_false_iff, iff_true]
    exact hserved hres
  | preferGF16 =>
    rw [hmode] at hres
    simp only [Servable, hmode, reduceCtorEq, false_and, not_false_iff, iff_true]
    exact hserved hres
  | asNeeded =>
    simp only [hmode] at hres
    simp only [Servable, hmode, reduceCtorEq, false_and, not_false_iff, iff_true]
    intro h
    by_cases hle : dataShards + parityShards ≤ 256
    · rw [if_pos hle] at hres
      rcases h with h | ⟨hlarge, -⟩
      · exact hserved hres h
      · omega
    · rw [if_neg hle] at hres
      rcases h with h | ⟨-, h⟩
      · have htotal := h.total_le
        rw [resolvedFamily_explicit] at htotal
        change _ ≤ order E at htotal
        rw [order_of_isByteField hbyte] at htotal
        omega
      · exact hserved hres h
  | preferLeopard =>
    by_cases hsmall : dataShards + parityShards ≤ 256 ∧ parityShards ≤ 128
    · obtain ⟨hservable, haccepts⟩ :=
        preferLeopard_small_iff hbyte hfamily hmode hd hp hsmall.1 hsmall.2
      rw [haccepts]
      simp only [hservable, hsmall, true_and, true_imp_iff, not_lt]
    · simp only [hmode] at hres
      rw [if_neg hsmall] at hres
      have hcond : ¬(dataShards + parityShards ≤ 256 ∧ parityShards ≤ 128 ∧
          256 < roundUp dataShards (Nat.nextPowerOfTwo parityShards) +
            Nat.nextPowerOfTwo parityShards) := fun h => hsmall ⟨h.1, h.2.1⟩
      simp only [true_and, hcond, not_false_iff, iff_true, Servable, hmode]
      rintro (h | h)
      · -- GF8 takes no shape beyond the two bounds
        obtain ⟨k, hk, hpar, -⟩ := nextPowerOfTwo_spec parityShards
        have hround := le_roundUp dataShards (Nat.two_pow_pos k)
        have hfits := ((accepts_leopard_iff hbyte (by decide) (resolvedFamily_explicit _)).mp h).2.2
        rw [hk] at hfits
        change _ ≤ 256 at hfits
        have hmul := roundUp_pos hd (Nat.two_pow_pos k)
        omega
      · exact hserved hres h

theorem selection_serves_iff_galois8 :
    (Servable Galois8 200 33 { leopardMode := .preferLeopard } →
      Accepts Galois8 200 33 { leopardMode := .preferLeopard }) ↔
      ¬(LeopardMode.preferLeopard = .preferLeopard ∧ 200 + 33 ≤ 256 ∧ 33 ≤ 128 ∧
        256 < roundUp 200 (Nat.nextPowerOfTwo 33) + Nat.nextPowerOfTwo 33) :=
  selection_serves_iff (by decide) rfl (by decide) (by decide)

/-- 200 data shards round up to 256, which leaves no room for the 64 lanes of 33
parity shards. -/
theorem preferLeopard_rejects_200_33 :
    ¬(Servable Galois8 200 33 { leopardMode := .preferLeopard } →
      Accepts Galois8 200 33 { leopardMode := .preferLeopard }) := by
  intro h
  have hsmall : Servable Galois8 200 33 { leopardMode := .preferLeopard } ∧
      (Accepts Galois8 200 33 { leopardMode := .preferLeopard } ↔
        roundUp 200 (Nat.nextPowerOfTwo 33) + Nat.nextPowerOfTwo 33 ≤ 256) :=
    preferLeopard_small_iff (by decide) rfl rfl (by decide) (by decide) (by decide) (by decide)
  obtain ⟨hservable, haccepts⟩ := hsmall
  have hfits := haccepts.mp (h hservable)
  rw [nextPowerOfTwo_eq (n := 33) (k := 6) (by decide) (by decide)] at hfits
  exact absurd hfits (by decide)

end Selection

end ErasureCodec
