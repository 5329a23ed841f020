import ErasureCodec.Codec.Jerasure

namespace ErasureCodec

open CodecField

inductive CodecFamily where
  | classic
  | leopardGF8
  | leopardGF16
  deriving Repr, DecidableEq

inductive LeopardMode where
  | disabled
  | asNeeded
  | preferGF16
  | preferLeopard
  deriving Repr, DecidableEq

inductive MatrixMode where
  | vandermonde
  | cauchy
  | jerasureLike
  | custom
  deriving Repr, DecidableEq

structure CodecOptions where
  fastOneParity : Bool := false
  inversionCache : Bool := true
  inversionCacheCapacity : Nat := 0
  inversionCacheMaxBytes : Nat := 0
  codecFamily : CodecFamily := .classic
  leopardMode : LeopardMode := .disabled
  matrixMode : MatrixMode := .vandermonde
  maxParallelJobs : Nat := 0
  deriving Repr, DecidableEq

/-- The effective encoding format; equality is that of the source, which
compares shapes and coefficients. -/
structure EncodingFormat (E : Type) where
  dataShards : Nat
  parityShards : Nat
  family : CodecFamily
  matrix : CodingMatrix E
  deriving DecidableEq

structure ExecutionOptions where
  fastOneParity : Bool
  inversionCache : Bool
  inversionCacheCapacity : Nat
  inversionCacheMaxBytes : Nat
  maxParallelJobs : Nat
  deriving Repr, DecidableEq

/-- A codec without its inverse cache, which is a state of its own. -/
structure ReedSolomon (E : Type) where
  format : EncodingFormat E
  options : ExecutionOptions

namespace ReedSolomon

variable {E : Type}

def dataShardCount (codec : ReedSolomon E) : Nat := codec.format.dataShards

def parityShardCount (codec : ReedSolomon E) : Nat := codec.format.parityShards

def totalShardCount (codec : ReedSolomon E) : Nat :=
  codec.format.dataShards + codec.format.parityShards

def isLeopardFamily (codec : ReedSolomon E) : Bool := codec.format.family != .classic

def fastOneParityEnabled (codec : ReedSolomon E) : Bool :=
  codec.options.fastOneParity && codec.parityShardCount == 1

theorem totalShardCount_eq (codec : ReedSolomon E) :
    codec.totalShardCount = codec.dataShardCount + codec.parityShardCount := rfl

end ReedSolomon

section Leopard

variable (E : Type) [CodecField E]

def leopardGf8MaxShards : Nat := 256

def leopardGf16MaxShards : Nat := 65536

def leopardGf8MaxParity : Nat := 128

def isByteField : Bool := order E == 256 && asGf8Slice E && asGf8SliceMut E

def resolveCodecFamily (requested : CodecFamily) (mode : LeopardMode) (byteField : Bool)
    (totalShards parityShards : Nat) : CodecFamily :=
  if requested ≠ .classic ∨ byteField = false then requested
  else match mode with
    | .disabled => .classic
    | .asNeeded => if totalShards ≤ leopardGf8MaxShards then .classic else .leopardGF16
    | .preferGF16 => .leopardGF16
    | .preferLeopard =>
      if totalShards ≤ leopardGf8MaxShards ∧ parityShards ≤ leopardGf8MaxParity then .leopardGF8
      else .leopardGF16

def maxTotalShardsForFamily : CodecFamily → Nat
  | .classic => order E
  | .leopardGF8 => leopardGf8MaxShards
  | .leopardGF16 => leopardGf16MaxShards

def leopardShardComboFits (dataShards parityShards limit : Nat) : Bool :=
  let m := Nat.nextPowerOfTwo parityShards
  if usizeLimit ≤ m then false
  else if dataShards = 0 ∨ parityShards = 0 ∨ m = 0 ∨ m > limit then false
  else
    let roundedData := (dataShards + m - 1) / m * m
    if usizeLimit ≤ roundedData then false else roundedData ≤ limit - m

/-- The Leopard preconditions of a little-endian target. -/
def validateLeopardFamily (family : CodecFamily) (dataShards parityShards : Nat) :
    Outcome Error Unit :=
  match family with
  | .classic => .ok ()
  | .leopardGF8 =>
    if isByteField E = false then .err .unsupportedCodecFamily
    else if leopardShardComboFits dataShards parityShards leopardGf8MaxShards then .ok ()
    else .err .tooManyShards
  | .leopardGF16 =>
    if isByteField E = false then .err .unsupportedCodecFamily
    else if leopardShardComboFits dataShards parityShards leopardGf16MaxShards then .ok ()
    else .err .tooManyShards

end Leopard

section CacheSizing

def defaultInversionCacheMaxBytes : Nat := 8 * 1024 * 1024

def dataDecodeMatrixCacheMinCapacity : Nat := 128

def dataDecodeMatrixCacheMaxCapacity : Nat := 4096

/-- `usize` arithmetic that stops at the largest value. -/
def saturate (n : Nat) : Nat := min n (usizeLimit - 1)

def deriveInversionCacheCapacity (dataShards parityShards : Nat) : Nat :=
  let totalShards := saturate (dataShards + parityShards)
  let heuristic := saturate (saturate (totalShards * max parityShards 1) * 2)
  let power := Nat.nextPowerOfTwo heuristic
  let rounded := if usizeLimit ≤ power then dataDecodeMatrixCacheMaxCapacity else power
  max dataDecodeMatrixCacheMinCapacity (min rounded dataDecodeMatrixCacheMaxCapacity)

def normalizeInversionCacheCapacity (dataShards parityShards requestedCapacity : Nat) : Nat :=
  if requestedCapacity > 0 then requestedCapacity
  else deriveInversionCacheCapacity dataShards parityShards

def normalizeInversionCacheMaxBytes (requestedBytes : Nat) : Nat :=
  if requestedBytes = 0 then defaultInversionCacheMaxBytes else requestedBytes

end CacheSizing

section Constructors

variable {E : Type} [CodecField E] [DecidableEq E]

def CodecOptions.toExecution (options : CodecOptions) (dataShards parityShards : Nat) :
    ExecutionOptions where
  fastOneParity := options.fastOneParity
  inversionCache := options.inversionCache
  inversionCacheCapacity :=
    normalizeInversionCacheCapacity dataShards parityShards options.inversionCacheCapacity
  inversionCacheMaxBytes := normalizeInversionCacheMaxBytes options.inversionCacheMaxBytes
  maxParallelJobs := options.maxParallelJobs

def buildMatrixWithOptions (dataShards totalShards : Nat) (options : CodecOptions) :
    Outcome Error (CodingMatrix E) :=
  if options.codecFamily ≠ .classic then .err .unsupportedCodecFamily
  else if options.fastOneParity ∧ totalShards = dataShards + 1 ∧ options.matrixMode ≠ .custom then
    .ok (buildFastOneParityMatrix dataShards totalShards)
  else match options.matrixMode with
    | .vandermonde => buildMatrix dataShards totalShards
    | .cauchy => buildCauchyMatrix dataShards totalShards
    | .jerasureLike => buildJerasureLikeMatrix dataShards totalShards
    | .custom => .err .invalidCustomMatrix

/-- The matrix a codec stores; the Leopard families keep an empty one. -/
def buildFamilyMatrix (dataShards totalShards : Nat) (options : CodecOptions) :
    Outcome Error (CodingMatrix E) :=
  match options.codecFamily with
  | .classic => buildMatrixWithOptions dataShards totalShards options
  | .leopardGF8 | .leopardGF16 => .ok (CodingMatrix.new 0 0)

namespace ReedSolomon

def withOptions (dataShards parityShards : Nat) (options : CodecOptions) :
    Outcome Error (ReedSolomon E) :=
  if dataShards = 0 then .err .tooFewDataShards
  else if parityShards = 0 then .err .tooFewParityShards
  else
    let totalShards := dataShards + parityShards
    if usizeLimit ≤ totalShards then .err .tooManyShards
    else
      let family := resolveCodecFamily options.codecFamily options.leopardMode (isByteField E)
        totalShards parityShards
      if totalShards > maxTotalShardsForFamily E family then .err .tooManyShards
      else do
        validateLeopardFamily E family dataShards parityShards
        let matrix ← buildFamilyMatrix dataShards totalShards { options with codecFamily := family }
        pure
          { format := ⟨dataShards, parityShards, family, matrix⟩
            options := options.toExecution dataShards parityShards }

def withCustomMatrix (dataShards parityShards : Nat) (customMatrix : List (List E))
    (options : CodecOptions) : Outcome Error (ReedSolomon E) :=
  if dataShards = 0 then .err .tooFewDataShards
  else if parityShards = 0 then .err .tooFewParityShards
  else
    let totalShards := dataShards + parityShards
    if usizeLimit ≤ totalShards then .err .tooManyShards
    else if totalShards > order E then .err .tooManyShards
    else if options.codecFamily ≠ .classic then .err .unsupportedCodecFamily
    else do
      let matrix ← buildCustomMatrix dataShards totalShards customMatrix
      if options.fastOneParity ∧ parityShards = 1 ∧ (matrix.getRow dataShards).any (· ≠ one) then
        .err .invalidCustomMatrix
      else
        pure
          { format := ⟨dataShards, parityShards, options.codecFamily, matrix⟩
            options := options.toExecution dataShards parityShards }

/-- A codec of the Classic family, as one of the two constructors returns it. -/
def IsClassic (codec : ReedSolomon E) : Prop :=
  codec.format.family = .classic ∧
    ((∃ dataShards parityShards options, withOptions dataShards parityShards options = .ok codec) ∨
      ∃ dataShards parityShards customMatrix options,
        withCustomMatrix dataShards parityShards customMatrix options = .ok codec)

/-- What every Classic codec carries. -/
structure ClassicInv (codec : ReedSolomon E) : Prop where
  family_eq : codec.format.family = .classic
  data_pos : 0 < codec.dataShardCount
  parity_pos : 0 < codec.parityShardCount
  total_le : codec.totalShardCount ≤ order E
  rowCount_eq : codec.format.matrix.rowCount = codec.totalShardCount
  colCount_eq : codec.format.matrix.colCount = codec.dataShardCount
  systematic : codec.format.matrix.Systematic codec.dataShardCount
  fast_ones : codec.fastOneParityEnabled = true → ∀ c, c < codec.dataShardCount →
    codec.format.matrix.get codec.dataShardCount c = one

omit [DecidableEq E] in
theorem ClassicInv.isLeopardFamily_eq {codec : ReedSolomon E} (h : codec.ClassicInv) :
    codec.isLeopardFamily = false := by
  rw [isLeopardFamily, h.family_eq]
  rfl

end ReedSolomon

end Constructors

section Invariant

variable {E : Type} [CodecField E] [LawfulField E] [DecidableEq E]

/-- Whatever matrix a constructor accepts has the codec's shape under an identity,
and ones in the parity row of the fast mode. -/
theorem buildMatrixWithOptions_shape {k n : Nat} (hk : 0 < k) (hkn : k < n) (hn : n ≤ order E)
    {options : CodecOptions} {m : CodingMatrix E}
    (hm : buildMatrixWithOptions k n options = .ok m) :
    m.rowCount = n ∧ m.colCount = k ∧ m.Systematic k ∧
      (options.fastOneParity = true → n = k + 1 → ∀ c, c < k → m.get k c = one) := by
  unfold buildMatrixWithOptions at hm
  split_ifs at hm with h1 h2
  · obtain ⟨-, rfl, -⟩ := h2
    obtain rfl := Outcome.ok.inj hm
    have hgen := buildFastOneParityMatrix_spec (E := E) k
    refine ⟨hgen.rowCount_eq, hgen.colCount_eq, hgen.systematic, fun _ _ c hc => ?_⟩
    rw [(buildFastOneParityMatrix_entries k).2.2 k c (Nat.lt_succ_self k) hc, if_pos (Or.inl rfl)]
  · have hslow (hmode : options.matrixMode ≠ .custom) (hfast : options.fastOneParity = true)
        (hone : n = k + 1) : False := h2 ⟨hfast, hone, hmode⟩
    cases hmode : options.matrixMode with
    | vandermonde =>
      rw [hmode] at hm
      obtain ⟨m', hm', hgen⟩ := buildMatrix_spec (E := E) hkn.le hn
      obtain rfl := Outcome.ok.inj (hm'.symm.trans hm)
      exact ⟨hgen.rowCount_eq, hgen.colCount_eq, hgen.systematic,
        fun hf h1 => (hslow (by rw [hmode]; decide) hf h1).elim⟩
    | cauchy =>
      rw [hmode] at hm
      obtain ⟨m', hm', hgen⟩ := buildCauchyMatrix_spec (E := E) hkn.le hn
      obtain rfl := Outcome.ok.inj (hm'.symm.trans hm)
      exact ⟨hgen.rowCount_eq, hgen.colCount_eq, hgen.systematic,
        fun hf h1 => (hslow (by rw [hmode]; decide) hf h1).elim⟩
    | jerasureLike =>
      rw [hmode] at hm
      have hsat := buildJerasureLikeMatrix_sat (E := E) hk hkn
      rw [show buildJerasureLikeMatrix k n = .ok m from hm] at hsat
      obtain ⟨hst, hunit, -, -⟩ := hsat
      exact ⟨hst.rowCount_eq, hst.colCount_eq, hunit,
        fun hf h1 => (hslow (by rw [hmode]; decide) hf h1).elim⟩
    | custom =>
      rw [hmode] at hm
      cases hm

namespace ReedSolomon

variable {codec : ReedSolomon E}

theorem classicInv_withOptions {dataShards parityShards : Nat} {options : CodecOptions}
    (h : withOptions dataShards parityShards options = .ok codec)
    (hfamily : codec.format.family = .classic) : codec.ClassicInv := by
  simp only [withOptions] at h
  split_ifs at h with hd hp hmax htotal
  obtain ⟨-, -, h⟩ := Outcome.bind_eq_ok.mp h
  obtain ⟨matrix, hmatrix, h⟩ := Outcome.bind_eq_ok.mp h
  obtain rfl := Outcome.ok.inj h
  simp only at hfamily
  rw [hfamily] at hmatrix htotal
  simp only [buildFamilyMatrix] at hmatrix
  have hle : dataShards + parityShards ≤ order E := not_lt.mp htotal
  obtain ⟨hr, hc, hsys, hfast⟩ := buildMatrixWithOptions_shape (by omega) (by omega) hle hmatrix
  refine ⟨hfamily, Nat.pos_of_ne_zero hd, Nat.pos_of_ne_zero hp, hle, hr, hc, hsys, ?_⟩
  intro hf
  simp only [fastOneParityEnabled, Bool.and_eq_true, beq_iff_eq] at hf
  exact hfast hf.1 (congrArg (dataShards + ·) hf.2)

omit [LawfulField E] in
theorem classicInv_withCustomMatrix {dataShards parityShards : Nat} {rows : List (List E)}
    {options : CodecOptions}
    (h : withCustomMatrix dataShards parityShards rows options = .ok codec) :
    codec.ClassicInv := by
  simp only [withCustomMatrix] at h
  split_ifs at h with hd hp hmax htotal hfamily
  obtain ⟨matrix, hmatrix, h⟩ := Outcome.bind_eq_ok.mp h
  split_ifs at h with hfast
  obtain rfl := Outcome.ok.inj h
  obtain ⟨hr, hc, hsys, -⟩ := buildCustomMatrix_spec (by omega) rows matrix hmatrix
  refine ⟨not_not.mp hfamily, Nat.pos_of_ne_zero hd, Nat.pos_of_ne_zero hp, not_lt.mp htotal, hr,
    hc, hsys, ?_⟩
  intro hf c hcd
  simp only [fastOneParityEnabled, Bool.and_eq_true, beq_iff_eq] at hf
  change options.fastOneParity = true ∧ parityShards = 1 at hf
  change c < dataShards at hcd
  change matrix.get dataShards c = one
  by_contra hne
  have hrow := matrix.length_getRow (r := dataShards) (by omega)
  refine hfast ⟨hf.1, hf.2, List.any_eq_true.mpr ⟨matrix.get dataShards c, ?_, by simpa using hne⟩⟩
  rw [← matrix.getD_getRow (by omega) zero (by omega),
    List.getD_eq_getElem _ _ (by omega)]
  exact List.getElem_mem _

/-- The constructors only return codecs that satisfy the invariant. -/
theorem IsClassic.inv (h : codec.IsClassic) : codec.ClassicInv := by
  obtain ⟨hfamily, ⟨_, _, _, h⟩ | ⟨_, _, _, _, h⟩⟩ := h
  · exact classicInv_withOptions h hfamily
  · exact classicInv_withCustomMatrix h

end ReedSolomon

/-- A codec of two data and two parity shards for checks on fixed inputs. -/
def sampleCodec : ReedSolomon Galois8 where
  format := ⟨2, 2, .classic, ⟨4, 2, [1#8, 0#8, 0#8, 1#8, 1#8, 1#8, 1#8, 2#8], rfl⟩⟩
  options := CodecOptions.toExecution {} 2 2

/-- A codeword of `sampleCodec`. -/
def sampleShards : List (List Galois8) := [[1#8], [2#8], [3#8], [5#8]]

theorem sampleCodec_isClassic : sampleCodec.IsClassic :=
  ⟨rfl, .inr ⟨2, 2, [[1#8, 1#8], [1#8, 2#8]], {}, by rfl⟩⟩

end Invariant

end ErasureCodec
