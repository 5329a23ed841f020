import ErasureCodec.Codec.RoundTrip
import ErasureCodec.Field.TowerSlices

namespace ErasureCodec

open CodecField

/-- A field without byte paths, with slice products of its own. -/
abbrev CodecField.withSlices {E : Type} (F : CodecField E)
    (mulSlice mulSliceAdd : E → List E → List E → List E) : CodecField E :=
  { F with
    asGf8Slice := false
    asGf8SliceMut := false
    mulSlice := mulSlice
    mulSliceAdd := mulSliceAdd }

namespace ReedSolomon

section Slices

variable {E : Type} (F : CodecField E) (f g f' g' : E → List E → List E → List E)

/-- Without byte paths no construction multiplies slices. -/
theorem withOptions_withSlices [DecidableEq E] (data parity : Nat) (options : CodecOptions) :
    @withOptions E (F.withSlices f g) _ data parity options =
      @withOptions E (F.withSlices f' g') _ data parity options := rfl

theorem parityProduct_withSlices (h : @LawfulField E (F.withSlices f g))
    (h' : @LawfulField E (F.withSlices f' g')) (codec : ReedSolomon E) (data : List (List E))
    (len : Nat) : @parityProduct E (F.withSlices f g) h codec data len =
      @parityProduct E (F.withSlices f' g') h' codec data len := rfl

end Slices

section Machines

variable (machine machine' : Galois16.TowerMachine)

/-- Two machines build one codec of the tower field. -/
theorem withOptions_machine (data parity : Nat) (options : CodecOptions) :
    (withOptions data parity options : Outcome Error (ReedSolomon (Galois16 machine))) =
      (withOptions data parity options : Outcome Error (ReedSolomon (Galois16 machine'))) :=
  withOptions_withSlices (E := Galois16 machine) inferInstance (Galois16.mulSlice machine)
    (Galois16.mulSliceAdd machine) (Galois16.mulSlice machine') (Galois16.mulSliceAdd machine') data
    parity options

theorem parityProduct_machine (codec : ReedSolomon (Galois16 machine))
    (data : List (List (Galois16 machine))) (len : Nat) : codec.parityProduct data len =
      parityProduct (E := Galois16 machine') codec data len :=
  parityProduct_withSlices (E := Galois16 machine) inferInstance (Galois16.mulSlice machine)
    (Galois16.mulSliceAdd machine) (Galois16.mulSlice machine') (Galois16.mulSliceAdd machine')
    inferInstance (inferInstanceAs (LawfulField (Galois16 machine'))) codec data len

theorem nth_tower_ne_zero {n : Nat} (h0 : 0 < n) (h : n < order (Galois16 machine)) :
    (nth n : Galois16 machine) ≠ zero := by
  have hzero : (nth 0 : Galois16 machine) = zero := rfl
  intro heq
  have hn := nth_injOn h (h0.trans h) (heq.trans hzero.symm)
  omega

theorem exists_towerCodec {data parity : Nat} {options : CodecOptions} (hd : 0 < data)
    (hp : 0 < parity) (ht : data + parity ≤ Galois16.Element.order)
    (hfamily : options.codecFamily = .classic) (hmode : options.matrixMode ≠ .custom) :
    ∃ codec : ReedSolomon (Galois16 machine), withOptions data parity options = .ok codec ∧
      codec.format.family = .classic ∧
      IsMDS (codec.format.matrix.toMatrix codec.totalShardCount codec.dataShardCount) := by
  have hpoints (r : Nat) (h0 : 0 < r) (hr : r + 1 < data + parity) :
      (nth r : Galois16 machine) ≠ zero := by
    apply nth_tower_ne_zero machine h0
    change r < Galois16.Element.order
    omega
  have hclassic : resolveCodecFamily options.codecFamily options.leopardMode
      (isByteField (Galois16 machine)) (data + parity) parity = .classic := by
    rw [hfamily]
    rfl
  have hwith := withOptions_classic (E := Galois16 machine) hd hp ht hclassic
  let classic : CodecOptions := { options with codecFamily := .classic }
  have hmode' : classic.matrixMode ≠ .custom := hmode
  obtain ⟨m, hbuild, hmds⟩ := (buildMatrixWithOptions_isMDS_iff hd hp ht rfl hmode').mpr
    (.inr (.inr (.inr hpoints)))
  rw [hbuild, Outcome.ok_bind] at hwith
  exact ⟨_, hwith, rfl, hmds⟩

variable {machine machine'} [CachePlatform (Galois16 machine')]

/-- Shards encoded by a codec of one machine, with any lost up to the parity count, are all
given back by a codec of another, through any cache. -/
def RestoredBy (codec : ReedSolomon (Galois16 machine)) (codec' : ReedSolomon (Galois16 machine')) :
    Prop :=
  ∀ (cache : InversionCache (Galois16 machine')) (len : Nat)
    (data parity : List (List Galois16.Element)) (erased : Finset Nat),
    codec'.CacheReachable cache → 0 < len → Grid codec.dataShardCount len data →
    Grid codec.parityShardCount len parity → erased.card ≤ codec.parityShardCount →
    (∀ i ∈ erased, i < codec.totalShardCount) →
    ∃ encoded : List (List Galois16.Element),
      codec.encode (data ++ parity) = (.ok (), encoded) ∧
      encoded.take codec.dataShardCount = data ∧
      (codec'.reconstruct cache (erase (E := Galois16 machine') erased encoded)).1 =
        (.ok (), encoded.map some)

variable [LawfulPlatform (Galois16 machine')]

end Machines

section Sample

variable {machine : Galois16.TowerMachine}

/-- Two bytes an element, stored inline up to 1024 elements. -/
instance : CachePlatform (Galois16 machine) where
  lru := listLru (List Nat) (CachedMatrix (Galois16 machine))
  keyCapacity key := key.length
  matrixBytes m := 2080 + if m.data.length > 1024 then 2 * m.data.length else 0

instance : LawfulPlatform (Galois16 machine) := ⟨listLru_lawful _ _⟩

end Sample

end ReedSolomon

end ErasureCodec
