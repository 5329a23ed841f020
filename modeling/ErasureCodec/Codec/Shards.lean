import ErasureCodec.Codec.Encode

namespace ErasureCodec

open CodecField

/-- `ReconstructInitResult`: the buffer of a present shard, the buffer of one that
was just initialized, or an error. -/
inductive InitResult (E : Type) where
  | present (data : List E)
  | initialized (data : List E)
  | failed (e : Error)

/-- Container that may hold a shard. `store` is the write through the slice that
`getOrInitialize` borrowed, and `buffer` the storage owned whatever the flag says. -/
class ReconstructShard (E : outParam Type) (S : Type) where
  len : S → Option Nat
  get : S → Option (List E)
  getOrInitialize : Nat → S → InitResult E × S
  store : List E → S → S
  buffer : S → Option (List E)

/-- A reusable shard container that keeps its buffer when the shard is missing. -/
structure ShardSlot (T : Type) where
  data : T
  present : Bool
  deriving Repr, DecidableEq

section Instances

variable {E : Type} [CodecField E]

instance : ReconstructShard E (Option (List E)) where
  len shard := shard.map List.length
  get shard := shard
  getOrInitialize len
    | some x => (.present x, some x)
    | none => (.initialized (List.replicate len zero), some (List.replicate len zero))
  store x _ := some x
  buffer shard := shard

/-- A fixed buffer accepts its own length only and is marked present then. -/
def initFixedBuffer (data : List E) (present : Bool) (len : Nat) : InitResult E × Bool :=
  if data.length = len then
    if present then (.present data, true) else (.initialized data, true)
  else (.failed .incorrectShardSize, present)

instance : ReconstructShard E (List E × Bool) where
  len shard := if !shard.2 then none else some shard.1.length
  get shard := if !shard.2 then none else some shard.1
  getOrInitialize len shard :=
    let (result, present) := initFixedBuffer shard.1 shard.2 len
    (result, (shard.1, present))
  store x shard := (x, shard.2)
  buffer shard := some shard.1

instance : ReconstructShard E (ShardSlot (List E)) where
  len shard := if shard.present then some shard.data.length else none
  get shard := if shard.present then some shard.data else none
  getOrInitialize len shard :=
    let (result, present) := initFixedBuffer shard.data shard.present len
    (result, { shard with present })
  store x shard := { shard with data := x }
  buffer shard := some shard.data

end Instances

open ReconstructShard

/-- The contract of a container: its length is that of what it holds, and
initializing a missing one either refuses a buffer of the wrong length and leaves
it alone, or makes whatever is stored then present. -/
class LawfulShard {E : Type} (S : Type) [ReconstructShard E S] : Prop where
  len_eq : ∀ s : S, len s = (get s).map List.length
  init_missing : ∀ (s : S) (n : Nat), get s = none →
    (getOrInitialize n s = (.failed .incorrectShardSize, s) ∧
      ∃ x, buffer s = some x ∧ x.length ≠ n) ∨
    ∃ (x : List E) (s' : S), getOrInitialize n s = (.initialized x, s') ∧ x.length = n ∧
      ∀ bytes, bytes.length = n → get (store bytes s') = some bytes

section Lawful

variable {E : Type} [CodecField E]

instance : LawfulShard (Option (List E)) where
  len_eq _ := rfl
  init_missing s n h := by
    obtain rfl : s = none := h
    exact .inr ⟨_, _, rfl, List.length_replicate, fun _ _ => rfl⟩

instance : LawfulShard (List E × Bool) where
  len_eq s := by
    obtain ⟨data, present⟩ := s
    cases present <;> rfl
  init_missing s n h := by
    obtain ⟨data, present⟩ := s
    cases present with
    | true => cases h
    | false =>
      simp only [getOrInitialize, initFixedBuffer, Bool.false_eq_true, if_false]
      split_ifs with hlen
      · exact .inr ⟨data, (data, true), rfl, hlen, fun _ _ => rfl⟩
      · exact .inl ⟨rfl, data, rfl, hlen⟩

instance : LawfulShard (ShardSlot (List E)) where
  len_eq s := by
    obtain ⟨data, present⟩ := s
    cases present <;> rfl
  init_missing s n h := by
    obtain ⟨data, present⟩ := s
    cases present with
    | true => cases h
    | false =>
      simp only [getOrInitialize, initFixedBuffer, Bool.false_eq_true, if_false]
      split_ifs with hlen
      · exact .inr ⟨data, ⟨data, true⟩, rfl, hlen, fun _ _ => rfl⟩
      · exact .inl ⟨rfl, data, rfl, hlen⟩

end Lawful

section Publish

variable {E S : Type} [ReconstructShard E S]

/-- Hand `bytes` to one destination of the right length. -/
def recoverShard (n : Nat) (bytes : List E) (s : S) : Outcome Error S :=
  match getOrInitialize n s with
  | (.failed e, _) => .err e
  | (.present x, s') | (.initialized x, s') =>
    if x.length ≠ n then .err .incorrectShardSize else .ok (store bytes s')

/-- The purpose of the executors: the outputs are published one after the other,
and the first destination that refuses ends the call. -/
def publish (n : Nat) : List (Nat × List E) → List S → Outcome Error Unit × List S
  | [], shards => (.ok (), shards)
  | (index, bytes) :: rest, shards =>
    match shards[index]? with
    | none => (.panic, shards)
    | some s =>
      match recoverShard n bytes s with
      | .ok s' => publish n rest (shards.set index s')
      | .err e => (.err e, shards)
      | .panic => (.panic, shards)

/-- Only destinations are ever written. -/
theorem publish_frame (n : Nat) (targets : List (Nat × List E)) (shards : List S) (i : Nat)
    (hi : i ∉ targets.map Prod.fst) : (publish n targets shards).2[i]? = shards[i]? := by
  induction targets generalizing shards with
  | nil => rfl
  | cons t targets ih =>
    obtain ⟨index, bytes⟩ := t
    rw [List.map_cons, List.mem_cons, not_or] at hi
    simp only [publish]
    cases shards[index]? with
    | none => rfl
    | some s =>
      simp only
      cases recoverShard n bytes s with
      | ok s' =>
        simp only
        rw [ih _ hi.2, List.getElem?_set_ne (Ne.symm hi.1)]
      | err e => rfl
      | panic => rfl

variable [LawfulShard S]

/-- A missing destination accepts its bytes or refuses for its buffer length. -/
theorem recoverShard_missing {s : S} (h : get s = none) (n : Nat) {bytes : List E}
    (hb : bytes.length = n) :
    (∃ s', recoverShard n bytes s = .ok s' ∧ get s' = some bytes) ∨
      recoverShard n bytes s = .err .incorrectShardSize ∧
        ∃ x : List E, buffer s = some x ∧ x.length ≠ n := by
  unfold recoverShard
  rcases LawfulShard.init_missing s n h with ⟨hinit, hbuf⟩ | ⟨x, s', hinit, hx, hstore⟩
  · rw [hinit]
    exact .inr ⟨rfl, hbuf⟩
  · rw [hinit]
    refine .inl ⟨store bytes s', ?_, hstore bytes hb⟩
    simp [hx]

/-- What publishing leaves behind: a prefix of the targets holds its bytes and
everything else is untouched; stopping early is the next target's refusal. -/
theorem publish_spec {n : Nat} (targets : List (Nat × List E)) (shards : List S)
    (hnodup : (targets.map Prod.fst).Nodup)
    (hmissing : ∀ t ∈ targets, ∃ s, shards[t.1]? = some s ∧ get s = none)
    (hbytes : ∀ t ∈ targets, t.2.length = n) :
    ∃ done rest, targets = done ++ rest ∧
      (∀ t ∈ done, ∃ s s', shards[t.1]? = some s ∧ recoverShard n t.2 s = .ok s' ∧
        (publish n targets shards).2[t.1]? = some s' ∧ get s' = some t.2) ∧
      (∀ i, i ∉ done.map Prod.fst → (publish n targets shards).2[i]? = shards[i]?) ∧
      ((publish n targets shards).1 = .ok () ∧ rest = [] ∨
        ∃ t later s, rest = t :: later ∧ shards[t.1]? = some s ∧
          recoverShard n t.2 s = .err .incorrectShardSize ∧
          (∃ x : List E, buffer s = some x ∧ x.length ≠ n) ∧
          (publish n targets shards).1 = .err .incorrectShardSize) := by
  induction targets generalizing shards with
  | nil => exact ⟨[], [], rfl, by simp, fun _ _ => rfl, .inl ⟨rfl, rfl⟩⟩
  | cons t targets ih =>
    obtain ⟨index, bytes⟩ := t
    obtain ⟨s, hs, hget⟩ := hmissing (index, bytes) (by simp)
    obtain ⟨hnot, hnodup⟩ := List.nodup_cons.mp hnodup
    have hlt : index < shards.length := (List.getElem?_eq_some_iff.mp hs).1
    rcases recoverShard_missing hget n (hbytes (index, bytes) (by simp)) with
      ⟨s', hok, hget'⟩ | ⟨herr, hbuf⟩
    · have hother (t : Nat × List E) (ht : t ∈ targets) :
          (shards.set index s')[t.1]? = shards[t.1]? := by
        rw [List.getElem?_set_ne]
        intro heq
        exact hnot (List.mem_map.mpr ⟨t, ht, heq.symm⟩)
      have hpub : publish n ((index, bytes) :: targets) shards =
          publish n targets (shards.set index s') := by
        simp only [publish, hs, hok]
      obtain ⟨done, rest, hsplit, hdone, hframe, hend⟩ := ih (shards.set index s') hnodup
        (fun t ht => by rw [hother t ht]; exact hmissing t (by simp [ht]))
        (fun t ht => hbytes t (by simp [ht]))
      have hnotDone : index ∉ done.map Prod.fst := by
        intro hin
        apply hnot
        rw [hsplit, List.map_append]
        exact List.mem_append_left _ hin
      refine ⟨(index, bytes) :: done, rest, by rw [hsplit]; rfl, ?_, ?_, ?_⟩
      · intro t ht
        rw [hpub]
        rcases List.mem_cons.mp ht with rfl | ht
        · refine ⟨s, s', hs, hok, ?_, hget'⟩
          rw [hframe index hnotDone, List.getElem?_set_self hlt]
        · obtain ⟨u, u', hu, hrest⟩ := hdone t ht
          rw [hother t (by rw [hsplit]; exact List.mem_append_left _ ht)] at hu
          exact ⟨u, u', hu, hrest⟩
      · intro i hi
        rw [List.map_cons, List.mem_cons, not_or] at hi
        rw [hpub, hframe i hi.2, List.getElem?_set_ne (Ne.symm hi.1)]
      · rw [hpub]
        rcases hend with hend | ⟨t, later, u, hrest, hu, hfail⟩
        · exact .inl hend
        · rw [hother t (by rw [hsplit, hrest]; simp)] at hu
          exact .inr ⟨t, later, u, hrest, hu, hfail⟩
    · have hpub : publish n ((index, bytes) :: targets) shards =
          (.err .incorrectShardSize, shards) := by
        simp only [publish, hs, herr]
      refine ⟨[], (index, bytes) :: targets, rfl, by simp, fun i _ => by rw [hpub], .inr ?_⟩
      exact ⟨(index, bytes), targets, s, rfl, hs, herr, hbuf, by rw [hpub]⟩

end Publish

end ErasureCodec
