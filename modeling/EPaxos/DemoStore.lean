import EPaxos.Replica
import EPaxos.Lib.SortedMap
import EPaxos.Lib.OptionFold
import Mathlib.Data.List.TakeWhile
import Mathlib.Data.List.Induction

/-!
# The demo server's badger store

The demo server implements `Storage` over badger, next to the user's keys: the
hard state under `phs`, each instance state under `pis` followed by the uvarint
of its replica, a zero byte and the uvarint of its number. Badger is an ordered
byte-string map: `Set` overwrites, and an iterator walks the keys in increasing
bytewise order from `Rewind`, at the smallest key. Values are the records as
`proto.Marshal` writes them (`Codec`).

`Instances` rewinds and reads while the key starts with `pis`. The hard-state
key `phs` sorts before every instance key, so once `PersistHardState` ran,
which `initStorage` does at the first start, `Instances` reads nothing
(`instances_eq_nil_of_hardState`), and a replica restarted over the store
loads no instance (`initStorage_loads_nothing`).
-/
namespace EPaxos

namespace DemoStore

/-- `binary.PutUvarint`: seven bits a byte, low first, with the high bit set on
every byte but the last. -/
def putUvarint (x : ℕ) : Key :=
  if h : x < 128 then [⟨x, by omega⟩]
  else ⟨x % 128 + 128, by omega⟩ :: putUvarint (x / 128)
termination_by x
decreasing_by omega

example : putUvarint 300 = [172, 2] := by simp [putUvarint]

/-- `epaxosHS`, the key `phs`. -/
def epaxosHS : Key := [112, 104, 115]

/-- `epaxosInstancePrefix`, the prefix `pis`. -/
def epaxosInstancePrefix : Key := [112, 105, 115]

/-- `encodeInstanceKey`: the prefix, the replica, a zero byte, the number. -/
def encodeInstanceKey (is : InstanceState) : Key :=
  epaxosInstancePrefix ++ putUvarint is.instanceID.replicaID ++ [0] ++
    putUvarint is.instanceID.instanceNum

/-- `proto.Marshal` of the two records into badger values, and
`proto.Unmarshal` of an instance state, `none` on an error. -/
structure Codec (V : Type) where
  marshalHardState : HardState → V
  marshalInstance : InstanceState → V
  unmarshalInstance : V → Option InstanceState

/-- The badger key space of the store. -/
structure Store (V : Type) where
  kv : SortedMap Key V

/-- One call of `Storage` that writes. -/
inductive Call
  | persistHardState (hs : HardState)
  | persistInstance (is : InstanceState)

namespace Store

variable {V : Type} (codec : Codec V)

def empty : Store V := ⟨SortedMap.empty⟩

/-- `PersistHardState`. -/
def persistHardState (s : Store V) (hs : HardState) : Store V :=
  ⟨s.kv.insert epaxosHS (codec.marshalHardState hs)⟩

/-- `PersistInstance`. -/
def persistInstance (s : Store V) (is : InstanceState) : Store V :=
  ⟨s.kv.insert (encodeInstanceKey is) (codec.marshalInstance is)⟩

def apply (s : Store V) : Call → Store V
  | .persistHardState hs => s.persistHardState codec hs
  | .persistInstance is => s.persistInstance codec is

def run (s : Store V) (calls : List Call) : Store V := calls.foldl (apply codec) s

/-- `Instances`: from the smallest key, while the key starts with `pis`,
unmarshal the value; an unmarshal error panics. -/
def instances (s : Store V) : Option (List InstanceState) :=
  (s.kv.entries.takeWhile fun e => epaxosInstancePrefix.isPrefixOf e.1).mapM
    fun e => codec.unmarshalInstance e.2

end Store

/-- The last state persisted for an instance. -/
def lastPersisted (calls : List Call) (d : InstanceID) : Option InstanceState :=
  calls.foldl (fun acc c => match c with
    | .persistInstance is => if is.instanceID = d then some is else acc
    | .persistHardState _ => acc) none

/-- The last hard state persisted. -/
def lastHardState (calls : List Call) : Option HardState :=
  calls.foldl (fun acc c => match c with
    | .persistHardState hs => some hs
    | .persistInstance _ => acc) none

/-! ### The hard-state key hides the instances -/

/-- Every key that starts with `pis` sorts after `phs`. -/
theorem epaxosHS_lt {k : Key} (h : epaxosInstancePrefix.isPrefixOf k = true) : epaxosHS < k := by
  obtain ⟨t, rfl⟩ := List.isPrefixOf_iff_prefix.mp h
  show [112, 104, 115] < 112 :: 105 :: 115 :: t
  exact List.cons_lt_cons_iff.mpr (.inr ⟨rfl, List.cons_lt_cons_iff.mpr (.inl (by decide))⟩)

/-- Records kept as they are: hard states on the left, instance states on the
right. -/
def sumCodec : Codec (HardState ⊕ InstanceState) :=
  ⟨Sum.inl, Sum.inr, Sum.getRight?⟩

namespace Store

variable {V : Type} (codec : Codec V)

/-- A key of the store stays a key through every call. -/
theorem key_mem_apply {s : Store V} {e : Key × V} (he : e ∈ s.kv.entries) (c : Call) :
    ∃ w, (e.1, w) ∈ (s.apply codec c).kv.entries := by
  cases c <;> exact SortedMap.key_mem_insertAux he

theorem key_mem_run {s : Store V} {e : Key × V} (he : e ∈ s.kv.entries) :
    ∀ calls, ∃ w, (e.1, w) ∈ (s.run codec calls).kv.entries := by
  intro calls
  induction calls generalizing s e with
  | nil => exact ⟨e.2, he⟩
  | cons c calls ih =>
    obtain ⟨w, hw⟩ := key_mem_apply codec he c
    exact ih (e := (e.1, w)) hw

/-- Once the hard state is persisted, `Instances` reads nothing, whatever is
persisted after it. -/
theorem instances_eq_nil_of_hardState (s : Store V) (hs : HardState) (calls : List Call) :
    ((s.persistHardState codec hs).run codec calls).instances codec = some [] := by
  -- the key `phs` stays, below every key that starts with `pis`
  obtain ⟨w, hw⟩ := key_mem_run codec (s := s.persistHardState codec hs)
    (SortedMap.mem_insert_self s.kv epaxosHS (codec.marshalHardState hs)) calls
  rw [instances, SortedMap.takeWhile_eq_nil (k := epaxosHS) hw fun e _ he => epaxosHS_lt he]
  rfl

/-- A replica restarted over the store after its first start loads no instance:
`initStorage` gets nothing from `Instances`, whatever was persisted. -/
theorem initStorage_loads_nothing (order : MapOrder InstanceID) (s : Store V) (hs : HardState)
    (calls : List Call) {insts : List InstanceState}
    (hi : ((s.persistHardState codec hs).run codec calls).instances codec = some insts)
    (id : ℕ) (nodes : List ℕ) (st : Storage) :
    ∃ q, (Replica.empty id nodes st).initStorage order insts = some q ∧
      ∀ d, q.liveState d = none := by
  obtain rfl : insts = [] := by
    rw [instances_eq_nil_of_hardState] at hi
    exact (Option.some.inj hi).symm
  -- the loading loop runs over nothing; only the hard state may be recorded
  refine ⟨_, rfl, fun d => ?_⟩
  split <;> rfl

/-- A store after its first start and one instance persisted, with the records
kept as they are: the restarted replica holds nothing. -/
theorem initStorage_loads_nothing_sumCodec :
    ((Store.empty.persistHardState sumCodec ⟨0, [0, 1, 2]⟩).run sumCodec
        [.persistInstance ⟨⟨0, 1⟩, .committed, none, 1, []⟩]).instances sumCodec = some [] ∧
    ∃ q, (Replica.empty 0 [0, 1, 2] (Storage.empty true)).initStorage (MapOrder.id _) [] = some q ∧
      ∀ d, q.liveState d = none :=
  have hi := instances_eq_nil_of_hardState sumCodec Store.empty ⟨0, [0, 1, 2]⟩
    [.persistInstance ⟨⟨0, 1⟩, .committed, none, 1, []⟩]
  ⟨hi, initStorage_loads_nothing sumCodec (MapOrder.id _) _ _ _ hi 0 [0, 1, 2] _⟩

end Store

/-! ### Instance keys -/

/-- The output of `PutUvarint` delimits itself: every byte but its last has the
high bit set, so the bytes that follow do not change where it ends. -/
theorem putUvarint_append_inj {x y : ℕ} {s t : Key} (h : putUvarint x ++ s = putUvarint y ++ t) :
    x = y ∧ s = t := by
  induction x using Nat.strong_induction_on generalizing y s t with
  | _ x ih =>
  rw [putUvarint.eq_1 x, putUvarint.eq_1 y] at h
  split_ifs at h with hx hy hy
  · simpa using h
  · simp only [List.cons_append, List.cons.injEq, Fin.mk.injEq] at h
    exact absurd h.1 (by omega)
  · simp only [List.cons_append, List.cons.injEq, Fin.mk.injEq] at h
    exact absurd h.1 (by omega)
  · simp only [List.cons_append, List.cons.injEq, Fin.mk.injEq] at h
    obtain ⟨hlow, hrest⟩ := h
    obtain ⟨hdiv, rfl⟩ := ih (x / 128) (by omega) hrest
    exact ⟨by omega, rfl⟩

/-- Two instance states share a badger key exactly when they share an id. -/
theorem encodeInstanceKey_eq_iff {a b : InstanceState} :
    encodeInstanceKey a = encodeInstanceKey b ↔ a.instanceID = b.instanceID := by
  refine ⟨fun h => ?_, fun h => by rw [encodeInstanceKey, encodeInstanceKey, h]⟩
  simp only [encodeInstanceKey, List.append_assoc, List.append_cancel_left_eq] at h
  obtain ⟨hr, h⟩ := putUvarint_append_inj h
  rw [List.singleton_append, List.singleton_append, List.cons.injEq] at h
  obtain ⟨hn, -⟩ := putUvarint_append_inj (s := []) (t := []) (by simpa using h.2)
  obtain ⟨⟨ra, na⟩, _⟩ := a
  obtain ⟨⟨rb, nb⟩, _⟩ := b
  simp only at hr hn
  rw [hr, hn]

theorem isPrefixOf_encodeInstanceKey (is : InstanceState) :
    epaxosInstancePrefix.isPrefixOf (encodeInstanceKey is) = true := by
  rw [List.isPrefixOf_iff_prefix, encodeInstanceKey, List.append_assoc, List.append_assoc]
  exact List.prefix_append _ _

/-! ### The hard state -/

namespace Store

variable {V : Type} (codec : Codec V)

theorem lastHardState_append (calls : List Call) (c : Call) :
    lastHardState (calls ++ [c]) = match c with
      | .persistHardState hs => some hs
      | .persistInstance _ => lastHardState calls := by
  cases c <;> simp [lastHardState, List.foldl_append]

/-- The key `phs` holds the bytes of the last hard state persisted: an instance
key starts with `pis` and never overwrites it. -/
theorem get_epaxosHS_run (calls : List Call) :
    (empty.run codec calls).kv.get epaxosHS = (lastHardState calls).map codec.marshalHardState := by
  induction calls using List.reverseRec with
  | nil => rfl
  | append_singleton calls c ih =>
    rw [run, List.foldl_append, List.foldl_cons, List.foldl_nil, lastHardState_append]
    cases c with
    | persistHardState hs =>
      rw [apply, persistHardState, SortedMap.get_insert, if_pos rfl, Option.map_some]
    | persistInstance is =>
      have hne : epaxosHS ≠ encodeInstanceKey is :=
        ne_of_lt (epaxosHS_lt (isPrefixOf_encodeInstanceKey is))
      rw [apply, persistInstance, SortedMap.get_insert, if_neg hne]
      exact ih

end Store

/-! ### Without the hard state -/

namespace Store

variable {V : Type} (codec : Codec V)

/-- The store holds the record of `last d` under the key of each id `d`, and
nothing else. -/
def Holds (s : Store V) (last : InstanceID → Option InstanceState) : Prop :=
  ∀ e, e ∈ s.kv.entries ↔
    ∃ is, last is.instanceID = some is ∧ e = (encodeInstanceKey is, codec.marshalInstance is)

theorem holds_empty : Holds codec empty fun _ => none := fun e => by
  simp [empty, SortedMap.empty]

/-- `PersistInstance` overwrites the record of its own id only: the keys of
other ids differ from its key. -/
theorem Holds.persistInstance {s : Store V} {last : InstanceID → Option InstanceState}
    (h : Holds codec s last) (is' : InstanceState) :
    Holds codec (s.persistInstance codec is') (Function.update last is'.instanceID (some is')) := by
  intro e
  rw [Store.persistInstance, SortedMap.mem_insert_iff, h e]
  constructor
  · rintro (rfl | ⟨⟨is, hl, rfl⟩, hk⟩)
    · exact ⟨is', Function.update_self _ _ _, rfl⟩
    · have hne : is.instanceID ≠ is'.instanceID := fun hid => hk (encodeInstanceKey_eq_iff.mpr hid)
      exact ⟨is, by rw [Function.update_of_ne hne]; exact hl, rfl⟩
  · rintro ⟨is, hl, rfl⟩
    by_cases hid : is.instanceID = is'.instanceID
    · rw [hid, Function.update_self, Option.some.injEq] at hl
      subst hl
      exact .inl rfl
    · rw [Function.update_of_ne hid] at hl
      exact .inr ⟨⟨is, hl, rfl⟩, fun hk => hid (encodeInstanceKey_eq_iff.mp hk)⟩

/-- `Instances` over a store that holds `last`: with no hard-state key below
them, it walks every record, and it returns in key order the states of `last`,
one per id, when unmarshalling inverts marshalling. -/
theorem Holds.instances {s : Store V} {last : InstanceID → Option InstanceState}
    (h : Holds codec s last)
    (hcodec : ∀ is, last is.instanceID = some is →
      codec.unmarshalInstance (codec.marshalInstance is) = some is) :
    ∃ L, s.instances codec = some L ∧
      L.Pairwise (fun a b => encodeInstanceKey a < encodeInstanceKey b) ∧
      (L.map InstanceState.instanceID).Nodup ∧ ∀ is, is ∈ L ↔ last is.instanceID = some is := by
  have hrec : ∀ e ∈ s.kv.entries, ∃ is, last is.instanceID = some is ∧
      e = (encodeInstanceKey is, codec.marshalInstance is) := fun e he => (h e).mp he
  -- every key starts with `pis`, so the walk reads the whole store
  have hall : s.kv.entries.takeWhile (fun e => epaxosInstancePrefix.isPrefixOf e.1) =
      s.kv.entries := List.takeWhile_eq_self_iff.mpr fun e he => by
    obtain ⟨is, -, rfl⟩ := hrec e he
    exact isPrefixOf_encodeInstanceKey is
  have hdec : ∀ e ∈ s.kv.entries, ∀ b, codec.unmarshalInstance e.2 = some b →
      e.1 = encodeInstanceKey b ∧ last b.instanceID = some b := by
    intro e he b hb
    obtain ⟨is, hl, rfl⟩ := hrec e he
    rw [hcodec is hl, Option.some.injEq] at hb
    subst hb
    exact ⟨rfl, hl⟩
  -- the records read back in key order, each under the key of its own id
  have hsorted : (s.kv.entries.filterMap fun e => codec.unmarshalInstance e.2).Pairwise
      (fun a b => encodeInstanceKey a < encodeInstanceKey b) := by
    refine List.pairwise_filterMap.mpr (s.kv.sorted.imp_of_mem fun he he' hlt b hb b' hb' => ?_)
    rw [← (hdec _ he b hb).1, ← (hdec _ he' b' hb').1]
    exact hlt
  refine ⟨_, ?_, hsorted, ?_, fun is => ?_⟩
  · rw [Store.instances, hall]
    refine OptionFold.mapM_eq_some_filterMap _ fun e he => ?_
    obtain ⟨is, hl, rfl⟩ := hrec e he
    rw [hcodec is hl]
    rfl
  · refine List.pairwise_map.mpr (hsorted.imp fun hab hid => ?_)
    exact ne_of_lt hab (encodeInstanceKey_eq_iff.mpr hid)
  · rw [List.mem_filterMap]
    constructor
    · rintro ⟨e, he, hb⟩
      exact (hdec e he is hb).2
    · intro hl
      exact ⟨_, (h _).mpr ⟨is, hl, rfl⟩, hcodec is hl⟩

/-- A `PersistInstance` appended to the calls changes what they leave for its
own id only. -/
theorem lastPersisted_append_persistInstance (calls : List Call) (is' : InstanceState) :
    lastPersisted (calls ++ [.persistInstance is']) =
      Function.update (lastPersisted calls) is'.instanceID (some is') := by
  funext d
  rw [Function.update_apply]
  simp only [lastPersisted, List.foldl_append, List.foldl_cons, List.foldl_nil]
  by_cases h : d = is'.instanceID
  · simp [h]
  · simp [h, Ne.symm h]

/-- The last state persisted for an id is one of the states persisted. -/
theorem mem_of_lastPersisted {iss : List InstanceState} {d : InstanceID} {is : InstanceState}
    (h : lastPersisted (iss.map .persistInstance) d = some is) : is ∈ iss := by
  induction iss using List.reverseRec with
  | nil => simp [lastPersisted] at h
  | append_singleton iss is' ih =>
    rw [List.map_append, List.map_singleton, lastPersisted_append_persistInstance,
      Function.update_apply] at h
    rw [List.mem_append, List.mem_singleton]
    split_ifs at h with hd
    · exact .inr (Option.some.inj h).symm
    · exact .inl (ih h)

/-- A fresh store after `PersistInstance` calls holds the last state persisted
for each id. -/
theorem holds_run_persistInstance (iss : List InstanceState) :
    Holds codec (empty.run codec (iss.map .persistInstance))
      (lastPersisted (iss.map .persistInstance)) := by
  induction iss using List.reverseRec with
  | nil => exact holds_empty codec
  | append_singleton iss is ih =>
    rw [List.map_append, List.map_singleton, lastPersisted_append_persistInstance, run,
      List.foldl_append]
    exact ih.persistInstance codec is

end Store

/-- Without the hard state `Instances` returns what was persisted: after any
sequence of `PersistInstance` calls on a fresh store, and with unmarshalling
that inverts marshalling, it returns in key order the last state persisted for
each instance, once each. -/
theorem instances_of_persistInstance {V : Type} (codec : Codec V) (iss : List InstanceState)
    (hcodec : ∀ is ∈ iss, codec.unmarshalInstance (codec.marshalInstance is) = some is) :
    ∃ L, (Store.empty.run codec (iss.map .persistInstance)).instances codec = some L ∧
      L.Pairwise (fun a b => encodeInstanceKey a < encodeInstanceKey b) ∧
      (L.map InstanceState.instanceID).Nodup ∧
      ∀ is, is ∈ L ↔ lastPersisted (iss.map .persistInstance) is.instanceID = some is :=
  (Store.holds_run_persistInstance codec iss).instances codec fun is hl =>
    hcodec is (Store.mem_of_lastPersisted hl)

/-- `initStorage` persists the hard state at the first start; an instance
persisted after it is never returned by `Instances`, whatever the encoding of
the records. -/
theorem instances_lost_after_hardState {V : Type} (codec : Codec V) (hs : HardState)
    (is : InstanceState) :
    lastPersisted [.persistHardState hs, .persistInstance is] is.instanceID = some is ∧
    (Store.empty.run codec [.persistHardState hs, .persistInstance is]).instances codec =
      some [] :=
  ⟨by simp [lastPersisted], Store.instances_eq_nil_of_hardState codec _ hs [.persistInstance is]⟩

end DemoStore

end EPaxos
