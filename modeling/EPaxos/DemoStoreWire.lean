import EPaxos.DemoStore
import EPaxos.Wire

/-!
# The demo store over protobuf bytes

The badger values of the demo store are what `proto.Marshal` writes, and
`Instances` reads each back with `proto.Unmarshal`, which resets the record
and runs its `Unmarshal`. The model's records leave out what the protocol
never reads: the payload `Data` of a command, and the `Ballot`, which no code
sets. `pbCodec` writes a model record as the generated code writes the record
with those fields empty, and reads one back by the generated `Unmarshal` into
the zero record; a decode error, or a status that is no state of the model,
is a panic of `Instances`.

`pbCodec` inverts marshalling on every record whose numbers fit their Go
types (`pbCodec_unmarshal_marshal`), so `Instances` over a store that saw
only `PersistInstance` returns the last state persisted for each instance
(`instances_of_persistInstance_pb`).

`HardState` reads the key `phs` with badger's `Get`, whose value is nil when
the key is missing and also when it holds the empty value. It returns the last
hard state persisted (`hardState_run`), except the zero record, whose bytes are
empty: that one reads as never persisted. `initStorage` never persists it, as
`validate` requires `ID` to be one of `Nodes`.
-/
namespace EPaxos

open ProtoWire

/-- `InstanceState_Status` from its `int32`. -/
def Status.ofInt : ℤ → Option Status
  | 0 => some .none
  | 1 => some .preAccepted
  | 2 => some .accepted
  | 3 => some .committed
  | 4 => some .executed
  | _ => Option.none

theorem Status.ofInt_toNat (s : Status) : Status.ofInt s.toNat = some s := by
  cases s <;> rfl

theorem Status.toNat_lt (s : Status) : s.toNat < 5 := by
  cases s <;> decide

/-- The generated record of a command, with an empty payload. -/
def Command.toPb (c : Command) : Pb.Command := ⟨c.id, c.span, c.writing, []⟩

def Pb.Command.toModel (c : Pb.Command) : EPaxos.Command := ⟨c.id, c.span, c.writing⟩

/-- The generated record of an instance state, with no ballot. -/
def InstanceState.toPb (is : InstanceState) : Pb.InstanceState :=
  ⟨is.instanceID, is.status.toNat, ⟨is.command.map Command.toPb, is.seqNum, is.deps⟩, none⟩

def Pb.InstanceState.toModel (m : Pb.InstanceState) : Option EPaxos.InstanceState :=
  (Status.ofInt m.status).map fun s =>
    ⟨m.instanceID, s, m.data.command.map Pb.Command.toModel, m.data.seqNum, m.data.deps⟩

theorem InstanceState.toModel_toPb (is : InstanceState) : is.toPb.toModel = some is := by
  obtain ⟨id, status, command, seqNum, deps⟩ := is
  have hcommand : (command.map Command.toPb).map Pb.Command.toModel = command := by
    cases command <;> rfl
  simp only [Pb.InstanceState.toModel, InstanceState.toPb, Status.ofInt_toNat, Option.map_some,
    hcommand]

/-- The numbers of a model record fit their Go types. -/
def InstanceState.Fits (is : InstanceState) : Prop :=
  is.instanceID.Fits ∧ (∀ c ∈ is.command, c.id < 2 ^ 64) ∧ is.seqNum < 2 ^ 64 ∧
    ∀ d ∈ is.deps, d.Fits

theorem InstanceState.Fits.toPb {is : InstanceState} (h : is.Fits) : is.toPb.Fits := by
  obtain ⟨hid, hcommand, hseqNum, hdeps⟩ := h
  have hstatus : is.toPb.status = (is.status.toNat : ℤ) := rfl
  have hlt := Status.toNat_lt is.status
  refine ⟨hid, by omega, by omega, ⟨fun c hc => ?_, hseqNum, hdeps⟩, fun _ hb => nomatch hb⟩
  obtain ⟨c', hc', rfl⟩ := Option.mem_map.mp hc
  exact hcommand c' hc'

/-- The badger values: `Marshal` of the generated records, which never fails
(`Pb.InstanceState.marshal_eq`), and `Unmarshal` into the zero record. -/
def pbCodec : DemoStore.Codec (List (Fin 256)) where
  marshalHardState hs := hs.marshalTo
  marshalInstance is := is.toPb.marshalTo
  unmarshalInstance v :=
    match Pb.InstanceState.unmarshal Pb.InstanceState.zero v with
    | .ok m => m.toModel
    | .error _ => none

/-- An instance state whose numbers fit their Go types, and whose bytes are
fewer than `2^63`, is read back from its bytes. -/
theorem pbCodec_unmarshal_marshal {is : InstanceState} (h : is.Fits)
    (hl : is.toPb.size < 2 ^ 63) :
    pbCodec.unmarshalInstance (pbCodec.marshalInstance is) = some is := by
  have hpb := (is.toPb.reads_marshalTo h.toPb []).unmarshal_eq
    (by rwa [Pb.InstanceState.length_marshalTo])
  simp only [pbCodec, Pb.InstanceState.unmarshal, hpb, InstanceState.toModel_toPb]

/-- With protobuf values, `Instances` over a fresh store after any sequence of
`PersistInstance` calls returns in key order the last state persisted for
each instance, once each, as long as the numbers of the states fit their Go
types and their bytes are fewer than `2^63`. -/
theorem instances_of_persistInstance_pb (iss : List InstanceState)
    (hfits : ∀ is ∈ iss, is.Fits ∧ is.toPb.size < 2 ^ 63) :
    ∃ L, (DemoStore.Store.empty.run pbCodec (iss.map .persistInstance)).instances pbCodec =
        some L ∧
      L.Pairwise (fun a b => DemoStore.encodeInstanceKey a < DemoStore.encodeInstanceKey b) ∧
      (L.map InstanceState.instanceID).Nodup ∧
      ∀ is, is ∈ L ↔ DemoStore.lastPersisted (iss.map .persistInstance) is.instanceID = some is :=
  (DemoStore.Store.holds_run_persistInstance pbCodec iss).instances pbCodec fun is hl =>
    have h := hfits is (DemoStore.Store.mem_of_lastPersisted hl)
    pbCodec_unmarshal_marshal h.1 h.2

/-- An instance persisted as pre-accepted and then as committed, and a second
instance. -/
def persistedSample : List InstanceState :=
  [⟨⟨1, 30⟩, .preAccepted, some ⟨7, ⟨[97], []⟩, true⟩, 4, [⟨2, 1⟩]⟩,
    ⟨⟨2, 1⟩, .none, none, 0, []⟩,
    ⟨⟨1, 30⟩, .committed, some ⟨7, ⟨[97], []⟩, true⟩, 5, [⟨2, 1⟩]⟩]

theorem instances_of_persistInstance_pb_sample :
    (∀ is ∈ persistedSample, is.Fits ∧ is.toPb.size < 2 ^ 63) ∧
    ∃ L, (DemoStore.Store.empty.run pbCodec (persistedSample.map .persistInstance)).instances
          pbCodec = some L ∧
      L.Pairwise (fun a b => DemoStore.encodeInstanceKey a < DemoStore.encodeInstanceKey b) ∧
      (L.map InstanceState.instanceID).Nodup ∧
      ∀ is, is ∈ L ↔
        DemoStore.lastPersisted (persistedSample.map .persistInstance) is.instanceID = some is :=
  have hfits : ∀ is ∈ persistedSample, is.Fits ∧ is.toPb.size < 2 ^ 63 := by
    simp (disch := decide) [persistedSample, InstanceState.Fits, InstanceID.Fits,
      InstanceState.toPb, Command.toPb, Status.toNat, Pb.InstanceState.size, InstanceID.size,
      Pb.InstanceData.size, Pb.Command.size, Span.size, sovEpaxos, Varint.size_of_lt,
      uint64OfInt]
  ⟨hfits, instances_of_persistInstance_pb _ hfits⟩

/-! ### `HardState` -/

/-- `store.HardState` over protobuf values. `Get` gives a nil value for a key
that is missing, and also for a key that holds the empty value, which it copies
into `y.Slice.Resize(0)` of a fresh item. A nil value is not found; an
unmarshal error panics. -/
def DemoStore.Store.hardState (s : DemoStore.Store (List (Fin 256))) :
    Option (HardState × Bool) :=
  match s.kv.get DemoStore.epaxosHS with
  | none | some [] => some (HardState.zero, false)
  | some v =>
    match HardState.unmarshal HardState.zero v with
    | .ok hs => some (hs, true)
    | .error _ => none

/-- Only the zero hard state is written as no bytes. -/
theorem HardState.marshalTo_eq_nil_iff (hs : HardState) : hs.marshalTo = [] ↔ hs = HardState.zero := by
  obtain ⟨r, nodes⟩ := hs
  refine ⟨fun h => ?_, fun h => by rw [h]; rfl⟩
  obtain ⟨h1, h2⟩ := List.append_eq_nil_iff.mp h
  have hr : r = 0 := by
    by_contra hr
    simp [hr] at h1
  have hn : nodes = [] := by
    by_contra hn
    simp [List.length_pos_of_ne_nil hn] at h2
  rw [hr, hn]
  rfl

/-- `HardState` over a fresh store after any calls returns the last hard state
persisted, when its numbers fit their Go types; it reports none found when no
hard state was persisted, and when the last one is the zero record. -/
theorem hardState_run (calls : List DemoStore.Call)
    (hfit : ∀ hs, DemoStore.lastHardState calls = some hs → hs.Fits ∧ hs.size < 2 ^ 63) :
    (DemoStore.Store.empty.run pbCodec calls).hardState =
      some (match DemoStore.lastHardState calls with
        | some hs => (hs, decide (hs ≠ HardState.zero))
        | none => (HardState.zero, false)) := by
  rw [DemoStore.Store.hardState, DemoStore.Store.get_epaxosHS_run]
  cases hlast : DemoStore.lastHardState calls with
  | none => rfl
  | some hs =>
    by_cases hz : hs = HardState.zero
    · subst hz
      rfl
    · -- the bytes are not empty, and `Unmarshal` reads the record back
      obtain ⟨b, bs, hbs⟩ := List.exists_cons_of_ne_nil (mt (HardState.marshalTo_eq_nil_iff hs).mp hz)
      have hread : HardState.unmarshal HardState.zero (b :: bs) = .ok hs := by
        have h := hfit hs hlast
        rw [← hbs]
        exact (hs.reads_marshalTo h.1 []).unmarshal_eq (by rw [hs.length_marshalTo]; exact h.2)
      have hval : pbCodec.marshalHardState hs = b :: bs := hbs
      simp only [Option.map_some, hval, hread, hz, decide_not, decide_false, Bool.not_false]

/-- The hard state of a replica persisted at its first start, then one of its
instances. -/
def persistedCalls : List DemoStore.Call :=
  [.persistHardState ⟨1, [1, 2, 3]⟩, .persistInstance ⟨⟨1, 1⟩, .preAccepted, none, 1, []⟩]

theorem hardState_run_sample :
    (∀ hs, DemoStore.lastHardState persistedCalls = some hs → hs.Fits ∧ hs.size < 2 ^ 63) ∧
      (DemoStore.Store.empty.run pbCodec persistedCalls).hardState =
        some (match DemoStore.lastHardState persistedCalls with
          | some hs => (hs, decide (hs ≠ HardState.zero))
          | none => (HardState.zero, false)) :=
  have hfit : ∀ hs, DemoStore.lastHardState persistedCalls = some hs →
      hs.Fits ∧ hs.size < 2 ^ 63 := by
    intro hs h
    simp only [persistedCalls, DemoStore.lastHardState, List.foldl_cons, List.foldl_nil,
      Option.some.injEq] at h
    subst h
    simp (disch := decide) [HardState.Fits, HardState.size, sovEpaxos, Varint.size_of_lt]
  ⟨hfit, hardState_run persistedCalls hfit⟩

end EPaxos
