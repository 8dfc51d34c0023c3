import EPaxos.Network
import EPaxos.DemoStoreWire
import EPaxos.WireMessage

/-!
# Replicas over gRPC

In the demo, a server hands each message of its replica's `Ready` to the gRPC
stream of the server its `To` names (`sendAllTo`), which writes it with
`Marshal`. The receiving server reads it with `Unmarshal` into a fresh record
(`DeliverMessage`) and steps its replica with it.

The model's messages are records of its own; `Message.toPb` is the generated
record `sendTo` builds for one. The model's numbers are unbounded where Go's
are `uint64`, so only a message whose numbers fit (`Message.Sendable`) has a Go
counterpart. Such a message is read back as it was written
(`Message.unmarshal_send`), two of them never travel as the same bytes
(`Message.send_inj`), and stepping a replica with the record read is stepping it
with the message (`Replica.stepPb_toPb`).
-/

namespace EPaxos

open ProtoWire

/-! ### The records of the model's messages -/

/-- The generated record of instance data, with empty command payloads. -/
def InstanceData.toPb (d : InstanceData) : Pb.InstanceData :=
  ⟨d.command.map Command.toPb, d.seqNum, d.deps⟩

def Pb.InstanceData.toModel (d : Pb.InstanceData) : EPaxos.InstanceData :=
  ⟨d.command.map Pb.Command.toModel, d.seqNum, d.deps⟩

/-- The record `WrapMessage` wraps for each case of a message. -/
def MessageType.toPb : MessageType → Pb.MessageType
  | .preAccept data => .preAccept data.toPb
  | .preAcceptOk => .preAcceptOk
  | .preAcceptReply s ds => .preAcceptReply ⟨s, ds⟩
  | .accept data => .accept data.toPb
  | .acceptOk => .acceptOk
  | .commit data => .commit data.toPb

def Pb.MessageType.toModel : Pb.MessageType → EPaxos.MessageType
  | .preAccept data => .preAccept data.toModel
  | .preAcceptOk => .preAcceptOk
  | .preAcceptReply reply => .preAcceptReply reply.updatedSeqNum reply.updatedDeps
  | .accept data => .accept data.toModel
  | .acceptOk => .acceptOk
  | .commit data => .commit data.toModel

/-- The record `sendTo` builds: it sets `To` and the instance, and leaves the
ballot zero. -/
def Message.toPb (m : Message) : Pb.Message :=
  ⟨m.dest, Pb.Ballot.zero, m.instanceID, some m.msgType.toPb⟩

/-- What `sendAllTo` sends for a message: the bytes `Marshal` writes, to the
server of its `To`. -/
def Message.send (m : Message) : ℕ × List (Fin 256) := (m.dest, m.toPb.marshalTo)

/-- A message whose numbers fit Go's types and whose bytes are fewer than
`2^63`: one that a Go replica can send. -/
def Message.Sendable (m : Message) : Prop := m.toPb.Fits ∧ m.toPb.size < 2 ^ 63

instance : DecidablePred Message.Sendable := fun _ => inferInstanceAs (Decidable (_ ∧ _))

theorem InstanceData.toModel_toPb (d : InstanceData) : d.toPb.toModel = d := by
  obtain ⟨command, seqNum, deps⟩ := d
  have hcommand : (command.map Command.toPb).map Pb.Command.toModel = command := by
    cases command <;> rfl
  simp only [InstanceData.toPb, Pb.InstanceData.toModel, hcommand]

theorem MessageType.toModel_toPb (t : MessageType) : t.toPb.toModel = t := by
  cases t <;> simp only [MessageType.toPb, Pb.MessageType.toModel, InstanceData.toModel_toPb]

theorem Message.toPb_injective : Function.Injective Message.toPb := by
  intro m m' h
  obtain ⟨dest, id, t⟩ := m
  obtain ⟨dest', id', t'⟩ := m'
  simp only [Message.toPb, Pb.Message.mk.injEq, Option.some.injEq, true_and] at h
  obtain ⟨rfl, rfl, ht⟩ := h
  rw [← t.toModel_toPb, ht, t'.toModel_toPb]

/-- The receiving server reads back the record of a message that fits. -/
theorem Message.unmarshal_send {m : Message} (h : m.Sendable) :
    Pb.Message.unmarshal Pb.Message.zero m.toPb.marshalTo = .ok m.toPb :=
  (m.toPb.reads_marshalTo h.1 []).unmarshal_eq (by rw [m.toPb.length_marshalTo]; exact h.2)

/-- Two messages that fit and travel as the same bytes to the same server are
one message. -/
theorem Message.send_inj {m m' : Message} (h : m.Sendable) (h' : m'.Sendable)
    (he : m.send = m'.send) : m = m' := by
  have hbytes : m.toPb.marshalTo = m'.toPb.marshalTo := congrArg Prod.snd he
  have hpb : Except.ok m.toPb = (Except.ok m'.toPb : Except DecodeError Pb.Message) := by
    rw [← m.unmarshal_send h, ← m'.unmarshal_send h', hbytes]
  exact Message.toPb_injective (Except.ok.inj hpb)

/-! ### The receiving replica -/

namespace Replica

/-- `Step` of the record a server read: the model's `Step` of its destination,
instance and case. A record without a case passes `validateMessage` as a
request does, and then reaches the default of the switch, which panics. -/
def stepPb (order : MapOrder InstanceID) (p : Replica) (m : Pb.Message) : Option Replica :=
  match m.type with
  | some t => p.step order ⟨m.dest, m.instanceID, t.toModel⟩
  | none =>
    if m.dest ≠ p.id ∨ m.instanceID.replicaID = p.id ∨ m.instanceID.replicaID ∉ p.nodes then
      some p
    else none

theorem stepPb_toPb (order : MapOrder InstanceID) (p : Replica) (m : Message) :
    p.stepPb order m.toPb = p.step order m := by
  obtain ⟨dest, id, t⟩ := m
  simp only [stepPb, Message.toPb, MessageType.toModel_toPb]

end Replica

end EPaxos
