import EPaxos.Pb
import EPaxos.Lib.ProtoWire

/-!
# The wire format of `epaxospb`

`epaxos.pb.go` is generated by `protoc-gen-gogo`. For each record it has
`Size`, `MarshalTo`, which writes the fields in order of their numbers, and
`Unmarshal`, which merges the fields of a buffer into the record. proto3
leaves out a field whose value is zero: a zero number, an empty byte string,
`false` or a nil pointer. The embedded `InstanceID`, `InstanceData` and `Span`
are not pointers and are always written, with the length their `Size` gives.
The demo store keeps `InstanceState` and `HardState` records in this form.

We keep the records as the generated code has them (`Pb.Command` with its
payload, `Pb.InstanceState` with its `int32` status and its ballot).
`Span`, `InstanceID` and `HardState` are the model's own records. Numbers are
natural numbers, and a record `Fits` when they fit the Go types.

`Size` is the length of what `MarshalTo` writes, so `Marshal` fills its buffer
and never writes past it (`InstanceState.marshal_eq`, `HardState.marshal_eq`).
`Unmarshal` of the bytes of a record that fits, into the zero record that
`proto.Unmarshal` starts from, gives the record back
(`InstanceState.unmarshal_marshal`, `HardState.unmarshal_of_marshal`).
The fuel of the model's loops is no bound on them: every pass reads on, so
with any fuel beyond the length of the buffer the loops give what the Go
loops give (`InstanceState.unmarshal_fuel`, `HardState.unmarshal_loops_fuel`).
-/
namespace EPaxos

open ProtoWire

/-- `encodeVarintEpaxos`. -/
def encodeVarintEpaxos (v : ℕ) : List (Fin 256) := Varint.encode v

/-- `sovEpaxos`. -/
def sovEpaxos (x : ℕ) : ℕ := Varint.size x

/-- `uint64(x)` of an `int32`. -/
def uint64OfInt (x : ℤ) : ℕ := (x % 2 ^ 64).toNat

namespace Pb

/-- `epaxospb.Command`, with its payload `Data`. -/
structure Command where
  id : ℕ
  span : Span
  writing : Bool
  data : List (Fin 256)
  deriving DecidableEq, Repr

structure Ballot where
  epoch : ℕ
  number : ℕ
  replicaID : ℕ
  deriving DecidableEq, Repr

/-- `epaxospb.InstanceData`; a nil `Command` is `none`. -/
structure InstanceData where
  command : Option Command
  seqNum : ℕ
  deps : List InstanceID
  deriving DecidableEq, Repr

/-- `epaxospb.InstanceState`: the status is the `int32` of its enum, and a nil
`Ballot` is `none`. -/
structure InstanceState where
  instanceID : InstanceID
  status : ℤ
  data : InstanceData
  ballot : Option Ballot
  deriving DecidableEq, Repr

end Pb

/-! ### `Size` and `MarshalTo` -/

/-- `Span.Size`. -/
def Span.size (m : Span) : ℕ :=
  (if 0 < m.key.length then 1 + m.key.length + sovEpaxos m.key.length else 0) +
  (if 0 < m.endKey.length then 1 + m.endKey.length + sovEpaxos m.endKey.length else 0)

/-- `Span.MarshalTo`. -/
def Span.marshalTo (m : Span) : List (Fin 256) :=
  (if 0 < m.key.length then 0xa :: encodeVarintEpaxos m.key.length ++ m.key else []) ++
  (if 0 < m.endKey.length then 0x12 :: encodeVarintEpaxos m.endKey.length ++ m.endKey else [])

/-- `InstanceID.Size`. -/
def InstanceID.size (m : InstanceID) : ℕ :=
  (if m.replicaID ≠ 0 then 1 + sovEpaxos m.replicaID else 0) +
  (if m.instanceNum ≠ 0 then 1 + sovEpaxos m.instanceNum else 0)

/-- `InstanceID.MarshalTo`. -/
def InstanceID.marshalTo (m : InstanceID) : List (Fin 256) :=
  (if m.replicaID ≠ 0 then 0x8 :: encodeVarintEpaxos m.replicaID else []) ++
  (if m.instanceNum ≠ 0 then 0x10 :: encodeVarintEpaxos m.instanceNum else [])

namespace Pb

/-- `Command.Size`. -/
def Command.size (m : Command) : ℕ :=
  (if m.id ≠ 0 then 1 + sovEpaxos m.id else 0) +
  (1 + m.span.size + sovEpaxos m.span.size) +
  (if m.writing then 2 else 0) +
  (if 0 < m.data.length then 1 + m.data.length + sovEpaxos m.data.length else 0)

/-- `Command.MarshalTo`. -/
def Command.marshalTo (m : Command) : List (Fin 256) :=
  (if m.id ≠ 0 then 0x8 :: encodeVarintEpaxos m.id else []) ++
  (0x12 :: encodeVarintEpaxos m.span.size ++ m.span.marshalTo) ++
  (if m.writing then [0x18, 1] else []) ++
  (if 0 < m.data.length then 0x22 :: encodeVarintEpaxos m.data.length ++ m.data else [])

/-- `Ballot.Size`. -/
def Ballot.size (m : Ballot) : ℕ :=
  (if m.epoch ≠ 0 then 1 + sovEpaxos m.epoch else 0) +
  (if m.number ≠ 0 then 1 + sovEpaxos m.number else 0) +
  (if m.replicaID ≠ 0 then 1 + sovEpaxos m.replicaID else 0)

/-- `Ballot.MarshalTo`. -/
def Ballot.marshalTo (m : Ballot) : List (Fin 256) :=
  (if m.epoch ≠ 0 then 0x8 :: encodeVarintEpaxos m.epoch else []) ++
  (if m.number ≠ 0 then 0x10 :: encodeVarintEpaxos m.number else []) ++
  (if m.replicaID ≠ 0 then 0x18 :: encodeVarintEpaxos m.replicaID else [])

/-- `InstanceData.Size`. -/
def InstanceData.size (m : InstanceData) : ℕ :=
  (match m.command with
    | some c => 1 + c.size + sovEpaxos c.size
    | none => 0) +
  (if m.seqNum ≠ 0 then 1 + sovEpaxos m.seqNum else 0) +
  (m.deps.map fun e => 1 + e.size + sovEpaxos e.size).sum

/-- `InstanceData.MarshalTo`. -/
def InstanceData.marshalTo (m : InstanceData) : List (Fin 256) :=
  (match m.command with
    | some c => 0xa :: encodeVarintEpaxos c.size ++ c.marshalTo
    | none => []) ++
  (if m.seqNum ≠ 0 then 0x10 :: encodeVarintEpaxos m.seqNum else []) ++
  m.deps.flatMap fun e => 0x1a :: encodeVarintEpaxos e.size ++ e.marshalTo

/-- `InstanceState.Size`. -/
def InstanceState.size (m : InstanceState) : ℕ :=
  (1 + m.instanceID.size + sovEpaxos m.instanceID.size) +
  (if m.status ≠ 0 then 1 + sovEpaxos (uint64OfInt m.status) else 0) +
  (1 + m.data.size + sovEpaxos m.data.size) +
  (match m.ballot with
    | some b => 1 + b.size + sovEpaxos b.size
    | none => 0)

/-- `InstanceState.MarshalTo`. -/
def InstanceState.marshalTo (m : InstanceState) : List (Fin 256) :=
  (0xa :: encodeVarintEpaxos m.instanceID.size ++ m.instanceID.marshalTo) ++
  (if m.status ≠ 0 then 0x10 :: encodeVarintEpaxos (uint64OfInt m.status) else []) ++
  (0x1a :: encodeVarintEpaxos m.data.size ++ m.data.marshalTo) ++
  (match m.ballot with
    | some b => 0x22 :: encodeVarintEpaxos b.size ++ b.marshalTo
    | none => [])

/-- `InstanceState.Marshal`. -/
def InstanceState.marshal (m : InstanceState) : Option (List (Fin 256)) :=
  ProtoWire.marshal m.size m.marshalTo

end Pb

/-- `HardState.Size`: the nodes are packed, one varint after another. -/
def HardState.size (m : HardState) : ℕ :=
  (if m.replicaID ≠ 0 then 1 + sovEpaxos m.replicaID else 0) +
  (if 0 < m.nodes.length then
    let l := (m.nodes.map sovEpaxos).sum
    1 + sovEpaxos l + l
  else 0)

/-- `HardState.MarshalTo`. -/
def HardState.marshalTo (m : HardState) : List (Fin 256) :=
  (if m.replicaID ≠ 0 then 0x8 :: encodeVarintEpaxos m.replicaID else []) ++
  (if 0 < m.nodes.length then
    let packed := m.nodes.flatMap encodeVarintEpaxos
    0x12 :: encodeVarintEpaxos packed.length ++ packed
  else [])

/-- `HardState.Marshal`. -/
def HardState.marshal (m : HardState) : Option (List (Fin 256)) :=
  ProtoWire.marshal m.size m.marshalTo

/-! ### `Unmarshal` -/

/-- The zero records that `proto.Unmarshal` and the embedded fields start from. -/
def Span.zero : Span := ⟨[], []⟩

def InstanceID.zero : InstanceID := ⟨0, 0⟩

def HardState.zero : HardState := ⟨0, []⟩

namespace Pb

def Command.zero : Command := ⟨0, Span.zero, false, []⟩

def Ballot.zero : Ballot := ⟨0, 0, 0⟩

def InstanceData.zero : InstanceData := ⟨none, 0, []⟩

def InstanceState.zero : InstanceState := ⟨InstanceID.zero, 0, InstanceData.zero, none⟩

end Pb

/-- The switch of `Span.Unmarshal`. -/
def Span.cases : ℤ → Option (Case Span)
  | 1 => some (bytesCase "Key" fun m v => { m with key := v })
  | 2 => some (bytesCase "EndKey" fun m v => { m with endKey := v })
  | _ => none

/-- `Span.Unmarshal`. -/
def Span.unmarshal (m : Span) (dAtA : List (Fin 256)) : Except DecodeError Span :=
  ProtoWire.unmarshal "Span" Span.cases m dAtA

/-- The switch of `InstanceID.Unmarshal`. -/
def InstanceID.cases : ℤ → Option (Case InstanceID)
  | 1 => some (varintCase "ReplicaID" 64 fun m v => { m with replicaID := v })
  | 2 => some (varintCase "InstanceNum" 64 fun m v => { m with instanceNum := v })
  | _ => none

/-- `InstanceID.Unmarshal`. -/
def InstanceID.unmarshal (m : InstanceID) (dAtA : List (Fin 256)) :
    Except DecodeError InstanceID :=
  ProtoWire.unmarshal "InstanceID" InstanceID.cases m dAtA

namespace Pb

/-- The switch of `Command.Unmarshal`. -/
def Command.cases : ℤ → Option (Case Command)
  | 1 => some (varintCase "ID" 64 fun m v => { m with id := v })
  | 2 => some (messageCase "Span" Span.unmarshal (fun m => m.span) fun m v => { m with span := v })
  | 3 => some (varintCase "Writing" 64 fun m v => { m with writing := decide (v ≠ 0) })
  | 4 => some (bytesCase "Data" fun m v => { m with data := v })
  | _ => none

/-- `Command.Unmarshal`. -/
def Command.unmarshal (m : Command) (dAtA : List (Fin 256)) : Except DecodeError Command :=
  ProtoWire.unmarshal "Command" Command.cases m dAtA

/-- The switch of `Ballot.Unmarshal`. -/
def Ballot.cases : ℤ → Option (Case Ballot)
  | 1 => some (varintCase "Epoch" 64 fun m v => { m with epoch := v })
  | 2 => some (varintCase "Number" 64 fun m v => { m with number := v })
  | 3 => some (varintCase "ReplicaID" 64 fun m v => { m with replicaID := v })
  | _ => none

/-- `Ballot.Unmarshal`. -/
def Ballot.unmarshal (m : Ballot) (dAtA : List (Fin 256)) : Except DecodeError Ballot :=
  ProtoWire.unmarshal "Ballot" Ballot.cases m dAtA

/-- The switch of `InstanceData.Unmarshal`: a nil `Command` is allocated before
it is read into, and each of `Deps` is read into a zero `InstanceID` that is
appended. -/
def InstanceData.cases : ℤ → Option (Case InstanceData)
  | 1 => some (messageCase "Command" Command.unmarshal (fun m => m.command.getD Command.zero)
      fun m v => { m with command := some v })
  | 2 => some (varintCase "SeqNum" 64 fun m v => { m with seqNum := v })
  | 3 => some (messageCase "Deps" InstanceID.unmarshal (fun _ => InstanceID.zero)
      fun m v => { m with deps := m.deps ++ [v] })
  | _ => none

/-- `InstanceData.Unmarshal`. -/
def InstanceData.unmarshal (m : InstanceData) (dAtA : List (Fin 256)) :
    Except DecodeError InstanceData :=
  ProtoWire.unmarshal "InstanceData" InstanceData.cases m dAtA

/-- The switch of `InstanceState.Unmarshal`: the status is ORed into an `int32`,
and a nil `Ballot` is allocated before it is read into. -/
def InstanceState.cases : ℤ → Option (Case InstanceState)
  | 1 => some (messageCase "InstanceID" InstanceID.unmarshal (fun m => m.instanceID)
      fun m v => { m with instanceID := v })
  | 2 => some (varintCase "Status" 32 fun m v => { m with status := int32 v })
  | 3 => some (messageCase "InstanceData" InstanceData.unmarshal (fun m => m.data)
      fun m v => { m with data := v })
  | 4 => some (messageCase "Ballot" Ballot.unmarshal (fun m => m.ballot.getD Ballot.zero)
      fun m v => { m with ballot := some v })
  | _ => none

/-- `InstanceState.Unmarshal`. -/
def InstanceState.unmarshal (m : InstanceState) (dAtA : List (Fin 256)) :
    Except DecodeError InstanceState :=
  ProtoWire.unmarshal "InstanceState" InstanceState.cases m dAtA

end Pb

/-- The loop over packed nodes up to `postIndex`, for at most `fuel` more
nodes. It reads each node with the bound `len(dAtA)`, not `postIndex`. -/
def HardState.packedNodes (dAtA : List (Fin 256)) (postIndex : ℕ) :
    ℕ → ℕ → List ℕ → Except DecodeError (List ℕ × ℕ)
  | 0, iNdEx, nodes => .ok (nodes, iNdEx)
  | fuel + 1, iNdEx, nodes =>
    if iNdEx < postIndex then
      match varintAt 64 dAtA iNdEx with
      | .error e => .error e
      | .ok r => packedNodes dAtA postIndex fuel r.2 (nodes ++ [r.1])
    else .ok (nodes, iNdEx)

/-- The case of `Nodes`: one node of wire type 0, or packed nodes of wire type
2. The loop over packed nodes runs for at most `packedLen` nodes, as each node
takes a byte at least. -/
def HardState.nodesCase : Case HardState :=
  fun dAtA iNdEx wireType m =>
    if wireType = 0 then
      (varintAt 64 dAtA iNdEx).map fun r => ({ m with nodes := m.nodes ++ [r.1] }, r.2)
    else if wireType = 2 then
      match varintAt 64 dAtA iNdEx with
      | .error e => .error e
      | .ok r =>
        if 2 ^ 63 ≤ r.1 then .error .invalidLength
        -- a negative `postIndex` passes `postIndex > l`, and the loop does not run
        else if 2 ^ 63 ≤ r.2 + r.1 then .ok (m, r.2)
        else if dAtA.length < r.2 + r.1 then .error .unexpectedEOF
        else (packedNodes dAtA (r.2 + r.1) r.1 r.2 m.nodes).map fun s => ({ m with nodes := s.1 }, s.2)
    else .error (.wrongWireType wireType "Nodes")

/-- The switch of `HardState.Unmarshal`. -/
def HardState.cases : ℤ → Option (Case HardState)
  | 1 => some (varintCase "ReplicaID" 64 fun m v => { m with replicaID := v })
  | 2 => some HardState.nodesCase
  | _ => none

/-- `HardState.Unmarshal`. -/
def HardState.unmarshal (m : HardState) (dAtA : List (Fin 256)) : Except DecodeError HardState :=
  ProtoWire.unmarshal "HardState" HardState.cases m dAtA

/-! ### `Size` is the length of what `MarshalTo` writes -/

@[simp] theorem length_encodeVarintEpaxos (v : ℕ) :
    (encodeVarintEpaxos v).length = sovEpaxos v :=
  Varint.length_encode v

theorem Span.length_marshalTo (m : Span) : m.marshalTo.length = m.size := by
  simp only [Span.marshalTo, Span.size]
  split_ifs <;> simp <;> omega

theorem InstanceID.length_marshalTo (m : InstanceID) : m.marshalTo.length = m.size := by
  simp only [InstanceID.marshalTo, InstanceID.size]
  split_ifs <;> simp <;> omega

namespace Pb

theorem Command.length_marshalTo (m : Command) : m.marshalTo.length = m.size := by
  simp only [Command.marshalTo, Command.size, List.length_append, List.length_cons,
    length_encodeVarintEpaxos, Span.length_marshalTo]
  split_ifs <;> simp <;> omega

theorem Ballot.length_marshalTo (m : Ballot) : m.marshalTo.length = m.size := by
  simp only [Ballot.marshalTo, Ballot.size]
  split_ifs <;> simp <;> omega

theorem InstanceData.length_marshalTo (m : InstanceData) : m.marshalTo.length = m.size := by
  have hdeps : (m.deps.flatMap fun e => 0x1a :: encodeVarintEpaxos e.size ++ e.marshalTo).length =
      (m.deps.map fun e => 1 + e.size + sovEpaxos e.size).sum := by
    rw [List.length_flatMap]
    congr 1
    refine List.map_congr_left fun e _ => ?_
    simp only [List.length_append, List.length_cons, length_encodeVarintEpaxos,
      InstanceID.length_marshalTo]
    omega
  simp only [InstanceData.marshalTo, InstanceData.size, List.length_append, hdeps]
  cases m.command with
  | none =>
    split_ifs <;> simp
    omega
  | some c => split_ifs <;> simp [c.length_marshalTo] <;> omega

theorem InstanceState.length_marshalTo (m : InstanceState) : m.marshalTo.length = m.size := by
  simp only [InstanceState.marshalTo, InstanceState.size, List.length_append, List.length_cons,
    length_encodeVarintEpaxos, InstanceID.length_marshalTo, InstanceData.length_marshalTo]
  cases m.ballot with
  | none => split_ifs <;> simp <;> omega
  | some b => split_ifs <;> simp [b.length_marshalTo] <;> omega

/-- `Marshal` fills the buffer of `Size` bytes: it never writes past it, and
returns what `MarshalTo` writes. -/
theorem InstanceState.marshal_eq (m : InstanceState) : m.marshal = some m.marshalTo := by
  rw [InstanceState.marshal, ProtoWire.marshal, if_pos (le_of_eq m.length_marshalTo)]

end Pb

theorem HardState.length_marshalTo (m : HardState) : m.marshalTo.length = m.size := by
  have hpacked : (m.nodes.flatMap encodeVarintEpaxos).length = (m.nodes.map sovEpaxos).sum := by
    rw [List.length_flatMap]
    simp only [length_encodeVarintEpaxos]
  simp only [HardState.marshalTo, HardState.size, List.length_append]
  split_ifs <;> simp [hpacked] <;> omega

theorem HardState.marshal_eq (m : HardState) : m.marshal = some m.marshalTo := by
  rw [HardState.marshal, ProtoWire.marshal, if_pos (le_of_eq m.length_marshalTo)]

/-! ### `Unmarshal` reads back what `MarshalTo` writes -/

/-- The numbers of a record fit its Go types: `uint64` fields below `2^64`, and
the status an `int32`. -/
def InstanceID.Fits (m : InstanceID) : Prop := m.replicaID < 2 ^ 64 ∧ m.instanceNum < 2 ^ 64

def HardState.Fits (m : HardState) : Prop := m.replicaID < 2 ^ 64 ∧ ∀ x ∈ m.nodes, x < 2 ^ 64

namespace Pb

def Command.Fits (m : Command) : Prop := m.id < 2 ^ 64

def Ballot.Fits (m : Ballot) : Prop := m.epoch < 2 ^ 64 ∧ m.number < 2 ^ 64 ∧ m.replicaID < 2 ^ 64

def InstanceData.Fits (m : InstanceData) : Prop :=
  (∀ c ∈ m.command, c.Fits) ∧ m.seqNum < 2 ^ 64 ∧ ∀ d ∈ m.deps, d.Fits

def InstanceState.Fits (m : InstanceState) : Prop :=
  m.instanceID.Fits ∧ -2 ^ 31 ≤ m.status ∧ m.status < 2 ^ 31 ∧ m.data.Fits ∧ ∀ b ∈ m.ballot, b.Fits

end Pb

theorem uint64OfInt_lt (x : ℤ) : uint64OfInt x < 2 ^ 64 := by
  unfold uint64OfInt
  omega

/-- An `int32` written as the `uint64` of its sign extension and read into an
`int32` is itself. -/
theorem int32_uint64OfInt {x : ℤ} (hlo : -2 ^ 31 ≤ x) (hhi : x < 2 ^ 31) :
    int32 (uint64OfInt x % 2 ^ 32) = x := by
  unfold int32 uint64OfInt
  omega

theorem Span.reads_marshalTo (m : Span) (pre : List (Fin 256)) :
    Reads "Span" Span.cases pre m.marshalTo Span.zero m :=
  Reads.append
    (Reads.optBytes (n := 1) (rfl : (0xa : Fin 256).val = 8 * 1 + 2) (by decide) (by decide) rfl m.key rfl rfl)
    (Reads.optBytes (n := 2) (rfl : (0x12 : Fin 256).val = 8 * 2 + 2) (by decide) (by decide) rfl m.endKey
      rfl rfl)

theorem InstanceID.reads_marshalTo {m : InstanceID} (h : m.Fits) (pre : List (Fin 256)) :
    Reads "InstanceID" InstanceID.cases pre m.marshalTo InstanceID.zero m :=
  Reads.append
    (Reads.optVarint (n := 1) (rfl : (0x8 : Fin 256).val = 8 * 1) (by decide) (by decide) rfl le_rfl h.1 rfl rfl)
    (Reads.optVarint (n := 2) (rfl : (0x10 : Fin 256).val = 8 * 2) (by decide) (by decide) rfl le_rfl h.2
      rfl rfl)

namespace Pb

theorem Command.reads_marshalTo {m : Command} (h : m.Fits) (pre : List (Fin 256)) :
    Reads "Command" Command.cases pre m.marshalTo Command.zero m := by
  obtain ⟨id, span, writing, data⟩ := m
  -- `Writing` is the varint of 1, written out
  have hwriting : ∀ pre, Reads "Command" Command.cases pre
      (if writing = true then [0x18, 1] else []) ⟨id, span, false, []⟩ ⟨id, span, writing, []⟩ := by
    intro pre
    have hone : ([0x18, 1] : List (Fin 256)) = 0x18 :: Varint.encode 1 := by
      rw [Varint.encode_of_lt (by decide)]
      rfl
    cases writing with
    | false => exact Reads.nil pre _
    | true =>
      rw [if_pos rfl, hone]
      exact Reads.varint (n := 3) (rfl : (0x18 : Fin 256).val = 8 * 3) (by decide) (by decide) rfl
        (by decide) rfl
  exact Reads.append (Reads.append (Reads.append
    (Reads.optVarint (n := 1) (rfl : (0x8 : Fin 256).val = 8 * 1) (by decide) (by decide) rfl le_rfl
      h rfl rfl)
    (Reads.message (n := 2) (rfl : (0x12 : Fin 256).val = 8 * 2 + 2) (by decide) (by decide) rfl
      span.length_marshalTo (fun hl => (span.reads_marshalTo []).unmarshal_eq hl) rfl))
    (hwriting _))
    (Reads.optBytes (n := 4) (rfl : (0x22 : Fin 256).val = 8 * 4 + 2) (by decide) (by decide) rfl
      data rfl rfl)

theorem Ballot.reads_marshalTo {m : Ballot} (h : m.Fits) (pre : List (Fin 256)) :
    Reads "Ballot" Ballot.cases pre m.marshalTo Ballot.zero m :=
  Reads.append (Reads.append
    (Reads.optVarint (n := 1) (rfl : (0x8 : Fin 256).val = 8 * 1) (by decide) (by decide) rfl le_rfl
      h.1 rfl rfl)
    (Reads.optVarint (n := 2) (rfl : (0x10 : Fin 256).val = 8 * 2) (by decide) (by decide) rfl le_rfl
      h.2.1 rfl rfl))
    (Reads.optVarint (n := 3) (rfl : (0x18 : Fin 256).val = 8 * 3) (by decide) (by decide) rfl le_rfl
      h.2.2 rfl rfl)

theorem InstanceData.reads_marshalTo {m : InstanceData} (h : m.Fits) (pre : List (Fin 256)) :
    Reads "InstanceData" InstanceData.cases pre m.marshalTo InstanceData.zero m := by
  obtain ⟨command, seqNum, deps⟩ := m
  obtain ⟨hcommand, hseqNum, hdeps⟩ := h
  have hseq : ∀ pre, Reads "InstanceData" InstanceData.cases pre
      (if seqNum ≠ 0 then 0x10 :: encodeVarintEpaxos seqNum else [])
      ⟨command, 0, []⟩ ⟨command, seqNum, []⟩ := fun pre =>
    Reads.optVarint (n := 2) (rfl : (0x10 : Fin 256).val = 8 * 2) (by decide) (by decide) rfl le_rfl
      hseqNum rfl rfl
  -- each of `Deps` is read into a zero `InstanceID` and appended
  have hdep : ∀ e ∈ deps, ∀ pre m, Reads "InstanceData" InstanceData.cases pre
      (0x1a :: encodeVarintEpaxos e.size ++ e.marshalTo) m { m with deps := m.deps ++ [e] } :=
    fun e he pre m =>
      Reads.message (n := 3) (rfl : (0x1a : Fin 256).val = 8 * 3 + 2) (by decide) (by decide) rfl
        (InstanceID.length_marshalTo e)
        (fun hl => (InstanceID.reads_marshalTo (hdeps e he) []).unmarshal_eq hl) rfl
  have hall : ∀ pre, Reads "InstanceData" InstanceData.cases pre
      (deps.flatMap fun e => 0x1a :: encodeVarintEpaxos e.size ++ e.marshalTo)
      ⟨command, seqNum, []⟩ ⟨command, seqNum, deps⟩ := fun pre =>
    Reads.repeated (fun l => (⟨command, seqNum, l⟩ : InstanceData)) (fun _ _ => rfl) hdep pre []
  cases command with
  | none => exact Reads.append (Reads.append (Reads.nil pre _) (hseq _)) (hall _)
  | some c =>
    exact Reads.append (Reads.append
      (Reads.message (n := 1) (rfl : (0xa : Fin 256).val = 8 * 1 + 2) (by decide) (by decide) rfl
        c.length_marshalTo (fun hl => (c.reads_marshalTo (hcommand c rfl) []).unmarshal_eq hl) rfl)
      (hseq _)) (hall _)

theorem InstanceState.reads_marshalTo {m : InstanceState} (h : m.Fits) (pre : List (Fin 256)) :
    Reads "InstanceState" InstanceState.cases pre m.marshalTo InstanceState.zero m := by
  obtain ⟨id, status, data, ballot⟩ := m
  obtain ⟨hid, hlo, hhi, hdata, hballot⟩ := h
  -- `Status` goes out as the `uint64` of its sign extension and comes back as an `int32`
  have hstatus : ∀ pre, Reads "InstanceState" InstanceState.cases pre
      (if status ≠ 0 then 0x10 :: encodeVarintEpaxos (uint64OfInt status) else [])
      ⟨id, 0, InstanceData.zero, none⟩ ⟨id, status, InstanceData.zero, none⟩ := fun pre =>
    Reads.optional
      (fun _ => Reads.varint (n := 2) (rfl : (0x10 : Fin 256).val = 8 * 2) (by decide) (by decide)
        rfl (uint64OfInt_lt status) (by rw [int32_uint64OfInt hlo hhi]))
      fun hz => by rw [not_not.mp hz]
  have hfirst : ∀ pre, Reads "InstanceState" InstanceState.cases pre _ InstanceState.zero
      ⟨id, status, data, none⟩ := fun pre =>
    Reads.append (Reads.append
      (Reads.message (n := 1) (rfl : (0xa : Fin 256).val = 8 * 1 + 2) (by decide) (by decide) rfl
        id.length_marshalTo (fun hl => (id.reads_marshalTo hid []).unmarshal_eq hl) rfl)
      (hstatus _))
      (Reads.message (n := 3) (rfl : (0x1a : Fin 256).val = 8 * 3 + 2) (by decide) (by decide) rfl
        data.length_marshalTo (fun hl => (data.reads_marshalTo hdata []).unmarshal_eq hl) rfl)
  cases ballot with
  | none => exact Reads.append (hfirst pre) (Reads.nil _ _)
  | some b =>
    exact Reads.append (hfirst pre)
      (Reads.message (n := 4) (rfl : (0x22 : Fin 256).val = 8 * 4 + 2) (by decide) (by decide) rfl
        b.length_marshalTo (fun hl => (b.reads_marshalTo (hballot b rfl) []).unmarshal_eq hl) rfl)

/-- `Marshal` of an instance state whose numbers fit their Go types never
panics, and `Unmarshal` of its bytes into the zero record gives it back. -/
theorem InstanceState.unmarshal_marshal {m : InstanceState} (h : m.Fits) (hl : m.size < 2 ^ 63) :
    m.marshal = some m.marshalTo ∧
      InstanceState.unmarshal InstanceState.zero m.marshalTo = .ok m :=
  ⟨m.marshal_eq, (m.reads_marshalTo h []).unmarshal_eq (by rwa [m.length_marshalTo])⟩

/-- A committed instance state with a command, a dependency and a ballot. -/
def InstanceState.sample : InstanceState :=
  ⟨⟨1, 30⟩, 3, ⟨some ⟨7, ⟨[97], []⟩, true, [1, 2]⟩, 4, [⟨2, 1⟩]⟩, some ⟨1, 2, 3⟩⟩

theorem InstanceState.sample_fits : sample.Fits ∧ sample.size < 2 ^ 63 := by
  constructor
  · simp [sample, InstanceState.Fits, InstanceID.Fits, InstanceData.Fits, Command.Fits, Ballot.Fits]
  · simp (disch := decide) [sample, InstanceState.size, InstanceID.size, InstanceData.size,
      Command.size, Ballot.size, Span.size, sovEpaxos, Varint.size_of_lt, uint64OfInt]

theorem InstanceState.unmarshal_marshal_sample :
    (sample.Fits ∧ sample.size < 2 ^ 63) ∧ sample.marshal = some sample.marshalTo ∧
      InstanceState.unmarshal InstanceState.zero sample.marshalTo = .ok sample :=
  ⟨sample_fits, unmarshal_marshal sample_fits.1 sample_fits.2⟩

end Pb

/-! ### Packed nodes -/

theorem length_le_length_flatMap_encode : ∀ ns : List ℕ, ns.length ≤ (ns.flatMap Varint.encode).length
  | [] => le_rfl
  | x :: xs => by
    have := Varint.size_pos x
    have := length_le_length_flatMap_encode xs
    simp only [List.flatMap_cons, List.length_append, List.length_cons, Varint.length_encode]
    omega

/-- The loop over the varints of `ns`, packed from `i`, reads them all and stops at
their end. -/
theorem HardState.packedNodes_encode {dAtA rest : List (Fin 256)} :
    ∀ {ns : List ℕ}, (∀ x ∈ ns, x < 2 ^ 64) → ∀ {i fuel : ℕ} (acc : List ℕ),
      dAtA.drop i = ns.flatMap Varint.encode ++ rest → ns.length ≤ fuel →
      packedNodes dAtA (i + (ns.flatMap Varint.encode).length) fuel i acc =
        .ok (acc ++ ns, i + (ns.flatMap Varint.encode).length)
  | [], _, i, fuel, acc, _, _ => by cases fuel <;> simp [packedNodes]
  | _ :: _, _, _, 0, _, _, hfuel => absurd hfuel (by simp)
  | x :: xs, hns, i, fuel + 1, acc, h, hfuel => by
    have hx : x < 2 ^ 64 := hns x List.mem_cons_self
    rw [List.flatMap_cons, List.append_assoc] at h
    have hread := varintAt_encode (w := 64) hx h
    have hnext : dAtA.drop (i + Varint.size x) = xs.flatMap Varint.encode ++ rest := by
      rw [← List.drop_drop, h, ← Varint.length_encode, List.drop_left]
    have hpost : i + ((x :: xs).flatMap Varint.encode).length =
        i + Varint.size x + (xs.flatMap Varint.encode).length := by
      rw [List.flatMap_cons, List.length_append, Varint.length_encode]
      omega
    have hpos := Varint.size_pos x
    rw [hpost, packedNodes, if_pos (by omega), hread, Nat.mod_eq_of_lt hx]
    dsimp only
    rw [packedNodes_encode (fun y hy => hns y (List.mem_cons_of_mem x hy)) (acc ++ [x]) hnext
      (by simpa using hfuel)]
    simp

/-- The packed field of the nodes `ns`: the loop runs to `postIndex` and
appends them. -/
theorem HardState.nodesCase_packed {dAtA rest : List (Fin 256)} {i : ℕ} {ns : List ℕ}
    (hns : ∀ x ∈ ns, x < 2 ^ 64)
    (h : dAtA.drop i =
      Varint.encode (ns.flatMap Varint.encode).length ++ ns.flatMap Varint.encode ++ rest)
    (hl : dAtA.length < 2 ^ 63) (m : HardState) :
    nodesCase dAtA i 2 m = .ok ({ m with nodes := m.nodes ++ ns },
      i + Varint.size (ns.flatMap Varint.encode).length + (ns.flatMap Varint.encode).length) := by
  have hlen : i + Varint.size (ns.flatMap Varint.encode).length +
      (ns.flatMap Varint.encode).length ≤ dAtA.length := by
    have := congrArg List.length h
    simp only [List.length_drop, List.length_append, Varint.length_encode] at this
    have := Varint.size_pos (ns.flatMap Varint.encode).length
    omega
  rw [List.append_assoc] at h
  have hv : (ns.flatMap Varint.encode).length < 2 ^ 64 := by omega
  have hnext : dAtA.drop (i + Varint.size (ns.flatMap Varint.encode).length) =
      ns.flatMap Varint.encode ++ rest := by
    rw [← List.drop_drop, h, ← Varint.length_encode, List.drop_left]
  simp only [nodesCase, show (2 : ℕ) ≠ 0 by decide, if_false, if_true, varintAt_encode hv h,
    Nat.mod_eq_of_lt hv, show ¬2 ^ 63 ≤ (ns.flatMap Varint.encode).length by omega,
    show ¬2 ^ 63 ≤ i + Varint.size (ns.flatMap Varint.encode).length +
      (ns.flatMap Varint.encode).length by omega,
    show ¬dAtA.length < i + Varint.size (ns.flatMap Varint.encode).length +
      (ns.flatMap Varint.encode).length by omega,
    packedNodes_encode hns m.nodes hnext (length_le_length_flatMap_encode ns)]
  rfl

theorem HardState.reads_marshalTo {m : HardState} (h : m.Fits) (pre : List (Fin 256)) :
    Reads "HardState" HardState.cases pre m.marshalTo HardState.zero m := by
  obtain ⟨replicaID, nodes⟩ := m
  obtain ⟨hreplicaID, hnodes⟩ := h
  have hpacked : ∀ pre, Reads "HardState" HardState.cases pre
      (0x12 :: Varint.encode (nodes.flatMap Varint.encode).length ++ nodes.flatMap Varint.encode)
      ⟨replicaID, []⟩ ⟨replicaID, nodes⟩ := by
    intro pre
    rw [List.cons_append]
    refine Reads.field (n := 2) (show (0x12 : Fin 256).val = 8 * 2 + 2 from rfl) (by decide) (by decide)
      (by decide) (by decide) rfl fun rest hl => ?_
    have hdrop := drop_tag pre 0x12 (Varint.encode (nodes.flatMap Varint.encode).length ++
      nodes.flatMap Varint.encode ++ rest)
    simp only [List.append_assoc, List.cons_append] at hl hdrop ⊢
    rw [nodesCase_packed hnodes (by simpa only [List.append_assoc] using hdrop) (by simpa using hl)]
    simp [Varint.length_encode, Nat.add_assoc]
  refine Reads.append
    (Reads.optVarint (n := 1) (rfl : (0x8 : Fin 256).val = 8 * 1) (by decide) (by decide) rfl le_rfl
      hreplicaID rfl rfl)
    (Reads.optional (fun _ => hpacked _) fun hz => ?_)
  have hnil : nodes = [] := List.eq_nil_of_length_eq_zero (Nat.eq_zero_of_not_pos hz)
  rw [hnil]
  rfl

/-- A hard state with three nodes. -/
def HardState.sample : HardState := ⟨3, [1, 2, 5]⟩

theorem HardState.sample_fits : sample.Fits ∧ sample.size < 2 ^ 63 := by
  constructor
  · simp [sample, HardState.Fits]
  · simp (disch := decide) [sample, HardState.size, sovEpaxos, Varint.size_of_lt]

/-- `Marshal` of a hard state whose numbers fit their Go types never panics, and
`Unmarshal` of its bytes into the zero record gives it back. -/
theorem HardState.unmarshal_of_marshal {m : HardState} (h : m.Fits) (hl : m.size < 2 ^ 63) :
    m.marshal = some m.marshalTo ∧ HardState.unmarshal HardState.zero m.marshalTo = .ok m :=
  ⟨m.marshal_eq, (m.reads_marshalTo h []).unmarshal_eq (by rwa [m.length_marshalTo])⟩

theorem HardState.unmarshal_of_marshal_sample :
    (sample.Fits ∧ sample.size < 2 ^ 63) ∧ sample.marshal = some sample.marshalTo ∧
      HardState.unmarshal HardState.zero sample.marshalTo = .ok sample :=
  ⟨sample_fits, unmarshal_of_marshal sample_fits.1 sample_fits.2⟩

/-! ### `Unmarshal` is not cut short by its fuel

The loop of `Unmarshal` runs while `iNdEx < l`, and the loop over packed nodes
while `iNdEx < postIndex`. Every case reads on from where it starts, so fuel that
covers the bytes left is never what stops either loop. -/

theorem HardState.packedNodes_bounds {dAtA : List (Fin 256)} {postIndex : ℕ} :
    ∀ {fuel i : ℕ} {acc : List ℕ} {r : List ℕ × ℕ},
      packedNodes dAtA postIndex fuel i acc = .ok r → i ≤ r.2
  | 0, i, acc, r, h => by
    simp only [packedNodes, Except.ok.injEq] at h
    rw [← h]
  | fuel + 1, i, acc, r, h => by
    rw [packedNodes] at h
    split_ifs at h with hi
    · revert h
      cases hv : varintAt 64 dAtA i with
      | error e => intro h; cases h
      | ok v =>
        intro h
        have := (varintAt_bounds hv).1
        have := packedNodes_bounds h
        omega
    · simp only [Except.ok.injEq] at h
      rw [← h]

/-- Fuel that covers the bytes up to `postIndex` is never what stops the loop
over packed nodes: a node takes a byte at least. -/
theorem HardState.packedNodes_succ {dAtA : List (Fin 256)} {postIndex : ℕ} :
    ∀ {fuel i : ℕ} (acc : List ℕ), postIndex ≤ i + fuel →
      packedNodes dAtA postIndex (fuel + 1) i acc = packedNodes dAtA postIndex fuel i acc
  | 0, i, acc, h => by
    simp only [packedNodes, if_neg (show ¬i < postIndex by omega)]
  | fuel + 1, i, acc, h => by
    rw [packedNodes, packedNodes]
    split_ifs with hi
    · cases hv : varintAt 64 dAtA i with
      | error e => rfl
      | ok v =>
        have := (varintAt_bounds hv).1
        exact packedNodes_succ (acc ++ [v.1]) (by omega)
    · rfl

theorem HardState.nodesCase_advances {dAtA : List (Fin 256)} {i wt : ℕ} {m : HardState}
    {r : HardState × ℕ} (h : nodesCase dAtA i wt m = .ok r) : i ≤ r.2 := by
  unfold nodesCase at h
  split_ifs at h with h0 h2
  · -- one node
    revert h
    cases hv : varintAt 64 dAtA i with
    | error e => intro h; cases h
    | ok v =>
      intro h
      simp only [Except.map, Except.ok.injEq] at h
      rw [← h]
      exact (varintAt_bounds hv).1.le
  · -- packed nodes
    revert h
    cases hv : varintAt 64 dAtA i with
    | error e => intro h; cases h
    | ok v =>
      intro h
      have hb := (varintAt_bounds hv).1
      dsimp only at h
      split_ifs at h
      · simp only [Except.ok.injEq] at h
        rw [← h]
        exact hb.le
      · revert h
        cases hp : packedNodes dAtA (v.2 + v.1) v.1 v.2 m.nodes with
        | error e => intro h; cases h
        | ok p =>
          intro h
          simp only [Except.map, Except.ok.injEq] at h
          rw [← h]
          exact hb.le.trans (packedNodes_bounds hp)

theorem Span.cases_advances : Advances Span.cases := by
  intro n c hc dAtA i wt m r h
  unfold Span.cases at hc
  split at hc
  · cases hc; exact bytesCase_advances h
  · cases hc; exact bytesCase_advances h
  · cases hc

theorem InstanceID.cases_advances : Advances InstanceID.cases := by
  intro n c hc dAtA i wt m r h
  unfold InstanceID.cases at hc
  split at hc
  · cases hc; exact varintCase_advances h
  · cases hc; exact varintCase_advances h
  · cases hc

theorem HardState.cases_advances : Advances HardState.cases := by
  intro n c hc dAtA i wt m r h
  unfold HardState.cases at hc
  split at hc
  · cases hc; exact varintCase_advances h
  · cases hc; exact nodesCase_advances h
  · cases hc

namespace Pb

theorem Command.cases_advances : Advances Command.cases := by
  intro n c hc dAtA i wt m r h
  unfold Command.cases at hc
  split at hc
  · cases hc; exact varintCase_advances h
  · cases hc; exact messageCase_advances h
  · cases hc; exact varintCase_advances h
  · cases hc; exact bytesCase_advances h
  · cases hc

theorem Ballot.cases_advances : Advances Ballot.cases := by
  intro n c hc dAtA i wt m r h
  unfold Ballot.cases at hc
  split at hc
  · cases hc; exact varintCase_advances h
  · cases hc; exact varintCase_advances h
  · cases hc; exact varintCase_advances h
  · cases hc

theorem InstanceData.cases_advances : Advances InstanceData.cases := by
  intro n c hc dAtA i wt m r h
  unfold InstanceData.cases at hc
  split at hc
  · cases hc; exact messageCase_advances h
  · cases hc; exact varintCase_advances h
  · cases hc; exact messageCase_advances h
  · cases hc

theorem InstanceState.cases_advances : Advances InstanceState.cases := by
  intro n c hc dAtA i wt m r h
  unfold InstanceState.cases at hc
  split at hc
  · cases hc; exact messageCase_advances h
  · cases hc; exact varintCase_advances h
  · cases hc; exact messageCase_advances h
  · cases hc; exact messageCase_advances h
  · cases hc

/-- `InstanceState.Unmarshal` is the loop run to the end of the buffer: with
any fuel beyond `len(dAtA)` it gives the same result. -/
theorem InstanceState.unmarshal_fuel (m : InstanceState) {dAtA : List (Fin 256)}
    (hl : dAtA.length < 2 ^ 63) (k : ℕ) :
    fields "InstanceState" InstanceState.cases dAtA (dAtA.length + k) 0 m =
      InstanceState.unmarshal m dAtA :=
  fields_fuel InstanceState.cases_advances hl (by omega) m k

end Pb

/-- `HardState.Unmarshal` is its loops run to their ends: with any fuel beyond
`len(dAtA)` the loop over fields gives the same result, and with any fuel
beyond `postIndex - iNdEx` so does the loop over packed nodes. -/
theorem HardState.unmarshal_loops_fuel (m : HardState) {dAtA : List (Fin 256)}
    (hl : dAtA.length < 2 ^ 63) (k : ℕ) :
    fields "HardState" HardState.cases dAtA (dAtA.length + k) 0 m = HardState.unmarshal m dAtA ∧
      ∀ postIndex i acc, packedNodes dAtA postIndex (postIndex - i + k) i acc =
        packedNodes dAtA postIndex (postIndex - i) i acc := by
  refine ⟨fields_fuel HardState.cases_advances hl (by omega) m k, fun postIndex i acc => ?_⟩
  induction k with
  | zero => rfl
  | succ k ih => rw [← Nat.add_assoc, packedNodes_succ acc (by omega), ih]

end EPaxos
