import EPaxos.Wire

/-!
# The wire format of `epaxospb.Message`

Replicas exchange `Message` records over gRPC, which writes each with its
generated `Marshal` and reads it back with `Unmarshal` into a fresh record.
Besides the destination, the ballot and the instance, a message holds one case
of the oneof `Type`: a pointer to a `PreAccept`, `PreAcceptOK`,
`PreAcceptReply`, `Accept`, `AcceptOK` or `Commit`. `PreAccept`, `Accept` and
`Commit` embed one `InstanceData` and share their generated code up to the
names in their errors; `PreAcceptOK` and `AcceptOK` have no fields. A case is
written as a field of its own number, and `Unmarshal` reads each case into a
new record that replaces the case before it.

The pointer of a case is never nil: `WrapMessage` wraps a record that
`sendTo` is given, and `Unmarshal` allocates one. We keep the case with its
record. `Unmarshal` of the bytes of a message whose numbers fit their Go types
gives it back (`Message.unmarshal_marshal_eq`).
-/
namespace EPaxos

open ProtoWire

namespace Pb

structure PreAcceptReply where
  updatedSeqNum : ℕ
  updatedDeps : List InstanceID
  deriving DecidableEq, Repr

/-- The case of the oneof `Type` and the record it points to. -/
inductive MessageType
  | preAccept (data : InstanceData)
  | preAcceptOk
  | preAcceptReply (reply : PreAcceptReply)
  | accept (data : InstanceData)
  | acceptOk
  | commit (data : InstanceData)
  deriving DecidableEq, Repr

/-- `epaxospb.Message`; a nil `Type` is `none`. -/
structure Message where
  /-- `To`, the destination. -/
  dest : ℕ
  ballot : Ballot
  instanceID : InstanceID
  type : Option MessageType
  deriving DecidableEq, Repr

/-! ### `Size` and `MarshalTo` -/

/-- `Size` of `PreAccept`, `Accept` and `Commit`: the embedded `InstanceData`
as field 1. -/
def embeddedSize (data : InstanceData) : ℕ := 1 + data.size + sovEpaxos data.size

/-- `MarshalTo` of `PreAccept`, `Accept` and `Commit`. -/
def embeddedMarshalTo (data : InstanceData) : List (Fin 256) :=
  0xa :: encodeVarintEpaxos data.size ++ data.marshalTo

def PreAccept.size (data : InstanceData) : ℕ := embeddedSize data

def PreAccept.marshalTo (data : InstanceData) : List (Fin 256) := embeddedMarshalTo data

def Accept.size (data : InstanceData) : ℕ := embeddedSize data

def Accept.marshalTo (data : InstanceData) : List (Fin 256) := embeddedMarshalTo data

def Commit.size (data : InstanceData) : ℕ := embeddedSize data

def Commit.marshalTo (data : InstanceData) : List (Fin 256) := embeddedMarshalTo data

/-- `PreAcceptOK.Size` and `AcceptOK.Size`: no fields. -/
def PreAcceptOK.size : ℕ := 0

def PreAcceptOK.marshalTo : List (Fin 256) := []

def AcceptOK.size : ℕ := 0

def AcceptOK.marshalTo : List (Fin 256) := []

/-- `PreAcceptReply.Size`. -/
def PreAcceptReply.size (m : PreAcceptReply) : ℕ :=
  (if m.updatedSeqNum ≠ 0 then 1 + sovEpaxos m.updatedSeqNum else 0) +
  (m.updatedDeps.map fun e => 1 + e.size + sovEpaxos e.size).sum

/-- `PreAcceptReply.MarshalTo`. -/
def PreAcceptReply.marshalTo (m : PreAcceptReply) : List (Fin 256) :=
  (if m.updatedSeqNum ≠ 0 then 0x8 :: encodeVarintEpaxos m.updatedSeqNum else []) ++
  m.updatedDeps.flatMap fun e => 0x12 :: encodeVarintEpaxos e.size ++ e.marshalTo

/-- `Size` of a case of the oneof whose record has `Size` `l`. -/
def oneofSize (l : ℕ) : ℕ := 1 + l + sovEpaxos l

/-- `MarshalTo` of a case of the oneof: its tag, the `Size` of its record and
the record. -/
def oneofMarshalTo (tag : Fin 256) (l : ℕ) (bs : List (Fin 256)) : List (Fin 256) :=
  tag :: encodeVarintEpaxos l ++ bs

/-- `Message_PreAccept.Size` and the other cases. -/
def MessageType.size : MessageType → ℕ
  | .preAccept data => oneofSize (PreAccept.size data)
  | .preAcceptOk => oneofSize PreAcceptOK.size
  | .preAcceptReply reply => oneofSize reply.size
  | .accept data => oneofSize (Accept.size data)
  | .acceptOk => oneofSize AcceptOK.size
  | .commit data => oneofSize (Commit.size data)

/-- `Message_PreAccept.MarshalTo` and the other cases. -/
def MessageType.marshalTo : MessageType → List (Fin 256)
  | .preAccept data => oneofMarshalTo 0x22 (PreAccept.size data) (PreAccept.marshalTo data)
  | .preAcceptOk => oneofMarshalTo 0x2a PreAcceptOK.size PreAcceptOK.marshalTo
  | .preAcceptReply reply => oneofMarshalTo 0x32 reply.size reply.marshalTo
  | .accept data => oneofMarshalTo 0x3a (Accept.size data) (Accept.marshalTo data)
  | .acceptOk => oneofMarshalTo 0x42 AcceptOK.size AcceptOK.marshalTo
  | .commit data => oneofMarshalTo 0x4a (Commit.size data) (Commit.marshalTo data)

/-- `Message.Size`. -/
def Message.size (m : Message) : ℕ :=
  (if m.dest ≠ 0 then 1 + sovEpaxos m.dest else 0) +
  (1 + m.ballot.size + sovEpaxos m.ballot.size) +
  (1 + m.instanceID.size + sovEpaxos m.instanceID.size) +
  (match m.type with
    | some t => t.size
    | none => 0)

/-- `Message.MarshalTo`. -/
def Message.marshalTo (m : Message) : List (Fin 256) :=
  (if m.dest ≠ 0 then 0x8 :: encodeVarintEpaxos m.dest else []) ++
  (0x12 :: encodeVarintEpaxos m.ballot.size ++ m.ballot.marshalTo) ++
  (0x1a :: encodeVarintEpaxos m.instanceID.size ++ m.instanceID.marshalTo) ++
  (match m.type with
    | some t => t.marshalTo
    | none => [])

/-- `Message.Marshal`. -/
def Message.marshal (m : Message) : Option (List (Fin 256)) :=
  ProtoWire.marshal m.size m.marshalTo

/-! ### `Unmarshal` -/

def PreAcceptReply.zero : PreAcceptReply := ⟨0, []⟩

def Message.zero : Message := ⟨0, Ballot.zero, InstanceID.zero, none⟩

/-- The switch of `Unmarshal` of `PreAccept`, `Accept` and `Commit`: the
embedded `InstanceData` is read into as it stands. -/
def embeddedCases : ℤ → Option (Case InstanceData)
  | 1 => some (messageCase "InstanceData" InstanceData.unmarshal id fun _ v => v)
  | _ => none

def PreAccept.unmarshal (m : InstanceData) (dAtA : List (Fin 256)) :
    Except DecodeError InstanceData :=
  ProtoWire.unmarshal "PreAccept" embeddedCases m dAtA

def Accept.unmarshal (m : InstanceData) (dAtA : List (Fin 256)) :
    Except DecodeError InstanceData :=
  ProtoWire.unmarshal "Accept" embeddedCases m dAtA

def Commit.unmarshal (m : InstanceData) (dAtA : List (Fin 256)) :
    Except DecodeError InstanceData :=
  ProtoWire.unmarshal "Commit" embeddedCases m dAtA

/-- The switch of `PreAcceptOK.Unmarshal` and `AcceptOK.Unmarshal`: every field
goes to the default branch and is skipped. -/
def emptyCases : ℤ → Option (Case Unit) := fun _ => none

def PreAcceptOK.unmarshal (m : Unit) (dAtA : List (Fin 256)) : Except DecodeError Unit :=
  ProtoWire.unmarshal "PreAcceptOK" emptyCases m dAtA

def AcceptOK.unmarshal (m : Unit) (dAtA : List (Fin 256)) : Except DecodeError Unit :=
  ProtoWire.unmarshal "AcceptOK" emptyCases m dAtA

/-- The switch of `PreAcceptReply.Unmarshal`: each of `UpdatedDeps` is read
into a zero `InstanceID` that is appended. -/
def PreAcceptReply.cases : ℤ → Option (Case PreAcceptReply)
  | 1 => some (varintCase "UpdatedSeqNum" 64 fun m v => { m with updatedSeqNum := v })
  | 2 => some (messageCase "UpdatedDeps" InstanceID.unmarshal (fun _ => InstanceID.zero)
      fun m v => { m with updatedDeps := m.updatedDeps ++ [v] })
  | _ => none

def PreAcceptReply.unmarshal (m : PreAcceptReply) (dAtA : List (Fin 256)) :
    Except DecodeError PreAcceptReply :=
  ProtoWire.unmarshal "PreAcceptReply" PreAcceptReply.cases m dAtA

/-- The switch of `Message.Unmarshal`. A case of the oneof is read into a new
record (`v := &PreAccept{}`), which then replaces the case the message held. -/
def Message.cases : ℤ → Option (Case Message)
  | 1 => some (varintCase "To" 64 fun m v => { m with dest := v })
  | 2 => some (messageCase "Ballot" Ballot.unmarshal (fun m => m.ballot)
      fun m v => { m with ballot := v })
  | 3 => some (messageCase "InstanceID" InstanceID.unmarshal (fun m => m.instanceID)
      fun m v => { m with instanceID := v })
  | 4 => some (messageCase "PreAccept" PreAccept.unmarshal (fun _ => InstanceData.zero)
      fun m v => { m with type := some (.preAccept v) })
  | 5 => some (messageCase "PreAcceptOk" PreAcceptOK.unmarshal (fun _ => ())
      fun m _ => { m with type := some .preAcceptOk })
  | 6 => some (messageCase "PreAcceptReply" PreAcceptReply.unmarshal (fun _ => PreAcceptReply.zero)
      fun m v => { m with type := some (.preAcceptReply v) })
  | 7 => some (messageCase "Accept" Accept.unmarshal (fun _ => InstanceData.zero)
      fun m v => { m with type := some (.accept v) })
  | 8 => some (messageCase "AcceptOk" AcceptOK.unmarshal (fun _ => ())
      fun m _ => { m with type := some .acceptOk })
  | 9 => some (messageCase "Commit" Commit.unmarshal (fun _ => InstanceData.zero)
      fun m v => { m with type := some (.commit v) })
  | _ => none

/-- `Message.Unmarshal`. -/
def Message.unmarshal (m : Message) (dAtA : List (Fin 256)) : Except DecodeError Message :=
  ProtoWire.unmarshal "Message" Message.cases m dAtA

/-! ### `Size` is the length of what `MarshalTo` writes -/

theorem embedded_length_marshalTo (data : InstanceData) :
    (embeddedMarshalTo data).length = embeddedSize data := by
  simp only [embeddedMarshalTo, embeddedSize, List.length_cons, List.length_append,
    length_encodeVarintEpaxos, data.length_marshalTo]
  omega

theorem PreAcceptReply.length_marshalTo (m : PreAcceptReply) : m.marshalTo.length = m.size := by
  have hdeps : (m.updatedDeps.flatMap fun e => 0x12 :: encodeVarintEpaxos e.size ++ e.marshalTo).length =
      (m.updatedDeps.map fun e => 1 + e.size + sovEpaxos e.size).sum := by
    rw [List.length_flatMap]
    congr 1
    refine List.map_congr_left fun e _ => ?_
    simp only [List.length_append, List.length_cons, length_encodeVarintEpaxos,
      InstanceID.length_marshalTo]
    omega
  simp only [PreAcceptReply.marshalTo, PreAcceptReply.size, List.length_append, hdeps]
  split_ifs
  · simp only [List.length_cons, length_encodeVarintEpaxos]
    omega
  · simp

theorem oneof_length_marshalTo (tag : Fin 256) {l : ℕ} {bs : List (Fin 256)} (h : bs.length = l) :
    (oneofMarshalTo tag l bs).length = oneofSize l := by
  simp only [oneofMarshalTo, oneofSize, List.length_cons, List.length_append,
    length_encodeVarintEpaxos, h]
  omega

theorem MessageType.length_marshalTo (t : MessageType) : t.marshalTo.length = t.size := by
  cases t with
  | preAccept data => exact oneof_length_marshalTo _ (embedded_length_marshalTo data)
  | preAcceptOk => exact oneof_length_marshalTo _ rfl
  | preAcceptReply reply => exact oneof_length_marshalTo _ reply.length_marshalTo
  | accept data => exact oneof_length_marshalTo _ (embedded_length_marshalTo data)
  | acceptOk => exact oneof_length_marshalTo _ rfl
  | commit data => exact oneof_length_marshalTo _ (embedded_length_marshalTo data)

theorem Message.length_marshalTo (m : Message) : m.marshalTo.length = m.size := by
  simp only [Message.marshalTo, Message.size, List.length_append, List.length_cons,
    length_encodeVarintEpaxos, Ballot.length_marshalTo, InstanceID.length_marshalTo]
  cases m.type with
  | none => split_ifs <;> simp <;> omega
  | some t => split_ifs <;> simp [t.length_marshalTo] <;> omega

/-- `Marshal` fills the buffer of `Size` bytes. -/
theorem Message.marshal_eq (m : Message) : m.marshal = some m.marshalTo := by
  rw [Message.marshal, ProtoWire.marshal, if_pos (le_of_eq m.length_marshalTo)]

/-! ### `Unmarshal` reads back what `MarshalTo` writes -/

def PreAcceptReply.Fits (m : PreAcceptReply) : Prop :=
  m.updatedSeqNum < 2 ^ 64 ∧ ∀ d ∈ m.updatedDeps, d.Fits

def MessageType.Fits : MessageType → Prop
  | .preAccept data | .accept data | .commit data => data.Fits
  | .preAcceptReply reply => reply.Fits
  | .preAcceptOk | .acceptOk => True

def Message.Fits (m : Message) : Prop :=
  m.dest < 2 ^ 64 ∧ m.ballot.Fits ∧ m.instanceID.Fits ∧ ∀ t ∈ m.type, t.Fits

/-- The embedded `InstanceData` of `PreAccept`, `Accept` and `Commit`, read
into the zero record. -/
theorem embedded_reads (msg : String) {data : InstanceData} (h : data.Fits)
    (pre : List (Fin 256)) :
    Reads msg embeddedCases pre (embeddedMarshalTo data) InstanceData.zero data :=
  Reads.message (n := 1) (rfl : (0xa : Fin 256).val = 8 * 1 + 2) (by decide) (by decide) rfl
    data.length_marshalTo (fun hl => (data.reads_marshalTo h []).unmarshal_eq hl) rfl

theorem PreAcceptReply.reads_marshalTo {m : PreAcceptReply} (h : m.Fits) (pre : List (Fin 256)) :
    Reads "PreAcceptReply" PreAcceptReply.cases pre m.marshalTo PreAcceptReply.zero m := by
  obtain ⟨seq, deps⟩ := m
  obtain ⟨hseq, hdeps⟩ := h
  -- each of `UpdatedDeps` is read into a zero `InstanceID` and appended
  have hdep : ∀ e ∈ deps, ∀ pre m, Reads "PreAcceptReply" PreAcceptReply.cases pre
      (0x12 :: encodeVarintEpaxos e.size ++ e.marshalTo) m
      { m with updatedDeps := m.updatedDeps ++ [e] } := fun e he pre m =>
    Reads.message (n := 2) (rfl : (0x12 : Fin 256).val = 8 * 2 + 2) (by decide) (by decide) rfl
      (InstanceID.length_marshalTo e)
      (fun hl => (InstanceID.reads_marshalTo (hdeps e he) []).unmarshal_eq hl) rfl
  exact Reads.append
    (Reads.optVarint (n := 1) (rfl : (0x8 : Fin 256).val = 8 * 1) (by decide) (by decide) rfl le_rfl
      hseq rfl rfl)
    (Reads.repeated (fun l => (⟨seq, l⟩ : PreAcceptReply)) (fun _ _ => rfl) hdep _ [])

/-- The case of the oneof, read into a new record of its type. -/
theorem MessageType.reads_marshalTo {t : MessageType} (h : t.Fits) (pre : List (Fin 256))
    (m : Message) :
    Reads "Message" Message.cases pre t.marshalTo m { m with type := some t } := by
  cases t with
  | preAccept data =>
    refine Reads.message (n := 4) (rfl : (0x22 : Fin 256).val = 8 * 4 + 2) (by decide) (by decide)
      rfl ?_ (fun hl => ?_) rfl
    · exact embedded_length_marshalTo data
    · exact (embedded_reads "PreAccept" h []).unmarshal_eq hl
  | preAcceptOk =>
    -- an empty record: its length is zero, and its `Unmarshal` of no bytes does nothing
    exact Reads.message (n := 5) (rfl : (0x2a : Fin 256).val = 8 * 5 + 2) (by decide) (by decide)
      rfl (rfl : PreAcceptOK.marshalTo.length = PreAcceptOK.size)
      (fun _ => (rfl : PreAcceptOK.unmarshal () PreAcceptOK.marshalTo = .ok ())) rfl
  | preAcceptReply reply =>
    refine Reads.message (n := 6) (rfl : (0x32 : Fin 256).val = 8 * 6 + 2) (by decide) (by decide)
      rfl ?_ (fun hl => ?_) rfl
    · exact reply.length_marshalTo
    · exact (reply.reads_marshalTo h []).unmarshal_eq hl
  | accept data =>
    refine Reads.message (n := 7) (rfl : (0x3a : Fin 256).val = 8 * 7 + 2) (by decide) (by decide)
      rfl ?_ (fun hl => ?_) rfl
    · exact embedded_length_marshalTo data
    · exact (embedded_reads "Accept" h []).unmarshal_eq hl
  | acceptOk =>
    -- an empty record: its length is zero, and its `Unmarshal` of no bytes does nothing
    exact Reads.message (n := 8) (rfl : (0x42 : Fin 256).val = 8 * 8 + 2) (by decide) (by decide)
      rfl (rfl : AcceptOK.marshalTo.length = AcceptOK.size)
      (fun _ => (rfl : AcceptOK.unmarshal () AcceptOK.marshalTo = .ok ())) rfl
  | commit data =>
    refine Reads.message (n := 9) (rfl : (0x4a : Fin 256).val = 8 * 9 + 2) (by decide) (by decide)
      rfl ?_ (fun hl => ?_) rfl
    · exact embedded_length_marshalTo data
    · exact (embedded_reads "Commit" h []).unmarshal_eq hl

theorem Message.reads_marshalTo {m : Message} (h : m.Fits) (pre : List (Fin 256)) :
    Reads "Message" Message.cases pre m.marshalTo Message.zero m := by
  obtain ⟨dest, ballot, id, type⟩ := m
  obtain ⟨hdest, hballot, hid, htype⟩ := h
  have hfirst : ∀ pre, Reads "Message" Message.cases pre _ Message.zero ⟨dest, ballot, id, none⟩ :=
    fun pre => Reads.append (Reads.append
      (Reads.optVarint (n := 1) (rfl : (0x8 : Fin 256).val = 8 * 1) (by decide) (by decide) rfl
        le_rfl hdest rfl rfl)
      (Reads.message (n := 2) (rfl : (0x12 : Fin 256).val = 8 * 2 + 2) (by decide) (by decide) rfl
        ballot.length_marshalTo (fun hl => (ballot.reads_marshalTo hballot []).unmarshal_eq hl)
        rfl))
      (Reads.message (n := 3) (rfl : (0x1a : Fin 256).val = 8 * 3 + 2) (by decide) (by decide) rfl
        id.length_marshalTo (fun hl => (id.reads_marshalTo hid []).unmarshal_eq hl) rfl)
  cases type with
  | none => exact Reads.append (hfirst pre) (Reads.nil _ _)
  | some t => exact Reads.append (hfirst pre) (t.reads_marshalTo (htype t rfl) _ _)

/-- `Marshal` of a message whose numbers fit their Go types never panics, and
`Unmarshal` of its bytes into a fresh record gives it back. -/
theorem Message.unmarshal_marshal_eq {m : Message} (h : m.Fits) (hl : m.size < 2 ^ 63) :
    m.marshal = some m.marshalTo ∧ Message.unmarshal Message.zero m.marshalTo = .ok m :=
  ⟨m.marshal_eq, (m.reads_marshalTo h []).unmarshal_eq (by rwa [m.length_marshalTo])⟩

/-- The `Commit` of an instance with a writing command and one dependency. -/
def Message.sample : Message :=
  ⟨2, Ballot.zero, ⟨1, 3⟩, some (.commit ⟨some ⟨7, ⟨[97], []⟩, true, [1, 2]⟩, 4, [⟨2, 1⟩]⟩)⟩

theorem Message.sample_fits : sample.Fits ∧ sample.size < 2 ^ 63 := by
  constructor
  · simp [sample, Message.Fits, MessageType.Fits, InstanceID.Fits, InstanceData.Fits,
      Command.Fits, Ballot.Fits, Ballot.zero]
  · simp (disch := decide) [sample, Message.size, MessageType.size, oneofSize, Commit.size,
      embeddedSize, InstanceID.size, InstanceData.size, Command.size, Ballot.size, Ballot.zero,
      Span.size, sovEpaxos, Varint.size_of_lt]

theorem Message.unmarshal_marshal_eq_sample :
    (sample.Fits ∧ sample.size < 2 ^ 63) ∧ sample.marshal = some sample.marshalTo ∧
      Message.unmarshal Message.zero sample.marshalTo = .ok sample :=
  ⟨sample_fits, unmarshal_marshal_eq sample_fits.1 sample_fits.2⟩

/-! ### Deciding `Fits` -/

end Pb

instance : DecidablePred InstanceID.Fits := fun _ => inferInstanceAs (Decidable (_ ∧ _))

namespace Pb

instance : DecidablePred Command.Fits := fun m => inferInstanceAs (Decidable (m.id < 2 ^ 64))

instance : DecidablePred Ballot.Fits := fun _ => inferInstanceAs (Decidable (_ ∧ _ ∧ _))

instance : DecidablePred InstanceData.Fits := fun _ => inferInstanceAs (Decidable (_ ∧ _ ∧ _))

instance : DecidablePred PreAcceptReply.Fits := fun _ => inferInstanceAs (Decidable (_ ∧ _))

instance : DecidablePred MessageType.Fits
  | .preAccept data | .accept data | .commit data => inferInstanceAs (Decidable data.Fits)
  | .preAcceptReply reply => inferInstanceAs (Decidable reply.Fits)
  | .preAcceptOk | .acceptOk => inferInstanceAs (Decidable True)

instance : DecidablePred Message.Fits := fun _ => inferInstanceAs (Decidable (_ ∧ _ ∧ _ ∧ _))

end Pb

end EPaxos
