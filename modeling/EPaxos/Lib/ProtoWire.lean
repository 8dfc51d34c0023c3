import EPaxos.Lib.Varint

/-!
# The decoders `protoc-gen-gogo` generates

A generated `Unmarshal` walks the buffer `dAtA` with an index `iNdEx`. Each
pass of its loop reads a tag varint; the field number is `int32(wire >> 3)`
and the wire type `wire & 7`. Wire type 4 and a field number below one are
errors. The switch on the field number runs the field's case, which checks
the wire type and reads a varint, or a length and that many bytes (`Case`). An
unknown field is measured by the generated `skip` and stepped over. After the
loop, an index past the end is an early end (`fields`).

Lengths and indices are Go `int`s. A length is a varint read into 64 bits and
read as signed, so a length of `2^63` or more is negative: `ErrInvalidLength`.
The end `iNdEx + msglen` of a field can overflow to a negative `int`. It then
passes the check against `len(dAtA)`, and slicing the buffer with it panics
(`lengthDelimited`).

For the round trip, `Decodes` states that the loop over the bytes after a
prefix turns one message into another for any fuel that covers them. A field
is decoded by its case and the loop goes on after it (`Decodes.cons`), and each
kind of case reads back what an encoder writes (`varintCase_encode`,
`bytesCase_encode`, `messageCase_encode`).
-/
namespace ProtoWire

/-- The errors of a generated decoder, and a Go runtime panic. -/
inductive DecodeError
  /-- `ErrIntOverflow`: "proto: integer overflow". -/
  | intOverflow
  /-- `io.ErrUnexpectedEOF`. -/
  | unexpectedEOF
  /-- `ErrInvalidLength`: "proto: negative length found during unmarshaling". -/
  | invalidLength
  /-- "proto: `msg`: wiretype end group for non-group". -/
  | endGroup (msg : String)
  /-- "proto: `msg`: illegal tag `fieldNum` (wire type `wire`)"; the generated
  code prints the whole tag as the wire type. -/
  | illegalTag (msg : String) (fieldNum : ℤ) (wire : ℕ)
  /-- "proto: wrong wireType = `wireType` for field `field`". -/
  | wrongWireType (wireType : ℕ) (field : String)
  /-- "proto: illegal wireType `wireType`", from `skip`. -/
  | illegalWireType (wireType : ℕ)
  /-- A runtime panic: an index or a slice bound out of range. -/
  | outOfRange
  deriving DecidableEq, Repr

def ofVarint : Varint.Error → DecodeError
  | .overflow => .intOverflow
  | .eof => .unexpectedEOF

/-- A Go `int` of 64 bits: the integer wrapped into `[-2^63, 2^63)`. -/
def int64 (x : ℤ) : ℤ := (x + 2 ^ 63) % 2 ^ 64 - 2 ^ 63

/-- `int32(x)` of a word. -/
def int32 (x : ℕ) : ℤ := ((x : ℤ) + 2 ^ 31) % 2 ^ 32 - 2 ^ 31

/-- The varint loop at `iNdEx`: the word of `w` bits and the index after it. -/
def varintAt (w : ℕ) (dAtA : List (Fin 256)) (iNdEx : ℕ) : Except DecodeError (ℕ × ℕ) :=
  match Varint.read w 0 0 (dAtA.drop iNdEx) with
  | .error e => .error (ofVarint e)
  | .ok r => .ok (r.1, iNdEx + r.2)

/-- The length of a bytes or message field and its checks: the index after the
length and `postIndex`, the end of the field. -/
def lengthDelimited (dAtA : List (Fin 256)) (iNdEx : ℕ) : Except DecodeError (ℕ × ℕ) := do
  let r ← varintAt 64 dAtA iNdEx
  -- `msglen < 0`
  if 2 ^ 63 ≤ r.1 then .error .invalidLength
  -- a `postIndex` past `2^63 - 1` is negative: it passes `postIndex > l`, and the slice panics
  else if 2 ^ 63 ≤ r.2 + r.1 then .error .outOfRange
  else if dAtA.length < r.2 + r.1 then .error .unexpectedEOF
  else .ok (r.2, r.2 + r.1)

/-- A case of the switch on the field number: from the buffer, the index after
the tag, the wire type and the message so far, the message and the index after
the field. -/
abbrev Case (σ : Type) := List (Fin 256) → ℕ → ℕ → σ → Except DecodeError (σ × ℕ)

variable {σ τ : Type}

/-- A varint field: wire type 0, read into a word of `w` bits. -/
def varintCase (field : String) (w : ℕ) (set : σ → ℕ → σ) : Case σ :=
  fun dAtA iNdEx wireType m =>
    if wireType ≠ 0 then .error (.wrongWireType wireType field)
    else (varintAt w dAtA iNdEx).map fun r => (set m r.1, r.2)

/-- A bytes field: wire type 2, a length and that many bytes. -/
def bytesCase (field : String) (set : σ → List (Fin 256) → σ) : Case σ :=
  fun dAtA iNdEx wireType m =>
    if wireType ≠ 2 then .error (.wrongWireType wireType field)
    else (lengthDelimited dAtA iNdEx).map fun r => (set m ((dAtA.take r.2).drop r.1), r.2)

/-- An embedded message field: wire type 2, a length, and the message's own
`Unmarshal` of that many bytes into the field as it stands. -/
def messageCase (field : String) (unmarshal : τ → List (Fin 256) → Except DecodeError τ)
    (get : σ → τ) (set : σ → τ → σ) : Case σ :=
  fun dAtA iNdEx wireType m =>
    if wireType ≠ 2 then .error (.wrongWireType wireType field)
    else do
      let r ← lengthDelimited dAtA iNdEx
      let sub ← unmarshal (get m) ((dAtA.take r.2).drop r.1)
      pure (set m sub, r.2)

mutual

/-- `skip`: the length, as an `int`, of the field whose tag starts `dAtA`;
`fuel` bounds the nesting of groups. -/
def skip : ℕ → List (Fin 256) → Except DecodeError ℤ
  | 0, _ => .error .outOfRange
  | fuel + 1, dAtA =>
    -- every case returns; an empty buffer reaches `panic("unreachable")`
    if dAtA = [] then .error .outOfRange
    else do
      let r ← varintAt 64 dAtA 0
      match r.1 &&& 7 with
      | 0 => do
        let s ← varintAt 64 dAtA r.2
        pure s.2
      | 1 => pure (r.2 + 8 : ℕ)
      | 2 => do
        let s ← varintAt 64 dAtA r.2
        if 2 ^ 63 ≤ s.1 then .error .invalidLength else pure (int64 (s.2 + s.1 : ℕ))
      | 3 => skipGroup fuel dAtA r.2
      | 4 => pure r.2
      | 5 => pure (r.2 + 4 : ℕ)
      | wireType => throw (.illegalWireType wireType)

/-- The loop of `skip` over the fields of a group from `start`, up to its
end-group tag. -/
def skipGroup : ℕ → List (Fin 256) → ℕ → Except DecodeError ℤ
  | 0, _, _ => .error .outOfRange
  | fuel + 1, dAtA, start => do
    let r ← varintAt 64 dAtA start
    if r.1 &&& 7 = 4 then pure r.2
    else do
      let next ← skip fuel (dAtA.drop start)
      let iNdEx := int64 (start + next)
      -- a negative index is read at the next tag: `dAtA[iNdEx]` panics
      if iNdEx < 0 then .error .outOfRange else skipGroup fuel dAtA iNdEx.toNat

end

/-- The field number and the wire type of a tag, and the checks on them. -/
def tagOf (msg : String) (wire : ℕ) : Except DecodeError (ℤ × ℕ) :=
  let fieldNum := int32 (wire >>> 3)
  let wireType := wire &&& 7
  if wireType = 4 then .error (.endGroup msg)
  else if fieldNum ≤ 0 then .error (.illegalTag msg fieldNum wire)
  else .ok (fieldNum, wireType)

/-- The default branch of the switch: the field whose tag is at `preIndex`,
measured by `skip`, and the index after it. -/
def skipField (dAtA : List (Fin 256)) (preIndex : ℕ) : Except DecodeError ℕ := do
  let skippy ← skip (dAtA.length - preIndex) (dAtA.drop preIndex)
  if skippy < 0 then .error .invalidLength
  else
    let iNdEx := int64 (preIndex + skippy)
    if (dAtA.length : ℤ) < iNdEx then .error .unexpectedEOF
    -- a negative index passes `iNdEx < l`, and reading the next tag panics
    else if iNdEx < 0 then .error .outOfRange
    else .ok iNdEx.toNat

/-- The loop of a generated `Unmarshal` of the message `msg` from `iNdEx`, for
at most `fuel` more fields: `cases` is the switch on the field number, `none`
in its default branch. Out of fuel, the code after the loop runs. -/
def fields (msg : String) (cases : ℤ → Option (Case σ)) (dAtA : List (Fin 256)) :
    ℕ → ℕ → σ → Except DecodeError σ
  | fuel + 1, iNdEx, m =>
    if iNdEx < dAtA.length then do
      let r ← varintAt 64 dAtA iNdEx
      let tag ← tagOf msg r.1
      match cases tag.1 with
      | some case => do
        let s ← case dAtA r.2 tag.2 m
        fields msg cases dAtA fuel s.2 s.1
      | none => do
        let next ← skipField dAtA iNdEx
        fields msg cases dAtA fuel next m
    else if dAtA.length < iNdEx then .error .unexpectedEOF
    else .ok m
  | 0, iNdEx, m => if dAtA.length < iNdEx then .error .unexpectedEOF else .ok m

/-- `Unmarshal` of `dAtA` into `m`: every pass of the loop reads at least one
byte, so `len(dAtA)` passes are enough. -/
def unmarshal (msg : String) (cases : ℤ → Option (Case σ)) (m : σ) (dAtA : List (Fin 256)) :
    Except DecodeError σ :=
  fields msg cases dAtA dAtA.length 0 m

/-- `Marshal`: a buffer of `Size` bytes that `MarshalTo` fills; writing past it
panics. -/
def marshal (size : ℕ) (written : List (Fin 256)) : Option (List (Fin 256)) :=
  if written.length ≤ size then some written else none

/-! ### Every pass of the loop reads on

A tag takes a byte at least, and a case or `skip` never steps back, so the loop
reaches the end of the buffer within `len(dAtA)` passes: more fuel changes
nothing (`fields_fuel`). -/

/-- The varint loop reads from one to ten bytes, all of them in the buffer. -/
theorem varintAt_bounds {w : ℕ} {dAtA : List (Fin 256)} {i : ℕ} {r : ℕ × ℕ}
    (h : varintAt w dAtA i = .ok r) : i < r.2 ∧ r.2 ≤ i + 10 ∧ r.2 ≤ dAtA.length := by
  unfold varintAt at h
  split at h
  · cases h
  · rename_i r' hr
    simp only [Except.ok.injEq] at h
    subst h
    have := Varint.read_count hr
    simp only [List.length_drop] at this
    omega

/-- `skipGroup` stops after an end-group tag in the buffer. -/
theorem skipGroup_bounds : ∀ {fuel : ℕ} {dAtA : List (Fin 256)} {start : ℕ} {k : ℤ},
    skipGroup fuel dAtA start = .ok k → 1 ≤ k ∧ k ≤ dAtA.length
  | 0, _, _, _, h => by simp [skipGroup] at h
  | fuel + 1, dAtA, start, k, h => by
    rw [skipGroup] at h
    cases hr : varintAt 64 dAtA start with
    | error e => simp [hr, bind, Except.bind] at h
    | ok r =>
      have hb := varintAt_bounds hr
      simp only [hr, bind, Except.bind] at h
      split_ifs at h with hend
      · -- the end-group tag
        simp only [pure, Except.pure, Except.ok.injEq] at h
        omega
      · -- a field of the group, skipped, and the loop from after it
        revert h
        cases hn : skip fuel (dAtA.drop start) with
        | error e => intro h; cases h
        | ok next =>
          intro h
          dsimp only at h
          split_ifs at h
          exact skipGroup_bounds h

/-- The length `skip` measures is negative, or a positive `int`. -/
theorem skip_bounds {fuel : ℕ} {dAtA : List (Fin 256)} {k : ℤ} (h : skip fuel dAtA = .ok k)
    (hl : dAtA.length < 2 ^ 63) : k < 0 ∨ (1 ≤ k ∧ k < 2 ^ 63) := by
  cases fuel with
  | zero => simp [skip] at h
  | succ fuel =>
    rw [skip] at h
    split_ifs at h with hnil
    cases hr : varintAt 64 dAtA 0 with
    | error e => simp [hr, bind, Except.bind] at h
    | ok r =>
      have hb := varintAt_bounds hr
      simp only [hr, bind, Except.bind] at h
      split at h
      · -- wire type 0: a varint
        revert h
        cases hs : varintAt 64 dAtA r.2 with
        | error e => intro h; cases h
        | ok s =>
          intro h
          have := varintAt_bounds hs
          simp only [pure, Except.pure, Except.ok.injEq] at h
          omega
      · -- wire type 1: eight bytes
        simp only [pure, Except.pure, Except.ok.injEq] at h
        omega
      · -- wire type 2: a length and that many bytes
        revert h
        cases hs : varintAt 64 dAtA r.2 with
        | error e => intro h; cases h
        | ok s =>
          intro h
          have := varintAt_bounds hs
          dsimp only at h
          split_ifs at h
          simp only [pure, Except.pure, Except.ok.injEq] at h
          subst h
          unfold int64
          omega
      · -- wire type 3: a group
        have := skipGroup_bounds h
        omega
      · -- wire type 4
        simp only [pure, Except.pure, Except.ok.injEq] at h
        omega
      · -- wire type 5: four bytes
        simp only [pure, Except.pure, Except.ok.injEq] at h
        omega
      · cases h

/-- The default branch steps past the field it skips. -/
theorem skipField_lt {dAtA : List (Fin 256)} {preIndex j : ℕ} (h : skipField dAtA preIndex = .ok j)
    (hl : dAtA.length < 2 ^ 63) (hi : preIndex < dAtA.length) : preIndex < j := by
  unfold skipField at h
  revert h
  cases hs : skip (dAtA.length - preIndex) (dAtA.drop preIndex) with
  | error e => intro h; cases h
  | ok skippy =>
    intro h
    have hb := skip_bounds hs (by simp only [List.length_drop]; omega)
    simp only [bind, Except.bind] at h
    split_ifs at h with hneg hlen hwrap
    simp only [Except.ok.injEq] at h
    subst h
    unfold int64 at hlen hwrap ⊢
    omega

theorem lengthDelimited_bounds {dAtA : List (Fin 256)} {i : ℕ} {r : ℕ × ℕ}
    (h : lengthDelimited dAtA i = .ok r) : i < r.1 ∧ r.1 ≤ r.2 := by
  unfold lengthDelimited at h
  revert h
  cases hr : varintAt 64 dAtA i with
  | error e => intro h; cases h
  | ok r' =>
    intro h
    have := varintAt_bounds hr
    dsimp only [bind, Except.bind] at h
    split_ifs at h
    simp only [Except.ok.injEq] at h
    subst h
    omega

/-- Every case of the switch ends at or after the index it starts from. -/
def Advances (cases : ℤ → Option (Case σ)) : Prop :=
  ∀ n c, cases n = some c → ∀ dAtA i wt m r, c dAtA i wt m = .ok r → i ≤ r.2

theorem varintCase_advances {field : String} {w : ℕ} {set : σ → ℕ → σ} {dAtA : List (Fin 256)}
    {i wt : ℕ} {m : σ} {r : σ × ℕ} (h : varintCase field w set dAtA i wt m = .ok r) : i ≤ r.2 := by
  unfold varintCase at h
  split_ifs at h
  revert h
  cases hr : varintAt w dAtA i with
  | error e => intro h; cases h
  | ok r' =>
    intro h
    simp only [Except.map, Except.ok.injEq] at h
    subst h
    exact (varintAt_bounds hr).1.le

theorem bytesCase_advances {field : String} {set : σ → List (Fin 256) → σ}
    {dAtA : List (Fin 256)} {i wt : ℕ} {m : σ} {r : σ × ℕ}
    (h : bytesCase field set dAtA i wt m = .ok r) : i ≤ r.2 := by
  unfold bytesCase at h
  split_ifs at h
  revert h
  cases hr : lengthDelimited dAtA i with
  | error e => intro h; cases h
  | ok r' =>
    intro h
    simp only [Except.map, Except.ok.injEq] at h
    subst h
    have := lengthDelimited_bounds hr
    exact le_trans this.1.le this.2

theorem messageCase_advances {field : String}
    {unmarshal : τ → List (Fin 256) → Except DecodeError τ} {get : σ → τ} {set : σ → τ → σ}
    {dAtA : List (Fin 256)} {i wt : ℕ} {m : σ} {r : σ × ℕ}
    (h : messageCase field unmarshal get set dAtA i wt m = .ok r) : i ≤ r.2 := by
  unfold messageCase at h
  split_ifs at h
  revert h
  cases hr : lengthDelimited dAtA i with
  | error e => intro h; cases h
  | ok r' =>
    intro h
    have := lengthDelimited_bounds hr
    dsimp only [bind, Except.bind] at h
    revert h
    cases unmarshal (get m) ((dAtA.take r'.2).drop r'.1) with
    | error e => intro h; cases h
    | ok sub =>
      intro h
      simp only [pure, Except.pure, Except.ok.injEq] at h
      subst h
      exact le_trans this.1.le this.2

section Fuel

variable {msg : String} {cases : ℤ → Option (Case σ)} {dAtA : List (Fin 256)}

/-- With cases that never step back, every pass reads on, so a unit of fuel more
than the bytes left changes nothing. -/
theorem fields_succ (hadv : Advances cases) (hl : dAtA.length < 2 ^ 63) :
    ∀ (fuel i : ℕ) (m : σ), dAtA.length ≤ i + fuel →
      fields msg cases dAtA (fuel + 1) i m = fields msg cases dAtA fuel i m
  | 0, i, m, h => by
    simp only [fields, if_neg (show ¬i < dAtA.length by omega)]
  | fuel + 1, i, m, h => by
    rw [fields, fields]
    split_ifs with hi
    · -- one pass: the tag, then the case or the skipped field, then the loop from further on
      cases hr : varintAt 64 dAtA i with
      | error e => simp only [bind, Except.bind]
      | ok r =>
        have hb := varintAt_bounds hr
        cases ht : tagOf msg r.1 with
        | error e => simp only [ht, bind, Except.bind]
        | ok tag =>
          cases hc : cases tag.1 with
          | some c =>
            cases hs : c dAtA r.2 tag.2 m with
            | error e => simp only [ht, hc, hs, bind, Except.bind]
            | ok s =>
              have := hadv _ _ hc _ _ _ _ _ hs
              simp only [ht, hc, hs, bind, Except.bind]
              exact fields_succ hadv hl fuel s.2 s.1 (by omega)
          | none =>
            cases hn : skipField dAtA i with
            | error e => simp only [ht, hc, bind, Except.bind]
            | ok next =>
              have := skipField_lt hn hl hi
              simp only [ht, hc, bind, Except.bind]
              exact fields_succ hadv hl fuel next m (by omega)
    all_goals rfl

/-- Fuel that covers the bytes left is never what stops the loop. -/
theorem fields_fuel (hadv : Advances cases) (hl : dAtA.length < 2 ^ 63) {fuel i : ℕ}
    (h : dAtA.length ≤ i + fuel) (m : σ) :
    ∀ k, fields msg cases dAtA (fuel + k) i m = fields msg cases dAtA fuel i m
  | 0 => rfl
  | k + 1 => by
    rw [← Nat.add_assoc, fields_succ hadv hl _ i m (by omega), fields_fuel hadv hl h m k]

end Fuel

/-! ### Reading back what an encoder writes -/

theorem varintAt_encode {w v : ℕ} (hv : v < 2 ^ 64) {dAtA rest : List (Fin 256)} {i : ℕ}
    (h : dAtA.drop i = Varint.encode v ++ rest) :
    varintAt w dAtA i = .ok (v % 2 ^ w, i + Varint.size v) := by
  rw [varintAt, h, Varint.read_encode hv]

/-- A length read back: the field's bytes start after it and fit in the buffer. -/
theorem lengthDelimited_encode {dAtA bs rest : List (Fin 256)} {i : ℕ}
    (h : dAtA.drop i = Varint.encode bs.length ++ bs ++ rest) (hl : dAtA.length < 2 ^ 63) :
    lengthDelimited dAtA i = .ok (i + Varint.size bs.length, i + Varint.size bs.length + bs.length) := by
  have hlen : i + Varint.size bs.length + bs.length ≤ dAtA.length := by
    have := congrArg List.length h
    simp only [List.length_drop, List.length_append, Varint.length_encode] at this
    have := Varint.size_pos bs.length
    omega
  have hv : bs.length < 2 ^ 64 := by omega
  rw [List.append_assoc] at h
  simp only [lengthDelimited, varintAt_encode hv h, bind, Except.bind, Nat.mod_eq_of_lt hv,
    show ¬2 ^ 63 ≤ bs.length by omega, show ¬2 ^ 63 ≤ i + Varint.size bs.length + bs.length by omega,
    show ¬dAtA.length < i + Varint.size bs.length + bs.length by omega, if_false]

/-- The slice `dAtA[j:j+n]` of the bytes that follow index `j`. -/
theorem slice_eq {dAtA bs rest : List (Fin 256)} {j : ℕ} (h : dAtA.drop j = bs ++ rest) :
    (dAtA.take (j + bs.length)).drop j = bs := by
  rw [List.drop_take, Nat.add_sub_cancel_left, h, List.take_left]

theorem varintCase_encode {field : String} {w : ℕ} {set : σ → ℕ → σ} {v : ℕ} (hv : v < 2 ^ 64)
    {dAtA rest : List (Fin 256)} {i : ℕ} (h : dAtA.drop i = Varint.encode v ++ rest) (m : σ) :
    varintCase field w set dAtA i 0 m = .ok (set m (v % 2 ^ w), i + Varint.size v) := by
  simp only [varintCase, ne_eq, not_true_eq_false, if_false, varintAt_encode hv h]
  rfl

theorem bytesCase_encode {field : String} {set : σ → List (Fin 256) → σ}
    {dAtA bs rest : List (Fin 256)} {i : ℕ}
    (h : dAtA.drop i = Varint.encode bs.length ++ bs ++ rest) (hl : dAtA.length < 2 ^ 63) (m : σ) :
    bytesCase field set dAtA i 2 m =
      .ok (set m bs, i + Varint.size bs.length + bs.length) := by
  have hs : dAtA.drop (i + Varint.size bs.length) = bs ++ rest := by
    rw [← List.drop_drop, h, List.append_assoc, ← Varint.length_encode, List.drop_left]
  simp only [bytesCase, ne_eq, not_true_eq_false, if_false, lengthDelimited_encode h hl]
  rw [Except.map, slice_eq hs]

theorem messageCase_encode {field : String} {unmarshal : τ → List (Fin 256) → Except DecodeError τ}
    {get : σ → τ} {set : σ → τ → σ} {dAtA bs rest : List (Fin 256)} {i : ℕ}
    (h : dAtA.drop i = Varint.encode bs.length ++ bs ++ rest) (hl : dAtA.length < 2 ^ 63) {m : σ}
    {sub : τ} (hsub : unmarshal (get m) bs = .ok sub) :
    messageCase field unmarshal get set dAtA i 2 m =
      .ok (set m sub, i + Varint.size bs.length + bs.length) := by
  have hs : dAtA.drop (i + Varint.size bs.length) = bs ++ rest := by
    rw [← List.drop_drop, h, List.append_assoc, ← Varint.length_encode, List.drop_left]
  simp only [messageCase, ne_eq, not_true_eq_false, if_false, lengthDelimited_encode h hl, bind,
    Except.bind, slice_eq hs, hsub]
  rfl

/-! ### Tags of one byte -/

/-- `int32` keeps a number below `2^31`. -/
theorem int32_of_lt {x : ℕ} (h : x < 2 ^ 31) : int32 x = x := by
  unfold int32
  omega

theorem tag_fieldNum {n wt : ℕ} (h : wt < 8) : (8 * n + wt) >>> 3 = n := by
  rw [Nat.shiftRight_eq_div_pow]
  omega

theorem tag_wireType {n wt : ℕ} (h : wt < 8) : (8 * n + wt) &&& 7 = wt := by
  rw [show (7 : ℕ) = 2 ^ 3 - 1 from rfl, Nat.and_two_pow_sub_one_eq_mod]
  omega

/-- The one-byte tag of field `n` with wire type `wt`. -/
theorem tagOf_eq {msg : String} {n wt : ℕ} (hn : 0 < n) (hn16 : n < 16) (hwt : wt < 8)
    (hwt4 : wt ≠ 4) : tagOf msg (8 * n + wt) = .ok (n, wt) := by
  have hfield : int32 ((8 * n + wt) >>> 3) = n := by
    rw [tag_fieldNum hwt, int32_of_lt (by omega)]
  simp only [tagOf, hfield, tag_wireType hwt, if_neg hwt4]
  rw [if_neg (by omega)]

/-- The bytes after a tag at `pre.length`. -/
theorem drop_tag (pre : List (Fin 256)) (t : Fin 256) (xs : List (Fin 256)) :
    (pre ++ t :: xs).drop (pre.length + 1) = xs := by
  simp [List.drop_append]

/-- One pass of the loop at a one-byte tag of field `n` with wire type `wt`: the
case of `n` runs from the byte after the tag, and the loop goes on from where it
stops. -/
theorem fields_tag {msg : String} {cases : ℤ → Option (Case σ)} {dAtA rest : List (Fin 256)}
    {i : ℕ} {t : Fin 256} {n wt : ℕ} {c : Case σ} (hi : dAtA.drop i = t :: rest)
    (htag : t.val = 8 * n + wt) (hn : 0 < n) (hn16 : n < 16) (hwt : wt < 8) (hwt4 : wt ≠ 4)
    (hc : cases n = some c) (fuel : ℕ) (m : σ) :
    fields msg cases dAtA (fuel + 1) i m =
      (c dAtA (i + 1) wt m).bind fun s => fields msg cases dAtA fuel s.2 s.1 := by
  have ht : t.val < 128 := by omega
  have hlt : i < dAtA.length := by
    have := congrArg List.length hi
    simp only [List.length_drop, List.length_cons] at this
    omega
  have hread : varintAt 64 dAtA i = .ok (t.val, i + 1) := by
    have h := @varintAt_encode 64 t.val (by omega) dAtA rest i
      (by rw [hi, Varint.encode_of_lt ht]; rfl)
    rwa [Nat.mod_eq_of_lt (by omega), Varint.size_of_lt ht] at h
  rw [fields, if_pos hlt]
  simp only [bind, Except.bind, hread, htag, tagOf_eq hn hn16 hwt hwt4, hc]

/-! ### The loop over encoded fields

`Decodes` runs the loop from the end of `pre` to the end of the buffer.
`Reads pre f m m₁` says the loop reads the fields `f` after `pre` and turns
`m` into `m₁`, whatever follows them in a buffer shorter than `2^63`. Reads
compose along the buffer (`Reads.append`, `Reads.flatMap`), each field reads
as its case (`Reads.varint`, `Reads.bytes`, `Reads.message`), and reads of a
whole buffer are its `unmarshal` (`Reads.unmarshal_eq`). -/

section Decodes

variable (msg : String) (cases : ℤ → Option (Case σ))

/-- The loop over the bytes `rest` after `pre`, with any fuel that covers them,
turns `m` into `m'`. -/
def Decodes (pre rest : List (Fin 256)) (m m' : σ) : Prop :=
  ∀ fuel, rest.length ≤ fuel → fields msg cases (pre ++ rest) fuel pre.length m = .ok m'

def Reads (pre f : List (Fin 256)) (m m₁ : σ) : Prop :=
  ∀ rest m', (pre ++ f ++ rest).length < 2 ^ 63 →
    Decodes msg cases (pre ++ f) rest m₁ m' → Decodes msg cases pre (f ++ rest) m m'

variable {msg cases}

/-- At the end of the buffer the loop stops. -/
theorem Decodes.nil (pre : List (Fin 256)) (m : σ) : Decodes msg cases pre [] m m := by
  intro fuel _
  cases fuel <;> simp [fields]

/-- A field with the one-byte tag `t` of field number `n` and wire type `wt`, and
the bytes `payload` that the case of `n` reads. -/
theorem Decodes.cons {pre payload rest : List (Fin 256)} {t : Fin 256} {n wt : ℕ} {c : Case σ}
    {m m₁ m' : σ} (htag : t.val = 8 * n + wt) (hn : 0 < n) (hn16 : n < 16) (hwt : wt < 8)
    (hwt4 : wt ≠ 4) (hc : cases n = some c)
    (hcase : c (pre ++ t :: payload ++ rest) (pre.length + 1) wt m =
      .ok (m₁, pre.length + 1 + payload.length))
    (hnext : Decodes msg cases (pre ++ t :: payload) rest m₁ m') :
    Decodes msg cases pre (t :: payload ++ rest) m m' := by
  intro fuel hfuel
  obtain ⟨fuel, rfl⟩ : ∃ f, fuel = f + 1 := ⟨fuel - 1, by simp at hfuel; omega⟩
  have hnext' := hnext fuel (by simp at hfuel ⊢; omega)
  simp only [List.append_assoc, List.cons_append, List.length_append, List.length_cons] at hcase hnext' ⊢
  rw [fields_tag List.drop_left htag hn hn16 hwt hwt4 hc, hcase,
    show pre.length + 1 + payload.length = pre.length + (payload.length + 1) by omega]
  exact hnext'

theorem Reads.nil (pre : List (Fin 256)) (m : σ) : Reads msg cases pre [] m m := by
  intro rest m' _ h
  simpa using h

/-- Reads of two stretches of fields, one after the other. -/
theorem Reads.append {pre f g : List (Fin 256)} {m m₁ m₂ : σ} (hf : Reads msg cases pre f m m₁)
    (hg : Reads msg cases (pre ++ f) g m₁ m₂) : Reads msg cases pre (f ++ g) m m₂ := by
  intro rest m' hl h
  have hg' := hg rest m' (by simpa only [List.append_assoc] using hl)
    (by simpa only [List.append_assoc] using h)
  have hf' := hf (g ++ rest) m' (by simpa only [List.append_assoc] using hl) hg'
  simpa only [List.append_assoc] using hf'

/-- A field that is written only when `c` holds, and otherwise leaves the
message as it is. -/
theorem Reads.optional {pre f : List (Fin 256)} {m m₁ : σ} {c : Prop} [Decidable c]
    (h : c → Reads msg cases pre f m m₁) (hn : ¬c → m₁ = m) :
    Reads msg cases pre (if c then f else []) m m₁ := by
  split_ifs with hc
  · exact h hc
  · rw [hn hc]
    exact Reads.nil pre m

/-- A repeated field: the fields of each element in turn, each read by `step`. -/
theorem Reads.flatMap {α : Type} {g : α → List (Fin 256)} {step : σ → α → σ} :
    ∀ {xs : List α}, (∀ x ∈ xs, ∀ pre m, Reads msg cases pre (g x) m (step m x)) →
      ∀ pre m, Reads msg cases pre (xs.flatMap g) m (xs.foldl step m)
  | [], _, pre, m => Reads.nil pre m
  | x :: xs, h, pre, m => by
    rw [List.flatMap_cons, List.foldl_cons]
    exact (h x List.mem_cons_self pre m).append
      (Reads.flatMap (fun y hy => h y (List.mem_cons_of_mem x hy)) _ _)

/-- A repeated field whose elements are appended, one by one, to a list of the
message: `mk l` is the message holding the list `l`. -/
theorem Reads.repeated {α : Type} {g : α → List (Fin 256)} {step : σ → α → σ}
    (mk : List α → σ) (hstep : ∀ l x, step (mk l) x = mk (l ++ [x])) {xs : List α}
    (h : ∀ x ∈ xs, ∀ pre m, Reads msg cases pre (g x) m (step m x)) (pre : List (Fin 256))
    (l : List α) : Reads msg cases pre (xs.flatMap g) (mk l) (mk (l ++ xs)) := by
  have hfold : ∀ (ys l : List α), ys.foldl step (mk l) = mk (l ++ ys) := by
    intro ys
    induction ys with
    | nil => simp
    | cons y ys ih =>
      intro l
      rw [List.foldl_cons, hstep, ih, List.append_assoc, List.singleton_append]
  rw [← hfold]
  exact Reads.flatMap h pre (mk l)

/-- A field with the one-byte tag `t`, which the case of its number reads up to
its end, in any buffer shorter than `2^63`. -/
theorem Reads.field {pre payload : List (Fin 256)} {t : Fin 256} {n wt : ℕ} {c : Case σ}
    {m m₁ : σ} (htag : t.val = 8 * n + wt) (hn : 0 < n) (hn16 : n < 16) (hwt : wt < 8)
    (hwt4 : wt ≠ 4) (hc : cases n = some c)
    (hcase : ∀ rest, (pre ++ t :: payload ++ rest).length < 2 ^ 63 →
      c (pre ++ t :: payload ++ rest) (pre.length + 1) wt m =
        .ok (m₁, pre.length + 1 + payload.length)) :
    Reads msg cases pre (t :: payload) m m₁ :=
  fun rest _ hl h => Decodes.cons htag hn hn16 hwt hwt4 hc (hcase rest (by simpa using hl)) h

/-- A varint field of number `n` holding `v`. -/
theorem Reads.varint {pre : List (Fin 256)} {t : Fin 256} {n : ℕ} {field : String} {w : ℕ}
    {set : σ → ℕ → σ} (htag : t.val = 8 * n) (hn : 0 < n) (hn16 : n < 16)
    (hc : cases n = some (varintCase field w set)) {v : ℕ} (hv : v < 2 ^ 64) {m m₁ : σ}
    (hm : set m (v % 2 ^ w) = m₁) : Reads msg cases pre (t :: Varint.encode v) m m₁ := by
  refine Reads.field (htag.trans (Nat.add_zero _).symm) hn hn16 (by decide) (by decide) hc
    fun rest _ => ?_
  have hdrop := drop_tag pre t (Varint.encode v ++ rest)
  rw [List.append_assoc, List.cons_append, varintCase_encode hv hdrop, hm, Varint.length_encode]

/-- A bytes field of number `n` holding `bs`. -/
theorem Reads.bytes {pre : List (Fin 256)} {t : Fin 256} {n : ℕ} {field : String}
    {set : σ → List (Fin 256) → σ} (htag : t.val = 8 * n + 2) (hn : 0 < n) (hn16 : n < 16)
    (hc : cases n = some (bytesCase field set)) (bs : List (Fin 256)) {m m₁ : σ}
    (hm : set m bs = m₁) :
    Reads msg cases pre (t :: Varint.encode bs.length ++ bs) m m₁ := by
  rw [List.cons_append]
  refine Reads.field htag hn hn16 (by decide) (by decide) hc fun rest hl => ?_
  have hdrop := drop_tag pre t (Varint.encode bs.length ++ bs ++ rest)
  rw [List.append_assoc, List.cons_append] at hl ⊢
  rw [bytesCase_encode hdrop (by simpa using hl), hm, List.length_append, Varint.length_encode,
    Nat.add_assoc]

/-- An embedded message field of number `n` with the bytes `bs` of `sub`, after
their length `len`; the message's own `Unmarshal` reads them back into the
field as it stands. -/
theorem Reads.message {pre : List (Fin 256)} {t : Fin 256} {n : ℕ} {field : String}
    {unmarshal : τ → List (Fin 256) → Except DecodeError τ} {get : σ → τ} {set : σ → τ → σ}
    (htag : t.val = 8 * n + 2) (hn : 0 < n) (hn16 : n < 16)
    (hc : cases n = some (messageCase field unmarshal get set)) {len : ℕ} {bs : List (Fin 256)}
    (hlen : bs.length = len) {m m₁ : σ} {sub : τ}
    (hsub : bs.length < 2 ^ 63 → unmarshal (get m) bs = .ok sub) (hm : set m sub = m₁) :
    Reads msg cases pre (t :: Varint.encode len ++ bs) m m₁ := by
  subst hlen
  rw [List.cons_append]
  refine Reads.field htag hn hn16 (by decide) (by decide) hc fun rest hl => ?_
  have hdrop := drop_tag pre t (Varint.encode bs.length ++ bs ++ rest)
  rw [List.append_assoc, List.cons_append] at hl ⊢
  have hl' : (pre ++ t :: (Varint.encode bs.length ++ bs ++ rest)).length < 2 ^ 63 := by
    simpa using hl
  have hbs : bs.length < 2 ^ 63 := by
    simp only [List.length_append, List.length_cons] at hl'
    omega
  rw [messageCase_encode hdrop hl' (hsub hbs), hm, List.length_append, Varint.length_encode,
    Nat.add_assoc]

/-- A proto3 varint field, left out when it is zero. -/
theorem Reads.optVarint {pre : List (Fin 256)} {t : Fin 256} {n : ℕ} {field : String} {w : ℕ}
    {set : σ → ℕ → σ} (htag : t.val = 8 * n) (hn : 0 < n) (hn16 : n < 16)
    (hc : cases n = some (varintCase field w set)) (hw : w ≤ 64) {v : ℕ} (hv : v < 2 ^ w)
    {m m₁ : σ} (hzero : set m 0 = m) (hm : set m v = m₁) :
    Reads msg cases pre (if v ≠ 0 then t :: Varint.encode v else []) m m₁ := by
  refine Reads.optional (fun _ => Reads.varint htag hn hn16 hc ?_ ?_) fun hz => ?_
  · exact lt_of_lt_of_le hv (Nat.pow_le_pow_right (by decide) hw)
  · rw [Nat.mod_eq_of_lt hv, hm]
  · rw [← hm, not_not.mp hz, hzero]

/-- A proto3 bytes field, left out when it is empty. -/
theorem Reads.optBytes {pre : List (Fin 256)} {t : Fin 256} {n : ℕ} {field : String}
    {set : σ → List (Fin 256) → σ} (htag : t.val = 8 * n + 2) (hn : 0 < n) (hn16 : n < 16)
    (hc : cases n = some (bytesCase field set)) (bs : List (Fin 256)) {m m₁ : σ}
    (hempty : set m [] = m) (hm : set m bs = m₁) :
    Reads msg cases pre (if 0 < bs.length then t :: Varint.encode bs.length ++ bs else []) m m₁ := by
  refine Reads.optional (fun _ => Reads.bytes htag hn hn16 hc bs hm) fun hz => ?_
  rw [← hm, List.eq_nil_of_length_eq_zero (Nat.eq_zero_of_not_pos hz), hempty]

/-- Reads of a whole buffer are its `Unmarshal`. -/
theorem Reads.unmarshal_eq {bs : List (Fin 256)} {m m' : σ} (h : Reads msg cases [] bs m m')
    (hl : bs.length < 2 ^ 63) : ProtoWire.unmarshal msg cases m bs = .ok m' := by
  have hd := h [] m' (by simpa using hl) (Decodes.nil _ _) bs.length (by simp)
  simpa [unmarshal] using hd

end Decodes

end ProtoWire
