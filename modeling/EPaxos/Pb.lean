import Mathlib.Data.List.Sort
import Mathlib.Data.List.Dedup
import Mathlib.Data.List.Lex
import Mathlib.Order.Lex
import Mathlib.Data.Prod.Lex

/-!
# The `epaxospb` data model

Keys are byte strings ordered bytewise (`bytes.Compare`), which is the
lexicographic order on `List (Fin 256)`. A point span has an empty end key.
The identifiers and sequence numbers are Go `uint64`s and natural numbers
here. Go's arithmetic on them wraps at `2 ^ 64` where the model's goes on, so
the results are about runs in which none of them reaches `2 ^ 64`. An instance
number counts the requests of its replica (`onRequest`), so in a run of fewer
than `2 ^ 64` requests per replica no instance number wraps. The `Data` payload
of a command and the unused `Ballot` of a message and of an instance state are
not modelled: no function of the package reads them.
-/
namespace EPaxos

/-- A key is a byte string, compared bytewise. -/
abbrev Key := List (Fin 256)

/-- Bytes are not empty; byte literals in keys are built with this instance, stated
with the `Zero ℕ` that `Fin.instOfNat` asks for. -/
instance neZeroByte : @NeZero ℕ (@Zero.ofOfNat0 ℕ (instOfNatNat 0)) 256 :=
  ⟨Nat.succ_ne_zero 255⟩

structure Span where
  key : Key
  endKey : Key
  deriving DecidableEq, Repr

/-- `Span.Overlaps`: four branches for point and range spans. -/
def Span.overlaps (s o : Span) : Bool :=
  if s.endKey.isEmpty && o.endKey.isEmpty then s.key == o.key
  else if s.endKey.isEmpty then decide (o.key ≤ s.key) && decide (s.key < o.endKey)
  else if o.endKey.isEmpty then decide (s.key ≤ o.key) && decide (o.key < s.endKey)
  else decide (o.key < s.endKey) && decide (s.key < o.endKey)

structure Command where
  id : ℕ
  span : Span
  writing : Bool
  deriving DecidableEq, Repr

/-- `Command.Interferes`: at least one writes and the spans overlap. -/
def Command.interferes (c o : Command) : Bool :=
  (c.writing || o.writing) && c.span.overlaps o.span

def maxSeqNum (a b : ℕ) : ℕ := if a > b then a else b

@[simp] theorem maxSeqNum_eq (a b : ℕ) : maxSeqNum a b = max a b := by
  unfold maxSeqNum
  split_ifs with h
  · exact (max_eq_left h.le).symm
  · exact (max_eq_right (not_lt.mp h)).symm

structure InstanceID where
  replicaID : ℕ
  instanceNum : ℕ
  deriving DecidableEq, Repr

namespace InstanceID

theorem toLex_injective :
    Function.Injective fun i : InstanceID => toLex (i.replicaID, i.instanceNum) := by
  rintro ⟨r, n⟩ ⟨r', n'⟩ h
  simp only [toLex_inj, Prod.mk.injEq] at h
  rw [h.1, h.2]

/-- `InstanceIDs.Less`: by replica, then by instance number. -/
instance : LinearOrder InstanceID :=
  LinearOrder.lift' (fun i => toLex (i.replicaID, i.instanceNum)) toLex_injective

theorem lt_def (a b : InstanceID) :
    a < b ↔ a.replicaID < b.replicaID ∨
      (a.replicaID = b.replicaID ∧ a.instanceNum < b.instanceNum) := by
  show toLex (a.replicaID, a.instanceNum) < toLex (b.replicaID, b.instanceNum) ↔ _
  exact Prod.Lex.toLex_lt_toLex

end InstanceID

/-- `depSliceFromMap`: the keys of a dependency set, sorted so that the order is
deterministic. A Go map from ids is modelled by the list of ids inserted into it.
The keys are distinct and `InstanceIDs.Less` is a total order, so every sort,
`sort.Sort` among them, yields this one slice. -/
def depSliceFromMap (depsMap : List InstanceID) : List InstanceID :=
  depsMap.dedup.insertionSort (· ≤ ·)

/-- `unionDepSlices`. -/
def unionDepSlices (a b : List InstanceID) : List InstanceID :=
  depSliceFromMap (a ++ b)

@[simp] theorem mem_depSliceFromMap {d : InstanceID} {m : List InstanceID} :
    d ∈ depSliceFromMap m ↔ d ∈ m := by
  simp [depSliceFromMap, List.mem_insertionSort]

theorem nodup_depSliceFromMap (m : List InstanceID) : (depSliceFromMap m).Nodup :=
  (List.perm_insertionSort _ _).nodup_iff.mpr (List.nodup_dedup m)

/-- The slice is strictly increasing. -/
theorem depSliceFromMap_sorted (m : List InstanceID) : (depSliceFromMap m).Pairwise (· < ·) :=
  ((List.pairwise_insertionSort _ _).and (nodup_depSliceFromMap m)).imp
    fun h => lt_of_le_of_ne h.1 h.2

/-- The status of an instance; Go numbers them from zero. -/
inductive Status
  | none
  | preAccepted
  | accepted
  | committed
  | executed
  deriving DecidableEq, Repr

def Status.toNat : Status → ℕ
  | .none => 0
  | .preAccepted => 1
  | .accepted => 2
  | .committed => 3
  | .executed => 4

/-- `cur - 1` on the status enum; the status below `None` is `-1`, which names
no status. -/
def Status.pred : Status → Option Status
  | .none => Option.none
  | .preAccepted => some .none
  | .accepted => some .preAccepted
  | .committed => some .accepted
  | .executed => some .committed

structure InstanceData where
  command : Option Command
  seqNum : ℕ
  deps : List InstanceID
  deriving DecidableEq, Repr

/-- `pb.InstanceState`; a nil `Command` pointer is `none`. -/
structure InstanceState where
  instanceID : InstanceID
  status : Status
  command : Option Command
  seqNum : ℕ
  deps : List InstanceID
  deriving DecidableEq, Repr

inductive MessageType
  | preAccept (data : InstanceData)
  | preAcceptOk
  | preAcceptReply (updatedSeqNum : ℕ) (updatedDeps : List InstanceID)
  | accept (data : InstanceData)
  | acceptOk
  | commit (data : InstanceData)
  deriving DecidableEq, Repr

structure Message where
  /-- `To`, the destination of the message. -/
  dest : ℕ
  instanceID : InstanceID
  msgType : MessageType
  deriving DecidableEq, Repr

/-- `IsReply`: the replies travel back to the command leader. -/
def isReply : MessageType → Bool
  | .preAcceptOk | .preAcceptReply _ _ | .acceptOk => true
  | _ => false

structure HardState where
  replicaID : ℕ
  nodes : List ℕ
  deriving DecidableEq, Repr

end EPaxos
