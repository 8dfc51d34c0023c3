import EPaxos.Order
import EPaxos.Lib.OptionFold

/-!
# Instances without a command

`seqAndDepsForCommand` reads the command of every instance the replica holds,
and every range-group call panics on an empty or inverted range. When every
held instance carries a command with a well-formed span, the scan, and with it
`Request`, cannot panic (`onRequest_isSome`).

An `Accept` carries no command (`instanceDataWithoutCommand`), and `Step`
creates the instance an `Accept` names when the replica does not know it. A
replica whose `PreAccept` was lost therefore holds an `Accepted` instance
without a command, and its next `Request` dereferences it.
-/
namespace EPaxos

/-- A span is a point (no end key) or ends above its start. -/
def Span.WellFormed (s : Span) : Prop := s.endKey = [] ∨ s.key < s.endKey

instance (s : Span) : Decidable s.WellFormed := by
  unfold Span.WellFormed
  infer_instance

theorem lt_append_zero (k : Key) : k < k ++ [0] := by
  induction k with
  | nil => exact List.nil_lt_cons _ _
  | cons a k ih => exact List.cons_lt_cons_iff.mpr (.inr ⟨rfl, ih⟩)

theorem rangeForCmd_valid {cmd : Command} (h : cmd.span.WellFormed) :
    (rangeForCmd cmd).rangeError = false := by
  unfold rangeForCmd Range.rangeError
  rcases h with h | h
  · simp [h, lt_append_zero]
  · have hne : cmd.span.endKey ≠ [] := by
      rintro hnil
      rw [hnil] at h
      exact List.not_lt_nil _ h
    simp [List.isEmpty_iff, hne, h]

namespace RangeGroup

variable (g : RangeGroup) {r : Range} (hr : r.rangeError = false)
include hr

theorem add_of_valid : g.add r = some ((addAux r g.ranges).1, ⟨(addAux r g.ranges).2⟩) := by
  simp [add, hr]

theorem overlaps_of_valid : g.overlaps r = some (overlapsAux r g.ranges) := by
  simp [overlaps, hr]

theorem encloses_of_valid : g.encloses r = some (enclosesAux r g.ranges) := by
  simp [encloses, hr]

end RangeGroup

/-- Every instance of the scanned space other than the ignored one carries a
command with a well-formed span. -/
def CommandsWellFormed (ignored : InstanceID) (insts : List Instance) : Prop :=
  ∀ inst ∈ insts, inst.is.instanceID ≠ ignored →
    ∃ c, inst.is.command = some c ∧ c.span.WellFormed

instance (ignored : InstanceID) (insts : List Instance) :
    Decidable (CommandsWellFormed ignored insts) :=
  decidable_of_iff (insts.all fun inst => decide (inst.is.instanceID = ignored) ||
      inst.is.command.any fun c => decide c.span.WellFormed) (by
    simp only [CommandsWellFormed, List.all_eq_true, Bool.or_eq_true, decide_eq_true_eq,
      Option.any_eq_true]
    exact forall₂_congr fun inst _ => or_iff_not_imp_left)

/-- The `Descend` callback does not panic on a space whose instances carry
well-formed commands. -/
theorem descendDeps_isSome {cmd : Command} (hcmd : cmd.span.WellFormed) (ignored : InstanceID)
    (rID : ℕ) :
    ∀ (insts : List Instance) (g : RangeGroup) (acc : ℕ × List InstanceID),
      CommandsWellFormed ignored insts → (descendDeps cmd ignored rID insts g acc).isSome
  | [], _, _, _ => rfl
  | inst :: rest, g, acc, h => by
    have ih : ∀ g acc, (descendDeps cmd ignored rID rest g acc).isSome := fun g acc =>
      descendDeps_isSome hcmd ignored rID rest g acc fun i hi => h i (List.mem_cons_of_mem _ hi)
    unfold descendDeps
    split_ifs with hign
    · exact ih g acc
    obtain ⟨c, hc, hwf⟩ := h inst List.mem_cons_self hign
    have hvalid := rangeForCmd_valid hwf
    simp only [hc, Option.bind_eq_bind, Option.bind_some]
    -- every range-group call gets a valid range
    split_ifs
    · rw [RangeGroup.add_of_valid g hvalid, Option.bind_some]
      dsimp only
      split_ifs
      · rw [RangeGroup.encloses_of_valid _ (rangeForCmd_valid hcmd), Option.bind_some]
        split_ifs
        · rfl
        · exact ih _ _
      · exact ih _ _
      · exact ih _ _
    · rw [RangeGroup.overlaps_of_valid g hvalid, Option.bind_some]
      exact ih _ _
    · exact ih g acc

/-- Every instance the replica holds, other than the ignored one, carries a
well-formed command. -/
def Replica.CommandsWellFormed (p : Replica) (ignored : InstanceID) : Prop :=
  ∀ r, EPaxos.CommandsWellFormed ignored (p.commands r).items

theorem seqAndDepsForCommand_isSome {p : Replica} {cmd : Command} {ignored : InstanceID}
    (hcmd : cmd.span.WellFormed) (h : p.CommandsWellFormed ignored) :
    (p.seqAndDepsForCommand cmd ignored).isSome := by
  unfold Replica.seqAndDepsForCommand
  -- one replica space after the other, each scan returns
  refine OptionFold.foldlM_isSome _ (fun acc r => ?_) p.nodes _
  exact descendDeps_isSome hcmd ignored r _ RangeGroup.empty acc (h r)

/-- `Request` panics only on an instance without a well-formed command: at a
replica whose instances all carry one, it returns. -/
theorem onRequest_isSome (order : MapOrder InstanceID) {p : Replica} {cmd : Command}
    (hcmd : cmd.span.WellFormed) (h : p.CommandsWellFormed ⟨0, 0⟩) :
    (p.onRequest order cmd).isSome := by
  obtain ⟨⟨s, ds⟩, hsd⟩ := Option.isSome_iff_exists.mp (seqAndDepsForCommand_isSome hcmd h)
  simp only [Replica.onRequest, Option.bind_eq_bind, hsd, Option.bind_some, Replica.transitionTo,
    Replica.getInstance_setInstance, Instance.ofState]
  rfl

/-- A replica that holds one pre-accepted write of its own. -/
def oneWrite : Replica :=
  (Replica.empty 0 [0, 1, 2] (Storage.empty true)).setInstance
    (Instance.ofState ⟨⟨0, 1⟩, .preAccepted, some (Network.writeA 1), 1, []⟩)

theorem onRequest_isSome_oneWrite :
    (Network.writeA 2).span.WellFormed ∧ oneWrite.CommandsWellFormed ⟨0, 0⟩ ∧
      (oneWrite.onRequest (MapOrder.id _) (Network.writeA 2)).isSome :=
  have hwf : oneWrite.CommandsWellFormed ⟨0, 0⟩ := fun r => by
    by_cases hr : r = 0
    · subst hr
      decide
    · simp [oneWrite, Replica.setInstance, Replica.empty, Instance.ofState, Function.update_of_ne hr,
        CommandsWellFormed, BTree.empty]
  ⟨.inl rfl, hwf, onRequest_isSome _ (.inl rfl) hwf⟩

namespace Network

/-- Replica `2` proposes a write of `a`; replica `0` proposes another, whose
`PreAccept` to replica `1` is lost. Replica `2` answers with a new dependency,
so replica `0` takes the slow path and sends `Accept`s without the command. -/
def nilRun : List Event :=
  [.request 2 (writeA 2),
   .request 0 (writeA 1),
   .deliver ⟨2, ⟨0, 1⟩, .preAccept ⟨some (writeA 1), 1, []⟩⟩,
   .drop ⟨1, ⟨0, 1⟩, .preAccept ⟨some (writeA 1), 1, []⟩⟩,
   .deliver ⟨0, ⟨0, 1⟩, .preAcceptReply 2 [⟨2, 1⟩]⟩,
   .deliver ⟨1, ⟨0, 1⟩, .accept ⟨none, 2, [⟨2, 1⟩]⟩⟩]

def nilNet : Network :=
  (runEvents (MapOrder.id _) (MapOrder.id _) nilRun (init [0, 1, 2] fun _ => true)).get
    (by decide)

theorem accepted_without_command_panics :
    (∀ n, (writeA n).span.WellFormed) ∧
    Reachable [0, 1, 2] (fun _ => true) false nilNet ∧
    (nilNet.replicas 1).liveState ⟨0, 1⟩ = some ⟨⟨0, 1⟩, .accepted, none, 2, [⟨2, 1⟩]⟩ ∧
    step (MapOrder.id _) (MapOrder.id _) (.request 1 (writeA 3)) nilNet = none :=
  ⟨fun _ => .inl rfl, reachable_of_runEvents (by decide) (Option.some_get _).symm, by decide,
    by decide⟩

end Network

end EPaxos
