import EPaxos.Interference

/-!
# The attributes a replica gives a command

`onPreAccept` records the command of the `PreAccept`, raises its sequence
number above the interfering instances the scan saw, and adds the scan's
dependencies to those of the message. It answers `PreAcceptOK` when neither
changed; the code compares only the number of dependencies, which is exact
because the union holds the message's dependencies and a `PreAccept` carries
no duplicate (`onPreAccept_spec`). The scan skips the instance being handled,
so setting its status first does not change what it finds.

The scan's sequence number is not the maximum over the interfering instances
the replica holds: it stops at a write that encloses the command, and an
earlier instance of the same space may since have had its sequence number
raised by a `PreAcceptReply`. A `Request` then proposes a command whose
sequence number does not exceed that of an interfering instance its replica
holds (`request_seq_not_above_interfering`).
-/
namespace EPaxos

/-! ### The scan skips the handled instance -/

/-- Two lists of instances that agree except at items of the ignored id. -/
def SameBut (ign : InstanceID) (a b : Instance) : Prop :=
  a = b ∨ (a.is.instanceID = ign ∧ b.is.instanceID = ign)

/-- The scan of a space does not read the items of the ignored id. -/
theorem descendDeps_congr {cmd : Command} {ign : InstanceID} {rID : ℕ} {l l' : List Instance}
    (h : List.Forall₂ (SameBut ign) l l') (g : RangeGroup) (acc : ℕ × List InstanceID) :
    descendDeps cmd ign rID l g acc = descendDeps cmd ign rID l' g acc := by
  induction h generalizing g acc with
  | nil => rfl
  | @cons a b l l' hab _ ih =>
    rcases hab with rfl | ⟨ha, hb⟩
    · -- the same item: the same step, then scans of the rest that agree
      rw [descendDeps, descendDeps]
      simp only [ih]
    · rw [descendDeps, descendDeps, if_pos ha, if_pos hb]
      exact ih g acc

/-- Writing an item over the item of its number in a list kept highest first
changes the list only at that item. -/
theorem insertDesc_sameBut {ign : InstanceID} {x : Instance} (hx : x.is.instanceID = ign) :
    ∀ {l : List Instance}, l.Pairwise (fun a b => b.num < a.num) → (∃ y ∈ l, y.num = x.num) →
      (∀ z ∈ l, z.num = x.num → z.is.instanceID = ign) →
      List.Forall₂ (SameBut ign) l (BTree.insertDesc x l)
  | [], _, ⟨_, hy, _⟩, _ => absurd hy List.not_mem_nil
  | y' :: ys, hs, ⟨y, hy, hyx⟩, hid => by
    rw [List.pairwise_cons] at hs
    unfold BTree.insertDesc
    split_ifs with hlt heq
    · -- every item is at or below `y'`, so none carries the number of `x`
      exfalso
      rcases List.mem_cons.mp hy with rfl | hy
      · omega
      · have := hs.1 y hy
        omega
    · exact .cons (.inr ⟨hid y' List.mem_cons_self heq, hx⟩)
        (List.forall₂_same.mpr fun _ _ => .inl rfl)
    · refine .cons (.inl rfl) (insertDesc_sameBut hx hs.2 ⟨y, ?_, hyx⟩
        fun z hz => hid z (List.mem_cons_of_mem _ hz))
      rcases List.mem_cons.mp hy with rfl | hy
      · exact absurd hyx heq
      · exact hy

/-- `seqAndDepsForCommand` ignoring `d` does not see a change of `d`. -/
theorem seqAndDepsForCommand_modify (p : Replica) (d : InstanceID) (f : Instance → Instance)
    (hf : ∀ i, (f i).is.instanceID = i.is.instanceID) (cmd : Command) :
    (p.modify d f).seqAndDepsForCommand cmd d = p.seqAndDepsForCommand cmd d := by
  unfold Replica.modify
  cases hd : p.getInstance d with
  | none => rfl
  | some inst =>
    have hid : (f inst).is.instanceID = d := (hf inst).trans (Replica.getInstance_id hd)
    obtain ⟨hnum, hmem⟩ := BTree.get_some hd
    show p.nodes.foldlM _ _ = p.nodes.foldlM _ _
    congr 1
    funext acc r
    by_cases hr : r = d.replicaID
    · subst hr
      -- the space of `d`: `f inst` is written over `inst`
      show descendDeps cmd d _ (Function.update p.commands (f inst).is.instanceID.replicaID
        ((p.commands (f inst).is.instanceID.replicaID).replaceOrInsert (f inst))
          d.replicaID).items _ _ = _
      rw [hid, Function.update_self]
      refine (descendDeps_congr (insertDesc_sameBut hid (p.commands d.replicaID).sorted
        ⟨inst, hmem, ?_⟩ fun z hz hzn => ?_) _ _).symm
      · rw [hnum, ← hid]
        rfl
      · rw [Replica.id_of_mem_items hz, hzn, ← hid]
        rfl
    · show descendDeps cmd d r (Function.update p.commands (f inst).is.instanceID.replicaID
        _ r).items _ _ = _
      rw [hid, Function.update_of_ne hr]

theorem seqAndDepsForCommand_setStatus (p : Replica) (d : InstanceID) (st : Status)
    (cmd : Command) :
    (p.setStatus d st).seqAndDepsForCommand cmd d = p.seqAndDepsForCommand cmd d :=
  seqAndDepsForCommand_modify p d (fun inst => { inst with is := { inst.is with status := st } })
    (fun _ => rfl) cmd

/-! ### `onPreAccept` -/

/-- The union of a duplicate-free list with another has its length exactly
when it holds nothing else. -/
theorem length_depSliceFromMap_eq_iff {D deps : List InstanceID} (hnd : deps.Nodup) :
    (depSliceFromMap (D ++ deps)).length = deps.length ↔
      ∀ e, e ∈ depSliceFromMap (D ++ deps) ↔ e ∈ deps := by
  have hsub : deps ⊆ depSliceFromMap (D ++ deps) := fun e he =>
    mem_depSliceFromMap.mpr (List.mem_append_right _ he)
  constructor
  · intro hlen e
    exact ((List.subperm_of_subset hnd hsub).perm_of_length_le hlen.le).mem_iff.symm
  · intro hmem
    exact ((List.perm_ext_iff_of_nodup (nodup_depSliceFromMap _) hnd).mpr hmem).length_eq

/-- `onPreAccept` of an instance in status `None` or `PreAccepted`, when the
scan returns: the instance takes the command, the sequence number and the
dependencies, and one answer goes to the command leader. -/
theorem onPreAccept_eq {p : Replica} {d : InstanceID} {pa : InstanceData} {inst : Instance}
    {cmd : Command} {s : ℕ} {D : List InstanceID} (hinst : p.getInstance d = some inst)
    (hguard : inst.isStates [.none, .preAccepted] = true) (hcmd : pa.command = some cmd)
    (hsd : p.seqAndDepsForCommand cmd d = some (s, D)) :
    p.onPreAccept d pa = some (if max pa.seqNum (s + 1) = pa.seqNum ∧
        (depSliceFromMap (D ++ pa.deps)).length = pa.deps.length then
        ((p.setStatus d .preAccepted).modify d fun i => { i with
          is := { i.is with
            command := pa.command
            seqNum := max pa.seqNum (s + 1)
            deps := depSliceFromMap (D ++ pa.deps) } }).reply .preAcceptOk d
      else ((p.setStatus d .preAccepted).modify d fun i => { i with
          is := { i.is with
            command := pa.command
            seqNum := max pa.seqNum (s + 1)
            deps := depSliceFromMap (D ++ pa.deps) } }).reply
        (.preAcceptReply (max pa.seqNum (s + 1)) (depSliceFromMap (D ++ pa.deps))) d) := by
  -- the scan runs after the status change, which it does not see
  have hsd' : (p.setStatus d .preAccepted).seqAndDepsForCommand cmd d = some (s, D) := by
    rw [seqAndDepsForCommand_setStatus]
    exact hsd
  simp only [Replica.onPreAccept, hinst, hguard, hcmd, hsd', Option.bind_eq_bind,
    Option.bind_some, Bool.not_true, maxSeqNum_eq]
  rw [if_neg Bool.false_ne_true]
  split_ifs <;> rfl

/-- `onPreAccept` on an instance in status `None` or `PreAccepted`, with a
`PreAccept` that carries a command and no duplicate dependency. The instance
becomes `PreAccepted` with the command, the larger of the two sequence
numbers, and the strictly increasing list of the union of the scan's and the
message's dependencies; no other instance changes. One message goes to the
command leader: `PreAcceptOK` exactly when the sequence number and the set of
dependencies are those of the message, otherwise a `PreAcceptReply` with the
new ones. -/
theorem onPreAccept_spec {p : Replica} {d : InstanceID} {pa : InstanceData} {inst : Instance}
    {cmd : Command} {s : ℕ} {D : List InstanceID} (hinst : p.getInstance d = some inst)
    (hst : inst.is.status = .none ∨ inst.is.status = .preAccepted) (hcmd : pa.command = some cmd)
    (hnd : pa.deps.Nodup) (hsd : p.seqAndDepsForCommand cmd d = some (s, D)) :
    ∃ q, p.onPreAccept d pa = some q ∧
      q.getInstance d = some { inst with
        is := { inst.is with
          status := .preAccepted
          command := pa.command
          seqNum := max pa.seqNum (s + 1)
          deps := depSliceFromMap (D ++ pa.deps) } } ∧
      (∀ e, e ≠ d → q.getInstance e = p.getInstance e) ∧
      (depSliceFromMap (D ++ pa.deps)).Pairwise (· < ·) ∧
      (∀ e, e ∈ depSliceFromMap (D ++ pa.deps) ↔ e ∈ D ∨ e ∈ pa.deps) ∧
      ((max pa.seqNum (s + 1) = pa.seqNum ∧
          ∀ e, e ∈ depSliceFromMap (D ++ pa.deps) ↔ e ∈ pa.deps) →
        q.msgs = p.msgs ++ [⟨d.replicaID, d, .preAcceptOk⟩]) ∧
      (¬(max pa.seqNum (s + 1) = pa.seqNum ∧
          ∀ e, e ∈ depSliceFromMap (D ++ pa.deps) ↔ e ∈ pa.deps) →
        q.msgs = p.msgs ++ [⟨d.replicaID, d,
          .preAcceptReply (max pa.seqNum (s + 1)) (depSliceFromMap (D ++ pa.deps))⟩]) := by
  have hguard : inst.isStates [.none, .preAccepted] = true := by
    rcases hst with h | h <;> simp [Instance.isStates, h]
  set f : Instance → Instance := fun i => { i with
    is := { i.is with
      command := pa.command
      seqNum := max pa.seqNum (s + 1)
      deps := depSliceFromMap (D ++ pa.deps) } }
  set q₀ := (p.setStatus d .preAccepted).modify d f
  have hget : ∀ e, q₀.getInstance e = if e = d then some (f { inst with
      is := { inst.is with status := .preAccepted } }) else p.getInstance e := by
    intro e
    rw [Replica.getInstance_modify _ d e f fun _ => rfl,
      Replica.getInstance_setStatus_self p hinst]
    split_ifs with he
    · rfl
    · exact Replica.getInstance_setStatus_of_ne p he _
  have hmsgs : q₀.msgs = p.msgs := by simp [q₀]
  -- the code's test compares the number of dependencies
  have htest : (max pa.seqNum (s + 1) = pa.seqNum ∧
      (depSliceFromMap (D ++ pa.deps)).length = pa.deps.length) ↔
      (max pa.seqNum (s + 1) = pa.seqNum ∧
        ∀ e, e ∈ depSliceFromMap (D ++ pa.deps) ↔ e ∈ pa.deps) :=
    and_congr_right fun _ => length_depSliceFromMap_eq_iff hnd
  have hrun : p.onPreAccept d pa = some (if max pa.seqNum (s + 1) = pa.seqNum ∧
      (depSliceFromMap (D ++ pa.deps)).length = pa.deps.length then q₀.reply .preAcceptOk d
      else q₀.reply (.preAcceptReply (max pa.seqNum (s + 1)) (depSliceFromMap (D ++ pa.deps))) d) :=
    onPreAccept_eq hinst hguard hcmd hsd
  refine ⟨_, hrun, ?_, fun e he => ?_, depSliceFromMap_sorted _, fun e => ?_, fun h => ?_,
    fun h => ?_⟩
  · split_ifs <;> simp only [Replica.getInstance_reply, hget] <;> rfl
  · split_ifs <;> simp only [Replica.getInstance_reply, hget, if_neg he]
  · rw [mem_depSliceFromMap, List.mem_append]
  · rw [if_pos (htest.mpr h)]
    simp [Replica.reply, Replica.sendTo, hmsgs]
  · rw [if_neg (mt htest.mp h)]
    simp [Replica.reply, Replica.sendTo, hmsgs]

/-- Replica `1` holds its own write `(1, 1)` of `[0, 10)`, and `(0, 1)` in
status `None`. -/
def preAcceptTable : Replica :=
  ((Replica.empty 1 [0, 1, 2] (Storage.empty true)).setInstance
    (Instance.ofState ⟨⟨1, 1⟩, .preAccepted, some (spanWrite 5), 1, []⟩)).setInstance
    (Instance.new 0 1)

/-- The `PreAccept` of `(0, 1)`, a write of `[0, 10)` with no dependency. -/
def preAcceptWrite : InstanceData := ⟨some (spanWrite 1), 1, []⟩

/-- Replica `1` adds its write to the dependencies and raises the sequence
number to `2`, so it answers with a `PreAcceptReply`. -/
theorem onPreAccept_spec_preAcceptTable :
    preAcceptTable.getInstance ⟨0, 1⟩ = some (Instance.new 0 1) ∧
    preAcceptTable.seqAndDepsForCommand (spanWrite 1) ⟨0, 1⟩ = some (1, [⟨1, 1⟩]) ∧
    ∃ q, preAcceptTable.onPreAccept ⟨0, 1⟩ preAcceptWrite = some q ∧
      q.getInstance ⟨0, 1⟩ = some { Instance.new 0 1 with
        is := { (Instance.new 0 1).is with
          status := .preAccepted
          command := preAcceptWrite.command
          seqNum := max preAcceptWrite.seqNum (1 + 1)
          deps := depSliceFromMap ([⟨1, 1⟩] ++ preAcceptWrite.deps) } } ∧
      (∀ e, e ≠ ⟨0, 1⟩ → q.getInstance e = preAcceptTable.getInstance e) ∧
      (depSliceFromMap ([⟨1, 1⟩] ++ preAcceptWrite.deps)).Pairwise (· < ·) ∧
      (∀ e, e ∈ depSliceFromMap ([⟨1, 1⟩] ++ preAcceptWrite.deps) ↔
        e ∈ [⟨1, 1⟩] ∨ e ∈ preAcceptWrite.deps) ∧
      ((max preAcceptWrite.seqNum (1 + 1) = preAcceptWrite.seqNum ∧
          ∀ e, e ∈ depSliceFromMap ([⟨1, 1⟩] ++ preAcceptWrite.deps) ↔ e ∈ preAcceptWrite.deps) →
        q.msgs = preAcceptTable.msgs ++ [⟨0, ⟨0, 1⟩, .preAcceptOk⟩]) ∧
      (¬(max preAcceptWrite.seqNum (1 + 1) = preAcceptWrite.seqNum ∧
          ∀ e, e ∈ depSliceFromMap ([⟨1, 1⟩] ++ preAcceptWrite.deps) ↔ e ∈ preAcceptWrite.deps) →
        q.msgs = preAcceptTable.msgs ++ [⟨0, ⟨0, 1⟩, .preAcceptReply (max preAcceptWrite.seqNum (1 + 1))
          (depSliceFromMap ([⟨1, 1⟩] ++ preAcceptWrite.deps))⟩]) :=
  have hinst : preAcceptTable.getInstance ⟨0, 1⟩ = some (Instance.new 0 1) := by decide
  have hsd : preAcceptTable.seqAndDepsForCommand (spanWrite 1) ⟨0, 1⟩ = some (1, [⟨1, 1⟩]) := by
    decide
  ⟨hinst, hsd, onPreAccept_spec hinst (.inl rfl) rfl List.nodup_nil hsd⟩

/-! ### The scan's sequence number -/

namespace Network

/-- Replica `0` proposes two writes of `[0, 10)`, `(0, 1)` and `(0, 2)`, the
second with sequence number `2`. Replica `1` proposes two writes of its own,
then answers the `PreAccept` of `(0, 1)` with sequence number `3`, which replica
`0` takes into `(0, 1)` on the slow path. -/
def raisedRun : List Event :=
  [.request 0 (spanWrite 1),
   .request 0 (spanWrite 2),
   .request 1 (spanWrite 3),
   .request 1 (spanWrite 4),
   .deliver ⟨1, ⟨0, 1⟩, .preAccept ⟨some (spanWrite 1), 1, []⟩⟩,
   .deliver ⟨0, ⟨0, 1⟩, .preAcceptReply 3 [⟨1, 2⟩]⟩]

def raisedNet : Network :=
  (runEvents (MapOrder.id _) (MapOrder.id _) raisedRun (init [0, 1, 2] fun _ => true)).get
    (by decide)

/-- At a reachable state whose instances all carry well-formed commands, the
scan for a write of `[2, 3)` stops at `(0, 2)`, which encloses it, and returns
sequence number `2`, though the interfering `(0, 1)` holds `3`; the `Request`
of that write proposes it with sequence number `3`, no greater than that of
`(0, 1)`. -/
theorem request_seq_not_above_interfering :
    Reachable [0, 1, 2] (fun _ => true) false raisedNet ∧
    (∀ r ∈ (raisedNet.replicas 0).nodes,
      CommandsWellFormed ⟨0, 0⟩ ((raisedNet.replicas 0).commands r).items) ∧
    (raisedNet.replicas 0).seqAndDepsForCommand innerWrite ⟨0, 0⟩ = some (2, [⟨0, 2⟩]) ∧
    (raisedNet.replicas 0).liveState ⟨0, 1⟩ =
      some ⟨⟨0, 1⟩, .accepted, some (spanWrite 1), 3, [⟨1, 2⟩]⟩ ∧
    (spanWrite 1).interferes innerWrite = true ∧
    ((raisedNet.replicas 0).onRequest (MapOrder.id _) innerWrite).map (·.liveState ⟨0, 3⟩) =
      some (some ⟨⟨0, 3⟩, .preAccepted, some innerWrite, 3, [⟨0, 2⟩]⟩) :=
  ⟨reachable_of_runEvents (by decide) (Option.some_get _).symm, by decide, by decide, by decide,
    by decide, by decide⟩

end Network

end EPaxos
