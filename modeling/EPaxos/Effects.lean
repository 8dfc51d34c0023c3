import EPaxos.Attributes

/-!
# What a call does to the instances, as the dependency invariant reads them

Of an instance the dependency invariant (`DepsOrder`) reads the command, the
dependencies, the count of `PreAccept` answers, and whether the command leader
has left `PreAccepted` or armed its slow-path timer: the instance's `view`. The
executor changes none of these, and neither does a timer tick, an `AcceptOK` or
a message a handler ignores. Such a call `Runs` the replica: every view stays,
and it only sends. A handler that changes a view changes the view of the one
instance it handles. The lemmas below give that instance's new state for each
handler, then what the handler sends and runs afterwards.

A scan of `seqAndDepsForCommand` is read through the views too
(`seqAndDepsForCommand_cover_view`): every interfering instance with a command
is a dependency, or a later write of its space that interferes with it is.
-/
namespace EPaxos

/-- What the action of a transition broadcasts. -/
def TransitionAction.sends (a : TransitionAction) (inst : Instance) : Option MessageType :=
  match a with
  | .broadcastPreAccept => some (.preAccept inst.instanceData)
  | .broadcastAccept => some (.accept inst.instanceDataWithoutCommand)
  | .broadcastCommitAndExecute => some (.commit inst.instanceData)
  | .deliverExecutedCommand => none

/-- A message of the `PreAccept` phase: a `PreAccept` or an answer to one. -/
def MessageType.preAcceptPhase : MessageType → Bool
  | .preAccept _ | .preAcceptOk | .preAcceptReply _ _ => true
  | _ => false

/-- The leader has left `PreAccepted`, or armed its slow-path timer: either
happens only once it has counted a quorum of answers. -/
def Instance.armed (inst : Instance) : Bool :=
  decide (inst.is.status ≠ .none ∧ inst.is.status ≠ .preAccepted) || !inst.slowPathTimer.paused

/-- What the dependency invariant reads of an instance. -/
structure InstanceView where
  command : Option Command
  deps : List InstanceID
  replies : ℕ
  armed : Bool

def Instance.view (inst : Instance) : InstanceView :=
  ⟨inst.is.command, inst.is.deps, inst.preAcceptReplies, inst.armed⟩

/-- An instance past `PreAccepted` is armed, whatever its timer. -/
theorem Instance.armed_of_status {inst : Instance} (h : inst.is.status ≠ .none ∧
    inst.is.status ≠ .preAccepted) : inst.armed = true := by
  simp [Instance.armed, h]

/-- Merging a `PreAcceptReply` counts it and adds its dependencies; the command
and the arming stay. -/
theorem Instance.view_mergeReply (inst : Instance) (newSeq : ℕ) (ds : List InstanceID) :
    (inst.mergeReply newSeq ds).view = { inst.view with
      deps := unionDepSlices inst.is.deps ds
      replies := inst.preAcceptReplies + 1 } := by
  unfold Instance.mergeReply Instance.view Instance.armed
  dsimp only
  split_ifs <;> rfl

/-- In a list kept highest number first, an item is the first of its number. -/
theorem BTree.find_num_of_mem : ∀ {l : List Instance}, l.Pairwise (fun a b => b.num < a.num) →
    ∀ {x : Instance}, x ∈ l → l.find? (·.num = x.num) = some x
  | [], _, _, hx => absurd hx List.not_mem_nil
  | y :: ys, hs, x, hx => by
    rw [List.pairwise_cons] at hs
    rcases List.mem_cons.mp hx with rfl | hx
    · simp
    · -- `y` is numbered above every later item
      have hne : y.num ≠ x.num := (hs.1 x hx).ne'
      rw [List.find?_cons_of_neg (by simpa using hne)]
      exact BTree.find_num_of_mem hs.2 hx

theorem BTree.get_of_mem {t : BTree} {x : Instance} (h : x ∈ t.items) : t.get x.num = some x :=
  BTree.find_num_of_mem t.sorted h

namespace Replica

theorem getInstance_of_mem_items {p : Replica} {r : ℕ} {w : Instance}
    (hw : w ∈ (p.commands r).items) : p.getInstance w.is.instanceID = some w := by
  rw [id_of_mem_items hw]
  exact BTree.get_of_mem hw

/-- An instance a replica holds is numbered at most the maximum of its space. -/
theorem num_le_maxInstanceNum {p : Replica} {x : InstanceID} {inst : Instance}
    (h : p.getInstance x = some inst) : x.instanceNum ≤ p.maxInstanceNum x.replicaID := by
  obtain ⟨hnum, hmem⟩ := BTree.get_some h
  obtain ⟨m, hm, hle⟩ := BTree.num_le_max hmem
  simp only [maxInstanceNum, hm]
  omega

/-- The view of the instance `x`, if the replica holds it. -/
def view (p : Replica) (x : InstanceID) : Option InstanceView :=
  (p.getInstance x).map Instance.view

/-- The messages `broadcast` sends: one to every other node. -/
def broadcastMsgs (p : Replica) (mt : MessageType) (d : InstanceID) : List Message :=
  (p.nodes.filter (· ≠ p.id)).map fun n => ⟨n, d, mt⟩

/-- The replica `Step` hands a message other than a reply: with the instance it
names, created in status `None` if it was unknown. -/
def withInstance (p : Replica) (d : InstanceID) : Replica :=
  if (p.getInstance d).isNone then p.setInstance (Instance.new d.replicaID d.instanceNum) else p

section Frame

variable (p : Replica)

@[simp] theorem nodes_setInstance (inst : Instance) : (p.setInstance inst).nodes = p.nodes := rfl

@[simp] theorem nodes_modify (d : InstanceID) (f : Instance → Instance) :
    (p.modify d f).nodes = p.nodes := by
  unfold modify
  split <;> rfl

@[simp] theorem nodes_setStatus (d : InstanceID) (s : Status) :
    (p.setStatus d s).nodes = p.nodes :=
  nodes_modify p d _

@[simp] theorem nodes_persist (d : InstanceID) : (p.persist d).nodes = p.nodes := by
  unfold persist
  split <;> rfl

@[simp] theorem nodes_unregisterTimer (d : InstanceID) : (p.unregisterTimer d).nodes = p.nodes :=
  nodes_modify p d _

@[simp] theorem nodes_registerOneTimeTimer (d : InstanceID) :
    (p.registerOneTimeTimer d).nodes = p.nodes :=
  nodes_modify p d _

@[simp] theorem msgs_broadcast (mt : MessageType) (d : InstanceID) :
    (p.broadcast mt d).msgs = p.msgs ++ p.broadcastMsgs mt d := rfl

@[simp] theorem msgs_reply (mt : MessageType) (d : InstanceID) :
    (p.reply mt d).msgs = p.msgs ++ [⟨d.replicaID, d, mt⟩] := rfl

@[simp] theorem broadcastMsgs_setInstance (inst : Instance) (mt : MessageType) (d : InstanceID) :
    (p.setInstance inst).broadcastMsgs mt d = p.broadcastMsgs mt d := rfl

theorem modify_eq_setInstance {d : InstanceID} {inst : Instance} (h : p.getInstance d = some inst)
    (f : Instance → Instance) : p.modify d f = p.setInstance (f inst) := by
  unfold modify
  rw [h]

theorem setStatus_eq {d : InstanceID} {inst : Instance} (h : p.getInstance d = some inst)
    (s : Status) :
    p.setStatus d s = p.setInstance { inst with is := { inst.is with status := s } } :=
  modify_eq_setInstance p h _

theorem getInstance_setInstance_of_id {inst : Instance} {d : InstanceID}
    (h : inst.is.instanceID = d) : (p.setInstance inst).getInstance d = some inst := by
  rw [getInstance_setInstance, if_pos h]

theorem view_setInstance (inst : Instance) (x : InstanceID) :
    (p.setInstance inst).view x = if inst.is.instanceID = x then some inst.view else p.view x := by
  rw [view, getInstance_setInstance]
  split_ifs <;> rfl

theorem view_eq_of_getInstance {q : Replica} (h : q.getInstance = p.getInstance) :
    q.view = p.view := by
  funext x
  rw [view, view, h]

/-- A second write of one instance hides the first. -/
theorem view_setInstance_setInstance {a b : Instance} (h : a.is.instanceID = b.is.instanceID) :
    ((p.setInstance a).setInstance b).view = (p.setInstance b).view := by
  funext x
  rw [view_setInstance, view_setInstance, view_setInstance, h]
  split_ifs <;> rfl

/-- Writing an instance back with its view unchanged changes no view. -/
theorem view_setInstance_of_view {d : InstanceID} {inst inst' : Instance}
    (h : p.getInstance d = some inst) (hid : inst'.is.instanceID = d)
    (hv : inst'.view = inst.view) : (p.setInstance inst').view = p.view := by
  funext x
  rw [view_setInstance, hid]
  split_ifs with hx
  · rw [← hx, view, h, Option.map_some, hv]
  · rfl

theorem view_unregisterTimer {d : InstanceID} {inst : Instance} (h : p.getInstance d = some inst) :
    (p.unregisterTimer d).view =
      (p.setInstance { inst with slowPathTimer := inst.slowPathTimer.stop }).view :=
  view_eq_of_getInstance _ (by
    rw [← modify_eq_setInstance p h fun i => { i with slowPathTimer := i.slowPathTimer.stop }]
    rfl)

theorem view_registerOneTimeTimer {d : InstanceID} {inst : Instance}
    (h : p.getInstance d = some inst) :
    (p.registerOneTimeTimer d).view =
      (p.setInstance { inst with slowPathTimer := inst.slowPathTimer.reset }).view :=
  view_eq_of_getInstance _ (by
    rw [← modify_eq_setInstance p h fun i => { i with slowPathTimer := i.slowPathTimer.reset }]
    rfl)

end Frame

/-- A call that changes no view and sends `out`. -/
structure Runs (p q : Replica) (out : List Message) : Prop where
  view : q.view = p.view
  id : q.id = p.id
  nodes : q.nodes = p.nodes
  msgs : q.msgs = p.msgs ++ out

namespace Runs

theorem refl (p : Replica) : Runs p p [] := ⟨rfl, rfl, rfl, (List.append_nil _).symm⟩

theorem trans {p q r : Replica} {o₁ o₂ : List Message} (h₁ : Runs p q o₁) (h₂ : Runs q r o₂) :
    Runs p r (o₁ ++ o₂) :=
  ⟨h₂.view.trans h₁.view, h₂.id.trans h₁.id, h₂.nodes.trans h₁.nodes,
    by rw [h₂.msgs, h₁.msgs, List.append_assoc]⟩

/-- A call runs from any replica that reads the same. -/
theorem of_eq {p p' q : Replica} {out : List Message} (h : Runs p' q out) (hv : p'.view = p.view)
    (hid : p'.id = p.id) (hn : p'.nodes = p.nodes) (hm : p'.msgs = p.msgs) : Runs p q out :=
  ⟨h.view.trans hv, h.id.trans hid, h.nodes.trans hn, by rw [h.msgs, hm]⟩

/-- A call runs as well from the replica with one of its instances written back. -/
theorem setInstance_self {p q : Replica} {out : List Message} {d : InstanceID} {inst : Instance}
    (h : Runs p q out) (hinst : p.getInstance d = some inst) : Runs (p.setInstance inst) q out :=
  h.of_eq (view_setInstance_of_view p hinst (getInstance_id hinst) rfl).symm rfl rfl rfl

end Runs

section Sends

variable (p : Replica) (d : InstanceID)

theorem runs_persist : Runs p (p.persist d) [] :=
  ⟨view_eq_of_getInstance _ (getInstance_persist p d), id_persist p d, nodes_persist p d,
    by simp⟩

theorem runs_reply (mt : MessageType) : Runs p (p.reply mt d) [⟨d.replicaID, d, mt⟩] :=
  ⟨view_eq_of_getInstance _ (getInstance_reply p mt d), rfl, rfl, rfl⟩

variable {p d} {inst : Instance} (h : p.getInstance d = some inst)
include h

theorem runs_broadcastPreAccept :
    Runs p (p.broadcastPreAccept d) (p.broadcastMsgs (.preAccept inst.instanceData) d) := by
  unfold broadcastPreAccept
  rw [h]
  exact ⟨rfl, rfl, rfl, rfl⟩

theorem runs_broadcastAccept :
    Runs p (p.broadcastAccept d) (p.broadcastMsgs (.accept inst.instanceDataWithoutCommand) d) := by
  unfold broadcastAccept
  rw [h]
  exact ⟨rfl, rfl, rfl, rfl⟩

theorem runs_broadcastCommit :
    Runs p (p.broadcastCommit d) (p.broadcastMsgs (.commit inst.instanceData) d) := by
  unfold broadcastCommit
  rw [h]
  exact ⟨rfl, rfl, rfl, rfl⟩

end Sends

variable {order : MapOrder InstanceID} {p q : Replica} {d : InstanceID}

/-- `Execute` moves one committed instance to `Executed`, which keeps its view. -/
theorem execute_runs (h : p.execute d = some q) : Runs p q [] := by
  unfold execute at h
  simp only [Option.bind_eq_bind, Option.bind_eq_some_iff, Option.some.injEq] at h
  obtain ⟨inst, hinst, u, hguard, p', hdeliver, rfl⟩ := h
  have hst : inst.is.status = .committed := by
    cases hs : inst.is.status <;> simp [hs, stateTransitions] at hguard ⊢
  obtain ⟨_, rfl⟩ := deliverExecuted_eq hdeliver
  -- both statuses are past `PreAccepted`
  have hview : (p.setStatus d .executed).view = p.view := by
    rw [setStatus_eq p hinst]
    refine view_setInstance_of_view p hinst (getInstance_id hinst : inst.is.instanceID = d) ?_
    simp only [Instance.view, InstanceView.mk.injEq, true_and]
    rw [Instance.armed_of_status (by simp), Instance.armed_of_status (by simp [hst])]
  exact ⟨(view_eq_of_getInstance _ (by rw [getInstance_persist]; rfl)).trans hview, by simp,
    by simp, by simp⟩

/-- `prepareToExecute` runs the executor, which changes no view and sends nothing. -/
theorem prepareToExecute_runs (h : p.prepareToExecute order d = some q) : Runs p q [] := by
  unfold prepareToExecute at h
  simp only [Option.bind_eq_bind, Option.bind_eq_some_iff] at h
  obtain ⟨inst, -, u, -, hfold⟩ := h
  -- the executions compose, from the replica with its new vertices
  have hrun := OptionFold.foldlM_rel _ (fun a b => Runs a b []) Runs.refl
    (fun _ _ _ h₁ h₂ => h₁.trans h₂) (fun _ _ _ => execute_runs) _ _ _ hfold
  exact hrun.of_eq rfl rfl rfl rfl

/-- `transitionTo`: the instance takes the new status, the action broadcasts what
`sends` names and, for a commit, runs the executor. -/
theorem transitionTo_runs {t : Status} (h : p.transitionTo order d t = some q) :
    ∃ inst a, p.getInstance d = some inst ∧ stateTransitions inst.is.status t = some a ∧
      Runs (p.setStatus d t) q (((a.sends inst).map fun mt => p.broadcastMsgs mt d).getD []) := by
  simp only [transitionTo, Option.bind_eq_bind, Option.bind_eq_some_iff, Option.some.injEq] at h
  obtain ⟨inst, hinst, a, ha, p', hp', rfl⟩ := h
  refine ⟨inst, a, hinst, ha, ?_⟩
  -- the action reads the instance in its new status, whose data is that of `inst`
  have hset := getInstance_setStatus_self p hinst t
  have hb : ∀ mt, (p.setStatus d t).broadcastMsgs mt d = p.broadcastMsgs mt d := fun _ => by
    simp [broadcastMsgs]
  cases a with
  | broadcastPreAccept =>
    rw [runAction, Option.some.injEq] at hp'
    subst hp'
    have := (runs_broadcastPreAccept hset).trans (runs_persist _ d)
    rwa [hb, List.append_nil] at this
  | broadcastAccept =>
    rw [runAction, Option.some.injEq] at hp'
    subst hp'
    have := (runs_broadcastAccept hset).trans (runs_persist _ d)
    rwa [hb, List.append_nil] at this
  | broadcastCommitAndExecute =>
    rw [runAction] at hp'
    have := ((runs_broadcastCommit hset).trans (prepareToExecute_runs hp')).trans
      (runs_persist _ d)
    rwa [hb, List.append_nil, List.append_nil] at this
  | deliverExecutedCommand =>
    obtain ⟨_, rfl⟩ := deliverExecuted_eq hp'
    exact ⟨view_eq_of_getInstance _ (by rw [getInstance_persist]; rfl), by simp, by simp,
      by simp [TransitionAction.sends]⟩

/-- Only a transition into `PreAccepted` broadcasts a message of the `PreAccept`
phase. -/
theorem sends_not_preAcceptPhase {s t : Status} {a : TransitionAction}
    (ha : stateTransitions s t = some a) (ht : t ≠ .preAccepted) (inst : Instance) :
    ∀ mt ∈ a.sends inst, mt.preAcceptPhase = false := by
  cases s <;> cases t <;> simp [stateTransitions] at ha ht <;> subst ha <;>
    simp [TransitionAction.sends, MessageType.preAcceptPhase]

/-- What a handler at the command leader sends: messages about `d`, an instance
it holds, outside the `PreAccept` phase. -/
def SendsAbout (p : Replica) (d : InstanceID) (out : List Message) : Prop :=
  ∀ m ∈ out, m.instanceID = d ∧ (p.view d).isSome ∧ m.msgType.preAcceptPhase = false

theorem SendsAbout.nil (p : Replica) (d : InstanceID) : SendsAbout p d [] := nofun

theorem SendsAbout.of_view {p p' : Replica} {d : InstanceID} {out : List Message}
    (h : SendsAbout p d out) (hv : p'.view = p.view) : SendsAbout p' d out := by
  rw [SendsAbout, hv]
  exact h

theorem sendsAbout_broadcast {d : InstanceID} {inst : Instance}
    (hinst : p.getInstance d = some inst) {s t : Status} {a : TransitionAction}
    (ha : stateTransitions s t = some a) (ht : t ≠ .preAccepted) (p' : Replica) :
    SendsAbout p d (((a.sends inst).map fun mt => p'.broadcastMsgs mt d).getD []) := by
  intro m hm
  cases hs : a.sends inst with
  | none => rw [hs] at hm; cases hm
  | some mt =>
    rw [hs, Option.map_some, Option.getD_some, broadcastMsgs, List.mem_map] at hm
    obtain ⟨n, -, rfl⟩ := hm
    exact ⟨rfl, by rw [view, hinst]; rfl, sends_not_preAcceptPhase ha ht inst mt hs⟩

/-- `onRequest` writes a new `PreAccepted` instance at the next number of the
replica's own space, with the scan's dependencies, and broadcasts its
`PreAccept`. -/
theorem onRequest_runs {cmd : Command} (h : p.onRequest order cmd = some q) :
    ∃ s D, p.seqAndDepsForCommand cmd ⟨0, 0⟩ = some (s, D) ∧
      Runs (p.setInstance (Instance.ofState ⟨⟨p.id, p.maxInstanceNum p.id + 1⟩, .preAccepted,
          some cmd, s + 1, depSliceFromMap D⟩)) q
        (p.broadcastMsgs (.preAccept ⟨some cmd, s + 1, depSliceFromMap D⟩)
          ⟨p.id, p.maxInstanceNum p.id + 1⟩) := by
  simp only [onRequest, Option.bind_eq_bind, Option.bind_eq_some_iff] at h
  obtain ⟨⟨s, D⟩, hsd, h⟩ := h
  dsimp only at h
  set d : InstanceID := ⟨p.id, p.maxInstanceNum p.id + 1⟩
  set newInst := Instance.ofState ⟨d, .none, some cmd, s + 1, depSliceFromMap D⟩
  have hget : (p.setInstance newInst).getInstance d = some newInst :=
    getInstance_setInstance_of_id p rfl
  obtain ⟨inst, a, hinst, ha, hrun⟩ := transitionTo_runs h
  rw [hget, Option.some.injEq] at hinst
  subst hinst
  -- the new instance is in `None`: the action broadcasts its `PreAccept`
  simp only [newInst, Instance.ofState, stateTransitions, Option.some.injEq] at ha
  subst ha
  refine ⟨s, D, hsd, hrun.of_eq ?_ (by simp) (by simp) (by simp)⟩
  rw [setStatus_eq _ hget]
  exact view_setInstance_setInstance _ rfl

/-- `onPreAccept` of an instance it holds: nothing, or, for an instance in
`None` or `PreAccepted`, the instance takes the command of the `PreAccept`, the
sequence number and the union of the scan's and the message's dependencies, and
one answer goes to the command leader. A `PreAcceptOK` says that the union is
the message's own dependencies. -/
theorem onPreAccept_runs {pa : InstanceData} {inst : Instance} (h : p.onPreAccept d pa = some q)
    (hinst : p.getInstance d = some inst) (hnd : pa.deps.Nodup) :
    Runs p q [] ∨ ∃ cmd s D, pa.command = some cmd ∧ p.seqAndDepsForCommand cmd d = some (s, D) ∧
      ∃ mt, Runs (p.setInstance { inst with
          is := { inst.is with
            status := .preAccepted
            command := pa.command
            seqNum := max pa.seqNum (s + 1)
            deps := depSliceFromMap (D ++ pa.deps) } }) q [⟨d.replicaID, d, mt⟩] ∧
        (mt = .preAcceptOk ∧ (∀ e ∈ depSliceFromMap (D ++ pa.deps), e ∈ pa.deps) ∨
          mt = .preAcceptReply (max pa.seqNum (s + 1)) (depSliceFromMap (D ++ pa.deps))) := by
  by_cases hguard : inst.isStates [.none, .preAccepted] = true
  swap
  · have hf : inst.isStates [.none, .preAccepted] = false := by simpa using hguard
    simp only [onPreAccept, hinst, hf, Option.bind_eq_bind, Option.bind_some, Bool.not_false,
      ↓reduceIte, Option.pure_def, Option.some.injEq] at h
    exact .inl (h ▸ .refl p)
  obtain ⟨cmd, hcmd⟩ : ∃ cmd, pa.command = some cmd := by
    cases hc : pa.command with
    | none => simp [onPreAccept, hinst, hguard, hc] at h
    | some cmd => exact ⟨cmd, rfl⟩
  obtain ⟨⟨s, D⟩, hsd⟩ : ∃ r, p.seqAndDepsForCommand cmd d = some r := by
    cases hs : p.seqAndDepsForCommand cmd d with
    | none => simp [onPreAccept, hinst, hguard, hcmd, seqAndDepsForCommand_setStatus, hs] at h
    | some r => exact ⟨r, rfl⟩
  rw [onPreAccept_eq hinst hguard hcmd hsd, Option.some.injEq] at h
  refine .inr ⟨cmd, s, D, hcmd, hsd, ?_⟩
  -- the status change and the rewrite are one write of the instance
  have hv : ((p.setStatus d .preAccepted).modify d fun i => { i with
      is := { i.is with
        command := pa.command
        seqNum := max pa.seqNum (s + 1)
        deps := depSliceFromMap (D ++ pa.deps) } }).view = (p.setInstance { inst with
      is := { inst.is with
        status := .preAccepted
        command := pa.command
        seqNum := max pa.seqNum (s + 1)
        deps := depSliceFromMap (D ++ pa.deps) } }).view := by
    rw [modify_eq_setInstance _ (getInstance_setStatus_self p hinst _), setStatus_eq p hinst]
    exact view_setInstance_setInstance _ rfl
  split_ifs at h with htest
  · refine ⟨.preAcceptOk, h ▸ (runs_reply _ d _).of_eq hv (by simp) (by simp) (by simp),
      .inl ⟨rfl, fun e he => ?_⟩⟩
    exact ((length_depSliceFromMap_eq_iff hnd).mp htest.2 e).mp he
  · exact ⟨_, h ▸ (runs_reply _ d _).of_eq hv (by simp) (by simp) (by simp), .inr rfl⟩

/-- `onAccept` of an instance it holds: nothing, or the instance takes the
status, sequence number and dependencies of the `Accept`, keeping its command,
and an `AcceptOK` goes to the command leader. -/
theorem onAccept_runs {a : InstanceData} {inst : Instance} (h : p.onAccept d a = some q)
    (hinst : p.getInstance d = some inst) :
    Runs p q [] ∨ Runs (p.setInstance { inst with
      is := { inst.is with status := .accepted, seqNum := a.seqNum, deps := a.deps } }) q
      [⟨d.replicaID, d, .acceptOk⟩] := by
  simp only [onAccept, hinst, Option.bind_eq_bind, Option.bind_some] at h
  split_ifs at h
  · rw [Option.pure_def, Option.some.injEq] at h
    exact .inl (h ▸ .refl p)
  · rw [Option.some.injEq, modify_eq_setInstance p hinst] at h
    exact .inr (h ▸ runs_reply _ d _)

/-- `onCommit` of an instance it holds: nothing, or the instance takes the
attributes of the `Commit` and the executor runs. -/
theorem onCommit_runs {c : InstanceData} {inst : Instance} (h : p.onCommit order d c = some q)
    (hinst : p.getInstance d = some inst) :
    Runs p q [] ∨ Runs (p.setInstance { inst with
      is := { inst.is with
        status := .committed, command := c.command, seqNum := c.seqNum, deps := c.deps } })
      q [] := by
  simp only [onCommit, hinst, Option.bind_eq_bind, Option.bind_some] at h
  split_ifs at h
  · rw [Option.pure_def, Option.some.injEq] at h
    exact .inl (h ▸ .refl p)
  · rw [modify_eq_setInstance p hinst] at h
    exact .inr (prepareToExecute_runs h)

theorem getInstance_unregisterTimer_self {inst : Instance} (h : p.getInstance d = some inst) :
    (p.unregisterTimer d).getInstance d =
      some { inst with slowPathTimer := inst.slowPathTimer.stop } := by
  show (p.modify d _).getInstance d = _
  rw [modify_eq_setInstance p h]
  exact getInstance_setInstance_of_id _ (getInstance_id h : inst.is.instanceID = d)

theorem getInstance_modify_self {inst : Instance} (h : p.getInstance d = some inst)
    (f : Instance → Instance) (hf : ∀ i, (f i).is.instanceID = i.is.instanceID) :
    (p.modify d f).getInstance d = some (f inst) := by
  rw [modify_eq_setInstance p h]
  exact getInstance_setInstance_of_id p ((hf inst).trans (getInstance_id h))

theorem isSome_view {inst : Instance} (h : p.getInstance d = some inst) : (p.view d).isSome := by
  rw [view, h]
  rfl

theorem SendsAbout.of_held {p' : Replica} {out : List Message} (h : SendsAbout p d out)
    (hp' : (p'.view d).isSome) : SendsAbout p' d out := fun m hm =>
  ⟨(h m hm).1, hp', (h m hm).2.2⟩

/-- The view after a write depends only on the view before it. -/
theorem view_setInstance_congr {p' : Replica} (h : p'.view = p.view) (b : Instance) :
    (p'.setInstance b).view = (p.setInstance b).view := by
  funext x
  rw [view_setInstance, view_setInstance, h]

/-- A leader's timer stops and the instance takes a status past `PreAccepted`:
it is written once, stopped and in the new status, and the action sends an
`Accept` or a `Commit`. -/
theorem unregister_transitionTo_runs {inst : Instance} (hget : p.getInstance d = some inst)
    {t : Status} (h : (p.unregisterTimer d).transitionTo order d t = some q)
    (ht : t ≠ .preAccepted) :
    ∃ out, Runs (p.setInstance { inst with
        is := { inst.is with status := t }, slowPathTimer := inst.slowPathTimer.stop }) q out ∧
      SendsAbout p d out := by
  obtain ⟨i₁, a, hi₁, ha, hrun⟩ := transitionTo_runs h
  rw [getInstance_unregisterTimer_self hget, Option.some.injEq] at hi₁
  subst hi₁
  have hview : ((p.unregisterTimer d).setStatus d t).view = (p.setInstance { inst with
      is := { inst.is with status := t }, slowPathTimer := inst.slowPathTimer.stop }).view := by
    rw [setStatus_eq _ (getInstance_unregisterTimer_self hget)]
    refine (view_setInstance_congr (view_unregisterTimer p hget) _).trans ?_
    exact view_setInstance_setInstance _ rfl
  refine ⟨_, hrun.of_eq hview (by simp) (by simp) (by simp), ?_⟩
  exact sendsAbout_broadcast hget ha ht _

/-- `onEitherPreAcceptReply` after the leader counted an answer into `inst`: the
instance keeps its command, dependencies and count, and is armed afterwards
only if it was, or if the count with the leader makes a quorum. It sends an
`Accept` or a `Commit` of the instance, or nothing. -/
theorem onEitherPreAcceptReply_runs {inst : Instance}
    (h : (p.setInstance inst).onEitherPreAcceptReply order d = some q)
    (hid : inst.is.instanceID = d) (hk : 1 ≤ inst.preAcceptReplies) :
    ∃ inst' out, Runs (p.setInstance inst') q out ∧ inst'.is.instanceID = d ∧
      inst'.is.command = inst.is.command ∧ inst'.is.deps = inst.is.deps ∧
      inst'.preAcceptReplies = inst.preAcceptReplies ∧
      (inst'.armed = true → inst.armed = true ∨ p.nodes.length < 2 * (inst.preAcceptReplies + 1)) ∧
      SendsAbout (p.setInstance inst) d out := by
  have hget : (p.setInstance inst).getInstance d = some inst := getInstance_setInstance_of_id p hid
  -- a write over the counted instance reads as a write of `p`
  have hcollapse : ∀ b : Instance, b.is.instanceID = d →
      ((p.setInstance inst).setInstance b).view = (p.setInstance b).view := fun b hb =>
    view_setInstance_setInstance p (hid.trans hb.symm)
  simp only [onEitherPreAcceptReply, hget, Option.bind_eq_bind, Option.bind_some] at h
  split_ifs at h with hfast hslow hfp hset
  · -- the fast path: `!differentReplies` and a fast quorum, which is a quorum
    obtain ⟨out, hrun, hsend⟩ := unregister_transitionTo_runs hget h (by decide)
    have hq : p.nodes.length < 2 * (inst.preAcceptReplies + 1) := by
      simp only [Bool.and_eq_true, fastQuorum, nodes_setInstance] at hfast
      have := of_decide_eq_true hfast.2
      omega
    exact ⟨_, out, hrun.of_eq (hcollapse _ hid) rfl rfl rfl, hid, rfl, rfl, rfl,
      fun _ => .inr hq, hsend⟩
  · obtain ⟨out, hrun, hsend⟩ := unregister_transitionTo_runs hget h (by decide)
    have hq : p.nodes.length < 2 * (inst.preAcceptReplies + 1) := by
      have := of_decide_eq_true hslow
      simp only [nodes_setInstance] at this
      omega
    exact ⟨_, out, hrun.of_eq (hcollapse _ hid) rfl rfl rfl, hid, rfl, rfl, rfl,
      fun _ => .inr hq, hsend⟩
  · -- the slow path, with its timer armed now
    have hq : p.nodes.length < 2 * (inst.preAcceptReplies + 1) := by
      have := of_decide_eq_true hslow
      simp only [nodes_setInstance] at this
      omega
    rw [Option.some.injEq] at h
    refine ⟨{ inst with slowPathTimer := inst.slowPathTimer.reset }, [], h ▸ ⟨?_, by simp, by simp,
      by simp⟩, hid, rfl, rfl, rfl, fun _ => .inr hq, .nil _ d⟩
    exact (view_registerOneTimeTimer _ hget).trans (hcollapse _ hid)
  all_goals
    rw [Option.some.injEq] at h
    exact ⟨inst, [], h ▸ .refl _, hid, rfl, rfl, rfl, .inl, .nil _ d⟩

/-- `onPreAcceptOK`: nothing unless the instance is `PreAccepted`; then the
count of answers goes up and `onEitherPreAcceptReply` runs. -/
theorem onPreAcceptOK_runs (h : p.onPreAcceptOK order d = some q) :
    Runs p q [] ∨ ∃ inst, p.getInstance d = some inst ∧ inst.is.status = .preAccepted ∧
      (p.setInstance { inst with preAcceptReplies := inst.preAcceptReplies + 1 }
        ).onEitherPreAcceptReply order d = some q := by
  simp only [onPreAcceptOK, Option.bind_eq_bind, Option.bind_eq_some_iff] at h
  obtain ⟨inst, hinst, h⟩ := h
  split_ifs at h with hst
  · rw [Option.pure_def, Option.some.injEq] at h
    exact .inl (h ▸ .refl p)
  · rw [modify_eq_setInstance p hinst] at h
    exact .inr ⟨inst, hinst, by simpa [Instance.isStates] using hst, h⟩

/-- `onPreAcceptReply`: nothing unless the instance is `PreAccepted`; then the
answer is merged in and `onEitherPreAcceptReply` runs. -/
theorem onPreAcceptReply_runs {newSeq : ℕ} {ds : List InstanceID}
    (h : p.onPreAcceptReply order d newSeq ds = some q) :
    Runs p q [] ∨ ∃ inst, p.getInstance d = some inst ∧ inst.is.status = .preAccepted ∧
      (p.setInstance (inst.mergeReply newSeq ds)).onEitherPreAcceptReply order d = some q := by
  simp only [onPreAcceptReply, Option.bind_eq_bind, Option.bind_eq_some_iff] at h
  obtain ⟨inst, hinst, h⟩ := h
  split_ifs at h with hst
  · rw [Option.pure_def, Option.some.injEq] at h
    exact .inl (h ▸ .refl p)
  · exact .inr ⟨inst, hinst, by simpa [Instance.isStates] using hst, h⟩

/-- `onAcceptOK` changes no view: an `Accepted` instance is armed, and so is the
committed one. It sends the instance's `Commit` or nothing. -/
theorem onAcceptOK_runs (h : p.onAcceptOK order d = some q) :
    ∃ out, Runs p q out ∧ SendsAbout p d out := by
  simp only [onAcceptOK, Option.bind_eq_bind, Option.bind_eq_some_iff] at h
  obtain ⟨inst, hinst, h⟩ := h
  have hid : inst.is.instanceID = d := getInstance_id hinst
  set f : Instance → Instance := fun i => { i with acceptReplies := i.acceptReplies + 1 }
  have hget := getInstance_modify_self hinst f fun _ => rfl
  have hf : (p.modify d f).view = p.view := by
    rw [modify_eq_setInstance p hinst]
    exact view_setInstance_of_view p hinst hid rfl
  split_ifs at h with hst hq
  · rw [Option.pure_def, Option.some.injEq] at h
    exact ⟨[], h ▸ .refl p, .nil p d⟩
  · have hacc : inst.is.status = .accepted := by simpa [Instance.isStates] using hst
    obtain ⟨i₁, a, hi₁, ha, hrun⟩ := transitionTo_runs h
    rw [hget, Option.some.injEq] at hi₁
    subst hi₁
    -- both `Accepted` and `Committed` are armed
    have hview : ((p.modify d f).setStatus d .committed).view = p.view := by
      rw [setStatus_eq _ hget, modify_eq_setInstance p hinst]
      refine Eq.trans (view_setInstance_setInstance p rfl) (view_setInstance_of_view p hinst hid ?_)
      simp only [Instance.view, InstanceView.mk.injEq, true_and, f]
      rw [Instance.armed_of_status (by simp), Instance.armed_of_status (by simp [hacc])]
    exact ⟨_, hrun.of_eq hview (by simp) (by simp) (by simp),
      (sendsAbout_broadcast hget ha (by decide) _).of_held (isSome_view hinst)⟩
  · rw [Option.some.injEq] at h
    exact ⟨[], h ▸ ⟨hf, by simp, by simp, by simp⟩, .nil p d⟩

/-- A slow-path timer tick changes no view: a running timer is armed, and on
timeout the instance goes to `Accepted`. It sends the instance's `Accept` or
nothing. -/
theorem tickTimer_runs (h : p.tickTimer order d = some q) :
    ∃ out, Runs p q out ∧ SendsAbout p d out := by
  unfold tickTimer at h
  split at h
  · rw [Option.some.injEq] at h
    exact ⟨[], h ▸ .refl p, .nil p d⟩
  rename_i inst hinst
  have hid : inst.is.instanceID = d := getInstance_id hinst
  dsimp only at h
  split_ifs at h with hpaused htime
  · rw [Option.some.injEq] at h
    exact ⟨[], h ▸ .refl p, .nil p d⟩
  · -- the timer ran, so the instance was armed; it times out into `Accepted`
    obtain ⟨out, hrun, hsend⟩ := unregister_transitionTo_runs (getInstance_modify_self hinst
      (fun i => { i with slowPathTimer := ⟨inst.slowPathTimer.ticksElapsed + 1, true⟩ })
      fun _ => rfl) h (by decide)
    refine ⟨out, hrun.of_eq ?_ (by simp) (by simp) (by simp), hsend.of_held (isSome_view hinst)⟩
    rw [modify_eq_setInstance p hinst]
    refine Eq.trans (view_setInstance_setInstance p rfl) (view_setInstance_of_view p hinst hid ?_)
    simp only [Instance.view, InstanceView.mk.injEq, true_and]
    rw [Instance.armed_of_status (by simp)]
    simp [Instance.armed, hpaused]
  · rw [Option.some.injEq, modify_eq_setInstance p hinst] at h
    refine ⟨[], h ▸ ⟨view_setInstance_of_view p hinst hid ?_, rfl, rfl,
      (List.append_nil _).symm⟩, .nil p d⟩
    simp [Instance.view, Instance.armed, hpaused]

/-- `Tick` changes no view and sends messages about instances the replica holds,
outside the `PreAccept` phase. -/
theorem tick_runs (h : p.tick order = some q) :
    ∃ out, Runs p q out ∧ ∀ m ∈ out, (p.view m.instanceID).isSome ∧
      m.msgType.preAcceptPhase = false := by
  -- each timer's messages are about an instance the replica held before the tick
  refine OptionFold.foldlM_rel _ (fun a b => ∃ out, Runs a b out ∧ ∀ m ∈ out,
      (a.view m.instanceID).isSome ∧ m.msgType.preAcceptPhase = false)
    (fun a => ⟨[], .refl a, nofun⟩) (fun a b c ⟨o₁, h₁, hs₁⟩ ⟨o₂, h₂, hs₂⟩ => ?_)
    (fun x a b hx => ?_) p.timers p q h
  · refine ⟨o₁ ++ o₂, h₁.trans h₂, fun m hm => ?_⟩
    rcases List.mem_append.mp hm with hm | hm
    · exact hs₁ m hm
    · rw [← h₁.view]
      exact (hs₂ m hm)
  · obtain ⟨out, hrun, hsend⟩ := tickTimer_runs hx
    refine ⟨out, hrun, fun m hm => ?_⟩
    obtain ⟨hd, hs, hpa⟩ := hsend m hm
    exact ⟨hd ▸ hs, hpa⟩

theorem validateMessage_mem_nodes {m : Message} (h : p.validateMessage m = true)
    (hr : isReply m.msgType = false) : m.instanceID.replicaID ∈ p.nodes := by
  unfold validateMessage at h
  split_ifs at h with hd hr'
  · rw [hr] at hr'
    cases hr'
  · simp only [Bool.and_eq_true, decide_eq_true_eq] at h
    exact h.2

/-- What `Step` does with a message: nothing, or, after validation, the handler
of its type. A reply goes to an instance of the replica's own space that it
holds; any other message goes to an instance of another node's space, which
`Step` first creates in status `None` (`withInstance`). -/
theorem step_cases {m : Message} (h : p.step order m = some q) :
    q = p ∨
    (isReply m.msgType = false ∧ m.instanceID.replicaID ≠ p.id ∧
      m.instanceID.replicaID ∈ p.nodes ∧
      (∀ pa, m.msgType = .preAccept pa →
        (p.withInstance m.instanceID).onPreAccept m.instanceID pa = some q) ∧
      (∀ a, m.msgType = .accept a →
        (p.withInstance m.instanceID).onAccept m.instanceID a = some q) ∧
      (∀ c, m.msgType = .commit c →
        (p.withInstance m.instanceID).onCommit order m.instanceID c = some q)) ∨
    (isReply m.msgType = true ∧ m.instanceID.replicaID = p.id ∧
      (p.getInstance m.instanceID).isSome ∧
      (m.msgType = .preAcceptOk → p.onPreAcceptOK order m.instanceID = some q) ∧
      (∀ s ds, m.msgType = .preAcceptReply s ds →
        p.onPreAcceptReply order m.instanceID s ds = some q) ∧
      (m.msgType = .acceptOk → p.onAcceptOK order m.instanceID = some q)) := by
  unfold step at h
  by_cases hv : (!p.validateMessage m) = true
  · rw [if_pos hv, Option.some.injEq] at h
    exact .inl h.symm
  have hval : p.validateMessage m = true := by simpa using hv
  by_cases hown : ((p.getInstance m.instanceID).isNone && m.instanceID.replicaID = p.id) = true
  · rw [if_neg hv, if_pos hown, Option.some.injEq] at h
    exact .inl h.symm
  rw [if_neg hv, if_neg hown] at h
  -- the handler runs on `withInstance`, which is the replica itself for a reply
  cases hr : isReply m.msgType
  · refine .inr (.inl ⟨rfl, (validateMessage_own hval).2 hr, validateMessage_mem_nodes hval hr,
      fun pa hm => ?_, fun a hm => ?_, fun c hm => ?_⟩)
    all_goals simp only [hm] at h; exact h
  · have hmine := (validateMessage_own hval).1 hr
    have hne : p.getInstance m.instanceID ≠ none := by simpa [hmine] using hown
    have hsome : (p.getInstance m.instanceID).isSome := Option.isSome_iff_ne_none.mpr hne
    have hnone : (p.getInstance m.instanceID).isNone = false := by
      cases hg : p.getInstance m.instanceID
      · exact absurd hg hne
      · rfl
    refine .inr (.inr ⟨rfl, hmine, hsome, fun hm => ?_, fun s ds hm => ?_, fun hm => ?_⟩)
    all_goals simp only [hm, hnone, Bool.false_eq_true, ↓reduceIte] at h; exact h

theorem withInstance_frame (p : Replica) (d : InstanceID) : (p.withInstance d).id = p.id ∧
    (p.withInstance d).nodes = p.nodes ∧ (p.withInstance d).msgs = p.msgs := by
  unfold withInstance
  split <;> exact ⟨rfl, rfl, rfl⟩

theorem view_withInstance_of_ne (p : Replica) {d x : InstanceID} (hx : x ≠ d) :
    (p.withInstance d).view x = p.view x := by
  unfold withInstance
  split
  · rw [view_setInstance,
      if_neg (Ne.symm hx : (Instance.new d.replicaID d.instanceNum).is.instanceID ≠ x)]
  · rfl

/-- The instance `Step` hands over: the one the replica holds, or a new one in
status `None`. -/
theorem getInstance_withInstance (p : Replica) (d : InstanceID) :
    ∃ inst, (p.withInstance d).getInstance d = some inst ∧
      (p.getInstance d = some inst ∨
        p.getInstance d = none ∧ inst = Instance.new d.replicaID d.instanceNum) := by
  unfold withInstance
  cases hd : p.getInstance d with
  | none => exact ⟨_, getInstance_setInstance_of_id p rfl, .inr ⟨rfl, rfl⟩⟩
  | some inst => exact ⟨inst, hd, .inl rfl⟩

/-- The scan covers, through the views: an instance of a scanned space with a
well-formed command that interferes is a dependency, or a later write of its
space that interferes with it is. -/
theorem seqAndDepsForCommand_cover_view {cmd : Command} {ign : InstanceID} {s : ℕ}
    {D : List InstanceID} (h : p.seqAndDepsForCommand cmd ign = some (s, D)) {z : InstanceID}
    {v : InstanceView} (hz : p.view z = some v) {cz : Command} (hc : v.command = some cz)
    (hr : z.replicaID ∈ p.nodes) (hign : z ≠ ign) (hwf : cz.span.WellFormed)
    (hi : cz.interferes cmd = true) :
    z ∈ D ∨ ∃ w vw cw, p.view w = some vw ∧ vw.command = some cw ∧ w.replicaID = z.replicaID ∧
      z.instanceNum < w.instanceNum ∧ cw.writing = true ∧ cw.interferes cz = true ∧ w ∈ D ∧
      w ≠ ign := by
  obtain ⟨e, he, rfl⟩ := Option.map_eq_some_iff.mp hz
  have hid : e.is.instanceID = z := getInstance_id he
  have hmem : e ∈ (p.commands z.replicaID).items := (BTree.get_some he).2
  rcases seqAndDepsForCommand_cover h hr hmem (hid ▸ hign) hc hwf hi with
    hdep | ⟨w, hw, cw, hcw, hwr, hwi, hlt, hdep⟩
  · exact .inl (hid ▸ hdep)
  · refine .inr ⟨w.is.instanceID, w.view, cw, by rw [view, getInstance_of_mem_items hw]; rfl,
      hcw, p.spaces _ w hw, ?_, hwr, hwi, hdep, (seqAndDepsForCommand_sound h _ hdep).1⟩
    rw [← hid]
    exact hlt

end Replica

end EPaxos
