import EPaxos.Frame
import EPaxos.Lib.OptionFold
import Mathlib.Logic.Relation

/-!
# What a call does to the instance states

Every entry point of a replica is a composition of a few kinds of update, as
seen from the instance states, the storage, the executor's vertices, the timers
and the outbox:

* the steps of an action of `stateTransitions` (`Act`): a change that shows in
  no instance state, no stored entry and no vertex (sending, timers, reply
  counters, the delivered commands), or a run of the executor
  (`prepareToExecute`);
* a change of one instance in memory between states that are not decided, which
  keeps an instance of the replica's own space `None` or `PreAccepted`;
* `onCommit` of another replica's instance, which takes the attributes of the
  `Commit` the call handles and runs the executor on it;
* `transitionTo` an instance of the replica's own space, whose status change,
  action and `persist` form one update; a commit runs the executor on it.

Only the executor enters `Executed` and changes the vertices, and a decided
instance keeps its attributes. Only the command leader commits through
`transitionTo`, and only it sends `Commit`s, with the attributes it committed.
A timer is registered only for an instance of the replica's own space. The
invariants of the later modules are proved once for each kind of update; the
lemmas here lift them to every handler, to `Request`, `Step`, `Tick` and to the
replay of `restartTransition`.
-/
namespace EPaxos

/-- `Committed` or `Executed`: the attributes of the instance are final. -/
def Status.decided : Status → Bool
  | .committed | .executed => true
  | _ => false

theorem Status.ne_executed {s : Status} (h : s.decided = false) : s ≠ .executed := by
  rintro rfl
  cases h

/-- The attributes of an instance state, as `instanceData` sends them. -/
def InstanceState.attrs (is : InstanceState) : InstanceData := ⟨is.command, is.seqNum, is.deps⟩

namespace Replica

/-- What a message sent by the replica says: a `Commit` comes from the command
leader of its instance, which holds the instance committed with the attributes
sent. -/
def Sent (p : Replica) (m : Message) : Prop :=
  ∀ c, m.msgType = .commit c → m.instanceID.replicaID = p.id ∧
    ∃ is, p.liveState m.instanceID = some is ∧ is.status = .committed ∧ c = is.attrs

/-- `Execute` changes one instance, the storage and the delivered commands. -/
theorem execute_frame {p q : Replica} {d : InstanceID} (h : p.execute d = some q) :
    q.id = p.id ∧ q.vertices = p.vertices ∧ q.timers = p.timers := by
  unfold execute at h
  simp only [Option.bind_eq_bind, Option.bind_eq_some_iff, Option.some.injEq] at h
  obtain ⟨inst, -, u, -, p', hdeliver, rfl⟩ := h
  obtain ⟨_, rfl⟩ := deliverExecuted_eq hdeliver
  simp

/-- A run of the executor keeps the id and the timers. -/
theorem prepareToExecute_frame {order : MapOrder InstanceID} {p q : Replica} {d : InstanceID}
    (h : p.prepareToExecute order d = some q) : q.id = p.id ∧ q.timers = p.timers := by
  unfold prepareToExecute at h
  simp only [Option.bind_eq_bind, Option.bind_eq_some_iff] at h
  obtain ⟨inst, -, u, -, hfold⟩ := h
  exact OptionFold.foldlM_rel _ (fun a b => b.id = a.id ∧ b.timers = a.timers)
    (fun _ => ⟨rfl, rfl⟩) (fun _ _ _ h₁ h₂ => by exact ⟨h₂.1.trans h₁.1, h₂.2.trans h₁.2⟩)
    (fun _ _ _ h => ⟨(execute_frame h).1, (execute_frame h).2.2⟩) _ _ _ hfold

theorem prepareToExecute_id {order : MapOrder InstanceID} {p q : Replica} {d : InstanceID}
    (h : p.prepareToExecute order d = some q) : q.id = p.id :=
  (prepareToExecute_frame h).1

/-- The steps of an action of `stateTransitions`. -/
inductive Act : Replica → Replica → Prop
  /-- No instance state, stored entry or vertex changes; a new timer is one of an
  instance of the replica's own space; what is sent is `Sent`. -/
  | frame {p q : Replica} (ms : List Message) : q.id = p.id → q.liveState = p.liveState →
      q.storage = p.storage → q.msgs = p.msgs ++ ms → (∀ m ∈ ms, p.Sent m) →
      q.vertices = p.vertices → (∀ e ∈ q.timers, e ∈ p.timers ∨ e.replicaID = p.id) → Act p q
  | execute {p q : Replica} (order : MapOrder InstanceID) (d : InstanceID) :
      p.prepareToExecute order d = some q → Act p q

/-- An action: any number of its steps. -/
def Acts : Replica → Replica → Prop := Relation.ReflTransGen Act

/-- The primitive updates of a call that handles the message `inc`, if any. -/
inductive Prim (inc : Option Message) : Replica → Replica → Prop
  | act {p q : Replica} : Act p q → Prim inc p q
  /-- One instance changes in memory, and is decided neither before nor after;
  an instance of the replica's own space stays `None` or `PreAccepted`. -/
  | update {p q : Replica} (d : InstanceID) : q.id = p.id → q.msgs = p.msgs →
      q.storage = p.storage → (∀ e, e ≠ d → q.liveState e = p.liveState e) →
      (∀ is, p.liveState d = some is → is.status.decided = false) →
      (∀ is, q.liveState d = some is → is.status.decided = false ∧
        (d.replicaID = p.id → is.status = .none ∨ is.status = .preAccepted)) →
      q.vertices = p.vertices → q.timers = p.timers → Prim inc p q
  /-- `onCommit` of an instance of another replica takes the attributes of the
  `Commit` the call handles into `q`, and runs the executor on it. -/
  | commit {p q r : Replica} (d : InstanceID) (c : InstanceData) :
      (∃ m, inc = some m ∧ m.instanceID = d ∧ m.msgType = .commit c) → d.replicaID ≠ p.id →
      q.id = p.id → q.msgs = p.msgs → q.storage = p.storage →
      (∀ e, e ≠ d → q.liveState e = p.liveState e) →
      (∀ is, p.liveState d = some is → is.status.decided = false) →
      q.liveState d = some ⟨d, .committed, c.command, c.seqNum, c.deps⟩ →
      q.vertices = p.vertices → q.timers = p.timers →
      (∃ order, q.prepareToExecute order d = some r) → Prim inc p r
  /-- `transitionTo` a status other than `Executed` of an instance of the
  replica's own space, from one that is not decided: the status changes, the
  action runs, the instance is persisted. The action of a commit sends, then
  runs the executor on the instance. -/
  | transition {p p' : Replica} (d : InstanceID) (s : Status) :
      (∃ is, p.liveState d = some is ∧ is.status.decided = false) → s ≠ .executed →
      d.replicaID = p.id → Acts (p.setStatus d s) p' →
      (s = .committed → ∃ order p₁, Act (p.setStatus d s) p₁ ∧
        p₁.prepareToExecute order d = some p') →
      Prim inc p (p'.persist d)

/-- A call: any number of primitive updates. -/
def Prims (inc : Option Message) : Replica → Replica → Prop := Relation.ReflTransGen (Prim inc)

namespace Acts

theorem refl (p : Replica) : Acts p p := Relation.ReflTransGen.refl

theorem single {p q : Replica} (h : Act p q) : Acts p q := Relation.ReflTransGen.single h

theorem head {p q r : Replica} (h₁ : Act p q) (h₂ : Acts q r) : Acts p r :=
  Relation.ReflTransGen.head h₁ h₂

end Acts

namespace Prims

variable {inc : Option Message}

theorem refl (p : Replica) : Prims inc p p := Relation.ReflTransGen.refl

theorem single {p q : Replica} (h : Prim inc p q) : Prims inc p q := Relation.ReflTransGen.single h

theorem trans {p q r : Replica} (h₁ : Prims inc p q) (h₂ : Prims inc q r) : Prims inc p r :=
  Relation.ReflTransGen.trans h₁ h₂

theorem head {p q r : Replica} (h₁ : Prim inc p q) (h₂ : Prims inc q r) : Prims inc p r :=
  Relation.ReflTransGen.head h₁ h₂

theorem of_acts {p q : Replica} (h : Acts p q) : Prims inc p q :=
  Relation.ReflTransGen.mono (fun _ _ => Prim.act) p q h

end Prims

theorem Act.id_eq {p q : Replica} (h : Act p q) : q.id = p.id := by
  cases h with
  | frame _ hid => exact hid
  | execute order d h => exact prepareToExecute_id h

theorem Acts.id_eq {p q : Replica} (h : Acts p q) : q.id = p.id := by
  induction h with
  | refl => rfl
  | tail _ hstep ih => exact hstep.id_eq.trans ih

theorem Prim.id_eq {inc : Option Message} {p q : Replica} (h : Prim inc p q) : q.id = p.id := by
  cases h with
  | act h => exact h.id_eq
  | update d hid => exact hid
  | commit d c _ _ hid _ _ _ _ _ _ _ hexec =>
    obtain ⟨order, hexec⟩ := hexec
    exact (prepareToExecute_id hexec).trans hid
  | @transition p' d s _ _ _ hacts =>
    exact (id_persist p' d).trans (hacts.id_eq.trans (id_setStatus p d s))

theorem Prims.id_eq {inc : Option Message} {p q : Replica} (h : Prims inc p q) : q.id = p.id := by
  induction h with
  | refl => rfl
  | tail _ hstep ih => exact hstep.id_eq.trans ih

/-- Every registered timer is one of an instance of the replica's own space. -/
def TimersOwn (p : Replica) : Prop := ∀ d ∈ p.timers, d.replicaID = p.id

theorem TimersOwn.of_eq {p q : Replica} (hp : TimersOwn p) (hid : q.id = p.id)
    (ht : q.timers = p.timers) : TimersOwn q :=
  fun e he => hid ▸ hp e (ht ▸ he)

theorem Act.timersOwn {p q : Replica} (h : Act p q) (hp : TimersOwn p) : TimersOwn q := by
  cases h with
  | frame _ hid _ _ _ _ _ ht =>
    intro e he
    rw [hid]
    rcases ht e he with he | he
    · exact hp e he
    · exact he
  | execute order d h => exact hp.of_eq (prepareToExecute_frame h).1 (prepareToExecute_frame h).2

theorem Acts.timersOwn {p q : Replica} (h : Acts p q) (hp : TimersOwn p) : TimersOwn q := by
  induction h with
  | refl => exact hp
  | tail _ hstep ih => exact hstep.timersOwn ih

theorem Prim.timersOwn {inc : Option Message} {p q : Replica} (h : Prim inc p q)
    (hp : TimersOwn p) : TimersOwn q := by
  cases h with
  | act h => exact h.timersOwn hp
  | update d hid _ _ _ _ _ _ ht => exact hp.of_eq hid ht
  | commit d c _ _ hid _ _ _ _ _ _ ht hexec =>
    obtain ⟨order, hexec⟩ := hexec
    exact (hp.of_eq hid ht).of_eq (prepareToExecute_frame hexec).1 (prepareToExecute_frame hexec).2
  | @transition p' d s _ _ _ hacts _ =>
    have h₁ : TimersOwn (p.setStatus d s) := hp.of_eq (id_setStatus p d s) (timers_setStatus p d s)
    exact (hacts.timersOwn h₁).of_eq (id_persist p' d) (timers_persist p' d)

theorem Prims.timersOwn {inc : Option Message} {p q : Replica} (h : Prims inc p q)
    (hp : TimersOwn p) : TimersOwn q := by
  induction h with
  | refl => exact hp
  | tail _ hstep ih => exact hstep.timersOwn ih

section Primitives

variable (p : Replica) {inc : Option Message}

theorem act_self : Act p p :=
  .frame [] rfl rfl rfl (List.append_nil _).symm (fun _ he => absurd he List.not_mem_nil) rfl
    fun _ he => .inl he

theorem act_of_getInstance {q : Replica} (hid : q.id = p.id) (h : q.getInstance = p.getInstance)
    (hs : q.storage = p.storage) (hm : q.msgs = p.msgs) (hv : q.vertices = p.vertices)
    (ht : q.timers = p.timers) : Act p q :=
  .frame [] hid (liveState_eq_of_getInstance h) hs (by rw [hm, List.append_nil])
    (fun _ he => absurd he List.not_mem_nil) hv fun _ he => .inl (ht ▸ he)

theorem act_modify_of_is (d : InstanceID) (f : Instance → Instance)
    (hf : ∀ inst, (f inst).is = inst.is) : Act p (p.modify d f) :=
  .frame [] (id_modify p d f) (liveState_modify_of_is p d f hf) (storage_modify p d f)
    (by rw [msgs_modify, List.append_nil]) (fun _ he => absurd he List.not_mem_nil)
    (vertices_modify p d f) fun _ he => .inl (timers_modify p d f ▸ he)

theorem act_unregisterTimer (d : InstanceID) : Act p (p.unregisterTimer d) :=
  .frame [] (id_unregisterTimer p d) (liveState_unregisterTimer p d) (storage_unregisterTimer p d)
    (by rw [msgs_unregisterTimer, List.append_nil]) (fun _ he => absurd he List.not_mem_nil)
    (vertices_unregisterTimer p d) fun _ he => .inl (List.mem_of_mem_filter he)

/-- The slow-path timer of an instance of the replica's own space. -/
theorem act_registerOneTimeTimer (d : InstanceID) (hown : d.replicaID = p.id) :
    Act p (p.registerOneTimeTimer d) := by
  refine .frame [] (id_registerOneTimeTimer p d) (liveState_registerOneTimeTimer p d)
    (storage_registerOneTimeTimer p d) (by rw [msgs_registerOneTimeTimer, List.append_nil])
    (fun _ he => absurd he List.not_mem_nil) (vertices_registerOneTimeTimer p d) fun e he => ?_
  change e ∈ (if d ∈ p.timers then p.timers else p.timers ++ [d]) at he
  split_ifs at he
  · exact .inl he
  · rcases List.mem_append.mp he with he | he
    · exact .inl he
    · exact .inr (List.mem_singleton.mp he ▸ hown)

theorem act_reply (mt : MessageType) (d : InstanceID) (hmt : ∀ c, mt ≠ .commit c) :
    Act p (p.reply mt d) :=
  .frame [⟨d.replicaID, d, mt⟩] rfl (liveState_eq_of_getInstance (getInstance_reply p mt d)) rfl rfl
    (fun _ hm c hc => by
      obtain rfl := List.mem_singleton.mp hm
      exact absurd hc (hmt c)) rfl fun _ he => .inl he

theorem act_broadcast (mt : MessageType) (d : InstanceID) (hs : ∀ r, p.Sent ⟨r, d, mt⟩) :
    Act p (p.broadcast mt d) := by
  refine .frame _ rfl (liveState_eq_of_getInstance (getInstance_broadcast p mt d)) rfl rfl
    (fun m hm => ?_) rfl fun _ he => .inl he
  obtain ⟨r, -, rfl⟩ := List.mem_map.mp hm
  exact hs r

theorem act_broadcastPreAccept (d : InstanceID) : Act p (p.broadcastPreAccept d) := by
  unfold broadcastPreAccept
  split
  · exact act_broadcast p _ d fun _ _ hc => by cases hc
  · exact act_self p

theorem act_broadcastAccept (d : InstanceID) : Act p (p.broadcastAccept d) := by
  unfold broadcastAccept
  split
  · exact act_broadcast p _ d fun _ _ hc => by cases hc
  · exact act_self p

/-- The command leader sends the attributes of an instance it holds committed. -/
theorem act_broadcastCommit (d : InstanceID) (hown : d.replicaID = p.id)
    (hc : ∀ is, p.liveState d = some is → is.status = .committed) :
    Act p (p.broadcastCommit d) := by
  unfold broadcastCommit
  split
  · rename_i inst hinst
    have hd : p.liveState d = some inst.is := by rw [liveState, hinst]; rfl
    refine act_broadcast p _ d fun _ c hmt => ⟨hown, inst.is, hd, hc _ hd, ?_⟩
    cases hmt
    rfl
  · exact act_self p

/-- A change of the instance `d` by `f` between states that are not decided,
which keeps an instance of the own space `None` or `PreAccepted`. -/
theorem prim_modify (d : InstanceID) (f : Instance → Instance)
    (hf : ∀ inst, (f inst).is.instanceID = inst.is.instanceID)
    (hst : ∀ inst, p.getInstance d = some inst → inst.is.status.decided = false ∧
      (f inst).is.status.decided = false ∧
      (d.replicaID = p.id → (f inst).is.status = .none ∨ (f inst).is.status = .preAccepted)) :
    Prim inc p (p.modify d f) := by
  refine .update d (id_modify p d f) (msgs_modify p d f) (storage_modify p d f) (fun e he => ?_)
    (fun is h => ?_) (fun is h => ?_) (vertices_modify p d f) (timers_modify p d f)
  · rw [liveState_modify p d f hf, if_neg he]
  · obtain ⟨inst, hi, rfl⟩ := Option.map_eq_some_iff.mp h
    exact (hst inst hi).1
  · rw [liveState_modify p d f hf, if_pos rfl] at h
    obtain ⟨inst, hi, rfl⟩ := Option.map_eq_some_iff.mp h
    exact (hst inst hi).2

theorem prim_setStatus (d : InstanceID)
    (hp : ∀ inst, p.getInstance d = some inst → inst.is.status.decided = false) :
    Prim inc p (p.setStatus d .preAccepted) :=
  prim_modify p d _ (fun _ => rfl) fun inst hi => ⟨hp inst hi, rfl, fun _ => .inr rfl⟩

/-- Storing a `None` or `PreAccepted` instance in place of one that is not
decided. -/
theorem prim_setInstance (inst : Instance)
    (hp : ∀ is, p.liveState inst.is.instanceID = some is → is.status.decided = false)
    (hinst : inst.is.status = .none ∨ inst.is.status = .preAccepted) :
    Prim inc p (p.setInstance inst) := by
  refine .update inst.is.instanceID rfl rfl rfl (fun e he => ?_) hp (fun is h => ?_) rfl rfl
  · rw [liveState_setInstance, if_neg (Ne.symm he)]
  · rw [liveState_setInstance, if_pos rfl, Option.some.injEq] at h
    subst h
    refine ⟨?_, fun _ => hinst⟩
    rcases hinst with h | h <;> rw [h] <;> rfl

end Primitives

theorem Instance.mergeReply_status (inst : Instance) (newSeq : ℕ) (ds : List InstanceID) :
    (inst.mergeReply newSeq ds).is.status = inst.is.status := by
  unfold Instance.mergeReply
  dsimp only
  split_ifs <;> rfl

theorem Instance.mergeReply_id (inst : Instance) (newSeq : ℕ) (ds : List InstanceID) :
    (inst.mergeReply newSeq ds).is.instanceID = inst.is.instanceID := by
  unfold Instance.mergeReply
  dsimp only
  split_ifs <;> rfl

theorem BTree.num_le_max {t : BTree} {x : Instance} (hx : x ∈ t.items) :
    ∃ m, t.max = some m ∧ x.num ≤ m.num := by
  obtain ⟨items, sorted⟩ := t
  cases items with
  | nil => cases hx
  | cons m rest =>
    refine ⟨m, rfl, ?_⟩
    rcases List.mem_cons.mp hx with rfl | hx
    · exact le_rfl
    · exact ((List.pairwise_cons.mp sorted).1 x hx).le

/-- `onRequest` takes a number above every instance of its own space. -/
theorem getInstance_next (p : Replica) (r : ℕ) :
    p.getInstance ⟨r, p.maxInstanceNum r + 1⟩ = none := by
  cases h : p.getInstance ⟨r, p.maxInstanceNum r + 1⟩ with
  | none => rfl
  | some x =>
    obtain ⟨hnum, hmem⟩ := BTree.get_some h
    obtain ⟨m, hm, hle⟩ := BTree.num_le_max hmem
    simp only [maxInstanceNum, hm] at hnum
    omega

theorem decided_of_transition {s t : Status} {a : TransitionAction}
    (h : stateTransitions s t = some a) (ht : t ≠ .executed) : s.decided = false := by
  cases s <;> cases t <;> simp [stateTransitions, Status.decided] at h ht ⊢

theorem committed_of_transition {s t : Status}
    (h : stateTransitions s t = some .broadcastCommitAndExecute) : t = .committed := by
  cases s <;> cases t <;> simp [stateTransitions] at h ⊢

theorem action_of_committed {s : Status} {a : TransitionAction}
    (h : stateTransitions s .committed = some a) : a = .broadcastCommitAndExecute := by
  cases s <;> simp [stateTransitions] at h <;> exact h.symm

/-- The statuses `isStates` accepts are not decided. -/
theorem decided_of_isStates {inst : Instance}
    (h : ¬(!inst.isStates [.none, .preAccepted, .accepted]) = true) :
    inst.is.status.decided = false := by
  simp only [Instance.isStates, Bool.not_eq_true', decide_eq_false_iff_not, not_not,
    List.mem_cons, List.not_mem_nil, or_false] at h
  rcases h with hs | hs | hs <;> rw [hs] <;> rfl

variable {order : MapOrder InstanceID} {inc : Option Message} {p q : Replica} {d : InstanceID}

/-- An action sends and runs the executor; it commits only an instance of the
replica's own space that it holds committed. -/
theorem acts_runAction {a : TransitionAction} (h : runAction order a p d = some q)
    (hcommit : a = .broadcastCommitAndExecute → d.replicaID = p.id ∧
      ∀ is, p.liveState d = some is → is.status = .committed) : Acts p q := by
  cases a with
  | broadcastPreAccept =>
    rw [runAction, Option.some.injEq] at h
    exact h ▸ .single (act_broadcastPreAccept p d)
  | broadcastAccept =>
    rw [runAction, Option.some.injEq] at h
    exact h ▸ .single (act_broadcastAccept p d)
  | broadcastCommitAndExecute =>
    rw [runAction] at h
    obtain ⟨hown, hc⟩ := hcommit rfl
    exact .head (act_broadcastCommit p d hown hc) (.single (.execute order d h))
  | deliverExecutedCommand =>
    obtain ⟨_, rfl⟩ := deliverExecuted_eq h
    exact .single (act_of_getInstance p rfl rfl rfl rfl rfl rfl)

/-- `transitionTo` any status but `Executed`, at the command leader. -/
theorem prims_transitionTo {s : Status} (h : p.transitionTo order d s = some q)
    (hs : s ≠ .executed) (hown : d.replicaID = p.id) : Prims inc p q := by
  simp only [transitionTo, Option.bind_eq_bind, Option.bind_eq_some_iff,
    Option.some.injEq] at h
  obtain ⟨inst, hinst, a, ha, p', hp', rfl⟩ := h
  have hd : p.liveState d = some inst.is := by rw [liveState, hinst]; rfl
  -- after the status change the leader holds the instance in status `s`
  have hown' : d.replicaID = (p.setStatus d s).id := hown.trans (id_setStatus p d s).symm
  have hstatus : ∀ is, (p.setStatus d s).liveState d = some is → is.status = s := by
    intro is his
    rw [liveState_setStatus, if_pos rfl, hd, Option.map_some, Option.some.injEq] at his
    rw [← his]
  refine .single (.transition d s ⟨inst.is, hd, decided_of_transition ha hs⟩ hs hown
    (acts_runAction hp' fun hbc => ⟨hown', fun is his => ?_⟩) fun hsc => ?_)
  · rw [hstatus is his]
    exact committed_of_transition (hbc ▸ ha)
  · obtain rfl := action_of_committed (hsc ▸ ha)
    rw [runAction] at hp'
    exact ⟨order, _, act_broadcastCommit _ d hown' fun is his => (hstatus is his).trans hsc, hp'⟩

/-- The replay of a transition at a restart, for an instance of the replica's
own space, runs the action only. -/
theorem acts_restartTransition (h : p.restartTransition order d = some q)
    (hown : d.replicaID = p.id) : Acts p q := by
  simp only [restartTransition, Option.bind_eq_bind, Option.bind_eq_some_iff] at h
  obtain ⟨inst, hinst, prev, -, a, ha, hrun⟩ := h
  refine acts_runAction hrun fun hbc => ⟨hown, fun is his => ?_⟩
  have hsc := committed_of_transition (hbc ▸ ha)
  rw [liveState, hinst, Option.map_some, Option.some.injEq] at his
  rw [← his, hsc]

theorem prims_onEitherPreAcceptReply (h : p.onEitherPreAcceptReply order d = some q)
    (hown : d.replicaID = p.id) : Prims inc p q := by
  simp only [onEitherPreAcceptReply, Option.bind_eq_bind, Option.bind_eq_some_iff] at h
  obtain ⟨inst, -, h⟩ := h
  have hown' : d.replicaID = (p.unregisterTimer d).id := hown.trans (id_unregisterTimer p d).symm
  split_ifs at h
  · exact .head (.act (act_unregisterTimer p d)) (prims_transitionTo h nofun hown')
  · exact .head (.act (act_unregisterTimer p d)) (prims_transitionTo h nofun hown')
  · rw [Option.some.injEq] at h
    exact h ▸ .single (.act (act_registerOneTimeTimer p d hown))
  all_goals
    rw [Option.some.injEq] at h
    exact h ▸ .refl p

theorem prims_onPreAccept {pa : InstanceData} (h : p.onPreAccept d pa = some q) :
    Prims inc p q := by
  simp only [onPreAccept, Option.bind_eq_bind, Option.bind_eq_some_iff] at h
  obtain ⟨inst, hinst, h⟩ := h
  split_ifs at h with hst
  · rw [Option.pure_def, Option.some.injEq] at h
    exact h ▸ .refl p
  cases hc : pa.command with
  | none => simp [hc] at h
  | some cmd =>
  rw [hc, Option.bind_some, Option.bind_eq_some_iff] at h
  obtain ⟨⟨s, ds⟩, -, h⟩ := h
  have hund : inst.is.status.decided = false := by
    simp only [Instance.isStates, Bool.not_eq_true', decide_eq_false_iff_not, not_not,
      List.mem_cons, List.not_mem_nil, or_false] at hst
    rcases hst with hs | hs <;> rw [hs] <;> rfl
  -- `None` or `PreAccepted` becomes `PreAccepted`, twice
  have h₁ : Prim inc p (p.setStatus d .preAccepted) := prim_setStatus p d fun i hi => by
    rw [hinst, Option.some.injEq] at hi
    exact hi ▸ hund
  have h₂ := @prim_modify (p.setStatus d .preAccepted) inc d
    (fun inst => { inst with
      is := { inst.is with
        command := some cmd
        seqNum := maxSeqNum pa.seqNum (s + 1)
        deps := depSliceFromMap (ds ++ pa.deps) } })
    (fun _ => rfl) (fun i hi => by
    rw [getInstance_setStatus_self p hinst, Option.some.injEq] at hi
    subst hi
    exact ⟨rfl, rfl, fun _ => .inr rfl⟩)
  split_ifs at h <;>
  · rw [Option.some.injEq] at h
    exact h ▸ .head h₁ (.head h₂ (.single (.act (act_reply _ _ d nofun))))

theorem prims_onPreAcceptOK (h : p.onPreAcceptOK order d = some q)
    (hown : d.replicaID = p.id) : Prims inc p q := by
  simp only [onPreAcceptOK, Option.bind_eq_bind, Option.bind_eq_some_iff] at h
  obtain ⟨inst, -, h⟩ := h
  split_ifs at h
  · rw [Option.pure_def, Option.some.injEq] at h
    exact h ▸ .refl p
  · refine .head (.act ?_) (prims_onEitherPreAcceptReply h ?_)
    · exact act_modify_of_is p d _ fun _ => rfl
    · rw [id_modify]
      exact hown

theorem prims_onPreAcceptReply {newSeq : ℕ} {ds : List InstanceID}
    (h : p.onPreAcceptReply order d newSeq ds = some q) (hown : d.replicaID = p.id) :
    Prims inc p q := by
  simp only [onPreAcceptReply, Option.bind_eq_bind, Option.bind_eq_some_iff] at h
  obtain ⟨inst, hinst, h⟩ := h
  split_ifs at h with hst
  · rw [Option.pure_def, Option.some.injEq] at h
    exact h ▸ .refl p
  · -- the merge keeps the instance `PreAccepted`
    have hpa : inst.is.status = .preAccepted := by
      simpa [Instance.isStates] using hst
    refine .head (prim_setInstance p _ (fun is his => ?_) (.inr ?_))
      (prims_onEitherPreAcceptReply h hown)
    · rw [Instance.mergeReply_id, getInstance_id hinst, liveState, hinst, Option.map_some,
        Option.some.injEq] at his
      rw [← his, hpa]
      rfl
    · rw [Instance.mergeReply_status, hpa]

/-- `onAccept`, for an instance of another replica. -/
theorem prims_onAccept {a : InstanceData} (h : p.onAccept d a = some q)
    (hnown : d.replicaID ≠ p.id) : Prims inc p q := by
  simp only [onAccept, Option.bind_eq_bind, Option.bind_eq_some_iff] at h
  obtain ⟨inst, hinst, h⟩ := h
  split_ifs at h with hst
  · rw [Option.pure_def, Option.some.injEq] at h
    exact h ▸ .refl p
  · rw [Option.some.injEq] at h
    refine h ▸ .head ?_ (.single (.act (act_reply _ _ d nofun)))
    refine prim_modify p d _ (fun _ => rfl) fun i hi => ?_
    rw [hinst, Option.some.injEq] at hi
    exact ⟨hi ▸ decided_of_isStates hst, rfl, fun h => absurd h hnown⟩

theorem prims_onAcceptOK (h : p.onAcceptOK order d = some q) (hown : d.replicaID = p.id) :
    Prims inc p q := by
  simp only [onAcceptOK, Option.bind_eq_bind, Option.bind_eq_some_iff] at h
  obtain ⟨inst, -, h⟩ := h
  split_ifs at h
  · rw [Option.pure_def, Option.some.injEq] at h
    exact h ▸ .refl p
  · refine .head (.act ?_) (prims_transitionTo h nofun ?_)
    · exact act_modify_of_is p d _ fun _ => rfl
    · rw [id_modify]
      exact hown
  · rw [Option.some.injEq] at h
    exact h ▸ .single (.act (act_modify_of_is p d _ fun _ => rfl))

/-- `onCommit` of the `Commit` the call handles, for an instance of another
replica. -/
theorem prims_onCommit {c : InstanceData} (h : p.onCommit order d c = some q)
    (hinc : ∃ m, inc = some m ∧ m.instanceID = d ∧ m.msgType = .commit c)
    (hnown : d.replicaID ≠ p.id) : Prims inc p q := by
  simp only [onCommit, Option.bind_eq_bind, Option.bind_eq_some_iff] at h
  obtain ⟨inst, hinst, h⟩ := h
  split_ifs at h with hst
  · rw [Option.pure_def, Option.some.injEq] at h
    exact h ▸ .refl p
  · have hd : p.liveState d = some inst.is := by rw [liveState, hinst]; rfl
    refine .single (.commit d c hinc hnown (id_modify p d _) (msgs_modify p d _)
      (storage_modify p d _) (fun e he => ?_) (fun is his => ?_) ?_ (vertices_modify p d _)
      (timers_modify p d _) ⟨order, h⟩)
    · rw [liveState_modify]
      · rw [if_neg he]
      · exact fun _ => rfl
    · rw [hd, Option.some.injEq] at his
      exact his ▸ decided_of_isStates hst
    · rw [liveState_modify]
      · rw [if_pos rfl, hinst, Option.map_some, ← getInstance_id hinst]
      · exact fun _ => rfl

theorem prims_onRequest {cmd : Command} (h : p.onRequest order cmd = some q) : Prims inc p q := by
  simp only [onRequest, Option.bind_eq_bind, Option.bind_eq_some_iff] at h
  obtain ⟨⟨s, ds⟩, -, h⟩ := h
  -- the new instance goes to an empty slot of the replica's own space
  refine .head (prim_setInstance p _ (fun is his => ?_) (.inl rfl))
    (prims_transitionTo h nofun rfl)
  simp [Instance.ofState, liveState, getInstance_next] at his

/-- A timer of an instance of the replica's own space ticks. -/
theorem prims_tickTimer (h : p.tickTimer order d = some q) (hown : d.replicaID = p.id) :
    Prims inc p q := by
  unfold tickTimer at h
  split at h
  · rw [Option.some.injEq] at h
    exact h ▸ .refl p
  · dsimp only at h
    split_ifs at h
    · rw [Option.some.injEq] at h
      exact h ▸ .refl p
    · refine .head (.act ?_) (.head (.act (act_unregisterTimer _ d)) (prims_transitionTo h nofun ?_))
      · exact act_modify_of_is p d _ fun _ => rfl
      · rw [id_unregisterTimer, id_modify]
        exact hown
    · rw [Option.some.injEq] at h
      exact h ▸ .single (.act (act_modify_of_is p d _ fun _ => rfl))

/-- The timers of instances of the replica's own space tick in turn. -/
theorem prims_foldlM_tickTimer (ds : List InstanceID) (hown : ∀ d ∈ ds, d.replicaID = p.id)
    (h : ds.foldlM (tickTimer order) p = some q) : Prims inc p q := by
  -- the calls before keep the id, so the later timers stay own
  refine (OptionFold.foldlM_invariant _
    (fun l b => (∀ d ∈ l, d.replicaID = b.id) ∧ Prims inc p b)
    (fun a l b b' hb hb' => ?_) ds p q ⟨hown, .refl p⟩ h).2
  have hstep : Prims inc b b' := prims_tickTimer hb' (hb.1 a List.mem_cons_self)
  refine ⟨fun d hd => ?_, hb.2.trans hstep⟩
  rw [hstep.id_eq]
  exact hb.1 d (List.mem_cons_of_mem a hd)

/-- `Tick`, when every registered timer is one of an instance of the replica's
own space. -/
theorem prims_tick (h : p.tick order = some q) (hown : ∀ d ∈ p.timers, d.replicaID = p.id) :
    Prims inc p q :=
  prims_foldlM_tickTimer p.timers hown h

/-- `validateMessage` passes replies for the replica's own instances and the
other messages for instances of other replicas. -/
theorem validateMessage_own {m : Message} (h : p.validateMessage m = true) :
    (isReply m.msgType = true → m.instanceID.replicaID = p.id) ∧
    (isReply m.msgType = false → m.instanceID.replicaID ≠ p.id) := by
  unfold validateMessage at h
  split_ifs at h with hd hr
  · exact ⟨fun _ => of_decide_eq_true h, fun hf => absurd hf (by rw [hr]; decide)⟩
  · rw [Bool.and_eq_true, decide_eq_true_eq, decide_eq_true_eq] at h
    exact ⟨fun ht => absurd ht hr, fun _ => h.1⟩

theorem prims_step {m : Message} (h : p.step order m = some q) : Prims (some m) p q := by
  unfold step at h
  by_cases hv : (!p.validateMessage m) = true
  · rw [if_pos hv, Option.some.injEq] at h
    exact h ▸ .refl p
  have hval := validateMessage_own (by simpa using hv)
  by_cases hown : ((p.getInstance m.instanceID).isNone && m.instanceID.replicaID = p.id) = true
  · rw [if_neg hv, if_pos hown, Option.some.injEq] at h
    exact h ▸ .refl p
  rw [if_neg hv, if_neg hown] at h
  dsimp only at h
  generalize hp₁ : (if (p.getInstance m.instanceID).isNone = true then
    p.setInstance (Instance.new m.instanceID.replicaID m.instanceID.instanceNum) else p) = p₁ at h
  have hid : p₁.id = p.id := by
    subst hp₁
    split_ifs <;> rfl
  -- `Step` first stores a fresh `None` instance for an unknown id
  have h₁ : Prims (some m) p p₁ := by
    subst hp₁
    split_ifs with hnone
    · refine .single (prim_setInstance p _ (fun is his => ?_) (.inl rfl))
      have hid : (Instance.new m.instanceID.replicaID m.instanceID.instanceNum).is.instanceID =
          m.instanceID := rfl
      rw [hid, liveState, Option.isNone_iff_eq_none.mp hnone] at his
      cases his
    · exact .refl p
  have hreply : isReply m.msgType = true → m.instanceID.replicaID = p₁.id := fun hr =>
    (hval.1 hr).trans hid.symm
  have hother : isReply m.msgType = false → m.instanceID.replicaID ≠ p₁.id := fun hr =>
    hid ▸ hval.2 hr
  refine h₁.trans ?_
  cases hm : m.msgType <;> rw [hm] at h hreply hother
  · exact prims_onPreAccept h
  · exact prims_onPreAcceptOK h (hreply rfl)
  · exact prims_onPreAcceptReply h (hreply rfl)
  · exact prims_onAccept h (hother rfl)
  · exact prims_onAcceptOK h (hreply rfl)
  · exact prims_onCommit h ⟨m, rfl, rfl, hm⟩ (hother rfl)

end Replica

end EPaxos
