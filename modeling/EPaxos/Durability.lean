import EPaxos.Restart
import EPaxos.Order

/-!
# What a replica finds again after a restart

`persist` runs only at the end of `transitionTo` and in `Execute`. The handlers
a replica runs for an instance of another replica (`onPreAccept`, `onAccept`,
`onCommit`) change it in memory only, and so does the command leader's merge of
a `PreAcceptReply`: a replica answers a `PreAccept` or an `Accept`, and holds
another replica's instance committed, with nothing in its storage
(`acknowledged_unstored`).

What storage does hold as memory does, for either storage and over every run
with restarts, is what the replica has vouched for through a transition of its
own: every instance it executed, and every instance of its own space from
`Accepted` on (`vouched_stored`). Since `transitionTo` is one update of `Prim`,
this holds after every update of a call, and so after every call and every
restart.
-/
namespace EPaxos

/-- What the replica `r` has vouched for: an instance it executed, or an
instance of its own space that it accepted or committed. -/
def Vouched (r : ℕ) (d : InstanceID) (is : InstanceState) : Prop :=
  is.status = .executed ∨ (d.replicaID = r ∧ (is.status = .accepted ∨ is.status = .committed))

/-- A state that is not decided, and below `Accepted` in the own space, is not
vouched for. -/
theorem not_vouched {r : ℕ} {d : InstanceID} {is : InstanceState}
    (hd : is.status.decided = false)
    (hown : d.replicaID = r → is.status = .none ∨ is.status = .preAccepted) :
    ¬Vouched r d is := by
  rintro (hex | ⟨hr, hac⟩)
  · exact Status.ne_executed hd hex
  · rcases hown hr with h | h <;> rcases hac with h' | h' <;> rw [h] at h' <;> cases h'

namespace Replica

/-- Storage holds every vouched state as memory does, except for the instances
of `except`, whose transition is under way. -/
def Durable (except : List InstanceID) (p : Replica) : Prop :=
  ∀ d is, d ∉ except → p.liveState d = some is → Vouched p.id d is → p.storedState d = some is

namespace Durable

variable {except : List InstanceID} {p q : Replica}

/-- A change of some instances that persists each of them. -/
theorem of_persisted (h : Durable except p) (hid : q.id = p.id) (changed : List InstanceID)
    (hout : ∀ e, e ∉ changed → q.liveState e = p.liveState e ∧ q.storedState e = p.storedState e)
    (hin : ∀ e ∈ changed, q.storedState e = q.liveState e) : Durable except q := by
  intro d is hd hl hv
  rw [hid] at hv
  by_cases hc : d ∈ changed
  · rw [hin d hc, hl]
  · rw [(hout d hc).1] at hl
    rw [(hout d hc).2]
    exact h d is hd hl hv

/-- A change of one instance, in memory only, to a state not vouched for. -/
theorem of_update (h : Durable except p) (hid : q.id = p.id) (d : InstanceID)
    (hother : ∀ e, e ≠ d → q.liveState e = p.liveState e) (hs : q.storage = p.storage)
    (hq : ∀ is, q.liveState d = some is → ¬Vouched p.id d is) : Durable except q := by
  intro e is he hl hv
  rw [hid] at hv
  by_cases hed : e = d
  · subst hed
    exact absurd hv (hq is hl)
  · rw [hother e hed] at hl
    rw [storedState_congr hs (hother e hed)]
    exact h e is he hl hv

/-- The instance whose status a transition sets joins the exceptions. -/
theorem setStatus (h : Durable except p) (d : InstanceID) (s : Status) :
    Durable (d :: except) (p.setStatus d s) := by
  intro e is he hl hv
  have hed : e ≠ d := fun h => he (h ▸ List.mem_cons_self)
  have hle : (p.setStatus d s).liveState e = p.liveState e := by
    rw [liveState_setStatus, if_neg hed]
  rw [hle] at hl
  rw [id_setStatus] at hv
  rw [storedState_congr (storage_setStatus p d s) hle]
  exact h e is (fun h => he (List.mem_cons_of_mem _ h)) hl hv

/-- `persist` of the instance under way ends its exception. -/
theorem persist (h : Durable (d :: except) p) : Durable except (p.persist d) := by
  intro e is he hl hv
  rw [liveState_eq_of_getInstance (getInstance_persist p d)] at hl
  rw [id_persist] at hv
  by_cases hed : e = d
  · subst hed
    exact storedState_persist_self p hl
  · rw [storedState_persist_of_ne p hed]
    exact h e is (fun hm => (List.mem_cons.mp hm).elim hed he) hl hv

end Durable

theorem Act.durable {except : List InstanceID} {p q : Replica} (h : Act p q)
    (hp : Durable except p) : Durable except q := by
  cases h with
  | frame _ hid hl hs =>
    exact hp.of_persisted hid []
      (fun e _ => ⟨congrFun hl e, storedState_congr hs (congrFun hl e)⟩)
      (fun _ he => absurd he List.not_mem_nil)
  | execute order d h =>
    obtain ⟨done, -, hout, hin⟩ := prepareToExecute_spec h
    refine hp.of_persisted (prepareToExecute_id h) done hout fun e he => ?_
    obtain ⟨_, -, -, -, hstored⟩ := hin e he
    exact hstored

theorem Acts.durable {except : List InstanceID} {p q : Replica} (h : Acts p q)
    (hp : Durable except p) : Durable except q := by
  induction h with
  | refl => exact hp
  | tail _ hstep ih => exact hstep.durable ih

theorem Prim.durable {inc : Option Message} {except : List InstanceID} {p q : Replica}
    (h : Prim inc p q) (hp : Durable except p) : Durable except q := by
  cases h with
  | act h => exact h.durable hp
  | update d hid _ hs hother _ hq =>
    exact hp.of_update hid d hother hs fun is h => not_vouched (hq is h).1 (hq is h).2
  | commit d c _ hnown hid _ hs hother _ hq _ _ hexec =>
    obtain ⟨order, hexec⟩ := hexec
    refine (Act.execute order d hexec).durable (hp.of_update hid d hother hs fun is h => ?_)
    rw [hq, Option.some.injEq] at h
    -- a commit of another replica's instance is neither executed nor own
    rintro (hex | ⟨hown, -⟩)
    · rw [← h] at hex
      cases hex
    · exact hnown hown
  | transition d s _ _ _ hacts => exact (hacts.durable (hp.setStatus d s)).persist

theorem Prims.durable {inc : Option Message} {except : List InstanceID} {p q : Replica}
    (h : Prims inc p q) (hp : Durable except p) : Durable except q := by
  induction h with
  | refl => exact hp
  | tail _ hstep ih => exact hstep.durable ih

/-- A state loaded from storage is stored as it is held; the replay of its
transition keeps what is vouched for stored. -/
theorem durable_loadInstance {order : MapOrder InstanceID} {is : InstanceState}
    {rest : List InstanceState} {q q' : Replica} (hl : LoadInv (is :: rest) q) (h : Durable [] q)
    (hq : q.loadInstance order is = some q') : Durable [] q' := by
  set q₁ := q.setInstance (Instance.ofState is)
  have hl₁ : ∀ e, q₁.liveState e = if is.instanceID = e then some is else q.liveState e :=
    liveState_setInstance q _
  have hstored : q₁.storedState is.instanceID = some is :=
    storedState_of_absent (storage_setInstance q _) (hl.absent is List.mem_cons_self)
      (hl.stored is List.mem_cons_self)
  have h₁ : Durable [] q₁ := by
    refine h.of_persisted rfl [is.instanceID] (fun e he => ?_) fun e he => ?_
    · have hne : is.instanceID ≠ e := fun h => he (h ▸ List.mem_singleton_self _)
      rw [hl₁, if_neg hne]
      exact ⟨rfl, storedState_congr (storage_setInstance q _) (by rw [hl₁, if_neg hne])⟩
    · rw [List.mem_singleton.mp he, hstored, hl₁, if_pos rfl]
  exact (acts_loadInstance hq).durable h₁

end Replica

namespace Network

open Replica

/-- A replica restarted from its storage keeps its id, and has stored what it
vouches for. -/
theorem restartReplica_durable {order : MapOrder InstanceID} {loadOrder : MapOrder InstanceState}
    {p q : Replica} (h : restartReplica order loadOrder p = some q)
    (hp : p.ExecClosed ∧ p.StoreExec []) : q.id = p.id ∧ q.Durable [] := by
  obtain ⟨p₀, hlive₀, hinst₀, hid₀, -, -, -, hfold⟩ := restartReplica_eq h
  -- the restarted replica starts empty, so it vouches for nothing yet
  have hload := loadInv_freeze loadOrder hp hlive₀ hinst₀
  have hinv := OptionFold.foldlM_invariant _
    (fun rest q => LoadInv rest q ∧ q.Durable [] ∧ q.id = p.id)
    (fun is rest q q' ⟨hl, hd, hid⟩ hq => ⟨hl.loadInstance hq, durable_loadInstance hl hd hq,
      (acts_loadInstance hq).id_eq.trans hid⟩)
    _ p₀ q ⟨hload, (fun d is _ hd => by rw [hlive₀] at hd; cases hd), hid₀⟩ hfold
  exact ⟨hinv.2.2, hinv.2.1⟩

/-- Every replica keeps its id and has stored what it vouched for. -/
def Durable (net : Network) : Prop :=
  ∀ r, (net.replicas r).id = r ∧ (net.replicas r).Durable []

theorem durable_init (nodes : List ℕ) (aliasing : ℕ → Bool) : (init nodes aliasing).Durable :=
  fun _ => ⟨rfl, fun _ _ _ hd => by cases hd⟩

theorem durable_step {order : MapOrder InstanceID} {loadOrder : MapOrder InstanceState}
    {e : Event} {net net' : Network} (hti : net.TimersOwn) (hsafe : net.ExecSafe)
    (h : net.Durable) (hs : step order loadOrder e net = some net') : net'.Durable := by
  refine replicas_step (I := fun r q => q.id = r ∧ q.Durable []) hti h (fun _ _ hq => hq)
    (fun r _ _ hp => ⟨hp.id_eq.trans (h r).1, hp.durable (h r).2⟩) (fun r _ hq => ?_) hs
  -- a call keeps the id, and so does a restart
  obtain ⟨hid, hd⟩ := restartReplica_durable hq (hsafe r)
  exact ⟨hid.trans (h r).1, hd⟩

theorem durable_reachable {nodes : List ℕ} {aliasing : ℕ → Bool} {restarts : Bool}
    {net : Network} (h : Reachable nodes aliasing restarts net) : net.Durable := by
  induction h with
  | refl => exact durable_init nodes aliasing
  | tail hr hstep ih =>
    obtain ⟨e, order, loadOrder, -, hs⟩ := hstep
    exact durable_step (timersOwn_reachable hr) (execSafe_reachable hr) ih hs

/-- Replica `0` proposes a write, and its `PreAccept` reaches replica `1`. -/
def proposeNet : Network :=
  (runEvents (MapOrder.id _) (MapOrder.id _) [.request 0 (writeA 1)]
    (init [0, 1, 2] fun _ => true)).get (by decide)

def preAcceptToOne : Message := ⟨1, ⟨0, 1⟩, .preAccept ⟨some (writeA 1), 1, []⟩⟩

def answerNet : Network :=
  (step (MapOrder.id _) (MapOrder.id _) (.deliver preAcceptToOne) proposeNet).get (by decide)

/-- Replica `2` proposes a write of `a`, and replica `0` another. Replica `2`
answers the `PreAccept` of `(0, 1)` with a new dependency, so replica `0`
takes the slow path and sends its `Accept`s. -/
def differentReplyNet : Network :=
  (runEvents (MapOrder.id _) (MapOrder.id _)
    [.request 2 (writeA 2), .request 0 (writeA 1),
     .deliver ⟨2, ⟨0, 1⟩, .preAccept ⟨some (writeA 1), 1, []⟩⟩,
     .deliver ⟨0, ⟨0, 1⟩, .preAcceptReply 2 [⟨2, 1⟩]⟩]
    (init [0, 1, 2] fun _ => true)).get (by decide)

def acceptToReplicaOne : Message := ⟨1, ⟨0, 1⟩, .accept ⟨none, 2, [⟨2, 1⟩]⟩⟩

/-- The `Accept` reaches replica `1`, which answers it. -/
def acceptNet : Network :=
  (step (MapOrder.id _) (MapOrder.id _) (.deliver acceptToReplicaOne) differentReplyNet).get (by decide)

/-- The `AcceptOK` reaches replica `0`, which commits, and its `Commit` reaches
replica `2`. -/
def commitNet : Network :=
  (runEvents (MapOrder.id _) (MapOrder.id _)
    [.deliver ⟨0, ⟨0, 1⟩, .acceptOk⟩,
     .deliver ⟨2, ⟨0, 1⟩, .commit ⟨some (writeA 1), 2, [⟨2, 1⟩]⟩⟩] acceptNet).get (by decide)

/-- A replica vouches with nothing in its storage, a `MemoryStorage`: replica
`1` answers a `PreAccept` with a `PreAcceptOK`, and an `Accept` with an
`AcceptOK`, while it holds no entry for the instance; and replica `2` holds
another replica's instance `Committed`, from a `Commit`, with no entry for it. -/
theorem acknowledged_unstored :
    (Reachable [0, 1, 2] (fun _ => true) false answerNet ∧
      (⟨0, ⟨0, 1⟩, .preAcceptOk⟩ : Message) ∉ proposeNet.inFlight ∧
      (⟨0, ⟨0, 1⟩, .preAcceptOk⟩ : Message) ∈ answerNet.inFlight ∧
      (answerNet.replicas 1).liveState ⟨0, 1⟩ =
        some ⟨⟨0, 1⟩, .preAccepted, some (writeA 1), 1, []⟩ ∧
      (answerNet.replicas 1).storage.lookup ⟨0, 1⟩ = none) ∧
    (Reachable [0, 1, 2] (fun _ => true) false acceptNet ∧
      (⟨0, ⟨0, 1⟩, .acceptOk⟩ : Message) ∉ differentReplyNet.inFlight ∧
      (⟨0, ⟨0, 1⟩, .acceptOk⟩ : Message) ∈ acceptNet.inFlight ∧
      (acceptNet.replicas 1).liveState ⟨0, 1⟩ = some ⟨⟨0, 1⟩, .accepted, none, 2, [⟨2, 1⟩]⟩ ∧
      (acceptNet.replicas 1).storage.lookup ⟨0, 1⟩ = none) ∧
    (Reachable [0, 1, 2] (fun _ => true) false commitNet ∧
      (commitNet.replicas 2).liveState ⟨0, 1⟩ =
        some ⟨⟨0, 1⟩, .committed, some (writeA 1), 2, [⟨2, 1⟩]⟩ ∧
      (commitNet.replicas 2).storage.lookup ⟨0, 1⟩ = none) := by
  have hpropose : Reachable [0, 1, 2] (fun _ => true) false proposeNet :=
    reachable_of_runEvents (by decide) (Option.some_get _).symm
  have hslow : Reachable [0, 1, 2] (fun _ => true) false differentReplyNet :=
    reachable_of_runEvents (by decide) (Option.some_get _).symm
  have haccept : Reachable [0, 1, 2] (fun _ => true) false acceptNet :=
    hslow.tail ⟨.deliver acceptToReplicaOne, MapOrder.id _, MapOrder.id _, rfl, (Option.some_get _).symm⟩
  refine ⟨⟨hpropose.tail ⟨.deliver preAcceptToOne, MapOrder.id _, MapOrder.id _, rfl,
    (Option.some_get _).symm⟩, by decide, by decide, by decide, by decide⟩,
    ⟨haccept, by decide, by decide, by decide, by decide⟩,
    ⟨haccept.trans_runEvents (by decide) (Option.some_get _).symm, by decide, by decide⟩⟩

/-- In every run, with restarts or without and for either storage, a replica's
storage holds every instance the replica executed, and every instance of its
own space that it accepted or committed, as the replica holds it. -/
theorem vouched_stored {nodes : List ℕ} {aliasing : ℕ → Bool} {restarts : Bool}
    {net : Network} (h : Reachable nodes aliasing restarts net) (r : ℕ) (d : InstanceID)
    (is : InstanceState) (hd : (net.replicas r).liveState d = some is)
    (hv : is.status = .executed ∨
      (d.replicaID = r ∧ (is.status = .accepted ∨ is.status = .committed))) :
    (net.replicas r).storedState d = some is := by
  obtain ⟨hid, hdur⟩ := durable_reachable h r
  refine hdur d is List.not_mem_nil hd ?_
  rw [hid]
  exact hv

/-- The run of `tieRun` with storages that copy: replica `0` has committed its
instance `(0,1)` and not executed it. -/
def copyNet : Network :=
  (runEvents (MapOrder.id _) (MapOrder.id _) tieRun (init [0, 1, 2] fun _ => false)).get
    (by decide)

theorem vouched_stored_copyNet :
    (copyNet.replicas 0).storedState ⟨0, 1⟩ =
      some ⟨⟨0, 1⟩, .committed, some (writeA 1), 3, [⟨0, 2⟩]⟩ :=
  vouched_stored (@reachable_of_runEvents _ _ false _ _ _ _ (by decide) (Option.some_get _).symm)
    0 ⟨0, 1⟩ _ (by decide) (.inr ⟨rfl, .inr rfl⟩)

/-! A restart does not keep a leader's reply counters: `Instance.ofState` starts
them from zero and `restartTransition` sends the `PreAccept` or `Accept` again,
while answers to the earlier round may still be in flight. A `Message` carries
no sender, so both answers of one replica count. -/

def acceptToOne : Message := ⟨1, ⟨0, 1⟩, .accept ⟨none, 1, []⟩⟩

/-- Five replicas with `MemoryStorage`. Replica `0` proposes a write whose
`PreAccept` only replica `1` receives, once before and once after replica `0`
restarts; both `PreAcceptOK`s are counted, and the slow-path timer is one tick
from firing. -/
def roundsNet : Network :=
  (runEvents (MapOrder.id _) (MapOrder.id _)
    [.request 0 (writeA 1), .deliver preAcceptToOne, .restart 0, .deliver preAcceptToOne,
     .deliver ⟨0, ⟨0, 1⟩, .preAcceptOk⟩, .deliver ⟨0, ⟨0, 1⟩, .preAcceptOk⟩, .tick 0]
    (init [0, 1, 2, 3, 4] fun _ => true)).get (by decide)

/-- The timer fires: replica `0` takes the slow path. -/
def slowPathNet : Network :=
  (step (MapOrder.id _) (MapOrder.id _) (.tick 0) roundsNet).get (by decide)

/-- Replica `1` receives the `Accept` once before and once after replica `0`
restarts again; one of its two `AcceptOK`s is counted. -/
def acceptRoundsNet : Network :=
  (runEvents (MapOrder.id _) (MapOrder.id _)
    [.deliver acceptToOne, .restart 0, .deliver acceptToOne, .deliver ⟨0, ⟨0, 1⟩, .acceptOk⟩]
    slowPathNet).get (by decide)

/-- The second `AcceptOK` is counted: replica `0` commits and executes. -/
def quorumlessNet : Network :=
  (step (MapOrder.id _) (MapOrder.id _) (.deliver ⟨0, ⟨0, 1⟩, .acceptOk⟩) acceptRoundsNet).get
    (by decide)

/-- Of five replicas, only replicas `0` and `1` ever hold the instance `(0,1)`,
fewer than the quorum of three; yet replica `0` moves it from `PreAccepted` to
`Accepted`, and from `Accepted` to `Committed` (and `Executed`). -/
theorem restart_counts_replies_twice :
    Reachable [0, 1, 2, 3, 4] (fun _ => true) true roundsNet ∧
    (roundsNet.replicas 0).liveState ⟨0, 1⟩ =
      some ⟨⟨0, 1⟩, .preAccepted, some (writeA 1), 1, []⟩ ∧
    step (MapOrder.id _) (MapOrder.id _) (.tick 0) roundsNet = some slowPathNet ∧
    (slowPathNet.replicas 0).liveState ⟨0, 1⟩ =
      some ⟨⟨0, 1⟩, .accepted, some (writeA 1), 1, []⟩ ∧
    (∀ r ∈ [2, 3, 4], (slowPathNet.replicas r).liveState ⟨0, 1⟩ = none) ∧
    Reachable [0, 1, 2, 3, 4] (fun _ => true) true acceptRoundsNet ∧
    (acceptRoundsNet.replicas 0).liveState ⟨0, 1⟩ =
      some ⟨⟨0, 1⟩, .accepted, some (writeA 1), 1, []⟩ ∧
    step (MapOrder.id _) (MapOrder.id _) (.deliver ⟨0, ⟨0, 1⟩, .acceptOk⟩) acceptRoundsNet =
      some quorumlessNet ∧
    (quorumlessNet.replicas 0).liveState ⟨0, 1⟩ =
      some ⟨⟨0, 1⟩, .executed, some (writeA 1), 1, []⟩ ∧
    (∀ r ∈ [2, 3, 4], (quorumlessNet.replicas r).liveState ⟨0, 1⟩ = none) := by
  have hrounds : Reachable [0, 1, 2, 3, 4] (fun _ => true) true roundsNet :=
    reachable_of_runEvents (by decide) (Option.some_get _).symm
  have hslow : Reachable [0, 1, 2, 3, 4] (fun _ => true) true slowPathNet :=
    hrounds.tail ⟨.tick 0, MapOrder.id _, MapOrder.id _, by decide, (Option.some_get _).symm⟩
  have haccept : Reachable [0, 1, 2, 3, 4] (fun _ => true) true acceptRoundsNet :=
    Reachable.trans_runEvents hslow (by decide) (Option.some_get _).symm
  exact ⟨hrounds, by decide, (Option.some_get _).symm, by decide, by decide, haccept, by decide,
    (Option.some_get _).symm, by decide, by decide⟩

end Network

end EPaxos
