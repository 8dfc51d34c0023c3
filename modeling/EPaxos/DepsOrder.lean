import EPaxos.DepInv

/-!
# Interfering decided instances are ordered by the leaders' dependencies

Over every crash-free run whose requests propose commands with well-formed
spans, `DepInv` holds: each handler of `Request`, `Step` and `Tick` is one of
the kinds of `DepInv`, and so is a lost message. At a state it holds at, two
decided instances were each counted by a quorum made of the command leader and
the replicas it counted; the quorums of two instances share a replica, and that
replica's votes order them (`deps_ordered`).

A span must be well formed: `seqAndDepsForCommand` builds the range of a command
from its span, and an inverted span makes an empty range that no scan adds,
while `Interferes` still finds it overlapping.
-/
namespace EPaxos

open Digraph Network Replica

/-- A request proposes a command whose span is well formed, as the callers of
`Request` do. -/
def Event.WellFormed : Event → Prop
  | .request _ cmd => cmd.span.WellFormed
  | .deliver _ | .drop _ | .tick _ | .restart _ => True

instance : DecidablePred Event.WellFormed := fun e =>
  match e with
  | .request _ cmd => inferInstanceAs (Decidable cmd.span.WellFormed)
  | .deliver _ | .drop _ | .tick _ | .restart _ => isTrue trivial

namespace Network

/-- One step of a crash-free run that proposes well-formed commands. -/
def StepWF (nodes : List ℕ) (net net' : Network) : Prop :=
  ∃ e order loadOrder, Event.allowed nodes false e ∧ e.WellFormed ∧
    step order loadOrder e net = some net'

/-- The states of the crash-free runs that propose well-formed commands. -/
def ReachableWF (nodes : List ℕ) (aliasing : ℕ → Bool) (net : Network) : Prop :=
  Relation.ReflTransGen (StepWF nodes) (init nodes aliasing) net

theorem ReachableWF.reachable {nodes : List ℕ} {aliasing : ℕ → Bool} {net : Network}
    (h : ReachableWF nodes aliasing net) : Reachable nodes aliasing false net :=
  Relation.ReflTransGen.mono (fun _ _ ⟨e, order, loadOrder, he, _, hs⟩ =>
    ⟨e, order, loadOrder, he, hs⟩) _ _ h

/-- A run of allowed, well-formed events from the fresh deployment. -/
theorem reachableWF_of_runEvents {nodes : List ℕ} {aliasing : ℕ → Bool}
    {order : MapOrder InstanceID} {loadOrder : MapOrder InstanceState} :
    ∀ {es : List Event} {net net' : Network}, ReachableWF nodes aliasing net →
      es.all (fun e => Event.allowed nodes false e && decide e.WellFormed) →
      runEvents order loadOrder es net = some net' → ReachableWF nodes aliasing net'
  | [], _, _, h, _, hrun => by
    rw [runEvents, Option.some.injEq] at hrun
    exact hrun ▸ h
  | e :: es, net, net', h, hall, hrun => by
    rw [List.all_cons, Bool.and_eq_true, Bool.and_eq_true, decide_eq_true_iff] at hall
    rw [runEvents, Option.bind_eq_some_iff] at hrun
    obtain ⟨mid, hmid, hrest⟩ := hrun
    exact reachableWF_of_runEvents (h.tail ⟨e, order, loadOrder, hall.1.1, hall.1.2, hmid⟩)
      hall.2 hrest

/-- The command leader of a decided instance holds its decided command. -/
theorem leaderCommand_of_decided {net : Network} {d : InstanceID} {c : InstanceData}
    (h : net.Decided d c) : net.leaderCommand d = c.command := by
  obtain ⟨is, hl, -, rfl⟩ := h
  rw [leaderCommand, hl]
  rfl

/-- A set of sources that reach `y` from the dependencies of `x` makes `x`
reach `y`. -/
theorem Covers.reach {net : Network} {S : List InstanceID} {x y : InstanceID}
    (h : net.Covers S y) (hS : ∀ z ∈ S, z ∈ net.leaderDeps x) : Reach net.leaderDeps x y := by
  obtain ⟨z, hz, hzy⟩ := h
  exact Reach.head (hS z hz) hzy

end Network

/-- Two duplicate-free lists drawn from one list and together longer than it
share an element. -/
theorem exists_mem_mem_of_length_lt {α : Type*} [DecidableEq α] {s a b : List α}
    (ha : a.Nodup) (hb : b.Nodup) (has : ∀ x ∈ a, x ∈ s) (hbs : ∀ x ∈ b, x ∈ s)
    (hlen : s.length < a.length + b.length) : ∃ x, x ∈ a ∧ x ∈ b := by
  have hcard : s.toFinset.card < a.toFinset.card + b.toFinset.card := by
    rw [List.toFinset_card_of_nodup ha, List.toFinset_card_of_nodup hb]
    exact lt_of_le_of_lt s.toFinset_card_le hlen
  obtain ⟨x, hx⟩ := Finset.inter_nonempty_of_card_lt_card_add_card
    (fun x hx => List.mem_toFinset.mpr (has x (List.mem_toFinset.mp hx)))
    (fun x hx => List.mem_toFinset.mpr (hbs x (List.mem_toFinset.mp hx))) hcard
  rw [Finset.mem_inter, List.mem_toFinset, List.mem_toFinset] at hx
  exact ⟨x, hx⟩

/-- The quorum that decides `x`: its command leader and the replicas whose
answers it counted. -/
def Ghost.quorum (g : Ghost) (x : InstanceID) : List ℕ := x.replicaID :: g.counted x

namespace DepInv

variable {nodes : List ℕ} {net : Network} {g : Ghost} {order : MapOrder InstanceID}

/-! ### Each handler is a kind of `DepInv` -/

/-- A call that changes no view and sends messages about instances the replica
holds, outside the `PreAccept` phase. -/
theorem of_runs (h : DepInv nodes net g) {r : ℕ} {q : Replica} {out : List Message}
    (hrun : Runs (net.replicas r) q out)
    (hout : ∀ m ∈ out, ((net.replicas r).view m.instanceID).isSome ∧
      m.msgType.preAcceptPhase = false) :
    ∃ g', DepInv nodes (net.update r q) g' := by
  obtain ⟨hid, hnodes, hmsgs⟩ := h.replica r
  refine ⟨_, h.quiet (d := ⟨0, 0⟩) (hrun.id.trans hid) (hrun.nodes.trans hnodes)
    (fun x _ => by rw [hrun.view]) (.inl (by rw [hrun.view])) fun m hm => ?_⟩
  rw [hrun.msgs, hmsgs, List.nil_append] at hm
  obtain ⟨hs, hpa⟩ := hout m hm
  obtain ⟨v, hv⟩ := Option.isSome_iff_exists.mp hs
  obtain ⟨c, hc⟩ := h.leaderCommand_of_view hv
  exact ⟨by rw [hc]; rfl, hpa⟩

/-- A follower's handler that writes back the instance `withInstance` handed
it, with that instance's command or the leader's, and sends messages about `d`
outside the `PreAccept` phase. -/
theorem follower (h : DepInv nodes net g) {r : ℕ} {d : InstanceID} {inst inst' : Instance}
    {q : Replica} {out : List Message} (hrd : d.replicaID ≠ r)
    (hcmd : (net.leaderCommand d).isSome)
    (hinst : ((net.replicas r).withInstance d).getInstance d = some inst)
    (hrun : Runs (((net.replicas r).withInstance d).setInstance inst') q out)
    (hid' : inst'.is.instanceID = d)
    (hc : inst'.is.command = inst.is.command ∨ inst'.is.command = net.leaderCommand d)
    (hout : ∀ m ∈ out, m.instanceID = d ∧ m.msgType.preAcceptPhase = false) :
    ∃ g', DepInv nodes (net.update r q) g' := by
  obtain ⟨hid, hnodes, hmsgs⟩ := h.replica r
  obtain ⟨hwid, hwnodes, hwmsgs⟩ := withInstance_frame (net.replicas r) d
  -- the instance handed over is the one held, or a new one with no command
  have hheld : (inst.is.command = none ∨ inst.is.command = net.leaderCommand d) ∧
      ∀ v, (net.replicas r).view d = some v → v.command = inst.is.command := by
    obtain ⟨inst₀, h₀, hcases⟩ := getInstance_withInstance (net.replicas r) d
    rw [hinst, Option.some.injEq] at h₀
    subst h₀
    rcases hcases with hget | ⟨hnone, rfl⟩
    · have hv : (net.replicas r).view d = some inst.view := by rw [view, hget]; rfl
      obtain ⟨-, -, c, hc, -, hcmd⟩ := h.held r d _ hv
      refine ⟨hc ▸ hcmd, fun v hv' => ?_⟩
      rw [hv, Option.some.injEq] at hv'
      rw [← hv']
      rfl
    · refine ⟨.inl rfl, fun v hv => ?_⟩
      rw [view, hnone] at hv
      cases hv
  have hv' : q.view d = some inst'.view := by rw [hrun.view, view_setInstance, if_pos hid']
  refine ⟨_, h.quiet (hrun.id.trans (hwid.trans hid)) (hrun.nodes.trans (hwnodes.trans hnodes))
    (fun x hx => ?_) (.inr ⟨hrd, hcmd, inst'.view, hv', ?_, fun v hv hs => ?_⟩) fun m hm => ?_⟩
  · rw [hrun.view, view_setInstance, if_neg fun h' => hx (h'.symm.trans hid'),
      view_withInstance_of_ne _ hx]
  · show inst'.is.command = none ∨ inst'.is.command = net.leaderCommand d
    rcases hc with hc | hc
    · rw [hc]
      exact hheld.1
    · exact .inr hc
  · show inst'.is.command.isSome
    rcases hc with hc | hc
    · rw [hc, ← hheld.2 v hv]
      exact hs
    · rw [hc]
      exact hcmd
  · rw [hrun.msgs, msgs_setInstance, hwmsgs, hmsgs, List.nil_append] at hm
    obtain ⟨hmd, hpa⟩ := hout m hm
    exact ⟨hmd ▸ hcmd, hpa⟩

/-- `onRequest` proposes the next instance of the replica's space. -/
theorem of_onRequest (h : DepInv nodes net g) (hnodup : nodes.Nodup) {r : ℕ} {cmd : Command}
    {q : Replica} (hrn : r ∈ nodes) (hwf : cmd.span.WellFormed)
    (hq : (net.replicas r).onRequest order cmd = some q) :
    ∃ g', DepInv nodes (net.update r q) g' := by
  obtain ⟨hid, hnodes, hmsgs⟩ := h.replica r
  obtain ⟨s, D, hsd, hrun⟩ := onRequest_runs hq
  have hview : ∀ x, x ≠ ⟨(net.replicas r).id, (net.replicas r).maxInstanceNum (net.replicas r).id + 1⟩ →
      q.view x = (net.replicas r).view x := fun x hx => by
    rw [hrun.view, view_setInstance]
    exact if_neg (Ne.symm hx)
  refine ⟨_, h.request hnodup (s := s + 1) (hrun.id.trans hid) (hrun.nodes.trans hnodes) hrn hid
    (Nat.le_add_left 1 _) hwf (fun x v hv hx => ?_) hview
    (by rw [hrun.view, view_setInstance]; exact if_pos rfl) (nodup_depSliceFromMap D)
    (fun z vz cz hz hcz _ hzn hwfz hi => ?_) ?_⟩
  · -- every instance the replica holds of its space is numbered at most the maximum
    obtain ⟨inst, hinst, -⟩ := Option.map_eq_some_iff.mp hv
    have hle := num_le_maxInstanceNum hinst
    rw [hx] at hle
    rw [hid]
    exact Nat.lt_succ_of_le hle
  · -- the scan ignored `(0, 0)`, which no replica holds
    have hign : z ≠ ⟨0, 0⟩ := fun hz0 => by
      have := (h.held r z vz hz).2.1
      rw [hz0] at this
      exact absurd this (by decide)
    rcases seqAndDepsForCommand_cover_view hsd hz hcz (hnodes ▸ hzn) hign hwfz hi with
      hdep | ⟨w, vw, cw, hw, hcw, hwr, hlt, hwr', hwi, hdep, -⟩
    · exact .inl (mem_depSliceFromMap.mpr hdep)
    · exact .inr ⟨w, vw, cw, hw, hcw, hwr, hlt, hwr', hwi, mem_depSliceFromMap.mpr hdep⟩
  · rw [hrun.msgs, msgs_setInstance, hmsgs, List.nil_append, broadcastMsgs, hnodes, hid]

/-- `onPreAccept` at a follower: it ignores the message, or it answers. -/
theorem of_onPreAccept (h : DepInv nodes net g) {r : ℕ} {d : InstanceID} {pa : InstanceData}
    {q : Replica} (hq : ((net.replicas r).withInstance d).onPreAccept d pa = some q)
    (hrd : d.replicaID ≠ r) (hcmd : (net.leaderCommand d).isSome)
    (hpa : pa.command = net.leaderCommand d ∧ pa.deps.Nodup ∧
      ∀ z ∈ pa.deps, z ∈ net.leaderDeps d)
    (hr : r ∉ g.answerers d) (hrn : r ∈ nodes) :
    ∃ g', DepInv nodes (net.update r q) g' := by
  obtain ⟨hid, hnodes, hmsgs⟩ := h.replica r
  obtain ⟨hwid, hwnodes, hwmsgs⟩ := withInstance_frame (net.replicas r) d
  obtain ⟨inst, hinst, -⟩ := getInstance_withInstance (net.replicas r) d
  rcases onPreAccept_runs hq hinst hpa.2.1 with hrun | ⟨cmd, s, D, hcmd', hsd, mt, hrun, hmt⟩
  · exact h.follower hrd hcmd hinst (hrun.setInstance_self hinst) (getInstance_id hinst) (.inl rfl)
      nofun
  -- the answer carries the union of the scan's and the leader's dependencies
  have hid' : inst.is.instanceID = d := getInstance_id hinst
  refine ⟨_, h.answer (c := cmd) (D := depSliceFromMap (D ++ pa.deps))
    (hrun.id.trans (hwid.trans hid)) (hrun.nodes.trans (hwnodes.trans hnodes)) hrd
    (hpa.1 ▸ hcmd') (fun x hx => ?_) ⟨_, by rw [hrun.view, view_setInstance, if_pos hid'], hcmd'⟩
    (fun z vz cz hz hcz hzd hzn hwf hi => ?_)
    (show q.msgs = [⟨d.replicaID, d, mt⟩] by
      rw [hrun.msgs, msgs_setInstance, hwmsgs, hmsgs, List.nil_append]) ?_ hr hrn⟩
  · rw [hrun.view, view_setInstance, if_neg fun h' => hx (h'.symm.trans hid'),
      view_withInstance_of_ne _ hx]
  · have hz' : ((net.replicas r).withInstance d).view z = some vz := by
      rw [view_withInstance_of_ne _ hzd]
      exact hz
    rcases seqAndDepsForCommand_cover_view hsd hz' hcz (hwnodes.trans hnodes ▸ hzn) hzd hwf hi with
      hdep | ⟨w, vw, cw, hw, hcw, hwr, hlt, hwr', hwi, hdep, hwd⟩
    · exact .inl (mem_depSliceFromMap.mpr (List.mem_append_left _ hdep))
    · rw [view_withInstance_of_ne _ hwd] at hw
      exact .inr ⟨w, vw, cw, hw, hcw, hwr, hlt, hwr', hwi,
        mem_depSliceFromMap.mpr (List.mem_append_left _ hdep)⟩
  · rcases hmt with ⟨rfl, hsub⟩ | rfl
    · exact .inl ⟨rfl, fun z hz => hpa.2.2 z (hsub z hz)⟩
    · exact .inr ⟨_, rfl⟩

/-- `onAccept` at a follower keeps the command it holds. -/
theorem of_onAccept (h : DepInv nodes net g) {r : ℕ} {d : InstanceID} {a : InstanceData}
    {q : Replica} (hq : ((net.replicas r).withInstance d).onAccept d a = some q)
    (hrd : d.replicaID ≠ r) (hcmd : (net.leaderCommand d).isSome) :
    ∃ g', DepInv nodes (net.update r q) g' := by
  obtain ⟨inst, hinst, -⟩ := getInstance_withInstance (net.replicas r) d
  have hid' : inst.is.instanceID = d := getInstance_id hinst
  rcases onAccept_runs hq hinst with hrun | hrun
  · exact h.follower hrd hcmd hinst (hrun.setInstance_self hinst) hid' (.inl rfl) nofun
  · exact h.follower hrd hcmd hinst hrun hid' (.inl rfl) (by simp [MessageType.preAcceptPhase])

/-- `onCommit` at a follower takes the command the leader decided. -/
theorem of_onCommit (h : DepInv nodes net g) {r : ℕ} {d : InstanceID} {c : InstanceData}
    {q : Replica} (hq : ((net.replicas r).withInstance d).onCommit order d c = some q)
    (hrd : d.replicaID ≠ r) (hcmd : (net.leaderCommand d).isSome)
    (hc : c.command = net.leaderCommand d) :
    ∃ g', DepInv nodes (net.update r q) g' := by
  obtain ⟨inst, hinst, -⟩ := getInstance_withInstance (net.replicas r) d
  have hid' : inst.is.instanceID = d := getInstance_id hinst
  rcases onCommit_runs hq hinst with hrun | hrun
  · exact h.follower hrd hcmd hinst (hrun.setInstance_self hinst) hid' (.inl rfl) nofun
  · exact h.follower hrd hcmd hinst hrun hid' (.inr hc) nofun

/-- The leader counts the answer of `t`: the instance it holds, `inst`, becomes
`inst₁`, with one more reply and the dependencies `D₁`, which hold the answer's,
and `onEitherPreAcceptReply` runs. -/
theorem of_onEitherPreAcceptReply (h : DepInv nodes net g) {r t : ℕ} {d : InstanceID}
    {inst inst₁ : Instance} {D₁ : List InstanceID} {q : Replica} (hrd : d.replicaID = r)
    (hinst : (net.replicas r).getInstance d = some inst)
    (hq : ((net.replicas r).setInstance inst₁).onEitherPreAcceptReply order d = some q)
    (hid₁ : inst₁.is.instanceID = d)
    (hv₁ : inst₁.view = { inst.view with deps := D₁, replies := inst.preAcceptReplies + 1 })
    (hD₁ : ∀ z ∈ inst.is.deps, z ∈ D₁)
    (hvote : ∃ D, ⟨t, d, D⟩ ∈ g.votes ∧ ∀ z ∈ D, z ∈ D₁)
    (ht : t ∉ g.answerers d) (htn : t ∈ nodes) (htd : t ≠ d.replicaID) :
    ∃ g', DepInv nodes (net.update r q) g' := by
  obtain ⟨hid, hnodes, hmsgs⟩ := h.replica r
  have hrep₁ : inst₁.preAcceptReplies = inst.preAcceptReplies + 1 :=
    congrArg InstanceView.replies hv₁
  obtain ⟨inst', out, hrun, hid', hc', hdeps', hrep', harm', hsend⟩ :=
    onEitherPreAcceptReply_runs hq hid₁ (by omega)
  -- the new view, read off `inst₁`
  have hcmd : inst'.view.command = inst.view.command :=
    hc'.trans (congrArg InstanceView.command hv₁)
  have hdeps : inst'.view.deps = D₁ := hdeps'.trans (congrArg InstanceView.deps hv₁)
  have harm₁ : inst₁.armed = inst.view.armed := congrArg InstanceView.armed hv₁
  have hv : (net.replicas r).view d = some inst.view := by rw [view, hinst]; rfl
  have hv' : q.view d = some inst'.view := by rw [hrun.view, view_setInstance, if_pos hid']
  refine ⟨_, h.count (hrun.id.trans hid) (hrun.nodes.trans hnodes) hrd (fun x hx => ?_) hv hv' hcmd (fun z hz => hdeps ▸ hD₁ z hz)
    (hrep'.trans hrep₁) (fun ha => ?_) (hdeps ▸ hvote) ht htn htd fun m hm => ?_⟩
  · rw [hrun.view, view_setInstance, if_neg fun h' => hx (h'.symm.trans hid')]
  · rcases harm' ha with ha₁ | hq
    · exact .inl (harm₁ ▸ ha₁)
    · rw [hnodes, ← hrep'] at hq
      exact .inr hq
  · rw [hrun.msgs, msgs_setInstance, hmsgs, List.nil_append] at hm
    obtain ⟨hmd, -, hpa⟩ := hsend m hm
    exact ⟨hmd, hpa⟩

/-- `onPreAcceptOK` at the leader: it ignores the answer, or counts it. -/
theorem of_onPreAcceptOK (h : DepInv nodes net g) {r t : ℕ} {d : InstanceID} {q : Replica}
    (hq : (net.replicas r).onPreAcceptOK order d = some q) (hrd : d.replicaID = r)
    (hvote : ∃ D, ⟨t, d, D⟩ ∈ g.votes ∧ ∀ z ∈ D, z ∈ net.leaderDeps d)
    (ht : t ∉ g.answerers d) (htn : t ∈ nodes) (htd : t ≠ d.replicaID) :
    ∃ g', DepInv nodes (net.update r q) g' := by
  rcases onPreAcceptOK_runs hq with hrun | ⟨inst, hinst, -, hq'⟩
  · exact h.of_runs hrun nofun
  have hLD : net.leaderDeps d = inst.is.deps :=
    leaderDeps_of_leaderView (by rw [leaderView, hrd, view, hinst]; rfl)
  exact h.of_onEitherPreAcceptReply hrd hinst hq' (getInstance_id hinst : inst.is.instanceID = d)
    rfl (fun _ => id)
    (hLD ▸ hvote) ht htn htd

/-- `onPreAcceptReply` at the leader: it ignores the answer, or merges and
counts it. -/
theorem of_onPreAcceptReply (h : DepInv nodes net g) {r t s : ℕ} {d : InstanceID}
    {ds : List InstanceID} {q : Replica}
    (hq : (net.replicas r).onPreAcceptReply order d s ds = some q) (hrd : d.replicaID = r)
    (hvote : ∃ D, ⟨t, d, D⟩ ∈ g.votes ∧ ∀ z ∈ D, z ∈ ds)
    (ht : t ∉ g.answerers d) (htn : t ∈ nodes) (htd : t ≠ d.replicaID) :
    ∃ g', DepInv nodes (net.update r q) g' := by
  rcases onPreAcceptReply_runs hq with hrun | ⟨inst, hinst, -, hq'⟩
  · exact h.of_runs hrun nofun
  obtain ⟨D, hD, hsub⟩ := hvote
  exact h.of_onEitherPreAcceptReply hrd hinst hq'
    ((Instance.mergeReply_id inst s ds).trans (getInstance_id hinst))
    (Instance.view_mergeReply inst s ds)
    (fun z hz => mem_depSliceFromMap.mpr (List.mem_append_left _ hz))
    ⟨D, hD, fun z hz => mem_depSliceFromMap.mpr (List.mem_append_right _ (hsub z hz))⟩ ht htn htd

/-- `onAcceptOK` at the leader changes no view. -/
theorem of_onAcceptOK (h : DepInv nodes net g) {r : ℕ} {d : InstanceID} {q : Replica}
    (hq : (net.replicas r).onAcceptOK order d = some q) :
    ∃ g', DepInv nodes (net.update r q) g' := by
  obtain ⟨out, hrun, hsend⟩ := onAcceptOK_runs hq
  exact h.of_runs hrun fun m hm =>
    let ⟨hmd, hs, hpa⟩ := hsend m hm
    ⟨hmd ▸ hs, hpa⟩

/-! ### A step and a run -/

/-- A delivered message: `Step` at its destination. -/
theorem deliver (h : DepInv nodes net g) (hagree : net.Agreement) {m : Message}
    (hm : m ∈ net.inFlight) {q : Replica} (hq : (net.replicas m.dest).step order m = some q) :
    ∃ g', DepInv nodes ({ net with inFlight := net.inFlight.erase m }.update m.dest q) g' := by
  obtain ⟨t, hmt, h', hans⟩ := h.take hm
  have hcmd := h.msgHeld m hm
  have hdest := (h.replica m.dest).1
  rcases step_cases hq with rfl | ⟨hrep, hne, -, hpa, hacc, hcom⟩ |
      ⟨hrep, hown, -, hok, hreply, hacok⟩
  · exact h'.of_runs (.refl _) nofun
  · -- a message to a follower: a `PreAccept`, an `Accept` or a `Commit`
    rw [hdest] at hne
    cases hty : m.msgType with
    | preAccept pa =>
      obtain ⟨hr, hrn, -⟩ := hans m.dest (by simp [answerer, hty])
      exact h'.of_onPreAccept (hpa pa hty) hne hcmd (h.preAccept m hm pa hty) hr hrn
    | accept a => exact h'.of_onAccept (hacc a hty) hne hcmd
    | commit c =>
      exact h'.of_onCommit (hcom c hty) hne hcmd
        (leaderCommand_of_decided (hagree.inFlight m hm c hty)).symm
    | preAcceptOk | preAcceptReply _ _ | acceptOk => rw [hty] at hrep; cases hrep
  · -- an answer to the command leader
    rw [hdest] at hown
    cases hty : m.msgType with
    | preAcceptOk =>
      obtain ⟨ht, htn, htd⟩ := hans t (by simp [answerer, hty])
      exact h'.of_onPreAcceptOK (hok hty) hown ((h.answerVote m t hmt).1 hty) ht htn htd
    | preAcceptReply s ds =>
      obtain ⟨ht, htn, htd⟩ := hans t (by simp [answerer, hty])
      exact h'.of_onPreAcceptReply (hreply s ds hty) hown ((h.answerVote m t hmt).2 s ds hty) ht
        htn htd
    | acceptOk => exact h'.of_onAcceptOK (hacok hty)
    | preAccept _ | accept _ | commit _ => rw [hty] at hrep; cases hrep

/-- Every allowed, well-formed event keeps the invariant, with some ghost. -/
theorem step (h : DepInv nodes net g) (hnodup : nodes.Nodup) (hagree : net.Agreement)
    {e : Event} {loadOrder : MapOrder InstanceState} {net' : Network}
    (he : Event.allowed nodes false e) (hwf : e.WellFormed)
    (hs : Network.step order loadOrder e net = some net') : ∃ g', DepInv nodes net' g' := by
  cases e with
  | request r cmd =>
    obtain ⟨q, hq, rfl⟩ := Option.map_eq_some_iff.mp hs
    exact h.of_onRequest hnodup (of_decide_eq_true he) hwf hq
  | deliver m =>
    simp only [Network.step] at hs
    split_ifs at hs with hm
    obtain ⟨q, hq, rfl⟩ := Option.map_eq_some_iff.mp hs
    exact h.deliver hagree hm hq
  | drop m =>
    simp only [Network.step] at hs
    split_ifs at hs with hm
    rw [Option.some.injEq] at hs
    subst hs
    obtain ⟨t, -, h', -⟩ := h.take hm
    exact ⟨_, h'⟩
  | tick r =>
    obtain ⟨q, hq, rfl⟩ := Option.map_eq_some_iff.mp hs
    obtain ⟨out, hrun, hout⟩ := tick_runs hq
    exact h.of_runs hrun hout
  | restart r => cases he

end DepInv

/-- The dependency invariant holds along every crash-free run that proposes
well-formed commands. -/
theorem depInv_reachableWF {nodes : List ℕ} {aliasing : ℕ → Bool} {net : Network}
    (hnodup : nodes.Nodup) (h : ReachableWF nodes aliasing net) : ∃ g, DepInv nodes net g := by
  induction h with
  | refl => exact ⟨_, DepInv.init nodes aliasing⟩
  | tail hr hstep ih =>
    obtain ⟨e, order, loadOrder, he, hwf, hs⟩ := hstep
    obtain ⟨g, hg⟩ := ih
    exact hg.step hnodup (agreement_reachable (ReachableWF.reachable hr)) he hwf hs

/-! ### Quorums -/

namespace DepInv

variable {nodes : List ℕ} {net : Network} {g : Ghost}

theorem quorum_nodup (h : DepInv nodes net g) (x : InstanceID) : (g.quorum x).Nodup := by
  obtain ⟨hnd, hmem⟩ := h.answers x
  refine List.nodup_cons.mpr ⟨fun hx => ?_, hnd.of_append_right⟩
  exact (hmem x.replicaID (List.mem_append_right _ hx)).2 rfl

theorem mem_nodes_of_mem_quorum (h : DepInv nodes net g) {x : InstanceID} {c : Command}
    (hc : net.leaderCommand x = some c) : ∀ n ∈ g.quorum x, n ∈ nodes := by
  intro n hn
  rcases List.mem_cons.mp hn with rfl | hn
  · exact (h.of_leaderCommand hc).1
  · exact ((h.answers x).2 n (List.mem_append_right _ hn)).1

/-- Every member of the quorum of `x` voted on `x` with dependencies its leader
holds. -/
theorem vote_of_mem_quorum (h : DepInv nodes net g) {x : InstanceID} {c : Command}
    (hc : net.leaderCommand x = some c) {n : ℕ} (hn : n ∈ g.quorum x) :
    ∃ D, ⟨n, x, D⟩ ∈ g.votes ∧ ∀ z ∈ D, z ∈ net.leaderDeps x := by
  rcases List.mem_cons.mp hn with rfl | hn
  · exact h.leaderVote x (by rw [hc]; rfl)
  · exact h.countedVote x n hn

/-- The command leader of an instance decided somewhere holds it armed, so it
counted a majority with itself. -/
theorem quorum_length (h : DepInv nodes net g) (hagree : net.Agreement) {x : InstanceID}
    (hx : net.DecidedSomewhere x) : nodes.length < 2 * (g.quorum x).length := by
  obtain ⟨r, is, hl, hdec⟩ := hx
  obtain ⟨is', hl', hdec', -⟩ := (hagree.replicas r).live x is hl hdec
  obtain ⟨inst, hinst, rfl⟩ := Option.map_eq_some_iff.mp hl'
  have hLV : net.leaderView x = some inst.view := by rw [leaderView, view, hinst]; rfl
  -- a decided status is past `PreAccepted`
  have harmed : inst.armed = true := Instance.armed_of_status (by
    revert hdec'
    cases inst.is.status <;> simp [Status.decided])
  have hq := h.quorum x _ hLV harmed
  rw [h.counted x _ hLV] at hq
  simpa [Ghost.quorum] using hq

end DepInv

/-- Two distinct instances whose commands interfere and that are each decided
at some replica are ordered by a path of the dependencies their command leaders
hold, at every state of a crash-free run of distinct nodes that proposes
commands with well-formed spans. -/
theorem Network.deps_ordered {nodes : List ℕ} {aliasing : ℕ → Bool} {net : Network}
    (hnodes : nodes.Nodup) (h : ReachableWF nodes aliasing net) : net.DepsOrdered := by
  obtain ⟨g, hg⟩ := depInv_reachableWF hnodes h
  have hagree := agreement_reachable h.reachable
  intro x y hxy ⟨cx, cy, hcx, hcy, hi⟩ hdx hdy
  -- the two quorums are majorities of the nodes, so they share a replica
  obtain ⟨n, hnx, hny⟩ := exists_mem_mem_of_length_lt (hg.quorum_nodup x) (hg.quorum_nodup y)
    (hg.mem_nodes_of_mem_quorum hcx) (hg.mem_nodes_of_mem_quorum hcy)
    (by have := hg.quorum_length hagree hdx; have := hg.quorum_length hagree hdy; omega)
  obtain ⟨Dx, hvx, hDx⟩ := hg.vote_of_mem_quorum hcx hnx
  obtain ⟨Dy, hvy, hDy⟩ := hg.vote_of_mem_quorum hcy hny
  -- its later vote covers the other instance
  rcases hg.voteCover _ hvx _ hvy rfl hxy cx cy hcx hcy hi with hc | hc
  · exact .inl (hc.reach hDx)
  · exact .inr (hc.reach hDy)

/-- The run of `committed_component_tie` proposes point writes, so its state
orders its decided instances. -/
theorem Network.deps_ordered_tieNet : tieNet.DepsOrdered :=
  deps_ordered (by decide) (reachableWF_of_runEvents .refl (by decide) (Option.some_get _).symm)

end EPaxos
