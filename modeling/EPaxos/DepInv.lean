import EPaxos.Effects
import EPaxos.Agreement

/-!
# The dependency invariant

Two interfering instances that are both decided were each voted on by a
quorum: its command leader, which proposed it with the dependencies of its own
scan (`onRequest`), and the replicas whose `PreAccept` answers the leader
counted. Two quorums share a replica. That replica scanned for the later of its
two votes while holding the earlier instance, so the later vote covers the
earlier instance: the scan made it a dependency, or it made a later interfering
write of the same replica space a dependency. The command leader of that space
proposed the write after the instance and so holds a path from the write to it.
A command leader only adds to the dependencies of an instance, and it puts
every dependency an answer it counted carried into them.

The invariant `DepInv` records this over a `Ghost` history of the run:

* the replica that sent each message in flight, since a message does not name
  its sender;
* the votes, each a replica, an instance and the dependencies it computed;
* the answers each leader counted.

Each field is an invariant of the protocol the source relies on. A leader counts
an answer only from a replica that has not answered before (`answers`), and it
counts at most one answer from each replica. It is armed only with a quorum
(`quorum`). The votes cover one another (`voteCover`), and later writes of a
space reach earlier instances (`sameSpace`).

What a call does is one of four kinds, each proved to keep the invariant:

* `quiet`: no view of a leader changes, and nothing of the `PreAccept` phase is
  sent;
* `answer`: a replica answers a `PreAccept`;
* `count`: a leader counts an answer;
* `request`: a leader proposes a new instance.

A delivered or dropped message is first taken out of flight (`take`).
-/
namespace EPaxos

open Digraph

/-- A replica's dependencies for an instance: a leader's proposal, or another
replica's answer to its `PreAccept`. -/
structure Vote where
  voter : ℕ
  inst : InstanceID
  deps : List InstanceID

/-- What the invariant keeps beside a run: the sender of each message in
flight, the votes cast, and the answers each leader counted for an instance. -/
structure Ghost where
  sent : List (Message × ℕ)
  votes : List Vote
  counted : InstanceID → List ℕ

/-- The replica that the entry `e` of the flight shows answering the
`PreAccept` phase of `x`: the destination of a `PreAccept`, the sender of an
answer. -/
def answerer (x : InstanceID) (e : Message × ℕ) : Option ℕ :=
  if e.1.instanceID = x then
    match e.1.msgType with
    | .preAccept _ => some e.1.dest
    | .preAcceptOk | .preAcceptReply _ _ => some e.2
    | _ => none
  else none

/-- The replicas that will answer, are answering or have been counted for `x`. -/
def Ghost.answerers (g : Ghost) (x : InstanceID) : List ℕ :=
  g.sent.filterMap (answerer x) ++ g.counted x

theorem answerer_eq_none {x : InstanceID} {e : Message × ℕ}
    (h : e.1.msgType.preAcceptPhase = false) : answerer x e = none := by
  unfold answerer
  split_ifs
  · split <;> simp_all [MessageType.preAcceptPhase]
  · rfl

theorem answerer_of_ne {x : InstanceID} {e : Message × ℕ} (h : e.1.instanceID ≠ x) :
    answerer x e = none := by
  rw [answerer, if_neg h]

namespace Network

/-- The view of `x` at its command leader. -/
def leaderView (net : Network) (x : InstanceID) : Option InstanceView :=
  (net.replicas x.replicaID).view x

theorem leaderCommand_eq (net : Network) (x : InstanceID) :
    net.leaderCommand x = (net.leaderView x).bind (·.command) := by
  unfold leaderCommand leaderView Replica.view Replica.liveState
  cases (net.replicas x.replicaID).getInstance x <;> rfl

theorem leaderDeps_eq (net : Network) (x : InstanceID) :
    net.leaderDeps x = ((net.leaderView x).map (·.deps)).getD [] := by
  unfold leaderDeps leaderView Replica.view Replica.liveState depsIn
  dsimp only
  cases (net.replicas x.replicaID).getInstance x <;> rfl

/-- Some instance of `S` reaches `x` in the leaders' dependency graph. -/
def Covers (net : Network) (S : List InstanceID) (x : InstanceID) : Prop :=
  ∃ y ∈ S, Reach net.leaderDeps y x

/-- From `net` to `net'`, the command leaders keep their commands and only add
dependencies. -/
structure LeaderMono (net net' : Network) : Prop where
  command : ∀ x c, net.leaderCommand x = some c → net'.leaderCommand x = some c
  deps : ∀ x, ∀ z ∈ net.leaderDeps x, z ∈ net'.leaderDeps x

theorem LeaderMono.reach {net net' : Network} (h : LeaderMono net net') {a b : InstanceID}
    (hab : Reach net.leaderDeps a b) : Reach net'.leaderDeps a b :=
  Relation.ReflTransGen.mono (fun x y hxy => h.deps x y hxy) a b hab

theorem LeaderMono.covers {net net' : Network} (h : LeaderMono net net') {S : List InstanceID}
    {x : InstanceID} (hc : net.Covers S x) : net'.Covers S x := by
  obtain ⟨y, hy, hyx⟩ := hc
  exact ⟨y, hy, h.reach hyx⟩

theorem LeaderMono.of_leaderView {net net' : Network} (h : net'.leaderView = net.leaderView) :
    LeaderMono net net' :=
  ⟨fun x c hc => by rw [leaderCommand_eq, h, ← leaderCommand_eq]; exact hc,
    fun x z hz => by rw [leaderDeps_eq, h, ← leaderDeps_eq]; exact hz⟩

/-- A command leader holds its own command. -/
theorem leaderCommand_of_leaderView {net : Network} {x : InstanceID} {v : InstanceView}
    (hv : net.leaderView x = some v) : net.leaderCommand x = v.command := by
  rw [leaderCommand_eq, hv]
  rfl

theorem leaderDeps_of_leaderView {net : Network} {x : InstanceID} {v : InstanceView}
    (hv : net.leaderView x = some v) : net.leaderDeps x = v.deps := by
  rw [leaderDeps_eq, hv]
  rfl

theorem leaderCommand_congr {net net' : Network} (h : net'.leaderView = net.leaderView) :
    net'.leaderCommand = net.leaderCommand := by
  funext x
  rw [leaderCommand_eq, leaderCommand_eq, h]

theorem leaderDeps_congr {net net' : Network} (h : net'.leaderView = net.leaderView) :
    net'.leaderDeps = net.leaderDeps := by
  funext x
  rw [leaderDeps_eq, leaderDeps_eq, h]

theorem exists_leaderView {net : Network} {x : InstanceID} {c : Command}
    (hc : net.leaderCommand x = some c) : ∃ lv, net.leaderView x = some lv ∧ lv.command = some c := by
  rw [leaderCommand_eq] at hc
  cases hl : net.leaderView x with
  | none => rw [hl] at hc; cases hc
  | some lv => exact ⟨lv, rfl, by rw [hl] at hc; exact hc⟩

/-! ### One call at a replica -/

section Update

variable (net : Network) (r : ℕ) (q : Replica) {nodes : List ℕ}

theorem view_update (r' : ℕ) (x : InstanceID) :
    ((net.update r q).replicas r').view x =
      if r' = r then q.view x else (net.replicas r').view x := by
  by_cases h : r' = r
  · subst h
    simp only [update, Function.update_self, if_true]
    rfl
  · simp only [update, Function.update_of_ne h, if_neg h]

@[simp] theorem inFlight_update : (net.update r q).inFlight = net.inFlight ++ q.msgs := rfl

theorem leaderView_update (x : InstanceID) :
    (net.update r q).leaderView x =
      if x.replicaID = r then q.view x else net.leaderView x :=
  view_update net r q _ x

theorem replica_update (h : ∀ r, (net.replicas r).id = r ∧ (net.replicas r).nodes = nodes ∧
      (net.replicas r).msgs = []) (hid : q.id = r) (hnodes : q.nodes = nodes) (r' : ℕ) :
    ((net.update r q).replicas r').id = r' ∧ ((net.update r q).replicas r').nodes = nodes ∧
      ((net.update r q).replicas r').msgs = [] := by
  by_cases hr : r' = r
  · subst hr
    simp [update, hid, hnodes]
  · simpa [update, Function.update_of_ne hr] using h r'

/-- A call whose replica keeps the views of its own space changes no leader's
view. -/
theorem leaderView_update_of_own {q : Replica}
    (h : ∀ x, x.replicaID = r → q.view x = (net.replicas r).view x) :
    (net.update r q).leaderView = net.leaderView := by
  funext x
  rw [leaderView_update]
  split_ifs with hx
  · rw [h x hx, leaderView, hx]
  · rfl

end Update

end Network

open Network

/-- The dependency invariant over a deployment of the nodes `nodes`. -/
structure DepInv (nodes : List ℕ) (net : Network) (g : Ghost) : Prop where
  replica : ∀ r, (net.replicas r).id = r ∧ (net.replicas r).nodes = nodes ∧
    (net.replicas r).msgs = []
  sent : (g.sent.map Prod.fst).Perm net.inFlight
  /-- Every instance a replica holds is of a node's space, numbered from one,
  and proposed by its leader with a well-formed command; the replica holds that
  command or none. -/
  held : ∀ r x v, (net.replicas r).view x = some v → x.replicaID ∈ nodes ∧ 1 ≤ x.instanceNum ∧
    ∃ c, net.leaderCommand x = some c ∧ c.span.WellFormed ∧ (v.command = none ∨ v.command = some c)
  msgHeld : ∀ m ∈ net.inFlight, (net.leaderCommand m.instanceID).isSome
  preAccept : ∀ m ∈ net.inFlight, ∀ pa, m.msgType = .preAccept pa →
    pa.command = net.leaderCommand m.instanceID ∧ pa.deps.Nodup ∧
      ∀ z ∈ pa.deps, z ∈ net.leaderDeps m.instanceID
  fresh : ∀ x, net.leaderCommand x = none → g.counted x = [] ∧ ∀ v ∈ g.votes, v.inst ≠ x
  /-- A later write of a space that interferes with an earlier instance of it
  reaches that instance. -/
  sameSpace : ∀ x w, x.replicaID = w.replicaID → x.instanceNum < w.instanceNum → ∀ cx cw,
    net.leaderCommand x = some cx → net.leaderCommand w = some cw → cw.interferes cx = true →
    Reach net.leaderDeps w x
  counted : ∀ x v, net.leaderView x = some v → v.replies = (g.counted x).length
  quorum : ∀ x v, net.leaderView x = some v → v.armed = true → nodes.length < 2 * (v.replies + 1)
  answers : ∀ x, (g.answerers x).Nodup ∧ ∀ n ∈ g.answerers x, n ∈ nodes ∧ n ≠ x.replicaID
  leaderVote : ∀ x, (net.leaderCommand x).isSome →
    ∃ D, ⟨x.replicaID, x, D⟩ ∈ g.votes ∧ ∀ z ∈ D, z ∈ net.leaderDeps x
  countedVote : ∀ x, ∀ n ∈ g.counted x, ∃ D, ⟨n, x, D⟩ ∈ g.votes ∧ ∀ z ∈ D, z ∈ net.leaderDeps x
  answerVote : ∀ m n, (m, n) ∈ g.sent →
    (m.msgType = .preAcceptOk →
      ∃ D, ⟨n, m.instanceID, D⟩ ∈ g.votes ∧ ∀ z ∈ D, z ∈ net.leaderDeps m.instanceID) ∧
    (∀ s ds, m.msgType = .preAcceptReply s ds → ∃ D, ⟨n, m.instanceID, D⟩ ∈ g.votes ∧ ∀ z ∈ D, z ∈ ds)
  voteHeld : ∀ v ∈ g.votes, ∃ iv c, (net.replicas v.voter).view v.inst = some iv ∧
    iv.command = some c
  /-- Of two votes of one replica on interfering instances, the later covers the
  earlier instance. -/
  voteCover : ∀ v ∈ g.votes, ∀ w ∈ g.votes, v.voter = w.voter → v.inst ≠ w.inst → ∀ cv cw,
    net.leaderCommand v.inst = some cv → net.leaderCommand w.inst = some cw →
    cv.interferes cw = true → net.Covers v.deps w.inst ∨ net.Covers w.deps v.inst

namespace DepInv

variable {nodes : List ℕ} {net : Network} {g : Ghost}

theorem init (nodes : List ℕ) (aliasing : ℕ → Bool) :
    DepInv nodes (init nodes aliasing) ⟨[], [], fun _ => []⟩ where
  replica _ := ⟨rfl, rfl, rfl⟩
  sent := .nil
  held _ _ _ h := by simp [Replica.view, Replica.getInstance, Replica.empty, BTree.get,
    BTree.empty, Network.init] at h
  msgHeld _ h := absurd h List.not_mem_nil
  preAccept _ h := absurd h List.not_mem_nil
  fresh _ _ := ⟨rfl, fun _ h => absurd h List.not_mem_nil⟩
  sameSpace _ _ _ _ _ _ h := by
    simp [leaderCommand, Replica.liveState, Replica.getInstance, Replica.empty, BTree.get,
      BTree.empty, Network.init] at h
  counted _ _ h := by
    simp [leaderView, Replica.view, Replica.getInstance, Replica.empty, BTree.get,
      BTree.empty, Network.init] at h
  quorum _ _ h := by
    simp [leaderView, Replica.view, Replica.getInstance, Replica.empty, BTree.get,
      BTree.empty, Network.init] at h
  answers _ := ⟨.nil, fun _ h => absurd h (by simp [Ghost.answerers])⟩
  leaderVote _ h := by
    simp [leaderCommand, Replica.liveState, Replica.getInstance, Replica.empty, BTree.get,
      BTree.empty, Network.init] at h
  countedVote _ _ h := absurd h List.not_mem_nil
  answerVote _ _ h := absurd h List.not_mem_nil
  voteHeld _ h := absurd h List.not_mem_nil
  voteCover _ h := absurd h List.not_mem_nil

/-- Where a replica holds an instance, its leader holds it with a command. -/
theorem leaderCommand_of_view (h : DepInv nodes net g) {r : ℕ} {x : InstanceID}
    {v : InstanceView} (hv : (net.replicas r).view x = some v) :
    ∃ c, net.leaderCommand x = some c :=
  let ⟨_, _, c, hc, _⟩ := h.held r x v hv
  ⟨c, hc⟩

/-- What a replica holds with a command is its leader's command. -/
theorem command_eq (h : DepInv nodes net g) {r : ℕ} {x : InstanceID} {v : InstanceView}
    (hv : (net.replicas r).view x = some v) {c : Command} (hc : v.command = some c) :
    net.leaderCommand x = some c ∧ c.span.WellFormed := by
  obtain ⟨-, -, c', hc', hwf, hcmd⟩ := h.held r x v hv
  rcases hcmd with hcmd | hcmd
  · rw [hc] at hcmd
    cases hcmd
  · rw [hc, Option.some.injEq] at hcmd
    subst hcmd
    exact ⟨hc', hwf⟩

/-- Taking the entry `e` out of the flight takes its answerer out of the
answerers. -/
theorem answerers_perm_erase {e : Message × ℕ} (he : e ∈ g.sent) (x : InstanceID) :
    (g.answerers x).Perm
      ((answerer x e).toList ++ ({ g with sent := g.sent.erase e } : Ghost).answerers x) := by
  unfold Ghost.answerers
  have hp := (List.perm_cons_erase he).filterMap (answerer x)
  rw [List.filterMap_cons] at hp
  cases ha : answerer x e with
  | none =>
    rw [ha] at hp
    exact hp.append_right _
  | some n =>
    rw [ha] at hp
    exact hp.append_right _

/-- A map of a list with one entry erased is the map with its image erased. -/
theorem map_erase_perm {α β : Type*} [BEq α] [LawfulBEq α] [BEq β] [LawfulBEq β] (f : α → β)
    {l : List α} {a : α} (ha : a ∈ l) : ((l.erase a).map f).Perm ((l.map f).erase (f a)) := by
  have h₁ := ((List.perm_cons_erase ha).map f).symm
  have h₂ := List.perm_cons_erase (List.mem_map_of_mem (f := f) ha)
  rw [List.map_cons] at h₁
  exact (h₁.trans h₂).cons_inv

/-- Taking a message out of flight, with the ghost entry of its sender: the
invariant holds without it, and the replica it shows answering has no other
entry. -/
theorem take (h : DepInv nodes net g) {m : Message} (hm : m ∈ net.inFlight) :
    ∃ t, (m, t) ∈ g.sent ∧
      DepInv nodes { net with inFlight := net.inFlight.erase m }
        { g with sent := g.sent.erase (m, t) } ∧
      ∀ n, answerer m.instanceID (m, t) = some n →
        n ∉ ({ g with sent := g.sent.erase (m, t) } : Ghost).answerers m.instanceID ∧
          n ∈ nodes ∧ n ≠ m.instanceID.replicaID := by
  obtain ⟨⟨m', t⟩, he, rfl⟩ := List.mem_map.mp (h.sent.mem_iff.mpr hm)
  refine ⟨t, he, { h with
    sent := (map_erase_perm Prod.fst he).trans (h.sent.erase _)
    msgHeld := fun m hm => h.msgHeld m (List.mem_of_mem_erase hm)
    preAccept := fun m hm => h.preAccept m (List.mem_of_mem_erase hm)
    answers := fun x => ?_
    answerVote := fun m n hm => h.answerVote m n (List.mem_of_mem_erase hm) }, fun n hn => ?_⟩
  · have hp := answerers_perm_erase he x
    obtain ⟨hnd, hmem⟩ := h.answers x
    exact ⟨(hp.nodup_iff.mp hnd).of_append_right, fun n hn =>
      hmem n (hp.mem_iff.mpr (List.mem_append_right _ hn))⟩
  · have hp := answerers_perm_erase he m'.instanceID
    rw [hn, Option.toList_some, List.singleton_append] at hp
    obtain ⟨hnd, hmem⟩ := h.answers m'.instanceID
    exact ⟨(List.nodup_cons.mp (hp.nodup_iff.mp hnd)).1, hmem n (hp.mem_iff.mpr List.mem_cons_self)⟩

/-- An instance whose leader holds a command is of a node's space, numbered
from one, and its command is well-formed. -/
theorem of_leaderCommand (h : DepInv nodes net g) {x : InstanceID} {c : Command}
    (hc : net.leaderCommand x = some c) :
    x.replicaID ∈ nodes ∧ 1 ≤ x.instanceNum ∧ c.span.WellFormed := by
  obtain ⟨lv, hlv, -⟩ := exists_leaderView hc
  obtain ⟨hn, hnum, c', hc', hwf, -⟩ := h.held _ x lv hlv
  rw [hc, Option.some.injEq] at hc'
  exact ⟨hn, hnum, hc' ▸ hwf⟩

theorem map_fst_tag (l : List Message) (r : ℕ) : (l.map (·, r)).map Prod.fst = l := by
  rw [List.map_map]
  exact List.map_id'' (fun _ => rfl) l

/-- Entries outside the `PreAccept` phase add no answerer. -/
theorem answerers_append_quiet {l : List (Message × ℕ)}
    (hl : ∀ e ∈ l, e.1.msgType.preAcceptPhase = false) (x : InstanceID) :
    ({ g with sent := g.sent ++ l } : Ghost).answerers x = g.answerers x := by
  unfold Ghost.answerers
  rw [List.filterMap_append, List.filterMap_eq_nil_iff.mpr fun e he => answerer_eq_none (hl e he),
    List.append_nil]

/-- A call that changes no leader's view and sends nothing of the `PreAccept`
phase keeps the invariant. The replica may change its view of one instance `d`
of another space: create it with no command, or give it its leader's command,
but never drop a command it holds. -/
theorem quiet (h : DepInv nodes net g) {r : ℕ} {q : Replica} {d : InstanceID}
    (hid : q.id = r) (hnodes : q.nodes = nodes)
    (hview : ∀ x, x ≠ d → q.view x = (net.replicas r).view x)
    (hd : q.view d = (net.replicas r).view d ∨ d.replicaID ≠ r ∧ (net.leaderCommand d).isSome ∧
      ∃ v', q.view d = some v' ∧ (v'.command = none ∨ v'.command = net.leaderCommand d) ∧
        ∀ v, (net.replicas r).view d = some v → v.command.isSome → v'.command.isSome)
    (hout : ∀ m ∈ q.msgs, (net.leaderCommand m.instanceID).isSome ∧
      m.msgType.preAcceptPhase = false) :
    DepInv nodes (net.update r q) { g with sent := g.sent ++ q.msgs.map (·, r) } := by
  -- the views of the replica's own space stay, so the leaders' views stay
  have hown : ∀ x, x.replicaID = r → q.view x = (net.replicas r).view x := by
    intro x hx
    by_cases hxd : x = d
    · subst hxd
      rcases hd with hd | ⟨hne, -⟩
      · exact hd
      · exact absurd hx hne
    · exact hview x hxd
  have hLV := leaderView_update_of_own net r hown
  have hLC := leaderCommand_congr hLV
  have hLD := leaderDeps_congr hLV
  have hq : ∀ x v, q.view x = some v → (net.replicas r).view x = some v ∨ x = d ∧
      d.replicaID ≠ r ∧ (net.leaderCommand d).isSome ∧ (v.command = none ∨ v.command = net.leaderCommand d) ∧
      ∀ v₀, (net.replicas r).view d = some v₀ → v₀.command.isSome → v.command.isSome := by
    intro x v hv
    by_cases hxd : x = d
    · subst hxd
      rcases hd with hd | ⟨hne, hsome, v', hv', hcmd, hkeep⟩
      · exact .inl (hd ▸ hv)
      · rw [hv', Option.some.injEq] at hv
        subst hv
        exact .inr ⟨rfl, hne, hsome, hcmd, hkeep⟩
    · exact .inl ((hview x hxd) ▸ hv)
  refine ⟨replica_update net r q h.replica hid hnodes, ?_, fun r' x v hv => ?_, fun m hm => ?_,
    fun m hm pa hpa => ?_, fun x hx => ?_, ?_, fun x v hv => ?_, fun x v hv => ?_, fun x => ?_,
    fun x hx => ?_, fun x n hn => ?_, fun m n hmn => ?_, fun v hv => ?_, ?_⟩
  · rw [List.map_append, map_fst_tag, inFlight_update]
    exact h.sent.append_right _
  · rw [hLC]
    rw [view_update] at hv
    split_ifs at hv with hr
    · rcases hq x v hv with hv | ⟨rfl, -, hsome, hcmd, -⟩
      · exact h.held r x v hv
      · -- the leader holds `d`, which is numbered and of a node's space
        obtain ⟨c, hc⟩ := Option.isSome_iff_exists.mp hsome
        obtain ⟨hn, hnum, hwf⟩ := h.of_leaderCommand hc
        exact ⟨hn, hnum, c, hc, hwf, hc ▸ hcmd⟩
    · exact h.held r' x v hv
  · rw [hLC]
    rcases List.mem_append.mp hm with hm | hm
    · exact h.msgHeld m hm
    · exact (hout m hm).1
  · rw [hLC, hLD]
    rcases List.mem_append.mp hm with hm | hm
    · exact h.preAccept m hm pa hpa
    · have := (hout m hm).2
      rw [hpa] at this
      cases this
  · rw [hLC] at hx
    exact h.fresh x hx
  · intro x w hxw hlt cx cw hx hw hi
    rw [hLC] at hx hw
    rw [hLD]
    exact h.sameSpace x w hxw hlt cx cw hx hw hi
  · rw [hLV] at hv
    exact h.counted x v hv
  · rw [hLV] at hv
    exact h.quorum x v hv
  · rw [answerers_append_quiet (fun e he => ?_)]
    · exact h.answers x
    · obtain ⟨m, hm, rfl⟩ := List.mem_map.mp he
      exact (hout m hm).2
  · rw [hLC] at hx
    rw [hLD]
    exact h.leaderVote x hx
  · rw [hLD]
    exact h.countedVote x n hn
  · rw [hLD]
    rcases List.mem_append.mp hmn with hmn | hmn
    · exact h.answerVote m n hmn
    · obtain ⟨m', hm', he⟩ := List.mem_map.mp hmn
      rw [Prod.mk.injEq] at he
      obtain ⟨rfl, rfl⟩ := he
      have hpa := (hout m' hm').2
      refine ⟨fun h' => ?_, fun s ds h' => ?_⟩ <;> rw [h'] at hpa <;> cases hpa
  · obtain ⟨iv, c, hiv, hc⟩ := h.voteHeld v hv
    rw [view_update]
    split_ifs with hr
    · subst hr
      by_cases hvd : v.inst = d
      · rw [hvd] at hiv ⊢
        rcases hd with hd | ⟨-, -, v', hv', -, hkeep⟩
        · exact ⟨iv, c, hd ▸ hiv, hc⟩
        · obtain ⟨c', hc'⟩ := Option.isSome_iff_exists.mp (hkeep iv hiv (by rw [hc]; rfl))
          exact ⟨v', c', hv', hc'⟩
      · exact ⟨iv, c, (hview _ hvd) ▸ hiv, hc⟩
    · exact ⟨iv, c, hiv, hc⟩
  · intro v hv w hw hvw hne cv cw hcv hcw hi
    rw [hLC] at hcv hcw
    unfold Covers
    rw [hLD]
    exact h.voteCover v hv w hw hvw hne cv cw hcv hcw hi

/-- One more entry in flight adds its answerer. -/
theorem answerers_append_one (e : Message × ℕ) (x : InstanceID) :
    (({ g with sent := g.sent ++ [e] } : Ghost).answerers x).Perm
      ((answerer x e).toList ++ g.answerers x) := by
  unfold Ghost.answerers
  rw [List.filterMap_append, List.filterMap_cons, List.filterMap_nil]
  cases answerer x e with
  | none => simp
  | some n =>
    simp only [Option.toList_some, List.singleton_append, List.append_assoc]
    exact List.perm_middle

/-- A vote `D` of a replica that scanned while holding `z` covers `z`. -/
theorem covers_of_scan (h : DepInv nodes net g) {r : ℕ} {d : InstanceID} {c : Command}
    {D : List InstanceID}
    (hcover : ∀ z vz cz, (net.replicas r).view z = some vz → vz.command = some cz → z ≠ d →
      z.replicaID ∈ nodes → cz.span.WellFormed → cz.interferes c = true →
      z ∈ D ∨ ∃ w vw cw, (net.replicas r).view w = some vw ∧ vw.command = some cw ∧
        w.replicaID = z.replicaID ∧ z.instanceNum < w.instanceNum ∧ cw.writing = true ∧
        cw.interferes cz = true ∧ w ∈ D)
    {z : InstanceID} {iv : InstanceView} {cz : Command} (hz : (net.replicas r).view z = some iv)
    (hcz : iv.command = some cz) (hzd : z ≠ d) (hi : cz.interferes c = true) : net.Covers D z := by
  obtain ⟨hcz', hwf⟩ := h.command_eq hz hcz
  obtain ⟨hn, -, -⟩ := h.of_leaderCommand hcz'
  rcases hcover z iv cz hz hcz hzd hn hwf hi with hzD | ⟨w, vw, cw, hw, hcw, hwz, hlt, -, hwi, hwD⟩
  · exact ⟨z, hzD, .refl _⟩
  · -- a later write of the space of `z`, which reaches it
    exact ⟨w, hwD, h.sameSpace z w hwz.symm hlt cz cw hcz' (h.command_eq hw hcw).1 hwi⟩

/-- A replica `r` answers the `PreAccept` of `d`, an instance of another space
whose leader holds the command `c`. It holds `d` with `c` and casts the vote
`D` its scan gave. The answer is a `PreAcceptOK`, whose dependencies the leader
holds, or a `PreAcceptReply` that carries them. -/
theorem answer (h : DepInv nodes net g) {r : ℕ} {q : Replica} {d : InstanceID} {c : Command}
    {D : List InstanceID} {mt : MessageType} (hid : q.id = r) (hnodes : q.nodes = nodes)
    (hrd : d.replicaID ≠ r) (hc : net.leaderCommand d = some c)
    (hview : ∀ x, x ≠ d → q.view x = (net.replicas r).view x)
    (hd : ∃ v', q.view d = some v' ∧ v'.command = some c)
    (hcover : ∀ z vz cz, (net.replicas r).view z = some vz → vz.command = some cz → z ≠ d →
      z.replicaID ∈ nodes → cz.span.WellFormed → cz.interferes c = true →
      z ∈ D ∨ ∃ w vw cw, (net.replicas r).view w = some vw ∧ vw.command = some cw ∧
        w.replicaID = z.replicaID ∧ z.instanceNum < w.instanceNum ∧ cw.writing = true ∧
        cw.interferes cz = true ∧ w ∈ D)
    (hmsgs : q.msgs = [⟨d.replicaID, d, mt⟩])
    (hmt : mt = .preAcceptOk ∧ (∀ z ∈ D, z ∈ net.leaderDeps d) ∨ ∃ s, mt = .preAcceptReply s D)
    (hr : r ∉ g.answerers d) (hrn : r ∈ nodes) :
    DepInv nodes (net.update r q)
      { g with sent := g.sent ++ [(⟨d.replicaID, d, mt⟩, r)], votes := g.votes ++ [⟨r, d, D⟩] } := by
  -- the replica is not the leader of `d`, and keeps the views of its own space
  have hown : ∀ x, x.replicaID = r → q.view x = (net.replicas r).view x := fun x hx =>
    hview x fun hxd => hrd (hxd ▸ hx)
  have hLV := leaderView_update_of_own net r hown
  have hLC := leaderCommand_congr hLV
  have hLD := leaderDeps_congr hLV
  have hpa : mt.preAcceptPhase = true := by
    rcases hmt with ⟨rfl, -⟩ | ⟨s, rfl⟩ <;> rfl
  have hnotpa : ∀ pa, mt ≠ .preAccept pa := by
    rintro pa rfl
    rcases hmt with ⟨h', -⟩ | ⟨s, h'⟩ <;> cases h'
  have hvotes : ∀ v ∈ g.votes ++ [⟨r, d, D⟩], v ∈ g.votes ∨ v = ⟨r, d, D⟩ := fun v hv => by
    simpa using hv
  refine ⟨replica_update net r q h.replica hid hnodes, ?_, fun r' x v hv => ?_, fun m hm => ?_,
    fun m hm pa hpa => ?_, fun x hx => ?_, ?_, fun x v hv => ?_, fun x v hv => ?_, fun x => ?_,
    fun x hx => ?_, fun x n hn => ?_, fun m n hmn => ?_, fun v hv => ?_, ?_⟩
  · rw [List.map_append, inFlight_update, hmsgs]
    exact h.sent.append_right _
  · rw [hLC]
    rw [view_update] at hv
    split_ifs at hv with hr'
    · by_cases hxd : x = d
      · subst hxd
        obtain ⟨v', hv', hcv⟩ := hd
        rw [hv', Option.some.injEq] at hv
        subst hv
        obtain ⟨hn, hnum, hwf⟩ := h.of_leaderCommand hc
        exact ⟨hn, hnum, c, hc, hwf, .inr hcv⟩
      · exact h.held r x v ((hview x hxd) ▸ hv)
    · exact h.held r' x v hv
  · rw [hLC]
    rw [inFlight_update, hmsgs, List.mem_append, List.mem_singleton] at hm
    rcases hm with hm | rfl
    · exact h.msgHeld m hm
    · rw [hc]
      rfl
  · rw [hLC, hLD]
    rw [inFlight_update, hmsgs, List.mem_append, List.mem_singleton] at hm
    rcases hm with hm | rfl
    · exact h.preAccept m hm pa hpa
    · exact absurd hpa (hnotpa pa)
  · rw [hLC] at hx
    refine ⟨(h.fresh x hx).1, fun v hv => ?_⟩
    rcases hvotes v hv with hv | rfl
    · exact (h.fresh x hx).2 v hv
    · rintro rfl
      rw [hc] at hx
      cases hx
  · intro x w hxw hlt cx cw hx hw hi
    rw [hLC] at hx hw
    rw [hLD]
    exact h.sameSpace x w hxw hlt cx cw hx hw hi
  · rw [hLV] at hv
    exact h.counted x v hv
  · rw [hLV] at hv
    exact h.quorum x v hv
  · have hp := answerers_append_one (g := g) (⟨d.replicaID, d, mt⟩, r) x
    -- the new answer names `r` for `d` only
    by_cases hxd : x = d
    · subst hxd
      have hans : answerer x (⟨x.replicaID, x, mt⟩, r) = some r := by
        rcases hmt with ⟨rfl, -⟩ | ⟨s, rfl⟩ <;> simp [answerer]
      rw [hans, Option.toList_some, List.singleton_append] at hp
      obtain ⟨hnd, hmem⟩ := h.answers x
      refine ⟨hp.nodup_iff.mpr (List.nodup_cons.mpr ⟨hr, hnd⟩), fun n hn => ?_⟩
      rcases List.mem_cons.mp (hp.mem_iff.mp hn) with rfl | hn
      · exact ⟨hrn, Ne.symm hrd⟩
      · exact hmem n hn
    · rw [answerer_of_ne (Ne.symm hxd), Option.toList_none, List.nil_append] at hp
      obtain ⟨hnd, hmem⟩ := h.answers x
      exact ⟨hp.nodup_iff.mpr hnd, fun n hn => hmem n (hp.mem_iff.mp hn)⟩
  · rw [hLC] at hx
    rw [hLD]
    obtain ⟨D', hD', hsub⟩ := h.leaderVote x hx
    exact ⟨D', List.mem_append_left _ hD', hsub⟩
  · rw [hLD]
    obtain ⟨D', hD', hsub⟩ := h.countedVote x n hn
    exact ⟨D', List.mem_append_left _ hD', hsub⟩
  · rw [hLD]
    rcases List.mem_append.mp hmn with hmn | hmn
    · obtain ⟨hok, hrep⟩ := h.answerVote m n hmn
      refine ⟨fun h' => ?_, fun s ds h' => ?_⟩
      · obtain ⟨D', hD', hsub⟩ := hok h'
        exact ⟨D', List.mem_append_left _ hD', hsub⟩
      · obtain ⟨D', hD', hsub⟩ := hrep s ds h'
        exact ⟨D', List.mem_append_left _ hD', hsub⟩
    · rw [List.mem_singleton, Prod.mk.injEq] at hmn
      obtain ⟨rfl, rfl⟩ := hmn
      have hmine : (⟨n, d, D⟩ : Vote) ∈ g.votes ++ [⟨n, d, D⟩] := List.mem_append_right _ (by simp)
      refine ⟨fun h' => ⟨D, hmine, ?_⟩, fun s ds h' => ⟨D, hmine, ?_⟩⟩
      · rcases hmt with ⟨-, hsub⟩ | ⟨s, rfl⟩
        · exact hsub
        · cases h'
      · rcases hmt with ⟨rfl, -⟩ | ⟨s', rfl⟩
        · cases h'
        · simp only [MessageType.preAcceptReply.injEq] at h'
          rw [← h'.2]
          exact fun z hz => hz
  · rw [view_update]
    rcases hvotes v hv with hv | rfl
    · obtain ⟨iv, c', hiv, hc'⟩ := h.voteHeld v hv
      split_ifs with hr'
      · subst hr'
        by_cases hvd : v.inst = d
        · obtain ⟨v', hv', hcv⟩ := hd
          exact ⟨v', c, hvd ▸ hv', hcv⟩
        · exact ⟨iv, c', (hview _ hvd) ▸ hiv, hc'⟩
      · exact ⟨iv, c', hiv, hc'⟩
    · obtain ⟨v', hv', hcv⟩ := hd
      exact ⟨v', c, by rw [if_pos rfl]; exact hv', hcv⟩
  · intro v hv w hw hvw hne cv cw hcv hcw hi
    rw [hLC] at hcv hcw
    unfold Covers
    rw [hLD]
    -- the new vote covers every other instance the replica voted on
    have hnew : ∀ u ∈ g.votes, u.voter = r → u.inst ≠ d → ∀ cu, net.leaderCommand u.inst = some cu →
        cu.interferes c = true → net.Covers D u.inst := by
      intro u hu hur hud cu hcu hi'
      obtain ⟨iv, c', hiv, hc'⟩ := h.voteHeld u hu
      rw [hur] at hiv
      have := (h.command_eq hiv hc').1
      rw [hcu, Option.some.injEq] at this
      subst this
      exact h.covers_of_scan hcover hiv hc' hud hi'
    rcases hvotes v hv with hv | rfl <;> rcases hvotes w hw with hw | rfl
    · exact h.voteCover v hv w hw hvw hne cv cw hcv hcw hi
    · rw [hc, Option.some.injEq] at hcw
      subst hcw
      exact .inr (hnew v hv hvw hne cv hcv hi)
    · rw [hc, Option.some.injEq] at hcv
      subst hcv
      rw [Command.interferes_comm] at hi
      exact .inl (hnew w hw hvw.symm (Ne.symm hne) cw hcw hi)
    · exact absurd rfl hne

/-- The command leader `r` of `d` counts an answer of `t`, whose vote its
dependencies now hold. The count goes up by one, the command stays, the
dependencies only grow, and the instance is armed afterwards only if it was or
the count makes a quorum. It sends only messages about `d` outside the
`PreAccept` phase. -/
theorem count (h : DepInv nodes net g) {r : ℕ} {q : Replica} {d : InstanceID} {t : ℕ}
    {v v' : InstanceView} (hid : q.id = r) (hnodes : q.nodes = nodes) (hrd : d.replicaID = r)
    (hview : ∀ x, x ≠ d → q.view x = (net.replicas r).view x)
    (hv : (net.replicas r).view d = some v) (hv' : q.view d = some v')
    (hcmd : v'.command = v.command) (hdeps : ∀ z ∈ v.deps, z ∈ v'.deps)
    (hreplies : v'.replies = v.replies + 1)
    (harmed : v'.armed = true → v.armed = true ∨ nodes.length < 2 * (v'.replies + 1))
    (hvote : ∃ D, ⟨t, d, D⟩ ∈ g.votes ∧ ∀ z ∈ D, z ∈ v'.deps)
    (ht : t ∉ g.answerers d) (htn : t ∈ nodes) (htd : t ≠ d.replicaID)
    (hout : ∀ m ∈ q.msgs, m.instanceID = d ∧ m.msgType.preAcceptPhase = false) :
    DepInv nodes (net.update r q) { g with
      sent := g.sent ++ q.msgs.map (·, r)
      counted := Function.update g.counted d (t :: g.counted d) } := by
  -- the leader's view changes at `d` only
  have hLV : ∀ x, (net.update r q).leaderView x = if x = d then some v' else net.leaderView x := by
    intro x
    rw [leaderView_update]
    by_cases hxd : x = d
    · subst hxd
      rw [if_pos hrd, if_pos rfl, hv']
    · rw [if_neg hxd]
      split_ifs with hx
      · rw [hview x hxd, leaderView, hx]
      · rfl
  have hLVd : net.leaderView d = some v := by rw [leaderView, hrd]; exact hv
  have hLC : (net.update r q).leaderCommand = net.leaderCommand := by
    funext x
    rw [leaderCommand_eq, leaderCommand_eq, hLV]
    split_ifs with hxd
    · subst hxd
      rw [hLVd]
      exact hcmd
    · rfl
  have hLD : ∀ x, (net.update r q).leaderDeps x = if x = d then v'.deps else net.leaderDeps x := by
    intro x
    rw [leaderDeps_eq, hLV, leaderDeps_eq]
    split_ifs <;> rfl
  have hmono : LeaderMono net (net.update r q) := ⟨fun x c hc => hLC ▸ hc, fun x z hz => by
    rw [hLD]
    split_ifs with hxd
    · subst hxd
      rw [leaderDeps_of_leaderView hLVd] at hz
      exact hdeps z hz
    · exact hz⟩
  have hheld : (net.leaderCommand d).isSome := by
    obtain ⟨c, hc⟩ := h.leaderCommand_of_view hv
    rw [hc]
    rfl
  have hcounted : ∀ x, x ≠ d → Function.update g.counted d (t :: g.counted d) x = g.counted x :=
    fun x hxd => Function.update_of_ne hxd _ _
  refine ⟨replica_update net r q h.replica hid hnodes, ?_, fun r' x w hw => ?_, fun m hm => ?_,
    fun m hm pa hpa => ?_, fun x hx => ?_, ?_, fun x w hw => ?_, fun x w hw hwa => ?_, fun x => ?_,
    fun x hx => ?_, fun x n hn => ?_, fun m n hmn => ?_, fun u hu => ?_, ?_⟩
  · rw [List.map_append, map_fst_tag, inFlight_update]
    exact h.sent.append_right _
  · rw [hLC]
    rw [view_update] at hw
    split_ifs at hw with hr'
    · by_cases hxd : x = d
      · subst hxd
        rw [hv', Option.some.injEq] at hw
        subst hw
        obtain ⟨hn, hnum, c, hc, hwf, hcmd'⟩ := h.held r x v hv
        exact ⟨hn, hnum, c, hc, hwf, hcmd ▸ hcmd'⟩
      · exact h.held r x w ((hview x hxd) ▸ hw)
    · exact h.held r' x w hw
  · rw [hLC]
    rcases List.mem_append.mp hm with hm | hm
    · exact h.msgHeld m hm
    · rw [(hout m hm).1]
      exact hheld
  · rw [hLC]
    rcases List.mem_append.mp hm with hm | hm
    · obtain ⟨hc, hnd, hsub⟩ := h.preAccept m hm pa hpa
      exact ⟨hc, hnd, fun z hz => hmono.deps _ z (hsub z hz)⟩
    · have := (hout m hm).2
      rw [hpa] at this
      cases this
  · rw [hLC] at hx
    have hxd : x ≠ d := by
      rintro rfl
      rw [hx] at hheld
      cases hheld
    dsimp only
    rw [hcounted x hxd]
    exact h.fresh x hx
  · intro x w hxw hlt cx cw hx hw hi
    rw [hLC] at hx hw
    exact hmono.reach (h.sameSpace x w hxw hlt cx cw hx hw hi)
  · rw [hLV] at hw
    dsimp only
    split_ifs at hw with hxd
    · subst hxd
      rw [Option.some.injEq] at hw
      subst hw
      rw [Function.update_self, List.length_cons, hreplies, h.counted x v hLVd]
    · rw [hcounted x hxd]
      exact h.counted x w hw
  · rw [hLV] at hw
    split_ifs at hw with hxd
    · subst hxd
      rw [Option.some.injEq] at hw
      subst hw
      rcases harmed hwa with ha | hq
      · have := h.quorum x v hLVd ha
        omega
      · exact hq
    · exact h.quorum x w hw hwa
  · -- the counted answerer leaves the flight of no other answerer list
    have hsame : ∀ y, ({ g with sent := g.sent ++ q.msgs.map (·, r) } : Ghost).answerers y =
        g.answerers y := answerers_append_quiet (fun e he => by
      obtain ⟨m, hm, rfl⟩ := List.mem_map.mp he
      exact (hout m hm).2)
    have hsame' := hsame x
    unfold Ghost.answerers at hsame' ⊢
    dsimp only at hsame' ⊢
    rw [List.append_cancel_right hsame']
    by_cases hxd : x = d
    · subst hxd
      rw [Function.update_self]
      obtain ⟨hnd, hmem⟩ := h.answers x
      have hp : (g.sent.filterMap (answerer x) ++ t :: g.counted x).Perm (t :: g.answerers x) :=
        List.perm_middle
      refine ⟨hp.nodup_iff.mpr (List.nodup_cons.mpr ⟨ht, hnd⟩), fun n hn => ?_⟩
      rcases List.mem_cons.mp (hp.mem_iff.mp hn) with rfl | hn
      · exact ⟨htn, htd⟩
      · exact hmem n hn
    · rw [hcounted x hxd]
      exact h.answers x
  · rw [hLC] at hx
    obtain ⟨D, hD, hsub⟩ := h.leaderVote x hx
    exact ⟨D, hD, fun z hz => hmono.deps x z (hsub z hz)⟩
  · dsimp only at hn
    by_cases hxd : x = d
    · subst hxd
      rw [Function.update_self] at hn
      rcases List.mem_cons.mp hn with rfl | hn
      · obtain ⟨D, hD, hsub⟩ := hvote
        exact ⟨D, hD, fun z hz => by rw [hLD, if_pos rfl]; exact hsub z hz⟩
      · obtain ⟨D, hD, hsub⟩ := h.countedVote x n hn
        exact ⟨D, hD, fun z hz => hmono.deps x z (hsub z hz)⟩
    · rw [hcounted x hxd] at hn
      obtain ⟨D, hD, hsub⟩ := h.countedVote x n hn
      exact ⟨D, hD, fun z hz => hmono.deps x z (hsub z hz)⟩
  · rcases List.mem_append.mp hmn with hmn | hmn
    · obtain ⟨hok, hrep⟩ := h.answerVote m n hmn
      refine ⟨fun h' => ?_, hrep⟩
      obtain ⟨D, hD, hsub⟩ := hok h'
      exact ⟨D, hD, fun z hz => hmono.deps _ z (hsub z hz)⟩
    · obtain ⟨m', hm', he⟩ := List.mem_map.mp hmn
      rw [Prod.mk.injEq] at he
      obtain ⟨rfl, rfl⟩ := he
      have hpa := (hout m' hm').2
      refine ⟨fun h' => ?_, fun s ds h' => ?_⟩ <;> rw [h'] at hpa <;> cases hpa
  · obtain ⟨iv, c, hiv, hc⟩ := h.voteHeld u hu
    rw [view_update]
    split_ifs with hr'
    · subst hr'
      by_cases hud : u.inst = d
      · rw [hud] at hiv ⊢
        rw [hv, Option.some.injEq] at hiv
        subst hiv
        exact ⟨v', c, hv', hcmd.trans hc⟩
      · exact ⟨iv, c, (hview _ hud) ▸ hiv, hc⟩
    · exact ⟨iv, c, hiv, hc⟩
  · intro u hu w hw huw hne cu cw hcu hcw hi
    rw [hLC] at hcu hcw
    rcases h.voteCover u hu w hw huw hne cu cw hcu hcw hi with hc | hc
    · exact .inl (hmono.covers hc)
    · exact .inr (hmono.covers hc)

/-- The `PreAccept`s of a broadcast name their destinations as answerers. -/
theorem filterMap_answerer_broadcast (ns : List ℕ) (d : InstanceID) (pa : InstanceData) (r : ℕ) :
    (((ns.map fun n => (⟨n, d, .preAccept pa⟩ : Message)).map (·, r)).filterMap (answerer d)) =
      ns := by
  induction ns with
  | nil => rfl
  | cons n ns ih =>
    rw [List.map_cons, List.map_cons, List.filterMap_cons, ih]
    simp [answerer]

/-- The replica `r` proposes a new instance `d` of its own space, numbered above
every instance of the space it holds, with the well-formed command `cmd` and
the dependencies `D` of its scan. It broadcasts the `PreAccept` of `d` to the
other nodes. -/
theorem request (h : DepInv nodes net g) (hnodup : nodes.Nodup) {r : ℕ} {q : Replica}
    {d : InstanceID} {cmd : Command} {s : ℕ} {D : List InstanceID} (hid : q.id = r)
    (hnodes : q.nodes = nodes) (hrn : r ∈ nodes) (hrd : d.replicaID = r) (hnum : 1 ≤ d.instanceNum)
    (hwf : cmd.span.WellFormed)
    (hnext : ∀ x v, (net.replicas r).view x = some v → x.replicaID = r →
      x.instanceNum < d.instanceNum)
    (hview : ∀ x, x ≠ d → q.view x = (net.replicas r).view x)
    (hv' : q.view d = some ⟨some cmd, D, 0, false⟩) (hD : D.Nodup)
    (hcover : ∀ z vz cz, (net.replicas r).view z = some vz → vz.command = some cz → z ≠ d →
      z.replicaID ∈ nodes → cz.span.WellFormed → cz.interferes cmd = true →
      z ∈ D ∨ ∃ w vw cw, (net.replicas r).view w = some vw ∧ vw.command = some cw ∧
        w.replicaID = z.replicaID ∧ z.instanceNum < w.instanceNum ∧ cw.writing = true ∧
        cw.interferes cz = true ∧ w ∈ D)
    (hmsgs : q.msgs = (nodes.filter (· ≠ r)).map fun n => ⟨n, d, .preAccept ⟨some cmd, s, D⟩⟩) :
    DepInv nodes (net.update r q)
      { g with sent := g.sent ++ q.msgs.map (·, r), votes := g.votes ++ [⟨r, d, D⟩] } := by
  -- `d` is new: no replica holds it and no message names it
  have hLVd : net.leaderView d = none := by
    rw [leaderView, hrd]
    cases hvd : (net.replicas r).view d with
    | none => rfl
    | some v => exact absurd (hnext d v hvd hrd) (lt_irrefl _)
  have hLCd : net.leaderCommand d = none := by rw [leaderCommand_eq, hLVd]; rfl
  have hLDd : net.leaderDeps d = [] := by rw [leaderDeps_eq, hLVd]; rfl
  have hne : ∀ x, (net.leaderCommand x).isSome → x ≠ d := by
    rintro x hx rfl
    rw [hLCd] at hx
    cases hx
  have hLV : ∀ x, (net.update r q).leaderView x =
      if x = d then some ⟨some cmd, D, 0, false⟩ else net.leaderView x := by
    intro x
    rw [leaderView_update]
    by_cases hxd : x = d
    · subst hxd
      rw [if_pos hrd, if_pos rfl, hv']
    · rw [if_neg hxd]
      split_ifs with hx
      · rw [hview x hxd, leaderView, hx]
      · rfl
  have hLC : ∀ x, (net.update r q).leaderCommand x = if x = d then some cmd else net.leaderCommand x := by
    intro x
    rw [leaderCommand_eq, hLV, leaderCommand_eq]
    split_ifs <;> rfl
  have hLD : ∀ x, (net.update r q).leaderDeps x = if x = d then D else net.leaderDeps x := by
    intro x
    rw [leaderDeps_eq, hLV, leaderDeps_eq]
    split_ifs <;> rfl
  have hmono : LeaderMono net (net.update r q) := ⟨fun x c hc => by
    rw [hLC, if_neg (hne x (by rw [hc]; rfl))]
    exact hc, fun x z hz => by
    rw [hLD]
    split_ifs with hxd
    · subst hxd
      rw [hLDd] at hz
      cases hz
    · exact hz⟩
  have hLCof : ∀ x c, (net.update r q).leaderCommand x = some c →
      x = d ∧ c = cmd ∨ x ≠ d ∧ net.leaderCommand x = some c := by
    intro x c hc
    rw [hLC] at hc
    split_ifs at hc with hxd
    · rw [Option.some.injEq] at hc
      exact .inl ⟨hxd, hc.symm⟩
    · exact .inr ⟨hxd, hc⟩
  have hvotes : ∀ v ∈ g.votes ++ [⟨r, d, D⟩], v ∈ g.votes ∨ v = ⟨r, d, D⟩ := fun v hv => by
    simpa using hv
  have hold : ∀ v ∈ g.votes, v.inst ≠ d := fun v hv => (h.fresh d hLCd).2 v hv
  -- the new vote covers every other instance the replica holds
  have hnew : ∀ z iv cz, (net.replicas r).view z = some iv → iv.command = some cz → z ≠ d →
      cz.interferes cmd = true → (net.update r q).Covers D z := fun z iv cz hz hcz hzd hi =>
    hmono.covers (h.covers_of_scan hcover hz hcz hzd hi)
  have hreach : ∀ z, (net.update r q).Covers D z → Reach (net.update r q).leaderDeps d z := by
    rintro z ⟨y, hy, hyz⟩
    exact .head (by rw [hLD, if_pos rfl]; exact hy) hyz
  refine ⟨replica_update net r q h.replica hid hnodes, ?_, fun r' x w hw => ?_, fun m hm => ?_,
    fun m hm pa hpa => ?_, fun x hx => ?_, ?_, fun x w hw => ?_, fun x w hw hwa => ?_, fun x => ?_,
    fun x hx => ?_, fun x n hn => ?_, fun m n hmn => ?_, fun u hu => ?_, ?_⟩
  · rw [List.map_append, map_fst_tag, inFlight_update]
    exact h.sent.append_right _
  · rw [view_update] at hw
    split_ifs at hw with hr'
    · subst hr'
      by_cases hxd : x = d
      · subst hxd
        rw [hv', Option.some.injEq] at hw
        subst hw
        exact ⟨hrd ▸ hrn, hnum, cmd, by rw [hLC, if_pos rfl], hwf, .inr rfl⟩
      · rw [hview x hxd] at hw
        obtain ⟨hn, hnum', c, hc, hwf', hcmd⟩ := h.held _ x w hw
        exact ⟨hn, hnum', c, hmono.command x c hc, hwf', hcmd⟩
    · obtain ⟨hn, hnum', c, hc, hwf', hcmd⟩ := h.held r' x w hw
      exact ⟨hn, hnum', c, hmono.command x c hc, hwf', hcmd⟩
  · rcases List.mem_append.mp hm with hm | hm
    · obtain ⟨c, hc⟩ := Option.isSome_iff_exists.mp (h.msgHeld m hm)
      rw [hmono.command _ c hc]
      rfl
    · rw [hmsgs, List.mem_map] at hm
      obtain ⟨n, -, rfl⟩ := hm
      rw [hLC, if_pos rfl]
      rfl
  · rcases List.mem_append.mp hm with hm | hm
    · obtain ⟨hc, hnd, hsub⟩ := h.preAccept m hm pa hpa
      obtain ⟨c, hc'⟩ := Option.isSome_iff_exists.mp (h.msgHeld m hm)
      exact ⟨by rw [hc, hc', hmono.command _ c hc'], hnd, fun z hz => hmono.deps _ z (hsub z hz)⟩
    · rw [hmsgs, List.mem_map] at hm
      obtain ⟨n, -, rfl⟩ := hm
      simp only [MessageType.preAccept.injEq] at hpa
      subst hpa
      exact ⟨by rw [hLC, if_pos rfl], hD, fun z hz => by rw [hLD, if_pos rfl]; exact hz⟩
  · by_cases hxd : x = d
    · rw [hLC, if_pos hxd] at hx
      cases hx
    rw [hLC, if_neg hxd] at hx
    refine ⟨(h.fresh x hx).1, fun v hv => ?_⟩
    rcases hvotes v hv with hv | rfl
    · exact (h.fresh x hx).2 v hv
    · exact Ne.symm hxd
  · intro x w hxw hlt cx cw hx hw hi
    rcases hLCof x cx hx with ⟨rfl, rfl⟩ | ⟨hxd, hx⟩ <;>
      rcases hLCof w cw hw with ⟨rfl, rfl⟩ | ⟨hwd, hw⟩
    · exact absurd hlt (lt_irrefl _)
    · -- a later instance of the space of `d` would be held by `r`
      obtain ⟨lw, hlw, -⟩ := exists_leaderView hw
      rw [leaderView, ← hxw, hrd] at hlw
      exact absurd (hnext w lw hlw (hxw ▸ hrd)) (not_lt.mpr hlt.le)
    · -- the new instance reaches every earlier interfering instance of its space
      obtain ⟨lx, hlx, hcx⟩ := exists_leaderView hx
      rw [leaderView, hxw, hrd] at hlx
      rw [Command.interferes_comm] at hi
      exact hreach x (hnew x lx cx hlx hcx hxd hi)
    · exact hmono.reach (h.sameSpace x w hxw hlt cx cw hx hw hi)
  · rw [hLV] at hw
    dsimp only
    split_ifs at hw with hxd
    · subst hxd
      rw [Option.some.injEq] at hw
      subst hw
      rw [(h.fresh x hLCd).1]
      rfl
    · exact h.counted x w hw
  · rw [hLV] at hw
    split_ifs at hw with hxd
    · rw [Option.some.injEq] at hw
      subst hw
      cases hwa
    · exact h.quorum x w hw hwa
  · -- only `d` gains answerers: the destinations of its `PreAccept`
    unfold Ghost.answerers
    dsimp only
    rw [List.filterMap_append]
    by_cases hxd : x = d
    · subst hxd
      have hnone : g.sent.filterMap (answerer x) = [] := List.filterMap_eq_nil_iff.mpr fun e he =>
        answerer_of_ne (hne _ (h.msgHeld _ (h.sent.mem_iff.mp (List.mem_map_of_mem he))))
      rw [hnone, hmsgs, filterMap_answerer_broadcast, (h.fresh x hLCd).1, List.nil_append,
        List.append_nil]
      refine ⟨hnodup.filter _, fun n hn => ?_⟩
      rw [List.mem_filter, decide_eq_true_eq] at hn
      exact ⟨hn.1, hrd ▸ hn.2⟩
    · have hnone : (q.msgs.map (·, r)).filterMap (answerer x) = [] :=
        List.filterMap_eq_nil_iff.mpr fun e he => answerer_of_ne (by
          rw [hmsgs, List.mem_map] at he
          obtain ⟨m, hm, rfl⟩ := he
          rw [List.mem_map] at hm
          obtain ⟨n, -, rfl⟩ := hm
          exact Ne.symm hxd)
      rw [hnone, List.append_nil]
      exact h.answers x
  · rcases hLCof x _ (Option.get_mem hx) with ⟨rfl, -⟩ | ⟨hxd, hx'⟩
    · exact ⟨D, List.mem_append_right _ (by rw [hrd]; exact List.mem_singleton_self _),
        fun z hz => by rw [hLD, if_pos rfl]; exact hz⟩
    · obtain ⟨D', hD', hsub⟩ := h.leaderVote x (by rw [hx']; rfl)
      exact ⟨D', List.mem_append_left _ hD', fun z hz => hmono.deps x z (hsub z hz)⟩
  · obtain ⟨D', hD', hsub⟩ := h.countedVote x n hn
    exact ⟨D', List.mem_append_left _ hD', fun z hz => hmono.deps x z (hsub z hz)⟩
  · rcases List.mem_append.mp hmn with hmn | hmn
    · obtain ⟨hok, hrep⟩ := h.answerVote m n hmn
      refine ⟨fun h' => ?_, fun s ds h' => ?_⟩
      · obtain ⟨D', hD', hsub⟩ := hok h'
        exact ⟨D', List.mem_append_left _ hD', fun z hz => hmono.deps _ z (hsub z hz)⟩
      · obtain ⟨D', hD', hsub⟩ := hrep s ds h'
        exact ⟨D', List.mem_append_left _ hD', hsub⟩
    · rw [hmsgs, List.map_map, List.mem_map] at hmn
      obtain ⟨n', -, he⟩ := hmn
      simp only [Function.comp, Prod.mk.injEq] at he
      obtain ⟨rfl, rfl⟩ := he
      exact ⟨nofun, nofun⟩
  · rw [view_update]
    rcases hvotes u hu with hu' | rfl
    · obtain ⟨iv, c, hiv, hc⟩ := h.voteHeld u hu'
      split_ifs with hr'
      · subst hr'
        exact ⟨iv, c, (hview _ (hold u hu')) ▸ hiv, hc⟩
      · exact ⟨iv, c, hiv, hc⟩
    · exact ⟨_, cmd, by rw [if_pos rfl]; exact hv', rfl⟩
  · intro u hu w hw huw hne' cu cw hcu hcw hi
    rcases hvotes u hu with hu | rfl <;> rcases hvotes w hw with hw | rfl
    · rw [hLC, if_neg (hold u hu)] at hcu
      rw [hLC, if_neg (hold w hw)] at hcw
      rcases h.voteCover u hu w hw huw hne' cu cw hcu hcw hi with hc | hc
      · exact .inl (hmono.covers hc)
      · exact .inr (hmono.covers hc)
    · rw [hLC, if_pos rfl, Option.some.injEq] at hcw
      subst hcw
      obtain ⟨iv, c, hiv, hc⟩ := h.voteHeld u hu
      rw [hLC, if_neg (hold u hu)] at hcu
      rw [huw] at hiv
      have := (h.command_eq hiv hc).1
      rw [hcu, Option.some.injEq] at this
      subst this
      exact .inr (hnew u.inst iv cu hiv hc (hold u hu) hi)
    · rw [hLC, if_pos rfl, Option.some.injEq] at hcu
      subst hcu
      obtain ⟨iv, c, hiv, hc⟩ := h.voteHeld w hw
      rw [hLC, if_neg (hold w hw)] at hcw
      rw [← huw] at hiv
      have := (h.command_eq hiv hc).1
      rw [hcw, Option.some.injEq] at this
      subst this
      rw [Command.interferes_comm] at hi
      exact .inl (hnew w.inst iv cw hiv hc (hold w hw) hi)
    · exact absurd rfl hne'

end DepInv

end EPaxos
