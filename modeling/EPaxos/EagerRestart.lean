import EPaxos.Eager
import EPaxos.Agreement

/-!
# Eager execution across restarts

A restarted replica loads the states its storage returns one at a time, and
replays the transition into each own instance that has not executed; the replay
of a commit runs the executor before the next state is loaded. That run finds
nothing to execute: every committed state of the storage already waits within
the storage, and an instance not loaded yet is not held at all, so it is not
decided. After the loop the vertices are again the committed instances, each
waiting (`restartReplica_eager`).

The storage is so because of what the stopped replica kept. It stores an
instance of another replica only once it has executed it (`StoresOwn`: only the
command leader persists an instance that has not executed, since its timers are
its own), so a committed state in storage is one of its own instances; it
stores each committed instance of its own as it holds it (`Durable`); and it
holds decided what it stored decided (`Agreement`). Over whole runs, restarts
included, every replica is `Eager` after every event (`eager_execution`).
-/
namespace EPaxos

open Digraph Tarjan

namespace Replica

/-- Storage holds an instance of another replica only once it has executed. -/
def StoresOwn (p : Replica) : Prop :=
  ∀ d, d.replicaID ≠ p.id → ∀ st, p.storage.lookup d = some st →
    ∃ is, st.resolve (p.liveState d) = some is ∧ is.status = .executed

namespace StoresOwn

variable {p q : Replica}

theorem executed_of_stored (h : StoresOwn p) {d : InstanceID} {is : InstanceState}
    (hd : d.replicaID ≠ p.id) (hs : p.storedState d = some is) : is.status = .executed := by
  obtain ⟨st, hst, hres⟩ := Option.bind_eq_some_iff.mp hs
  obtain ⟨is', hres', hex⟩ := h d hd st hst
  rw [hres, Option.some.injEq] at hres'
  rw [hres']
  exact hex

/-- A change that keeps the storage, the id and every executed instance. -/
theorem of_storage (h : StoresOwn p) (hs : q.storage = p.storage) (hid : q.id = p.id)
    (hx : ∀ e is, p.liveState e = some is → is.status = .executed → q.liveState e = some is) :
    StoresOwn q := by
  intro d hd st hst
  rw [hs] at hst
  obtain ⟨is, hres, hex⟩ := h d (by rw [← hid]; exact hd) st hst
  refine ⟨is, ?_, hex⟩
  cases st with
  | copy is' => exact hres
  | live => exact hx d is hres hex

/-- `persist` of an instance of the replica's own space, or of one it has
executed. -/
theorem persist (h : StoresOwn p) (d : InstanceID)
    (hd : d.replicaID = p.id ∨ p.hasExecuted d = true) : StoresOwn (p.persist d) := by
  cases hi : p.getInstance d with
  | none => rwa [persist_of_none p hi]
  | some inst =>
    have hinst : p.liveState d = some inst.is := by rw [liveState, hi]; rfl
    have hl : (p.persist d).liveState = p.liveState :=
      liveState_eq_of_getInstance (getInstance_persist p d)
    intro e he st hst
    rw [id_persist] at he
    rw [hl]
    simp only [storage_persist, hi, Storage.lookup_persistInstance, getInstance_id hi] at hst
    by_cases hde : d = e
    · -- the entry just written, of an instance that has executed
      subst hde
      rw [if_pos rfl, Option.some.injEq] at hst
      obtain ⟨is, hdl, hex⟩ := (hasExecuted_iff p d).mp (hd.resolve_left he)
      rw [hinst, Option.some.injEq] at hdl
      refine ⟨inst.is, ?_, by rw [hdl]; exact hex⟩
      rw [← hst]
      split_ifs
      · exact hinst
      · rfl
    · rw [if_neg hde] at hst
      exact h e he st hst

theorem execute (h : StoresOwn p) {d : InstanceID} (hq : p.execute d = some q) : StoresOwn q := by
  obtain ⟨is₀, hd₀, hc₀, -⟩ := execute_spec hq
  unfold Replica.execute at hq
  simp only [Option.bind_eq_bind, Option.bind_eq_some_iff, Option.some.injEq] at hq
  obtain ⟨inst, -, u, -, p', hdeliver, rfl⟩ := hq
  obtain ⟨cmd, rfl⟩ := deliverExecuted_eq hdeliver
  set p₁ := p.setStatus d .executed
  have hd₁ : p₁.liveState d = some { is₀ with status := .executed } := by
    rw [liveState_setStatus, if_pos rfl, hd₀]
    rfl
  -- the status change keeps every executed instance, as `d` was committed
  have h₁ : StoresOwn p₁ := by
    refine h.of_storage (storage_setStatus p d _) (id_setStatus p d _) fun e is he hex => ?_
    have hed : e ≠ d := by
      rintro rfl
      rw [hd₀, Option.some.injEq] at he
      rw [← he, hc₀] at hex
      cases hex
    rw [liveState_setStatus, if_neg hed]
    exact he
  -- then `d` is persisted, executed
  have h₂ : StoresOwn { p₁ with executedCmds := p₁.executedCmds ++ [cmd] } := h₁
  exact h₂.persist d (.inr ((hasExecuted_iff _ d).mpr ⟨_, hd₁, rfl⟩))

theorem prepareToExecute (h : StoresOwn p) {order : MapOrder InstanceID} {d : InstanceID}
    (hq : p.prepareToExecute order d = some q) : StoresOwn q := by
  unfold Replica.prepareToExecute at hq
  simp only [Option.bind_eq_bind, Option.bind_eq_some_iff] at hq
  obtain ⟨inst, -, u, -, hfold⟩ := hq
  refine OptionFold.foldlM_invariant Replica.execute (fun _ b => StoresOwn b)
    (fun _ _ _ _ hb hb' => hb.execute hb') _ _ q ?_ hfold
  exact h

end StoresOwn

theorem Act.storesOwn {p q : Replica} (h : Act p q) (hp : StoresOwn p) : StoresOwn q := by
  cases h with
  | frame _ hid hl hs => exact hp.of_storage hs hid fun e is he _ => by rw [hl]; exact he
  | execute order d h => exact hp.prepareToExecute h

theorem Acts.storesOwn {p q : Replica} (h : Acts p q) (hp : StoresOwn p) : StoresOwn q := by
  induction h with
  | refl => exact hp
  | tail _ hstep ih => exact hstep.storesOwn ih

/-- Each update of a call keeps what storage holds of other replicas executed:
it persists only instances of the replica's own space, and executed ones. -/
theorem Prim.storesOwn {inc : Option Message} {p q : Replica} (h : Prim inc p q)
    (hp : StoresOwn p) : StoresOwn q := by
  cases h with
  | act h => exact h.storesOwn hp
  | update d hid _ hs hother hpd hqd =>
    exact hp.of_storage hs hid (ExecGrows.of_single d hother
      (fun is h => Status.ne_executed (hpd is h)) fun is h => Status.ne_executed (hqd is h).1).1
  | commit d c _ _ hid _ hs hother hpd hqd _ _ hexec =>
    obtain ⟨order, hexec⟩ := hexec
    refine (hp.of_storage hs hid (ExecGrows.of_single d hother
      (fun is h => Status.ne_executed (hpd is h)) fun is h => ?_).1).prepareToExecute hexec
    rw [hqd, Option.some.injEq] at h
    rw [← h]
    exact nofun
  | @transition p' d s hd hs hown hacts _ =>
    obtain ⟨is, hd, hund⟩ := hd
    have h₁ : StoresOwn (p.setStatus d s) := by
      refine hp.of_storage (storage_setStatus p d s) (id_setStatus p d s)
        (ExecGrows.setStatus (fun is' h => ?_) hs).1
      rw [hd, Option.some.injEq] at h
      exact h ▸ hund
    refine (hacts.storesOwn h₁).persist d (.inl ?_)
    rw [hacts.id_eq, id_setStatus]
    exact hown

theorem Prims.storesOwn {inc : Option Message} {p q : Replica} (h : Prims inc p q)
    (hp : StoresOwn p) : StoresOwn q := by
  induction h with
  | refl => exact hp
  | tail _ hstep ih => exact hstep.storesOwn ih

/-- The loading loop of a restart from the stored states `S`, with the states
`rest` still to load and `pending` the instances committed and not yet handed to
the executor: the replica holds each loaded instance as `S` does and no other,
and its vertices are distinct committed instances. -/
structure EagerLoad (S : InstanceID → Option InstanceState) (rest : List InstanceState)
    (pending : List InstanceID) (q : Replica) : Prop where
  ids : (rest.map InstanceState.instanceID).Nodup
  stored : ∀ is ∈ rest, S is.instanceID = some is
  absent : ∀ e ∈ rest.map InstanceState.instanceID, q.liveState e = none
  loaded : ∀ e, e ∉ rest.map InstanceState.instanceID → q.liveState e = S e
  nodup : q.vertices.Nodup
  committed : ∀ v ∈ q.vertices, CommittedIn q.liveState v
  vertex : ∀ d, CommittedIn q.liveState d → d ∈ q.vertices ∨ d ∈ pending

namespace EagerLoad

variable {S : InstanceID → Option InstanceState} {rest : List InstanceState}
  {P : List InstanceID} {q q' : Replica}

/-- The replica holds an instance as `S` does, or not at all. -/
theorem held (h : EagerLoad S rest P q) (e : InstanceID) :
    q.liveState e = S e ∨ q.liveState e = none := by
  by_cases he : e ∈ rest.map InstanceState.instanceID
  · exact .inr (h.absent e he)
  · exact .inl (h.loaded e he)

/-- Where every committed state of `S` waits within `S`, every instance the
replica holds committed waits. -/
theorem waits (hwait : ∀ v, CommittedIn S v → Waits S v) (h : EagerLoad S rest P q) :
    ∀ v, CommittedIn q.liveState v → Waits q.liveState v := by
  intro v hv
  have hqv : q.liveState v = S v := by
    rcases h.held v with hs | hn
    · exact hs
    · obtain ⟨is, hv', -⟩ := hv
      rw [hn] at hv'
      cases hv'
  refine (hwait v (by rw [CommittedIn, ← hqv]; exact hv)).transfer hqv (fun w _ => ?_)
    fun x hx => ?_
  · rcases h.held w with hs | hn
    · exact .inl hs
    · refine .inr ?_
      rintro ⟨is, hw, -⟩
      rw [hn] at hw
      cases hw
  · rcases h.held x with hs | hn
    · rw [DecidedIn, ← hs]
      exact hx
    · obtain ⟨is, hx', -⟩ := hx
      rw [hn] at hx'
      cases hx'

theorem frame (h : EagerLoad S rest P q) (hl : q'.liveState = q.liveState)
    (hv : q'.vertices = q.vertices) : EagerLoad S rest P q' := by
  refine ⟨h.ids, h.stored, fun e he => ?_, fun e he => ?_, ?_, fun v hv' => ?_, fun d hd => ?_⟩
  · rw [hl]
    exact h.absent e he
  · rw [hl]
    exact h.loaded e he
  · rw [hv]
    exact h.nodup
  · rw [hv] at hv'
    rw [hl]
    exact h.committed v hv'
  · rw [hl] at hd
    rw [hv]
    exact h.vertex d hd

theorem drop {d : InstanceID} (h : EagerLoad S rest (d :: P) q)
    (hd : ¬CommittedIn q.liveState d) : EagerLoad S rest P q :=
  { h with
    vertex := fun e he => (h.vertex e he).imp_right fun hp =>
      (List.mem_cons.mp hp).resolve_left fun hed => hd (by rw [← hed]; exact he) }

/-- Storing the next state in memory: the replica holds it as `S` does, pending
if it is committed. -/
theorem load {is : InstanceState} (h : EagerLoad S (is :: rest) [] q) :
    EagerLoad S rest [is.instanceID] (q.setInstance (Instance.ofState is)) := by
  set q₁ := q.setInstance (Instance.ofState is)
  have hl₁ : ∀ e, q₁.liveState e = if is.instanceID = e then some is else q.liveState e :=
    liveState_setInstance q _
  have hids := h.ids
  rw [List.map_cons, List.nodup_cons] at hids
  have habs : q.liveState is.instanceID = none := h.absent _ List.mem_cons_self
  -- away from the loaded id nothing changes
  have hout : ∀ e, is.instanceID ≠ e → q₁.liveState e = q.liveState e := fun e he => by
    rw [hl₁, if_neg he]
  have hne : ∀ v, CommittedIn q.liveState v → is.instanceID ≠ v := by
    rintro v ⟨is', hv, -⟩ rfl
    rw [habs] at hv
    cases hv
  refine ⟨hids.2, fun is' his' => h.stored is' (List.mem_cons_of_mem _ his'), fun e he => ?_,
    fun e he => ?_, h.nodup, fun v hv => ?_, fun d hd => ?_⟩
  · have hne' : is.instanceID ≠ e := fun heq => hids.1 (by rw [heq]; exact he)
    rw [hout e hne']
    exact h.absent e (List.mem_cons_of_mem _ he)
  · by_cases hie : is.instanceID = e
    · rw [hl₁, if_pos hie, ← hie]
      exact (h.stored is List.mem_cons_self).symm
    · rw [hout e hie]
      refine h.loaded e ?_
      rw [List.map_cons, List.mem_cons]
      rintro (heq | hmem)
      · exact hie heq.symm
      · exact he hmem
  · have hpc := h.committed v hv
    rw [CommittedIn, hout v (hne v hpc)]
    exact hpc
  · by_cases hie : is.instanceID = d
    · exact .inr (List.mem_singleton.mpr hie.symm)
    · rw [CommittedIn, hout d hie] at hd
      exact .inl ((h.vertex d hd).resolve_right List.not_mem_nil)

/-- The replay of a commit runs the executor on the pending `d`. It executes
nothing, as every committed instance waits; `d` becomes a vertex. -/
theorem prepareToExecute (hwait : ∀ v, CommittedIn S v → Waits S v)
    {order : MapOrder InstanceID} {d : InstanceID} (h : EagerLoad S rest [d] q)
    (hq : q.prepareToExecute order d = some q') : EagerLoad S rest [] q' := by
  obtain ⟨hd, r, hspec, hfold⟩ := prepareToExecute_run hq h.nodup
    fun v hv => hasExecuted_of_committed (h.committed v hv)
  -- the vertices with `d` are the committed instances
  have hV : ∀ e, e ∈ addExec q.vertices d ↔ CommittedIn q.liveState e := by
    intro e
    rw [mem_addExec]
    constructor
    · rintro (he | rfl)
      · exact h.committed e he
      · exact hd
    · intro he
      rcases h.vertex e he with hv | hp
      · exact .inl hv
      · exact .inr (List.mem_singleton.mp hp)
  -- all of them wait, so none can run
  have hnone : r.2 = [] := by
    refine List.eq_nil_iff_forall_not_mem.mpr fun v hv => ?_
    obtain ⟨hvV, hun⟩ := (hspec.executed_iff v).mp hv
    exact (not_unblocked_iff_waits (p := { q with vertices := addExec q.vertices d }) hV v).mpr
      (h.waits hwait v ((hV v).mp hvV)) hun
  have hr₁ : r.1 = addExec q.vertices d := by
    rw [hspec.remaining, hnone]
    simp
  rw [hnone, List.foldlM_nil, Option.pure_def, Option.some.injEq] at hfold
  subst hfold
  refine ⟨h.ids, h.stored, h.absent, h.loaded, ?_, fun v hv => ?_, fun e he => .inl ?_⟩
  · show r.1.Nodup
    rw [hr₁]
    exact nodup_addExec h.nodup d
  · change v ∈ r.1 at hv
    rw [hr₁] at hv
    exact (hV v).mp hv
  · show e ∈ r.1
    rw [hr₁]
    exact (hV e).mpr he

/-- One iteration of the loading loop, for a state committed only if it is of
the replica's own space. -/
theorem loadInstance (hwait : ∀ v, CommittedIn S v → Waits S v) {order : MapOrder InstanceID}
    {is : InstanceState} (h : EagerLoad S (is :: rest) [] q)
    (hown : is.status = .committed → is.instanceID.replicaID = q.id)
    (hq : q.loadInstance order is = some q') : EagerLoad S rest [] q' := by
  set q₁ := q.setInstance (Instance.ofState is)
  have h₁ : EagerLoad S rest [is.instanceID] q₁ := h.load
  have hc₁ : CommittedIn q₁.liveState is.instanceID → is.status = .committed := by
    rintro ⟨is', h', hc⟩
    have hl : q₁.liveState is.instanceID = some is := by
      rw [liveState_setInstance]
      exact if_pos rfl
    rw [hl, Option.some.injEq] at h'
    rw [h']
    exact hc
  unfold Replica.loadInstance at hq
  dsimp only at hq
  split_ifs at hq with hcond
  · -- an own instance that has not executed: its transition is replayed
    simp only [restartTransition, Option.bind_eq_bind, Option.bind_eq_some_iff] at hq
    obtain ⟨inst, hinst, prev, -, a, ha, hrun⟩ := hq
    have his : inst.is = is := by
      rw [getInstance_setInstance,
        if_pos (show (Instance.ofState is).is.instanceID = is.instanceID from rfl),
        Option.some.injEq] at hinst
      rw [← hinst]
      rfl
    rw [his] at ha
    by_cases hbc : a = .broadcastCommitAndExecute
    · -- the replay of a commit sends it and runs the executor
      subst hbc
      rw [runAction] at hrun
      exact (h₁.frame (liveState_eq_of_getInstance (getInstance_broadcastCommit q₁ _))
        (vertices_broadcastCommit q₁ _)).prepareToExecute hwait hrun
    · -- the other replays only send, of an instance that is not committed
      have hnc : is.status ≠ .committed := fun hc => hbc (action_of_committed (hc ▸ ha))
      have hframe : q'.liveState = q₁.liveState ∧ q'.vertices = q₁.vertices := by
        cases a with
        | broadcastPreAccept =>
          rw [runAction, Option.some.injEq] at hrun
          rw [← hrun]
          exact ⟨liveState_eq_of_getInstance (getInstance_broadcastPreAccept q₁ _),
            vertices_broadcastPreAccept q₁ _⟩
        | broadcastAccept =>
          rw [runAction, Option.some.injEq] at hrun
          rw [← hrun]
          exact ⟨liveState_eq_of_getInstance (getInstance_broadcastAccept q₁ _),
            vertices_broadcastAccept q₁ _⟩
        | broadcastCommitAndExecute => exact absurd rfl hbc
        | deliverExecutedCommand =>
          obtain ⟨_, rfl⟩ := deliverExecuted_eq hrun
          exact ⟨rfl, rfl⟩
      exact (h₁.drop fun hcq => hnc (hc₁ hcq)).frame hframe.1 hframe.2
  · -- another replica's instance, or an executed one: it is only held, and not
    -- committed, as only own instances are stored committed
    rw [Option.some.injEq] at hq
    subst hq
    refine h₁.drop fun hcq => hcond ?_
    have hc := hc₁ hcq
    simp [Instance.isStates, Instance.ofState, hc, hown hc]

/-- With nothing left to load and nothing pending, the replica is `Eager`. -/
theorem eager (hwait : ∀ v, CommittedIn S v → Waits S v) (h : EagerLoad S [] [] q) :
    Eager [] q := by
  have hV : ∀ d, d ∈ q.vertices ↔ CommittedIn q.liveState d :=
    fun d => ⟨h.committed d, fun hd => (h.vertex d hd).resolve_right List.not_mem_nil⟩
  exact ⟨h.nodup, h.committed, h.vertex,
    fun v hv => (not_unblocked_iff_waits hV v).mpr (h.waits hwait v ((hV v).mp hv))⟩

end EagerLoad

end Replica

namespace Network

open Replica

/-- A replica restarted from the storage of a stopped one stores another
replica's instance only once executed, if the stopped one did. -/
theorem restartReplica_storesOwn {order : MapOrder InstanceID}
    {loadOrder : MapOrder InstanceState} {p q : Replica}
    (h : restartReplica order loadOrder p = some q) (hp : p.ExecClosed ∧ p.StoreExec [])
    (hso : p.StoresOwn) : q.StoresOwn := by
  obtain ⟨p₀, hlive₀, hinst₀, hid₀, -, -, -, hfold⟩ := restartReplica_eq h
  -- the restarted replica starts with copies of what the stopped one stored
  have hso₀ : p₀.StoresOwn := by
    intro d hd st hst
    rw [lookup_of_freeze hinst₀] at hst
    obtain ⟨is, his, rfl⟩ := Option.map_eq_some_iff.mp hst
    exact ⟨is, rfl, hso.executed_of_stored (by rw [hid₀] at hd; exact hd) his⟩
  -- each state is loaded in place of nothing, and its replay persists nothing new
  have hstep : ∀ (is : InstanceState) (rest : List InstanceState) (b b' : Replica),
      LoadInv (is :: rest) b ∧ b.StoresOwn → b.loadInstance order is = some b' →
      LoadInv rest b' ∧ b'.StoresOwn := by
    rintro is rest b b' ⟨hl, hb⟩ hb'
    refine ⟨hl.loadInstance hb', (acts_loadInstance hb').storesOwn ?_⟩
    have hl₁ : ∀ e, (b.setInstance (Instance.ofState is)).liveState e =
        if is.instanceID = e then some is else b.liveState e := liveState_setInstance b _
    refine hb.of_storage (storage_setInstance b _) (id_setInstance b _) fun e is' he _ => ?_
    have hne : is.instanceID ≠ e := by
      rintro rfl
      rw [hl.absent is List.mem_cons_self] at he
      cases he
    rw [hl₁, if_neg hne]
    exact he
  have hload := loadInv_freeze loadOrder hp hlive₀ hinst₀
  exact (OptionFold.foldlM_invariant _ (fun rest b => LoadInv rest b ∧ b.StoresOwn) hstep _ p₀ q
    ⟨hload, hso₀⟩ hfold).2

/-- A replica restarted from the storage of a stopped one that stored committed
states only for its own instances, each waiting within the storage, is
`Eager`. -/
theorem restartReplica_eager {order : MapOrder InstanceID} {loadOrder : MapOrder InstanceState}
    {p q : Replica} (h : restartReplica order loadOrder p = some q)
    (hp : p.ExecClosed ∧ p.StoreExec [])
    (hown : ∀ d is, p.storedState d = some is → is.status = .committed → d.replicaID = p.id)
    (hwait : ∀ v, CommittedIn p.storedState v → Waits p.storedState v) : q.Eager [] := by
  obtain ⟨p₀, hlive₀, hinst₀, hid₀, -, hvert₀, -, hfold⟩ := restartReplica_eq h
  set L := loadOrder.arrange ((p.storage.freeze p.liveState).resolve fun _ => none)
  have hmemL : ∀ is, is ∈ L ↔ ∃ d, p.storedState d = some is := fun is =>
    (loadOrder.perm _).mem_iff.trans mem_resolve_freeze
  have hload := loadInv_freeze loadOrder hp hlive₀ hinst₀
  -- the loop starts from nothing, with every stored state still to load
  have hstart : EagerLoad p.storedState L [] p₀ := by
    refine ⟨hload.nodup, fun is his => ?_, fun e _ => hlive₀ e, fun e he => ?_,
      by rw [hvert₀]; exact List.nodup_nil, fun v hv => ?_, fun d hd => ?_⟩
    · obtain ⟨d, hd⟩ := (hmemL is).mp his
      rw [hp.2.ids d is hd]
      exact hd
    · rw [hlive₀]
      cases hs : p.storedState e with
      | none => rfl
      | some is => exact absurd (List.mem_map.mpr ⟨is, (hmemL is).mpr ⟨e, hs⟩, hp.2.ids e is hs⟩) he
    · rw [hvert₀] at hv
      cases hv
    · obtain ⟨is, hd', -⟩ := hd
      rw [hlive₀] at hd'
      cases hd'
  have hstep : ∀ (is : InstanceState) (rest : List InstanceState) (b b' : Replica),
      EagerLoad p.storedState (is :: rest) [] b ∧ b.id = p.id → b.loadInstance order is = some b' →
      EagerLoad p.storedState rest [] b' ∧ b'.id = p.id := by
    rintro is rest b b' ⟨hb, hid⟩ hb'
    refine ⟨hb.loadInstance hwait (fun hc => ?_) hb', ?_⟩
    · rw [hid]
      exact hown _ is (hb.stored is List.mem_cons_self) hc
    · rw [(acts_loadInstance hb').id_eq, id_setInstance]
      exact hid
  exact (OptionFold.foldlM_invariant _ (fun rest b => EagerLoad p.storedState rest [] b ∧ b.id = p.id)
    hstep _ p₀ q ⟨hstart, hid₀⟩ hfold).1.eager hwait

/-- Every replica stores another replica's instance only once executed. -/
def StoresOwn (net : Network) : Prop := ∀ r, (net.replicas r).StoresOwn

theorem storesOwn_init (nodes : List ℕ) (aliasing : ℕ → Bool) : (init nodes aliasing).StoresOwn :=
  fun _ _ _ _ hst => by cases hst

theorem storesOwn_step {order : MapOrder InstanceID} {loadOrder : MapOrder InstanceState}
    {e : Event} {net net' : Network} (hti : net.TimersOwn) (hsafe : net.ExecSafe)
    (h : net.StoresOwn) (hs : step order loadOrder e net = some net') : net'.StoresOwn :=
  replicas_step (I := fun _ q => q.StoresOwn) hti h (fun _ _ hq => hq)
    (fun r _ _ hp => hp.storesOwn (h r)) (fun r _ hq => restartReplica_storesOwn hq (hsafe r) (h r))
    hs

theorem storesOwn_reachable {nodes : List ℕ} {aliasing : ℕ → Bool} {restarts : Bool}
    {net : Network} (h : Reachable nodes aliasing restarts net) : net.StoresOwn := by
  induction h with
  | refl => exact storesOwn_init nodes aliasing
  | tail hr hstep ih =>
    obtain ⟨e, order, loadOrder, -, hs⟩ := hstep
    exact storesOwn_step (timersOwn_reachable hr) (execSafe_reachable hr) ih hs

/-- A committed state a replica stored is of its own space, and the replica holds
the instance in that state. -/
theorem stored_committed_live {net : Network} (hdur : net.Durable) (hagree : net.Agreement)
    (hso : net.StoresOwn) {r : ℕ} {d : InstanceID} {is : InstanceState}
    (hs : (net.replicas r).storedState d = some is) (hc : is.status = .committed) :
    d.replicaID = r ∧ (net.replicas r).liveState d = some is := by
  -- another replica's instance is stored only once executed
  have hown : d.replicaID = r := by
    by_contra hne
    have hex := (hso r).executed_of_stored (by rw [(hdur r).1]; exact hne) hs
    rw [hc] at hex
    cases hex
  -- as command leader it holds the instance decided, as it stored it ...
  obtain ⟨is', hl, hdec, -⟩ := (hagree.replicas r).stored d is hs (by rw [hc]; rfl)
  rw [hown] at hl
  -- ... and it stores a decided instance of its own as it holds it
  have hst := (hdur r).2 d is' List.not_mem_nil hl
    (vouched_of_decided (by rw [(hdur r).1]; exact hown) hdec)
  rw [hs, Option.some.injEq] at hst
  exact ⟨hown, by rw [hst]; exact hl⟩

/-- Every replica's vertices are its committed instances, each waiting. -/
def Eager (net : Network) : Prop := ∀ r, (net.replicas r).Eager []

/-- Every committed state a replica stored waits within its storage: it waits
at the replica, which stores as it holds each committed instance of its own,
stores no committed instance of another replica, and holds decided what it
stored decided. -/
theorem stored_waits {net : Network} (hsafe : net.ExecSafe) (hdur : net.Durable)
    (hagree : net.Agreement) (hso : net.StoresOwn) (heager : net.Eager) (r : ℕ) (v : InstanceID)
    (hv : CommittedIn (net.replicas r).storedState v) : Waits (net.replicas r).storedState v := by
  obtain ⟨is, hs, hc⟩ := hv
  have hlv := (stored_committed_live hdur hagree hso hs hc).2
  refine ((heager r).waits.2 v ⟨is, hlv, hc⟩).transfer (by rw [hs, hlv]) (fun w hw => ?_)
    fun x hx => ?_
  · obtain ⟨iw, hlw, hcw⟩ := hw
    by_cases hown : w.replicaID = r
    · left
      rw [hlw]
      exact (hdur r).2 w iw List.not_mem_nil hlw (.inr ⟨by rw [(hdur r).1]; exact hown, .inr hcw⟩)
    · right
      rintro ⟨is', hs', -⟩
      have hex := (hso r).executed_of_stored (by rw [(hdur r).1]; exact hown) hs'
      have hl' := ((hsafe r).2.live w is' hs' hex).resolve_right List.not_mem_nil
      rw [hlw, Option.some.injEq] at hl'
      rw [← hl', hcw] at hex
      cases hex
  · obtain ⟨is', hs', hdec⟩ := hx
    cases hst : is'.status <;> rw [hst] at hdec
    case committed =>
      exact ⟨is', (stored_committed_live hdur hagree hso hs' hst).2, by rw [hst]; rfl⟩
    case executed =>
      exact ⟨is', ((hsafe r).2.live x is' hs' hst).resolve_right List.not_mem_nil,
        by rw [hst]; rfl⟩
    all_goals cases hdec

theorem eager_init (nodes : List ℕ) (aliasing : ℕ → Bool) : (init nodes aliasing).Eager :=
  fun _ => ⟨List.nodup_nil, fun _ hv => (by cases hv), fun _ ⟨_, hd, _⟩ => (by cases hd),
    fun _ hv => (by cases hv)⟩

theorem eager_step {order : MapOrder InstanceID} {loadOrder : MapOrder InstanceState}
    {e : Event} {net net' : Network} (hti : net.TimersOwn) (hsafe : net.ExecSafe)
    (hdur : net.Durable) (hagree : net.Agreement) (hso : net.StoresOwn) (h : net.Eager)
    (hs : step order loadOrder e net = some net') : net'.Eager := by
  refine replicas_step (I := fun _ q => q.Eager []) hti h (fun _ _ hq => hq.of_liveState rfl rfl)
    (fun r _ _ hp => hp.eager (h r)) (fun r _ hq => ?_) hs
  -- a restart finds every committed state stored of its own, and waiting
  refine restartReplica_eager hq (hsafe r) (fun d is hd hc => ?_)
    (stored_waits hsafe hdur hagree hso h r)
  rw [(hdur r).1]
  exact (stored_committed_live hdur hagree hso hd hc).1

theorem eager_reachable {nodes : List ℕ} {aliasing : ℕ → Bool} {restarts : Bool}
    {net : Network} (h : Reachable nodes aliasing restarts net) : net.Eager := by
  induction h with
  | refl => exact eager_init nodes aliasing
  | tail hr hstep ih =>
    obtain ⟨e, order, loadOrder, -, hs⟩ := hstep
    exact eager_step (timersOwn_reachable hr) (execSafe_reachable hr) (durable_reachable hr)
      (agreement_reachable hr) (storesOwn_reachable hr) ih hs

/-- In every run, with restarts or without, after every event the executor's
vertices at each replica are exactly its committed instances, and every
committed instance waits: through committed instances its dependencies reach an
instance the replica holds neither committed nor executed. -/
theorem eager_execution {nodes : List ℕ} {aliasing : ℕ → Bool} {restarts : Bool}
    {net : Network} (h : Reachable nodes aliasing restarts net) (r : ℕ) :
    (∀ d, d ∈ (net.replicas r).vertices ↔ CommittedIn (net.replicas r).liveState d) ∧
      ∀ v, CommittedIn (net.replicas r).liveState v → Waits (net.replicas r).liveState v :=
  (eager_reachable h r).waits

/-- After the run of `chainRun`, replica `1` receives the `Commit` of the second
write, which depends on the first: the first is only pre-accepted there. -/
def waitNet : Network :=
  (runEvents (MapOrder.id _) (MapOrder.id _)
    (chainRun ++ [.deliver ⟨1, ⟨0, 2⟩, .commit ⟨some ⟨2, ⟨[97], []⟩, true⟩, 2, [⟨0, 1⟩]⟩⟩])
    (init [0, 1, 2] fun _ => true)).get (by decide +kernel)

theorem eager_execution_waitNet :
    (∀ d, d ∈ (waitNet.replicas 1).vertices ↔ CommittedIn (waitNet.replicas 1).liveState d) ∧
      ∀ v, CommittedIn (waitNet.replicas 1).liveState v → Waits (waitNet.replicas 1).liveState v := by
  have h : Reachable [0, 1, 2] (fun _ => true) false waitNet :=
    reachable_of_runEvents (by decide +kernel) (Option.some_get _).symm
  exact eager_execution h 1

example : (waitNet.replicas 1).vertices = [⟨0, 2⟩] := by decide +kernel

end Network

end EPaxos
