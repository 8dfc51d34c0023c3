import EPaxos.Execution

/-!
# Restarts keep the executed set closed

`newEPaxos` loads the persisted states one by one, in the order `Instances()`
returns them, and replays the transition into the current status of each own
instance that has not executed; the replay of a commit runs the executor before
the later states are loaded. The loading loop keeps `LoadInv`: what is in memory
is closed up to the executed states still to load, and storage holds the rest
untouched. Since storage held exactly the executed instances of the stopped
replica (`StoreExec`), the restarted replica is closed again.

Over whole runs, every replica is closed after every event (`execSafe_reachable`).
-/
namespace EPaxos

namespace Replica

/-- An action leaves an instance the replica does not hold alone, in memory and
in storage. -/
theorem Act.absent {p q : Replica} {e : InstanceID} (h : Act p q) (he : p.liveState e = none) :
    q.liveState e = none ∧ q.storedState e = p.storedState e := by
  cases h with
  | frame _ _ hl hs =>
    rw [hl]
    exact ⟨he, storedState_congr hs (congrFun hl e)⟩
  | execute order d h =>
    obtain ⟨done, -, hout, hin⟩ := prepareToExecute_spec h
    -- the executor runs only on instances the replica holds
    have hnot : e ∉ done := fun hm => by
      obtain ⟨is, h₁, -⟩ := hin e hm
      rw [he] at h₁
      cases h₁
    rw [(hout e hnot).1, (hout e hnot).2]
    exact ⟨he, rfl⟩

theorem Acts.absent {p q : Replica} {e : InstanceID} (h : Acts p q) (he : p.liveState e = none) :
    q.liveState e = none ∧ q.storedState e = p.storedState e := by
  induction h with
  | refl => exact ⟨he, rfl⟩
  | tail _ hstep ih =>
    obtain ⟨h₁, h₂⟩ := hstep.absent ih.1
    exact ⟨h₁, h₂.trans ih.2⟩

/-- One iteration of the loading loop stores the state in memory, then runs the
action of the transition into it for an own instance that has not executed. -/
theorem acts_loadInstance {order : MapOrder InstanceID} {is : InstanceState} {q q' : Replica}
    (h : q.loadInstance order is = some q') : Acts (q.setInstance (Instance.ofState is)) q' := by
  unfold loadInstance at h
  dsimp only at h
  split_ifs at h with hown
  · refine acts_restartTransition h ?_
    simpa using of_decide_eq_true ((Bool.and_eq_true _ _).mp hown).1
  · rw [Option.some.injEq] at h
    exact h ▸ .refl _

/-- A state stored as a copy for an instance the replica does not hold. -/
theorem storedState_of_absent {p q : Replica} {d : InstanceID} {is : InstanceState}
    (hs : q.storage = p.storage) (hp : p.liveState d = none) (h : p.storedState d = some is) :
    q.storedState d = some is := by
  unfold storedState at h ⊢
  rw [hs]
  cases hl : p.storage.lookup d with
  | none => rw [hl] at h; cases h
  | some st =>
    rw [hl, Option.bind_some] at h
    rw [Option.bind_some]
    cases st with
    | copy is' => exact h
    | live => rw [Stored.resolve, hp] at h; cases h

/-- `e` is executed at `q`, or is an executed state still to be loaded. -/
def Settled (rest : List InstanceState) (q : Replica) (e : InstanceID) : Prop :=
  q.hasExecuted e = true ∨ ∃ is ∈ rest, is.instanceID = e ∧ is.status = .executed

theorem Settled.of_grows {rest : List InstanceState} {q q' : Replica} {e : InstanceID}
    (hg : ExecGrows q q') (h : Settled rest q e) : Settled rest q' e :=
  h.imp hg.hasExecuted fun h => h

/-- In a storage of copies each keyed by its own id, `Instances()` lists the
keys. -/
theorem keys_resolve_none : ∀ (l : List (InstanceID × Stored)),
    (∀ e ∈ l, ∃ is, e.2 = .copy is ∧ is.instanceID = e.1) →
      (l.filterMap fun e => e.2.resolve none).map InstanceState.instanceID = l.map Prod.fst
  | [], _ => rfl
  | e :: l, h => by
    obtain ⟨is, he, hid⟩ := h e List.mem_cons_self
    have hres : e.2.resolve none = some is := by rw [he]; rfl
    simp only [List.filterMap_cons, hres, List.map_cons, hid]
    rw [keys_resolve_none l fun e' he' => h e' (List.mem_cons_of_mem _ he')]

/-- The loading loop of `initStorage`, with the states `rest` still to load. -/
structure LoadInv (rest : List InstanceState) (q : Replica) : Prop where
  nodup : (rest.map InstanceState.instanceID).Nodup
  absent : ∀ is ∈ rest, q.liveState is.instanceID = none
  stored : ∀ is ∈ rest, q.storedState is.instanceID = some is
  store : StoreExec (rest.map InstanceState.instanceID) q
  closed : ∀ d is, q.liveState d = some is → is.status = .executed →
    ∀ e ∈ is.deps, Settled rest q e
  restClosed : ∀ is ∈ rest, is.status = .executed → ∀ e ∈ is.deps, Settled rest q e

namespace LoadInv

variable {rest : List InstanceState} {q q' : Replica}

/-- Actions that leave the instances still to load alone. -/
theorem of_acts (h : LoadInv rest q) (hp : Acts q q')
    (habs : ∀ is ∈ rest, q'.liveState is.instanceID = none ∧
      q'.storedState is.instanceID = q.storedState is.instanceID) : LoadInv rest q' := by
  have hg := hp.execGrows
  refine ⟨h.nodup, fun is his => (habs is his).1, fun is his => ?_, hp.storeExec h.store,
    fun d is hd hs e he => ?_, fun is his hs e he => (h.restClosed is his hs e he).of_grows hg⟩
  · rw [(habs is his).2]
    exact h.stored is his
  · rcases hg.2 d is hd hs with hq | hdeps
    · exact (h.closed d is hq hs e he).of_grows hg
    · exact .inl (hdeps e he)

/-- Storing the next state, `Instances()`'s `is`, in memory. -/
theorem load {is : InstanceState} (h : LoadInv (is :: rest) q) :
    LoadInv rest (q.setInstance (Instance.ofState is)) := by
  set q₁ := q.setInstance (Instance.ofState is)
  have hl₁ : ∀ e, q₁.liveState e = if is.instanceID = e then some is else q.liveState e :=
    liveState_setInstance q _
  have hs₁ : q₁.storage = q.storage := storage_setInstance q _
  have habs := h.absent is List.mem_cons_self
  have hstored : q₁.storedState is.instanceID = some is :=
    storedState_of_absent hs₁ habs (h.stored is List.mem_cons_self)
  have hnodup := h.nodup
  rw [List.map_cons, List.nodup_cons] at hnodup
  have hne : ∀ is' ∈ rest, is.instanceID ≠ is'.instanceID := fun is' his' heq =>
    hnodup.1 (heq ▸ List.mem_map_of_mem his')
  -- away from the loaded id nothing changes
  have hout : ∀ e, is.instanceID ≠ e →
      q₁.liveState e = q.liveState e ∧ q₁.storedState e = q.storedState e := fun e he => by
    rw [hl₁, if_neg he]
    exact ⟨rfl, storedState_congr hs₁ (by rw [hl₁, if_neg he])⟩
  have hsettled : ∀ e, Settled (is :: rest) q e → Settled rest q₁ e := by
    rintro e (hex | ⟨is', his', rfl, hst⟩)
    · obtain ⟨x, hx, hxs⟩ := (hasExecuted_iff q e).mp hex
      have he : is.instanceID ≠ e := fun heq => by rw [← heq, habs] at hx; cases hx
      exact .inl ((hasExecuted_iff q₁ e).mpr ⟨x, by rw [(hout e he).1, hx], hxs⟩)
    · rcases List.mem_cons.mp his' with rfl | his'
      · exact .inl ((hasExecuted_iff q₁ _).mpr ⟨is', by rw [hl₁, if_pos rfl], hst⟩)
      · exact .inr ⟨is', his', rfl, hst⟩
  refine ⟨hnodup.2, fun is' his' => ?_, fun is' his' => ?_, ⟨?_, ?_, ?_⟩, ?_, ?_⟩
  · rw [(hout _ (hne is' his')).1]
    exact h.absent is' (List.mem_cons_of_mem _ his')
  · rw [(hout _ (hne is' his')).2]
    exact h.stored is' (List.mem_cons_of_mem _ his')
  · intro d x hd
    rcases storedState_of_storage hs₁ hd with hq | hq
    · exact h.store.ids d x hq
    · exact liveState_id hq
  · intro d x hd hx
    by_cases hid : is.instanceID = d
    · subst hid
      rw [hl₁, if_pos rfl] at hd
      rw [hstored, hd]
    · rw [(hout d hid).1] at hd
      rw [(hout d hid).2]
      exact h.store.stored d x hd hx
  · intro d x hd hx
    by_cases hid : is.instanceID = d
    · subst hid
      rw [hstored] at hd
      rw [hl₁, if_pos rfl]
      exact .inl hd
    · rw [(hout d hid).2] at hd
      rw [(hout d hid).1]
      rcases h.store.live d x hd hx with hq | hpend
      · exact .inl hq
      · rw [List.map_cons, List.mem_cons] at hpend
        exact .inr (hpend.resolve_left (Ne.symm hid))
  · intro d x hd hx e he
    by_cases hid : is.instanceID = d
    · rw [hl₁, if_pos hid, Option.some.injEq] at hd
      subst hd
      exact hsettled e (h.restClosed _ List.mem_cons_self hx e he)
    · rw [(hout d hid).1] at hd
      exact hsettled e (h.closed d x hd hx e he)
  · intro is' his' hx e he
    exact hsettled e (h.restClosed is' (List.mem_cons_of_mem _ his') hx e he)

/-- One iteration of the loading loop. -/
theorem loadInstance {order : MapOrder InstanceID} {is : InstanceState}
    (h : LoadInv (is :: rest) q) (hl : q.loadInstance order is = some q') : LoadInv rest q' :=
  h.load.of_acts (acts_loadInstance hl) fun is' his' =>
    (acts_loadInstance hl).absent (h.load.absent is' his')

theorem foldlM_loadInstance {order : MapOrder InstanceID} (h : LoadInv rest q) (hl : rest.foldlM (Replica.loadInstance order) q = some q') :
    LoadInv [] q' :=
  OptionFold.foldlM_invariant _ LoadInv (fun _ _ _ _ h₁ h₂ => h₁.loadInstance h₂) rest q q' h hl

/-- With nothing left to load the replica is closed. -/
theorem done (h : LoadInv [] q) : q.ExecClosed ∧ q.StoreExec [] := by
  refine ⟨fun d is hd hs e he => ?_, h.store⟩
  rcases h.closed d is hd hs e he with hex | ⟨_, hmem, -⟩
  · exact hex
  · cases hmem

/-- The loop starts on a replica that holds nothing, with a storage of copies
`stored` that is closed under dependencies, in any order of `Instances()`. -/
theorem init (p₀ : Replica) (stored : InstanceID → Option InstanceState)
    (hlive : ∀ d, p₀.liveState d = none)
    (hS : ∀ d, p₀.storage.lookup d = (stored d).map .copy)
    (hids : ∀ d is, stored d = some is → is.instanceID = d)
    (hclosed : ∀ d is, stored d = some is → is.status = .executed →
      ∀ e ∈ is.deps, ∃ is', stored e = some is' ∧ is'.status = .executed)
    {L : List InstanceState} (hL : L.Perm (p₀.storage.resolve fun _ => none)) : LoadInv L p₀ := by
  have hentry : ∀ d st is, p₀.storage.lookup d = some st → st.resolve none = some is →
      stored d = some is := by
    intro d st is hd hst
    rw [hS] at hd
    obtain ⟨is', h', rfl⟩ := Option.map_eq_some_iff.mp hd
    rw [Stored.resolve, Option.some.injEq] at hst
    rwa [← hst]
  have hmem : ∀ is, is ∈ L ↔ stored is.instanceID = some is := by
    intro is
    rw [hL.mem_iff, Storage.mem_resolve]
    constructor
    · rintro ⟨d, st, hd, hst⟩
      have h := hentry d st is hd hst
      rwa [hids d is h]
    · intro h
      exact ⟨_, _, by rw [hS, h]; rfl, rfl⟩
  have hstoredState : ∀ d, p₀.storedState d = stored d := by
    intro d
    unfold storedState
    rw [hS, hlive]
    cases stored d <;> rfl
  -- `Instances()` returns each persisted state once
  have hcopies : ∀ e ∈ p₀.storage.instances, ∃ is, e.2 = .copy is ∧ is.instanceID = e.1 := by
    rintro ⟨k, st⟩ he
    rw [← Storage.lookup_eq_some_iff, hS] at he
    obtain ⟨is, h, rfl⟩ := Option.map_eq_some_iff.mp he
    exact ⟨is, rfl, hids k is h⟩
  have hnodup : (L.map InstanceState.instanceID).Nodup := by
    rw [(hL.map _).nodup_iff, Storage.resolve, keys_resolve_none _ hcopies]
    exact p₀.storage.keyed
  refine ⟨hnodup, fun is _ => hlive _, fun is his => ?_, ⟨?_, ?_, ?_⟩, ?_, ?_⟩
  · rw [hstoredState]
    exact (hmem is).mp his
  · intro d is hd
    rw [hstoredState] at hd
    exact hids d is hd
  · intro d is hd
    rw [hlive] at hd
    cases hd
  · intro d is hd _
    rw [hstoredState] at hd
    refine .inr (List.mem_map.mpr ⟨is, (hmem is).mpr ?_, hids d is hd⟩)
    rwa [hids d is hd]
  · intro d is hd
    rw [hlive] at hd
    cases hd
  · intro is his hs e he
    obtain ⟨is', h', hs'⟩ := hclosed _ is ((hmem is).mp his) hs e he
    refine .inr ⟨is', (hmem is').mpr ?_, hids e is' h', hs'⟩
    rwa [hids e is' h']

end LoadInv

/-- `initStorage` first records the hard state if there is none, which changes
no instance, no stored entry and not the id; then it runs the loading loop. -/
theorem initStorage_eq {order : MapOrder InstanceID} {p q : Replica}
    {insts : List InstanceState} (h : p.initStorage order insts = some q) :
    ∃ p₀ : Replica, p₀.liveState = p.liveState ∧ p₀.storage.instances = p.storage.instances ∧
      p₀.id = p.id ∧ p₀.msgs = p.msgs ∧ p₀.vertices = p.vertices ∧ p₀.timers = p.timers ∧
      insts.foldlM (loadInstance order) p₀ = some q := by
  unfold initStorage at h
  dsimp only at h
  split at h <;>
  · refine ⟨_, ?_, ?_, ?_, ?_, ?_, ?_, h⟩ <;> rfl

/-- The network takes the outbox of a replica after each call. -/
theorem safe_clearMsgs {q : Replica} (h : q.ExecClosed ∧ q.StoreExec []) :
    ({ q with msgs := [] } : Replica).ExecClosed ∧ ({ q with msgs := [] } : Replica).StoreExec [] :=
  ⟨h.1, h.2.of_persisted [] (fun _ _ => ⟨rfl, rfl⟩) fun _ he => absurd he List.not_mem_nil⟩

theorem safe_of_prims {inc : Option Message} {p q : Replica} (hp : Prims inc p q) (h : p.ExecClosed ∧ p.StoreExec []) :
    q.ExecClosed ∧ q.StoreExec [] :=
  ⟨h.1.of_grows hp.execGrows, hp.storeExec h.2⟩

end Replica

theorem Config.validate_storage {id : ℕ} {nodes : List ℕ} {S s : Storage}
    (h : (⟨id, nodes, some S⟩ : Config).validate = .ok s) : s = S := by
  unfold Config.validate at h
  split_ifs at h
  dsimp only at h
  split at h
  · split_ifs at h
    exact (Except.ok.inj h).symm
  · exact (Except.ok.inj h).symm

namespace Network

open Replica

/-- A restart loads the stored states, in the order of `Instances()`, into a
replica with the stopped one's id that holds no instance, message, vertex or
timer, and whose storage has the stopped one's entries, frozen. -/
theorem restartReplica_eq {order : MapOrder InstanceID} {loadOrder : MapOrder InstanceState}
    {p q : Replica} (h : restartReplica order loadOrder p = some q) :
    ∃ p₀ : Replica, (∀ d, p₀.liveState d = none) ∧
      p₀.storage.instances = (p.storage.freeze p.liveState).instances ∧ p₀.id = p.id ∧
      p₀.msgs = [] ∧ p₀.vertices = [] ∧ p₀.timers = [] ∧
      (loadOrder.arrange ((p.storage.freeze p.liveState).resolve fun _ => none)).foldlM
        (loadInstance order) p₀ = some q := by
  unfold restartReplica newEPaxos at h
  split at h
  · cases h
  rename_i s hv
  rw [Config.validate_storage hv] at h
  obtain ⟨p₀, hlive₀, hinst₀, hid₀, hmsgs₀, hvert₀, htimers₀, hfold⟩ := initStorage_eq h
  exact ⟨p₀, fun d => by rw [hlive₀]; rfl, hinst₀, hid₀, hmsgs₀, hvert₀, htimers₀, hfold⟩

/-- The frozen storage holds a copy of each state the stopped replica stored. -/
theorem lookup_of_freeze {p p₀ : Replica}
    (hinst : p₀.storage.instances = (p.storage.freeze p.liveState).instances) (d : InstanceID) :
    p₀.storage.lookup d = (p.storedState d).map .copy := by
  rw [Storage.lookup, hinst, ← Storage.lookup, Storage.lookup_freeze]
  rfl

/-- The loading loop of a restart starts on a replica that holds nothing, with
the storage of the stopped replica, whose live entries now keep the states they
point to. If the stopped replica was closed, that storage holds exactly its
executed instances, a closed set. -/
theorem loadInv_freeze (loadOrder : MapOrder InstanceState) {p p₀ : Replica}
    (hp : p.ExecClosed ∧ p.StoreExec []) (hlive₀ : ∀ d, p₀.liveState d = none)
    (hinst : p₀.storage.instances = (p.storage.freeze p.liveState).instances) :
    LoadInv (loadOrder.arrange ((p.storage.freeze p.liveState).resolve fun _ => none)) p₀ := by
  have hclosed : ∀ d is, p.storedState d = some is → is.status = .executed →
      ∀ e ∈ is.deps, ∃ is', p.storedState e = some is' ∧ is'.status = .executed := by
    intro d is hd hs e he
    have hl : p.liveState d = some is := (hp.2.live d is hd hs).resolve_right List.not_mem_nil
    obtain ⟨ie, hie, hies⟩ := (hasExecuted_iff p e).mp (hp.1 d is hl hs e he)
    exact ⟨ie, hp.2.stored e ie hie hies, hies⟩
  have hL : (loadOrder.arrange ((p.storage.freeze p.liveState).resolve fun _ => none)).Perm
      (p₀.storage.resolve fun _ => none) := by
    rw [Storage.resolve, Storage.resolve, hinst]
    exact loadOrder.perm _
  exact LoadInv.init p₀ p.storedState hlive₀ (lookup_of_freeze hinst) hp.2.ids hclosed hL

/-- A replica restarted from the storage of a closed replica is closed. -/
theorem restartReplica_safe {order : MapOrder InstanceID} {loadOrder : MapOrder InstanceState}
    {p q : Replica} (h : restartReplica order loadOrder p = some q)
    (hp : p.ExecClosed ∧ p.StoreExec []) : q.ExecClosed ∧ q.StoreExec [] := by
  obtain ⟨p₀, hlive₀, hinst₀, -, -, -, -, hfold⟩ := restartReplica_eq h
  exact (LoadInv.foldlM_loadInstance (loadInv_freeze loadOrder hp hlive₀ hinst₀) hfold).done

/-- Every replica registers timers only for instances of its own space. -/
def TimersOwn (net : Network) : Prop := ∀ r, (net.replicas r).TimersOwn

/-- A property of each replica that every call and every restart keep, and that
handing over the outbox keeps, holds of every replica after every event. -/
theorem replicas_step {I : ℕ → Replica → Prop} {order : MapOrder InstanceID}
    {loadOrder : MapOrder InstanceState} {e : Event} {net net' : Network}
    (hti : net.TimersOwn) (h : ∀ r, I r (net.replicas r))
    (hclear : ∀ r q, I r q → I r { q with msgs := [] })
    (hcall : ∀ r inc q, Prims inc (net.replicas r) q → I r q)
    (hrestart : ∀ r q, restartReplica order loadOrder (net.replicas r) = some q → I r q)
    (hs : step order loadOrder e net = some net') : ∀ r, I r (net'.replicas r) := by
  have hupdate : ∀ (l : List Message) (r : ℕ) (q : Replica), I r q →
      ∀ r', I r' (({ net with inFlight := l }.update r q).replicas r') := by
    intro l r q hq r'
    by_cases hr : r' = r
    · subst hr
      simp only [Network.update, Function.update_self]
      exact hclear r' q hq
    · simp only [Network.update, Function.update_of_ne hr]
      exact h r'
  cases e with
  | request r cmd =>
    obtain ⟨q, hq, rfl⟩ := Option.map_eq_some_iff.mp hs
    exact hupdate net.inFlight r q (hcall r none q (prims_onRequest hq))
  | deliver m =>
    simp only [step] at hs
    split_ifs at hs
    obtain ⟨q, hq, rfl⟩ := Option.map_eq_some_iff.mp hs
    exact hupdate _ m.dest q (hcall m.dest (some m) q (prims_step hq))
  | drop m =>
    simp only [step] at hs
    split_ifs at hs
    rw [Option.some.injEq] at hs
    subst hs
    exact h
  | tick r =>
    obtain ⟨q, hq, rfl⟩ := Option.map_eq_some_iff.mp hs
    exact hupdate net.inFlight r q (hcall r none q (prims_tick hq (hti r)))
  | restart r =>
    obtain ⟨q, hq, rfl⟩ := Option.map_eq_some_iff.mp hs
    exact hupdate net.inFlight r q (hrestart r q hq)

/-- A restarted replica starts with no timer, and replaying the transitions
registers none outside its own space. -/
theorem restartReplica_timersOwn {order : MapOrder InstanceID}
    {loadOrder : MapOrder InstanceState} {p q : Replica}
    (h : restartReplica order loadOrder p = some q) : q.TimersOwn := by
  obtain ⟨p₀, -, -, -, -, -, htimers₀, hfold⟩ := restartReplica_eq h
  have hstep : ∀ (a : InstanceState) (l : List InstanceState) (b b' : Replica), b.TimersOwn →
      b.loadInstance order a = some b' → b'.TimersOwn :=
    fun _ _ _ _ hb hb' => (acts_loadInstance hb').timersOwn hb
  refine OptionFold.foldlM_invariant _ (fun _ b => b.TimersOwn) hstep _ _ q (fun d hd => ?_) hfold
  rw [htimers₀] at hd
  cases hd

theorem timersOwn_step {order : MapOrder InstanceID} {loadOrder : MapOrder InstanceState}
    {e : Event} {net net' : Network} (h : net.TimersOwn)
    (hs : step order loadOrder e net = some net') : net'.TimersOwn :=
  replicas_step (I := fun _ q => q.TimersOwn) h h (fun _ _ hq => hq)
    (fun r _ _ hp => hp.timersOwn (h r)) (fun _ _ hq => restartReplica_timersOwn hq) hs

theorem timersOwn_reachable {nodes : List ℕ} {aliasing : ℕ → Bool} {restarts : Bool}
    {net : Network} (h : Reachable nodes aliasing restarts net) : net.TimersOwn := by
  induction h with
  | refl => exact fun r d hd => absurd hd (by simp [init, Replica.empty])
  | tail _ hstep ih =>
    obtain ⟨e, order, loadOrder, -, hs⟩ := hstep
    exact timersOwn_step ih hs

/-- Every replica is closed, and its storage holds exactly its executed
instances. -/
def ExecSafe (net : Network) : Prop :=
  ∀ r, (net.replicas r).ExecClosed ∧ (net.replicas r).StoreExec []

theorem execSafe_init (nodes : List ℕ) (aliasing : ℕ → Bool) :
    ExecSafe (init nodes aliasing) := by
  intro r
  refine ⟨fun d is hd => ?_, ⟨fun d is hd => ?_, fun d is hd => ?_, fun d is hd => ?_⟩⟩ <;>
    cases hd

theorem execSafe_step {order : MapOrder InstanceID} {loadOrder : MapOrder InstanceState}
    {e : Event} {net net' : Network} (hti : net.TimersOwn) (h : ExecSafe net)
    (hs : step order loadOrder e net = some net') : ExecSafe net' :=
  replicas_step (I := fun _ q => q.ExecClosed ∧ q.StoreExec []) hti h
    (fun _ _ hq => safe_clearMsgs hq) (fun r _ _ hp => safe_of_prims hp (h r))
    (fun r _ hq => restartReplica_safe hq (h r)) hs

theorem execSafe_reachable {nodes : List ℕ} {aliasing : ℕ → Bool} {restarts : Bool}
    {net : Network} (h : Reachable nodes aliasing restarts net) : ExecSafe net := by
  induction h with
  | refl => exact execSafe_init nodes aliasing
  | tail hr hstep ih =>
    obtain ⟨e, order, loadOrder, -, hs⟩ := hstep
    exact execSafe_step (timersOwn_reachable hr) ih hs

/-- Replica `0` of three proposes two writes to one key; each commits on the
fast path after one `PreAcceptOK`, and the second depends on the first. -/
def chainRun : List Event :=
  [.request 0 ⟨1, ⟨[97], []⟩, true⟩,
   .deliver ⟨1, ⟨0, 1⟩, .preAccept ⟨some ⟨1, ⟨[97], []⟩, true⟩, 1, []⟩⟩,
   .deliver ⟨0, ⟨0, 1⟩, .preAcceptOk⟩,
   .request 0 ⟨2, ⟨[97], []⟩, true⟩,
   .deliver ⟨1, ⟨0, 2⟩, .preAccept ⟨some ⟨2, ⟨[97], []⟩, true⟩, 2, [⟨0, 1⟩]⟩⟩,
   .deliver ⟨0, ⟨0, 2⟩, .preAcceptOk⟩]

def chainNet : Network :=
  (runEvents (MapOrder.id _) (MapOrder.id _) chainRun (init [0, 1, 2] fun _ => true)).get
    (by decide +kernel)

end Network

end EPaxos
