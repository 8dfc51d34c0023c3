import EPaxos.Calls
import EPaxos.Network

/-!
# The executed set is closed under dependencies

`executeSCC` executes a component only when every dependency outside it has
executed, and then executes the whole component. So after every call, every
dependency of an executed instance is itself executed at the replica. A call
keeps every executed instance as it was (`ExecGrows`); `Execute` persists the
instance it executes, so storage holds exactly the executed instances of the
replica (`StoreExec`), and a replica restarted from it loads a closed set.
-/
namespace EPaxos

namespace Replica

theorem hasExecuted_iff (p : Replica) (d : InstanceID) :
    p.hasExecuted d = true ↔ ∃ is, p.liveState d = some is ∧ is.status = .executed := by
  unfold hasExecuted liveState
  cases p.getInstance d <;> simp

theorem depsOf_eq {p : Replica} {d : InstanceID} {is : InstanceState}
    (h : p.liveState d = some is) : p.depsOf d = is.deps := by
  unfold liveState at h
  obtain ⟨inst, hi, rfl⟩ := Option.map_eq_some_iff.mp h
  simp [depsOf, hi]

theorem liveState_id {p : Replica} {d : InstanceID} {is : InstanceState}
    (h : p.liveState d = some is) : is.instanceID = d := by
  unfold liveState at h
  obtain ⟨inst, hi, rfl⟩ := Option.map_eq_some_iff.mp h
  exact getInstance_id hi

/-- Every dependency of an executed instance is executed. -/
def ExecClosed (p : Replica) : Prop :=
  ∀ d is, p.liveState d = some is → is.status = .executed →
    ∀ e ∈ is.deps, p.hasExecuted e = true

/-- From `p` to `q` every executed instance stays as it was, and an instance
that becomes executed has its dependencies executed. -/
def ExecGrows (p q : Replica) : Prop :=
  (∀ d is, p.liveState d = some is → is.status = .executed → q.liveState d = some is) ∧
  (∀ d is, q.liveState d = some is → is.status = .executed →
    p.liveState d = some is ∨ ∀ e ∈ is.deps, q.hasExecuted e = true)

namespace ExecGrows

theorem refl (p : Replica) : ExecGrows p p :=
  ⟨fun _ _ h _ => h, fun _ _ h _ => .inl h⟩

theorem of_liveState {p q : Replica} (h : q.liveState = p.liveState) : ExecGrows p q :=
  ⟨fun _ _ hp _ => h ▸ hp, fun _ _ hq _ => .inl (h ▸ hq)⟩

theorem hasExecuted {p q : Replica} (h : ExecGrows p q) {e : InstanceID}
    (he : p.hasExecuted e = true) : q.hasExecuted e = true := by
  obtain ⟨is, hl, hs⟩ := (hasExecuted_iff p e).mp he
  exact (hasExecuted_iff q e).mpr ⟨is, h.1 e is hl hs, hs⟩

theorem trans {p q r : Replica} (h₁ : ExecGrows p q) (h₂ : ExecGrows q r) : ExecGrows p r := by
  refine ⟨fun d is hp hs => h₂.1 d is (h₁.1 d is hp hs) hs, fun d is hr hs => ?_⟩
  rcases h₂.2 d is hr hs with hq | hdeps
  · rcases h₁.2 d is hq hs with hp | hdeps
    · exact .inl hp
    · exact .inr fun e he => h₂.hasExecuted (hdeps e he)
  · exact .inr hdeps

/-- A change of one instance that is executed neither before nor after. -/
theorem of_single {p q : Replica} (d : InstanceID)
    (hother : ∀ e, e ≠ d → q.liveState e = p.liveState e)
    (hp : ∀ is, p.liveState d = some is → is.status ≠ .executed)
    (hq : ∀ is, q.liveState d = some is → is.status ≠ .executed) : ExecGrows p q := by
  refine ⟨fun e is he hs => ?_, fun e is he hs => ?_⟩
  · by_cases hed : e = d
    · subst hed
      exact absurd hs (hp is he)
    · rw [hother e hed]
      exact he
  · by_cases hed : e = d
    · subst hed
      exact absurd hs (hq is he)
    · rw [hother e hed] at he
      exact .inl he

end ExecGrows

theorem ExecClosed.of_grows {p q : Replica} (hp : ExecClosed p) (h : ExecGrows p q) :
    ExecClosed q := by
  intro d is hq hs e he
  rcases h.2 d is hq hs with hp' | hdeps
  · exact h.hasExecuted (hp d is hp' hs e he)
  · exact hdeps e he

/-- What `Execute` does: the committed instance `d` becomes executed and is
persisted; nothing else changes. -/
theorem execute_spec {p q : Replica} {d : InstanceID} (h : p.execute d = some q) :
    ∃ is, p.liveState d = some is ∧ is.status = .committed ∧
      q.liveState d = some { is with status := .executed } ∧
      q.storedState d = q.liveState d ∧
      ∀ e, e ≠ d → q.liveState e = p.liveState e ∧ q.storedState e = p.storedState e := by
  unfold execute at h
  simp only [Option.bind_eq_bind, Option.bind_eq_some_iff, Option.some.injEq] at h
  obtain ⟨inst, hinst, u, hguard, p', hdeliver, rfl⟩ := h
  have hst : inst.is.status = .committed := by
    cases hs : inst.is.status <;> simp [hs, stateTransitions] at hguard ⊢
  -- delivering the command touches neither the instances nor the storage
  obtain ⟨_, hp'⟩ := deliverExecuted_eq hdeliver
  have hlive' : p'.liveState = (p.setStatus d .executed).liveState := by rw [hp']; rfl
  have hstorage' : p'.storage = p.storage := by
    rw [hp']
    exact storage_setStatus p d _
  have hlive : (p'.persist d).liveState = p'.liveState :=
    liveState_eq_of_getInstance (getInstance_persist _ d)
  have hd : p'.liveState d = some { inst.is with status := .executed } := by
    rw [hlive', liveState_setStatus, if_pos rfl, liveState, hinst]
    rfl
  refine ⟨inst.is, by rw [liveState, hinst]; rfl, hst, ?_, ?_, fun e he => ⟨?_, ?_⟩⟩
  · rw [hlive, hd]
  · rw [hlive, hd]
    exact storedState_persist_self _ hd
  · rw [hlive, hlive', liveState_setStatus, if_neg he]
  · rw [storedState_persist_of_ne _ he]
    exact storedState_congr hstorage' (by rw [hlive', liveState_setStatus, if_neg he])

theorem execute_msgs {p q : Replica} {d : InstanceID} (h : p.execute d = some q) :
    q.msgs = p.msgs := by
  unfold execute at h
  simp only [Option.bind_eq_bind, Option.bind_eq_some_iff, Option.some.injEq] at h
  obtain ⟨inst, -, u, -, p', hdeliver, rfl⟩ := h
  obtain ⟨_, rfl⟩ := deliverExecuted_eq hdeliver
  rw [msgs_persist]
  exact msgs_setStatus p d _

/-- Executing a list of instances in turn: each is executed and persisted, the
others are untouched. -/
theorem foldlM_execute_spec :
    ∀ (done : List InstanceID) (p q : Replica), done.foldlM execute p = some q →
      (∀ e, e ∉ done → q.liveState e = p.liveState e ∧ q.storedState e = p.storedState e) ∧
      (∀ e ∈ done, ∃ is, p.liveState e = some is ∧ is.status = .committed ∧
        q.liveState e = some { is with status := .executed } ∧ q.storedState e = q.liveState e)
  | [], p, q, h => by
    simp only [List.foldlM_nil, Option.pure_def, Option.some.injEq] at h
    subst h
    exact ⟨fun _ _ => ⟨rfl, rfl⟩, fun _ he => absurd he List.not_mem_nil⟩
  | d :: ds, p, q, h => by
    rw [List.foldlM_cons, Option.bind_eq_bind, Option.bind_eq_some_iff] at h
    obtain ⟨p', hp', hrest⟩ := h
    obtain ⟨is, hd, hc, hlive, hstored, hother⟩ := execute_spec hp'
    obtain ⟨hout, hin⟩ := foldlM_execute_spec ds p' q hrest
    refine ⟨fun e he => ?_, fun e he => ?_⟩
    · have hed : e ≠ d := fun h => he (h ▸ List.mem_cons_self)
      have h₁ := hout e fun h => he (List.mem_cons_of_mem _ h)
      rw [h₁.1, h₁.2]
      exact hother e hed
    · by_cases hed : e = d
      · subst hed
        by_cases hds : e ∈ ds
        · -- executing it again would need it committed
          obtain ⟨is', h', hc', -⟩ := hin e hds
          rw [hlive, Option.some.injEq] at h'
          rw [← h'] at hc'
          cases hc'
        · obtain ⟨hl, hs⟩ := hout e hds
          exact ⟨is, hd, hc, by rw [hl, hlive], by rw [hl, hs, hstored]⟩
      · obtain ⟨is', h', hq⟩ := hin e (List.mem_of_ne_of_mem hed he)
        rw [(hother e hed).1] at h'
        exact ⟨is', h', hq⟩

/-- What `prepareToExecute` does: it executes a set of instances closed under
dependencies up to the history, and persists each of them. -/
theorem prepareToExecute_spec {order : MapOrder InstanceID} {p q : Replica} {d : InstanceID}
    (h : p.prepareToExecute order d = some q) :
    ∃ done : List InstanceID, RunClosed p.depsOf p.hasExecuted done ∧
      (∀ e, e ∉ done → q.liveState e = p.liveState e ∧ q.storedState e = p.storedState e) ∧
      (∀ e ∈ done, ∃ is, p.liveState e = some is ∧ is.status = .committed ∧
        q.liveState e = some { is with status := .executed } ∧ q.storedState e = q.liveState e) := by
  unfold prepareToExecute at h
  simp only [Option.bind_eq_bind, Option.bind_eq_some_iff] at h
  obtain ⟨inst, -, u, -, hfold⟩ := h
  set r := run p.depsOf p.executesBefore p.hasExecuted order (addExec p.vertices d)
  -- the vertex update leaves the instance states and the storage alone
  exact ⟨r.2, run_closed _ _ _ _ _, foldlM_execute_spec r.2 { p with vertices := r.1 } q hfold⟩

theorem prepareToExecute_msgs {order : MapOrder InstanceID} {p q : Replica} {d : InstanceID}
    (h : p.prepareToExecute order d = some q) : q.msgs = p.msgs := by
  unfold prepareToExecute at h
  simp only [Option.bind_eq_bind, Option.bind_eq_some_iff] at h
  obtain ⟨inst, -, u, -, hfold⟩ := h
  exact OptionFold.foldlM_rel _ (fun a b => b.msgs = a.msgs) (fun _ => rfl)
    (fun _ _ _ h₁ h₂ => by exact h₂.trans h₁) (fun _ _ _ => execute_msgs) _ _ _ hfold

/-- The run in `prepareToExecute` only executes closed sets. -/
theorem execGrows_prepareToExecute {order : MapOrder InstanceID} {p q : Replica}
    {d : InstanceID} (h : p.prepareToExecute order d = some q) : ExecGrows p q := by
  obtain ⟨done, hclosed, hout, hin⟩ := prepareToExecute_spec h
  have hgrow₁ : ∀ e is, p.liveState e = some is → is.status = .executed →
      q.liveState e = some is := by
    intro e is he hs
    by_cases hmem : e ∈ done
    · obtain ⟨is', he', -, hq, -⟩ := hin e hmem
      rw [he, Option.some.injEq] at he'
      subst he'
      rw [hq, ← hs]
    · rw [(hout e hmem).1, he]
  refine ⟨hgrow₁, fun e is he hs => ?_⟩
  by_cases hmem : e ∈ done
  · obtain ⟨is', he', -, hq, -⟩ := hin e hmem
    rw [he, Option.some.injEq] at hq
    subst hq
    refine .inr fun e' hdep => ?_
    rcases hclosed e hmem e' (by rwa [depsOf_eq he']) with hd | hh
    · obtain ⟨is'', -, -, h₂, -⟩ := hin e' hd
      exact (hasExecuted_iff q e').mpr ⟨_, h₂, rfl⟩
    · obtain ⟨is'', h₁, h₂⟩ := (hasExecuted_iff p e').mp hh
      exact (hasExecuted_iff q e').mpr ⟨is'', hgrow₁ e' is'' h₁ h₂, h₂⟩
  · rw [(hout e hmem).1] at he
    exact .inl he

theorem Act.execGrows {p q : Replica} (h : Act p q) : ExecGrows p q := by
  cases h with
  | frame _ _ hl => exact .of_liveState hl
  | execute order d h => exact execGrows_prepareToExecute h

theorem Acts.execGrows {p q : Replica} (h : Acts p q) : ExecGrows p q := by
  induction h with
  | refl => exact .refl p
  | tail _ hstep ih => exact ih.trans hstep.execGrows

/-- Setting the status of an instance that is not decided to one other than
`Executed`. -/
theorem ExecGrows.setStatus {p : Replica} {d : InstanceID} {s : Status}
    (hp : ∀ is, p.liveState d = some is → is.status.decided = false) (hs : s ≠ .executed) :
    ExecGrows p (p.setStatus d s) := by
  refine .of_single d (fun e he => ?_) (fun is h => Status.ne_executed (hp is h)) (fun is h => ?_)
  · rw [liveState_setStatus, if_neg he]
  · rw [liveState_setStatus, if_pos rfl] at h
    obtain ⟨is', -, rfl⟩ := Option.map_eq_some_iff.mp h
    exact hs

theorem Prim.execGrows {inc : Option Message} {p q : Replica} (h : Prim inc p q) :
    ExecGrows p q := by
  cases h with
  | act h => exact h.execGrows
  | update d _ _ _ hother hp hq =>
    exact .of_single d hother (fun is h => Status.ne_executed (hp is h))
      fun is h => Status.ne_executed (hq is h).1
  | commit d c _ _ _ _ _ hother hp hq _ _ hexec =>
    obtain ⟨order, hexec⟩ := hexec
    refine (ExecGrows.of_single d hother (fun is h => Status.ne_executed (hp is h))
      fun is h => ?_).trans (execGrows_prepareToExecute hexec)
    rw [hq, Option.some.injEq] at h
    rw [← h]
    exact nofun
  | @transition p' d s hd hs _ hacts =>
    obtain ⟨is, hd, hund⟩ := hd
    have h₁ : ExecGrows p (p.setStatus d s) := .setStatus (fun is' h => by
      rw [hd, Option.some.injEq] at h
      exact h ▸ hund) hs
    exact (h₁.trans hacts.execGrows).trans
      (.of_liveState (liveState_eq_of_getInstance (getInstance_persist p' d)))

theorem Prims.execGrows {inc : Option Message} {p q : Replica} (h : Prims inc p q) :
    ExecGrows p q := by
  induction h with
  | refl => exact .refl p
  | tail _ hstep ih => exact ih.trans hstep.execGrows

/-- A change that keeps the storage can show a stored state only through a live
pointer. -/
theorem storedState_of_storage {p q : Replica} {d : InstanceID} {is : InstanceState}
    (hs : q.storage = p.storage) (h : q.storedState d = some is) :
    p.storedState d = some is ∨ q.liveState d = some is := by
  unfold storedState at h ⊢
  rw [hs] at h
  cases hl : p.storage.lookup d with
  | none => rw [hl] at h; cases h
  | some st =>
    rw [hl, Option.bind_some] at h
    rw [Option.bind_some]
    cases st with
    | copy is' => exact .inl h
    | live => exact .inr h

/-- Storage holds every executed instance exactly as the replica does; it holds
an executed state only where the replica does, or for an instance of `pending`
that is still to be loaded; and every stored state carries its own id. -/
structure StoreExec (pending : List InstanceID) (p : Replica) : Prop where
  ids : ∀ d is, p.storedState d = some is → is.instanceID = d
  stored : ∀ d is, p.liveState d = some is → is.status = .executed → p.storedState d = some is
  live : ∀ d is, p.storedState d = some is → is.status = .executed →
    p.liveState d = some is ∨ d ∈ pending

namespace StoreExec

variable {pending : List InstanceID} {p q : Replica}

/-- A change of some instances that persists each of them. -/
theorem of_persisted (h : StoreExec pending p) (changed : List InstanceID)
    (hout : ∀ e, e ∉ changed → q.liveState e = p.liveState e ∧ q.storedState e = p.storedState e)
    (hin : ∀ e ∈ changed, q.storedState e = q.liveState e) : StoreExec pending q := by
  refine ⟨fun d is hd => ?_, fun d is hd hs => ?_, fun d is hd hs => ?_⟩
  · by_cases hc : d ∈ changed
    · rw [hin d hc] at hd
      exact liveState_id hd
    · rw [(hout d hc).2] at hd
      exact h.ids d is hd
  · by_cases hc : d ∈ changed
    · rw [hin d hc, hd]
    · rw [(hout d hc).1] at hd
      rw [(hout d hc).2]
      exact h.stored d is hd hs
  · by_cases hc : d ∈ changed
    · rw [hin d hc] at hd
      exact .inl hd
    · rw [(hout d hc).2] at hd
      rw [(hout d hc).1]
      exact h.live d is hd hs

/-- A change of one instance, in memory only, between states that are not
`Executed`. -/
theorem of_update (h : StoreExec pending p) (d : InstanceID)
    (hother : ∀ e, e ≠ d → q.liveState e = p.liveState e)
    (hp : ∀ is, p.liveState d = some is → is.status ≠ .executed)
    (hq : ∀ is, q.liveState d = some is → is.status ≠ .executed)
    (hs : q.storage = p.storage) : StoreExec pending q := by
  have hout : ∀ e, e ≠ d → q.liveState e = p.liveState e ∧ q.storedState e = p.storedState e :=
    fun e he => ⟨hother e he, storedState_congr hs (hother e he)⟩
  refine ⟨fun e is he => ?_, fun e is he hst => ?_, fun e is he hst => ?_⟩
  · by_cases hed : e = d
    · subst hed
      rcases storedState_of_storage hs he with hp' | hq'
      · exact h.ids e is hp'
      · exact liveState_id hq'
    · rw [(hout e hed).2] at he
      exact h.ids e is he
  · by_cases hed : e = d
    · exact absurd hst (hq is (hed ▸ he))
    · rw [(hout e hed).1] at he
      rw [(hout e hed).2]
      exact h.stored e is he hst
  · by_cases hed : e = d
    · subst hed
      rcases storedState_of_storage hs he with hp' | hq'
      · -- an executed copy of `d` is one still to be loaded
        rcases h.live e is hp' hst with hl | hpend
        · exact absurd hst (hp is hl)
        · exact .inr hpend
      · exact .inl hq'
    · rw [(hout e hed).2] at he
      rw [(hout e hed).1]
      exact h.live e is he hst

/-- `persist` stores the live state of one instance. -/
theorem persist (h : StoreExec pending p) (d : InstanceID) : StoreExec pending (p.persist d) := by
  cases hi : p.getInstance d with
  | none => rwa [persist_of_none p hi]
  | some inst =>
    have hl : (p.persist d).liveState = p.liveState :=
      liveState_eq_of_getInstance (getInstance_persist p d)
    have hd : p.liveState d = some inst.is := by rw [liveState, hi]; rfl
    refine h.of_persisted [d] (fun e he => ⟨congrFun hl e, ?_⟩) (fun e he => ?_)
    · exact storedState_persist_of_ne p (fun h => he (h ▸ List.mem_singleton_self d))
    · rw [List.mem_singleton.mp he, hl, hd]
      exact storedState_persist_self p hd

end StoreExec

theorem Act.storeExec {pending : List InstanceID} {p q : Replica} (h : Act p q)
    (hp : StoreExec pending p) : StoreExec pending q := by
  cases h with
  | frame _ _ hl hs =>
    exact hp.of_persisted [] (fun e _ => ⟨congrFun hl e, storedState_congr hs (congrFun hl e)⟩)
      (fun _ he => absurd he List.not_mem_nil)
  | execute order d h =>
    obtain ⟨done, -, hout, hin⟩ := prepareToExecute_spec h
    refine hp.of_persisted done hout fun e he => ?_
    obtain ⟨_, -, -, -, hstored⟩ := hin e he
    exact hstored

theorem Acts.storeExec {pending : List InstanceID} {p q : Replica} (h : Acts p q)
    (hp : StoreExec pending p) : StoreExec pending q := by
  induction h with
  | refl => exact hp
  | tail _ hstep ih => exact hstep.storeExec ih

theorem Prim.storeExec {inc : Option Message} {pending : List InstanceID} {p q : Replica}
    (h : Prim inc p q) (hp : StoreExec pending p) : StoreExec pending q := by
  cases h with
  | act h => exact h.storeExec hp
  | update d _ _ hs hother hp' hq =>
    exact hp.of_update d hother (fun is h => Status.ne_executed (hp' is h))
      (fun is h => Status.ne_executed (hq is h).1) hs
  | commit d c _ _ _ _ hs hother hp' hq _ _ hexec =>
    obtain ⟨order, hexec⟩ := hexec
    refine (Act.execute order d hexec).storeExec (hp.of_update d hother
      (fun is h => Status.ne_executed (hp' is h)) (fun is h => ?_) hs)
    rw [hq, Option.some.injEq] at h
    rw [← h]
    exact nofun
  | @transition p' d s hd hs _ hacts =>
    obtain ⟨is, hd, hund⟩ := hd
    have h₁ : StoreExec pending (p.setStatus d s) := by
      refine hp.of_update d (fun e he => ?_) (fun is' h => ?_) (fun is' h => ?_)
        (storage_setStatus p d s)
      · rw [liveState_setStatus, if_neg he]
      · rw [hd, Option.some.injEq] at h
        exact h ▸ Status.ne_executed hund
      · rw [liveState_setStatus, if_pos rfl] at h
        obtain ⟨is', -, rfl⟩ := Option.map_eq_some_iff.mp h
        exact hs
    exact (hacts.storeExec h₁).persist d

theorem Prims.storeExec {inc : Option Message} {pending : List InstanceID} {p q : Replica}
    (h : Prims inc p q) (hp : StoreExec pending p) : StoreExec pending q := by
  induction h with
  | refl => exact hp
  | tail _ hstep ih => exact hstep.storeExec ih

end Replica

end EPaxos
