import EPaxos.Durability

/-!
# Agreement on committed attributes

An instance is decided at a replica once it is `Committed` or `Executed`. The
command leader decides its own instances through `transitionTo`, and sends
`Commit`s with the attributes it decided; any other replica decides an
instance only from such a `Commit` (`onCommit`), and a decided instance keeps
its attributes. So every decided copy of an instance, in memory, in storage or
in a `Commit` in flight, carries the attributes the command leader holds it
decided with (`Network.Agreement`). A restart reloads the leader's decided
instances, since it stored them (`Durable`), and reloads nothing decided that
was not decided before.

Over whole runs, with restarts and either storage, any two replicas that hold
an instance decided, at any two points of a run, hold the same command,
sequence number and dependencies for it (`committed_attributes_agree`).
-/
namespace EPaxos

theorem Status.decided_eq_true {s : Status} (h : s = .committed ∨ s = .executed) :
    s.decided = true := by
  rcases h with rfl | rfl <;> rfl

namespace Replica

/-- `q` holds what `p` holds, up to instances committed at `p` that `q` has
executed: what an action does to the instance states. -/
def Executes (p q : Replica) : Prop :=
  ∀ d, q.liveState d = p.liveState d ∨ ∃ is, p.liveState d = some is ∧
    is.status = .committed ∧ q.liveState d = some { is with status := .executed }

namespace Executes

theorem refl (p : Replica) : Executes p p := fun _ => .inl rfl

theorem trans {p q r : Replica} (h₁ : Executes p q) (h₂ : Executes q r) : Executes p r := by
  intro d
  rcases h₂ d with h₂ | ⟨is, hq, hc, hr⟩
  · rcases h₁ d with h₁ | h₁
    · exact .inl (h₂.trans h₁)
    · rw [h₂]
      exact .inr h₁
  · rcases h₁ d with h₁ | ⟨is₀, hp, -, hq₀⟩
    · rw [h₁] at hq
      exact .inr ⟨is, hq, hc, hr⟩
    · -- an executed instance is not committed again
      rw [hq₀, Option.some.injEq] at hq
      rw [← hq] at hc
      cases hc

/-- Both states of an instance, before and after, carry the same attributes,
and a decided one stays decided. -/
theorem attrs {p q : Replica} (h : Executes p q) {d : InstanceID} {is : InstanceState}
    (hp : p.liveState d = some is) :
    ∃ is', q.liveState d = some is' ∧ is'.attrs = is.attrs ∧
      (is.status.decided = true → is'.status.decided = true) := by
  rcases h d with hq | ⟨is₀, hp₀, -, hq⟩
  · exact ⟨is, hq.trans hp, rfl, fun h => h⟩
  · rw [hp, Option.some.injEq] at hp₀
    subst hp₀
    exact ⟨_, hq, rfl, fun _ => rfl⟩

theorem attrs_symm {p q : Replica} (h : Executes p q) {d : InstanceID} {is' : InstanceState}
    (hq : q.liveState d = some is') :
    ∃ is, p.liveState d = some is ∧ is'.attrs = is.attrs ∧
      (is'.status.decided = true → is.status.decided = true) := by
  rcases h d with h | ⟨is, hp, hc, hq'⟩
  · exact ⟨is', h ▸ hq, rfl, fun h => h⟩
  · rw [hq', Option.some.injEq] at hq
    subst hq
    exact ⟨is, hp, rfl, fun _ => by rw [hc]; rfl⟩

end Executes

theorem Act.executes {p q : Replica} (h : Act p q) : Executes p q := by
  cases h with
  | frame _ _ hl => exact fun d => .inl (congrFun hl d)
  | execute order d h =>
    obtain ⟨done, -, hout, hin⟩ := prepareToExecute_spec h
    intro e
    by_cases he : e ∈ done
    · obtain ⟨is, hp, hc, hq, -⟩ := hin e he
      exact .inr ⟨is, hp, hc, hq⟩
    · exact .inl (hout e he).1

theorem Acts.executes {p q : Replica} (h : Acts p q) : Executes p q := by
  induction h with
  | refl => exact .refl p
  | tail _ hstep ih => exact ih.trans hstep.executes

/-- A decided instance stays decided, with its attributes. -/
def Keeps (p q : Replica) : Prop :=
  ∀ d is, p.liveState d = some is → is.status.decided = true →
    ∃ is', q.liveState d = some is' ∧ is'.status.decided = true ∧ is'.attrs = is.attrs

namespace Keeps

theorem refl (p : Replica) : Keeps p p := fun _ is h hd => ⟨is, h, hd, rfl⟩

theorem trans {p q r : Replica} (h₁ : Keeps p q) (h₂ : Keeps q r) : Keeps p r := by
  intro d is hp hd
  obtain ⟨is₁, hq, hd₁, ha₁⟩ := h₁ d is hp hd
  obtain ⟨is₂, hr, hd₂, ha₂⟩ := h₂ d is₁ hq hd₁
  exact ⟨is₂, hr, hd₂, ha₂.trans ha₁⟩

theorem of_liveState {p q : Replica} (h : q.liveState = p.liveState) : Keeps p q :=
  fun _ is hp hd => ⟨is, h ▸ hp, hd, rfl⟩

theorem of_executes {p q : Replica} (h : Executes p q) : Keeps p q := by
  intro d is hp hd
  obtain ⟨is', hq, ha, hd'⟩ := h.attrs hp
  exact ⟨is', hq, hd' hd, ha⟩

/-- A change of one instance that is not decided before. -/
theorem of_single {p q : Replica} (d : InstanceID)
    (hother : ∀ e, e ≠ d → q.liveState e = p.liveState e)
    (hp : ∀ is, p.liveState d = some is → is.status.decided = false) : Keeps p q := by
  intro e is he hd
  have hed : e ≠ d := by
    rintro rfl
    rw [hp is he] at hd
    cases hd
  exact ⟨is, (hother e hed).trans he, hd, rfl⟩

end Keeps

theorem Prim.keeps {inc : Option Message} {p q : Replica} (h : Prim inc p q) : Keeps p q := by
  cases h with
  | act h => exact .of_executes h.executes
  | update d _ _ _ hother hp => exact .of_single d hother hp
  | commit d c _ _ _ _ _ hother hp _ _ _ hexec =>
    obtain ⟨order, hexec⟩ := hexec
    exact (Keeps.of_single d hother hp).trans (.of_executes (Act.execute order d hexec).executes)
  | @transition p' d s hd _ _ hacts =>
    obtain ⟨is, hd, hund⟩ := hd
    have h₁ : Keeps p (p.setStatus d s) := .of_single d (fun e he => by
      rw [liveState_setStatus, if_neg he]) fun is' h => by
      rw [hd, Option.some.injEq] at h
      exact h ▸ hund
    exact (h₁.trans (.of_executes hacts.executes)).trans
      (.of_liveState (liveState_eq_of_getInstance (getInstance_persist p' d)))

theorem Prims.keeps {inc : Option Message} {p q : Replica} (h : Prims inc p q) : Keeps p q := by
  induction h with
  | refl => exact .refl p
  | tail _ hstep ih => exact ih.trans hstep.keeps

/-- Every decided state the replica holds, in memory or in storage, and every
`Commit` in its outbox carries attributes that `D` allows. -/
structure Agrees (D : InstanceID → InstanceData → Prop) (p : Replica) : Prop where
  live : ∀ d is, p.liveState d = some is → is.status.decided = true → D d is.attrs
  stored : ∀ d is, p.storedState d = some is → is.status.decided = true → D d is.attrs
  sent : ∀ m ∈ p.msgs, ∀ c, m.msgType = .commit c → D m.instanceID c

namespace Agrees

variable {D : InstanceID → InstanceData → Prop} {p q : Replica}

theorem mono {D' : InstanceID → InstanceData → Prop} (h : Agrees D p)
    (hD : ∀ d c, D d c → D' d c) : Agrees D' p :=
  ⟨fun d is hl hd => hD _ _ (h.live d is hl hd), fun d is hs hd => hD _ _ (h.stored d is hs hd),
    fun m hm c hc => hD _ _ (h.sent m hm c hc)⟩

/-- A change in memory only: a stored state shows a new decided state only
through a live pointer. -/
theorem of_storage (h : Agrees D p) (hs : q.storage = p.storage) (hm : q.msgs = p.msgs)
    (hlive : ∀ d is, q.liveState d = some is → is.status.decided = true → D d is.attrs) :
    Agrees D q := by
  refine ⟨hlive, fun d is hd hdec => ?_, fun m hmem => h.sent m (hm ▸ hmem)⟩
  rcases storedState_of_storage hs hd with hp | hq
  · exact h.stored d is hp hdec
  · exact hlive d is hq hdec

theorem persist (h : Agrees D p) (d : InstanceID) : Agrees D (p.persist d) := by
  have hl : (p.persist d).liveState = p.liveState :=
    liveState_eq_of_getInstance (getInstance_persist p d)
  refine ⟨fun e is he => h.live e is (hl ▸ he), fun e is he hdec => ?_,
    fun m hm => h.sent m (msgs_persist p d ▸ hm)⟩
  by_cases hed : e = d
  · subst hed
    cases hi : p.getInstance e with
    | none => exact h.stored e is (by rwa [persist_of_none p hi] at he) hdec
    | some inst =>
      have hd : p.liveState e = some inst.is := by rw [liveState, hi]; rfl
      rw [storedState_persist_self p hd, Option.some.injEq] at he
      exact h.live e is (he ▸ hd) hdec
  · rw [storedState_persist_of_ne p hed] at he
    exact h.stored e is he hdec

end Agrees

theorem Act.agrees {D : InstanceID → InstanceData → Prop} {p q : Replica} (h : Act p q)
    (hp : Agrees D p) : Agrees D q := by
  cases h with
  | frame ms _ hl hs hm hsent =>
    refine ⟨fun d is hd => hp.live d is (hl ▸ hd),
      fun d is hd => hp.stored d is (storedState_congr hs (congrFun hl d) ▸ hd),
      fun m hmem c hc => ?_⟩
    rw [hm, List.mem_append] at hmem
    rcases hmem with hmem | hmem
    · exact hp.sent m hmem c hc
    · -- a `Commit` carries the attributes its sender holds committed
      obtain ⟨-, is, hlive, hcom, rfl⟩ := hsent m hmem c hc
      exact hp.live _ is hlive (by rw [hcom]; rfl)
  | execute order d h =>
    obtain ⟨done, -, hout, hin⟩ := prepareToExecute_spec h
    have hlive : ∀ e is, q.liveState e = some is → is.status.decided = true → D e is.attrs := by
      intro e is he hdec
      by_cases hmem : e ∈ done
      · obtain ⟨is₀, hp₀, hc, hq, -⟩ := hin e hmem
        rw [hq, Option.some.injEq] at he
        subst he
        exact hp.live e is₀ hp₀ (by rw [hc]; rfl)
      · exact hp.live e is ((hout e hmem).1 ▸ he) hdec
    refine ⟨hlive, fun e is he hdec => ?_, fun m hm => hp.sent m (prepareToExecute_msgs h ▸ hm)⟩
    by_cases hmem : e ∈ done
    · obtain ⟨_, -, -, -, hstored⟩ := hin e hmem
      exact hlive e is (hstored ▸ he) hdec
    · exact hp.stored e is ((hout e hmem).2 ▸ he) hdec

theorem Acts.agrees {D : InstanceID → InstanceData → Prop} {p q : Replica} (h : Acts p q)
    (hp : Agrees D p) : Agrees D q := by
  induction h with
  | refl => exact hp
  | tail _ hstep ih => exact hstep.agrees ih

/-- One update of a call keeps the agreement with `D`, given that the `Commit`
the call handles agrees with `D`, and that what the replica ends the call
holding decided in its own space agrees with `D`. -/
theorem Prim.agrees {D : InstanceID → InstanceData → Prop} {inc : Option Message}
    {p q : Replica} (h : Prim inc p q) (hp : Agrees D p)
    (hinc : ∀ m, inc = some m → ∀ c, m.msgType = .commit c → D m.instanceID c)
    (hown : ∀ d is, d.replicaID = q.id → q.liveState d = some is →
      is.status.decided = true → D d is.attrs) : Agrees D q := by
  cases h with
  | act h => exact h.agrees hp
  | update d _ hm hs hother _ hq =>
    refine hp.of_storage hs hm fun e is he hdec => ?_
    by_cases hed : e = d
    · subst hed
      rw [(hq is he).1] at hdec
      cases hdec
    · exact hp.live e is ((hother e hed) ▸ he) hdec
  | commit d c hcommit _ _ hm hs hother _ hq _ _ hexec =>
    obtain ⟨order, hexec⟩ := hexec
    obtain ⟨m, hm', hmid, hmt⟩ := hcommit
    refine (Act.execute order d hexec).agrees (hp.of_storage hs hm fun e is he hdec => ?_)
    by_cases hed : e = d
    · subst hed
      rw [hq, Option.some.injEq] at he
      subst he
      exact hmid ▸ hinc m hm' c hmt
    · exact hp.live e is ((hother e hed) ▸ he) hdec
  | @transition p' d s _ _ hlead hacts =>
    have hkeep : Keeps (p.setStatus d s) (p'.persist d) :=
      (Keeps.of_executes hacts.executes).trans
        (.of_liveState (liveState_eq_of_getInstance (getInstance_persist p' d)))
    have hid : (p'.persist d).id = p.id :=
      (id_persist p' d).trans (hacts.id_eq.trans (id_setStatus p d s))
    -- the status change is made at the command leader of `d`, which keeps it
    have h₁ : Agrees D (p.setStatus d s) := by
      refine hp.of_storage (storage_setStatus p d s) (msgs_setStatus p d s)
        fun e is' he hdec => ?_
      by_cases hed : e = d
      · subst hed
        obtain ⟨is'', hq, hdec'', ha⟩ := hkeep e is' he hdec
        exact ha ▸ hown e is'' (by rw [hid]; exact hlead) hq hdec''
      · rw [liveState_setStatus, if_neg hed] at he
        exact hp.live e is' he hdec
    exact (hacts.agrees h₁).persist d

theorem Prims.agrees {D : InstanceID → InstanceData → Prop} {inc : Option Message}
    {p q : Replica} (h : Prims inc p q) (hp : Agrees D p)
    (hinc : ∀ m, inc = some m → ∀ c, m.msgType = .commit c → D m.instanceID c)
    (hown : ∀ d is, d.replicaID = q.id → q.liveState d = some is →
      is.status.decided = true → D d is.attrs) : Agrees D q := by
  induction h using Relation.ReflTransGen.head_induction_on with
  | refl => exact hp
  | head hstep hrest ih =>
    refine ih (hstep.agrees hp hinc fun d is hd hl hdec => ?_)
    -- what the rest of the call keeps decided, the call ends with
    obtain ⟨is', hq, hdec', ha⟩ := Prims.keeps hrest d is hl hdec
    exact ha ▸ hown d is' (hd.trans (Prims.id_eq hrest).symm) hq hdec'

/-- The states `Instances()` returns at a restart are the stored states of the
stopped replica. -/
theorem mem_resolve_freeze {p : Replica} {is : InstanceState} :
    is ∈ (p.storage.freeze p.liveState).resolve (fun _ => none) ↔
      ∃ d, p.storedState d = some is := by
  rw [Storage.mem_resolve]
  constructor
  · rintro ⟨d, st, hd, hst⟩
    rw [Storage.lookup_freeze] at hd
    obtain ⟨x, hx, rfl⟩ := Option.map_eq_some_iff.mp hd
    rw [Stored.resolve, Option.some.injEq] at hst
    exact ⟨d, hst ▸ hx⟩
  · rintro ⟨d, hd⟩
    refine ⟨d, .copy is, ?_, rfl⟩
    rw [Storage.lookup_freeze]
    exact congrArg (Option.map Stored.copy) hd

/-- The loading loop of a restart from the states `L` that `Instances()`
returned, with `rest` still to load: what the replica holds agrees with `D`,
and every state loaded is held with its attributes, decided if it was. -/
structure ReloadInv (D : InstanceID → InstanceData → Prop) (L rest : List InstanceState)
    (q : Replica) : Prop where
  agrees : q.Agrees D
  sub : ∀ is ∈ rest, is ∈ L
  loaded : ∀ is ∈ L, is ∉ rest → ∃ is', q.liveState is.instanceID = some is' ∧
    is'.attrs = is.attrs ∧ (is.status.decided = true → is'.status.decided = true)

theorem ReloadInv.loadInstance {D : InstanceID → InstanceData → Prop}
    {L rest : List InstanceState} {order : MapOrder InstanceID} {is : InstanceState}
    {q q' : Replica} (hL : ∀ is ∈ L, is.status.decided = true → D is.instanceID is.attrs)
    (hl : LoadInv (is :: rest) q) (h : ReloadInv D L (is :: rest) q)
    (hq : q.loadInstance order is = some q') : ReloadInv D L rest q' := by
  set q₁ := q.setInstance (Instance.ofState is)
  have hl₁ : ∀ e, q₁.liveState e = if is.instanceID = e then some is else q.liveState e :=
    liveState_setInstance q _
  have habs := hl.absent is List.mem_cons_self
  have hacts := acts_loadInstance hq
  -- the loaded state agrees, since the stopped replica stored it
  have h₁ : q₁.Agrees D := by
    refine h.agrees.of_storage (storage_setInstance q _) (msgs_setInstance q _)
      fun e x he hdec => ?_
    rw [hl₁] at he
    split_ifs at he with hid
    · subst hid
      rw [Option.some.injEq] at he
      subst he
      exact hL is (h.sub is List.mem_cons_self) hdec
    · exact h.agrees.live e x he hdec
  refine ⟨hacts.agrees h₁, fun is' his' => h.sub is' (List.mem_cons_of_mem _ his'),
    fun is' his' hrest => ?_⟩
  -- `is'` is `is`, or was loaded before at another id, which is held
  have hloaded : ∃ x, q₁.liveState is'.instanceID = some x ∧ x.attrs = is'.attrs ∧
      (is'.status.decided = true → x.status.decided = true) := by
    by_cases heq : is' = is
    · subst heq
      exact ⟨is', by rw [hl₁, if_pos rfl], rfl, fun h => h⟩
    · obtain ⟨x, hx, ha, hd⟩ :=
        h.loaded is' his' fun hm => (List.mem_cons.mp hm).elim heq hrest
      have hne : is.instanceID ≠ is'.instanceID := fun h => by
        rw [h, hx] at habs
        cases habs
      exact ⟨x, by rw [hl₁, if_neg hne]; exact hx, ha, hd⟩
  obtain ⟨x, hx, ha, hd⟩ := hloaded
  obtain ⟨y, hy, ha', hd'⟩ := hacts.executes.attrs hx
  exact ⟨y, hy, ha'.trans ha, fun h => hd' (hd h)⟩

end Replica

namespace Network

open Replica

/-- A replica restarted from its storage agrees with what the stopped replica
agreed with, and holds every decided state it stored, still decided and with
its attributes. -/
theorem restartReplica_agrees {order : MapOrder InstanceID} {loadOrder : MapOrder InstanceState}
    {D : InstanceID → InstanceData → Prop} {p q : Replica}
    (h : restartReplica order loadOrder p = some q) (hp : p.ExecClosed ∧ p.StoreExec [])
    (hagree : p.Agrees D) :
    q.Agrees D ∧ ∀ d is, p.storedState d = some is → is.status.decided = true →
      ∃ is', q.liveState d = some is' ∧ is'.status.decided = true ∧ is'.attrs = is.attrs := by
  obtain ⟨p₀, hlive₀, hinst₀, -, hmsgs₀, -, -, hfold⟩ := restartReplica_eq h
  set L := loadOrder.arrange ((p.storage.freeze p.liveState).resolve fun _ => none)
  have hmemL : ∀ is, is ∈ L ↔ ∃ d, p.storedState d = some is := fun is =>
    (loadOrder.perm _).mem_iff.trans mem_resolve_freeze
  have hL : ∀ is ∈ L, is.status.decided = true → D is.instanceID is.attrs := by
    intro is his hdec
    obtain ⟨d, hd⟩ := (hmemL is).mp his
    rw [hp.2.ids d is hd]
    exact hagree.stored d is hd hdec
  -- the restarted replica starts with the stopped replica's storage, as copies
  have hstored₀ : ∀ d, p₀.storedState d = p.storedState d := by
    intro d
    rw [storedState, lookup_of_freeze hinst₀]
    cases p.storedState d <;> rfl
  have hagree₀ : p₀.Agrees D := by
    refine ⟨fun d is hd => ?_, fun d is hd => hagree.stored d is (hstored₀ d ▸ hd),
      fun m hm => ?_⟩
    · rw [hlive₀] at hd
      cases hd
    · rw [hmsgs₀] at hm
      cases hm
  have hload := loadInv_freeze loadOrder hp hlive₀ hinst₀
  have hinv := OptionFold.foldlM_invariant _
    (fun rest q => LoadInv rest q ∧ ReloadInv D L rest q)
    (fun is rest q q' hq₀ hq => ⟨hq₀.1.loadInstance hq, hq₀.2.loadInstance hL hq₀.1 hq⟩)
    _ p₀ q ⟨hload, hagree₀, fun _ h => h, fun _ his hn => absurd his hn⟩ hfold
  refine ⟨hinv.2.agrees, fun d is hd hdec => ?_⟩
  obtain ⟨is', hq, ha, hd'⟩ := hinv.2.loaded is ((hmemL is).mpr ⟨d, hd⟩) List.not_mem_nil
  rw [hp.2.ids d is hd] at hq
  exact ⟨is', hq, hd' hdec, ha⟩

/-- The command leader of `d` holds `d` decided with the attributes `c`. -/
def Decided (net : Network) (d : InstanceID) (c : InstanceData) : Prop :=
  ∃ is, (net.replicas d.replicaID).liveState d = some is ∧ is.status.decided = true ∧
    is.attrs = c

theorem Decided.unique {net : Network} {d : InstanceID} {c c' : InstanceData}
    (h : net.Decided d c) (h' : net.Decided d c') : c = c' := by
  obtain ⟨is, hl, -, rfl⟩ := h
  obtain ⟨is', hl', -, rfl⟩ := h'
  rw [hl, Option.some.injEq] at hl'
  rw [hl']

/-- A replica that keeps the instances of its own space decided keeps what is
decided. -/
theorem Decided.update {net : Network} {l : List Message} {r : ℕ} {q : Replica}
    (hk : ∀ d is, d.replicaID = r → (net.replicas r).liveState d = some is →
      is.status.decided = true →
      ∃ is', q.liveState d = some is' ∧ is'.status.decided = true ∧ is'.attrs = is.attrs)
    {d : InstanceID} {c : InstanceData} (h : net.Decided d c) :
    ({ net with inFlight := l }.update r q).Decided d c := by
  obtain ⟨is, hl, hdec, rfl⟩ := h
  by_cases hr : d.replicaID = r
  · obtain ⟨is', hq, hdec', ha⟩ := hk d is hr (by rw [← hr]; exact hl) hdec
    refine ⟨is', ?_, hdec', ha⟩
    simp only [Network.update, hr, Function.update_self]
    exact hq
  · refine ⟨is, ?_, hdec, rfl⟩
    simp only [Network.update, Function.update_of_ne hr]
    exact hl

/-- A command leader vouches for what it holds decided in its own space. -/
theorem vouched_of_decided {r : ℕ} {d : InstanceID} {is : InstanceState} (hd : d.replicaID = r)
    (hdec : is.status.decided = true) : Vouched r d is := by
  cases hs : is.status <;> rw [hs] at hdec
  case committed => exact .inr ⟨hd, .inr hs⟩
  case executed => exact .inl hs
  all_goals cases hdec

/-- A restarted command leader holds its decided instances again. -/
theorem keeps_restartReplica {order : MapOrder InstanceID} {loadOrder : MapOrder InstanceState}
    {p q : Replica} (h : restartReplica order loadOrder p = some q)
    (hp : p.ExecClosed ∧ p.StoreExec []) (hdur : p.Durable []) {d : InstanceID}
    {is : InstanceState} (hd : d.replicaID = p.id) (hl : p.liveState d = some is)
    (hdec : is.status.decided = true) :
    ∃ is', q.liveState d = some is' ∧ is'.status.decided = true ∧ is'.attrs = is.attrs := by
  -- it stored them, since it vouched for them
  have hv : Vouched p.id d is := vouched_of_decided hd hdec
  have hagree : p.Agrees fun _ _ => True :=
    ⟨fun _ _ _ _ => trivial, fun _ _ _ _ => trivial, fun _ _ _ _ => trivial⟩
  exact (restartReplica_agrees h hp hagree).2 d is (hdur d is List.not_mem_nil hl hv) hdec

/-- What a command leader holds decided stays decided, with its attributes,
through every event. -/
theorem decided_step {order : MapOrder InstanceID} {loadOrder : MapOrder InstanceState}
    {e : Event} {net net' : Network} (hti : net.TimersOwn) (hsafe : net.ExecSafe)
    (hdur : net.Durable)
    (hs : step order loadOrder e net = some net') {d : InstanceID} {c : InstanceData}
    (h : net.Decided d c) : net'.Decided d c := by
  cases e with
  | request r cmd =>
    obtain ⟨q, hq, rfl⟩ := Option.map_eq_some_iff.mp hs
    exact Decided.update (l := net.inFlight) (fun d is _ => (prims_onRequest hq : Prims none _ _).keeps d is) h
  | deliver m =>
    simp only [step] at hs
    split_ifs at hs
    obtain ⟨q, hq, rfl⟩ := Option.map_eq_some_iff.mp hs
    exact Decided.update (fun d is _ => (prims_step hq).keeps d is) h
  | drop m =>
    simp only [step] at hs
    split_ifs at hs
    rw [Option.some.injEq] at hs
    exact hs ▸ h
  | tick r =>
    obtain ⟨q, hq, rfl⟩ := Option.map_eq_some_iff.mp hs
    exact Decided.update (l := net.inFlight) (fun d is _ => (prims_tick hq (hti r) : Prims none _ _).keeps d is) h
  | restart r =>
    obtain ⟨q, hq, rfl⟩ := Option.map_eq_some_iff.mp hs
    exact Decided.update (l := net.inFlight) (fun d is hd => keeps_restartReplica hq (hsafe r) (hdur r).2
      (hd.trans (hdur r).1.symm)) h

/-- Every decided state a replica holds, in memory or in storage, and every
`Commit` in flight carries the attributes its command leader decided. -/
structure Agreement (net : Network) : Prop where
  replicas : ∀ r, (net.replicas r).Agrees net.Decided
  inFlight : ∀ m ∈ net.inFlight, ∀ c, m.msgType = .commit c → net.Decided m.instanceID c

theorem agreement_init (nodes : List ℕ) (aliasing : ℕ → Bool) : (init nodes aliasing).Agreement :=
  ⟨fun _ => ⟨fun _ _ hd _ => (by cases hd), fun _ _ hd _ => (by cases hd),
    fun _ hm => (by cases hm)⟩, fun _ hm => (by cases hm)⟩

/-- After an event at replica `r`: what was decided stays decided, the other
replicas and the messages still in flight agree as before, and replica `r`
agrees with what is now decided. -/
theorem Agreement.update {net : Network} (h : net.Agreement) {l : List Message} {r : ℕ}
    {q : Replica} (hl : ∀ m ∈ l, m ∈ net.inFlight)
    (hmono : ∀ d c, net.Decided d c → ({ net with inFlight := l }.update r q).Decided d c)
    (hq : q.Agrees ({ net with inFlight := l }.update r q).Decided) :
    ({ net with inFlight := l }.update r q).Agreement := by
  refine ⟨fun r' => ?_, fun m hm c hc => ?_⟩
  · by_cases hr : r' = r
    · subst hr
      simp only [Network.update, Function.update_self]
      exact ⟨hq.live, hq.stored, fun m hm => by cases hm⟩
    · simp only [Network.update, Function.update_of_ne hr]
      exact (h.replicas r').mono hmono
  · simp only [Network.update, List.mem_append] at hm
    rcases hm with hm | hm
    · exact hmono _ _ (h.inFlight m (hl m hm) c hc)
    · exact hq.sent m hm c hc

theorem Agreement.call {net : Network} (h : net.Agreement) (hdur : net.Durable)
    {l : List Message} (hl : ∀ m ∈ l, m ∈ net.inFlight) {inc : Option Message}
    (hinc : ∀ m, inc = some m → m ∈ net.inFlight) {r : ℕ} {q : Replica}
    (hp : Prims inc (net.replicas r) q) : ({ net with inFlight := l }.update r q).Agreement := by
  have hmono : ∀ d c, net.Decided d c → ({ net with inFlight := l }.update r q).Decided d c :=
    fun d c => Decided.update fun d is _ => hp.keeps d is
  refine h.update hl hmono (hp.agrees ((h.replicas r).mono hmono)
    (fun m hm c hc => hmono _ _ (h.inFlight m (hinc m hm) c hc)) fun d is hd hq hdec => ?_)
  -- the replica is the command leader of its own instances
  have hr : d.replicaID = r := hd.trans (hp.id_eq.trans (hdur r).1)
  refine ⟨is, ?_, hdec, rfl⟩
  simp only [Network.update, hr, Function.update_self]
  exact hq

theorem agreement_step {order : MapOrder InstanceID} {loadOrder : MapOrder InstanceState}
    {e : Event} {net net' : Network} (hti : net.TimersOwn) (hsafe : net.ExecSafe)
    (hdur : net.Durable)
    (h : net.Agreement) (hs : step order loadOrder e net = some net') : net'.Agreement := by
  have hmono : ∀ d c, net.Decided d c → net'.Decided d c := fun _ _ => decided_step hti hsafe hdur hs
  cases e with
  | request r cmd =>
    obtain ⟨q, hq, rfl⟩ := Option.map_eq_some_iff.mp hs
    exact h.call hdur (l := net.inFlight) (fun _ hm => hm) (fun _ hm => by cases hm)
      (prims_onRequest hq : Prims none _ _)
  | deliver m =>
    simp only [step] at hs
    split_ifs at hs with hm
    obtain ⟨q, hq, rfl⟩ := Option.map_eq_some_iff.mp hs
    refine h.call hdur (fun _ h' => List.mem_of_mem_erase h') (fun m' hm' => ?_) (prims_step hq)
    rw [Option.some.injEq] at hm'
    exact hm' ▸ hm
  | drop m =>
    simp only [step] at hs
    split_ifs at hs
    rw [Option.some.injEq] at hs
    subst hs
    exact ⟨h.replicas, fun m' hm' => h.inFlight m' (List.mem_of_mem_erase hm')⟩
  | tick r =>
    obtain ⟨q, hq, rfl⟩ := Option.map_eq_some_iff.mp hs
    exact h.call hdur (l := net.inFlight) (fun _ hm => hm) (fun _ hm => by cases hm)
      (prims_tick hq (hti r) : Prims none _ _)
  | restart r =>
    obtain ⟨q, hq, rfl⟩ := Option.map_eq_some_iff.mp hs
    exact h.update (l := net.inFlight) (fun _ hm => hm) hmono
      ((restartReplica_agrees hq (hsafe r) (h.replicas r)).1.mono hmono)

theorem agreement_reachable {nodes : List ℕ} {aliasing : ℕ → Bool} {restarts : Bool}
    {net : Network} (h : Reachable nodes aliasing restarts net) : net.Agreement := by
  induction h with
  | refl => exact agreement_init nodes aliasing
  | tail hr hstep ih =>
    obtain ⟨e, order, loadOrder, -, hs⟩ := hstep
    exact agreement_step (timersOwn_reachable hr) (execSafe_reachable hr) (durable_reachable hr)
      ih hs

/-- What a command leader holds decided at a reachable state, it holds decided
with the same attributes at every later state of the run. -/
theorem decided_run {nodes : List ℕ} {aliasing : ℕ → Bool} {restarts : Bool}
    {net net' : Network} (h : Reachable nodes aliasing restarts net)
    (h' : Relation.ReflTransGen (Step nodes restarts) net net') {d : InstanceID}
    {c : InstanceData} (hd : net.Decided d c) : net'.Decided d c := by
  induction h' with
  | refl => exact hd
  | tail hmid hstep ih =>
    obtain ⟨e, order, loadOrder, -, hs⟩ := hstep
    have hr : Reachable nodes aliasing restarts _ := Relation.ReflTransGen.trans h hmid
    exact decided_step (timersOwn_reachable hr) (execSafe_reachable hr) (durable_reachable hr)
      hs ih

/-- Two replicas that hold an instance committed or executed, at one state of a
run or at two states of it (the later one after any events, restarts
included), hold the same command, sequence number and dependencies for it. -/
theorem committed_attributes_agree {nodes : List ℕ} {aliasing : ℕ → Bool} {restarts : Bool}
    {net net' : Network} (h : Reachable nodes aliasing restarts net)
    (h' : Relation.ReflTransGen (Step nodes restarts) net net') (a b : ℕ) (d : InstanceID)
    (is is' : InstanceState) (ha : (net.replicas a).liveState d = some is)
    (hsa : is.status = .committed ∨ is.status = .executed)
    (hb : (net'.replicas b).liveState d = some is')
    (hsb : is'.status = .committed ∨ is'.status = .executed) :
    is.command = is'.command ∧ is.seqNum = is'.seqNum ∧ is.deps = is'.deps := by
  have hr' : Reachable nodes aliasing restarts net' := Relation.ReflTransGen.trans h h'
  -- both copies carry what the command leader decided, and it keeps that
  have hda : net.Decided d is.attrs :=
    ((agreement_reachable h).replicas a).live d is ha (Status.decided_eq_true hsa)
  have hdb : net'.Decided d is'.attrs :=
    ((agreement_reachable hr').replicas b).live d is' hb (Status.decided_eq_true hsb)
  have hattrs : is.attrs = is'.attrs := (decided_run h h' hda).unique hdb
  simp only [InstanceState.attrs, InstanceData.mk.injEq] at hattrs
  exact hattrs

/-- Replica `0` proposes a write; replica `1` answers its `PreAccept`, so replica
`0` commits and executes it on the fast path, and its `Commit` reaches
replica `1`. -/
def agreeRun : List Event :=
  [.request 0 (writeA 1),
   .deliver ⟨1, ⟨0, 1⟩, .preAccept ⟨some (writeA 1), 1, []⟩⟩,
   .deliver ⟨0, ⟨0, 1⟩, .preAcceptOk⟩,
   .deliver ⟨1, ⟨0, 1⟩, .commit ⟨some (writeA 1), 1, []⟩⟩]

/-- The run of `agreeRun` with storages that copy. -/
def agreeNet : Network :=
  (runEvents (MapOrder.id _) (MapOrder.id _) agreeRun (init [0, 1, 2] fun _ => false)).get
    (by decide +kernel)

/-- Replica `0` restarts from its storage. -/
def restartNet : Network :=
  (step (MapOrder.id _) (MapOrder.id _) (.restart 0) agreeNet).get (by decide +kernel)

theorem committed_attributes_agree_restartNet :
    Reachable [0, 1, 2] (fun _ => false) true agreeNet ∧
    Relation.ReflTransGen (Step [0, 1, 2] true) agreeNet restartNet ∧
    (agreeNet.replicas 1).liveState ⟨0, 1⟩ =
      some ⟨⟨0, 1⟩, .executed, some (writeA 1), 1, []⟩ ∧
    (restartNet.replicas 0).liveState ⟨0, 1⟩ =
      some ⟨⟨0, 1⟩, .executed, some (writeA 1), 1, []⟩ ∧
    (some (writeA 1) = some (writeA 1) ∧ 1 = 1 ∧ ([] : List InstanceID) = []) := by
  have h : Reachable [0, 1, 2] (fun _ => false) true agreeNet :=
    reachable_of_runEvents (by decide +kernel) (Option.some_get _).symm
  have h' : Relation.ReflTransGen (Step [0, 1, 2] true) agreeNet restartNet :=
    .single ⟨.restart 0, MapOrder.id _, MapOrder.id _, by decide +kernel, (Option.some_get _).symm⟩
  have ha : (agreeNet.replicas 1).liveState ⟨0, 1⟩ =
      some ⟨⟨0, 1⟩, .executed, some (writeA 1), 1, []⟩ := by decide +kernel
  have hb : (restartNet.replicas 0).liveState ⟨0, 1⟩ =
      some ⟨⟨0, 1⟩, .executed, some (writeA 1), 1, []⟩ := by decide +kernel
  exact ⟨h, h', ha, hb, committed_attributes_agree h h' 1 0 ⟨0, 1⟩ _ _ ha (.inr rfl) hb (.inr rfl)⟩

end Network

end EPaxos
