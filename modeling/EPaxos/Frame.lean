import EPaxos.Replica

/-!
# Frame lemmas

What each primitive update of a replica leaves alone. The instance table is
read through `getInstance`, and the instance states, which are what storage and
messages carry, through `liveState`. Sending, persisting and the timers change
no instance state; `setInstance` and `modify` change exactly one.
-/
namespace EPaxos

namespace Storage

theorem lookup_eq_some_iff (s : Storage) (d : InstanceID) (st : Stored) :
    s.lookup d = some st ↔ (d, st) ∈ s.instances := by
  unfold lookup
  constructor
  · intro h
    obtain ⟨e, he, rfl⟩ := Option.map_eq_some_iff.mp h
    have hd : e.1 = d := by
      have := List.find?_some he
      simpa using this
    rw [← hd]
    exact List.mem_of_find?_eq_some he
  · intro h
    cases he : s.instances.find? (·.1 = d) with
    | none =>
      rw [List.find?_eq_none] at he
      exact absurd (decide_eq_true rfl) (he _ h)
    | some e =>
      have hd : e.1 = d := by
        have := List.find?_some he
        simpa using this
      -- the keys are distinct, so the entry found is `(d, st)`
      have heq := List.inj_on_of_nodup_map s.keyed (List.mem_of_find?_eq_some he) h hd
      rw [heq]
      rfl

theorem lookup_persistInstance (s : Storage) (is : InstanceState) (e : InstanceID) :
    (s.persistInstance is).lookup e =
      if is.instanceID = e then some (if s.aliasing then .live else .copy is) else s.lookup e := by
  apply Option.ext
  intro st
  rw [lookup_eq_some_iff]
  simp only [persistInstance, List.mem_cons, Prod.mk.injEq, List.mem_filter, ne_eq,
    decide_eq_true_eq]
  by_cases h : is.instanceID = e
  · rw [if_pos h, Option.some.injEq]
    subst h
    simp only [true_and, not_true_eq_false, and_false, or_false]
    exact eq_comm
  · rw [if_neg h, lookup_eq_some_iff]
    constructor
    · rintro (⟨rfl, -⟩ | ⟨hm, -⟩)
      · exact absurd rfl h
      · exact hm
    · exact fun hm => .inr ⟨hm, Ne.symm h⟩

theorem lookup_freeze (s : Storage) (live : InstanceID → Option InstanceState) (d : InstanceID) :
    (s.freeze live).lookup d = ((s.lookup d).bind fun st => st.resolve (live d)).map .copy := by
  apply Option.ext
  intro st
  rw [lookup_eq_some_iff]
  simp only [freeze, List.mem_filterMap, Option.map_map, Option.map_eq_some_iff,
    Option.bind_eq_some_iff, lookup_eq_some_iff]
  constructor
  · rintro ⟨⟨k, st₀⟩, hmem, is, his, hk⟩
    simp only [Function.comp_apply, Prod.mk.injEq] at hk
    obtain ⟨rfl, rfl⟩ := hk
    exact ⟨is, ⟨st₀, hmem, his⟩, rfl⟩
  · rintro ⟨is, ⟨st₀, hmem, his⟩, rfl⟩
    exact ⟨(d, st₀), hmem, is, his, rfl⟩

theorem mem_resolve (s : Storage) (live : InstanceID → Option InstanceState)
    (is : InstanceState) :
    is ∈ s.resolve live ↔ ∃ d st, s.lookup d = some st ∧ st.resolve (live d) = some is := by
  simp only [resolve, List.mem_filterMap, lookup_eq_some_iff]
  constructor
  · rintro ⟨⟨d, st⟩, hmem, his⟩
    exact ⟨d, st, hmem, his⟩
  · rintro ⟨d, st, hmem, his⟩
    exact ⟨(d, st), hmem, his⟩

end Storage

namespace Replica

variable (p : Replica)

@[simp] theorem getInstance_sendTo (m : MessageType) (r : ℕ) (d : InstanceID) :
    (p.sendTo m r d).getInstance = p.getInstance := rfl

@[simp] theorem getInstance_broadcast (m : MessageType) (d : InstanceID) :
    (p.broadcast m d).getInstance = p.getInstance := rfl

@[simp] theorem getInstance_reply (m : MessageType) (d : InstanceID) :
    (p.reply m d).getInstance = p.getInstance := rfl

@[simp] theorem getInstance_persist (d : InstanceID) :
    (p.persist d).getInstance = p.getInstance := by
  unfold persist
  split <;> rfl

@[simp] theorem getInstance_broadcastPreAccept (d : InstanceID) :
    (p.broadcastPreAccept d).getInstance = p.getInstance := by
  unfold broadcastPreAccept
  split <;> rfl

@[simp] theorem getInstance_broadcastAccept (d : InstanceID) :
    (p.broadcastAccept d).getInstance = p.getInstance := by
  unfold broadcastAccept
  split <;> rfl

@[simp] theorem getInstance_broadcastCommit (d : InstanceID) :
    (p.broadcastCommit d).getInstance = p.getInstance := by
  unfold broadcastCommit
  split <;> rfl

/-- `deliverExecutedCommand` only appends to the delivered commands. -/
theorem deliverExecuted_eq {p q : Replica} {d : InstanceID} (h : p.deliverExecuted d = some q) :
    ∃ cmd, q = { p with executedCmds := p.executedCmds ++ [cmd] } := by
  unfold deliverExecuted at h
  simp only [Option.bind_eq_bind, Option.bind_eq_some_iff, Option.some.injEq] at h
  obtain ⟨_, _, cmd, _, rfl⟩ := h
  exact ⟨cmd, rfl⟩

theorem liveState_eq_of_getInstance {p q : Replica} (h : q.getInstance = p.getInstance) :
    q.liveState = p.liveState := by
  funext d
  simp [liveState, h]

theorem liveState_setInstance (inst : Instance) (e : InstanceID) :
    (p.setInstance inst).liveState e =
      if inst.is.instanceID = e then some inst.is else p.liveState e := by
  unfold liveState
  rw [getInstance_setInstance]
  split_ifs <;> rfl

/-- A change to an instance's counters or timer is invisible in its state. -/
theorem liveState_modify_of_is (d : InstanceID) (f : Instance → Instance)
    (hf : ∀ inst, (f inst).is = inst.is) : (p.modify d f).liveState = p.liveState := by
  funext e
  unfold liveState
  rw [getInstance_modify p d e f (fun inst => by rw [hf])]
  split_ifs with he
  · subst he
    cases p.getInstance e <;> simp [hf]
  · rfl

theorem liveState_modify (d : InstanceID) (f : Instance → Instance)
    (hf : ∀ inst, (f inst).is.instanceID = inst.is.instanceID) (e : InstanceID) :
    (p.modify d f).liveState e =
      if e = d then (p.getInstance d).map fun inst => (f inst).is else p.liveState e := by
  unfold liveState
  rw [getInstance_modify p d e f hf]
  split_ifs
  · cases p.getInstance d <;> rfl
  · rfl

@[simp] theorem liveState_unregisterTimer (d : InstanceID) :
    (p.unregisterTimer d).liveState = p.liveState :=
  liveState_modify_of_is p d _ fun _ => rfl

@[simp] theorem liveState_registerOneTimeTimer (d : InstanceID) :
    (p.registerOneTimeTimer d).liveState = p.liveState :=
  liveState_modify_of_is p d _ fun _ => rfl

theorem liveState_setStatus (d e : InstanceID) (s : Status) :
    (p.setStatus d s).liveState e =
      if e = d then (p.liveState d).map fun is => { is with status := s } else p.liveState e := by
  rw [setStatus, liveState_modify]
  · split_ifs
    · simp only [liveState, Option.map_map]
      rfl
    · rfl
  · exact fun _ => rfl

theorem getInstance_setStatus_self {d : InstanceID} {inst : Instance}
    (h : p.getInstance d = some inst) (s : Status) :
    (p.setStatus d s).getInstance d = some { inst with is := { inst.is with status := s } } := by
  unfold setStatus
  rw [getInstance_modify]
  · rw [if_pos rfl, h]
    rfl
  · exact fun _ => rfl

theorem getInstance_setStatus_of_ne {d e : InstanceID} (h : e ≠ d) (s : Status) :
    (p.setStatus d s).getInstance e = p.getInstance e := by
  unfold setStatus
  rw [getInstance_modify, if_neg h]
  exact fun _ => rfl

@[simp] theorem storage_setInstance (inst : Instance) :
    (p.setInstance inst).storage = p.storage := rfl

@[simp] theorem storage_modify (d : InstanceID) (f : Instance → Instance) :
    (p.modify d f).storage = p.storage := by
  unfold modify
  split <;> rfl

@[simp] theorem storage_unregisterTimer (d : InstanceID) :
    (p.unregisterTimer d).storage = p.storage := storage_modify p d _

@[simp] theorem storage_registerOneTimeTimer (d : InstanceID) :
    (p.registerOneTimeTimer d).storage = p.storage := storage_modify p d _

@[simp] theorem storage_setStatus (d : InstanceID) (s : Status) :
    (p.setStatus d s).storage = p.storage := storage_modify p d _

@[simp] theorem storage_broadcastPreAccept (d : InstanceID) :
    (p.broadcastPreAccept d).storage = p.storage := by
  unfold broadcastPreAccept
  split <;> rfl

@[simp] theorem storage_broadcastAccept (d : InstanceID) :
    (p.broadcastAccept d).storage = p.storage := by
  unfold broadcastAccept
  split <;> rfl

@[simp] theorem storage_broadcastCommit (d : InstanceID) :
    (p.broadcastCommit d).storage = p.storage := by
  unfold broadcastCommit
  split <;> rfl

/-! The operations below touch neither the id nor the outbox of the replica. -/

@[simp] theorem id_setInstance (inst : Instance) : (p.setInstance inst).id = p.id := rfl

@[simp] theorem msgs_setInstance (inst : Instance) : (p.setInstance inst).msgs = p.msgs := rfl

@[simp] theorem id_modify (d : InstanceID) (f : Instance → Instance) :
    (p.modify d f).id = p.id := by
  unfold modify
  split <;> rfl

@[simp] theorem msgs_modify (d : InstanceID) (f : Instance → Instance) :
    (p.modify d f).msgs = p.msgs := by
  unfold modify
  split <;> rfl

@[simp] theorem id_setStatus (d : InstanceID) (s : Status) : (p.setStatus d s).id = p.id :=
  id_modify p d _

@[simp] theorem msgs_setStatus (d : InstanceID) (s : Status) :
    (p.setStatus d s).msgs = p.msgs :=
  msgs_modify p d _

@[simp] theorem id_unregisterTimer (d : InstanceID) : (p.unregisterTimer d).id = p.id :=
  id_modify p d _

@[simp] theorem msgs_unregisterTimer (d : InstanceID) : (p.unregisterTimer d).msgs = p.msgs :=
  msgs_modify p d _

@[simp] theorem id_registerOneTimeTimer (d : InstanceID) :
    (p.registerOneTimeTimer d).id = p.id :=
  id_modify p d _

@[simp] theorem msgs_registerOneTimeTimer (d : InstanceID) :
    (p.registerOneTimeTimer d).msgs = p.msgs :=
  msgs_modify p d _

@[simp] theorem id_persist (d : InstanceID) : (p.persist d).id = p.id := by
  unfold persist
  split <;> rfl

@[simp] theorem msgs_persist (d : InstanceID) : (p.persist d).msgs = p.msgs := by
  unfold persist
  split <;> rfl

/-! Only the executor changes the vertices, and only the timer calls the timers. -/

@[simp] theorem vertices_setInstance (inst : Instance) :
    (p.setInstance inst).vertices = p.vertices := rfl

@[simp] theorem timers_setInstance (inst : Instance) : (p.setInstance inst).timers = p.timers := rfl

@[simp] theorem vertices_modify (d : InstanceID) (f : Instance → Instance) :
    (p.modify d f).vertices = p.vertices := by
  unfold modify
  split <;> rfl

@[simp] theorem timers_modify (d : InstanceID) (f : Instance → Instance) :
    (p.modify d f).timers = p.timers := by
  unfold modify
  split <;> rfl

@[simp] theorem vertices_setStatus (d : InstanceID) (s : Status) :
    (p.setStatus d s).vertices = p.vertices :=
  vertices_modify p d _

@[simp] theorem timers_setStatus (d : InstanceID) (s : Status) :
    (p.setStatus d s).timers = p.timers :=
  timers_modify p d _

@[simp] theorem vertices_unregisterTimer (d : InstanceID) :
    (p.unregisterTimer d).vertices = p.vertices :=
  vertices_modify p d _

@[simp] theorem vertices_registerOneTimeTimer (d : InstanceID) :
    (p.registerOneTimeTimer d).vertices = p.vertices :=
  vertices_modify p d _

@[simp] theorem vertices_persist (d : InstanceID) : (p.persist d).vertices = p.vertices := by
  unfold persist
  split <;> rfl

@[simp] theorem timers_persist (d : InstanceID) : (p.persist d).timers = p.timers := by
  unfold persist
  split <;> rfl

@[simp] theorem vertices_broadcastPreAccept (d : InstanceID) :
    (p.broadcastPreAccept d).vertices = p.vertices := by
  unfold broadcastPreAccept
  split <;> rfl

@[simp] theorem timers_broadcastPreAccept (d : InstanceID) :
    (p.broadcastPreAccept d).timers = p.timers := by
  unfold broadcastPreAccept
  split <;> rfl

@[simp] theorem vertices_broadcastAccept (d : InstanceID) :
    (p.broadcastAccept d).vertices = p.vertices := by
  unfold broadcastAccept
  split <;> rfl

@[simp] theorem timers_broadcastAccept (d : InstanceID) :
    (p.broadcastAccept d).timers = p.timers := by
  unfold broadcastAccept
  split <;> rfl

@[simp] theorem vertices_broadcastCommit (d : InstanceID) :
    (p.broadcastCommit d).vertices = p.vertices := by
  unfold broadcastCommit
  split <;> rfl

@[simp] theorem timers_broadcastCommit (d : InstanceID) :
    (p.broadcastCommit d).timers = p.timers := by
  unfold broadcastCommit
  split <;> rfl

theorem persist_of_none {d : InstanceID} (h : p.getInstance d = none) : p.persist d = p := by
  simp [persist, h]

theorem storedState_congr {p q : Replica} {d : InstanceID} (hs : q.storage = p.storage)
    (hl : q.liveState d = p.liveState d) : q.storedState d = p.storedState d := by
  rw [storedState, storedState, hs, hl]

theorem storedState_persist_self {d : InstanceID} {is : InstanceState}
    (h : p.liveState d = some is) : (p.persist d).storedState d = some is := by
  obtain ⟨inst, hi, rfl⟩ := Option.map_eq_some_iff.mp h
  rw [storedState, liveState_eq_of_getInstance (getInstance_persist p d), h]
  simp only [persist, hi, Storage.lookup_persistInstance, getInstance_id hi, if_pos]
  split_ifs <;> rfl

theorem storedState_persist_of_ne {d e : InstanceID} (h : e ≠ d) :
    (p.persist d).storedState e = p.storedState e := by
  rw [storedState, storedState, liveState_eq_of_getInstance (getInstance_persist p d)]
  cases hi : p.getInstance d with
  | none => rw [persist_of_none p hi]
  | some inst =>
    simp only [persist, hi, Storage.lookup_persistInstance, getInstance_id hi, Ne.symm h,
      if_false]

theorem storage_persist (d : InstanceID) :
    (p.persist d).storage =
      match p.getInstance d with
      | some inst => p.storage.persistInstance inst.is
      | none => p.storage := by
  cases h : p.getInstance d <;> simp [persist, h]

end Replica

end EPaxos
