import EPaxos.Execution
import EPaxos.Run

/-!
# Eager execution

The executor runs only when an instance commits: `onCommit`, the commit of
`transitionTo` and the replay of a commit at a restart each call
`prepareToExecute`, which adds the instance to the vertices and executes every
component that no longer waits. So between calls a replica's vertices are
exactly its committed instances, and each of them waits: through committed
instances its dependencies reach one that the replica holds neither committed
nor executed (`Waits`).

Inside a call the invariant is `Eager pending`, with `pending` the instances
committed and not yet handed to the executor. An update that commits nothing
keeps it; a commit adds its instance to `pending`, and the run of the executor
that follows takes it out again (`Eager.prepareToExecute`), since one run
executes exactly the vertices that no longer wait (`RunSpec`).
-/
namespace EPaxos

open Digraph Tarjan

/-! ## Waiting in a map of instance states -/

section States

variable (st : InstanceID → Option InstanceState)

/-- `d` is `Committed` in the instance states `st`. -/
def CommittedIn (d : InstanceID) : Prop := ∃ is, st d = some is ∧ is.status = .committed

/-- `d` is `Committed` or `Executed` in `st`. -/
def DecidedIn (d : InstanceID) : Prop := ∃ is, st d = some is ∧ is.status.decided = true

instance (d : InstanceID) : Decidable (DecidedIn st d) :=
  decidable_of_iff ((st d).any fun is => is.status.decided) (by
    cases h : st d <;> simp [DecidedIn, h])

/-- The dependencies of `d` in `st`; none for an instance without a state. -/
def depsIn (d : InstanceID) : List InstanceID := ((st d).map (·.deps)).getD []

/-- `v` waits: through committed instances its dependencies reach one that is
neither committed nor executed. -/
def Waits (v : InstanceID) : Prop :=
  ∃ u x, Relation.ReflTransGen (fun a b => b ∈ depsIn st a ∧ CommittedIn st b) v u ∧
    x ∈ depsIn st u ∧ ¬DecidedIn st x

end States

/-- A wait carries over to instance states `st'` that agree with `st` at `v`,
that hold each committed instance of `st` as `st` does or not decided, and that
decide only what `st` decides. -/
theorem Waits.transfer {st st' : InstanceID → Option InstanceState} {v : InstanceID}
    (h : Waits st v) (hv : st' v = st v)
    (hc : ∀ w, CommittedIn st w → st' w = st w ∨ ¬DecidedIn st' w)
    (hx : ∀ x, DecidedIn st' x → DecidedIn st x) : Waits st' v := by
  obtain ⟨u, x, hpath, hxu, hxd⟩ := h
  -- along the path, as long as `st'` holds its instances as `st` does
  revert hv
  induction hpath using Relation.ReflTransGen.head_induction_on with
  | refl =>
    intro hv
    have hdeps : depsIn st' u = depsIn st u := by rw [depsIn, depsIn, hv]
    exact ⟨u, x, .refl, by rw [hdeps]; exact hxu, fun hd => hxd (hx x hd)⟩
  | @head a b hab hbu ih =>
    intro hv
    have hdeps : depsIn st' a = depsIn st a := by rw [depsIn, depsIn, hv]
    rcases hc b hab.2 with hb | hb
    · obtain ⟨u', x', hpath', hxu', hxd'⟩ := ih hb
      have hbc : CommittedIn st' b := by
        rw [CommittedIn, hb]
        exact hab.2
      exact ⟨u', x', .head ⟨by rw [hdeps]; exact hab.1, hbc⟩ hpath', hxu', hxd'⟩
    · -- `st'` does not hold `b` decided: the wait ends at `a`
      exact ⟨a, b, .refl, by rw [hdeps]; exact hab.1, hb⟩

namespace Replica

theorem depsOf_eq_depsIn (p : Replica) (d : InstanceID) : p.depsOf d = depsIn p.liveState d := by
  unfold depsOf depsIn liveState
  cases p.getInstance d <;> rfl

theorem hasExecuted_congr {p q : Replica} {d : InstanceID} (h : q.liveState d = p.liveState d) :
    q.hasExecuted d = p.hasExecuted d := by
  rw [Bool.eq_iff_iff, hasExecuted_iff, hasExecuted_iff, h]

theorem hasExecuted_eq_false {p : Replica} {d : InstanceID}
    (h : ∀ is, p.liveState d = some is → is.status ≠ .executed) : p.hasExecuted d = false := by
  rw [← Bool.not_eq_true, hasExecuted_iff]
  rintro ⟨is, hd, hs⟩
  exact h is hd hs

theorem hasExecuted_of_committed {p : Replica} {d : InstanceID} (h : CommittedIn p.liveState d) :
    p.hasExecuted d = false := by
  obtain ⟨is, hd, hc⟩ := h
  refine hasExecuted_eq_false fun is' hd' hs => ?_
  rw [hd, Option.some.injEq] at hd'
  rw [← hd', hc] at hs
  cases hs

theorem decidedIn_iff (p : Replica) (d : InstanceID) :
    DecidedIn p.liveState d ↔ CommittedIn p.liveState d ∨ p.hasExecuted d = true := by
  rw [hasExecuted_iff]
  constructor
  · rintro ⟨is, hd, hdec⟩
    cases hs : is.status <;> rw [hs] at hdec
    case committed => exact .inl ⟨is, hd, hs⟩
    case executed => exact .inr ⟨is, hd, hs⟩
    all_goals cases hdec
  · rintro (⟨is, hd, hs⟩ | ⟨is, hd, hs⟩) <;> exact ⟨is, hd, by rw [hs]; rfl⟩

/-- Where the vertices are the committed instances, a vertex that cannot run is
one that waits. -/
theorem not_unblocked_iff_waits {p : Replica}
    (hV : ∀ d, d ∈ p.vertices ↔ CommittedIn p.liveState d) (v : InstanceID) :
    ¬Unblocked p.depsOf p.hasExecuted p.vertices v ↔ Waits p.liveState v := by
  -- the executor's graph is the dependency graph restricted to committed instances
  have hrel : (fun a b => b ∈ depGraph p.depsOf p.vertices a) =
      fun a b => b ∈ depsIn p.liveState a ∧ CommittedIn p.liveState b := by
    funext a b
    rw [mem_depGraph, depsOf_eq_depsIn, hV]
  have hreach : ∀ u, Reach (depGraph p.depsOf p.vertices) v u ↔
      Relation.ReflTransGen
        (fun a b => b ∈ depsIn p.liveState a ∧ CommittedIn p.liveState b) v u := by
    intro u
    rw [Reach, hrel]
  constructor
  · intro hun
    simp only [Unblocked, not_forall, not_or, Bool.not_eq_true] at hun
    obtain ⟨u, hu, x, hx, hxV, hxh⟩ := hun
    refine ⟨u, x, (hreach u).mp hu, by rw [← depsOf_eq_depsIn]; exact hx, fun hd => ?_⟩
    rcases (decidedIn_iff p x).mp hd with hc | hex
    · exact hxV ((hV x).mpr hc)
    · rw [hxh] at hex
      cases hex
  · rintro ⟨u, x, hpath, hx, hnd⟩ hun
    rcases hun u ((hreach u).mpr hpath) x (by rw [depsOf_eq_depsIn]; exact hx) with hxV | hex
    · exact hnd ((decidedIn_iff p x).mpr (.inl ((hV x).mp hxV)))
    · exact hnd ((decidedIn_iff p x).mpr (.inr hex))

theorem foldlM_execute_vertices {done : List InstanceID} {p q : Replica}
    (h : done.foldlM execute p = some q) : q.vertices = p.vertices :=
  OptionFold.foldlM_rel _ (fun a b => b.vertices = a.vertices) (fun _ => rfl)
    (fun _ _ _ h₁ h₂ => by exact h₂.trans h₁) (fun _ _ _ h => (execute_frame h).2.1) _ _ _ h

/-- What `prepareToExecute` does, over distinct vertices none of which has
executed: `d` is committed, the executor runs over the vertices with `d` added,
and what did not run stays as the vertices while the rest executes in turn. -/
theorem prepareToExecute_run {order : MapOrder InstanceID} {p q : Replica} {d : InstanceID}
    (h : p.prepareToExecute order d = some q) (hnd : p.vertices.Nodup)
    (hfresh : ∀ v ∈ p.vertices, p.hasExecuted v = false) :
    CommittedIn p.liveState d ∧
      ∃ r, RunSpec p.depsOf p.executesBefore p.hasExecuted (addExec p.vertices d) r ∧
        r.2.foldlM execute { p with vertices := r.1 } = some q := by
  unfold prepareToExecute at h
  simp only [Option.bind_eq_bind, Option.bind_eq_some_iff] at h
  obtain ⟨inst, hinst, u, hguard, hfold⟩ := h
  have hd : CommittedIn p.liveState d :=
    ⟨inst.is, by rw [liveState, hinst]; rfl, by simpa using hguard⟩
  refine ⟨hd, _, run_spec _ _ _ order _ (nodup_addExec hnd d) fun v hv => ?_, hfold⟩
  rcases mem_addExec.mp hv with hv | rfl
  · exact hfresh v hv
  · exact hasExecuted_of_committed hd

variable {P N : List InstanceID} {p q : Replica}

/-- The executor's vertices are distinct committed instances that cannot run,
and every committed instance is one of them or is `pending`. -/
structure Eager (pending : List InstanceID) (p : Replica) : Prop where
  nodup : p.vertices.Nodup
  committed : ∀ v ∈ p.vertices, CommittedIn p.liveState v
  vertex : ∀ d, CommittedIn p.liveState d → d ∈ p.vertices ∨ d ∈ pending
  blocked : ∀ v ∈ p.vertices, ¬Unblocked p.depsOf p.hasExecuted p.vertices v

namespace Eager

theorem mono (h : Eager P p) (hP : ∀ d ∈ P, d ∈ N) : Eager N p :=
  ⟨h.nodup, h.committed, fun d hd => (h.vertex d hd).imp_right (hP d), h.blocked⟩

/-- With nothing pending, the vertices are the committed instances, and each of
them waits. -/
theorem waits (h : Eager [] p) :
    (∀ d, d ∈ p.vertices ↔ CommittedIn p.liveState d) ∧
      ∀ v, CommittedIn p.liveState v → Waits p.liveState v := by
  have hV : ∀ d, d ∈ p.vertices ↔ CommittedIn p.liveState d :=
    fun d => ⟨h.committed d, fun hd => (h.vertex d hd).resolve_right List.not_mem_nil⟩
  exact ⟨hV, fun v hv => (not_unblocked_iff_waits hV v).mp (h.blocked v ((hV v).mpr hv))⟩

/-- An update that keeps the vertices, every committed instance and what is
executed, and commits at most the instances of `N`. -/
theorem of_decided (h : Eager P p) (hv : q.vertices = p.vertices)
    (hc : ∀ d, CommittedIn q.liveState d → CommittedIn p.liveState d ∨ d ∈ N)
    (hkeep : ∀ d, CommittedIn p.liveState d → q.liveState d = p.liveState d)
    (hx : ∀ d, q.hasExecuted d = p.hasExecuted d) : Eager (N ++ P) q := by
  refine ⟨by rw [hv]; exact h.nodup, fun v hv' => ?_, fun d hd => ?_, fun v hv' hun => ?_⟩
  · rw [hv] at hv'
    have hpc := h.committed v hv'
    rw [CommittedIn, hkeep v hpc]
    exact hpc
  · rw [hv, List.mem_append]
    rcases hc d hd with hpd | hnew
    · rcases h.vertex d hpd with hV | hP
      · exact .inl hV
      · exact .inr (.inr hP)
    · exact .inr (.inl hnew)
  · rw [hv] at hv' hun
    -- the dependencies of the vertices, committed instances, are kept
    refine h.blocked v hv' (hun.of_congr (fun u hu => ?_) hx hv')
    rw [depsOf_eq_depsIn, depsOf_eq_depsIn, depsIn, depsIn, hkeep u (h.committed u hu)]

theorem of_liveState (h : Eager P p) (hl : q.liveState = p.liveState)
    (hv : q.vertices = p.vertices) : Eager P q :=
  h.of_decided (N := []) hv (fun _ hd => .inl (hl ▸ hd)) (fun d _ => congrFun hl d)
    fun d => hasExecuted_congr (congrFun hl d)

/-- A change of one instance `d` that is not decided before and not executed
after, and that commits it only where `N` holds it. -/
theorem single (h : Eager P p) (d : InstanceID) (hv : q.vertices = p.vertices)
    (hother : ∀ e, e ≠ d → q.liveState e = p.liveState e)
    (hp : ∀ is, p.liveState d = some is → is.status.decided = false)
    (hx : ∀ is, q.liveState d = some is → is.status ≠ .executed)
    (hc : CommittedIn q.liveState d → d ∈ N) : Eager (N ++ P) q := by
  have hpd : ¬CommittedIn p.liveState d := by
    rintro ⟨is, hd, hs⟩
    have hund := hp is hd
    rw [hs] at hund
    cases hund
  refine h.of_decided hv (fun e he => ?_) (fun e he => ?_) (fun e => ?_)
  · by_cases hed : e = d
    · subst hed
      exact .inr (hc he)
    · refine .inl ?_
      rw [CommittedIn, ← hother e hed]
      exact he
  · exact hother e fun hed => hpd (hed ▸ he)
  · by_cases hed : e = d
    · subst hed
      rw [hasExecuted_eq_false hx, hasExecuted_eq_false fun is h => Status.ne_executed (hp is h)]
    · exact hasExecuted_congr (hother e hed)

/-- A run of the executor on the pending instance `d` hands it to the executor;
what it leaves as vertices still cannot run. -/
theorem prepareToExecute {order : MapOrder InstanceID} {d : InstanceID} (h : Eager (d :: P) p)
    (hq : p.prepareToExecute order d = some q) : Eager P q := by
  obtain ⟨hd, r, hspec, hfold⟩ := prepareToExecute_run hq h.nodup
    fun v hv => hasExecuted_of_committed (h.committed v hv)
  obtain ⟨hout, hin⟩ := foldlM_execute_spec r.2 _ q hfold
  have hverts : q.vertices = r.1 := foldlM_execute_vertices hfold
  -- what did not run is as it was, and running keeps the dependencies
  have hsame : ∀ e, e ∉ r.2 → q.liveState e = p.liveState e := fun e he => (hout e he).1
  have hdeps : ∀ e, q.depsOf e = p.depsOf e := by
    intro e
    by_cases he : e ∈ r.2
    · obtain ⟨is, hp, -, hq', -⟩ := hin e he
      rw [depsOf_eq hq', depsOf_eq (p := p) hp]
    · rw [depsOf_eq_depsIn, depsOf_eq_depsIn, depsIn, depsIn, hsame e he]
  have hmem : ∀ v, v ∈ r.1 ↔ v ∈ addExec p.vertices d ∧ v ∉ r.2 := by
    intro v
    rw [hspec.remaining, List.mem_filter, decide_eq_true_iff]
  have hcom : ∀ v ∈ addExec p.vertices d, CommittedIn p.liveState v := by
    intro v hv
    rcases mem_addExec.mp hv with hv | rfl
    · exact h.committed v hv
    · exact hd
  refine ⟨?_, fun v hv => ?_, fun e he => ?_, fun v hv hun => ?_⟩
  · rw [hverts, hspec.remaining]
    exact (nodup_addExec h.nodup d).filter _
  · rw [hverts, hmem] at hv
    rw [CommittedIn, hsame v hv.2]
    exact hcom v hv.1
  · -- what ran is executed, so a committed instance did not run
    have hne : e ∉ r.2 := by
      intro hr
      obtain ⟨is, -, -, hq', -⟩ := hin e hr
      obtain ⟨is', he', hc⟩ := he
      rw [hq', Option.some.injEq] at he'
      rw [← he'] at hc
      cases hc
    have hpe : CommittedIn p.liveState e := by
      rw [CommittedIn, ← hsame e hne]
      exact he
    rw [hverts, hmem, mem_addExec]
    rcases h.vertex e hpe with hV | hP
    · exact .inl ⟨.inl hV, hne⟩
    · rcases List.mem_cons.mp hP with rfl | hP
      · exact .inl ⟨.inr rfl, hne⟩
      · exact .inr hP
  · rw [hverts] at hv hun
    obtain ⟨hvV, hvr⟩ := (hmem v).mp hv
    -- `v` did not run, so it could not run: it reaches a dependency `x` ...
    refine hvr ((hspec.executed_iff v).mpr ⟨hvV, fun u hu x hx => ?_⟩)
    by_contra hbad
    rw [not_or, Bool.not_eq_true] at hbad
    -- ... through vertices that did not run either, as they reach `x` too
    have hpath : Reach (depGraph q.depsOf r.1) v u := by
      refine hu.mono_toward fun a b hab hbu => ?_
      rw [mem_depGraph] at hab ⊢
      refine ⟨by rw [hdeps]; exact hab.1, (hmem b).mpr ⟨hab.2, fun hbr => ?_⟩⟩
      rcases ((hspec.executed_iff b).mp hbr).2 u hbu x hx with hxV | hxh
      · exact hbad.1 hxV
      · rw [hbad.2] at hxh
        cases hxh
    rcases hun u hpath x (by rw [hdeps]; exact hx) with hxr | hxh
    · exact hbad.1 ((hmem x).mp hxr).1
    · have hxr : x ∉ r.2 := fun hxr => hbad.1 ((hspec.executed_iff x).mp hxr).1
      rw [hasExecuted_congr (hsame x hxr), hbad.2] at hxh
      cases hxh

theorem persist (h : Eager P p) (d : InstanceID) : Eager P (p.persist d) :=
  h.of_liveState (liveState_eq_of_getInstance (getInstance_persist p d)) (vertices_persist p d)

end Eager

theorem Act.eager (h : Act p q) (hp : Eager P p) : Eager P q := by
  cases h with
  | frame _ _ hl _ _ _ hv => exact hp.of_liveState hl hv
  | execute order d h =>
    exact (hp.mono fun e he => List.mem_cons_of_mem d he).prepareToExecute h

theorem Acts.eager (h : Acts p q) (hp : Eager P p) : Eager P q := by
  induction h with
  | refl => exact hp
  | tail _ hstep ih => exact hstep.eager ih

/-- Each update of a call keeps the vertices the committed instances that wait:
a commit is followed at once by a run of the executor on it. -/
theorem Prim.eager {inc : Option Message} (h : Prim inc p q) (hp : Eager [] p) : Eager [] q := by
  cases h with
  | act h => exact h.eager hp
  | update d _ _ _ hother hpd hqd hv =>
    refine hp.single (N := []) d hv hother hpd (fun is h => Status.ne_executed (hqd is h).1) ?_
    rintro ⟨is, hd, hc⟩
    have hund := (hqd is hd).1
    rw [hc] at hund
    cases hund
  | commit d c _ _ _ _ _ hother hpd hqd hv _ hexec =>
    obtain ⟨order, hexec⟩ := hexec
    -- `d` is pending until the executor runs on it
    refine (hp.single (N := [d]) d hv hother hpd (fun is h => ?_)
      fun _ => List.mem_singleton_self d).prepareToExecute hexec
    rw [hqd, Option.some.injEq] at h
    rw [← h]
    exact nofun
  | @transition p' d s hd hs _ hacts hcommit =>
    obtain ⟨is, hd, hund⟩ := hd
    have hother : ∀ e, e ≠ d → (p.setStatus d s).liveState e = p.liveState e :=
      fun e he => by rw [liveState_setStatus, if_neg he]
    have hsd : ∀ is', (p.setStatus d s).liveState d = some is' → is'.status = s := by
      intro is' h
      rw [liveState_setStatus, if_pos rfl, hd, Option.map_some, Option.some.injEq] at h
      rw [← h]
    have hpd : ∀ is', p.liveState d = some is' → is'.status.decided = false := by
      intro is' h
      rw [hd, Option.some.injEq] at h
      exact h ▸ hund
    have hx : ∀ is', (p.setStatus d s).liveState d = some is' → is'.status ≠ .executed := by
      intro is' h
      rw [hsd is' h]
      exact hs
    by_cases hsc : s = .committed
    · -- the action of a commit runs the executor on `d`
      obtain ⟨order, p₁, hact, hexec⟩ := hcommit hsc
      have h₁ : Eager [d] (p.setStatus d s) := hp.single (N := [d]) d (vertices_setStatus p d s)
        hother hpd hx fun _ => List.mem_singleton_self d
      exact ((hact.eager h₁).prepareToExecute hexec).persist d
    · have h₁ : Eager [] (p.setStatus d s) := hp.single (N := []) d (vertices_setStatus p d s)
        hother hpd hx fun ⟨is', h, hc⟩ => absurd ((hsd is' h).symm.trans hc) hsc
      exact (hacts.eager h₁).persist d

theorem Prims.eager {inc : Option Message} (h : Prims inc p q) (hp : Eager [] p) : Eager [] q := by
  induction h with
  | refl => exact hp
  | tail _ hstep ih => exact hstep.eager ih

end Replica

end EPaxos
