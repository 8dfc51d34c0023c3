import EPaxos.Tarjan.Correct

/-!
# One run of the executor

`run` executes the components `strongConnect` returns, in order, each at once
if every dependency of its members is in it, in the history, or executed
earlier in the run (`executeSCC`). A vertex can run (`Unblocked`) when every
dependency of every vertex it reaches through vertices is a vertex or already
executed.

Since the components are the strongly connected components in reverse
topological order, a component comes after every component it depends on:
one run executes, once each, exactly the vertices that can run, in blocks of
one component each, sorted by `before` (`run_meets_spec`). This needs no
vertex to be executed in the history already, as in the replica, where the
vertices are its committed instances: a vertex the history calls executed
lets the vertices that depend on it run even when it cannot
(`run_executes_past_executed_vertex`).
-/
set_option linter.unusedSectionVars false

namespace EPaxos

open Digraph Tarjan

variable {ι : Type} [DecidableEq ι]

theorem nodup_addExec {V : List ι} (h : V.Nodup) (i : ι) : (addExec V i).Nodup := by
  unfold addExec
  split_ifs with hi
  · exact h
  · exact List.nodup_append.mpr ⟨h, List.nodup_singleton i,
      fun a ha b hb hab => hi (by rw [List.mem_singleton.mp hb] at hab; exact hab ▸ ha)⟩

theorem mem_addExec {V : List ι} {i x : ι} : x ∈ addExec V i ↔ x ∈ V ∨ x = i := by
  unfold addExec
  split_ifs with hi
  · constructor
    · exact .inl
    · rintro (h | rfl)
      · exact h
      · exact hi
  · simp

theorem nodup_foldl_addExec : ∀ (ids acc : List ι), acc.Nodup → (ids.foldl addExec acc).Nodup
  | [], _, h => h
  | i :: ids, acc, h => by
    rw [List.foldl_cons]
    exact nodup_foldl_addExec ids _ (nodup_addExec h i)

theorem mem_foldl_addExec :
    ∀ (ids acc : List ι) (x : ι), x ∈ ids.foldl addExec acc ↔ x ∈ acc ∨ x ∈ ids
  | [], _, _ => by simp
  | i :: ids, acc, x => by
    rw [List.foldl_cons, mem_foldl_addExec ids _ x, mem_addExec, List.mem_cons]
    tauto

theorem depGraph_congr (deps : ι → List ι) {l l' : List ι} (h : ∀ x, x ∈ l ↔ x ∈ l') :
    depGraph deps l = depGraph deps l' := by
  funext v
  exact List.filter_congr fun x _ => by simp [h x]

theorem mem_depGraph {deps : ι → List ι} {vertices : List ι} {x y : ι} :
    y ∈ depGraph deps vertices x ↔ y ∈ deps x ∧ y ∈ vertices := by
  simp [depGraph]

/-- `v` can run: every dependency of a vertex that `v` reaches through vertices
is a vertex or executed in the history. -/
def Unblocked (deps : ι → List ι) (hist : ι → Bool) (vertices : List ι) (v : ι) : Prop :=
  ∀ u, Reach (depGraph deps vertices) v u → ∀ x ∈ deps u, x ∈ vertices ∨ hist x = true

theorem Unblocked.reach {deps : ι → List ι} {hist : ι → Bool} {vertices : List ι} {v w : ι}
    (h : Unblocked deps hist vertices v) (hr : Reach (depGraph deps vertices) v w) :
    Unblocked deps hist vertices w :=
  fun u hu => h u (hr.trans hu)

/-- Whether a vertex can run depends only on the dependencies of the vertices and
on the history. -/
theorem Unblocked.of_congr {deps deps' : ι → List ι} {hist hist' : ι → Bool} {V : List ι}
    (hd : ∀ u ∈ V, deps' u = deps u) (hh : ∀ x, hist' x = hist x) {v : ι} (hv : v ∈ V)
    (h : Unblocked deps' hist' V v) : Unblocked deps hist V v := by
  -- a path from a vertex stays among the vertices, where the dependencies agree
  have hE : ∀ a, a ∈ V → ∀ b ∈ depGraph deps V a, b ∈ depGraph deps' V a ∧ b ∈ V := by
    intro a ha b hb
    rw [mem_depGraph] at hb
    rw [mem_depGraph, hd a ha]
    exact ⟨hb, hb.2⟩
  intro u hu x hx
  obtain ⟨hu', huV⟩ := Reach.mono_on hE hu hv
  rw [← hh x]
  exact h u hu' x (by rw [hd u huV]; exact hx)

/-- The test `executeSCC` makes before it executes a component. -/
theorem executeSCC_check_iff (deps : ι → List ι) (hist : ι → Bool) (comp : List ι)
    (st : List ι × List ι) :
    (comp.all fun v => (deps v).all fun d =>
        (decide (d ∈ st.1) && decide (d ∈ comp)) || hist d || decide (d ∈ st.2)) = true ↔
      ∀ v ∈ comp, ∀ d ∈ deps v, (d ∈ st.1 ∧ d ∈ comp) ∨ hist d = true ∨ d ∈ st.2 := by
  simp [List.all_eq_true, or_assoc]

/-- What one run of the executor over `vertices`, with the history `hist` at
its start, does: it executes, once each, exactly the vertices that can run,
and removes them from the vertices; it executes them in blocks, one strongly
connected component each, sorted by `before`, and every dependency of an
executed vertex is in the history, in an earlier block, or in its own block. -/
structure RunSpec (deps : ι → List ι) (before : ι → ι → Bool) (hist : ι → Bool)
    (vertices : List ι) (r : List ι × List ι) : Prop where
  nodup : r.2.Nodup
  executed_iff : ∀ v, v ∈ r.2 ↔ v ∈ vertices ∧ Unblocked deps hist vertices v
  remaining : r.1 = vertices.filter (· ∉ r.2)
  blocks : ∃ blocks : List (List ι), r.2 = blocks.flatten ∧
    ∀ pre b post, blocks = pre ++ b :: post →
      (∃ C, IsSCC (depGraph deps vertices) C ∧ b = GoSort.sortSlice before C) ∧
      ∀ v ∈ b, ∀ e ∈ deps v, hist e = true ∨ e ∈ pre.flatten ∨ e ∈ b

section Progress

variable (deps : ι → List ι) (before : ι → ι → Bool) (hist : ι → Bool) (V : List ι)

/-- The fold of `run` after the components `done`: what it executed is in
blocks, each a sorted component; it executed exactly the vertices of `done`
that can run. -/
structure Progress (done : List (List ι)) (st : List ι × List ι) (blocks : List (List ι)) :
    Prop where
  executed : st.2 = blocks.flatten
  remaining : st.1 = V.filter (· ∉ st.2)
  nodup : st.2.Nodup
  sub : ∀ x ∈ st.2, x ∈ done.flatten
  executed_iff : ∀ x ∈ done.flatten, x ∈ st.2 ↔ Unblocked deps hist V x
  blocks_ok : ∀ pre b post, blocks = pre ++ b :: post →
    (∃ C, IsSCC (depGraph deps V) C ∧ b = GoSort.sortSlice before C) ∧
    ∀ v ∈ b, ∀ e ∈ deps v, hist e = true ∨ e ∈ pre.flatten ∨ e ∈ b

end Progress

namespace Progress

variable {deps : ι → List ι} {before : ι → ι → Bool} {hist : ι → Bool} {V : List ι}
  {done : List (List ι)} {st : List ι × List ι} {blocks : List (List ι)} {C : List ι}

theorem init : Progress deps before hist V [] (V, []) [] :=
  ⟨rfl, by simp, List.nodup_nil, fun _ h => (by cases h), fun _ h => (by cases h),
    fun pre b post h => (by cases pre <;> cases h)⟩

section Step

variable (hfresh : ∀ v ∈ V, hist v = false) (hC : IsSCC (depGraph deps V) C)
  (htopo : ∀ x ∈ C, ∀ y ∈ depGraph deps V x, y ∈ C ∨ y ∈ done.flatten)
  (hclosed : ∀ x ∈ done.flatten, ∀ y ∈ depGraph deps V x, y ∈ done.flatten)
  (hdisj : ∀ x ∈ C, x ∉ done.flatten) (hdoneV : ∀ x ∈ done.flatten, x ∈ V)

include hfresh hclosed hdoneV in
/-- When the test passes, every member of the component can run: a path through
vertices from it stays in the component or among the vertices executed. -/
theorem unblocked_of_check (h : Progress deps before hist V done st blocks)
    (hcheck : ∀ v ∈ C, ∀ d ∈ deps v, (d ∈ st.1 ∧ d ∈ C) ∨ hist d = true ∨ d ∈ st.2) :
    ∀ x ∈ C, Unblocked deps hist V x := by
  have hst1V : ∀ y ∈ st.1, y ∈ V := fun y hy => by
    rw [h.remaining] at hy
    exact (List.mem_filter.mp hy).1
  have hstay : ∀ a, a ∈ C ∨ a ∈ st.2 → ∀ b ∈ depGraph deps V a, b ∈ C ∨ b ∈ st.2 := by
    rintro a (ha | ha) b hb
    · obtain ⟨hbd, hbV⟩ := mem_depGraph.mp hb
      rcases hcheck a ha b hbd with ⟨-, hbC⟩ | hh | hbs
      · exact .inl hbC
      · -- a vertex is not executed in the history
        rw [hfresh b hbV] at hh
        cases hh
      · exact .inr hbs
    · have hadone := h.sub a ha
      have hbdone := hclosed a hadone b hb
      exact .inr ((h.executed_iff b hbdone).mpr
        (((h.executed_iff a hadone).mp ha).reach (Reach.single hb)))
  intro x hx u hxu y hy
  rcases Reach.closed (S := fun a => a ∈ C ∨ a ∈ st.2) hstay hxu (.inl hx) with hu | hu
  · rcases hcheck u hu y hy with ⟨hy₁, -⟩ | hh | hys
    · exact .inl (hst1V y hy₁)
    · exact .inr hh
    · exact .inl (hdoneV y (h.sub y hys))
  · exact ((h.executed_iff u (h.sub u hu)).mp hu) u (Reach.refl u) y hy

include hC htopo hdisj in
/-- A member that can run passes the test: its dependencies are in its
component, executed earlier, or in the history. -/
theorem check_of_unblocked (h : Progress deps before hist V done st blocks) {x : ι}
    (hx : x ∈ C) (hxu : Unblocked deps hist V x) :
    ∀ v ∈ C, ∀ d ∈ deps v, (d ∈ st.1 ∧ d ∈ C) ∨ hist d = true ∨ d ∈ st.2 := by
  intro v hv d hd
  have hvu : Unblocked deps hist V v := hxu.reach ((hC.2 x hx v).mp hv).1
  rcases hvu v (Reach.refl v) d hd with hdV | hh
  · have hdG : d ∈ depGraph deps V v := mem_depGraph.mpr ⟨hd, hdV⟩
    rcases htopo v hv d hdG with hdC | hdone
    · refine .inl ⟨?_, hdC⟩
      rw [h.remaining]
      exact List.mem_filter.mpr ⟨hdV, decide_eq_true fun hs => hdisj d hdC (h.sub d hs)⟩
    · exact .inr (.inr ((h.executed_iff d hdone).mpr (hvu.reach (Reach.single hdG))))
  · exact .inr (.inl hh)

include hfresh hC htopo hclosed hdisj hdoneV in
/-- `executeSCC` on the next component keeps the progress. -/
theorem step (h : Progress deps before hist V done st blocks) (hCnd : C.Nodup) :
    ∃ blocks', Progress deps before hist V (done ++ [C]) (executeSCC deps before hist C st)
      blocks' := by
  have hflat : ∀ x, x ∈ (done ++ [C]).flatten ↔ x ∈ done.flatten ∨ x ∈ C := by simp
  by_cases hcheck : ∀ v ∈ C, ∀ d ∈ deps v, (d ∈ st.1 ∧ d ∈ C) ∨ hist d = true ∨ d ∈ st.2
  · have hexec : executeSCC deps before hist C st = (st.1.filter (· ∉ GoSort.sortSlice before C),
        st.2 ++ GoSort.sortSlice before C) := by
      unfold executeSCC
      rw [if_pos ((executeSCC_check_iff deps hist C st).mpr hcheck)]
    have hun := h.unblocked_of_check hfresh hclosed hdoneV hcheck
    rw [hexec]
    refine ⟨blocks ++ [GoSort.sortSlice before C], ⟨?_, ?_, ?_, fun x hx => ?_, fun x hx => ?_,
      Digraph.forall_split_snoc h.blocks_ok ⟨⟨C, hC, rfl⟩, fun v hv e he => ?_⟩⟩⟩
    · simp [h.executed]
    · rw [h.remaining, List.filter_filter]
      exact List.filter_congr fun x _ => by simp [and_comm]
    · refine List.nodup_append.mpr ⟨h.nodup, (GoSort.sortSlice_perm before C).nodup_iff.mpr hCnd,
        fun a ha b hb hab => ?_⟩
      exact hdisj b ((GoSort.mem_sortSlice before).mp hb) (hab ▸ h.sub a ha)
    · rw [hflat]
      rcases List.mem_append.mp hx with hx | hx
      · exact .inl (h.sub x hx)
      · exact .inr ((GoSort.mem_sortSlice before).mp hx)
    · rw [List.mem_append, GoSort.mem_sortSlice]
      rcases (hflat x).mp hx with hxd | hxC
      · rw [← h.executed_iff x hxd]
        exact ⟨fun h' => h'.resolve_right fun hxC => hdisj x hxC hxd, .inl⟩
      · exact ⟨fun _ => hun x hxC, fun _ => .inr hxC⟩
    · rw [GoSort.mem_sortSlice] at hv ⊢
      rcases hcheck v hv e he with ⟨-, heC⟩ | hh | hes
      · exact .inr (.inr heC)
      · exact .inl hh
      · exact .inr (.inl (h.executed ▸ hes))
  · have hexec : executeSCC deps before hist C st = st := by
      unfold executeSCC
      rw [if_neg (mt (executeSCC_check_iff deps hist C st).mp hcheck)]
    rw [hexec]
    refine ⟨blocks, ⟨h.executed, h.remaining, h.nodup, fun x hx => ?_, fun x hx => ?_,
      h.blocks_ok⟩⟩
    · exact (hflat x).mpr (.inl (h.sub x hx))
    · rcases (hflat x).mp hx with hxd | hxC
      · exact h.executed_iff x hxd
      · -- a component that fails the test has no member that can run
        exact ⟨fun hs => absurd (h.sub x hs) (hdisj x hxC),
          fun hxu => absurd (h.check_of_unblocked hC htopo hdisj hxC hxu) hcheck⟩

end Step

variable (hfresh : ∀ v ∈ V, hist v = false)

include hfresh in
/-- The fold of `run` over the rest of the components. -/
theorem foldl : ∀ (rest done : List (List ι)) (st : List ι × List ι) (blocks : List (List ι)),
    TopoOrder (depGraph deps V) (done ++ rest) → (done ++ rest).flatten.Nodup →
    (∀ C ∈ done ++ rest, IsSCC (depGraph deps V) C) → (∀ x ∈ (done ++ rest).flatten, x ∈ V) →
    Progress deps before hist V done st blocks →
    ∃ blocks', Progress deps before hist V (done ++ rest)
      (rest.foldl (fun st comp => executeSCC deps before hist comp st) st) blocks'
  | [], done, st, blocks, _, _, _, _, h => ⟨blocks, by rw [List.append_nil]; exact h⟩
  | C :: rest, done, st, blocks, htopo, hnd, hscc, hV, h => by
    have hnd' : (done.flatten ++ (C ++ rest.flatten)).Nodup := by simpa using hnd
    obtain ⟨blocks₁, h₁⟩ := h.step hfresh (hscc C (by simp)) (htopo done C rest rfl)
      htopo.prefix_closed
      (fun x hx hxd => (List.nodup_append.mp hnd').2.2 x hxd x (List.mem_append_left _ hx) rfl)
      (fun x hx => hV x (by simp [hx])) ((List.nodup_append.mp hnd').2.1.of_append_left)
    have hsplit : done ++ [C] ++ rest = done ++ C :: rest := by simp
    rw [← hsplit] at htopo hnd hscc hV
    obtain ⟨blocks₂, h₂⟩ := foldl rest (done ++ [C]) _ blocks₁ htopo hnd hscc hV h₁
    rw [hsplit] at h₂
    exact ⟨blocks₂, h₂⟩

end Progress

/-- One run of the executor over distinct vertices, none of them executed in the
history, meets `RunSpec`, whatever order the map iteration takes. -/
theorem run_spec (deps : ι → List ι) (before : ι → ι → Bool) (hist : ι → Bool)
    (order : MapOrder ι) (V : List ι) (hVnd : V.Nodup) (hfreshV : ∀ v ∈ V, hist v = false) :
    RunSpec deps before hist V (run deps before hist order V) := by
  have hperm := order.perm V
  have hG : depGraph deps (order.arrange V) = depGraph deps V :=
    depGraph_congr deps fun x => hperm.mem_iff
  -- the components Tarjan's algorithm returns, over the graph of the vertices
  obtain ⟨hflat, hscc, htopo⟩ :=
    strongConnect_spec deps (order.arrange V) (hperm.nodup_iff.mpr hVnd)
  rw [hG] at hscc htopo
  have hcsV : ∀ x, x ∈ (strongConnect deps (order.arrange V)).flatten ↔ x ∈ V :=
    fun x => (hflat.trans hperm).mem_iff
  obtain ⟨blocks, hp⟩ := Progress.foldl hfreshV _ [] _ _ (by simpa using htopo)
    (by simpa using (hflat.trans hperm).nodup_iff.mpr hVnd) (by simpa using hscc)
    (fun x hx => (hcsV x).mp (by simpa using hx)) Progress.init
  rw [List.nil_append] at hp
  refine ⟨hp.nodup, fun v => ⟨fun hv => ?_, fun ⟨hvV, hvu⟩ => ?_⟩, hp.remaining,
    ⟨blocks, hp.executed, hp.blocks_ok⟩⟩
  · have hvcs := hp.sub v hv
    exact ⟨(hcsV v).mp hvcs, (hp.executed_iff v hvcs).mp hv⟩
  · exact (hp.executed_iff v ((hcsV v).mpr hvV)).mpr hvu

/-- One run of the executor over the vertices added with `addExec`, none of
them executed in the history: it meets `RunSpec`, whatever order the map
iteration takes. -/
theorem run_meets_spec (deps : ι → List ι) (before : ι → ι → Bool) (hist : ι → Bool)
    (order : MapOrder ι) (ids : List ι) (hfresh : ∀ v ∈ ids, hist v = false) :
    RunSpec deps before hist (ids.foldl addExec [])
      (run deps before hist order (ids.foldl addExec [])) := by
  -- `addExec` keeps the vertices distinct, and adds only ids of the list
  refine run_spec deps before hist order _ (nodup_foldl_addExec ids [] List.nodup_nil) ?_
  intro v hv
  exact hfresh v (((mem_foldl_addExec ids [] v).mp hv).resolve_left List.not_mem_nil)

/-- Dependencies: `1` and `2` depend on each other and `2` on `3`; `4` depends
on `5`. -/
def cycleDeps : ℕ → List ℕ
  | 1 => [2]
  | 2 => [1, 3]
  | 4 => [5]
  | _ => []

theorem run_meets_spec_cycleDeps :
    (∀ v ∈ [1, 2, 3, 4], (v == 5) = false) ∧
    RunSpec cycleDeps (fun a b => decide (a < b)) (· == 5) ([1, 2, 3, 4].foldl addExec [])
      (run cycleDeps (fun a b => decide (a < b)) (· == 5) (MapOrder.id ℕ)
        ([1, 2, 3, 4].foldl addExec [])) :=
  ⟨by decide, run_meets_spec cycleDeps _ _ (MapOrder.id ℕ) [1, 2, 3, 4] (by decide)⟩

/-- Dependencies: `1` depends on `2`, and `2` on `3`. -/
def staleDeps : ℕ → List ℕ
  | 1 => [2]
  | 2 => [3]
  | _ => []

/-- With the vertex `2` already executed in the history, a run executes `1`,
though `1` reaches, through the vertex `2`, the dependency `3`, which is neither
a vertex nor executed. -/
theorem run_executes_past_executed_vertex :
    [1, 2].foldl addExec [] = [1, 2] ∧
    (run staleDeps (fun _ _ => false) (· == 2) (MapOrder.id ℕ) [1, 2]).2 = [1] ∧
    Reach (depGraph staleDeps [1, 2]) 1 2 ∧ 3 ∈ staleDeps 2 ∧ 3 ∉ [1, 2] ∧ (3 == 2) = false :=
  ⟨rfl, by decide, Reach.single (by decide), by decide, by decide, rfl⟩

end EPaxos
