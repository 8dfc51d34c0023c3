import EPaxos.Lib.GoSort
import Mathlib.Logic.Function.Basic

/-!
# The executor of `execute.go`

The executor is generic in its executables. A vertex is named by its
`executableID`; the executable behind it supplies `Dependencies` (`deps`) and
`ExecutesBefore` (`before`). The vertex map is the list of its keys; every loop
over it runs in an order Go leaves unspecified, so `strongConnect` visits the
vertices in the order of the list it is given and `run` takes that order as an
argument.

`Execute` marks an executable as executed in the history and changes nothing
that a run reads. `HasExecuted` during a run is therefore the history at its
start extended by the ids executed so far, and `run` returns those ids in the
order it calls `Execute`.
-/
namespace EPaxos

/-- An order in which Go may range over a map with the given keys: any
permutation of them. -/
structure MapOrder (ι : Type) where
  arrange : List ι → List ι
  perm : ∀ l, (arrange l).Perm l

/-- The keys in the order they are given. -/
def MapOrder.id (ι : Type) : MapOrder ι := ⟨fun l => l, fun l => List.Perm.refl l⟩

variable {ι : Type} [DecidableEq ι]

/-- One run of Tarjan's algorithm: the counter `index`, the stack (top first),
the finished components, and per vertex its `index` (`none` while `-1`), its
`lowlink` and its `onStack` flag. -/
structure Tarjan (ι : Type) where
  index : ℕ
  stack : List ι
  components : List (List ι)
  nodeIndex : ι → Option ℕ
  lowlink : ι → ℕ
  onStack : ι → Bool

namespace Tarjan

/-- The state after `reset` on every node. -/
def init : Tarjan ι := ⟨0, [], [], fun _ => none, fun _ => 0, fun _ => false⟩

/-- `tarjanNode.visited`. -/
def visited (t : Tarjan ι) (v : ι) : Bool := (t.nodeIndex v).isSome

/-- The first lines of `visit`: number `v` and push it. -/
def enter (t : Tarjan ι) (v : ι) : Tarjan ι :=
  { t with
    index := t.index + 1
    stack := v :: t.stack
    nodeIndex := Function.update t.nodeIndex v (some t.index)
    lowlink := Function.update t.lowlink v t.index
    onStack := Function.update t.onStack v true }

/-- `v.lowlink = min(v.lowlink, n)`. -/
def lower (t : Tarjan ι) (v : ι) (n : ℕ) : Tarjan ι :=
  { t with lowlink := Function.update t.lowlink v (min (t.lowlink v) n) }

/-- Pop the stack down to and including `v`, in pop order. -/
def popUntil (v : ι) : List ι → List ι × List ι
  | [] => ([], [])
  | w :: s =>
    if w = v then ([w], s)
    else
      let r := popUntil v s
      (w :: r.1, r.2)

/-- The end of `visit` at a root: pop its component and record it. -/
def popComponent (t : Tarjan ι) (v : ι) : Tarjan ι :=
  let r := popUntil v t.stack
  { t with
    stack := r.2
    onStack := fun x => if x ∈ r.1 then false else t.onStack x
    components := t.components ++ [r.1] }

/-- The loop of `visit` over `v.depNodes`; `visitW` is the recursive `visit`. -/
def visitDeps (visitW : ι → Tarjan ι → Tarjan ι) (v : ι) :
    List ι → Tarjan ι → Tarjan ι
  | [], t => t
  | w :: ws, t =>
    visitDeps visitW v ws <|
      match t.nodeIndex w with
      | none =>
        let t' := visitW w t
        t'.lower v (t'.lowlink w)
      | some iw => if t.onStack w then t.lower v iw else t

/-- `executor.visit`. Every nested call visits a new vertex, so the number of
vertices is enough fuel. -/
def visit (depNodes : ι → List ι) : ℕ → ι → Tarjan ι → Tarjan ι
  | 0, _, t => t
  | fuel + 1, v, t =>
    let t' := visitDeps (visit depNodes fuel) v (depNodes v) (t.enter v)
    if t'.lowlink v = t.index then t'.popComponent v else t'

end Tarjan

/-- `strongConnect` over the vertices in the given iteration order. `depNodes`
keeps the dependencies that are vertices. -/
def strongConnect (deps : ι → List ι) (vertices : List ι) : List (List ι) :=
  let depNodes := fun v => (deps v).filter (· ∈ vertices)
  (vertices.foldl
    (fun t v => if t.visited v then t else Tarjan.visit depNodes vertices.length v t)
    Tarjan.init).components

/-- `executeSCC`: if every dependency of the component is in it or executed,
sort it by `ExecutesBefore` and execute it. The state is the vertex list and the
ids executed so far in this run; `hist` is `HasExecuted` at the start of the run. -/
def executeSCC (deps : ι → List ι) (before : ι → ι → Bool) (hist : ι → Bool)
    (comp : List ι) (st : List ι × List ι) : List ι × List ι :=
  if comp.all fun v => (deps v).all fun d =>
      (decide (d ∈ st.1) && decide (d ∈ comp)) || hist d || decide (d ∈ st.2) then
    let sorted := GoSort.sortSlice before comp
    (st.1.filter (· ∉ sorted), st.2 ++ sorted)
  else st

/-- `executor.run`: the vertices left, and the ids executed, in order. -/
def run (deps : ι → List ι) (before : ι → ι → Bool) (hist : ι → Bool)
    (order : MapOrder ι) (vertices : List ι) : List ι × List ι :=
  (strongConnect deps (order.arrange vertices)).foldl
    (fun st comp => executeSCC deps before hist comp st) (vertices, [])

/-- `addExec`: the vertex map is keyed by id. -/
def addExec (vertices : List ι) (i : ι) : List ι :=
  if i ∈ vertices then vertices else vertices ++ [i]

/-- What a run has executed so far is closed: every dependency of an executed
vertex was executed in the run or before it. -/
def RunClosed (deps : ι → List ι) (hist : ι → Bool) (done : List ι) : Prop :=
  ∀ v ∈ done, ∀ e ∈ deps v, e ∈ done ∨ hist e = true

theorem executeSCC_closed (deps : ι → List ι) (before : ι → ι → Bool) (hist : ι → Bool)
    (comp : List ι) (st : List ι × List ι) (h : RunClosed deps hist st.2) :
    RunClosed deps hist (executeSCC deps before hist comp st).2 := by
  unfold executeSCC
  split_ifs with hcheck
  · intro v hv e he
    rcases List.mem_append.mp hv with hv | hv
    · rcases h v hv e he with h' | h'
      · exact .inl (List.mem_append_left _ h')
      · exact .inr h'
    · -- a dependency of the component passed the check that guards its execution
      have hv' : v ∈ comp := (GoSort.mem_sortSlice before).mp hv
      have hc := List.all_eq_true.mp (List.all_eq_true.mp hcheck v hv') e he
      simp only [Bool.or_eq_true, Bool.and_eq_true, decide_eq_true_eq] at hc
      rcases hc with (⟨-, hec⟩ | hh) | hd
      · exact .inl (List.mem_append_right _ ((GoSort.mem_sortSlice before).mpr hec))
      · exact .inr hh
      · exact .inl (List.mem_append_left _ hd)
  · exact h

/-- Soundness of `run`: it executes a vertex only after every dependency
outside the vertex's own component was executed, and a whole component at
once. -/
theorem run_closed (deps : ι → List ι) (before : ι → ι → Bool) (hist : ι → Bool)
    (order : MapOrder ι) (vertices : List ι) :
    RunClosed deps hist (run deps before hist order vertices).2 := by
  unfold run
  generalize strongConnect deps (order.arrange vertices) = comps
  have key : ∀ (cs : List (List ι)) (st : List ι × List ι), RunClosed deps hist st.2 →
      RunClosed deps hist
        (cs.foldl (fun st comp => executeSCC deps before hist comp st) st).2 := by
    intro cs
    induction cs with
    | nil => exact fun _ h => h
    | cons c cs ih => exact fun st h => ih _ (executeSCC_closed deps before hist c st h)
  exact key comps _ (by simp [RunClosed])

end EPaxos
