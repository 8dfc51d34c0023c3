import EPaxos.Executor
import EPaxos.Lib.Digraph
import Mathlib.Data.Finset.Card

/-!
# The invariant of Tarjan's algorithm

The state of a run of `visit` over a graph `E` between two of its updates. The
vertices on the stack are ordered by index, top first; the components recorded
so far are strongly connected components in reverse topological order; and,
for the list `G` of vertices whose `visit` has not returned yet (the gray
vertices, on the stack), every stack vertex reaches a gray vertex at or below
it, and every gray vertex reaches every stack vertex above it.

`enter` pushes a new gray vertex; `lower` changes a lowlink only, which the
invariant does not mention; `popComponent` at a root whose edges stay in its
part of the stack or end in recorded components records a strongly connected
component (`Inv.popComponent`).
-/
set_option linter.unusedSectionVars false

namespace EPaxos

namespace Tarjan

open Digraph

variable {ι : Type} [DecidableEq ι]

/-- The index of a visited vertex. -/
def num (t : Tarjan ι) (x : ι) : ℕ := (t.nodeIndex x).getD 0

section Fields

variable (t : Tarjan ι) (v x : ι) (n : ℕ)

@[simp] theorem enter_index : (t.enter v).index = t.index + 1 := rfl
@[simp] theorem enter_stack : (t.enter v).stack = v :: t.stack := rfl
@[simp] theorem enter_components : (t.enter v).components = t.components := rfl
@[simp] theorem enter_lowlink :
    (t.enter v).lowlink = Function.update t.lowlink v t.index := rfl
@[simp] theorem enter_onStack :
    (t.enter v).onStack = Function.update t.onStack v true := rfl

@[simp] theorem lower_index : (t.lower v n).index = t.index := rfl
@[simp] theorem lower_stack : (t.lower v n).stack = t.stack := rfl
@[simp] theorem lower_components : (t.lower v n).components = t.components := rfl
@[simp] theorem lower_nodeIndex : (t.lower v n).nodeIndex = t.nodeIndex := rfl
@[simp] theorem lower_onStack : (t.lower v n).onStack = t.onStack := rfl
@[simp] theorem lower_visited : (t.lower v n).visited = t.visited := rfl
@[simp] theorem num_lower : num (t.lower v n) x = num t x := rfl

theorem lower_lowlink :
    (t.lower v n).lowlink x = if x = v then min (t.lowlink v) n else t.lowlink x := by
  simp only [lower, Function.update_apply]

@[simp] theorem popComponent_nodeIndex : (t.popComponent v).nodeIndex = t.nodeIndex := rfl
@[simp] theorem popComponent_index : (t.popComponent v).index = t.index := rfl
@[simp] theorem popComponent_lowlink : (t.popComponent v).lowlink = t.lowlink := rfl
@[simp] theorem popComponent_visited : (t.popComponent v).visited = t.visited := rfl
@[simp] theorem num_popComponent : num (t.popComponent v) x = num t x := rfl
@[simp] theorem popComponent_stack : (t.popComponent v).stack = (popUntil v t.stack).2 := rfl
@[simp] theorem popComponent_components :
    (t.popComponent v).components = t.components ++ [(popUntil v t.stack).1] := rfl
@[simp] theorem popComponent_onStack :
    (t.popComponent v).onStack x = if x ∈ (popUntil v t.stack).1 then false else t.onStack x :=
  rfl

theorem visited_iff_nodeIndex : t.visited x = true ↔ t.nodeIndex x ≠ none := by
  simp [visited, Option.isSome_iff_ne_none]

theorem visited_enter : (t.enter v).visited x = true ↔ x = v ∨ t.visited x = true := by
  by_cases hx : x = v
  · subst hx
    simp [visited, enter]
  · simp [visited, enter, hx]

@[simp] theorem num_enter_self : num (t.enter v) v = t.index := by
  simp [num, enter]

theorem num_enter_of_ne {v x : ι} (hx : x ≠ v) : num (t.enter v) x = num t x := by
  simp [num, enter, Function.update_of_ne hx]

end Fields

/-- Popping down to `v` from a stack with `v` below the part `R`. -/
theorem popUntil_append {v : ι} {S : List ι} :
    ∀ {R : List ι}, v ∉ R → popUntil v (R ++ v :: S) = (R ++ [v], S)
  | [], _ => by simp [popUntil]
  | w :: R, hv => by
    have hw : w ≠ v := fun h => hv (h ▸ List.mem_cons_self)
    have hR : v ∉ R := fun h => hv (List.mem_cons_of_mem _ h)
    simp [popUntil, hw, popUntil_append hR]

/-! ## What only grows -/

/-- From `t` to `t'`: indices of visited vertices stay, the counter does not go
down, and recorded components stay recorded. -/
structure Grows (t t' : Tarjan ι) : Prop where
  nodeIndex : ∀ x, t.visited x = true → t'.nodeIndex x = t.nodeIndex x
  index : t.index ≤ t'.index
  done : ∀ x ∈ t.components.flatten, x ∈ t'.components.flatten

namespace Grows

theorem refl (t : Tarjan ι) : Grows t t := ⟨fun _ _ => rfl, le_rfl, fun _ h => h⟩

theorem visited {t t' : Tarjan ι} (h : Grows t t') {x : ι} (hx : t.visited x = true) :
    t'.visited x = true := by
  rw [visited_iff_nodeIndex] at hx ⊢
  rw [h.nodeIndex x (by rwa [visited_iff_nodeIndex])]
  exact hx

theorem num {t t' : Tarjan ι} (h : Grows t t') {x : ι} (hx : t.visited x = true) :
    Tarjan.num t' x = Tarjan.num t x := by
  simp only [Tarjan.num, h.nodeIndex x hx]

theorem trans {t₁ t₂ t₃ : Tarjan ι} (h₁ : Grows t₁ t₂) (h₂ : Grows t₂ t₃) : Grows t₁ t₃ :=
  ⟨fun x hx => (h₂.nodeIndex x (h₁.visited hx)).trans (h₁.nodeIndex x hx),
    h₁.index.trans h₂.index, fun x hx => h₂.done x (h₁.done x hx)⟩

theorem enter {t : Tarjan ι} {v : ι} (hv : t.visited v = false) : Grows t (t.enter v) := by
  refine ⟨fun x hx => ?_, Nat.le_succ _, fun _ h => h⟩
  have hxv : x ≠ v := by
    rintro rfl
    rw [hv] at hx
    cases hx
  exact Function.update_of_ne hxv _ _

theorem lower (t : Tarjan ι) (v : ι) (n : ℕ) : Grows t (t.lower v n) :=
  ⟨fun _ _ => rfl, le_rfl, fun _ h => h⟩

theorem popComponent (t : Tarjan ι) (v : ι) : Grows t (t.popComponent v) := by
  refine ⟨fun _ _ => rfl, le_rfl, fun x hx => ?_⟩
  simp only [popComponent_components, List.flatten_append, List.mem_append]
  exact .inl hx

end Grows

/-! ## The vertices not visited yet

They bound the depth of the recursion of `visit`: each nested call visits one
of them. -/

/-- The vertices of `V` not visited yet. -/
def white (V : List ι) (t : Tarjan ι) : ℕ :=
  (V.toFinset.filter fun x => t.visited x = false).card

theorem white_le {V : List ι} {t t' : Tarjan ι} (h : Grows t t') : white V t' ≤ white V t := by
  refine Finset.card_le_card fun x hx => ?_
  simp only [Finset.mem_filter] at hx ⊢
  refine ⟨hx.1, ?_⟩
  cases hvis : t.visited x
  · rfl
  · rw [h.visited hvis] at hx
    cases hx.2

theorem white_pos {V : List ι} {t : Tarjan ι} {v : ι} (hv : t.visited v = false)
    (hV : v ∈ V) : 0 < white V t :=
  Finset.card_pos.mpr ⟨v, Finset.mem_filter.mpr ⟨List.mem_toFinset.mpr hV, hv⟩⟩

theorem white_enter {V : List ι} {t : Tarjan ι} {v : ι} (hv : t.visited v = false)
    (hV : v ∈ V) : white V (t.enter v) < white V t := by
  have hsub : (V.toFinset.filter fun x => (t.enter v).visited x = false) ⊆
      V.toFinset.filter fun x => t.visited x = false := by
    intro x hx
    simp only [Finset.mem_filter] at hx ⊢
    refine ⟨hx.1, ?_⟩
    cases hvis : t.visited x
    · rfl
    · rw [(Grows.enter hv).visited hvis] at hx
      cases hx.2
  refine Finset.card_lt_card ((Finset.ssubset_iff_of_subset hsub).mpr ⟨v, ?_, ?_⟩)
  · exact Finset.mem_filter.mpr ⟨List.mem_toFinset.mpr hV, hv⟩
  · have hvisv : (t.enter v).visited v = true := (visited_enter t v v).mpr (.inl rfl)
    simp [hvisv]

theorem white_le_length (V : List ι) (t : Tarjan ι) : white V t ≤ V.length :=
  (Finset.card_filter_le _ _).trans (List.toFinset_card_le V)

/-! ## The invariant -/

variable (E : ι → List ι)

/-- The invariant of a run of Tarjan's algorithm over `E`, with the gray
vertices `G`. -/
structure Inv (t : Tarjan ι) (G : List ι) : Prop where
  onStack_iff : ∀ x, t.onStack x = true ↔ x ∈ t.stack
  visited_iff : ∀ x, t.visited x = true ↔ x ∈ t.stack ∨ x ∈ t.components.flatten
  nodup : (t.stack ++ t.components.flatten).Nodup
  num_lt : ∀ x, t.visited x = true → num t x < t.index
  sorted : t.stack.Pairwise fun a b => num t b < num t a
  scc : ∀ C ∈ t.components, IsSCC E C
  topo : TopoOrder E t.components
  gray_sub : ∀ g ∈ G, g ∈ t.stack
  reach_gray : ∀ x ∈ t.stack, ∃ g ∈ G, num t g ≤ num t x ∧ Reach E x g
  gray_reach : ∀ g ∈ G, ∀ x ∈ t.stack, num t g ≤ num t x → Reach E g x

variable {E}

theorem inv_init : Inv E (init : Tarjan ι) [] := by
  refine ⟨fun _ => ?_, fun _ => ?_, List.nodup_nil, fun _ h => ?_, List.Pairwise.nil,
    fun _ h => ?_, TopoOrder.nil, fun _ h => ?_, fun _ h => ?_, fun _ h => ?_⟩ <;>
    simp_all [init, visited]

namespace Inv

variable {t : Tarjan ι} {G : List ι}

theorem not_done_of_mem_stack (h : Inv E t G) {x : ι} (hx : x ∈ t.stack) :
    x ∉ t.components.flatten :=
  List.disjoint_of_nodup_append h.nodup hx

theorem visited_of_mem_stack (h : Inv E t G) {x : ι} (hx : x ∈ t.stack) :
    t.visited x = true :=
  (h.visited_iff x).mpr (.inl hx)

theorem not_mem_stack (h : Inv E t G) {x : ι} (hx : t.visited x = false) : x ∉ t.stack :=
  fun hs => by rw [h.visited_of_mem_stack hs] at hx; cases hx

/-- A visited vertex off the stack is in a recorded component. -/
theorem done_of_off_stack (h : Inv E t G) {x : ι} (hx : t.visited x = true)
    (hs : t.onStack x = false) : x ∈ t.components.flatten := by
  rcases (h.visited_iff x).mp hx with hst | hd
  · rw [(h.onStack_iff x).mpr hst] at hs
    cases hs
  · exact hd

/-- Edges out of recorded components end in recorded components. -/
theorem done_closed (h : Inv E t G) :
    ∀ a ∈ t.components.flatten, ∀ b ∈ E a, b ∈ t.components.flatten := by
  intro a ha b hb
  obtain ⟨C, hC, haC⟩ := List.mem_flatten.mp ha
  obtain ⟨pre, post, hcs⟩ := List.append_of_mem hC
  rcases h.topo pre C post hcs a haC b hb with hbC | hpre
  · exact List.mem_flatten.mpr ⟨C, hC, hbC⟩
  · rw [hcs, List.flatten_append, List.mem_append]
    exact .inl hpre

/-- The stack below a vertex holds smaller indices. -/
theorem num_lt_of_append (h : Inv E t G) {R S : List ι} {x y : ι}
    (hs : t.stack = R ++ x :: S) (hy : y ∈ S) : num t y < num t x := by
  have hsorted := h.sorted
  rw [hs, List.pairwise_append] at hsorted
  exact (List.pairwise_cons.mp hsorted.2.1).1 y hy

theorem num_lt_of_mem_above (h : Inv E t G) {R S : List ι} {x y : ι}
    (hs : t.stack = R ++ x :: S) (hy : y ∈ R) : num t x < num t y := by
  have hsorted := h.sorted
  rw [hs, List.pairwise_append] at hsorted
  exact hsorted.2.2 y hy x List.mem_cons_self

/-- `lower` changes a lowlink only. -/
theorem lower (h : Inv E t G) (v : ι) (n : ℕ) : Inv E (t.lower v n) G :=
  ⟨h.onStack_iff, h.visited_iff, h.nodup, h.num_lt, h.sorted, h.scc, h.topo, h.gray_sub,
    h.reach_gray, h.gray_reach⟩

/-- Entering a new vertex, reachable from every gray vertex, pushes it as the
top gray vertex. -/
theorem enter (h : Inv E t G) {v : ι} (hv : t.visited v = false)
    (hG : ∀ g ∈ G, Reach E g v) : Inv E (t.enter v) (v :: G) := by
  have hvs : v ∉ t.stack := h.not_mem_stack hv
  have hvd : v ∉ t.components.flatten := fun hd => by
    rw [(h.visited_iff v).mpr (.inr hd)] at hv
    cases hv
  -- the indices of the vertices already on the stack do not change
  have hnum : ∀ x ∈ t.stack, num (t.enter v) x = num t x := fun x hx =>
    num_enter_of_ne t (fun h => hvs (h ▸ hx))
  have hlt : ∀ x ∈ t.stack, num t x < t.index := fun x hx =>
    h.num_lt x (h.visited_of_mem_stack hx)
  constructor
  · intro x
    by_cases hx : x = v
    · subst hx
      simp
    · simp [h.onStack_iff, hx]
  · intro x
    rw [visited_enter, h.visited_iff]
    simp only [enter_stack, enter_components, List.mem_cons]
    tauto
  · simp only [enter_stack, enter_components, List.cons_append, List.nodup_cons,
      List.mem_append, not_or]
    exact ⟨⟨hvs, hvd⟩, h.nodup⟩
  · intro x hx
    rcases (visited_enter t v x).mp hx with rfl | hx
    · simp
    · have hxv : x ≠ v := fun h => by rw [h, hv] at hx; cases hx
      rw [num_enter_of_ne t hxv, enter_index]
      exact Nat.lt_succ_of_lt (h.num_lt x hx)
  · simp only [enter_stack, List.pairwise_cons, num_enter_self]
    refine ⟨fun x hx => (hnum x hx).symm ▸ hlt x hx, ?_⟩
    exact h.sorted.imp_of_mem fun ha hb hab => by rw [hnum _ ha, hnum _ hb]; exact hab
  · exact h.scc
  · exact h.topo
  · intro g hg
    rcases List.mem_cons.mp hg with rfl | hg
    · exact List.mem_cons_self
    · exact List.mem_cons_of_mem _ (h.gray_sub g hg)
  · intro x hx
    rcases List.mem_cons.mp hx with rfl | hx
    · exact ⟨x, List.mem_cons_self, le_rfl, Reach.refl x⟩
    · obtain ⟨g, hg, hle, hreach⟩ := h.reach_gray x hx
      refine ⟨g, List.mem_cons_of_mem _ hg, ?_, hreach⟩
      rw [hnum g (h.gray_sub g hg), hnum x hx]
      exact hle
  · intro g hg x hx hle
    rcases List.mem_cons.mp hg with hgv | hgG <;> rcases List.mem_cons.mp hx with hxv | hxS
    · rw [hgv, hxv]
    · -- the new vertex has the largest index
      rw [hgv, num_enter_self, hnum x hxS] at hle
      exact absurd (hlt x hxS) (not_lt.mpr hle)
    · exact hxv ▸ hG g hgG
    · rw [hnum g (h.gray_sub g hgG), hnum x hxS] at hle
      exact h.gray_reach g hgG x hxS hle

/-- The stack part `v :: R` together with the recorded components is closed
under edges, when the edges out of `v :: R` are. -/
theorem closed_of_exits (h : Inv E t G) {v : ι} {R : List ι}
    (hexit : ∀ x ∈ v :: R, ∀ z ∈ E x, z ∈ v :: R ∨ z ∈ t.components.flatten) :
    ∀ a, a ∈ v :: R ∨ a ∈ t.components.flatten →
      ∀ b ∈ E a, b ∈ v :: R ∨ b ∈ t.components.flatten := by
  rintro a (ha | ha) b hb
  · exact hexit a ha b hb
  · exact .inr (h.done_closed a ha b hb)

/-- The part `v :: R` of the stack shares no vertex with the stack `S` below it. -/
theorem not_mem_below (h : Inv E t G) {R S : List ι} (hs : t.stack = R ++ v :: S) :
    ∀ x ∈ v :: R, x ∉ S := by
  have hnd : (R ++ v :: S).Nodup := hs ▸ (List.nodup_append.mp h.nodup).1
  intro x hx hxS
  rcases List.mem_cons.mp hx with rfl | hxR
  · exact (List.nodup_cons.mp (List.nodup_append.mp hnd).2.1).1 hxS
  · exact (List.nodup_append.mp hnd).2.2 x hxR x (List.mem_cons_of_mem _ hxS) rfl

/-- At a root `v` whose part `v :: R` of the stack has no edge to the stack
below it, `R ++ [v]` is a strongly connected component: `v` reaches all of it;
each of its vertices reaches a gray vertex, which can only be `v`; and what it
reaches outside it is recorded, so reaches nothing on the stack. -/
theorem isSCC_of_root (h : Inv E t (v :: G)) {R S : List ι} (hs : t.stack = R ++ v :: S)
    (hG : ∀ g ∈ G, g ∈ S)
    (hexit : ∀ x ∈ v :: R, ∀ z ∈ E x, z ∈ v :: R ∨ z ∈ t.components.flatten) :
    IsSCC E (R ++ [v]) := by
  have hRS := h.not_mem_below hs
  have hmemC : ∀ x, x ∈ R ++ [v] ↔ x ∈ v :: R := fun x => by simp [or_comm]
  have hstk : ∀ x ∈ v :: R, x ∈ t.stack := fun x hx => by
    rw [hs]
    rcases List.mem_cons.mp hx with rfl | hx <;> simp [hx]
  have hclosed := h.closed_of_exits hexit
  -- what `v :: R` reaches stays in it or in the recorded components
  have hreachC : ∀ x ∈ v :: R, ∀ y, Reach E x y → y ∈ v :: R ∨ y ∈ t.components.flatten :=
    fun x hx y hxy => Reach.closed (S := fun a => a ∈ v :: R ∨ a ∈ t.components.flatten)
      hclosed hxy (.inl hx)
  have hreach_done : ∀ x ∈ t.components.flatten, ∀ y, Reach E x y →
      y ∈ t.components.flatten :=
    fun x hx y hxy => Reach.closed (S := fun a => a ∈ t.components.flatten) h.done_closed hxy hx
  have hfrom : ∀ x ∈ v :: R, Reach E v x := by
    intro x hx
    refine h.gray_reach v List.mem_cons_self x (hstk x hx) ?_
    rcases List.mem_cons.mp hx with rfl | hxR
    · exact le_rfl
    · exact (h.num_lt_of_mem_above hs hxR).le
  have hto : ∀ x ∈ v :: R, Reach E x v := by
    intro x hx
    obtain ⟨g, hg, -, hxg⟩ := h.reach_gray x (hstk x hx)
    rcases List.mem_cons.mp hg with rfl | hg
    · exact hxg
    · -- a gray vertex below `v` is neither in `v :: R` nor recorded
      have hgS := hG g hg
      rcases hreachC x hx g hxg with hgC | hgd
      · exact absurd hgS (hRS g hgC)
      · exact absurd hgd (h.not_done_of_mem_stack (by rw [hs]; simp [hgS]))
  refine ⟨by simp, fun x hx y => ?_⟩
  rw [hmemC] at hx ⊢
  constructor
  · intro hy
    exact ⟨(hto x hx).trans (hfrom y hy), (hto y hy).trans (hfrom x hx)⟩
  · rintro ⟨hxy, hyx⟩
    rcases hreachC v List.mem_cons_self y ((hfrom x hx).trans hxy) with hy | hy
    · exact hy
    · have hv := hreach_done y hy v (hyx.trans (hto x hx))
      exact absurd hv (h.not_done_of_mem_stack (hstk v List.mem_cons_self))

/-- At a root `v` whose part `v :: R` of the stack has no edge to the stack
below it, `popComponent` records `R ++ [v]` as a strongly connected component
in reverse topological order. -/
theorem popComponent (h : Inv E t (v :: G)) {R S : List ι} (hs : t.stack = R ++ v :: S)
    (hG : ∀ g ∈ G, g ∈ S)
    (hexit : ∀ x ∈ v :: R, ∀ z ∈ E x, z ∈ v :: R ∨ z ∈ t.components.flatten) :
    Inv E (t.popComponent v) G := by
  have hnd : (R ++ v :: S).Nodup := hs ▸ (List.nodup_append.mp h.nodup).1
  have hvR : v ∉ R := fun hv => (List.nodup_append.mp hnd).2.2 v hv v List.mem_cons_self rfl
  have hRS := h.not_mem_below hs
  have hpop : popUntil v t.stack = (R ++ [v], S) := by rw [hs, popUntil_append hvR]
  have hmemC : ∀ x, x ∈ R ++ [v] ↔ x ∈ v :: R := fun x => by simp [or_comm]
  have hSlt : ∀ x ∈ S, num t x < num t v := fun x hx => h.num_lt_of_append hs hx
  constructor
  · intro x
    rw [popComponent_onStack, popComponent_stack, hpop]
    by_cases hx : x ∈ R ++ [v]
    · simp only [hx, if_true, Bool.false_eq_true, false_iff]
      exact hRS x ((hmemC x).mp hx)
    · simp only [hx, if_false, h.onStack_iff, hs]
      simp only [hmemC, List.mem_cons, not_or] at hx
      simp [hx.1, hx.2]
  · intro x
    rw [popComponent_visited, h.visited_iff, popComponent_stack, popComponent_components, hpop,
      hs]
    simp only [List.flatten_append, List.flatten_singleton, List.mem_append, List.mem_cons]
    tauto
  · rw [popComponent_stack, popComponent_components, hpop]
    refine (List.Perm.nodup_iff ?_).mp h.nodup
    rw [hs, List.flatten_append, List.flatten_singleton]
    exact List.perm_iff_count.mpr fun a => by simp [List.count_append, List.count_cons]; omega
  · exact h.num_lt
  · rw [popComponent_stack, hpop]
    refine h.sorted.sublist ?_
    rw [hs]
    exact (List.sublist_cons_self v S).trans (List.sublist_append_right R _)
  · intro C hC
    rw [popComponent_components, hpop, List.mem_append, List.mem_singleton] at hC
    rcases hC with hC | rfl
    · exact h.scc C hC
    · exact h.isSCC_of_root hs hG hexit
  · rw [popComponent_components, hpop]
    refine TopoOrder.snoc h.topo fun x hx z hz => ?_
    rw [hmemC] at hx ⊢
    exact hexit x hx z hz
  · intro g hg
    rw [popComponent_stack, hpop]
    exact hG g hg
  · intro x hx
    rw [popComponent_stack, hpop] at hx
    obtain ⟨g, hg, hle, hxg⟩ := h.reach_gray x (by rw [hs]; simp [hx])
    rcases List.mem_cons.mp hg with rfl | hg
    · exact absurd (hSlt x hx) (not_lt.mpr hle)
    · exact ⟨g, hg, hle, hxg⟩
  · intro g hg x hx hle
    rw [popComponent_stack, hpop] at hx
    exact h.gray_reach g (List.mem_cons_of_mem _ hg) x (by rw [hs]; simp [hx]) hle

/-- When `v` reaches a vertex below it on the stack, it stops being gray and the
invariant holds with the gray vertices below it. -/
theorem drop_gray (h : Inv E t (v :: G)) {R S : List ι} (hs : t.stack = R ++ v :: S)
    {y : ι} (hy : y ∈ S) (hvy : Reach E v y) : Inv E t G := by
  have hyst : y ∈ t.stack := by rw [hs]; simp [hy]
  refine ⟨h.onStack_iff, h.visited_iff, h.nodup, h.num_lt, h.sorted, h.scc, h.topo,
    fun g hg => h.gray_sub g (List.mem_cons_of_mem _ hg), fun x hx => ?_,
    fun g hg => h.gray_reach g (List.mem_cons_of_mem _ hg)⟩
  obtain ⟨g, hg, hle, hxg⟩ := h.reach_gray x hx
  rcases List.mem_cons.mp hg with rfl | hg
  · -- through `y`, `x` reaches a gray vertex below `v`
    obtain ⟨g', hg', hle', hyg'⟩ := h.reach_gray y hyst
    have hylt : num t y < num t g := h.num_lt_of_append hs hy
    rcases List.mem_cons.mp hg' with rfl | hg'
    · exact absurd hylt (not_lt.mpr hle')
    · exact ⟨g', hg', by omega, (hxg.trans hvy).trans hyg'⟩
  · exact ⟨g, hg, hle, hxg⟩

end Inv

end Tarjan

end EPaxos
