import EPaxos.Tarjan.Invariant

/-!
# Tarjan's algorithm is correct

`visit v` from a state with the invariant returns a state with the invariant
(`Post`). Either `v` was a root and its component has been recorded, or `v`
stays on the stack with the part `R` above it, its lowlink is the index of a
vertex below it that it reaches, and every edge out of `v :: R` ends in
`v :: R`, in a recorded component, or at a vertex below `v` whose index is at
least that lowlink. The loop of `visit` over the dependencies of `v` keeps the
same facts for the dependencies seen so far (`Loop`); the proof is by
induction on the fuel, and the fuel `strongConnect` gives, the number of
vertices, is enough since every nested call visits a vertex not visited yet.

Over the whole run of `strongConnect`, the components recorded are then the
strongly connected components of the vertices, each vertex in exactly one, in
reverse topological order (`strongConnect_spec`).
-/
set_option linter.unusedSectionVars false

namespace EPaxos

namespace Tarjan

open Digraph

variable {ι : Type} [DecidableEq ι]

section Equations

variable (visitW : ι → Tarjan ι → Tarjan ι) (v w : ι) (ws : List ι) (u : Tarjan ι)

theorem visitDeps_cons :
    visitDeps visitW v (w :: ws) u = visitDeps visitW v ws (visitDeps visitW v [w] u) := rfl

theorem visitDeps_none (h : u.nodeIndex w = none) :
    visitDeps visitW v [w] u = (visitW w u).lower v ((visitW w u).lowlink w) := by
  simp [visitDeps, h]

theorem visitDeps_onStack {iw : ℕ} (h : u.nodeIndex w = some iw) (hs : u.onStack w = true) :
    visitDeps visitW v [w] u = u.lower v iw := by
  simp [visitDeps, h, hs]

theorem visitDeps_done {iw : ℕ} (h : u.nodeIndex w = some iw) (hs : u.onStack w = false) :
    visitDeps visitW v [w] u = u := by
  simp [visitDeps, h, hs]

end Equations

section Visit

variable (E : ι → List ι) (V : List ι)

/-- What `visit v` from `t`, with the gray vertices `G`, returns. -/
structure Post (G : List ι) (t : Tarjan ι) (v : ι) (t' : Tarjan ι) : Prop where
  inv : Inv E t' G
  grows : Grows t t'
  nodeIndex_v : t'.nodeIndex v = some t.index
  frame : ∀ x, t.visited x = true → t'.lowlink x = t.lowlink x
  new_mem : ∀ x, t'.visited x = true → t.visited x = true ∨ x ∈ V
  result : (t'.stack = t.stack ∧ t'.lowlink v = t.index) ∨
    ∃ R, t'.stack = R ++ v :: t.stack ∧
      (∃ y ∈ t.stack, t'.lowlink v = num t' y ∧ Reach E v y) ∧
      ∀ x ∈ v :: R, ∀ z ∈ E x,
        z ∈ v :: R ∨ z ∈ t'.components.flatten ∨ (z ∈ t.stack ∧ t'.lowlink v ≤ num t' z)

/-- Where an edge out of the part `R` of the stack above `v` may end while `v`
is visited from a state with the stack `S`. -/
def Exit (S R : List ι) (v : ι) (u : Tarjan ι) (z : ι) : Prop :=
  z ∈ R ∨ z = v ∨ z ∈ u.components.flatten ∨ (z ∈ S ∧ u.lowlink v ≤ num u z)

/-- The loop of `visit v` from `t` over the dependencies of `v`, once those in
`seen` are done; the visits so far left `R` on the stack above `v`. -/
structure Loop (G : List ι) (t : Tarjan ι) (v : ι) (seen R : List ι) (u : Tarjan ι) :
    Prop where
  inv : Inv E u (v :: G)
  grows : Grows (t.enter v) u
  fresh : t.visited v = false
  frame : ∀ x, t.visited x = true → u.lowlink x = t.lowlink x
  new_mem : ∀ x, u.visited x = true → t.visited x = true ∨ x ∈ V
  stack : u.stack = R ++ v :: t.stack
  low : u.lowlink v = t.index ∨ ∃ y ∈ t.stack, u.lowlink v = num u y ∧ Reach E v y
  edges : ∀ x ∈ R, ∀ z ∈ E x, Exit t.stack R v u z
  seen_edges : ∀ z ∈ seen, Exit t.stack R v u z

end Visit

variable {E : ι → List ι} {V : List ι}

theorem Exit.mono {S R R' : List ι} {v z : ι} {u u' : Tarjan ι} (h : Exit S R v u z)
    (hg : Grows u u') (hS : ∀ y ∈ S, u.visited y = true) (hlow : u'.lowlink v ≤ u.lowlink v)
    (hR : ∀ x ∈ R, x ∈ R') : Exit S R' v u' z := by
  rcases h with h | h | h | ⟨hz, hle⟩
  · exact .inl (hR z h)
  · exact .inr (.inl h)
  · exact .inr (.inr (.inl (hg.done z h)))
  · refine .inr (.inr (.inr ⟨hz, ?_⟩))
    rw [hg.num (hS z hz)]
    exact hlow.trans hle

/-- A lowlink that is the index `i` of `v` or the index of a vertex below `v`
that `v` reaches stays so when it is lowered to such a value. -/
theorem low_min {f : ι → ℕ} {S : List ι} {i a n : ℕ} (reach : ι → Prop)
    (ha : a = i ∨ ∃ y ∈ S, a = f y ∧ reach y) (hai : a ≤ i)
    (hn : i ≤ n ∨ ∃ y ∈ S, n = f y ∧ reach y) :
    min a n = i ∨ ∃ y ∈ S, min a n = f y ∧ reach y := by
  rcases le_total a n with han | hna
  · rw [min_eq_left han]
    exact ha
  · rw [min_eq_right hna]
    rcases hn with hin | hn
    · left
      omega
    · exact .inr hn

namespace Loop

variable {G : List ι} {t u : Tarjan ι} {v : ι} {seen R : List ι}

theorem visited_of_mem_S (h : Loop E V G t v seen R u) {y : ι} (hy : y ∈ t.stack) :
    u.visited y = true :=
  h.inv.visited_of_mem_stack (by rw [h.stack]; simp [hy])

theorem visited_v (h : Loop E V G t v seen R u) : u.visited v = true :=
  h.inv.visited_of_mem_stack (by rw [h.stack]; simp)

theorem nodeIndex_v (h : Loop E V G t v seen R u) : u.nodeIndex v = some t.index := by
  rw [h.grows.nodeIndex v ((visited_enter t v v).mpr (.inl rfl))]
  simp [enter]

theorem num_v (h : Loop E V G t v seen R u) : num u v = t.index := by
  simp [num, h.nodeIndex_v]

theorem num_lt_of_mem_S (h : Loop E V G t v seen R u) {y : ι} (hy : y ∈ t.stack) :
    num u y < t.index :=
  h.num_v ▸ h.inv.num_lt_of_append h.stack hy

theorem lt_num_of_mem_R (h : Loop E V G t v seen R u) {x : ι} (hx : x ∈ R) :
    t.index < num u x :=
  h.num_v ▸ h.inv.num_lt_of_mem_above h.stack hx

theorem not_mem_R (h : Loop E V G t v seen R u) : v ∉ R := fun hv =>
  absurd (h.lt_num_of_mem_R hv) (by rw [h.num_v]; exact lt_irrefl _)

theorem low_le (h : Loop E V G t v seen R u) : u.lowlink v ≤ t.index := by
  rcases h.low with hl | ⟨y, hy, hl, -⟩
  · exact hl.le
  · rw [hl]
    exact (h.num_lt_of_mem_S hy).le

theorem start {G : List ι} {t : Tarjan ι} {v : ι} (h : Inv E t G)
    (hgray : ∀ g ∈ G, Reach E g v) (hv : t.visited v = false) (hV : v ∈ V) :
    Loop E V G t v [] [] (t.enter v) where
  inv := h.enter hv hgray
  grows := Grows.refl _
  fresh := hv
  frame x hx := by
    have hxv : x ≠ v := fun hxv => by rw [hxv, hv] at hx; cases hx
    simp [Function.update_of_ne hxv]
  new_mem x hx := by
    rcases (visited_enter t v x).mp hx with rfl | hx
    · exact .inr hV
    · exact .inl hx
  stack := rfl
  low := by simp
  edges x hx := by cases hx
  seen_edges z hz := by cases hz

/-- Lowering the lowlink of `v` to its index or above, or to the index of a
vertex below it that it reaches. -/
theorem lower (h : Loop E V G t v seen R u) {n : ℕ}
    (hn : t.index ≤ n ∨ ∃ y ∈ t.stack, n = num u y ∧ Reach E v y) :
    Loop E V G t v seen R (u.lower v n) where
  inv := h.inv.lower v n
  grows := h.grows.trans (Grows.lower u v n)
  fresh := h.fresh
  frame x hx := by
    have hxv : x ≠ v := fun hxv => by rw [hxv, h.fresh] at hx; cases hx
    rw [lower_lowlink, if_neg hxv]
    exact h.frame x hx
  new_mem := h.new_mem
  stack := h.stack
  low := by
    rw [lower_lowlink, if_pos rfl]
    simp only [num_lower]
    exact low_min _ h.low h.low_le hn
  edges x hx z hz := (h.edges x hx z hz).mono (Grows.lower u v n) (fun _ => h.visited_of_mem_S)
    (by rw [lower_lowlink, if_pos rfl]; exact min_le_left _ _) fun _ h => h
  seen_edges z hz := (h.seen_edges z hz).mono (Grows.lower u v n)
    (fun _ => h.visited_of_mem_S) (by rw [lower_lowlink, if_pos rfl]; exact min_le_left _ _)
    fun _ h => h

theorem see (h : Loop E V G t v seen R u) {w : ι} (hw : Exit t.stack R v u w) :
    Loop E V G t v (seen ++ [w]) R u :=
  { h with
    seen_edges := fun z hz => by
      rcases List.mem_append.mp hz with hz | hz
      · exact h.seen_edges z hz
      · rw [List.mem_singleton.mp hz]
        exact hw }

/-- The visit of a dependency `w` returned at a root: nothing above `v` changed. -/
theorem child_root (h : Loop E V G t v seen R u) {w : ι} {u' : Tarjan ι}
    (hp : Post E V (v :: G) u w u') (hstack : u'.stack = u.stack) :
    Loop E V G t v seen R u' where
  inv := hp.inv
  grows := h.grows.trans hp.grows
  fresh := h.fresh
  frame x hx :=
    (hp.frame x (h.grows.visited ((Grows.enter h.fresh).visited hx))).trans (h.frame x hx)
  new_mem x hx := (hp.new_mem x hx).elim (h.new_mem x) .inr
  stack := hstack.trans h.stack
  low := by
    rw [hp.frame v h.visited_v]
    rcases h.low with hl | ⟨y, hy, hl, hr⟩
    · exact .inl hl
    · exact .inr ⟨y, hy, by rw [hl, hp.grows.num (h.visited_of_mem_S hy)], hr⟩
  edges x hx z hz := (h.edges x hx z hz).mono hp.grows (fun _ => h.visited_of_mem_S)
    (le_of_eq (hp.frame v h.visited_v)) fun _ h => h
  seen_edges z hz := (h.seen_edges z hz).mono hp.grows (fun _ => h.visited_of_mem_S)
    (le_of_eq (hp.frame v h.visited_v)) fun _ h => h

/-- The visit of a dependency `w` returned with `w :: Rw` left on the stack:
`v` lowers its lowlink to that of `w`, and `Rw ++ w` joins the part above `v`. -/
theorem child (h : Loop E V G t v seen R u) {w : ι} {u' : Tarjan ι}
    (hp : Post E V (v :: G) u w u') {Rw : List ι} (hstack : u'.stack = Rw ++ w :: u.stack)
    (hy : ∃ y ∈ u.stack, u'.lowlink w = num u' y ∧ Reach E w y)
    (hedges : ∀ x ∈ w :: Rw, ∀ z ∈ E x, z ∈ w :: Rw ∨ z ∈ u'.components.flatten ∨
      (z ∈ u.stack ∧ u'.lowlink w ≤ num u' z))
    (hw : w ∈ E v) :
    Loop E V G t v (seen ++ [w]) (Rw ++ w :: R) (u'.lower v (u'.lowlink w)) := by
  have hvu := h.visited_v
  have hgrows : Grows u (u'.lower v (u'.lowlink w)) := hp.grows.trans (Grows.lower _ _ _)
  have hlow_le : (u'.lower v (u'.lowlink w)).lowlink v ≤ u.lowlink v := by
    rw [lower_lowlink, if_pos rfl, hp.frame v hvu]
    exact min_le_left _ _
  have hlow_w : (u'.lower v (u'.lowlink w)).lowlink v ≤ u'.lowlink w := by
    rw [lower_lowlink, if_pos rfl]
    exact min_le_right _ _
  have hR : ∀ x ∈ R, x ∈ Rw ++ w :: R := fun x hx => by simp [hx]
  have hnum : ∀ y, u.visited y = true → num u' y = num u y := fun y hy => hp.grows.num hy
  -- the lowlink of `w` is the index of `v`, of a vertex above it, or of one below it
  have hn : t.index ≤ u'.lowlink w ∨ ∃ y ∈ t.stack, u'.lowlink w = num u' y ∧ Reach E v y := by
    obtain ⟨y, hyu, hly, hwy⟩ := hy
    have hyv : u.visited y = true := h.inv.visited_of_mem_stack hyu
    rw [h.stack, List.mem_append, List.mem_cons] at hyu
    rcases hyu with hyR | rfl | hyS
    · left
      rw [hly, hnum y hyv]
      exact (h.lt_num_of_mem_R hyR).le
    · left
      rw [hly, hnum _ hyv, h.num_v]
    · exact .inr ⟨y, hyS, hly, Reach.head hw hwy⟩
  refine ⟨hp.inv.lower _ _, h.grows.trans hgrows, h.fresh, fun x hx => ?_,
    fun x hx => (hp.new_mem x hx).elim (h.new_mem x) .inr, ?_, ?_, fun x hx z hz => ?_,
    fun z hz => ?_⟩
  · have hxv : x ≠ v := fun hxv => by rw [hxv, h.fresh] at hx; cases hx
    rw [lower_lowlink, if_neg hxv]
    exact (hp.frame x (h.grows.visited ((Grows.enter h.fresh).visited hx))).trans (h.frame x hx)
  · rw [lower_stack, hstack, h.stack]
    simp
  · rw [lower_lowlink, if_pos rfl, hp.frame v hvu]
    simp only [num_lower]
    have hlow' : u.lowlink v = t.index ∨ ∃ y ∈ t.stack, u.lowlink v = num u' y ∧ Reach E v y := by
      rcases h.low with hl | ⟨y, hy, hl, hr⟩
      · exact .inl hl
      · exact .inr ⟨y, hy, by rw [hl, hnum y (h.visited_of_mem_S hy)], hr⟩
    exact low_min _ hlow' h.low_le hn
  · have hx' : x ∈ w :: Rw ∨ x ∈ R := by
      rcases List.mem_append.mp hx with hxw | hxR
      · exact .inl (List.mem_cons_of_mem _ hxw)
      · rcases List.mem_cons.mp hxR with rfl | hxR
        · exact .inl List.mem_cons_self
        · exact .inr hxR
    rcases hx' with hxw | hxR
    · -- an edge out of the part the visit of `w` left
      rcases hedges x hxw z hz with hzw | hzd | ⟨hzu, hle⟩
      · left
        rcases List.mem_cons.mp hzw with rfl | hzw <;> simp [hzw]
      · exact .inr (.inr (.inl hzd))
      · rw [h.stack, List.mem_append, List.mem_cons] at hzu
        rcases hzu with hzR | rfl | hzS
        · exact .inl (hR z hzR)
        · exact .inr (.inl rfl)
        · exact .inr (.inr (.inr ⟨hzS, hlow_w.trans hle⟩))
    · exact (h.edges x hxR z hz).mono hgrows (fun _ => h.visited_of_mem_S) hlow_le hR
  · rcases List.mem_append.mp hz with hz | hz
    · exact (h.seen_edges z hz).mono hgrows (fun _ => h.visited_of_mem_S) hlow_le hR
    · rw [List.mem_singleton.mp hz]
      exact .inl (by simp)

/-- One dependency `w` of `v`, visited by `visitW` when it is new. -/
theorem step {f : ℕ} {visitW : ι → Tarjan ι → Tarjan ι}
    (hvisit : ∀ w u G', Inv E u G' → (∀ g ∈ G', Reach E g w) → u.visited w = false → w ∈ V →
      white V u ≤ f → Post E V G' u w (visitW w u))
    (hE : ∀ x, ∀ y ∈ E x, y ∈ V) (hgray : ∀ g ∈ G, Reach E g v)
    (h : Loop E V G t v seen R u) {w : ι} (hw : w ∈ E v) (hf : white V u ≤ f) :
    ∃ R', Loop E V G t v (seen ++ [w]) R' (visitDeps visitW v [w] u) := by
  cases hwi : u.nodeIndex w with
  | none =>
    have hwv : u.visited w = false := by simp [visited, hwi]
    have hp := hvisit w u (v :: G) h.inv
      (fun g hg => (List.mem_cons.mp hg).elim (fun hgv => hgv ▸ Reach.single hw)
        fun hgG => (hgray g hgG).tail hw) hwv (hE v w hw) hf
    rw [visitDeps_none visitW v w u hwi]
    rcases hp.result with ⟨hst, hlow⟩ | ⟨Rw, hst, hy, hedges⟩
    · -- `w` was a root: its component is recorded
      have hroot := h.child_root hp hst
      refine ⟨R, (hroot.lower (.inl ?_)).see (.inr (.inr (.inl ?_)))⟩
      · rw [hlow]
        exact Nat.le_of_succ_le h.grows.index
      · have hwvis : (visitW w u).visited w = true := by simp [visited, hp.nodeIndex_v]
        have hoff : (visitW w u).onStack w = false := by
          cases hon : (visitW w u).onStack w
          · rfl
          · rw [(hp.inv.onStack_iff w), hst] at hon
            exact absurd hon (h.inv.not_mem_stack hwv)
        exact hp.inv.done_of_off_stack hwvis hoff
    · exact ⟨Rw ++ w :: R, h.child hp hst hy hedges hw⟩
  | some iw =>
    have hwvis : u.visited w = true := by simp [visited, hwi]
    cases hon : u.onStack w with
    | true =>
      rw [visitDeps_onStack visitW v w u hwi hon]
      have hiw : iw = num u w := by simp [num, hwi]
      have hws : w ∈ u.stack := (h.inv.onStack_iff w).mp hon
      have hlow_w : (u.lower v iw).lowlink v ≤ iw := by
        rw [lower_lowlink, if_pos rfl]
        exact min_le_right _ _
      rw [h.stack, List.mem_append, List.mem_cons] at hws
      rcases hws with hwR | rfl | hwS
      · refine ⟨R, (h.lower (.inl ?_)).see (.inl hwR)⟩
        rw [hiw]
        exact (h.lt_num_of_mem_R hwR).le
      · refine ⟨R, (h.lower (.inl ?_)).see (.inr (.inl rfl))⟩
        rw [hiw, h.num_v]
      · refine ⟨R, (h.lower (.inr ⟨w, hwS, hiw, Reach.single hw⟩)).see
          (.inr (.inr (.inr ⟨hwS, ?_⟩)))⟩
        rw [num_lower, ← hiw]
        exact hlow_w
    | false =>
      rw [visitDeps_done visitW v w u hwi hon]
      exact ⟨R, h.see (.inr (.inr (.inl (h.inv.done_of_off_stack hwvis hon))))⟩

/-- The whole loop over the dependencies `ws` of `v`. -/
theorem run {f : ℕ} {visitW : ι → Tarjan ι → Tarjan ι}
    (hvisit : ∀ w u G', Inv E u G' → (∀ g ∈ G', Reach E g w) → u.visited w = false → w ∈ V →
      white V u ≤ f → Post E V G' u w (visitW w u))
    (hE : ∀ x, ∀ y ∈ E x, y ∈ V) (hgray : ∀ g ∈ G, Reach E g v)
    (hf : white V (t.enter v) ≤ f) :
    ∀ (ws seen R : List ι) (u : Tarjan ι), (∀ w ∈ ws, w ∈ E v) →
      Loop E V G t v seen R u → ∃ R', Loop E V G t v (seen ++ ws) R' (visitDeps visitW v ws u)
  | [], seen, R, u, _, h => ⟨R, by rw [List.append_nil]; exact h⟩
  | w :: ws, seen, R, u, hws, h => by
    obtain ⟨R₁, h₁⟩ :=
      h.step hvisit hE hgray (hws w List.mem_cons_self) ((white_le h.grows).trans hf)
    obtain ⟨R₂, h₂⟩ := run hvisit hE hgray hf ws (seen ++ [w]) R₁ _
      (fun w' hw' => hws w' (List.mem_cons_of_mem _ hw')) h₁
    rw [List.append_assoc, List.singleton_append] at h₂
    exact ⟨R₂, by rw [visitDeps_cons]; exact h₂⟩

/-- An edge out of `v :: R` at a root ends in `v :: R` or in a recorded
component. -/
theorem exit_of_root (h : Loop E V G t v seen R u) (hroot : u.lowlink v = t.index) {z : ι}
    (he : Exit t.stack R v u z) : z ∈ v :: R ∨ z ∈ u.components.flatten := by
  rcases he with hz | rfl | hz | ⟨hzS, hle⟩
  · exact .inl (List.mem_cons_of_mem _ hz)
  · exact .inl List.mem_cons_self
  · exact .inr hz
  · exact absurd (h.num_lt_of_mem_S hzS) (by rw [← hroot]; exact not_lt.mpr hle)

theorem exit_all (h : Loop E V G t v (E v) R u) {x : ι} (hx : x ∈ v :: R) {z : ι}
    (hz : z ∈ E x) : Exit t.stack R v u z := by
  rcases List.mem_cons.mp hx with rfl | hx
  · exact h.seen_edges z hz
  · exact h.edges x hx z hz

/-- At a root, `visit` records the component `R ++ [v]`. -/
theorem root (h : Loop E V G t v (E v) R u) (hroot : u.lowlink v = t.index)
    (hG : ∀ g ∈ G, g ∈ t.stack) : Post E V G t v (u.popComponent v) where
  inv := h.inv.popComponent h.stack hG fun x hx z hz => h.exit_of_root hroot (h.exit_all hx hz)
  grows := (Grows.enter h.fresh).trans (h.grows.trans (Grows.popComponent u v))
  nodeIndex_v := h.nodeIndex_v
  frame := h.frame
  new_mem := h.new_mem
  result := .inl ⟨by rw [popComponent_stack, h.stack, popUntil_append h.not_mem_R], hroot⟩

/-- Off a root, `visit` leaves `R ++ [v]` on the stack. -/
theorem nonroot (h : Loop E V G t v (E v) R u) (hroot : u.lowlink v ≠ t.index) :
    Post E V G t v u := by
  have hlow : ∃ y ∈ t.stack, u.lowlink v = num u y ∧ Reach E v y := h.low.resolve_left hroot
  have ⟨y, hy, _, hvy⟩ := hlow
  refine ⟨h.inv.drop_gray h.stack hy hvy, (Grows.enter h.fresh).trans h.grows, h.nodeIndex_v,
    h.frame, h.new_mem, .inr ⟨R, h.stack, hlow, fun x hx z hz => ?_⟩⟩
  rcases h.exit_all hx hz with hzR | rfl | hzd | hzS
  · exact .inl (List.mem_cons_of_mem _ hzR)
  · exact .inl List.mem_cons_self
  · exact .inr (.inl hzd)
  · exact .inr (.inr hzS)

end Loop

/-- `visit v` from a state with the invariant, on a vertex not visited yet that
every gray vertex reaches, with at least as much fuel as vertices not visited. -/
theorem visit_spec (hE : ∀ x, ∀ y ∈ E x, y ∈ V) :
    ∀ (f : ℕ) (v : ι) (t : Tarjan ι) (G : List ι), Inv E t G → (∀ g ∈ G, Reach E g v) →
      t.visited v = false → v ∈ V → white V t ≤ f → Post E V G t v (visit E f v t)
  | 0, _, _, _, _, _, hv, hV, hf => absurd hf (Nat.not_le.mpr (white_pos hv hV))
  | f + 1, v, t, G, h, hgray, hv, hV, hf => by
    have hf' : white V (t.enter v) ≤ f := by
      have := white_enter hv hV
      omega
    obtain ⟨R, hloop⟩ := Loop.run (visit_spec hE f) hE hgray hf' (E v) [] [] (t.enter v)
      (fun _ h => h) (Loop.start h hgray hv hV)
    rw [List.nil_append] at hloop
    rw [visit]
    split_ifs with hroot
    · exact hloop.root hroot h.gray_sub
    · exact hloop.nonroot hroot

/-- The graph `strongConnect` searches: the dependencies that are vertices. -/
def depGraph (deps : ι → List ι) (vertices : List ι) : ι → List ι :=
  fun v => (deps v).filter (· ∈ vertices)

theorem depGraph_mem {deps : ι → List ι} {vertices : List ι} {x y : ι}
    (h : y ∈ depGraph deps vertices x) : y ∈ vertices := by
  simp only [depGraph, List.mem_filter, decide_eq_true_eq] at h
  exact h.2

/-- Between two vertices of the loop of `strongConnect`: the invariant with no
gray vertex, an empty stack, and only vertices visited. -/
structure Outer (E : ι → List ι) (V : List ι) (t : Tarjan ι) : Prop where
  inv : Inv E t []
  stack : t.stack = []
  sub : ∀ x, t.visited x = true → x ∈ V

theorem Outer.step (hE : ∀ x, ∀ y ∈ E x, y ∈ V) {t : Tarjan ι} (h : Outer E V t) {v : ι}
    (hV : v ∈ V) :
    let t' := if t.visited v then t else visit E V.length v t
    Outer E V t' ∧ Grows t t' ∧ t'.visited v = true := by
  intro t'
  by_cases hv : t.visited v = true
  · have ht' : t' = t := if_pos hv
    rw [ht']
    exact ⟨h, Grows.refl t, hv⟩
  · have ht' : t' = visit E V.length v t := if_neg hv
    rw [Bool.not_eq_true] at hv
    rw [ht']
    have hp := visit_spec hE V.length v t [] h.inv (fun _ hg => by cases hg) hv hV
      (white_le_length V t)
    refine ⟨⟨hp.inv, ?_, fun x hx => (hp.new_mem x hx).elim (h.sub x) id⟩, hp.grows,
      by simp [visited, hp.nodeIndex_v]⟩
    rcases hp.result with ⟨hst, -⟩ | ⟨R, -, ⟨y, hy, -⟩, -⟩
    · rw [hst, h.stack]
    · rw [h.stack] at hy
      cases hy

theorem Outer.foldl (hE : ∀ x, ∀ y ∈ E x, y ∈ V) :
    ∀ (vs : List ι) (t : Tarjan ι), (∀ x ∈ vs, x ∈ V) → Outer E V t →
      let t' := vs.foldl (fun t v => if t.visited v then t else visit E V.length v t) t
      Outer E V t' ∧ Grows t t' ∧ ∀ x ∈ vs, t'.visited x = true
  | [], t, _, h => ⟨h, Grows.refl t, fun _ hx => by cases hx⟩
  | v :: vs, t, hvs, h => by
    obtain ⟨h₁, hg₁, hv₁⟩ := h.step hE (hvs v List.mem_cons_self)
    obtain ⟨h₂, hg₂, hvis⟩ :=
      Outer.foldl hE vs _ (fun x hx => hvs x (List.mem_cons_of_mem _ hx)) h₁
    refine ⟨h₂, hg₁.trans hg₂, fun x hx => ?_⟩
    rcases List.mem_cons.mp hx with rfl | hx
    · exact hg₂.visited hv₁
    · exact hvis x hx

theorem strongConnect_eq (deps : ι → List ι) (vertices : List ι) :
    strongConnect deps vertices = (vertices.foldl (fun t v =>
      if t.visited v then t else visit (depGraph deps vertices) vertices.length v t) init).components :=
  rfl

/-- The loop of `strongConnect` ends with the invariant, an empty stack and
every vertex visited. -/
theorem strongConnect_outer (deps : ι → List ι) (vertices : List ι) :
    ∃ t, Outer (depGraph deps vertices) vertices t ∧ (∀ x ∈ vertices, t.visited x = true) ∧
      strongConnect deps vertices = t.components := by
  have hE : ∀ x, ∀ y ∈ depGraph deps vertices x, y ∈ vertices := fun _ _ h => depGraph_mem h
  have hinit : Outer (depGraph deps vertices) vertices init :=
    ⟨inv_init, rfl, fun x hx => by simp [init, visited] at hx⟩
  obtain ⟨hout, -, hvis⟩ := Outer.foldl hE vertices init (fun _ h => h) hinit
  exact ⟨_, hout, hvis, strongConnect_eq deps vertices⟩

/-- The components `strongConnect` returns hold every vertex, once. -/
theorem strongConnect_flatten (deps : ι → List ι) (vertices : List ι) :
    (strongConnect deps vertices).flatten.Nodup ∧
      ∀ x, x ∈ (strongConnect deps vertices).flatten ↔ x ∈ vertices := by
  obtain ⟨t, hout, hvis, heq⟩ := strongConnect_outer deps vertices
  rw [heq]
  -- with an empty stack, the visited vertices are the recorded ones
  have hnd := hout.inv.nodup
  rw [hout.stack, List.nil_append] at hnd
  refine ⟨hnd, fun x => ?_⟩
  have hvi := hout.inv.visited_iff x
  rw [hout.stack] at hvi
  simp only [List.not_mem_nil, false_or] at hvi
  rw [← hvi]
  exact ⟨hout.sub x, hvis x⟩

/-- `strongConnect` lists every vertex exactly once, in strongly connected
components of the graph of dependencies that are vertices, in reverse
topological order. -/
theorem strongConnect_spec (deps : ι → List ι) (vertices : List ι) (hV : vertices.Nodup) :
    (strongConnect deps vertices).flatten.Perm vertices ∧
    (∀ C ∈ strongConnect deps vertices, IsSCC (depGraph deps vertices) C) ∧
    TopoOrder (depGraph deps vertices) (strongConnect deps vertices) := by
  obtain ⟨t, hout, -, heq⟩ := strongConnect_outer deps vertices
  obtain ⟨hnd, hmem⟩ := strongConnect_flatten deps vertices
  rw [heq] at hnd hmem ⊢
  exact ⟨(List.perm_ext_iff_of_nodup hnd hV).mpr hmem, hout.inv.scc, hout.inv.topo⟩

/-- `strongConnect` partitions the vertices into the strongly connected
components of the graph of dependencies that are vertices, and lists them in
reverse topological order: no edge leads from a component to a later one. -/
theorem strongConnect_correct (deps : ι → List ι) (vertices : List ι) :
    (∀ C ∈ strongConnect deps vertices, C ≠ []) ∧
    (strongConnect deps vertices).flatten.Nodup ∧
    (∀ x, x ∈ (strongConnect deps vertices).flatten ↔ x ∈ vertices) ∧
    (∀ C ∈ strongConnect deps vertices, IsSCC (depGraph deps vertices) C) ∧
    ∀ i j (hi : i < (strongConnect deps vertices).length)
      (hj : j < (strongConnect deps vertices).length), i < j →
      ∀ x ∈ (strongConnect deps vertices)[i], ∀ y ∈ (strongConnect deps vertices)[j],
        y ∉ depGraph deps vertices x := by
  obtain ⟨t, hout, -, heq⟩ := strongConnect_outer deps vertices
  obtain ⟨hnd, hmem⟩ := strongConnect_flatten deps vertices
  have hscc : ∀ C ∈ strongConnect deps vertices, IsSCC (depGraph deps vertices) C :=
    heq ▸ hout.inv.scc
  have htopo : TopoOrder (depGraph deps vertices) (strongConnect deps vertices) :=
    heq ▸ hout.inv.topo
  exact ⟨fun C hC => (hscc C hC).1, hnd, hmem, hscc,
    fun i j hi hj hij x hx y hy => htopo.not_mem_of_lt hnd hi hj hij hx hy⟩

end Tarjan

end EPaxos
