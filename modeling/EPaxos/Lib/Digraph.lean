import Mathlib.Logic.Relation
import Mathlib.Data.List.Flatten
import Mathlib.Data.List.Nodup

/-!
# Graphs given by adjacency lists

A graph on `ι` is a function from a vertex to the list of its successors.
`Reach` is the reflexive transitive closure of its edges. A strongly connected
component is listed as the list of its members (`IsSCC`), and a list of
components is in reverse topological order when every edge out of a component
ends in it or in a component listed before it (`TopoOrder`): processing the
list from the front meets every component after the components it depends on.
-/
namespace Digraph

variable {ι : Type*} (E : ι → List ι)

/-- `y` is reachable from `x` along edges `a → b` with `b ∈ E a`. -/
def Reach : ι → ι → Prop := Relation.ReflTransGen fun a b => b ∈ E a

/-- `C` is a strongly connected component: it is not empty, and its members are
exactly the vertices mutually reachable with any one of them. -/
def IsSCC (C : List ι) : Prop :=
  C ≠ [] ∧ ∀ x ∈ C, ∀ y, y ∈ C ↔ Reach E x y ∧ Reach E y x

/-- Every edge out of a component ends in it or in a component listed before it. -/
def TopoOrder (cs : List (List ι)) : Prop :=
  ∀ pre C post, cs = pre ++ C :: post → ∀ x ∈ C, ∀ y ∈ E x, y ∈ C ∨ y ∈ pre.flatten

variable {E}

namespace Reach

@[refl] theorem refl (x : ι) : Reach E x x := Relation.ReflTransGen.refl

theorem single {x y : ι} (h : y ∈ E x) : Reach E x y := Relation.ReflTransGen.single h

@[trans] theorem trans {x y z : ι} (h : Reach E x y) (h' : Reach E y z) : Reach E x z :=
  Relation.ReflTransGen.trans h h'

theorem head {x y z : ι} (h : y ∈ E x) (h' : Reach E y z) : Reach E x z :=
  Relation.ReflTransGen.head h h'

theorem tail {x y z : ι} (h : Reach E x y) (h' : z ∈ E y) : Reach E x z :=
  Relation.ReflTransGen.tail h h'

/-- A set closed under edges holds everything reachable from its members. -/
theorem closed {S : ι → Prop} (hS : ∀ a, S a → ∀ b ∈ E a, S b) {x y : ι}
    (h : Reach E x y) (hx : S x) : S y := by
  induction h with
  | refl => exact hx
  | tail _ hbc ih => exact hS _ ih _ hbc

/-- A path from inside a set to outside it crosses an edge that leaves the set. -/
theorem exit {S : ι → Prop} {x y : ι} (h : Reach E x y) (hx : S x) (hy : ¬S y) :
    ∃ a b, S a ∧ b ∈ E a ∧ ¬S b ∧ Reach E b y := by
  induction h using Relation.ReflTransGen.head_induction_on with
  | refl => exact absurd hx hy
  | @head a b hab hbc ih =>
    by_cases hb : S b
    · exact ih hb
    · exact ⟨a, b, hx, hab, hb, hbc⟩

/-- A path from a set, whose edges out of the set's members are edges of `E'`
into the set, is a path of `E'` that ends in the set. -/
theorem mono_on {E' : ι → List ι} {S : ι → Prop} (hE : ∀ a, S a → ∀ b ∈ E a, b ∈ E' a ∧ S b)
    {x y : ι} (h : Reach E x y) (hx : S x) : Reach E' x y ∧ S y := by
  induction h with
  | refl => exact ⟨.refl x, hx⟩
  | tail _ hbc ih =>
    obtain ⟨hxb, hb⟩ := ih
    obtain ⟨hbc', hc⟩ := hE _ hb _ hbc
    exact ⟨hxb.tail hbc', hc⟩

/-- A path whose edges into vertices that still reach its end are edges of `E'`
is a path of `E'`. -/
theorem mono_toward {E' : ι → List ι} {x y : ι} (h : Reach E x y)
    (hE : ∀ a, ∀ b ∈ E a, Reach E b y → b ∈ E' a) : Reach E' x y := by
  induction h using Relation.ReflTransGen.head_induction_on with
  | refl => exact .refl _
  | @head a b hab hby ih => exact .head (hE a b hab hby) ih

end Reach

/-- A property of every split `pre ++ b :: post` of a list, in terms of the part
before `b`, holds of the list with one more element when it holds at that
element. -/
theorem forall_split_snoc {α : Type*} {P : List α → α → Prop} {l : List α} {x : α}
    (h : ∀ pre b post, l = pre ++ b :: post → P pre b) (hx : P l x) :
    ∀ pre b post, l ++ [x] = pre ++ b :: post → P pre b := by
  intro pre b post heq
  rcases List.eq_nil_or_concat post with rfl | ⟨L, c, rfl⟩
  · -- the split at the last element
    obtain ⟨rfl, hb⟩ := List.append_inj' heq rfl
    rw [List.singleton_inj] at hb
    exact hb ▸ hx
  · have heq' : l ++ [x] = (pre ++ b :: L) ++ [c] := by
      rw [heq]
      simp
    obtain ⟨hl, -⟩ := List.append_inj' heq' rfl
    exact h pre b L hl

namespace TopoOrder

theorem nil : TopoOrder E [] := fun pre C post h => by
  cases pre <;> cases h

/-- Appending a component whose edges end in it or in the components before it. -/
theorem snoc {cs : List (List ι)} {C : List ι} (h : TopoOrder E cs)
    (hC : ∀ x ∈ C, ∀ y ∈ E x, y ∈ C ∨ y ∈ cs.flatten) : TopoOrder E (cs ++ [C]) :=
  forall_split_snoc h hC

/-- The components of a prefix hold every edge out of them. -/
theorem prefix_closed {pre rest : List (List ι)} (h : TopoOrder E (pre ++ rest)) :
    ∀ x ∈ pre.flatten, ∀ y ∈ E x, y ∈ pre.flatten := by
  intro x hx y hy
  obtain ⟨C, hC, hxC⟩ := List.mem_flatten.mp hx
  obtain ⟨p₁, p₂, rfl⟩ := List.append_of_mem hC
  rcases h p₁ C (p₂ ++ rest) (by simp) x hxC y hy with hyC | hy₁
  · exact List.mem_flatten.mpr ⟨C, hC, hyC⟩
  · simp only [List.flatten_append, List.mem_append]
    exact .inl hy₁

/-- Over components that share no vertex, no edge leads from a component to
one listed after it. -/
theorem not_mem_of_lt {cs : List (List ι)} (h : TopoOrder E cs) (hnd : cs.flatten.Nodup)
    {i j : ℕ} (hi : i < cs.length) (hj : j < cs.length) (hij : i < j) {x y : ι}
    (hx : x ∈ cs[i]) (hy : y ∈ cs[j]) : y ∉ E x := by
  intro hxy
  -- the component `j` shares no vertex with one listed before it
  have hdisj : ∀ k (hk : k < cs.length), k < j → y ∉ cs[k] := fun k hk hkj hyk =>
    List.pairwise_iff_getElem.mp (List.nodup_flatten.mp hnd).2 k j hk hj hkj hyk hy
  have hsplit : cs = cs.take i ++ cs[i] :: cs.drop (i + 1) := by
    rw [List.getElem_cons_drop, List.take_append_drop]
  rcases h _ _ _ hsplit x hx y hxy with hyi | hpre
  · exact hdisj i hi hij hyi
  · obtain ⟨C, hC, hyC⟩ := List.mem_flatten.mp hpre
    obtain ⟨k, hk, rfl⟩ := List.getElem_of_mem hC
    rw [List.length_take] at hk
    rw [List.getElem_take] at hyC
    exact hdisj k (by omega) (by omega) hyC

end TopoOrder

end Digraph
