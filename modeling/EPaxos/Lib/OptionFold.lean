import Mathlib.Data.List.Basic

/-!
# Loops that may panic

A Go loop whose body may panic is a `List.foldlM` in `Option`. Two rules
cover what is proved about such loops: the loop returns when every iteration
does (`foldlM_isSome`), and a property indexed by what is left of the list
holds at the end when every iteration that returns carries it one element on
(`foldlM_invariant`). A loop commutes with a map of its state that each
iteration commutes with (`foldlM_map`), and a loop that carries extra state it
does not read computes what the loop without it computes (`foldlM_map_fst`). A
`mapM` whose calls all return returns their results (`mapM_eq_some_filterMap`).
-/
namespace OptionFold

variable {α β : Type*} (f : β → α → Option β)

theorem foldlM_isSome (hstep : ∀ b a, (f b a).isSome) :
    ∀ (l : List α) (b : β), (l.foldlM f b).isSome
  | [], _ => rfl
  | a :: l, b => by
    obtain ⟨b', hb'⟩ := Option.isSome_iff_exists.mp (hstep b a)
    rw [List.foldlM_cons, hb', Option.bind_eq_bind, Option.bind_some]
    exact foldlM_isSome hstep l b'

theorem foldlM_invariant (I : List α → β → Prop)
    (hstep : ∀ a l b b', I (a :: l) b → f b a = some b' → I l b') :
    ∀ (l : List α) (b b' : β), I l b → l.foldlM f b = some b' → I [] b'
  | [], b, b', hb, h => by
    rw [List.foldlM_nil, Option.pure_def, Option.some.injEq] at h
    exact h ▸ hb
  | a :: l, b, b', hb, h => by
    rw [List.foldlM_cons, Option.bind_eq_bind, Option.bind_eq_some_iff] at h
    obtain ⟨b₁, hb₁, hrest⟩ := h
    exact foldlM_invariant I hstep l b₁ b' (hstep a l b b₁ hb hb₁) hrest

/-- The invariant form for a relation to the start, such as "reachable from it
by the calls of one iteration". -/
theorem foldlM_rel (R : β → β → Prop) (hrefl : ∀ b, R b b)
    (htrans : ∀ b₁ b₂ b₃, R b₁ b₂ → R b₂ b₃ → R b₁ b₃)
    (hstep : ∀ a b b', f b a = some b' → R b b') (l : List α) (b b' : β)
    (h : l.foldlM f b = some b') : R b b' :=
  foldlM_invariant f (fun _ c => R b c) (fun a _ c c' hc hc' => htrans _ _ _ hc (hstep a c c' hc'))
    l b b' (hrefl b) h

/-- A loop commutes with a map of its state that every iteration commutes with. -/
theorem foldlM_map (g : β → β) (hstep : ∀ b a, f (g b) a = (f b a).map g) :
    ∀ (l : List α) (b : β), l.foldlM f (g b) = (l.foldlM f b).map g
  | [], _ => rfl
  | a :: l, b => by
    rw [List.foldlM_cons, List.foldlM_cons, hstep]
    cases f b a with
    | none => rfl
    | some b' => exact foldlM_map g hstep l b'

/-- A loop whose state carries a second part, of which each iteration reads
only what an invariant fixes, computes on the first part what the loop without
it computes. -/
theorem foldlM_map_fst {γ : Type*} (g : β × γ → α → Option (β × γ)) (P : γ → Prop)
    (hstep : ∀ b c a, P c → (g (b, c) a).map Prod.fst = f b a ∧ ∀ x ∈ g (b, c) a, P x.2) :
    ∀ (l : List α) (b : β) (c : γ), P c → (l.foldlM g (b, c)).map Prod.fst = l.foldlM f b
  | [], _, _, _ => rfl
  | a :: l, b, c, hc => by
    obtain ⟨hmap, hinv⟩ := hstep b c a hc
    rw [List.foldlM_cons, List.foldlM_cons]
    cases hg : g (b, c) a with
    | none =>
      rw [hg, Option.map_none] at hmap
      rw [← hmap]
      rfl
    | some x =>
      rw [hg, Option.map_some] at hmap
      rw [← hmap, Option.bind_eq_bind, Option.bind_some, Option.bind_eq_bind, Option.bind_some]
      exact foldlM_map_fst g P hstep l x.1 x.2 (hinv x (hg ▸ rfl))

/-- `mapM` in `Option` returns the images when no element fails. -/
theorem mapM_eq_some_filterMap {γ : Type*} (h : α → Option γ) :
    ∀ {l : List α}, (∀ a ∈ l, (h a).isSome) → l.mapM h = some (l.filterMap h)
  | [], _ => rfl
  | a :: l, hl => by
    obtain ⟨c, hc⟩ := Option.isSome_iff_exists.mp (hl a List.mem_cons_self)
    rw [List.mapM_cons, hc, mapM_eq_some_filterMap h fun x hx => hl x (List.mem_cons_of_mem _ hx),
      List.filterMap_cons_some hc]
    rfl

end OptionFold
