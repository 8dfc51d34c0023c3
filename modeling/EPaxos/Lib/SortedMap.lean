import Mathlib.Order.Lattice
import Mathlib.Data.List.Basic

/-!
# Finite maps kept in key order

An ordered key-value store whose iterator walks the keys in increasing order
is the list of its entries, strictly increasing by key. `insert` overwrites the
entry of an equal key. A walk from the smallest key that stops at the first key
failing a test reads `takeWhile` of the list.
-/

/-- The entries of a finite map, strictly increasing by key. -/
structure SortedMap (κ : Type*) (ν : Type*) [LinearOrder κ] where
  entries : List (κ × ν)
  sorted : entries.Pairwise fun a b => a.1 < b.1

namespace SortedMap

variable {κ ν : Type*} [LinearOrder κ]

def empty : SortedMap κ ν := ⟨[], .nil⟩

/-- Insertion into a list kept in key order, overwriting an equal key. -/
def insertAux (k : κ) (v : ν) : List (κ × ν) → List (κ × ν)
  | [] => [(k, v)]
  | e :: rest =>
    if k < e.1 then (k, v) :: e :: rest
    else if k = e.1 then (k, v) :: rest
    else e :: insertAux k v rest

theorem mem_insertAux {k : κ} {v : ν} {e : κ × ν} :
    ∀ {l : List (κ × ν)}, e ∈ insertAux k v l → e = (k, v) ∨ e ∈ l
  | [], h => .inl (List.mem_singleton.mp h)
  | e' :: rest, h => by
    unfold insertAux at h
    split_ifs at h
    · exact (List.mem_cons.mp h).imp_right id
    · exact (List.mem_cons.mp h).imp_right (List.mem_cons_of_mem _)
    · rcases List.mem_cons.mp h with rfl | h
      · exact .inr List.mem_cons_self
      · exact (mem_insertAux h).imp_right (List.mem_cons_of_mem _)

theorem mem_insertAux_self (k : κ) (v : ν) : ∀ l : List (κ × ν), (k, v) ∈ insertAux k v l
  | [] => List.mem_singleton_self _
  | e :: rest => by
    unfold insertAux
    split_ifs
    · exact List.mem_cons_self
    · exact List.mem_cons_self
    · exact List.mem_cons_of_mem _ (mem_insertAux_self k v rest)

/-- Every key of the list stays, with the new key. -/
theorem key_mem_insertAux {k : κ} {v : ν} :
    ∀ {l : List (κ × ν)} {e : κ × ν}, e ∈ l → ∃ w, (e.1, w) ∈ insertAux k v l
  | [], _, h => absurd h List.not_mem_nil
  | e' :: rest, e, h => by
    unfold insertAux
    split_ifs with hlt heq
    · exact ⟨e.2, List.mem_cons_of_mem _ h⟩
    · rcases List.mem_cons.mp h with rfl | h
      · exact ⟨v, by rw [← heq]; exact List.mem_cons_self⟩
      · exact ⟨e.2, List.mem_cons_of_mem _ h⟩
    · rcases List.mem_cons.mp h with rfl | h
      · exact ⟨e.2, List.mem_cons_self⟩
      · obtain ⟨w, hw⟩ := key_mem_insertAux (k := k) (v := v) h
        exact ⟨w, List.mem_cons_of_mem _ hw⟩

theorem insertAux_sorted (k : κ) (v : ν) :
    ∀ {l : List (κ × ν)}, l.Pairwise (fun a b => a.1 < b.1) →
      (insertAux k v l).Pairwise fun a b => a.1 < b.1
  | [], _ => List.pairwise_singleton _ _
  | e :: rest, h => by
    rw [List.pairwise_cons] at h
    unfold insertAux
    split_ifs with hlt heq
    · refine List.pairwise_cons.mpr ⟨fun z hz => ?_, List.pairwise_cons.mpr h⟩
      rcases List.mem_cons.mp hz with rfl | hz
      · exact hlt
      · exact lt_trans hlt (h.1 z hz)
    · exact List.pairwise_cons.mpr ⟨fun z hz => heq ▸ h.1 z hz, h.2⟩
    · refine List.pairwise_cons.mpr ⟨fun z hz => ?_, insertAux_sorted k v h.2⟩
      rcases mem_insertAux hz with rfl | hz
      · exact lt_of_le_of_ne (not_lt.mp hlt) (Ne.symm heq)
      · exact h.1 z hz

/-- After an insertion into a list kept in key order the entries are the new
one and the old ones of the other keys. -/
theorem mem_insertAux_iff {k : κ} {v : ν} {e : κ × ν} :
    ∀ {l : List (κ × ν)}, l.Pairwise (fun a b => a.1 < b.1) →
      (e ∈ insertAux k v l ↔ e = (k, v) ∨ e ∈ l ∧ e.1 ≠ k)
  | [], _ => by simp [insertAux]
  | e' :: rest, h => by
    rw [List.pairwise_cons] at h
    unfold insertAux
    split_ifs with hlt heq
    · -- every old key lies above `k`
      rw [List.mem_cons]
      refine or_congr_right ⟨fun he => ⟨he, fun hk => ?_⟩, fun he => he.1⟩
      rcases List.mem_cons.mp he with rfl | he
      · exact lt_irrefl _ (hk ▸ hlt)
      · exact lt_irrefl _ (hk ▸ hlt.trans (h.1 e he))
    · -- `e'` is overwritten, and the rest lies above it
      subst heq
      rw [List.mem_cons, List.mem_cons]
      refine or_congr_right ⟨fun he => ⟨.inr he, fun hk => ?_⟩, fun he => ?_⟩
      · exact lt_irrefl _ (hk ▸ h.1 e he)
      · exact he.1.resolve_left fun he' => he.2 (he' ▸ rfl)
    · have hne : e'.1 ≠ k := fun h' => heq h'.symm
      rw [List.mem_cons, mem_insertAux_iff h.2, List.mem_cons]
      constructor
      · rintro (rfl | rfl | ⟨he, hk⟩)
        · exact .inr ⟨.inl rfl, hne⟩
        · exact .inl rfl
        · exact .inr ⟨.inr he, hk⟩
      · rintro (rfl | ⟨rfl | he, hk⟩)
        · exact .inr (.inl rfl)
        · exact .inl rfl
        · exact .inr (.inr ⟨he, hk⟩)

/-- A key has one value in a list kept in key order. -/
theorem eq_of_mem_of_mem {k : κ} {v w : ν} :
    ∀ {l : List (κ × ν)}, l.Pairwise (fun a b => a.1 < b.1) → (k, v) ∈ l → (k, w) ∈ l → v = w
  | [], _, hv, _ => absurd hv List.not_mem_nil
  | e :: rest, h, hv, hw => by
    rw [List.pairwise_cons] at h
    rcases List.mem_cons.mp hv with hev | hvr <;> rcases List.mem_cons.mp hw with hew | hwr
    · exact (Prod.mk.inj (hev.trans hew.symm)).2
    · subst hev
      exact absurd (h.1 _ hwr) (lt_irrefl _)
    · subst hew
      exact absurd (h.1 _ hvr) (lt_irrefl _)
    · exact eq_of_mem_of_mem h.2 hvr hwr

/-- `Set`: the value of `k` becomes `v`. -/
def insert (m : SortedMap κ ν) (k : κ) (v : ν) : SortedMap κ ν :=
  ⟨insertAux k v m.entries, insertAux_sorted k v m.sorted⟩

theorem mem_insert {m : SortedMap κ ν} {k : κ} {v : ν} {e : κ × ν}
    (h : e ∈ (m.insert k v).entries) : e = (k, v) ∨ e ∈ m.entries :=
  mem_insertAux h

theorem mem_insert_self (m : SortedMap κ ν) (k : κ) (v : ν) : (k, v) ∈ (m.insert k v).entries :=
  mem_insertAux_self k v m.entries

theorem mem_insert_iff {m : SortedMap κ ν} {k : κ} {v : ν} {e : κ × ν} :
    e ∈ (m.insert k v).entries ↔ e = (k, v) ∨ e ∈ m.entries ∧ e.1 ≠ k :=
  mem_insertAux_iff m.sorted

theorem eq_of_mem {m : SortedMap κ ν} {k : κ} {v w : ν} (hv : (k, v) ∈ m.entries)
    (hw : (k, w) ∈ m.entries) : v = w :=
  eq_of_mem_of_mem m.sorted hv hw

/-- `Get`: the value of a key, if the map holds it. -/
def get (m : SortedMap κ ν) (k : κ) : Option ν := m.entries.lookup k

theorem get_eq_some_iff {m : SortedMap κ ν} {k : κ} {v : ν} :
    m.get k = some v ↔ (k, v) ∈ m.entries := by
  have hmem : ∀ {w : ν}, m.get k = some w → (k, w) ∈ m.entries := fun h => by
    obtain ⟨l₁, l₂, hl, -⟩ := List.lookup_eq_some_iff.mp h
    rw [hl]
    exact List.mem_append_right l₁ List.mem_cons_self
  refine ⟨hmem, fun hv => ?_⟩
  -- the key is there, and its one value is `v`
  obtain ⟨w, hw⟩ := Option.isSome_iff_exists.mp
    (List.lookup_isSome_iff.mpr ⟨(k, v), hv, beq_self_eq_true k⟩)
  have hw' : m.get k = some w := hw
  rw [hw', eq_of_mem (hmem hw') hv]

/-- `Get` after `Set`. -/
theorem get_insert (m : SortedMap κ ν) (k k' : κ) (v : ν) :
    (m.insert k v).get k' = if k' = k then some v else m.get k' := by
  refine Option.ext fun w => ?_
  rw [get_eq_some_iff, mem_insert_iff]
  split_ifs with h
  · subst h
    simp [eq_comm]
  · simp [h, get_eq_some_iff]

/-- A walk from the smallest key reads nothing when the map holds a key below
every key that passes the test. -/
theorem takeWhile_eq_nil {m : SortedMap κ ν} {p : κ → Bool} {k : κ} {v : ν}
    (hk : (k, v) ∈ m.entries)
    (hmin : ∀ e ∈ m.entries, p e.1 = true → k < e.1) :
    m.entries.takeWhile (fun e => p e.1) = [] := by
  obtain ⟨l, hl⟩ := m
  cases l with
  | nil => rfl
  | cons e rest =>
    by_cases he : p e.1 = true
    · -- the first key passes, so it lies above `k`, which it cannot
      exfalso
      have hlt := hmin e List.mem_cons_self he
      rcases List.mem_cons.mp hk with rfl | hk
      · exact lt_irrefl _ hlt
      · exact lt_asymm hlt ((List.pairwise_cons.mp hl).1 _ hk)
    · exact List.takeWhile_cons_of_neg he

end SortedMap
