import Mathlib.Order.Lattice
import Mathlib.Data.List.Basic

/-!
# Lists of separated half-open intervals

An interval `r` of a list stands for the points `x` with `lo r ≤ x < hi r`. A
list of intervals is separated when every interval is non-empty and ends
strictly before each later one starts. A separated list is the canonical form of
the set of points it covers: a non-empty interval of covered points lies inside
one interval of the list (`exists_of_forall_covers`), so a walk that compares a
query with one interval at a time answers questions about the whole set.
-/
namespace IntervalList

variable {ρ α : Type*} [LinearOrder α] (lo hi : ρ → α)

/-- `x` lies in the interval `r`. -/
def Mem (x : α) (r : ρ) : Prop := lo r ≤ x ∧ x < hi r

/-- `x` lies in one interval of the list. -/
def Covers (l : List ρ) (x : α) : Prop := ∃ r ∈ l, Mem lo hi x r

/-- Every interval is non-empty and ends strictly before each later one starts. -/
structure Separated (l : List ρ) : Prop where
  nonempty : ∀ r ∈ l, lo r < hi r
  gaps : l.Pairwise fun a b => hi a < lo b

variable {lo hi}

@[simp] theorem covers_nil (x : α) : ¬Covers lo hi ([] : List ρ) x := by
  rintro ⟨r, hr, -⟩
  exact List.not_mem_nil hr

@[simp] theorem covers_cons {r : ρ} {l : List ρ} {x : α} :
    Covers lo hi (r :: l) x ↔ Mem lo hi x r ∨ Covers lo hi l x := by
  simp [Covers]

namespace Separated

variable {r : ρ} {l : List ρ}

theorem nil : Separated lo hi ([] : List ρ) :=
  ⟨fun _ h => absurd h List.not_mem_nil, .nil⟩

theorem cons_iff :
    Separated lo hi (r :: l) ↔ lo r < hi r ∧ (∀ s ∈ l, hi r < lo s) ∧ Separated lo hi l := by
  constructor
  · rintro ⟨hne, hgaps⟩
    rw [List.pairwise_cons] at hgaps
    exact ⟨hne r List.mem_cons_self, hgaps.1,
      ⟨fun s hs => hne s (List.mem_cons_of_mem _ hs), hgaps.2⟩⟩
  · rintro ⟨hr, hlt, hne, hgaps⟩
    refine ⟨fun s hs => ?_, List.pairwise_cons.mpr ⟨hlt, hgaps⟩⟩
    rcases List.mem_cons.mp hs with rfl | hs
    · exact hr
    · exact hne s hs

theorem tail (h : Separated lo hi (r :: l)) : Separated lo hi l :=
  (cons_iff.mp h).2.2

/-- The intervals of a separated list are distinct. -/
theorem nodup (h : Separated lo hi l) : l.Nodup :=
  h.gaps.imp_of_mem fun ha _ hab heq => by
    subst heq
    exact lt_asymm hab (h.nonempty _ ha)

/-- A point covered by the intervals after `r` lies above `r`. -/
theorem hi_lt_of_covers_tail (h : Separated lo hi (r :: l)) {x : α} (hx : Covers lo hi l x) :
    hi r < x := by
  obtain ⟨s, hs, hsx, -⟩ := hx
  exact lt_of_lt_of_le ((cons_iff.mp h).2.1 s hs) hsx

/-- A point below the start of the first interval is not covered. -/
theorem not_covers_of_lt_lo (h : Separated lo hi (r :: l)) {x : α} (hx : x < lo r) :
    ¬Covers lo hi (r :: l) x := by
  rw [covers_cons]
  rintro (⟨hrx, -⟩ | hl)
  · exact absurd hrx (not_le.mpr hx)
  · have hrs := h.hi_lt_of_covers_tail hl
    exact absurd (hx.trans ((cons_iff.mp h).1.trans hrs)) (lt_irrefl x)

/-- A non-empty interval `[a, b)` of covered points lies inside one interval of
a separated list: were it to reach past the end of the interval that holds `a`,
it would hold that end, which lies in the gap before the next interval. -/
theorem exists_of_forall_covers {a b : α} (hab : a < b) :
    ∀ {l : List ρ}, Separated lo hi l → (∀ x, a ≤ x → x < b → Covers lo hi l x) →
      ∃ r ∈ l, lo r ≤ a ∧ b ≤ hi r
  | [], _, hsub => absurd (hsub a le_rfl hab) (covers_nil a)
  | r :: l, h, hsub => by
    rcases covers_cons.mp (hsub a le_rfl hab) with ⟨hra, har⟩ | hal
    · refine ⟨r, List.mem_cons_self, hra, not_lt.mp fun hrb => ?_⟩
      -- the end of `r` is a covered point outside every interval
      rcases covers_cons.mp (hsub (hi r) har.le hrb) with ⟨-, hlt⟩ | hl
      · exact lt_irrefl _ hlt
      · exact lt_irrefl _ (h.hi_lt_of_covers_tail hl)
    · -- every point from `a` on lies above `r`, so the rest of the list covers it
      have hra := h.hi_lt_of_covers_tail hal
      have hrest : ∀ x, a ≤ x → x < b → Covers lo hi l x := fun x hax hxb =>
        (covers_cons.mp (hsub x hax hxb)).resolve_left fun hx =>
          absurd (hra.trans_le hax) (not_lt.mpr hx.2.le)
      obtain ⟨s, hs, hsa, hbs⟩ := exists_of_forall_covers hab h.tail hrest
      exact ⟨s, List.mem_cons_of_mem _ hs, hsa, hbs⟩

end Separated

end IntervalList
