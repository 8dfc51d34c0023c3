import EPaxos.Interference
import EPaxos.Lib.IntervalList

/-!
# The range group as a set of keys

`rangeList` keeps its ranges in a list that `Add` keeps sorted, merging every
range an added one touches. We read the group as the set of keys of its ranges
and the list as that set's canonical form: every range non-empty and ending
strictly before the next starts (`Canonical`). The empty group is canonical and
`Add` keeps it so.

On a canonical group each method answers the question its interface states
about the set of keys, though its walk looks at one range at a time and stops
early: `Add` adds exactly the keys of the range and reports growth exactly when
the range was not already inside the group (`add_refines`), `Overlaps` answers
whether the range shares a key with the group (`overlaps_refines`), and
`Encloses` whether all its keys are in the group (`encloses_refines`). The
single-range tests suffice because a run of keys inside a canonical group lies
inside one of its ranges (`IntervalList.Separated.exists_of_forall_covers`).
-/
namespace EPaxos

open IntervalList

namespace Range

/-- The keys of the range. -/
def keys (r : Range) : Set Key := {k | Mem k r}

/-- Two ranges that touch merge into the range of exactly their keys. -/
theorem mem_merge_iff {l r : Range} (h : l.overlapInclusive r = true) {k : Key} :
    Mem k (l.merge r) ↔ Mem k l ∨ Mem k r := by
  refine ⟨mem_merge h, fun hk => ?_⟩
  rw [Mem, merge_start, merge_endKey, min_le_iff, lt_max_iff]
  rcases hk with ⟨hs, he⟩ | ⟨hs, he⟩
  · exact ⟨.inl hs, .inl he⟩
  · exact ⟨.inr hs, .inr he⟩

end Range

namespace RangeGroup

/-- The keys of the group: those of its ranges. -/
def keys (g : RangeGroup) : Set Key := {k | MemList k g.ranges}

/-- The canonical form of a set of keys: every range non-empty, each ending
strictly before the next starts. -/
def Canonical (rs : List Range) : Prop := Separated Range.start Range.endKey rs

theorem memList_iff_covers {k : Key} {rs : List Range} :
    MemList k rs ↔ Covers Range.start Range.endKey rs k := Iff.rfl

@[simp] theorem memList_nil (k : Key) : ¬MemList k [] := covers_nil k

@[simp] theorem memList_cons {k : Key} {er : Range} {rs : List Range} :
    MemList k (er :: rs) ↔ Range.Mem k er ∨ MemList k rs := covers_cons

theorem canonical_cons {er : Range} {rs : List Range} :
    Canonical (er :: rs) ↔
      er.start < er.endKey ∧ (∀ s ∈ rs, er.endKey < s.start) ∧ Canonical rs :=
  Separated.cons_iff

theorem Canonical.valid {rs : List Range} (h : Canonical rs) : Valid rs := fun er her => by
  simpa [Range.rangeError] using h.nonempty er her

theorem empty_canonical : Canonical empty.ranges := Separated.nil

/-- Whether `er` contains `r`, read on their bounds. -/
theorem contains_iff {er r : Range} :
    er.contains r = true ↔ er.start ≤ r.start ∧ r.endKey ≤ er.endKey := by
  simp [Range.contains]

/-- A range that does not touch `er` and does not end before it lies after it. -/
theorem endKey_lt_of_not_overlapInclusive {er r : Range} (ho : ¬er.overlapInclusive r = true)
    (hlt : ¬r.endKey < er.start) : er.endKey < r.start := by
  simp only [Range.overlapInclusive, Bool.and_eq_true, decide_eq_true_eq, not_and_or,
    not_le] at ho
  exact ho.resolve_right hlt

/-! ### The merge loop of `Add` -/

/-- The ranges the loop returns start after every bound below `newR` and the
ranges it walks. -/
theorem mergeFollowing_lower {b : Key} (newR : Range) (ps : List Range) (hn : b < newR.start)
    (hps : ∀ p ∈ ps, b < p.start) :
    ∀ s ∈ (mergeFollowing newR ps).1 :: (mergeFollowing newR ps).2, b < s.start := by
  induction ps generalizing newR with
  | nil => simpa [mergeFollowing] using hn
  | cons pr ps ih =>
    unfold mergeFollowing
    split_ifs
    · refine ih _ ?_ fun p hp => hps p (List.mem_cons_of_mem _ hp)
      rw [Range.merge_start]
      exact lt_min hn (hps pr List.mem_cons_self)
    · intro s hs
      rcases List.mem_cons.mp hs with rfl | hs
      · exact hn
      · exact hps s hs

/-- The loop adds exactly the keys of the ranges it swallows. -/
theorem mergeFollowing_mem (newR : Range) (ps : List Range) (k : Key) :
    MemList k ((mergeFollowing newR ps).1 :: (mergeFollowing newR ps).2) ↔
      Range.Mem k newR ∨ MemList k ps := by
  induction ps generalizing newR with
  | nil => simp [mergeFollowing]
  | cons pr ps ih =>
    unfold mergeFollowing
    split_ifs with ho
    · rw [ih, Range.mem_merge_iff ho, memList_cons, or_assoc]
    · exact memList_cons

/-- The loop leaves the group canonical when no following range starts before
`newR`: it stops at the first range that does not touch the merged one, which
then starts after it. -/
theorem mergeFollowing_canonical {newR : Range} (hn : newR.rangeError = false) {ps : List Range}
    (hps : Canonical ps) (hstart : ∀ p ∈ ps, newR.start ≤ p.start) :
    Canonical ((mergeFollowing newR ps).1 :: (mergeFollowing newR ps).2) := by
  induction ps generalizing newR with
  | nil => exact canonical_cons.mpr ⟨Range.lt_of_valid hn, fun _ h => absurd h List.not_mem_nil, hps⟩
  | cons pr ps ih =>
    obtain ⟨hpr, hprs, hps'⟩ := canonical_cons.mp hps
    unfold mergeFollowing
    split_ifs with ho
    · refine ih (Range.merge_valid hn pr) hps' fun p hp => ?_
      rw [Range.merge_start]
      exact (min_le_left _ _).trans (hstart p (List.mem_cons_of_mem _ hp))
    · -- `pr` does not touch `newR` and does not start before it, so it starts after it
      have hlt : newR.endKey < pr.start := by
        simp only [Range.overlapInclusive, Bool.and_eq_true, decide_eq_true_eq, not_and_or,
          not_le] at ho
        exact ho.resolve_right (not_lt.mpr ((hstart pr List.mem_cons_self).trans hpr.le))
      refine canonical_cons.mpr ⟨Range.lt_of_valid hn, fun s hs => ?_, hps⟩
      rcases List.mem_cons.mp hs with rfl | hs
      · exact hlt
      · exact hlt.trans (hpr.trans (hprs s hs))

/-! ### `Add` -/

theorem addAux_lower {b : Key} (r : Range) (rs : List Range) (hr : b < r.start)
    (hrs : ∀ s ∈ rs, b < s.start) : ∀ s ∈ (addAux r rs).2, b < s.start := by
  induction rs with
  | nil => simpa [addAux] using hr
  | cons er rest ih =>
    have her := hrs er List.mem_cons_self
    have hrest : ∀ s ∈ rest, b < s.start := fun s hs => hrs s (List.mem_cons_of_mem _ hs)
    unfold addAux
    split_ifs
    · exact hrs
    · refine mergeFollowing_lower _ rest ?_ hrest
      rw [Range.merge_start]
      exact lt_min her hr
    · intro s hs
      rcases List.mem_cons.mp hs with rfl | hs
      · exact hr
      · exact hrs s hs
    · intro s hs
      rcases List.mem_cons.mp hs with rfl | hs
      · exact her
      · exact ih hrest s hs

/-- `Add` puts exactly the keys of the range into the group. -/
theorem addAux_mem (r : Range) (rs : List Range) (k : Key) :
    MemList k (addAux r rs).2 ↔ Range.Mem k r ∨ MemList k rs := by
  induction rs with
  | nil => simp [addAux]
  | cons er rest ih =>
    unfold addAux
    split_ifs with ho hc
    · -- `er` contains the range
      refine ⟨Or.inr, fun hk => hk.elim (fun hkr => ?_) id⟩
      exact memList_cons.mpr (.inl (Range.mem_of_contains hc hkr))
    · rw [mergeFollowing_mem, Range.mem_merge_iff ho, memList_cons]
      tauto
    · exact memList_cons
    · rw [memList_cons, ih, memList_cons]
      tauto

theorem addAux_canonical {r : Range} (hr : r.rangeError = false) {rs : List Range}
    (hrs : Canonical rs) : Canonical (addAux r rs).2 := by
  induction rs with
  | nil => exact canonical_cons.mpr ⟨Range.lt_of_valid hr, fun _ h => absurd h List.not_mem_nil, hrs⟩
  | cons er rest ih =>
    obtain ⟨her, hers, hrest⟩ := canonical_cons.mp hrs
    unfold addAux
    split_ifs with ho hc hlt
    · exact hrs
    · refine mergeFollowing_canonical (Range.merge_valid (hrs.valid er List.mem_cons_self) r)
        hrest fun p hp => ?_
      rw [Range.merge_start]
      exact (min_le_left _ _).trans (her.trans (hers p hp)).le
    · -- the range goes in front of `er`
      refine canonical_cons.mpr ⟨Range.lt_of_valid hr, fun s hs => ?_, hrs⟩
      rcases List.mem_cons.mp hs with rfl | hs
      · exact hlt
      · exact hlt.trans (her.trans (hers s hs))
    · -- the range lies after `er`, and so does everything the walk leaves after it
      have hafter := endKey_lt_of_not_overlapInclusive ho hlt
      exact canonical_cons.mpr ⟨her, addAux_lower r rest hafter hers, ih hrest⟩

/-- `Add` reports no growth exactly when the group already holds every key of
the range. -/
theorem addAux_fst {r : Range} (hr : r.rangeError = false) {rs : List Range}
    (hrs : Canonical rs) :
    (addAux r rs).1 = false ↔ ∀ k, Range.Mem k r → MemList k rs := by
  have hlt := Range.lt_of_valid hr
  induction rs with
  | nil => simpa [addAux] using ⟨r.start, Range.start_mem hr⟩
  | cons er rest ih =>
    obtain ⟨-, hers, hrest⟩ := canonical_cons.mp hrs
    unfold addAux
    split_ifs with ho hc hend
    · exact iff_of_true rfl fun k hk => memList_cons.mpr (.inl (Range.mem_of_contains hc hk))
    · -- were the range inside the group, it would lie inside one range, which is not `er`
      refine iff_of_false (by simp) fun hsub => ?_
      obtain ⟨s, hs, hsr, hrs'⟩ := hrs.exists_of_forall_covers hlt fun k h1 h2 => hsub k ⟨h1, h2⟩
      rcases List.mem_cons.mp hs with rfl | hs
      · exact hc (contains_iff.mpr ⟨hsr, hrs'⟩)
      · simp only [Range.overlapInclusive, Bool.and_eq_true, decide_eq_true_eq] at ho
        exact absurd (hers s hs) (not_lt.mpr (hsr.trans ho.1))
    · -- the range ends before the group's next key
      refine iff_of_false (by simp) fun hsub => ?_
      exact hrs.not_covers_of_lt_lo (hlt.trans hend) (hsub _ (Range.start_mem hr))
    · -- every key of the range lies after `er`
      have hafter := endKey_lt_of_not_overlapInclusive ho hend
      refine (ih hrest).trans (forall_congr' fun k => imp_congr_right fun hk => ?_)
      rw [memList_cons, or_iff_right fun hke => ?_]
      exact absurd (hafter.trans_le hk.1) (not_lt.mpr hke.2.le)

/-- The group of `[1, 3)` and `[5, 8)`. -/
def twoRanges : RangeGroup := ⟨[⟨[1], [3]⟩, ⟨[5], [8]⟩]⟩

theorem twoRanges_canonical : Canonical twoRanges.ranges :=
  canonical_cons.mpr ⟨by decide, by decide, canonical_cons.mpr ⟨by decide, by decide, Separated.nil⟩⟩

/-- `Add` on a canonical group: it panics on an empty or inverted range;
otherwise the group stays canonical, gains exactly the keys of the range, and
`Add` reports growth exactly when the range was not already inside it. -/
theorem add_refines {g : RangeGroup} (hg : Canonical g.ranges) (r : Range) :
    (g.add r = none ↔ r.rangeError = true) ∧
    ∀ grew g', g.add r = some (grew, g') →
      Canonical g'.ranges ∧ g'.keys = g.keys ∪ r.keys ∧ (grew = false ↔ r.keys ⊆ g.keys) := by
  cases hr : r.rangeError
  · refine ⟨by simp [add, hr], fun grew g' h => ?_⟩
    rw [add_of_valid g hr, Option.some.injEq, Prod.mk.injEq] at h
    obtain ⟨rfl, rfl⟩ := h
    refine ⟨addAux_canonical hr hg, ?_, addAux_fst hr hg⟩
    ext k
    exact (addAux_mem r g.ranges k).trans or_comm
  · exact ⟨by simp [add, hr], fun _ _ h => by simp [add, hr] at h⟩

/-- Adding `[2, 6)` to `[1, 3)` and `[5, 8)`. -/
theorem add_refines_twoRanges :
    Canonical twoRanges.ranges ∧
    (twoRanges.add ⟨[2], [6]⟩ = none ↔ (⟨[2], [6]⟩ : Range).rangeError = true) ∧
    ∀ grew g', twoRanges.add ⟨[2], [6]⟩ = some (grew, g') →
      Canonical g'.ranges ∧ g'.keys = twoRanges.keys ∪ Range.keys ⟨[2], [6]⟩ ∧
      (grew = false ↔ Range.keys ⟨[2], [6]⟩ ⊆ twoRanges.keys) :=
  ⟨twoRanges_canonical, add_refines twoRanges_canonical _⟩

/-! ### `Overlaps` and `Encloses` -/

/-- `Overlaps` walks until the ranges start past the end of the range. -/
theorem overlapsAux_iff {r : Range} (hr : r.rangeError = false) {rs : List Range}
    (hrs : Canonical rs) : overlapsAux r rs = true ↔ ∃ k, Range.Mem k r ∧ MemList k rs := by
  induction rs with
  | nil => simp [overlapsAux]
  | cons er rest ih =>
    unfold overlapsAux
    split_ifs with ho hend
    · obtain ⟨k, hke, hkr⟩ :=
        Range.exists_mem_of_overlapExclusive (hrs.valid er List.mem_cons_self) hr ho
      exact iff_of_true rfl ⟨k, hkr, memList_cons.mpr (.inl hke)⟩
    · -- every key of the range lies before the group's next key
      refine iff_of_false (by simp) fun hex => ?_
      obtain ⟨k, hkr, hk⟩ := hex
      exact hrs.not_covers_of_lt_lo (hkr.2.trans_le hend) hk
    · refine (ih (Separated.cons_iff.mp hrs).2.2).trans
        (exists_congr fun k => and_congr_right fun hkr => ?_)
      rw [memList_cons, or_iff_right fun hke => ho (Range.overlapExclusive_of_mem hke hkr)]

/-- `Encloses` tests one range at a time; in a canonical group that decides
whether all keys of the range are in the group. -/
theorem enclosesAux_iff {r : Range} (hr : r.rangeError = false) {rs : List Range}
    (hrs : Canonical rs) :
    enclosesAux r rs = true ↔ ∀ k, Range.Mem k r → MemList k rs := by
  have hlt := Range.lt_of_valid hr
  induction rs with
  | nil => simpa [enclosesAux] using ⟨r.start, Range.start_mem hr⟩
  | cons er rest ih =>
    unfold enclosesAux
    split_ifs with hc hend
    · exact iff_of_true rfl fun k hk => memList_cons.mpr (.inl (Range.mem_of_contains hc hk))
    · refine iff_of_false (by simp) fun hsub => ?_
      exact hrs.not_covers_of_lt_lo (hlt.trans_le hend) (hsub _ (Range.start_mem hr))
    · refine (ih (Separated.cons_iff.mp hrs).2.2).trans
        ⟨fun h k hk => memList_cons.mpr (.inr (h k hk)), fun hsub => ?_⟩
      -- the range lies inside one range of the group, and `er` does not contain it
      obtain ⟨s, hs, hsr, hrs'⟩ := hrs.exists_of_forall_covers hlt fun k h1 h2 => hsub k ⟨h1, h2⟩
      rcases List.mem_cons.mp hs with rfl | hs
      · exact absurd (contains_iff.mpr ⟨hsr, hrs'⟩) hc
      · exact fun k hk => ⟨s, hs, hsr.trans hk.1, hk.2.trans_le hrs'⟩

/-- `Overlaps` on a canonical group: it panics on an empty or inverted range,
and otherwise answers whether the range shares a key with the group. -/
theorem overlaps_refines {g : RangeGroup} (hg : Canonical g.ranges) (r : Range) :
    (g.overlaps r = none ↔ r.rangeError = true) ∧
    ∀ b, g.overlaps r = some b → (b = true ↔ (r.keys ∩ g.keys).Nonempty) := by
  cases hr : r.rangeError
  · refine ⟨by simp [overlaps, hr], fun b h => ?_⟩
    rw [overlaps_of_valid g hr, Option.some.injEq] at h
    subst h
    exact overlapsAux_iff hr hg
  · exact ⟨by simp [overlaps, hr], fun _ h => by simp [overlaps, hr] at h⟩

/-- `[3, 5)` lies in the gap between `[1, 3)` and `[5, 8)`. -/
theorem overlaps_refines_twoRanges :
    Canonical twoRanges.ranges ∧
    (twoRanges.overlaps ⟨[3], [5]⟩ = none ↔ (⟨[3], [5]⟩ : Range).rangeError = true) ∧
    ∀ b, twoRanges.overlaps ⟨[3], [5]⟩ = some b →
      (b = true ↔ (Range.keys ⟨[3], [5]⟩ ∩ twoRanges.keys).Nonempty) :=
  ⟨twoRanges_canonical, overlaps_refines twoRanges_canonical _⟩

/-- `Encloses` on a canonical group: it panics on an empty or inverted range,
and otherwise answers whether every key of the range is in the group. -/
theorem encloses_refines {g : RangeGroup} (hg : Canonical g.ranges) (r : Range) :
    (g.encloses r = none ↔ r.rangeError = true) ∧
    ∀ b, g.encloses r = some b → (b = true ↔ r.keys ⊆ g.keys) := by
  cases hr : r.rangeError
  · refine ⟨by simp [encloses, hr], fun b h => ?_⟩
    rw [encloses_of_valid g hr, Option.some.injEq] at h
    subst h
    exact enclosesAux_iff hr hg
  · exact ⟨by simp [encloses, hr], fun _ h => by simp [encloses, hr] at h⟩

/-- `[5, 7)` lies inside `[5, 8)`. -/
theorem encloses_refines_twoRanges :
    Canonical twoRanges.ranges ∧
    (twoRanges.encloses ⟨[5], [7]⟩ = none ↔ (⟨[5], [7]⟩ : Range).rangeError = true) ∧
    ∀ b, twoRanges.encloses ⟨[5], [7]⟩ = some b → (b = true ↔ Range.keys ⟨[5], [7]⟩ ⊆ twoRanges.keys) :=
  ⟨twoRanges_canonical, encloses_refines twoRanges_canonical _⟩

end RangeGroup

end EPaxos
