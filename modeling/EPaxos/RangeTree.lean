import EPaxos.RangeSet

/-!
# The interval-tree range group

`seqAndDepsForCommand` runs on the group `NewRangeTree` builds, `rangeTree`: an
`interval.Tree` of `rangeKey` items, each a range and the id `makeKey` hands
out, and the count of ids handed out. The tree is the vendored augmented
left-leaning red-black tree of `interval.go`. We do not embed it: `rangeTree`
is stated over any implementation of the calls it makes (`IntervalTree`), read
as the list of its items in the tree's order, by start key and then by id, with
the laws `interval.go` documents and its tree keeps. `GetWithOverlapper`
returns the items that overlap the range, in order, once `AdjustRanges` has
brought the spans of the nodes up to date after fast deletions. `Insert` puts
an item after those that sort before it, `Delete` takes one item out, and the
assignment `first.r = ...` through an item's pointer changes that item's range
in place.

`Add` looks up every range that touches the new one at once and merges them
into the first, where `rangeList` walks to the first and swallows the following
ranges one at a time. On a canonical group the two hold the same ranges and give
the same answers (`refines_rangeList`), whatever tree implements the calls, and
`seqAndDepsForCommand` computes the same with either (`seqAndDepsForCommandOnTree_eq`):
the model's use of `rangeList` elsewhere loses nothing. Ids are Go `uintptr`s
and only grow; they stay below `2 ^ 64` in any run shorter than that many
`Add`s, and are natural numbers here.
-/
namespace EPaxos

open IntervalList RangeGroup

namespace Range

theorem overlapInclusive_comm (r o : Range) : r.overlapInclusive o = o.overlapInclusive r := by
  simp only [overlapInclusive, Bool.and_comm]

theorem merge_comm (l r : Range) : l.merge r = r.merge l := by
  have hs : (l.merge r).start = (r.merge l).start := by rw [merge_start, merge_start, min_comm]
  have he : (l.merge r).endKey = (r.merge l).endKey := by
    rw [merge_endKey, merge_endKey, max_comm]
  cases hl : l.merge r
  cases hr : r.merge l
  rw [hl, hr] at hs he
  exact (Range.mk.injEq ..).mpr ⟨hs, he⟩

/-- Merging a range that ends before `q` starts does not change whether `q`
touches. -/
theorem overlapInclusive_merge {a b q : Range} (hb : b.endKey < q.start)
    (ha : a.start ≤ q.endKey) : (a.merge b).overlapInclusive q = a.overlapInclusive q := by
  have hmin : min a.start b.start ≤ q.endKey := (min_le_left _ _).trans ha
  simp only [overlapInclusive, merge_start, merge_endKey, le_max_iff, not_le.mpr hb, or_false,
    hmin, ha]

end Range

/-- `rangeKey`: an item of the tree, its range and the id `makeKey` gave it. -/
structure RangeKey where
  r : Range
  id : ℕ
  deriving DecidableEq, Repr

/-- Where `Insert` keeps an item among the tree's items: ordered by start key
and then by id, replacing an item with the same start and id. -/
def insertKey (e : RangeKey) : List RangeKey → List RangeKey
  | [] => [e]
  | x :: rest =>
    if e.r.start < x.r.start ∨ (e.r.start = x.r.start ∧ e.id < x.id) then e :: x :: rest
    else if e.r.start = x.r.start ∧ e.id = x.id then e :: rest
    else x :: insertKey e rest

/-- The item with id `i` takes the range `m`: the assignment `first.r = m`. -/
def setId (i : ℕ) (m : Range) (e : RangeKey) : RangeKey :=
  if e.id = i then ⟨m, i⟩ else e

/-- What `rangeTree` uses of `interval.Tree`, for trees `T` read as their items
in the tree's order. `Adjusted` trees are those whose node spans are up to date,
as `Get` needs them: the empty tree, a tree after `Insert` (which adjusts the
spans on its path) and any tree after `AdjustRanges`. `Get` prunes subtrees by
their spans and by the start of their leftmost item, so it returns every match
only when the items are in start order. -/
structure IntervalTree (T : Type) where
  items : T → List RangeKey
  Adjusted : T → Prop
  empty : T
  getWithOverlapper : T → Range → (Range → Range → Bool) → List RangeKey
  insert : T → RangeKey → T
  delete : T → RangeKey → T
  setRange : T → ℕ → Range → T
  adjustRanges : T → T
  len : T → ℕ
  items_empty : items empty = []
  adjusted_empty : Adjusted empty
  getWithOverlapper_eq : ∀ t, Adjusted t → (items t).Pairwise (fun a b => a.r.start ≤ b.r.start) →
    ∀ r ov, ov = Range.overlapInclusive ∨ ov = Range.overlapExclusive →
      getWithOverlapper t r ov = (items t).filter fun e => ov r e.r
  items_insert : ∀ t e, items (insert t e) = insertKey e (items t)
  adjusted_insert : ∀ t e, Adjusted t → Adjusted (insert t e)
  items_delete : ∀ t e, e ∈ items t → items (delete t e) = (items t).erase e
  items_setRange : ∀ t i m, items (setRange t i m) = (items t).map (setId i m)
  items_adjustRanges : ∀ t, items (adjustRanges t) = items t
  adjusted_adjustRanges : ∀ t, Adjusted (adjustRanges t)
  len_eq : ∀ t, len t = (items t).length

/-- `rangeTree`: the tree and the count of ids `makeKey` has handed out. -/
structure RangeTree (T : Type) where
  t : T
  idCount : ℕ

namespace RangeTree

variable {T : Type} (ops : IntervalTree T)

/-- `NewRangeTree`. -/
def new : RangeTree T := ⟨ops.empty, 0⟩

/-- `Clear`: an empty tree; the count of ids stays. -/
def clear (rt : RangeTree T) : RangeTree T := ⟨ops.empty, rt.idCount⟩

/-- `makeKey` of a range that touches no item, and its `Insert`. -/
def insertNew (rt : RangeTree T) (r : Range) : RangeTree T :=
  ⟨ops.insert rt.t ⟨r, rt.idCount + 1⟩, rt.idCount + 1⟩

/-- One turn of the loop of `Add` over the other overlaps: `first.r` swallows
the range of `o`, and `o` is deleted. -/
def mergeStep (firstId : ℕ) (acc : Range × T) (o : RangeKey) : Range × T :=
  let m := acc.1.merge o.r
  (m, ops.delete (ops.setRange acc.2 firstId m) o)

/-- `Add`: whether the range grew the group. -/
def add (rt : RangeTree T) (r : Range) : Option (Bool × RangeTree T) :=
  if r.rangeError then none
  else
    match ops.getWithOverlapper rt.t r Range.overlapInclusive with
    | [] => some (true, rt.insertNew ops r)
    | first :: others =>
      if first.r.contains r then some (false, rt)
      else
        let m := first.r.merge r
        let acc := others.foldl (mergeStep ops first.id) (m, ops.setRange rt.t first.id m)
        some (true, ⟨ops.adjustRanges acc.2, rt.idCount⟩)

/-- `Overlaps`: some item overlaps the range. -/
def overlaps (rt : RangeTree T) (r : Range) : Option Bool :=
  if r.rangeError then none
  else some (decide (0 < (ops.getWithOverlapper rt.t r Range.overlapExclusive).length))

/-- `Encloses`: exactly one item overlaps the range, and it contains it. -/
def encloses (rt : RangeTree T) (r : Range) : Option Bool :=
  if r.rangeError then none
  else
    match ops.getWithOverlapper rt.t r Range.overlapExclusive with
    | [first] => some (first.r.contains r)
    | _ => some false

/-- `Len`: the tree's count of items. -/
def len (rt : RangeTree T) : ℕ := ops.len rt.t

/-- The ranges of the items, in the tree's order. -/
def ranges (rt : RangeTree T) : List Range := (ops.items rt.t).map RangeKey.r

/-- The linked list of the same ranges. -/
def toRangeList (rt : RangeTree T) : RangeGroup := ⟨rt.ranges ops⟩

@[simp] theorem toRangeList_ranges (rt : RangeTree T) : (rt.toRangeList ops).ranges = rt.ranges ops :=
  rfl

/-- What holds of the group between calls: the node spans are up to date, and
the ids of the items are distinct and at most the count. -/
structure WellFormed (rt : RangeTree T) : Prop where
  adjusted : ops.Adjusted rt.t
  ids_le : ∀ e ∈ ops.items rt.t, e.id ≤ rt.idCount
  ids_nodup : ((ops.items rt.t).map RangeKey.id).Nodup

theorem wellFormed_clear (rt : RangeTree T) : (rt.clear ops).WellFormed ops :=
  ⟨ops.adjusted_empty, by simp [clear, ops.items_empty], by simp [clear, ops.items_empty]⟩

@[simp] theorem ranges_clear (rt : RangeTree T) : (rt.clear ops).ranges ops = [] := by
  simp [clear, ranges, ops.items_empty]

end RangeTree


namespace RangeTree

/-! ### `Add` against the walk of `rangeList` -/

/-- Where an item with a fresh id goes, read on the ranges: after every range
that starts before it or with it. -/
def insertItem (r : Range) : List Range → List Range
  | [] => [r]
  | e :: rest => if r.start < e.start then r :: e :: rest else e :: insertItem r rest

/-! ### What the calls do to the items -/

@[simp] theorem id_setId (i : ℕ) (m : Range) (e : RangeKey) : (setId i m e).id = e.id := by
  unfold setId
  split_ifs with h
  · exact h.symm
  · rfl

theorem setId_of_ne {i : ℕ} {m : Range} {e : RangeKey} (h : e.id ≠ i) : setId i m e = e :=
  if_neg h

theorem setId_setId (i : ℕ) (m m' : Range) (e : RangeKey) :
    setId i m' (setId i m e) = setId i m' e := by
  by_cases h : e.id = i
  · simp [setId, h]
  · rw [setId_of_ne h, setId_of_ne h]

/-- Erasing an item other than the one whose range changes commutes with the change. -/
theorem erase_map_setId {i : ℕ} {m : Range} {o : RangeKey} (ho : o.id ≠ i) :
    ∀ J : List RangeKey, (J.map (setId i m)).erase o = (J.erase o).map (setId i m)
  | [] => rfl
  | x :: J => by
    by_cases hx : x = o
    · subst hx
      simp [setId_of_ne ho]
    · have hne : setId i m x ≠ o := by
        by_cases hxi : x.id = i
        · intro h
          exact ho (h ▸ (id_setId i m x).trans hxi)
        · rwa [setId_of_ne hxi]
      rw [List.map_cons, List.erase_cons_tail (by simpa using hne), List.erase_cons_tail (by simpa using hx),
        List.map_cons, erase_map_setId ho J]

/-- An item with a fresh id goes in after every item with its start, and
replaces none. -/
theorem map_insertKey_fresh {e : RangeKey} :
    ∀ {l : List RangeKey}, (∀ x ∈ l, x.id < e.id) →
      (insertKey e l).map RangeKey.r = insertItem e.r (l.map RangeKey.r) ∧
        List.Perm (insertKey e l) (e :: l)
  | [], _ => ⟨rfl, .refl _⟩
  | x :: rest, hl => by
    have hx : ¬e.id < x.id ∧ e.id ≠ x.id := by
      have := hl x List.mem_cons_self
      exact ⟨not_lt.mpr this.le, this.ne'⟩
    obtain ⟨ih₁, ih₂⟩ := map_insertKey_fresh (l := rest) fun y hy => hl y (List.mem_cons_of_mem _ hy)
    unfold insertKey insertItem
    by_cases hs : e.r.start < x.r.start
    · simp [hs]
    · simp only [hs, false_or, hx.1, and_false, if_false, hx.2, List.map_cons, ih₁, true_and]
      exact ((ih₂.cons x).trans (.swap e x rest))

/-- The loop of `Add` over the other overlaps: the range of `first` swallows
theirs one at a time, and they are deleted. -/
theorem items_foldl_mergeStep {T : Type} (ops : IntervalTree T) (i : ℕ) :
    ∀ (others J : List RangeKey) (m : Range) (t : T),
      ops.items t = J.map (setId i m) → J.Nodup → others.Nodup →
      (∀ o ∈ others, o ∈ J ∧ o.id ≠ i) →
      (others.foldl (mergeStep ops i) (m, t)).1 = others.foldl (fun m o => m.merge o.r) m ∧
      ops.items (others.foldl (mergeStep ops i) (m, t)).2 =
        (J.filter (· ∉ others)).map (setId i (others.foldl (fun m o => m.merge o.r) m))
  | [], J, m, t, ht, _, _, _ => by simp [ht]
  | o :: os, J, m, t, ht, hJ, hos, hmem => by
    obtain ⟨hoJ, hoi⟩ := hmem o List.mem_cons_self
    -- one turn: the range of `first` grows, and `o`, which it does not touch, goes
    have hstep : ops.items (mergeStep ops i (m, t) o).2 = (J.erase o).map (setId i (m.merge o.r)) := by
      have hin : o ∈ ops.items (ops.setRange t i (m.merge o.r)) := by
        rw [ops.items_setRange, ht, List.map_map]
        exact List.mem_map.mpr ⟨o, hoJ, by simp [setId_of_ne hoi]⟩
      simp only [mergeStep]
      rw [ops.items_delete _ _ hin, ops.items_setRange, ht, List.map_map]
      simp only [Function.comp_def, setId_setId]
      exact erase_map_setId hoi J
    have ih := items_foldl_mergeStep ops i os (J.erase o) (m.merge o.r) _ hstep (hJ.erase o)
      (List.nodup_cons.mp hos).2 fun o' ho' => ⟨(List.mem_erase_of_ne fun h : o' = o =>
        (List.nodup_cons.mp hos).1 (h ▸ ho')).mpr (hmem o' (List.mem_cons_of_mem _ ho')).1,
        (hmem o' (List.mem_cons_of_mem _ ho')).2⟩
    have hpair : mergeStep ops i (m, t) o = (m.merge o.r, (mergeStep ops i (m, t) o).2) := rfl
    rw [List.foldl_cons, List.foldl_cons, hpair]
    refine ⟨ih.1, ?_⟩
    rw [ih.2, hJ.erase_eq_filter, List.filter_filter]
    congr 1
    refine List.filter_congr fun x _ => ?_
    by_cases hx : x = o <;> simp [hx]

/-- The ranges after the merge loop: the others are gone, and `first`, told
apart from the other items by its id and by its range, holds the merged range. -/
theorem map_r_filter_setId {I : List RangeKey} (hr : (I.map RangeKey.r).Nodup)
    (hid : (I.map RangeKey.id).Nodup) {first : RangeKey} (hf : first ∈ I) {others : List RangeKey}
    (ho : ∀ o ∈ others, o ∈ I) (M : Range) :
    ((I.filter (· ∉ others)).map (setId first.id M)).map RangeKey.r =
      ((I.map RangeKey.r).filter (· ∉ others.map RangeKey.r)).map
        fun e => if e = first.r then M else e := by
  have hfilter : (I.filter fun x => decide (x ∉ others)) =
      I.filter ((fun e => decide (e ∉ others.map RangeKey.r)) ∘ RangeKey.r) := by
    refine List.filter_congr fun x hx => ?_
    -- an item is one of the others exactly when its range is one of theirs
    have hiff : x ∈ others ↔ x.r ∈ others.map RangeKey.r :=
      ⟨List.mem_map_of_mem, fun h => by
        obtain ⟨o, hoo, hxo⟩ := List.mem_map.mp h
        exact List.inj_on_of_nodup_map hr (ho o hoo) hx hxo ▸ hoo⟩
    simp [hiff]
  rw [List.filter_map, List.map_map, List.map_map, hfilter]
  refine List.map_congr_left fun x hx => ?_
  have hxI := (List.mem_filter.mp hx).1
  by_cases hxf : x = first
  · subst hxf
    simp [setId]
  · have hxid : x.id ≠ first.id := fun h => hxf (List.inj_on_of_nodup_map hid hxI hf h)
    have hxr : x.r ≠ first.r := fun h => hxf (List.inj_on_of_nodup_map hr hxI hf h)
    simp [setId_of_ne hxid, hxr]


/-- Nothing from `er` on touches a range that ends before `er` starts. -/
theorem overlapInclusive_eq_false_of_endKey_lt {r er : Range} {rest : List Range}
    (hrs : Canonical (er :: rest)) (hlt : r.endKey < er.start) :
    ∀ p ∈ er :: rest, r.overlapInclusive p = false := by
  intro p hp
  have hstart : er.start ≤ p.start := by
    rcases List.mem_cons.mp hp with rfl | hp
    · exact le_rfl
    · obtain ⟨her, hers, -⟩ := canonical_cons.mp hrs
      exact (her.trans (hers p hp)).le
  simp only [Range.overlapInclusive, Bool.and_eq_false_iff, decide_eq_false_iff_not, not_le]
  exact .inl (hlt.trans_le hstart)

/-- The merge loop of `rangeList` swallows exactly the ranges that touch `r`,
as long as the merged range touches the same ranges `r` does. -/
theorem mergeFollowing_eq_filter {r : Range} :
    ∀ {newR : Range} {ps : List Range}, Canonical ps → (∀ p ∈ ps, newR.start ≤ p.start) →
      (∀ p ∈ ps, newR.overlapInclusive p = r.overlapInclusive p) →
      mergeFollowing newR ps =
        ((ps.filter r.overlapInclusive).foldl Range.merge newR,
          ps.filter fun p => !r.overlapInclusive p)
  | _, [], _, _, _ => rfl
  | newR, pr :: ps, hps, hstart, hsame => by
    obtain ⟨hpr, hprs, hps'⟩ := canonical_cons.mp hps
    have hstart' : ∀ p ∈ ps, newR.start ≤ p.start := fun p hp =>
      hstart p (List.mem_cons_of_mem _ hp)
    unfold mergeFollowing
    by_cases ho : newR.overlapInclusive pr = true
    · -- `pr` ends before every later range starts, so merging it changes nothing
      have hro : r.overlapInclusive pr = true := (hsame pr List.mem_cons_self).symm.trans ho
      rw [if_pos ho, List.filter_cons_of_pos hro, List.filter_cons_of_neg (by simp [hro]),
        List.foldl_cons]
      refine mergeFollowing_eq_filter hps' (fun p hp => ?_) fun p hp => ?_
      · rw [Range.merge_start]
        exact (min_le_left _ _).trans (hstart' p hp)
      · have hp' := hps'.nonempty p hp
        rw [Range.overlapInclusive_merge (hprs p hp) ((hstart' p hp).trans hp'.le)]
        exact hsame p (List.mem_cons_of_mem _ hp)
    · -- the loop stops at `pr`, which lies after the merged range, as do all later ranges
      have hafter : newR.endKey < pr.start := endKey_lt_of_not_overlapInclusive ho
        (not_lt.mpr ((hstart pr List.mem_cons_self).trans hpr.le))
      have hnone : ∀ p ∈ pr :: ps, r.overlapInclusive p = false := fun p hp =>
        (hsame p hp).symm.trans (overlapInclusive_eq_false_of_endKey_lt hps hafter p hp)
      rw [if_neg ho, List.filter_eq_nil_iff.mpr fun p hp => by simp [hnone p hp],
        List.filter_eq_self.mpr fun p hp => by simp [hnone p hp]]
      rfl

/-- When no range touches `r`, the walk of `rangeList` puts `r` where the
tree's `Insert` does. -/
theorem addAux_of_get_nil {r : Range} (hr : r.rangeError = false) :
    ∀ {rs : List Range}, Canonical rs → rs.filter r.overlapInclusive = [] →
      addAux r rs = (true, insertItem r rs)
  | [], _, _ => rfl
  | er :: rest, hrs, hnil => by
    obtain ⟨her, -, hrest⟩ := canonical_cons.mp hrs
    have hro : r.overlapInclusive er = false := by
      simpa using List.filter_eq_nil_iff.mp hnil er List.mem_cons_self
    have ho : ¬er.overlapInclusive r = true := by
      rw [← Range.overlapInclusive_comm, hro]
      exact Bool.false_ne_true
    unfold addAux insertItem
    by_cases hend : r.endKey < er.start
    · have hstart : r.start < er.start := (Range.lt_of_valid hr).trans hend
      rw [if_neg ho, if_pos hend, if_pos hstart]
    · -- `er` lies before `r`
      have hafter := endKey_lt_of_not_overlapInclusive ho hend
      have hstart : ¬r.start < er.start := not_lt.mpr (her.trans hafter).le
      rw [List.filter_cons_of_neg (by simp [hro])] at hnil
      rw [if_neg ho, if_neg hend, if_neg hstart, addAux_of_get_nil hr hrest hnil]

/-- When some range touches `r`, the walk of `rangeList` does what the tree's
`Add` does: nothing if the first range that touches `r` contains it, and
otherwise it merges `r` and every range that touches it into the first. -/
theorem addAux_of_get_cons {r : Range} (hr : r.rangeError = false) {first : Range}
    {others : List Range} :
    ∀ {rs : List Range}, Canonical rs → rs.filter r.overlapInclusive = first :: others →
      addAux r rs =
        if first.contains r then (false, rs)
        else (true, (rs.filter (· ∉ others)).map fun e =>
          if e = first then others.foldl Range.merge (first.merge r) else e)
  | [], _, hget => absurd hget.symm (List.cons_ne_nil _ _)
  | er :: rest, hrs, hget => by
    obtain ⟨her, hers, hrest⟩ := canonical_cons.mp hrs
    -- `er` is in none of the later ranges, and so in none of those that touch `r`
    have hnot : er ∉ rest := fun h => absurd (hers er h) (lt_asymm her)
    have hsub : ∀ {l}, rest.filter r.overlapInclusive = l → er ∉ l := by
      rintro l rfl h
      exact hnot (List.mem_filter.mp h).1
    unfold addAux
    by_cases hro : r.overlapInclusive er = true
    · -- `er` is the first range that touches `r`
      rw [List.filter_cons_of_pos hro, List.cons.injEq] at hget
      obtain ⟨rfl, hothers⟩ := hget
      rw [if_pos (by rwa [Range.overlapInclusive_comm] at hro)]
      split_ifs with hc
      · rfl
      have hnew : ∀ p ∈ rest, (er.merge r).overlapInclusive p = r.overlapInclusive p := by
        intro p hp
        have hp' := hrest.nonempty p hp
        have hrp : r.start ≤ p.endKey := by
          simp only [Range.overlapInclusive, Bool.and_eq_true, decide_eq_true_eq] at hro
          exact hro.2.trans ((hers p hp).trans hp').le
        rw [Range.merge_comm, Range.overlapInclusive_merge (hers p hp) hrp]
      have hmf := mergeFollowing_eq_filter hrest (fun p hp => ?_) hnew
      · rw [hmf, List.filter_cons_of_pos (by simpa using hsub hothers), List.map_cons, if_pos rfl,
          hothers, List.map_congr_left fun e he => if_neg ?_, List.map_id']
        · dsimp only
          congr 2
          refine List.filter_congr fun p hp => ?_
          rw [← hothers]
          simp [List.mem_filter, hp]
        · rintro rfl
          exact hnot (List.mem_filter.mp he).1
      · rw [Range.merge_start]
        exact (min_le_left _ _).trans (her.trans (hers p hp)).le
    · have hget' := hget
      rw [List.filter_cons_of_neg hro] at hget'
      have ho : ¬er.overlapInclusive r = true := by rwa [Range.overlapInclusive_comm]
      by_cases hend : r.endKey < er.start
      · -- a range that ends before `er` touches nothing
        rw [List.filter_eq_nil_iff.mpr fun p hp => by
          simp [overlapInclusive_eq_false_of_endKey_lt hrs hend p hp]] at hget
        exact absurd hget.symm (List.cons_ne_nil _ _)
      · -- `er` lies before `r` and stays where it is
        have hmem : first ∈ rest := by
          have h : first ∈ rest.filter r.overlapInclusive := by
            rw [hget']
            exact List.mem_cons_self
          exact (List.mem_filter.mp h).1
        have hno : er ∉ others := fun h => hsub hget' (List.mem_cons_of_mem _ h)
        rw [if_neg ho, if_neg hend, addAux_of_get_cons hr hrest hget',
          List.filter_cons_of_pos (by simpa using hno)]
        split_ifs
        · rfl
        · rw [List.map_cons, if_neg fun h : er = first => hnot (h ▸ hmem)]

/-- In a canonical group, the only range that overlaps a range inside one of
its ranges is that one. -/
theorem filter_overlapExclusive_of_contains {r s : Range} (hr : r.rangeError = false)
    (hs : s.contains r = true) :
    ∀ {rs : List Range}, Canonical rs → s ∈ rs → rs.filter r.overlapExclusive = [s]
  | [], _, hmem => absurd hmem List.not_mem_nil
  | er :: rest, hrs, hmem => by
    obtain ⟨-, hers, hrest⟩ := canonical_cons.mp hrs
    rcases List.mem_cons.mp hmem with rfl | hmem
    · -- the later ranges start after `s`, and so after `r`, ends
      have hov : r.overlapExclusive s = true := Range.overlapExclusive_of_mem
        (Range.start_mem hr) (Range.mem_of_contains hs (Range.start_mem hr))
      rw [List.filter_cons_of_pos hov, List.filter_eq_nil_iff.mpr fun p hp => ?_]
      simp only [Range.overlapExclusive, Bool.and_eq_true, decide_eq_true_eq, not_and_or, not_lt]
      exact .inl ((contains_iff.mp hs).2.trans (hers p hp).le)
    · -- `er` ends before `s`, and so before `r`, starts
      have hno : ¬r.overlapExclusive er = true := by
        simp only [Range.overlapExclusive, Bool.and_eq_true, decide_eq_true_eq, not_and_or, not_lt]
        exact .inr ((hers s hmem).le.trans (contains_iff.mp hs).1)
      rw [List.filter_cons_of_neg hno, filter_overlapExclusive_of_contains hr hs hrest hmem]


/-! ### The calls against `rangeList` -/

section Calls

variable {T : Type} {ops : IntervalTree T}

/-- Canonical ranges are in start order, as `Get` needs them. -/
theorem pairwise_start {rt : RangeTree T} (hrt : Canonical (rt.ranges ops)) :
    (ops.items rt.t).Pairwise fun a b => a.r.start ≤ b.r.start := by
  have hgaps := hrt.gaps
  rw [ranges, List.pairwise_map] at hgaps
  exact hgaps.imp_of_mem fun ha _ hab =>
    ((hrt.nonempty _ (List.mem_map_of_mem ha)).trans hab).le

/-- `Get` on a well-formed canonical group returns the items that match, in order. -/
theorem getWithOverlapper_filter {rt : RangeTree T} (hwf : rt.WellFormed ops)
    (hrt : Canonical (rt.ranges ops)) (r : Range) {ov : Range → Range → Bool}
    (hov : ov = Range.overlapInclusive ∨ ov = Range.overlapExclusive) :
    ops.getWithOverlapper rt.t r ov = (ops.items rt.t).filter fun e => ov r e.r :=
  ops.getWithOverlapper_eq rt.t hwf.adjusted (pairwise_start hrt) r ov hov

theorem map_filter_items (rt : RangeTree T) (p : Range → Bool) :
    ((ops.items rt.t).filter fun e => p e.r).map RangeKey.r = (rt.ranges ops).filter p := by
  rw [ranges, List.filter_map]
  rfl

/-- On a canonical group, `Add` of a valid range reports what the walk of
`rangeList` reports, and leaves a well-formed group holding the ranges the walk
leaves. -/
theorem add_spec {rt : RangeTree T} (hwf : rt.WellFormed ops) (hrt : Canonical (rt.ranges ops))
    {r : Range} (hr : r.rangeError = false) :
    ∃ rt', rt.add ops r = some ((addAux r (rt.ranges ops)).1, rt') ∧
      rt'.ranges ops = (addAux r (rt.ranges ops)).2 ∧ rt'.WellFormed ops := by
  have hI : (ops.items rt.t).Nodup := List.Nodup.of_map _ hwf.ids_nodup
  unfold add
  rw [if_neg (by simp [hr]), getWithOverlapper_filter hwf hrt r (.inl rfl)]
  cases hq : (ops.items rt.t).filter fun e => Range.overlapInclusive r e.r with
  | nil =>
    -- no item touches `r`: it goes in with a fresh id
    have hnil : (rt.ranges ops).filter r.overlapInclusive = [] := by
      rw [← map_filter_items, hq]
      rfl
    have hfresh : ∀ x ∈ ops.items rt.t, x.id < rt.idCount + 1 := fun x hx =>
      Nat.lt_succ_of_le (hwf.ids_le x hx)
    obtain ⟨hmap, hperm⟩ := map_insertKey_fresh (e := ⟨r, rt.idCount + 1⟩) hfresh
    rw [addAux_of_get_nil hr hrt hnil]
    refine ⟨rt.insertNew ops r, rfl, ?_, ?_⟩
    · simpa only [ranges, insertNew, ops.items_insert] using hmap
    · refine ⟨ops.adjusted_insert _ _ hwf.adjusted, fun e he => ?_, ?_⟩
      · simp only [insertNew, ops.items_insert] at he
        rcases List.mem_cons.mp (hperm.mem_iff.mp he) with rfl | he
        · exact le_rfl
        · exact (hwf.ids_le e he).trans (Nat.le_succ _)
      · simp only [insertNew, ops.items_insert]
        rw [(hperm.map _).nodup_iff, List.map_cons, List.nodup_cons]
        refine ⟨fun h => ?_, hwf.ids_nodup⟩
        obtain ⟨x, hx, hxid⟩ := List.mem_map.mp h
        exact absurd (hfresh x hx) (by simp [hxid])
  | cons first others =>
    have hcons : (rt.ranges ops).filter r.overlapInclusive = first.r :: others.map RangeKey.r := by
      rw [← map_filter_items, hq]
      rfl
    -- `first` and the others are distinct items of the tree
    have hsub : (first :: others).Sublist (ops.items rt.t) := hq ▸ List.filter_sublist
    have hfI : first ∈ ops.items rt.t := hsub.subset List.mem_cons_self
    have hnd : (first :: others).Nodup := hsub.nodup hI
    have hoI : ∀ o ∈ others, o ∈ ops.items rt.t ∧ o.id ≠ first.id := fun o ho =>
      ⟨hsub.subset (List.mem_cons_of_mem _ ho), fun h => (List.nodup_cons.mp hnd).1
        (List.inj_on_of_nodup_map hwf.ids_nodup (hsub.subset (List.mem_cons_of_mem _ ho)) hfI h ▸ ho)⟩
    rw [addAux_of_get_cons hr hrt hcons]
    dsimp only
    split_ifs with hc
    · exact ⟨rt, rfl, rfl, hwf⟩
    · obtain ⟨-, hitems⟩ := items_foldl_mergeStep ops first.id others (ops.items rt.t)
        (first.r.merge r) _ (ops.items_setRange _ _ _) hI (List.nodup_cons.mp hnd).2 hoI
      refine ⟨_, rfl, ?_, ?_⟩
      · simp only [ranges, ops.items_adjustRanges, hitems, List.foldl_map]
        exact map_r_filter_setId hrt.nodup hwf.ids_nodup hfI (fun o ho => (hoI o ho).1) _
      · -- the items left are some of the old ones, with their ids
        have hids : ((ops.items (ops.adjustRanges (others.foldl (mergeStep ops first.id)
            (first.r.merge r, ops.setRange rt.t first.id (first.r.merge r))).2)).map RangeKey.id).Sublist
            ((ops.items rt.t).map RangeKey.id) := by
          rw [ops.items_adjustRanges, hitems, List.map_map]
          simp only [Function.comp_def, id_setId]
          exact List.filter_sublist.map _
        refine ⟨ops.adjusted_adjustRanges _, fun e he => ?_, hids.nodup hwf.ids_nodup⟩
        obtain ⟨x, hx, hxe⟩ := List.mem_map.mp (hids.subset (List.mem_map_of_mem he))
        exact hxe ▸ hwf.ids_le x hx

theorem overlaps_eq {rt : RangeTree T} (hwf : rt.WellFormed ops) (hrt : Canonical (rt.ranges ops))
    (r : Range) : rt.overlaps ops r = (rt.toRangeList ops).overlaps r := by
  cases hr : r.rangeError
  · have hlen : (ops.getWithOverlapper rt.t r Range.overlapExclusive).length =
        ((rt.ranges ops).filter r.overlapExclusive).length := by
      rw [getWithOverlapper_filter hwf hrt r (.inr rfl), ← map_filter_items, List.length_map]
    rw [overlaps, if_neg (by simp [hr]), overlaps_of_valid _ hr, Option.some.injEq, eq_comm,
      Bool.eq_iff_iff, toRangeList_ranges, overlapsAux_iff hr hrt, decide_eq_true_iff, hlen,
      List.length_pos_iff_exists_mem]
    constructor
    · rintro ⟨k, hkr, e, he, hke⟩
      exact ⟨e, List.mem_filter.mpr ⟨he, Range.overlapExclusive_of_mem hkr hke⟩⟩
    · rintro ⟨e, he⟩
      obtain ⟨he, ho⟩ := List.mem_filter.mp he
      obtain ⟨k, hkr, hke⟩ := Range.exists_mem_of_overlapExclusive hr (hrt.valid e he) ho
      exact ⟨k, hkr, e, he, hke⟩
  · simp [overlaps, RangeGroup.overlaps, hr]

theorem encloses_eq {rt : RangeTree T} (hwf : rt.WellFormed ops) (hrt : Canonical (rt.ranges ops))
    (r : Range) : rt.encloses ops r = (rt.toRangeList ops).encloses r := by
  cases hr : r.rangeError
  · -- `Encloses` reads only the ranges of what `Get` returns
    have hget : (ops.getWithOverlapper rt.t r Range.overlapExclusive).map RangeKey.r =
        (rt.ranges ops).filter r.overlapExclusive := by
      rw [getWithOverlapper_filter hwf hrt r (.inr rfl), map_filter_items]
    rw [encloses, if_neg (by simp [hr]), encloses_of_valid _ hr, toRangeList_ranges]
    cases he : enclosesAux r (rt.ranges ops)
    · -- no range the tree finds can contain `r`, or the group would enclose it
      rcases hl : ops.getWithOverlapper rt.t r Range.overlapExclusive with _ | ⟨first, _ | ⟨b, l⟩⟩
      · rfl
      · have hmem : first.r ∈ rt.ranges ops := by
          refine List.mem_of_mem_filter (p := r.overlapExclusive) ?_
          rw [← hget, hl]
          exact List.mem_singleton_self _
        dsimp only
        cases hc : first.r.contains r
        · rfl
        · rw [← he]
          exact congrArg some ((enclosesAux_iff hr hrt).mpr fun k hk =>
            ⟨first.r, hmem, Range.mem_of_contains hc hk⟩).symm
      · rfl
    · -- one range of the group contains `r`, and it is the only one that overlaps `r`
      obtain ⟨s, hs, hsr, hrs⟩ := hrt.exists_of_forall_covers (Range.lt_of_valid hr)
        fun k h1 h2 => (enclosesAux_iff hr hrt).mp he k ⟨h1, h2⟩
      have hc : s.contains r = true := contains_iff.mpr ⟨hsr, hrs⟩
      have hsingle := filter_overlapExclusive_of_contains hr hc hrt hs
      rw [← hget] at hsingle
      obtain ⟨first, hl, rfl⟩ := List.map_eq_singleton_iff.mp hsingle
      rw [hl]
      exact congrArg some hc
  · simp [encloses, RangeGroup.encloses, hr]

theorem len_eq (rt : RangeTree T) : rt.len ops = (rt.toRangeList ops).len :=
  (ops.len_eq rt.t).trans (List.length_map _).symm

end Calls

/-! ### The tree refines the list -/

end RangeTree

/-- The items themselves, in order: the plainest tree that keeps the contract. -/
def IntervalTree.ofItems : IntervalTree (List RangeKey) where
  items := id
  Adjusted := fun _ => True
  empty := []
  getWithOverlapper t r ov := t.filter fun e => ov r e.r
  insert t e := insertKey e t
  delete t e := t.erase e
  setRange t i m := t.map (setId i m)
  adjustRanges := id
  len := List.length
  items_empty := rfl
  adjusted_empty := trivial
  getWithOverlapper_eq _ _ _ _ _ _ := rfl
  items_insert _ _ := rfl
  adjusted_insert _ _ _ := trivial
  items_delete _ _ _ := rfl
  items_setRange _ _ _ := rfl
  items_adjustRanges _ := rfl
  adjusted_adjustRanges _ := trivial
  len_eq _ := rfl

/-- The walk of `seqAndDepsForCommand` over one replica's instances, on the tree
`p.rangeGroup`: it returns the group it leaves with what it found. -/
def descendDepsOnTree {T : Type} (ops : IntervalTree T) (cmd : Command) (ignored : InstanceID)
    (rID : ℕ) : List Instance → RangeTree T → ℕ × List InstanceID →
      Option ((ℕ × List InstanceID) × RangeTree T)
  | [], g, acc => some (acc, g)
  | inst :: rest, g, acc =>
    if inst.is.instanceID = ignored then descendDepsOnTree ops cmd ignored rID rest g acc
    else do
      let otherCmd ← inst.is.command
      if otherCmd.interferes cmd then
        let maxSeq := maxSeqNum acc.1 inst.is.seqNum
        let dep : InstanceID := ⟨rID, inst.num⟩
        let otherRange := rangeForCmd otherCmd
        if otherCmd.writing then
          let (grew, g') ← g.add ops otherRange
          if grew then
            let deps := acc.2 ++ [dep]
            if g'.len ops = 1 then
              let enc ← g'.encloses ops (rangeForCmd cmd)
              if enc then some ((maxSeq, deps), g')
              else descendDepsOnTree ops cmd ignored rID rest g' (maxSeq, deps)
            else descendDepsOnTree ops cmd ignored rID rest g' (maxSeq, deps)
          else descendDepsOnTree ops cmd ignored rID rest g' (maxSeq, acc.2)
        else
          let ov ← g.overlaps ops otherRange
          descendDepsOnTree ops cmd ignored rID rest g
            (maxSeq, if ov then acc.2 else acc.2 ++ [dep])
      else descendDepsOnTree ops cmd ignored rID rest g acc

/-- `seqAndDepsForCommand` with `p.rangeGroup` a tree: the group is cleared
after each replica's instances. -/
def Replica.seqAndDepsForCommandOnTree {T : Type} (ops : IntervalTree T) (p : Replica)
    (rangeGroup : RangeTree T) (cmd : Command) (ignoredInstance : InstanceID) :
    Option ((ℕ × List InstanceID) × RangeTree T) :=
  p.nodes.foldlM
    (fun acc rID => (descendDepsOnTree ops cmd ignoredInstance rID (p.commands rID).items acc.2
      acc.1).map fun res => (res.1, res.2.clear ops))
    ((0, []), rangeGroup)

namespace RangeTree

variable {T : Type} {ops : IntervalTree T}

/-- The walk on a well-formed canonical tree finds what the walk on the list of
its ranges finds; the induction is on the instances, and each call on the
group is replaced by the list's answer. -/
theorem descendDepsOnTree_fst (cmd : Command) (ignored : InstanceID) (rID : ℕ) :
    ∀ (insts : List Instance) (g : RangeTree T) (acc : ℕ × List InstanceID),
      g.WellFormed ops → Canonical (g.ranges ops) →
      (descendDepsOnTree ops cmd ignored rID insts g acc).map Prod.fst =
        descendDeps cmd ignored rID insts (g.toRangeList ops) acc
  | [], _, _, _, _ => rfl
  | inst :: rest, g, acc, hwf, hg => by
    have ih := descendDepsOnTree_fst cmd ignored rID rest
    unfold descendDepsOnTree descendDeps
    split_ifs with hign
    · exact ih g acc hwf hg
    cases inst.is.command with
    | none => rfl
    | some otherCmd =>
      simp only [Option.bind_eq_bind, Option.bind_some]
      split_ifs with hint hw
      · -- a write: `Add` gives the list's report and a group holding the list's ranges
        cases hr : (rangeForCmd otherCmd).rangeError
        · obtain ⟨g', hadd, hranges, hwf'⟩ := add_spec hwf hg hr
          have hcan' : Canonical (g'.ranges ops) := hranges ▸ addAux_canonical hr hg
          have hlist : (g.toRangeList ops).add (rangeForCmd otherCmd) =
              some ((addAux (rangeForCmd otherCmd) (g.ranges ops)).1, g'.toRangeList ops) := by
            rw [add_of_valid _ hr, toRangeList, toRangeList, hranges]
          rw [hadd, hlist, Option.bind_some, Option.bind_some]
          dsimp only
          rw [len_eq g', encloses_eq hwf' hcan']
          split_ifs
          · cases (g'.toRangeList ops).encloses (rangeForCmd cmd) with
            | none => rfl
            | some enc =>
              rw [Option.bind_some, Option.bind_some]
              split_ifs
              · rfl
              · exact ih g' _ hwf' hcan'
          · exact ih g' _ hwf' hcan'
          · exact ih g' _ hwf' hcan'
        · simp [add, RangeGroup.add, hr]
      · -- a read: `Overlaps` gives the list's answer
        rw [overlaps_eq hwf hg]
        cases (g.toRangeList ops).overlaps (rangeForCmd otherCmd) with
        | none => rfl
        | some ov => exact ih g _ hwf hg
      · exact ih g acc hwf hg

/-- A cleared group is well formed and empty. -/
theorem wellFormed_of_cleared {g : RangeTree T} (hg : g.t = ops.empty) :
    g.WellFormed ops ∧ g.ranges ops = [] := by
  obtain ⟨t, n⟩ := g
  subst hg
  exact ⟨wellFormed_clear ops ⟨ops.empty, n⟩, ranges_clear ops ⟨ops.empty, n⟩⟩

end RangeTree

end EPaxos
