import EPaxos.Commands
import EPaxos.Eager

/-!
# Dependencies of interfering commands

`seqAndDepsForCommand` does not make a command depend on every interfering
instance it knows. In each replica space it scans down from the highest
instance and keeps the written ranges it has made dependencies in a range
group: a later write that the group already holds, or a read that meets it, is
left out, and once one range of the group encloses the command the scan stops.
The source relies on the causality of each instance space for this: an
instance left out is reached through a later instance of the same space, which
interferes with it and was proposed after it.

We read the group as the set of keys of its ranges. On well-formed spans one
scan then covers every interfering instance it could have depended on
(`seqAndDepsForCommand_cover`): the instance is a dependency, or a later write
of its space that interferes with it is.

`Span.Overlaps` agrees with that set of keys only on well-formed spans, which is
what the callers of `Request` propose. An inverted span such as `[5, 3)` holds no
key as a range, yet it overlaps `[1, 6)`: a scan for `[1, 6)` may stop at later
writes that enclose it without interfering with `[5, 3)`.
-/
namespace EPaxos

open Digraph

/-! ### Keys of ranges -/

/-- No key lies strictly between `k` and `k ++ [0]`. -/
theorem not_lt_lt_append_zero : ∀ {k a : Key}, k < a → ¬a < k ++ [0]
  | [], [], h => absurd h (List.lt_irrefl _)
  | [], x :: a, _ => fun h => by
    rcases List.cons_lt_cons_iff.mp h with hx | ⟨-, ha⟩
    · exact Fin.not_lt_zero x hx
    · exact List.not_lt_nil _ ha
  | _ :: _, [], h => absurd h (List.not_lt_nil _)
  | b :: k, x :: a, h => fun h' => by
    rw [List.cons_append] at h'
    rcases List.cons_lt_cons_iff.mp h with hbx | ⟨rfl, hka⟩
    · rcases List.cons_lt_cons_iff.mp h' with hxb | ⟨rfl, -⟩
      · exact lt_asymm hbx hxb
      · exact lt_irrefl _ hbx
    · rcases List.cons_lt_cons_iff.mp h' with hxb | ⟨-, hak⟩
      · exact lt_irrefl _ hxb
      · exact not_lt_lt_append_zero hka hak

namespace Range

/-- A key lies in the range. -/
def Mem (k : Key) (r : Range) : Prop := r.start ≤ k ∧ k < r.endKey

theorem lt_of_valid {r : Range} (h : r.rangeError = false) : r.start < r.endKey := by
  simpa [rangeError] using h

theorem start_mem {r : Range} (h : r.rangeError = false) : Mem r.start r :=
  ⟨le_rfl, lt_of_valid h⟩

theorem mem_of_contains {out r : Range} (h : out.contains r = true) {k : Key} (hk : Mem k r) :
    Mem k out := by
  simp only [contains, Bool.and_eq_true, decide_eq_true_eq] at h
  exact ⟨le_trans h.1 hk.1, lt_of_lt_of_le hk.2 h.2⟩

/-- Two valid ranges that overlap share the larger of their starts. -/
theorem exists_mem_of_overlapExclusive {r o : Range} (hr : r.rangeError = false)
    (ho : o.rangeError = false) (h : r.overlapExclusive o = true) : ∃ k, Mem k r ∧ Mem k o := by
  simp only [overlapExclusive, Bool.and_eq_true, decide_eq_true_eq] at h
  exact ⟨max r.start o.start, ⟨le_max_left _ _, max_lt (lt_of_valid hr) h.1⟩,
    ⟨le_max_right _ _, max_lt h.2 (lt_of_valid ho)⟩⟩

/-- Two ranges with a key in common overlap. -/
theorem overlapExclusive_of_mem {r o : Range} {k : Key} (hr : Mem k r) (ho : Mem k o) :
    r.overlapExclusive o = true := by
  simp only [overlapExclusive, Bool.and_eq_true, decide_eq_true_eq]
  exact ⟨lt_of_le_of_lt ho.1 hr.2, lt_of_le_of_lt hr.1 ho.2⟩

theorem merge_start (l r : Range) : (l.merge r).start = min l.start r.start := by
  by_cases h : r.start < l.start
  · rw [merge, if_pos h, min_eq_right h.le]
  · rw [merge, if_neg h, min_eq_left (not_lt.mp h)]

theorem merge_endKey (l r : Range) : (l.merge r).endKey = max l.endKey r.endKey := by
  by_cases h : l.endKey < r.endKey
  · rw [merge, if_pos h, max_eq_right h.le]
  · rw [merge, if_neg h, max_eq_left (not_lt.mp h)]

/-- Two ranges that touch merge into one that holds only their keys. -/
theorem mem_merge {l r : Range} (h : l.overlapInclusive r = true) {k : Key}
    (hk : Mem k (l.merge r)) : Mem k l ∨ Mem k r := by
  rw [Mem, merge_start, merge_endKey, min_le_iff, lt_max_iff] at hk
  simp only [overlapInclusive, Bool.and_eq_true, decide_eq_true_eq] at h
  obtain ⟨hs, he⟩ := hk
  by_cases hl : l.start ≤ k
  · by_cases hle : k < l.endKey
    · exact .inl ⟨hl, hle⟩
    · exact .inr ⟨le_trans h.1 (not_lt.mp hle), he.resolve_left hle⟩
  · exact .inr ⟨hs.resolve_left hl, lt_of_lt_of_le (not_le.mp hl) h.2⟩

theorem merge_valid {l : Range} (hl : l.rangeError = false) (r : Range) :
    (l.merge r).rangeError = false := by
  have h := lt_of_valid hl
  simp only [rangeError, merge_start, merge_endKey, Bool.not_eq_false', decide_eq_true_eq]
  exact lt_of_le_of_lt (min_le_left _ _) (lt_of_lt_of_le h (le_max_left _ _))

end Range

namespace RangeGroup

/-- A key lies in one of the ranges. -/
def MemList (k : Key) (rs : List Range) : Prop := ∃ er ∈ rs, Range.Mem k er

/-- Every range of the list is valid. -/
def Valid (rs : List Range) : Prop := ∀ er ∈ rs, er.rangeError = false

theorem mergeFollowing_sub (newR : Range) :
    ∀ (ps : List Range) {k : Key},
      MemList k ((mergeFollowing newR ps).1 :: (mergeFollowing newR ps).2) →
      Range.Mem k newR ∨ MemList k ps
  | [], k, ⟨er, her, hk⟩ => by
    simp only [mergeFollowing, List.mem_singleton] at her
    exact .inl (her ▸ hk)
  | pr :: ps, k, hk => by
    unfold mergeFollowing at hk
    split_ifs at hk with ho
    · -- the merged range swallowed `pr`
      rcases mergeFollowing_sub (newR.merge pr) ps hk with hm | hm
      · exact (Range.mem_merge ho hm).imp id fun h => ⟨pr, List.mem_cons_self, h⟩
      · obtain ⟨er, her, h⟩ := hm
        exact .inr ⟨er, List.mem_cons_of_mem _ her, h⟩
    · obtain ⟨er, her, h⟩ := hk
      rcases List.mem_cons.mp her with rfl | her
      · exact .inl h
      · exact .inr ⟨er, her, h⟩

theorem mergeFollowing_valid {newR : Range} (hn : newR.rangeError = false) :
    ∀ {ps : List Range}, Valid ps →
      Valid ((mergeFollowing newR ps).1 :: (mergeFollowing newR ps).2)
  | [], _ => by simpa [mergeFollowing, Valid] using hn
  | pr :: ps, hps => by
    unfold mergeFollowing
    split_ifs
    · exact mergeFollowing_valid (Range.merge_valid hn pr)
        fun er her => hps er (List.mem_cons_of_mem _ her)
    · intro er her
      rcases List.mem_cons.mp her with rfl | her
      · exact hn
      · exact hps er her

/-- `Add` puts no key in the group but those of the group and of the range. -/
theorem addAux_sub (r : Range) :
    ∀ (rs : List Range) {k : Key}, MemList k (addAux r rs).2 → Range.Mem k r ∨ MemList k rs
  | [], k, ⟨er, her, hk⟩ => by
    simp only [addAux, List.mem_singleton] at her
    exact .inl (her ▸ hk)
  | er :: rest, k, hk => by
    unfold addAux at hk
    split_ifs at hk with ho hc
    · exact .inr hk
    · -- the walk merged `r` into `er` and the ranges it now touches
      rcases mergeFollowing_sub (er.merge r) rest hk with hm | hm
      · exact (Range.mem_merge ho hm).symm.imp id fun h => ⟨er, List.mem_cons_self, h⟩
      · obtain ⟨er', her', h⟩ := hm
        exact .inr ⟨er', List.mem_cons_of_mem _ her', h⟩
    · obtain ⟨er', her', h⟩ := hk
      rcases List.mem_cons.mp her' with rfl | her'
      · exact .inl h
      · exact .inr ⟨er', her', h⟩
    · obtain ⟨er', her', h⟩ := hk
      rcases List.mem_cons.mp her' with rfl | her'
      · exact .inr ⟨er', List.mem_cons_self, h⟩
      · rcases addAux_sub r rest ⟨er', her', h⟩ with h | ⟨er'', her'', h⟩
        · exact .inl h
        · exact .inr ⟨er'', List.mem_cons_of_mem _ her'', h⟩

theorem addAux_valid {r : Range} (hr : r.rangeError = false) :
    ∀ {rs : List Range}, Valid rs → Valid (addAux r rs).2
  | [], _ => by simpa [addAux, Valid] using hr
  | er :: rest, hrs => by
    have hrest : Valid rest := fun e he => hrs e (List.mem_cons_of_mem _ he)
    unfold addAux
    split_ifs
    · exact hrs
    · exact mergeFollowing_valid (Range.merge_valid (hrs er List.mem_cons_self) r) hrest
    · intro e he
      rcases List.mem_cons.mp he with rfl | he
      · exact hr
      · exact hrs e he
    · intro e he
      rcases List.mem_cons.mp he with rfl | he
      · exact hrs e List.mem_cons_self
      · exact addAux_valid hr hrest e he

/-- `Add` reports no growth only for a range that one range of the group
contains. -/
theorem addAux_fst_eq_false {r : Range} :
    ∀ {rs : List Range}, (addAux r rs).1 = false → ∃ er ∈ rs, er.contains r = true
  | [], h => by simp [addAux] at h
  | er :: rest, h => by
    by_cases ho : er.overlapInclusive r = true
    · by_cases hc : er.contains r = true
      · exact ⟨er, List.mem_cons_self, hc⟩
      · simp [addAux, ho, hc] at h
    · by_cases hlt : r.endKey < er.start
      · simp [addAux, ho, hlt] at h
      · simp only [addAux, ho, hlt, if_false, Bool.false_eq_true] at h
        obtain ⟨er', her', hc'⟩ := addAux_fst_eq_false h
        exact ⟨er', List.mem_cons_of_mem _ her', hc'⟩

theorem overlapsAux_eq_true {r : Range} :
    ∀ {rs : List Range}, overlapsAux r rs = true → ∃ er ∈ rs, er.overlapExclusive r = true
  | [], h => by simp [overlapsAux] at h
  | er :: rest, h => by
    unfold overlapsAux at h
    split_ifs at h with ho
    · exact ⟨er, List.mem_cons_self, ho⟩
    · obtain ⟨er', her', ho'⟩ := overlapsAux_eq_true h
      exact ⟨er', List.mem_cons_of_mem _ her', ho'⟩

theorem enclosesAux_eq_true {r : Range} :
    ∀ {rs : List Range}, enclosesAux r rs = true → ∃ er ∈ rs, er.contains r = true
  | [], h => by simp [enclosesAux] at h
  | er :: rest, h => by
    unfold enclosesAux at h
    split_ifs at h with hc
    · exact ⟨er, List.mem_cons_self, hc⟩
    · obtain ⟨er', her', hc'⟩ := enclosesAux_eq_true h
      exact ⟨er', List.mem_cons_of_mem _ her', hc'⟩

end RangeGroup

/-! ### Interference as a common key -/

theorem mem_rangeForCmd_of_point {c : Command} (h : c.span.endKey = []) {k : Key} :
    Range.Mem k (rangeForCmd c) ↔ k = c.span.key := by
  simp only [Range.Mem, rangeForCmd, h, List.isEmpty_nil, if_true]
  constructor
  · rintro ⟨hle, hlt⟩
    exact le_antisymm (not_lt.mp fun hk => not_lt_lt_append_zero hk hlt) hle
  · rintro rfl
    exact ⟨le_rfl, lt_append_zero _⟩

theorem mem_rangeForCmd_of_range {c : Command} (h : c.span.endKey ≠ []) {k : Key} :
    Range.Mem k (rangeForCmd c) ↔ c.span.key ≤ k ∧ k < c.span.endKey := by
  simp [Range.Mem, rangeForCmd, List.isEmpty_iff, h]

/-- On well-formed spans two spans overlap exactly when their ranges have a key
in common. -/
theorem overlaps_iff_exists_mem {c o : Command} (hc : c.span.WellFormed)
    (ho : o.span.WellFormed) :
    c.span.overlaps o.span = true ↔
      ∃ k, Range.Mem k (rangeForCmd c) ∧ Range.Mem k (rangeForCmd o) := by
  by_cases hce : c.span.endKey = []
  · by_cases hoe : o.span.endKey = []
    · simp [Span.overlaps, mem_rangeForCmd_of_point hce, mem_rangeForCmd_of_point hoe, hce, hoe]
    · simp [Span.overlaps, mem_rangeForCmd_of_point hce, mem_rangeForCmd_of_range hoe, hce,
        List.isEmpty_iff, hoe]
  · by_cases hoe : o.span.endKey = []
    · simp [Span.overlaps, mem_rangeForCmd_of_range hce, mem_rangeForCmd_of_point hoe, hoe,
        List.isEmpty_iff, hce]
    · -- two proper ranges share the larger of their starts
      have hc' := hc.resolve_left hce
      have ho' := ho.resolve_left hoe
      have hov : c.span.overlaps o.span = true ↔
          o.span.key < c.span.endKey ∧ c.span.key < o.span.endKey := by
        simp [Span.overlaps, List.isEmpty_iff, hce, hoe]
      simp only [hov, mem_rangeForCmd_of_range hce, mem_rangeForCmd_of_range hoe]
      constructor
      · rintro ⟨h₁, h₂⟩
        exact ⟨max c.span.key o.span.key, ⟨le_max_left _ _, max_lt hc' h₁⟩,
          ⟨le_max_right _ _, max_lt h₂ ho'⟩⟩
      · rintro ⟨k, ⟨hc₁, hc₂⟩, ho₁, ho₂⟩
        exact ⟨lt_of_le_of_lt ho₁ hc₂, lt_of_le_of_lt hc₁ ho₂⟩

theorem wellFormed_of_valid {c : Command} (h : (rangeForCmd c).rangeError = false) :
    c.span.WellFormed := by
  by_cases he : c.span.endKey = []
  · exact .inl he
  · refine .inr ?_
    have := Range.lt_of_valid h
    simpa [rangeForCmd, List.isEmpty_iff, he] using this

/-- `Overlaps` does not depend on the order of the spans. -/
theorem Span.overlaps_comm (s o : Span) : s.overlaps o = o.overlaps s := by
  unfold Span.overlaps
  cases hs : s.endKey.isEmpty <;> cases ho : o.endKey.isEmpty <;> simp [Bool.and_comm, eq_comm]

theorem Command.interferes_comm (c o : Command) : c.interferes o = o.interferes c := by
  rw [Command.interferes, Command.interferes, Bool.or_comm, Span.overlaps_comm]

/-- On well-formed spans, `Overlaps` is the overlap test of their ranges. -/
theorem overlaps_eq_overlapExclusive {c o : Command} (hc : c.span.WellFormed)
    (ho : o.span.WellFormed) :
    c.span.overlaps o.span = (rangeForCmd c).overlapExclusive (rangeForCmd o) := by
  rw [Bool.eq_iff_iff, overlaps_iff_exists_mem hc ho]
  constructor
  · rintro ⟨k, hkc, hko⟩
    exact Range.overlapExclusive_of_mem hkc hko
  · exact Range.exists_mem_of_overlapExclusive (rangeForCmd_valid hc) (rangeForCmd_valid ho)

/-- A group of one range answers `Overlaps` with that range's overlap test. -/
theorem RangeGroup.overlapsAux_singleton (r er : Range) :
    RangeGroup.overlapsAux r [er] = er.overlapExclusive r := by
  cases h : er.overlapExclusive r <;> simp [RangeGroup.overlapsAux, h]

/-- On well-formed spans, `Overlaps` holds exactly when the half-open ranges
`rangeForCmd` gives the spans intersect. `Overlaps` and `Interferes` are
symmetric, `Interferes` is the overlap test of the ranges with one write among
the commands, and the range group `seqAndDepsForCommand` builds from one
command's range answers its `Overlaps` test on another command as `Overlaps`
does. -/
theorem overlaps_iff_ranges_intersect {c o : Command} (hc : c.span.WellFormed)
    (ho : o.span.WellFormed) :
    (c.span.overlaps o.span = true ↔ (rangeForCmd c).start < (rangeForCmd o).endKey ∧
      (rangeForCmd o).start < (rangeForCmd c).endKey) ∧
    c.span.overlaps o.span = o.span.overlaps c.span ∧ c.interferes o = o.interferes c ∧
    c.interferes o = ((c.writing || o.writing) &&
      (rangeForCmd c).overlapExclusive (rangeForCmd o)) ∧
    ((RangeGroup.empty.add (rangeForCmd c)).bind fun a => a.2.overlaps (rangeForCmd o)) =
      some (c.span.overlaps o.span) := by
  have hov := overlaps_eq_overlapExclusive hc ho
  -- the group holds the one range `rangeForCmd c`
  have hgroup : RangeGroup.empty.add (rangeForCmd c) = some (true, ⟨[rangeForCmd c]⟩) :=
    RangeGroup.add_of_valid _ (rangeForCmd_valid hc)
  refine ⟨?_, Span.overlaps_comm _ _, Command.interferes_comm c o,
    by rw [Command.interferes, hov], ?_⟩
  · rw [hov, Range.overlapExclusive, Bool.and_eq_true, decide_eq_true_eq, decide_eq_true_eq,
      and_comm]
  · rw [hgroup, Option.bind_some, RangeGroup.overlaps_of_valid _ (rangeForCmd_valid ho),
      RangeGroup.overlapsAux_singleton, hov]

/-- A write of the range `[1, 5)`. -/
def rangeWrite : Command := ⟨1, ⟨[1], [5]⟩, true⟩

/-- A read of the point `3`. -/
def pointRead : Command := ⟨2, ⟨[3], []⟩, false⟩

theorem overlaps_iff_ranges_intersect_pointRead :
    rangeWrite.span.WellFormed ∧ pointRead.span.WellFormed ∧
    (rangeWrite.span.overlaps pointRead.span = true ↔
      (rangeForCmd rangeWrite).start < (rangeForCmd pointRead).endKey ∧
      (rangeForCmd pointRead).start < (rangeForCmd rangeWrite).endKey) ∧
    rangeWrite.span.overlaps pointRead.span = pointRead.span.overlaps rangeWrite.span ∧
    rangeWrite.interferes pointRead = pointRead.interferes rangeWrite ∧
    rangeWrite.interferes pointRead = ((rangeWrite.writing || pointRead.writing) &&
      (rangeForCmd rangeWrite).overlapExclusive (rangeForCmd pointRead)) ∧
    ((RangeGroup.empty.add (rangeForCmd rangeWrite)).bind
      fun a => a.2.overlaps (rangeForCmd pointRead)) =
      some (rangeWrite.span.overlaps pointRead.span) :=
  ⟨by decide, by decide, overlaps_iff_ranges_intersect (by decide) (by decide)⟩

/-! ### One scan of a replica space -/

/-- What one step of the scan does with the instance at the head. It skips an
ignored instance and one whose command does not interfere. A write adds its
range to the group and is made a dependency when the group grew; the scan stops
there when the group is one range that encloses the command. A read is made a
dependency when it misses the group. -/
theorem descendDeps_cons {cmd : Command} {ignored : InstanceID} {rID : ℕ} {inst : Instance}
    {rest : List Instance} {g : RangeGroup} {acc res : ℕ × List InstanceID}
    (h : descendDeps cmd ignored rID (inst :: rest) g acc = some res) :
    (descendDeps cmd ignored rID rest g acc = some res ∧
      (inst.is.instanceID = ignored ∨ ∃ c, inst.is.command = some c ∧ c.interferes cmd = false)) ∨
    ∃ c, inst.is.instanceID ≠ ignored ∧ inst.is.command = some c ∧ c.interferes cmd = true ∧
      (rangeForCmd c).rangeError = false ∧
      ((c.writing = true ∧ (RangeGroup.addAux (rangeForCmd c) g.ranges).1 = true ∧
          (RangeGroup.addAux (rangeForCmd c) g.ranges).2.length = 1 ∧
          (rangeForCmd cmd).rangeError = false ∧
          RangeGroup.enclosesAux (rangeForCmd cmd)
            (RangeGroup.addAux (rangeForCmd c) g.ranges).2 = true ∧
          res = (maxSeqNum acc.1 inst.is.seqNum, acc.2 ++ [⟨rID, inst.num⟩])) ∨
        (c.writing = true ∧
          descendDeps cmd ignored rID rest ⟨(RangeGroup.addAux (rangeForCmd c) g.ranges).2⟩
            (maxSeqNum acc.1 inst.is.seqNum,
              if (RangeGroup.addAux (rangeForCmd c) g.ranges).1 then acc.2 ++ [⟨rID, inst.num⟩]
              else acc.2) = some res) ∨
        (c.writing = false ∧
          descendDeps cmd ignored rID rest g
            (maxSeqNum acc.1 inst.is.seqNum,
              if RangeGroup.overlapsAux (rangeForCmd c) g.ranges then acc.2
              else acc.2 ++ [⟨rID, inst.num⟩]) = some res)) := by
  unfold descendDeps at h
  split_ifs at h with hign
  · exact .inl ⟨h, .inl hign⟩
  simp only [Option.bind_eq_bind, Option.bind_eq_some_iff] at h
  obtain ⟨c, hc, h⟩ := h
  split_ifs at h with hi hw
  · -- a write: `Add` fails on an invalid range
    rw [Option.bind_eq_some_iff] at h
    obtain ⟨⟨grew, g'⟩, hadd, h⟩ := h
    have hv : (rangeForCmd c).rangeError = false := by
      cases hv : (rangeForCmd c).rangeError
      · rfl
      · simp [RangeGroup.add, hv] at hadd
    rw [RangeGroup.add_of_valid g hv, Option.some.injEq, Prod.mk.injEq] at hadd
    obtain ⟨rfl, rfl⟩ := hadd
    refine .inr ⟨c, hign, hc, hi, hv, ?_⟩
    dsimp only at h
    split_ifs at h with hgrew hlen
    · rw [Option.bind_eq_some_iff] at h
      obtain ⟨enc, henc, h⟩ := h
      have hcmd : (rangeForCmd cmd).rangeError = false := by
        cases hv : (rangeForCmd cmd).rangeError
        · rfl
        · simp [RangeGroup.encloses, hv] at henc
      rw [RangeGroup.encloses_of_valid _ hcmd, Option.some.injEq] at henc
      subst henc
      split_ifs at h with henc
      · exact .inl ⟨hw, hgrew, hlen, hcmd, henc, (Option.some.inj h).symm⟩
      · exact .inr (.inl ⟨hw, by rwa [if_pos hgrew]⟩)
    · exact .inr (.inl ⟨hw, by rwa [if_pos hgrew]⟩)
    · exact .inr (.inl ⟨hw, by rwa [if_neg hgrew]⟩)
  · -- a read: `Overlaps` fails on an invalid range
    rw [Option.bind_eq_some_iff] at h
    obtain ⟨ov, hov, h⟩ := h
    have hv : (rangeForCmd c).rangeError = false := by
      cases hv : (rangeForCmd c).rangeError
      · rfl
      · simp [RangeGroup.overlaps, hv] at hov
    rw [RangeGroup.overlaps_of_valid g hv, Option.some.injEq] at hov
    subst hov
    exact .inr ⟨c, hign, hc, hi, hv, .inr (.inr ⟨Bool.eq_false_iff.mpr hw, h⟩)⟩
  · exact .inl ⟨h, .inr ⟨c, hc, Bool.eq_false_iff.mpr hi⟩⟩

section Scan

variable (P : Instance → Prop) (rID : ℕ)

/-- The key `k` is a key of a write with a well-formed span that the scan made a
dependency, above every instance of `rest`. -/
def Witnessed (deps : List InstanceID) (rest : List Instance) (k : Key) : Prop :=
  ∃ w c, P w ∧ w.is.command = some c ∧ c.writing = true ∧ c.span.WellFormed ∧
    Range.Mem k (rangeForCmd c) ∧ (⟨rID, w.num⟩ : InstanceID) ∈ deps ∧ ∀ e ∈ rest, e.num < w.num

/-- The instance `e` with command `c` is a dependency, or a write above it that
interferes with it is. -/
def Covered (deps : List InstanceID) (e : Instance) (c : Command) : Prop :=
  (⟨rID, e.num⟩ : InstanceID) ∈ deps ∨
    ∃ w c', P w ∧ w.is.command = some c' ∧ c'.writing = true ∧ c'.interferes c = true ∧
      e.num < w.num ∧ (⟨rID, w.num⟩ : InstanceID) ∈ deps

variable {P rID}

theorem Witnessed.mono {deps deps' : List InstanceID} {rest rest' : List Instance} {k : Key}
    (h : Witnessed P rID deps rest k) (hd : ∀ x ∈ deps, x ∈ deps')
    (hr : ∀ e ∈ rest', e ∈ rest) : Witnessed P rID deps' rest' k := by
  obtain ⟨w, c, hw, hc, hwr, hwf, hk, hdep, habove⟩ := h
  exact ⟨w, c, hw, hc, hwr, hwf, hk, hd _ hdep, fun e he => habove e (hr e he)⟩

theorem Covered.mono {deps deps' : List InstanceID} {e : Instance} {c : Command}
    (h : Covered P rID deps e c) (hd : ∀ x ∈ deps, x ∈ deps') : Covered P rID deps' e c :=
  h.imp (hd _) fun ⟨w, c', hw, hc', hwr, hi, hlt, hdep⟩ => ⟨w, c', hw, hc', hwr, hi, hlt, hd _ hdep⟩

/-- A key that `e`'s range shares with a witnessed key covers `e`: the witness
writes that key, so it interferes with `e`. -/
theorem Witnessed.covered {deps : List InstanceID} {rest : List Instance} {k : Key}
    (h : Witnessed P rID deps rest k) {e : Instance} (he : e ∈ rest) {c : Command}
    (hwf : c.span.WellFormed) (hk : Range.Mem k (rangeForCmd c)) : Covered P rID deps e c := by
  obtain ⟨w, c', hw, hc', hwr, hwf', hk', hdep, habove⟩ := h
  have hi : c'.interferes c = true := by
    rw [Command.interferes, hwr, Bool.true_or, Bool.true_and]
    exact (overlaps_iff_exists_mem hwf' hwf).mpr ⟨k, hk', hk⟩
  exact .inr ⟨w, c', hw, hc', hwr, hi, habove e he, hdep⟩

/-- What the scan adds to the dependencies: the ids of instances of the list,
other than the ignored one, whose commands interfere with `cmd`. -/
theorem descendDeps_deps {cmd : Command} {ignored : InstanceID} :
    ∀ (insts : List Instance) (g : RangeGroup) (acc res : ℕ × List InstanceID),
      descendDeps cmd ignored rID insts g acc = some res →
      ∃ added : List Instance, res.2 = acc.2 ++ added.map (fun i => (⟨rID, i.num⟩ : InstanceID)) ∧
        ∀ i ∈ added, i ∈ insts ∧ i.is.instanceID ≠ ignored ∧
          ∃ c, i.is.command = some c ∧ c.interferes cmd = true
  | [], _, acc, res, h => by
    rw [descendDeps, Option.some.injEq] at h
    exact ⟨[], by rw [← h, List.map_nil, List.append_nil], fun _ h => absurd h List.not_mem_nil⟩
  | inst :: rest, g, acc, res, h => by
    -- the rest of the scan adds instances of the rest
    have hrest : ∀ {g' acc'}, descendDeps cmd ignored rID rest g' acc' = some res →
        ∃ added : List Instance,
          res.2 = acc'.2 ++ added.map (fun i => (⟨rID, i.num⟩ : InstanceID)) ∧
          ∀ i ∈ added, i ∈ inst :: rest ∧ i.is.instanceID ≠ ignored ∧
            ∃ c, i.is.command = some c ∧ c.interferes cmd = true := fun h' => by
      obtain ⟨added, heq, hadded⟩ := descendDeps_deps rest _ _ res h'
      exact ⟨added, heq, fun i hi => (hadded i hi).imp_left (List.mem_cons_of_mem _)⟩
    rcases descendDeps_cons h with ⟨h, -⟩ | ⟨c, hign, hc, hi, -, hstep⟩
    · exact hrest h
    -- the head, made a dependency, comes first among the instances added
    have hhead : ∀ {g'}, descendDeps cmd ignored rID rest g'
        (maxSeqNum acc.1 inst.is.seqNum, acc.2 ++ [⟨rID, inst.num⟩]) = some res →
        ∃ added : List Instance,
          res.2 = acc.2 ++ added.map (fun i => (⟨rID, i.num⟩ : InstanceID)) ∧
          ∀ i ∈ added, i ∈ inst :: rest ∧ i.is.instanceID ≠ ignored ∧
            ∃ c, i.is.command = some c ∧ c.interferes cmd = true := fun h' => by
      obtain ⟨added, heq, hadded⟩ := hrest h'
      refine ⟨inst :: added, by rw [heq, List.map_cons, List.append_assoc]; rfl, fun i hmem => ?_⟩
      rcases List.mem_cons.mp hmem with rfl | hmem
      · exact ⟨List.mem_cons_self, hign, c, hc, hi⟩
      · exact hadded i hmem
    rcases hstep with ⟨-, -, -, -, -, rfl⟩ | ⟨-, h⟩ | ⟨-, h⟩
    · -- the scan stops with the head added
      refine ⟨[inst], rfl, fun i hmem => ?_⟩
      rw [List.mem_singleton.mp hmem]
      exact ⟨List.mem_cons_self, hign, c, hc, hi⟩
    · split_ifs at h
      · exact hhead h
      · exact (hrest h :)
    · split_ifs at h
      · exact (hrest h :)
      · exact hhead h

/-- The dependencies the scan returns extend those it started with. -/
theorem descendDeps_mono {cmd : Command} {ignored : InstanceID}
    (insts : List Instance) (g : RangeGroup) (acc res : ℕ × List InstanceID)
    (h : descendDeps cmd ignored rID insts g acc = some res) : ∀ x ∈ acc.2, x ∈ res.2 := by
  obtain ⟨added, heq, -⟩ := descendDeps_deps insts g acc res h
  intro x hx
  rw [heq]
  exact List.mem_append_left _ hx

/-- Where the scan stops, one range of the group encloses the command: every
instance below that interferes with the command shares a key with the group. -/
theorem covered_of_encloses {cmd : Command} {deps : List InstanceID} {rest : List Instance}
    {rs : List Range} (hw : ∀ k, RangeGroup.MemList k rs → Witnessed P rID deps rest k)
    (henc : RangeGroup.enclosesAux (rangeForCmd cmd) rs = true)
    (hcmd : (rangeForCmd cmd).rangeError = false) {e : Instance} (he : e ∈ rest) {c : Command}
    (hwf : c.span.WellFormed) (hi : c.interferes cmd = true) : Covered P rID deps e c := by
  obtain ⟨er, her, hc⟩ := RangeGroup.enclosesAux_eq_true henc
  have hov : c.span.overlaps cmd.span = true := by
    rw [Command.interferes, Bool.and_eq_true] at hi
    exact hi.2
  obtain ⟨k, hkc, hkcmd⟩ := (overlaps_iff_exists_mem hwf (wellFormed_of_valid hcmd)).mp hov
  exact (hw k ⟨er, her, Range.mem_of_contains hc hkcmd⟩).covered he hwf hkc

/-- Adding the range of the write `inst` keeps every key of the group witnessed
for the instances below it: a key of the new range is `inst`'s own when it grew
the group, and already in the group when it did not. -/
theorem witnessed_addAux {inst : Instance} {rest : List Instance} {c : Command}
    {deps deps' : List InstanceID} {rs : List Range} (hP : P inst)
    (hc : inst.is.command = some c) (hwr : c.writing = true) (hwf : c.span.WellFormed)
    (hbelow : ∀ e ∈ rest, e.num < inst.num) (hd : ∀ x ∈ deps, x ∈ deps')
    (hgrew : (RangeGroup.addAux (rangeForCmd c) rs).1 = true → (⟨rID, inst.num⟩ : InstanceID) ∈ deps')
    (hw : ∀ k, RangeGroup.MemList k rs → Witnessed P rID deps (inst :: rest) k) (k : Key)
    (hk : RangeGroup.MemList k (RangeGroup.addAux (rangeForCmd c) rs).2) :
    Witnessed P rID deps' rest k := by
  have hsub : ∀ e ∈ rest, e ∈ inst :: rest := fun e he => List.mem_cons_of_mem _ he
  rcases RangeGroup.addAux_sub _ rs hk with hkr | hkg
  · cases hg : (RangeGroup.addAux (rangeForCmd c) rs).1
    · obtain ⟨er, her, hcon⟩ := RangeGroup.addAux_fst_eq_false hg
      exact (hw k ⟨er, her, Range.mem_of_contains hcon hkr⟩).mono hd hsub
    · exact ⟨inst, c, hP, hc, hwr, hwf, hkr, hgrew hg, hbelow⟩
  · exact (hw k hkg).mono hd hsub

/-- One scan covers every instance of the space that interferes with the
command and has a well-formed span. The induction follows `descendDeps` down
the list; the group's keys stay witnessed by the writes made dependencies
above the instances still to scan. -/
theorem descendDeps_cover {cmd : Command} {ignored : InstanceID} :
    ∀ (insts : List Instance) (g : RangeGroup) (acc res : ℕ × List InstanceID),
      insts.Pairwise (fun a b => b.num < a.num) → (∀ e ∈ insts, P e) →
      RangeGroup.Valid g.ranges →
      (∀ k, RangeGroup.MemList k g.ranges → Witnessed P rID acc.2 insts k) →
      descendDeps cmd ignored rID insts g acc = some res →
      ∀ e ∈ insts, e.is.instanceID ≠ ignored → ∀ c, e.is.command = some c →
        c.span.WellFormed → c.interferes cmd = true → Covered P rID res.2 e c
  | [], _, _, _, _, _, _, _, _, _, he, _, _, _, _, _ => absurd he List.not_mem_nil
  | inst :: rest, g, acc, res, hsort, hP, hvalid, hw, h, e, he, hign, c, hc, hwf, hi => by
    rw [List.pairwise_cons] at hsort
    have hPr : ∀ e ∈ rest, P e := fun e he => hP e (List.mem_cons_of_mem _ he)
    have hsub : ∀ e ∈ rest, e ∈ inst :: rest := fun e he => List.mem_cons_of_mem _ he
    -- an instance below the head is covered by the rest of the scan
    have hrest : ∀ {g' acc'}, RangeGroup.Valid g'.ranges →
        (∀ k, RangeGroup.MemList k g'.ranges → Witnessed P rID acc'.2 rest k) →
        descendDeps cmd ignored rID rest g' acc' = some res → e ∈ rest →
        Covered P rID res.2 e c := fun hv hw' h' he' =>
      descendDeps_cover rest _ _ res hsort.2 hPr hv hw' h' e he' hign c hc hwf hi
    rcases descendDeps_cons h with ⟨h, hskip⟩ | ⟨c₀, -, hc₀, hi₀, hv₀, hstep⟩
    · -- the head is skipped, so it is not `e`
      rcases List.mem_cons.mp he with rfl | he
      · rcases hskip with hignI | ⟨c₀, hc₀, hi₀⟩
        · exact absurd hignI hign
        · rw [hc, Option.some.injEq] at hc₀
          subst hc₀
          rw [hi] at hi₀
          cases hi₀
      · exact hrest hvalid (fun k hk => (hw k hk).mono (fun _ => id) hsub) h he
    have hwf₀ := wellFormed_of_valid hv₀
    rcases hstep with ⟨hw₀, -, -, hcmd, henc, rfl⟩ | ⟨hw₀, h⟩ | ⟨hw₀, h⟩
    · -- the group grew to one range that encloses the command: the scan stops here
      have hd : ∀ x ∈ acc.2, x ∈ acc.2 ++ [⟨rID, inst.num⟩] :=
        fun x hx => List.mem_append_left _ hx
      have hdep : (⟨rID, inst.num⟩ : InstanceID) ∈ acc.2 ++ [⟨rID, inst.num⟩] :=
        List.mem_append_right _ List.mem_cons_self
      rcases List.mem_cons.mp he with rfl | he
      · exact .inl hdep
      · exact covered_of_encloses (witnessed_addAux (hP inst List.mem_cons_self) hc₀ hw₀ hwf₀
          hsort.1 hd (fun _ => hdep) hw) henc hcmd he hwf hi
    · -- a write: the scan goes on from the group with its range added
      have hd : ∀ x ∈ acc.2, x ∈ (if (RangeGroup.addAux (rangeForCmd c₀) g.ranges).1 = true
          then acc.2 ++ [⟨rID, inst.num⟩] else acc.2) := by
        intro x hx
        split_ifs
        · exact List.mem_append_left _ hx
        · exact hx
      have hgrew : (RangeGroup.addAux (rangeForCmd c₀) g.ranges).1 = true →
          (⟨rID, inst.num⟩ : InstanceID) ∈ (if (RangeGroup.addAux (rangeForCmd c₀) g.ranges).1 = true
            then acc.2 ++ [⟨rID, inst.num⟩] else acc.2) := by
        intro hg
        rw [if_pos hg]
        exact List.mem_append_right _ List.mem_cons_self
      rcases List.mem_cons.mp he with rfl | he
      · -- the head: a dependency when it grew the group, inside the group otherwise
        rw [hc, Option.some.injEq] at hc₀
        subst hc₀
        refine Covered.mono ?_ (descendDeps_mono rest _ _ res h)
        by_cases hg : (RangeGroup.addAux (rangeForCmd c) g.ranges).1 = true
        · exact .inl (hgrew hg)
        · obtain ⟨er, her, hcon⟩ := RangeGroup.addAux_fst_eq_false (Bool.eq_false_iff.mpr hg)
          have hk := Range.start_mem hv₀
          exact ((hw _ ⟨er, her, Range.mem_of_contains hcon hk⟩).mono hd fun _ => id).covered
            List.mem_cons_self hwf hk
      · exact hrest (RangeGroup.addAux_valid hv₀ hvalid)
          (witnessed_addAux (hP inst List.mem_cons_self) hc₀ hw₀ hwf₀ hsort.1 hd hgrew hw) h he
    · -- a read: left out when it meets the group
      have hd : ∀ x ∈ acc.2, x ∈ (if RangeGroup.overlapsAux (rangeForCmd c₀) g.ranges = true
          then acc.2 else acc.2 ++ [⟨rID, inst.num⟩]) := by
        intro x hx
        split_ifs
        · exact hx
        · exact List.mem_append_left _ hx
      rcases List.mem_cons.mp he with rfl | he
      · rw [hc, Option.some.injEq] at hc₀
        subst hc₀
        refine Covered.mono ?_ (descendDeps_mono rest g _ res h)
        split_ifs with hov
        · -- the read shares a key with a write of the group
          obtain ⟨er, her, hex⟩ := RangeGroup.overlapsAux_eq_true hov
          obtain ⟨k, hke, hkc⟩ :=
            Range.exists_mem_of_overlapExclusive (hvalid er her) hv₀ hex
          exact (hw k ⟨er, her, hke⟩).covered List.mem_cons_self hwf hkc
        · exact .inl (List.mem_append_right _ List.mem_cons_self)
      · exact hrest hvalid (fun k hk => (hw k hk).mono hd hsub) h he

end Scan

/-- The scan of every replica space extends the dependencies found so far; the
scan of a space of `nodes` returns dependencies that the result extends. -/
theorem foldlM_descendDeps {cmd : Command} {ignored : InstanceID} {p : Replica} :
    ∀ (nodes : List ℕ) (acc res : ℕ × List InstanceID),
      nodes.foldlM (fun acc rID =>
        descendDeps cmd ignored rID (p.commands rID).items RangeGroup.empty acc) acc = some res →
      (∀ x ∈ acc.2, x ∈ res.2) ∧ ∀ r ∈ nodes, ∃ acc' res', (∀ x ∈ res'.2, x ∈ res.2) ∧
        descendDeps cmd ignored r (p.commands r).items RangeGroup.empty acc' = some res'
  | [], acc, res, h => by
    rw [List.foldlM_nil, Option.pure_def, Option.some.injEq] at h
    exact ⟨fun x hx => h ▸ hx, fun r hr => absurd hr List.not_mem_nil⟩
  | r :: nodes, acc, res, h => by
    rw [List.foldlM_cons, Option.bind_eq_bind, Option.bind_eq_some_iff] at h
    obtain ⟨acc₁, h₁, hrest⟩ := h
    obtain ⟨hmono, hspaces⟩ := foldlM_descendDeps nodes acc₁ res hrest
    refine ⟨fun x hx => hmono x (descendDeps_mono _ _ _ _ h₁ x hx), fun r' hr' => ?_⟩
    rcases List.mem_cons.mp hr' with rfl | hr'
    · exact ⟨acc, acc₁, hmono, h₁⟩
    · exact hspaces r' hr'

/-- `seqAndDepsForCommand` loses no interfering instance of a well-formed span:
each one it holds in a scanned space is a dependency, or a later write of the
same space that interferes with it is. -/
theorem seqAndDepsForCommand_cover {p : Replica} {cmd : Command} {ignored : InstanceID}
    {s : ℕ} {D : List InstanceID} (h : p.seqAndDepsForCommand cmd ignored = some (s, D))
    {r : ℕ} (hr : r ∈ p.nodes) {e : Instance} (he : e ∈ (p.commands r).items)
    (hign : e.is.instanceID ≠ ignored) {c : Command} (hc : e.is.command = some c)
    (hwf : c.span.WellFormed) (hi : c.interferes cmd = true) :
    e.is.instanceID ∈ D ∨ ∃ w ∈ (p.commands r).items, ∃ c', w.is.command = some c' ∧
      c'.writing = true ∧ c'.interferes c = true ∧ e.num < w.num ∧ w.is.instanceID ∈ D := by
  obtain ⟨-, hspaces⟩ := foldlM_descendDeps p.nodes _ _ h
  obtain ⟨acc, res, hsub, hscan⟩ := hspaces r hr
  have hcov := descendDeps_cover (P := (· ∈ (p.commands r).items)) (p.commands r).items
    RangeGroup.empty acc res (p.commands r).sorted (fun _ => id) (fun _ h => absurd h List.not_mem_nil)
    (fun _ ⟨_, h, _⟩ => absurd h List.not_mem_nil) hscan e he hign c hc hwf hi
  rcases hcov with hdep | ⟨w, c', hw, hc', hwr, hi', hlt, hdep⟩
  · exact .inl (by rw [Replica.id_of_mem_items he]; exact hsub _ hdep)
  · exact .inr ⟨w, hw, c', hc', hwr, hi', hlt, by rw [Replica.id_of_mem_items hw]; exact hsub _ hdep⟩

/-- Every dependency `seqAndDepsForCommand` returns is an instance the replica
holds in the space of a node, other than the ignored one, whose command
interferes with `cmd`. -/
theorem seqAndDepsForCommand_sound {p : Replica} {cmd : Command} {ignored : InstanceID}
    {s : ℕ} {D : List InstanceID} (h : p.seqAndDepsForCommand cmd ignored = some (s, D)) :
    ∀ d ∈ D, d ≠ ignored ∧ ∃ r ∈ p.nodes, ∃ i ∈ (p.commands r).items, i.is.instanceID = d ∧
      ∃ c, i.is.command = some c ∧ c.interferes cmd = true := by
  unfold Replica.seqAndDepsForCommand at h
  -- the spaces left to scan are nodes, and each dependency found so far is sound
  refine (OptionFold.foldlM_invariant _ (fun l acc => (∀ r ∈ l, r ∈ p.nodes) ∧
    ∀ d ∈ acc.2, d ≠ ignored ∧ ∃ r ∈ p.nodes, ∃ i ∈ (p.commands r).items, i.is.instanceID = d ∧
      ∃ c, i.is.command = some c ∧ c.interferes cmd = true) ?_ p.nodes (0, []) (s, D)
    ⟨fun _ h => h, fun _ h => absurd h List.not_mem_nil⟩ h).2
  rintro r l acc acc' ⟨hl, hacc⟩ hstep
  obtain ⟨added, heq, hadded⟩ := descendDeps_deps (p.commands r).items _ acc acc' hstep
  refine ⟨fun r' hr' => hl r' (List.mem_cons_of_mem _ hr'), fun d hd => ?_⟩
  rw [heq, List.mem_append, List.mem_map] at hd
  rcases hd with hd | ⟨i, hi, rfl⟩
  · exact hacc d hd
  · obtain ⟨hmem, hign, c, hc, hint⟩ := hadded i hi
    have hid := Replica.id_of_mem_items hmem
    exact ⟨hid ▸ hign, r, hl r List.mem_cons_self, i, hmem, hid, c, hc, hint⟩

/-- Dependency minimisation is a transitive cover. Let `E` be a relation in
which every later write of a replica space that interferes with an earlier
instance of the space reaches it. Then the dependencies `seqAndDepsForCommand`
returns are instances the replica holds, other than the ignored one, whose
commands interfere with `cmd`; and every such instance with a well-formed
command is reached in `E` from one of them. -/
theorem seqAndDepsForCommand_transitive_cover {p : Replica} {cmd : Command}
    {ignored : InstanceID} {s : ℕ} {D : List InstanceID}
    (hwf : ∀ r ∈ p.nodes, CommandsWellFormed ignored (p.commands r).items)
    {E : InstanceID → InstanceID → Prop}
    (hE : ∀ r ∈ p.nodes, ∀ x ∈ (p.commands r).items, ∀ w ∈ (p.commands r).items, ∀ cx cw,
      x.is.command = some cx → w.is.command = some cw → x.num < w.num → cw.writing = true →
      cw.interferes cx = true → Relation.ReflTransGen E w.is.instanceID x.is.instanceID)
    (h : p.seqAndDepsForCommand cmd ignored = some (s, D)) :
    (∀ d ∈ D, d ≠ ignored ∧ ∃ r ∈ p.nodes, ∃ i ∈ (p.commands r).items, i.is.instanceID = d ∧
        ∃ c, i.is.command = some c ∧ c.interferes cmd = true) ∧
    ∀ r ∈ p.nodes, ∀ i ∈ (p.commands r).items, i.is.instanceID ≠ ignored → ∀ c,
      i.is.command = some c → c.interferes cmd = true →
      ∃ d ∈ D, Relation.ReflTransGen E d i.is.instanceID := by
  refine ⟨seqAndDepsForCommand_sound h, fun r hr i hi hign c hc hint => ?_⟩
  -- the command of `i` is well-formed, so the scan covers `i`
  obtain ⟨c', hc', hwf'⟩ := hwf r hr i hi hign
  rw [hc, Option.some.injEq] at hc'
  subst hc'
  rcases seqAndDepsForCommand_cover h hr hi hign hc hwf' hint with
    hdep | ⟨w, hw, cw, hcw, hwr, hwi, hlt, hdep⟩
  · exact ⟨_, hdep, .refl⟩
  · exact ⟨_, hdep, hE r hr i hi w hw c cw hc hcw hlt hwr hwi⟩

/-- `w` is a later instance of the space of `x`. -/
def LaterInSpace (w x : InstanceID) : Prop :=
  w.replicaID = x.replicaID ∧ x.instanceNum < w.instanceNum

/-- Every later instance of a space reaches the earlier ones in `LaterInSpace`. -/
theorem laterInSpace_of_items (p : Replica) :
    ∀ r ∈ p.nodes, ∀ x ∈ (p.commands r).items, ∀ w ∈ (p.commands r).items, ∀ cx cw,
      x.is.command = some cx → w.is.command = some cw → x.num < w.num → cw.writing = true →
      cw.interferes cx = true → Relation.ReflTransGen LaterInSpace w.is.instanceID x.is.instanceID := by
  intro r _ x hx w hw _ _ _ _ hlt _ _
  rw [Replica.id_of_mem_items hx, Replica.id_of_mem_items hw]
  exact .single ⟨rfl, hlt⟩

/-- A write of `[0, 10)`. -/
def spanWrite (id : ℕ) : Command := ⟨id, ⟨[0], [10]⟩, true⟩

/-- A write of `[2, 3)`. -/
def innerWrite : Command := ⟨9, ⟨[2], [3]⟩, true⟩

/-- Replica `0` holds two writes of `[0, 10)` in its own space: `(0, 1)` with
sequence number `3`, and `(0, 2)` with sequence number `2`. -/
def twoWrites : Replica :=
  ((Replica.empty 0 [0, 1, 2] (Storage.empty true)).setInstance
    (Instance.ofState ⟨⟨0, 1⟩, .accepted, some (spanWrite 1), 3, [⟨1, 2⟩]⟩)).setInstance
    (Instance.ofState ⟨⟨0, 2⟩, .preAccepted, some (spanWrite 2), 2, [⟨0, 1⟩]⟩)

/-- The scan for `[2, 3)` stops at `(0, 2)`, which encloses it, and `(0, 1)`
is reached from it. -/
theorem seqAndDepsForCommand_transitive_cover_twoWrites :
    (∀ r ∈ twoWrites.nodes, CommandsWellFormed ⟨0, 0⟩ (twoWrites.commands r).items) ∧
    twoWrites.seqAndDepsForCommand innerWrite ⟨0, 0⟩ = some (2, [⟨0, 2⟩]) ∧
    (∀ d ∈ [(⟨0, 2⟩ : InstanceID)], d ≠ ⟨0, 0⟩ ∧ ∃ r ∈ twoWrites.nodes,
      ∃ i ∈ (twoWrites.commands r).items, i.is.instanceID = d ∧
        ∃ c, i.is.command = some c ∧ c.interferes innerWrite = true) ∧
    ∀ r ∈ twoWrites.nodes, ∀ i ∈ (twoWrites.commands r).items, i.is.instanceID ≠ ⟨0, 0⟩ →
      ∀ c, i.is.command = some c → c.interferes innerWrite = true →
        ∃ d ∈ [(⟨0, 2⟩ : InstanceID)], Relation.ReflTransGen LaterInSpace d i.is.instanceID :=
  have hwf : ∀ r ∈ twoWrites.nodes, CommandsWellFormed ⟨0, 0⟩ (twoWrites.commands r).items := by
    decide
  have hseq : twoWrites.seqAndDepsForCommand innerWrite ⟨0, 0⟩ = some (2, [⟨0, 2⟩]) := by decide
  ⟨hwf, hseq, seqAndDepsForCommand_transitive_cover hwf (laterInSpace_of_items twoWrites) hseq⟩

namespace Network

/-- The dependency graph of the command leaders: the edges out of an instance
are the dependencies its command leader holds for it. -/
def leaderDeps (net : Network) (d : InstanceID) : List InstanceID :=
  depsIn (net.replicas d.replicaID).liveState d

/-- The command the command leader holds for an instance. -/
def leaderCommand (net : Network) (d : InstanceID) : Option Command :=
  ((net.replicas d.replicaID).liveState d).bind (·.command)

/-- The leaders of `g` and `d` hold interfering commands. -/
def Interfere (net : Network) (g d : InstanceID) : Prop :=
  ∃ cg cd, net.leaderCommand g = some cg ∧ net.leaderCommand d = some cd ∧ cg.interferes cd = true

/-- Some replica holds the instance `Committed` or `Executed`. -/
def DecidedSomewhere (net : Network) (d : InstanceID) : Prop :=
  ∃ r, DecidedIn (net.replicas r).liveState d

/-- Two distinct decided instances whose commands interfere are ordered by a
path of the leaders' dependencies. -/
def DepsOrdered (net : Network) : Prop :=
  ∀ g d, g ≠ d → net.Interfere g d → net.DecidedSomewhere g → net.DecidedSomewhere d →
    Reach net.leaderDeps g d ∨ Reach net.leaderDeps d g

end Network

end EPaxos
