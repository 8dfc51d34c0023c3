import EPaxos.Pb

/-!
# The vendored `interval.RangeGroup`

`seqAndDepsForCommand` builds its group with `NewRangeTree`. Both implementations
of the interface keep the group as its sorted list of disjoint ranges, merging
every range that touches an added one, and they answer `Add`, `Overlaps`,
`Encloses` and `Len` alike on it. Here is the linked-list implementation,
`rangeList`, whose code walks that list directly; `EPaxos.RangeTree` models the
tree one over any tree that keeps the contract of `interval.Tree`, and shows
that it answers as this one does. Each method panics on an empty or inverted
range; a panic is `none`.
-/
namespace EPaxos

structure Range where
  start : Key
  endKey : Key
  deriving DecidableEq, Repr

namespace Range

/-- `rangeError`: the range is inverted or empty. -/
def rangeError (r : Range) : Bool := !decide (r.start < r.endKey)

def overlapInclusive (r o : Range) : Bool :=
  decide (o.start ≤ r.endKey) && decide (r.start ≤ o.endKey)

def overlapExclusive (r o : Range) : Bool :=
  decide (o.start < r.endKey) && decide (r.start < o.endKey)

/-- `contains out in`. -/
def contains (out r : Range) : Bool :=
  decide (out.start ≤ r.start) && decide (r.endKey ≤ out.endKey)

/-- `merge`: the union of two ranges that overlap. -/
def merge (l r : Range) : Range :=
  { start := if r.start < l.start then r.start else l.start
    endKey := if l.endKey < r.endKey then r.endKey else l.endKey }

end Range

structure RangeGroup where
  ranges : List Range
  deriving DecidableEq, Repr

namespace RangeGroup

def empty : RangeGroup := ⟨[]⟩

/-- The inner loop of `Add` that swallows the following ranges the merged range
now touches. -/
def mergeFollowing (newR : Range) : List Range → Range × List Range
  | [] => (newR, [])
  | pr :: ps =>
    if newR.overlapInclusive pr then mergeFollowing (newR.merge pr) ps
    else (newR, pr :: ps)

/-- The walk of `Add` over the list. -/
def addAux (r : Range) : List Range → Bool × List Range
  | [] => (true, [r])
  | er :: rest =>
    if er.overlapInclusive r then
      if er.contains r then (false, er :: rest)
      else
        let m := mergeFollowing (er.merge r) rest
        (true, m.1 :: m.2)
    else if r.endKey < er.start then (true, r :: er :: rest)
    else
      let a := addAux r rest
      (a.1, er :: a.2)

/-- `Add`: whether the range grew the group. -/
def add (g : RangeGroup) (r : Range) : Option (Bool × RangeGroup) :=
  if r.rangeError then none
  else
    let a := addAux r g.ranges
    some (a.1, ⟨a.2⟩)

def overlapsAux (r : Range) : List Range → Bool
  | [] => false
  | er :: rest =>
    if er.overlapExclusive r then true
    else if r.endKey ≤ er.start then false
    else overlapsAux r rest

/-- `Overlaps`: whether the range meets the group. -/
def overlaps (g : RangeGroup) (r : Range) : Option Bool :=
  if r.rangeError then none else some (overlapsAux r g.ranges)

def enclosesAux (r : Range) : List Range → Bool
  | [] => false
  | er :: rest =>
    if er.contains r then true
    else if r.endKey ≤ er.start then false
    else enclosesAux r rest

/-- `Encloses`: whether one range of the group contains the range. -/
def encloses (g : RangeGroup) (r : Range) : Option Bool :=
  if r.rangeError then none else some (enclosesAux r g.ranges)

/-- `Len`. -/
def len (g : RangeGroup) : ℕ := g.ranges.length

end RangeGroup

end EPaxos
