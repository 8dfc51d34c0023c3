import Mathlib.Data.List.Perm.Basic
import Mathlib.Order.Lattice

/-!
# Go's `sort.Slice`

`sort.Slice` promises a permutation that is sorted whenever `less` is a strict
weak order, and nothing about the relative order of elements that `less` does
not separate: that order is whatever its algorithm makes of the input. The
model is the algorithm of Go 1.8, the first release with `sort.Slice`:
`quickSort_func` over the slice and its swapper, an introsort. A range of more than twelve elements is partitioned
around a median-of-three pivot (`doPivot_func`), the shorter side sorted by
recursion and the longer one by the loop, until the depth budget `maxDepth`
runs out and heap sort takes over. A range of at most twelve elements gets one
Shell pass of gap six and an insertion sort.

The slice is an array. `Less` and `Swap` take indices, as in Go; every index
the algorithm passes is within the range. The algorithm only compares and
swaps, so the result is a permutation of the slice (`sortSlice_perm`).
-/
namespace GoSort

variable {α : Type*} (less : α → α → Bool)

/-- `data.Less(i, j)` of the swapper that `sort.Slice` builds. -/
def lessAt (data : Array α) (i j : ℕ) : Bool :=
  match data[i]?, data[j]? with
  | some x, some y => less x y
  | _, _ => false

/-! ### Insertion sort and the Shell pass -/

/-- The inner loop of `insertionSort_func`: while `j > a` and the element at `j`
is `less` than its left neighbour, swap the two and go on at `j - 1`. -/
def insertDown (a : ℕ) : Array α → ℕ → Array α
  | data, 0 => data
  | data, j + 1 =>
    if a < j + 1 && lessAt less data (j + 1) j then
      insertDown a (data.swapIfInBounds (j + 1) j) j
    else data

/-- `insertionSort_func` on `[a, b)`. -/
def insertionSort (data : Array α) (a b : ℕ) : Array α :=
  (List.range' (a + 1) (b - (a + 1))).foldl (insertDown less a) data

/-- One step of the Shell pass with gap six. -/
def shellStep (data : Array α) (i : ℕ) : Array α :=
  if lessAt less data i (i - 6) then data.swapIfInBounds i (i - 6) else data

/-- The end of `quickSort_func`, on a range of at most twelve elements: a Shell
pass with gap six, then insertion sort. -/
def shellInsertionSort (data : Array α) (a b : ℕ) : Array α :=
  if b - a > 1 then
    insertionSort less ((List.range' (a + 6) (b - (a + 6))).foldl (shellStep less) data) a b
  else data

/-! ### Heap sort -/

/-- `siftDown_func`: the heap `[0, hi)` is stored from `first`; move the element
at `root` down below its larger child while it is `less` than that child. -/
def siftDown (data : Array α) (hi first root : ℕ) : Array α :=
  let child := 2 * root + 1
  if child ≥ hi then data
  else
    let child :=
      if child + 1 < hi && lessAt less data (first + child) (first + child + 1) then child + 1
      else child
    if !lessAt less data (first + root) (first + child) then data
    else siftDown (data.swapIfInBounds (first + root) (first + child)) hi first child
termination_by hi - root
decreasing_by
  all_goals split <;> omega

/-- `heapSort_func` on `[a, b)`: build the heap, then move its top behind it one
element at a time. -/
def heapSort (data : Array α) (a b : ℕ) : Array α :=
  let first := a
  let lo := 0
  let hi := b - a
  let data := (List.range ((hi - 1) / 2 + 1)).reverse.foldl
    (fun data i => siftDown less data hi first i) data
  (List.range hi).reverse.foldl
    (fun data i => siftDown less (data.swapIfInBounds first (first + i)) i first lo) data

/-! ### The pivot -/

/-- `medianOfThree_func`: order the elements at `m0`, `m1` and `m2`, which moves
their median to `m1`. -/
def medianOfThree (data : Array α) (m1 m0 m2 : ℕ) : Array α :=
  let data := if lessAt less data m1 m0 then data.swapIfInBounds m1 m0 else data
  if lessAt less data m2 m1 then
    let data := data.swapIfInBounds m2 m1
    if lessAt less data m1 m0 then data.swapIfInBounds m1 m0 else data
  else data

/-- The loop `for ; i < j && p(i); i++ {}`. -/
def scanUp (p : ℕ → Bool) (j i : ℕ) : ℕ :=
  if i < j && p i then scanUp p j (i + 1) else i
termination_by j - i
decreasing_by
  simp only [Bool.and_eq_true, decide_eq_true_eq] at *
  omega

/-- The loop `for ; i < j && p(j-1); j-- {}`. -/
def scanDown (p : ℕ → Bool) (i j : ℕ) : ℕ :=
  if i < j && p (j - 1) then scanDown p i (j - 1) else j
termination_by j
decreasing_by
  simp only [Bool.and_eq_true, decide_eq_true_eq] at *
  omega

theorem le_scanUp (p : ℕ → Bool) (j i : ℕ) : i ≤ scanUp p j i := by
  fun_induction scanUp p j i with
  | case1 i _ ih => omega
  | case2 => exact Nat.le_refl _

theorem scanDown_le (p : ℕ → Bool) (i j : ℕ) : scanDown p i j ≤ j := by
  fun_induction scanDown p i j with
  | case1 j _ ih => omega
  | case2 => exact Nat.le_refl _

/-- The main loop of `doPivot_func`: `b` passes the elements not above the
pivot, `c` comes down past the elements above it, and an out-of-place pair is
swapped, until the two meet. The result is the array, `b` and `c`. -/
def partition (data : Array α) (pivot b c : ℕ) : Array α × ℕ × ℕ :=
  let b' := scanUp (fun k => !lessAt less data pivot k) c b
  let c' := scanDown (fun k => lessAt less data pivot k) b' c
  if b' ≥ c' then (data, b', c')
  else partition (data.swapIfInBounds b' (c' - 1)) pivot (b' + 1) (c' - 1)
termination_by c - b
decreasing_by
  have h₁ : b ≤ b' := le_scanUp _ c b
  have h₂ : c' ≤ c := scanDown_le _ b' c
  show c' - 1 - (b' + 1) < c - b
  omega

/-- The loop of `doPivot_func` against many duplicates: `b` comes down past the
elements equal to the pivot, `a` passes those below it, and an out-of-place pair
is swapped, until the two meet. The result is the array, `a` and `b`. -/
def protectLoop (data : Array α) (pivot a b : ℕ) : Array α × ℕ × ℕ :=
  let b' := scanDown (fun k => !lessAt less data k pivot) a b
  let a' := scanUp (fun k => lessAt less data k pivot) b' a
  if a' ≥ b' then (data, a', b')
  else protectLoop (data.swapIfInBounds a' (b' - 1)) pivot (a' + 1) (b' - 1)
termination_by b - a
decreasing_by
  have h₁ : b' ≤ b := scanDown_le _ a b
  have h₂ : a ≤ a' := le_scanUp _ b' a
  show b' - 1 - (a' + 1) < b - a
  omega

/-- The start of `doPivot_func` on `[lo, hi)`: Tukey's ninther on a long range,
then the median of the first, middle and last elements moved to `lo`, where it
is the pivot. -/
def choosePivot (data : Array α) (lo hi : ℕ) : Array α :=
  let m := lo + (hi - lo) / 2
  let data :=
    if hi - lo > 40 then
      let s := (hi - lo) / 8
      let data := medianOfThree less data lo (lo + s) (lo + 2 * s)
      let data := medianOfThree less data m (m - s) (m + s)
      medianOfThree less data (hi - 1) (hi - 1 - s) (hi - 1 - 2 * s)
    else data
  medianOfThree less data lo m (hi - 1)

/-- The test of `doPivot_func` for a skewed distribution, once the partition
has met at `b = c`: if few elements lie above the pivot, the elements at
`hi - 1`, `b - 1` and `m` are compared with it, and each one equal to it is
moved next to the pivot's range. The result is the array, `b`, `c`, and whether
to `protect` against many duplicates. -/
def testDups (data : Array α) (pivot m lo hi b c : ℕ) : Array α × ℕ × ℕ × Bool :=
  let protect := hi - c < 5
  if !protect && hi - c < (hi - lo) / 4 then
    let e₁ := !lessAt less data pivot (hi - 1)
    let data := if e₁ then data.swapIfInBounds c (hi - 1) else data
    let c := if e₁ then c + 1 else c
    let e₂ := !lessAt less data (b - 1) pivot
    let b := if e₂ then b - 1 else b
    let e₃ := !lessAt less data m pivot
    let data := if e₃ then data.swapIfInBounds m (b - 1) else data
    let b := if e₃ then b - 1 else b
    (data, b, c, e₁.toNat + e₂.toNat + e₃.toNat > 1)
  else (data, b, c, protect)

/-- `doPivot_func` on `[lo, hi)`: the array with the elements below the pivot
before `midlo`, those equal to it in `[midlo, midhi)`, and those above it after,
as `(data, midlo, midhi)`. -/
def doPivot (data : Array α) (lo hi : ℕ) : Array α × ℕ × ℕ :=
  let m := lo + (hi - lo) / 2
  let data := choosePivot less data lo hi
  let pivot := lo
  let a := scanUp (fun k => lessAt less data k pivot) (hi - 1) (lo + 1)
  let r := partition less data pivot a (hi - 1)
  let r := testDups less r.1 pivot m lo hi r.2.1 r.2.2
  let c := r.2.2.1
  let p := if r.2.2.2 then protectLoop less r.1 pivot a r.2.1 else (r.1, a, r.2.1)
  let b := p.2.2
  -- the pivot goes to the end of the range below it
  (p.1.swapIfInBounds pivot (b - 1), b - 1, c)

/-! ### `quickSort_func` and `sort.Slice` -/

/-- `quickSort_func` on `[a, b)` with the depth budget `maxDepth`. Each turn of
its loop sorts the shorter side by recursion and goes on with the longer one,
both with the budget one lower. -/
def quickSort (data : Array α) (a b maxDepth : ℕ) : Array α :=
  if b - a > 12 then
    match maxDepth with
    | 0 => heapSort less data a b
    | maxDepth + 1 =>
      let r := doPivot less data a b
      let mlo := r.2.1
      let mhi := r.2.2
      if mlo - a < b - mhi then quickSort (quickSort r.1 a mlo maxDepth) mhi b maxDepth
      else quickSort (quickSort r.1 mhi b maxDepth) a mlo maxDepth
  else shellInsertionSort less data a b

/-- The loop of `maxDepth`: `depth` goes up once for each halving of `i` above
zero. Like `Nat.log2`, it recurses on a `fuel` of at least `i`, which halving
never exhausts (`maxDepthLoop_fuel`). -/
def maxDepthLoop : ℕ → ℕ → ℕ → ℕ
  | 0, _, depth => depth
  | fuel + 1, i, depth => if i > 0 then maxDepthLoop fuel (i / 2) (depth + 1) else depth

/-- `maxDepth`: twice the number of bits of `n`. -/
def maxDepth (n : ℕ) : ℕ := maxDepthLoop n n 0 * 2

/-- `sort.Slice`. -/
def sortSlice (l : List α) : List α :=
  (quickSort less l.toArray 0 l.length (maxDepth l.length)).toList

/-- Any fuel of at least `i` gives the loop's result. -/
theorem maxDepthLoop_fuel : ∀ {fuel fuel' i : ℕ} (depth : ℕ), i ≤ fuel → i ≤ fuel' →
    maxDepthLoop fuel i depth = maxDepthLoop fuel' i depth
  | 0, 0, _, _, _, _ => rfl
  | 0, _ + 1, i, depth, hi, _ => by
    have hi0 : i = 0 := Nat.le_zero.mp hi
    simp [maxDepthLoop, hi0]
  | _ + 1, 0, i, depth, _, hi => by
    have hi0 : i = 0 := Nat.le_zero.mp hi
    simp [maxDepthLoop, hi0]
  | fuel + 1, fuel' + 1, i, depth, hi, hi' => by
    simp only [maxDepthLoop]
    split_ifs with hpos
    · exact maxDepthLoop_fuel (depth + 1) (by omega) (by omega)
    · rfl

/-! ### `sort.Slice` permutes -/

variable {less}

theorem swapIfInBounds_perm (data : Array α) (i j : ℕ) : (data.swapIfInBounds i j).Perm data := by
  unfold Array.swapIfInBounds
  split
  · split
    · exact Array.swap_perm _ _
    · exact .rfl
  · exact .rfl

/-- A conditional swap permutes. -/
theorem ite_swapIfInBounds_perm (c : Prop) [Decidable c] (data : Array α) (i j : ℕ) :
    (if c then data.swapIfInBounds i j else data).Perm data := by
  split
  · exact swapIfInBounds_perm data i j
  · exact .rfl

/-- A loop whose every turn permutes the array permutes it. -/
theorem foldl_perm {β : Type*} {f : Array α → β → Array α} (hf : ∀ data x, (f data x).Perm data) :
    ∀ (l : List β) (data : Array α), (l.foldl f data).Perm data
  | [], _ => .rfl
  | x :: l, data => (foldl_perm hf l (f data x)).trans (hf data x)

variable (less)

theorem insertDown_perm (a : ℕ) : ∀ (data : Array α) (j : ℕ), (insertDown less a data j).Perm data
  | _, 0 => .rfl
  | data, j + 1 => by
    rw [insertDown]
    split
    · exact (insertDown_perm a _ j).trans (swapIfInBounds_perm data _ _)
    · exact .rfl

theorem shellInsertionSort_perm (data : Array α) (a b : ℕ) :
    (shellInsertionSort less data a b).Perm data := by
  unfold shellInsertionSort insertionSort
  split
  · exact (foldl_perm (insertDown_perm less a) _ _).trans
      (foldl_perm (fun data i => ite_swapIfInBounds_perm (lessAt less data i (i - 6) = true)
        data i (i - 6)) _ _)
  · exact .rfl

theorem siftDown_perm (data : Array α) (hi first root : ℕ) :
    (siftDown less data hi first root).Perm data := by
  fun_induction siftDown less data hi first root with
  | case1 => exact .rfl
  | case2 => exact .rfl
  | case3 _ _ _ _ _ _ ih => exact ih.trans (swapIfInBounds_perm _ _ _)

theorem heapSort_perm (data : Array α) (a b : ℕ) : (heapSort less data a b).Perm data :=
  (foldl_perm (fun data _ => (siftDown_perm less _ _ _ _).trans (swapIfInBounds_perm data _ _))
    _ _).trans (foldl_perm (fun data i => siftDown_perm less data _ _ i) _ _)

theorem medianOfThree_perm (data : Array α) (m1 m0 m2 : ℕ) :
    (medianOfThree less data m1 m0 m2).Perm data := by
  unfold medianOfThree
  dsimp only
  -- after the first conditional swap, one more swap or two
  refine Array.Perm.trans ?_ (ite_swapIfInBounds_perm (lessAt less data m1 m0 = true) data m1 m0)
  generalize (if lessAt less data m1 m0 = true then data.swapIfInBounds m1 m0 else data) = d
  split
  · exact (ite_swapIfInBounds_perm (lessAt less (d.swapIfInBounds m2 m1) m1 m0 = true) _ _ _).trans
      (swapIfInBounds_perm d _ _)
  · exact .rfl

theorem choosePivot_perm (data : Array α) (lo hi : ℕ) :
    (choosePivot less data lo hi).Perm data := by
  unfold choosePivot
  dsimp only
  refine (medianOfThree_perm less _ _ _ _).trans ?_
  split
  · exact (medianOfThree_perm less _ _ _ _).trans ((medianOfThree_perm less _ _ _ _).trans
      (medianOfThree_perm less data _ _ _))
  · exact .rfl

theorem partition_perm (data : Array α) (pivot b c : ℕ) :
    (partition less data pivot b c).1.Perm data := by
  fun_induction partition less data pivot b c with
  | case1 => exact .rfl
  | case2 _ _ _ _ _ _ ih => exact ih.trans (swapIfInBounds_perm _ _ _)

theorem protectLoop_perm (data : Array α) (pivot a b : ℕ) :
    (protectLoop less data pivot a b).1.Perm data := by
  fun_induction protectLoop less data pivot a b with
  | case1 => exact .rfl
  | case2 _ _ _ _ _ _ ih => exact ih.trans (swapIfInBounds_perm _ _ _)

theorem testDups_perm (data : Array α) (pivot m lo hi b c : ℕ) :
    (testDups less data pivot m lo hi b c).1.Perm data := by
  unfold testDups
  dsimp only
  split
  · exact (ite_swapIfInBounds_perm _ _ _ _).trans (ite_swapIfInBounds_perm _ _ _ _)
  · exact .rfl

theorem doPivot_perm (data : Array α) (lo hi : ℕ) : (doPivot less data lo hi).1.Perm data := by
  unfold doPivot
  dsimp only
  -- the final swap, the loop against duplicates, the test, the partition, the pivot
  refine (swapIfInBounds_perm _ _ _).trans ?_
  split
  · exact (protectLoop_perm less _ _ _ _).trans ((testDups_perm less _ _ _ _ _ _ _).trans
      ((partition_perm less _ _ _ _).trans (choosePivot_perm less data lo hi)))
  · exact (testDups_perm less _ _ _ _ _ _ _).trans
      ((partition_perm less _ _ _ _).trans (choosePivot_perm less data lo hi))

theorem quickSort_perm : ∀ (data : Array α) (a b maxDepth : ℕ),
    (quickSort less data a b maxDepth).Perm data
  | data, a, b, 0 => by
    unfold quickSort
    split
    · exact heapSort_perm less data a b
    · exact shellInsertionSort_perm less data a b
  | data, a, b, maxDepth + 1 => by
    unfold quickSort
    split
    · -- both sides of the pivot are sorted by recursion, after `doPivot`
      have hp := doPivot_perm less data a b
      dsimp only
      split
      · exact (quickSort_perm _ _ _ maxDepth).trans ((quickSort_perm _ _ _ maxDepth).trans hp)
      · exact (quickSort_perm _ _ _ maxDepth).trans ((quickSort_perm _ _ _ maxDepth).trans hp)
    · exact shellInsertionSort_perm less data a b

theorem sortSlice_perm (l : List α) : (sortSlice less l).Perm l := by
  have h := Array.perm_iff_toList_perm.mp (quickSort_perm less l.toArray 0 l.length
    (maxDepth l.length))
  rw [List.toList_toArray] at h
  exact h

@[simp] theorem mem_sortSlice {l : List α} {x : α} : x ∈ sortSlice less l ↔ x ∈ l :=
  (sortSlice_perm less l).mem_iff

end GoSort
