import AnchorScript.Text.Integer

/-!
# Quicksort that watches for patterns

A range of elements is split at a pivot and both parts are sorted in turn. Short ranges are sorted
by insertion. A range that looks sorted is first tried by insertion, one that looks reversed is
turned round, and after a lopsided split a few elements are scattered; too many lopsided splits
lead to a heap sort. Equal elements may change places, in a way that depends on the elements alone.

Every change to the elements exchanges two of them. Ranges go from a first place up to, and without,
a last one.
-/

namespace AnchorScript.Quicksort

variable {α : Type} (less : α → α → Bool)

def before (xs : Array α) (i j : Nat) : Bool :=
  match xs[i]?, xs[j]? with
  | some x, some y => less x y
  | _, _ => false

/-- The element at a place moved down past the greater ones, and at most to `bottom`. -/
def sink (bottom : Nat) : (place : Nat) → Array α → Array α
  | 0, xs => xs
  | i + 1, xs =>
    if bottom ≤ i && before less xs (i + 1) i then sink bottom i (xs.swapIfInBounds (i + 1) i)
    else xs

/-- The element below place `i` moved up past the smaller ones, over at most `n` places. -/
def raise : (n i : Nat) → Array α → Array α
  | 0, _, xs => xs
  | n + 1, i, xs =>
    if before less xs i (i - 1) then raise n (i + 1) (xs.swapIfInBounds i (i - 1)) else xs

def insertionSort (first last : Nat) (xs : Array α) : Array α :=
  (List.range' (first + 1) (last - (first + 1))).foldl (fun xs i => sink less first i xs) xs

/-- The first of the `n` places from `i` up that fails a test, or the place above them. -/
def ascend (test : Nat → Bool) : (n i : Nat) → Nat
  | 0, i => i
  | n + 1, i => if test i then ascend test n (i + 1) else i

/-- The first of the `n` places from `i` down that fails a test, or the place below them. -/
def descend (test : Nat → Bool) : (n i : Nat) → Nat
  | 0, i => i
  | n + 1, i => if test i then descend test n (i - 1) else i

/-- Below this length a range is not worth the moves that mend it. -/
def shortRange : Nat := 50

/-- Mends a few neighbours that are out of order; true when the range is sorted in the end. -/
def mend (first last : Nat) : (tries i : Nat) → Array α → Array α × Bool
  | 0, _, xs => (xs, false)
  | tries + 1, i, xs =>
    let i := ascend (fun i => !before less xs i (i - 1)) (last - i) i
    if i = last then (xs, true)
    else if last - first < shortRange then (xs, false)
    else
      let xs := xs.swapIfInBounds i (i - 1)
      let xs := if 2 ≤ i - first then sink less 0 (i - 1) xs else xs
      let xs := if 2 ≤ last - i then raise less (last - (i + 1)) (i + 1) xs else xs
      mend first last tries i xs

/-- The heap of `size` elements from `first` on, mended below `root`. -/
def siftDown (first size : Nat) : (steps root : Nat) → Array α → Array α
  | 0, _, xs => xs
  | steps + 1, root, xs =>
    let left := 2 * root + 1
    if size ≤ left then xs
    else
      let child :=
        if left + 1 < size && before less xs (first + left) (first + left + 1) then left + 1
        else left
      if before less xs (first + root) (first + child) then
        siftDown first size steps child (xs.swapIfInBounds (first + root) (first + child))
      else xs

def heapSort (first last : Nat) (xs : Array α) : Array α :=
  let size := last - first
  let heap := (List.range ((size - 1) / 2 + 1)).reverse.foldl
    (fun xs root => siftDown less first size size root xs) xs
  (List.range size).reverse.foldl
    (fun xs i => siftDown less first i size 0 (xs.swapIfInBounds first (first + i))) heap

/-- Two places in the order of their elements, and one if that changed them. -/
def inOrder (xs : Array α) (i j : Nat) : Nat × Nat × Nat :=
  if before less xs j i then (j, i, 1) else (i, j, 0)

/-- The place of the middle one of three elements, and how many exchanges found it. -/
def median (xs : Array α) (i j k : Nat) : Nat × Nat :=
  let (i, j, m) := inOrder less xs i j
  let (j, _, n) := inOrder less xs j k
  let (_, j, o) := inOrder less xs i j
  (j, m + n + o)

def medianAround (xs : Array α) (i : Nat) : Nat × Nat := median less xs (i - 1) i (i + 1)

inductive Trend where
  | rising
  | falling
  | mixed
  deriving DecidableEq

def Trend.ofExchanges (n : Nat) : Trend :=
  if n = 0 then .rising else if n = 12 then .falling else .mixed

/-- The pivot is the middle one of three elements, and each of these is in a long range the middle
one of three neighbours. -/
def choosePivot (xs : Array α) (first last : Nat) : Nat × Trend :=
  let quarter := (last - first) / 4
  let i := first + quarter
  let j := first + quarter * 2
  let k := first + quarter * 3
  if last - first < shortRange then
    let (pivot, n) := median less xs i j k
    (pivot, .ofExchanges n)
  else
    let (i, m) := medianAround less xs i
    let (j, n) := medianAround less xs j
    let (k, o) := medianAround less xs k
    let (pivot, p) := median less xs i j k
    (pivot, .ofExchanges (m + n + o + p))

def reverseRange (first last : Nat) (xs : Array α) : Array α :=
  (List.range ((last - first) / 2)).foldl
    (fun xs i => xs.swapIfInBounds (first + i) (last - 1 - i)) xs

def nextRandom (r : UInt64) : UInt64 :=
  let r := r ^^^ (r <<< 13)
  let r := r ^^^ (r >>> 7)
  r ^^^ (r <<< 17)

/-- Exchanges three elements in the middle with others of the range; its length alone decides with
which. -/
def scatter (first last : Nat) (xs : Array α) : Array α :=
  let length := last - first
  let middle := first + length / 4 * 2 - 2
  let step (state : Array α × UInt64) (i : Nat) : Array α × UInt64 :=
    let r := nextRandom state.2
    let other := r.toNat % Nat.pow 2 (bitLength length)
    let other := if length ≤ other then other - length else other
    (state.1.swapIfInBounds (middle + i) (first + other), r)
  ((List.range 3).foldl step (xs, length.toUInt64)).1

/-- Exchanges the lowest element that is not low with the highest that is not high until they have
crossed, from both ends of the places `i` to `j`. The result has the places where the two searches
ended, and whether nothing was exchanged. -/
def separate (isLow isHigh : Array α → Nat → Bool) :
    (steps i j : Nat) → (untouched : Bool) → Array α → Array α × Nat × Nat × Bool
  | 0, i, j, untouched, xs => (xs, i, j, untouched)
  | steps + 1, i, j, untouched, xs =>
    let i := ascend (isLow xs) (j + 1 - i) i
    let j := descend (isHigh xs) (j + 1 - i) j
    if j < i then (xs, i, j, untouched)
    else separate isLow isHigh steps (i + 1) (j - 1) false (xs.swapIfInBounds i j)

/-- Smaller elements below the pivot and the others above it. The result has the new place of the
pivot, and whether the elements were so already. -/
def partition (first last pivot : Nat) (xs : Array α) : Array α × Nat × Bool :=
  let (xs, _, j, untouched) := separate (fun xs i => before less xs i first)
    (fun xs j => !before less xs j first) (last - first) (first + 1) (last - 1) true
    (xs.swapIfInBounds first pivot)
  (xs.swapIfInBounds j first, j, untouched)

/-- Elements equal to the pivot below the greater ones, in a range without smaller ones. The result
has the place of the first greater one. -/
def partitionEqual (first last pivot : Nat) (xs : Array α) : Array α × Nat :=
  let (xs, i, _, _) := separate (fun xs i => !before less xs first i)
    (fun xs j => before less xs first j) (last - first) (first + 1) (last - 1) true
    (xs.swapIfInBounds first pivot)
  (xs, i)

def insertionLength : Nat := 12

/-- A sorted range. Every split leaves out its pivot, so the length of the range bounds the steps.
`limit` lopsided splits are allowed; `balanced` and `partitioned` tell of the last split. -/
def sortRange : (steps first last limit : Nat) → (balanced partitioned : Bool) → Array α → Array α
  | 0, _, _, _, _, _, xs => xs
  | steps + 1, first, last, limit, balanced, partitioned, xs =>
    let length := last - first
    if length ≤ insertionLength then insertionSort less first last xs
    else if limit = 0 then heapSort less first last xs
    else
      let (xs, limit) := if balanced then (xs, limit) else (scatter first last xs, limit - 1)
      let (pivot, trend) := choosePivot less xs first last
      let (xs, pivot, trend) :=
        if trend = .falling then
          (reverseRange first last xs, last - 1 - (pivot - first), Trend.rising)
        else (xs, pivot, trend)
      let (xs, isSorted) :=
        if balanced && partitioned && trend = .rising then mend less first last 5 (first + 1) xs
        else (xs, false)
      if isSorted then xs
      else if 0 < first && !before less xs (first - 1) pivot then
        let (xs, middle) := partitionEqual less first last pivot xs
        sortRange steps middle last limit balanced partitioned xs
      else
        let (xs, middle, partitioned) := partition less first last pivot xs
        if middle - first < last - middle then
          sortRange steps (middle + 1) last limit (length / 8 ≤ middle - first) partitioned
            (sortRange steps first middle limit true true xs)
        else
          sortRange steps first middle limit (length / 8 ≤ last - middle) partitioned
            (sortRange steps (middle + 1) last limit true true xs)

def sort (xs : List α) : List α :=
  let n := xs.length
  (sortRange less (n + 1) 0 n (bitLength n) true true xs.toArray).toList

end AnchorScript.Quicksort
