import RegionLayout.Point

/-!
# Rectangles

A rectangle is an axis-aligned box with inclusive corners. The empty set has many representations,
which every operation treats alike.
-/

namespace RegionLayout

/-- Counts of points are kept in 128 bits. This is the first number that does not fit, `2 ^ 128`. -/
def volumeLimit : Nat := 0x100000000000000000000000000000000

/-- A count, as long as it fits 128 bits. -/
def checkedCount (count : Nat) : Option Nat := if count < volumeLimit then some count else none

structure Rect (t : CoordType) (n : Nat) where
  lo : Point t n
  hi : Point t n
  deriving DecidableEq

namespace Rect

variable {t : CoordType} {n : Nat}

instance : Membership (Point t n) (Rect t n) where
  mem r p := ∀ d : Fin n, r.lo.get d ≤ p.get d ∧ p.get d ≤ r.hi.get d

instance (p : Point t n) (r : Rect t n) : Decidable (p ∈ r) :=
  inferInstanceAs (Decidable (∀ d : Fin n, r.lo.get d ≤ p.get d ∧ p.get d ≤ r.hi.get d))

theorem mem_def {p : Point t n} {r : Rect t n} :
    p ∈ r ↔ ∀ d : Fin n, r.lo.get d ≤ p.get d ∧ p.get d ≤ r.hi.get d := Iff.rfl

/-- Some dimension has no coordinate between the corners. -/
def IsEmpty (r : Rect t n) : Prop := ∃ d : Fin n, r.hi.get d < r.lo.get d

instance (r : Rect t n) : Decidable r.IsEmpty :=
  inferInstanceAs (Decidable (∃ d : Fin n, r.hi.get d < r.lo.get d))

/-- The representation of the empty set that the library itself produces: 1 to 0 in each
dimension. -/
def empty (t : CoordType) (n : Nat) : Rect t n where
  lo := Point.splat n (Coord.wrap t 1)
  hi := Point.splat n (Coord.wrap t 0)

/-- An empty rectangle is inside any other; a non-empty one is inside if both of its corners
are. -/
instance : HasSubset (Rect t n) where
  Subset a b := a.IsEmpty ∨ ∀ d : Fin n, b.lo.get d ≤ a.lo.get d ∧ a.hi.get d ≤ b.hi.get d

instance (a b : Rect t n) : Decidable (a ⊆ b) :=
  inferInstanceAs
    (Decidable (a.IsEmpty ∨ ∀ d : Fin n, b.lo.get d ≤ a.lo.get d ∧ a.hi.get d ≤ b.hi.get d))

instance : Inter (Rect t n) where
  inter a b := ⟨Point.join a.lo b.lo, Point.meet a.hi b.hi⟩

/-- The rectangles have a point in common. -/
def Overlaps (a b : Rect t n) : Prop := ¬ (a ∩ b).IsEmpty

instance (a b : Rect t n) : Decidable (a.Overlaps b) :=
  inferInstanceAs (Decidable (¬ (a ∩ b).IsEmpty))

/-- The smallest rectangle around both. An empty one adds nothing. -/
def hull (a b : Rect t n) : Rect t n :=
  if a.IsEmpty then b
  else if b.IsEmpty then a
  else ⟨Point.meet a.lo b.lo, Point.join a.hi b.hi⟩

def hullOf (rects : List (Rect t n)) : Rect t n := rects.foldl hull (empty t n)

/-- How many coordinates lie between the corners along `d`. -/
def extent (r : Rect t n) (d : Fin n) : Nat := ((r.hi.get d).val - (r.lo.get d).val + 1).toNat

def count (r : Rect t n) : Nat := (List.ofFn r.extent).foldl (· * ·) 1

/-- The number of points, multiplied up one dimension after the other as long as it fits 128
bits. -/
def volume? (r : Rect t n) : Option Nat :=
  if r.IsEmpty then some 0
  else (List.ofFn r.extent).foldlM (fun acc extent => checkedCount (acc * extent)) 1

/-- The numbers of points added up, as long as the sum fits 128 bits. A point of several of the
rectangles counts for each. -/
def totalVolume? (rects : List (Rect t n)) : Option Nat :=
  rects.foldlM (fun acc r => do checkedCount (acc + (← r.volume?))) 0

/-- The part of the rectangle strictly below `plane` along `d`, and the part from it on. A part
without points is the canonical empty rectangle. -/
def split (r : Rect t n) (d : Fin n) (plane : Coord t) : Rect t n × Rect t n :=
  (if plane ≤ r.lo.get d then empty t n
    else { r with hi := replaceAt r.hi d (min (r.hi.get d) (Coord.wrap t (plane.val - 1))) },
   if r.hi.get d < plane then empty t n
    else { r with lo := replaceAt r.lo d (max (r.lo.get d) plane) })

/-- A rectangle is written `[<0,0>..<3,4>]`. -/
def text (r : Rect t n) : String := "[" ++ r.lo.text ++ ".." ++ r.hi.text ++ "]"

def encode (r : Rect t n) : Bytes := r.lo.encode ++ r.hi.encode

def encodedSize (t : CoordType) (n : Nat) : Nat := 2 * n * t.bytes

def decode (t : CoordType) (n : Nat) (bs : Bytes) : Rect t n where
  lo := Point.decode t n bs
  hi := Point.decode t n (bs.drop (n * t.bytes))

theorem isEmpty_empty (d : Fin n) : (empty t n).IsEmpty := by
  refine ⟨d, ?_⟩
  cases t <;> simp [empty] <;> decide

end Rect

def PairwiseDisjoint {t : CoordType} {n : Nat} (rects : List (Rect t n)) : Prop :=
  rects.Pairwise fun a b => ¬ a.Overlaps b

instance {t : CoordType} {n : Nat} (rects : List (Rect t n)) :
    Decidable (PairwiseDisjoint rects) :=
  inferInstanceAs (Decidable (rects.Pairwise fun a b => ¬ a.Overlaps b))

/-- The positions of the first two rectangles that share a point, in lexicographic order. -/
def firstOverlap? {t : CoordType} {n : Nat} : List (Rect t n) → Option (Nat × Nat)
  | [] => none
  | a :: rest =>
      match rest.findIdx? fun b => decide (a.Overlaps b) with
      | some i => some (0, i + 1)
      | none => (firstOverlap? rest).map fun pair => (pair.1 + 1, pair.2 + 1)

theorem firstOverlap?_eq_none_iff {t : CoordType} {n : Nat} (rects : List (Rect t n)) :
    firstOverlap? rects = none ↔ PairwiseDisjoint rects := by
  induction rects with
  | nil => simp [firstOverlap?, PairwiseDisjoint]
  | cons a rest ih =>
    rw [firstOverlap?, PairwiseDisjoint, List.pairwise_cons, ← PairwiseDisjoint, ← ih]
    cases h : rest.findIdx? fun b => decide (a.Overlaps b) with
    | some i =>
      refine iff_of_false (by simp) fun hall => ?_
      rw [List.findIdx?_eq_none_iff.mpr fun b hb => decide_eq_false (hall.1 b hb)] at h
      contradiction
    | none =>
      have := List.findIdx?_eq_none_iff.mp h
      simp_all

end RegionLayout
