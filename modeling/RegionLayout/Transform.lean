import RegionLayout.Rect.Basic

/-!
# Integer transforms

A transform takes points of one space to points of another by a matrix. Products and sums are
formed in 128 bit signed arithmetic, and a result that leaves it, or the target coordinates, is no
result.
-/

namespace RegionLayout

/-- The vector of all values, if every position has one. -/
def gather {α : Type} {n : Nat} (f : Fin n → Option α) : Option (Vector α n) :=
  if h : ∀ i, (f i).isSome then some (Vector.ofFn fun i => (f i).get (h i)) else none

/-- The first integer that does not fit 128 signed bits, `2 ^ 127`. -/
def signedLimit128 : Int := 0x80000000000000000000000000000000

def fit128 (x : Int) : Option Int :=
  if -signedLimit128 ≤ x ∧ x < signedLimit128 then some x else none

structure Transform (t : CoordType) (m n : Nat) where
  rows : Vector (Point t n) m
  deriving DecidableEq

namespace Transform

variable {t s : CoordType} {m n : Nat}

/-- Ones on the diagonal. When the dimensions differ, the extra ones are dropped or zero. -/
def identity (t : CoordType) (m n : Nat) : Transform t m n where
  rows := Vector.ofFn fun i => Vector.ofFn fun j => Coord.wrap t (if i.val = j.val then 1 else 0)

/-- `start` plus the products of a row with a point, in order of dimension. -/
def accumulate (row : Point t n) (p : Point s n) (start : Int) : Option Int :=
  (List.finRange n).foldlM (fun acc j => do
    let product ← fit128 ((row.get j).val * (p.get j).val)
    fit128 (acc + product)) start

def apply (f : Transform t m n) (p : Point s n) (offset : Point t m) : Option (Point t m) :=
  gather fun i => accumulate (f.rows.get i) p (offset.get i).val >>= Coord.narrow t

/-- The least and the greatest value that `start` plus the products of the row can take over the
points of `r`. -/
def range (row : Point t n) (r : Rect s n) (start : Int) : Option (Int × Int) :=
  (List.finRange n).foldlM (fun acc j => do
    let a ← fit128 ((row.get j).val * (r.lo.get j).val)
    let b ← fit128 ((row.get j).val * (r.hi.get j).val)
    let least ← fit128 (acc.1 + min a b)
    let greatest ← fit128 (acc.2 + max a b)
    return (least, greatest)) (start, start)

/-- The smallest rectangle around the images of all points of `r`. -/
def imageBounds (f : Transform t m n) (r : Rect s n) (offset : Point t m) :
    Option (Rect t m) :=
  if r.IsEmpty then some (Rect.empty t m)
  else do
    let corners ← gather fun i => do
      let (least, greatest) ← range (f.rows.get i) r (offset.get i).val
      return (← Coord.narrow t least, ← Coord.narrow t greatest)
    return ⟨corners.map Prod.fst, corners.map Prod.snd⟩

end Transform

end RegionLayout
