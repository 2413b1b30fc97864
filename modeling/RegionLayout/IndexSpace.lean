import RegionLayout.Rect.Basic

namespace RegionLayout

inductive IndexSpace (t : CoordType) (n : Nat) where
  | dense (bounds : Rect t n)
  | sparse (rects : List (Rect t n)) (inhabited : ∀ r ∈ rects, ¬ r.IsEmpty)
      (disjoint : PairwiseDisjoint rects)
  deriving DecidableEq

namespace IndexSpace

variable {t : CoordType} {n : Nat}

/-- The union of disjoint rectangles. Those without points are dropped. -/
def ofDisjoint (rects : List (Rect t n)) (h : PairwiseDisjoint rects) : IndexSpace t n :=
  .sparse (rects.filter fun r => ¬ r.IsEmpty)
    (fun r hr => by simpa using (List.mem_filter.mp hr).2) (List.Pairwise.filter _ h)

/-- The union of the given rectangles, which must not overlap. -/
def ofRects (rects : List (Rect t n)) : Except Fault (IndexSpace t n) :=
  if h : PairwiseDisjoint rects then .ok (ofDisjoint rects h) else .error .sparseOverlap

def isDense : IndexSpace t n → Bool
  | .dense _ => true
  | .sparse .. => false

/-- The rectangles making up the space, in the order they were given. -/
def rects : IndexSpace t n → List (Rect t n)
  | .dense bounds => [bounds]
  | .sparse rects _ _ => rects

/-- The smallest rectangle around the space; a dense space keeps the one it was given. -/
def bounds : IndexSpace t n → Rect t n
  | .dense bounds => bounds
  | .sparse rects _ _ => Rect.hullOf rects

instance : Membership (Point t n) (IndexSpace t n) where
  mem space p := ∃ r ∈ space.rects, p ∈ r

instance (p : Point t n) (space : IndexSpace t n) : Decidable (p ∈ space) :=
  inferInstanceAs (Decidable (∃ r ∈ space.rects, p ∈ r))

def IsEmpty (space : IndexSpace t n) : Prop := ∀ r ∈ space.rects, r.IsEmpty

instance (space : IndexSpace t n) : Decidable space.IsEmpty :=
  inferInstanceAs (Decidable (∀ r ∈ space.rects, r.IsEmpty))

/-- The number of points, as long as it fits 128 bits. -/
def volume? (space : IndexSpace t n) : Option Nat := Rect.totalVolume? space.rects

end IndexSpace

end RegionLayout
