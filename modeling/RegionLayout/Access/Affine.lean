import RegionLayout.Access.Binding
import RegionLayout.Transform

/-!
# Affine accessors

An affine accessor needs everything it touches in one piece of local memory, so its address is a
single affine rule. A view folds a transform into it.
-/

namespace RegionLayout

structure AffineAccessor (t : CoordType) (n : Nat) where
  element : Nat
  rule : AffineRule n
  size : Nat
  bounds? : Option (Rect t n)
  deriving DecidableEq

/-- The rule for the requested bytes within the one piece that covers the bounds. -/
structure LocatedRule (t : CoordType) (n : Nat) where
  rule : AffineRule n
  bounds : Rect t n

namespace Binding

variable {t : CoordType} {n : Nat}

/-- The piece that covers the part of the space within `within?`, or all of it. For the whole
space there has to be one piece only. -/
def soloPiece (b : Binding t n) (space : IndexSpace t n) (field : FieldId)
    (within? : Option (Rect t n)) : Except AccessorError (Piece t n) :=
  match within? with
  | some r =>
      match List.find? (fun q => decide (r ⊆ q.bounds)) b.pieces with
      | some q => .ok q
      | none => .error (.notCovered field)
  | none =>
      match b.pieces with
      | [q] => if ∀ r ∈ space.rects, r ⊆ q.bounds then .ok q else .error (.notCovered field)
      | [] => .error (.notCovered field)
      | pieces => .error (.multiplePieces field pieces.length)

end Binding

namespace Instance

variable {t : CoordType} {n : Nat}

/-- Finds the rule for a request on local memory. -/
def locate (inst : Instance t n) (request : FieldRequest) (within? : Option (Rect t n)) :
    Except AccessorError (LocatedRule t n) :=
  if ¬ inst.isLocal then .error .notLocal
  else do
    let b ← inst.layout.bind request within?
    let q ← b.soloPiece inst.layout.space request.field within?
    return ⟨q.rule.relocate (b.fieldOffset request), b.bounds⟩

end Instance

namespace AffineAccessor

variable {t s : CoordType} {n m : Nat}

def bind (inst : Instance t n) (request : FieldRequest) (within? : Option (Rect t n)) :
    Except AccessorError (AffineAccessor t n) :=
  (inst.locate request within?).map fun located =>
    ⟨request.element, located.rule, inst.size, some located.bounds⟩

/-- The rule that takes a point of the view to the offset of its image: each stride is the strides
of the instance along a column of the transform. -/
def viewRule (rule : AffineRule m) (f : Transform t m n) (offset : Point t m) : AffineRule n where
  base := rule.base + offset.dot rule.strides
  strides := Vector.ofFn fun j =>
    (List.ofFn fun i : Fin m => rule.strides.get i * ((f.rows.get i).get j).toWord).foldr
      (· + ·) 0

/-- Opens a view. Its bounds are those it is asked for, in its own coordinates; without them it
has none. -/
def bindView (inst : Instance t m) (request : FieldRequest) (f : Transform t m n)
    (offset : Point t m) (within? : Option (Rect s n)) :
    Except AccessorError (AffineAccessor s n) := do
  let image? ← match within? with
    | none => .ok none
    | some r =>
        match f.imageBounds r offset with
        | some image => .ok (some image)
        | none => .error .outsideInstance
  let located ← inst.locate request image?
  return ⟨request.element, viewRule located.rule f offset, inst.size, within?⟩

def address (a : AffineAccessor t n) (p : Point t n) : Except Fault UInt64 := do
  match a.bounds? with
  | some bounds => checkBounds bounds p
  | none => .ok ()
  checkElement (a.rule.offset p) a.element a.size

/-- The strides grow along `order` as they do for packed elements, of which the first takes
`expected` bytes. Dimensions with a single coordinate do not count. -/
def denseAlong (a : AffineAccessor t n) (r : Rect t n) : Nat → List (Fin n) → Bool
  | _, [] => true
  | expected, d :: rest =>
      if r.extent d ≤ 1 then a.denseAlong r expected rest
      else (a.rule.strides.get d).toNat = expected && a.denseAlong r (expected * r.extent d) rest

def denseColumnMajor (a : AffineAccessor t n) (r : Rect t n) : Bool :=
  a.denseAlong r a.element (List.finRange n)

def denseRowMajor (a : AffineAccessor t n) (r : Rect t n) : Bool :=
  a.denseAlong r a.element (List.finRange n).reverse

/-- Whether `d` comes before `e` by stride, or by number among equal strides. -/
def StrideLE (a : AffineAccessor t n) (d e : Fin n) : Prop :=
  a.rule.strides.get d < a.rule.strides.get e ∨
    a.rule.strides.get d = a.rule.strides.get e ∧ d ≤ e

instance (a : AffineAccessor t n) (d e : Fin n) : Decidable (a.StrideLE d e) :=
  inferInstanceAs (Decidable (_ ∨ _))

/-- The dimensions by stride, the lower one first among equals. -/
def byStride (a : AffineAccessor t n) : List (Fin n) :=
  (List.finRange n).mergeSort fun d e => a.StrideLE d e

def denseArbitrary (a : AffineAccessor t n) (r : Rect t n) : Bool :=
  a.denseAlong r a.element a.byStride

def text (a : AffineAccessor t n) : String :=
  "AffineAccessor \x7b offset: " ++ toString a.rule.base ++ ", strides: [" ++
    joined ", " (a.rule.strides.toList.map toString) ++ "], bounds: " ++
    (match a.bounds? with
      | none => "None"
      | some bounds => "Some(" ++ bounds.text ++ ")") ++ ", .. \x7d"

end AffineAccessor

end RegionLayout
