import RegionLayout.Rect.Basic

namespace RegionLayout

/-- How a piece maps points to offsets. Each kind has its own instruction in a lookup program. -/
inductive PieceKind where
  | affine
  deriving DecidableEq, Repr

namespace PieceKind

/-- The number that names the kind in serialized layouts. Zero names none. -/
def tag : PieceKind → UInt8
  | .affine => 1

def ofTag? (tag : UInt8) : Option PieceKind := if tag = 1 then some .affine else none

@[simp] theorem ofTag?_tag (k : PieceKind) : ofTag? k.tag = some k := by cases k; rfl

end PieceKind

/-- `base` plus a stride per unit of each coordinate, modulo `2 ^ 64`. -/
structure AffineRule (n : Nat) where
  base : UInt64
  strides : Strides n
  deriving DecidableEq

def AffineRule.offset {t : CoordType} {n : Nat} (rule : AffineRule n) (p : Point t n) : UInt64 :=
  rule.base + p.dot rule.strides

/-- The same rule, `delta` bytes further on. -/
def AffineRule.relocate {n : Nat} (rule : AffineRule n) (delta : UInt64) : AffineRule n :=
  { rule with base := rule.base + delta }

structure Piece (t : CoordType) (n : Nat) where
  bounds : Rect t n
  rule : AffineRule n
  deriving DecidableEq

namespace Piece

variable {t : CoordType} {n : Nat}

def kind (_ : Piece t n) : PieceKind := .affine

/-- The offset of a point, which has to be one of the piece. -/
def offset (q : Piece t n) (p : Point t n) : Except Fault UInt64 :=
  if p ∈ q.bounds then .ok (q.rule.offset p) else .error (.outsidePiece p.text q.bounds.text)

def relocate (q : Piece t n) (delta : UInt64) : Piece t n :=
  { q with rule := q.rule.relocate delta }

/-- The same rule on another rectangle. -/
def clip (q : Piece t n) (bounds : Rect t n) : Piece t n := { q with bounds }

/-- A piece is written `[<0>..<3>]:affine(offset=8, strides=<4>)`. -/
def text (q : Piece t n) : String :=
  q.bounds.text ++ ":affine(offset=" ++ toString q.rule.base ++ ", strides=" ++
    q.rule.strides.text ++ ")"

end Piece

abbrev PieceList (t : CoordType) (n : Nat) := List (Piece t n)

namespace PieceList

variable {t : CoordType} {n : Nat}

/-- The piece that decides the point, the first one that holds it. -/
def find? (pieces : PieceList t n) (p : Point t n) : Option (Piece t n) :=
  List.find? (fun q => decide (p ∈ q.bounds)) pieces

def findIndex? (pieces : PieceList t n) (p : Point t n) : Option Nat :=
  List.findIdx? (fun q => decide (p ∈ q.bounds)) pieces

def bounds (pieces : PieceList t n) : Rect t n := Rect.hullOf (List.map Piece.bounds pieces)

def relocate (pieces : PieceList t n) (delta : UInt64) : PieceList t n :=
  List.map (Piece.relocate · delta) pieces

def text (pieces : PieceList t n) : String := "[" ++ joined ", " (List.map Piece.text pieces) ++ "]"

end PieceList

end RegionLayout
