import RegionLayout.IndexSpace
import RegionLayout.Piece
import RegionLayout.FieldMap

/-!
# Layouts

A layout maps fields and points to byte offsets within an instance. The piece of the field that
holds the point gives the offset of the element, and the field adds its own place within it.
-/

namespace RegionLayout

/-- Where a field lives: which piece list, and which bytes of each element of that list. -/
structure FieldSlot where
  list : UInt64
  offset : UInt64
  size : UInt64
  deriving DecidableEq, Repr

structure Layout (t : CoordType) (n : Nat) where
  space : IndexSpace t n
  lists : List (PieceList t n)
  fields : FieldMap FieldSlot
  bytesUsed : UInt64
  alignment : UInt64
  deriving DecidableEq

namespace Layout

variable {t : CoordType} {n : Nat}

def list? (layout : Layout t n) (index : UInt64) : Option (PieceList t n) :=
  layout.lists[index.toNat]?

/-- The piece list with the given number, which has to exist. -/
def listAt (layout : Layout t n) (index : UInt64) : Except Fault (PieceList t n) :=
  match layout.list? index with
  | some pieces => .ok pieces
  | none => .error .indexOutOfBounds

/-- The slot of a field together with the piece list it names. -/
def field? (layout : Layout t n) (id : FieldId) : Option (FieldSlot × PieceList t n) := do
  let slot ← layout.fields.get? id
  let pieces ← layout.list? slot.list
  return (slot, pieces)

/-- The byte offset of a field at a point, if the field is known and a piece holds the point. -/
def offset? (layout : Layout t n) (id : FieldId) (p : Point t n) : Option UInt64 := do
  let (slot, pieces) ← layout.field? id
  let piece ← pieces.find? p
  return piece.rule.offset p + slot.offset

/-- The same layout, every piece `delta` bytes further on. The size of the instance stays. -/
def relocate (layout : Layout t n) (delta : UInt64) : Layout t n :=
  { layout with lists := layout.lists.map (PieceList.relocate · delta) }

private def slotText (entry : FieldId × FieldSlot) : String :=
  toString entry.1 ++ "=list" ++ toString entry.2.list ++ "+" ++ toString entry.2.offset ++ ":" ++
    toString entry.2.size

/-- A layout is written with its size, its space, its fields in ascending order and its piece
lists. -/
def text (layout : Layout t n) : String :=
  "Layout(bytes=" ++ toString layout.bytesUsed ++ ", align=" ++ toString layout.alignment ++
    ", space=" ++ layout.space.bounds.text ++
    (if layout.space.isDense then ""
      else " sparse(" ++ toString layout.space.rects.length ++ " rects)") ++
    ", fields=\x7b" ++ joined ", " (layout.fields.entries.map slotText) ++
    "\x7d, lists=[" ++ joined ", " (layout.lists.map PieceList.text) ++ "])"

end Layout

end RegionLayout
