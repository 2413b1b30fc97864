import RegionLayout.Access.Binding

namespace RegionLayout

structure GenericAccessor (t : CoordType) (n : Nat) where
  field : FieldId
  element : Nat
  pieces : PieceList t n
  offset : UInt64
  bounds : Rect t n
  cached? : Option Nat
  deriving DecidableEq

namespace GenericAccessor

variable {t : CoordType} {n : Nat}

def bind (layout : Layout t n) (request : FieldRequest) (within? : Option (Rect t n)) :
    Except AccessorError (GenericAccessor t n) :=
  (layout.bind request within?).map fun b =>
    { field := request.field
      element := request.element
      pieces := b.pieces
      offset := b.fieldOffset request
      bounds := b.bounds
      cached? := none }

def cacheHit? (a : GenericAccessor t n) (p : Point t n) : Option Nat :=
  a.cached?.filter fun i => (a.pieces[i]?).any fun q => decide (p ∈ q.bounds)

/-- The position of the piece that decides the point: the cached one, or else the first. -/
def locate (a : GenericAccessor t n) (p : Point t n) : Except Fault Nat := do
  checkBounds a.bounds p
  match (a.cacheHit? p).or (a.pieces.findIndex? p) with
  | some i => .ok i
  | none => .error (.uncovered p.text a.field)

def offsetIn (a : GenericAccessor t n) (p : Point t n) (i : Nat) : Except Fault UInt64 :=
  match a.pieces[i]? with
  | some q => (q.offset p).map (· + a.offset)
  | none => .error .indexOutOfBounds

/-- The byte offset of the element at a point. The piece found becomes the cached one. -/
def address (a : GenericAccessor t n) (p : Point t n) :
    Except Fault UInt64 × GenericAccessor t n :=
  match a.locate p with
  | .error f => (.error f, a)
  | .ok i => (a.offsetIn p i, { a with cached? := some i })

def text (a : GenericAccessor t n) : String :=
  "GenericAccessor \x7b field: " ++ toString a.field ++ ", rel_offset: " ++ toString a.offset ++
    ", bounds: " ++ a.bounds.text ++ ", prev_piece: " ++
    (match a.cached? with
      | none => "None"
      | some i => "Some(" ++ toString i ++ ")") ++ " \x7d"

end GenericAccessor

end RegionLayout
