import RegionLayout.Access.Binding
import RegionLayout.Program.Compile

/-!
# Multi-affine accessors

A multi-affine accessor handles any number of pieces of local memory. It keeps the leaf of the
last access and evaluates the lookup program for points outside of it.
-/

namespace RegionLayout

structure MultiAffineAccessor (t : CoordType) (n : Nat) where
  program : Bytes
  start : Nat
  pieces : PieceList t n
  field : FieldId
  element : Nat
  offset : UInt64
  size : Nat
  bounds : Rect t n
  cached? : Option (Piece t n)
  deriving DecidableEq

namespace MultiAffineAccessor

variable {t : CoordType} {n : Nat}

def supported : OpcodeSet := OpcodeSet.ofList [.splitPlane, .affinePiece]

/-- The leaf at the start of a program, if it is the only one and covers the bounds. -/
def soleLeaf? (program : Bytes) (start : Nat) (bounds : Rect t n) :
    Except Fault (Option (Piece t n)) :=
  match Cursor.at? program start with
  | none => .ok none
  | some cursor => (cursor.leaf? t n).map fun
      | some (leaf, delta) => if delta = 0 ∧ bounds ⊆ leaf.bounds then some leaf else none
      | none => none

/-- Opens an accessor for the requested bytes, which compiles the layout. A program of one leaf
that covers everything fills the cache at once. -/
def bind (inst : Instance t n) (request : FieldRequest) (within? : Option (Rect t n)) :
    Except (Failure AccessorError) (MultiAffineAccessor t n) :=
  if ¬ inst.isLocal then .error (.error .notLocal)
  else do
    let b ← (inst.layout.bind request within?).mapError .error
    let program ← inst.layout.defaultProgram.mapError (.mapError .compile)
    match program.fields.get? request.field with
    | none => .error (.error (.unknownField request.field))
    | some entry =>
        if ¬ entry.Supports supported then
          .error (.error (.unsupportedInstructions request.field entry.opcodes))
        else
          match entry.start? with
          | none => .error (.error (.notCovered request.field))
          | some start => do
              let leaf? ← (soleLeaf? program.bytes start b.bounds).mapError .fault
              return {
                program := program.bytes
                start := start
                pieces := b.pieces
                field := request.field
                element := request.element
                offset := b.fieldOffset request
                size := inst.size
                bounds := b.bounds
                cached? := leaf? }

def cacheHit? (a : MultiAffineAccessor t n) (p : Point t n) : Option (Piece t n) :=
  a.cached?.filter fun leaf => decide (p ∈ leaf.bounds)

def lookup (a : MultiAffineAccessor t n) (p : Point t n) : Except Fault (Piece t n) :=
  match Cursor.at? a.program a.start with
  | none => .error (.uncovered p.text a.field)
  | some cursor =>
      match cursor.lookup p with
      | .error f => .error f
      | .ok none => .error (.uncovered p.text a.field)
      | .ok (some leaf) => .ok leaf

/-- The leaf that decides the point: the cached one if it holds it, or else the one the program
finds. -/
def locate (a : MultiAffineAccessor t n) (p : Point t n) : Except Fault (Piece t n) := do
  checkBounds a.bounds p
  match a.cacheHit? p with
  | some leaf => .ok leaf
  | none => a.lookup p

def offsetIn (a : MultiAffineAccessor t n) (leaf : Piece t n) (p : Point t n) :
    Except Fault UInt64 :=
  checkElement (leaf.rule.offset p + a.offset) a.element a.size

/-- The byte offset of the element at a point; the cache stays as it is. -/
def addressShared (a : MultiAffineAccessor t n) (p : Point t n) : Except Fault UInt64 := do
  a.offsetIn (← a.locate p) p

/-- The byte offset of the element at a point. The leaf that decides it is cached, also if the
element then turns out to be outside the instance. -/
def address (a : MultiAffineAccessor t n) (p : Point t n) :
    Except Fault UInt64 × MultiAffineAccessor t n :=
  match a.locate p with
  | .error f => (.error f, a)
  | .ok leaf => (a.offsetIn leaf p, { a with cached? := some leaf })

def readShared (a : MultiAffineAccessor t n) (storage : Storage) (p : Point t n) :
    Except Fault Bytes × Storage :=
  match a.addressShared p with
  | .error f => (.error f, storage)
  | .ok offset => storage.read offset a.element

def writeShared (a : MultiAffineAccessor t n) (storage : Storage) (p : Point t n)
    (value : Bytes) : Except Fault Unit × Storage :=
  match a.addressShared p with
  | .error f => (.error f, storage)
  | .ok offset => storage.write offset value

/-- All of the rectangle lies in one piece: in the leaf, or in the piece of the list that holds
its lower corner. A leaf can be smaller than the piece it was clipped from. -/
def WithinOne (a : MultiAffineAccessor t n) (leaf : Piece t n) (r : Rect t n) : Prop :=
  r ⊆ leaf.bounds ∨ ∃ q ∈ a.pieces.find? r.lo, r ⊆ q.bounds

instance (a : MultiAffineAccessor t n) (leaf : Piece t n) (r : Rect t n) :
    Decidable (a.WithinOne leaf r) :=
  inferInstanceAs (Decidable (r ⊆ leaf.bounds ∨ ∃ q ∈ a.pieces.find? r.lo, r ⊆ q.bounds))

/-- The byte offset of the lower corner of a rectangle and the strides to walk it, if all of it
lies in one piece. -/
def addressRect (a : MultiAffineAccessor t n) (r : Rect t n) :
    Except Fault (Option (UInt64 × Strides n)) × MultiAffineAccessor t n :=
  if r.IsEmpty then (.ok none, a)
  else
    match a.address r.lo with
    | (.error f, a') => (.error f, a')
    | (.ok offset, a') =>
        match a'.cached? with
        | none => (.ok none, a')
        | some leaf =>
            (.ok (if a'.WithinOne leaf r then some (offset, leaf.rule.strides) else none), a')

def text (a : MultiAffineAccessor t n) : String :=
  "MultiAffineAccessor \x7b field: " ++ toString a.field ++ ", start_inst: " ++
    toString a.start ++ ", bounds: " ++ a.bounds.text ++ ", piece_valid: " ++
    (if a.cached?.isSome then "true" else "false") ++ ", piece_bounds: " ++
    (match a.cached? with
      | some leaf => leaf.bounds.text
      | none => (Rect.empty t n).text) ++ ", .. \x7d"

end MultiAffineAccessor

end RegionLayout
