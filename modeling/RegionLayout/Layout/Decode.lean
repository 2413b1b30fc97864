import RegionLayout.Layout.Encode

namespace RegionLayout

inductive ReadError where
  | endOfInput
  | magicBytesMismatch
  | unsupportedVersion (version : Nat)
  | dimensionMismatch (expected found : Nat)
  | coordinateMismatch (expectedTag expectedBytes foundTag foundBytes : Nat)
  | invalidLayoutType (tag : Nat)
  | invalidFieldList (field : FieldId) (list lists : Nat)
  | overlappingSparseRects (first second : Nat)
  deriving DecidableEq, Repr

def ReadError.message : ReadError → String
  | .endOfInput => "io error failed to fill whole buffer"
  | .magicBytesMismatch => "invalid magic bytes"
  | .unsupportedVersion version => "unsupported version " ++ toString version
  | .dimensionMismatch expected found =>
      "layout has " ++ toString found ++ " dimensions, expected " ++ toString expected
  | .coordinateMismatch expectedTag expectedBytes foundTag foundBytes =>
      "layout uses coordinate type " ++ toString foundTag ++ " (" ++ toString foundBytes ++
        " bytes), expected " ++ toString expectedTag ++ " (" ++ toString expectedBytes ++ " bytes)"
  | .invalidLayoutType tag => "invalid piece layout type " ++ toString tag
  | .invalidFieldList field list lists =>
      "field " ++ toString field ++ " refers to piece list " ++ toString list ++ ", but only " ++
        toString lists ++ " exist"
  | .overlappingSparseRects first second =>
      "sparse index space rectangles " ++ toString first ++ " and " ++ toString second ++
        " overlap"

/-- Takes bytes from the front of the input, and may refuse them. -/
abbrev Reader (α : Type) := Bytes → Except ReadError (α × Bytes)

namespace Reader

variable {α β : Type}

instance : Monad Reader where
  pure a := fun bs => .ok (a, bs)
  bind r f := fun bs =>
    match r bs with
    | .error e => .error e
    | .ok (a, rest) => f a rest

def fail (e : ReadError) : Reader α := fun _ => .error e

def take (count : Nat) : Reader Bytes := fun bs =>
  match Bytes.splitOff? count bs with
  | none => .error .endOfInput
  | some parts => .ok parts

def nat (width : Nat) : Reader Nat := do return Bytes.toNat (← take width)

def word : Reader UInt64 := do return Bytes.toWord (← take 8)

def many (item : Reader α) : Nat → Reader (List α)
  | 0 => pure []
  | count + 1 => do
      let a ← item
      let rest ← many item count
      return a :: rest

def counted (item : Reader α) : Reader (List α) := do many item (← word).toNat

end Reader

def readRect (t : CoordType) (n : Nat) : Reader (Rect t n) := do
  return Rect.decode t n (← Reader.take (Rect.encodedSize t n))

def readPiece (t : CoordType) (n : Nat) : Reader (Piece t n) := do
  let tag ← Reader.nat 1
  match PieceKind.ofTag? (UInt8.ofNat tag) with
  | none => Reader.fail (.invalidLayoutType tag)
  | some .affine => do
      let bounds ← readRect t n
      let base ← Reader.word
      let strides ← Reader.take (8 * n)
      return ⟨bounds, ⟨base, Strides.decode n strides⟩⟩

/-- A space, dense unless its first byte is zero. The rectangles of a sparse one must not
overlap. -/
def readSpace (t : CoordType) (n : Nat) : Reader (IndexSpace t n) := do
  let dense ← Reader.nat 1
  if dense ≠ 0 then return .dense (← readRect t n)
  else
    let rects ← Reader.counted (readRect t n)
    match h : firstOverlap? rects with
    | some (first, second) => Reader.fail (.overlappingSparseRects first second)
    | none => return IndexSpace.ofDisjoint rects ((firstOverlap?_eq_none_iff rects).mp h)

/-- A field, whose list has to be one of the given number. -/
def readField (lists : Nat) : Reader (FieldId × FieldSlot) := do
  let id := UInt32.ofNat (← Reader.nat 4)
  let list ← Reader.word
  if lists ≤ list.toNat then Reader.fail (.invalidFieldList id list.toNat lists)
  else
    let offset ← Reader.word
    let size ← Reader.word
    return (id, { list, offset, size })

/-- Checks that what follows is a layout of `n` dimensions and coordinates of type `t`. -/
def readHeader (t : CoordType) (n : Nat) : Reader Unit := do
  let magic ← Reader.take 4
  if magic ≠ magicBytes then Reader.fail .magicBytesMismatch
  else
    let version ← Reader.nat 4
    if version ≠ formatVersion then Reader.fail (.unsupportedVersion version)
    else
      let dims ← Reader.nat 4
      if dims ≠ n then Reader.fail (.dimensionMismatch n dims)
      else
        let tag ← Reader.nat 1
        let bytes ← Reader.nat 1
        if tag ≠ t.tag.toNat ∨ bytes ≠ t.bytes then
          Reader.fail (.coordinateMismatch t.tag.toNat t.bytes tag bytes)
        else return ()

/-- Reads a layout of `n` dimensions and coordinates of type `t` from the front of the input. Of
several fields with one number the last counts. -/
def Layout.read (t : CoordType) (n : Nat) : Reader (Layout t n) := do
  readHeader t n
  let bytesUsed ← Reader.word
  let alignment ← Reader.word
  let space ← readSpace t n
  let lists ← Reader.counted (Reader.counted (readPiece t n))
  let fields ← Reader.counted (readField lists.length)
  return { space, lists, fields := FieldMap.ofList fields, bytesUsed, alignment }

end RegionLayout
