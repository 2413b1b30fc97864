import RegionLayout.Layout.Basic

/-!
# Serialized layouts

A layout is written as a header, its space, its piece lists and its fields. Every list is preceded
by its length.
-/

namespace RegionLayout

def magicBytes : Bytes := [0x53, 0x4c, 0x41, 0x59]

def formatVersion : Nat := 1

/-- The number of items, then the items. -/
def encodeCounted {α : Type} (item : α → Bytes) (items : List α) : Bytes :=
  Bytes.ofWord (UInt64.ofNat items.length) ++ items.flatMap item

def Piece.encode {t : CoordType} {n : Nat} (q : Piece t n) : Bytes :=
  [q.kind.tag] ++ q.bounds.encode ++ Bytes.ofWord q.rule.base ++ q.rule.strides.encode

def IndexSpace.encode {t : CoordType} {n : Nat} : IndexSpace t n → Bytes
  | .dense bounds => [1] ++ bounds.encode
  | .sparse rects _ _ => [0] ++ encodeCounted Rect.encode rects

def encodeField (field : FieldId × FieldSlot) : Bytes :=
  Bytes.ofNat 4 field.1.toNat ++ Bytes.ofWord field.2.list ++ Bytes.ofWord field.2.offset ++
    Bytes.ofWord field.2.size

/-- Why a layout could not be written: the destination is full. -/
inductive WriteError where
  | full
  deriving DecidableEq, Repr

def WriteError.message : WriteError → String
  | .full => "io error failed to write whole buffer"

namespace Layout

variable {t : CoordType} {n : Nat}

def encodeHeader (layout : Layout t n) : Bytes :=
  magicBytes ++ Bytes.ofNat 4 formatVersion ++ Bytes.ofNat 4 n ++
    [t.tag, UInt8.ofNat t.bytes] ++ Bytes.ofWord layout.bytesUsed ++ Bytes.ofWord layout.alignment

def encode (layout : Layout t n) : Bytes :=
  layout.encodeHeader ++ layout.space.encode ++
    encodeCounted (encodeCounted Piece.encode) layout.lists ++
    encodeCounted encodeField layout.fields.entries

/-- The serialized layout at the start of a zeroed buffer of `room` bytes. -/
def encodeInto (layout : Layout t n) (room : Nat) : Except WriteError Bytes :=
  if layout.encode.length ≤ room then .ok (Bytes.padTo room layout.encode) else .error .full

end Layout

end RegionLayout
