import RegionLayout.Program.Opcode

/-!
# Instructions

Every instruction takes a multiple of 16 bytes and begins with a 32 bit word whose low byte is its
opcode. The payload starts at byte 8. Jumps count units of 16 bytes from the start of the
instruction.
-/

namespace RegionLayout

/-- Instructions begin at multiples of this, and jumps count in it. -/
def instructionUnit : Nat := 16

def splitPlaneSize : Nat := 16

def splitPlaneMaxDelta : Nat := 0xffff

def leafMaxDelta : Nat := 0xffffff

def payloadStart : Nat := 8

/-- The bytes a leaf takes in a program. Its base is not counted, so it only fits if the rounding
adds enough. -/
def leafSize (t : CoordType) (n : Nat) : Nat :=
  (payloadStart + 8 * n + 2 * n * t.bytes + (instructionUnit - 1)) / instructionUnit *
    instructionUnit

def Opcode.size (t : CoordType) (n : Nat) : Opcode → Nat
  | .splitPlane => splitPlaneSize
  | .affinePiece => leafSize t n

theorem Opcode.size_pos (t : CoordType) (n : Nat) (o : Opcode) : 0 < o.size t n := by
  cases o
  · exact Nat.zero_lt_succ 15
  · simp only [size, leafSize, payloadStart, instructionUnit]
    omega

/-- The bytes a leaf needs for its header, base, strides and corners. -/
def leafContentSize (t : CoordType) (n : Nat) : Nat :=
  payloadStart + 8 + 8 * n + Rect.encodedSize t n

/-- Points below `plane` along dimension `dim` go on with the next instruction, the others `delta`
units ahead. -/
structure SplitPlane (t : CoordType) where
  dim : UInt8
  plane : Coord t
  delta : UInt16
  deriving DecidableEq

namespace SplitPlane

variable {t : CoordType} {n : Nat}

/-- The point goes on with the next instruction. The dimension has to be one of its own. -/
def goesBelow (s : SplitPlane t) (p : Point t n) : Except Fault Bool :=
  (dimension n s.dim.toNat).map fun d => decide (p.get d < s.plane)

/-- Points of the rectangle take both ways. -/
def splitsRect (s : SplitPlane t) (r : Rect t n) : Except Fault Bool :=
  (dimension n s.dim.toNat).map fun d => decide (r.lo.get d < s.plane ∧ s.plane ≤ r.hi.get d)

/-- The jump is in the upper 16 bits of the word, and the dimension in the byte above the opcode. -/
def encode (s : SplitPlane t) : Bytes :=
  Bytes.padTo splitPlaneSize
    (Bytes.padTo payloadStart
      (Bytes.ofNat 4 (s.delta.toNat * 0x10000 + s.dim.toNat * 0x100 + Opcode.splitPlane.code)) ++
    s.plane.encode)

end SplitPlane

def headerWord (code : Bytes) : Nat := Bytes.toNat (code.take 4)

/-- The kind of the instruction at the front of `code`. -/
def opcodeAt? (code : Bytes) : Option Opcode := Opcode.ofCode? (headerWord code % 0x100)

/-- The split plane at the front of `code`, if one is there and its plane is not cut off. -/
def splitPlaneAt? (t : CoordType) (code : Bytes) : Option (SplitPlane t) :=
  if opcodeAt? code = some .splitPlane then
    (Bytes.slice? code payloadStart t.bytes).map fun plane =>
      { dim := UInt8.ofNat (headerWord code / 0x100)
        plane := Coord.decode t plane
        delta := UInt16.ofNat (headerWord code / 0x10000) }
  else none

/-- A leaf as it stands in a program, with its jump in the upper 24 bits of the word. Its corners
may run over the bytes it has been given, which is a fault. -/
def encodeLeaf {t : CoordType} {n : Nat} (leaf : Piece t n) (delta : Nat) : Except Fault Bytes :=
  if leafContentSize t n ≤ leafSize t n then
    .ok (Bytes.padTo (leafSize t n)
      (Bytes.padTo payloadStart (Bytes.ofNat 4 (delta * 0x100 + Opcode.affinePiece.code)) ++
        Bytes.ofWord leaf.rule.base ++ leaf.rule.strides.encode ++ leaf.bounds.encode))
  else .error .indexOutOfBounds

/-- The leaf in the `leafSize` bytes of its instruction. -/
def decodeLeaf (t : CoordType) (n : Nat) (code : Bytes) : Piece t n where
  bounds := Rect.decode t n (code.drop (payloadStart + 8 + 8 * n))
  rule :=
    { base := Bytes.toWord ((code.drop payloadStart).take 8)
      strides := Strides.decode n (code.drop (payloadStart + 8)) }

/-- The leaf at the front of `code` and its jump, if one is there and not cut off. -/
def leafAt? (t : CoordType) (n : Nat) (code : Bytes) :
    Except Fault (Option (Piece t n × Nat)) :=
  if opcodeAt? code = some .affinePiece ∧ Bytes.reaches (leafSize t n) code then
    if leafContentSize t n ≤ leafSize t n then
      .ok (some (decodeLeaf t n (code.take (leafSize t n)), headerWord code / 0x100))
    else .error .indexOutOfBounds
  else .ok none

end RegionLayout
