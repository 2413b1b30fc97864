import RegionLayout.Instance
import RegionLayout.Program.CompileError

namespace RegionLayout

inductive AccessorError where
  | unknownField (field : FieldId)
  | missingPieceList (field : FieldId)
  | notLocal
  | multiplePieces (field : FieldId) (pieces : Nat)
  | notCovered (field : FieldId)
  | outsideInstance
  | elementSize (field : FieldId) (subfield : UInt64) (element : Nat) (size : UInt64)
  | unsupportedInstructions (field : FieldId) (used : OpcodeSet)
  | compile (e : CompileError)
  deriving DecidableEq, Repr

def AccessorError.message : AccessorError → String
  | .unknownField field => "field " ++ toString field ++ " is not part of the instance layout"
  | .missingPieceList field =>
      "field " ++ toString field ++ " refers to a piece list that does not exist"
  | .notLocal => "instance memory is not directly addressable"
  | .multiplePieces field pieces =>
      "field " ++ toString field ++ " is split over " ++ toString pieces ++ " pieces"
  | .notCovered field =>
      "no single piece of field " ++ toString field ++ " covers the requested bounds"
  | .outsideInstance => "requested bounds are outside the instance bounds"
  | .elementSize field subfield element size =>
      toString element ++ " byte element at subfield offset " ++ toString subfield ++
        " does not fit field " ++ toString field ++ " of " ++ toString size ++ " bytes"
  | .unsupportedInstructions field used =>
      "the lookup program for field " ++ toString field ++ " uses unsupported instructions " ++
        used.text
  | .compile e => "lookup program compilation failed: " ++ e.message

/-- The bytes of a field an accessor is opened for: `element` bytes from `subfield` on. -/
structure FieldRequest where
  field : FieldId
  element : Nat
  subfield : UInt64
  deriving DecidableEq, Repr

/-- What a request comes down to in a layout: the slot of the field, its piece list, and the
bounds the accessor may touch. -/
structure Binding (t : CoordType) (n : Nat) where
  slot : FieldSlot
  pieces : PieceList t n
  bounds : Rect t n

/-- Checks a request, over the whole space or the part within `within?`. -/
def Layout.bind {t : CoordType} {n : Nat} (layout : Layout t n) (request : FieldRequest)
    (within? : Option (Rect t n)) : Except AccessorError (Binding t n) :=
  match layout.fields.get? request.field with
  | none => .error (.unknownField request.field)
  | some slot =>
      match layout.list? slot.list with
      | none => .error (.missingPieceList request.field)
      | some pieces =>
          if slot.size.toNat < request.subfield.toNat + request.element then
            .error (.elementSize request.field request.subfield request.element slot.size)
          else
            match within? with
            | none => .ok ⟨slot, pieces, layout.space.bounds⟩
            | some r =>
                if r ⊆ layout.space.bounds then .ok ⟨slot, pieces, r⟩
                else .error .outsideInstance

/-- What is added to the offset of a piece for the requested bytes of the field. -/
def Binding.fieldOffset {t : CoordType} {n : Nat} (b : Binding t n) (request : FieldRequest) :
    UInt64 :=
  b.slot.offset + request.subfield

/-- The offset of an element, which has to lie within the `size` bytes of the instance. -/
def checkElement (offset : UInt64) (element size : Nat) : Except Fault UInt64 :=
  if offset.toNat + element ≤ size then .ok offset
  else .error (.elementOutside offset.toNat size)

/-- An accessor stops at points outside the bounds it was opened for. -/
def checkBounds {t : CoordType} {n : Nat} (bounds : Rect t n) (p : Point t n) :
    Except Fault Unit :=
  if p ∈ bounds then .ok () else .error (.outsideAccessor p.text bounds.text)

end RegionLayout
