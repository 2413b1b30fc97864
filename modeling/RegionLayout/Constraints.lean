import RegionLayout.Fault
import RegionLayout.Text

namespace RegionLayout

inductive PlacementError where
  | unsupportedBlocking (factor : UInt64)
  | invalidDimensionOrder (order : List UInt64)
  | invalidAlignment (field : FieldId) (alignment : UInt64)
  | misalignedOffset (field : FieldId) (offset alignment : UInt64)
  | duplicateField (field : FieldId)
  | coveringOutside (rect bounds : String)
  | sizeOverflow
  deriving DecidableEq, Repr

def PlacementError.message : PlacementError → String
  | .unsupportedBlocking factor =>
      "blocking factor " ++ toString factor ++
        " is not supported (0 is struct of arrays, 1 is array of structs)"
  | .invalidDimensionOrder order =>
      "dimension order [" ++ joined ", " (order.map toString) ++
        "] is not a permutation of the instance dimensions"
  | .invalidAlignment field alignment =>
      "field " ++ toString field ++ " has alignment " ++ toString alignment ++
        ", which is not a power of two"
  | .misalignedOffset field offset alignment =>
      "field " ++ toString field ++ " has fixed offset " ++ toString offset ++
        ", which is not a multiple of its alignment " ++ toString alignment
  | .duplicateField field =>
      "field " ++ toString field ++ " appears more than once in the layout constraints"
  | .coveringOutside rect bounds =>
      "covering rectangle " ++ rect ++ " is not inside the index space bounds " ++ bounds
  | .sizeOverflow => "instance size overflows the address space"

/-- The largest alignment a field gets from its size alone. -/
def maxNaturalAlignment : Nat := 16

/-- The largest power of two that divides the size, up to `maxNaturalAlignment`; a field without
bytes can start anywhere. -/
def naturalAlignment (size : UInt64) : UInt64 :=
  if size = 0 then 1 else UInt64.ofNat (Nat.gcd size.toNat maxNaturalAlignment)

/-- What is asked of one field. A fixed offset is its place within the element of its group;
without one the field follows those before it. -/
structure FieldSpec where
  id : FieldId
  fixedOffset : Option UInt64
  size : UInt64
  alignment : UInt64
  deriving DecidableEq, Repr

def FieldSpec.natural (id : FieldId) (size : UInt64) : FieldSpec where
  id := id
  fixedOffset := none
  size := size
  alignment := naturalAlignment size

/-- Fields that share one piece list, interleaved element by element. -/
abbrev FieldGroup := List FieldSpec

structure Constraints where
  groups : List FieldGroup
  deriving DecidableEq, Repr

namespace Constraints

/-- Natural fields grouped by a blocking factor: 0 gives each its own group, 1 puts all of them
into one. -/
def ofFieldSizes (sizes : List (FieldId × UInt64)) (factor : UInt64) :
    Except PlacementError Constraints :=
  let fields := sizes.map fun s => FieldSpec.natural s.1 s.2
  if factor = 0 then .ok ⟨fields.map fun f => [f]⟩
  else if factor = 1 then .ok ⟨[fields]⟩
  else .error (.unsupportedBlocking factor)

def fieldCount (c : Constraints) : Nat := (c.groups.map List.length).foldr (· + ·) 0

end Constraints

end RegionLayout
