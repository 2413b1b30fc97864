/-!
# Faults

A fault is the answer of an operation that was asked for something its contract excludes. It ends
the operation and leaves behind what was done before it.
-/

namespace RegionLayout

abbrev FieldId := UInt32

/-- Why an operation was stopped. Points and rectangles are kept as text, since a fault is only
ever reported. -/
inductive Fault where
  | arithmeticOverflow
  | indexOutOfBounds
  | sparseOverlap
  | outsidePiece (point bounds : String)
  | outsideAccessor (point bounds : String)
  | uncovered (point : String) (field : FieldId)
  | elementOutside (offset size : Nat)
  | rangeOutside (length offset size : Nat)
  | remoteRange (offset length : Nat)
  | incompatible (tier : String) (field : FieldId) (reason : String)
  deriving DecidableEq, Repr

/-- The text of a fault. The two arithmetic ones carry none. -/
def Fault.message : Fault → Option String
  | .arithmeticOverflow => none
  | .indexOutOfBounds => none
  | .sparseOverlap => some "sparse index space rectangles must be disjoint"
  | .outsidePiece point bounds => some (point ++ " is outside piece " ++ bounds)
  | .outsideAccessor point bounds =>
      some (point ++ " is outside the accessor bounds " ++ bounds)
  | .uncovered point field =>
      some (point ++ " is not covered by any piece of field " ++ toString field)
  | .elementOutside offset size =>
      some ("element at offset " ++ toString offset ++ " is outside the " ++ toString size ++
        " byte instance")
  | .rangeOutside length offset size =>
      some (toString length ++ " bytes at offset " ++ toString offset ++
        " are outside the " ++ toString size ++ " byte instance")
  | .remoteRange offset length =>
      some ("remote range " ++ toString offset ++ "+" ++ toString length)
  | .incompatible tier field reason =>
      some (tier ++ " accessor for field " ++ toString field ++
        " is incompatible with the instance: " ++ reason)

/-- How an operation with errors of its own can end without a result: by one of those errors, or
by a fault. -/
inductive Failure (ε : Type) where
  | error (e : ε)
  | fault (f : Fault)
  deriving DecidableEq, Repr

/-- The same failure, its error seen as part of a larger kind. -/
def Failure.mapError {ε δ : Type} (f : ε → δ) : Failure ε → Failure δ
  | .error e => .error (f e)
  | .fault g => .fault g

end RegionLayout
