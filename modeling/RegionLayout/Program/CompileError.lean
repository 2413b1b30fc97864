import RegionLayout.Program.Memory
import RegionLayout.Program.Opcode

namespace RegionLayout

inductive CompileError where
  | overlap (list first second : Nat)
  | outsideBounds (list piece : Nat)
  | coverageMismatch (list covered expected : Nat)
  | volumeOverflow (list : Nat)
  | unsupportedPieceKind (list piece : Nat) (opcode : Opcode)
  | jumpTooFar (opcode : Opcode) (delta max : Nat)
  | missingPieceList (field : FieldId) (list : Nat)
  | tooManyDimensions (count : Nat)
  | allocation (e : AllocError)
  deriving DecidableEq, Repr

def CompileError.message : CompileError → String
  | .overlap list first second =>
      "pieces " ++ toString first ++ " and " ++ toString second ++ " of piece list " ++
        toString list ++ " overlap"
  | .outsideBounds list piece =>
      "piece " ++ toString piece ++ " of piece list " ++ toString list ++
        " extends outside the index space bounds"
  | .coverageMismatch list covered expected =>
      "piece list " ++ toString list ++ " covers " ++ toString covered ++
        " points of an index space with " ++ toString expected ++ " points"
  | .volumeOverflow list =>
      "point count of piece list " ++ toString list ++
        " or of the index space does not fit in 128 bits"
  | .unsupportedPieceKind list piece opcode =>
      "piece " ++ toString piece ++ " of piece list " ++ toString list ++ " needs opcode " ++
        opcode.name ++ ", which is not allowed"
  | .jumpTooFar opcode delta max =>
      "jump of " ++ toString delta ++ " instructions does not fit the " ++ opcode.name ++
        " encoding (max " ++ toString max ++ ")"
  | .missingPieceList field list =>
      "field " ++ toString field ++ " refers to piece list " ++ toString list ++
        ", which does not exist"
  | .tooManyDimensions count =>
      "dimension count " ++ toString count ++ " does not fit the split plane encoding"
  | .allocation e => "allocation failed: " ++ e.message

end RegionLayout
