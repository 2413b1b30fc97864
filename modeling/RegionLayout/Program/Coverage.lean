import RegionLayout.IndexSpace
import RegionLayout.Program.CompileError

/-!
# Coverage

Pieces cover a space if they share no point and together have as many points of it as there are.
Only the numbers are compared, since no point is counted twice.
-/

namespace RegionLayout

variable {t : CoordType} {n : Nat}

def pieceDefect? (list : Nat) (bounds : Rect t n) (allowed : OpcodeSet) (index : Nat)
    (q : Piece t n) : Option CompileError :=
  if q.kind.opcode ∉ allowed then some (.unsupportedPieceKind list index q.kind.opcode)
  else if ¬ q.bounds ⊆ bounds then some (.outsideBounds list index)
  else none

/-- The first defect of a piece taken by itself, the pieces in order from position `index`. -/
def firstPieceDefect? (list : Nat) (bounds : Rect t n) (allowed : OpcodeSet) :
    Nat → PieceList t n → Option CompileError
  | _, [] => none
  | index, q :: rest =>
      (pieceDefect? list bounds allowed index q).or
        (firstPieceDefect? list bounds allowed (index + 1) rest)

/-- The parts of the pieces that are in the space. In a dense space they are the pieces, which have
been checked to lie inside its bounds. -/
def coveredParts (space : IndexSpace t n) (pieces : PieceList t n) : List (Rect t n) :=
  match space with
  | .dense _ => pieces.map Piece.bounds
  | .sparse rects _ _ => rects.flatMap fun r => pieces.map fun q => q.bounds ∩ r

/-- Checks that the pieces of the numbered list cover the space, each point of it once. -/
def checkCoverage (space : IndexSpace t n) (allowed : OpcodeSet) (list : Nat)
    (pieces : PieceList t n) : Except CompileError Unit :=
  match firstPieceDefect? list space.bounds allowed 0 pieces,
      firstOverlap? (List.map Piece.bounds pieces) with
  | some e, _ => .error e
  | none, some (first, second) => .error (.overlap list first second)
  | none, none =>
      match Rect.totalVolume? (coveredParts space pieces), space.volume? with
      | some covered, some expected =>
          if covered ≠ expected then .error (.coverageMismatch list covered expected) else .ok ()
      | _, _ => .error (.volumeOverflow list)

end RegionLayout
