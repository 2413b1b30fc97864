import RegionLayout.Program.CompileError
import RegionLayout.Program.Instruction

/-!
# Decision trees

The pieces of a list are told apart by a tree of planes. A plane that cuts through a piece leaves
a part of it on either side. The leaves of the tree are chains of pieces.
-/

namespace RegionLayout

/-- What the consumer of a program can evaluate, and how many pieces may be tried in a row before
it pays to split them. -/
structure CompileOptions where
  allowed : OpcodeSet
  chainLimit : Nat
  deriving DecidableEq, Repr

namespace CompileOptions

def default : CompileOptions := ⟨OpcodeSet.all, 1⟩

def withAllowed (o : CompileOptions) (allowed : OpcodeSet) : CompileOptions := { o with allowed }

/-- A limit of zero counts as one. -/
def withChainLimit (o : CompileOptions) (limit : Nat) : CompileOptions :=
  { o with chainLimit := max limit 1 }

end CompileOptions

/-- A plane across one dimension: the points below it and the points from it on. -/
structure Cut (t : CoordType) (n : Nat) where
  dim : Fin n
  plane : Coord t
  deriving DecidableEq

namespace Cut

variable {t : CoordType} {n : Nat}

/-- How many pieces reach below the plane. -/
def belowCount (cut : Cut t n) (pieces : PieceList t n) : Nat :=
  List.countP (fun q => decide (q.bounds.lo.get cut.dim < cut.plane)) pieces

/-- How many pieces reach up to the plane. -/
def aboveCount (cut : Cut t n) (pieces : PieceList t n) : Nat :=
  List.countP (fun q => decide (cut.plane ≤ q.bounds.hi.get cut.dim)) pieces

/-- Some piece lies above the plane and some below it. -/
def Separates (cut : Cut t n) (pieces : PieceList t n) : Prop :=
  cut.belowCount pieces < pieces.length ∧ cut.aboveCount pieces < pieces.length

instance (cut : Cut t n) (pieces : PieceList t n) : Decidable (cut.Separates pieces) :=
  inferInstanceAs
    (Decidable (cut.belowCount pieces < pieces.length ∧ cut.aboveCount pieces < pieces.length))

/-- What a cut costs, compared from the left: pieces on the fuller side, pieces on both sides,
dimension, plane. -/
def cost (cut : Cut t n) (pieces : PieceList t n) : List Int :=
  [max (cut.belowCount pieces) (cut.aboveCount pieces),
    cut.belowCount pieces + cut.aboveCount pieces, cut.dim.val, cut.plane.val]

/-- The parts of the pieces below the plane, as far as they have points. -/
def lower (cut : Cut t n) (pieces : PieceList t n) : PieceList t n :=
  pieces.filterMap fun q =>
    let part := (q.bounds.split cut.dim cut.plane).1
    if part.IsEmpty then none else some (q.clip part)

def upper (cut : Cut t n) (pieces : PieceList t n) : PieceList t n :=
  pieces.filterMap fun q =>
    let part := (q.bounds.split cut.dim cut.plane).2
    if part.IsEmpty then none else some (q.clip part)

theorem length_lower_le (cut : Cut t n) (pieces : PieceList t n) :
    (cut.lower pieces).length ≤ cut.belowCount pieces := by
  rw [lower, belowCount, List.length_filterMap_eq_countP]
  refine List.countP_mono_left fun q _ hq => ?_
  by_cases h : cut.plane ≤ q.bounds.lo.get cut.dim
  · simp only [Rect.split, if_pos h, if_pos (Rect.isEmpty_empty cut.dim)] at hq
    contradiction
  · exact decide_eq_true (Int.not_le.mp h)

theorem length_upper_le (cut : Cut t n) (pieces : PieceList t n) :
    (cut.upper pieces).length ≤ cut.aboveCount pieces := by
  rw [upper, aboveCount, List.length_filterMap_eq_countP]
  refine List.countP_mono_left fun q _ hq => ?_
  by_cases h : q.bounds.hi.get cut.dim < cut.plane
  · simp only [Rect.split, if_pos h, if_pos (Rect.isEmpty_empty cut.dim)] at hq
    contradiction
  · exact decide_eq_true (Int.not_lt.mp h)

/-- The planes along `d` that are an edge of some piece and lie inside the box, above its lower
side. -/
def edges (pieces : PieceList t n) (box : Rect t n) (d : Fin n) : List (Coord t) :=
  let lowerEdges := List.map (fun q => q.bounds.lo.get d) pieces
  let upperEdges := (List.filter (fun q => decide (q.bounds.hi.get d < box.hi.get d)) pieces).map
    fun q => Coord.wrap t ((q.bounds.hi.get d).val + 1)
  (lowerEdges ++ upperEdges).filter fun plane => box.lo.get d < plane ∧ plane ≤ box.hi.get d

/-- All cuts along an edge of some piece that separate the pieces. -/
def candidates (pieces : PieceList t n) : List (Cut t n) :=
  let box := pieces.bounds
  ((List.finRange n).flatMap fun d => (edges pieces box d).map fun plane => ⟨d, plane⟩).filter
    fun cut => cut.Separates pieces

/-- The first of the cheapest cuts. -/
def cheapest? (pieces : PieceList t n) : List (Cut t n) → Option (Cut t n)
  | [] => none
  | cut :: rest =>
      match cheapest? pieces rest with
      | none => some cut
      | some other => if other.cost pieces < cut.cost pieces then some other else some cut

/-- The cut that separates the pieces best, if any edge of a piece separates them. -/
def best? (pieces : PieceList t n) : Option (Cut t n) := cheapest? pieces (candidates pieces)

theorem mem_of_cheapest? {pieces : PieceList t n} {cuts : List (Cut t n)} {cut : Cut t n}
    (h : cheapest? pieces cuts = some cut) : cut ∈ cuts := by
  induction cuts with
  | nil => contradiction
  | cons c rest ih =>
    rw [cheapest?] at h
    split at h
    · cases h
      exact List.mem_cons_self
    · next other hother =>
      split at h
      · cases h
        exact List.mem_cons_of_mem _ (ih hother)
      · cases h
        exact List.mem_cons_self

theorem separates_of_best? {pieces : PieceList t n} {cut : Cut t n} (h : best? pieces = some cut) :
    cut.Separates pieces := by
  have hmem := mem_of_cheapest? h
  exact of_decide_eq_true (List.mem_filter.mp hmem).2

end Cut

inductive Tree (t : CoordType) (n : Nat) where
  | split (dim : Fin n) (plane : Coord t) (below above : Tree t n)
  | chain (pieces : PieceList t n)
  deriving DecidableEq

namespace Tree

variable {t : CoordType} {n : Nat}

/-- Splits the pieces along the best cut until few enough are left, or no cut separates them. -/
def build (options : CompileOptions) (pieces : PieceList t n) : Tree t n :=
  if pieces.length ≤ options.chainLimit ∨ Opcode.splitPlane ∉ options.allowed then .chain pieces
  else
    match _h : Cut.best? pieces with
    | none => .chain pieces
    | some cut =>
        .split cut.dim cut.plane (build options (cut.lower pieces))
          (build options (cut.upper pieces))
termination_by pieces.length
decreasing_by
  -- a cut that separates the pieces leaves out at least one of them on either side
  · exact Nat.lt_of_le_of_lt (cut.length_lower_le pieces) (Cut.separates_of_best? ‹_›).1
  · exact Nat.lt_of_le_of_lt (cut.length_upper_le pieces) (Cut.separates_of_best? ‹_›).2

def opcodes : Tree t n → OpcodeSet
  | .split _ _ below above => OpcodeSet.singleton .splitPlane ∪ (below.opcodes ∪ above.opcodes)
  | .chain [] => OpcodeSet.empty
  | .chain (_ :: _) => OpcodeSet.singleton .affinePiece

/-- The leaves of a chain. Each jumps to the next, and the last one nowhere. -/
def emitChain : PieceList t n → Except Fault Bytes
  | [] => .ok []
  | [q] => encodeLeaf q 0
  | q :: rest => do
      let leaf ← encodeLeaf q (leafSize t n / instructionUnit)
      let leaves ← emitChain rest
      return leaf ++ leaves

/-- The instructions of the tree: a split plane, the part below it, the part above it. The plane
jumps over the part below. -/
def emit : Tree t n → Except (Failure CompileError) Bytes
  | .split dim plane below above => do
      let first ← below.emit
      -- the jump is known only now, and too far a one stops before the part above is emitted
      let delta := (splitPlaneSize + first.length) / instructionUnit
      if splitPlaneMaxDelta < delta then
        .error (.error (.jumpTooFar .splitPlane delta splitPlaneMaxDelta))
      else
        let second ← above.emit
        let plane : SplitPlane t :=
          { dim := UInt8.ofNat dim.val, plane := plane, delta := UInt16.ofNat delta }
        return plane.encode ++ first ++ second
  | .chain pieces =>
      let delta := leafSize t n / instructionUnit
      if leafMaxDelta < delta then .error (.error (.jumpTooFar .affinePiece delta leafMaxDelta))
      else (emitChain pieces).mapError .fault

end Tree

end RegionLayout
