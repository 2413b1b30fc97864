import RegionLayout.Program.Coverage
import RegionLayout.Proofs.Layout.Relocation
import RegionLayout.Proofs.Program.Search

namespace RegionLayout

variable {t : CoordType} {n : Nat} (pieces : PieceList t n) (delta : UInt64)

namespace PieceList

@[simp] theorem length_relocate : (relocate pieces delta).length = pieces.length :=
  List.length_map _

theorem map_bounds_relocate :
    List.map Piece.bounds (relocate pieces delta) = List.map Piece.bounds pieces := by
  rw [relocate, List.map_map]
  rfl

theorem inhabited_relocate :
    inhabited (relocate pieces delta) = relocate (inhabited pieces) delta := by
  rw [inhabited, relocate, List.filter_map]
  rfl

end PieceList

theorem firstPieceDefect?_relocate (list : Nat) (bounds : Rect t n) (allowed : OpcodeSet)
    (index : Nat) : firstPieceDefect? list bounds allowed index (PieceList.relocate pieces delta) =
      firstPieceDefect? list bounds allowed index pieces := by
  induction pieces generalizing index with
  | nil => rfl
  | cons q rest ih =>
    change (pieceDefect? list bounds allowed index (q.relocate delta)).or
      (firstPieceDefect? list bounds allowed (index + 1) (PieceList.relocate rest delta)) = _
    rw [ih]
    rfl

theorem coveredParts_relocate (space : IndexSpace t n) :
    coveredParts space (PieceList.relocate pieces delta) = coveredParts space pieces := by
  cases space with
  | dense bounds => exact PieceList.map_bounds_relocate pieces delta
  | sparse rects _ _ =>
    have hparts : ∀ r : Rect t n, List.map (fun q => q.bounds ∩ r)
        (PieceList.relocate pieces delta) = List.map (fun q => q.bounds ∩ r) pieces := by
      intro r
      rw [PieceList.relocate, List.map_map]
      rfl
    simp only [coveredParts, hparts]

theorem checkCoverage_relocate (space : IndexSpace t n) (allowed : OpcodeSet) (list : Nat) :
    checkCoverage space allowed list (PieceList.relocate pieces delta) =
      checkCoverage space allowed list pieces := by
  rw [checkCoverage, checkCoverage, firstPieceDefect?_relocate, PieceList.map_bounds_relocate,
    coveredParts_relocate]

namespace Cut

variable (cut : Cut t n)

theorem belowCount_relocate :
    cut.belowCount (PieceList.relocate pieces delta) = cut.belowCount pieces := by
  rw [belowCount, PieceList.relocate, List.countP_map]
  rfl

theorem aboveCount_relocate :
    cut.aboveCount (PieceList.relocate pieces delta) = cut.aboveCount pieces := by
  rw [aboveCount, PieceList.relocate, List.countP_map]
  rfl

theorem cost_relocate : cut.cost (PieceList.relocate pieces delta) = cut.cost pieces := by
  rw [cost, cost, belowCount_relocate, aboveCount_relocate]

theorem separates_relocate :
    cut.Separates (PieceList.relocate pieces delta) ↔ cut.Separates pieces := by
  rw [Separates, Separates, belowCount_relocate, aboveCount_relocate, PieceList.length_relocate]

theorem edges_relocate (box : Rect t n) (d : Fin n) :
    edges (PieceList.relocate pieces delta) box d = edges pieces box d := by
  simp only [edges, PieceList.relocate, List.map_map, List.filter_map]
  rfl

theorem candidates_relocate :
    candidates (PieceList.relocate pieces delta) = candidates pieces := by
  have hbox : PieceList.bounds (PieceList.relocate pieces delta) = PieceList.bounds pieces := by
    rw [PieceList.bounds, PieceList.map_bounds_relocate]
    rfl
  simp only [candidates, hbox, edges_relocate, separates_relocate]

theorem cheapest?_relocate (cuts : List (Cut t n)) :
    cheapest? (PieceList.relocate pieces delta) cuts = cheapest? pieces cuts := by
  induction cuts with
  | nil => rfl
  | cons cut rest ih => simp only [cheapest?, ih, cost_relocate]

theorem best?_relocate : best? (PieceList.relocate pieces delta) = best? pieces := by
  rw [best?, best?, candidates_relocate, cheapest?_relocate]

private theorem filterMap_clip_relocate (part : Rect t n → Rect t n) :
    List.filterMap (fun q =>
        if (part q.bounds).IsEmpty then none else some (q.clip (part q.bounds)))
        (PieceList.relocate pieces delta) =
      PieceList.relocate (List.filterMap (fun q =>
        if (part q.bounds).IsEmpty then none else some (q.clip (part q.bounds))) pieces) delta := by
  rw [PieceList.relocate, PieceList.relocate, List.filterMap_map, List.map_filterMap]
  congr 1
  funext q
  simp only [Function.comp_apply, Piece.bounds_relocate, apply_ite (Option.map _), Option.map_none,
    Option.map_some]
  rfl

theorem lower_relocate :
    cut.lower (PieceList.relocate pieces delta) = PieceList.relocate (cut.lower pieces) delta :=
  filterMap_clip_relocate pieces delta fun r => (r.split cut.dim cut.plane).1

theorem upper_relocate :
    cut.upper (PieceList.relocate pieces delta) = PieceList.relocate (cut.upper pieces) delta :=
  filterMap_clip_relocate pieces delta fun r => (r.split cut.dim cut.plane).2

end Cut

namespace Tree

/-- The tree with all of its pieces moved. -/
def relocate (delta : UInt64) : Tree t n → Tree t n
  | .split dim plane below above => .split dim plane (below.relocate delta) (above.relocate delta)
  | .chain pieces => .chain (PieceList.relocate pieces delta)

theorem opcodes_relocate (tree : Tree t n) : (tree.relocate delta).opcodes = tree.opcodes := by
  induction tree with
  | split dim plane below above ihbelow ihabove =>
    rw [relocate, opcodes, opcodes, ihbelow, ihabove]
  | chain pieces => cases pieces <;> rfl

theorem build_relocate (options : CompileOptions) :
    build options (PieceList.relocate pieces delta) = (build options pieces).relocate delta := by
  induction pieces using build.induct options with
  | case1 pieces hstop =>
    rw [build, build, if_pos hstop, PieceList.length_relocate, if_pos hstop]
    rfl
  | case2 pieces _ hnone =>
    have hnone' : Cut.best? (PieceList.relocate pieces delta) = none := by
      rw [Cut.best?_relocate, hnone]
    rw [build_of_best?_none hnone, build_of_best?_none hnone']
    rfl
  | case3 pieces hgo cut hcut ihbelow ihabove =>
    have hgo' : ¬ ((PieceList.relocate pieces delta).length ≤ options.chainLimit ∨
        Opcode.splitPlane ∉ options.allowed) := by
      rwa [PieceList.length_relocate]
    have hcut' : Cut.best? (PieceList.relocate pieces delta) = some cut := by
      rw [Cut.best?_relocate, hcut]
    rw [build_of_best?_some hgo hcut, build_of_best?_some hgo' hcut', Cut.lower_relocate,
      Cut.upper_relocate, ihbelow, ihabove]
    rfl

end Tree

end RegionLayout
