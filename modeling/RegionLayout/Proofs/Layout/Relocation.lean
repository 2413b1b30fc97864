import RegionLayout.Layout.Basic

namespace RegionLayout

variable {t : CoordType} {n : Nat}

namespace AffineRule

theorem relocate_relocate (rule : AffineRule n) (delta delta' : UInt64) :
    (rule.relocate delta).relocate delta' = rule.relocate (delta + delta') := by
  simp only [relocate, UInt64.add_assoc]

theorem relocate_zero (rule : AffineRule n) : rule.relocate 0 = rule := by
  simp only [relocate, UInt64.add_zero]

theorem offset_relocate (rule : AffineRule n) (delta : UInt64) (p : Point t n) :
    (rule.relocate delta).offset p = rule.offset p + delta := by
  rw [offset, offset, relocate, UInt64.add_assoc, UInt64.add_comm delta, ← UInt64.add_assoc]

end AffineRule

namespace Piece

@[simp] theorem bounds_relocate (q : Piece t n) (delta : UInt64) :
    (q.relocate delta).bounds = q.bounds := rfl

theorem relocate_relocate (q : Piece t n) (delta delta' : UInt64) :
    (q.relocate delta).relocate delta' = q.relocate (delta + delta') := by
  simp only [relocate, AffineRule.relocate_relocate]

theorem relocate_zero (q : Piece t n) : q.relocate 0 = q := by
  simp only [relocate, AffineRule.relocate_zero]

end Piece

namespace PieceList

theorem relocate_relocate (pieces : PieceList t n) (delta delta' : UInt64) :
    relocate (relocate pieces delta) delta' = relocate pieces (delta + delta') := by
  rw [relocate, relocate, relocate, List.map_map]
  exact List.map_congr_left fun q _ => q.relocate_relocate delta delta'

theorem relocate_zero (pieces : PieceList t n) : relocate pieces 0 = pieces := by
  have hpiece : (fun q : Piece t n => q.relocate 0) = id := funext Piece.relocate_zero
  rw [relocate, hpiece, List.map_id]

theorem find?_relocate (pieces : PieceList t n) (delta : UInt64) (p : Point t n) :
    find? (relocate pieces delta) p = (find? pieces p).map (Piece.relocate · delta) := by
  rw [find?, relocate, List.find?_map]
  rfl

end PieceList

namespace Layout

theorem relocate_relocate (layout : Layout t n) (delta delta' : UInt64) :
    (layout.relocate delta).relocate delta' = layout.relocate (delta + delta') := by
  have hlists : (fun pieces : PieceList t n => PieceList.relocate pieces (delta + delta')) =
      (PieceList.relocate · delta') ∘ (PieceList.relocate · delta) :=
    funext fun pieces => (PieceList.relocate_relocate pieces delta delta').symm
  simp only [relocate, List.map_map, hlists]

theorem relocate_zero (layout : Layout t n) : layout.relocate 0 = layout := by
  have hlists : (fun pieces : PieceList t n => PieceList.relocate pieces 0) = id :=
    funext PieceList.relocate_zero
  simp only [relocate, hlists, List.map_id]

theorem list?_relocate (layout : Layout t n) (delta : UInt64) (index : UInt64) :
    (layout.relocate delta).list? index =
      (layout.list? index).map (PieceList.relocate · delta) :=
  List.getElem?_map

theorem offset?_relocate (layout : Layout t n) (delta : UInt64) (id : FieldId) (p : Point t n) :
    (layout.relocate delta).offset? id p = (layout.offset? id p).map (· + delta) := by
  have hfields : (layout.relocate delta).fields = layout.fields := rfl
  simp only [offset?, field?, hfields, list?_relocate, Option.bind_eq_bind, Option.pure_def]
  cases layout.fields.get? id with
  | none => rfl
  | some slot =>
    cases h : layout.list? slot.list with
    | none => simp [h]
    | some pieces =>
      simp only [Option.bind_some, Option.map_some, h, PieceList.find?_relocate]
      cases PieceList.find? pieces p with
      | none => rfl
      | some q =>
        have hsum : (q.relocate delta).rule.offset p + slot.offset =
            q.rule.offset p + slot.offset + delta := by
          change (q.rule.relocate delta).offset p + slot.offset = _
          rw [AffineRule.offset_relocate, UInt64.add_assoc, UInt64.add_comm delta,
            ← UInt64.add_assoc]
        simp only [Option.bind_some, Option.map_some, hsum]

end Layout

end RegionLayout
