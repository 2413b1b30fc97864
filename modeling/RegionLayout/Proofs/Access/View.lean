import RegionLayout.Proofs.Access.Resolution
import RegionLayout.Proofs.Transform

/-!
# Views address the points they show

The rule of a piece and a transform are folded in machine words. At a point with an image this is
the rule of the piece at the image, whatever wraps around on the way.
-/

namespace RegionLayout

variable {t s : CoordType} {m n : Nat}

namespace AffineAccessor

variable {inst : Instance t m} {request : FieldRequest} {f : Transform t m n}
  {offset q : Point t m} {within? : Option (Rect s n)} {p : Point s n} {a : AffineAccessor s n}

/-- The sums of the products may be formed by rows or by columns. -/
theorem offset_viewRule (rule : AffineRule m) (h : f.apply p offset = some q) :
    (viewRule rule f offset : AffineRule n).offset p = rule.offset q := by
  have hcolumn : ∀ j, (viewRule rule f offset : AffineRule n).strides.get j =
      ∑ i, rule.strides.get i * ((f.rows.get i).get j).toWord := by
    intro j
    exact (get_ofFn _ j).trans List.sum_ofFn
  have hswap : p.dot (viewRule rule f offset : AffineRule n).strides =
      ∑ i, rule.strides.get i * ∑ j, ((f.rows.get i).get j).toWord * (p.get j).toWord := by
    rw [Point.dot_eq_sum]
    simp only [hcolumn, Finset.mul_sum, Finset.sum_mul]
    rw [Finset.sum_comm]
    simp only [mul_assoc]
  have himage : q.dot rule.strides =
      offset.dot rule.strides + p.dot (viewRule rule f offset : AffineRule n).strides := by
    rw [hswap, Point.dot_eq_sum, Point.dot_eq_sum]
    simp only [Transform.toWord_of_apply h, mul_add, Finset.sum_add_distrib]
  rw [AffineRule.offset, AffineRule.offset, himage, viewRule, UInt64.add_assoc]

theorem located_of_bindView (h : bindView inst request f offset within? = .ok a) :
    ∃ image? b piece, inst.layout.bind request image? = .ok b ∧
      b.soloPiece inst.layout.space request.field image? = .ok piece ∧
      (∀ r, within? = some r → ∃ image, image? = some image ∧ f.imageBounds r offset = some image) ∧
      (within? = none → image? = none) ∧
      a = ⟨request.element, viewRule (piece.rule.relocate (b.fieldOffset request)) f offset,
        inst.size, within?⟩ := by
  have hopened : ∀ image?, (inst.locate request image? >>= fun located => pure
      ⟨request.element, viewRule located.rule f offset, inst.size, within?⟩) = .ok a →
      ∃ b piece, inst.layout.bind request image? = .ok b ∧
        b.soloPiece inst.layout.space request.field image? = .ok piece ∧
        a = ⟨request.element, viewRule (piece.rule.relocate (b.fieldOffset request)) f offset,
          inst.size, within?⟩ := by
    intro image? h
    obtain ⟨located, hlocated, h⟩ := bind_eq_ok.mp h
    obtain ⟨b, piece, hb, hpiece, rfl⟩ := Instance.locate_eq_ok hlocated
    rw [pure_eq_ok] at h
    exact ⟨b, piece, hb, hpiece, h.symm⟩
  cases within? with
  | none =>
    obtain ⟨b, piece, hb, hpiece, ha⟩ := hopened none h
    exact ⟨none, b, piece, hb, hpiece, by simp, fun _ => rfl, ha⟩
  | some r =>
    cases himage : f.imageBounds r offset with
    | none =>
      rw [bindView, himage] at h
      contradiction
    | some image =>
      rw [bindView, himage] at h
      obtain ⟨b, piece, hb, hpiece, ha⟩ := hopened (some image) h
      refine ⟨some image, b, piece, hb, hpiece, ?_, by simp, ha⟩
      intro r' hr'
      cases hr'
      exact ⟨image, rfl, himage⟩

theorem eq_of_address_eq_ok {a : AffineAccessor t n} {p : Point t n} {address : UInt64}
    (h : a.address p = .ok address) : address = a.rule.offset p := by
  rw [AffineAccessor.address] at h
  split at h
  case h_1 bounds _ =>
    obtain ⟨_, _, hcheck⟩ := bind_eq_ok.mp h
    exact eq_of_checkElement_eq_ok hcheck
  case h_2 => exact eq_of_checkElement_eq_ok h

end AffineAccessor

/-- At a point with an image, a view addresses the requested bytes where the rule of its piece has
the image. The piece is the only one of its list, or over a part the first that holds the bounds of
the image. Then each point of the part has an image, in the piece and in the instance, and in a list
without overlaps the view addresses what the layout says. -/
theorem view_offset {inst : Instance t m} {request : FieldRequest} {f : Transform t m n}
    {offset : Point t m} {within? : Option (Rect s n)} {a : AffineAccessor s n}
    (h : AffineAccessor.bindView inst request f offset within? = .ok a) :
    ∃ slot pieces piece, inst.layout.field? request.field = some (slot, pieces) ∧
      (within? = none →
        pieces = [piece] ∧ ∀ r ∈ inst.layout.space.rects, r ⊆ piece.bounds) ∧
      (∀ r, within? = some r → ∃ image, f.imageBounds r offset = some image ∧
        List.find? (fun q => decide (image ⊆ q.bounds)) pieces = some piece) ∧
      (∀ p address, a.address p = .ok address → address = a.rule.offset p) ∧
      (∀ (p : Point s n) q, f.apply p offset = some q →
        a.rule.offset p = piece.rule.offset q + slot.offset + request.subfield) ∧
      ∀ r, within? = some r → ∀ p ∈ r, ∃ q, f.apply p offset = some q ∧
        q ∈ piece.bounds ∧ q ∈ inst.layout.space.bounds ∧
        (PairwiseDisjoint (List.map Piece.bounds pieces) →
          ∃ place, inst.layout.offset? request.field q = some place ∧
            a.rule.offset p = place + request.subfield) := by
  obtain ⟨image?, b, piece, hb, hpiece, hsome, hnone, rfl⟩ :=
    AffineAccessor.located_of_bindView h
  obtain ⟨hfield, _, hbounds, hinside⟩ := Layout.bind_eq_ok hb
  obtain ⟨hmem, hcovers⟩ := Binding.soloPiece_eq_ok hpiece
  have hrule : ∀ (p : Point s n) q, f.apply p offset = some q →
      (AffineAccessor.viewRule (piece.rule.relocate (b.fieldOffset request)) f offset :
        AffineRule n).offset p = piece.rule.offset q + b.slot.offset + request.subfield := by
    intro p q hq
    rw [AffineAccessor.offset_viewRule _ hq, AffineRule.offset_relocate, UInt64.add_assoc]
    rfl
  refine ⟨b.slot, b.pieces, piece, hfield, ?_, ?_, fun p address => ?_, hrule, ?_⟩
  · intro hwithin
    cases hnone hwithin
    exact Binding.soloPiece_whole hpiece
  · intro r hr
    obtain ⟨image, rfl, himage⟩ := hsome r hr
    exact ⟨image, himage, Binding.soloPiece_within hpiece⟩
  · exact AffineAccessor.eq_of_address_eq_ok
  · intro r hr p hp
    obtain ⟨image, rfl, himage⟩ := hsome r hr
    obtain ⟨q, hq, hqimage⟩ := Transform.apply_mem_imageBounds himage hp
    have hqpiece : q ∈ piece.bounds := Rect.subset_iff.mp hcovers q hqimage
    have hqspace : q ∈ inst.layout.space.bounds :=
      Rect.subset_iff.mp hinside q (hbounds ▸ hqimage)
    refine ⟨q, hq, hqpiece, hqspace, fun hdisjoint => ?_⟩
    have hfind : PieceList.find? b.pieces q = some piece :=
      PieceList.find?_of_disjoint hdisjoint hmem hqpiece
    refine ⟨piece.rule.offset q + b.slot.offset, ?_, hrule p q hq⟩
    simp [Layout.offset?, hfield, hfind]

/-- Counts along the lower arm of the pinwheel from its far end. -/
private def backwards : Transform .i32 2 1 :=
  ⟨#v[Point.splat 1 (Coord.wrap .i32 (-1)), Point.zero .i32 1]⟩

private def armLength : Rect .u64 1 := ⟨Point.zero .u64 1, Point.splat 1 (Coord.wrap .u64 1)⟩

private theorem isSome_bindView_backwards :
    (AffineAccessor.bindView ⟨pinwheel, .host (Bytes.zeros 64)⟩ ⟨7, 2, 1⟩ backwards (corner 1 0)
      (some armLength)).toOption.isSome := by
  decide +kernel

theorem view_offset_backwards :
    ∃ a, AffineAccessor.bindView ⟨pinwheel, .host (Bytes.zeros 64)⟩ ⟨7, 2, 1⟩ backwards (corner 1 0)
        (some armLength) = .ok a ∧
      ∀ p ∈ armLength, ∃ q place,
        backwards.apply p (corner 1 0) = some q ∧ pinwheel.offset? 7 q = some place ∧
          a.rule.offset p = place + 1 := by
  have ha := toOption_eq_some.mp (Option.some_get isSome_bindView_backwards).symm
  refine ⟨_, ha, fun p hp => ?_⟩
  obtain ⟨slot, pieces, _, hfield, _, _, _, _, hpart⟩ := view_offset ha
  obtain ⟨q, hq, _, _, hplace⟩ := hpart _ rfl p hp
  obtain ⟨place, hoffset, hrule⟩ := hplace (disjoint_pinwheel _ _ hfield)
  exact ⟨q, place, hq, hoffset, hrule⟩

end RegionLayout
