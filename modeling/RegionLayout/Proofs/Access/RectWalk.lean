import RegionLayout.Proofs.Access.Confinement
import RegionLayout.Proofs.Placement.Packing

/-!
# Walking a rectangle

A rectangle is resolved by the leaf of its lower corner, while it may be the piece the leaf was
clipped from that holds it. No other piece can, since no two share a point.
-/

namespace RegionLayout

variable {t : CoordType} {n : Nat} {r : Rect t n} {start : UInt64}

namespace Layout

variable {layout : Layout t n} {request : FieldRequest} {within? : Option (Rect t n)}
  {b : Binding t n}

theorem offset?_of_subset (hb : layout.bind request within? = .ok b)
    (hdisjoint : PairwiseDisjoint (List.map Piece.bounds b.pieces)) {q : Piece t n}
    (hq : q ∈ b.pieces) (hsub : r ⊆ q.bounds) {p : Point t n} (hp : p ∈ r) :
    ∃ offset, layout.offset? request.field p = some offset ∧
      q.rule.offset r.lo + b.fieldOffset request +
        UInt64.ofNat (reach q.rule.strides r p (List.finRange n)) = offset + request.subfield := by
  have hfind := PieceList.find?_of_disjoint hdisjoint hq (Rect.subset_iff.mp hsub p hp)
  refine ⟨q.rule.offset p + b.slot.offset, ?_, ?_⟩
  · simp [offset?, (bind_eq_ok hb).1, hfind]
  · rw [AffineRule.offset_eq_add_reach hp, Binding.fieldOffset]
    ac_rfl

end Layout

namespace MultiAffineAccessor

variable {inst : Instance t n} {request : FieldRequest} {within? : Option (Rect t n)}
  {a : MultiAffineAccessor t n} {leaf q : Piece t n}

theorem addressRect_of_address (hr : ¬ r.IsEmpty) (hstart : (a.address r.lo).1 = .ok start) :
    ∃ leaf, a.locate r.lo = .ok leaf ∧ start = leaf.rule.offset r.lo + a.offset ∧
      (a.addressRect r).1 =
        .ok (if a.WithinOne leaf r then some (start, leaf.rule.strides) else none) := by
  rw [addressRect_eq hr]
  rw [address] at hstart
  cases hleaf : a.locate r.lo with
  | error f =>
    rw [hleaf] at hstart
    contradiction
  | ok leaf =>
    rw [hleaf] at hstart
    have hoffset : a.offsetIn leaf r.lo = .ok start := hstart
    exact ⟨leaf, rfl, eq_of_checkElement_eq_ok hoffset, map_eq_ok.mpr ⟨start, hoffset, rfl⟩⟩

/-- The leaf being a part of the piece of the lower corner, the rectangle is accepted exactly if
it lies in a piece at all. -/
theorem withinOne_iff (hdisjoint : PairwiseDisjoint (List.map Piece.bounds a.pieces))
    (hr : ¬ r.IsEmpty) (hfind : PieceList.find? a.pieces r.lo = some q)
    (hpart : leaf.bounds ⊆ q.bounds) :
    a.WithinOne leaf r ↔ ∃ q ∈ a.pieces, r ⊆ q.bounds := by
  constructor
  · rintro (hleaf | ⟨q', hq', hsub⟩)
    · exact ⟨q, (PieceList.mem_of_find? hfind).1, Rect.subset_trans hleaf hpart⟩
    · exact ⟨q', (PieceList.mem_of_find? hq').1, hsub⟩
  · rintro ⟨q', hq', hsub⟩
    have hlo : r.lo ∈ q'.bounds := Rect.subset_iff.mp hsub r.lo (Rect.lo_mem hr)
    exact .inr ⟨q', PieceList.find?_of_disjoint hdisjoint hq' hlo, hsub⟩

section Serving

variable {b : Binding t n} {size : Nat}

theorem Serves.piece_of_locate (h : a.Serves request b size)
    (hdisjoint : PairwiseDisjoint (List.map Piece.bounds b.pieces)) {p : Point t n}
    (hleaf : a.locate p = .ok leaf) :
    ∃ q, PieceList.find? b.pieces p = some q ∧ leaf.bounds ⊆ q.bounds ∧ leaf.rule = q.rule := by
  by_cases hp : p ∈ b.bounds
  · rcases h.locate_eq hdisjoint hp with ⟨hmiss, _⟩ | ⟨leaf', hfound, hmem, hfollows⟩
    · cases hmiss.symm.trans hleaf
    · cases hfound.symm.trans hleaf
      exact (hfollows p hmem).found
  · rw [← h.bounds] at hp
    cases (locate_of_not_mem hp).symm.trans hleaf

theorem Serves.addressRect_of_subset (h : a.Serves request b size)
    (hdisjoint : PairwiseDisjoint (List.map Piece.bounds b.pieces)) (hr : ¬ r.IsEmpty)
    (hstart : (a.address r.lo).1 = .ok start) (hq : q ∈ b.pieces) (hsub : r ⊆ q.bounds) :
    (a.addressRect r).1 = .ok (some (start, q.rule.strides)) ∧
      start = q.rule.offset r.lo + b.fieldOffset request := by
  obtain ⟨leaf, hleaf, rfl, hanswer⟩ := addressRect_of_address hr hstart
  obtain ⟨q', hfind, hpart, hrule⟩ := h.piece_of_locate hdisjoint hleaf
  have hlo : r.lo ∈ q.bounds := Rect.subset_iff.mp hsub r.lo (Rect.lo_mem hr)
  -- the piece the leaf was clipped from is the one that holds the rectangle
  cases hfind.symm.trans (PieceList.find?_of_disjoint hdisjoint hq hlo)
  rw [← h.pieces] at hdisjoint hq hfind
  rw [if_pos ((withinOne_iff hdisjoint hr hfind hpart).mpr ⟨q, hq, hsub⟩)] at hanswer
  rw [hanswer, hrule, h.offset]
  exact ⟨rfl, rfl⟩

theorem Serves.addressRect_of_not_subset (h : a.Serves request b size)
    (hdisjoint : PairwiseDisjoint (List.map Piece.bounds b.pieces)) (hr : ¬ r.IsEmpty)
    (hstart : (a.address r.lo).1 = .ok start) (hnone : ¬ ∃ q ∈ b.pieces, r ⊆ q.bounds) :
    (a.addressRect r).1 = .ok none := by
  obtain ⟨leaf, hleaf, _, hanswer⟩ := addressRect_of_address hr hstart
  obtain ⟨q, hfind, hpart, _⟩ := h.piece_of_locate hdisjoint hleaf
  rw [← h.pieces] at hdisjoint hfind hnone
  rwa [if_neg (mt (withinOne_iff hdisjoint hr hfind hpart).mp hnone)] at hanswer

end Serving

end MultiAffineAccessor

/-- After any history, faults included, a rectangle that is not empty and has an address for its
lower corner is resolved exactly if a single piece of the field holds all of its points. What is
returned then is the address of the corner and strides, by which the distance of a point from the
corner leads to the offset of the layout at that point, plus the place of the requested bytes in
the field. An empty rectangle is not resolved, and the accessor stays as it was. -/
theorem addressRect_walks {inst : Instance t n} {request : FieldRequest}
    {within? : Option (Rect t n)} {a : MultiAffineAccessor t n}
    (h : MultiAffineAccessor.bind inst request within? = .ok a)
    (history : List (Storage × Operation t n)) :
    ∃ m slot pieces, (Accessor.multiAffine a).run history = .multiAffine m ∧
      inst.layout.field? request.field = some (slot, pieces) ∧
      (∀ r, r.IsEmpty → m.addressRect r = (.ok none, m)) ∧
      ∀ r start, ¬ r.IsEmpty → (m.address r.lo).1 = .ok start →
        ∃ answer?, (m.addressRect r).1 = .ok answer? ∧
          (answer?.isSome ↔ ∃ q ∈ pieces, ∀ p ∈ r, p ∈ q.bounds) ∧
          ∀ place strides, answer? = some (place, strides) → place = start ∧
            ∀ p ∈ r, ∃ offset, inst.layout.offset? request.field p = some offset ∧
              place + UInt64.ofNat (reach strides r p (List.finRange n)) =
                offset + request.subfield := by
  obtain ⟨b, hb, hserves⟩ := MultiAffineAccessor.serves_of_bind h
  have hfield := (Layout.bind_eq_ok hb).1
  have hdisjoint : PairwiseDisjoint (List.map Piece.bounds b.pieces) :=
    pairwiseDisjoint_bounds_iff.mpr (MultiAffineAccessor.admissible_of_bind h hfield).apart
  have hopened : (Accessor.multiAffine a).Serves request b inst.size := hserves
  obtain ⟨hrun, htier⟩ := hopened.run hdisjoint history
  generalize (Accessor.multiAffine a).run history = last at hrun htier
  cases last with
  | generic g => contradiction
  | affine g => contradiction
  | multiAffine m =>
    refine ⟨m, b.slot, b.pieces, rfl, hfield, ?_, ?_⟩
    · intro r hr
      exact MultiAffineAccessor.addressRect_of_isEmpty hr
    · intro r start hr hstart
      simp only [← Rect.subset_iff]
      by_cases hsub : ∃ q ∈ b.pieces, r ⊆ q.bounds
      · obtain ⟨q, hq, hqr⟩ := hsub
        obtain ⟨hanswer, rfl⟩ :=
          MultiAffineAccessor.Serves.addressRect_of_subset hrun hdisjoint hr hstart hq hqr
        refine ⟨_, hanswer, iff_of_true rfl ⟨q, hq, hqr⟩, ?_⟩
        intro place strides hplace
        cases hplace
        exact ⟨rfl, fun p => Layout.offset?_of_subset hb hdisjoint hq hqr⟩
      · have hanswer :=
          MultiAffineAccessor.Serves.addressRect_of_not_subset hrun hdisjoint hr hstart hsub
        refine ⟨none, hanswer, iff_of_false Bool.false_ne_true hsub, ?_⟩
        intro place strides hplace
        cases hplace

/-- An address in another arm of the pinwheel, and a fault. -/
private def elsewhere : List (Storage × Operation .i32 2) :=
  [(.host [], .address false (corner 2 2)), (.host [], .addressRect ⟨corner 3 0, corner 3 0⟩)]

private def lowerArm : Rect .i32 2 := ⟨corner 0 0, corner 1 0⟩

/-- The leaf that is found for a point, and the address. -/
private def found (p : Point .i32 2) : Accessor .i32 2 → Option (Rect .i32 2) × Option UInt64
  | .multiAffine m => ((m.locate p).toOption.map Piece.bounds, (m.address p).1.toOption)
  | _ => (none, none)

/-- A plane cuts the lower arm of the pinwheel, so the leaf at its corner has no other point. The
arm is resolved all the same. -/
theorem addressRect_walks_lowerArm :
    ∃ a m strides offset,
      MultiAffineAccessor.bind ⟨pinwheel, .host (Bytes.zeros 64)⟩ ⟨7, 2, 1⟩ none = .ok a ∧
      (Accessor.multiAffine a).run elsewhere = .multiAffine m ∧
      (m.locate (corner 0 0)).toOption.map Piece.bounds = some ⟨corner 0 0, corner 0 0⟩ ∧
      (m.addressRect lowerArm).1 = .ok (some (2, strides)) ∧
      pinwheel.offset? 7 (corner 1 0) = some offset ∧
      2 + UInt64.ofNat (reach strides lowerArm (corner 1 0) (List.finRange 2)) = offset + 1 := by
  have hopened : (MultiAffineAccessor.bind ⟨pinwheel, .host (Bytes.zeros 64)⟩ ⟨7, 2, 1⟩
      none).toOption.map (fun a => found (corner 0 0) ((Accessor.multiAffine a).run elsewhere)) =
        some (some ⟨corner 0 0, corner 0 0⟩, some 2) := by
    decide +kernel
  obtain ⟨a, ha, hfound⟩ := Option.map_eq_some_iff.mp hopened
  rw [toOption_eq_some] at ha
  obtain ⟨m, slot, pieces, hrun, hfield, _, hwalks⟩ := addressRect_walks ha elsewhere
  rw [hrun, found, Prod.mk.injEq, toOption_eq_some] at hfound
  obtain ⟨answer?, hanswer, hiff, hplace⟩ := hwalks lowerArm 2 (by decide) hfound.2
  have hlist : pinwheel.field? 7 = some (⟨0, 1, 3⟩, pinwheel.lists.headD []) := by
    decide +kernel
  cases hlist.symm.trans hfield
  have hpiece : ∃ q ∈ pinwheel.lists.headD [], lowerArm ⊆ q.bounds := by decide +kernel
  simp only [Rect.subset_iff] at hpiece
  obtain ⟨⟨place, strides⟩, rfl⟩ := Option.isSome_iff_exists.mp (hiff.mpr hpiece)
  obtain ⟨rfl, hwalk⟩ := hplace place strides rfl
  obtain ⟨offset, hoffset, hreach⟩ := hwalk (corner 1 0) (by decide)
  exact ⟨a, m, strides, offset, ha, hrun, hfound.1, hanswer, hoffset, hreach⟩

end RegionLayout
