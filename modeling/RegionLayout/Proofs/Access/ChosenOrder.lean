import RegionLayout.Proofs.Access.Dense
import RegionLayout.Proofs.Placement.Strides

namespace RegionLayout

variable {t : CoordType} {n : Nat}

namespace AffineAccessor

section Order

variable {a : AffineAccessor t n} {r : Rect t n} {order sorted : List (Fin n)} {expected : Nat}

theorem denseAlong_of_steps (hr : ¬ r.IsEmpty) (h : Steps a.rule.strides r expected order) :
    a.denseAlong r expected order = true := by
  induction order generalizing expected with
  | nil => rfl
  | cons d order ih =>
    have hpos := Rect.extent_pos hr d
    obtain ⟨hstride, hrest⟩ := h
    by_cases hlong : 1 < r.extent d
    · exact (denseAlong_cons_of_lt hlong).mpr ⟨hstride, ih hrest⟩
    · have hone : r.extent d = 1 := by omega
      rw [hone, Nat.mul_one] at hrest
      rw [denseAlong_cons_of_le (Nat.not_lt.mp hlong)]
      exact ih hrest

theorem denseAlong_iff_pairwise {R : Fin n → Fin n → Prop} (hR : ∀ d e, R d e → ¬ R e d)
    (hpos : 0 < expected) (hperm : order.Perm sorted) (hsorted : sorted.Pairwise R)
    (h : a.denseAlong r expected order = true) :
    a.denseAlong r expected sorted = true ↔ (r.longDims order).Pairwise R := by
  have hlong : (r.longDims sorted).Pairwise R := hsorted.filter _
  constructor
  -- the strides grow along both orders, so their long dimensions are the same
  · intro hdense
    have hgrows : (r.longDims sorted).Pairwise a.StrideLE :=
      (pairwise_of_denseAlong hpos hdense).imp Or.inl
    rw [← longDims_eq_of_denseAlong hpos hperm h hgrows]
    exact hlong
  -- both are sorted by `R`, so their long dimensions are the same
  · intro hpairwise
    have hsame : r.longDims sorted = r.longDims order := by
      apply List.Perm.eq_of_pairwise _ hlong hpairwise (hperm.symm.filter _)
      intro d e _ _ hde hed
      exact absurd hed (hR d e hde)
    rw [← denseAlong_longDims, hsame, denseAlong_longDims, h]

theorem order_of_steps (hr : ¬ r.IsEmpty) (hpos : 0 < a.element)
    (horder : order.Perm (List.finRange n)) (h : Steps a.rule.strides r a.element order) :
    a.denseArbitrary r = true ∧
      (a.denseColumnMajor r = true ↔ (r.longDims order).Pairwise (· < ·)) ∧
      (a.denseRowMajor r = true ↔ (r.longDims order).Pairwise (· > ·)) := by
  have hdense := denseAlong_of_steps hr h
  have hup := List.pairwise_lt_finRange n
  have hdown : (List.finRange n).reverse.Pairwise (· > ·) := List.pairwise_reverse.mpr hup
  have hreverse := horder.trans (List.reverse_perm _).symm
  refine ⟨denseArbitrary_of_denseAlong horder hdense, ?_, ?_⟩
  · exact denseAlong_iff_pairwise (fun _ _ => Fin.lt_asymm) hpos horder hup hdense
  · exact denseAlong_iff_pairwise (fun _ _ => Fin.lt_asymm) hpos hreverse hdown hdense

end Order

section Chosen

variable {inst : Instance t n} {space : IndexSpace t n} {sizes : List (FieldId × UInt64)}
  {constraints : Constraints} {order : Vector UInt64 n} {layout : Layout t n}
  {id : FieldId} {size : UInt64} {slot : FieldSlot} {q : Piece t n}

theorem bind_of_sole (hlocal : inst.isLocal) (hfield : inst.layout.field? id = some (slot, [q]))
    (hcovers : ∀ r ∈ inst.layout.space.rects, r ⊆ q.bounds) :
    ∃ a, bind inst ⟨id, slot.size.toNat, 0⟩ none = .ok a ∧ a.element = slot.size.toNat ∧
      a.rule.strides = q.rule.strides := by
  obtain ⟨hslot, hpieces⟩ := get?_of_field? hfield
  have hbind : inst.layout.bind ⟨id, slot.size.toNat, 0⟩ none =
      .ok ⟨slot, [q], inst.layout.space.bounds⟩ := by
    simp [Layout.bind, hslot, hpieces]
  have hsolo : (Binding.mk slot [q] inst.layout.space.bounds).soloPiece inst.layout.space id none =
      .ok q := if_pos hcovers
  have hlocate : inst.locate ⟨id, slot.size.toNat, 0⟩ none =
      .ok ⟨q.rule.relocate (slot.offset + 0), inst.layout.space.bounds⟩ := by
    rw [Instance.locate, if_neg (not_not_intro hlocal)]
    exact bind_eq_ok.mpr ⟨_, hbind, bind_eq_ok.mpr ⟨q, hsolo, rfl⟩⟩
  refine ⟨_, map_eq_ok.mpr ⟨_, hlocate, rfl⟩, rfl, rfl⟩

/-- Over bounds with points, let each field have bytes and a group of its own. Where a layout is
chosen, a field can be opened with all of its bytes, and its elements are dense. They are so with
the first dimension fastest, or with the last, exactly if the selected order is of that kind along
the dimensions with more than one coordinate. -/
theorem dense_of_choose (hbounds : ¬ space.bounds.IsEmpty) (hsizes : ∀ entry ∈ sizes, entry.2 ≠ 0)
    (hconstraints : Constraints.ofFieldSizes sizes 0 = .ok constraints)
    (h : Layout.choose space constraints order = .ok layout) (hinst : inst.layout = layout)
    (hlocal : inst.isLocal) (hmem : (id, size) ∈ sizes) :
    ∃ (dims : List (Fin n)) (a : AffineAccessor t n),
      dims.map Fin.val = order.toList.map UInt64.toNat ∧
      bind inst ⟨id, size.toNat, 0⟩ none = .ok a ∧ a.denseArbitrary space.bounds = true ∧
      (a.denseColumnMajor space.bounds = true ↔ (space.bounds.longDims dims).Pairwise (· < ·)) ∧
      (a.denseRowMajor space.bounds = true ↔ (space.bounds.longDims dims).Pairwise (· > ·)) := by
  subst hinst
  obtain ⟨dims, slot, q, hdims, hfield, rfl, hq, hsteps⟩ :=
    Layout.field_of_ofFieldSizes hbounds hsizes hconstraints h hmem
  have hcovers : ∀ r ∈ inst.layout.space.rects, r ⊆ q.bounds := by
    obtain ⟨_, _, _, _, hlayout⟩ := Layout.groups_of_choose h
    rw [hlayout, hq]
    exact fun r => IndexSpace.subset_bounds
  obtain ⟨a, hopened, helement, hstrides⟩ := bind_of_sole hlocal hfield hcovers
  have hpos : 0 < a.element := by
    rw [helement]
    exact Nat.pos_of_ne_zero fun hzero => hsizes _ hmem (UInt64.toNat_inj.mp hzero)
  rw [hq, ← hstrides, ← helement] at hsteps
  have horder := order_of_steps hbounds hpos (permutation?_eq_some hdims) hsteps
  exact ⟨dims, a, (permutation?_eq_some_iff.mp hdims).1, hopened, horder⟩

end Chosen

/-- The last dimension counts faster than the first. The one between them comes before both, and
takes no part. -/
private def middleFirst : Vector UInt64 3 :=
  Vector.ofFn fun i => if i.val = 0 then 1 else if i.val = 1 then 2 else 0

theorem dense_of_choose_thin :
    ∃ layout a, Layout.choose (.dense thin) ⟨[[.natural 7 4], [.natural 9 6]]⟩ middleFirst =
        .ok layout ∧
      bind ⟨layout, .host (Bytes.zeros layout.bytesUsed.toNat)⟩ ⟨9, 6, 0⟩ none = .ok a ∧
      a.denseRowMajor thin = true ∧ ¬ a.denseColumnMajor thin = true := by
  have hsome : (Layout.choose (.dense thin) ⟨[[.natural 7 4], [.natural 9 6]]⟩
      middleFirst).toOption.isSome := by decide +kernel
  obtain ⟨layout, hlayout⟩ := Option.isSome_iff_exists.mp hsome
  have hchoose := toOption_eq_some.mp hlayout
  have hbounds : ¬ (IndexSpace.dense thin).bounds.IsEmpty := by decide
  have hsizes : ∀ entry ∈ [((7, 4) : FieldId × UInt64), (9, 6)], entry.2 ≠ 0 := by simp
  have hinst : (Instance.mk layout (.host (Bytes.zeros layout.bytesUsed.toNat))).layout = layout :=
    rfl
  obtain ⟨dims, a, hdims, hbind, _, hcolumns, hrows⟩ := dense_of_choose hbounds hsizes rfl hchoose
    hinst rfl (List.mem_cons_of_mem _ (List.mem_singleton_self (9, 6)))
  have horder : dims = [1, 2, 0] := List.map_injective_iff.mpr Fin.val_injective hdims
  subst horder
  refine ⟨layout, a, hchoose, hbind, hrows.mpr (by decide), ?_⟩
  intro hcolumnMajor
  exact absurd (hcolumns.mp hcolumnMajor) (by decide)

end AffineAccessor

end RegionLayout
