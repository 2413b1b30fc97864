import RegionLayout.Proofs.Placement.Entries
import RegionLayout.Proofs.Placement.Sizes

namespace RegionLayout

variable {t : CoordType} {n : Nat}

/-- The strides of each piece are those of its rectangle packed along the order. -/
def PieceList.StepsAlong (order : List (Fin n)) (element : Nat) (pieces : PieceList t n) : Prop :=
  ∀ q ∈ pieces, Steps q.rule.strides q.bounds element order

theorem stepsAlong_of_placeRects {order : List (Fin n)} {element alignment used stop : Nat}
    {rects : List (Rect t n)} {pieces : PieceList t n} (horder : order.Perm (List.finRange n))
    (helement : element < wordLimit)
    (h : placeRects order element alignment used rects = .ok (pieces, stop)) :
    pieces.StepsAlong order element := by
  intro q hq
  obtain ⟨used', r, stop', hrect⟩ := exists_placeRect_of_mem h hq
  obtain ⟨rfl, _, _, hsteps, _⟩ := placeRect_eq_ok horder helement hrect
  exact hsteps

namespace InstancePlan

variable {order : List (Fin n)} {covering : List (Rect t n)} {plan plan' : InstancePlan t n}
  {group : FieldGroup} {done : List FieldGroup}

/-- The lists belong to the groups, and their pieces are packed along the order. -/
def StepsAlong (order : List (Fin n)) (groups : List FieldGroup) (plan : InstancePlan t n) :
    Prop :=
  List.Forall₂ (fun group pieces => PieceList.StepsAlong order group.elementSize pieces) groups
    plan.lists

theorem stepsAlong_placeGroup (horder : order.Perm (List.finRange n))
    (hplan : StepsAlong order done plan) (h : placeGroup order covering plan group = .ok plan') :
    StepsAlong order (done ++ [group]) plan' := by
  have hstart : (ElementPlan.mk 0 1 plan.fields).size < wordLimit := show 0 < wordLimit by decide
  rw [placeGroup] at h
  obtain ⟨element, helement, h⟩ := bind_eq_ok.mp h
  obtain ⟨hbytes, halignment, _⟩ :=
    (ElementPlan.succeedsIff_fields plan.lists.length group hstart).of_ok element helement
  split at h
  case isTrue =>
    rw [pure_eq_ok] at h
    subst h
    apply List.rel_append hplan
    exact .cons (by simp [PieceList.StepsAlong]) .nil
  case isFalse =>
    obtain ⟨size, hsize, h⟩ := bind_eq_ok.mp h
    obtain ⟨rfl, hlt⟩ := checkedSize_eq_ok hsize
    obtain ⟨⟨pieces, used⟩, hpieces, h⟩ := bind_eq_ok.mp h
    rw [pure_eq_ok] at h
    subst h
    -- the element that was filled field by field has the size the group gives it
    have helementSize : group.elementSize = roundUp element.size element.alignment := by
      rw [hbytes, halignment]
      rfl
    apply List.rel_append hplan
    apply List.Forall₂.cons _ .nil
    rw [helementSize]
    exact stepsAlong_of_placeRects horder hlt hpieces

end InstancePlan

namespace Layout

variable {space : IndexSpace t n} {covering : List (Rect t n)} {constraints : Constraints}
  {order : Vector UInt64 n} {layout : Layout t n}

theorem stepsAlong_of_choose
    (h : chooseWithCovering space covering constraints order = .ok layout) :
    ∃ dims, permutation? order = some dims ∧
      List.Forall₂ (fun group pieces => PieceList.StepsAlong dims group.elementSize pieces)
        constraints.groups layout.lists := by
  obtain ⟨dims, plan, hdims, hplan, rfl⟩ := groups_of_choose h
  have hstart : InstancePlan.StepsAlong dims [] (InstancePlan.start t n) := List.Forall₂.nil
  exact ⟨dims, hdims, foldlM_invariant (InstancePlan.StepsAlong dims)
    (fun _ _ _ _ => InstancePlan.stepsAlong_placeGroup (permutation?_eq_some hdims)) hstart hplan⟩

/-- A field is in the pieces of its group, which are packed along the selected order. -/
theorem field_of_choose (h : chooseWithCovering space covering constraints order = .ok layout)
    (hcount : constraints.groups.length ≤ wordLimit) {group : FieldGroup} {f : FieldSpec}
    (hgroup : group ∈ constraints.groups) (hf : f ∈ group) :
    ∃ dims slot pieces, permutation? order = some dims ∧
      layout.field? f.id = some (slot, pieces) ∧ slot.size = f.size ∧
      List.map Piece.bounds pieces = covering.filter (fun r => ¬ r.IsEmpty) ∧
      pieces.StepsAlong dims group.elementSize := by
  obtain ⟨dims, hdims, hsteps⟩ := stepsAlong_of_choose h
  obtain ⟨element, hplaced⟩ := placed_of_choose h
  obtain ⟨i, hi⟩ := List.getElem?_of_mem hgroup
  obtain ⟨slot, pieces, hfield, hsize, hfound⟩ := hplaced.field_at hcount hi hf
  refine ⟨dims, slot, pieces, hdims, hfield, hsize, hfound.covers, ?_⟩
  obtain ⟨hi', rfl⟩ := List.getElem?_eq_some_iff.mp hi
  obtain ⟨hpieces', rfl⟩ := List.getElem?_eq_some_iff.mp hfound.list_eq
  exact hsteps.get hi' hpieces'

end Layout

/-! Fields with their natural alignment, each in a group of its own. -/

theorem toNat_naturalAlignment (size : UInt64) : (naturalAlignment size).toNat =
    if size = 0 then 1 else Nat.gcd size.toNat maxNaturalAlignment := by
  rw [naturalAlignment]
  split
  case isTrue => rfl
  case isFalse =>
    have hle : Nat.gcd size.toNat maxNaturalAlignment ≤ maxNaturalAlignment :=
      Nat.gcd_le_right _ (by decide)
    exact UInt64.toNat_ofNat_of_lt' (Nat.lt_of_le_of_lt hle (by decide))

theorem naturalAlignment_pos (size : UInt64) : 0 < (naturalAlignment size).toNat := by
  rw [toNat_naturalAlignment]
  split
  case isTrue => exact Nat.one_pos
  case isFalse => exact Nat.gcd_pos_of_pos_right _ (by decide)

theorem naturalAlignment_dvd (size : UInt64) : (naturalAlignment size).toNat ∣ size.toNat := by
  rw [toNat_naturalAlignment]
  split
  case isTrue => exact Nat.one_dvd _
  case isFalse => exact Nat.gcd_dvd_left _ _

theorem elementSize_natural (id : FieldId) (size : UInt64) :
    FieldGroup.elementSize [FieldSpec.natural id size] = size.toNat := by
  have hpos := naturalAlignment_pos size
  have hstart : (FieldSpec.natural id size).startAfter 0 = 0 :=
    roundUp_of_dvd hpos (Nat.dvd_zero _)
  have hbytes : FieldGroup.bytesFrom 0 [FieldSpec.natural id size] = size.toNat := by
    rw [FieldGroup.bytesFrom_cons, FieldSpec.stopAfter, hstart, Nat.zero_add, Nat.zero_max]
    rfl
  have halignment : FieldGroup.alignment [FieldSpec.natural id size] =
      (naturalAlignment size).toNat := Nat.max_eq_right hpos
  rw [FieldGroup.elementSize, hbytes, halignment]
  exact roundUp_of_dvd hpos (naturalAlignment_dvd size)

section FieldSizes

variable {space : IndexSpace t n} {constraints : Constraints} {order : Vector UInt64 n}
  {layout : Layout t n} {sizes : List (FieldId × UInt64)} {id : FieldId} {size : UInt64}

theorem groups_of_ofFieldSizes (h : Constraints.ofFieldSizes sizes 0 = .ok constraints) :
    constraints.groups = sizes.map fun entry => [FieldSpec.natural entry.1 entry.2] := by
  rw [Constraints.ofFieldSizes, if_pos rfl, Except.ok.injEq] at h
  rw [← h, List.map_map]
  rfl

theorem length_le_of_nodup {ids : List FieldId} (h : ids.Nodup) : ids.length ≤ wordLimit := by
  have hnodup : (ids.map UInt32.toNat).Nodup := h.map fun _ _ => UInt32.toNat_inj.mp
  have hsub : (ids.map UInt32.toNat).Subperm (List.range wordLimit) := by
    apply hnodup.subperm
    intro number hnumber
    obtain ⟨id, _, rfl⟩ := List.mem_map.mp hnumber
    have hlt := id.toNat_lt
    exact List.mem_range.mpr (Nat.lt_trans hlt (by decide))
  have hle := hsub.length_le
  rwa [List.length_map, List.length_range] at hle

theorem ids_of_ofFieldSizes (h : Constraints.ofFieldSizes sizes 0 = .ok constraints) :
    constraints.groups.flatten.map FieldSpec.id = sizes.map Prod.fst := by
  rw [groups_of_ofFieldSizes h, ← List.flatMap_def, ← List.map_eq_flatMap, List.map_map]
  rfl

theorem Layout.field_of_ofFieldSizes (hbounds : ¬ space.bounds.IsEmpty)
    (hsizes : ∀ entry ∈ sizes, entry.2 ≠ 0)
    (hconstraints : Constraints.ofFieldSizes sizes 0 = .ok constraints)
    (h : choose space constraints order = .ok layout) (hmem : (id, size) ∈ sizes) :
    ∃ dims slot q, permutation? order = some dims ∧ layout.field? id = some (slot, [q]) ∧
      slot.size = size ∧ q.bounds = space.bounds ∧
      Steps q.rule.strides q.bounds size.toNat dims := by
  rw [choose, if_neg hbounds] at h
  have hgroups := groups_of_ofFieldSizes hconstraints
  have hsized : ∀ group ∈ constraints.groups, group ≠ [] → ∃ f ∈ group, f.size ≠ 0 := by
    rw [hgroups]
    intro group hgroup _
    obtain ⟨entry, hentry, rfl⟩ := List.mem_map.mp hgroup
    exact ⟨_, List.mem_singleton_self _, hsizes entry hentry⟩
  have hids : (sizes.map Prod.fst).Nodup := by
    rw [← ids_of_ofFieldSizes hconstraints]
    exact ((succeedsIff_choose space _ constraints order hsized).exists_iff.mp
      ⟨layout, h⟩).2.2.2.1
  have hcount : constraints.groups.length ≤ wordLimit := by
    have hle := length_le_of_nodup hids
    rwa [hgroups, List.length_map, ← List.length_map Prod.fst]
  have hgroup : [FieldSpec.natural id size] ∈ constraints.groups := by
    rw [hgroups]
    exact List.mem_map_of_mem hmem
  obtain ⟨dims, slot, pieces, hdims, hfield, hsize, hcovers, hsteps⟩ :=
    field_of_choose h hcount hgroup (List.mem_singleton_self _)
  have hsole : List.map Piece.bounds pieces = [space.bounds] := by
    rw [hcovers]
    exact List.filter_cons_of_pos (by simpa using hbounds)
  obtain ⟨q, rfl, hq⟩ := List.map_eq_singleton_iff.mp hsole
  rw [elementSize_natural] at hsteps
  exact ⟨dims, slot, q, hdims, hfield, hsize, hq, hsteps q (List.mem_singleton_self q)⟩

end FieldSizes

end RegionLayout
