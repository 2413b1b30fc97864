import RegionLayout.Proofs.Placement.Placed
import RegionLayout.Proofs.Rect.Counting

/-!
# Exact sizes

The size of an instance is a sum over the groups, as no piece leaves a gap before the next one. A
number on the way is never larger than the last one, as long as the elements have bytes.
-/

namespace RegionLayout

variable {t : CoordType} {n : Nat}

theorem roundUp_of_dvd {value alignment : Nat} (hpos : 0 < alignment) (h : alignment ∣ value) :
    roundUp value alignment = value := by
  obtain ⟨k, rfl⟩ := h
  have hdiv : (alignment * k + (alignment - 1)) / alignment = k := by
    rw [Nat.mul_add_div hpos, Nat.div_eq_of_lt (Nat.sub_one_lt_of_lt hpos), Nat.add_zero]
  rw [roundUp, hdiv, Nat.mul_comm]

namespace Rect

/-- The points of several rectangles, each rectangle for itself. -/
def totalCount (rects : List (Rect t n)) : Nat := (rects.map count).sum

variable {r : Rect t n}

theorem slots_eq_prod (r : Rect t n) (order : List (Fin n)) :
    r.slots order = (order.map r.extent).prod := by
  induction order with
  | nil => rfl
  | cons d order ih => rw [slots, ih, List.map_cons, List.prod_cons]

theorem slots_eq_count {order : List (Fin n)} (horder : order.Perm (List.finRange n)) :
    r.slots order = r.count := by
  rw [slots_eq_prod, count_eq_prod, List.ofFn_eq_map]
  exact (horder.map r.extent).prod_eq

theorem slots_pos (h : ¬ r.IsEmpty) (order : List (Fin n)) : 0 < r.slots order := by
  induction order with
  | nil => exact Nat.one_pos
  | cons d order ih => exact Nat.mul_pos (extent_pos h d) ih

theorem count_pos (h : ¬ r.IsEmpty) : 0 < r.count :=
  slots_eq_count (List.Perm.refl _) ▸ slots_pos h (List.finRange n)

theorem totalCount_filter (rects : List (Rect t n)) :
    totalCount (rects.filter fun r => ¬ r.IsEmpty) = totalCount rects := by
  induction rects with
  | nil => rfl
  | cons r rects ih =>
    by_cases h : r.IsEmpty
    · have hcount : totalCount (r :: rects) = totalCount rects := by
        rw [totalCount, List.map_cons, List.sum_cons, count_of_isEmpty h, Nat.zero_add]
        rfl
      rw [List.filter_cons_of_neg (by simpa using h), ih, hcount]
    · rw [List.filter_cons_of_pos (by simpa using h), totalCount, List.map_cons, List.sum_cons,
        totalCount, List.map_cons, List.sum_cons]
      exact congrArg _ ih

end Rect

/-- The bytes in use once a number of elements have been packed from the first aligned byte on. -/
def usedAfter (element alignment volume used : Nat) : Nat :=
  if volume = 0 then used else roundUp used alignment + element * volume

private theorem exists_packed {order : List (Fin n)} {r : Rect t n} {element : Nat}
    (hr : ¬ r.IsEmpty) (hpos : 0 < element) (h : element * r.slots order < wordLimit) :
    ∃ out, packed order r element = .ok out := by
  rw [packed]
  generalize Vector.replicate n (0 : UInt64) = strides
  induction order generalizing strides element with
  | nil => exact ⟨_, rfl⟩
  | cons d order ih =>
    rw [Rect.slots, ← Nat.mul_assoc] at h
    have hproduct : element * r.extent d < wordLimit :=
      Nat.lt_of_le_of_lt (Nat.le_mul_of_pos_right _ (Rect.slots_pos hr order)) h
    have hextent : r.extent d < wordLimit :=
      Nat.lt_of_le_of_lt (Nat.le_mul_of_pos_left _ hpos) hproduct
    obtain ⟨out, hout⟩ := ih (Nat.mul_pos hpos (Rect.extent_pos hr d)) h
      (replaceAt strides d (UInt64.ofNat element))
    refine ⟨out, bind_eq_ok.mpr ⟨_, ?_, hout⟩⟩
    refine bind_eq_ok.mpr ⟨_, checkedSize_of_lt hextent, ?_⟩
    exact bind_eq_ok.mpr ⟨_, checkedSize_of_lt hproduct, rfl⟩

theorem succeedsIff_packed {order : List (Fin n)} {r : Rect t n} {element : Nat}
    (hnodup : order.Nodup) (hr : ¬ r.IsEmpty) (hpos : 0 < element)
    (helement : element < wordLimit) :
    SucceedsIff (packed order r element) (element * r.slots order < wordLimit)
      (fun out => out.2 = element * r.slots order) where
  exists_iff := by
    constructor
    · rintro ⟨⟨strides, size⟩, h⟩
      obtain ⟨rfl, hlt, _⟩ := packed_eq_ok hnodup helement h
      exact hlt
    · exact exists_packed hr hpos
  of_ok := fun _ h => (packed_eq_ok hnodup helement h).1

section Pieces

variable {order : List (Fin n)} {element alignment used : Nat}

theorem le_usedAfter (halignment : 0 < alignment) (volume : Nat) :
    used ≤ usedAfter element alignment volume used := by
  rw [usedAfter]
  split
  · exact Nat.le_refl _
  · exact Nat.le_trans (le_roundUp halignment used) (Nat.le_add_right _ _)

/-- What has been packed ends at an aligned byte, so nothing is lost where packing goes on. -/
theorem usedAfter_add (halignment : 0 < alignment) (hdvd : alignment ∣ element) {volume : Nat}
    (hvolume : 0 < volume) (more : Nat) :
    usedAfter element alignment (volume + more) used =
      usedAfter element alignment more (roundUp used alignment + element * volume) := by
  have hstop : alignment ∣ roundUp used alignment + element * volume :=
    Nat.dvd_add (dvd_roundUp _ _) (Nat.dvd_mul_right_of_dvd hdvd _)
  rw [usedAfter, usedAfter, if_neg (by omega), Nat.mul_add, ← Nat.add_assoc]
  split
  case isTrue hmore => rw [hmore, Nat.mul_zero, Nat.add_zero]
  case isFalse => rw [roundUp_of_dvd halignment hstop]

theorem succeedsIff_placeRect {r : Rect t n} (horder : order.Perm (List.finRange n))
    (hr : ¬ r.IsEmpty) (hpos : 0 < element) (helement : element < wordLimit) :
    SucceedsIff (placeRect order element alignment used r)
      (roundUp used alignment + element * r.count < wordLimit)
      (fun out => out.2 = roundUp used alignment + element * r.count) := by
  have hnodup : order.Nodup := horder.symm.nodup (List.nodup_finRange n)
  rw [← Rect.slots_eq_count horder, placeRect]
  refine (succeedsIff_checkedSize _).bind_of_imp
    (Nat.lt_of_le_of_lt (Nat.le_add_right _ _)) ?_
  rintro - start rfl
  refine (succeedsIff_packed hnodup hr hpos helement).bind_of_imp
    (Nat.lt_of_le_of_lt (Nat.le_add_left _ _)) ?_
  rintro - ⟨strides, size⟩ rfl
  refine (succeedsIff_checkedSize _).bind_ok ?_
  rintro - stop rfl
  exact ⟨_, rfl, rfl⟩

theorem succeedsIff_placeRects {rects : List (Rect t n)} (horder : order.Perm (List.finRange n))
    (hrects : ∀ r ∈ rects, ¬ r.IsEmpty) (hpos : 0 < element) (helement : element < wordLimit)
    (halignment : 0 < alignment) (hdvd : alignment ∣ element) (hused : used < wordLimit) :
    SucceedsIff (placeRects order element alignment used rects)
      (usedAfter element alignment (Rect.totalCount rects) used < wordLimit)
      (fun out => out.2 = usedAfter element alignment (Rect.totalCount rects) used) := by
  induction rects generalizing used with
  | nil => exact .ok hused rfl
  | cons r rects ih =>
    obtain ⟨hr, hrects⟩ := List.forall_mem_cons.mp hrects
    have hcount : Rect.totalCount (r :: rects) = r.count + Rect.totalCount rects := by
      rw [Rect.totalCount, List.map_cons, List.sum_cons, Rect.totalCount]
    have hle : roundUp used alignment + element * r.count ≤
        usedAfter element alignment (Rect.totalCount rects)
          (roundUp used alignment + element * r.count) := le_usedAfter halignment _
    rw [hcount, usedAfter_add halignment hdvd (Rect.count_pos hr), placeRects]
    refine (succeedsIff_placeRect horder hr hpos helement).bind_of_imp
      (Nat.lt_of_le_of_lt hle) ?_
    rintro hlt ⟨q, between⟩ rfl
    refine (ih hrects hlt).bind_ok ?_
    rintro - ⟨pieces, stop⟩ rfl
    exact ⟨_, rfl, rfl⟩

end Pieces

namespace FieldGroup

/-- The bytes in use after the elements of the group. -/
def usedAfter (group : FieldGroup) (volume used : Nat) : Nat :=
  RegionLayout.usedAfter group.elementSize group.alignment volume used

theorem alignment_pos (group : FieldGroup) : 0 < group.alignment := by
  have hle : ∀ start, start ≤ group.alignmentFrom start := by
    intro start
    induction group generalizing start with
    | nil => exact Nat.le_refl _
    | cons field group ih => exact Nat.le_trans (Nat.le_max_left _ _) (ih _)
  exact hle 1

theorem elementSize_pos {group : FieldGroup} (h : ∃ field ∈ group, field.size ≠ 0) :
    0 < group.elementSize := by
  obtain ⟨field, hfield, hsize⟩ := h
  have hfield : 0 < field.size.toNat := Nat.pos_of_ne_zero fun h => hsize (UInt64.toNat_inj.mp h)
  calc 0 < field.size.toNat := hfield
    _ ≤ group.bytesFrom 0 := size_le_bytesFrom ‹_› 0
    _ ≤ group.elementSize := le_roundUp group.alignment_pos _

theorem usedAfter_nil (volume used : Nat) : usedAfter [] volume used = used := by
  have hround : roundUp used 1 = used := roundUp_of_dvd Nat.one_pos (Nat.one_dvd used)
  have hsize : elementSize [] = 0 := rfl
  rw [usedAfter, RegionLayout.usedAfter, hsize, Nat.zero_mul]
  split
  · rfl
  · exact hround

theorem le_usedAfter (group : FieldGroup) (volume used : Nat) :
    used ≤ group.usedAfter volume used :=
  RegionLayout.le_usedAfter group.alignment_pos volume

end FieldGroup

/-- The bytes in use after the elements of all groups. -/
def usedByGroups (volume used : Nat) (groups : List FieldGroup) : Nat :=
  groups.foldl (fun used group => group.usedAfter volume used) used

theorem le_usedByGroups (volume used : Nat) (groups : List FieldGroup) :
    used ≤ usedByGroups volume used groups := by
  induction groups generalizing used with
  | nil => exact Nat.le_refl _
  | cons group groups ih => exact Nat.le_trans (group.le_usedAfter volume used) (ih _)

namespace InstancePlan

variable {order : List (Fin n)} {plan : InstancePlan t n}

theorem succeedsIff_placeGroup (horder : order.Perm (List.finRange n))
    (covering : List (Rect t n)) (group : FieldGroup)
    (hsized : group ≠ [] → ∃ field ∈ group, field.size ≠ 0) (hused : plan.bytesUsed < wordLimit) :
    SucceedsIff (placeGroup order covering plan group)
      ((∀ field ∈ group, field.Placeable) ∧ plan.fields.Free (group.map FieldSpec.id) ∧
        group.elementSize < wordLimit ∧
        group.usedAfter (Rect.totalCount covering) plan.bytesUsed < wordLimit)
      (fun plan' => plan'.bytesUsed = group.usedAfter (Rect.totalCount covering) plan.bytesUsed ∧
        plan.fields.Gains (group.map FieldSpec.id) plan'.fields) := by
  have hstart : (ElementPlan.mk 0 1 plan.fields).size < wordLimit := show 0 < wordLimit by decide
  rw [placeGroup]
  refine ((ElementPlan.succeedsIff_fields plan.lists.length group hstart).bind
    (D := group.elementSize < wordLimit ∧
      group.usedAfter (Rect.totalCount covering) plan.bytesUsed < wordLimit) ?_).congr
    ?_ fun _ _ => id
  · rintro ⟨hplaceable, _⟩ element ⟨hsize, halignment, hgains⟩
    by_cases hempty : group = []
    · subst hempty
      rw [FieldGroup.usedAfter_nil]
      exact .ok ⟨by decide, hused⟩ ⟨rfl, plan.fields.gains_nil⟩
    · have hdvd : group.alignment ∣ group.elementSize := dvd_roundUp _ _
      have hpoints : ∀ r ∈ covering.filter fun r => ¬ r.IsEmpty, ¬ r.IsEmpty := fun r hr => by
        simpa using (List.mem_filter.mp hr).2
      have halignment : element.alignment = group.alignment := halignment
      have hsize : roundUp element.size group.alignment = group.elementSize := by
        rw [hsize]
        rfl
      rw [if_neg (mt List.isEmpty_iff.mp hempty), halignment, hsize]
      refine (succeedsIff_checkedSize _).bind ?_
      rintro hlt size rfl
      have hpieces := succeedsIff_placeRects horder hpoints
        (FieldGroup.elementSize_pos (hsized hempty)) hlt group.alignment_pos hdvd hused
      rw [Rect.totalCount_filter] at hpieces
      refine hpieces.bind_ok ?_
      rintro - ⟨pieces, used⟩ rfl
      exact ⟨_, rfl, rfl, hgains⟩
  · have hbytes : group.elementSize < wordLimit → group.bytesFrom 0 < wordLimit :=
      Nat.lt_of_le_of_lt (le_roundUp group.alignment_pos _)
    constructor
    · rintro ⟨⟨hplaceable, hfree, _⟩, hsizes⟩
      exact ⟨hplaceable, hfree, hsizes⟩
    · rintro ⟨hplaceable, hfree, hsize, hused⟩
      exact ⟨⟨hplaceable, hfree, hbytes hsize⟩, hsize, hused⟩

/-- The groups are placed exactly if each can be and the last of their bytes is in range. -/
theorem succeedsIff_groups (horder : order.Perm (List.finRange n)) (covering : List (Rect t n))
    {groups : List FieldGroup}
    (hsized : ∀ group ∈ groups, group ≠ [] → ∃ field ∈ group, field.size ≠ 0)
    (hused : plan.bytesUsed < wordLimit) :
    SucceedsIff (groups.foldlM (placeGroup order covering) plan)
      ((∀ group ∈ groups, ∀ field ∈ group, field.Placeable) ∧
        plan.fields.Free (groups.flatten.map FieldSpec.id) ∧
        (∀ group ∈ groups, group.elementSize < wordLimit) ∧
        usedByGroups (Rect.totalCount covering) plan.bytesUsed groups < wordLimit)
      (fun plan' => plan'.bytesUsed =
        usedByGroups (Rect.totalCount covering) plan.bytesUsed groups) := by
  induction groups generalizing plan with
  | nil => exact .ok ⟨by simp, plan.fields.free_nil, by simp, hused⟩ rfl
  | cons group groups ih =>
    obtain ⟨hfirst, hsized⟩ := List.forall_mem_cons.mp hsized
    rw [List.foldlM_cons, List.flatten_cons, List.map_append]
    refine ((succeedsIff_placeGroup horder covering group hfirst hused).bind
      (D := (∀ group ∈ groups, ∀ field ∈ group, field.Placeable) ∧
        plan.fields.Free (group.map FieldSpec.id ++ groups.flatten.map FieldSpec.id) ∧
        (∀ group ∈ groups, group.elementSize < wordLimit) ∧
        usedByGroups (Rect.totalCount covering) plan.bytesUsed (group :: groups) < wordLimit)
      ?_).congr ?_ fun _ _ => id
    · rintro ⟨_, hfree, _, hlt⟩ plan' ⟨hplan', hgains⟩
      refine (ih hsized (hplan' ▸ hlt)).congr ?_ ?_
      · rw [FieldMap.free_append hgains hfree, hplan']
        rfl
      · rintro - plan'' hplan''
        rw [hplan'', hplan']
        rfl
    · have hused' : usedByGroups (Rect.totalCount covering) plan.bytesUsed (group :: groups) <
          wordLimit → group.usedAfter (Rect.totalCount covering) plan.bytesUsed < wordLimit :=
        Nat.lt_of_le_of_lt (le_usedByGroups _ _ _)
      rw [List.forall_mem_cons, List.forall_mem_cons]
      constructor
      · rintro ⟨⟨hplaceable, _, hsize, _⟩, hplaceables, hfree, hsizes, hlt⟩
        exact ⟨⟨hplaceable, hplaceables⟩, hfree, ⟨hsize, hsizes⟩, hlt⟩
      · rintro ⟨⟨hplaceable, hplaceables⟩, hfree, ⟨hsize, hsizes⟩, hlt⟩
        exact ⟨⟨hplaceable, hfree.left, hsize, hused' hlt⟩, hplaceables, hfree, hsizes, hlt⟩

end InstancePlan

namespace Constraints

/-- The bytes of an instance of `volume` covered points, without a bound. Each group with fields
starts at a multiple of its largest alignment. -/
def totalSize (constraints : Constraints) (volume : Nat) : Nat :=
  if volume = 0 then 0
  else (constraints.groups.filter fun group => ¬ group.isEmpty).foldl
    (fun total group => roundUp total group.alignment + group.elementSize * volume) 0

theorem totalSize_eq (constraints : Constraints) (volume : Nat) :
    constraints.totalSize volume = usedByGroups volume 0 constraints.groups := by
  rw [totalSize]
  split
  case isTrue h =>
    have hfixed : ∀ group, FieldGroup.usedAfter group volume 0 = 0 := by
      intro group
      rw [FieldGroup.usedAfter, usedAfter, if_pos h]
    exact (List.foldl_fixed' hfixed constraints.groups).symm
  case isFalse h =>
    rw [List.foldl_filter, usedByGroups]
    congr 1
    funext used group
    split
    case isTrue => rw [FieldGroup.usedAfter, usedAfter, if_neg h]
    case isFalse hempty =>
      have hnil : group = [] := by simpa using hempty
      rw [hnil, FieldGroup.usedAfter_nil]

end Constraints

namespace Layout

theorem succeedsIff_choose (space : IndexSpace t n) (covering : List (Rect t n))
    (constraints : Constraints) (order : Vector UInt64 n)
    (hsized : ∀ group ∈ constraints.groups, group ≠ [] → ∃ field ∈ group, field.size ≠ 0) :
    SucceedsIff (chooseWithCovering space covering constraints order)
      ((order.toList.map UInt64.toNat).Perm (List.range n) ∧
        (∀ r ∈ covering, ∀ p ∈ r, p ∈ space.bounds) ∧
        (∀ group ∈ constraints.groups, ∀ field ∈ group, field.Placeable) ∧
        (constraints.groups.flatten.map FieldSpec.id).Nodup ∧
        (∀ group ∈ constraints.groups, group.elementSize < wordLimit) ∧
        constraints.totalSize (Rect.totalCount covering) < wordLimit)
      (fun layout => layout.bytesUsed.toNat =
        constraints.totalSize (Rect.totalCount covering)) := by
  rw [chooseWithCovering, constraints.totalSize_eq]
  cases hdims : permutation? order with
  | none =>
    refine .error fun h => ?_
    obtain ⟨dims, hsome⟩ := (exists_permutation?_iff order).mpr h.1
    rw [hdims] at hsome
    contradiction
  | some dims =>
    have horder := (exists_permutation?_iff order).mp ⟨dims, hdims⟩
    have hstart : (InstancePlan.start t n).bytesUsed < wordLimit := show 0 < wordLimit by decide
    dsimp only
    split
    case h_1 r hr =>
      refine .error fun h => ?_
      have hout := List.find?_some hr
      have hin := Rect.subset_iff.mpr (h.2.1 r (List.mem_of_find?_eq_some hr))
      simp [hin] at hout
    case h_2 hnone =>
      have hinside : ∀ r ∈ covering, ∀ p ∈ r, p ∈ space.bounds := by
        intro r hr
        have := List.find?_eq_none.mp hnone r hr
        exact Rect.subset_iff.mp (by simpa using this)
      have hgroups := InstancePlan.succeedsIff_groups (permutation?_eq_some hdims) covering hsized
        hstart
      refine (hgroups.bind_ok (Q := fun layout => layout.bytesUsed.toNat = usedByGroups
        (Rect.totalCount covering) 0 constraints.groups) ?_).congr ?_ fun _ _ => id
      · rintro ⟨_, _, _, hlt⟩ plan hplan
        refine ⟨_, rfl, ?_⟩
        rw [hplan]
        exact UInt64.toNat_ofNat_of_lt' hlt
      · have hfree : (InstancePlan.start t n).fields.Free
            (constraints.groups.flatten.map FieldSpec.id) ↔
              (constraints.groups.flatten.map FieldSpec.id).Nodup :=
          and_iff_right fun id _ => FieldMap.get?_empty id
        rw [hfree]
        exact ⟨fun h => ⟨horder, hinside, h⟩, fun h => h.2.2⟩

end Layout

/-- Among constraints whose groups have bytes, a layout is chosen exactly if the order is one of
the dimensions, the covering is inside the bounds, the fields can be placed and are told apart, and
the sizes of the elements and of the instance are in range. It has exactly the size computed without
a bound, which depends on the covering by its points only. -/
theorem choose_exact (space : IndexSpace t n) (covering : List (Rect t n))
    (constraints : Constraints) (order : Vector UInt64 n)
    (hsized : ∀ group ∈ constraints.groups, group ≠ [] → ∃ field ∈ group, field.size ≠ 0) :
    ((∃ layout, Layout.chooseWithCovering space covering constraints order = .ok layout) ↔
      (order.toList.map UInt64.toNat).Perm (List.range n) ∧
      (∀ r ∈ covering, ∀ p ∈ r, p ∈ space.bounds) ∧
      (∀ group ∈ constraints.groups, ∀ field ∈ group, field.Placeable) ∧
      (constraints.groups.flatten.map FieldSpec.id).Nodup ∧
      (∀ group ∈ constraints.groups, group.elementSize < wordLimit) ∧
      constraints.totalSize (Rect.totalCount covering) < wordLimit) ∧
    ∀ layout, Layout.chooseWithCovering space covering constraints order = .ok layout →
      layout.bytesUsed.toNat = constraints.totalSize (Rect.totalCount covering) ∧
      ∀ (space' : IndexSpace t n) covering' order' layout',
        Layout.chooseWithCovering space' covering' constraints order' = .ok layout' →
        Rect.totalCount covering' = Rect.totalCount covering →
        layout'.bytesUsed = layout.bytesUsed := by
  have hchoose := Layout.succeedsIff_choose space covering constraints order hsized
  refine ⟨hchoose.exists_iff, fun layout h => ⟨hchoose.of_ok layout h, ?_⟩⟩
  intro space' covering' order' layout' h' hcount
  have hother := Layout.succeedsIff_choose space' covering' constraints order' hsized
  apply UInt64.toNat_inj.mp
  rw [hother.of_ok layout' h', hchoose.of_ok layout h, hcount]

private def upTo (last : Int) : Rect .u64 1 :=
  ⟨Point.zero .u64 1, Point.splat 1 (Coord.wrap .u64 last)⟩

private def words : IndexSpace .u64 1 := .dense (upTo 0xffffffffffffffff)

private def byteEach : Constraints := ⟨[[⟨0, none, 1, 1⟩]]⟩

/-- A byte for each coordinate but one fills all bytes but one. A byte for each is one too many. -/
theorem choose_exact_full :
    (∃ layout, Layout.chooseWithCovering words [upTo 0xfffffffffffffffe] byteEach #v[0] =
      .ok layout ∧ layout.bytesUsed = 0xffffffffffffffff) ∧
    ¬ ∃ layout, Layout.chooseWithCovering words [upTo 0xffffffffffffffff] byteEach #v[0] =
      .ok layout := by
  have hsized : ∀ group ∈ byteEach.groups, group ≠ [] → ∃ field ∈ group, field.size ≠ 0 := by
    decide
  have hfits := choose_exact words [upTo 0xfffffffffffffffe] byteEach #v[0] hsized
  have hfull := choose_exact words [upTo 0xffffffffffffffff] byteEach #v[0] hsized
  have hinside : upTo 0xfffffffffffffffe ⊆ words.bounds := by decide
  have hplaceable : ∀ group ∈ byteEach.groups, ∀ field ∈ group, field.Placeable := by
    simp only [byteEach, List.forall_mem_singleton]
    exact ⟨by decide, by simp⟩
  have hsize : byteEach.totalSize (Rect.totalCount [upTo 0xfffffffffffffffe]) =
      0xffffffffffffffff := by decide +kernel
  constructor
  · obtain ⟨layout, hlayout⟩ := hfits.1.mpr ⟨by decide, List.forall_mem_singleton.mpr
      (Rect.subset_iff.mp hinside), hplaceable, by decide, by decide, by decide +kernel⟩
    refine ⟨layout, hlayout, UInt64.toNat_inj.mp ?_⟩
    rw [(hfits.2 layout hlayout).1, hsize]
    rfl
  · intro h
    have hlt := (hfull.1.mp h).2.2.2.2.2
    exact absurd hlt (by decide +kernel)

end RegionLayout
