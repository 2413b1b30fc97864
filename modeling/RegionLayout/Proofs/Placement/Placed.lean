import RegionLayout.Proofs.Placement.Blocks
import RegionLayout.Proofs.Placement.Fields

namespace RegionLayout

variable {t : CoordType} {n : Nat}

/-- A field without a fixed offset starts after the bytes of the field before it. -/
def FieldMap.Follows (fields : FieldMap FieldSlot) (f g : FieldSpec) : Prop :=
  f.id ≠ g.id ∧ (g.fixedOffset = none → ∀ slot slot', fields.get? f.id = some slot →
    fields.get? g.id = some slot' → slot.offset.toNat + slot.size.toNat ≤ slot'.offset.toNat)

/-- The field has an aligned slot in the numbered list, within the first `size` bytes of an
element. -/
def FieldMap.Holds (fields : FieldMap FieldSlot) (list size : Nat) (f : FieldSpec) : Prop :=
  ∃ slot, fields.get? f.id = some slot ∧ slot.list = UInt64.ofNat list ∧ slot.size = f.size ∧
    f.alignment.toNat ∣ slot.offset.toNat ∧ slot.offset.toNat + slot.size.toNat ≤ size

namespace FieldMap

variable {fields fields' : FieldMap FieldSlot} {list size size' : Nat} {f : FieldSpec}
  {group : FieldGroup}

theorem Holds.extend (h : fields.Holds list size f) (hle : size ≤ size')
    (hkeep : ∀ id slot, fields.get? id = some slot → fields'.get? id = some slot) :
    fields'.Holds list size' f := by
  obtain ⟨slot, hslot, hlist, hsame, hdvd, hstop⟩ := h
  exact ⟨slot, hkeep _ _ hslot, hlist, hsame, hdvd, Nat.le_trans hstop hle⟩

theorem follows_extend (h : group.Pairwise fields.Follows)
    (hholds : ∀ f ∈ group, fields.Holds list size f)
    (hkeep : ∀ id slot, fields.get? id = some slot → fields'.get? id = some slot) :
    group.Pairwise fields'.Follows := by
  refine h.imp_of_mem fun {f g} hf hg hfollows => ⟨hfollows.1, ?_⟩
  obtain ⟨slot, hslot, _⟩ := hholds f hf
  obtain ⟨slot', hslot', _⟩ := hholds g hg
  rw [hkeep _ _ hslot, hkeep _ _ hslot', ← hslot, ← hslot']
  exact hfollows.2

end FieldMap

namespace ElementPlan

variable {list : Nat} {before : FieldMap FieldSlot} {done : List FieldSpec}
  {plan plan' : ElementPlan} {field : FieldSpec}

/-- What holds of an element after the fields of `done` were placed. -/
structure Sound (list : Nat) (before : FieldMap FieldSlot) (done : List FieldSpec)
    (plan : ElementPlan) : Prop where
  size_lt : plan.size < wordLimit
  power : IsPowerOfTwo plan.alignment
  alignment_lt : plan.alignment < wordLimit
  divides : ∀ f ∈ done, f.alignment.toNat ∣ plan.alignment
  holds : ∀ f ∈ done, plan.fields.Holds list plan.size f
  follows : done.Pairwise plan.fields.Follows
  fresh : ∀ f ∈ done, before.get? f.id = none
  kept : ∀ id, plan.fields.get? id = before.get? id ∨ ∃ f ∈ done, f.id = id

theorem sound_start (list : Nat) (before : FieldMap FieldSlot) :
    Sound list before [] ⟨0, 1, before⟩ where
  size_lt := show 0 < wordLimit by decide
  power := show IsPowerOfTwo 1 by decide
  alignment_lt := show 1 < wordLimit by decide
  divides := by simp
  holds := by simp
  follows := .nil
  fresh := by simp
  kept := fun _ => .inl rfl

theorem sound_place (hplan : Sound list before done plan)
    (h : place list plan field = .ok plan') : Sound list before (done ++ [field]) plan' := by
  have hplace := succeedsIff_place list plan field
  obtain ⟨hfield, hstop, hnew⟩ := hplace.exists_iff.mp ⟨plan', h⟩
  obtain rfl := hplace.of_ok plan' h
  have hne : ∀ f ∈ done, f.id ≠ field.id := by
    intro f hf heq
    obtain ⟨slot, hslot, _⟩ := hplan.holds f hf
    rw [heq, hnew] at hslot
    contradiction
  let slot : FieldSlot :=
    ⟨UInt64.ofNat list, UInt64.ofNat (field.startAfter plan.size), field.size⟩
  have hoffset : slot.offset.toNat = field.startAfter plan.size :=
    UInt64.toNat_ofNat_of_lt' (Nat.lt_of_le_of_lt (Nat.le_add_right _ _) hstop)
  have hstart : field.alignment.toNat ∣ field.startAfter plan.size := hfield.dvd_startAfter _
  have hpower := hfield.power
  have hself := plan.fields.get?_insert_self field.id slot
  have hkeep : ∀ id slot', plan.fields.get? id = some slot' →
      (plan.fields.insert field.id slot).get? id = some slot' :=
    fun _ _ => FieldMap.get?_insert_of_new hnew
  refine {
    size_lt := Nat.max_lt.mpr ⟨hplan.size_lt, hstop⟩
    power := hplan.power.max hpower
    alignment_lt := Nat.max_lt.mpr ⟨hplan.alignment_lt, field.alignment.toNat_lt⟩
    divides := List.forall_mem_append.mpr ⟨fun f hf => ?olddivides,
      List.forall_mem_singleton.mpr (hplan.power.dvd_max_right hpower)⟩
    holds := List.forall_mem_append.mpr ⟨fun f hf => ?oldholds,
      List.forall_mem_singleton.mpr ⟨slot, hself, rfl, rfl, hoffset.symm ▸ hstart, ?inside⟩⟩
    follows := List.pairwise_append.mpr ⟨?oldfollows, List.pairwise_singleton _ _,
      fun f hf => List.forall_mem_singleton.mpr ⟨hne f hf, ?follows⟩⟩
    fresh := List.forall_mem_append.mpr ⟨hplan.fresh, List.forall_mem_singleton.mpr ?fresh⟩
    kept := fun id => ?kept }
  case olddivides => exact Nat.dvd_trans (hplan.divides f hf) (hplan.power.dvd_max_left hpower)
  case oldholds => exact (hplan.holds f hf).extend (Nat.le_max_left _ _) hkeep
  case inside =>
    rw [hoffset]
    exact Nat.le_max_right _ _
  case oldfollows => exact FieldMap.follows_extend hplan.follows hplan.holds hkeep
  case follows =>
    intro hnone old slot' hold hslot'
    obtain ⟨old', hold', _, _, _, hle⟩ := hplan.holds f hf
    cases (hkeep _ _ hold').symm.trans hold
    cases hself.symm.trans hslot'
    rw [hoffset]
    exact Nat.le_trans hle (hfield.le_startAfter hnone _)
  case fresh =>
    rcases hplan.kept field.id with hkept | ⟨g, hg, hid⟩
    · rw [← hkept, hnew]
    · exact absurd hid (hne g hg)
  case kept =>
    by_cases hid : id = field.id
    · exact .inr ⟨field, List.mem_append_right _ (List.mem_singleton_self _), hid.symm⟩
    · rcases hplan.kept id with hkept | ⟨f, hf, hfid⟩
      · refine .inl ?_
        rw [← hkept]
        exact (FieldMap.get?_insert ..).trans (if_neg hid)
      · exact .inr ⟨f, List.mem_append_left _ hf, hfid⟩

end ElementPlan

/-- The piece lists and the slots of the fields belong to the groups, in order: the list of a group
covers the rectangles, and its fields are in the elements of that list. -/
structure Placed (element : Nat → Nat) (rects : List (Rect t n)) (groups : List FieldGroup)
    (lists : List (PieceList t n)) (fields : FieldMap FieldSlot) (used : Nat) : Prop where
  length_eq : lists.length = groups.length
  elements : ElementsApart element used lists
  covers : ∀ (i : Nat) (group : FieldGroup), groups[i]? = some group → group ≠ [] →
    ∃ pieces : PieceList t n, lists[i]? = some pieces ∧ List.map Piece.bounds pieces = rects
  holds : ∀ (i : Nat) (group : FieldGroup), groups[i]? = some group →
    ∀ f ∈ group, fields.Holds i (element i) f
  follows : ∀ (i : Nat) (group : FieldGroup), groups[i]? = some group →
    group.Pairwise fields.Follows
  known : ∀ id slot, fields.get? id = some slot →
    ∃ (i : Nat) (group : FieldGroup), groups[i]? = some group ∧ ∃ f ∈ group, f.id = id

/-- The alignments of the fields divide that of the instance and the offsets of their elements. -/
structure Aligned (groups : List FieldGroup) (lists : List (PieceList t n)) (alignment : Nat) :
    Prop where
  power : IsPowerOfTwo alignment
  lt : alignment < wordLimit
  divides : ∀ (i : Nat) (group : FieldGroup), groups[i]? = some group →
    ∀ f ∈ group, f.alignment.toNat ∣ alignment
  multiples : ∀ (site : Site t n) (group : FieldGroup), groups[site.list]? = some group →
    ∀ f ∈ group, ∀ offset, siteOffset? lists site = some offset → f.alignment.toNat ∣ offset

namespace InstancePlan

variable {order : List (Fin n)} {covering : List (Rect t n)} {plan plan' : InstancePlan t n}
  {group : FieldGroup} {done : List FieldGroup}

/-- What placing a group adds to an instance: a list of pieces with elements of the given size. A
group without fields has an element of no bytes and no pieces, and is like the others in everything
else. -/
structure Grows (rects : List (Rect t n)) (group : FieldGroup) (element : ElementPlan) (size : Nat)
    (pieces : PieceList t n) (plan plan' : InstancePlan t n) : Prop where
  sound : ElementPlan.Sound plan.lists.length plan.fields group element
  size_le : element.size ≤ size
  lists_eq : plan'.lists = plan.lists ++ [pieces]
  fields_eq : plan'.fields = element.fields
  alignment_eq : plan'.alignment = max plan.alignment element.alignment
  used_le : plan.bytesUsed ≤ plan'.bytesUsed
  used_lt : plan'.bytesUsed < wordLimit
  packs : PieceList.Packs size plan.bytesUsed plan'.bytesUsed pieces
  multiples : ∀ q ∈ pieces, ∀ p ∈ q.bounds, element.alignment ∣ (q.rule.offset p).toNat
  covers : group ≠ [] → List.map Piece.bounds pieces = rects

theorem grows_of_placeGroup (horder : order.Perm (List.finRange n))
    (hused : plan.bytesUsed < wordLimit) (halignment : 0 < plan.alignment)
    (h : placeGroup order covering plan group = .ok plan') :
    ∃ element size pieces, Grows (covering.filter fun r => ¬ r.IsEmpty) group element size pieces
      plan plan' := by
  rw [placeGroup] at h
  obtain ⟨element, helement, h⟩ := bind_eq_ok.mp h
  have hsound : ElementPlan.Sound plan.lists.length plan.fields group element :=
    foldlM_invariant (ElementPlan.Sound plan.lists.length plan.fields)
      (fun _ _ _ _ => ElementPlan.sound_place) (ElementPlan.sound_start _ _) helement
  split at h
  case isTrue hempty =>
    have hnil := List.isEmpty_iff.mp hempty
    rw [hnil, List.foldlM_nil, pure_eq_ok] at helement
    subst helement
    rw [pure_eq_ok] at h
    subst h
    exact ⟨_, 0, [], {
      sound := hsound
      size_le := Nat.le_refl _
      lists_eq := rfl
      fields_eq := rfl
      alignment_eq := (Nat.max_eq_left halignment).symm
      used_le := Nat.le_refl _
      used_lt := hused
      packs := ⟨by simp, .nil⟩
      multiples := by simp
      covers := fun hne => absurd hnil hne }⟩
  case isFalse =>
    obtain ⟨size, hsize, h⟩ := bind_eq_ok.mp h
    obtain ⟨rfl, hsize_lt⟩ := checkedSize_eq_ok hsize
    obtain ⟨⟨pieces, used⟩, hpieces, h⟩ := bind_eq_ok.mp h
    rw [pure_eq_ok] at h
    subst h
    obtain ⟨hbounds, hle, hlt, hpacks⟩ :=
      placeRects_eq_ok horder hsize_lt hsound.power.pos hused hpieces
    exact ⟨element, _, pieces, {
      sound := hsound
      size_le := le_roundUp hsound.power.pos _
      lists_eq := rfl
      fields_eq := rfl
      alignment_eq := rfl
      used_le := hle
      used_lt := hlt
      packs := hpacks
      multiples := dvd_of_placeRects horder hsize_lt (dvd_roundUp _ _) hpieces
      covers := fun _ => hbounds }⟩

end InstancePlan

section Grown

variable {plan plan' : InstancePlan t n} {group : FieldGroup} {done : List FieldGroup}
  {rects : List (Rect t n)} {element : ElementPlan} {size : Nat} {pieces : PieceList t n}
  {elementOf : Nat → Nat}

theorem Placed.grow
    (hplaced : Placed elementOf rects done plan.lists plan.fields plan.bytesUsed)
    (h : InstancePlan.Grows rects group element size pieces plan plan') :
    Placed (fun i => if i = done.length then size else elementOf i) rects (done ++ [group])
      plan'.lists plan'.fields plan'.bytesUsed := by
  have hkeep : ∀ id slot, plan.fields.get? id = some slot →
      plan'.fields.get? id = some slot := by
    intro id slot hslot
    rcases h.sound.kept id with hkept | ⟨f, hf, rfl⟩
    · rw [h.fields_eq, hkept, hslot]
    · rw [h.sound.fresh f hf] at hslot
      contradiction
  refine ⟨?_, ?_, ?_, ?_, ?_, ?_⟩
  · rw [h.lists_eq, List.length_append, List.length_append, hplaced.length_eq]
    rfl
  · rw [h.lists_eq]
    refine hplaced.elements.append h.used_le ?_ fun i hi => ?_
    · rw [if_pos hplaced.length_eq]
      exact h.packs
    · rw [if_neg (hplaced.length_eq ▸ Nat.ne_of_lt hi)]
  · intro i g hg hne
    rw [h.lists_eq]
    rcases getElem?_concat_eq_some hg with ⟨hi, hg⟩ | ⟨rfl, rfl⟩
    · obtain ⟨pieces', hpieces', hcovers⟩ := hplaced.covers i g hg hne
      refine ⟨pieces', ?_, hcovers⟩
      rw [List.getElem?_append_left (hplaced.length_eq ▸ hi), hpieces']
    · refine ⟨pieces, ?_, h.covers hne⟩
      rw [← hplaced.length_eq, List.getElem?_concat_length]
  · intro i g hg f hf
    rcases getElem?_concat_eq_some hg with ⟨hi, hg⟩ | ⟨rfl, rfl⟩
    · rw [if_neg (Nat.ne_of_lt hi)]
      exact (hplaced.holds i g hg f hf).extend (Nat.le_refl _) hkeep
    · rw [if_pos rfl, ← hplaced.length_eq]
      refine (h.sound.holds f hf).extend h.size_le fun id slot hslot => ?_
      rw [h.fields_eq, hslot]
  · intro i g hg
    rcases getElem?_concat_eq_some hg with ⟨_, hg⟩ | ⟨_, rfl⟩
    · exact FieldMap.follows_extend (hplaced.follows i g hg) (hplaced.holds i g hg) hkeep
    · rw [h.fields_eq]
      exact h.sound.follows
  · intro id slot hslot
    rw [h.fields_eq] at hslot
    rcases h.sound.kept id with hkept | ⟨f, hf, hid⟩
    · rw [hkept] at hslot
      obtain ⟨i, g, hg, hmem⟩ := hplaced.known id slot hslot
      refine ⟨i, g, ?_, hmem⟩
      rw [List.getElem?_append_left (List.getElem?_eq_some_iff.mp hg).1, hg]
    · exact ⟨done.length, group, List.getElem?_concat_length, f, hf, hid⟩

theorem Aligned.grow (haligned : Aligned done plan.lists plan.alignment)
    (hlength : plan.lists.length = done.length)
    (h : InstancePlan.Grows rects group element size pieces plan plan') :
    Aligned (done ++ [group]) plan'.lists plan'.alignment := by
  have hpower := h.sound.power
  rw [h.lists_eq, h.alignment_eq]
  refine ⟨haligned.power.max hpower, ?_, ?_, ?_⟩
  · exact Nat.max_lt.mpr ⟨haligned.lt, h.sound.alignment_lt⟩
  · intro i g hg f hf
    rcases getElem?_concat_eq_some hg with ⟨_, hg⟩ | ⟨_, rfl⟩
    · exact Nat.dvd_trans (haligned.divides i g hg f hf) (haligned.power.dvd_max_left hpower)
    · exact Nat.dvd_trans (h.sound.divides f hf) (haligned.power.dvd_max_right hpower)
  · intro site g hg f hf offset hoffset
    obtain ⟨found, q, hfound, hq, hp, rfl⟩ := siteOffset?_eq_some.mp hoffset
    rcases getElem?_concat_eq_some hg with ⟨hi, hg⟩ | ⟨hi, rfl⟩
    · rw [List.getElem?_append_left (hlength ▸ hi)] at hfound
      exact haligned.multiples site g hg f hf _
        (siteOffset?_eq_some.mpr ⟨found, q, hfound, hq, hp, rfl⟩)
    · rw [hi, ← hlength, List.getElem?_concat_length, Option.some.injEq] at hfound
      subst hfound
      exact Nat.dvd_trans (h.sound.divides f hf)
        (h.multiples q (List.mem_of_getElem? hq) _ hp)

end Grown

namespace InstancePlan

variable {order : List (Fin n)} {covering : List (Rect t n)} {plan plan' : InstancePlan t n}
  {group : FieldGroup} {done : List FieldGroup}

/-- What holds of an instance after the groups of `done` were placed. -/
structure Sound (rects : List (Rect t n)) (done : List FieldGroup) (plan : InstancePlan t n) :
    Prop where
  used_lt : plan.bytesUsed < wordLimit
  placed : ∃ element, Placed element rects done plan.lists plan.fields plan.bytesUsed
  aligned : Aligned done plan.lists plan.alignment

theorem sound_start (rects : List (Rect t n)) : Sound rects [] (start t n) := by
  refine ⟨show 0 < wordLimit by decide, ⟨fun _ => 0, ?_⟩, ?_⟩
  · refine ⟨rfl, ElementsApart.nil _ _, ?_, ?_, ?_, ?_⟩
    · simp
    · simp
    · simp
    · intro id slot h
      rw [start, FieldMap.get?_empty] at h
      contradiction
  · refine ⟨show IsPowerOfTwo 1 by decide, show 1 < wordLimit by decide, ?_, ?_⟩
    · simp
    · simp

theorem sound_placeGroup (horder : order.Perm (List.finRange n))
    (hplan : Sound (covering.filter fun r => ¬ r.IsEmpty) done plan)
    (h : placeGroup order covering plan group = .ok plan') :
    Sound (covering.filter fun r => ¬ r.IsEmpty) (done ++ [group]) plan' := by
  obtain ⟨elementOf, hplaced⟩ := hplan.placed
  obtain ⟨element, size, pieces, hgrows⟩ :=
    grows_of_placeGroup horder hplan.used_lt hplan.aligned.power.pos h
  exact ⟨hgrows.used_lt, ⟨_, hplaced.grow hgrows⟩,
    hplan.aligned.grow hplaced.length_eq hgrows⟩

end InstancePlan

namespace Layout

variable {space : IndexSpace t n} {covering : List (Rect t n)} {constraints : Constraints}
  {order : Vector UInt64 n} {layout : Layout t n}

theorem groups_of_choose (h : chooseWithCovering space covering constraints order = .ok layout) :
    ∃ (dims : List (Fin n)) (plan : InstancePlan t n), permutation? order = some dims ∧
      constraints.groups.foldlM (InstancePlan.placeGroup dims covering)
        (InstancePlan.start t n) = .ok plan ∧
      layout = ⟨space, plan.lists, plan.fields, UInt64.ofNat plan.bytesUsed,
        UInt64.ofNat plan.alignment⟩ := by
  rw [chooseWithCovering] at h
  split at h
  case h_2 => contradiction
  case h_1 dims hdims =>
    obtain ⟨_, hsame, h⟩ := bind_eq_ok.mp h
    cases hsame
    dsimp only at h
    split at h
    case h_1 => contradiction
    case h_2 =>
      obtain ⟨plan, hplan, h⟩ := bind_eq_ok.mp h
      rw [pure_eq_ok] at h
      exact ⟨dims, plan, hdims, hplan, h.symm⟩

theorem plan_of_choose (h : chooseWithCovering space covering constraints order = .ok layout) :
    ∃ plan : InstancePlan t n, layout.lists = plan.lists ∧ layout.fields = plan.fields ∧
      layout.bytesUsed.toNat = plan.bytesUsed ∧ layout.alignment.toNat = plan.alignment ∧
      InstancePlan.Sound (covering.filter fun r => ¬ r.IsEmpty) constraints.groups plan := by
  obtain ⟨dims, plan, hdims, hplan, rfl⟩ := groups_of_choose h
  have hsound := foldlM_invariant
    (InstancePlan.Sound (covering.filter fun r => ¬ r.IsEmpty))
    (fun _ _ _ _ => InstancePlan.sound_placeGroup (permutation?_eq_some hdims))
    (InstancePlan.sound_start _) hplan
  exact ⟨plan, rfl, rfl, UInt64.toNat_ofNat_of_lt' hsound.used_lt,
    UInt64.toNat_ofNat_of_lt' hsound.aligned.lt, hsound⟩

theorem placed_of_choose
    (h : chooseWithCovering space covering constraints order = .ok layout) :
    ∃ element, Placed element (covering.filter fun r => ¬ r.IsEmpty) constraints.groups
      layout.lists layout.fields layout.bytesUsed.toNat := by
  obtain ⟨plan, hlists, hfields, hused, _, hsound⟩ := plan_of_choose h
  rw [hlists, hfields, hused]
  exact hsound.placed

theorem aligned_of_choose
    (h : chooseWithCovering space covering constraints order = .ok layout) :
    Aligned constraints.groups layout.lists layout.alignment.toNat := by
  obtain ⟨plan, hlists, _, _, halignment, hsound⟩ := plan_of_choose h
  rw [hlists, halignment]
  exact hsound.aligned

end Layout

end RegionLayout
