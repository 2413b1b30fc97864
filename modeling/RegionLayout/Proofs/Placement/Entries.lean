import RegionLayout.Proofs.Access.Resolution
import RegionLayout.Proofs.Placement.Placed

namespace RegionLayout

variable {t : CoordType} {n : Nat}

namespace Layout

/-- Where the bytes of a field begin at a point. -/
def entryStart? (layout : Layout t n) (id : FieldId) (p : Point t n) : Option Nat :=
  (layout.offset? id p).map UInt64.toNat

def fieldSize (layout : Layout t n) (id : FieldId) : Nat :=
  match layout.fields.get? id with
  | some slot => slot.size.toNat
  | none => 0

end Layout

theorem apart_of_follows {fields : FieldMap FieldSlot} {group : FieldGroup} {f f' : FieldSpec}
    {slot slot' : FieldSlot} (h : group.Pairwise fields.Follows)
    (hfree : ∀ f ∈ group, f.fixedOffset = none) (hf : f ∈ group) (hf' : f' ∈ group)
    (hne : f.id ≠ f'.id) (hslot : fields.get? f.id = some slot)
    (hslot' : fields.get? f'.id = some slot') :
    slot.offset.toNat + slot.size.toNat ≤ slot'.offset.toNat ∨
      slot'.offset.toNat + slot'.size.toNat ≤ slot.offset.toNat := by
  obtain ⟨i, hi, rfl⟩ := List.getElem_of_mem hf
  obtain ⟨j, hj, rfl⟩ := List.getElem_of_mem hf'
  have hpairs := List.pairwise_iff_getElem.mp h
  rcases Nat.lt_trichotomy i j with hlt | rfl | hgt
  · exact .inl ((hpairs i j hi hj hlt).2 (hfree _ hf') slot slot' hslot hslot')
  · exact absurd rfl hne
  · exact .inr ((hpairs j i hj hi hgt).2 (hfree _ hf) slot' slot hslot' hslot)

section Chosen

variable {layout : Layout t n} {element : Nat → Nat} {rects : List (Rect t n)}
  {groups : List FieldGroup}

/-- Every entry is inside the instance, and no two of them share a byte. -/
structure Layout.EntriesApart (layout : Layout t n) : Prop where
  inside : ∀ id p start, layout.entryStart? id p = some start →
    start + layout.fieldSize id ≤ layout.bytesUsed.toNat
  apart : ∀ id p start id' p' start', layout.entryStart? id p = some start →
    layout.entryStart? id' p' = some start' → (id, p) ≠ (id', p') →
      start + layout.fieldSize id ≤ start' ∨ start' + layout.fieldSize id' ≤ start

/-- The facts about a field of a placed layout, with the number of its group. -/
structure FieldPlaced (layout : Layout t n) (element : Nat → Nat) (rects : List (Rect t n))
    (groups : List FieldGroup) (id : FieldId) (slot : FieldSlot) (pieces : PieceList t n)
    (i : Nat) : Prop where
  member : ∃ group, groups[i]? = some group ∧ ∃ f ∈ group, f.id = id
  slot_eq : layout.fields.get? id = some slot
  list_eq : layout.lists[i]? = some pieces
  covers : List.map Piece.bounds pieces = rects
  stop_le : slot.offset.toNat + slot.size.toNat ≤ element i

namespace Placed

variable (h : Placed element rects groups layout.lists layout.fields layout.bytesUsed.toNat)
  (hcount : groups.length ≤ wordLimit)

include h hcount

theorem field_at {i : Nat} {group : FieldGroup} {f : FieldSpec} (hgroup : groups[i]? = some group)
    (hf : f ∈ group) :
    ∃ slot pieces, layout.field? f.id = some (slot, pieces) ∧ slot.size = f.size ∧
      FieldPlaced layout element rects groups f.id slot pieces i := by
  obtain ⟨slot, hslot, hlist, hsize, _, hstop⟩ := h.holds i group hgroup f hf
  obtain ⟨pieces, hpieces, hcovers⟩ := h.covers i group hgroup (List.ne_nil_of_mem hf)
  have hi : i < wordLimit :=
    Nat.lt_of_lt_of_le (List.getElem?_eq_some_iff.mp hgroup).1 hcount
  have hindex : layout.list? slot.list = some pieces := by
    rw [Layout.list?, hlist, UInt64.toNat_ofNat_of_lt' hi, hpieces]
  exact ⟨slot, pieces, field?_of_get? hslot hindex, hsize, ⟨group, hgroup, f, hf, rfl⟩, hslot,
    hpieces, hcovers, hstop⟩

theorem exists_field {id : FieldId} {slot : FieldSlot}
    (hslot : layout.fields.get? id = some slot) :
    ∃ pieces i, layout.field? id = some (slot, pieces) ∧
      FieldPlaced layout element rects groups id slot pieces i := by
  obtain ⟨i, group, hgroup, f, hf, rfl⟩ := h.known id slot hslot
  obtain ⟨slot', pieces, hfield, _, hplaced⟩ := h.field_at hcount hgroup hf
  cases hslot.symm.trans hplaced.slot_eq
  exact ⟨pieces, i, hfield, hplaced⟩

theorem entryStart?_eq_some {id : FieldId} {p : Point t n} {start : Nat}
    (hentry : layout.entryStart? id p = some start) :
    ∃ slot pieces i q, layout.field? id = some (slot, pieces) ∧
      FieldPlaced layout element rects groups id slot pieces i ∧
      PieceList.find? pieces p = some q ∧
      start = (q.rule.offset p).toNat + slot.offset.toNat ∧
      (q.rule.offset p).toNat + element i ≤ layout.bytesUsed.toNat := by
  obtain ⟨offset, hoffset, rfl⟩ := Option.map_eq_some_iff.mp hentry
  rw [Layout.offset?] at hoffset
  obtain ⟨⟨slot, pieces⟩, hfield, hoffset⟩ := Option.bind_eq_some_iff.mp hoffset
  obtain ⟨q, hfind, hoffset⟩ := Option.bind_eq_some_iff.mp hoffset
  cases hoffset
  obtain ⟨pieces', i, hfield', hplaced⟩ := h.exists_field hcount (get?_of_field? hfield).1
  cases hfield.symm.trans hfield'
  obtain ⟨hmem, hp⟩ := PieceList.mem_of_find? hfind
  obtain ⟨j, hj⟩ := List.getElem?_of_mem hmem
  have hsite : siteOffset? layout.lists ⟨i, j, p⟩ = some (q.rule.offset p).toNat :=
    siteOffset?_eq_some.mpr ⟨pieces, q, hplaced.list_eq, hj, hp, rfl⟩
  have hinside := h.elements.inside _ _ hsite
  refine ⟨slot, pieces, i, q, hfield, hplaced, hfind, ?_, hinside⟩
  have hstop := hplaced.stop_le
  have hlt : (q.rule.offset p).toNat + slot.offset.toNat < 2 ^ 64 := by
    have := layout.bytesUsed.toNat_lt
    dsimp only at hinside
    omega
  rw [UInt64.toNat_add, Nat.mod_eq_of_lt hlt]

theorem entriesApart (hfree : ∀ group ∈ groups, ∀ f ∈ group, f.fixedOffset = none) :
    layout.EntriesApart := by
  have hsize : ∀ {id : FieldId} {slot : FieldSlot}, layout.fields.get? id = some slot →
      layout.fieldSize id = slot.size.toNat := by
    intro id slot hslot
    rw [Layout.fieldSize, hslot]
  refine ⟨fun id p start hentry => ?_, fun id p start id' p' start' hentry hentry' hne => ?_⟩
  · obtain ⟨slot, pieces, i, q, _, hplaced, _, rfl, hinside⟩ := h.entryStart?_eq_some hcount hentry
    have hstop := hplaced.stop_le
    rw [hsize hplaced.slot_eq]
    omega
  · obtain ⟨slot, pieces, i, q, _, hplaced, hfind, rfl, _⟩ := h.entryStart?_eq_some hcount hentry
    obtain ⟨slot', pieces', i', q', _, hplaced', hfind', rfl, _⟩ :=
      h.entryStart?_eq_some hcount hentry'
    have hstop := hplaced.stop_le
    have hstop' := hplaced'.stop_le
    rw [hsize hplaced.slot_eq, hsize hplaced'.slot_eq]
    by_cases hsame : i = i' ∧ p = p'
    -- the same element: the fields are apart
    · obtain ⟨rfl, rfl⟩ := hsame
      cases hplaced.list_eq.symm.trans hplaced'.list_eq
      cases hfind.symm.trans hfind'
      obtain ⟨group, hgroup, f, hf, rfl⟩ := hplaced.member
      obtain ⟨group', hgroup', f', hf', rfl⟩ := hplaced'.member
      cases hgroup.symm.trans hgroup'
      have hid : f.id ≠ f'.id := fun heq => hne (by rw [heq])
      have hfields := apart_of_follows (h.follows i group hgroup)
        (hfree group (List.mem_of_getElem? hgroup)) hf hf' hid hplaced.slot_eq hplaced'.slot_eq
      omega
    -- different elements are apart, and hold their fields
    · obtain ⟨hmem, hp⟩ := PieceList.mem_of_find? hfind
      obtain ⟨hmem', hp'⟩ := PieceList.mem_of_find? hfind'
      obtain ⟨j, hj⟩ := List.getElem?_of_mem hmem
      obtain ⟨j', hj'⟩ := List.getElem?_of_mem hmem'
      have hsites : (⟨i, j, p⟩ : Site t n) ≠ ⟨i', j', p'⟩ := fun heq => by
        cases heq
        exact hsame ⟨rfl, rfl⟩
      have helements := h.elements.apart ⟨i, j, p⟩ ⟨i', j', p'⟩ _ _
        (siteOffset?_eq_some.mpr ⟨pieces, q, hplaced.list_eq, hj, hp, rfl⟩)
        (siteOffset?_eq_some.mpr ⟨pieces', q', hplaced'.list_eq, hj', hp', rfl⟩) hsites
      dsimp only at helements
      omega

end Placed

end Chosen

namespace Layout

variable {space : IndexSpace t n} {covering : List (Rect t n)} {constraints : Constraints}
  {order : Vector UInt64 n} {layout : Layout t n} {id : FieldId} {slot : FieldSlot}
  {pieces : PieceList t n}

theorem entriesApart_of_choose
    (h : chooseWithCovering space covering constraints order = .ok layout)
    (hcount : constraints.groups.length ≤ wordLimit)
    (hfree : ∀ group ∈ constraints.groups, ∀ f ∈ group, f.fixedOffset = none) :
    layout.EntriesApart := by
  obtain ⟨element, hplaced⟩ := placed_of_choose h
  exact hplaced.entriesApart hcount hfree

theorem bounds_of_choose
    (h : chooseWithCovering space covering constraints order = .ok layout)
    (hcount : constraints.groups.length ≤ wordLimit)
    (hfield : layout.field? id = some (slot, pieces)) :
    List.map Piece.bounds pieces = covering.filter fun r => ¬ r.IsEmpty := by
  obtain ⟨element, hplaced⟩ := placed_of_choose h
  obtain ⟨pieces', i, hfield', hfound⟩ := hplaced.exists_field hcount (get?_of_field? hfield).1
  cases hfield.symm.trans hfield'
  exact hfound.covers

theorem fieldSize_of_choose
    (h : chooseWithCovering space covering constraints order = .ok layout) {group : FieldGroup}
    {f : FieldSpec} (hgroup : group ∈ constraints.groups) (hf : f ∈ group) :
    layout.fieldSize f.id = f.size.toNat := by
  obtain ⟨element, hplaced⟩ := placed_of_choose h
  obtain ⟨i, hi⟩ := List.getElem?_of_mem hgroup
  obtain ⟨slot, hslot, _, hsize, _⟩ := hplaced.holds i group hi f hf
  rw [fieldSize, hslot, ← hsize]

/-- Every point of a covering rectangle has an entry for each field. -/
theorem entry_of_covered
    (h : chooseWithCovering space covering constraints order = .ok layout)
    (hcount : constraints.groups.length ≤ wordLimit)
    (hfield : layout.field? id = some (slot, pieces)) {p : Point t n}
    (hp : ∃ r ∈ covering, p ∈ r) : ∃ start, layout.entryStart? id p = some start := by
  obtain ⟨r, hr, hpr⟩ := hp
  have hbounds := bounds_of_choose h hcount hfield
  have hmem : r ∈ List.map Piece.bounds pieces := by
    rw [hbounds]
    refine List.mem_filter.mpr ⟨hr, decide_eq_true fun hempty => ?_⟩
    exact Rect.not_mem_of_isEmpty hempty hpr
  obtain ⟨q, hq, rfl⟩ := List.mem_map.mp hmem
  cases hfind : PieceList.find? pieces p with
  | none => exact absurd (decide_eq_true hpr) (List.find?_eq_none.mp hfind q hq)
  | some found =>
    refine ⟨(found.rule.offset p + slot.offset).toNat, ?_⟩
    simp [entryStart?, offset?, hfield, hfind]

end Layout

end RegionLayout
