import RegionLayout.Proofs.Placement.Placed

/-! # Fields within elements -/

namespace RegionLayout

variable {t : CoordType} {n : Nat}

/-- Two ranges of bytes, each given by its first byte and its size, have a byte in common. -/
def SharesByte (start size start' size' : Nat) : Prop :=
  ∃ byte, (start ≤ byte ∧ byte < start + size) ∧ start' ≤ byte ∧ byte < start' + size'

theorem FieldMap.Follows.isSome_fixedOffset {fields : FieldMap FieldSlot} {f f' : FieldSpec}
    {list size : Nat} {slot slot' : FieldSlot} (h : fields.Follows f f')
    (hf : fields.Holds list size f) (hslot : fields.get? f.id = some slot)
    (hslot' : fields.get? f'.id = some slot')
    (hshare : SharesByte slot.offset.toNat f.size.toNat slot'.offset.toNat f'.size.toNat) :
    f'.fixedOffset.isSome := by
  apply Decidable.byContradiction
  intro hnone
  obtain ⟨found, hfound, _, hsize, _⟩ := hf
  cases hslot.symm.trans hfound
  have hafter := h.2 (Option.not_isSome_iff_eq_none.mp hnone) slot slot' hslot hslot'
  rw [hsize] at hafter
  obtain ⟨byte, hin, hin'⟩ := hshare
  omega

/-- A field of a group at an element of the list of the group. -/
structure Cell (layout : Layout t n) (groups : List FieldGroup) where
  site : Site t n
  field : FieldSpec
  piece : Piece t n
  slot : FieldSlot
  grouped : ∃ group, groups[site.list]? = some group ∧ field ∈ group
  listed : ∃ pieces, layout.lists[site.list]? = some pieces ∧ pieces[site.piece]? = some piece
  held : site.point ∈ piece.bounds
  placed : layout.fields.get? field.id = some slot

namespace Cell

variable {layout : Layout t n} {groups : List FieldGroup}

/-- The first byte of the field, in wrapping arithmetic like all offsets. -/
def start (c : Cell layout groups) : Nat :=
  (c.piece.rule.offset c.site.point + c.slot.offset).toNat

theorem siteOffset?_eq (c : Cell layout groups) :
    siteOffset? layout.lists c.site = some (c.piece.rule.offset c.site.point).toNat := by
  obtain ⟨pieces, hpieces, hpiece⟩ := c.listed
  exact siteOffset?_eq_some.mpr ⟨pieces, c.piece, hpieces, hpiece, c.held, rfl⟩

variable {element : Nat → Nat} {rects : List (Rect t n)}

theorem stop_le (c : Cell layout groups)
    (h : Placed element rects groups layout.lists layout.fields layout.bytesUsed.toNat) :
    c.slot.size = c.field.size ∧ c.field.alignment.toNat ∣ c.slot.offset.toNat ∧
      c.slot.offset.toNat + c.field.size.toNat ≤ element c.site.list := by
  obtain ⟨group, hgroup, hmem⟩ := c.grouped
  obtain ⟨slot, hslot, _, hsize, hdvd, hstop⟩ := h.holds _ group hgroup c.field hmem
  cases c.placed.symm.trans hslot
  exact ⟨hsize, hdvd, hsize ▸ hstop⟩

theorem start_eq (c : Cell layout groups)
    (h : Placed element rects groups layout.lists layout.fields layout.bytesUsed.toNat) :
    c.start = (c.piece.rule.offset c.site.point).toNat + c.slot.offset.toNat := by
  have hinside := h.elements.inside _ _ c.siteOffset?_eq
  have hstop := (c.stop_le h).2.2
  have hused := layout.bytesUsed.toNat_lt
  -- the field is inside the instance, so its offset in the element does not make the sum wrap
  rw [start, UInt64.toNat_add, Nat.mod_eq_of_lt (by omega)]

theorem start_add_size_le (c : Cell layout groups)
    (h : Placed element rects groups layout.lists layout.fields layout.bytesUsed.toNat) :
    c.start + c.field.size.toNat ≤ layout.bytesUsed.toNat := by
  have hinside := h.elements.inside _ _ c.siteOffset?_eq
  have hstop := (c.stop_le h).2.2
  rw [c.start_eq h]
  omega

theorem alignment_dvd_start (c : Cell layout groups)
    (h : Placed element rects groups layout.lists layout.fields layout.bytesUsed.toNat)
    (haligned : Aligned groups layout.lists layout.alignment.toNat) :
    c.field.alignment.toNat ∣ c.start := by
  obtain ⟨group, hgroup, hmem⟩ := c.grouped
  rw [c.start_eq h]
  exact Nat.dvd_add (haligned.multiples c.site group hgroup c.field hmem _ c.siteOffset?_eq)
    (c.stop_le h).2.1

/-- Fields with a byte in common are in one element, and have it in common there already. -/
theorem site_eq_of_sharesByte {c c' : Cell layout groups}
    (h : Placed element rects groups layout.lists layout.fields layout.bytesUsed.toNat)
    (hshare : SharesByte c.start c.field.size.toNat c'.start c'.field.size.toNat) :
    c.site = c'.site ∧ c.piece = c'.piece ∧
      SharesByte c.slot.offset.toNat c.field.size.toNat c'.slot.offset.toNat
        c'.field.size.toNat := by
  obtain ⟨byte, ⟨hlo, hhi⟩, hlo', hhi'⟩ := hshare
  rw [c.start_eq h] at hlo hhi
  rw [c'.start_eq h] at hlo' hhi'
  have hstop := (c.stop_le h).2.2
  have hstop' := (c'.stop_le h).2.2
  have hsite : c.site = c'.site := by
    apply Decidable.byContradiction
    intro hne
    have hapart := h.elements.apart _ _ _ _ c.siteOffset?_eq c'.siteOffset?_eq hne
    omega
  have hpiece : c.piece = c'.piece := by
    obtain ⟨pieces, hpieces, hfound⟩ := c.listed
    obtain ⟨pieces', hpieces', hfound'⟩ := c'.listed
    rw [← hsite] at hpieces' hfound'
    cases hpieces.symm.trans hpieces'
    exact Option.some.inj (hfound.symm.trans hfound')
  rw [← hsite, ← hpiece] at hlo' hhi'
  refine ⟨hsite, hpiece, byte - (c.piece.rule.offset c.site.point).toNat, ?_, ?_⟩
  · omega
  · omega

end Cell

/-- In a chosen layout each field of a group has a slot in the list of the group. At each of its
elements the field is inside the instance and aligned, as is the instance. Two of these share a
byte only within one element, and only if the fields share one there, which takes a fixed offset of
the later field of the group. -/
theorem cells_of_choose (space : IndexSpace t n) (covering : List (Rect t n))
    (constraints : Constraints) (order : Vector UInt64 n) (layout : Layout t n)
    (h : Layout.chooseWithCovering space covering constraints order = .ok layout) :
    (∀ (i : Nat) (group : FieldGroup), constraints.groups[i]? = some group → ∀ f ∈ group,
      ∃ slot, layout.fields.get? f.id = some slot ∧ slot.list = UInt64.ofNat i ∧
        slot.size = f.size) ∧
    (∀ id slot, layout.fields.get? id = some slot →
      ∃ group ∈ constraints.groups, ∃ f ∈ group, f.id = id) ∧
    (∀ c : Cell layout constraints.groups,
      c.start + c.field.size.toNat ≤ layout.bytesUsed.toNat ∧
        c.field.alignment.toNat ∣ c.start ∧
        c.field.alignment.toNat ∣ layout.alignment.toNat) ∧
    (∀ c c' : Cell layout constraints.groups, (c.site, c.field) ≠ (c'.site, c'.field) →
      SharesByte c.start c.field.size.toNat c'.start c'.field.size.toNat →
        c.site = c'.site ∧ c.piece = c'.piece ∧
          SharesByte c.slot.offset.toNat c.field.size.toNat c'.slot.offset.toNat
            c'.field.size.toNat) ∧
    ∀ group ∈ constraints.groups, group.Pairwise fun f f' => ∀ slot slot',
      layout.fields.get? f.id = some slot → layout.fields.get? f'.id = some slot' →
        SharesByte slot.offset.toNat f.size.toNat slot'.offset.toNat f'.size.toNat →
          f'.fixedOffset.isSome := by
  obtain ⟨element, hplaced⟩ := Layout.placed_of_choose h
  have haligned := Layout.aligned_of_choose h
  refine ⟨?_, ?_, ?_, ?_, ?_⟩
  · intro i group hgroup f hf
    obtain ⟨slot, hslot, hlist, hsize, _⟩ := hplaced.holds i group hgroup f hf
    exact ⟨slot, hslot, hlist, hsize⟩
  · intro id slot hslot
    obtain ⟨i, group, hgroup, hmem⟩ := hplaced.known id slot hslot
    exact ⟨group, List.mem_of_getElem? hgroup, hmem⟩
  · intro c
    obtain ⟨group, hgroup, hmem⟩ := c.grouped
    exact ⟨c.start_add_size_le hplaced, c.alignment_dvd_start hplaced haligned,
      haligned.divides _ group hgroup c.field hmem⟩
  · intro c c' _ hshare
    exact Cell.site_eq_of_sharesByte hplaced hshare
  · intro group hgroup
    obtain ⟨i, hi⟩ := List.getElem?_of_mem hgroup
    refine (hplaced.follows i group hi).imp_of_mem ?_
    intro f f' hf _ hfollows slot slot' hslot hslot' hshare
    exact hfollows.isSome_fixedOffset (hplaced.holds i group hi f hf) hslot hslot' hshare

def mark (x : Int) : Point .i64 1 := Point.splat 1 (Coord.wrap .i64 x)

/-- The second field is the upper half of the first one, by its fixed offset. -/
def unitedGroups : List FieldGroup :=
  [[FieldSpec.natural 1 4, ⟨2, some 2, 2, 2⟩], [FieldSpec.natural 3 8]]

/-- Two rectangles that overlap have elements of their own all the same. -/
def united : Layout .i64 1 where
  space := .dense ⟨mark (-4), mark 1⟩
  lists :=
    [[⟨⟨mark (-4), mark (-1)⟩, 16, .replicate 1 4⟩, ⟨⟨mark (-2), mark 1⟩, 24, .replicate 1 4⟩],
      [⟨⟨mark (-4), mark (-1)⟩, 64, .replicate 1 8⟩, ⟨⟨mark (-2), mark 1⟩, 80, .replicate 1 8⟩]]
  fields := FieldMap.ofList [(1, ⟨0, 0, 4⟩), (2, ⟨0, 2, 2⟩), (3, ⟨1, 0, 8⟩)]
  bytesUsed := 96
  alignment := 8

theorem cells_of_choose_united :
    Layout.chooseWithCovering (.dense ⟨mark (-4), mark 1⟩)
        [⟨mark (-4), mark (-1)⟩, ⟨mark (-2), mark 1⟩] ⟨unitedGroups⟩ #v[0] = .ok united ∧
      (∀ c : Cell united unitedGroups, c.start + c.field.size.toNat ≤ 96 ∧
        c.field.alignment.toNat ∣ c.start ∧ c.field.alignment.toNat ∣ 8) ∧
      ∀ c c' : Cell united unitedGroups, c.site.piece ≠ c'.site.piece →
        ¬ SharesByte c.start c.field.size.toNat c'.start c'.field.size.toNat := by
  have hchoose : Layout.chooseWithCovering (.dense ⟨mark (-4), mark 1⟩)
      [⟨mark (-4), mark (-1)⟩, ⟨mark (-2), mark 1⟩] ⟨unitedGroups⟩ #v[0] = .ok united :=
    toOption_eq_some.mp (by decide +kernel)
  obtain ⟨_, _, hinside, hapart, _⟩ := cells_of_choose _ _ ⟨unitedGroups⟩ _ united hchoose
  refine ⟨hchoose, hinside, fun c c' hpiece hshare => ?_⟩
  have hne : (c.site, c.field) ≠ (c'.site, c'.field) := fun heq =>
    hpiece (congrArg (fun pair => pair.1.piece) heq)
  exact hpiece (congrArg Site.piece (hapart c c' hne hshare).1)

end RegionLayout
