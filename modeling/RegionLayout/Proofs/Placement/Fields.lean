import RegionLayout.Proofs.FieldMap
import RegionLayout.Proofs.Placement.Alignment

/-!
# Fields of an element

An element only ever grows, so no byte on the way is out of range if the last one is not. Where a
field starts therefore follows from the fields before it in unbounded numbers.
-/

namespace RegionLayout

namespace FieldSpec

/-- The alignment is a power of two, and a fixed offset is a multiple of it. -/
structure Placeable (field : FieldSpec) : Prop where
  power : IsPowerOfTwo field.alignment.toNat
  multiple : ∀ offset, field.fixedOffset = some offset → field.alignment.toNat ∣ offset.toNat

/-- Where the field starts in an element that has `used` bytes before it. -/
def startAfter (field : FieldSpec) (used : Nat) : Nat :=
  match field.fixedOffset with
  | some offset => offset.toNat
  | none => roundUp used field.alignment.toNat

def stopAfter (field : FieldSpec) (used : Nat) : Nat := field.startAfter used + field.size.toNat

variable {field : FieldSpec}

theorem Placeable.dvd_startAfter (h : field.Placeable) (used : Nat) :
    field.alignment.toNat ∣ field.startAfter used := by
  rw [startAfter]
  split
  case h_1 offset hfixed => exact h.multiple offset hfixed
  case h_2 => exact dvd_roundUp _ _

theorem Placeable.le_startAfter (h : field.Placeable) (hfree : field.fixedOffset = none)
    (used : Nat) : used ≤ field.startAfter used := by
  rw [startAfter, hfree]
  exact le_roundUp h.power.pos used

end FieldSpec

namespace FieldGroup

/-- The bytes of an element of `used` bytes once the fields of the group are in it. -/
def bytesFrom (used : Nat) (group : FieldGroup) : Nat :=
  group.foldl (fun used field => max used (field.stopAfter used)) used

def alignmentFrom (alignment : Nat) (group : FieldGroup) : Nat :=
  group.foldl (fun alignment field => max alignment field.alignment.toNat) alignment

/-- The largest alignment of a field. -/
def alignment (group : FieldGroup) : Nat := group.alignmentFrom 1

/-- The bytes of an element, rounded up to its alignment. -/
def elementSize (group : FieldGroup) : Nat := roundUp (group.bytesFrom 0) group.alignment

theorem bytesFrom_cons (used : Nat) (field : FieldSpec) (group : FieldGroup) :
    bytesFrom used (field :: group) = bytesFrom (max used (field.stopAfter used)) group := rfl

theorem le_bytesFrom (used : Nat) (group : FieldGroup) : used ≤ group.bytesFrom used := by
  induction group generalizing used with
  | nil => exact Nat.le_refl _
  | cons field group ih => exact Nat.le_trans (Nat.le_max_left _ _) (ih _)

theorem size_le_bytesFrom {group : FieldGroup} {field : FieldSpec} (h : field ∈ group)
    (used : Nat) : field.size.toNat ≤ group.bytesFrom used := by
  induction group generalizing used with
  | nil => contradiction
  | cons first group ih =>
    rw [bytesFrom_cons]
    rcases List.mem_cons.mp h with rfl | h
    · calc field.size.toNat
          ≤ field.stopAfter used := Nat.le_add_left _ _
        _ ≤ max used (field.stopAfter used) := Nat.le_max_right _ _
        _ ≤ _ := le_bytesFrom _ _
    · exact ih h _

end FieldGroup

theorem succeedsIff_checkedSize (size : Nat) :
    SucceedsIff (checkedSize size) (size < wordLimit) (· = size) := by
  rw [checkedSize]
  split
  case isTrue hlt => exact .ok hlt rfl
  case isFalse hge => exact .error hge

namespace ElementPlan

theorem succeedsIff_fieldOffset (plan : ElementPlan) (field : FieldSpec) :
    SucceedsIff (plan.fieldOffset field)
      ((∀ offset, field.fixedOffset = some offset → field.alignment.toNat ∣ offset.toNat) ∧
        field.startAfter plan.size < wordLimit)
      (· = field.startAfter plan.size) := by
  rw [fieldOffset, FieldSpec.startAfter]
  cases hfixed : field.fixedOffset with
  | none =>
    refine (succeedsIff_checkedSize _).congr ?_ fun _ _ => id
    simp
  | some fixed =>
    have hmod : fixed % field.alignment = 0 ↔ field.alignment.toNat ∣ fixed.toNat := by
      rw [Nat.dvd_iff_mod_eq_zero, ← UInt64.toNat_mod, ← UInt64.toNat_inj]
      rfl
    dsimp only
    split
    case isTrue h =>
      refine .ok ⟨fun offset hoffset => ?_, fixed.toNat_lt⟩ rfl
      cases hoffset
      exact hmod.mp h
    case isFalse h => exact .error fun hall => h (hmod.mpr (hall.1 fixed rfl))

theorem succeedsIff_place (list : Nat) (plan : ElementPlan) (field : FieldSpec) :
    SucceedsIff (place list plan field)
      (field.Placeable ∧ field.stopAfter plan.size < wordLimit ∧
        plan.fields.get? field.id = none)
      (· = ⟨max plan.size (field.stopAfter plan.size),
        max plan.alignment field.alignment.toNat,
        plan.fields.insert field.id
          ⟨UInt64.ofNat list, UInt64.ofNat (field.startAfter plan.size), field.size⟩⟩) := by
  rw [place]
  split
  case isTrue hnot => exact .error fun h => hnot h.1.power
  case isFalse hpower =>
    have hpower := Decidable.not_not.mp hpower
    refine ((succeedsIff_fieldOffset plan field).bind
      (D := field.stopAfter plan.size < wordLimit ∧ plan.fields.get? field.id = none) ?_).congr
      ?_ fun _ _ => id
    · rintro - offset rfl
      refine (succeedsIff_checkedSize _).bind ?_
      rintro - stop rfl
      split
      case isTrue hknown => exact .error fun hnew => by rw [hnew] at hknown; contradiction
      case isFalse hnew => exact .ok (Option.not_isSome_iff_eq_none.mp hnew) rfl
    · constructor
      · rintro ⟨⟨hmultiple, _⟩, hstop, hnew⟩
        exact ⟨⟨hpower, hmultiple⟩, hstop, hnew⟩
      · rintro ⟨hfield, hstop, hnew⟩
        exact ⟨⟨hfield.multiple, Nat.lt_of_le_of_lt (Nat.le_add_right _ _) hstop⟩, hstop, hnew⟩

/-- The fields of a group are placed exactly if each can be, they are new and told apart, and the
element ends in range. -/
theorem succeedsIff_fields (list : Nat) (group : FieldGroup) {plan : ElementPlan}
    (hsize : plan.size < wordLimit) :
    SucceedsIff (group.foldlM (place list) plan)
      ((∀ field ∈ group, field.Placeable) ∧ plan.fields.Free (group.map FieldSpec.id) ∧
        group.bytesFrom plan.size < wordLimit)
      (fun plan' => plan'.size = group.bytesFrom plan.size ∧
        plan'.alignment = group.alignmentFrom plan.alignment ∧
        plan.fields.Gains (group.map FieldSpec.id) plan'.fields) := by
  induction group generalizing plan with
  | nil => exact .ok ⟨by simp, plan.fields.free_nil, hsize⟩ ⟨rfl, rfl, plan.fields.gains_nil⟩
  | cons field group ih =>
    rw [List.foldlM_cons, List.map_cons]
    refine ((succeedsIff_place list plan field).bind
      (D := (∀ g ∈ group, g.Placeable) ∧
        plan.fields.Free (field.id :: group.map FieldSpec.id) ∧
        FieldGroup.bytesFrom plan.size (field :: group) < wordLimit) ?_).congr ?_ fun _ _ => id
    · rintro ⟨_, hstop, hnew⟩ plan' rfl
      have hfirst := plan.fields.gains_insert field.id
        ⟨UInt64.ofNat list, UInt64.ofNat (field.startAfter plan.size), field.size⟩
      have hfree := FieldMap.free_append hfirst (FieldMap.free_singleton hnew)
        (group.map FieldSpec.id)
      refine (ih (Nat.max_lt.mpr ⟨hsize, hstop⟩)).congr ?_ ?_
      · rw [← List.singleton_append, hfree]
        rfl
      · rintro - plan'' ⟨hbytes, halignment, hrest⟩
        exact ⟨hbytes, halignment, hfirst.append hrest⟩
    · have hstop : FieldGroup.bytesFrom plan.size (field :: group) < wordLimit →
          field.stopAfter plan.size < wordLimit := fun h =>
        Nat.lt_of_le_of_lt (Nat.le_trans (Nat.le_max_right _ _) (FieldGroup.le_bytesFrom _ group)) h
      rw [List.forall_mem_cons]
      constructor
      · rintro ⟨⟨hfield, _⟩, hgroup, hrest⟩
        exact ⟨⟨hfield, hgroup⟩, hrest⟩
      · rintro ⟨⟨hfield, hgroup⟩, hfree, hbytes⟩
        exact ⟨⟨hfield, hstop hbytes, hfree.1 _ List.mem_cons_self⟩, hgroup, hfree, hbytes⟩

end ElementPlan

end RegionLayout
