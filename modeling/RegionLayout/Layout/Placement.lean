import RegionLayout.Layout.Basic
import RegionLayout.Constraints

/-!
# Placement

Within a group the fields are packed into an element, and the elements of a covering rectangle
along the dimensions in a given order, fastest first. Sizes are counted in unbounded numbers, and
one that reaches `2 ^ 64` is refused on the spot.
-/

namespace RegionLayout

def checkedSize (size : Nat) : Except PlacementError Nat :=
  if size < wordLimit then .ok size else .error .sizeOverflow

/-- The least multiple of `alignment` that is not below `value`. -/
def roundUp (value alignment : Nat) : Nat := (value + (alignment - 1)) / alignment * alignment

def IsPowerOfTwo (x : Nat) : Prop := 1 <<< x.log2 = x

instance (x : Nat) : Decidable (IsPowerOfTwo x) := inferInstanceAs (Decidable (1 <<< x.log2 = x))

/-- An element under construction: its bytes so far, its alignment, and all fields placed up to
now, those of other groups included. -/
structure ElementPlan where
  size : Nat
  alignment : Nat
  fields : FieldMap FieldSlot

namespace ElementPlan

/-- Where the field starts: at its fixed offset, or at the first aligned byte after those in
use. -/
def fieldOffset (plan : ElementPlan) (field : FieldSpec) : Except PlacementError Nat :=
  match field.fixedOffset with
  | some offset =>
      if offset % field.alignment = 0 then .ok offset.toNat
      else .error (.misalignedOffset field.id offset field.alignment)
  | none => checkedSize (roundUp plan.size field.alignment.toNat)

/-- Adds a field of the numbered group to the element. -/
def place (list : Nat) (plan : ElementPlan) (field : FieldSpec) :
    Except PlacementError ElementPlan :=
  if ¬ IsPowerOfTwo field.alignment.toNat then
    .error (.invalidAlignment field.id field.alignment)
  else do
    let offset ← plan.fieldOffset field
    let stop ← checkedSize (offset + field.size.toNat)
    if (plan.fields.get? field.id).isSome then .error (.duplicateField field.id)
    else
      return {
        size := max plan.size stop
        alignment := max plan.alignment field.alignment.toNat
        fields := plan.fields.insert field.id
          { list := UInt64.ofNat list, offset := UInt64.ofNat offset, size := field.size } }

end ElementPlan

/-- Strides for the elements of `r` packed along `order`, and the bytes they take together. -/
def packed {t : CoordType} {n : Nat} (order : List (Fin n)) (r : Rect t n) (element : Nat) :
    Except PlacementError (Strides n × Nat) :=
  order.foldlM (fun acc d => do
    let extent ← checkedSize (r.extent d)
    let size ← checkedSize (acc.2 * extent)
    return (replaceAt acc.1 d (UInt64.ofNat acc.2), size)) (Vector.replicate n 0, element)

/-- A piece for the rectangle from the first aligned byte after `used`, and the bytes in use
after it. The base is moved so that the rule takes absolute coordinates. -/
def placeRect {t : CoordType} {n : Nat} (order : List (Fin n)) (element alignment used : Nat)
    (r : Rect t n) : Except PlacementError (Piece t n × Nat) := do
  let start ← checkedSize (roundUp used alignment)
  let (strides, size) ← packed order r element
  let stop ← checkedSize (start + size)
  return (⟨r, ⟨UInt64.ofNat start - r.lo.dot strides, strides⟩⟩, stop)

/-- One piece for each of the rectangles, one after the other. -/
def placeRects {t : CoordType} {n : Nat} (order : List (Fin n)) (element alignment : Nat) :
    Nat → List (Rect t n) → Except PlacementError (PieceList t n × Nat)
  | used, [] => .ok ([], used)
  | used, r :: rest => do
      let (piece, used) ← placeRect order element alignment used r
      let (pieces, used) ← placeRects order element alignment used rest
      return (piece :: pieces, used)

/-- An instance under construction: the piece lists, fields and bytes so far. -/
structure InstancePlan (t : CoordType) (n : Nat) where
  lists : List (PieceList t n)
  fields : FieldMap FieldSlot
  bytesUsed : Nat
  alignment : Nat

namespace InstancePlan

variable {t : CoordType} {n : Nat}

def start (t : CoordType) (n : Nat) : InstancePlan t n := ⟨[], FieldMap.empty, 0, 1⟩

/-- Adds a group: its element is completed first, then one piece is placed per rectangle. A group
without fields takes an empty piece list. -/
def placeGroup (order : List (Fin n)) (covering : List (Rect t n)) (plan : InstancePlan t n)
    (group : FieldGroup) : Except PlacementError (InstancePlan t n) := do
  let element ← group.foldlM (ElementPlan.place plan.lists.length) ⟨0, 1, plan.fields⟩
  if group.isEmpty then
    return { plan with lists := plan.lists ++ [[]] }
  else
    let size ← checkedSize (roundUp element.size element.alignment)
    let (pieces, used) ← placeRects order size element.alignment plan.bytesUsed
      (covering.filter fun r => ¬ r.IsEmpty)
    return {
      lists := plan.lists ++ [pieces]
      fields := element.fields
      bytesUsed := used
      alignment := max plan.alignment element.alignment }

end InstancePlan

/-- The order as dimensions, if it names each of them once. -/
def permutation? {n : Nat} (order : Vector UInt64 n) : Option (List (Fin n)) :=
  (order.toList.mapM fun d => if h : d.toNat < n then some ⟨d.toNat, h⟩ else none).bind
    fun dims => if dims.Pairwise (· ≠ ·) then some dims else none

namespace Layout

variable {t : CoordType} {n : Nat}

/-- The layout with one piece per covering rectangle and group. The rectangles have to lie inside
the bounds of the space; they may cover points that are not in it. -/
def chooseWithCovering (space : IndexSpace t n) (covering : List (Rect t n))
    (constraints : Constraints) (order : Vector UInt64 n) :
    Except PlacementError (Layout t n) := do
  let dims ← match permutation? order with
    | some dims => .ok dims
    | none => .error (.invalidDimensionOrder order.toList)
  match covering.find? fun r => ¬ r ⊆ space.bounds with
  | some r => .error (.coveringOutside r.text space.bounds.text)
  | none =>
      let plan ← constraints.groups.foldlM (InstancePlan.placeGroup dims covering)
        (InstancePlan.start t n)
      return {
        space := space
        lists := plan.lists
        fields := plan.fields
        bytesUsed := UInt64.ofNat plan.bytesUsed
        alignment := UInt64.ofNat plan.alignment }

/-- The layout with one piece per group, over the bounds of the space. -/
def choose (space : IndexSpace t n) (constraints : Constraints) (order : Vector UInt64 n) :
    Except PlacementError (Layout t n) :=
  chooseWithCovering space (if space.bounds.IsEmpty then [] else [space.bounds]) constraints order

end Layout

end RegionLayout
