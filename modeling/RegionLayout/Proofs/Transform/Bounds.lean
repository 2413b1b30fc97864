import RegionLayout.Proofs.Transform.Results

/-!
# Tight bounds of images

A row takes its least value at a corner of the rectangle, and its greatest value at the opposite
one. What is computed for the bounds of a row is step by step what is computed for these two
points.
-/

namespace RegionLayout.Transform

variable {t s : CoordType} {m n : Nat}

/-- The corner of the rectangle where the row is least. -/
def leastCorner (row : Point t n) (r : Rect s n) : Point s n :=
  Vector.ofFn fun j =>
    if (row.get j).val * (r.lo.get j).val ≤ (row.get j).val * (r.hi.get j).val
    then r.lo.get j else r.hi.get j

/-- The corner of the rectangle where the row is greatest. -/
def greatestCorner (row : Point t n) (r : Rect s n) : Point s n :=
  Vector.ofFn fun j =>
    if (row.get j).val * (r.lo.get j).val ≤ (row.get j).val * (r.hi.get j).val
    then r.hi.get j else r.lo.get j

variable {row : Point t n} {r : Rect s n}

theorem leastCorner_mem (row : Point t n) (h : ¬ r.IsEmpty) : leastCorner row r ∈ r := by
  intro j
  rw [leastCorner, get_ofFn]
  split
  · exact Rect.lo_mem h j
  · exact Rect.hi_mem h j

theorem greatestCorner_mem (row : Point t n) (h : ¬ r.IsEmpty) : greatestCorner row r ∈ r := by
  intro j
  rw [greatestCorner, get_ofFn]
  split
  · exact Rect.hi_mem h j
  · exact Rect.lo_mem h j

theorem mul_leastCorner (j : Fin n) : (row.get j).val * ((leastCorner row r).get j).val =
    min ((row.get j).val * (r.lo.get j).val) ((row.get j).val * (r.hi.get j).val) := by
  rw [leastCorner, get_ofFn]
  split <;> omega

theorem mul_greatestCorner (j : Fin n) : (row.get j).val * ((greatestCorner row r).get j).val =
    max ((row.get j).val * (r.lo.get j).val) ((row.get j).val * (r.hi.get j).val) := by
  rw [greatestCorner, get_ofFn]
  split <;> omega

/-- One step of the bounds is one step towards the value at either corner: of the two products the
one corner has the smaller and the other one the greater. -/
private theorem rangeStep_eq_some (j : Fin n) {lo hi lo' hi' : Int} :
    ((do
      let a ← fit128 ((row.get j).val * (r.lo.get j).val)
      let b ← fit128 ((row.get j).val * (r.hi.get j).val)
      let least ← fit128 (lo + min a b)
      let greatest ← fit128 (hi + max a b)
      return (least, greatest)) : Option (Int × Int)) = some (lo', hi') ↔
    (do
      let product ← fit128 ((row.get j).val * ((leastCorner row r).get j).val)
      fit128 (lo + product)) = some lo' ∧
    (do
      let product ← fit128 ((row.get j).val * ((greatestCorner row r).get j).val)
      fit128 (hi + product)) = some hi' := by
  rw [mul_leastCorner, mul_greatestCorner, accumulateStep_eq_some, accumulateStep_eq_some]
  simp only [Option.bind_eq_bind, Option.bind_eq_some_iff, fit128_eq_some_iff, Option.pure_def,
    Option.some.injEq, Prod.mk.injEq, and_assoc, exists_and_left, exists_eq_left']
  have hfits := fits128_min_max (x := (row.get j).val * (r.lo.get j).val)
    (y := (row.get j).val * (r.hi.get j).val)
  grind

private theorem foldlM_corners (dims : List (Fin n)) {lo hi least greatest : Int} :
    (dims.foldlM (fun acc j => do
      let a ← fit128 ((row.get j).val * (r.lo.get j).val)
      let b ← fit128 ((row.get j).val * (r.hi.get j).val)
      let least ← fit128 (acc.1 + min a b)
      let greatest ← fit128 (acc.2 + max a b)
      return (least, greatest)) (lo, hi) : Option (Int × Int)) = some (least, greatest) ↔
    (dims.foldlM (fun acc j => do
      let product ← fit128 ((row.get j).val * ((leastCorner row r).get j).val)
      fit128 (acc + product)) lo : Option Int) = some least ∧
    (dims.foldlM (fun acc j => do
      let product ← fit128 ((row.get j).val * ((greatestCorner row r).get j).val)
      fit128 (acc + product)) hi : Option Int) = some greatest := by
  induction dims generalizing lo hi with
  | nil => simp
  | cons j dims ih =>
    rw [List.foldlM_cons, List.foldlM_cons, List.foldlM_cons]
    constructor
    · intro h
      obtain ⟨⟨lo', hi'⟩, hstep, hrest⟩ := Option.bind_eq_some_iff.mp h
      obtain ⟨hlo, hhi⟩ := (rangeStep_eq_some j).mp hstep
      obtain ⟨hleast, hgreatest⟩ := ih.mp hrest
      exact ⟨Option.bind_eq_some_iff.mpr ⟨_, hlo, hleast⟩,
        Option.bind_eq_some_iff.mpr ⟨_, hhi, hgreatest⟩⟩
    · intro h
      obtain ⟨lo', hlo, hleast⟩ := Option.bind_eq_some_iff.mp h.1
      obtain ⟨hi', hhi, hgreatest⟩ := Option.bind_eq_some_iff.mp h.2
      have hstep := (rangeStep_eq_some j).mpr ⟨hlo, hhi⟩
      exact Option.bind_eq_some_iff.mpr ⟨_, hstep, ih.mpr ⟨hleast, hgreatest⟩⟩

theorem range_eq_some_iff {start least greatest : Int} :
    range row r start = some (least, greatest) ↔
      accumulate row (leastCorner row r) start = some least ∧
        accumulate row (greatestCorner row r) start = some greatest :=
  foldlM_corners (List.finRange n)

private theorem corners_eq_some {start : Int} {corners : Coord t × Coord t} :
    (do
      let (least, greatest) ← range row r start
      return (← Coord.narrow t least, ← Coord.narrow t greatest) : Option (Coord t × Coord t)) =
        some corners ↔
      (accumulate row (leastCorner row r) start = some corners.1.val ∧
        corners.1.val ≤ CoordType.i64.maxVal) ∧
      accumulate row (greatestCorner row r) start = some corners.2.val ∧
        corners.2.val ≤ CoordType.i64.maxVal := by
  constructor
  · intro h
    obtain ⟨⟨least, greatest⟩, hrange, h⟩ := Option.bind_eq_some_iff.mp h
    obtain ⟨lo, hlo, h⟩ := Option.bind_eq_some_iff.mp h
    obtain ⟨hi, hhi, h⟩ := Option.bind_eq_some_iff.mp h
    cases h
    obtain ⟨rfl, hlo⟩ := Coord.narrow_eq_some.mp hlo
    obtain ⟨rfl, hhi⟩ := Coord.narrow_eq_some.mp hhi
    obtain ⟨hleast, hgreatest⟩ := range_eq_some_iff.mp hrange
    exact ⟨⟨hleast, hlo⟩, hgreatest, hhi⟩
  · intro h
    have hrange := range_eq_some_iff.mpr ⟨h.1.1, h.2.1⟩
    have hlo := Coord.narrow_eq_some.mpr ⟨rfl, h.1.2⟩
    have hhi := Coord.narrow_eq_some.mpr ⟨rfl, h.2.2⟩
    apply Option.bind_eq_some_iff.mpr
    refine ⟨_, hrange, Option.bind_eq_some_iff.mpr ⟨_, hlo, ?_⟩⟩
    exact Option.bind_eq_some_iff.mpr ⟨_, hhi, rfl⟩

private theorem map_eq_of_get {α β : Type} {g : α → β} {v : Vector α m} {w : Vector β m}
    (h : ∀ i, g (v.get i) = w.get i) : v.map g = w := by
  apply Vector.ext
  intro i hi
  exact (get_map g v ⟨i, hi⟩).trans (h ⟨i, hi⟩)

variable {f : Transform t m n} {offset : Point t m} {image : Rect t m}

theorem imageBounds_eq_some_iff (h : ¬ r.IsEmpty) : f.imageBounds r offset = some image ↔
    ∀ i, (accumulate (f.rows.get i) (leastCorner (f.rows.get i) r) (offset.get i).val =
          some (image.lo.get i).val ∧ (image.lo.get i).val ≤ CoordType.i64.maxVal) ∧
      accumulate (f.rows.get i) (greatestCorner (f.rows.get i) r) (offset.get i).val =
          some (image.hi.get i).val ∧ (image.hi.get i).val ≤ CoordType.i64.maxVal := by
  rw [imageBounds, if_neg h]
  constructor
  · intro himage i
    obtain ⟨corners, hcorners, himage⟩ := Option.bind_eq_some_iff.mp himage
    cases himage
    rw [get_map, get_map]
    exact corners_eq_some.mp (gather_eq_some.mp hcorners i)
  · intro himage
    let corners : Vector (Coord t × Coord t) m :=
      Vector.ofFn fun i => (image.lo.get i, image.hi.get i)
    have hcorners : ∀ i, corners.get i = (image.lo.get i, image.hi.get i) := get_ofFn _
    have hlo : corners.map Prod.fst = image.lo :=
      map_eq_of_get fun i => congrArg Prod.fst (hcorners i)
    have hhi : corners.map Prod.snd = image.hi :=
      map_eq_of_get fun i => congrArg Prod.snd (hcorners i)
    apply Option.bind_eq_some_iff.mpr
    refine ⟨corners, gather_eq_some.mpr fun i => corners_eq_some.mpr ?_, ?_⟩
    · rw [hcorners]
      exact himage i
    · rw [hlo, hhi]
      rfl

private theorem exists_image {p : Point s n} {i : Fin m} {c : Coord t} (hp : p ∈ r)
    (himage : f.imageBounds r offset = some image)
    (hrow : accumulate (f.rows.get i) p (offset.get i).val = some c.val) :
    ∃ p ∈ r, ∃ q, f.apply p offset = some q ∧ q.get i = c := by
  obtain ⟨q, hq, _⟩ := apply_mem_imageBounds himage hp
  rw [(apply_eq_some.mp hq i).1, Option.some.injEq] at hrow
  exact ⟨p, hp, q, hq, Coord.ext hrow⟩

/-- Every side of the bounds is met by the image of a corner. -/
theorem exists_least (h : ¬ r.IsEmpty) (himage : f.imageBounds r offset = some image)
    (i : Fin m) :
    ∃ p ∈ r, ∃ q, f.apply p offset = some q ∧ q.get i = image.lo.get i :=
  exists_image (leastCorner_mem _ h) himage ((imageBounds_eq_some_iff h).mp himage i).1.1

theorem exists_greatest (h : ¬ r.IsEmpty) (himage : f.imageBounds r offset = some image)
    (i : Fin m) :
    ∃ p ∈ r, ∃ q, f.apply p offset = some q ∧ q.get i = image.hi.get i :=
  exists_image (greatestCorner_mem _ h) himage ((imageBounds_eq_some_iff h).mp himage i).2.1

theorem exists_imageBounds (h : ¬ r.IsEmpty) (hall : ∀ p ∈ r, ∃ q, f.apply p offset = some q) :
    ∃ image, f.imageBounds r offset = some image := by
  choose least hleast using fun i => hall _ (leastCorner_mem (f.rows.get i) h)
  choose greatest hgreatest using fun i => hall _ (greatestCorner_mem (f.rows.get i) h)
  refine ⟨⟨Vector.ofFn fun i => (least i).get i, Vector.ofFn fun i => (greatest i).get i⟩, ?_⟩
  apply (imageBounds_eq_some_iff h).mpr
  intro i
  rw [get_ofFn, get_ofFn]
  exact ⟨apply_eq_some.mp (hleast i) i, apply_eq_some.mp (hgreatest i) i⟩

/-- A rectangle with points has bounds for its image exactly if each of its points has an image.
They hold all images, an image is on every side of them, and no smaller rectangle holds all. -/
theorem imageBounds_tight (f : Transform t m n) (r : Rect s n) (offset : Point t m)
    (h : ¬ r.IsEmpty) :
    ((∃ image, f.imageBounds r offset = some image) ↔
      ∀ p ∈ r, ∃ q, f.apply p offset = some q) ∧
    ∀ image, f.imageBounds r offset = some image →
      (∀ p ∈ r, ∀ q, f.apply p offset = some q → q ∈ image) ∧
      (∀ i, (∃ p ∈ r, ∃ q, f.apply p offset = some q ∧ q.get i = image.lo.get i) ∧
        ∃ p ∈ r, ∃ q, f.apply p offset = some q ∧ q.get i = image.hi.get i) ∧
      ∀ box : Rect t m, (∀ p ∈ r, ∀ q, f.apply p offset = some q → q ∈ box) → image ⊆ box := by
  constructor
  · constructor
    · intro hbounds p hp
      obtain ⟨image, himage⟩ := hbounds
      obtain ⟨q, hq, _⟩ := apply_mem_imageBounds himage hp
      exact ⟨q, hq⟩
    · exact exists_imageBounds h
  · intro image himage
    refine ⟨?_, fun i => ⟨exists_least h himage i, exists_greatest h himage i⟩, ?_⟩
    · intro p hp q hq
      obtain ⟨q', hq', hmem⟩ := apply_mem_imageBounds himage hp
      rw [hq, Option.some.injEq] at hq'
      exact hq' ▸ hmem
    · intro box hbox
      refine .inr fun i => ⟨?_, ?_⟩
      · obtain ⟨p, hp, q, hq, heq⟩ := exists_least h himage i
        exact heq ▸ (hbox p hp q hq i).1
      · obtain ⟨p, hp, q, hq, heq⟩ := exists_greatest h himage i
        exact heq ▸ (hbox p hp q hq i).2

/-- Each row has factors of both signs, so the four sides are met at different corners. -/
private def skewed : Transform .i64 2 2 :=
  ⟨Vector.ofFn fun i => Vector.ofFn fun j => Coord.wrap .i64 (if i = j then 2 else -3)⟩

private def at64 (x y : Int) : Point .i64 2 :=
  Vector.ofFn fun d => Coord.wrap .i64 (if d.val = 0 then x else y)

private def slab : Rect .u32 2 :=
  ⟨Point.zero .u32 2, Vector.ofFn fun d => Coord.wrap .u32 (if d.val = 0 then 3 else 4)⟩

theorem imageBounds_tight_skewed :
    skewed.imageBounds slab (at64 1 0) = some ⟨at64 (-11) (-9), at64 7 8⟩ ∧
      (∀ p ∈ slab, ∃ q, skewed.apply p (at64 1 0) = some q) ∧
      ∀ i, (∃ p ∈ slab, ∃ q, skewed.apply p (at64 1 0) = some q ∧
          q.get i = (at64 (-11) (-9)).get i) ∧
        ∃ p ∈ slab, ∃ q, skewed.apply p (at64 1 0) = some q ∧ q.get i = (at64 7 8).get i := by
  have hbounds : skewed.imageBounds slab (at64 1 0) =
      some ⟨at64 (-11) (-9), at64 7 8⟩ := by decide +kernel
  have htight := imageBounds_tight skewed slab (at64 1 0) (by decide)
  exact ⟨hbounds, htight.1.mp ⟨_, hbounds⟩, (htight.2 _ hbounds).2.1⟩

end RegionLayout.Transform
