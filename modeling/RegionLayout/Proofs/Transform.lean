import Mathlib.Algebra.BigOperators.Fin
import Mathlib.Algebra.BigOperators.Ring.Finset
import Mathlib.Data.UInt
import RegionLayout.Transform
import RegionLayout.Rect.Lemmas

/-!
# Images of points and of rectangles

A coordinate lies between those of the corners, and so does its product with a factor of either
sign. What is computed for a point therefore lies between what has been computed for the bounds.
-/

namespace RegionLayout

variable {t s : CoordType} {m n : Nat}

theorem get_map {α β : Type} (f : α → β) (v : Vector α n) (i : Fin n) :
    (v.map f).get i = f (v.get i) := Vector.getElem_map f i.isLt

theorem gather_eq_some {α : Type} {f : Fin n → Option α} {v : Vector α n} :
    gather f = some v ↔ ∀ i, f i = some (v.get i) := by
  rw [gather]
  constructor
  · intro h i
    rw [Option.dite_none_right_eq_some] at h
    obtain ⟨hall, hv⟩ := h
    rw [← Option.some.inj hv, get_ofFn, Option.some_get]
  · intro h
    have hall : ∀ i, (f i).isSome := fun i => by rw [h i]; rfl
    rw [dif_pos hall, Option.some.injEq]
    apply Vector.ext
    intro i hi
    rw [Vector.getElem_ofFn]
    have := h ⟨i, hi⟩
    simp only [this, Option.get_some]
    rfl

theorem fit128_eq_some {x y : Int} :
    fit128 x = some y ↔ (-signedLimit128 ≤ x ∧ x < signedLimit128) ∧ x = y := by
  rw [fit128, Option.ite_none_right_eq_some, Option.some.injEq]

theorem Coord.narrow_eq_some {x : Int} {c : Coord t} :
    Coord.narrow t x = some c ↔ c.val = x ∧ x ≤ CoordType.i64.maxVal := by
  rw [narrow]
  constructor
  · intro h
    split at h
    case isTrue hfits =>
      rw [Option.ite_none_right_eq_some] at h
      obtain ⟨hle, hc⟩ := h
      exact ⟨(congrArg val (Option.some.inj hc)).symm, hle⟩
    case isFalse => contradiction
  · rintro ⟨rfl, hle⟩
    rw [dif_pos ⟨c.minVal_le, c.le_maxVal⟩, if_pos hle]

theorem Point.dot_eq_sum (p : Point t n) (strides : Strides n) :
    p.dot strides = ∑ d, strides.get d * (p.get d).toWord :=
  List.sum_ofFn

theorem ofInt_sum (f : Fin n → Int) : UInt64.ofInt (∑ j, f j) = ∑ j, UInt64.ofInt (f j) := by
  rw [Fin.sum_univ_def, Fin.sum_univ_def]
  induction List.finRange n with
  | nil => rfl
  | cons j dims ih => rw [List.map_cons, List.map_cons, List.sum_cons, List.sum_cons,
      UInt64.ofInt_add, ih]

namespace Transform

theorem mul_between {k lo x hi : Int} (hlo : lo ≤ x) (hhi : x ≤ hi) :
    min (k * lo) (k * hi) ≤ k * x ∧ k * x ≤ max (k * lo) (k * hi) := by
  rcases Int.le_total 0 k with hk | hk
  · have hlo' := Int.mul_le_mul_of_nonneg_left hlo hk
    have hhi' := Int.mul_le_mul_of_nonneg_left hhi hk
    omega
  · have hlo' := Int.mul_le_mul_of_nonpos_left hk hlo
    have hhi' := Int.mul_le_mul_of_nonpos_left hk hhi
    omega

theorem accumulate_eq_some {row : Point t n} {p : Point s n} {start x : Int}
    (h : accumulate row p start = some x) :
    x = start + ∑ j, (row.get j).val * (p.get j).val := by
  rw [accumulate] at h
  rw [Fin.sum_univ_def]
  generalize List.finRange n = dims at h ⊢
  induction dims generalizing start with
  | nil =>
    rw [List.foldlM_nil] at h
    rw [List.map_nil, List.sum_nil, Int.add_zero]
    exact (Option.some.inj h).symm
  | cons j dims ih =>
    rw [List.foldlM_cons] at h
    obtain ⟨next, hnext, h⟩ := Option.bind_eq_some_iff.mp h
    obtain ⟨product, hproduct, hnext⟩ := Option.bind_eq_some_iff.mp hnext
    obtain ⟨_, rfl⟩ := fit128_eq_some.mp hproduct
    obtain ⟨_, rfl⟩ := fit128_eq_some.mp hnext
    rw [ih h, List.map_cons, List.sum_cons, Int.add_assoc]

/-- The sum for a point has a result as long as those for the corners do, and stays between
them. -/
private theorem foldlM_between {row : Point t n} {r : Rect s n} {p : Point s n} (hp : p ∈ r)
    (dims : List (Fin n)) {start lo hi least greatest : Int} (hlo : lo ≤ start) (hhi : start ≤ hi)
    (h : (dims.foldlM (fun acc j => do
      let a ← fit128 ((row.get j).val * (r.lo.get j).val)
      let b ← fit128 ((row.get j).val * (r.hi.get j).val)
      let least ← fit128 (acc.1 + min a b)
      let greatest ← fit128 (acc.2 + max a b)
      return (least, greatest)) (lo, hi) : Option (Int × Int)) = some (least, greatest)) :
    ∃ x, (dims.foldlM (fun acc j => do
      let product ← fit128 ((row.get j).val * (p.get j).val)
      fit128 (acc + product)) start : Option Int) = some x ∧ least ≤ x ∧ x ≤ greatest := by
  induction dims generalizing start lo hi with
  | nil =>
    cases h
    exact ⟨start, rfl, hlo, hhi⟩
  | cons j dims ih =>
    rw [List.foldlM_cons] at h
    obtain ⟨next, hnext, h⟩ := Option.bind_eq_some_iff.mp h
    obtain ⟨a, ha, hnext⟩ := Option.bind_eq_some_iff.mp hnext
    obtain ⟨b, hb, hnext⟩ := Option.bind_eq_some_iff.mp hnext
    obtain ⟨lo', hlo', hnext⟩ := Option.bind_eq_some_iff.mp hnext
    obtain ⟨hi', hhi', hnext⟩ := Option.bind_eq_some_iff.mp hnext
    cases hnext
    obtain ⟨hafits, rfl⟩ := fit128_eq_some.mp ha
    obtain ⟨hbfits, rfl⟩ := fit128_eq_some.mp hb
    obtain ⟨hlofits, rfl⟩ := fit128_eq_some.mp hlo'
    obtain ⟨hhifits, rfl⟩ := fit128_eq_some.mp hhi'
    obtain ⟨hleast, hgreatest⟩ := mul_between (k := (row.get j).val) (hp j).1 (hp j).2
    have hproduct : fit128 ((row.get j).val * (p.get j).val) = some _ :=
      fit128_eq_some.mpr ⟨by omega, rfl⟩
    have hsum : fit128 (start + (row.get j).val * (p.get j).val) = some _ :=
      fit128_eq_some.mpr ⟨by omega, rfl⟩
    have hlower := Int.add_le_add hlo hleast
    have hupper := Int.add_le_add hhi hgreatest
    obtain ⟨x, hx, hbetween⟩ := ih hlower hupper h
    rw [List.foldlM_cons]
    refine ⟨x, Option.bind_eq_some_iff.mpr ⟨_, ?_, hx⟩, hbetween⟩
    exact Option.bind_eq_some_iff.mpr ⟨_, hproduct, hsum⟩

theorem accumulate_of_range {row : Point t n} {r : Rect s n} {p : Point s n}
    {start least greatest : Int} (h : range row r start = some (least, greatest)) (hp : p ∈ r) :
    ∃ x, accumulate row p start = some x ∧ least ≤ x ∧ x ≤ greatest :=
  foldlM_between hp (List.finRange n) (Int.le_refl start) (Int.le_refl start) h

variable {f : Transform t m n} {p : Point s n} {q offset : Point t m} {r : Rect s n}

theorem apply_eq_some : f.apply p offset = some q ↔
    ∀ i, accumulate (f.rows.get i) p (offset.get i).val = some (q.get i).val ∧
      (q.get i).val ≤ CoordType.i64.maxVal := by
  rw [apply, gather_eq_some]
  apply forall_congr'
  intro i
  rw [Option.bind_eq_bind, Option.bind_eq_some_iff]
  constructor
  · rintro ⟨x, hx, hnarrow⟩
    obtain ⟨rfl, hle⟩ := Coord.narrow_eq_some.mp hnarrow
    exact ⟨hx, hle⟩
  · rintro ⟨hx, hle⟩
    exact ⟨_, hx, Coord.narrow_eq_some.mpr ⟨rfl, hle⟩⟩

private theorem exists_coordinate {row : Point t n} {start : Int} {corners : Coord t × Coord t}
    (h : (do
      let (least, greatest) ← range row r start
      return (← Coord.narrow t least, ← Coord.narrow t greatest) : Option (Coord t × Coord t)) =
        some corners) (hp : p ∈ r) :
    ∃ c : Coord t, (accumulate row p start = some c.val ∧ c.val ≤ CoordType.i64.maxVal) ∧
      corners.1 ≤ c ∧ c ≤ corners.2 := by
  obtain ⟨⟨least, greatest⟩, hrange, h⟩ := Option.bind_eq_some_iff.mp h
  obtain ⟨lo, hlo, h⟩ := Option.bind_eq_some_iff.mp h
  obtain ⟨hi, hhi, h⟩ := Option.bind_eq_some_iff.mp h
  cases h
  obtain ⟨rfl, _⟩ := Coord.narrow_eq_some.mp hlo
  obtain ⟨rfl, hmax⟩ := Coord.narrow_eq_some.mp hhi
  obtain ⟨x, hx, hleast, hgreatest⟩ := accumulate_of_range hrange hp
  exact ⟨⟨x, Int.le_trans lo.minVal_le hleast, Int.le_trans hgreatest hi.le_maxVal⟩,
    ⟨hx, Int.le_trans hgreatest hmax⟩, hleast, hgreatest⟩

/-- Every point of a rectangle whose image has bounds has an image, and the bounds hold it. -/
theorem apply_mem_imageBounds {image : Rect t m} (h : f.imageBounds r offset = some image)
    (hp : p ∈ r) : ∃ q, f.apply p offset = some q ∧ q ∈ image := by
  have hpoints : ¬ r.IsEmpty := fun hempty => Rect.not_mem_of_isEmpty hempty hp
  rw [imageBounds, if_neg hpoints] at h
  obtain ⟨corners, hcorners, h⟩ := Option.bind_eq_some_iff.mp h
  cases h
  choose c happly hbetween using fun i => exists_coordinate (gather_eq_some.mp hcorners i) hp
  have hget : ∀ i, (Vector.ofFn c).get i = c i := get_ofFn c
  refine ⟨Vector.ofFn c, apply_eq_some.mpr fun i => ?_, fun i => ?_⟩
  · rw [hget]
    exact happly i
  · rw [hget, get_map, get_map]
    exact hbetween i

theorem toWord_of_apply (h : f.apply p offset = some q) (i : Fin m) :
    (q.get i).toWord =
      (offset.get i).toWord + ∑ j, ((f.rows.get i).get j).toWord * (p.get j).toWord := by
  rw [Coord.toWord, accumulate_eq_some (apply_eq_some.mp h i).1, UInt64.ofInt_add, ofInt_sum]
  simp only [UInt64.ofInt_mul]
  rfl

end Transform

end RegionLayout
