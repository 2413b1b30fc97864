import Mathlib.Order.Interval.Set.Nat
import RegionLayout.Access.Affine
import RegionLayout.Proofs.Placement.Sizes

/-!
# Dense rectangles

Along a dense order of the dimensions each stride is the size of everything that counts faster.
Dimensions with one coordinate take no part. Among the others the strides grow, so the order by
stride is dense as soon as any is.
-/

namespace RegionLayout

variable {t : CoordType} {n : Nat}

namespace Rect

variable {r : Rect t n} {order : List (Fin n)}

/-- The dimensions of the order along which the rectangle has more than one coordinate. -/
def longDims (r : Rect t n) (order : List (Fin n)) : List (Fin n) :=
  order.filter fun d => 1 < r.extent d

theorem longDims_cons_of_le {d : Fin n} (h : r.extent d ≤ 1) :
    r.longDims (d :: order) = r.longDims order :=
  List.filter_cons_of_neg (by simpa using h)

theorem longDims_cons_of_lt {d : Fin n} (h : 1 < r.extent d) :
    r.longDims (d :: order) = d :: r.longDims order :=
  List.filter_cons_of_pos (by simpa using h)

theorem mem_longDims {d : Fin n} : d ∈ r.longDims order ↔ d ∈ order ∧ 1 < r.extent d := by
  simp [longDims]

theorem extent_le (r : Rect t n) (d : Fin n) : r.extent d ≤ wordLimit := by
  have hlo := (r.lo.get d).minVal_le
  have hhi := (r.hi.get d).le_maxVal
  have hmax := t.maxVal_eq
  have hspan : t.span ≤ wordLimit := by cases t <;> decide
  rw [extent]
  omega

theorem word_mul_extent_lt (word : UInt64) (r : Rect t n) (d : Fin n) :
    word.toNat * r.extent d < volumeLimit :=
  calc word.toNat * r.extent d
      ≤ (wordLimit - 1) * wordLimit :=
        Nat.mul_le_mul (Nat.le_sub_one_of_lt word.toNat_lt) (r.extent_le d)
    _ < volumeLimit := by decide

theorem bijOn_rank (horder : order.Perm (List.finRange n)) :
    Set.BijOn (fun p => r.rank p order) r.pointSet (Set.Iio r.count) := by
  have hall : ∀ d, d ∈ order := fun d => horder.mem_iff.mpr (List.mem_finRange d)
  have hmaps : Set.MapsTo (fun p => r.rank p order) r.pointSet (Set.Iio r.count) := by
    intro p hp
    have hlt := rank_lt hp order
    rwa [slots_eq_count horder] at hlt
  have hinj : Set.InjOn (fun p => r.rank p order) r.pointSet :=
    fun p hp q hq h => eq_of_rank_eq hp hq hall h
  have himage : (fun p => r.rank p order) '' r.pointSet = Set.Iio r.count := by
    apply Set.eq_of_subset_of_ncard_le hmaps.image_subset
    rw [hinj.ncard_image, ncard_pointSet, Set.ncard_Iio_nat]
  exact ⟨hmaps, hinj, himage.ge⟩

end Rect

namespace AffineAccessor

variable {a : AffineAccessor t n} {r : Rect t n} {p : Point t n} {d : Fin n}
  {order order' : List (Fin n)} {expected : Nat}

/-- The same test with its products in 128 bits. One that does not fit is a fault. -/
def denseAlongChecked (a : AffineAccessor t n) (r : Rect t n) :
    Nat → List (Fin n) → Except Fault Bool
  | _, [] => .ok true
  | expected, d :: rest =>
      if r.extent d ≤ 1 then a.denseAlongChecked r expected rest
      else if (a.rule.strides.get d).toNat = expected then
        if expected * r.extent d < volumeLimit then
          a.denseAlongChecked r (expected * r.extent d) rest
        else .error .arithmeticOverflow
      else .ok false

/-- The elements of the rectangle form one run without gaps, in the order of their numbers. -/
structure RunsAlong (a : AffineAccessor t n) (r : Rect t n) (order : List (Fin n)) : Prop where
  offset_eq : ∀ p ∈ r,
    a.rule.offset p = a.rule.offset r.lo + UInt64.ofNat (a.element * r.rank p order)
  numbered : Set.BijOn (fun p => r.rank p order) r.pointSet (Set.Iio r.count)
  volume?_eq : 0 < a.element → r.volume? = some r.count

theorem denseAlong_cons_of_le (h : r.extent d ≤ 1) :
    a.denseAlong r expected (d :: order) = a.denseAlong r expected order := by
  rw [denseAlong, if_pos h]

theorem denseAlong_cons_of_lt (h : 1 < r.extent d) :
    a.denseAlong r expected (d :: order) = true ↔ (a.rule.strides.get d).toNat = expected ∧
      a.denseAlong r (expected * r.extent d) order = true := by
  rw [denseAlong, if_neg (Nat.not_le.mpr h), Bool.and_eq_true, decide_eq_true_eq]

theorem denseAlongChecked_eq (a : AffineAccessor t n) (r : Rect t n) (expected : Nat)
    (order : List (Fin n)) :
    a.denseAlongChecked r expected order = .ok (a.denseAlong r expected order) := by
  induction order generalizing expected with
  | nil => rfl
  | cons d order ih =>
    rw [denseAlongChecked, denseAlong]
    split
    case isTrue => exact ih expected
    case isFalse =>
      split
      case isTrue hstride =>
        -- only what equals a stride is multiplied, and a stride is a word
        have hfits : expected * r.extent d < volumeLimit :=
          hstride ▸ Rect.word_mul_extent_lt _ r d
        rw [if_pos hfits, ih, decide_eq_true hstride, Bool.true_and]
      case isFalse hstride => rw [decide_eq_false hstride, Bool.false_and]

section Run

variable (h : a.denseAlong r expected order = true)

include h

/-- The bytes to a point are as many as the elements with lower numbers take. -/
theorem reach_of_denseAlong (hp : p ∈ r) :
    reach a.rule.strides r p order = expected * r.rank p order := by
  induction order generalizing expected with
  | nil => simp [reach, Rect.rank]
  | cons d order ih =>
    have hdigit := Rect.digit_lt hp d
    rw [reach, Rect.rank]
    by_cases hlong : 1 < r.extent d
    · obtain ⟨hstride, hrest⟩ := (denseAlong_cons_of_lt hlong).mp h
      rw [ih hrest, hstride, Nat.mul_add, Nat.mul_assoc]
    · rw [denseAlong_cons_of_le (Nat.not_lt.mp hlong)] at h
      have hzero : r.digit p d = 0 := by omega
      have hone : r.extent d = 1 := by omega
      rw [ih h, hzero, hone]
      simp

theorem slots_of_denseAlong (hr : ¬ r.IsEmpty) :
    r.slots order = 1 ∨ expected * r.slots order < volumeLimit := by
  induction order generalizing expected with
  | nil => exact .inl rfl
  | cons d order ih =>
    have hpos := Rect.extent_pos hr d
    rw [Rect.slots]
    by_cases hlong : 1 < r.extent d
    · obtain ⟨hstride, hrest⟩ := (denseAlong_cons_of_lt hlong).mp h
      right
      rw [← Nat.mul_assoc]
      cases ih hrest with
      | inr hlt => exact hlt
      | inl hone =>
        rw [hone, Nat.mul_one, ← hstride]
        exact Rect.word_mul_extent_lt _ r d
    · have hone : r.extent d = 1 := by omega
      rw [denseAlong_cons_of_le (Nat.not_lt.mp hlong)] at h
      rw [hone, Nat.one_mul]
      exact ih h

end Run

theorem runsAlong_of_denseAlong (hr : ¬ r.IsEmpty) (horder : order.Perm (List.finRange n))
    (h : a.denseAlong r a.element order = true) : a.RunsAlong r order := by
  refine ⟨fun p hp => ?_, Rect.bijOn_rank horder, fun hpos => ?_⟩
  · rw [AffineRule.offset_eq_add_reach hp, reach_perm _ _ _ horder.symm, reach_of_denseAlong h hp]
  · rw [Rect.volume?_eq]
    apply checkedCount_of_lt
    rw [← Rect.slots_eq_count horder]
    cases slots_of_denseAlong h hr with
    | inl hone =>
      rw [hone]
      decide
    | inr hlt => exact Nat.lt_of_le_of_lt (Nat.le_mul_of_pos_left _ hpos) hlt

theorem denseAlong_longDims :
    a.denseAlong r expected (r.longDims order) = a.denseAlong r expected order := by
  induction order generalizing expected with
  | nil => rfl
  | cons d order ih =>
    by_cases hlong : 1 < r.extent d
    · rw [Rect.longDims_cons_of_lt hlong, Bool.eq_iff_iff, denseAlong_cons_of_lt hlong,
        denseAlong_cons_of_lt hlong, ih]
    · rw [Rect.longDims_cons_of_le (Nat.not_lt.mp hlong),
        denseAlong_cons_of_le (Nat.not_lt.mp hlong), ih]

theorem le_stride_of_denseAlong (h : a.denseAlong r expected order = true)
    (hd : d ∈ r.longDims order) : expected ≤ (a.rule.strides.get d).toNat := by
  induction order generalizing expected with
  | nil => contradiction
  | cons e order ih =>
    by_cases hlong : 1 < r.extent e
    · obtain ⟨hstride, hrest⟩ := (denseAlong_cons_of_lt hlong).mp h
      rw [Rect.longDims_cons_of_lt hlong] at hd
      cases List.mem_cons.mp hd with
      | inl heq => exact heq ▸ Nat.le_of_eq hstride.symm
      | inr hmem =>
        calc expected
            ≤ expected * r.extent e := Nat.le_mul_of_pos_right _ (Nat.zero_lt_of_lt hlong)
          _ ≤ (a.rule.strides.get d).toNat := ih hrest hmem
    · rw [denseAlong_cons_of_le (Nat.not_lt.mp hlong)] at h
      rw [Rect.longDims_cons_of_le (Nat.not_lt.mp hlong)] at hd
      exact ih h hd

theorem pairwise_of_denseAlong (hpos : 0 < expected)
    (h : a.denseAlong r expected order = true) :
    (r.longDims order).Pairwise fun d e => a.rule.strides.get d < a.rule.strides.get e := by
  induction order generalizing expected with
  | nil => exact .nil
  | cons d order ih =>
    by_cases hlong : 1 < r.extent d
    · obtain ⟨hstride, hrest⟩ := (denseAlong_cons_of_lt hlong).mp h
      have hgrows : expected < expected * r.extent d := (Nat.lt_mul_iff_one_lt_right hpos).mpr hlong
      rw [Rect.longDims_cons_of_lt hlong]
      apply List.Pairwise.cons _ (ih (Nat.zero_lt_of_lt hgrows) hrest)
      intro e he
      apply UInt64.lt_iff_toNat_lt.mpr
      rw [hstride]
      exact Nat.lt_of_lt_of_le hgrows (le_stride_of_denseAlong hrest he)
    · rw [denseAlong_cons_of_le (Nat.not_lt.mp hlong)] at h
      rw [Rect.longDims_cons_of_le (Nat.not_lt.mp hlong)]
      exact ih hpos h

theorem denseAlong_zero : a.denseAlong r 0 order = true ↔
    ∀ d ∈ r.longDims order, (a.rule.strides.get d).toNat = 0 := by
  induction order with
  | nil => simp [denseAlong, Rect.longDims]
  | cons d order ih =>
    by_cases hlong : 1 < r.extent d
    · rw [denseAlong_cons_of_lt hlong, Rect.longDims_cons_of_lt hlong, List.forall_mem_cons,
        Nat.zero_mul, ih]
    · rw [denseAlong_cons_of_le (Nat.not_lt.mp hlong),
        Rect.longDims_cons_of_le (Nat.not_lt.mp hlong), ih]

theorem StrideLE.trans {d e f : Fin n} (hde : a.StrideLE d e) (hef : a.StrideLE e f) :
    a.StrideLE d f := by
  simp only [StrideLE, UInt64.lt_iff_toNat_lt, ← UInt64.toNat_inj] at hde hef ⊢
  omega

theorem strideLE_total (a : AffineAccessor t n) (d e : Fin n) :
    a.StrideLE d e ∨ a.StrideLE e d := by
  simp only [StrideLE, UInt64.lt_iff_toNat_lt, ← UInt64.toNat_inj]
  omega

theorem StrideLE.antisymm {d e : Fin n} (hde : a.StrideLE d e) (hed : a.StrideLE e d) : d = e := by
  simp only [StrideLE, UInt64.lt_iff_toNat_lt, ← UInt64.toNat_inj] at hde hed
  omega

theorem byStride_perm (a : AffineAccessor t n) : a.byStride.Perm (List.finRange n) :=
  List.mergeSort_perm _ _

theorem pairwise_byStride (a : AffineAccessor t n) : a.byStride.Pairwise a.StrideLE := by
  have hsorted : a.byStride.Pairwise fun d e => decide (a.StrideLE d e) = true := by
    apply List.pairwise_mergeSort
    · intro d e f hde hef
      exact decide_eq_true ((of_decide_eq_true hde).trans (of_decide_eq_true hef))
    · intro d e
      simpa using a.strideLE_total d e
  exact hsorted.imp of_decide_eq_true

/-- Among the dimensions that take part, a dense order of elements with bytes is the only one in
which the strides never fall. -/
theorem longDims_eq_of_denseAlong (hpos : 0 < expected) (hperm : order.Perm order')
    (h : a.denseAlong r expected order = true)
    (hsorted : (r.longDims order').Pairwise a.StrideLE) :
    r.longDims order' = r.longDims order := by
  have hstrict := pairwise_of_denseAlong hpos h
  have hsorted' : (r.longDims order).Pairwise a.StrideLE := hstrict.imp Or.inl
  apply List.Perm.eq_of_pairwise _ hsorted hsorted' (hperm.symm.filter _)
  intro d e _ _ hde hed
  exact hde.antisymm hed

theorem denseArbitrary_of_denseAlong (horder : order.Perm (List.finRange n))
    (h : a.denseAlong r a.element order = true) : a.denseArbitrary r = true := by
  have hperm := horder.trans a.byStride_perm.symm
  rw [denseArbitrary]
  by_cases hpos : 0 < a.element
  -- elements with bytes leave one order, which is the one by stride
  · have hsorted := a.pairwise_byStride.filter fun d => 1 < r.extent d
    rw [← denseAlong_longDims, longDims_eq_of_denseAlong hpos hperm h hsorted,
      denseAlong_longDims, h]
  -- without bytes all strides that count are zero, in any order
  · have hzero : a.element = 0 := Nat.eq_zero_of_not_pos hpos
    rw [hzero, denseAlong_zero] at h ⊢
    intro d hd
    apply h d
    rw [Rect.mem_longDims] at hd ⊢
    exact ⟨hperm.mem_iff.mpr hd.1, hd.2⟩

/-- No test leaves 128 bits. Along the order by stride the elements of a rectangle are dense
exactly if they are along some order, and where a test finds them dense they form one run along its
order. -/
theorem dense_runs (a : AffineAccessor t n) (r : Rect t n) :
    (∀ order, a.denseAlongChecked r a.element order = .ok (a.denseAlong r a.element order)) ∧
    a.byStride.Perm (List.finRange n) ∧ a.byStride.Pairwise a.StrideLE ∧
    (a.denseArbitrary r = true ↔ ∃ order : List (Fin n), order.Perm (List.finRange n) ∧
      a.denseAlong r a.element order = true) ∧
    (¬ r.IsEmpty →
      (a.denseRowMajor r = true → a.RunsAlong r (List.finRange n).reverse) ∧
      (a.denseColumnMajor r = true → a.RunsAlong r (List.finRange n)) ∧
      (a.denseArbitrary r = true → a.RunsAlong r a.byStride)) := by
  refine ⟨a.denseAlongChecked_eq r _, a.byStride_perm, a.pairwise_byStride, ?_, ?_⟩
  · constructor
    · intro h
      exact ⟨a.byStride, a.byStride_perm, h⟩
    · intro h
      obtain ⟨order, horder, hdense⟩ := h
      exact denseArbitrary_of_denseAlong horder hdense
  · intro hr
    refine ⟨?_, ?_, ?_⟩
    · exact runsAlong_of_denseAlong hr (List.reverse_perm _)
    · exact runsAlong_of_denseAlong hr (List.Perm.refl _)
    · exact runsAlong_of_denseAlong hr a.byStride_perm

/-- Two rows of three elements, with a dimension of one coordinate between them. -/
def thin : Rect .i32 3 :=
  ⟨Point.splat 3 (Coord.wrap .i32 (-1)),
    Vector.ofFn fun d => Coord.wrap .i32 (if d.val = 1 then -1 else if d.val = 0 then 0 else 1)⟩

/-- The stride of the dimension of one coordinate is never taken. -/
private def thinAccessor : AffineAccessor .i32 3 :=
  ⟨4, ⟨100, Vector.ofFn fun d =>
    if d.val = 1 then 0xfffffffffffffff9 else if d.val = 0 then 12 else 4⟩, 200, none⟩

theorem dense_runs_thin :
    ¬ thin.IsEmpty ∧ thinAccessor.denseRowMajor thin = true ∧
      thinAccessor.RunsAlong thin (List.finRange 3).reverse ∧
      thinAccessor.RunsAlong thin thinAccessor.byStride := by
  have hthin : ¬ thin.IsEmpty := by decide
  have hrows : thinAccessor.denseRowMajor thin = true := by decide
  obtain ⟨_, _, _, harbitrary, hruns⟩ := dense_runs thinAccessor thin
  have hsorted := harbitrary.mpr ⟨_, List.reverse_perm _, hrows⟩
  exact ⟨hthin, hrows, (hruns hthin).1 hrows, (hruns hthin).2.2 hsorted⟩

end AffineAccessor

end RegionLayout
