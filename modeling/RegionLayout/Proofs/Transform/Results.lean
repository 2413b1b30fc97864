import Mathlib.Algebra.Order.BigOperators.Group.List
import Mathlib.Algebra.Order.Ring.Abs
import RegionLayout.Proofs.Transform

/-!
# When a transform has a result

A coordinate of an image is summed up in 128 signed bits and then taken by way of a signed 64 bit
number. So in unsigned 64 bit coordinates an image from `2 ^ 63` on is refused.
-/

namespace RegionLayout

variable {t s : CoordType} {m n : Nat}

/-- A number of 128 signed bits. -/
def Fits128 (x : Int) : Prop := -signedLimit128 ≤ x ∧ x < signedLimit128

/-- Some coordinate of the type has this value. -/
def CoordType.Holds (t : CoordType) (x : Int) : Prop := t.minVal ≤ x ∧ x ≤ t.maxVal

namespace Coord

theorem holds (c : Coord t) : t.Holds c.val := ⟨c.minVal_le, c.le_maxVal⟩

theorem abs_val_lt (c : Coord t) : |c.val| < t.span := by
  have hlo := c.minVal_le
  have hhi := c.le_maxVal
  rw [abs_lt]
  cases t <;> simp only [CoordType.minVal, CoordType.maxVal, CoordType.span] at * <;> omega

end Coord

namespace Transform

/-- Each term fits 128 bits, and so does each sum from `start` on. -/
structure SumsFit (start : Int) (terms : List Int) : Prop where
  term : ∀ x ∈ terms, Fits128 x
  sum : ∀ k < terms.length, Fits128 (start + (terms.take (k + 1)).sum)

/-- The products of a row with a point, in order of dimension. -/
def products (row : Point t n) (p : Point s n) : List Int :=
  List.ofFn fun j => (row.get j).val * (p.get j).val

/-- The coordinates of the image of a point as integers, computed without bounds. -/
def exactImage (f : Transform t m n) (p : Point s n) (offset : Point t m) (i : Fin m) : Int :=
  (offset.get i).val + (products (f.rows.get i) p).sum

/-- The result is the exact image wherever that is a point, and there is no result elsewhere. -/
def ExactAt (f : Transform t m n) (p : Point s n) (offset : Point t m) : Prop :=
  (∀ q : Point t m, (∀ i, (q.get i).val = f.exactImage p offset i) →
    f.apply p offset = some q) ∧
  (f.apply p offset = none ↔ ∃ i, ¬ t.Holds (f.exactImage p offset i))

theorem sumsFit_nil (start : Int) : SumsFit start [] := ⟨by simp, by simp⟩

theorem sumsFit_cons {start x : Int} {terms : List Int} :
    SumsFit start (x :: terms) ↔
      Fits128 x ∧ Fits128 (start + x) ∧ SumsFit (start + x) terms := by
  have hsums : (∀ k < (x :: terms).length, Fits128 (start + ((x :: terms).take (k + 1)).sum)) ↔
      Fits128 (start + x) ∧
        ∀ k < terms.length, Fits128 (start + x + (terms.take (k + 1)).sum) := by
    rw [List.length_cons, Nat.forall_lt_succ_left']
    simp [Int.add_assoc]
  constructor
  · intro h
    have hterm := List.forall_mem_cons.mp h.term
    have hsum := hsums.mp h.sum
    exact ⟨hterm.1, hsum.1, hterm.2, hsum.2⟩
  · intro h
    exact ⟨List.forall_mem_cons.mpr ⟨h.1, h.2.2.term⟩, hsums.mpr ⟨h.2.1, h.2.2.sum⟩⟩

theorem fit128_eq_some_iff {x y : Int} : fit128 x = some y ↔ Fits128 x ∧ x = y := fit128_eq_some

theorem fits128_min_max {x y : Int} :
    Fits128 x ∧ Fits128 y ↔ Fits128 (min x y) ∧ Fits128 (max x y) := by
  simp only [Fits128]
  omega

theorem accumulateStep_eq_some {acc x next : Int} :
    (do
      let product ← fit128 x
      fit128 (acc + product)) = some next ↔ Fits128 x ∧ Fits128 (acc + x) ∧ acc + x = next := by
  simp only [Option.bind_eq_bind, Option.bind_eq_some_iff, fit128_eq_some_iff, and_assoc,
    exists_and_left, exists_eq_left']

/-- A sum formed term by term is the exact sum as long as everything on the way fits. -/
private theorem foldlM_fit128 {terms : List Int} {start x : Int} :
    terms.foldlM (fun acc term => do
      let product ← fit128 term
      fit128 (acc + product)) start = some x ↔
        SumsFit start terms ∧ start + terms.sum = x := by
  induction terms generalizing start with
  | nil => simp [sumsFit_nil]
  | cons term terms ih =>
    rw [List.foldlM_cons, sumsFit_cons, List.sum_cons, ← Int.add_assoc]
    apply Option.bind_eq_some_iff.trans
    simp only [accumulateStep_eq_some, ih, and_assoc, exists_and_left, exists_eq_left']

theorem accumulate_eq_some_iff {row : Point t n} {p : Point s n} {start x : Int} :
    accumulate row p start = some x ↔
      SumsFit start (products row p) ∧ start + (products row p).sum = x := by
  rw [← foldlM_fit128, products, List.ofFn_eq_map, List.foldlM_map]
  rfl

/-- A product with a 32 bit coordinate takes 96 bits at most, and the sum of `2 ^ 31` of them still
fits 128. -/
theorem sumsFit_of_narrow (ht : t.bytes = 4) (hn : n ≤ 0x80000000) (c : Coord t)
    (row : Point t n) (p : Point s n) : SumsFit c.val (products row p) := by
  have hcoord : ∀ c : Coord t, |c.val| ≤ 0xffffffff := by
    intro c
    have hlt := c.abs_val_lt
    rw [t.span_eq, ht] at hlt
    exact Int.le_of_lt_add_one hlt
  have hother : ∀ c : Coord s, |c.val| ≤ 0xffffffffffffffff := fun c =>
    Int.le_of_lt_add_one (Int.lt_of_lt_of_le c.abs_val_lt (by cases s <;> decide))
  have hproduct : ∀ x ∈ products row p, |x| ≤ 0xffffffff * 0xffffffffffffffff := by
    intro x hx
    obtain ⟨j, rfl⟩ := List.mem_ofFn.mp hx
    rw [abs_mul]
    exact mul_le_mul (hcoord _) (hother _) (abs_nonneg _) (by decide)
  have hstart := abs_le.mp (hcoord c)
  refine ⟨fun x hx => ?_, fun k hk => ?_⟩
  · have hx' := abs_le.mp (hproduct x hx)
    rw [Fits128, signedLimit128]
    omega
  · rw [products, List.length_ofFn] at hk
    have hpart : ∀ x ∈ (products row p).take (k + 1),
        |x| ≤ 0xffffffff * 0xffffffffffffffff := fun x hx =>
      hproduct x (List.mem_of_mem_take hx)
    have hlength : ((products row p).take (k + 1)).length ≤ 0x80000000 :=
      Nat.le_trans (List.length_take_le _ _) (by omega)
    have hupper := List.sum_le_card_nsmul _ _ fun x hx => (abs_le.mp (hpart x hx)).2
    have hlower := List.card_nsmul_le_sum _ _ fun x hx => (abs_le.mp (hpart x hx)).1
    rw [nsmul_eq_mul] at hupper hlower
    rw [Fits128, signedLimit128]
    omega

variable {f : Transform t m n} {p : Point s n} {q offset : Point t m}

theorem apply_eq_some_iff : f.apply p offset = some q ↔
    (∀ i, (q.get i).val = f.exactImage p offset i) ∧
      ∀ i, f.exactImage p offset i ≤ CoordType.i64.maxVal ∧
        SumsFit (offset.get i).val (products (f.rows.get i) p) := by
  simp only [apply_eq_some, accumulate_eq_some_iff, ← forall_and]
  apply forall_congr'
  intro i
  rw [← exactImage]
  constructor
  · intro h
    exact ⟨h.1.2.symm, h.1.2 ▸ h.2, h.1.1⟩
  · intro h
    exact ⟨⟨h.2.2, h.1.symm⟩, h.1 ▸ h.2.1⟩

theorem exists_point {x : Fin m → Int} :
    (∃ q : Point t m, ∀ i, (q.get i).val = x i) ↔ ∀ i, t.Holds (x i) := by
  constructor
  · intro h i
    obtain ⟨q, hq⟩ := h
    exact hq i ▸ (q.get i).holds
  · intro h
    refine ⟨Vector.ofFn fun i => ⟨x i, (h i).1, (h i).2⟩, fun i => ?_⟩
    rw [get_ofFn]

theorem apply_eq_none_iff : f.apply p offset = none ↔
    ∃ i, ¬ (t.Holds (f.exactImage p offset i) ∧
      f.exactImage p offset i ≤ CoordType.i64.maxVal ∧
        SumsFit (offset.get i).val (products (f.rows.get i) p)) := by
  have hsome : (∃ q, f.apply p offset = some q) ↔
      ∀ i, t.Holds (f.exactImage p offset i) ∧
        f.exactImage p offset i ≤ CoordType.i64.maxVal ∧
          SumsFit (offset.get i).val (products (f.rows.get i) p) := by
    simp only [apply_eq_some_iff, exists_and_right, exists_point, forall_and]
  rw [← not_forall, ← hsome, ← Option.isSome_iff_exists, Option.not_isSome_iff_eq_none]

theorem exactAt_of_fits
    (h : ∀ i, t.Holds (f.exactImage p offset i) →
      f.exactImage p offset i ≤ CoordType.i64.maxVal ∧
        SumsFit (offset.get i).val (products (f.rows.get i) p)) : f.ExactAt p offset := by
  constructor
  · intro q hq
    exact apply_eq_some_iff.mpr ⟨hq, fun i => h i (hq i ▸ (q.get i).holds)⟩
  · rw [apply_eq_none_iff]
    apply exists_congr
    intro i
    exact not_congr (and_iff_left_of_imp (h i))

/-- A transform has a result exactly if each exact coordinate is one of the type and of signed 64
bit numbers and all steps towards it fit 128 bits, and the result is then exact. Nothing else is
refused if the coordinates are not unsigned 64 bit numbers and the steps fit, as they do for all
matrices of 32 bit coordinates. -/
theorem apply_exact (f : Transform t m n) (p : Point s n) (offset : Point t m) :
    (∀ q, f.apply p offset = some q ↔
      (∀ i, (q.get i).val = f.exactImage p offset i) ∧
        ∀ i, f.exactImage p offset i ≤ CoordType.i64.maxVal ∧
          SumsFit (offset.get i).val (products (f.rows.get i) p)) ∧
    (f.apply p offset = none ↔
      ∃ i, ¬ (t.Holds (f.exactImage p offset i) ∧
        f.exactImage p offset i ≤ CoordType.i64.maxVal ∧
          SumsFit (offset.get i).val (products (f.rows.get i) p))) ∧
    (t ≠ .u64 → (∀ i, SumsFit (offset.get i).val (products (f.rows.get i) p)) →
      f.ExactAt p offset) ∧
    (t.bytes = 4 → n ≤ 0x80000000 → f.ExactAt p offset) := by
  have hsigned : t ≠ .u64 → ∀ x, t.Holds x → x ≤ CoordType.i64.maxVal := by
    intro ht x hx
    apply Int.le_trans hx.2
    cases t
    case u64 => contradiction
    all_goals decide
  refine ⟨fun q => apply_eq_some_iff, apply_eq_none_iff, ?_, ?_⟩
  · intro ht hfit
    exact exactAt_of_fits fun i hi => ⟨hsigned ht _ hi, hfit i⟩
  · intro ht hn
    have hwide : t ≠ .u64 := by
      intro h
      rw [h] at ht
      contradiction
    exact exactAt_of_fits fun i hi =>
      ⟨hsigned hwide _ hi, sumsFit_of_narrow ht hn _ _ _⟩

/-- A row of the largest factor meets coordinates that cancel. -/
private def cancelling : Transform .u32 1 2 :=
  ⟨Vector.replicate 1 (Point.splat 2 (Coord.wrap .u32 0xffffffff))⟩

private def farApart : Point .i64 2 :=
  Vector.ofFn fun d =>
    Coord.wrap .i64 (if d.val = 0 then 0x7fffffffffffffff else -0x7fffffffffffffff)

theorem apply_exact_cancelling :
    cancelling.ExactAt farApart (Point.splat 1 (Coord.wrap .u32 7)) ∧
      cancelling.apply farApart (Point.splat 1 (Coord.wrap .u32 7)) =
        some (Point.splat 1 (Coord.wrap .u32 7)) := by
  have hexact := (apply_exact cancelling farApart (Point.splat 1 (Coord.wrap .u32 7))).2.2.2
    (by decide) (by decide)
  exact ⟨hexact, hexact.1 _ (by decide)⟩

/-- The identity has no result for a point that it takes to itself: `2 ^ 63` is an unsigned 64 bit
coordinate, but no signed one. -/
theorem not_all_images_found :
    ¬ ∀ (t s : CoordType) (m n : Nat) (f : Transform t m n) (p : Point s n) (offset : Point t m),
      f.ExactAt p offset := by
  intro h
  have hexact := h .u64 .u64 1 1 (identity .u64 1 1)
    (Point.splat 1 (Coord.wrap .u64 0x8000000000000000)) (Point.zero .u64 1)
  have hresult := hexact.1 (Point.splat 1 (Coord.wrap .u64 0x8000000000000000)) (by decide)
  exact absurd hresult (by decide)

end Transform

end RegionLayout
