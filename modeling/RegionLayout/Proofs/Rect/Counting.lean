import Mathlib.Algebra.BigOperators.Fin
import Mathlib.Algebra.BigOperators.Ring.List
import Mathlib.Data.Fintype.BigOperators
import Mathlib.Data.Int.ConditionallyCompleteOrder
import Mathlib.Data.Int.Interval
import Mathlib.Data.Set.Card
import RegionLayout.IndexSpace
import RegionLayout.Rect.Lemmas

/-!
# Counting points

The counts formed step by step in 128 bits are the numbers of points whenever these fit: the extents
of a rectangle with points are positive, so no product on the way is larger than the last one.
-/

namespace RegionLayout

variable {t : CoordType} {n : Nat}

instance : Finite (Coord t) :=
  Finite.of_injective (fun c : Coord t => (⟨c.val, c.minVal_le, c.le_maxVal⟩ :
    Set.Icc t.minVal t.maxVal)) fun _ _ h => Coord.ext (congrArg Subtype.val h)

namespace Point

/-- The coordinates of a point as integers. -/
def values (p : Point t n) : Fin n → Int := fun d => (p.get d).val

theorem values_injective : Function.Injective (values : Point t n → Fin n → Int) := by
  intro p q h
  apply Vector.ext
  intro i hi
  exact Coord.ext (congrFun h ⟨i, hi⟩)

end Point

instance : Finite (Point t n) :=
  Finite.of_injective (fun (p : Point t n) (d : Fin n) => p.get d) fun _ _ h =>
    Point.values_injective (funext fun d => congrArg Coord.val (congrFun h d))

theorem checkedCount_of_lt {count : Nat} (h : count < volumeLimit) :
    checkedCount count = some count := if_pos h

theorem checkedCount_of_le {count : Nat} (h : volumeLimit ≤ count) : checkedCount count = none :=
  if_neg (Nat.not_lt.mpr h)

theorem checkedCount_eq_some_iff {count result : Nat} :
    checkedCount count = some result ↔ count = result ∧ result < volumeLimit := by
  rw [checkedCount]
  split
  case isTrue hlt =>
    constructor
    · intro h
      have heq := Option.some.inj h
      exact ⟨heq, heq ▸ hlt⟩
    · intro h
      rw [h.1]
  case isFalse hge =>
    constructor
    · intro h
      contradiction
    · intro h
      exact absurd (h.1 ▸ h.2) hge

theorem checkedCount_eq_none_iff {count : Nat} :
    checkedCount count = none ↔ volumeLimit ≤ count := by
  simp [checkedCount]

namespace Rect

def pointSet (r : Rect t n) : Set (Point t n) := {p | p ∈ r}

/-- The points of several rectangles. -/
def unionSet (rects : List (Rect t n)) : Set (Point t n) := {p | ∃ r ∈ rects, p ∈ r}

theorem image_values_pointSet (r : Rect t n) : Point.values '' r.pointSet =
    (Fintype.piFinset fun d => Finset.Icc (r.lo.get d).val (r.hi.get d).val :
      Set (Fin n → Int)) := by
  ext f
  simp only [Set.mem_image, Finset.mem_coe, Fintype.mem_piFinset, Finset.mem_Icc]
  constructor
  · rintro ⟨p, hp, rfl⟩
    exact hp
  · intro hf
    let p : Point t n := Vector.ofFn fun d =>
      ⟨f d, Int.le_trans (r.lo.get d).minVal_le (hf d).1,
        Int.le_trans (hf d).2 (r.hi.get d).le_maxVal⟩
    have hvalues : p.values = f := funext fun d => congrArg Coord.val (get_ofFn _ d)
    refine ⟨p, fun d => ?_, hvalues⟩
    have hd : (p.get d).val = f d := congrFun hvalues d
    simp only [Coord.le_def, hd]
    exact hf d

theorem count_eq_prod (r : Rect t n) : r.count = (List.ofFn r.extent).prod :=
  List.prod_eq_foldl.symm

theorem ncard_pointSet (r : Rect t n) : r.pointSet.ncard = r.count :=
  calc r.pointSet.ncard
      = (Point.values '' r.pointSet).ncard :=
        (Set.ncard_image_of_injective _ Point.values_injective).symm
    _ = (Fintype.piFinset fun d => Finset.Icc (r.lo.get d).val (r.hi.get d).val).card := by
        rw [image_values_pointSet, Set.ncard_coe_finset]
    _ = ∏ d, (Finset.Icc (r.lo.get d).val (r.hi.get d).val).card := Fintype.card_piFinset _
    _ = ∏ d, r.extent d := by
        refine Finset.prod_congr rfl fun d _ => ?_
        rw [Int.card_Icc, extent]
        congr 1
        omega
    _ = r.count := by rw [count_eq_prod, List.prod_ofFn]

theorem extent_pos {r : Rect t n} (h : ¬ r.IsEmpty) (d : Fin n) : 0 < r.extent d := by
  have hle : (r.lo.get d).val ≤ (r.hi.get d).val := lo_le_hi h d
  rw [extent]
  omega

theorem count_of_isEmpty {r : Rect t n} (h : r.IsEmpty) : r.count = 0 := by
  obtain ⟨d, hd⟩ := h
  have hzero : r.extent d = 0 := by
    have : (r.hi.get d).val < (r.lo.get d).val := hd
    rw [extent]
    omega
  rw [count_eq_prod]
  exact List.prod_eq_zero_iff.mpr (List.mem_ofFn.mpr ⟨d, hzero⟩)

private theorem foldlM_mul {extents : List Nat} (hpos : ∀ e ∈ extents, 0 < e) {acc : Nat}
    (hacc : acc < volumeLimit) :
    extents.foldlM (fun acc e => checkedCount (acc * e)) acc =
      checkedCount (acc * extents.prod) := by
  induction extents generalizing acc with
  | nil =>
    simp only [List.foldlM_nil, List.prod_nil, Nat.mul_one]
    exact (checkedCount_of_lt hacc).symm
  | cons e extents ih =>
    have hrest : ∀ e ∈ extents, 0 < e := fun e he => hpos e (List.mem_cons_of_mem _ he)
    rw [List.foldlM_cons, List.prod_cons, ← Nat.mul_assoc]
    by_cases hlt : acc * e < volumeLimit
    · rw [checkedCount_of_lt hlt]
      exact ih hrest hlt
    -- what does not fit now does not fit after multiplying by the other extents
    · have hzero : 0 ∉ extents := fun hmem => Nat.lt_irrefl 0 (hrest 0 hmem)
      have hprod : 0 < extents.prod := Nat.pos_of_ne_zero (List.prod_ne_zero hzero)
      have hle : volumeLimit ≤ acc * e * extents.prod :=
        Nat.le_trans (Nat.not_lt.mp hlt) (Nat.le_mul_of_pos_right _ hprod)
      rw [checkedCount_of_le (Nat.not_lt.mp hlt), checkedCount_of_le hle]
      rfl

theorem volume?_eq (r : Rect t n) : r.volume? = checkedCount r.count := by
  rw [volume?]
  split
  case isTrue h =>
    rw [count_of_isEmpty h]
    rfl
  case isFalse h =>
    have hpos : ∀ e ∈ List.ofFn r.extent, 0 < e := by
      intro e he
      obtain ⟨d, rfl⟩ := List.mem_ofFn.mp he
      exact extent_pos h d
    rw [foldlM_mul hpos (by decide), Nat.one_mul, count_eq_prod]

private theorem foldlM_add (rects : List (Rect t n)) {acc : Nat} (hacc : acc < volumeLimit) :
    rects.foldlM (fun acc r => do checkedCount (acc + (← r.volume?))) acc =
      checkedCount (acc + (rects.map count).sum) := by
  induction rects generalizing acc with
  | nil =>
    simp only [List.foldlM_nil, List.map_nil, List.sum_nil, Nat.add_zero]
    exact (checkedCount_of_lt hacc).symm
  | cons r rects ih =>
    rw [List.foldlM_cons, List.map_cons, List.sum_cons, ← Nat.add_assoc, volume?_eq]
    by_cases hlt : acc + r.count < volumeLimit
    · rw [checkedCount_of_lt (Nat.lt_of_le_of_lt (Nat.le_add_left _ _) hlt)]
      simp only [Option.bind_eq_bind, Option.bind_some, checkedCount_of_lt hlt]
      exact ih hlt
    · have hle : volumeLimit ≤ acc + r.count + (rects.map count).sum :=
        Nat.le_trans (Nat.not_lt.mp hlt) (Nat.le_add_right _ _)
      have hnone : (checkedCount r.count).bind (fun v => checkedCount (acc + v)) = none := by
        rw [checkedCount]
        split
        · exact checkedCount_of_le (Nat.not_lt.mp hlt)
        · rfl
      rw [checkedCount_of_le hle, Option.bind_eq_bind, hnone]
      rfl

theorem totalVolume?_eq (rects : List (Rect t n)) :
    totalVolume? rects = checkedCount (rects.map count).sum := by
  rw [totalVolume?, foldlM_add rects (by decide), Nat.zero_add]

theorem ncard_unionSet {rects : List (Rect t n)} (h : PairwiseDisjoint rects) :
    (unionSet rects).ncard = (rects.map count).sum := by
  induction rects with
  | nil => simp [unionSet]
  | cons r rects ih =>
    obtain ⟨hfirst, hrest⟩ := List.pairwise_cons.mp h
    have hunion : unionSet (r :: rects) = r.pointSet ∪ unionSet rects := by
      ext p
      simp [unionSet, pointSet]
    have hapart : Disjoint r.pointSet (unionSet rects) := by
      rw [Set.disjoint_left]
      rintro p hp ⟨r', hr', hp'⟩
      exact hfirst r' hr' (overlaps_iff.mpr ⟨p, hp, hp'⟩)
    rw [hunion, Set.ncard_union_eq hapart (Set.toFinite _) (Set.toFinite _), ncard_pointSet,
      ih hrest, List.map_cons, List.sum_cons]

theorem totalVolume?_of_disjoint {rects : List (Rect t n)} (h : PairwiseDisjoint rects) :
    totalVolume? rects = checkedCount (unionSet rects).ncard := by
  rw [totalVolume?_eq, ncard_unionSet h]

end Rect

namespace IndexSpace

def pointSet (space : IndexSpace t n) : Set (Point t n) := {p | p ∈ space}

theorem disjoint_rects (space : IndexSpace t n) : PairwiseDisjoint space.rects := by
  cases space with
  | dense bounds => exact List.pairwise_singleton _ _
  | sparse rects _ disjoint => exact disjoint

theorem volume?_eq (space : IndexSpace t n) :
    space.volume? = checkedCount space.pointSet.ncard :=
  Rect.totalVolume?_of_disjoint space.disjoint_rects

end IndexSpace

end RegionLayout
