import RegionLayout.Proofs.Rect.Counting

namespace RegionLayout

variable {t : CoordType} {n : Nat}

theorem not_overlaps_of_isEmpty {a b : Rect t n} (h : a.IsEmpty ∨ b.IsEmpty) :
    ¬ a.Overlaps b := by
  rw [Rect.overlaps_iff]
  intro hcommon
  obtain ⟨p, hpa, hpb⟩ := hcommon
  cases h with
  | inl ha => exact Rect.not_mem_of_isEmpty ha hpa
  | inr hb => exact Rect.not_mem_of_isEmpty hb hpb

theorem pairwiseDisjoint_filter_iff {rects : List (Rect t n)} :
    PairwiseDisjoint (rects.filter fun r => ¬ r.IsEmpty) ↔ PairwiseDisjoint rects := by
  induction rects with
  | nil => rfl
  | cons r rects ih =>
    simp only [PairwiseDisjoint] at ih ⊢
    rw [List.pairwise_cons, ← ih]
    by_cases hr : r.IsEmpty
    · rw [List.filter_cons_of_neg (by simpa using hr)]
      exact (and_iff_right fun b _ => not_overlaps_of_isEmpty (.inl hr)).symm
    · rw [List.filter_cons_of_pos (by simpa using hr), List.pairwise_cons]
      apply and_congr_left'
      constructor
      · intro h b hb
        by_cases hempty : b.IsEmpty
        · exact not_overlaps_of_isEmpty (.inr hempty)
        · exact h b (List.mem_filter.mpr ⟨hb, by simpa using hempty⟩)
      · intro h b hb
        exact h b (List.mem_filter.mp hb).1

namespace IndexSpace

variable {space : IndexSpace t n}

/-- The space consists of the points and answers by them. -/
structure Measures (space : IndexSpace t n) (points : Set (Point t n)) : Prop where
  mem_iff : ∀ p, p ∈ space ↔ p ∈ points
  volume?_eq_some_iff : ∀ count,
    space.volume? = some count ↔ points.ncard = count ∧ count < volumeLimit
  volume?_eq_none_iff : space.volume? = none ↔ volumeLimit ≤ points.ncard
  isEmpty_iff : space.IsEmpty ↔ points = ∅
  bounds_least : points.Nonempty → (∀ p ∈ points, p ∈ space.bounds) ∧
    ∀ r : Rect t n, (∀ p ∈ points, p ∈ r) → space.bounds ⊆ r

theorem isEmpty_iff_pointSet : space.IsEmpty ↔ space.pointSet = ∅ := by
  rw [Set.eq_empty_iff_forall_notMem]
  constructor
  · intro h p hp
    obtain ⟨r, hr, hpr⟩ := hp
    exact Rect.not_mem_of_isEmpty (h r hr) hpr
  · intro h r hr
    rw [Rect.isEmpty_iff]
    intro p hp
    exact h p ⟨r, hr, hp⟩

theorem subset_bounds {r : Rect t n} (hr : r ∈ space.rects) : r ⊆ space.bounds := by
  cases space with
  | dense whole =>
    have hwhole : r = whole := List.mem_singleton.mp hr
    exact hwhole ▸ Rect.subset_refl r
  | sparse rects inhabited disjoint => exact Rect.subset_hullOf hr

theorem mem_bounds {p : Point t n} (hp : p ∈ space) : p ∈ space.bounds := by
  obtain ⟨r, hr, hpr⟩ := hp
  exact Rect.subset_iff.mp (subset_bounds hr) p hpr

theorem bounds_subset {r : Rect t n} (h : ∀ a ∈ space.rects, a ⊆ r) : space.bounds ⊆ r := by
  cases space with
  | dense bounds => exact h bounds (List.mem_singleton_self _)
  | sparse rects _ _ => exact Rect.hullOf_subset h

theorem bounds_subset_of_mem {r : Rect t n} (h : ∀ p ∈ space, p ∈ r) : space.bounds ⊆ r := by
  apply bounds_subset
  intro a ha
  rw [Rect.subset_iff]
  intro p hp
  exact h p ⟨a, ha, hp⟩

theorem measures_pointSet (space : IndexSpace t n) : space.Measures space.pointSet where
  mem_iff _ := Iff.rfl
  volume?_eq_some_iff count := by rw [space.volume?_eq, checkedCount_eq_some_iff]
  volume?_eq_none_iff := by rw [space.volume?_eq, checkedCount_eq_none_iff]
  isEmpty_iff := isEmpty_iff_pointSet
  bounds_least _ := ⟨fun _ hp => mem_bounds hp, fun _ h => bounds_subset_of_mem h⟩

theorem pointSet_dense (bounds : Rect t n) : (dense bounds).pointSet = bounds.pointSet := by
  ext p
  change (∃ r ∈ [bounds], p ∈ r) ↔ p ∈ bounds
  simp

theorem exists_ofRects_iff {rects : List (Rect t n)} :
    (∃ space, ofRects rects = .ok space) ↔
      PairwiseDisjoint (rects.filter fun r => ¬ r.IsEmpty) := by
  rw [pairwiseDisjoint_filter_iff, ofRects]
  split
  case isTrue h => simp [h]
  case isFalse h => simp [h]

theorem rects_of_ofRects {rects : List (Rect t n)} (h : ofRects rects = .ok space) :
    space.isDense = false ∧ space.rects = rects.filter fun r => ¬ r.IsEmpty := by
  rw [ofRects] at h
  split at h
  case isTrue =>
    rw [← Except.ok.inj h]
    exact ⟨rfl, rfl⟩
  case isFalse => contradiction

theorem pointSet_ofRects {rects : List (Rect t n)} (h : ofRects rects = .ok space) :
    space.pointSet = Rect.unionSet rects := by
  ext p
  change (∃ r ∈ space.rects, p ∈ r) ↔ ∃ r ∈ rects, p ∈ r
  rw [(rects_of_ofRects h).2]
  constructor
  · intro hp
    obtain ⟨r, hr, hpr⟩ := hp
    exact ⟨r, (List.mem_filter.mp hr).1, hpr⟩
  · intro hp
    obtain ⟨r, hr, hpr⟩ := hp
    have hinhabited : ¬ r.IsEmpty := fun hempty => Rect.not_mem_of_isEmpty hempty hpr
    exact ⟨r, List.mem_filter.mpr ⟨hr, by simpa using hinhabited⟩, hpr⟩

/-- A space of all of a rectangle measures the points of the rectangle. A space of several
rectangles can be made exactly if no two of those with points overlap, and it then measures the
points of them all. -/
theorem measures_points (t : CoordType) (n : Nat) :
    (∀ bounds : Rect t n, (dense bounds).Measures bounds.pointSet) ∧
    ∀ rects : List (Rect t n),
      ((∃ space, ofRects rects = .ok space) ↔
        PairwiseDisjoint (rects.filter fun r => ¬ r.IsEmpty)) ∧
      ∀ space, ofRects rects = .ok space →
        space.isDense = false ∧ space.Measures (Rect.unionSet rects) := by
  constructor
  · intro bounds
    exact pointSet_dense bounds ▸ (dense bounds).measures_pointSet
  · intro rects
    refine ⟨exists_ofRects_iff, ?_⟩
    intro space h
    exact ⟨(rects_of_ofRects h).1, pointSet_ofRects h ▸ space.measures_pointSet⟩

end IndexSpace

end RegionLayout
