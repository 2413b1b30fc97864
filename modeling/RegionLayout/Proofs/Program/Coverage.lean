import RegionLayout.Program.Coverage
import RegionLayout.Proofs.Rect.Counting

/-!
# Coverage is a matter of points

Pieces that pass the first checks lie inside the bounds and share no point, so the numbers that are
compared are those of the points themselves.
-/

namespace RegionLayout

variable {t : CoordType} {n : Nat} {space : IndexSpace t n} {allowed : OpcodeSet}
  {pieces : PieceList t n} {list : Nat}

/-- What is asked of the pieces before any point is counted. -/
structure Admissible (space : IndexSpace t n) (allowed : OpcodeSet) (pieces : PieceList t n) :
    Prop where
  evaluable : pieces = [] ∨ Opcode.affinePiece ∈ allowed
  inside : ∀ q ∈ pieces, ∀ p ∈ q.bounds, p ∈ space.bounds
  apart : List.Pairwise (fun q q' => ∀ p ∈ q.bounds, p ∉ q'.bounds) pieces

/-- The points of the space that lie in some piece. -/
def coveredSet (space : IndexSpace t n) (pieces : PieceList t n) : Set (Point t n) :=
  {p | p ∈ space ∧ ∃ q ∈ pieces, p ∈ q.bounds}

theorem firstPieceDefect?_eq_none_iff {bounds : Rect t n} {index : Nat} :
    firstPieceDefect? list bounds allowed index pieces = none ↔
      ∀ q ∈ pieces, Opcode.affinePiece ∈ allowed ∧ q.bounds ⊆ bounds := by
  induction pieces generalizing index with
  | nil => simp [firstPieceDefect?]
  | cons q rest ih =>
    have hfirst : pieceDefect? list bounds allowed index q = none ↔
        Opcode.affinePiece ∈ allowed ∧ q.bounds ⊆ bounds := by
      change (if Opcode.affinePiece ∉ allowed then _ else _) = none ↔ _
      by_cases ha : Opcode.affinePiece ∈ allowed <;> by_cases hb : q.bounds ⊆ bounds <;>
        simp [ha, hb]
    rw [firstPieceDefect?, Option.or_eq_none_iff, hfirst, ih, List.forall_mem_cons]

theorem pairwiseDisjoint_bounds_iff : PairwiseDisjoint (List.map Piece.bounds pieces) ↔
    List.Pairwise (fun q q' => ∀ p ∈ q.bounds, p ∉ q'.bounds) pieces := by
  rw [PairwiseDisjoint, List.pairwise_map]
  simp only [Rect.overlaps_iff, not_exists, not_and]

/-- The checks of the pieces by themselves find nothing exactly if the pieces are admissible. -/
theorem admissible_iff (list : Nat) : Admissible space allowed pieces ↔
    firstPieceDefect? list space.bounds allowed 0 pieces = none ∧
      firstOverlap? (List.map Piece.bounds pieces) = none := by
  rw [firstPieceDefect?_eq_none_iff, firstOverlap?_eq_none_iff, pairwiseDisjoint_bounds_iff]
  constructor
  · intro h
    refine ⟨fun q hq => ⟨?_, Rect.subset_iff.mpr (h.inside q hq)⟩, h.apart⟩
    exact h.evaluable.resolve_left (List.ne_nil_of_mem hq)
  · rintro ⟨heach, hapart⟩
    refine ⟨?_, fun q hq => Rect.subset_iff.mp (heach q hq).2, hapart⟩
    cases pieces with
    | nil => exact .inl rfl
    | cons q rest => exact .inr (heach q List.mem_cons_self).1

theorem disjoint_coveredParts (h : PairwiseDisjoint (List.map Piece.bounds pieces)) :
    PairwiseDisjoint (coveredParts space pieces) := by
  cases space with
  | dense bounds => exact h
  | sparse rects _ disjoint =>
    refine List.pairwise_flatMap.mpr ⟨fun r _ => ?_, disjoint.imp fun {r r'} hr a ha b hb => ?_⟩
    -- within one rectangle the parts are apart as their pieces are
    · rw [pairwiseDisjoint_bounds_iff] at h
      refine List.pairwise_map.mpr (h.imp fun {q q'} hq => ?_)
      rw [Rect.overlaps_iff]
      rintro ⟨p, hp, hp'⟩
      exact hq p (Rect.mem_inter.mp hp).1 (Rect.mem_inter.mp hp').1
    -- and parts of two rectangles as the rectangles are
    · obtain ⟨q, _, rfl⟩ := List.mem_map.mp ha
      obtain ⟨q', _, rfl⟩ := List.mem_map.mp hb
      rw [Rect.overlaps_iff] at hr ⊢
      rintro ⟨p, hp, hp'⟩
      exact hr ⟨p, (Rect.mem_inter.mp hp).2, (Rect.mem_inter.mp hp').2⟩

theorem unionSet_coveredParts (h : ∀ q ∈ pieces, ∀ p ∈ q.bounds, p ∈ space.bounds) :
    Rect.unionSet (coveredParts space pieces) = coveredSet space pieces := by
  ext p
  cases space with
  | dense bounds =>
    have hspace : p ∈ IndexSpace.dense bounds ↔ p ∈ bounds := by
      change (∃ r ∈ [bounds], p ∈ r) ↔ _
      simp
    simp only [Rect.unionSet, coveredParts, coveredSet, Set.mem_ofPred_eq, hspace, List.mem_map]
    constructor
    · rintro ⟨_, ⟨q, hq, rfl⟩, hp⟩
      exact ⟨h q hq p hp, q, hq, hp⟩
    · rintro ⟨_, q, hq, hp⟩
      exact ⟨_, ⟨q, hq, rfl⟩, hp⟩
  | sparse rects hinhabited hdisjoint =>
    change (∃ r ∈ coveredParts _ _, p ∈ r) ↔ (∃ r ∈ rects, p ∈ r) ∧ ∃ q ∈ pieces, p ∈ q.bounds
    simp only [coveredParts, List.mem_flatMap, List.mem_map]
    constructor
    · rintro ⟨_, ⟨r, hr, q, hq, rfl⟩, hp⟩
      obtain ⟨hpq, hpr⟩ := Rect.mem_inter.mp hp
      exact ⟨⟨r, hr, hpr⟩, q, hq, hpq⟩
    · rintro ⟨⟨r, hr, hpr⟩, q, hq, hpq⟩
      exact ⟨_, ⟨r, hr, q, hq, rfl⟩, Rect.mem_inter.mpr ⟨hpq, hpr⟩⟩

theorem coveredSet_subset : coveredSet space pieces ⊆ space.pointSet := fun _ hp => hp.1

theorem ncard_coveredSet_le :
    (coveredSet space pieces).ncard ≤ space.pointSet.ncard :=
  Set.ncard_le_ncard coveredSet_subset (Set.toFinite _)

/-- As many points are covered as there are exactly if each of them is. -/
theorem ncard_coveredSet_eq_iff : (coveredSet space pieces).ncard = space.pointSet.ncard ↔
    ∀ p ∈ space, ∃ q ∈ pieces, p ∈ q.bounds := by
  constructor
  · intro h p hp
    have hsets := Set.eq_of_subset_of_ncard_le coveredSet_subset (Nat.le_of_eq h.symm)
      (Set.toFinite space.pointSet)
    have hcovered : p ∈ coveredSet space pieces := hsets ▸ hp
    exact hcovered.2
  · intro h
    congr 1
    exact Set.Subset.antisymm coveredSet_subset fun p hp => ⟨hp, h p hp⟩

theorem checkCoverage_of_admissible (h : Admissible space allowed pieces) :
    checkCoverage space allowed list pieces =
      if volumeLimit ≤ space.pointSet.ncard then .error (.volumeOverflow list)
      else if (coveredSet space pieces).ncard = space.pointSet.ncard then .ok ()
      else .error (.coverageMismatch list (coveredSet space pieces).ncard
        space.pointSet.ncard) := by
  obtain ⟨hdefect, hoverlap⟩ := (admissible_iff list).mp h
  have hdisjoint : PairwiseDisjoint (List.map Piece.bounds pieces) :=
    pairwiseDisjoint_bounds_iff.mpr h.apart
  have hcovered : Rect.totalVolume? (coveredParts space pieces) =
      checkedCount (coveredSet space pieces).ncard := by
    rw [Rect.totalVolume?_of_disjoint (disjoint_coveredParts hdisjoint),
      unionSet_coveredParts h.inside]
  rw [checkCoverage, hdefect, hoverlap]
  simp only [hcovered, space.volume?_eq]
  by_cases hlimit : volumeLimit ≤ space.pointSet.ncard
  · rw [checkedCount_of_le hlimit, if_pos hlimit]
    cases checkedCount (coveredSet space pieces).ncard <;> rfl
  -- the sum over the pieces fits since the one over the space does
  · have hlt : space.pointSet.ncard < volumeLimit := Nat.not_le.mp hlimit
    rw [checkedCount_of_lt hlt, checkedCount_of_lt (Nat.lt_of_le_of_lt ncard_coveredSet_le hlt),
      if_neg hlimit]
    simp only [ne_eq, ite_not]

theorem admissible_of_checkCoverage (h : checkCoverage space allowed list pieces = .ok ()) :
    Admissible space allowed pieces := by
  rw [checkCoverage] at h
  split at h
  case h_1 => contradiction
  case h_2 => contradiction
  case h_3 hdefect hoverlap => exact (admissible_iff list).mpr ⟨hdefect, hoverlap⟩

/-- A piece list is accepted exactly if its pieces can be evaluated, lie inside the bounds of the
space and share no point, and the space has fewer than `2 ^ 128` points, each of them in a piece.
Of a list of admissible pieces a space with too many points is refused as such, and otherwise the
refusal tells how many points of the space are covered and how many there are. -/
theorem checkCoverage_exact (space : IndexSpace t n) (allowed : OpcodeSet) (list : Nat)
    (pieces : PieceList t n) :
    (checkCoverage space allowed list pieces = .ok () ↔
      Admissible space allowed pieces ∧ space.pointSet.ncard < volumeLimit ∧
        ∀ p ∈ space, ∃ q ∈ pieces, p ∈ q.bounds) ∧
    (Admissible space allowed pieces →
      (checkCoverage space allowed list pieces = .error (.volumeOverflow list) ↔
        volumeLimit ≤ space.pointSet.ncard) ∧
      ∀ e, checkCoverage space allowed list pieces = .error e →
        space.pointSet.ncard < volumeLimit →
        e = .coverageMismatch list (coveredSet space pieces).ncard space.pointSet.ncard) := by
  refine ⟨⟨fun h => ?_, fun ⟨hadmissible, hlt, hall⟩ => ?_⟩, fun hadmissible => ⟨?_, ?_⟩⟩
  · have hadmissible := admissible_of_checkCoverage h
    rw [checkCoverage_of_admissible hadmissible] at h
    split at h
    case isTrue => contradiction
    case isFalse hlimit =>
      split at h
      case isTrue heq =>
        exact ⟨hadmissible, Nat.not_le.mp hlimit, ncard_coveredSet_eq_iff.mp heq⟩
      case isFalse => contradiction
  · rw [checkCoverage_of_admissible hadmissible, if_neg (Nat.not_le.mpr hlt),
      if_pos (ncard_coveredSet_eq_iff.mpr hall)]
  · rw [checkCoverage_of_admissible hadmissible]
    split
    case isTrue hlimit => exact iff_of_true rfl hlimit
    case isFalse hlimit =>
      refine iff_of_false (fun h => ?_) hlimit
      split at h <;> simp at h
  · intro e he hlt
    rw [checkCoverage_of_admissible hadmissible, if_neg (Nat.not_le.mpr hlt)] at he
    split at he
    case isTrue => contradiction
    case isFalse => exact (Except.error.inj he).symm

end RegionLayout
