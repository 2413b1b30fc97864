import Mathlib.Data.List.MinMax
import RegionLayout.Proofs.Program.Search

/-!
# The choice of a plane

Only planes along the edges of pieces are looked at, yet the best one of all is chosen: a plane that
separates the pieces can be moved down to the nearest upper edge, where it separates them no
worse.
-/

namespace RegionLayout

variable {t : CoordType} {n : Nat} {pieces : PieceList t n}

theorem PieceList.subset_bounds {q : Piece t n} (hq : q ∈ pieces) : q.bounds ⊆ pieces.bounds :=
  Rect.subset_hullOf (List.mem_map_of_mem hq)

namespace Cut

variable {cut other : Cut t n} {d : Fin n} {plane : Coord t}

section Cost

theorem cost_injective (h : cut.cost pieces = other.cost pieces) : cut = other := by
  simp only [cost, List.cons.injEq, Int.natCast_inj] at h
  obtain ⟨_, _, hdim, hplane, _⟩ := h
  cases cut
  cases other
  simp_all [Fin.ext_iff, Coord.ext_iff]

theorem eq_or_cost_lt (h : ¬ other.cost pieces < cut.cost pieces) :
    cut = other ∨ cut.cost pieces < other.cost pieces := by
  by_cases hlt : cut.cost pieces < other.cost pieces
  · exact .inr hlt
  · exact .inl (cost_injective (List.le_antisymm h hlt))

theorem cheapest?_eq_none_iff {cuts : List (Cut t n)} :
    cheapest? pieces cuts = none ↔ cuts = [] := by
  cases cuts with
  | nil => simp [cheapest?]
  | cons cut rest =>
    rw [cheapest?]
    split
    case h_1 => simp
    case h_2 => split <;> simp

theorem not_cost_lt_of_cheapest? {cuts : List (Cut t n)} {best : Cut t n}
    (h : cheapest? pieces cuts = some best) (hcut : cut ∈ cuts) :
    ¬ cut.cost pieces < best.cost pieces := by
  induction cuts generalizing best with
  | nil => contradiction
  | cons first rest ih =>
    rw [cheapest?] at h
    split at h
    case h_1 hnone =>
      rw [cheapest?_eq_none_iff] at hnone
      simp_all
    case h_2 other hother =>
      split at h
      case isTrue hlt =>
        cases h
        rcases List.mem_cons.mp hcut with rfl | hrest
        · exact List.lt_asymm hlt
        · exact ih hother hrest
      case isFalse hle =>
        cases h
        rcases List.mem_cons.mp hcut with rfl | hrest
        · exact List.lt_irrefl _
        · exact List.le_trans hle (ih hother hrest)

end Cost

section Edges

theorem mem_edges {box : Rect t n} : plane ∈ edges pieces box d ↔
    ((∃ q ∈ pieces, q.bounds.lo.get d = plane) ∨
      ∃ q ∈ pieces, q.bounds.hi.get d < box.hi.get d ∧
        Coord.wrap t ((q.bounds.hi.get d).val + 1) = plane) ∧
      box.lo.get d < plane ∧ plane ≤ box.hi.get d := by
  simp [edges, and_assoc, or_and_right]

theorem mem_candidates : cut ∈ candidates pieces ↔
    cut.plane ∈ edges pieces pieces.bounds cut.dim ∧ cut.Separates pieces := by
  simp only [candidates, List.mem_filter, List.mem_flatMap, List.mem_map, List.mem_finRange,
    true_and, decide_eq_true_eq]
  constructor
  · rintro ⟨⟨d, plane, hplane, rfl⟩, hs⟩
    exact ⟨hplane, hs⟩
  · rintro ⟨hplane, hs⟩
    exact ⟨⟨cut.dim, cut.plane, hplane, rfl⟩, hs⟩

theorem exists_last (h : ∃ q ∈ pieces, q.bounds.hi.get cut.dim < cut.plane) :
    ∃ last ∈ pieces, last.bounds.hi.get cut.dim < cut.plane ∧
      ∀ q ∈ pieces, q.bounds.hi.get cut.dim < cut.plane →
        q.bounds.hi.get cut.dim ≤ last.bounds.hi.get cut.dim := by
  let ended := List.filter (fun q => decide (q.bounds.hi.get cut.dim < cut.plane)) pieces
  have hmem : ∀ q, q ∈ ended ↔ q ∈ pieces ∧ q.bounds.hi.get cut.dim < cut.plane := by
    simp [ended]
  cases hlast : ended.argmax fun q => (q.bounds.hi.get cut.dim).val with
  | none =>
    obtain ⟨q, hq⟩ := h
    have hq := (hmem q).mpr hq
    simp [List.argmax_eq_none.mp hlast] at hq
  | some last =>
    obtain ⟨hpiece, hlt⟩ := (hmem last).mp (List.argmax_mem hlast)
    exact ⟨last, hpiece, hlt, fun q hq hend =>
      List.le_of_mem_argmax ((hmem q).mpr ⟨hq, hend⟩) hlast⟩

/-- A plane that separates the pieces costs no less than some edge of a piece that does. -/
theorem exists_candidate (hpieces : ∀ q ∈ pieces, ¬ q.bounds.IsEmpty)
    (h : cut.Separates pieces) :
    ∃ edge ∈ candidates pieces, ¬ cut.cost pieces < edge.cost pieces := by
  obtain ⟨hbelow, top, htop, hlo⟩ := separates_iff.mp h
  obtain ⟨last, hlast, hhi, hmax⟩ := exists_last hbelow
  have hfirst := Rect.lo_le_hi (hpieces last hlast) cut.dim
  have htopHi := Rect.lo_le_hi (hpieces top htop) cut.dim
  have hbox : ∀ q ∈ pieces, pieces.bounds.lo.get cut.dim ≤ q.bounds.lo.get cut.dim ∧
      q.bounds.hi.get cut.dim ≤ pieces.bounds.hi.get cut.dim := fun q hq =>
    (PieceList.subset_bounds hq).resolve_left (hpieces q hq) cut.dim
  have hboxLast := hbox last hlast
  have hboxTop := hbox top htop
  simp only [Coord.le_def, Coord.lt_def] at *
  let edge : Cut t n := ⟨cut.dim, Coord.wrap t ((last.bounds.hi.get cut.dim).val + 1)⟩
  -- the plane itself is above the last coordinate of the piece, so the next one does not wrap
  have hedge : edge.plane.val = (last.bounds.hi.get cut.dim).val + 1 := by
    have hmin := (last.bounds.hi.get cut.dim).minVal_le
    have hle := cut.plane.le_maxVal
    exact Coord.val_wrap (by omega) (by omega)
  have habove : edge.aboveCount pieces = cut.aboveCount pieces := by
    refine List.countP_congr fun q hq => ?_
    have hq := hmax q hq
    simp only [decide_eq_true_eq, Coord.le_def, hedge]
    change _ ≤ (q.bounds.hi.get cut.dim).val ↔ _
    omega
  have hfewer : edge.belowCount pieces ≤ cut.belowCount pieces := by
    refine List.countP_mono_left fun q _ hq => ?_
    simp only [decide_eq_true_eq, Coord.lt_def, hedge] at hq ⊢
    change (q.bounds.lo.get cut.dim).val < _ at hq
    omega
  refine ⟨edge, mem_candidates.mpr ⟨mem_edges.mpr ⟨.inr ⟨last, hlast, ?_, rfl⟩, ?_⟩, ?_⟩, ?_⟩
  · change (last.bounds.hi.get cut.dim).val < (pieces.bounds.hi.get cut.dim).val
    omega
  · simp only [Coord.lt_def, Coord.le_def, hedge]
    change (pieces.bounds.lo.get cut.dim).val < _ ∧ _ ≤ (pieces.bounds.hi.get cut.dim).val
    omega
  · simp only [Separates, habove]
    exact ⟨Nat.lt_of_le_of_lt hfewer h.1, h.2⟩
  · simp only [cost, List.cons_lt_cons_iff, List.not_lt_nil, and_false, or_false, habove, hedge]
    change ¬ (_ ∨ _ ∧ (_ ∨ _ ∧ ((cut.dim.val : Int) < cut.dim.val ∨ _)))
    omega

end Edges

section Best

theorem best?_isSome_iff (hpieces : ∀ q ∈ pieces, ¬ q.bounds.IsEmpty) :
    (best? pieces).isSome ↔ ∃ cut : Cut t n, cut.Separates pieces := by
  constructor
  · intro h
    obtain ⟨cut, hcut⟩ := Option.isSome_iff_exists.mp h
    exact ⟨cut, separates_of_best? hcut⟩
  · rintro ⟨cut, hs⟩
    obtain ⟨edge, hedge, _⟩ := exists_candidate hpieces hs
    rw [Option.isSome_iff_ne_none, best?, ne_eq, cheapest?_eq_none_iff]
    exact List.ne_nil_of_mem hedge

/-- The choice is the one cut that separates the pieces and costs less than any other that does. -/
theorem best?_eq_some_iff (hpieces : ∀ q ∈ pieces, ¬ q.bounds.IsEmpty) :
    best? pieces = some cut ↔ cut.Separates pieces ∧
      ∀ other : Cut t n, other.Separates pieces →
        cut = other ∨ cut.cost pieces < other.cost pieces := by
  have hleast : ∀ {best : Cut t n}, best? pieces = some best → ∀ other : Cut t n,
      other.Separates pieces → best = other ∨ best.cost pieces < other.cost pieces := by
    intro best hbest other hother
    obtain ⟨edge, hedge, hcost⟩ := exists_candidate hpieces hother
    exact eq_or_cost_lt (List.le_trans (not_cost_lt_of_cheapest? hbest hedge) hcost)
  constructor
  · intro h
    exact ⟨separates_of_best? h, hleast h⟩
  · rintro ⟨hs, hmin⟩
    obtain ⟨best, hbest⟩ := Option.isSome_iff_exists.mp ((best?_isSome_iff hpieces).mpr ⟨cut, hs⟩)
    rcases hmin best (separates_of_best? hbest) with rfl | hlt
    · exact hbest
    · rcases hleast hbest cut hs with rfl | hlt'
      · exact hbest
      · exact absurd hlt' (List.lt_asymm hlt)

theorem exists_separates (hlen : 2 ≤ pieces.length)
    (hpieces : ∀ q ∈ pieces, ¬ q.bounds.IsEmpty)
    (hapart : PairwiseDisjoint (List.map Piece.bounds pieces)) :
    ∃ cut : Cut t n, cut.Separates pieces := by
  match pieces with
  | q :: q' :: rest =>
    have hq : q ∈ q :: q' :: rest := by simp
    have hq' : q' ∈ q :: q' :: rest := by simp
    have hoverlap : ¬ q.bounds.Overlaps q'.bounds := by
      simp only [PairwiseDisjoint, List.map_cons, List.pairwise_cons, List.mem_cons] at hapart
      exact hapart.1 _ (.inl rfl)
    obtain ⟨d, hlt | hlt⟩ := Rect.exists_between hoverlap (hpieces q hq) (hpieces q' hq')
    · exact ⟨⟨d, q'.bounds.lo.get d⟩, separates_iff.mpr ⟨⟨q, hq, hlt⟩, q', hq', Int.le_refl _⟩⟩
    · exact ⟨⟨d, q.bounds.lo.get d⟩, separates_iff.mpr ⟨⟨q', hq', hlt⟩, q, hq, Int.le_refl _⟩⟩

end Best

/-- A cut is chosen if any plane at all has a piece on either side. The choice has, and every other
plane that has, at an edge of a piece or not, costs more. Two pieces without a common point always
have a plane between them. -/
theorem best?_optimal (pieces : PieceList t n) (hpieces : ∀ q ∈ pieces, ¬ q.bounds.IsEmpty) :
    ((best? pieces).isSome ↔ ∃ cut : Cut t n, cut.Between pieces) ∧
    (∀ best, best? pieces = some best → best.Between pieces ∧
      ∀ other : Cut t n, other.Between pieces →
        best = other ∨ best.cost pieces < other.cost pieces) ∧
    (2 ≤ pieces.length → PairwiseDisjoint (List.map Piece.bounds pieces) →
      (best? pieces).isSome) := by
  simp only [← separates_iff]
  refine ⟨best?_isSome_iff hpieces, ?_, ?_⟩
  · intro best hbest
    exact (best?_eq_some_iff hpieces).mp hbest
  · intro hlen hapart
    exact (best?_isSome_iff hpieces).mpr (exists_separates hlen hpieces hapart)

/-- Two pieces of the unsigned numbers, the second of them five past the middle. -/
def halves : PieceList .u64 1 :=
  [⟨⟨#v[Coord.wrap .u64 0], #v[Coord.wrap .u64 0x7fffffffffffffff]⟩, ⟨0, #v[1]⟩⟩,
    ⟨⟨#v[Coord.wrap .u64 0x8000000000000005], #v[Coord.wrap .u64 0xffffffffffffffff]⟩, ⟨0, #v[1]⟩⟩]

theorem best?_optimal_halves :
    let middle : Cut .u64 1 := ⟨0, Coord.wrap .u64 0x8000000000000000⟩
    (∀ q ∈ halves, ¬ q.bounds.IsEmpty) ∧ best? halves = some middle ∧
      ∀ other : Cut .u64 1, other.Between halves →
        middle = other ∨ middle.cost halves < other.cost halves := by
  have hpieces : ∀ q ∈ halves, ¬ q.bounds.IsEmpty := by decide
  have hmiddle : best? halves = some ⟨0, Coord.wrap .u64 0x8000000000000000⟩ := by decide +kernel
  exact ⟨hpieces, hmiddle, ((best?_optimal halves hpieces).2.1 _ hmiddle).2⟩

end Cut

end RegionLayout
