import RegionLayout.Rect.Lemmas

/-!
# Operations on rectangles are exact

The lower part of a split ends one before the plane, a coordinate taken in signed 64 bit arithmetic
that may wrap around. It wraps only where the part has no points, and then the part is replaced.
-/

namespace RegionLayout

variable {t : CoordType} {n : Nat}

namespace Coord

/-- The coordinate before, taken in signed 64 bit arithmetic and cut to the type. Both may wrap
around. -/
def predecessor (c : Coord t) : Coord t := wrap t (wrap .i64 (c.signed - 1)).val

/-- Widening to 64 bits loses nothing, as the type has a power of two values. -/
theorem predecessor_eq (c : Coord t) : c.predecessor = wrap t (c.val - 1) := by
  apply Coord.ext
  have hmin := c.minVal_le
  have hmax := c.le_maxVal
  cases t <;>
    simp only [predecessor, signed, wrap, CoordType.minVal, CoordType.maxVal,
      CoordType.span] at * <;>
    omega

end Coord

namespace Rect

/-- The parts of a split as they are computed one after the other: each gets its new corner first,
and is emptied afterwards if the plane leaves it no point. -/
def splitInPlace (r : Rect t n) (d : Fin n) (plane : Coord t) : Rect t n × Rect t n :=
  let below := { r with hi := replaceAt r.hi d (min (r.hi.get d) plane.predecessor) }
  let above := { r with lo := replaceAt r.lo d (max (r.lo.get d) plane) }
  (if plane ≤ r.lo.get d then empty t n else below,
    if r.hi.get d < plane then empty t n else above)

theorem splitInPlace_eq (r : Rect t n) (d : Fin n) (plane : Coord t) :
    r.splitInPlace d plane = r.split d plane := by
  simp only [splitInPlace, split, Coord.predecessor_eq]

/-- The operations on rectangles are those on their sets of points: the parts of a split lie on
either side of the plane, an intersection has the common points, emptiness, overlap and inclusion
are decided as for the points, and the hull is the least rectangle around both. -/
theorem operations_exact (a b : Rect t n) :
    (∀ (d : Fin n) (plane : Coord t), a.splitInPlace d plane = a.split d plane ∧
      ∀ p, (p ∈ (a.split d plane).1 ↔ p ∈ a ∧ p.get d < plane) ∧
        (p ∈ (a.split d plane).2 ↔ p ∈ a ∧ plane ≤ p.get d)) ∧
    (∀ p, p ∈ a ∩ b ↔ p ∈ a ∧ p ∈ b) ∧
    (a.IsEmpty ↔ ∀ p, p ∉ a) ∧
    (a.Overlaps b ↔ ∃ p, p ∈ a ∧ p ∈ b) ∧
    (b ⊆ a ↔ ∀ p, p ∈ b → p ∈ a) ∧
    (a ⊆ a.hull b ∧ b ⊆ a.hull b ∧ ∀ r, a ⊆ r → b ⊆ r → a.hull b ⊆ r) := by
  refine ⟨?_, fun p => mem_inter, isEmpty_iff, overlaps_iff, subset_iff, ?_⟩
  · intro d plane
    exact ⟨a.splitInPlace_eq d plane, fun p => ⟨mem_split_fst, mem_split_snd⟩⟩
  · exact ⟨subset_hull_left a b, subset_hull_right a b, fun r => hull_subset⟩

/-- As a signed number the plane is the least one, so the step before it wraps around. -/
example :
    (⟨#v[Coord.wrap .u64 0], #v[Coord.wrap .u64 0xffffffffffffffff]⟩ : Rect .u64 1).splitInPlace 0
      (Coord.wrap .u64 0x8000000000000000) =
        (⟨#v[Coord.wrap .u64 0], #v[Coord.wrap .u64 0x7fffffffffffffff]⟩,
          ⟨#v[Coord.wrap .u64 0x8000000000000000], #v[Coord.wrap .u64 0xffffffffffffffff]⟩) := by
  decide

end Rect

end RegionLayout
