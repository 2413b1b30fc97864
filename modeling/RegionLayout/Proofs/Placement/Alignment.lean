import Mathlib.Algebra.Group.Nat.Defs
import RegionLayout.Proofs.Placement.Packing

namespace RegionLayout

variable {t : CoordType} {n : Nat} {x y : Nat}

theorem isPowerOfTwo_iff : IsPowerOfTwo x ↔ ∃ k, x = 2 ^ k := by
  constructor
  · intro h
    exact ⟨x.log2, by rw [← Nat.one_shiftLeft, h]⟩
  · rintro ⟨k, rfl⟩
    rw [IsPowerOfTwo, Nat.log2_two_pow, Nat.one_shiftLeft]

namespace IsPowerOfTwo

theorem pos (h : IsPowerOfTwo x) : 0 < x := by
  obtain ⟨k, rfl⟩ := isPowerOfTwo_iff.mp h
  exact Nat.two_pow_pos k

theorem dvd_of_le (hx : IsPowerOfTwo x) (hy : IsPowerOfTwo y) (h : x ≤ y) : x ∣ y := by
  obtain ⟨j, rfl⟩ := isPowerOfTwo_iff.mp hx
  obtain ⟨k, rfl⟩ := isPowerOfTwo_iff.mp hy
  exact Nat.pow_dvd_pow 2 ((Nat.pow_le_pow_iff_right (by decide)).mp h)

theorem max (hx : IsPowerOfTwo x) (hy : IsPowerOfTwo y) : IsPowerOfTwo (max x y) := by
  rcases Nat.le_total x y with h | h
  · rwa [Nat.max_eq_right h]
  · rwa [Nat.max_eq_left h]

theorem dvd_max_left (hx : IsPowerOfTwo x) (hy : IsPowerOfTwo y) : x ∣ Nat.max x y :=
  hx.dvd_of_le (hx.max hy) (Nat.le_max_left x y)

theorem dvd_max_right (hx : IsPowerOfTwo x) (hy : IsPowerOfTwo y) : y ∣ Nat.max x y :=
  hy.dvd_of_le (hx.max hy) (Nat.le_max_right x y)

end IsPowerOfTwo

theorem dvd_roundUp (value alignment : Nat) : alignment ∣ roundUp value alignment :=
  Nat.dvd_mul_left _ _

/-- Elements whose size is a multiple of the alignment start at multiples of it. -/
theorem dvd_of_placeRects {order : List (Fin n)} {element alignment used stop : Nat}
    {rects : List (Rect t n)} {pieces : PieceList t n} (horder : order.Perm (List.finRange n))
    (helement : element < wordLimit) (hdvd : alignment ∣ element)
    (h : placeRects order element alignment used rects = .ok (pieces, stop)) :
    ∀ q ∈ pieces, ∀ p ∈ q.bounds, alignment ∣ (q.rule.offset p).toNat := by
  intro q hq p hp
  obtain ⟨used', r, stop', hrect⟩ := exists_placeRect_of_mem h hq
  obtain ⟨rfl, _, _, _, hoffset⟩ := placeRect_eq_ok horder helement hrect
  rw [hoffset p hp]
  exact Nat.dvd_add (dvd_roundUp _ _) (Nat.dvd_mul_right_of_dvd hdvd _)

end RegionLayout
