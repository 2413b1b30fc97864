import RegionLayout.Rect.Basic

/-! # Rectangles as sets of points -/

namespace RegionLayout.Rect

variable {t : CoordType} {n : Nat} {a b r : Rect t n} {p : Point t n} {d : Fin n}
  {plane : Coord t}

theorem not_mem_of_isEmpty (h : r.IsEmpty) : p ∉ r := by
  obtain ⟨d, hd⟩ := h
  intro hp
  have hlo : (r.lo.get d).val ≤ (p.get d).val := (hp d).1
  have hhi : (p.get d).val ≤ (r.hi.get d).val := (hp d).2
  have hlt : (r.hi.get d).val < (r.lo.get d).val := hd
  omega

theorem lo_le_hi (h : ¬ r.IsEmpty) (d : Fin n) : r.lo.get d ≤ r.hi.get d :=
  Int.not_lt.mp fun hd => h ⟨d, hd⟩

theorem lo_mem (h : ¬ r.IsEmpty) : r.lo ∈ r := fun d => ⟨Int.le_refl _, lo_le_hi h d⟩

theorem hi_mem (h : ¬ r.IsEmpty) : r.hi ∈ r := fun d => ⟨lo_le_hi h d, Int.le_refl _⟩

theorem isEmpty_iff : r.IsEmpty ↔ ∀ p, p ∉ r :=
  ⟨fun h _ => not_mem_of_isEmpty h, fun h => Decidable.byContradiction fun hr => h _ (lo_mem hr)⟩

theorem subset_iff : a ⊆ b ↔ ∀ p, p ∈ a → p ∈ b := by
  constructor
  · rintro (h | h) p hp
    · exact absurd hp (not_mem_of_isEmpty h)
    · exact fun d => ⟨Int.le_trans (h d).1 (hp d).1, Int.le_trans (hp d).2 (h d).2⟩
  · intro h
    by_cases ha : a.IsEmpty
    · exact .inl ha
    · exact .inr fun d => ⟨(h _ (lo_mem ha) d).1, (h _ (hi_mem ha) d).2⟩

theorem subset_refl (a : Rect t n) : a ⊆ a := subset_iff.mpr fun _ hp => hp

theorem subset_trans (hab : a ⊆ b) (hbr : b ⊆ r) : a ⊆ r :=
  subset_iff.mpr fun p hp => subset_iff.mp hbr p (subset_iff.mp hab p hp)

theorem mem_inter : p ∈ a ∩ b ↔ p ∈ a ∧ p ∈ b := by
  have key : ∀ d : Fin n, ((a ∩ b).lo.get d ≤ p.get d ∧ p.get d ≤ (a ∩ b).hi.get d) ↔
      (a.lo.get d ≤ p.get d ∧ p.get d ≤ a.hi.get d) ∧
        b.lo.get d ≤ p.get d ∧ p.get d ≤ b.hi.get d := by
    intro d
    have hlo : (a ∩ b).lo.get d = max (a.lo.get d) (b.lo.get d) := Point.get_join ..
    have hhi : (a ∩ b).hi.get d = min (a.hi.get d) (b.hi.get d) := Point.get_meet ..
    simp only [hlo, hhi, Coord.le_def, Coord.val_max, Coord.val_min]
    omega
  constructor
  · intro h
    exact ⟨fun d => ((key d).mp (h d)).1, fun d => ((key d).mp (h d)).2⟩
  · intro h d
    exact (key d).mpr ⟨h.1 d, h.2 d⟩

theorem overlaps_iff : a.Overlaps b ↔ ∃ p, p ∈ a ∧ p ∈ b := by
  constructor
  · intro h
    exact ⟨(a ∩ b).lo, mem_inter.mp (lo_mem h)⟩
  · rintro ⟨p, hp⟩ h
    exact not_mem_of_isEmpty h (mem_inter.mpr hp)

theorem mem_split_fst : p ∈ (r.split d plane).1 ↔ p ∈ r ∧ p.get d < plane := by
  by_cases h : plane ≤ r.lo.get d
  -- nothing of the rectangle is below the plane
  · rw [split, if_pos h]
    refine iff_of_false (not_mem_of_isEmpty (isEmpty_empty d)) fun ⟨hp, hlt⟩ => ?_
    have := (hp d).1
    simp only [Coord.le_def, Coord.lt_def] at *
    omega
  -- the plane is above a coordinate, so the one before it does not wrap around
  · rw [split, if_neg h]
    have hval : (Coord.wrap t (plane.val - 1)).val = plane.val - 1 := by
      have := (r.lo.get d).minVal_le
      have := plane.le_maxVal
      simp only [Coord.le_def] at h
      exact Coord.val_wrap (by omega) (by omega)
    simp only [mem_def, get_replaceAt]
    constructor
    · intro hp
      refine ⟨fun e => ⟨(hp e).1, ?_⟩, ?_⟩
      · have := (hp e).2
        by_cases he : e = d
        · simp only [he, if_true, Coord.le_def, Coord.val_min] at this ⊢
          omega
        · simpa only [he, if_false] using this
      · have := (hp d).2
        simp only [if_true, Coord.le_def, Coord.lt_def, Coord.val_min, hval] at this ⊢
        omega
    · rintro ⟨hp, hlt⟩ e
      refine ⟨(hp e).1, ?_⟩
      by_cases he : e = d
      · have := (hp d).2
        simp only [he, if_true, Coord.le_def, Coord.lt_def, Coord.val_min, hval] at *
        omega
      · simpa only [he, if_false] using (hp e).2

theorem mem_split_snd : p ∈ (r.split d plane).2 ↔ p ∈ r ∧ plane ≤ p.get d := by
  by_cases h : r.hi.get d < plane
  -- nothing of the rectangle reaches the plane
  · rw [split, if_pos h]
    refine iff_of_false (not_mem_of_isEmpty (isEmpty_empty d)) fun ⟨hp, hle⟩ => ?_
    have := (hp d).2
    simp only [Coord.le_def, Coord.lt_def] at *
    omega
  · rw [split, if_neg h]
    simp only [mem_def, get_replaceAt]
    constructor
    · intro hp
      refine ⟨fun e => ⟨?_, (hp e).2⟩, ?_⟩
      · have := (hp e).1
        by_cases he : e = d
        · simp only [he, if_true, Coord.le_def, Coord.val_max] at this ⊢
          omega
        · simpa only [he, if_false] using this
      · have := (hp d).1
        simp only [if_true, Coord.le_def, Coord.val_max] at this ⊢
        omega
    · rintro ⟨hp, hle⟩ e
      refine ⟨?_, (hp e).2⟩
      by_cases he : e = d
      · have := (hp d).1
        simp only [he, if_true, Coord.le_def, Coord.val_max] at *
        omega
      · simpa only [he, if_false] using (hp e).1

theorem hull_subset (ha : a ⊆ r) (hb : b ⊆ r) : a.hull b ⊆ r := by
  rw [hull]
  split
  · exact hb
  · split
    · exact ha
    · next hae hbe =>
      refine .inr fun d => ?_
      have halo := (subset_iff.mp ha _ (lo_mem hae) d).1
      have hahi := (subset_iff.mp ha _ (hi_mem hae) d).2
      have hblo := (subset_iff.mp hb _ (lo_mem hbe) d).1
      have hbhi := (subset_iff.mp hb _ (hi_mem hbe) d).2
      simp only [Point.get_meet, Point.get_join, Coord.le_def, Coord.val_min, Coord.val_max] at *
      omega

theorem hullOf_subset {rects : List (Rect t n)} (h : ∀ a ∈ rects, a ⊆ r) :
    hullOf rects ⊆ r := by
  have key : ∀ (rects : List (Rect t n)) (start : Rect t n), start ⊆ r → (∀ a ∈ rects, a ⊆ r) →
      rects.foldl hull start ⊆ r := by
    intro rects
    induction rects with
    | nil => exact fun _ hstart _ => hstart
    | cons a rest ih =>
      intro start hstart hall
      exact ih _ (hull_subset hstart (hall a List.mem_cons_self)) fun b hb =>
        hall b (List.mem_cons_of_mem _ hb)
  refine key rects _ ?_ h
  by_cases hn : n = 0
  · exact .inr fun d => absurd d.isLt (by omega)
  · exact .inl (isEmpty_empty ⟨0, Nat.pos_of_ne_zero hn⟩)

theorem subset_hull_left (a b : Rect t n) : a ⊆ a.hull b := by
  rw [hull]
  split
  case isTrue ha => exact .inl ha
  case isFalse =>
    split
    case isTrue => exact subset_refl a
    case isFalse =>
      refine .inr fun d => ?_
      simp only [Point.get_meet, Point.get_join, Coord.le_def, Coord.val_min, Coord.val_max]
      omega

theorem subset_hull_right (a b : Rect t n) : b ⊆ a.hull b := by
  rw [hull]
  split
  case isTrue => exact subset_refl b
  case isFalse =>
    split
    case isTrue hb => exact .inl hb
    case isFalse =>
      refine .inr fun d => ?_
      simp only [Point.get_meet, Point.get_join, Coord.le_def, Coord.val_min, Coord.val_max]
      omega

theorem subset_hullOf {rects : List (Rect t n)} (h : a ∈ rects) : a ⊆ hullOf rects := by
  have key : ∀ (rects : List (Rect t n)) (start : Rect t n), a ⊆ start ∨ a ∈ rects →
      a ⊆ rects.foldl hull start := by
    intro rects
    induction rects with
    | nil => simp
    | cons b rest ih =>
      intro start ha
      apply ih
      rcases ha with hstart | hmem
      · exact .inl (subset_trans hstart (subset_hull_left start b))
      · rcases List.mem_cons.mp hmem with rfl | hrest
        · exact .inl (subset_hull_right start a)
        · exact .inr hrest
  exact key rects _ (.inr h)

theorem exists_between (h : ¬ a.Overlaps b) (ha : ¬ a.IsEmpty) (hb : ¬ b.IsEmpty) :
    ∃ d : Fin n, a.hi.get d < b.lo.get d ∨ b.hi.get d < a.lo.get d := by
  obtain ⟨d, hd⟩ := Decidable.not_not.mp h
  refine ⟨d, ?_⟩
  have hlo : (a ∩ b).lo.get d = max (a.lo.get d) (b.lo.get d) := Point.get_join ..
  have hhi : (a ∩ b).hi.get d = min (a.hi.get d) (b.hi.get d) := Point.get_meet ..
  have haa := lo_le_hi ha d
  have hbb := lo_le_hi hb d
  simp only [hlo, hhi, Coord.le_def, Coord.lt_def, Coord.val_max, Coord.val_min] at *
  omega

theorem length_encode (r : Rect t n) : r.encode.length = encodedSize t n := by
  rw [encode, List.length_append, Point.length_encode, Point.length_encode, encodedSize,
    Nat.two_mul, Nat.add_mul]

theorem decode_encode (r : Rect t n) (rest : Bytes) : decode t n (r.encode ++ rest) = r := by
  have hlo : Point.decode t n (r.encode ++ rest) = r.lo := by
    rw [encode, List.append_assoc, Point.decode_encode]
  have hhi : Point.decode t n ((r.encode ++ rest).drop (n * t.bytes)) = r.hi := by
    rw [encode, List.append_assoc, ← Point.length_encode r.lo, List.drop_left,
      Point.decode_encode]
  rw [decode, hlo, hhi]

end RegionLayout.Rect
