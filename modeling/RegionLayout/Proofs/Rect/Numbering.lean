import RegionLayout.Proofs.Placement.Sizes

/-!
# Numbering points

The distances of a point from the lower corner are the digits of its number, dimension 0 being the
lowest digit and the extents the bases.
-/

namespace RegionLayout

variable {t : CoordType} {n : Nat}

/-- Whether `p` comes before `q` with dimension 0 counting fastest: of the dimensions along which
they differ, the last one decides. -/
def Point.Before (p q : Point t n) : Prop :=
  ∃ d, p.get d < q.get d ∧ ∀ e, d < e → p.get e = q.get e

namespace Rect

variable {r : Rect t n} {p q : Point t n} {d : Fin n} {order : List (Fin n)}

theorem rank_append (r : Rect t n) (p : Point t n) (low high : List (Fin n)) :
    r.rank p (low ++ high) = r.rank p low + r.slots low * r.rank p high := by
  induction low with
  | nil => simp [rank, slots]
  | cons d low ih =>
    simp only [List.cons_append, rank, slots, ih]
    rw [Nat.mul_add, Nat.mul_assoc, Nat.add_assoc]

theorem rank_congr (h : ∀ d ∈ order, q.get d = p.get d) : r.rank q order = r.rank p order := by
  induction order with
  | nil => rfl
  | cons d order ih =>
    have hdigit : r.digit q d = r.digit p d := by rw [digit, digit, h d List.mem_cons_self]
    rw [rank, rank, hdigit, ih fun e he => h e (List.mem_cons_of_mem _ he)]

theorem rank_of_lo (h : ∀ d ∈ order, p.get d = r.lo.get d) : r.rank p order = 0 := by
  induction order with
  | nil => rfl
  | cons d order ih =>
    have hdigit : r.digit p d = 0 := by simp [digit, h d List.mem_cons_self]
    rw [rank, hdigit, ih fun e he => h e (List.mem_cons_of_mem _ he), Nat.mul_zero]

theorem rank_of_hi (hp : p ∈ r) (h : ∀ d ∈ order, ¬ p.get d < r.hi.get d) :
    r.rank p order + 1 = r.slots order := by
  induction order with
  | nil => rfl
  | cons d order ih =>
    have hdigit : r.digit p d + 1 = r.extent d := by
      have hlo : (r.lo.get d).val ≤ (p.get d).val := (hp d).1
      have hhi : (p.get d).val ≤ (r.hi.get d).val := (hp d).2
      have hlast : ¬ (p.get d).val < (r.hi.get d).val := h d List.mem_cons_self
      rw [digit, extent]
      omega
    have hrest := ih fun e he => h e (List.mem_cons_of_mem _ he)
    calc r.rank p (d :: order) + 1
        = (r.digit p d + 1) + r.extent d * r.rank p order := by
          rw [rank]
          omega
      _ = r.extent d * (r.rank p order + 1) := by rw [hdigit, Nat.mul_succ, Nat.add_comm]
      _ = r.slots (d :: order) := by rw [hrest, slots]

/-- The order of the numbers is that of the last dimension along which the points differ. -/
theorem exists_lt_of_rank_lt (hp : p ∈ r) (hq : q ∈ r) (hsorted : order.Pairwise (· < ·))
    (h : r.rank p order < r.rank q order) :
    ∃ d ∈ order, p.get d < q.get d ∧ ∀ e ∈ order, d < e → p.get e = q.get e := by
  induction order with
  | nil => exact absurd h (Nat.lt_irrefl 0)
  | cons d order ih =>
    have hlater := (List.pairwise_cons.mp hsorted).1
    have hdigit := digit_lt hq d
    rw [rank, rank] at h
    rcases Nat.lt_trichotomy (r.rank p order) (r.rank q order) with hlt | heq | hgt
    · obtain ⟨e, he, hpq, hsame⟩ := ih (List.pairwise_cons.mp hsorted).2 hlt
      refine ⟨e, List.mem_cons_of_mem _ he, hpq, ?_⟩
      intro f hf hef
      apply hsame f _ hef
      apply List.mem_of_ne_of_mem _ hf
      intro hfd
      exact Nat.lt_asymm hef (hfd ▸ hlater e he)
    · -- the higher digits agree, so the lowest one decides
      have hlt : (p.get d).val < (q.get d).val := by
        have hlo : (r.lo.get d).val ≤ (p.get d).val := (hp d).1
        rw [heq, digit, digit] at h
        omega
      refine ⟨d, List.mem_cons_self, hlt, ?_⟩
      intro e he hde
      apply get_eq_of_digit_eq hp hq
      apply digit_eq_of_rank_eq hp hq heq
      apply List.mem_of_ne_of_mem _ he
      intro hed
      exact Nat.lt_irrefl _ (hed ▸ hde)
    · -- a higher digit counts for more than the lowest one can make up
      have hle : r.extent d * (r.rank q order + 1) ≤ r.extent d * r.rank p order :=
        Nat.mul_le_mul_left _ hgt
      rw [Nat.mul_succ] at hle
      omega

/-- The number of a point in the order of a walk. -/
def number (r : Rect t n) (p : Point t n) : Nat := r.rank p (List.finRange n)

/-- What one coordinate along `d` adds to the number: the product of the extents of the dimensions
before it. -/
def weight (r : Rect t n) (d : Fin n) : Nat := r.slots ((List.finRange n).take d)

theorem number_lt (hp : p ∈ r) : r.number p < r.count := by
  rw [← slots_eq_count (List.Perm.refl _)]
  exact rank_lt hp _

theorem number_lo (r : Rect t n) : r.number r.lo = 0 := rank_of_lo fun _ _ => rfl

theorem eq_of_number_eq (hp : p ∈ r) (hq : q ∈ r) (h : r.number p = r.number q) : p = q :=
  eq_of_rank_eq hp hq List.mem_finRange h

theorem before_of_number_lt (hp : p ∈ r) (hq : q ∈ r) (h : r.number p < r.number q) :
    p.Before q := by
  obtain ⟨d, _, hlt, hsame⟩ := exists_lt_of_rank_lt hp hq (List.pairwise_lt_finRange n) h
  exact ⟨d, hlt, fun e hde => hsame e (List.mem_finRange e) hde⟩

/-- The coordinates of a point are the digits of its number. -/
theorem digit_eq (hp : p ∈ r) (d : Fin n) :
    r.digit p d = r.number p / r.weight d % r.extent d := by
  have horder : List.finRange n =
      (List.finRange n).take d ++ d :: (List.finRange n).drop (d + 1) := by
    have hlen : d.val < (List.finRange n).length := by simp
    conv => lhs; rw [← List.take_append_drop d (List.finRange n)]
    rw [List.drop_eq_getElem_cons hlen, List.getElem_finRange]
    rfl
  have hlow : r.rank p ((List.finRange n).take d) < r.weight d := rank_lt hp _
  have hnumber : r.number p = r.rank p ((List.finRange n).take d) +
      r.weight d * (r.digit p d + r.extent d * r.rank p ((List.finRange n).drop (d + 1))) := by
    rw [number]
    conv => lhs; rw [horder]
    rw [rank_append, rank, weight]
  rw [hnumber, Nat.add_mul_div_left _ _ (Nat.zero_lt_of_lt hlow), Nat.div_eq_of_lt hlow,
    Nat.zero_add, Nat.add_mul_mod_self_left, Nat.mod_eq_of_lt (digit_lt hp d)]

theorem number_of_last (hp : p ∈ r) (h : ∀ d, ¬ p.get d < r.hi.get d) :
    r.number p + 1 = r.count := by
  rw [← slots_eq_count (List.Perm.refl _)]
  exact rank_of_hi hp fun d _ => h d

end Rect

end RegionLayout
