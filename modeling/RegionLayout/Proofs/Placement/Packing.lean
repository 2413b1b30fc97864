import Mathlib.Data.List.Nodup
import Mathlib.Data.List.Perm.Subperm
import RegionLayout.Layout.Placement
import RegionLayout.Proofs.Outcome
import RegionLayout.Rect.Lemmas

/-!
# Packed elements

The elements of a rectangle are numbered in mixed radix, and a packed piece puts each at its number
times the size of one. The shift of the base cancels the lower corner modulo `2 ^ 64`, wherever that
is.
-/

namespace RegionLayout

variable {t : CoordType} {n : Nat}

namespace Rect

/-- How far `p` is from the lower corner along `d`. -/
def digit (r : Rect t n) (p : Point t n) (d : Fin n) : Nat :=
  ((p.get d).val - (r.lo.get d).val).toNat

/-- The number of an element among those of the rectangle. -/
def rank (r : Rect t n) (p : Point t n) : List (Fin n) → Nat
  | [] => 0
  | d :: order => r.digit p d + r.extent d * r.rank p order

/-- How many elements there are along the dimensions of the order. -/
def slots (r : Rect t n) : List (Fin n) → Nat
  | [] => 1
  | d :: order => r.extent d * r.slots order

variable {r : Rect t n} {p q : Point t n}

theorem digit_lt (hp : p ∈ r) (d : Fin n) : r.digit p d < r.extent d := by
  have hlo : (r.lo.get d).val ≤ (p.get d).val := (hp d).1
  have hhi : (p.get d).val ≤ (r.hi.get d).val := (hp d).2
  rw [digit, extent]
  omega

theorem rank_lt (hp : p ∈ r) (order : List (Fin n)) : r.rank p order < r.slots order := by
  induction order with
  | nil => exact Nat.one_pos
  | cons d order ih =>
    have hdigit := digit_lt hp d
    rw [rank, slots]
    calc r.digit p d + r.extent d * r.rank p order
        < r.extent d + r.extent d * r.rank p order := Nat.add_lt_add_right hdigit _
      _ = r.extent d * (r.rank p order + 1) := by rw [Nat.mul_succ, Nat.add_comm]
      _ ≤ r.extent d * r.slots order := Nat.mul_le_mul_left _ ih

theorem digit_eq_of_rank_eq (hp : p ∈ r) (hq : q ∈ r) {order : List (Fin n)}
    (h : r.rank p order = r.rank q order) : ∀ d ∈ order, r.digit p d = r.digit q d := by
  induction order with
  | nil => simp
  | cons d order ih =>
    have hp' := digit_lt hp d
    have hq' := digit_lt hq d
    rw [rank, rank] at h
    have hdigit : r.digit p d = r.digit q d := by
      have hmod := congrArg (· % r.extent d) h
      simpa only [Nat.add_mul_mod_self_left, Nat.mod_eq_of_lt hp', Nat.mod_eq_of_lt hq'] using hmod
    have hrank : r.rank p order = r.rank q order := by
      rw [hdigit] at h
      exact Nat.eq_of_mul_eq_mul_left (Nat.zero_lt_of_lt hp') (Nat.add_left_cancel h)
    intro e he
    rcases List.mem_cons.mp he with rfl | he
    · exact hdigit
    · exact ih hrank e he

theorem get_eq_of_digit_eq (hp : p ∈ r) (hq : q ∈ r) {d : Fin n}
    (h : r.digit p d = r.digit q d) : p.get d = q.get d := by
  have hlo : (r.lo.get d).val ≤ (p.get d).val := (hp d).1
  have hlo' : (r.lo.get d).val ≤ (q.get d).val := (hq d).1
  rw [digit, digit] at h
  apply Coord.ext
  omega

theorem eq_of_rank_eq (hp : p ∈ r) (hq : q ∈ r) {order : List (Fin n)} (hall : ∀ d, d ∈ order)
    (h : r.rank p order = r.rank q order) : p = q := by
  apply Vector.ext
  intro i hi
  exact get_eq_of_digit_eq hp hq (digit_eq_of_rank_eq hp hq h ⟨i, hi⟩ (hall ⟨i, hi⟩))

end Rect

theorem checkedSize_of_lt {size : Nat} (h : size < wordLimit) : checkedSize size = .ok size :=
  if_pos h

theorem checkedSize_eq_ok {size result : Nat} (h : checkedSize size = .ok result) :
    result = size ∧ size < wordLimit := by
  rw [checkedSize] at h
  split at h
  case isTrue hlt => exact ⟨(Except.ok.inj h).symm, hlt⟩
  case isFalse => contradiction

/-- The bytes from the lower corner to `p` along the dimensions of a list. -/
def reach (strides : Strides n) (r : Rect t n) (p : Point t n) : List (Fin n) → Nat
  | [] => 0
  | d :: dims => (strides.get d).toNat * r.digit p d + reach strides r p dims

theorem reach_perm (strides : Strides n) (r : Rect t n) (p : Point t n) {dims dims' : List (Fin n)}
    (h : dims.Perm dims') : reach strides r p dims = reach strides r p dims' := by
  induction h with
  | nil => rfl
  | cons d _ ih => rw [reach, reach, ih]
  | swap d e dims =>
    simp only [reach]
    omega
  | trans _ _ ih ih' => rw [ih, ih']

/-- One dimension after another, each stride is the size of what was packed before it. -/
def Steps (strides : Strides n) (r : Rect t n) : Nat → List (Fin n) → Prop
  | _, [] => True
  | size, d :: order => (strides.get d).toNat = size ∧ Steps strides r (size * r.extent d) order

theorem reach_of_steps {strides : Strides n} {r : Rect t n} {size : Nat} {order : List (Fin n)}
    (h : Steps strides r size order) (p : Point t n) :
    reach strides r p order = size * r.rank p order := by
  induction order generalizing size with
  | nil => rw [reach, Rect.rank, Nat.mul_zero]
  | cons d order ih => rw [reach, ih h.2, h.1, Rect.rank, Nat.mul_add, Nat.mul_assoc]

private theorem packed_from {order : List (Fin n)} {r : Rect t n} {before after : Strides n}
    {size total : Nat} (hnodup : order.Nodup) (hsize : size < wordLimit)
    (h : (order.foldlM (fun (acc : Strides n × Nat) d => do
      let extent ← checkedSize (r.extent d)
      let size ← checkedSize (acc.2 * extent)
      return (replaceAt acc.1 d (UInt64.ofNat acc.2), size)) (before, size) :
        Except PlacementError (Strides n × Nat)) = .ok (after, total)) :
    total = size * r.slots order ∧ total < wordLimit ∧
      (∀ d, d ∉ order → after.get d = before.get d) ∧ Steps after r size order := by
  induction order generalizing before size with
  | nil =>
    rw [List.foldlM_nil, pure_eq_ok, Prod.mk.injEq] at h
    obtain ⟨rfl, rfl⟩ := h
    refine ⟨?_, hsize, fun _ _ => rfl, trivial⟩
    rw [Rect.slots, Nat.mul_one]
  | cons d order ih =>
    obtain ⟨hd, hnodup⟩ := List.nodup_cons.mp hnodup
    rw [List.foldlM_cons, bind_eq_ok] at h
    obtain ⟨⟨between, size'⟩, hstep, h⟩ := h
    obtain ⟨extent, hextent, hstep⟩ := bind_eq_ok.mp hstep
    obtain ⟨rfl, _⟩ := checkedSize_eq_ok hextent
    obtain ⟨product, hproduct, hstep⟩ := bind_eq_ok.mp hstep
    obtain ⟨rfl, hlt⟩ := checkedSize_eq_ok hproduct
    rw [pure_eq_ok, Prod.mk.injEq] at hstep
    obtain ⟨rfl, rfl⟩ := hstep
    obtain ⟨htotal, htotal_lt, hother, hsteps⟩ := ih hnodup hlt h
    have hstride : (after.get d).toNat = size := by
      rw [hother d hd, get_replaceAt, if_pos rfl]
      exact UInt64.toNat_ofNat_of_lt' hsize
    refine ⟨?_, htotal_lt, fun e he => ?_, hstride, hsteps⟩
    · rw [htotal, Rect.slots, Nat.mul_assoc]
    · obtain ⟨hne, he⟩ := not_or.mp (mt List.mem_cons.mpr he)
      rw [hother e he, get_replaceAt, if_neg hne]

theorem packed_eq_ok {order : List (Fin n)} {r : Rect t n} {element : Nat} {strides : Strides n}
    {size : Nat} (hnodup : order.Nodup) (helement : element < wordLimit)
    (h : packed order r element = .ok (strides, size)) :
    size = element * r.slots order ∧ size < wordLimit ∧ Steps strides r element order := by
  obtain ⟨hsize, hlt, _, hsteps⟩ := packed_from hnodup helement h
  exact ⟨hsize, hlt, hsteps⟩

theorem toWord_eq {r : Rect t n} {p : Point t n} (hp : p ∈ r) (d : Fin n) :
    (p.get d).toWord = (r.lo.get d).toWord + UInt64.ofNat (r.digit p d) := by
  have hlo : (r.lo.get d).val ≤ (p.get d).val := (hp d).1
  have hval : (p.get d).val = (r.lo.get d).val + (r.digit p d : Int) := by
    rw [Rect.digit]
    omega
  have hcast : UInt64.ofInt (r.digit p d : Int) = UInt64.ofNat (r.digit p d) := by
    apply UInt64.toNat_inj.mp
    simp only [UInt64.ofInt, UInt64.toNat_ofNat']
    omega
  rw [Coord.toWord, hval, UInt64.ofInt_add, hcast]
  rfl

private theorem dot_along {r : Rect t n} {p : Point t n} (hp : p ∈ r) (strides : Strides n)
    (dims : List (Fin n)) :
    (dims.map fun d => strides.get d * (p.get d).toWord).foldr (· + ·) 0 =
      (dims.map fun d => strides.get d * (r.lo.get d).toWord).foldr (· + ·) 0 +
        UInt64.ofNat (reach strides r p dims) := by
  induction dims with
  | nil => rfl
  | cons d dims ih =>
    simp only [List.map_cons, List.foldr_cons, reach]
    rw [ih, toWord_eq hp d, UInt64.ofNat_add, UInt64.ofNat_mul, UInt64.ofNat_toNat]
    grind

/-- Of a point only the distance from the lower corner counts, in wrapping arithmetic too. -/
theorem dot_eq {r : Rect t n} {p : Point t n} (hp : p ∈ r) (strides : Strides n) :
    p.dot strides = r.lo.dot strides + UInt64.ofNat (reach strides r p (List.finRange n)) := by
  have hdot : ∀ q : Point t n, q.dot strides =
      ((List.finRange n).map fun d => strides.get d * (q.get d).toWord).foldr (· + ·) 0 := by
    intro q
    rw [Point.dot, List.finRange, List.map_ofFn]
    rfl
  rw [hdot, hdot]
  exact dot_along hp strides _

theorem AffineRule.offset_eq_add_reach {r : Rect t n} {p : Point t n} (hp : p ∈ r)
    (rule : AffineRule n) :
    rule.offset p =
      rule.offset r.lo + UInt64.ofNat (reach rule.strides r p (List.finRange n)) := by
  rw [AffineRule.offset, dot_eq hp, ← UInt64.add_assoc]
  rfl

private theorem mapM_dims_eq_some {words : List UInt64} {dims : List (Fin n)} :
    (words.mapM fun d => if h : d.toNat < n then some (⟨d.toNat, h⟩ : Fin n) else none) =
      some dims ↔ dims.map Fin.val = words.map UInt64.toNat := by
  induction words generalizing dims with
  | nil =>
    rw [List.mapM_nil, List.map_nil, List.map_eq_nil_iff]
    exact ⟨fun h => (Option.some.inj h).symm, fun h => congrArg some h.symm⟩
  | cons word words ih =>
    simp only [List.mapM_cons, Option.bind_eq_bind, Option.bind_eq_some_iff,
      Option.dite_none_right_eq_some, Option.pure_def, Option.some.injEq, ih, List.map_cons,
      List.map_eq_cons_iff]
    constructor
    · rintro ⟨_, ⟨h, rfl⟩, rest, hrest, rfl⟩
      exact ⟨⟨word.toNat, h⟩, rest, rfl, rfl, hrest⟩
    · rintro ⟨d, rest, rfl, hd, hrest⟩
      exact ⟨d, ⟨hd ▸ d.isLt, Fin.ext hd.symm⟩, rest, hrest, rfl⟩

theorem permutation?_eq_some_iff {order : Vector UInt64 n} {dims : List (Fin n)} :
    permutation? order = some dims ↔
      dims.map Fin.val = order.toList.map UInt64.toNat ∧ dims.Nodup := by
  simp only [permutation?, Option.bind_eq_some_iff, Option.ite_none_right_eq_some,
    Option.some.injEq, mapM_dims_eq_some]
  constructor
  · rintro ⟨_, hdims, hnodup, rfl⟩
    exact ⟨hdims, hnodup⟩
  · rintro ⟨hdims, hnodup⟩
    exact ⟨dims, hdims, hnodup, rfl⟩

theorem permutation?_eq_some {order : Vector UInt64 n} {dims : List (Fin n)}
    (h : permutation? order = some dims) : dims.Perm (List.finRange n) := by
  obtain ⟨hdims, hnodup⟩ := permutation?_eq_some_iff.mp h
  have hlength : dims.length = n := by
    have := congrArg List.length hdims
    rwa [List.length_map, List.length_map, Vector.length_toList] at this
  have hsub : dims.Subperm (List.finRange n) := hnodup.subperm fun d _ => List.mem_finRange d
  refine hsub.perm_of_length_le (Nat.le_of_eq ?_)
  rw [List.length_finRange, hlength]

theorem exists_permutation?_iff (order : Vector UInt64 n) :
    (∃ dims, permutation? order = some dims) ↔
      (order.toList.map UInt64.toNat).Perm (List.range n) := by
  constructor
  · rintro ⟨dims, hdims⟩
    rw [← (permutation?_eq_some_iff.mp hdims).1, ← List.map_coe_finRange_eq_range]
    exact (permutation?_eq_some hdims).map Fin.val
  · intro h
    have hlt : ∀ d ∈ order.toList.map UInt64.toNat, d < n := fun d hd =>
      List.mem_range.mp (h.mem_iff.mp hd)
    have hval : ((order.toList.map UInt64.toNat).pmap Fin.mk hlt).map Fin.val =
        order.toList.map UInt64.toNat := by
      rw [List.map_pmap, List.pmap_eq_map, List.map_id']
    refine ⟨_, permutation?_eq_some_iff.mpr ⟨hval, ?_⟩⟩
    apply List.Nodup.of_map Fin.val
    rw [hval]
    exact h.symm.nodup List.nodup_range

theorem le_roundUp {alignment : Nat} (h : 0 < alignment) (value : Nat) :
    value ≤ roundUp value alignment := by
  have hdiv := Nat.div_add_mod (value + (alignment - 1)) alignment
  have hmod := Nat.mod_lt (value + (alignment - 1)) h
  rw [roundUp, Nat.mul_comm]
  omega

/-- A piece starts at an aligned byte, and has each element at its number from there on. -/
theorem placeRect_eq_ok {order : List (Fin n)} {element alignment used stop : Nat} {r : Rect t n}
    {q : Piece t n} (horder : order.Perm (List.finRange n)) (helement : element < wordLimit)
    (h : placeRect order element alignment used r = .ok (q, stop)) :
    q.bounds = r ∧ stop = roundUp used alignment + element * r.slots order ∧ stop < wordLimit ∧
      Steps q.rule.strides r element order ∧
      ∀ p ∈ r, (q.rule.offset p).toNat = roundUp used alignment + element * r.rank p order := by
  rw [placeRect] at h
  obtain ⟨start, hstart, h⟩ := bind_eq_ok.mp h
  obtain ⟨rfl, _⟩ := checkedSize_eq_ok hstart
  obtain ⟨⟨strides, size⟩, hpacked, h⟩ := bind_eq_ok.mp h
  obtain ⟨stop', hstop, h⟩ := bind_eq_ok.mp h
  obtain ⟨rfl, hlt⟩ := checkedSize_eq_ok hstop
  rw [pure_eq_ok, Prod.mk.injEq] at h
  obtain ⟨rfl, rfl⟩ := h
  have hnodup : order.Nodup := horder.symm.nodup (List.nodup_finRange n)
  obtain ⟨rfl, _, hsteps⟩ := packed_eq_ok hnodup helement hpacked
  refine ⟨rfl, rfl, hlt, hsteps, fun p hp => ?_⟩
  have hsum : reach strides r p (List.finRange n) = element * r.rank p order := by
    rw [← reach_of_steps hsteps p]
    exact reach_perm strides r p horder.symm
  have hword : AffineRule.offset
      ⟨UInt64.ofNat (roundUp used alignment) - r.lo.dot strides, strides⟩ p =
        UInt64.ofNat (roundUp used alignment + element * r.rank p order) := by
    rw [AffineRule.offset, dot_eq hp, hsum, UInt64.ofNat_add]
    grind
  have hle : element * r.rank p order ≤ element * r.slots order :=
    Nat.mul_le_mul_left _ (Nat.le_of_lt (Rect.rank_lt hp order))
  rw [hword]
  exact UInt64.toNat_ofNat_of_lt' (Nat.lt_of_le_of_lt (Nat.add_le_add_left hle _) hlt)

theorem exists_placeRect_of_mem {order : List (Fin n)} {element alignment used stop : Nat}
    {rects : List (Rect t n)} {pieces : PieceList t n} {q : Piece t n}
    (h : placeRects order element alignment used rects = .ok (pieces, stop)) (hq : q ∈ pieces) :
    ∃ used' r stop', placeRect order element alignment used' r = .ok (q, stop') := by
  induction rects generalizing used pieces with
  | nil =>
    rw [placeRects, Except.ok.injEq, Prod.mk.injEq] at h
    obtain ⟨rfl, rfl⟩ := h
    contradiction
  | cons r rects ih =>
    obtain ⟨⟨first, between⟩, hfirst, h⟩ := bind_eq_ok.mp h
    obtain ⟨⟨rest, stop'⟩, hrest, h⟩ := bind_eq_ok.mp h
    rw [pure_eq_ok, Prod.mk.injEq] at h
    obtain ⟨rfl, rfl⟩ := h
    cases List.mem_cons.mp hq with
    | inl heq => exact ⟨used, r, between, heq ▸ hfirst⟩
    | inr hmem => exact ih hrest hmem

/-- The elements of a piece lie between two positions, and no two of them share a byte. -/
structure Piece.Packs (element lower upper : Nat) (q : Piece t n) : Prop where
  inside : ∀ p ∈ q.bounds, lower ≤ (q.rule.offset p).toNat ∧
    (q.rule.offset p).toNat + element ≤ upper
  apart : ∀ p ∈ q.bounds, ∀ p' ∈ q.bounds, p ≠ p' →
    (q.rule.offset p).toNat + element ≤ (q.rule.offset p').toNat ∨
      (q.rule.offset p').toNat + element ≤ (q.rule.offset p).toNat

theorem packs_of_placeRect {order : List (Fin n)} {element alignment used stop : Nat}
    {r : Rect t n} {q : Piece t n} (horder : order.Perm (List.finRange n))
    (helement : element < wordLimit) (halignment : 0 < alignment)
    (h : placeRect order element alignment used r = .ok (q, stop)) :
    q.Packs element used stop := by
  obtain ⟨rfl, rfl, _, _, hoffset⟩ := placeRect_eq_ok horder helement h
  have hused := le_roundUp halignment used
  have hall : ∀ d, d ∈ order := fun d => horder.mem_iff.mpr (List.mem_finRange d)
  have hstep : ∀ {a b : Nat}, a < b → element * a + element ≤ element * b := by
    intro a b hab
    rw [← Nat.mul_succ]
    exact Nat.mul_le_mul_left _ hab
  refine ⟨fun p hp => ?_, fun p hp p' hp' hne => ?_⟩
  · have hlast := hstep (Rect.rank_lt hp order)
    rw [hoffset p hp]
    omega
  · rw [hoffset p hp, hoffset p' hp']
    have hrank : q.bounds.rank p order ≠ q.bounds.rank p' order := fun heq =>
      hne (Rect.eq_of_rank_eq hp hp' hall heq)
    rcases Nat.lt_or_gt_of_ne hrank with hlt | hgt
    · have := hstep hlt
      omega
    · have := hstep hgt
      omega

end RegionLayout
