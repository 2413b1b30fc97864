import RegionLayout.Proofs.FieldMap
import RegionLayout.Proofs.Placement.Packing

/-!
# Placed layouts

Placement only ever goes forward: the pieces of a group come after those of the groups before it,
and a field without a fixed offset after the fields before it in its element.
-/

namespace RegionLayout

variable {t : CoordType} {n : Nat}

/-- The elements of a list lie between two positions, piece after piece. -/
structure PieceList.Packs (element lower upper : Nat) (pieces : PieceList t n) : Prop where
  each : ∀ q ∈ pieces, Piece.Packs element lower upper q
  ordered : List.Pairwise (fun q q' => ∀ p ∈ q.bounds, ∀ p' ∈ q'.bounds,
    (q.rule.offset p).toNat + element ≤ (q'.rule.offset p').toNat) pieces

theorem Piece.Packs.mono {q : Piece t n} {element lower upper lower' upper' : Nat}
    (h : q.Packs element lower upper) (hlower : lower' ≤ lower) (hupper : upper ≤ upper') :
    q.Packs element lower' upper' := by
  refine ⟨fun p hp => ?_, h.apart⟩
  obtain ⟨hlo, hhi⟩ := h.inside p hp
  exact ⟨Nat.le_trans hlower hlo, Nat.le_trans hhi hupper⟩

theorem placeRects_eq_ok {order : List (Fin n)} {element alignment used stop : Nat}
    {rects : List (Rect t n)} {pieces : PieceList t n} (horder : order.Perm (List.finRange n))
    (helement : element < wordLimit) (halignment : 0 < alignment) (hused : used < wordLimit)
    (h : placeRects order element alignment used rects = .ok (pieces, stop)) :
    List.map Piece.bounds pieces = rects ∧ used ≤ stop ∧ stop < wordLimit ∧
      PieceList.Packs element used stop pieces := by
  induction rects generalizing used pieces with
  | nil =>
    rw [placeRects, Except.ok.injEq, Prod.mk.injEq] at h
    obtain ⟨rfl, rfl⟩ := h
    exact ⟨rfl, Nat.le_refl _, hused, ⟨by simp, .nil⟩⟩
  | cons r rects ih =>
    obtain ⟨⟨q, between⟩, hq, h⟩ := bind_eq_ok.mp h
    obtain ⟨⟨rest, stop'⟩, hrest, h⟩ := bind_eq_ok.mp h
    rw [pure_eq_ok, Prod.mk.injEq] at h
    obtain ⟨rfl, rfl⟩ := h
    obtain ⟨hbounds, hbetween, hlt, _⟩ := placeRect_eq_ok horder helement hq
    have hpacks := packs_of_placeRect horder helement halignment hq
    obtain ⟨hmap, hle, hstop, hrestPacks⟩ := ih hlt hrest
    have hstart : used ≤ between := by
      have := le_roundUp halignment used
      omega
    refine ⟨?_, Nat.le_trans hstart hle, hstop, ?_, ?_⟩
    · rw [List.map_cons, hbounds, hmap]
    · intro q' hq'
      rcases List.mem_cons.mp hq' with rfl | hq'
      · exact hpacks.mono (Nat.le_refl _) hle
      · exact (hrestPacks.each q' hq').mono hstart (Nat.le_refl _)
    · refine List.pairwise_cons.mpr ⟨fun q' hq' p hp p' hp' => ?_, hrestPacks.ordered⟩
      exact Nat.le_trans (hpacks.inside p hp).2 ((hrestPacks.each q' hq').inside p' hp').1

/-- An element of an instance: a point of a numbered piece of a numbered list. -/
structure Site (t : CoordType) (n : Nat) where
  list : Nat
  piece : Nat
  point : Point t n
  deriving DecidableEq

/-- Where the element is, if the piece exists and holds the point. -/
def siteOffset? (lists : List (PieceList t n)) (site : Site t n) : Option Nat := do
  let pieces ← lists[site.list]?
  let q ← pieces[site.piece]?
  if site.point ∈ q.bounds then some (q.rule.offset site.point).toNat else none

theorem siteOffset?_eq_some {lists : List (PieceList t n)} {site : Site t n} {offset : Nat} :
    siteOffset? lists site = some offset ↔
      ∃ pieces q, lists[site.list]? = some pieces ∧ pieces[site.piece]? = some q ∧
        site.point ∈ q.bounds ∧ offset = (q.rule.offset site.point).toNat := by
  simp only [siteOffset?, Option.bind_eq_bind, Option.bind_eq_some_iff,
    Option.ite_none_right_eq_some, Option.some.injEq]
  constructor
  · rintro ⟨pieces, hpieces, q, hq, hmem, rfl⟩
    exact ⟨pieces, q, hpieces, hq, hmem, rfl⟩
  · rintro ⟨pieces, q, hpieces, hq, hmem, rfl⟩
    exact ⟨pieces, hpieces, q, hq, hmem, rfl⟩

/-- The elements of all lists are within the bytes in use, and no two of them share one. The size
of an element depends on its list. -/
structure ElementsApart (element : Nat → Nat) (used : Nat) (lists : List (PieceList t n)) :
    Prop where
  inside : ∀ site offset, siteOffset? lists site = some offset → offset + element site.list ≤ used
  apart : ∀ site site' offset offset', siteOffset? lists site = some offset →
    siteOffset? lists site' = some offset' → site ≠ site' →
      offset + element site.list ≤ offset' ∨ offset' + element site'.list ≤ offset

theorem getElem?_concat_eq_some {α : Type} {items : List α} {last a : α} {i : Nat}
    (h : (items ++ [last])[i]? = some a) :
    i < items.length ∧ items[i]? = some a ∨ i = items.length ∧ a = last := by
  rcases Nat.lt_trichotomy i items.length with hi | rfl | hi
  · rw [List.getElem?_append_left hi] at h
    exact .inl ⟨hi, h⟩
  · rw [List.getElem?_concat_length, Option.some.injEq] at h
    exact .inr ⟨rfl, h.symm⟩
  · have hlast := (List.getElem?_eq_some_iff.mp h).1
    rw [List.length_append, List.length_singleton] at hlast
    omega

namespace ElementsApart

variable {element element' : Nat → Nat} {used stop : Nat} {lists : List (PieceList t n)}
  {pieces : PieceList t n}

theorem nil (element : Nat → Nat) (used : Nat) :
    ElementsApart element used ([] : List (PieceList t n)) where
  inside := by simp [siteOffset?]
  apart := by simp [siteOffset?]

private theorem apart_of_packs {size : Nat} (hpacks : PieceList.Packs size used stop pieces)
    {i j : Nat} {q q' : Piece t n} {p p' : Point t n} (hq : pieces[i]? = some q)
    (hq' : pieces[j]? = some q') (hp : p ∈ q.bounds) (hp' : p' ∈ q'.bounds)
    (hne : i = j → p ≠ p') :
    (q.rule.offset p).toNat + size ≤ (q'.rule.offset p').toNat ∨
      (q'.rule.offset p').toNat + size ≤ (q.rule.offset p).toNat := by
  obtain ⟨hi, rfl⟩ := List.getElem?_eq_some_iff.mp hq
  obtain ⟨hj, rfl⟩ := List.getElem?_eq_some_iff.mp hq'
  have hordered := List.pairwise_iff_getElem.mp hpacks.ordered
  rcases Nat.lt_trichotomy i j with hlt | rfl | hgt
  · exact .inl (hordered i j hi hj hlt p hp p' hp')
  · exact (hpacks.each _ (List.getElem_mem hi)).apart p hp p' hp' (hne rfl)
  · exact .inr (hordered j i hj hi hgt p' hp' p hp)

/-- A list packed after all others leaves the elements apart. -/
theorem append (h : ElementsApart element used lists) (hstop : used ≤ stop)
    (hpacks : PieceList.Packs (element' lists.length) used stop pieces)
    (hsame : ∀ i, i < lists.length → element' i = element i) :
    ElementsApart element' stop (lists ++ [pieces]) := by
  have hcases : ∀ site offset, siteOffset? (lists ++ [pieces]) site = some offset →
      siteOffset? lists site = some offset ∧ element' site.list = element site.list ∨
        site.list = lists.length ∧ ∃ q, pieces[site.piece]? = some q ∧ site.point ∈ q.bounds ∧
          offset = (q.rule.offset site.point).toNat := by
    intro site offset hsite
    obtain ⟨found, q, hfound, hq, hmem, rfl⟩ := siteOffset?_eq_some.mp hsite
    rcases getElem?_concat_eq_some hfound with ⟨hlt, hfound⟩ | ⟨hlast, rfl⟩
    · exact .inl ⟨siteOffset?_eq_some.mpr ⟨found, q, hfound, hq, hmem, rfl⟩, hsame _ hlt⟩
    · exact .inr ⟨hlast, q, hq, hmem, rfl⟩
  refine ⟨fun site offset hsite => ?_, fun site site' offset offset' hsite hsite' hne => ?_⟩
  · rcases hcases site offset hsite with ⟨hold, hsize⟩ | ⟨hlast, q, hq, hmem, rfl⟩
    · have := h.inside site offset hold
      omega
    · rw [hlast]
      exact ((hpacks.each q (List.mem_of_getElem? hq)).inside _ hmem).2
  · rcases hcases site offset hsite with ⟨hold, hsize⟩ | ⟨hlast, q, hq, hmem, rfl⟩ <;>
      rcases hcases site' offset' hsite' with ⟨hold', hsize'⟩ | ⟨hlast', q', hq', hmem', rfl⟩
    · rw [hsize, hsize']
      exact h.apart site site' offset offset' hold hold' hne
    · have hbefore := h.inside site offset hold
      have hafter := ((hpacks.each q' (List.mem_of_getElem? hq')).inside _ hmem').1
      omega
    · have hbefore := h.inside site' offset' hold'
      have hafter := ((hpacks.each q (List.mem_of_getElem? hq)).inside _ hmem).1
      omega
    · rw [hlast, hlast']
      refine apart_of_packs hpacks hq hq' hmem hmem' fun hpiece hpoint => hne ?_
      cases site
      cases site'
      simp_all

end ElementsApart

end RegionLayout
