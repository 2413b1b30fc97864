import Mathlib.Data.List.Count
import RegionLayout.Program.Tree
import RegionLayout.Rect.Lemmas

/-!
# Searching a decision tree

A tree of planes answers like the piece list it was built from, except that the leaf it finds may
be a part of the piece. Cutting keeps the order of the pieces, so they need not be disjoint.
-/

namespace RegionLayout

variable {t : CoordType} {n : Nat}

/-- Both searches for `p` miss, or the leaf found is a part around `p` of the piece found. -/
inductive Answers (p : Point t n) : Option (Piece t n) → Option (Piece t n) → Prop
  | miss : Answers p none none
  | hit {leaf q : Piece t n} (mem : p ∈ leaf.bounds) (part : leaf.bounds ⊆ q.bounds)
      (rule : leaf.rule = q.rule) : Answers p (some leaf) (some q)

namespace Answers

variable {p : Point t n} {x y z : Option (Piece t n)}

theorem trans (hxy : Answers p x y) (hyz : Answers p y z) : Answers p x z := by
  cases hxy with
  | miss => exact hyz
  | hit mem part rule =>
    cases hyz with
    | hit _ part' rule' =>
      exact .hit mem (Rect.subset_trans part part') (rule.trans rule')

theorem found {leaf : Piece t n} {q? : Option (Piece t n)} (h : Answers p (some leaf) q?) :
    ∃ q, q? = some q ∧ leaf.bounds ⊆ q.bounds ∧ leaf.rule = q.rule := by
  cases h with
  | hit _ part rule => exact ⟨_, rfl, part, rule⟩

end Answers

namespace PieceList

theorem find?_cons (q : Piece t n) (rest : PieceList t n) (p : Point t n) :
    PieceList.find? (q :: rest) p = if p ∈ q.bounds then some q else PieceList.find? rest p := by
  by_cases h : p ∈ q.bounds <;> simp [PieceList.find?, h]

theorem mem_of_find? {pieces : PieceList t n} {p : Point t n} {q : Piece t n}
    (h : PieceList.find? pieces p = some q) : q ∈ pieces ∧ p ∈ q.bounds := by
  refine ⟨List.mem_of_find?_eq_some h, ?_⟩
  have hp := List.find?_some h
  exact of_decide_eq_true hp

theorem find?_of_disjoint {pieces : PieceList t n} {q : Piece t n} {p : Point t n}
    (hdisjoint : PairwiseDisjoint (List.map Piece.bounds pieces)) (hq : q ∈ pieces)
    (hp : p ∈ q.bounds) : PieceList.find? pieces p = some q := by
  induction pieces with
  | nil => contradiction
  | cons first rest ih =>
    rw [List.map_cons, PairwiseDisjoint, List.pairwise_cons] at hdisjoint
    obtain ⟨hfirst, hrest⟩ := hdisjoint
    rw [find?_cons]
    rcases List.mem_cons.mp hq with rfl | hq
    · rw [if_pos hp]
    · have hout : p ∉ first.bounds := fun hmem =>
        hfirst q.bounds (List.mem_map_of_mem hq) (Rect.overlaps_iff.mpr ⟨p, hmem, hp⟩)
      rw [if_neg hout]
      exact ih hrest hq

theorem find?_answers_self (pieces : PieceList t n) (p : Point t n) :
    Answers p (PieceList.find? pieces p) (PieceList.find? pieces p) := by
  cases h : PieceList.find? pieces p with
  | none => exact .miss
  | some q => exact .hit (mem_of_find? h).2 (Rect.subset_refl _) rfl

/-- Taking parts of pieces, and dropping some, does not change the answer at a point that the
dropped pieces and the parts left out do not hold. -/
theorem find?_filterMap (part? : Piece t n → Option (Piece t n)) (p : Point t n)
    (hnone : ∀ q, part? q = none → p ∉ q.bounds)
    (hsome : ∀ q part, part? q = some part → (p ∈ q.bounds → p ∈ part.bounds) ∧
      part.bounds ⊆ q.bounds ∧ part.rule = q.rule) (pieces : PieceList t n) :
    Answers p (PieceList.find? (List.filterMap part? pieces) p) (PieceList.find? pieces p) := by
  induction pieces with
  | nil => exact .miss
  | cons q rest ih =>
    rw [find?_cons]
    cases hq : part? q with
    | none =>
      rw [List.filterMap_cons_none hq, if_neg (hnone q hq)]
      exact ih
    | some part =>
      obtain ⟨hin, hsub, hrule⟩ := hsome q part hq
      rw [List.filterMap_cons_some hq, find?_cons]
      by_cases hp : p ∈ q.bounds
      · rw [if_pos hp, if_pos (hin hp)]
        exact .hit (hin hp) hsub hrule
      · have hout : p ∉ part.bounds := fun h => hp (Rect.subset_iff.mp hsub p h)
        rw [if_neg hp, if_neg hout]
        exact ih

/-- The pieces that have a point. Only those leave instructions behind. -/
def inhabited (pieces : PieceList t n) : PieceList t n :=
  List.filter (fun q => decide (¬ q.bounds.IsEmpty)) pieces

theorem mem_inhabited {pieces : PieceList t n} {q : Piece t n} :
    q ∈ inhabited pieces ↔ q ∈ pieces ∧ ¬ q.bounds.IsEmpty := by
  simp [inhabited, List.mem_filter]

theorem find?_inhabited (pieces : PieceList t n) (p : Point t n) :
    PieceList.find? (inhabited pieces) p = PieceList.find? pieces p := by
  induction pieces with
  | nil => rfl
  | cons q rest ih =>
    rw [inhabited] at ih ⊢
    rw [find?_cons]
    by_cases hq : q.bounds.IsEmpty
    · rw [List.filter_cons_of_neg (by simpa using hq), if_neg (Rect.not_mem_of_isEmpty hq)]
      exact ih
    · rw [List.filter_cons_of_pos (by simpa using hq), find?_cons, ih]

end PieceList

namespace Cut

variable {cut : Cut t n} {pieces : PieceList t n} {p : Point t n} {q : Piece t n}

theorem find?_lower (hp : p.get cut.dim < cut.plane) :
    Answers p (PieceList.find? (cut.lower pieces) p) (PieceList.find? pieces p) := by
  apply PieceList.find?_filterMap
  · intro q hq hmem
    have hin : p ∈ (q.bounds.split cut.dim cut.plane).1 := Rect.mem_split_fst.mpr ⟨hmem, hp⟩
    simp only [ite_eq_left_iff, reduceCtorEq, imp_false, Decidable.not_not] at hq
    exact Rect.not_mem_of_isEmpty hq hin
  · intro q part hq
    simp only [Option.ite_none_left_eq_some, Option.some.injEq] at hq
    obtain ⟨_, rfl⟩ := hq
    refine ⟨fun hmem => Rect.mem_split_fst.mpr ⟨hmem, hp⟩, ?_, rfl⟩
    exact Rect.subset_iff.mpr fun r hr => (Rect.mem_split_fst.mp hr).1

theorem find?_upper (hp : ¬ p.get cut.dim < cut.plane) :
    Answers p (PieceList.find? (cut.upper pieces) p) (PieceList.find? pieces p) := by
  have hle : cut.plane ≤ p.get cut.dim := Int.not_lt.mp hp
  apply PieceList.find?_filterMap
  · intro q hq hmem
    have hin : p ∈ (q.bounds.split cut.dim cut.plane).2 := Rect.mem_split_snd.mpr ⟨hmem, hle⟩
    simp only [ite_eq_left_iff, reduceCtorEq, imp_false, Decidable.not_not] at hq
    exact Rect.not_mem_of_isEmpty hq hin
  · intro q part hq
    simp only [Option.ite_none_left_eq_some, Option.some.injEq] at hq
    obtain ⟨_, rfl⟩ := hq
    refine ⟨fun hmem => Rect.mem_split_snd.mpr ⟨hmem, hle⟩, ?_, rfl⟩
    exact Rect.subset_iff.mpr fun r hr => (Rect.mem_split_snd.mp hr).1

theorem inhabited_of_mem_lower (h : q ∈ cut.lower pieces) : ¬ q.bounds.IsEmpty := by
  obtain ⟨q', _, hq⟩ := List.mem_filterMap.mp h
  simp only [Option.ite_none_left_eq_some, Option.some.injEq] at hq
  obtain ⟨hpart, rfl⟩ := hq
  exact hpart

theorem inhabited_of_mem_upper (h : q ∈ cut.upper pieces) : ¬ q.bounds.IsEmpty := by
  obtain ⟨q', _, hq⟩ := List.mem_filterMap.mp h
  simp only [Option.ite_none_left_eq_some, Option.some.injEq] at hq
  obtain ⟨hpart, rfl⟩ := hq
  exact hpart

/-- Some piece ends below the plane, and some piece begins from it on. -/
def Between (cut : Cut t n) (pieces : PieceList t n) : Prop :=
  (∃ q ∈ pieces, q.bounds.hi.get cut.dim < cut.plane) ∧
    ∃ q ∈ pieces, cut.plane ≤ q.bounds.lo.get cut.dim

theorem separates_iff : cut.Separates pieces ↔ cut.Between pieces := by
  simp only [Separates, Between, belowCount, aboveCount, List.countP_lt_length_iff,
    decide_eq_false_iff_not, Coord.lt_def, Coord.le_def, Int.not_lt, Int.not_le]
  exact and_comm

theorem lower_ne_nil (hs : cut.Separates pieces)
    (hpieces : ∀ q ∈ pieces, ¬ q.bounds.IsEmpty) : cut.lower pieces ≠ [] := by
  obtain ⟨⟨q, hq, hhi⟩, _⟩ := separates_iff.mp hs
  have hlt : q.bounds.lo.get cut.dim < cut.plane :=
    Int.lt_of_le_of_lt (Rect.lo_le_hi (hpieces q hq) _) hhi
  have hpart : ¬ (q.bounds.split cut.dim cut.plane).1.IsEmpty := fun h =>
    Rect.not_mem_of_isEmpty h (Rect.mem_split_fst.mpr ⟨Rect.lo_mem (hpieces q hq), hlt⟩)
  exact List.ne_nil_of_mem (List.mem_filterMap.mpr ⟨q, hq, if_neg hpart⟩)

theorem upper_ne_nil (hs : cut.Separates pieces)
    (hpieces : ∀ q ∈ pieces, ¬ q.bounds.IsEmpty) : cut.upper pieces ≠ [] := by
  obtain ⟨_, q, hq, hlo⟩ := separates_iff.mp hs
  have hle : cut.plane ≤ q.bounds.hi.get cut.dim :=
    Int.le_trans hlo (Rect.lo_le_hi (hpieces q hq) _)
  have hpart : ¬ (q.bounds.split cut.dim cut.plane).2.IsEmpty := fun h =>
    Rect.not_mem_of_isEmpty h (Rect.mem_split_snd.mpr ⟨Rect.hi_mem (hpieces q hq), hle⟩)
  exact List.ne_nil_of_mem (List.mem_filterMap.mpr ⟨q, hq, if_neg hpart⟩)

end Cut

namespace Tree

/-- The first piece that holds the point, of the chain that the planes lead it to. -/
def find? (p : Point t n) : Tree t n → Option (Piece t n)
  | .split dim plane below above => if p.get dim < plane then below.find? p else above.find? p
  | .chain pieces => PieceList.find? pieces p

/-- No chain is empty. -/
def Filled : Tree t n → Prop
  | .split _ _ below above => below.Filled ∧ above.Filled
  | .chain pieces => pieces ≠ []

theorem build_of_best?_none {options : CompileOptions} {pieces : PieceList t n}
    (h : Cut.best? pieces = none) : build options pieces = .chain pieces := by
  rw [build]
  split
  · rfl
  · split
    · rfl
    · simp_all only [reduceCtorEq]

theorem build_of_best?_some {options : CompileOptions} {pieces : PieceList t n} {cut : Cut t n}
    (hgo : ¬ (pieces.length ≤ options.chainLimit ∨ Opcode.splitPlane ∉ options.allowed))
    (h : Cut.best? pieces = some cut) :
    build options pieces = .split cut.dim cut.plane (build options (cut.lower pieces))
      (build options (cut.upper pieces)) := by
  rw [build, if_neg hgo]
  split
  · simp_all only [reduceCtorEq]
  · next other hother =>
    rw [h] at hother
    cases hother
    rfl

theorem find?_build (options : CompileOptions) (pieces : PieceList t n) (p : Point t n) :
    Answers p ((build options pieces).find? p) (PieceList.find? pieces p) := by
  induction pieces using build.induct options with
  | case1 pieces hstop =>
    rw [build, if_pos hstop]
    exact PieceList.find?_answers_self pieces p
  | case2 pieces _ hnone =>
    rw [build_of_best?_none hnone]
    exact PieceList.find?_answers_self pieces p
  | case3 pieces hgo cut hcut ihbelow ihabove =>
    rw [build_of_best?_some hgo hcut, find?]
    by_cases hp : p.get cut.dim < cut.plane
    · rw [if_pos hp]
      exact ihbelow.trans (Cut.find?_lower hp)
    · rw [if_neg hp]
      exact ihabove.trans (Cut.find?_upper hp)

theorem filled_build (options : CompileOptions) (pieces : PieceList t n) (hne : pieces ≠ [])
    (hpieces : ∀ q ∈ pieces, ¬ q.bounds.IsEmpty) : (build options pieces).Filled := by
  induction pieces using build.induct options with
  | case1 pieces hstop =>
    rw [build, if_pos hstop]
    exact hne
  | case2 pieces _ hnone =>
    rw [build_of_best?_none hnone]
    exact hne
  | case3 pieces hgo cut hcut ihbelow ihabove =>
    have hs := Cut.separates_of_best? hcut
    rw [build_of_best?_some hgo hcut]
    exact ⟨ihbelow (Cut.lower_ne_nil hs hpieces) fun _ => Cut.inhabited_of_mem_lower,
      ihabove (Cut.upper_ne_nil hs hpieces) fun _ => Cut.inhabited_of_mem_upper⟩

theorem filled_build_inhabited (options : CompileOptions) {pieces : PieceList t n}
    (hne : PieceList.inhabited pieces ≠ []) :
    (build options (PieceList.inhabited pieces)).Filled :=
  filled_build options _ hne fun _ hq => (PieceList.mem_inhabited.mp hq).2

end Tree

end RegionLayout
