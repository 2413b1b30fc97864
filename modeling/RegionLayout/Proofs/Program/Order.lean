import Mathlib.Data.List.Forall2
import RegionLayout.Proofs.Program.Coverage
import RegionLayout.Proofs.Program.Division

/-!
# The order of the pieces

The choice of a plane only counts pieces, so it is the same in whatever order they are listed, and
so is the tree but for the order within its chains.
-/

namespace RegionLayout

variable {t : CoordType} {n : Nat} {p : Point t n} {pieces pieces' : PieceList t n}
  {options : CompileOptions} {layout layout' : Layout t n}

/-- The same fields of the same space, with the pieces of each list in any order. -/
structure Layout.Reordered (layout layout' : Layout t n) : Prop where
  space : layout'.space = layout.space
  fields : layout'.fields = layout.fields
  lists : List.Forall₂ List.Perm layout.lists layout'.lists

/-- No two pieces of a list share a point. -/
def Layout.Disjoint (layout : Layout t n) : Prop :=
  ∀ pieces ∈ layout.lists, PairwiseDisjoint (List.map Piece.bounds pieces)

theorem Layout.Reordered.list? (h : layout.Reordered layout') (index : UInt64) :
    layout.list? index = none ∧ layout'.list? index = none ∨
      ∃ pieces ∈ layout.lists, ∃ pieces', layout.list? index = some pieces ∧
        layout'.list? index = some pieces' ∧ pieces.Perm pieces' := by
  obtain ⟨hlen, hperm⟩ := List.forall₂_iff_get.mp h.lists
  by_cases hlt : index.toNat < layout.lists.length
  · have hlt' : index.toNat < layout'.lists.length := hlen ▸ hlt
    refine .inr ⟨layout.lists[index.toNat], List.getElem_mem hlt, layout'.lists[index.toNat], ?_⟩
    simp only [Layout.list?, List.getElem?_eq_getElem, hlt, hlt', true_and]
    exact hperm _ hlt hlt'
  · have hge := Nat.not_lt.mp hlt
    have hge' : layout'.lists.length ≤ index.toNat := hlen ▸ hge
    simp [Layout.list?, hge, hge']

section Pieces

theorem pairwiseDisjoint_perm (h : pieces.Perm pieces')
    (hdisjoint : PairwiseDisjoint (List.map Piece.bounds pieces)) :
    PairwiseDisjoint (List.map Piece.bounds pieces') := by
  apply (h.map Piece.bounds).pairwise hdisjoint
  intro a b hab
  rw [Rect.overlaps_iff] at hab ⊢
  rintro ⟨p, hb, ha⟩
  exact hab ⟨p, ha, hb⟩

namespace PieceList

theorem find?_perm (h : pieces.Perm pieces')
    (hdisjoint : PairwiseDisjoint (List.map Piece.bounds pieces)) (p : Point t n) :
    PieceList.find? pieces' p = PieceList.find? pieces p := by
  cases hfind : PieceList.find? pieces p with
  | some q =>
    obtain ⟨hq, hp⟩ := mem_of_find? hfind
    exact find?_of_disjoint (pairwiseDisjoint_perm h hdisjoint) (h.mem_iff.mp hq) hp
  | none =>
    rw [PieceList.find?, List.find?_eq_none] at hfind ⊢
    intro q hq
    exact hfind q (h.mem_iff.mpr hq)

theorem inhabited_perm (h : pieces.Perm pieces') :
    (inhabited pieces).Perm (inhabited pieces') := h.filter _

theorem scattered_inhabited (hdisjoint : PairwiseDisjoint (List.map Piece.bounds pieces)) :
    (inhabited pieces).Scattered where
  inhabited := fun _ hq => (mem_inhabited.mp hq).2
  apart := hdisjoint.sublist (List.filter_sublist.map Piece.bounds)

end PieceList

end Pieces

/-- The error without the position of the piece it names. -/
def CompileError.unplaced : CompileError → CompileError
  | .outsideBounds list _ => .outsideBounds list 0
  | e => e

/-- Both fail, with errors that differ at most in the position of the piece they name, or both end
with results related by `R`. -/
def CompileAlike {α β : Type} (R : α → β → Prop) (x : Except (Failure CompileError) α)
    (y : Except (Failure CompileError) β) : Prop :=
  Matched (fun _ => True) R (x.mapError (Failure.mapError CompileError.unplaced))
    (y.mapError (Failure.mapError CompileError.unplaced))

namespace CompileAlike

variable {α β α' β' : Type} {R : α → β → Prop} {x : Except (Failure CompileError) α}
  {y : Except (Failure CompileError) β}

theorem error (e : Failure CompileError) : CompileAlike R (.error e) (.error e) :=
  Matched.error trivial

theorem ok {a : α} {b : β} (h : R a b) : CompileAlike R (.ok a) (.ok b) := Matched.ok h

theorem of_matched {P : Failure CompileError → Prop} (h : Matched P R x y) : CompileAlike R x y :=
  h.mapError fun _ _ => trivial

theorem bind {S : α' → β' → Prop} {f : α → Except (Failure CompileError) α'}
    {g : β → Except (Failure CompileError) β'} (h : CompileAlike R x y)
    (step : ∀ a b, R a b → CompileAlike S (f a) (g b)) : CompileAlike S (x >>= f) (y >>= g) := by
  rw [CompileAlike, mapError_bind, mapError_bind]
  exact Matched.bind h step

theorem foldlM {σ : Type} {f : α → σ → Except (Failure CompileError) α}
    {g : β → σ → Except (Failure CompileError) β}
    (step : ∀ a b item, R a b → CompileAlike R (f a item) (g b item)) (items : List σ) {a : α}
    {b : β} (start : R a b) : CompileAlike R (items.foldlM f a) (items.foldlM g b) := by
  rw [CompileAlike, mapError_foldlM, mapError_foldlM]
  exact Matched.foldlM step items start

theorem imp_of_ok {S : α → β → Prop} (h : CompileAlike R x y)
    (hRS : ∀ a b, x = .ok a → y = .ok b → R a b → S a b) : CompileAlike S x y := by
  apply Matched.imp_of_ok h
  intro a b hx hy
  exact hRS a b (mapError_eq_ok.mp hx) (mapError_eq_ok.mp hy)

theorem exists_ok {a : α} (h : CompileAlike R x y) (hx : x = .ok a) :
    ∃ b, y = .ok b ∧ R a b := by
  subst hx
  cases y with
  | error e => nomatch h
  | ok b =>
    cases h with
    | ok h => exact ⟨b, rfl, h⟩

end CompileAlike

section Checks

variable {space : IndexSpace t n} {allowed : OpcodeSet} {list : Nat}

theorem coveredSet_perm (h : pieces.Perm pieces') :
    coveredSet space pieces' = coveredSet space pieces := by
  simp only [coveredSet, h.mem_iff]

theorem unplaced_of_firstPieceDefect? {bounds : Rect t n} {index : Nat} {e : CompileError}
    (h : firstPieceDefect? list bounds allowed index pieces = some e) :
    e.unplaced = if Opcode.affinePiece ∈ allowed then .outsideBounds list 0
      else .unsupportedPieceKind list index .affinePiece := by
  by_cases hallowed : Opcode.affinePiece ∈ allowed
  · rw [if_pos hallowed]
    induction pieces generalizing index with
    | nil => simp [firstPieceDefect?] at h
    | cons q rest ih =>
      by_cases hq : q.bounds ⊆ bounds
      · apply ih
        simpa [firstPieceDefect?, pieceDefect?, PieceKind.opcode, hallowed, hq] using h
      · simp [firstPieceDefect?, pieceDefect?, PieceKind.opcode, hallowed, hq] at h
        simp [← h, CompileError.unplaced]
  · rw [if_neg hallowed]
    cases pieces with
    | nil => simp [firstPieceDefect?] at h
    | cons q rest =>
      simp [firstPieceDefect?, pieceDefect?, PieceKind.opcode, hallowed] at h
      simp [← h, CompileError.unplaced]

theorem unplaced_of_not_admissible
    (hdisjoint : PairwiseDisjoint (List.map Piece.bounds pieces))
    (hbad : ¬ Admissible space allowed pieces) :
    (checkCoverage space allowed list pieces).mapError CompileError.unplaced =
      .error (if Opcode.affinePiece ∈ allowed then .outsideBounds list 0
        else .unsupportedPieceKind list 0 .affinePiece) := by
  have hoverlap := (firstOverlap?_eq_none_iff _).mpr hdisjoint
  cases hdefect : firstPieceDefect? list space.bounds allowed 0 pieces with
  | none => exact absurd ((admissible_iff list).mpr ⟨hdefect, hoverlap⟩) hbad
  | some e =>
    rw [checkCoverage, hdefect, ← unplaced_of_firstPieceDefect? hdefect]
    rfl

theorem Admissible.perm (hgood : Admissible space allowed pieces) (h : pieces.Perm pieces') :
    Admissible space allowed pieces' where
  evaluable := by
    rcases hgood.evaluable with rfl | hallowed
    · exact .inl h.nil_eq.symm
    · exact .inr hallowed
  inside := by
    intro q hq
    exact hgood.inside q (h.mem_iff.mpr hq)
  apart := by
    rw [← pairwiseDisjoint_bounds_iff]
    exact pairwiseDisjoint_perm h (pairwiseDisjoint_bounds_iff.mpr hgood.apart)

/-- The checks find the same, but for the position of the piece they name. -/
theorem checkCoverage_perm (h : pieces.Perm pieces')
    (hdisjoint : PairwiseDisjoint (List.map Piece.bounds pieces)) :
    (checkCoverage space allowed list pieces').mapError CompileError.unplaced =
      (checkCoverage space allowed list pieces).mapError CompileError.unplaced := by
  by_cases hgood : Admissible space allowed pieces
  · rw [checkCoverage_of_admissible hgood, checkCoverage_of_admissible (hgood.perm h),
      coveredSet_perm h]
  · have hbad : ¬ Admissible space allowed pieces' := fun hgood' => hgood (hgood'.perm h.symm)
    rw [unplaced_of_not_admissible hdisjoint hgood,
      unplaced_of_not_admissible (pairwiseDisjoint_perm h hdisjoint) hbad]

theorem compileAlike_checkCoverage (h : pieces.Perm pieces')
    (hdisjoint : PairwiseDisjoint (List.map Piece.bounds pieces)) :
    CompileAlike Eq ((checkCoverage space allowed list pieces).mapError .error)
      ((checkCoverage space allowed list pieces').mapError .error) := by
  have hsame : ∀ x : Except CompileError Unit,
      (x.mapError Failure.error).mapError (Failure.mapError CompileError.unplaced) =
        (x.mapError CompileError.unplaced).mapError Failure.error := by
    intro x
    cases x <;> rfl
  rw [CompileAlike, hsame, hsame, checkCoverage_perm h hdisjoint]
  exact Matched.refl fun _ _ => trivial

end Checks

namespace Cut

variable {cut : Cut t n}

theorem belowCount_perm (h : pieces.Perm pieces') :
    cut.belowCount pieces' = cut.belowCount pieces := (h.countP_eq _).symm

theorem aboveCount_perm (h : pieces.Perm pieces') :
    cut.aboveCount pieces' = cut.aboveCount pieces := (h.countP_eq _).symm

theorem cost_perm (h : pieces.Perm pieces') : cut.cost pieces' = cut.cost pieces := by
  simp only [cost, belowCount_perm h, aboveCount_perm h]

theorem separates_perm (h : pieces.Perm pieces') :
    cut.Separates pieces' ↔ cut.Separates pieces := by
  simp only [Separates, belowCount_perm h, aboveCount_perm h, h.length_eq]

/-- There is one cut that costs least, and what it costs does not depend on the order. -/
theorem best?_perm (h : pieces.Perm pieces') (hpieces : ∀ q ∈ pieces, ¬ q.bounds.IsEmpty) :
    best? pieces' = best? pieces := by
  have hpieces' : ∀ q ∈ pieces', ¬ q.bounds.IsEmpty := fun q hq => hpieces q (h.mem_iff.mpr hq)
  apply Option.ext
  intro cut
  simp only [best?_eq_some_iff hpieces, best?_eq_some_iff hpieces', separates_perm h, cost_perm h]

end Cut

namespace Tree

variable {tree tree' : Tree t n}

/-- The same planes, and chains of the same pieces in any order. -/
inductive Reordered : Tree t n → Tree t n → Prop
  | split {dim : Fin n} {plane : Coord t} {below above below' above' : Tree t n}
      (hbelow : Reordered below below') (habove : Reordered above above') :
      Reordered (.split dim plane below above) (.split dim plane below' above')
  | chain {pieces pieces' : PieceList t n} (h : pieces.Perm pieces') :
      Reordered (.chain pieces) (.chain pieces')

theorem reordered_build (h : pieces.Perm pieces') (hpieces : ∀ q ∈ pieces, ¬ q.bounds.IsEmpty) :
    Reordered (build options pieces) (build options pieces') := by
  induction pieces using build.induct options generalizing pieces' with
  | case1 pieces hstop =>
    rw [build, if_pos hstop, build, if_pos (h.length_eq ▸ hstop)]
    exact .chain h
  | case2 pieces hgo hnone =>
    have hbest := Cut.best?_perm h hpieces
    rw [build_of_best?_none hnone, build_of_best?_none (hbest.trans hnone)]
    exact .chain h
  | case3 pieces hgo cut hcut ihbelow ihabove =>
    -- both lists have the same best cut, and what it leaves on a side is reordered again
    have hbest := Cut.best?_perm h hpieces
    have hlower : (cut.lower pieces).Perm (cut.lower pieces') := h.filterMap _
    have hupper : (cut.upper pieces).Perm (cut.upper pieces') := h.filterMap _
    rw [build_of_best?_some hgo hcut, build_of_best?_some (h.length_eq ▸ hgo) (hbest.trans hcut)]
    apply Reordered.split
    · exact ihbelow hlower fun _ => Cut.inhabited_of_mem_lower
    · exact ihabove hupper fun _ => Cut.inhabited_of_mem_upper

theorem Reordered.opcodes_eq (h : Reordered tree tree') : tree'.opcodes = tree.opcodes := by
  induction h with
  | split _ _ ihbelow ihabove => simp only [opcodes, ihbelow, ihabove]
  | @chain pieces pieces' h =>
    have hlen := h.length_eq
    cases pieces <;> cases pieces' <;> simp_all [opcodes]

theorem Reordered.eq_of_divides (h : Reordered tree tree') (hdivides : tree.Divides 1 pieces) :
    tree' = tree := by
  induction h generalizing pieces with
  | split _ _ ihbelow ihabove =>
    cases hdivides with
    | split _ _ hbelow habove => rw [ihbelow hbelow, ihabove habove]
  | @chain pieces pieces' h =>
    cases hdivides with
    | chain pos le =>
      obtain ⟨q, rfl⟩ := List.length_eq_one_iff.mp (Nat.le_antisymm le pos)
      rw [List.singleton_perm.mp h]

section Emission

theorem matched_encodeLeaf_any (q q' : Piece t n) (jump : Nat) :
    Matched (fun _ => True) (fun code code' => code'.length = code.length) (encodeLeaf q jump)
      (encodeLeaf q' jump) := by
  by_cases hfits : leafContentSize t n ≤ leafSize t n
  · obtain ⟨code, h⟩ : ∃ code, encodeLeaf q jump = .ok code := ⟨_, if_pos hfits⟩
    obtain ⟨code', h'⟩ : ∃ code, encodeLeaf q' jump = .ok code := ⟨_, if_pos hfits⟩
    rw [h, h']
    apply Matched.ok
    rw [length_of_encodeLeaf h, length_of_encodeLeaf h']
  · have herror : ∀ q : Piece t n, encodeLeaf q jump = .error .indexOutOfBounds := fun _ =>
      if_neg hfits
    rw [herror, herror]
    exact .error trivial

theorem matched_emitChain_of_length (h : pieces'.length = pieces.length) :
    Matched (fun _ => True) (fun code code' => code'.length = code.length) (emitChain pieces)
      (emitChain pieces') := by
  induction pieces generalizing pieces' with
  | nil =>
    rw [List.length_eq_zero_iff.mp h]
    exact .ok rfl
  | cons q rest ih =>
    cases pieces' with
    | nil => contradiction
    | cons q' rest' =>
      have hrest : rest'.length = rest.length := by simpa using h
      cases rest with
      | nil =>
        rw [List.length_eq_zero_iff.mp hrest]
        exact matched_encodeLeaf_any q q' 0
      | cons r rest =>
        cases rest' with
        | nil => contradiction
        | cons r' rest' =>
          apply (matched_encodeLeaf_any q q' _).bind
          intro leaf leaf' hleaf
          apply (ih hrest).bind
          intro leaves leaves' hleaves
          apply Matched.ok
          simp [hleaf, hleaves]

theorem Reordered.matched_emit (h : Reordered tree tree') :
    Matched (fun _ => True) (fun code code' => code'.length = code.length) tree.emit
      tree'.emit := by
  induction h with
  | split _ _ ihbelow ihabove =>
    rw [emit, emit]
    apply ihbelow.bind
    intro first first' hfirst
    dsimp only
    -- the parts below are equally long, so both planes jump as far, or both too far
    rw [hfirst]
    split
    case isTrue => exact .error trivial
    case isFalse =>
      apply ihabove.bind
      intro second second' hsecond
      apply Matched.ok
      simp [hfirst, hsecond]
  | chain h =>
    rw [emit, emit]
    split
    case isTrue => exact .error trivial
    case isFalse =>
      exact (matched_emitChain_of_length h.length_eq.symm).mapError fun _ _ => trivial

end Emission

end Tree

/-- Every chain has one piece: planes are there to divide the others. -/
def CompileOptions.Exact (options : CompileOptions) : Prop :=
  options.chainLimit ≤ 1 ∧ Opcode.splitPlane ∈ options.allowed

theorem Tree.build_perm (hexact : options.Exact) (h : pieces.Perm pieces')
    (hne : 1 ≤ pieces.length) (hpieces : pieces.Scattered) :
    build options pieces' = build options pieces := by
  have hdivides := divides_build hexact.2 hne hpieces
  rw [Nat.max_eq_left hexact.1] at hdivides
  exact (reordered_build h hpieces.inhabited).eq_of_divides hdivides

theorem Tree.emit_build_perm (h : pieces.Perm pieces') (hne : 1 ≤ pieces.length)
    (hpieces : pieces.Scattered) :
    Matched (fun _ => True)
      (fun code code' => code'.length = code.length ∧ (options.Exact → code' = code))
      (build options pieces).emit (build options pieces').emit := by
  apply (reordered_build h hpieces.inhabited).matched_emit.imp_of_ok
  intro code code' hcode hcode' hlength
  refine ⟨hlength, ?_⟩
  intro hexact
  rw [build_perm hexact h hne hpieces, hcode] at hcode'
  exact (Except.ok.inj hcode').symm

namespace ProgramPlan

variable {plan plan' : ProgramPlan}

/-- Equally long code with the same entries, and the same code if `exact`. -/
structure Reordered (exact : Prop) (plan plan' : ProgramPlan) : Prop where
  lists : plan'.lists = plan.lists
  fields : plan'.fields = plan.fields
  length_eq : plan'.code.length = plan.code.length
  code : exact → plan'.code = plan.code

theorem addList_alike (space : IndexSpace t n) (index : UInt64)
    (hplan : plan.Reordered options.Exact plan') (h : pieces.Perm pieces')
    (hdisjoint : PairwiseDisjoint (List.map Piece.bounds pieces)) :
    CompileAlike (fun next next' => next.1.Reordered options.Exact next'.1 ∧ next'.2 = next.2)
      (plan.addList space options index pieces) (plan'.addList space options index pieces') := by
  have hperm := PieceList.inhabited_perm h
  have hscattered := PieceList.scattered_inhabited hdisjoint
  have htree : (Tree.build options (PieceList.inhabited pieces)).Reordered
      (Tree.build options (PieceList.inhabited pieces')) :=
    Tree.reordered_build hperm hscattered.inhabited
  rw [addList_eq, addList_eq, hperm.isEmpty_eq]
  apply (compileAlike_checkCoverage h hdisjoint).bind
  intro _ _ _
  split
  case isTrue =>
    exact .ok ⟨⟨by rw [hplan.lists], hplan.fields, hplan.length_eq, hplan.code⟩, rfl⟩
  case isFalse hne =>
    have hlen : 1 ≤ (PieceList.inhabited pieces).length := by
      rw [hperm.length_eq]
      exact List.length_pos_iff.mpr fun hnil => hne (List.isEmpty_iff.mpr hnil)
    apply (CompileAlike.of_matched (Tree.emit_build_perm hperm hlen hscattered)).bind
    rintro code code' ⟨hlength, hcode⟩
    rw [hplan.length_eq, htree.opcodes_eq]
    refine .ok ⟨⟨by rw [hplan.lists], hplan.fields, ?_, ?_⟩, rfl⟩
    · simp [hplan.length_eq, hlength]
    · intro hexact
      simp [hplan.code hexact, hcode hexact]

theorem addField_alike (h : layout.Reordered layout') (hdisjoint : layout.Disjoint)
    (field : FieldId × FieldSlot) (hplan : plan.Reordered options.Exact plan') :
    CompileAlike (Reordered options.Exact) (addField layout options plan field)
      (addField layout' options plan' field) := by
  rw [addField, addField, h.space, hplan.lists]
  rcases h.list? field.2.list with ⟨hnone, hnone'⟩ | ⟨pieces, hmem, pieces', hlist, hlist', hperm⟩
  · rw [hnone, hnone']
    exact .error _
  · rw [hlist, hlist']
    dsimp only
    cases plan.lists.lookup field.2.list with
    | some entry => exact .ok ⟨hplan.lists, by rw [hplan.fields], hplan.length_eq, hplan.code⟩
    | none =>
      apply (addList_alike layout.space field.2.list hplan hperm (hdisjoint pieces hmem)).bind
      rintro ⟨next, entry⟩ ⟨next', entry'⟩ ⟨hnext, rfl⟩
      exact .ok ⟨hnext.lists, by rw [hnext.fields], hnext.length_eq, hnext.code⟩

theorem plan_alike (h : layout.Reordered layout') (hdisjoint : layout.Disjoint)
    (options : CompileOptions) :
    CompileAlike (Reordered options.Exact) (layout.plan options) (layout'.plan options) := by
  rw [Layout.plan, Layout.plan, h.fields]
  split
  case isTrue => exact .error _
  case isFalse =>
    apply CompileAlike.foldlM
    · intro plan plan' field hplan
      exact addField_alike h hdisjoint field hplan
    · exact ⟨rfl, rfl, rfl, fun _ => rfl⟩

end ProgramPlan

/-- Equally long programs with the same entries, and the same program if `exact`. -/
structure Program.Reordered (exact : Prop) (program program' : Program t n) : Prop where
  fields : program'.fields = program.fields
  length_eq : program'.bytes.length = program.bytes.length
  eq : exact → program' = program

theorem compile_alike (h : layout.Reordered layout') (hdisjoint : layout.Disjoint)
    (memory : ProgramMemory) (options : CompileOptions) :
    CompileAlike (Program.Reordered options.Exact) (layout.compile memory options)
      (layout'.compile memory options) := by
  rw [Layout.compile, Layout.compile]
  apply (ProgramPlan.plan_alike h hdisjoint options).bind
  intro plan plan' hplan
  rw [hplan.length_eq]
  cases hmemory : memory.allocate plan.code.length with
  | error e => exact .error _
  | ok memory' =>
    have hmemory' : memory.allocate plan'.code.length = .ok memory' := by
      rw [hplan.length_eq, hmemory]
    have hbytes := Program.bytes_of_allocate (t := t) (n := n) hmemory plan.fields
    have hbytes' := Program.bytes_of_allocate (t := t) (n := n) hmemory' plan'.fields
    refine .ok ⟨hplan.fields, ?_, ?_⟩
    · rw [hbytes, hbytes', hplan.length_eq]
    · intro hexact
      rw [hplan.code hexact, hplan.fields]

theorem Answers.map_rule {α : Type} {leaf? q? : Option (Piece t n)} (h : Answers p leaf? q?)
    (f : AffineRule n → α) : (leaf?.map fun leaf => f leaf.rule) = q?.map fun q => f q.rule := by
  cases h with
  | miss => rfl
  | hit _ _ rule => simp [rule]

theorem offset?_of_compile {memory : ProgramMemory} {program : Program t n}
    (h : layout.compile memory options = .ok program) (id : FieldId) (p : Point t n) :
    program.offset? id p = .ok (layout.offset? id p) := by
  obtain ⟨leaf?, hlookup, hanswers⟩ := lookup_of_compile h id p
  rcases entry_of_compile h id with ⟨hentry, hslot⟩ |
    ⟨entry, slot, pieces, hentry, hslot, hpieces, hoffset, _, _⟩
  · simp [Program.offset?, Layout.offset?, Layout.field?, hentry, hslot]
  · have hfield : layout.field? id = some (slot, pieces) := field?_of_get? hslot hpieces
    have hmap := hanswers.map_rule fun rule => rule.offset p + slot.offset
    simp only [hfield, Option.bind_some] at hmap
    simp [Program.offset?, Layout.offset?, hentry, hlookup, hfield, hoffset, Except.map, hmap,
      Option.map_eq_bind]

theorem Layout.offset?_perm (h : layout.Reordered layout') (hdisjoint : layout.Disjoint)
    (id : FieldId) (p : Point t n) : layout'.offset? id p = layout.offset? id p := by
  rw [Layout.offset?, Layout.offset?, Layout.field?, Layout.field?, h.fields]
  cases layout.fields.get? id with
  | none => rfl
  | some slot =>
    rcases h.list? slot.list with ⟨hnone, hnone'⟩ | ⟨pieces, hmem, pieces', hlist, hlist', hperm⟩
    · simp [hnone, hnone']
    · simp [hlist, hlist', PieceList.find?_perm hperm (hdisjoint pieces hmem)]

/-- Besides, the same offsets everywhere. -/
structure Program.Alike (exact : Prop) (program program' : Program t n) : Prop extends
    Program.Reordered exact program program' where
  offset : ∀ id p, program'.offset? id p = program.offset? id p

/-- Neither the offsets of a layout nor the program that it compiles to depend on the order in which
pieces without a common point are listed. Only the order within chains shows in the bytes of the
program, so not even they depend on it if each chain has one piece. -/
theorem reordered_compile (layout layout' : Layout t n) (h : layout.Reordered layout')
    (hdisjoint : layout.Disjoint) :
    (∀ id p, layout'.offset? id p = layout.offset? id p) ∧
      ∀ memory options, CompileAlike (Program.Alike options.Exact)
        (layout.compile memory options) (layout'.compile memory options) := by
  refine ⟨Layout.offset?_perm h hdisjoint, ?_⟩
  intro memory options
  apply (compile_alike h hdisjoint memory options).imp_of_ok
  intro program program' hprogram hprogram' hreordered
  refine ⟨hreordered, ?_⟩
  intro id p
  rw [offset?_of_compile hprogram, offset?_of_compile hprogram', Layout.offset?_perm h hdisjoint]

/-- The pinwheel with its center first. -/
def turnedPinwheel : Layout .i32 2 :=
  { pinwheel with lists := pinwheel.lists.map List.reverse }

theorem reordered_compile_pinwheel :
    turnedPinwheel ≠ pinwheel ∧ (∀ id p, turnedPinwheel.offset? id p = pinwheel.offset? id p) ∧
      ∃ program, pinwheel.compile ProgramMemory.fresh CompileOptions.default = .ok program ∧
        turnedPinwheel.compile ProgramMemory.fresh CompileOptions.default = .ok program ∧
        program.lookup 7 (corner 1 1) = .ok (some center) := by
  have hreordered : pinwheel.Reordered turnedPinwheel :=
    ⟨rfl, rfl, .cons (List.reverse_perm _).symm .nil⟩
  have hdisjoint : pinwheel.Disjoint := by
    rw [Layout.Disjoint]
    decide
  obtain ⟨hoffset, hcompile⟩ := reordered_compile pinwheel turnedPinwheel hreordered hdisjoint
  refine ⟨by decide, hoffset, ?_⟩
  have hcenter : (pinwheel.compile ProgramMemory.fresh CompileOptions.default).toOption.bind
      (fun program => (program.lookup 7 (corner 1 1)).toOption) = some (some center) := by
    decide +kernel
  obtain ⟨program, hprogram, hlookup⟩ := Option.bind_eq_some_iff.mp hcenter
  rw [toOption_eq_some] at hprogram hlookup
  obtain ⟨program', hprogram', halike⟩ :=
    (hcompile ProgramMemory.fresh CompileOptions.default).exists_ok hprogram
  rw [halike.eq ⟨by decide, by decide⟩] at hprogram'
  exact ⟨program, hprogram, hprogram', hlookup⟩

end RegionLayout
