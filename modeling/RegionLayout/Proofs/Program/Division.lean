import RegionLayout.Proofs.Program.Choice
import RegionLayout.Proofs.Program.Correctness
import RegionLayout.Proofs.Program.Safety

/-!
# How far pieces are divided

Cutting through pieces makes more of them, yet each side of a plane gets fewer than there were, and
at least one. As long as two pieces without a common point are left there is a plane between
them.
-/

namespace RegionLayout

variable {t : CoordType} {n : Nat} {p : Point t n} {pieces : PieceList t n}
  {options : CompileOptions} {code rest : Bytes}

namespace PieceList

/-- Every piece has a point, and no two of them share one. -/
structure Scattered (pieces : PieceList t n) : Prop where
  inhabited : ∀ q ∈ pieces, ¬ q.bounds.IsEmpty
  apart : PairwiseDisjoint (List.map Piece.bounds pieces)

theorem Scattered.filterMap (h : pieces.Scattered) {part? : Piece t n → Option (Piece t n)}
    (hpart : ∀ q part, part? q = some part → ¬ part.bounds.IsEmpty ∧ part.bounds ⊆ q.bounds) :
    Scattered (List.filterMap part? pieces) where
  inhabited := by
    intro part hmem
    obtain ⟨q, _, hq⟩ := List.mem_filterMap.mp hmem
    exact (hpart q part hq).1
  apart := by
    have hpieces := h.apart
    rw [PairwiseDisjoint, List.pairwise_map] at hpieces ⊢
    apply hpieces.filterMap
    intro q q' hapart part hq part' hq'
    rw [Rect.overlaps_iff] at hapart ⊢
    rintro ⟨p, hp, hp'⟩
    have hin := Rect.subset_iff.mp (hpart q part hq).2 p hp
    have hin' := Rect.subset_iff.mp (hpart q' part' hq').2 p hp'
    exact hapart ⟨p, hin, hin'⟩

/-- What one side of a plane gets of the pieces: at least one, and not as many as there were. -/
structure Share (pieces share : PieceList t n) : Prop where
  scattered : share.Scattered
  pos : 1 ≤ share.length
  lt : share.length < pieces.length

end PieceList

namespace Cut

variable {cut : Cut t n}

theorem scattered_lower (h : pieces.Scattered) : (cut.lower pieces).Scattered := by
  apply h.filterMap
  intro q part hq
  simp only [Option.ite_none_left_eq_some, Option.some.injEq] at hq
  obtain ⟨hpart, rfl⟩ := hq
  exact ⟨hpart, Rect.subset_iff.mpr fun r hr => (Rect.mem_split_fst.mp hr).1⟩

theorem scattered_upper (h : pieces.Scattered) : (cut.upper pieces).Scattered := by
  apply h.filterMap
  intro q part hq
  simp only [Option.ite_none_left_eq_some, Option.some.injEq] at hq
  obtain ⟨hpart, rfl⟩ := hq
  exact ⟨hpart, Rect.subset_iff.mpr fun r hr => (Rect.mem_split_snd.mp hr).1⟩

theorem share_lower (h : pieces.Scattered) (hs : cut.Separates pieces) :
    pieces.Share (cut.lower pieces) where
  scattered := scattered_lower h
  pos := List.length_pos_iff.mpr (lower_ne_nil hs h.inhabited)
  lt := Nat.lt_of_le_of_lt (cut.length_lower_le pieces) hs.1

theorem share_upper (h : pieces.Scattered) (hs : cut.Separates pieces) :
    pieces.Share (cut.upper pieces) where
  scattered := scattered_upper h
  pos := List.length_pos_iff.mpr (upper_ne_nil hs h.inhabited)
  lt := Nat.lt_of_le_of_lt (cut.length_upper_le pieces) hs.2

theorem length_le_one_of_best?_eq_none (h : pieces.Scattered) (hnone : best? pieces = none) :
    pieces.length ≤ 1 := by
  apply Nat.le_of_not_lt
  intro hlen
  have hsome := (best?_isSome_iff h.inhabited).mpr
    (exists_separates hlen h.inhabited h.apart)
  simp [hnone] at hsome

end Cut

namespace Tree

variable {tree : Tree t n} {limit : Nat}

/-- The tree hands the pieces on from plane to plane, to each side its share, down to chains of no
more than `limit` of them. -/
inductive Divides (limit : Nat) : Tree t n → PieceList t n → Prop
  | chain {pieces : PieceList t n} (pos : 1 ≤ pieces.length) (le : pieces.length ≤ limit) :
      Divides limit (.chain pieces) pieces
  | split {cut : Cut t n} {pieces : PieceList t n} {below above : Tree t n}
      (lower : pieces.Share (cut.lower pieces)) (upper : pieces.Share (cut.upper pieces))
      (hbelow : Divides limit below (cut.lower pieces))
      (habove : Divides limit above (cut.upper pieces)) :
      Divides limit (.split cut.dim cut.plane below above) pieces

theorem Divides.filled (h : tree.Divides limit pieces) : tree.Filled := by
  induction h with
  | chain pos => exact List.length_pos_iff.mp pos
  | split _ _ _ _ ihbelow ihabove => exact ⟨ihbelow, ihabove⟩

theorem divides_build (hallowed : Opcode.splitPlane ∈ options.allowed)
    (hne : 1 ≤ pieces.length) (h : pieces.Scattered) :
    (build options pieces).Divides (max 1 options.chainLimit) pieces := by
  induction pieces using build.induct options with
  | case1 pieces hstop =>
    have hshort : pieces.length ≤ options.chainLimit := by simp_all
    rw [build, if_pos hstop]
    exact .chain hne (by omega)
  | case2 pieces hgo hnone =>
    -- two pieces would have a plane between them
    have hone := Cut.length_le_one_of_best?_eq_none h hnone
    rw [build_of_best?_none hnone]
    exact .chain hne (by omega)
  | case3 pieces hgo cut hcut ihbelow ihabove =>
    have hs := Cut.separates_of_best? hcut
    have hlower := Cut.share_lower h hs
    have hupper := Cut.share_upper h hs
    rw [build_of_best?_some hgo hcut]
    exact .split hlower hupper (ihbelow hlower.pos hlower.scattered)
      (ihabove hupper.pos hupper.scattered)

theorem build_of_not_allowed (h : Opcode.splitPlane ∉ options.allowed)
    (pieces : PieceList t n) : build options pieces = .chain pieces := by
  rw [build, if_pos (.inr h)]

end Tree

namespace Cursor

variable {c : Cursor} {o : Opcode} {planes leaves : Nat}

/-- The kinds of the instructions that evaluation of the point executes, in turn. -/
def executed (p : Point t n) (c : Cursor) : List (Option Opcode) := (c.trail p).map opcode?

theorem executed_of_stop (hop : c.opcode? = some o)
    (h : ∀ rest, step c.code p ≠ .ok (.goto rest)) : c.executed p = [some o] := by
  have hnone : c.successor? p = none := by
    rw [Option.eq_none_iff_forall_ne_some]
    intro c' hsome
    obtain ⟨units, hunits, hmove, hahead⟩ := successor?_eq_some hsome
    obtain ⟨rest, hjump, _⟩ := Option.map_eq_some_iff.mp hahead
    apply h rest
    simp [step_eq_follow, hmove, Except.map, Move.follow, hjump]
  simp [executed, trail_of_none hnone, hop]

theorem executed_of_goto (hop : c.opcode? = some o) (h : step c.code p = .ok (.goto rest)) :
    ∃ c' : Cursor, c'.code = rest ∧ c.executed p = some o :: c'.executed p := by
  rw [step_eq_follow, map_eq_ok] at h
  obtain ⟨next, hmove, hfollow⟩ := h
  cases next with
  | done leaf => simp [Move.follow] at hfollow
  | stuck => simp [Move.follow] at hfollow
  | ahead units hunits =>
    cases hjump : jump? c.code units with
    | none => simp [Move.follow, hjump] at hfollow
    | some rest' =>
      have hrest : rest' = rest := by simpa [Move.follow, hjump] using hfollow
      have hsome : c.successor? p = some ⟨c.pos + units * instructionUnit, rest'⟩ := by
        simp [successor?, hmove, ahead?, hjump]
      refine ⟨⟨c.pos + units * instructionUnit, rest'⟩, hrest, ?_⟩
      simp [executed, trail_of_some hsome, hop]

/-- Evaluation meets no more than so many planes, and after them no more than so many leaves. -/
def MeetsAtMost (planes leaves : Nat) (c : Cursor) (p : Point t n) : Prop :=
  ∃ k ≤ planes, ∃ l ≤ leaves, c.executed p =
    List.replicate k (some .splitPlane) ++ List.replicate l (some .affinePiece)

namespace MeetsAtMost

variable {c' : Cursor} {planes' leaves' : Nat}

theorem mono (h : c.MeetsAtMost planes leaves p) (hplanes : planes ≤ planes')
    (hleaves : leaves ≤ leaves') : c.MeetsAtMost planes' leaves' p := by
  obtain ⟨k, hk, l, hl, hexecuted⟩ := h
  exact ⟨k, Nat.le_trans hk hplanes, l, Nat.le_trans hl hleaves, hexecuted⟩

theorem of_leaf (h : c.executed p = [some .affinePiece]) : c.MeetsAtMost 0 1 p :=
  ⟨0, Nat.le_refl _, 1, Nat.le_refl _, by simp [h]⟩

theorem leaf (h : c'.MeetsAtMost 0 leaves p)
    (hexecuted : c.executed p = some .affinePiece :: c'.executed p) :
    c.MeetsAtMost 0 (leaves + 1) p := by
  obtain ⟨k, hk, l, hl, hrest⟩ := h
  have hk : k = 0 := by omega
  refine ⟨0, Nat.le_refl _, l + 1, by omega, ?_⟩
  simp [hexecuted, hrest, hk, List.replicate_succ]

theorem plane (h : c'.MeetsAtMost planes leaves p)
    (hexecuted : c.executed p = some .splitPlane :: c'.executed p) :
    c.MeetsAtMost (planes + 1) leaves p := by
  obtain ⟨k, hk, l, hl, hrest⟩ := h
  refine ⟨k + 1, by omega, l, hl, ?_⟩
  simp [hexecuted, hrest, List.replicate_succ]

end MeetsAtMost

theorem meetsAtMost_emitChain (h : Tree.emitChain pieces = .ok code) (hne : 1 ≤ pieces.length)
    (hmax : leafSize t n / instructionUnit ≤ leafMaxDelta) (hc : c.code = code ++ rest) :
    c.MeetsAtMost 0 pieces.length p := by
  induction pieces generalizing code c with
  | nil => contradiction
  | cons q pieces ih =>
    cases pieces with
    | nil =>
      rw [Tree.emitChain] at h
      have hop : c.opcode? = some .affinePiece := by
        rw [opcode?, hc, opcodeAt?_encodeLeaf h (Nat.zero_le _)]
      have hstop : ∀ next, step c.code p ≠ .ok (.goto next) := by
        intro next
        rw [hc, step_leaf h (Nat.zero_le _)]
        split <;> simp [jump?]
      exact .of_leaf (executed_of_stop hop hstop)
    | cons q' pieces =>
      obtain ⟨leaf, leaves, hleaf, hleaves, rfl⟩ := Tree.emitChain_cons_cons_eq_ok.mp h
      rw [List.append_assoc] at hc
      have hop : c.opcode? = some .affinePiece := by
        rw [opcode?, hc, opcodeAt?_encodeLeaf hleaf hmax]
      have hstep := step_leaf (p := p) hleaf hmax (leaves ++ rest)
      rw [← hc] at hstep
      by_cases hp : p ∈ q.bounds
      · have hstop : ∀ next, step c.code p ≠ .ok (.goto next) := by simp [hstep, hp]
        exact (MeetsAtMost.of_leaf (executed_of_stop hop hstop)).mono (Nat.le_refl _) (by simp)
      · rw [if_neg hp, hc, Tree.jump?_emitChain hleaf hleaves, ← hc] at hstep
        obtain ⟨c', hc', hexecuted⟩ := executed_of_goto hop hstep
        exact (ih hleaves (by simp) hc').leaf hexecuted

/-- Each plane on the way leaves fewer pieces, and a chain has no more than the limit. -/
theorem meetsAtMost_emit {tree : Tree t n} {limit : Nat} (hn : n ≤ 255)
    (hdivides : tree.Divides limit pieces) (h : tree.emit = .ok code)
    (hc : c.code = code ++ rest) : c.MeetsAtMost (pieces.length - 1) limit p := by
  induction hdivides generalizing code rest c with
  | chain pos le =>
    obtain ⟨hmax, hchain⟩ := Tree.emit_chain_eq_ok.mp h
    exact (meetsAtMost_emitChain hchain pos hmax hc).mono (Nat.zero_le _) le
  | @split cut pieces below above lower upper hbelow habove ihbelow ihabove =>
    obtain ⟨first, second, s, hfirst, hsecond, hdim, _, rfl, hskip, hjump⟩ :=
      Tree.ways_of_emit_split hn ⟨hbelow.filled, habove.filled⟩ h rest
    have hfewer := lower.lt
    have hfewer' := upper.lt
    have hpos := lower.pos
    have hpos' := upper.pos
    have hop : c.opcode? = some .splitPlane := by
      rw [opcode?, hc, List.append_assoc, s.opcodeAt?_encode]
    have hstep := step_splitPlane (p := p) s hdim (first ++ second ++ rest)
    rw [← List.append_assoc, hskip, hjump, ← hc] at hstep
    split at hstep
    case isTrue =>
      obtain ⟨c', hc', hexecuted⟩ := executed_of_goto hop hstep
      exact ((ihbelow hfirst hc').plane hexecuted).mono (by omega) (Nat.le_refl _)
    case isFalse =>
      obtain ⟨c', hc', hexecuted⟩ := executed_of_goto hop hstep
      exact ((ihabove hsecond hc').plane hexecuted).mono (by omega) (Nat.le_refl _)

/-- What evaluation of so many pieces meets, with planes or without. -/
def WithinLimits (options : CompileOptions) (count : Nat) (c : Cursor) (p : Point t n) : Prop :=
  if Opcode.splitPlane ∈ options.allowed then c.MeetsAtMost (count - 1) (max 1 options.chainLimit) p
  else c.MeetsAtMost 0 count p

theorem withinLimits_emit (hn : n ≤ 255) (hne : 1 ≤ pieces.length) (hpieces : pieces.Scattered)
    (h : (Tree.build options pieces).emit = .ok code) (hc : c.code = code ++ rest) :
    c.WithinLimits options pieces.length p := by
  rw [WithinLimits]
  split
  case isTrue hallowed =>
    exact meetsAtMost_emit hn (Tree.divides_build hallowed hne hpieces) h hc
  case isFalse hno =>
    rw [Tree.build_of_not_allowed hno] at h
    obtain ⟨hmax, hchain⟩ := Tree.emit_chain_eq_ok.mp h
    exact meetsAtMost_emitChain hchain hne hmax hc

end Cursor

theorem ListEntry.Describes.at?_start {entry : ListEntry}
    (h : entry.Describes options pieces code) (hne : PieceList.inhabited pieces ≠ []) :
    ∃ start block after, entry.start? = some start ∧
      Cursor.at? code start = some ⟨start, block ++ after⟩ ∧
      (Tree.build options (PieceList.inhabited pieces)).emit = .ok block := by
  cases h with
  | vacant hnil => contradiction
  | @emitted before block after _ haligned hemit =>
    have hat := Tree.at?_emit (Tree.filled_build_inhabited options hne) hemit haligned after
    exact ⟨before.length, block, after, rfl, hat, hemit⟩

theorem withinLimits_of_compile {layout : Layout t n} {memory : ProgramMemory}
    {program : Program t n} {id : FieldId} {slot : FieldSlot} {list : PieceList t n}
    (h : layout.compile memory options = .ok program)
    (hfield : layout.field? id = some (slot, list)) (hne : PieceList.inhabited list ≠ [])
    (hpieces : (PieceList.inhabited list).Scattered) :
    ∃ cursor, program.entry? id = some cursor ∧
      ∀ p : Point t n, cursor.WithinLimits options (PieceList.inhabited list).length p := by
  obtain ⟨_, hplan, _⟩ := plan_of_compile h
  have hn : n ≤ 255 := (ProgramPlan.sound_plan hplan).1
  obtain ⟨hslot, hlist⟩ := get?_of_field? hfield
  rcases entry_of_compile h id with ⟨_, hnone⟩ |
    ⟨entry, slot', list', hentry, hslot', hlist', _, _, hdescribes⟩
  · simp [hslot] at hnone
  · cases hslot.symm.trans hslot'
    cases hlist.symm.trans hlist'
    obtain ⟨start, block, after, hstart, hat, hemit⟩ := hdescribes.at?_start hne
    change entry.start? = some start at hstart
    refine ⟨⟨start, block ++ after⟩, by simp [Program.entry?, hentry, hstart, hat], ?_⟩
    intro p
    exact Cursor.withinLimits_emit hn (List.length_pos_iff.mpr hne) hpieces hemit rfl

/-- Inhabited pieces without a common point are divided, each side of a plane getting its share,
until chains hold no more than the limit; without planes they stay one chain. Evaluation of what is
emitted for them, by itself or in a compiled program, keeps to the limits at every point. -/
theorem build_divides (options : CompileOptions) (pieces : PieceList t n)
    (hne : 1 ≤ pieces.length) (hpieces : pieces.Scattered) :
    (if Opcode.splitPlane ∈ options.allowed then
        (Tree.build options pieces).Divides (max 1 options.chainLimit) pieces
      else Tree.build options pieces = .chain pieces) ∧
    (∀ code, (Tree.build options pieces).emit = .ok code → n ≤ 255 →
      ∀ before after : Bytes, instructionUnit ∣ before.length →
        ∃ cursor, Cursor.at? (before ++ (code ++ after)) before.length = some cursor ∧
          ∀ p : Point t n, cursor.WithinLimits options pieces.length p) ∧
    (∀ (layout : Layout t n) memory program id slot list,
      layout.compile memory options = .ok program → layout.field? id = some (slot, list) →
      PieceList.inhabited list = pieces → ∃ cursor, program.entry? id = some cursor ∧
        ∀ p : Point t n, cursor.WithinLimits options pieces.length p) := by
  refine ⟨?_, ?_, ?_⟩
  · split
    case isTrue hallowed => exact Tree.divides_build hallowed hne hpieces
    case isFalse hno => exact Tree.build_of_not_allowed hno pieces
  · intro code hemit hn before after haligned
    have hfilled := Tree.filled_build options pieces (List.length_pos_iff.mp hne) hpieces.inhabited
    refine ⟨_, Tree.at?_emit hfilled hemit haligned after, ?_⟩
    intro p
    exact Cursor.withinLimits_emit hn hne hpieces hemit rfl
  · rintro layout memory program id slot list hcompile hfield rfl
    exact withinLimits_of_compile hcompile hfield (List.length_pos_iff.mp hne) hpieces

/-- The arms of the pinwheel and its center. -/
def arms : PieceList .i32 2 := pinwheel.lists.flatten

theorem pinwheel_compiles : ∃ program,
    pinwheel.compile ProgramMemory.fresh CompileOptions.default = .ok program := by
  have hsome : (pinwheel.compile ProgramMemory.fresh CompileOptions.default).toOption.isSome := by
    decide +kernel
  obtain ⟨program, hprogram⟩ := Option.isSome_iff_exists.mp hsome
  exact ⟨program, toOption_eq_some.mp hprogram⟩

theorem build_divides_arms :
    (Tree.build CompileOptions.default arms).Divides 1 arms ∧
      ∃ program cursor, pinwheel.compile ProgramMemory.fresh CompileOptions.default = .ok program ∧
        program.entry? 7 = some cursor ∧
        ∀ p : Point .i32 2, cursor.WithinLimits CompileOptions.default 5 p := by
  have hpieces : arms.Scattered := ⟨by decide, by decide⟩
  obtain ⟨hdivides, _, hcompiled⟩ :=
    build_divides CompileOptions.default arms (by decide) hpieces
  rw [if_pos (by decide)] at hdivides
  refine ⟨hdivides, ?_⟩
  obtain ⟨program, hprogram⟩ := pinwheel_compiles
  obtain ⟨cursor, hcursor, hrun⟩ :=
    hcompiled pinwheel _ program 7 ⟨0, 1, 3⟩ arms hprogram rfl (by decide)
  exact ⟨program, cursor, hprogram, hcursor, hrun⟩

end RegionLayout
