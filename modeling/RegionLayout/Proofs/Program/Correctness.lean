import RegionLayout.Program.Compile
import RegionLayout.Proofs.FieldMap
import RegionLayout.Proofs.Program.Emission

/-!
# Compiled programs answer like their layouts

While fields are added to a program, every entry made so far keeps naming the instructions of its
piece list: code is only appended, and evaluation does not look past the instructions it starts
in.
-/

namespace RegionLayout

variable {t : CoordType} {n : Nat}

/-- The entry says where in the code the instructions of a piece list stand, and which they are. A
list without points has none. -/
inductive ListEntry.Describes (options : CompileOptions) (pieces : PieceList t n) :
    Bytes → ListEntry → Prop
  | vacant {code : Bytes} (hnil : PieceList.inhabited pieces = []) :
      Describes options pieces code ⟨none, OpcodeSet.empty⟩
  | emitted {before code after : Bytes} (hne : PieceList.inhabited pieces ≠ [])
      (haligned : instructionUnit ∣ before.length)
      (hemit : (Tree.build options (PieceList.inhabited pieces)).emit = .ok code) :
      Describes options pieces (before ++ (code ++ after))
        ⟨some before.length, (Tree.build options (PieceList.inhabited pieces)).opcodes⟩

namespace ListEntry.Describes

variable {options : CompileOptions} {pieces : PieceList t n} {code : Bytes} {entry : ListEntry}

theorem append (h : Describes options pieces code entry) (more : Bytes) :
    Describes options pieces (code ++ more) entry := by
  cases h with
  | vacant hnil => exact .vacant hnil
  | emitted hne haligned hemit =>
    rw [List.append_assoc, List.append_assoc]
    exact .emitted hne haligned hemit

theorem find?_eq_none (h : Describes options pieces code entry) (hstart : entry.start? = none)
    (p : Point t n) : PieceList.find? pieces p = none := by
  cases h with
  | vacant hnil =>
    rw [← PieceList.find?_inhabited, hnil]
    rfl
  | emitted => contradiction

theorem lookup {start : Nat} (h : Describes options pieces code entry)
    (hstart : entry.start? = some start) (hn : n ≤ 255) :
    ∃ cursor, Cursor.at? code start = some cursor ∧
      ∀ p, ∃ leaf?, cursor.lookup p = .ok leaf? ∧ Answers p leaf? (PieceList.find? pieces p) := by
  cases h with
  | vacant => contradiction
  | @emitted before code after hne haligned hemit =>
    cases hstart
    have hfilled := Tree.filled_build_inhabited options hne
    refine ⟨_, Tree.at?_emit hfilled hemit haligned after, fun p =>
      ⟨_, Tree.evaluate_emit hn hfilled hemit after, ?_⟩⟩
    rw [← PieceList.find?_inhabited]
    exact Tree.find?_build options _ p

end ListEntry.Describes

namespace ProgramPlan

variable {layout : Layout t n} {options : CompileOptions} {plan plan' : ProgramPlan}

/-- What holds of a plan after the fields of `done` were added. -/
structure Sound (layout : Layout t n) (options : CompileOptions)
    (done : List (FieldId × FieldSlot)) (plan : ProgramPlan) : Prop where
  aligned : instructionUnit ∣ plan.code.length
  lists : ∀ index entry, plan.lists.lookup index = some entry →
    ∃ pieces, layout.list? index = some pieces ∧
      checkCoverage layout.space options.allowed index.toNat pieces = .ok () ∧
      entry.Describes options pieces plan.code
  fields : ∀ id entry, plan.fields.get? id = some entry →
    ∃ slot pieces, (id, slot) ∈ done ∧ layout.list? slot.list = some pieces ∧
      checkCoverage layout.space options.allowed slot.list.toNat pieces = .ok () ∧
      ListEntry.Describes options pieces plan.code ⟨entry.start?, entry.opcodes⟩ ∧
      entry.offset = slot.offset
  known : ∀ field ∈ done, (plan.fields.get? field.1).isSome

theorem sound_start (layout : Layout t n) (options : CompileOptions) :
    Sound layout options [] start where
  aligned := Nat.dvd_zero _
  lists := by
    intro index entry h
    simp [start] at h
  fields := by
    intro id entry h
    rw [start, FieldMap.get?_empty] at h
    contradiction
  known := by simp

theorem addList_eq (space : IndexSpace t n) (options : CompileOptions) (index : UInt64)
    (pieces : PieceList t n) :
    plan.addList space options index pieces =
      (checkCoverage space options.allowed index.toNat pieces).mapError .error >>= fun _ =>
        if (PieceList.inhabited pieces).isEmpty then
          .ok ({ plan with lists := (index, ⟨none, OpcodeSet.empty⟩) :: plan.lists },
            ⟨none, OpcodeSet.empty⟩)
        else
          let tree := Tree.build options (PieceList.inhabited pieces)
          tree.emit >>= fun code =>
            .ok ({ plan with
              code := plan.code ++ code
              lists := (index, ⟨some plan.code.length, tree.opcodes⟩) :: plan.lists },
              ⟨some plan.code.length, tree.opcodes⟩) := rfl

theorem addList_cases {space : IndexSpace t n} {index : UInt64} {pieces : PieceList t n}
    {entry : ListEntry} (h : plan.addList space options index pieces = .ok (plan', entry)) :
    checkCoverage space options.allowed index.toNat pieces = .ok () ∧
      plan'.lists = (index, entry) :: plan.lists ∧ plan'.fields = plan.fields ∧
      (PieceList.inhabited pieces = [] ∧ entry = ⟨none, OpcodeSet.empty⟩ ∧
          plan'.code = plan.code ∨
        ∃ code, PieceList.inhabited pieces ≠ [] ∧
          (Tree.build options (PieceList.inhabited pieces)).emit = .ok code ∧
          entry = ⟨some plan.code.length,
            (Tree.build options (PieceList.inhabited pieces)).opcodes⟩ ∧
          plan'.code = plan.code ++ code) := by
  rw [addList_eq, bind_eq_ok] at h
  obtain ⟨_, hcheck, h⟩ := h
  rw [mapError_eq_ok] at hcheck
  refine ⟨hcheck, ?_⟩
  split at h
  case isTrue hnil =>
    cases h
    exact ⟨rfl, rfl, .inl ⟨List.isEmpty_iff.mp hnil, rfl, rfl⟩⟩
  case isFalse hne =>
    obtain ⟨code, hemit, h⟩ := bind_eq_ok.mp h
    cases h
    exact ⟨rfl, rfl, .inr ⟨code, fun hnil => hne (List.isEmpty_iff.mpr hnil), hemit, rfl, rfl⟩⟩

theorem addList_eq_ok {space : IndexSpace t n} {index : UInt64} {pieces : PieceList t n}
    {entry : ListEntry} (haligned : instructionUnit ∣ plan.code.length)
    (h : plan.addList space options index pieces = .ok (plan', entry)) :
    ∃ more, instructionUnit ∣ more.length ∧ plan'.code = plan.code ++ more ∧
      plan'.fields = plan.fields ∧ plan'.lists = (index, entry) :: plan.lists ∧
      checkCoverage space options.allowed index.toNat pieces = .ok () ∧
      entry.Describes options pieces plan'.code := by
  obtain ⟨hcheck, hlists, hfields, ⟨hnil, rfl, hcode⟩ | ⟨code, hne, hemit, rfl, hcode⟩⟩ :=
    addList_cases h
  · refine ⟨[], Nat.dvd_zero _, ?_, hfields, hlists, hcheck, .vacant hnil⟩
    rw [hcode, List.append_nil]
  · have hfilled := Tree.filled_build_inhabited options hne
    refine ⟨code, (Tree.length_emit hfilled hemit).1, hcode, hfields, hlists, hcheck, ?_⟩
    have hdescribes : ListEntry.Describes options pieces (plan.code ++ (code ++ []))
        ⟨some plan.code.length, (Tree.build options (PieceList.inhabited pieces)).opcodes⟩ :=
      .emitted hne haligned hemit
    rwa [List.append_nil, ← hcode] at hdescribes

theorem addField_eq_ok {field : FieldId × FieldSlot}
    (h : addField layout options plan field = .ok plan') :
    ∃ pieces next entry, layout.list? field.2.list = some pieces ∧
      (plan.lists.lookup field.2.list = some entry ∧ next = plan ∨
        plan.addList layout.space options field.2.list pieces = .ok (next, entry)) ∧
      plan' = { next with
        fields := next.fields.insert field.1 ⟨entry.start?, entry.opcodes, field.2.offset⟩ } := by
  rw [addField] at h
  split at h
  case h_1 => contradiction
  case h_2 pieces hpieces =>
    dsimp only at h
    split at h
    case h_1 entry hentry =>
      exact ⟨pieces, plan, entry, hpieces, .inl ⟨hentry, rfl⟩, (pure_eq_ok.mp h).symm⟩
    case h_2 =>
      obtain ⟨⟨next, entry⟩, hadd, h⟩ := bind_eq_ok.mp h
      exact ⟨pieces, next, entry, hpieces, .inr hadd, (pure_eq_ok.mp h).symm⟩

theorem lookup_lists {lists lists' : List (UInt64 × ListEntry)} {index index' : UInt64}
    {entry entry' : ListEntry} (hlists : lists' = lists ∨ lists' = (index, entry) :: lists)
    (h : lists'.lookup index' = some entry') :
    index' = index ∧ entry' = entry ∨ lists.lookup index' = some entry' := by
  rcases hlists with rfl | rfl
  · exact .inr h
  · rw [List.lookup_cons] at h
    by_cases hindex : index' = index
    · rw [hindex, beq_self_eq_true] at h
      exact .inl ⟨hindex, (Option.some.inj h).symm⟩
    · rw [beq_eq_false_iff_ne.mpr hindex] at h
      exact .inr h

/-- Whether the list of a field was there or is added, it is described by its entry from then on,
and the code only grows. -/
private theorem described_of_entry {done : List (FieldId × FieldSlot)} {next : ProgramPlan}
    {index : UInt64} {pieces : PieceList t n} {entry : ListEntry}
    (hplan : Sound layout options done plan) (hpieces : layout.list? index = some pieces)
    (h : plan.lists.lookup index = some entry ∧ next = plan ∨
      plan.addList layout.space options index pieces = .ok (next, entry)) :
    (∃ more, next.code = plan.code ++ more) ∧ next.fields = plan.fields ∧
      instructionUnit ∣ next.code.length ∧
      checkCoverage layout.space options.allowed index.toNat pieces = .ok () ∧
      entry.Describes options pieces next.code ∧
      (next.lists = plan.lists ∨ next.lists = (index, entry) :: plan.lists) := by
  rcases h with ⟨hfound, rfl⟩ | hadd
  · obtain ⟨pieces', hpieces', hcheck, hdescribes⟩ := hplan.lists _ _ hfound
    cases hpieces.symm.trans hpieces'
    exact ⟨⟨[], (List.append_nil _).symm⟩, rfl, hplan.aligned, hcheck, hdescribes, .inl rfl⟩
  · obtain ⟨more, hmore, hcode, hfields, hlists, hcheck, hdescribes⟩ :=
      addList_eq_ok hplan.aligned hadd
    refine ⟨⟨more, hcode⟩, hfields, ?_, hcheck, hdescribes, .inr hlists⟩
    rw [hcode, List.length_append]
    exact Nat.dvd_add hplan.aligned hmore

theorem sound_addField {done : List (FieldId × FieldSlot)} {field : FieldId × FieldSlot}
    (hplan : Sound layout options done plan)
    (h : addField layout options plan field = .ok plan') :
    Sound layout options (done ++ [field]) plan' := by
  obtain ⟨pieces, next, entry, hpieces, hentry, rfl⟩ := addField_eq_ok h
  obtain ⟨⟨more, hcode⟩, hfields, haligned, hcheck, hdescribes, hlists⟩ :=
    described_of_entry hplan hpieces hentry
  have hlater : ∀ {pieces' : PieceList t n} {entry' : ListEntry},
      entry'.Describes options pieces' plan.code → entry'.Describes options pieces' next.code := by
    intro pieces' entry' hold
    rw [hcode]
    exact hold.append more
  refine ⟨haligned, ?_, ?_, ?_⟩
  · intro index entry' hlookup
    rcases lookup_lists hlists hlookup with ⟨rfl, rfl⟩ | hfound
    · exact ⟨pieces, hpieces, hcheck, hdescribes⟩
    · obtain ⟨pieces', hpieces', hcheck', hdescribes'⟩ := hplan.lists _ _ hfound
      exact ⟨pieces', hpieces', hcheck', hlater hdescribes'⟩
  · intro id entry' hget
    rcases FieldMap.of_get?_insert hget with ⟨rfl, rfl⟩ | hfound
    · exact ⟨field.2, pieces, List.mem_append_right _ (List.mem_singleton_self _), hpieces, hcheck,
        hdescribes, rfl⟩
    · obtain ⟨slot, pieces', hmem, hpieces', hcheck', hdescribes', hoffset⟩ :=
        hplan.fields _ _ (hfields ▸ hfound)
      exact ⟨slot, pieces', List.mem_append_left _ hmem, hpieces', hcheck', hlater hdescribes',
        hoffset⟩
  · intro field' hmem
    change ((next.fields.insert _ _).get? field'.1).isSome
    rw [FieldMap.get?_insert, hfields]
    rcases List.mem_append.mp hmem with hmem | hmem
    · split
      · rfl
      · exact hplan.known field' hmem
    · rw [List.mem_singleton.mp hmem, if_pos rfl]
      rfl

theorem sound_plan (h : layout.plan options = .ok plan) :
    n ≤ 255 ∧ Sound layout options layout.fields.entries plan := by
  rw [Layout.plan] at h
  split at h
  case isTrue => contradiction
  case isFalse hn =>
    refine ⟨Nat.not_lt.mp hn, ?_⟩
    exact foldlM_invariant (Sound layout options) (fun _ _ _ _ => sound_addField)
      (sound_start layout options) h

end ProgramPlan

theorem ProgramMemory.write_allocate {memory memory' : ProgramMemory} {data : Bytes}
    (h : memory.allocate data.length = .ok memory') :
    (memory'.write data).commit.committedBytes? = some data := by
  have hbuffer : memory'.buffer? = some (Bytes.zeros data.length) := by
    rw [allocate] at h
    split at h
    · contradiction
    · rw [← Except.ok.inj h]
    · split at h
      · contradiction
      · rw [← Except.ok.inj h]
  have hlen : (Bytes.zeros data.length).length = data.length := List.length_replicate
  simp only [committedBytes?, commit, write, hbuffer, Option.map_some, if_true, hlen,
    List.take_length]
  rw [List.drop_of_length_le (Nat.le_of_eq hlen), List.append_nil]

theorem Program.bytes_of_allocate {memory memory' : ProgramMemory} {data : Bytes}
    (h : memory.allocate data.length = .ok memory') (fields : FieldMap Entry) :
    (⟨(memory'.write data).commit, fields⟩ : Program t n).bytes = data := by
  rw [bytes, ProgramMemory.write_allocate h]
  rfl

section Compiled

variable {layout : Layout t n} {options : CompileOptions} {memory : ProgramMemory}
  {program : Program t n}

theorem plan_of_compile (h : layout.compile memory options = .ok program) :
    ∃ plan, layout.plan options = .ok plan ∧ program.fields = plan.fields ∧
      program.bytes = plan.code := by
  rw [Layout.compile] at h
  obtain ⟨plan, hplan, h⟩ := bind_eq_ok.mp h
  obtain ⟨memory', hmemory, h⟩ := bind_eq_ok.mp h
  rw [mapError_eq_ok] at hmemory
  rw [pure_eq_ok] at h
  subst h
  exact ⟨plan, hplan, rfl, Program.bytes_of_allocate hmemory plan.fields⟩

/-- A compiled program knows the fields of its layout, and where the instructions of their piece
lists are. The piece lists have passed the checks. -/
theorem entry_of_compile (h : layout.compile memory options = .ok program) (id : FieldId) :
    program.fields.get? id = none ∧ layout.fields.get? id = none ∨
      ∃ entry slot pieces, program.fields.get? id = some entry ∧
        layout.fields.get? id = some slot ∧ layout.list? slot.list = some pieces ∧
        entry.offset = slot.offset ∧
        checkCoverage layout.space options.allowed slot.list.toNat pieces = .ok () ∧
        ListEntry.Describes options pieces program.bytes ⟨entry.start?, entry.opcodes⟩ := by
  obtain ⟨plan, hplan, hfields, hbytes⟩ := plan_of_compile h
  obtain ⟨_, hsound⟩ := ProgramPlan.sound_plan hplan
  rw [hfields, hbytes]
  cases hentry : plan.fields.get? id with
  | none =>
    refine .inl ⟨rfl, ?_⟩
    cases hslot : layout.fields.get? id with
    | none => rfl
    | some slot =>
      have hknown := hsound.known _ (layout.fields.get?_eq_some_iff.mp hslot)
      rw [hentry] at hknown
      contradiction
  | some entry =>
    obtain ⟨slot, pieces, hmem, hpieces, hcheck, hdescribes, hoffset⟩ := hsound.fields _ _ hentry
    exact .inr ⟨entry, slot, pieces, rfl, layout.fields.get?_eq_some_iff.mpr hmem, hpieces,
      hoffset, hcheck, hdescribes⟩

theorem field?_of_get? {id : FieldId} {slot : FieldSlot} {pieces : PieceList t n}
    (hslot : layout.fields.get? id = some slot) (hpieces : layout.list? slot.list = some pieces) :
    layout.field? id = some (slot, pieces) := by
  simp [Layout.field?, hslot, hpieces]

theorem get?_of_field? {id : FieldId} {slot : FieldSlot} {pieces : PieceList t n}
    (h : layout.field? id = some (slot, pieces)) :
    layout.fields.get? id = some slot ∧ layout.list? slot.list = some pieces := by
  obtain ⟨slot', hslot, h⟩ := Option.bind_eq_some_iff.mp h
  obtain ⟨pieces', hpieces, hpair⟩ := Option.bind_eq_some_iff.mp h
  cases hpair
  exact ⟨hslot, hpieces⟩

theorem answers_of_start? {id : FieldId} {slot : FieldSlot} {pieces : PieceList t n}
    {entry : Entry} {start : Nat} (h : layout.compile memory options = .ok program)
    (hfield : layout.field? id = some (slot, pieces))
    (hentry : program.fields.get? id = some entry) (hstart : entry.start? = some start) :
    ∃ cursor, Cursor.at? program.bytes start = some cursor ∧
      ∀ p, ∃ leaf?, cursor.lookup p = .ok leaf? ∧ Answers p leaf? (PieceList.find? pieces p) := by
  obtain ⟨_, hplan, _⟩ := plan_of_compile h
  have hn : n ≤ 255 := (ProgramPlan.sound_plan hplan).1
  rcases entry_of_compile h id with ⟨hnone, _⟩ |
    ⟨entry', slot', pieces', hentry', hslot, hpieces, _, _, hdescribes⟩
  · rw [hentry] at hnone
    contradiction
  · rw [field?_of_get? hslot hpieces] at hfield
    cases hfield
    cases hentry.symm.trans hentry'
    exact hdescribes.lookup hstart hn

/-- Looking a point up in the program answers like searching the piece list of the field. -/
theorem lookup_of_compile (h : layout.compile memory options = .ok program) (id : FieldId)
    (p : Point t n) :
    ∃ leaf?, program.lookup id p = .ok leaf? ∧
      Answers p leaf? ((layout.field? id).bind fun field => PieceList.find? field.2 p) := by
  rcases entry_of_compile h id with ⟨hentry, hslot⟩ |
    ⟨entry, slot, pieces, hentry, hslot, hpieces, _, _, hdescribes⟩
  · refine ⟨none, ?_, ?_⟩
    · simp [Program.lookup, Program.entry?, hentry]
    · simp only [Layout.field?, hslot, Option.bind_eq_bind, Option.bind_none]
      exact .miss
  · have hfield := field?_of_get? hslot hpieces
    rw [hfield, Option.bind_some]
    cases hstart : entry.start? with
    | none =>
      refine ⟨none, ?_, ?_⟩
      · simp [Program.lookup, Program.entry?, hentry, hstart]
      · rw [hdescribes.find?_eq_none hstart]
        exact .miss
    | some start =>
      obtain ⟨cursor, hat, hlookup⟩ := answers_of_start? h hfield hentry hstart
      obtain ⟨leaf?, hleaf, hanswers⟩ := hlookup p
      refine ⟨leaf?, ?_, hanswers⟩
      simp [Program.lookup, Program.entry?, hentry, hstart, hat, hleaf]

end Compiled

/-- A compiled program has the offsets of its layout, at every point of the coordinates and for
every field number, and misses where the layout does. A leaf it finds is a part of the piece that
decides the point, with the same rule. -/
theorem compile_agrees (layout : Layout t n) (memory : ProgramMemory) (options : CompileOptions)
    (program : Program t n) (h : layout.compile memory options = .ok program) (id : FieldId)
    (p : Point t n) :
    program.offset? id p = .ok (layout.offset? id p) ∧
      ∀ leaf, program.lookup id p = .ok (some leaf) →
        ∃ slot pieces piece, layout.field? id = some (slot, pieces) ∧
          pieces.find? p = some piece ∧ p ∈ leaf.bounds ∧ leaf.bounds ⊆ piece.bounds ∧
          leaf.rule = piece.rule := by
  obtain ⟨leaf?, hlookup, hanswers⟩ := lookup_of_compile h id p
  rcases entry_of_compile h id with ⟨hentry, hslot⟩ |
    ⟨entry, slot, pieces, hentry, hslot, hpieces, hoffset, _, _⟩
  · refine ⟨?_, fun leaf hleaf => ?_⟩
    · simp [Program.offset?, Layout.offset?, Layout.field?, hentry, hslot]
    · simp [Program.lookup, Program.entry?, hentry] at hleaf
  · have hfield : layout.field? id = some (slot, pieces) := field?_of_get? hslot hpieces
    rw [hfield, Option.bind_some] at hanswers
    change Answers p leaf? (PieceList.find? pieces p) at hanswers
    generalize hpiece : PieceList.find? pieces p = piece? at hanswers
    cases hanswers with
    | miss =>
      refine ⟨?_, fun leaf hleaf => ?_⟩
      · simp [Program.offset?, Layout.offset?, hentry, hlookup, hfield, hpiece, Except.map]
      · rw [hlookup] at hleaf
        cases hleaf
    | @hit leaf piece mem part rule =>
      refine ⟨?_, fun leaf' hleaf => ?_⟩
      · simp [Program.offset?, Layout.offset?, hentry, hlookup, hfield, hpiece, Except.map, rule,
          hoffset]
      · rw [hlookup] at hleaf
        cases hleaf
        exact ⟨slot, pieces, piece, hfield, hpiece, mem, part, rule⟩

def corner (x y : Int) : Point .i32 2 := #v[Coord.wrap .i32 x, Coord.wrap .i32 y]

def center : Piece .i32 2 := ⟨⟨corner 1 1, corner 1 1⟩, ⟨32, #v[0, 0]⟩⟩

/-- Four arms around a center. Every plane cuts through one of the pieces. -/
def pinwheel : Layout .i32 2 where
  space := .dense ⟨corner 0 0, corner 2 2⟩
  lists := [[⟨⟨corner 0 0, corner 1 0⟩, ⟨0, #v[4, 8]⟩⟩, ⟨⟨corner 2 0, corner 2 1⟩, ⟨8, #v[0, 4]⟩⟩,
    ⟨⟨corner 1 2, corner 2 2⟩, ⟨12, #v[4, 0]⟩⟩, ⟨⟨corner 0 1, corner 0 2⟩, ⟨20, #v[4, 4]⟩⟩,
    center]]
  fields := FieldMap.ofList [(7, ⟨0, 1, 3⟩)]
  bytesUsed := 64
  alignment := 4

theorem disjoint_pinwheel (slot : FieldSlot) (pieces : PieceList .i32 2)
    (h : pinwheel.field? 7 = some (slot, pieces)) :
    PairwiseDisjoint (List.map Piece.bounds pieces) := by
  have hfield : pinwheel.field? 7 = some (⟨0, 1, 3⟩, pinwheel.lists.headD []) := by
    decide +kernel
  cases hfield.symm.trans h
  decide +kernel

theorem compile_agrees_pinwheel :
    ∃ program, pinwheel.compile ProgramMemory.fresh CompileOptions.default = .ok program ∧
      program.offset? 7 (corner 2 2) = .ok (some 21) ∧
      program.offset? 7 (corner 3 2) = .ok none := by
  have hsome : (pinwheel.compile ProgramMemory.fresh CompileOptions.default).toOption.isSome := by
    decide +kernel
  cases h : pinwheel.compile ProgramMemory.fresh CompileOptions.default with
  | error e =>
    rw [h] at hsome
    contradiction
  | ok program =>
    refine ⟨program, rfl, ?_, ?_⟩
    · rw [(compile_agrees _ _ _ program h 7 (corner 2 2)).1]
      exact congrArg Except.ok (by decide +kernel)
    · rw [(compile_agrees _ _ _ program h 7 (corner 3 2)).1]
      exact congrArg Except.ok (by decide +kernel)

end RegionLayout
