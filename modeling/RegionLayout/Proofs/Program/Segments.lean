import RegionLayout.Proofs.Program.Correctness
import RegionLayout.Proofs.Program.Walk

/-! # Segments of a program -/

namespace RegionLayout

variable {t : CoordType} {n : Nat} {p : Point t n}

/-- Where the instructions of the fields start. -/
def starts (fields : FieldMap Entry) : List Nat := fields.entries.filterMap fun e => e.2.start?

theorem mem_starts {fields : FieldMap Entry} {start : Nat} :
    start ∈ starts fields ↔
      ∃ id entry, fields.get? id = some entry ∧ entry.start? = some start := by
  simp only [starts, List.mem_filterMap, Prod.exists, FieldMap.get?_eq_some_iff]

theorem mem_starts_insert {fields : FieldMap Entry} {id : FieldId} {entry : Entry} {start : Nat}
    (hnew : fields.get? id = none) :
    start ∈ starts (fields.insert id entry) ↔
      entry.start? = some start ∨ start ∈ starts fields := by
  rw [mem_starts, mem_starts]
  constructor
  · rintro ⟨id', entry', hget, hstart⟩
    rcases FieldMap.of_get?_insert hget with ⟨_, rfl⟩ | hold
    · exact .inl hstart
    · exact .inr ⟨id', entry', hold, hstart⟩
  · rintro (hstart | ⟨id', entry', hget, hstart⟩)
    · exact ⟨id, entry, fields.get?_insert_self id entry, hstart⟩
    · exact ⟨id', entry', FieldMap.get?_insert_of_new hnew hget, hstart⟩

namespace Program

/-- Where the segment that begins at `start` ends: at the next start, or with the program. -/
def segmentEnd (program : Program t n) (start : Nat) : Nat :=
  ((starts program.fields).filter fun other => start < other).min?.getD program.bytes.length

/-- The bytes from `start` up to the next start, or to the end of the program. -/
def segment (program : Program t n) (start : Nat) : Bytes :=
  Bytes.part program.bytes start (program.segmentEnd start - start)

end Program

/-- The block stands in the code from `start` on. Right after it one of the `starts` comes, or the
code ends, and none comes before. -/
structure Block (starts : List Nat) (code : Bytes) (start : Nat) (block : Bytes) : Prop where
  found : ∃ before after, code = before ++ (block ++ after) ∧ before.length = start
  last : start + block.length = code.length ∨ start + block.length ∈ starts
  clear : ∀ other ∈ starts, other ≤ start ∨ start + block.length ≤ other

namespace Block

variable {old new : List Nat} {code block : Bytes} {start : Nat}

theorem congr (h : Block old code start block) (hstarts : ∀ s, s ∈ new ↔ s ∈ old) :
    Block new code start block where
  found := h.found
  last := h.last.imp_right (hstarts _).mpr
  clear := fun other hother => h.clear other ((hstarts other).mp hother)

theorem length_le (h : Block old code start block) : start + block.length ≤ code.length := by
  obtain ⟨before, after, rfl, rfl⟩ := h.found
  rw [List.length_append, List.length_append]
  omega

theorem extend (h : Block old code start block) (more : Bytes)
    (hstarts : ∀ s, s ∈ new ↔ code.length = s ∨ s ∈ old) :
    Block new (code ++ more) start block where
  found := by
    obtain ⟨before, after, rfl, hstart⟩ := h.found
    refine ⟨before, after ++ more, ?_, hstart⟩
    rw [List.append_assoc, List.append_assoc]
  last := by
    rcases h.last with hend | hnext
    · exact .inr ((hstarts _).mpr (.inl hend.symm))
    · exact .inr ((hstarts _).mpr (.inr hnext))
  clear := by
    intro other hother
    rcases (hstarts other).mp hother with rfl | hold
    · exact .inr h.length_le
    · exact h.clear other hold

theorem of_end (hstarts : ∀ s ∈ old, s ≤ code.length) :
    Block old (code ++ block) code.length block where
  found := ⟨code, [], by rw [List.append_nil], rfl⟩
  last := .inl (List.length_append).symm
  clear := fun other hother => .inl (hstarts other hother)

end Block

namespace ProgramPlan

variable {layout : Layout t n} {options : CompileOptions} {plan plan' : ProgramPlan}

/-- The tree of the numbered list is a block of the code, and it is where some field starts. -/
structure HasBlock (layout : Layout t n) (options : CompileOptions) (plan : ProgramPlan)
    (index : UInt64) (start : Nat) : Prop where
  listed : start ∈ starts plan.fields
  block : ∃ pieces block, layout.list? index = some pieces ∧ PieceList.inhabited pieces ≠ [] ∧
    (Tree.build options (PieceList.inhabited pieces)).emit = .ok block ∧
    Block (starts plan.fields) plan.code start block

namespace HasBlock

variable {index : UInt64} {start : Nat}

theorem congr (h : HasBlock layout options plan index start) (hcode : plan'.code = plan.code)
    (hstarts : ∀ s, s ∈ starts plan'.fields ↔ s ∈ starts plan.fields) :
    HasBlock layout options plan' index start where
  listed := (hstarts start).mpr h.listed
  block := by
    obtain ⟨pieces, block, hpieces, hne, hemit, hblock⟩ := h.block
    exact ⟨pieces, block, hpieces, hne, hemit, hcode ▸ hblock.congr hstarts⟩

theorem extend (h : HasBlock layout options plan index start) {more : Bytes}
    (hcode : plan'.code = plan.code ++ more)
    (hstarts : ∀ s, s ∈ starts plan'.fields ↔ plan.code.length = s ∨ s ∈ starts plan.fields) :
    HasBlock layout options plan' index start where
  listed := (hstarts start).mpr (.inr h.listed)
  block := by
    obtain ⟨pieces, block, hpieces, hne, hemit, hblock⟩ := h.block
    exact ⟨pieces, block, hpieces, hne, hemit, hcode ▸ hblock.extend more hstarts⟩

end HasBlock

/-- What holds of a plan after the fields of `done` were added: every list with points has a block,
and each field starts where its list does. -/
structure Tiled (layout : Layout t n) (options : CompileOptions)
    (done : List (FieldId × FieldSlot)) (plan : ProgramPlan) : Prop where
  inside : ∀ start ∈ starts plan.fields, start < plan.code.length
  lists : ∀ index entry, plan.lists.lookup index = some entry → ∀ start,
    entry.start? = some start → HasBlock layout options plan index start
  fields : ∀ id entry, plan.fields.get? id = some entry → ∃ slot, (id, slot) ∈ done ∧
    ∀ start, entry.start? = some start → HasBlock layout options plan slot.list start

theorem tiled_start (layout : Layout t n) (options : CompileOptions) :
    Tiled layout options [] start where
  inside := by
    intro s hs
    obtain ⟨id, entry, hget, _⟩ := mem_starts.mp hs
    rw [start, FieldMap.get?_empty] at hget
    contradiction
  lists := by
    intro index entry h
    simp [start] at h
  fields := by
    intro id entry h
    rw [start, FieldMap.get?_empty] at h
    contradiction

/-- The blocks of `plan` are blocks of `plan'`, and there the numbered list has one as well if it
has points. -/
structure Keeps (layout : Layout t n) (options : CompileOptions) (plan plan' : ProgramPlan)
    (index : UInt64) (entry : ListEntry) : Prop where
  inside : ∀ start ∈ starts plan'.fields, start < plan'.code.length
  old : ∀ index' start, HasBlock layout options plan index' start →
    HasBlock layout options plan' index' start
  new : ∀ start, entry.start? = some start → HasBlock layout options plan' index start

section Keeps

variable {done : List (FieldId × FieldSlot)} {index : UInt64} {entry : ListEntry}

theorem Keeps.of_same (hplan : Tiled layout options done plan) (hcode : plan'.code = plan.code)
    (hstarts : ∀ s, s ∈ starts plan'.fields ↔ s ∈ starts plan.fields)
    (hblock : ∀ start, entry.start? = some start → HasBlock layout options plan index start) :
    Keeps layout options plan plan' index entry where
  inside := fun s hs => hcode ▸ hplan.inside s ((hstarts s).mp hs)
  old := fun _ _ hold => hold.congr hcode hstarts
  new := fun s hs => (hblock s hs).congr hcode hstarts

theorem Keeps.of_block {pieces : PieceList t n} {block : Bytes}
    (hplan : Tiled layout options done plan) (hpieces : layout.list? index = some pieces)
    (hne : PieceList.inhabited pieces ≠ [])
    (hemit : (Tree.build options (PieceList.inhabited pieces)).emit = .ok block)
    (hentry : entry.start? = some plan.code.length) (hcode : plan'.code = plan.code ++ block)
    (hstarts : ∀ s, s ∈ starts plan'.fields ↔ plan.code.length = s ∨ s ∈ starts plan.fields) :
    Keeps layout options plan plan' index entry where
  inside := by
    have hlen := (Tree.length_emit (Tree.filled_build_inhabited options hne) hemit).2
    simp only [instructionUnit] at hlen
    intro s hs
    rw [hcode, List.length_append]
    rcases (hstarts s).mp hs with rfl | hold
    · omega
    · have := hplan.inside s hold
      omega
  old := fun _ _ hold => hold.extend hcode hstarts
  new := by
    intro s hs
    cases hentry.symm.trans hs
    refine ⟨(hstarts _).mpr (.inl rfl), pieces, block, hpieces, hne, hemit, ?_⟩
    rw [hcode]
    refine Block.of_end fun s hs => ?_
    rcases (hstarts s).mp hs with rfl | hold
    · exact Nat.le_refl _
    · exact Nat.le_of_lt (hplan.inside s hold)

/-- When a field is added, the block of its list was there already, or it is the new end of the
code, or the list has no points. -/
private theorem keeps_of_entry {field : FieldId × FieldSlot} {next : ProgramPlan}
    {pieces : PieceList t n} (hplan : Tiled layout options done plan)
    (hnew : plan.fields.get? field.1 = none) (hpieces : layout.list? field.2.list = some pieces)
    (h : plan.lists.lookup field.2.list = some entry ∧ next = plan ∨
      plan.addList layout.space options field.2.list pieces = .ok (next, entry)) :
    next.fields = plan.fields ∧
      (next.lists = plan.lists ∨ next.lists = (field.2.list, entry) :: plan.lists) ∧
      Keeps layout options plan { next with
        fields := next.fields.insert field.1 ⟨entry.start?, entry.opcodes, field.2.offset⟩ }
        field.2.list entry := by
  rcases h with ⟨hfound, rfl⟩ | hadd
  · have hblock := hplan.lists _ _ hfound
    refine ⟨rfl, .inl rfl, .of_same hplan rfl (fun s => ?_) hblock⟩
    rw [mem_starts_insert hnew]
    exact or_iff_right_of_imp fun hs => (hblock s hs).listed
  · obtain ⟨_, hlists, hfields, ⟨_, rfl, hcode⟩ | ⟨block, hne, hemit, rfl, hcode⟩⟩ :=
      addList_cases hadd
    · refine ⟨hfields, .inr hlists, .of_same hplan hcode (fun s => ?_) fun s hs => ?_⟩
      · rw [hfields, mem_starts_insert hnew]
        exact or_iff_right (by simp)
      · contradiction
    · refine ⟨hfields, .inr hlists, .of_block hplan hpieces hne hemit rfl hcode fun s => ?_⟩
      rw [hfields, mem_starts_insert hnew, Option.some.injEq]

end Keeps

theorem tiled_addField {done : List (FieldId × FieldSlot)} {field : FieldId × FieldSlot}
    (hids : ∀ field' ∈ done, field'.1 < field.1) (hplan : Tiled layout options done plan)
    (h : addField layout options plan field = .ok plan') :
    Tiled layout options (done ++ [field]) plan' := by
  have hnew : plan.fields.get? field.1 = none := by
    cases hget : plan.fields.get? field.1 with
    | none => rfl
    | some entry =>
      obtain ⟨slot, hmem, _⟩ := hplan.fields _ _ hget
      exact absurd (hids _ hmem) (UInt32.lt_irrefl _)
  obtain ⟨pieces, next, entry, hpieces, hentry, rfl⟩ := addField_eq_ok h
  obtain ⟨hfields, hlists, hkeeps⟩ := keeps_of_entry hplan hnew hpieces hentry
  refine ⟨hkeeps.inside, ?_, ?_⟩
  · intro index entry' hlookup start hstart
    rcases lookup_lists hlists hlookup with ⟨rfl, rfl⟩ | hfound
    · exact hkeeps.new start hstart
    · exact hkeeps.old _ _ (hplan.lists _ _ hfound start hstart)
  · intro id entry' hget
    rcases FieldMap.of_get?_insert hget with ⟨rfl, rfl⟩ | hfound
    · exact ⟨field.2, List.mem_append_right _ (List.mem_singleton_self _), hkeeps.new⟩
    · obtain ⟨slot, hmem, hblock⟩ := hplan.fields _ _ (hfields ▸ hfound)
      exact ⟨slot, List.mem_append_left _ hmem, fun start hstart =>
        hkeeps.old _ _ (hblock start hstart)⟩

theorem tiled_plan (h : layout.plan options = .ok plan) :
    Tiled layout options layout.fields.entries plan := by
  rw [Layout.plan] at h
  split at h
  case isTrue => contradiction
  case isFalse =>
    -- the fields come in ascending order, so no entry is replaced by a later one
    refine foldlM_invariant (fun done plan => Ascending done → Tiled layout options done plan)
      ?_ (fun _ => tiled_start layout options) h layout.fields.ascending
    intro done field plan plan' hplan hadd hascending
    obtain ⟨hdone, _, hids⟩ := List.pairwise_append.mp hascending
    exact tiled_addField (fun field' hmem => hids field' hmem field (List.mem_singleton_self _))
      (hplan hdone) hadd

end ProgramPlan

section Compiled

variable {layout : Layout t n} {options : CompileOptions} {memory : ProgramMemory}
  {program : Program t n} {block : Bytes} {start : Nat}

theorem Program.segmentEnd_eq (hblock : Block (starts program.fields) program.bytes start block)
    (hinside : ∀ s ∈ starts program.fields, s < program.bytes.length) (hpos : 0 < block.length) :
    program.segmentEnd start = start + block.length := by
  have hlater : ∀ other ∈ (starts program.fields).filter fun other => start < other,
      start + block.length ≤ other := by
    intro other hother
    obtain ⟨hmem, hlt⟩ := List.mem_filter.mp hother
    exact (hblock.clear other hmem).resolve_left (Nat.not_le.mpr (of_decide_eq_true hlt))
  rw [segmentEnd]
  rcases hblock.last with hend | hnext
  · have hnone : (starts program.fields).filter (fun other => start < other) = [] := by
      refine List.eq_nil_iff_forall_not_mem.mpr fun other hother => ?_
      have hlt := hinside other (List.mem_filter.mp hother).1
      have hle := hlater other hother
      omega
    rw [hnone, hend]
    rfl
  · have hmin : ((starts program.fields).filter fun other => start < other).min? =
        some (start + block.length) :=
      List.min?_eq_some_iff.mpr
        ⟨List.mem_filter.mpr ⟨hnext, decide_eq_true (Nat.lt_add_of_pos_right hpos)⟩, hlater⟩
    rw [hmin]
    rfl

theorem Program.segment_eq (hblock : Block (starts program.fields) program.bytes start block)
    (hinside : ∀ s ∈ starts program.fields, s < program.bytes.length) (hpos : 0 < block.length) :
    program.segment start = block := by
  obtain ⟨before, after, hbytes, hstart⟩ := hblock.found
  rw [segment, segmentEnd_eq hblock hinside hpos, Nat.add_sub_cancel_left, hbytes, ← hstart,
    Bytes.part_append]

theorem segment_of_compile (h : layout.compile memory options = .ok program) {id : FieldId}
    {entry : Entry} (hentry : program.fields.get? id = some entry)
    (hstart : entry.start? = some start) :
    ∃ slot pieces, layout.field? id = some (slot, pieces) ∧
      PieceList.inhabited pieces ≠ [] ∧
      (Tree.build options (PieceList.inhabited pieces)).emit = .ok (program.segment start) ∧
      ∃ before after, program.bytes = before ++ (program.segment start ++ after) ∧
        before.length = start := by
  obtain ⟨plan, hplan, hfields, hbytes⟩ := plan_of_compile h
  have htiled := ProgramPlan.tiled_plan hplan
  obtain ⟨slot, hmem, hblock⟩ := htiled.fields id entry (hfields ▸ hentry)
  obtain ⟨pieces, block, hpieces, hne, hemit, hblock⟩ := (hblock start hstart).block
  have hpos : 0 < block.length := Nat.lt_of_lt_of_le (by decide)
    (Tree.length_emit (Tree.filled_build_inhabited options hne) hemit).2
  have hsegment : program.segment start = block := by
    refine Program.segment_eq ?_ ?_ hpos
    · rw [hfields, hbytes]
      exact hblock
    · rw [hfields, hbytes]
      exact htiled.inside
  rw [hsegment, hbytes]
  exact ⟨slot, pieces, field?_of_get? (layout.fields.get?_eq_some_iff.mpr hmem) hpieces, hne,
    hemit, hblock.found⟩

end Compiled

/-- The segment of a field is what the tree of its piece list emits. Put at any multiple of 16 and
between any bytes, it answers for every point like the program, whether it is read on from there or
by positions in the whole. -/
theorem lookup_segment (layout : Layout t n) (memory : ProgramMemory) (options : CompileOptions)
    (program : Program t n) (h : layout.compile memory options = .ok program) (id : FieldId)
    (entry : Entry) (hentry : program.fields.get? id = some entry) (start : Nat)
    (hstart : entry.start? = some start) :
    (∃ slot pieces, layout.field? id = some (slot, pieces) ∧
      (Tree.build options (PieceList.inhabited pieces)).emit = .ok (program.segment start)) ∧
    ∀ before after : Bytes, instructionUnit ∣ before.length → ∀ p : Point t n,
      ∃ cursor leaf?,
        Cursor.at? (before ++ (program.segment start ++ after)) before.length = some cursor ∧
        cursor.lookup p = .ok leaf? ∧
        walk (before ++ (program.segment start ++ after)) before.length p = .ok leaf? ∧
        program.lookup id p = .ok leaf? := by
  obtain ⟨slot, pieces, hfield, hne, hemit, before₀, after₀, hbytes, hbefore₀⟩ :=
    segment_of_compile h hentry hstart
  refine ⟨⟨slot, pieces, hfield, hemit⟩, fun before after haligned p => ?_⟩
  have hfilled := Tree.filled_build_inhabited options hne
  have hn : n ≤ 255 := by
    obtain ⟨_, hplan, _⟩ := plan_of_compile h
    exact (ProgramPlan.sound_plan hplan).1
  have hat := Tree.at?_emit hfilled hemit haligned after
  have hlookup := Tree.evaluate_emit (p := p) hn hfilled hemit after
  refine ⟨_, _, hat, hlookup, (walk_eq_lookup hat).trans hlookup, ?_⟩
  obtain ⟨cursor, hcursor, _⟩ := answers_of_start? h hfield hentry hstart
  have hcode : cursor.code = program.segment start ++ after₀ := by
    obtain ⟨_, _, rfl⟩ := Cursor.at?_eq_some hcursor
    rw [hbytes, ← hbefore₀, List.drop_left]
  have hprogram : program.lookup id p = cursor.lookup p := by
    simp [Program.lookup, Program.entry?, hentry, hstart, hcursor]
  rw [hprogram, Cursor.lookup, hcode]
  exact Tree.evaluate_emit hn hfilled hemit after₀

/-- The pinwheel between two lists of one piece each. -/
def enclosedPinwheel : Layout .i32 2 :=
  let whole : PieceList .i32 2 := [⟨⟨corner 0 0, corner 2 2⟩, ⟨64, #v[4, 12]⟩⟩]
  { pinwheel with
    lists := [whole] ++ pinwheel.lists ++ [whole]
    fields := FieldMap.ofList [(5, ⟨0, 0, 4⟩), (7, ⟨1, 1, 3⟩), (8, ⟨2, 0, 4⟩)] }

theorem lookup_segment_pinwheel :
    ∃ program entry, enclosedPinwheel.compile ProgramMemory.fresh CompileOptions.default =
        .ok program ∧ program.fields.get? 7 = some entry ∧ entry.start? = some 48 ∧
      ∃ cursor, Cursor.at? (Bytes.zeros 32 ++ (program.segment 48 ++ [2, 1])) 32 = some cursor ∧
        cursor.lookup (corner 1 1) = .ok (some center) ∧
        walk (Bytes.zeros 32 ++ (program.segment 48 ++ [2, 1])) 32 (corner 1 1) =
          .ok (some center) ∧
        program.lookup 7 (corner 1 1) = .ok (some center) := by
  have hstart : (enclosedPinwheel.compile ProgramMemory.fresh
      CompileOptions.default).toOption.bind (fun program =>
        (program.fields.get? 7).bind Entry.start?) = some 48 := by
    decide +kernel
  have hcenter : (enclosedPinwheel.compile ProgramMemory.fresh
      CompileOptions.default).toOption.bind (fun program =>
        (program.lookup 7 (corner 1 1)).toOption) = some (some center) := by
    decide +kernel
  obtain ⟨program, hprogram, hentry⟩ := Option.bind_eq_some_iff.mp hstart
  obtain ⟨entry, hentry, hentryStart⟩ := Option.bind_eq_some_iff.mp hentry
  have hcompile := toOption_eq_some.mp hprogram
  obtain ⟨cursor, leaf?, hat, hlookup, hwalk, hleaf⟩ :=
    (lookup_segment _ _ _ program hcompile 7 entry hentry 48 hentryStart).2 (Bytes.zeros 32) [2, 1]
      (by decide) (corner 1 1)
  rw [hprogram, Option.bind_some, hleaf] at hcenter
  cases hcenter
  exact ⟨program, entry, hcompile, hentry, hentryStart, cursor, hat, hlookup, hwalk, hleaf⟩

end RegionLayout
