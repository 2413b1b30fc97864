import RegionLayout.Proofs.Program.Correctness
import RegionLayout.Proofs.Program.Decisions

/-!
# Relocated programs

Compiling looks at the base of a rule only when it writes the leaf. So a moved layout compiles to
the same instructions, and only the bases of the leaves differ.
-/

namespace RegionLayout

variable {t : CoordType} {n : Nat} {delta : UInt64}

/-- The instruction in `code` with the base of its rule moved. Only leaves have one. -/
def Opcode.moveBase (delta : UInt64) (code : Bytes) : Opcode → Bytes
  | .splitPlane => code
  | .affinePiece =>
      let base := Bytes.toWord (Bytes.part code payloadStart 8)
      Bytes.overlay code payloadStart (Bytes.ofWord (base + delta))

theorem length_pos_of_opcodeAt? {code : Bytes} {o : Opcode} (h : opcodeAt? code = some o) :
    0 < code.length := by
  cases code with
  | nil => contradiction
  | cons b code => exact Nat.zero_lt_succ code.length

/-- The code with the base of every leaf moved. It is read instruction by instruction, and what is
left from the first byte on that marks no instruction stays. -/
def moveBases (t : CoordType) (n : Nat) (delta : UInt64) (code : Bytes) : Bytes :=
  match _h : opcodeAt? code with
  | none => code
  | some o =>
      o.moveBase delta (code.take (o.size t n)) ++ moveBases t n delta (code.drop (o.size t n))
termination_by code.length
decreasing_by
  rw [List.length_drop]
  exact Nat.sub_lt (length_pos_of_opcodeAt? ‹_›) (o.size_pos t n)

theorem moveBases_of_opcodeAt?_none {code : Bytes} (h : opcodeAt? code = none) :
    moveBases t n delta code = code := by
  rw [moveBases]
  split <;> simp_all only [reduceCtorEq]

theorem moveBases_append {first : Bytes} {o : Opcode} (rest : Bytes)
    (h : opcodeAt? (first ++ rest) = some o) (hlen : first.length = o.size t n) :
    moveBases t n delta (first ++ rest) =
      o.moveBase delta first ++ moveBases t n delta rest := by
  rw [moveBases]
  split
  case h_1 hnone =>
    rw [h] at hnone
    contradiction
  case h_2 o' hsome =>
    cases h.symm.trans hsome
    rw [← hlen, List.take_left, List.drop_left]

theorem encodeLeaf_relocate {leaf : Piece t n} {jump : Nat} {code : Bytes}
    (h : encodeLeaf leaf jump = .ok code) :
    encodeLeaf (leaf.relocate delta) jump = .ok (Opcode.affinePiece.moveBase delta code) := by
  have hbase : Bytes.toWord (Bytes.part code payloadStart 8) = leaf.rule.base := by
    rw [part_of_encodeLeaf h, Bytes.toWord_ofWord]
  rw [Opcode.moveBase, hbase]
  exact encodeLeaf_overlay h (leaf.rule.base + delta)

/-- The same instructions one by one, the leaves of the second code moved by `delta`. -/
inductive Moved (t : CoordType) (n : Nat) (delta : UInt64) : Bytes → Bytes → Prop
  | nil : Moved t n delta [] []
  | splitPlane (s : SplitPlane t) {code code' : Bytes} (rest : Moved t n delta code code') :
      Moved t n delta (s.encode ++ code) (s.encode ++ code')
  | leaf {q : Piece t n} {jump : Nat} {first code code' : Bytes} (hjump : jump ≤ leafMaxDelta)
      (h : encodeLeaf q jump = .ok first) (rest : Moved t n delta code code') :
      Moved t n delta (first ++ code) (Opcode.affinePiece.moveBase delta first ++ code')

namespace Moved

variable {code code' more more' : Bytes}

theorem append (h : Moved t n delta code code') (hmore : Moved t n delta more more') :
    Moved t n delta (code ++ more) (code' ++ more') := by
  induction h with
  | nil => exact hmore
  | splitPlane s _ ih =>
    rw [List.append_assoc, List.append_assoc]
    exact .splitPlane s ih
  | leaf hjump h _ ih =>
    rw [List.append_assoc, List.append_assoc]
    exact .leaf hjump h ih

theorem length_eq (h : Moved t n delta code code') : code'.length = code.length := by
  induction h with
  | nil => rfl
  | splitPlane s _ ih => rw [List.length_append, List.length_append, ih]
  | leaf hjump h _ ih =>
    rw [List.length_append, List.length_append, ih, length_of_encodeLeaf h,
      length_of_encodeLeaf (encodeLeaf_relocate h)]

theorem eq_moveBases (h : Moved t n delta code code') : code' = moveBases t n delta code := by
  induction h with
  | nil => exact (moveBases_of_opcodeAt?_none rfl).symm
  | @splitPlane s code code' _ ih =>
    rw [moveBases_append code (s.opcodeAt?_encode code) s.length_encode, ih]
    rfl
  | @leaf _ _ _ code _ hjump h _ ih =>
    rw [moveBases_append code (opcodeAt?_encodeLeaf h hjump code) (length_of_encodeLeaf h), ih]

end Moved

/-- How compiling may fail: with an error of its own, or at a leaf that does not fit its bytes,
which takes an odd number of eight byte coordinates. -/
def Failure.OfCompiling (t : CoordType) (n : Nat) : Failure CompileError → Prop
  | .error _ => True
  | .fault f => f = .indexOutOfBounds ∧ t.bytes = 8 ∧ n % 2 = 1

namespace Tree

theorem matched_encodeLeaf (q : Piece t n) {jump : Nat} (hjump : jump ≤ leafMaxDelta) :
    Matched (fun f => Failure.OfCompiling t n (.fault f)) (Moved t n delta) (encodeLeaf q jump)
      (encodeLeaf (q.relocate delta) jump) := by
  cases h : encodeLeaf q jump with
  | error f =>
    obtain ⟨rfl, hlt⟩ := error_of_encodeLeaf h
    have h' : encodeLeaf (q.relocate delta) jump = .error .indexOutOfBounds :=
      if_neg (Nat.not_le.mpr hlt)
    rw [h']
    exact .error ⟨rfl, (leafSize_lt_iff t n).mp hlt⟩
  | ok code =>
    rw [encodeLeaf_relocate h]
    refine .ok ?_
    have hmoved : Moved t n delta (code ++ []) (Opcode.affinePiece.moveBase delta code ++ []) :=
      .leaf hjump h .nil
    rwa [List.append_nil, List.append_nil] at hmoved

theorem matched_emitChain (pieces : PieceList t n)
    (hmax : leafSize t n / instructionUnit ≤ leafMaxDelta) :
    Matched (fun f => Failure.OfCompiling t n (.fault f)) (Moved t n delta) (emitChain pieces)
      (emitChain (PieceList.relocate pieces delta)) := by
  induction pieces with
  | nil => exact .ok .nil
  | cons q rest ih =>
    cases rest with
    | nil => exact matched_encodeLeaf q (Nat.zero_le _)
    | cons q' rest =>
      exact (matched_encodeLeaf q hmax).bind fun _ _ hleaf =>
        ih.bind fun _ _ hleaves => .ok (hleaf.append hleaves)

/-- A tree with its pieces moved is emitted as the tree is, with the leaves moved. -/
theorem matched_emit (tree : Tree t n) :
    Matched (Failure.OfCompiling t n) (Moved t n delta) tree.emit (tree.relocate delta).emit := by
  induction tree with
  | split dim plane below above ihbelow ihabove =>
    rw [relocate, emit, emit]
    refine ihbelow.bind fun first first' hfirst => ?_
    dsimp only
    -- the parts below are equally long, so both planes jump as far, or both too far
    rw [hfirst.length_eq]
    split
    case isTrue => exact .error trivial
    case isFalse =>
      refine ihabove.bind fun second second' hsecond => .ok ?_
      rw [List.append_assoc, List.append_assoc]
      exact .splitPlane _ (hfirst.append hsecond)
  | chain pieces =>
    rw [relocate, emit, emit]
    split
    case isTrue => exact .error trivial
    case isFalse hmax => exact (matched_emitChain pieces (Nat.not_lt.mp hmax)).mapError fun _ h => h

end Tree

namespace ProgramPlan

variable {plan plan' : ProgramPlan}

/-- The same plan, the leaves of its code moved. -/
structure Moved (t : CoordType) (n : Nat) (delta : UInt64) (plan plan' : ProgramPlan) : Prop where
  code : RegionLayout.Moved t n delta plan.code plan'.code
  lists : plan'.lists = plan.lists
  fields : plan'.fields = plan.fields

theorem matched_addList (space : IndexSpace t n) (options : CompileOptions) (index : UInt64)
    (pieces : PieceList t n) (h : Moved t n delta plan plan') :
    Matched (Failure.OfCompiling t n)
      (fun next next' => Moved t n delta next.1 next'.1 ∧ next'.2 = next.2)
      (plan.addList space options index pieces)
      (plan'.addList space options index (PieceList.relocate pieces delta)) := by
  rw [addList_eq, addList_eq, checkCoverage_relocate, PieceList.inhabited_relocate,
    Tree.build_relocate, PieceList.relocate, List.isEmpty_map]
  refine ((Matched.refl fun _ _ => trivial).mapError fun _ _ => trivial).bind fun _ _ _ => ?_
  split
  case isTrue => exact .ok ⟨⟨h.code, by rw [h.lists], h.fields⟩, rfl⟩
  case isFalse =>
    refine (Tree.matched_emit _).bind fun code code' hcode => .ok ?_
    rw [h.code.length_eq, Tree.opcodes_relocate]
    exact ⟨⟨h.code.append hcode, by rw [h.lists], h.fields⟩, rfl⟩

theorem matched_addField (layout : Layout t n) (options : CompileOptions)
    (field : FieldId × FieldSlot) (h : Moved t n delta plan plan') :
    Matched (Failure.OfCompiling t n) (Moved t n delta) (addField layout options plan field)
      (addField (layout.relocate delta) options plan' field) := by
  rw [addField, addField, Layout.list?_relocate, h.lists]
  cases layout.list? field.2.list with
  | none => exact .error trivial
  | some pieces =>
    dsimp only [Option.map_some]
    cases plan.lists.lookup field.2.list with
    | some entry => exact .ok ⟨h.code, h.lists, by rw [h.fields]⟩
    | none =>
      refine (matched_addList layout.space options field.2.list pieces h).bind ?_
      rintro ⟨next, entry⟩ ⟨next', entry'⟩ ⟨hnext, rfl⟩
      exact .ok ⟨hnext.code, hnext.lists, by rw [hnext.fields]⟩

theorem matched_plan (layout : Layout t n) (options : CompileOptions) :
    Matched (Failure.OfCompiling t n) (Moved t n delta) (layout.plan options)
      ((layout.relocate delta).plan options) := by
  rw [Layout.plan, Layout.plan]
  split
  case isTrue => exact .error trivial
  case isFalse =>
    exact Matched.foldlM (fun _ _ field => matched_addField layout options field)
      layout.fields.entries ⟨.nil, rfl, rfl⟩

end ProgramPlan

/-- The same program, the leaves of its code moved: entry for entry the fields start at the same
place with the same opcodes and offset, and instruction for instruction the bytes are the same but
for the bases of the leaves. -/
structure Program.Moved (delta : UInt64) (program program' : Program t n) : Prop where
  fields : program'.fields = program.fields
  length_eq : program'.bytes.length = program.bytes.length
  bytes : RegionLayout.Moved t n delta program.bytes program'.bytes

/-- The bytes of the moved program can be found from those of the other one alone. -/
theorem Program.Moved.bytes_eq_moveBases {program program' : Program t n}
    (h : program.Moved delta program') : program'.bytes = moveBases t n delta program.bytes :=
  h.bytes.eq_moveBases

theorem matched_compile (layout : Layout t n) (memory : ProgramMemory) (options : CompileOptions) :
    Matched (Failure.OfCompiling t n) (Program.Moved delta) (layout.compile memory options)
      ((layout.relocate delta).compile memory options) := by
  rw [Layout.compile, Layout.compile]
  refine (ProgramPlan.matched_plan layout options).bind fun plan plan' hplan => ?_
  rw [hplan.code.length_eq]
  cases hmemory : memory.allocate plan.code.length with
  | error e => exact .error trivial
  | ok memory' =>
    have hmemory' : memory.allocate plan'.code.length = .ok memory' := by
      rw [hplan.code.length_eq, hmemory]
    have hbytes := Program.bytes_of_allocate (t := t) (n := n) hmemory plan.fields
    have hbytes' := Program.bytes_of_allocate (t := t) (n := n) hmemory' plan'.fields
    refine .ok ⟨hplan.fields, ?_, ?_⟩
    · rw [hbytes, hbytes', hplan.code.length_eq]
    · rw [hbytes, hbytes']
      exact hplan.code

/-- Moving a layout is an action of the numbers modulo `2 ^ 64`. It moves every offset by as much,
and it commutes with compiling. -/
theorem relocate_compile (layout : Layout t n) :
    (∀ delta delta', (layout.relocate delta).relocate delta' = layout.relocate (delta + delta')) ∧
      layout.relocate 0 = layout ∧
      (∀ delta id p, (layout.relocate delta).offset? id p = (layout.offset? id p).map (· + delta)) ∧
      ∀ delta memory options,
        Matched (Failure.OfCompiling t n) (Program.Moved delta) (layout.compile memory options)
          ((layout.relocate delta).compile memory options) :=
  ⟨layout.relocate_relocate, layout.relocate_zero, layout.offset?_relocate,
    fun _ => matched_compile layout⟩

end RegionLayout
