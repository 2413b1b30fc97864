import RegionLayout.Proofs.Program.Walk

/-!
# Evaluation of arbitrary bytes

Jumps only lead forward and one of zero units leads nowhere, so evaluation ends. Each instruction
looks at its payload only if all of it is left. What can go wrong is a leaf that does not fit its
own bytes.
-/

namespace RegionLayout

variable {t : CoordType} {n : Nat} {p : Point t n}

/-- No buffer in memory has as many bytes, `2 ^ 63`. -/
def bufferLimit : Nat := 0x8000000000000000

theorem leafAt?_eq_error_iff {code : Bytes} {f : Fault} :
    leafAt? t n code = .error f ↔ f = .indexOutOfBounds ∧ (t.bytes = 8 ∧ n % 2 = 1) ∧
      opcodeAt? code = some .affinePiece ∧ leafSize t n ≤ code.length := by
  rw [leafAt?, ← leafSize_lt_iff, ← Nat.not_le]
  split
  case isTrue hleaf =>
    rw [Bytes.reaches_iff] at hleaf
    split
    case isTrue hfits => simp [hfits]
    case isFalse hover => simp [hover, hleaf, eq_comm]
  case isFalse hno =>
    rw [Bytes.reaches_iff] at hno
    simp [hno]

theorem move_eq_error_iff {code : Bytes} {f : Fault} :
    move code p = .error f ↔ leafAt? t n code = .error f := by
  rw [move]
  split
  case h_1 hop => simp [leafAt?, hop]
  case h_2 hop =>
    have hleaf : leafAt? t n code = .ok none := by simp [leafAt?, hop]
    rw [hleaf]
    split
    case h_1 => simp
    case h_2 => split <;> simp
  case h_3 => split <;> simp_all

theorem move_eq_done_iff {code : Bytes} {leaf : Piece t n} :
    move code p = .ok (.done leaf) ↔
      p ∈ leaf.bounds ∧ ∃ delta, leafAt? t n code = .ok (some (leaf, delta)) := by
  have hjump : ∀ delta, (Move.jump delta : Move t n) ≠ .done leaf := by
    intro delta
    rw [Move.jump]
    split <;> simp
  rw [move]
  split
  case h_1 hop => simp [leafAt?, hop]
  case h_2 hop =>
    have hleaf : leafAt? t n code = .ok none := by simp [leafAt?, hop]
    rw [hleaf]
    split
    case h_1 => simp
    case h_2 =>
      split
      case isTrue => split <;> simp [hjump]
      case isFalse => simp
  case h_3 =>
    split
    case h_1 hleaf => simp [hleaf]
    case h_2 hleaf => simp [hleaf]
    case h_3 leaf' delta hleaf =>
      rw [hleaf]
      by_cases hp : p ∈ leaf'.bounds
      · simp only [if_pos hp, Except.ok.injEq, Move.done.injEq, Option.some.injEq, Prod.mk.injEq,
          exists_and_left, exists_eq', and_true]
        exact ⟨fun h => ⟨h ▸ hp, h⟩, And.right⟩
      · simp only [if_neg hp, Except.ok.injEq, hjump, Option.some.injEq, Prod.mk.injEq,
          exists_and_left, exists_eq', and_true, false_iff, not_and]
        rintro hmem rfl
        exact hp hmem

theorem splitPlaneAt?_congr {code code' : Bytes} (hlen : code'.length = code.length)
    (hheader : headerWord code' = headerWord code)
    (hplane : payloadStart + t.bytes ≤ code.length →
      Bytes.part code' payloadStart t.bytes = Bytes.part code payloadStart t.bytes) :
    splitPlaneAt? t code' = splitPlaneAt? t code := by
  have hslice : Bytes.slice? code' payloadStart t.bytes =
      Bytes.slice? code payloadStart t.bytes := by
    by_cases hfits : payloadStart + t.bytes ≤ code.length
    · rw [Bytes.slice?_of_le hfits, Bytes.slice?_of_le (hlen ▸ hfits), hplane hfits]
    · have hcut := Nat.not_le.mp hfits
      rw [Bytes.slice?_of_lt hcut, Bytes.slice?_of_lt (hlen ▸ hcut)]
  have hop : opcodeAt? code' = opcodeAt? code := by rw [opcodeAt?, opcodeAt?, hheader]
  rw [splitPlaneAt?, splitPlaneAt?, hop, hheader, hslice]

theorem leafAt?_congr {code code' : Bytes} (hlen : code'.length = code.length)
    (hheader : headerWord code' = headerWord code)
    (hleaf : leafSize t n ≤ code.length → code'.take (leafSize t n) = code.take (leafSize t n)) :
    leafAt? t n code' = leafAt? t n code := by
  simp only [leafAt?, opcodeAt?, hheader, Bytes.reaches_iff, hlen]
  split
  case isTrue hcond => rw [hleaf hcond.2]
  case isFalse => rfl

namespace Cursor

variable {program program' : Bytes} {c c' v : Cursor} {range : Nat × Nat}

/-- Where evaluation of the point goes on after the instruction here, if it does. -/
def successor? (p : Point t n) (c : Cursor) : Option Cursor :=
  match move c.code p with
  | .ok (.ahead units _) => c.ahead? units
  | _ => none

theorem successor?_eq_some (h : c.successor? p = some c') :
    ∃ units hunits, move c.code p = .ok (.ahead units hunits) ∧ c.ahead? units = some c' := by
  rw [successor?] at h
  split at h
  case h_1 units hunits hmove => exact ⟨units, hunits, hmove, h⟩
  case h_2 => contradiction

/-- The instructions that evaluation of the point comes to, in turn. -/
def trail (p : Point t n) (c : Cursor) : List Cursor :=
  match _h : c.successor? p with
  | none => [c]
  | some c' => c :: c'.trail p
termination_by c.code.length
decreasing_by
  obtain ⟨_, _, _, hahead⟩ := successor?_eq_some ‹_›
  exact length_lt_of_ahead? hahead

theorem trail_of_none (h : c.successor? p = none) : c.trail p = [c] := by
  rw [trail]
  split <;> simp_all

theorem trail_of_some (h : c.successor? p = some c') : c.trail p = c :: c'.trail p := by
  rw [trail]
  split <;> simp_all

theorem self_mem_trail (p : Point t n) (c : Cursor) : c ∈ c.trail p := by
  cases h : c.successor? p with
  | none => simp [trail_of_none h]
  | some c' => simp [trail_of_some h]

theorem lookup_of_successor? (h : c.successor? p = some c') : c.lookup p = c'.lookup p := by
  obtain ⟨units, _, hmove, hahead⟩ := successor?_eq_some h
  simp [lookup_eq p c, hmove, hahead]

section Positions

theorem at?_of_successor? (hat : at? program c.pos = some c) (h : c.successor? p = some c') :
    at? program c'.pos = some c' ∧ c.pos + instructionUnit ≤ c'.pos := by
  obtain ⟨units, hunits, _, hahead⟩ := successor?_eq_some h
  have hpos : c'.pos = c.pos + units * instructionUnit := by
    obtain ⟨_, _, rfl⟩ := Option.map_eq_some_iff.mp hahead
    rfl
  refine ⟨?_, ?_⟩
  · rw [hpos, at?_ahead hat hunits, hahead]
  · rw [hpos]
    simp only [instructionUnit]
    omega

theorem at?_of_mem_trail (hat : at? program c.pos = some c) (hv : v ∈ c.trail p) :
    at? program v.pos = some v ∧ c.pos ≤ v.pos := by
  induction c using trail.induct p with
  | case1 c hnone =>
    simp only [trail_of_none hnone, List.mem_singleton] at hv
    simp [hv, hat]
  | case2 c c' hsome ih =>
    obtain ⟨hat', hpos⟩ := at?_of_successor? hat hsome
    simp only [trail_of_some hsome, List.mem_cons] at hv
    rcases hv with rfl | hv
    · exact ⟨hat, Nat.le_refl _⟩
    · have hrest := ih hat' hv
      exact ⟨hrest.1, by omega⟩

theorem ascending_trail (hat : at? program c.pos = some c) :
    (c.trail p).Pairwise fun v v' => v.pos < v'.pos := by
  induction c using trail.induct p with
  | case1 c hnone => simp [trail_of_none hnone]
  | case2 c c' hsome ih =>
    obtain ⟨hat', hpos⟩ := at?_of_successor? hat hsome
    rw [trail_of_some hsome, List.pairwise_cons]
    refine ⟨?_, ih hat'⟩
    intro v hv
    have hle := (at?_of_mem_trail hat' hv).2
    simp only [instructionUnit] at hpos
    omega

/-- Each instruction but the last takes a unit at least, and the last one has its header word. -/
theorem length_trail_le (hat : at? program c.pos = some c) :
    c.pos + instructionUnit * (c.trail p).length + 4 ≤ program.length + instructionUnit := by
  induction c using trail.induct p with
  | case1 c hnone =>
    have hword := (at?_eq_some hat).2.1
    simp only [trail_of_none hnone, List.length_singleton]
    omega
  | case2 c c' hsome ih =>
    obtain ⟨hat', hpos⟩ := at?_of_successor? hat hsome
    have hrest := ih hat'
    simp only [trail_of_some hsome, List.length_cons, instructionUnit] at hrest hpos ⊢
    omega

end Positions

section Outcome

theorem lookup_eq_error_iff {f : Fault} :
    c.lookup p = .error f ↔ ∃ v ∈ c.trail p, v.leaf? t n = .error f := by
  induction c using trail.induct p with
  | case1 c hnone =>
    simp only [trail_of_none hnone, List.mem_singleton, exists_eq_left, leaf?]
    rw [← move_eq_error_iff (p := p), lookup_eq]
    rw [successor?] at hnone
    split <;> simp_all
  | case2 c c' hsome ih =>
    have hleaf : c.leaf? t n ≠ .error f := by
      obtain ⟨_, _, hmove, _⟩ := successor?_eq_some hsome
      simp [leaf?, ← move_eq_error_iff (p := p), hmove]
    simp [lookup_of_successor? hsome, trail_of_some hsome, ih, hleaf]

theorem of_lookup_eq_some {leaf : Piece t n} (h : c.lookup p = .ok (some leaf)) :
    p ∈ leaf.bounds ∧ ∃ v ∈ c.trail p, ∃ delta, v.leaf? t n = .ok (some (leaf, delta)) := by
  induction c using trail.induct p with
  | case1 c hnone =>
    have hmove : move c.code p = .ok (.done leaf) := by
      rw [lookup_eq] at h
      rw [successor?] at hnone
      split at h <;> simp_all
    rw [move_eq_done_iff] at hmove
    simp [trail_of_none hnone, leaf?, hmove]
  | case2 c c' hsome ih =>
    rw [lookup_of_successor? hsome] at h
    obtain ⟨hmem, v, hv, hleaf⟩ := ih h
    exact ⟨hmem, v, by simp [trail_of_some hsome, hv], hleaf⟩

end Outcome

section Reads

/-- The ranges of bytes that the instruction here is decoded from, by start and count: its header
word, and what it looks at beyond unless that is cut off. -/
def reads (t : CoordType) (n : Nat) (c : Cursor) : List (Nat × Nat) :=
  (c.pos, 4) ::
    match c.opcode? with
    | some .splitPlane =>
        if payloadStart + t.bytes ≤ c.code.length then [(c.pos + payloadStart, t.bytes)] else []
    | some .affinePiece => if leafSize t n ≤ c.code.length then [(c.pos, leafSize t n)] else []
    | none => []

theorem reads_inside (hat : at? program c.pos = some c) (hrange : range ∈ c.reads t n) :
    range.1 + range.2 ≤ program.length := by
  obtain ⟨_, hword, hc⟩ := at?_eq_some hat
  have hlen : c.code.length = program.length - c.pos := by
    rw [hc]
    exact List.length_drop
  rw [reads, List.mem_cons] at hrange
  rcases hrange with rfl | hrange
  · exact hword
  · split at hrange
    case h_1 =>
      split at hrange
      case isTrue hfits =>
        rw [List.mem_singleton.mp hrange]
        dsimp only
        omega
      case isFalse => contradiction
    case h_2 =>
      split at hrange
      case isTrue hfits =>
        rw [List.mem_singleton.mp hrange]
        dsimp only
        omega
      case isFalse => contradiction
    case h_3 => contradiction

theorem header_mem_reads (c : Cursor) : (c.pos, 4) ∈ c.reads t n := List.mem_cons_self

theorem plane_mem_reads (hop : c.opcode? = some .splitPlane)
    (hfits : payloadStart + t.bytes ≤ c.code.length) :
    (c.pos + payloadStart, t.bytes) ∈ c.reads t n := by
  rw [reads, hop]
  simp only [if_pos hfits]
  exact List.mem_cons_of_mem _ (List.mem_singleton_self _)

theorem leaf_mem_reads (hop : c.opcode? = some .affinePiece)
    (hfits : leafSize t n ≤ c.code.length) : (c.pos, leafSize t n) ∈ c.reads t n := by
  rw [reads, hop]
  simp only [if_pos hfits]
  exact List.mem_cons_of_mem _ (List.mem_singleton_self _)

/-- The cursor at the same position of another program. -/
def moveTo (program : Bytes) (c : Cursor) : Cursor := ⟨c.pos, program.drop c.pos⟩

theorem at?_moveTo (hlen : program'.length = program.length) (pos : Nat) :
    at? program' pos = (at? program pos).map (moveTo program') := by
  have hreach : Bytes.reaches (pos + 4) program' = Bytes.reaches (pos + 4) program := by
    rw [Bool.eq_iff_iff, Bytes.reaches_iff, Bytes.reaches_iff, hlen]
  rw [at?, at?, hreach]
  split <;> rfl

theorem ahead?_moveTo {units : Nat} (hlen : program'.length = program.length)
    (hat : at? program c.pos = some c) (hunits : 0 < units) :
    (c.moveTo program').ahead? units = (c.ahead? units).map (moveTo program') := by
  have hat' : at? program' c.pos = some (c.moveTo program') := by simp [at?_moveTo hlen, hat]
  rw [← at?_ahead hat' hunits, at?_moveTo hlen, at?_ahead hat hunits]

theorem move_moveTo (hlen : program'.length = program.length) (hat : at? program c.pos = some c)
    (h : ∀ range ∈ c.reads t n,
      Bytes.part program' range.1 range.2 = Bytes.part program range.1 range.2) :
    move (c.moveTo program').code p = move c.code p := by
  have hcode : c.code = program.drop c.pos := congrArg Cursor.code (at?_eq_some hat).2.2
  have hleft : (c.moveTo program').code.length = c.code.length := by
    rw [hcode, moveTo, List.length_drop, List.length_drop, hlen]
  have hheader : headerWord (c.moveTo program').code = headerWord c.code := by
    rw [hcode]
    exact congrArg Bytes.toNat (h _ c.header_mem_reads)
  have hop : opcodeAt? (c.moveTo program').code = opcodeAt? c.code := by
    rw [opcodeAt?, opcodeAt?, hheader]
  rw [move, move, hop]
  split
  case h_1 => rfl
  case h_2 hkind =>
    have hplane : splitPlaneAt? t (c.moveTo program').code = splitPlaneAt? t c.code := by
      refine splitPlaneAt?_congr hleft hheader fun hfits => ?_
      have hpart := h _ (plane_mem_reads hkind hfits)
      rwa [Bytes.part, Bytes.part, ← List.drop_drop, ← List.drop_drop, ← hcode] at hpart
    rw [hplane]
  case h_3 hkind =>
    have hleaf : leafAt? t n (c.moveTo program').code = leafAt? t n c.code := by
      refine leafAt?_congr hleft hheader fun hfits => ?_
      have hpart := h _ (leaf_mem_reads hkind hfits)
      rwa [Bytes.part, Bytes.part, ← hcode] at hpart
    rw [hleaf]

/-- What is found depends on nothing but the length of the program and the bytes that are read. -/
theorem lookup_moveTo (hlen : program'.length = program.length) (hat : at? program c.pos = some c)
    (h : ∀ v ∈ c.trail p, ∀ range ∈ v.reads t n,
      Bytes.part program' range.1 range.2 = Bytes.part program range.1 range.2) :
    (c.moveTo program').lookup p = c.lookup p := by
  have hmove := move_moveTo (p := p) hlen hat (h c (self_mem_trail p c))
  induction c using trail.induct p with
  | case1 c hnone =>
    rw [lookup_eq, lookup_eq p c, hmove]
    split
    case h_1 => rfl
    case h_2 => rfl
    case h_3 => rfl
    case h_4 units hunits hahead =>
      have hstop : c.ahead? units = none := by rwa [successor?, hahead] at hnone
      rw [ahead?_moveTo hlen hat hunits, hstop]
      rfl
  | case2 c c' hsome ih =>
    obtain ⟨units, hunits, hahead, hnext⟩ := successor?_eq_some hsome
    obtain ⟨hat', _⟩ := at?_of_successor? hat hsome
    have hrest : ∀ v ∈ c'.trail p, ∀ range ∈ v.reads t n,
        Bytes.part program' range.1 range.2 = Bytes.part program range.1 range.2 := by
      intro v hv
      exact h v (by simp [trail_of_some hsome, hv])
    have hlookup := ih hat' hrest (move_moveTo hlen hat' (hrest c' (self_mem_trail p c')))
    rw [lookup_eq, lookup_eq p c, hmove, hahead]
    simp only [ahead?_moveTo hlen hat hunits, hnext, Option.map_some, Option.elim_some, hlookup]

end Reads

section Loop

/-- Where one turn of the evaluation loop leads: out of it with an answer, or to the next
instruction. -/
inductive Turn (t : CoordType) (n : Nat) where
  | done (answer : Option (Piece t n))
  | goto (c : Cursor)

def Turn.ofNext? (next? : Option Cursor) : Turn t n := next?.elim (.done none) .goto

/-- One turn of the evaluation loop, positions and dimensions checked as it goes. -/
def turn (p : Point t n) (c : Cursor) : Except Fault (Turn t n) :=
  match c.opcode? with
  | none => .ok (.done none)
  | some .splitPlane =>
      match c.splitPlane? t with
      | none => .ok (.done none)
      | some s =>
          if n ≤ s.dim.toNat then .ok (.done none)
          else do
            let below ← s.goesBelow p
            (if below then c.skip splitPlaneSize else c.jump s.delta.toNat).map .ofNext?
  | some .affinePiece => do
      match ← c.leaf? t n with
      | none => return .done none
      | some (leaf, delta) =>
          if p ∈ leaf.bounds then return .done (some leaf) else (c.jump delta).map .ofNext?

theorem length_lt_of_skip {bytes : Nat} (h : c.skip bytes = .ok (some c')) (hbytes : 0 < bytes) :
    c'.code.length < c.code.length := by
  rw [skip] at h
  split at h
  case isTrue => contradiction
  case isFalse =>
    split at h
    case isTrue =>
      obtain ⟨rest, hrest, rfl⟩ := Option.map_eq_some_iff.mp (Except.ok.inj h)
      exact length_lt_of_skip? hrest hbytes
    case isFalse => simp at h

theorem length_lt_of_jump {delta : Nat} (h : c.jump delta = .ok (some c')) :
    c'.code.length < c.code.length := by
  rw [jump] at h
  split at h
  case isTrue => simp at h
  case isFalse hdelta =>
    refine length_lt_of_skip h ?_
    simp only [instructionUnit]
    omega

theorem Turn.ofNext?_eq_goto {next? : Option Cursor} :
    (Turn.ofNext? next? : Turn t n) = .goto c' ↔ next? = some c' := by
  cases next? <;> simp [Turn.ofNext?]

theorem length_lt_of_turn (h : c.turn p = .ok (.goto c')) : c'.code.length < c.code.length := by
  rw [turn] at h
  split at h
  case h_1 => simp at h
  case h_2 =>
    split at h
    case h_1 => simp at h
    case h_2 s _ =>
      split at h
      case isTrue => simp at h
      case isFalse =>
        obtain ⟨below, _, h⟩ := bind_eq_ok.mp h
        obtain ⟨next?, hnext, h⟩ := map_eq_ok.mp h
        rw [Turn.ofNext?_eq_goto] at h
        subst h
        split at hnext
        case isTrue => exact length_lt_of_skip hnext (by decide)
        case isFalse => exact length_lt_of_jump hnext
  case h_3 =>
    obtain ⟨leaf?, _, h⟩ := bind_eq_ok.mp h
    cases leaf? with
    | none => simp [pure_eq_ok] at h
    | some leaf =>
      dsimp only at h
      split at h
      case isTrue => simp [pure_eq_ok] at h
      case isFalse =>
        obtain ⟨next?, hnext, h⟩ := map_eq_ok.mp h
        rw [Turn.ofNext?_eq_goto] at h
        subst h
        exact length_lt_of_jump hnext

/-- The evaluation loop: the instructions it came to, and how it ended. -/
def run (p : Point t n) (c : Cursor) : List Cursor × Except Fault (Option (Piece t n)) :=
  match _h : c.turn p with
  | .error f => ([c], .error f)
  | .ok (.done answer) => ([c], .ok answer)
  | .ok (.goto c') => (c :: (c'.run p).1, (c'.run p).2)
termination_by c.code.length
decreasing_by all_goals exact length_lt_of_turn ‹_›

theorem skip_eq (units : Nat) (haligned : instructionUnit ∣ c.pos) (hsize : c.pos < bufferLimit)
    (hpos : 0 < units) (hunits : units ≤ leafMaxDelta) :
    c.skip (units * instructionUnit) = .ok (c.ahead? units) := by
  have hmod : (c.pos + units * instructionUnit) % instructionUnit = 0 :=
    Nat.mod_eq_zero_of_dvd (Nat.dvd_add haligned (Nat.dvd_mul_left _ _))
  have hword : ¬ wordLimit ≤ c.pos + units * instructionUnit := by
    simp only [bufferLimit, leafMaxDelta, instructionUnit, wordLimit] at *
    omega
  rw [skip, if_neg hword, if_pos hmod, ahead?, jump?, if_neg (Nat.ne_of_gt hpos)]

/-- What a turn makes of the move that the instruction is. -/
def Turn.ofMove (c : Cursor) : Move t n → Turn t n
  | .done leaf => .done (some leaf)
  | .ahead units _ => .ofNext? (c.ahead? units)
  | .stuck => .done none

theorem jump_eq {delta : Nat} (haligned : instructionUnit ∣ c.pos) (hsize : c.pos < bufferLimit)
    (hdelta : delta ≤ leafMaxDelta) :
    (c.jump delta).map (Turn.ofNext? : Option Cursor → Turn t n) =
      .ok (.ofMove c (.jump delta)) := by
  rw [jump, Move.jump]
  split
  case isTrue hzero =>
    rw [dif_neg (by omega)]
    rfl
  case isFalse hpos =>
    have hpos : 0 < delta := Nat.pos_of_ne_zero hpos
    rw [skip_eq delta haligned hsize hpos hdelta, dif_pos hpos]
    rfl

theorem headerWord_lt (code : Bytes) : headerWord code < 0x100000000 := by
  have hlimit : ∀ width ≤ 4, Bytes.limit width ≤ 0x100000000 := by decide
  exact Nat.lt_of_lt_of_le (Bytes.toNat_lt _) (hlimit _ (List.length_take_le 4 code))

theorem le_leafMaxDelta_of_leafAt? {code : Bytes} {leaf : Piece t n} {delta : Nat}
    (h : leafAt? t n code = .ok (some (leaf, delta))) : delta ≤ leafMaxDelta := by
  have hword := headerWord_lt code
  have hdelta : headerWord code / 0x100 = delta := by
    rw [leafAt?] at h
    split at h
    case isTrue =>
      split at h
      case isTrue => simp_all
      case isFalse => contradiction
    case isFalse => simp at h
  rw [← hdelta]
  simp only [leafMaxDelta]
  omega

theorem turn_eq (haligned : instructionUnit ∣ c.pos) (hsize : c.pos < bufferLimit)
    (p : Point t n) : c.turn p = (move c.code p).map (Turn.ofMove c) := by
  rw [turn, move, opcode?]
  cases opcodeAt? c.code with
  | none => rfl
  | some o =>
    cases o with
    | splitPlane =>
      dsimp only
      rw [splitPlane?]
      cases splitPlaneAt? t c.code with
      | none => rfl
      | some s =>
        have hdelta : s.delta.toNat ≤ leafMaxDelta := by
          have hlt : s.delta.toNat < 0x10000 := s.delta.toNat_lt
          simp only [leafMaxDelta]
          omega
        dsimp only
        by_cases hdim : s.dim.toNat < n
        · have hbelow : s.goesBelow p = .ok (decide (p.get ⟨s.dim.toNat, hdim⟩ < s.plane)) := by
            simp [SplitPlane.goesBelow, dimension, hdim, Except.map]
          rw [if_neg (Nat.not_le.mpr hdim), dif_pos hdim, hbelow, Except.map]
          change Except.map _ (if decide _ = true then _ else _) = _
          simp only [decide_eq_true_eq]
          split
          case isTrue =>
            have hskip : c.skip splitPlaneSize = .ok (c.ahead? 1) :=
              skip_eq 1 haligned hsize (by decide) (by decide)
            exact congrArg (Except.map Turn.ofNext?) hskip
          case isFalse => exact jump_eq haligned hsize hdelta
        · rw [if_pos (Nat.not_lt.mp hdim), dif_neg hdim]
          rfl
    | affinePiece =>
      dsimp only
      rw [leaf?]
      cases hleaf : leafAt? t n c.code with
      | error f => rfl
      | ok leaf? =>
        cases leaf? with
        | none => rfl
        | some leaf =>
          obtain ⟨leaf, delta⟩ := leaf
          change (if p ∈ leaf.bounds then _ else _) = _
          simp only [Except.map]
          split
          case isTrue => rfl
          case isFalse => exact jump_eq haligned hsize (le_leafMaxDelta_of_leafAt? hleaf)

theorem run_of_error {f : Fault} (h : c.turn p = .error f) : c.run p = ([c], .error f) := by
  rw [run]
  split <;> simp_all

theorem run_of_done {answer : Option (Piece t n)} (h : c.turn p = .ok (.done answer)) :
    c.run p = ([c], .ok answer) := by
  rw [run]
  split <;> simp_all

theorem run_of_goto (h : c.turn p = .ok (.goto c')) :
    c.run p = (c :: (c'.run p).1, (c'.run p).2) := by
  rw [run]
  split <;> simp_all

theorem run_eq (hat : at? program c.pos = some c) (hsize : program.length < bufferLimit) :
    c.run p = (c.trail p, c.lookup p) := by
  induction c using trail.induct p with
  | case1 c hnone =>
    obtain ⟨haligned, hword, _⟩ := at?_eq_some hat
    have hturn := turn_eq haligned (by omega : c.pos < bufferLimit) p
    rw [trail_of_none hnone, lookup_eq]
    rw [successor?] at hnone
    split
    case h_1 f hmove =>
      rw [hmove] at hturn
      exact run_of_error hturn
    case h_2 leaf hmove =>
      rw [hmove] at hturn
      exact run_of_done hturn
    case h_3 hmove =>
      rw [hmove] at hturn
      exact run_of_done hturn
    case h_4 units _ hmove =>
      have hstop : c.ahead? units = none := by rwa [hmove] at hnone
      rw [hmove, Except.map, Turn.ofMove, hstop] at hturn
      rw [hstop]
      exact run_of_done hturn
  | case2 c c' hsome ih =>
    obtain ⟨haligned, hword, _⟩ := at?_eq_some hat
    have hturn := turn_eq haligned (by omega : c.pos < bufferLimit) p
    obtain ⟨units, _, hmove, hahead⟩ := successor?_eq_some hsome
    rw [hmove, Except.map, Turn.ofMove, hahead] at hturn
    rw [run_of_goto hturn, ih (at?_of_successor? hat hsome).1, trail_of_some hsome,
      lookup_of_successor? hsome]

end Loop

end Cursor

/-- What evaluating a point from a cursor in `program` keeps to. -/
structure SafeRun (program : Bytes) (c : Cursor) (p : Point t n) : Prop where
  /-- Evaluation only moves forward. -/
  ascending : (c.trail p).Pairwise fun v v' => v.pos < v'.pos
  /-- It stays at units of the program. -/
  inside : ∀ v ∈ c.trail p, Cursor.at? program v.pos = some v ∧ instructionUnit ∣ v.pos ∧
    v.pos < program.length
  short : (c.trail p).length ≤ program.length / instructionUnit + 1
  /-- Every byte it reads is one of the program. -/
  reads : ∀ v ∈ c.trail p, ∀ range ∈ v.reads t n, range.1 + range.2 ≤ program.length
  /-- And it reads no other: equally long programs with these bytes give the same answer. -/
  determined : ∀ program' : Bytes, program'.length = program.length →
    (∀ v ∈ c.trail p, ∀ range ∈ v.reads t n,
      Bytes.part program' range.1 range.2 = Bytes.part program range.1 range.2) →
    ∃ c', Cursor.at? program' c.pos = some c' ∧ c'.lookup p = c.lookup p
  /-- A leaf it finds has the point and is one it came to. -/
  found : ∀ leaf, c.lookup p = .ok (some leaf) → p ∈ leaf.bounds ∧
    ∃ v ∈ c.trail p, ∃ delta, v.leaf? t n = .ok (some (leaf, delta))
  /-- Only a leaf it comes to can be a fault, if leaves of its kind do not fit their bytes. -/
  faulty : ∀ f, c.lookup p = .error f ↔ f = .indexOutOfBounds ∧ (t.bytes = 8 ∧ n % 2 = 1) ∧
    ∃ v ∈ c.trail p, v.opcode? = some .affinePiece ∧ leafSize t n ≤ v.code.length
  /-- The loop does just this, with no other check failing on the way. -/
  checked : program.length < bufferLimit → c.run p = (c.trail p, c.lookup p)

/-- Any bytes can be evaluated from any multiple of 16 on, for points of any kind. Unless no
instruction word is left there, evaluation keeps to the program, in at most one step for each of
its units and one more, and ends without a leaf or with one that it met and that has the point.
Only leaves of an odd number of eight byte coordinates can be a fault. -/
theorem evaluation_safe (program : Bytes) (pos : Nat) (haligned : instructionUnit ∣ pos)
    (p : Point t n) :
    (Cursor.at? program pos = none ∧ program.length < pos + 4) ∨
      ∃ c, Cursor.at? program pos = some c ∧ c.pos = pos ∧ SafeRun program c p := by
  by_cases hword : pos + 4 ≤ program.length
  · have hat : Cursor.at? program pos = some ⟨pos, program.drop pos⟩ :=
      if_pos ⟨Nat.mod_eq_zero_of_dvd haligned, Bytes.reaches_iff.mpr hword⟩
    refine .inr ⟨_, hat, rfl, ?_⟩
    generalize hc : (⟨pos, program.drop pos⟩ : Cursor) = c at hat
    have hat : Cursor.at? program c.pos = some c := by rwa [← hc] at hat ⊢
    have hmet : ∀ v ∈ c.trail p, Cursor.at? program v.pos = some v := fun v hv =>
      (Cursor.at?_of_mem_trail hat hv).1
    refine ⟨Cursor.ascending_trail hat, ?_, ?_, ?_, ?_, ?_, ?_, Cursor.run_eq hat⟩
    · intro v hv
      obtain ⟨hunit, hleft, _⟩ := Cursor.at?_eq_some (hmet v hv)
      exact ⟨hmet v hv, hunit, by omega⟩
    · have hlen := Cursor.length_trail_le (p := p) hat
      simp only [instructionUnit] at hlen ⊢
      omega
    · intro v hv range hrange
      exact Cursor.reads_inside (hmet v hv) hrange
    · intro program' hlen hsame
      refine ⟨c.moveTo program', ?_, Cursor.lookup_moveTo hlen hat hsame⟩
      rw [Cursor.at?_moveTo hlen, hat]
      rfl
    · intro leaf hleaf
      exact Cursor.of_lookup_eq_some hleaf
    · intro f
      simp only [Cursor.lookup_eq_error_iff, Cursor.leaf?, leafAt?_eq_error_iff, Cursor.opcode?]
      constructor
      · rintro ⟨v, hv, hf, hodd, hleaf⟩
        exact ⟨hf, hodd, v, hv, hleaf⟩
      · rintro ⟨hf, hodd, v, hv, hleaf⟩
        exact ⟨v, hv, hf, hodd, hleaf⟩
  · refine .inl ⟨?_, Nat.not_le.mp hword⟩
    rw [Cursor.at?, if_neg]
    simp [hword]

/-- A plane that sends larger points to a leaf of one eight byte coordinate. -/
def overrun : Bytes :=
  (⟨0, Coord.wrap .i64 5, 1⟩ : SplitPlane .i64).encode ++ (2 :: Bytes.zeros 31)

theorem evaluation_safe_overrun :
    ∃ c, Cursor.at? overrun 0 = some c ∧ SafeRun overrun c (#v[Coord.wrap .i64 7]) ∧
      c.lookup (#v[Coord.wrap .i64 7] : Point .i64 1) = .error .indexOutOfBounds := by
  have hsome : Cursor.at? overrun 0 = some ⟨0, overrun⟩ := by decide
  have hnext : (⟨0, overrun⟩ : Cursor).successor? (#v[Coord.wrap .i64 7] : Point .i64 1) =
      some ⟨16, overrun.drop 16⟩ := by
    decide +kernel
  rcases evaluation_safe overrun 0 (by decide) (#v[Coord.wrap .i64 7] : Point .i64 1) with
    ⟨hnone, _⟩ | ⟨c, hat, _, hsafe⟩
  · simp [hnone] at hsome
  · cases hsome.symm.trans hat
    have hmem := List.mem_cons_of_mem ⟨0, overrun⟩ (Cursor.self_mem_trail
      (#v[Coord.wrap .i64 7] : Point .i64 1) ⟨16, overrun.drop 16⟩)
    rw [← Cursor.trail_of_some hnext] at hmem
    exact ⟨_, hat, hsafe, (hsafe.faulty _).mpr ⟨rfl, by decide, _, hmem, by decide⟩⟩

end RegionLayout
