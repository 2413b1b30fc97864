import RegionLayout.Program.Cursor
import RegionLayout.Proofs.Outcome
import RegionLayout.Proofs.Program.Encoding
import RegionLayout.Proofs.Program.Search

/-! # Emitted instructions search the tree -/

namespace RegionLayout

variable {t : CoordType} {n : Nat} {p : Point t n} {code rest : Bytes}

theorem evaluate_of_error {code : Bytes} {f : Fault} (h : step code p = .error f) :
    evaluate code p = .error f := by
  rw [evaluate]
  split <;> simp_all only [Except.error.injEq, reduceCtorEq]

theorem evaluate_of_done {leaf : Piece t n} (h : step code p = .ok (.done leaf)) :
    evaluate code p = .ok (some leaf) := by
  rw [evaluate]
  split <;> simp_all only [Except.ok.injEq, Step.done.injEq, reduceCtorEq]

theorem evaluate_of_stuck (h : step code p = .ok .stuck) : evaluate code p = .ok none := by
  rw [evaluate]
  split <;> simp_all only [Except.ok.injEq, reduceCtorEq]

theorem evaluate_of_goto (h : step code p = .ok (.goto rest)) :
    evaluate code p = evaluate rest p := by
  rw [evaluate]
  split <;> simp_all only [Except.ok.injEq, Step.goto.injEq, reduceCtorEq]

theorem skip?_append {first : Bytes} {count : Nat} (hlen : first.length = count)
    (hrest : 4 ≤ rest.length) : skip? (first ++ rest) count = some rest := by
  rw [skip?, List.drop_left' hlen, if_pos (Bytes.reaches_iff.mpr hrest)]

theorem jump?_append {first : Bytes} {delta : Nat} (hpos : delta ≠ 0)
    (hlen : first.length = delta * instructionUnit) (hrest : 4 ≤ rest.length) :
    jump? (first ++ rest) delta = some rest := by
  rw [jump?, if_neg hpos, skip?_append hlen hrest]

theorem opcodeAt?_of_leafAt? {leaf : Piece t n × Nat} (h : leafAt? t n code = .ok (some leaf)) :
    opcodeAt? code = some .affinePiece := by
  rw [leafAt?] at h
  split at h
  case isTrue hcond => exact hcond.1
  case isFalse => simp at h

theorem step_splitPlane (s : SplitPlane t) {d : Fin n} (hd : s.dim.toNat = d.val) (rest : Bytes) :
    step (s.encode ++ rest) p =
      .ok ((if p.get d < s.plane then skip? (s.encode ++ rest) splitPlaneSize
        else jump? (s.encode ++ rest) s.delta.toNat).elim .stuck .goto) := by
  have hlt : s.dim.toNat < n := hd ▸ d.isLt
  have hdim : (⟨s.dim.toNat, hlt⟩ : Fin n) = d := Fin.ext hd
  rw [step, s.opcodeAt?_encode, s.splitPlaneAt?_encode]
  simp only [dif_pos hlt, hdim]

theorem step_leaf {leaf : Piece t n} {delta : Nat} (h : encodeLeaf leaf delta = .ok code)
    (hdelta : delta ≤ leafMaxDelta) (rest : Bytes) :
    step (code ++ rest) p = .ok (if p ∈ leaf.bounds then .done leaf
      else (jump? (code ++ rest) delta).elim .stuck .goto) := by
  rw [step, opcodeAt?_encodeLeaf h hdelta, leafAt?_encodeLeaf h hdelta]
  by_cases hp : p ∈ leaf.bounds
  · simp only [if_pos hp]
  · simp only [if_neg hp]

namespace Tree

theorem emitChain_cons_cons_eq_ok {q q' : Piece t n} {pieces : PieceList t n} :
    emitChain (q :: q' :: pieces) = .ok code ↔
      ∃ leaf leaves, encodeLeaf q (leafSize t n / instructionUnit) = .ok leaf ∧
        emitChain (q' :: pieces) = .ok leaves ∧ code = leaf ++ leaves := by
  rw [emitChain, bind_eq_ok]
  · constructor
    · rintro ⟨leaf, hleaf, h⟩
      obtain ⟨leaves, hleaves, h⟩ := bind_eq_ok.mp h
      exact ⟨leaf, leaves, hleaf, hleaves, (pure_eq_ok.mp h).symm⟩
    · rintro ⟨leaf, leaves, hleaf, hleaves, rfl⟩
      exact ⟨leaf, hleaf, bind_eq_ok.mpr ⟨leaves, hleaves, rfl⟩⟩
  · simp

theorem length_emitChain {pieces : PieceList t n} (h : emitChain pieces = .ok code) :
    code.length = pieces.length * leafSize t n := by
  induction pieces generalizing code with
  | nil =>
    rw [emitChain] at h
    rw [← Except.ok.inj h, List.length_nil, List.length_nil, Nat.zero_mul]
  | cons q rest ih =>
    cases rest with
    | nil =>
      rw [emitChain] at h
      rw [length_of_encodeLeaf h, List.length_singleton, Nat.one_mul]
    | cons q' rest =>
      obtain ⟨leaf, leaves, hleaf, hleaves, rfl⟩ := emitChain_cons_cons_eq_ok.mp h
      rw [List.length_append, length_of_encodeLeaf hleaf, ih hleaves, List.length_cons (a := q),
        Nat.succ_mul, Nat.add_comm]

theorem jump?_emitChain {q q' : Piece t n} {pieces : PieceList t n} {delta : Nat}
    {leaf leaves : Bytes} (hleaf : encodeLeaf q delta = .ok leaf)
    (hleaves : emitChain (q' :: pieces) = .ok leaves) (rest : Bytes) :
    jump? (leaf ++ (leaves ++ rest)) (leafSize t n / instructionUnit) = some (leaves ++ rest) := by
  have hunit : instructionUnit ≤ leafSize t n := unit_le_leafSize t n
  apply jump?_append
  · exact Nat.ne_of_gt (Nat.div_pos hunit (by decide))
  · rw [length_of_encodeLeaf hleaf, Nat.div_mul_cancel (unit_dvd_leafSize t n)]
  · rw [List.length_append, length_emitChain hleaves, List.length_cons, Nat.succ_mul]
    simp only [instructionUnit] at hunit
    omega

theorem evaluate_emitChain {pieces : PieceList t n} (h : emitChain pieces = .ok code)
    (hne : pieces ≠ []) (hmax : leafSize t n / instructionUnit ≤ leafMaxDelta) (rest : Bytes) :
    evaluate (code ++ rest) p = .ok (PieceList.find? pieces p) := by
  induction pieces generalizing code with
  | nil => contradiction
  | cons q pieces ih =>
    rw [PieceList.find?_cons]
    cases pieces with
    | nil =>
      rw [emitChain] at h
      have hstep := step_leaf (p := p) h (Nat.zero_le _) rest
      by_cases hp : p ∈ q.bounds
      · rw [if_pos hp] at hstep ⊢
        exact evaluate_of_done hstep
      · rw [if_neg hp] at hstep ⊢
        exact evaluate_of_stuck hstep
    | cons q' pieces =>
      obtain ⟨leaf, leaves, hleaf, hleaves, rfl⟩ := emitChain_cons_cons_eq_ok.mp h
      have hstep := step_leaf (p := p) hleaf hmax (leaves ++ rest)
      rw [List.append_assoc]
      by_cases hp : p ∈ q.bounds
      · rw [if_pos hp] at hstep ⊢
        exact evaluate_of_done hstep
      · rw [if_neg hp, jump?_emitChain hleaf hleaves] at hstep
        rw [if_neg hp, evaluate_of_goto hstep]
        exact ih hleaves (by simp)

theorem emit_split_eq_ok {dim : Fin n} {plane : Coord t} {below above : Tree t n} :
    (Tree.split dim plane below above).emit = .ok code ↔
      ∃ first second, below.emit = .ok first ∧ above.emit = .ok second ∧
        (splitPlaneSize + first.length) / instructionUnit ≤ splitPlaneMaxDelta ∧
        code = SplitPlane.encode ⟨UInt8.ofNat dim.val, plane,
          UInt16.ofNat ((splitPlaneSize + first.length) / instructionUnit)⟩ ++
            (first ++ second) := by
  rw [emit, bind_eq_ok]
  constructor
  · rintro ⟨first, hfirst, h⟩
    dsimp only at h
    split at h
    case isTrue => contradiction
    case isFalse hmax =>
      obtain ⟨second, hsecond, h⟩ := bind_eq_ok.mp h
      rw [pure_eq_ok, List.append_assoc] at h
      exact ⟨first, second, hfirst, hsecond, Nat.not_lt.mp hmax, h.symm⟩
  · rintro ⟨first, second, hfirst, hsecond, hmax, rfl⟩
    refine ⟨first, hfirst, ?_⟩
    rw [if_neg (Nat.not_lt.mpr hmax), bind_eq_ok]
    exact ⟨second, hsecond, by rw [pure_eq_ok, List.append_assoc]⟩

theorem emit_chain_eq_ok {pieces : PieceList t n} :
    (Tree.chain pieces).emit = .ok code ↔
      leafSize t n / instructionUnit ≤ leafMaxDelta ∧ emitChain pieces = .ok code := by
  rw [emit]
  split
  case isTrue hmax => simp [Nat.not_le.mpr hmax]
  case isFalse hmax => rw [mapError_eq_ok, and_iff_right (Nat.not_lt.mp hmax)]

/-- The instructions of a tree fill whole units, and at least one unless a chain is empty. -/
theorem length_emit {tree : Tree t n} (hfilled : tree.Filled) (h : tree.emit = .ok code) :
    instructionUnit ∣ code.length ∧ instructionUnit ≤ code.length := by
  induction tree generalizing code with
  | split dim plane below above ihbelow ihabove =>
    obtain ⟨first, second, hfirst, hsecond, _, rfl⟩ := emit_split_eq_ok.mp h
    have hbelow := ihbelow hfilled.1 hfirst
    have habove := ihabove hfilled.2 hsecond
    rw [List.length_append, List.length_append, SplitPlane.length_encode]
    simp only [splitPlaneSize, instructionUnit] at *
    omega
  | chain pieces =>
    obtain ⟨_, hchain⟩ := emit_chain_eq_ok.mp h
    rw [length_emitChain hchain]
    refine ⟨Nat.dvd_mul_left_of_dvd (unit_dvd_leafSize t n) _, ?_⟩
    have hpos : 0 < pieces.length := List.length_pos_iff.mpr hfilled
    exact Nat.le_trans (unit_le_leafSize t n) (Nat.le_mul_of_pos_left _ hpos)

theorem at?_emit {tree : Tree t n} {before : Bytes} (hfilled : tree.Filled)
    (h : tree.emit = .ok code) (haligned : instructionUnit ∣ before.length) (after : Bytes) :
    Cursor.at? (before ++ (code ++ after)) before.length =
      some ⟨before.length, code ++ after⟩ := by
  have hcode := (length_emit hfilled h).2
  have hreach : before.length + 4 ≤ (before ++ (code ++ after)).length := by
    rw [List.length_append, List.length_append]
    simp only [instructionUnit] at hcode
    omega
  rw [Cursor.at?, if_pos ⟨Nat.mod_eq_zero_of_dvd haligned, Bytes.reaches_iff.mpr hreach⟩,
    List.drop_left]

theorem ways_of_emit_split {dim : Fin n} {plane : Coord t} {below above : Tree t n}
    (hn : n ≤ 255) (hfilled : (Tree.split dim plane below above).Filled)
    (h : (Tree.split dim plane below above).emit = .ok code) (rest : Bytes) :
    ∃ (first second : Bytes) (s : SplitPlane t), below.emit = .ok first ∧
      above.emit = .ok second ∧ s.dim.toNat = dim.val ∧ s.plane = plane ∧
      code = s.encode ++ (first ++ second) ∧
      skip? (code ++ rest) splitPlaneSize = some (first ++ (second ++ rest)) ∧
      jump? (code ++ rest) s.delta.toNat = some (second ++ rest) := by
  obtain ⟨first, second, hfirst, hsecond, hmax, rfl⟩ := emit_split_eq_ok.mp h
  have hbelow := length_emit hfilled.1 hfirst
  have habove := length_emit hfilled.2 hsecond
  let delta := (splitPlaneSize + first.length) / instructionUnit
  let s : SplitPlane t := ⟨UInt8.ofNat dim.val, plane, UInt16.ofNat delta⟩
  have hdim : s.dim.toNat = dim.val := by
    have := dim.isLt
    rw [UInt8.toNat_ofNat']
    omega
  have hdelta : s.delta.toNat = delta := by
    rw [UInt16.toNat_ofNat']
    exact Nat.mod_eq_of_lt (Nat.lt_succ_of_le hmax)
  refine ⟨first, second, s, hfirst, hsecond, hdim, rfl, rfl, ?_, ?_⟩
  · rw [List.append_assoc, List.append_assoc]
    apply skip?_append s.length_encode
    rw [List.length_append]
    simp only [instructionUnit] at hbelow
    omega
  · rw [hdelta, ← List.append_assoc, List.append_assoc]
    simp only [instructionUnit] at hbelow habove
    apply jump?_append
    · simp only [delta, splitPlaneSize, instructionUnit]
      omega
    · rw [List.length_append, s.length_encode]
      simp only [delta, splitPlaneSize, instructionUnit]
      omega
    · rw [List.length_append]
      omega

/-- Evaluation at the front of the instructions of a tree is a search of the tree. -/
theorem evaluate_emit {tree : Tree t n} (hn : n ≤ 255) (hfilled : tree.Filled)
    (h : tree.emit = .ok code) (rest : Bytes) :
    evaluate (code ++ rest) p = .ok (tree.find? p) := by
  induction tree generalizing code rest with
  | split dim plane below above ihbelow ihabove =>
    obtain ⟨first, second, s, hfirst, hsecond, hdim, rfl, rfl, hskip, hjump⟩ :=
      ways_of_emit_split hn hfilled h rest
    have hstep := step_splitPlane (p := p) s hdim (first ++ second ++ rest)
    rw [← List.append_assoc, hskip, hjump] at hstep
    rw [find?]
    by_cases hp : p.get dim < s.plane
    · rw [if_pos hp] at hstep ⊢
      rw [evaluate_of_goto hstep]
      exact ihbelow hfilled.1 hfirst (second ++ rest)
    · rw [if_neg hp] at hstep ⊢
      rw [evaluate_of_goto hstep]
      exact ihabove hfilled.2 hsecond rest
  | chain pieces =>
    obtain ⟨hmax, hchain⟩ := emit_chain_eq_ok.mp h
    exact evaluate_emitChain hchain hfilled hmax rest

end Tree

end RegionLayout
