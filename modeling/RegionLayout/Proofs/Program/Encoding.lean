import RegionLayout.Program.Instruction
import RegionLayout.Proofs.Bytes
import RegionLayout.Rect.Lemmas

namespace RegionLayout

variable {t : CoordType} {n : Nat}

private def header (word : Nat) : Bytes := Bytes.padTo payloadStart (Bytes.ofNat 4 word)

private theorem length_header (word : Nat) : (header word).length = payloadStart := by
  apply Bytes.length_padTo
  rw [Bytes.length_ofNat]
  decide

private theorem headerWord_header {word : Nat} (h : word < 0x100000000) (rest : Bytes) :
    headerWord (header word ++ rest) = word := by
  have hlen : (Bytes.ofNat 4 word).length = 4 := Bytes.length_ofNat 4 word
  rw [headerWord, header, Bytes.padTo, List.append_assoc, List.take_left' hlen, Bytes.toNat_ofNat]
  exact Nat.mod_eq_of_lt h

private theorem drop_header (word : Nat) (rest : Bytes) :
    (header word ++ rest).drop payloadStart = rest := by
  rw [← length_header word, List.drop_left]

private theorem bytes_le (t : CoordType) : t.bytes ≤ 8 := by
  cases t <;> decide

namespace SplitPlane

private def word (s : SplitPlane t) : Nat :=
  s.delta.toNat * 0x10000 + s.dim.toNat * 0x100 + Opcode.splitPlane.code

private theorem word_lt (s : SplitPlane t) : s.word < 0x100000000 := by
  have hdelta : s.delta.toNat < 0x10000 := s.delta.toNat_lt
  have hdim : s.dim.toNat < 0x100 := s.dim.toNat_lt
  simp only [word, Opcode.code]
  omega

private theorem encode_eq (s : SplitPlane t) : ∃ filler, s.encode = header s.word ++
    (s.plane.encode ++ filler) := by
  refine ⟨Bytes.zeros (splitPlaneSize - (header s.word ++ s.plane.encode).length), ?_⟩
  rw [← List.append_assoc]
  rfl

theorem length_encode (s : SplitPlane t) : s.encode.length = splitPlaneSize := by
  apply Bytes.length_padTo
  have hbytes := bytes_le t
  have hheader : (Bytes.padTo payloadStart (Bytes.ofNat 4 (s.delta.toNat * 0x10000 +
    s.dim.toNat * 0x100 + Opcode.splitPlane.code))).length = payloadStart := length_header s.word
  rw [List.length_append, hheader, Coord.length_encode]
  simp only [payloadStart, splitPlaneSize]
  omega

theorem opcodeAt?_encode (s : SplitPlane t) (rest : Bytes) :
    opcodeAt? (s.encode ++ rest) = some .splitPlane := by
  obtain ⟨filler, h⟩ := s.encode_eq
  have hlow : s.word % 0x100 = 1 := by
    simp only [word, Opcode.code]
    omega
  rw [opcodeAt?, h, List.append_assoc, headerWord_header s.word_lt, hlow]
  rfl

/-- A split plane is read back from its encoding, whatever follows it. -/
theorem splitPlaneAt?_encode (s : SplitPlane t) (rest : Bytes) :
    splitPlaneAt? t (s.encode ++ rest) = some s := by
  have hop := s.opcodeAt?_encode rest
  obtain ⟨filler, h⟩ := s.encode_eq
  have hword : headerWord (s.encode ++ rest) = s.word := by
    rw [h, List.append_assoc, headerWord_header s.word_lt]
  have hslice : Bytes.slice? (s.encode ++ rest) payloadStart t.bytes = some s.plane.encode := by
    have hlen : payloadStart + t.bytes ≤ (s.encode ++ rest).length := by
      have hbytes := bytes_le t
      rw [List.length_append, s.length_encode]
      simp only [payloadStart, splitPlaneSize]
      omega
    rw [Bytes.slice?, if_pos (Bytes.reaches_iff.mpr hlen), h, List.append_assoc, drop_header,
      List.append_assoc, ← s.plane.length_encode, List.take_left]
  have hdim : UInt8.ofNat (s.word / 0x100) = s.dim := by
    apply UInt8.toNat_inj.mp
    have hlt : s.dim.toNat < 0x100 := s.dim.toNat_lt
    rw [UInt8.toNat_ofNat']
    simp only [word, Opcode.code]
    omega
  have hdelta : UInt16.ofNat (s.word / 0x10000) = s.delta := by
    apply UInt16.toNat_inj.mp
    have hlt : s.dim.toNat < 0x100 := s.dim.toNat_lt
    have hlt' : s.delta.toNat < 0x10000 := s.delta.toNat_lt
    rw [UInt16.toNat_ofNat']
    simp only [word, Opcode.code]
    omega
  rw [splitPlaneAt?, if_pos hop, hslice, hword, Option.map_some, Coord.decode_encode, hdim,
    hdelta]

end SplitPlane

theorem unit_dvd_leafSize (t : CoordType) (n : Nat) : instructionUnit ∣ leafSize t n :=
  Nat.dvd_mul_left _ _

/-- Leaves fit, unless an odd number of eight byte coordinates makes them end with a unit. -/
theorem leafSize_lt_iff (t : CoordType) (n : Nat) :
    leafSize t n < leafContentSize t n ↔ t.bytes = 8 ∧ n % 2 = 1 := by
  cases t <;>
    simp only [leafSize, leafContentSize, Rect.encodedSize, payloadStart, instructionUnit,
      CoordType.bytes, true_and] <;> omega

theorem unit_le_leafSize (t : CoordType) (n : Nat) : instructionUnit ≤ leafSize t n := by
  simp only [leafSize, payloadStart, instructionUnit]
  omega

private def leafWord (delta : Nat) : Nat := delta * 0x100 + Opcode.affinePiece.code

private theorem leafWord_lt {delta : Nat} (h : delta ≤ leafMaxDelta) :
    leafWord delta < 0x100000000 := by
  simp only [leafMaxDelta] at h
  simp only [leafWord, Opcode.code]
  omega

/-- What a leaf has after the base of its rule. -/
private def leafTail (leaf : Piece t n) : Bytes :=
  leaf.rule.strides.encode ++
    (leaf.bounds.encode ++ Bytes.zeros (leafSize t n - leafContentSize t n))

private theorem length_leafContent (leaf : Piece t n) (delta : Nat) :
    (header (leafWord delta) ++ Bytes.ofWord leaf.rule.base ++ leaf.rule.strides.encode ++
      leaf.bounds.encode).length = leafContentSize t n := by
  simp only [List.length_append, length_header, Bytes.length_ofWord, Strides.length_encode,
    Rect.length_encode, leafContentSize]
  omega

section Leaf

variable {leaf : Piece t n} {delta : Nat} {code : Bytes}

private theorem encodeLeaf_eq (h : encodeLeaf leaf delta = .ok code) :
    leafContentSize t n ≤ leafSize t n ∧
      code = header (leafWord delta) ++ (Bytes.ofWord leaf.rule.base ++ leafTail leaf) := by
  rw [encodeLeaf] at h
  split at h
  case isTrue hfits =>
    refine ⟨hfits, ?_⟩
    rw [← Except.ok.inj h, Bytes.padTo, leafTail, ← length_leafContent leaf delta]
    simp only [← List.append_assoc]
    rfl
  case isFalse => contradiction

theorem length_of_encodeLeaf (h : encodeLeaf leaf delta = .ok code) :
    code.length = leafSize t n := by
  rw [encodeLeaf] at h
  split at h
  case isTrue hfits =>
    rw [← Except.ok.inj h]
    exact Bytes.length_padTo (le_of_eq_of_le (length_leafContent leaf delta) hfits)
  case isFalse => contradiction

theorem part_of_encodeLeaf (h : encodeLeaf leaf delta = .ok code) :
    Bytes.part code payloadStart 8 = Bytes.ofWord leaf.rule.base := by
  obtain ⟨_, rfl⟩ := encodeLeaf_eq h
  rw [← length_header (leafWord delta), ← Bytes.length_ofWord leaf.rule.base, Bytes.part_append]

theorem encodeLeaf_overlay (h : encodeLeaf leaf delta = .ok code) (base : UInt64) :
    encodeLeaf { leaf with rule := { leaf.rule with base } } delta =
      .ok (Bytes.overlay code payloadStart (Bytes.ofWord base)) := by
  obtain ⟨hfits, rfl⟩ := encodeLeaf_eq h
  have hlen : (Bytes.ofWord base).length = (Bytes.ofWord leaf.rule.base).length := by
    rw [Bytes.length_ofWord, Bytes.length_ofWord]
  obtain ⟨code', h'⟩ : ∃ code', encodeLeaf
      ({ leaf with rule := { leaf.rule with base } } : Piece t n) delta = .ok code' :=
    ⟨_, if_pos hfits⟩
  rw [h', (encodeLeaf_eq h').2, ← length_header (leafWord delta), Bytes.overlay_append _ _ _ hlen]
  rfl

theorem error_of_encodeLeaf {f : Fault} (h : encodeLeaf leaf delta = .error f) :
    f = .indexOutOfBounds ∧ leafSize t n < leafContentSize t n := by
  rw [encodeLeaf] at h
  split at h
  case isTrue => contradiction
  case isFalse hfits => exact ⟨(Except.error.inj h).symm, Nat.not_le.mp hfits⟩

theorem opcodeAt?_encodeLeaf (h : encodeLeaf leaf delta = .ok code) (hdelta : delta ≤ leafMaxDelta)
    (rest : Bytes) : opcodeAt? (code ++ rest) = some .affinePiece := by
  obtain ⟨_, rfl⟩ := encodeLeaf_eq h
  have hlow : leafWord delta % 0x100 = 2 := by
    simp only [leafWord, Opcode.code]
    omega
  rw [opcodeAt?, List.append_assoc, headerWord_header (leafWord_lt hdelta), hlow]
  rfl

/-- A leaf and its jump are read back from their encoding, whatever follows them. -/
theorem leafAt?_encodeLeaf (h : encodeLeaf leaf delta = .ok code) (hdelta : delta ≤ leafMaxDelta)
    (rest : Bytes) : leafAt? t n (code ++ rest) = .ok (some (leaf, delta)) := by
  have hop := opcodeAt?_encodeLeaf h hdelta rest
  have hlen := length_of_encodeLeaf h
  obtain ⟨hfits, hcode⟩ := encodeLeaf_eq h
  have hreach : leafSize t n ≤ (code ++ rest).length := by
    rw [List.length_append, hlen]
    exact Nat.le_add_right _ _
  have hjump : headerWord (code ++ rest) / 0x100 = delta := by
    rw [hcode, List.append_assoc, headerWord_header (leafWord_lt hdelta)]
    simp only [leafWord, Opcode.code]
    omega
  have hbase : (code.drop payloadStart).take 8 = Bytes.ofWord leaf.rule.base := by
    rw [hcode, drop_header, ← Bytes.length_ofWord leaf.rule.base, List.take_left]
  have hstrides : code.drop (payloadStart + 8) = leafTail leaf := by
    rw [← List.drop_drop, hcode, drop_header]
    exact List.drop_left' (Bytes.length_ofWord leaf.rule.base)
  have hbounds : code.drop (payloadStart + 8 + 8 * n) =
      leaf.bounds.encode ++ Bytes.zeros (leafSize t n - leafContentSize t n) := by
    rw [← List.drop_drop, hstrides]
    apply List.drop_left'
    rw [Strides.length_encode, Nat.mul_comm]
  have hleaf : decodeLeaf t n code = leaf := by
    rw [decodeLeaf, hbase, hstrides, hbounds, Bytes.toWord_ofWord, leafTail,
      Strides.decode_encode, Rect.decode_encode]
  rw [leafAt?, if_pos ⟨hop, Bytes.reaches_iff.mpr hreach⟩, if_pos hfits, hjump]
  rw [← hlen, List.take_left, hleaf]

end Leaf

/-- Leaves and planes fill the bytes they have been given and are read back, whatever follows
them, with every base, stride, corner, dimension and jump there is room for in the header. Only a
leaf of an odd number of eight byte coordinates cannot be encoded at all: its base is not counted
in the bytes it has been given, and the last coordinate runs over them. -/
theorem instructions_read_back (t : CoordType) (n : Nat) :
    (∀ (leaf : Piece t n) (delta : Nat), delta ≤ leafMaxDelta →
      if t.bytes = 8 ∧ n % 2 = 1 then encodeLeaf leaf delta = .error .indexOutOfBounds
      else ∃ code, encodeLeaf leaf delta = .ok code ∧ code.length = leafSize t n ∧
        ∀ rest, leafAt? t n (code ++ rest) = .ok (some (leaf, delta))) ∧
    ∀ s : SplitPlane t, s.encode.length = splitPlaneSize ∧
      ∀ rest, splitPlaneAt? t (s.encode ++ rest) = some s := by
  constructor
  · intro leaf delta hdelta
    split
    case isTrue hodd =>
      have hover := (leafSize_lt_iff t n).mpr hodd
      rw [encodeLeaf, if_neg (Nat.not_le.mpr hover)]
    case isFalse hfits =>
      rw [← leafSize_lt_iff, Nat.not_lt] at hfits
      obtain ⟨code, h⟩ : ∃ code, encodeLeaf leaf delta = .ok code := ⟨_, if_pos hfits⟩
      refine ⟨code, h, length_of_encodeLeaf h, ?_⟩
      exact leafAt?_encodeLeaf h hdelta
  · intro s
    exact ⟨s.length_encode, s.splitPlaneAt?_encode⟩

theorem instructions_read_back_farthest :
    ∃ code, encodeLeaf (⟨Rect.empty .i64 2, ⟨16, #v[8, 64]⟩⟩ : Piece .i64 2) leafMaxDelta =
        .ok code ∧ code.length = 64 ∧
      leafAt? .i64 2 (code ++ [1]) =
        .ok (some (⟨Rect.empty .i64 2, ⟨16, #v[8, 64]⟩⟩, leafMaxDelta)) := by
  have h := (instructions_read_back .i64 2).1 ⟨Rect.empty .i64 2, ⟨16, #v[8, 64]⟩⟩ leafMaxDelta
    (Nat.le_refl _)
  rw [if_neg (by decide)] at h
  obtain ⟨code, hcode, hlen, hread⟩ := h
  exact ⟨code, hcode, hlen, hread [1]⟩

/-- The leaf of a row of eight byte coordinates, the shortest that does not fit. -/
theorem not_all_leaves_read_back :
    ¬ ∀ (t : CoordType) (n : Nat) (leaf : Piece t n) (delta : Nat), 1 ≤ n → n ≤ 255 →
      delta ≤ leafMaxDelta → ∃ code, encodeLeaf leaf delta = .ok code ∧
        code.length = leafSize t n ∧ leafAt? t n code = .ok (some (leaf, delta)) := by
  intro h
  let row : Piece .i64 1 := ⟨⟨#v[Coord.wrap .i64 0], #v[Coord.wrap .i64 3]⟩, ⟨16, #v[8]⟩⟩
  have hrow : encodeLeaf row 0 = .error .indexOutOfBounds := rfl
  obtain ⟨code, hcode, _⟩ := h .i64 1 row 0 (by decide) (by decide) (by decide)
  rw [hrow] at hcode
  contradiction

end RegionLayout
