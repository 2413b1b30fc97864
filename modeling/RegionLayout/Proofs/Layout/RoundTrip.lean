import RegionLayout.Proofs.FieldMap
import RegionLayout.Proofs.Layout.Reading
import RegionLayout.Rect.Lemmas

/-!
# Serialized layouts are read back

The one thing a layout can hold that its reader refuses is a field of a list that it does not have.
Fields are written in ascending order, so the reader names the first of them.
-/

namespace RegionLayout

open Reader

variable {t : CoordType} {n : Nat}

/-- The numbers of things in a layout fit the places they are written to: the dimensions four
bytes, and the lengths of the lists a machine word. Only from `2 ^ 32` dimensions on is the number
of them cut off when it is written, and a rectangle then takes 32 GiB or more. -/
structure Layout.Countable (layout : Layout t n) : Prop where
  dims : n < Bytes.limit 4
  rects : layout.space.rects.length < wordLimit
  lists : layout.lists.length < wordLimit
  pieces : ∀ pieces ∈ layout.lists, List.length pieces < wordLimit

private theorem takes_byte (b : UInt8) : Takes (nat 1) [b] b.toNat := by
  have h : Bytes.ofNat 1 b.toNat = [b] := by
    have := Bytes.ofNat_toNat [b]
    rwa [List.length_singleton] at this
  rw [← h]
  exact takes_nat b.toNat_lt

theorem takes_rect (r : Rect t n) : Takes (readRect t n) r.encode r := by
  have h := (takes_take r.length_encode).map (Rect.decode t n)
  have hr : Rect.decode t n r.encode = r := by
    have := Rect.decode_encode r []
    rwa [List.append_nil] at this
  rwa [hr] at h

private theorem takes_strides {α : Type} (s : Strides n) (g : Strides n → α) :
    Takes (take (8 * n) >>= fun bs => pure (g (Strides.decode n bs))) s.encode (g s) := by
  have hlen : s.encode.length = 8 * n := by rw [s.length_encode, Nat.mul_comm]
  have hs : Strides.decode n s.encode = s := by
    have := Strides.decode_encode s []
    rwa [List.append_nil] at this
  have h := (takes_take hlen).map fun bs => g (Strides.decode n bs)
  rwa [hs] at h

theorem takes_piece (q : Piece t n) : Takes (readPiece t n) q.encode q := by
  rw [readPiece, Piece.encode, List.append_assoc, List.append_assoc]
  refine (takes_byte _).bind ?_
  rw [UInt8.ofNat_toNat, PieceKind.ofTag?_tag]
  refine (takes_rect q.bounds).bind ?_
  refine (takes_word q.rule.base).bind ?_
  exact takes_strides q.rule.strides fun strides => Piece.mk q.bounds ⟨q.rule.base, strides⟩

theorem takes_space {space : IndexSpace t n} (hlen : space.rects.length < wordLimit) :
    Takes (readSpace t n) space.encode space := by
  cases space with
  | dense bounds =>
    rw [readSpace, IndexSpace.encode]
    refine (takes_byte 1).bind ?_
    rw [if_pos (by decide)]
    exact (takes_rect bounds).map IndexSpace.dense
  | sparse rects inhabited disjoint =>
    rw [readSpace, IndexSpace.encode]
    refine (takes_byte 0).bind ?_
    rw [if_neg (by decide)]
    have hcounted : Takes (counted (readRect t n)) (encodeCounted Rect.encode rects) rects :=
      takes_counted hlen fun r _ => takes_rect r
    have hnone : firstOverlap? rects = none := (firstOverlap?_eq_none_iff rects).mpr disjoint
    have hkeep : rects.filter (fun r => decide (¬ r.IsEmpty)) = rects :=
      List.filter_eq_self.mpr fun r hr => decide_eq_true (inhabited r hr)
    rw [← List.append_nil (encodeCounted Rect.encode rects)]
    refine hcounted.bind ?_
    split
    case h_1 hsome =>
      rw [hnone] at hsome
      contradiction
    case h_2 hdisjoint =>
      have hspace : IndexSpace.ofDisjoint rects ((firstOverlap?_eq_none_iff rects).mp hdisjoint) =
          .sparse rects inhabited disjoint := by
        simp only [IndexSpace.ofDisjoint, hkeep]
      rw [hspace]
      exact .pure _

theorem takes_field {lists : Nat} {field : FieldId × FieldSlot}
    (h : field.2.list.toNat < lists) : Takes (readField lists) (encodeField field) field := by
  rw [readField, encodeField, List.append_assoc, List.append_assoc]
  refine (takes_nat field.1.toNat_lt).bind ?_
  refine (takes_word field.2.list).bind ?_
  rw [if_neg (Nat.not_le.mpr h), UInt32.ofNat_toNat]
  refine (takes_word field.2.offset).bind ?_
  exact (takes_word field.2.size).map fun size =>
    (field.1, FieldSlot.mk field.2.list field.2.offset size)

theorem refuses_field {lists : Nat} {field : FieldId × FieldSlot}
    (h : lists ≤ field.2.list.toNat) :
    Refuses (readField lists) (encodeField field)
      (.invalidFieldList field.1 field.2.list.toNat lists) := by
  rw [readField, encodeField, List.append_assoc, List.append_assoc]
  refine (takes_nat field.1.toNat_lt).bind_refuses ?_
  refine (takes_word field.2.list).bind_refuses ?_
  rw [if_pos h, UInt32.ofNat_toNat]
  exact fun _ => rfl

theorem takes_header (hn : n < Bytes.limit 4) :
    Takes (readHeader t n) (magicBytes ++ Bytes.ofNat 4 formatVersion ++ Bytes.ofNat 4 n ++
      [t.tag, UInt8.ofNat t.bytes]) () := by
  have hbytes : (UInt8.ofNat t.bytes).toNat = t.bytes := by cases t <;> rfl
  have htags : ¬ (t.tag.toNat ≠ t.tag.toNat ∨ (UInt8.ofNat t.bytes).toNat ≠ t.bytes) := by
    simp [hbytes]
  have hmagic : magicBytes.length = 4 := rfl
  have hversion : formatVersion < Bytes.limit 4 := by decide
  simp only [readHeader, List.append_assoc]
  refine (takes_take hmagic).bind ?_
  rw [if_neg (by simp)]
  refine (takes_nat hversion).bind ?_
  rw [if_neg (by simp)]
  refine (takes_nat hn).bind ?_
  rw [if_neg (by simp)]
  change Takes _ ([t.tag] ++ ([UInt8.ofNat t.bytes] ++ [])) _
  refine (takes_byte t.tag).bind ?_
  refine (takes_byte (UInt8.ofNat t.bytes)).bind ?_
  rw [if_neg htags]
  exact .pure ()

/-- Reads a layout up to its fields. -/
private def readBody (t : CoordType) (n : Nat) : Reader (Layout t n) := do
  readHeader t n
  let bytesUsed ← word
  let alignment ← word
  let space ← readSpace t n
  let lists ← counted (counted (readPiece t n))
  return { space, lists, fields := FieldMap.empty, bytesUsed, alignment }

/-- Reads the fields of a layout that is known up to them. -/
private def readFields (layout : Layout t n) : Reader (Layout t n) := do
  let fields ← counted (readField layout.lists.length)
  return { layout with fields := FieldMap.ofList fields }

private theorem read_eq : Layout.read t n = readBody t n >>= readFields := by
  simp only [Layout.read, readBody, bind_assoc, pure_bind]
  rfl

section Whole

variable {layout : Layout t n}

private theorem takes_body (h : layout.Countable) :
    Takes (readBody t n) (layout.encodeHeader ++ layout.space.encode ++
      encodeCounted (encodeCounted Piece.encode) layout.lists)
      { layout with fields := FieldMap.empty } := by
  have hlists : Takes (counted (counted (readPiece t n)))
      (encodeCounted (encodeCounted Piece.encode) layout.lists) layout.lists :=
    takes_counted h.lists fun pieces hpieces =>
      takes_counted (h.pieces pieces hpieces) fun q _ => takes_piece q
  rw [readBody, Layout.encodeHeader, List.append_assoc, List.append_assoc, List.append_assoc]
  refine (takes_header h.dims).bind ?_
  refine (takes_word layout.bytesUsed).bind ?_
  refine (takes_word layout.alignment).bind ?_
  refine (takes_space h.rects).bind ?_
  exact hlists.map fun lists =>
    Layout.mk layout.space lists FieldMap.empty layout.bytesUsed layout.alignment

private theorem length_fields_lt (m : FieldMap FieldSlot) : m.entries.length < wordLimit :=
  Nat.lt_of_le_of_lt m.length_entries_le (by decide)

/-- A layout whose fields are of its own lists is read back from the front of any input, with the
rest left over, and from no part of its bytes. -/
theorem takes_layout (h : layout.Countable)
    (hfields : ∀ field ∈ layout.fields.entries, field.2.list.toNat < layout.lists.length) :
    Takes (Layout.read t n) layout.encode layout := by
  have hentries : Takes (counted (readField layout.lists.length))
      (encodeCounted encodeField layout.fields.entries) layout.fields.entries :=
    takes_counted (length_fields_lt _) fun field hfield => takes_field (hfields field hfield)
  have hrest := hentries.map fun fields =>
    Layout.mk layout.space layout.lists (FieldMap.ofList fields) layout.bytesUsed layout.alignment
  rw [FieldMap.ofList_entries] at hrest
  rw [read_eq, Layout.encode]
  exact (takes_body h).bind hrest

theorem refuses_layout (h : layout.Countable) {before after : List (FieldId × FieldSlot)}
    {bad : FieldId × FieldSlot} (hentries : layout.fields.entries = before ++ bad :: after)
    (hbefore : ∀ field ∈ before, field.2.list.toNat < layout.lists.length)
    (hbad : layout.lists.length ≤ bad.2.list.toNat) :
    Refuses (Layout.read t n) layout.encode
      (.invalidFieldList bad.1 bad.2.list.toNat layout.lists.length) := by
  have hlen := length_fields_lt layout.fields
  rw [hentries] at hlen
  rw [read_eq, Layout.encode, hentries]
  refine (takes_body h).bind_refuses ?_
  exact (refuses_counted hlen (fun field hfield => takes_field (hbefore field hfield))
    (refuses_field hbad)).bind

private theorem exists_first_unlisted
    (h : ¬ ∀ field ∈ layout.fields.entries, field.2.list.toNat < layout.lists.length) :
    ∃ before bad after, layout.fields.entries = before ++ bad :: after ∧
      (∀ field ∈ before, field.2.list.toNat < layout.lists.length) ∧
      layout.lists.length ≤ bad.2.list.toNat := by
  have hfound : (layout.fields.entries.find? fun field =>
      decide (layout.lists.length ≤ field.2.list.toNat)).isSome := by
    simp only [Classical.not_forall, Nat.not_lt] at h
    obtain ⟨field, hfield, hbad⟩ := h
    exact List.find?_isSome.mpr ⟨field, hfield, decide_eq_true hbad⟩
  obtain ⟨bad, hbad⟩ := Option.isSome_iff_exists.mp hfound
  obtain ⟨hout, before, after, hentries, hbefore⟩ := List.find?_eq_some_iff_append.mp hbad
  refine ⟨before, bad, after, hentries, ?_, of_decide_eq_true hout⟩
  intro field hfield
  have := hbefore field hfield
  simpa using this

end Whole

/-- Every field is of a list that the layout has. -/
def Layout.Listed (layout : Layout t n) : Prop :=
  ∀ id slot, layout.fields.get? id = some slot → slot.list.toNat < layout.lists.length

theorem Layout.listed_iff {layout : Layout t n} : layout.Listed ↔
    ∀ field ∈ layout.fields.entries, field.2.list.toNat < layout.lists.length := by
  constructor
  · exact fun hall field hfield => hall _ _ (layout.fields.get?_eq_some_iff.mpr hfield)
  · exact fun hall id slot hslot => hall _ (layout.fields.get?_eq_some_iff.mp hslot)

/-- A layout is read back from its bytes, whatever follows them, and exactly those are taken, as
long as its fields are of its lists; then no part of the bytes that lacks some at the end is read.
Otherwise the reader names the first field, by number, that is not. -/
theorem read_encode (layout : Layout t n) (h : layout.Countable) :
    (layout.Listed →
      (∀ rest, Layout.read t n (layout.encode ++ rest) = .ok (layout, rest)) ∧
        ∀ k < layout.encode.length,
          Layout.read t n (layout.encode.take k) = .error .endOfInput) ∧
    (¬ layout.Listed →
      ∃ id slot, layout.fields.get? id = some slot ∧
        layout.lists.length ≤ slot.list.toNat ∧
        (∀ id' slot', layout.fields.get? id' = some slot' →
          layout.lists.length ≤ slot'.list.toNat → id ≤ id') ∧
        ∀ rest, Layout.read t n (layout.encode ++ rest) =
          .error (.invalidFieldList id slot.list.toNat layout.lists.length)) := by
  constructor
  · intro hall
    have htakes := takes_layout h (Layout.listed_iff.mp hall)
    exact ⟨htakes.whole, htakes.short⟩
  · intro hnot
    rw [Layout.listed_iff] at hnot
    obtain ⟨before, bad, after, hentries, hbefore, hbad⟩ := exists_first_unlisted hnot
    have hmem : bad ∈ layout.fields.entries := by
      rw [hentries]
      exact List.mem_append_right _ List.mem_cons_self
    refine ⟨bad.1, bad.2, layout.fields.get?_eq_some_iff.mpr hmem, hbad, ?_,
      refuses_layout h hentries hbefore hbad⟩
    intro id' slot' hslot' hbad'
    have hmem' := layout.fields.get?_eq_some_iff.mp hslot'
    have hascending := layout.fields.ascending
    rw [Ascending, hentries] at hascending
    rw [hentries] at hmem'
    rcases List.mem_append.mp hmem' with hmem' | hmem'
    · exact absurd (hbefore _ hmem') (Nat.not_lt.mpr hbad')
    · rcases List.mem_cons.mp hmem' with rfl | hmem'
      · exact UInt32.le_refl _
      · have hafter := (List.pairwise_cons.mp (List.pairwise_append.mp hascending).2.1).1
        exact UInt32.le_of_lt (hafter _ hmem')

private def interval (lo hi : Int) : Rect .i64 1 := ⟨#v[Coord.wrap .i64 lo], #v[Coord.wrap .i64 hi]⟩

/-- A sparse space, a piece without points, and one whose base has wrapped around. -/
def scattered : Layout .i64 1 where
  space := .sparse [interval 5 9, interval (-3) (-1)] (by decide) (by decide)
  lists := [[], [⟨interval 1 0, ⟨0, #v[8]⟩⟩, ⟨interval (-3) 9, ⟨0 - 8, #v[8]⟩⟩]]
  fields := FieldMap.ofList [(4, ⟨1, 0, 8⟩), (2, ⟨0, 4, 2⟩)]
  bytesUsed := 72
  alignment := 8

theorem read_encode_scattered :
    scattered.Countable ∧ scattered.Listed ∧
      (∀ rest, Layout.read .i64 1 (scattered.encode ++ rest) = .ok (scattered, rest)) ∧
      ∀ k < scattered.encode.length,
        Layout.read .i64 1 (scattered.encode.take k) = .error .endOfInput := by
  have hcountable : scattered.Countable :=
    ⟨by decide, by decide, by decide, by decide⟩
  have hlisted : scattered.Listed := Layout.listed_iff.mpr (by decide)
  exact ⟨hcountable, hlisted, (read_encode scattered hcountable).1 hlisted⟩

end RegionLayout
