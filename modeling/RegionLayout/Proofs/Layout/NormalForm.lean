import RegionLayout.Proofs.Layout.Checked
import RegionLayout.Proofs.Layout.RoundTrip
import Mathlib.Data.List.Flatten

/-!
# What has been read is in normal form

Many byte strings are read as the same layout: a sparse space may list rectangles without points,
and fields may come in any order and more than once. The reader returns it as it would be
written.
-/

namespace RegionLayout

variable {α β : Type} {t : CoordType} {n : Nat}

namespace Reader

/-- What the reader returns it has taken from the front of its input, and the property holds of it
and of the number of bytes taken. -/
def Ensures (r : Reader α) (P : α → Nat → Prop) : Prop :=
  ∀ bs a rest, r bs = .ok (a, rest) →
    ∃ taken, bs = taken ++ rest ∧ Takes r taken a ∧ P a taken.length

namespace Ensures

variable {r : Reader α} {f : α → Reader β} {P : α → Nat → Prop} {Q : β → Nat → Prop}

theorem pure {a : α} (h : P a 0) : Ensures (pure a) P := by
  intro bs a' rest hread
  cases hread
  exact ⟨[], rfl, .pure _, h⟩

theorem fail (e : ReadError) : Ensures (fail e) P := by
  intro bs a rest hread
  contradiction

theorem bind (hr : Ensures r P)
    (hf : ∀ a k, P a k → Ensures (f a) fun b k' => Q b (k + k')) : Ensures (r >>= f) Q := by
  intro bs b rest hread
  cases hfirst : r bs with
  | error e =>
    rw [bind_of_error hfirst] at hread
    contradiction
  | ok parts =>
    rw [bind_of_ok hfirst] at hread
    obtain ⟨taken, rfl, htakes, hP⟩ := hr bs parts.1 parts.2 hfirst
    obtain ⟨taken', hrest, htakes', hQ⟩ := hf parts.1 _ hP _ _ _ hread
    refine ⟨taken ++ taken', ?_, htakes.bind htakes', ?_⟩
    · rw [hrest, List.append_assoc]
    · rwa [List.length_append]

theorem mono {P' : α → Nat → Prop} (h : Ensures r P) (himp : ∀ a k, P a k → P' a k) :
    Ensures r P' := by
  intro bs a rest hread
  obtain ⟨taken, hbs, htakes, hP⟩ := h bs a rest hread
  exact ⟨taken, hbs, htakes, himp _ _ hP⟩

end Ensures

theorem ensures_take (count : Nat) :
    Ensures (take count) fun bs k => bs.length = count ∧ k = count := by
  intro bs bs' rest hread
  rw [take_eq] at hread
  split at hread
  case isTrue hle =>
    cases hread
    have hlen : (bs.take count).length = count := List.length_take_of_le hle
    exact ⟨bs.take count, (List.take_append_drop count bs).symm, takes_take hlen, hlen, hlen⟩
  case isFalse => contradiction

theorem ensures_nat (width : Nat) :
    Ensures (nat width) fun x k => x < Bytes.limit width ∧ k = width := by
  refine (ensures_take width).bind ?_
  rintro bs k ⟨hlen, rfl⟩
  exact .pure ⟨hlen ▸ Bytes.toNat_lt bs, rfl⟩

theorem ensures_word : Ensures word fun _ k => k = 8 := by
  refine (ensures_take 8).bind ?_
  rintro bs k ⟨_, rfl⟩
  exact .pure rfl

section Counted

variable {item : Reader α} {encode : α → Bytes} {R : α → Prop}

theorem ensures_many (h : Ensures item fun a k => (encode a).length ≤ k ∧ R a) (count : Nat) :
    Ensures (many item count) fun items k =>
      items.length = count ∧ (items.flatMap encode).length ≤ k ∧ ∀ a ∈ items, R a := by
  induction count with
  | zero => exact .pure ⟨rfl, Nat.le_refl _, by simp⟩
  | succ count ih =>
    refine h.bind ?_
    rintro a k ⟨hle, ha⟩
    refine ih.bind ?_
    rintro items k' ⟨hlen, hle', hitems⟩
    refine .pure ⟨congrArg (· + 1) hlen, ?_, List.forall_mem_cons.mpr ⟨ha, hitems⟩⟩
    rw [List.flatMap_cons, List.length_append]
    omega

theorem ensures_counted (h : Ensures item fun a k => (encode a).length ≤ k ∧ R a) :
    Ensures (counted item) fun items k => items.length < wordLimit ∧
      (encodeCounted encode items).length ≤ k ∧ ∀ a ∈ items, R a := by
  refine ensures_word.bind ?_
  rintro count k rfl
  refine (ensures_many h count.toNat).mono ?_
  rintro items k ⟨hlen, hle, hitems⟩
  refine ⟨hlen ▸ count.toNat_lt, ?_, hitems⟩
  rw [encodeCounted, List.length_append, Bytes.length_ofWord]
  omega

end Counted

end Reader

open Reader

theorem ensures_rect (t : CoordType) (n : Nat) :
    Ensures (readRect t n) fun r k => r.encode.length ≤ k ∧ True := by
  refine (ensures_take _).bind ?_
  rintro bs k ⟨_, rfl⟩
  exact .pure ⟨Nat.le_of_eq (Rect.length_encode _), trivial⟩

theorem ensures_piece (t : CoordType) (n : Nat) :
    Ensures (readPiece t n) fun q k => q.encode.length ≤ k ∧ True := by
  refine (ensures_nat 1).bind ?_
  rintro tag k ⟨_, rfl⟩
  split
  case h_1 => exact .fail _
  case h_2 =>
    refine (ensures_rect t n).bind ?_
    rintro bounds k ⟨hbounds, _⟩
    refine ensures_word.bind ?_
    rintro base k' rfl
    refine (ensures_take _).bind ?_
    rintro strides k' ⟨_, rfl⟩
    refine .pure ⟨?_, trivial⟩
    simp only [Piece.encode, List.length_append, Bytes.length_ofWord, Strides.length_encode,
      List.length_singleton]
    omega

theorem ensures_space (t : CoordType) (n : Nat) :
    Ensures (readSpace t n) fun space k =>
      space.encode.length ≤ k ∧ space.rects.length < wordLimit := by
  refine (ensures_nat 1).bind ?_
  rintro dense k ⟨_, rfl⟩
  split
  case isTrue =>
    refine (ensures_rect t n).bind ?_
    rintro bounds k ⟨hbounds, _⟩
    have hone : (IndexSpace.dense bounds).rects.length < wordLimit := by
      rw [IndexSpace.rects, List.length_singleton]
      decide
    refine .pure ⟨?_, hone⟩
    rw [IndexSpace.encode, List.length_append, List.length_singleton]
    omega
  case isFalse =>
    refine (ensures_counted (ensures_rect t n)).bind ?_
    rintro rects k ⟨hlen, hrects, _⟩
    split
    case h_1 => exact .fail _
    case h_2 =>
      have hkept : (rects.filter fun r => ¬ r.IsEmpty).Sublist rects := List.filter_sublist
      have hbytes := (hkept.flatMap Rect.encode).length_le
      refine .pure ⟨?_, Nat.lt_of_le_of_lt hkept.length_le hlen⟩
      simp only [IndexSpace.ofDisjoint, IndexSpace.encode, encodeCounted, List.length_append,
        Bytes.length_ofWord, List.length_singleton] at hrects ⊢
      omega

private theorem length_encodeField (field : FieldId × FieldSlot) :
    (encodeField field).length = 28 := by
  simp only [encodeField, List.length_append, Bytes.length_ofNat, Bytes.length_ofWord]

private theorem length_fields (fields : List (FieldId × FieldSlot)) :
    (encodeCounted encodeField fields).length = 8 + fields.length * 28 := by
  simp only [encodeCounted, List.length_append, Bytes.length_ofWord, List.length_flatMap,
    length_encodeField, List.map_const', List.sum_replicate_nat]

theorem ensures_field (lists : Nat) :
    Ensures (readField lists) fun field k =>
      (encodeField field).length ≤ k ∧ field.2.list.toNat < lists := by
  refine (ensures_nat 4).bind ?_
  rintro id k ⟨_, rfl⟩
  refine ensures_word.bind ?_
  rintro list k rfl
  split
  case isTrue => exact .fail _
  case isFalse hlist =>
    refine ensures_word.bind ?_
    rintro offset k rfl
    refine ensures_word.bind ?_
    rintro size k rfl
    exact .pure ⟨Nat.le_of_eq (length_encodeField _), Nat.not_le.mp hlist⟩

theorem ensures_header (t : CoordType) (n : Nat) :
    Ensures (readHeader t n) fun _ k => n < Bytes.limit 4 ∧ k = 14 := by
  refine (ensures_take 4).bind ?_
  rintro magic k ⟨_, rfl⟩
  split
  case isTrue => exact .fail _
  case isFalse =>
    refine (ensures_nat 4).bind ?_
    rintro version k ⟨_, rfl⟩
    split
    case isTrue => exact .fail _
    case isFalse =>
      refine (ensures_nat 4).bind ?_
      rintro dims k ⟨hdims, rfl⟩
      split
      case isTrue => exact .fail _
      case isFalse hn =>
        refine (ensures_nat 1).bind ?_
        rintro tag k ⟨_, rfl⟩
        refine (ensures_nat 1).bind ?_
        rintro bytes k ⟨_, rfl⟩
        split
        case isTrue => exact .fail _
        case isFalse => exact .pure ⟨Decidable.not_not.mp hn ▸ hdims, rfl⟩

theorem ensures_layout (t : CoordType) (n : Nat) :
    Ensures (Layout.read t n) fun layout k =>
      layout.encode.length ≤ k ∧ layout.Countable ∧ layout.Listed := by
  refine (ensures_header t n).bind ?_
  rintro _ k ⟨hn, rfl⟩
  refine ensures_word.bind ?_
  rintro bytesUsed k rfl
  refine ensures_word.bind ?_
  rintro alignment k rfl
  refine (ensures_space t n).bind ?_
  rintro space k ⟨hspace, hrects⟩
  have hpieces := ensures_counted ((ensures_counted (ensures_piece t n)).mono
    fun pieces k h => ⟨h.2.1, h.1⟩)
  refine hpieces.bind ?_
  rintro lists k ⟨hlists, hbytes, hlens⟩
  refine (ensures_counted (ensures_field lists.length)).bind ?_
  rintro fields k ⟨_, hfields, hlisted⟩
  refine .pure ⟨?_, ⟨hn, hrects, hlists, hlens⟩, ?_⟩
  · have hentries := FieldMap.length_ofList_le fields
    have hmagic : magicBytes.length = 4 := rfl
    rw [length_fields] at hfields
    simp only [Layout.encode, Layout.encodeHeader, List.length_append, List.length_cons,
      List.length_nil, Bytes.length_ofNat, Bytes.length_ofWord, length_fields, hmagic]
    omega
  · intro id slot hslot
    exact hlisted _ (FieldMap.mem_of_get?_ofList hslot)

/-- The rectangles have points and do not overlap, and the bounds are the least rectangle around
them. -/
structure IndexSpace.Tidy (space : IndexSpace t n) : Prop where
  inhabited : ∀ r ∈ space.rects, ¬ r.IsEmpty
  disjoint : PairwiseDisjoint space.rects
  bounded : ∀ r ∈ space.rects, r ⊆ space.bounds
  least : ∀ box, (∀ r ∈ space.rects, r ⊆ box) → space.bounds ⊆ box

theorem IndexSpace.tidy_of_sparse {space : IndexSpace t n} (h : space.isDense = false) :
    space.Tidy := by
  cases space with
  | dense bounds => contradiction
  | sparse rects inhabited disjoint =>
    exact ⟨inhabited, disjoint, fun r hr => Rect.subset_hullOf hr, fun box => Rect.hullOf_subset⟩

/-- No bytes make the reader ask for what is not there: with every check made it ends the same
way, with a layout or a reason. A layout has been read from a part of the input in front of the
rest, and from this part whatever follows it. Its fields are of its lists, and a sparse space is
tidy. Written again it takes no more bytes than were read, and it is read back from them. -/
theorem read_normalizes (t : CoordType) (n : Nat) (bs : Bytes) :
    (∀ fault, CheckedReader.layout t n bs ≠ .error (.fault fault)) ∧
    CheckedReader.layout t n bs = (Layout.read t n bs).mapError .error ∧
    ∀ layout rest, Layout.read t n bs = .ok (layout, rest) → ∃ taken, bs = taken ++ rest ∧
      layout.Listed ∧ (layout.space.isDense = false → layout.space.Tidy) ∧
      (∀ suffix, Layout.read t n (taken ++ suffix) = .ok (layout, suffix)) ∧
      layout.encode.length ≤ taken.length ∧
      ∀ suffix, Layout.read t n (layout.encode ++ suffix) = .ok (layout, suffix) := by
  have hchecked : CheckedReader.layout t n bs = (Layout.read t n bs).mapError .error := by
    rw [CheckedReader.layout_eq, CheckedReader.lift]
  refine ⟨?_, hchecked, ?_⟩
  · intro fault hfault
    rw [hchecked] at hfault
    cases hread : Layout.read t n bs with
    | error e =>
      rw [hread] at hfault
      cases hfault
    | ok parts =>
      rw [hread] at hfault
      cases hfault
  · intro layout rest hread
    obtain ⟨taken, hbs, htakes, hlen, hcountable, hlisted⟩ :=
      ensures_layout t n bs layout rest hread
    have hback := takes_layout hcountable (Layout.listed_iff.mp hlisted)
    exact ⟨taken, hbs, hlisted, IndexSpace.tidy_of_sparse, htakes.whole, hlen, hback.whole⟩

private def row (lo hi : Int) : Rect .i32 1 := ⟨#v[Coord.wrap .i32 lo], #v[Coord.wrap .i32 hi]⟩

/-- A sparse space of two rectangles, the first without points, one piece list, and fields in
descending order, one of them twice. Two more bytes are behind. -/
def untidy : Bytes :=
  magicBytes ++ [1, 0, 0, 0, 1, 0, 0, 0, CoordType.i32.tag, 4] ++ Bytes.ofWord 24 ++
    Bytes.ofWord 8 ++ [0] ++ encodeCounted Rect.encode [row 5 4, row 0 2] ++
    encodeCounted (encodeCounted Piece.encode) [[⟨row 0 2, ⟨0, Vector.replicate 1 8⟩⟩]] ++
    encodeCounted encodeField [(7, ⟨0, 4, 4⟩), (3, ⟨0, 0, 2⟩), (7, ⟨0, 0, 4⟩)] ++ [9, 9]

def tidied : Layout .i32 1 where
  space := .sparse [row 0 2] (by decide) (by decide)
  lists := [[⟨row 0 2, ⟨0, Vector.replicate 1 8⟩⟩]]
  fields := FieldMap.ofList [(3, ⟨0, 0, 2⟩), (7, ⟨0, 0, 4⟩)]
  bytesUsed := 24
  alignment := 8

theorem read_normalizes_untidy :
    Layout.read .i32 1 untidy = .ok (tidied, [9, 9]) ∧
    ∃ taken, untidy = taken ++ [9, 9] ∧ tidied.Listed ∧ tidied.space.Tidy ∧
      (∀ suffix, Layout.read .i32 1 (taken ++ suffix) = .ok (tidied, suffix)) ∧
      tidied.encode.length ≤ taken.length ∧
      ∀ suffix, Layout.read .i32 1 (tidied.encode ++ suffix) = .ok (tidied, suffix) := by
  have hread : Layout.read .i32 1 untidy = .ok (tidied, [9, 9]) := by decide +kernel
  obtain ⟨taken, hbytes, hlisted, htidy, hagain, hlen, hback⟩ :=
    (read_normalizes .i32 1 untidy).2.2 tidied [9, 9] hread
  exact ⟨hread, taken, hbytes, hlisted, htidy rfl, hagain, hlen, hback⟩

end RegionLayout
