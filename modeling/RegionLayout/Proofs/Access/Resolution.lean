import RegionLayout.Access.Accessor
import RegionLayout.Proofs.IndexSpace
import RegionLayout.Proofs.Layout.Relocation
import RegionLayout.Proofs.Program.Correctness

/-!
# What accessors answer

In a piece list without overlaps any piece that holds a point decides it. So neither the cached
piece nor the one an accessor was opened for changes the offset it finds.
-/

namespace RegionLayout

variable {t : CoordType} {n : Nat}

theorem PieceList.mem_of_findIndex? {pieces : PieceList t n} {p : Point t n} {i : Nat}
    (h : pieces.findIndex? p = some i) : ∃ q, pieces[i]? = some q ∧ p ∈ q.bounds := by
  obtain ⟨hi, hp, _⟩ := List.findIdx?_eq_some_iff_getElem.mp h
  exact ⟨_, List.getElem?_eq_getElem hi, of_decide_eq_true hp⟩

theorem PieceList.find?_of_findIndex?_none {pieces : PieceList t n} {p : Point t n}
    (h : pieces.findIndex? p = none) : PieceList.find? pieces p = none := by
  have hall := List.findIdx?_eq_none_iff.mp h
  exact List.find?_eq_none.mpr fun q hq => by simpa using hall q hq

/-- The offset of the requested bytes at a point. It is a fault if no piece holds the point. -/
def Layout.place (layout : Layout t n) (request : FieldRequest) (p : Point t n) :
    Except Fault UInt64 :=
  match layout.offset? request.field p with
  | some offset => .ok (offset + request.subfield)
  | none => .error (.uncovered p.text request.field)

/-- What an accessor of the tier answers at a point of its bounds. Only those that address memory
directly look at the size of the instance at once. -/
def Tier.place (tier : Tier) (layout : Layout t n) (request : FieldRequest) (p : Point t n) :
    Except Fault UInt64 :=
  match tier with
  | .generic => layout.place request p
  | .affine | .multiAffine => do
      checkElement (← layout.place request p) request.element layout.bytesUsed.toNat

namespace Layout

variable {layout : Layout t n} {request : FieldRequest} {within? : Option (Rect t n)}
  {b : Binding t n}

theorem bind_eq_ok (h : layout.bind request within? = .ok b) :
    layout.field? request.field = some (b.slot, b.pieces) ∧
      request.subfield.toNat + request.element ≤ b.slot.size.toNat ∧
      b.bounds = within?.getD layout.space.bounds ∧ b.bounds ⊆ layout.space.bounds := by
  rw [Layout.bind] at h
  split at h
  case h_1 => contradiction
  case h_2 slot hslot =>
    split at h
    case h_1 => contradiction
    case h_2 pieces hpieces =>
      split at h
      case isTrue => contradiction
      case isFalse hsize =>
        have hfield := field?_of_get? hslot hpieces
        split at h
        case h_1 =>
          rw [← Except.ok.inj h]
          exact ⟨hfield, Nat.not_lt.mp hsize, rfl, Rect.subset_refl _⟩
        case h_2 r =>
          split at h
          case isTrue hr =>
            rw [← Except.ok.inj h]
            exact ⟨hfield, Nat.not_lt.mp hsize, rfl, hr⟩
          case isFalse => contradiction

theorem place_of_bind (h : layout.bind request within? = .ok b) {p : Point t n} {q : Piece t n}
    (hq : PieceList.find? b.pieces p = some q) :
    layout.place request p = .ok (q.rule.offset p + b.fieldOffset request) := by
  have hoffset : layout.offset? request.field p = some (q.rule.offset p + b.slot.offset) := by
    simp [offset?, (bind_eq_ok h).1, hq]
  rw [place, hoffset]
  dsimp only
  rw [UInt64.add_assoc]
  rfl

theorem place_of_uncovered (h : layout.bind request within? = .ok b) {p : Point t n}
    (hnone : PieceList.find? b.pieces p = none) :
    layout.place request p = .error (.uncovered p.text request.field) := by
  have hoffset : layout.offset? request.field p = none := by
    simp [offset?, (bind_eq_ok h).1, hnone]
  rw [place, hoffset]

end Layout

section Tiers

variable {layout : Layout t n} {inst : Instance t n} {request : FieldRequest}
  {within? : Option (Rect t n)} {b : Binding t n} {p : Point t n} {size : Nat}

theorem eq_of_checkElement_eq_ok {offset found : UInt64} {element : Nat}
    (h : checkElement offset element size = .ok found) : found = offset := by
  rw [checkElement] at h
  split at h
  case isTrue => exact (Except.ok.inj h).symm
  case isFalse => contradiction

theorem checkBounds_of_mem {bounds : Rect t n} (hp : p ∈ bounds) : checkBounds bounds p = .ok () :=
  if_pos hp

theorem checkBounds_of_not_mem {bounds : Rect t n} (hp : p ∉ bounds) :
    checkBounds bounds p = .error (.outsideAccessor p.text bounds.text) :=
  if_neg hp

namespace GenericAccessor

/-- What stays as it was when the accessor was opened. Its cache may hold anything. -/
structure Serves (request : FieldRequest) (b : Binding t n) (a : GenericAccessor t n) : Prop where
  field : a.field = request.field
  element : a.element = request.element
  pieces : a.pieces = b.pieces
  offset : a.offset = b.fieldOffset request
  bounds : a.bounds = b.bounds

variable {a : GenericAccessor t n}

theorem serves_of_bind (h : GenericAccessor.bind layout request within? = .ok a) :
    ∃ b, layout.bind request within? = .ok b ∧ a.Serves request b := by
  obtain ⟨b, hb, rfl⟩ := map_eq_ok.mp h
  exact ⟨b, hb, rfl, rfl, rfl, rfl, rfl⟩

theorem Serves.next (h : a.Serves request b) (p : Point t n) :
    (a.address p).2.Serves request b := by
  rw [address]
  split
  · exact h
  · exact ⟨h.field, h.element, h.pieces, h.offset, h.bounds⟩

private theorem cacheHit?_eq_some {i : Nat} (h : a.cacheHit? p = some i) :
    ∃ q, a.pieces[i]? = some q ∧ p ∈ q.bounds := by
  have hany := (Option.filter_eq_some_iff.mp h).2
  cases hq : a.pieces[i]? with
  | none =>
    rw [hq] at hany
    contradiction
  | some q =>
    rw [hq] at hany
    exact ⟨q, rfl, of_decide_eq_true hany⟩

theorem locate_eq (hp : p ∈ a.bounds) :
    a.locate p = .error (.uncovered p.text a.field) ∧ PieceList.find? a.pieces p = none ∨
      ∃ i q, a.locate p = .ok i ∧ a.pieces[i]? = some q ∧ p ∈ q.bounds := by
  cases hhit : (a.cacheHit? p).or (a.pieces.findIndex? p) with
  | none =>
    obtain ⟨_, hfind⟩ := Option.or_eq_none_iff.mp hhit
    refine .inl ⟨?_, PieceList.find?_of_findIndex?_none hfind⟩
    rw [locate, checkBounds_of_mem hp, hhit]
    rfl
  | some i =>
    have hlocate : a.locate p = .ok i := by
      rw [locate, checkBounds_of_mem hp, hhit]
      rfl
    rcases Option.or_eq_some_iff.mp hhit with hcached | ⟨_, hfind⟩
    · obtain ⟨q, hq, hmem⟩ := cacheHit?_eq_some hcached
      exact .inr ⟨i, q, hlocate, hq, hmem⟩
    · obtain ⟨q, hq, hmem⟩ := PieceList.mem_of_findIndex? hfind
      exact .inr ⟨i, q, hlocate, hq, hmem⟩

theorem Serves.address_eq (h : a.Serves request b) (hb : layout.bind request within? = .ok b)
    (hdisjoint : PairwiseDisjoint (List.map Piece.bounds b.pieces)) (hp : p ∈ b.bounds) :
    (a.address p).1 = layout.place request p := by
  rcases locate_eq (h.bounds ▸ hp) with ⟨hlocate, hnone⟩ | ⟨i, q, hlocate, hq, hmem⟩
  · rw [h.field] at hlocate
    rw [h.pieces] at hnone
    rw [Layout.place_of_uncovered hb hnone, address, hlocate]
  · have hoffset : a.offsetIn p i = .ok (q.rule.offset p + a.offset) := by
      simp [offsetIn, hq, Piece.offset, hmem, Except.map]
    rw [h.pieces] at hq
    have hfind := PieceList.find?_of_disjoint hdisjoint (List.mem_of_getElem? hq) hmem
    rw [Layout.place_of_bind hb hfind, address, hlocate, ← h.offset]
    exact hoffset

end GenericAccessor

namespace Binding

variable {space : IndexSpace t n} {field : FieldId} {q : Piece t n}

theorem soloPiece_within {r : Rect t n} (h : b.soloPiece space field (some r) = .ok q) :
    List.find? (fun q => decide (r ⊆ q.bounds)) b.pieces = some q := by
  rw [soloPiece] at h
  split at h
  case h_1 q' hfind =>
    rw [← Except.ok.inj h]
    exact hfind
  case h_2 => contradiction

theorem soloPiece_whole (h : b.soloPiece space field none = .ok q) :
    b.pieces = [q] ∧ ∀ r ∈ space.rects, r ⊆ q.bounds := by
  rw [soloPiece.eq_def] at h
  dsimp only at h
  split at h
  case h_1 q' hpieces =>
    split at h
    case isTrue hall =>
      rw [← Except.ok.inj h]
      exact ⟨hpieces, hall⟩
    case isFalse => contradiction
  case h_2 => contradiction
  case h_3 => contradiction

/-- The piece an accessor is opened for holds all points of its bounds. -/
theorem soloPiece_eq_ok (h : b.soloPiece space field within? = .ok q) :
    q ∈ b.pieces ∧ within?.getD space.bounds ⊆ q.bounds := by
  cases within? with
  | some r =>
    have hfind := soloPiece_within h
    have hr := List.find?_some hfind
    exact ⟨List.mem_of_find?_eq_some hfind, of_decide_eq_true hr⟩
  | none =>
    obtain ⟨hpieces, hall⟩ := soloPiece_whole h
    rw [hpieces]
    exact ⟨List.mem_singleton_self _, IndexSpace.bounds_subset hall⟩

end Binding

theorem Instance.locate_eq_ok {located : LocatedRule t n}
    (h : inst.locate request within? = .ok located) :
    ∃ b q, inst.layout.bind request within? = .ok b ∧
      b.soloPiece inst.layout.space request.field within? = .ok q ∧
      located = ⟨q.rule.relocate (b.fieldOffset request), b.bounds⟩ := by
  rw [Instance.locate] at h
  split at h
  case isTrue => contradiction
  case isFalse =>
    obtain ⟨b, hb, h⟩ := bind_eq_ok.mp h
    obtain ⟨q, hq, h⟩ := bind_eq_ok.mp h
    rw [pure_eq_ok] at h
    exact ⟨b, q, hb, hq, h.symm⟩

namespace AffineAccessor

/-- The one rule of the accessor is that of the piece that decides each point of the bounds. -/
structure Serves (request : FieldRequest) (b : Binding t n) (size : Nat) (a : AffineAccessor t n) :
    Prop where
  element : a.element = request.element
  size : a.size = size
  bounds : a.bounds? = some b.bounds
  rule : ∀ p ∈ b.bounds, ∃ q, PieceList.find? b.pieces p = some q ∧
    a.rule = q.rule.relocate (b.fieldOffset request)

variable {a : AffineAccessor t n}

theorem serves_of_bind (h : AffineAccessor.bind inst request within? = .ok a)
    (hdisjoint : ∀ slot pieces, inst.layout.field? request.field = some (slot, pieces) →
      PairwiseDisjoint (List.map Piece.bounds pieces)) :
    ∃ b, inst.layout.bind request within? = .ok b ∧ a.Serves request b inst.size := by
  obtain ⟨located, hlocated, rfl⟩ := map_eq_ok.mp h
  obtain ⟨b, q, hb, hq, rfl⟩ := Instance.locate_eq_ok hlocated
  obtain ⟨hfield, _, hbounds, _⟩ := Layout.bind_eq_ok hb
  obtain ⟨hmem, hsub⟩ := Binding.soloPiece_eq_ok hq
  refine ⟨b, hb, rfl, rfl, rfl, fun p hp => ⟨q, ?_, rfl⟩⟩
  rw [hbounds] at hp
  exact PieceList.find?_of_disjoint (hdisjoint _ _ hfield) hmem (Rect.subset_iff.mp hsub p hp)

theorem Serves.address_eq (h : a.Serves request b layout.bytesUsed.toNat)
    (hb : layout.bind request within? = .ok b) (hp : p ∈ b.bounds) :
    a.address p = Tier.affine.place layout request p := by
  obtain ⟨q, hfind, hrule⟩ := h.rule p hp
  have haddress : a.address p = checkElement (a.rule.offset p) a.element a.size := by
    rw [address, h.bounds]
    dsimp only
    rw [checkBounds_of_mem hp]
    rfl
  rw [haddress, hrule, AffineRule.offset_relocate, h.element, h.size, Tier.place,
    Layout.place_of_bind hb hfind]
  rfl

end AffineAccessor

namespace MultiAffineAccessor

/-- At each of its points the leaf is a part of the piece that decides. -/
def FollowsList (pieces : PieceList t n) (leaf : Piece t n) : Prop :=
  ∀ p ∈ leaf.bounds, Answers p (some leaf) (PieceList.find? pieces p)

/-- The program answers like the piece list, and so does the leaf in the cache. -/
structure Serves (request : FieldRequest) (b : Binding t n) (size : Nat)
    (a : MultiAffineAccessor t n) : Prop where
  field : a.field = request.field
  element : a.element = request.element
  pieces : a.pieces = b.pieces
  offset : a.offset = b.fieldOffset request
  size : a.size = size
  bounds : a.bounds = b.bounds
  program : ∃ cursor, Cursor.at? a.program a.start = some cursor ∧
    ∀ p, ∃ leaf?, cursor.lookup p = .ok leaf? ∧ Answers p leaf? (PieceList.find? b.pieces p)
  cached : ∀ leaf, a.cached? = some leaf → FollowsList b.pieces leaf

variable {a : MultiAffineAccessor t n}

theorem step_of_leafAt? {code : Bytes} {leaf : Piece t n} {delta : Nat}
    (h : leafAt? t n code = .ok (some (leaf, delta))) (hp : p ∈ leaf.bounds) :
    step code p = .ok (.done leaf) := by
  rw [step, opcodeAt?_of_leafAt? h]
  simp only [h, if_pos hp]

theorem followsList_of_soleLeaf? {program : Bytes} {start : Nat} {cursor : Cursor}
    {pieces : PieceList t n} {bounds : Rect t n} {leaf : Piece t n}
    (hat : Cursor.at? program start = some cursor)
    (hlookup : ∀ p, ∃ leaf?, cursor.lookup p = .ok leaf? ∧
      Answers p leaf? (PieceList.find? pieces p))
    (h : soleLeaf? program start bounds = .ok (some leaf)) : FollowsList pieces leaf := by
  intro p hp
  rw [soleLeaf?, hat] at h
  obtain ⟨found?, hfound, h⟩ := map_eq_ok.mp h
  split at h
  case h_2 => contradiction
  case h_1 leaf' delta =>
    rw [Option.ite_none_right_eq_some, Option.some.injEq] at h
    obtain ⟨_, rfl⟩ := h
    obtain ⟨leaf?, hleaf, hanswers⟩ := hlookup p
    rw [Cursor.lookup, evaluate_of_done (step_of_leafAt? hfound hp)] at hleaf
    cases hleaf
    exact hanswers

theorem opened_of_bind (h : MultiAffineAccessor.bind inst request within? = .ok a) :
    ∃ b program entry start leaf?, inst.layout.bind request within? = .ok b ∧
      inst.layout.defaultProgram = .ok program ∧
      program.fields.get? request.field = some entry ∧ entry.start? = some start ∧
      soleLeaf? program.bytes start b.bounds = .ok leaf? ∧
      a = ⟨program.bytes, start, b.pieces, request.field, request.element, b.fieldOffset request,
        inst.size, b.bounds, leaf?⟩ := by
  rw [MultiAffineAccessor.bind] at h
  split at h
  case isTrue => contradiction
  case isFalse =>
    obtain ⟨b, hb, h⟩ := bind_eq_ok.mp h
    rw [mapError_eq_ok] at hb
    obtain ⟨program, hprogram, h⟩ := bind_eq_ok.mp h
    rw [mapError_eq_ok] at hprogram
    split at h
    case h_1 => contradiction
    case h_2 entry hentry =>
      split at h
      case isTrue => contradiction
      case isFalse =>
        split at h
        case h_1 => contradiction
        case h_2 start hstart =>
          obtain ⟨leaf?, hleaf, h⟩ := bind_eq_ok.mp h
          rw [mapError_eq_ok] at hleaf
          rw [pure_eq_ok] at h
          exact ⟨b, program, entry, start, leaf?, hb, hprogram, hentry, hstart, hleaf, h.symm⟩

theorem serves_of_bind (h : MultiAffineAccessor.bind inst request within? = .ok a) :
    ∃ b, inst.layout.bind request within? = .ok b ∧ a.Serves request b inst.size := by
  obtain ⟨b, program, entry, start, leaf?, hb, hprogram, hentry, hstart, hleaf, rfl⟩ :=
    opened_of_bind h
  have hfield := (Layout.bind_eq_ok hb).1
  obtain ⟨cursor, hat, hlookup⟩ := answers_of_start? hprogram hfield hentry hstart
  refine ⟨b, hb, rfl, rfl, rfl, rfl, rfl, rfl, ⟨cursor, hat, hlookup⟩, ?_⟩
  intro leaf hcached
  change leaf? = some leaf at hcached
  subst hcached
  exact followsList_of_soleLeaf? hat hlookup hleaf

theorem Serves.lookup_eq (h : a.Serves request b size)
    (hdisjoint : PairwiseDisjoint (List.map Piece.bounds b.pieces)) (p : Point t n) :
    a.lookup p = .error (.uncovered p.text request.field) ∧ PieceList.find? b.pieces p = none ∨
      ∃ leaf, a.lookup p = .ok leaf ∧ p ∈ leaf.bounds ∧ FollowsList b.pieces leaf := by
  obtain ⟨cursor, hat, hlookup⟩ := h.program
  obtain ⟨leaf?, hleaf, hanswers⟩ := hlookup p
  generalize hq : PieceList.find? b.pieces p = q? at hanswers
  cases hanswers with
  | miss =>
    refine .inl ⟨?_, rfl⟩
    rw [lookup, hat]
    simp only [hleaf, h.field]
  | @hit leaf q mem part rule =>
    refine .inr ⟨leaf, ?_, mem, fun p' hp' => ?_⟩
    · rw [lookup, hat]
      simp only [hleaf]
    · rw [PieceList.find?_of_disjoint hdisjoint (PieceList.mem_of_find? hq).1
        (Rect.subset_iff.mp part p' hp')]
      exact .hit hp' part rule

theorem Serves.locate_eq (h : a.Serves request b size)
    (hdisjoint : PairwiseDisjoint (List.map Piece.bounds b.pieces)) (hp : p ∈ b.bounds) :
    a.locate p = .error (.uncovered p.text request.field) ∧ PieceList.find? b.pieces p = none ∨
      ∃ leaf, a.locate p = .ok leaf ∧ p ∈ leaf.bounds ∧ FollowsList b.pieces leaf := by
  have hbounds := checkBounds_of_mem (h.bounds.symm ▸ hp : p ∈ a.bounds)
  cases hhit : a.cacheHit? p with
  | none =>
    have hlocate : a.locate p = a.lookup p := by
      rw [locate, hbounds, hhit]
      rfl
    rw [hlocate]
    exact h.lookup_eq hdisjoint p
  | some leaf =>
    have hlocate : a.locate p = .ok leaf := by
      rw [locate, hbounds, hhit]
      rfl
    obtain ⟨hcached, hmem⟩ := Option.filter_eq_some_iff.mp hhit
    exact .inr ⟨leaf, hlocate, of_decide_eq_true hmem, h.cached leaf hcached⟩

theorem locate_of_not_mem (hp : p ∉ a.bounds) :
    a.locate p = .error (.outsideAccessor p.text a.bounds.text) := by
  rw [locate, checkBounds_of_not_mem hp]
  rfl

/-- An access leaves at most another leaf of the same list in the cache, at whatever point and
whether or not it succeeds. -/
theorem Serves.next (h : a.Serves request b size)
    (hdisjoint : PairwiseDisjoint (List.map Piece.bounds b.pieces)) (p : Point t n) :
    (a.address p).2.Serves request b size := by
  rw [address]
  by_cases hp : p ∈ a.bounds
  · rcases h.locate_eq hdisjoint (h.bounds ▸ hp) with ⟨hlocate, _⟩ | ⟨leaf, hlocate, _, hfollows⟩
    · rw [hlocate]
      exact h
    · rw [hlocate]
      refine ⟨h.field, h.element, h.pieces, h.offset, h.size, h.bounds, h.program, ?_⟩
      intro leaf' hleaf'
      cases hleaf'
      exact hfollows
  · rw [locate_of_not_mem hp]
    exact h

theorem addressShared_eq (a : MultiAffineAccessor t n) (p : Point t n) :
    a.addressShared p = (a.address p).1 := by
  rw [addressShared, address]
  cases a.locate p with
  | error => rfl
  | ok leaf => rfl

theorem addressRect_of_isEmpty {r : Rect t n} (hr : r.IsEmpty) :
    a.addressRect r = (.ok none, a) := if_pos hr

theorem addressRect_eq {r : Rect t n} (hr : ¬ r.IsEmpty) :
    a.addressRect r = match a.locate r.lo with
      | .error f => (.error f, a)
      | .ok leaf =>
          ((a.offsetIn leaf r.lo).map fun start =>
            if a.WithinOne leaf r then some (start, leaf.rule.strides) else none,
            { a with cached? := some leaf }) := by
  rw [addressRect, if_neg hr, address]
  cases a.locate r.lo with
  | error f => rfl
  | ok leaf =>
    dsimp only
    cases a.offsetIn leaf r.lo <;> rfl

theorem Serves.address_eq (h : a.Serves request b layout.bytesUsed.toNat)
    (hb : layout.bind request within? = .ok b)
    (hdisjoint : PairwiseDisjoint (List.map Piece.bounds b.pieces)) (hp : p ∈ b.bounds) :
    (a.address p).1 = Tier.multiAffine.place layout request p := by
  rcases h.locate_eq hdisjoint hp with ⟨hlocate, hnone⟩ | ⟨leaf, hlocate, hmem, hfollows⟩
  · rw [address, hlocate, Tier.place, Layout.place_of_uncovered hb hnone]
    rfl
  · obtain ⟨q, hfind, _, hrule⟩ := (hfollows p hmem).found
    rw [address, hlocate, Tier.place, Layout.place_of_bind hb hfind]
    change a.offsetIn leaf p = checkElement _ _ _
    rw [offsetIn, hrule, h.offset, h.element, h.size]

end MultiAffineAccessor

end Tiers

end RegionLayout
