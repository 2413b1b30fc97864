import RegionLayout.Proofs.Access.Agreement
import RegionLayout.Proofs.Program.Coverage

/-!
# Accessors keep to their bounds

An accessor refuses every point outside its bounds. Of a rectangle only the lower corner is looked
at: the piece of that corner may reach over the bounds of an accessor for a part of the space.
-/

namespace RegionLayout

variable {t : CoordType} {n : Nat} {p : Point t n} {bounds region : Rect t n}

namespace GenericAccessor

variable {a : GenericAccessor t n}

theorem address_of_not_mem (hp : p ∉ a.bounds) :
    a.address p = (.error (.outsideAccessor p.text a.bounds.text), a) := by
  have hlocate : a.locate p = .error (.outsideAccessor p.text a.bounds.text) := by
    rw [locate, checkBounds_of_not_mem hp]
    rfl
  rw [address, hlocate]

theorem bounds_address (a : GenericAccessor t n) (p : Point t n) :
    (a.address p).2.bounds = a.bounds := by
  rw [address]
  split <;> rfl

end GenericAccessor

theorem AffineAccessor.address_of_not_mem {a : AffineAccessor t n} (h : a.bounds? = some bounds)
    (hp : p ∉ bounds) : a.address p = .error (.outsideAccessor p.text bounds.text) := by
  simp only [address, h, checkBounds_of_not_mem hp]
  rfl

namespace MultiAffineAccessor

variable {inst : Instance t n} {request : FieldRequest} {within? : Option (Rect t n)}
  {a : MultiAffineAccessor t n} {r : Rect t n} {place : UInt64 × Strides n}

theorem address_of_not_mem (hp : p ∉ a.bounds) :
    a.address p = (.error (.outsideAccessor p.text a.bounds.text), a) := by
  rw [address, locate_of_not_mem hp]

theorem bounds_address (a : MultiAffineAccessor t n) (p : Point t n) :
    (a.address p).2.bounds = a.bounds := by
  rw [address]
  split <;> rfl

theorem addressRect_of_not_mem (hr : ¬ r.IsEmpty) (hlo : r.lo ∉ a.bounds) :
    a.addressRect r = (.error (.outsideAccessor r.lo.text a.bounds.text), a) := by
  rw [addressRect_eq hr, locate_of_not_mem hlo]

/-- A rectangle that is resolved has its lower corner in the bounds, and all of it in the leaf of
the corner or in the piece of the corner. -/
theorem addressRect_eq_some (h : (a.addressRect r).1 = .ok (some place)) :
    r.lo ∈ a.bounds ∧ ∃ leaf, a.locate r.lo = .ok leaf ∧ a.WithinOne leaf r := by
  by_cases hr : r.IsEmpty
  · rw [addressRect_of_isEmpty hr] at h
    cases h
  · by_cases hlo : r.lo ∈ a.bounds
    · rw [addressRect_eq hr] at h
      cases hleaf : a.locate r.lo with
      | error f =>
        rw [hleaf] at h
        contradiction
      | ok leaf =>
        rw [hleaf] at h
        obtain ⟨start, _, hanswer⟩ := map_eq_ok.mp h
        exact ⟨hlo, leaf, rfl, (Option.ite_none_right_eq_some.mp hanswer).1⟩
    · rw [addressRect_of_not_mem hr hlo] at h
      contradiction

/-- Whatever the accessor can find a point or a rectangle in lies inside the region. -/
structure Inside (region : Rect t n) (a : MultiAffineAccessor t n) : Prop where
  pieces : ∀ q ∈ a.pieces, q.bounds ⊆ region
  cached : ∀ leaf, a.cached? = some leaf → leaf.bounds ⊆ region
  lookup : ∀ p leaf, a.lookup p = .ok leaf → leaf.bounds ⊆ region

theorem FollowsList.subset {pieces : PieceList t n} {leaf : Piece t n}
    (h : FollowsList pieces leaf) (hpieces : ∀ q ∈ pieces, q.bounds ⊆ region) :
    leaf.bounds ⊆ region := by
  apply Rect.subset_iff.mpr
  intro p hp
  obtain ⟨q, hfind, _⟩ := (h p hp).found
  obtain ⟨hmem, hq⟩ := PieceList.mem_of_find? hfind
  exact Rect.subset_iff.mp (hpieces q hmem) p hq

theorem admissible_of_bind (h : MultiAffineAccessor.bind inst request within? = .ok a)
    {slot : FieldSlot} {pieces : PieceList t n}
    (hfield : inst.layout.field? request.field = some (slot, pieces)) :
    Admissible inst.layout.space CompileOptions.default.allowed pieces := by
  obtain ⟨_, _, entry, _, _, _, hprogram, hentry, _, _, _⟩ := opened_of_bind h
  rcases entry_of_compile hprogram request.field with ⟨hnone, _⟩ |
    ⟨_, _, _, _, hslot, hlist, _, hcheck, _⟩
  · rw [hentry] at hnone
    contradiction
  · rw [field?_of_get? hslot hlist] at hfield
    cases hfield
    exact admissible_of_checkCoverage hcheck

theorem inside_of_bind (h : MultiAffineAccessor.bind inst request within? = .ok a) :
    a.Inside inst.layout.space.bounds := by
  obtain ⟨b, program, entry, start, leaf?, hb, hprogram, hentry, hstart, hleaf, rfl⟩ :=
    opened_of_bind h
  have hfield := (Layout.bind_eq_ok hb).1
  have hpieces : ∀ q ∈ b.pieces, q.bounds ⊆ inst.layout.space.bounds := fun q hq =>
    Rect.subset_iff.mpr ((admissible_of_bind h hfield).inside q hq)
  obtain ⟨cursor, hat, hlookup⟩ := answers_of_start? hprogram hfield hentry hstart
  refine ⟨hpieces, ?_, ?_⟩
  · intro leaf hcached
    change leaf? = some leaf at hcached
    subst hcached
    exact (followsList_of_soleLeaf? hat hlookup hleaf).subset hpieces
  · intro p leaf hfound
    obtain ⟨found?, hfound?, hanswers⟩ := hlookup p
    simp only [MultiAffineAccessor.lookup, hat, hfound?] at hfound
    generalize hq : PieceList.find? b.pieces p = q? at hanswers
    cases hanswers with
    | miss => simp at hfound
    | hit _ part _ =>
      cases hfound
      exact Rect.subset_trans part (hpieces _ (PieceList.mem_of_find? hq).1)

theorem bounds_of_bind (h : MultiAffineAccessor.bind inst request within? = .ok a) :
    a.bounds = within?.getD inst.layout.space.bounds := by
  obtain ⟨b, _, _, _, _, hb, _, _, _, _, rfl⟩ := opened_of_bind h
  exact (Layout.bind_eq_ok hb).2.2.1

theorem Inside.locate (h : a.Inside region) {leaf : Piece t n} (hleaf : a.locate p = .ok leaf) :
    leaf.bounds ⊆ region := by
  rw [MultiAffineAccessor.locate] at hleaf
  obtain ⟨_, _, hleaf⟩ := bind_eq_ok.mp hleaf
  split at hleaf
  case h_1 hit hhit =>
    cases hleaf
    exact h.cached _ (Option.filter_eq_some_iff.mp hhit).1
  case h_2 => exact h.lookup p leaf hleaf

theorem Inside.address (h : a.Inside region) (p : Point t n) : (a.address p).2.Inside region := by
  rw [MultiAffineAccessor.address]
  split
  case h_1 => exact h
  case h_2 leaf hleaf =>
    refine ⟨h.pieces, ?_, h.lookup⟩
    intro leaf' hcached
    cases hcached
    exact h.locate hleaf

theorem Inside.addressRect (h : a.Inside region)
    (hplace : (a.addressRect r).1 = .ok (some place)) : r ⊆ region := by
  obtain ⟨_, leaf, hleaf, hwithin⟩ := addressRect_eq_some hplace
  rcases hwithin with hsub | ⟨q, hq, hsub⟩
  · exact Rect.subset_trans hsub (h.locate hleaf)
  · exact Rect.subset_trans hsub (h.pieces q (PieceList.mem_of_find? hq).1)

end MultiAffineAccessor

namespace Accessor

variable {a : Accessor t n}

theorem addressBy_of_not_mem (h : a.bounds? = some bounds) (hp : p ∉ bounds) (shared : Bool) :
    a.addressBy shared p = (.error (.outsideAccessor p.text bounds.text), a) := by
  cases a with
  | generic a =>
    cases h
    have haddress := GenericAccessor.address_of_not_mem hp
    cases shared <;> simp [addressBy, address, haddress]
  | affine a =>
    have haddress := AffineAccessor.address_of_not_mem h hp
    cases shared <;> simp [addressBy, address, haddress]
  | multiAffine a =>
    cases h
    have haddress := MultiAffineAccessor.address_of_not_mem hp
    cases shared
    · simp [addressBy, address, haddress]
    · simp [addressBy, MultiAffineAccessor.addressShared_eq, haddress]

theorem bounds?_addressBy (a : Accessor t n) (shared : Bool) (p : Point t n) :
    (a.addressBy shared p).2.bounds? = a.bounds? := by
  cases a with
  | generic a => cases shared <;> exact congrArg some (a.bounds_address p)
  | affine a => cases shared <;> rfl
  | multiAffine a =>
    cases shared
    · exact congrArg some (a.bounds_address p)
    · rfl

theorem bounds?_run (a : Accessor t n) (history : List (Storage × Operation t n)) :
    (a.run history).bounds? = a.bounds? := by
  apply run_invariant (P := fun a' => a'.bounds? = a.bounds?)
  · intro a' shared p h
    exact (a'.bounds?_addressBy shared p).trans h
  · rfl

/-- Only multi-affine accessors resolve rectangles. -/
def Inside (region : Rect t n) : Accessor t n → Prop
  | .multiAffine m => m.Inside region
  | _ => True

theorem Inside.addressBy (h : a.Inside region) (shared : Bool) (p : Point t n) :
    (a.addressBy shared p).2.Inside region := by
  cases a with
  | generic a => cases shared <;> trivial
  | affine a => cases shared <;> trivial
  | multiAffine m =>
    cases shared
    · exact MultiAffineAccessor.Inside.address h p
    · exact h

theorem Inside.run (h : a.Inside region) (history : List (Storage × Operation t n)) :
    (a.run history).Inside region := by
  apply run_invariant _ h
  intro a' shared p hinside
  exact hinside.addressBy shared p

end Accessor

/-- An accessor answers at no point outside its bounds, shared or not, after any history: the
address, the read and the write end in a fault that names the point, and neither the accessor nor
the storage changes. No rectangle is resolved whose lower corner is outside. One that is resolved
lies inside the bounds of the space, which are those of an accessor opened for all of it. -/
theorem accessor_confined (a : Accessor t n) (bounds : Rect t n) (h : a.bounds? = some bounds)
    (history : List (Storage × Operation t n)) :
    (∀ p ∉ bounds,
      (∀ shared, (a.run history).addressBy shared p =
        (.error (.outsideAccessor p.text bounds.text), a.run history)) ∧
      ∀ storage access, access.point = p → (a.run history).perform storage access =
        (.error (.outsideAccessor p.text bounds.text), a.run history, storage)) ∧
    ∀ m, a.run history = .multiAffine m → ∀ r, ¬ r.IsEmpty →
      (r.lo ∉ bounds → m.addressRect r = (.error (.outsideAccessor r.lo.text bounds.text), m)) ∧
      ∀ inst request within?, Accessor.bind inst .multiAffine request within? = .ok a →
        ∀ place, (m.addressRect r).1 = .ok (some place) →
          r.lo ∈ bounds ∧ r ⊆ inst.layout.space.bounds ∧ (within? = none → r ⊆ bounds) := by
  have hrun : (a.run history).bounds? = some bounds := (a.bounds?_run history).trans h
  refine ⟨?_, ?_⟩
  · intro p hp
    have haddress := Accessor.addressBy_of_not_mem hrun hp
    refine ⟨haddress, ?_⟩
    rintro storage access rfl
    rw [Accessor.perform_eq, haddress]
  · intro m hm r hr
    rw [hm] at hrun
    cases hrun
    refine ⟨MultiAffineAccessor.addressRect_of_not_mem hr, ?_⟩
    intro inst request within? hbind place hplace
    obtain ⟨opened, hopened, rfl⟩ := map_eq_ok.mp hbind
    have hinside : m.Inside inst.layout.space.bounds := by
      have hstart : (Accessor.multiAffine opened).Inside inst.layout.space.bounds :=
        MultiAffineAccessor.inside_of_bind hopened
      have hlast := hstart.run history
      rwa [hm] at hlast
    have hspace := hinside.addressRect hplace
    refine ⟨(MultiAffineAccessor.addressRect_eq_some hplace).1, hspace, ?_⟩
    rintro rfl
    have hbounds : opened.bounds = inst.layout.space.bounds :=
      MultiAffineAccessor.bounds_of_bind hopened
    have hsame : opened.bounds = m.bounds := Option.some.inj h
    rw [← hsame, hbounds]
    exact hspace

private theorem isSome_bind_corner :
    (MultiAffineAccessor.bind ⟨pinwheel, .host (Bytes.zeros 64)⟩ ⟨7, 1, 0⟩
      (some ⟨corner 0 0, corner 0 0⟩)).toOption.isSome := by
  decide +kernel

/-- An address within the corner of the pinwheel, and one outside. -/
def cornerHistory : List (Storage × Operation .i32 2) :=
  [(.host [], .address false (corner 0 0)), (.host [], .address true (corner 2 2))]

theorem accessor_confined_corner :
    ∃ a, Accessor.bind ⟨pinwheel, .host (Bytes.zeros 64)⟩ .multiAffine ⟨7, 1, 0⟩
        (some ⟨corner 0 0, corner 0 0⟩) = .ok a ∧
      (a.run cornerHistory).perform (.host (Bytes.zeros 64)) (.write true (corner 1 0) [5]) =
        (.error (.outsideAccessor "<1,0>" "[<0,0>..<0,0>]"), a.run cornerHistory,
          .host (Bytes.zeros 64)) := by
  have ha := toOption_eq_some.mp (Option.some_get isSome_bind_corner).symm
  refine ⟨_, congrArg (Except.map Accessor.multiAffine) ha, ?_⟩
  have hbounds := congrArg some (MultiAffineAccessor.bounds_of_bind ha)
  have hconfined := accessor_confined (.multiAffine _) ⟨corner 0 0, corner 0 0⟩ hbounds
    cornerHistory
  exact (hconfined.1 (corner 1 0) (by decide)).2 (.host (Bytes.zeros 64))
    (.write true (corner 1 0) [5]) rfl

/-- An accessor for one corner of the pinwheel resolves all of the arm the corner belongs to. -/
theorem not_all_rects_confined :
    ¬ ∀ (inst : Instance .i32 2) (request : FieldRequest) (within? : Option (Rect .i32 2))
      (a : MultiAffineAccessor .i32 2) (r : Rect .i32 2),
      MultiAffineAccessor.bind inst request within? = .ok a → ¬ r.IsEmpty → ¬ r ⊆ a.bounds →
        ∀ place, (a.addressRect r).1 ≠ .ok (some place) := by
  intro hall
  have hresolved : (MultiAffineAccessor.bind ⟨pinwheel, .host (Bytes.zeros 64)⟩ ⟨7, 1, 0⟩
      (some ⟨corner 0 0, corner 0 0⟩)).toOption.map
        (fun a => (a.addressRect ⟨corner 0 0, corner 1 0⟩).1.toOption) =
          some (some (some (1, #v[4, 8]))) := by
    decide +kernel
  obtain ⟨a, hopened, hplace⟩ := Option.map_eq_some_iff.mp hresolved
  have ha := toOption_eq_some.mp hopened
  have hbounds : a.bounds = ⟨corner 0 0, corner 0 0⟩ := MultiAffineAccessor.bounds_of_bind ha
  have hout : ¬ (⟨corner 0 0, corner 1 0⟩ : Rect .i32 2) ⊆ a.bounds := by
    rw [hbounds]
    decide
  exact hall _ _ _ a ⟨corner 0 0, corner 1 0⟩ ha (by decide) hout _ (toOption_eq_some.mp hplace)

end RegionLayout
