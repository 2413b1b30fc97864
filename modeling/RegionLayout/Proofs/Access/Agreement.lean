import RegionLayout.Proofs.Access.Resolution
import RegionLayout.Proofs.Bytes

/-! # The tiers of accessors agree -/

namespace RegionLayout

variable {t : CoordType} {n : Nat}

/-- A read or a write at a point. A shared one leaves the cache of the accessor alone. -/
inductive Access (t : CoordType) (n : Nat) where
  | read (shared : Bool) (p : Point t n)
  | write (shared : Bool) (p : Point t n) (value : Bytes)

namespace Access

def shared : Access t n → Bool
  | .read shared _ => shared
  | .write shared _ _ => shared

def point : Access t n → Point t n
  | .read _ p => p
  | .write _ p _ => p

/-- A value that is written is as long as an element. -/
def Fits (element : Nat) : Access t n → Prop
  | .read .. => True
  | .write _ _ value => value.length = element

instance (element : Nat) : (access : Access t n) → Decidable (access.Fits element)
  | .read .. => inferInstanceAs (Decidable True)
  | .write _ _ value => inferInstanceAs (Decidable (value.length = element))

/-- What the access does to the `element` bytes from `start` on: the bytes read, if it reads, and
the bytes left behind. -/
def effect (bytes : Bytes) (start element : Nat) : Access t n → Option Bytes × Bytes
  | .read .. => (some (bytes.part start element), bytes)
  | .write _ _ value => (none, bytes.overlay start value)

/-- The access to an element that starts at `offset` in the storage. -/
def carryOut (storage : Storage) (offset : UInt64) (element : Nat) :
    Access t n → Except Fault (Option Bytes) × Storage
  | .read .. =>
      let (result, storage') := storage.read offset element
      (result.map some, storage')
  | .write _ _ value =>
      let (result, storage') := storage.write offset value
      (result.map fun _ => none, storage')

variable {access : Access t n} {bytes : Bytes} {offset : UInt64} {element : Nat}

theorem carryOut_of_le (hfits : access.Fits element)
    (h : offset.toNat + element ≤ bytes.length) :
    access.carryOut (.host bytes) offset element =
      (.ok (access.effect bytes offset.toNat element).1,
        .host (access.effect bytes offset.toNat element).2) := by
  cases access with
  | read shared p =>
    rw [carryOut, Storage.read, Storage.contents, Bytes.slice?_of_le h]
    rfl
  | write shared p value =>
    cases hfits
    rw [carryOut, Storage.write, Storage.contents, Bytes.splice?_of_le h]
    rfl

theorem carryOut_of_lt (hfits : access.Fits element)
    (h : bytes.length < offset.toNat + element) :
    ∃ f, access.carryOut (.host bytes) offset element = (.error f, .host bytes) := by
  cases access with
  | read shared p =>
    refine ⟨.rangeOutside element offset.toNat bytes.length, ?_⟩
    rw [carryOut, Storage.read, Storage.contents, Bytes.slice?_of_lt h]
    rfl
  | write shared p value =>
    cases hfits
    refine ⟨.rangeOutside value.length offset.toNat bytes.length, ?_⟩
    rw [carryOut, Storage.write, Storage.contents, Bytes.splice?_of_lt h]
    rfl

end Access

/-- What can be done with an accessor. -/
inductive Operation (t : CoordType) (n : Nat) where
  | access (access : Access t n)
  | address (shared : Bool) (p : Point t n)
  | addressRect (r : Rect t n)

/-- Where the requested bytes of a point begin, if a piece holds the point and they are inside the
instance. -/
def Layout.window? (layout : Layout t n) (request : FieldRequest) (p : Point t n) : Option Nat :=
  match layout.offset? request.field p with
  | some offset =>
      if (offset + request.subfield).toNat + request.element ≤ layout.bytesUsed.toNat then
        some (offset + request.subfield).toNat
      else none
  | none => none

theorem Tier.place_of_window?_some {layout : Layout t n} {request : FieldRequest} {p : Point t n}
    {start : Nat} (h : layout.window? request p = some start) (tier : Tier) :
    ∃ offset, tier.place layout request p = .ok offset ∧ offset.toNat = start ∧
      start + request.element ≤ layout.bytesUsed.toNat := by
  rw [Layout.window?] at h
  split at h
  case h_1 offset hoffset =>
    rw [Option.ite_none_right_eq_some, Option.some.injEq] at h
    obtain ⟨hle, rfl⟩ := h
    refine ⟨offset + request.subfield, ?_, rfl, hle⟩
    have hplace : layout.place request p = .ok (offset + request.subfield) := by
      rw [Layout.place, hoffset]
    cases tier with
    | generic => exact hplace
    | affine | multiAffine =>
      rw [place, hplace]
      exact if_pos hle
  case h_2 => contradiction

theorem Tier.place_of_window?_none {layout : Layout t n} {request : FieldRequest} {p : Point t n}
    (h : layout.window? request p = none) (tier : Tier) :
    (∃ f, tier.place layout request p = .error f) ∨
      ∃ offset, tier.place layout request p = .ok offset ∧
        layout.bytesUsed.toNat < offset.toNat + request.element := by
  rw [Layout.window?] at h
  split at h
  case h_1 offset hoffset =>
    have hout : ¬ (offset + request.subfield).toNat + request.element ≤ layout.bytesUsed.toNat :=
      fun hle => by rw [if_pos hle] at h; contradiction
    have hplace : layout.place request p = .ok (offset + request.subfield) := by
      rw [Layout.place, hoffset]
    cases tier with
    | generic => exact .inr ⟨_, hplace, Nat.not_le.mp hout⟩
    | affine | multiAffine =>
      refine .inl ⟨.elementOutside (offset + request.subfield).toNat layout.bytesUsed.toNat, ?_⟩
      rw [place, hplace]
      exact if_neg hout
  case h_2 hoffset =>
    have hplace : layout.place request p = .error (.uncovered p.text request.field) := by
      rw [Layout.place, hoffset]
    refine .inl ⟨.uncovered p.text request.field, ?_⟩
    cases tier <;> rw [place, hplace] <;> rfl

namespace Accessor

/-- Only multi-affine accessors have an address that leaves the cache alone. -/
def addressBy (shared : Bool) (a : Accessor t n) (p : Point t n) :
    Except Fault UInt64 × Accessor t n :=
  match shared, a with
  | true, .multiAffine m => (m.addressShared p, a)
  | _, _ => a.address p

def readBy (shared : Bool) (a : Accessor t n) (storage : Storage) (p : Point t n) :
    Except Fault Bytes × Accessor t n × Storage :=
  match shared, a with
  | true, .multiAffine m => ((m.readShared storage p).1, a, (m.readShared storage p).2)
  | _, _ => a.read storage p

def writeBy (shared : Bool) (a : Accessor t n) (storage : Storage) (p : Point t n)
    (value : Bytes) : Except Fault Unit × Accessor t n × Storage :=
  match shared, a with
  | true, .multiAffine m =>
      ((m.writeShared storage p value).1, a, (m.writeShared storage p value).2)
  | _, _ => a.write storage p value

def perform (a : Accessor t n) (storage : Storage) :
    Access t n → Except Fault (Option Bytes) × Accessor t n × Storage
  | .read shared p =>
      let (result, next) := a.readBy shared storage p
      (result.map some, next)
  | .write shared p value =>
      let (result, next) := a.writeBy shared storage p value
      (result.map fun _ => none, next)

/-- The accessor after an operation, which may have ended in a fault. -/
def after (a : Accessor t n) (storage : Storage) : Operation t n → Accessor t n
  | .access access => (a.perform storage access).2.1
  | .address shared p => (a.addressBy shared p).2
  | .addressRect r =>
      match a with
      | .multiAffine m => .multiAffine (m.addressRect r).2
      | _ => a

/-- The accessor after a history of operations, each on the storage of its time. -/
def run (a : Accessor t n) (history : List (Storage × Operation t n)) : Accessor t n :=
  history.foldl (fun a step => a.after step.1 step.2) a

theorem perform_eq (a : Accessor t n) (storage : Storage) (access : Access t n) :
    a.perform storage access = match a.addressBy access.shared access.point with
      | (.error f, a') => (.error f, a', storage)
      | (.ok offset, a') =>
          ((access.carryOut storage offset a.element).1, a',
            (access.carryOut storage offset a.element).2) := by
  cases access with
  | read shared p =>
    have hread : a.readBy shared storage p = match a.addressBy shared p with
        | (.error f, a') => (.error f, a', storage)
        | (.ok offset, a') =>
            ((storage.read offset a.element).1, a', (storage.read offset a.element).2) := by
      cases shared with
      | false => rfl
      | true =>
        cases a with
        | generic a => rfl
        | affine a => rfl
        | multiAffine m =>
          simp only [readBy, addressBy, MultiAffineAccessor.readShared]
          cases m.addressShared p <;> rfl
    rw [perform, hread]
    simp only [Access.shared, Access.point]
    rcases a.addressBy shared p with ⟨_ | _, _⟩ <;> rfl
  | write shared p value =>
    have hwrite : a.writeBy shared storage p value = match a.addressBy shared p with
        | (.error f, a') => (.error f, a', storage)
        | (.ok offset, a') =>
            ((storage.write offset value).1, a', (storage.write offset value).2) := by
      cases shared with
      | false => rfl
      | true =>
        cases a with
        | generic a => rfl
        | affine a => rfl
        | multiAffine m =>
          simp only [writeBy, addressBy, MultiAffineAccessor.writeShared]
          cases m.addressShared p <;> rfl
    rw [perform, hwrite]
    simp only [Access.shared, Access.point]
    rcases a.addressBy shared p with ⟨_ | _, _⟩ <;> rfl

theorem perform_accessor (a : Accessor t n) (storage : Storage) (access : Access t n) :
    (a.perform storage access).2.1 = (a.addressBy access.shared access.point).2 := by
  rw [perform_eq]
  rcases a.addressBy access.shared access.point with ⟨_ | _, _⟩ <;> rfl

theorem addressRect_accessor (m : MultiAffineAccessor t n) (r : Rect t n) :
    (m.addressRect r).2 = m ∨ (m.addressRect r).2 = (m.address r.lo).2 := by
  by_cases hr : r.IsEmpty
  · rw [MultiAffineAccessor.addressRect_of_isEmpty hr]
    exact .inl rfl
  · rw [MultiAffineAccessor.addressRect_eq hr, MultiAffineAccessor.address]
    cases m.locate r.lo <;> exact .inr rfl

theorem after_eq (a : Accessor t n) (storage : Storage) (operation : Operation t n) :
    a.after storage operation = a ∨
      ∃ shared p, a.after storage operation = (a.addressBy shared p).2 := by
  cases operation with
  | access access => exact .inr ⟨_, _, a.perform_accessor storage access⟩
  | address shared p => exact .inr ⟨shared, p, rfl⟩
  | addressRect r =>
    cases a with
    | generic a => exact .inl rfl
    | affine a => exact .inl rfl
    | multiAffine m =>
      rcases addressRect_accessor m r with hsame | hnext
      · exact .inl (congrArg Accessor.multiAffine hsame)
      · exact .inr ⟨false, r.lo, congrArg Accessor.multiAffine hnext⟩

/-- What is kept when an address is found is kept over any history. -/
theorem run_invariant {P : Accessor t n → Prop}
    (hnext : ∀ a shared p, P a → P (a.addressBy shared p).2) {a : Accessor t n} (h : P a)
    (history : List (Storage × Operation t n)) : P (a.run history) := by
  induction history generalizing a with
  | nil => exact h
  | cons step history ih =>
    apply ih
    change P (a.after step.1 step.2)
    rcases a.after_eq step.1 step.2 with hsame | ⟨shared, p, hfound⟩
    · rw [hsame]
      exact h
    · rw [hfound]
      exact hnext a shared p h

def tier : Accessor t n → Tier
  | .generic _ => .generic
  | .affine _ => .affine
  | .multiAffine _ => .multiAffine

/-- The accessor answers for the request as it did when it was opened. -/
def Serves (request : FieldRequest) (b : Binding t n) (size : Nat) : Accessor t n → Prop
  | .generic a => a.Serves request b
  | .affine a => a.Serves request b size
  | .multiAffine a => a.Serves request b size

section Serving

variable {layout : Layout t n} {inst : Instance t n} {tier : Tier} {request : FieldRequest}
  {within? : Option (Rect t n)} {b : Binding t n} {size : Nat} {a : Accessor t n}

theorem serves_of_bind (h : Accessor.bind inst tier request within? = .ok a)
    (hdisjoint : ∀ slot pieces, inst.layout.field? request.field = some (slot, pieces) →
      PairwiseDisjoint (List.map Piece.bounds pieces)) :
    ∃ b, inst.layout.bind request within? = .ok b ∧ a.Serves request b inst.size ∧
      a.tier = tier := by
  cases tier with
  | generic =>
    rw [Accessor.bind, mapError_eq_ok, map_eq_ok] at h
    obtain ⟨g, hg, rfl⟩ := h
    obtain ⟨b, hb, hserves⟩ := GenericAccessor.serves_of_bind hg
    exact ⟨b, hb, hserves, rfl⟩
  | affine =>
    rw [Accessor.bind, mapError_eq_ok, map_eq_ok] at h
    obtain ⟨g, hg, rfl⟩ := h
    obtain ⟨b, hb, hserves⟩ := AffineAccessor.serves_of_bind hg hdisjoint
    exact ⟨b, hb, hserves, rfl⟩
  | multiAffine =>
    rw [Accessor.bind, map_eq_ok] at h
    obtain ⟨g, hg, rfl⟩ := h
    obtain ⟨b, hb, hserves⟩ := MultiAffineAccessor.serves_of_bind hg
    exact ⟨b, hb, hserves, rfl⟩

theorem Serves.element_eq (h : a.Serves request b size) : a.element = request.element := by
  cases a with
  | generic a => exact GenericAccessor.Serves.element h
  | affine a => exact AffineAccessor.Serves.element h
  | multiAffine a => exact MultiAffineAccessor.Serves.element h

theorem Serves.bounds_eq (h : a.Serves request b size) : a.bounds? = some b.bounds := by
  cases a with
  | generic a => exact congrArg some (GenericAccessor.Serves.bounds h)
  | affine a => exact AffineAccessor.Serves.bounds h
  | multiAffine a => exact congrArg some (MultiAffineAccessor.Serves.bounds h)

theorem addressBy_eq (shared : Bool) (a : Accessor t n) (p : Point t n) :
    (a.addressBy shared p).1 = (a.address p).1 := by
  cases shared with
  | false => rfl
  | true =>
    cases a with
    | generic a => rfl
    | affine a => rfl
    | multiAffine a => exact MultiAffineAccessor.addressShared_eq a p

theorem Serves.address_eq (h : a.Serves request b layout.bytesUsed.toNat)
    (hb : layout.bind request within? = .ok b)
    (hdisjoint : PairwiseDisjoint (List.map Piece.bounds b.pieces)) {p : Point t n}
    (hp : p ∈ b.bounds) : (a.address p).1 = a.tier.place layout request p := by
  cases a with
  | generic a => exact GenericAccessor.Serves.address_eq h hb hdisjoint hp
  | affine a => exact AffineAccessor.Serves.address_eq h hb hp
  | multiAffine a => exact MultiAffineAccessor.Serves.address_eq h hb hdisjoint hp

theorem Serves.addressBy (h : a.Serves request b size)
    (hdisjoint : PairwiseDisjoint (List.map Piece.bounds b.pieces)) (shared : Bool)
    (p : Point t n) :
    (a.addressBy shared p).2.Serves request b size ∧ (a.addressBy shared p).2.tier = a.tier := by
  cases a with
  | generic a =>
    have hnext := GenericAccessor.Serves.next h p
    cases shared <;> exact ⟨hnext, rfl⟩
  | affine a => cases shared <;> exact ⟨h, rfl⟩
  | multiAffine a =>
    cases shared with
    | false => exact ⟨MultiAffineAccessor.Serves.next h hdisjoint p, rfl⟩
    | true => exact ⟨h, rfl⟩

theorem Serves.run (h : a.Serves request b size)
    (hdisjoint : PairwiseDisjoint (List.map Piece.bounds b.pieces))
    (history : List (Storage × Operation t n)) :
    (a.run history).Serves request b size ∧ (a.run history).tier = a.tier := by
  apply run_invariant (P := fun a' => a'.Serves request b size ∧ a'.tier = a.tier)
  · intro a' shared p ⟨hserves, htier⟩
    obtain ⟨hnext, hsame⟩ := hserves.addressBy hdisjoint shared p
    exact ⟨hnext, hsame.trans htier⟩
  · exact ⟨h, rfl⟩

/-- At a point of the bounds an access has its effect on the window of the point, or it is
refused if there is none. -/
theorem Serves.perform_eq (h : a.Serves request b layout.bytesUsed.toNat)
    (hb : layout.bind request within? = .ok b)
    (hdisjoint : PairwiseDisjoint (List.map Piece.bounds b.pieces)) {bytes : Bytes}
    {access : Access t n} (hlength : bytes.length = layout.bytesUsed.toNat)
    (hp : access.point ∈ b.bounds) (hfits : access.Fits request.element) :
    match layout.window? request access.point with
    | some start =>
        (a.perform (.host bytes) access).1 = .ok (access.effect bytes start request.element).1 ∧
          (a.perform (.host bytes) access).2.2 =
            .host (access.effect bytes start request.element).2
    | none =>
        ∃ f, (a.perform (.host bytes) access).1 = .error f ∧
          (a.perform (.host bytes) access).2.2 = .host bytes := by
  have haddress : (a.addressBy access.shared access.point).1 =
      a.tier.place layout request access.point := by
    rw [addressBy_eq]
    exact h.address_eq hb hdisjoint hp
  rw [Accessor.perform_eq, h.element_eq]
  generalize a.addressBy access.shared access.point = found at haddress
  obtain ⟨outcome, a'⟩ := found
  change outcome = _ at haddress
  subst haddress
  cases hwindow : layout.window? request access.point with
  | some start =>
    obtain ⟨offset, hplace, rfl, hle⟩ := Tier.place_of_window?_some hwindow a.tier
    rw [hplace]
    have hdone := Access.carryOut_of_le hfits (hlength.symm ▸ hle)
    exact ⟨congrArg Prod.fst hdone, congrArg Prod.snd hdone⟩
  | none =>
    rcases Tier.place_of_window?_none hwindow a.tier with ⟨f, hplace⟩ | ⟨offset, hplace, hlt⟩
    · rw [hplace]
      exact ⟨f, rfl, rfl⟩
    · rw [hplace]
      obtain ⟨f, hdone⟩ := Access.carryOut_of_lt hfits (hlength.symm ▸ hlt)
      exact ⟨f, congrArg Prod.fst hdone, congrArg Prod.snd hdone⟩

end Serving

end Accessor

theorem Instance.onHost_eq_ok {layout : Layout t n} {inst : Instance t n}
    (h : Instance.onHost layout = .ok inst) :
    inst = ⟨layout, .host (Bytes.zeros layout.bytesUsed.toNat)⟩ := by
  rw [onHost] at h
  split at h
  · contradiction
  · exact (Except.ok.inj h).symm

/-- In local memory, with a piece list without overlaps, an accessor of any tier answers what the
layout says, after any history: the same address, shared or not, and for each access the effect on
the same bytes, or a refusal that leaves all bytes as they were. -/
theorem tiers_agree (layout : Layout t n) (inst : Instance t n)
    (hinst : Instance.onHost layout = .ok inst) (request : FieldRequest)
    (hdisjoint : ∀ slot pieces, layout.field? request.field = some (slot, pieces) →
      PairwiseDisjoint (List.map Piece.bounds pieces))
    (within? : Option (Rect t n)) (tier : Tier) (a : Accessor t n)
    (ha : Accessor.bind inst tier request within? = .ok a)
    (history : List (Storage × Operation t n)) (p : Point t n)
    (hp : ∃ bounds, a.bounds? = some bounds ∧ p ∈ bounds) :
    ((a.run history).address p).1 = tier.place layout request p ∧
      (∀ q, ((a.run history).addressBy true q).1 = ((a.run history).addressBy false q).1) ∧
      ∀ (bytes : Bytes) (access : Access t n), bytes.length = inst.size → access.point = p →
        access.Fits request.element →
        match layout.window? request p with
        | some start =>
            ((a.run history).perform (.host bytes) access).1 =
                .ok (access.effect bytes start request.element).1 ∧
              ((a.run history).perform (.host bytes) access).2.2 =
                .host (access.effect bytes start request.element).2
        | none =>
            ∃ f, ((a.run history).perform (.host bytes) access).1 = .error f ∧
              ((a.run history).perform (.host bytes) access).2.2 = .host bytes := by
  rw [Instance.onHost_eq_ok hinst] at ha ⊢
  obtain ⟨b, hb, hserves, htier⟩ := Accessor.serves_of_bind ha hdisjoint
  have hlist := hdisjoint _ _ (Layout.bind_eq_ok hb).1
  obtain ⟨bounds, hbounds, hp⟩ := hp
  rw [hserves.bounds_eq] at hbounds
  cases hbounds
  obtain ⟨hrun, hsame⟩ := hserves.run hlist history
  refine ⟨?_, ?_, ?_⟩
  · rw [hrun.address_eq hb hlist hp, hsame, htier]
  · intro q
    rw [Accessor.addressBy_eq, Accessor.addressBy_eq]
  · rintro bytes access hlength rfl hfits
    exact hrun.perform_eq hb hlist hlength hp hfits

private theorem isSome_bind_pinwheel :
    (Accessor.bind ⟨pinwheel, .host (Bytes.zeros 64)⟩ .multiAffine ⟨7, 2, 1⟩
      none).toOption.isSome := by
  decide +kernel

theorem tiers_agree_pinwheel :
    ∃ a, Accessor.bind ⟨pinwheel, .host (Bytes.zeros 64)⟩ .multiAffine ⟨7, 2, 1⟩ none = .ok a ∧
      ((a.run [(.host [], .access (.read false (corner 3 2))),
          (.host [], .access (.write false (corner 0 0) [1, 2]))]).perform
        (.host (List.range 64 |>.map UInt8.ofNat)) (.read true (corner 2 2))).1 =
          .ok (some [22, 23]) := by
  have ha := toOption_eq_some.mp (Option.some_get isSome_bind_pinwheel).symm
  refine ⟨_, ha, ?_⟩
  have hagree := tiers_agree pinwheel ⟨pinwheel, .host (Bytes.zeros 64)⟩ (if_neg (by decide))
    ⟨7, 2, 1⟩ disjoint_pinwheel none .multiAffine _ ha
    [(.host [], .access (.read false (corner 3 2))),
      (.host [], .access (.write false (corner 0 0) [1, 2]))] (corner 2 2)
    ⟨pinwheel.space.bounds, by decide +kernel, by decide +kernel⟩
  have hwindow : pinwheel.window? ⟨7, 2, 1⟩ (corner 2 2) = some 22 := by decide +kernel
  rw [hwindow] at hagree
  have hread := hagree.2.2 (List.range 64 |>.map UInt8.ofNat) (.read true (corner 2 2))
    (by decide +kernel) rfl trivial
  rw [hread.1]
  exact congrArg (fun bytes => Except.ok (some bytes)) (by decide +kernel)

end RegionLayout
