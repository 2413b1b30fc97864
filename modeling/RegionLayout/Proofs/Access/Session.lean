import RegionLayout.Proofs.Access.Agreement
import RegionLayout.Proofs.Placement.Entries

/-!
# An instance is a map

All that can be seen of an instance of a chosen layout is a map from fields and points to byte
strings of the size of the field, in whatever order several accessors work on it.
-/

namespace RegionLayout

variable {t : CoordType} {n k : Nat}

/-- Accesses one after the other, each by one of the accessors. What they answered, and the
storage afterwards. -/
def session (accessors : Fin k → Accessor t n) (storage : Storage) :
    List (Fin k × Access t n) → List (Except Fault (Option Bytes)) × Storage
  | [] => ([], storage)
  | (i, access) :: turns =>
      let (reply, a, storage) := (accessors i).perform storage access
      let (replies, storage) := session (fun j => if j = i then a else accessors j) storage turns
      (reply :: replies, storage)

/-- Byte strings for fields and points. -/
abbrev Contents (t : CoordType) (n : Nat) := FieldId → Point t n → Bytes

namespace Contents

/-- Zeros, as many as the field has bytes. -/
def blank (layout : Layout t n) : Contents t n := fun id _ => Bytes.zeros (layout.fieldSize id)

def update (contents : Contents t n) (id : FieldId) (p : Point t n) (entry : Bytes) :
    Contents t n :=
  fun id' p' => if (id', p') = (id, p) then entry else contents id' p'

@[simp] theorem update_self (contents : Contents t n) (id : FieldId) (p : Point t n)
    (entry : Bytes) : contents.update id p entry id p = entry := if_pos rfl

theorem update_of_ne {id id' : FieldId} {p p' : Point t n} (h : (id', p') ≠ (id, p))
    (contents : Contents t n) (entry : Bytes) :
    contents.update id p entry id' p' = contents id' p' := if_neg h

theorem update_same (contents : Contents t n) (id : FieldId) (p : Point t n) :
    contents.update id p (contents id p) = contents := by
  funext id' p'
  by_cases h : (id', p') = (id, p)
  · cases h
    exact update_self ..
  · exact update_of_ne h ..

/-- The same accesses to the entries of a map. -/
def session (requests : Fin k → FieldRequest) (contents : Contents t n) :
    List (Fin k × Access t n) → List (Option Bytes) × Contents t n
  | [] => ([], contents)
  | (i, access) :: turns =>
      let request := requests i
      let (reply, entry) := access.effect (contents request.field access.point)
        request.subfield.toNat request.element
      let (replies, contents) := session requests
        (contents.update request.field access.point entry) turns
      (reply :: replies, contents)

end Contents

/-- The entries of the map are what the instance holds. -/
structure Layout.Represents (layout : Layout t n) (contents : Contents t n) (bytes : Bytes) :
    Prop where
  length_eq : bytes.length = layout.bytesUsed.toNat
  entry_eq : ∀ id p start, layout.entryStart? id p = some start →
    bytes.part start (layout.fieldSize id) = contents id p

namespace Layout

variable {layout : Layout t n} {contents : Contents t n} {bytes : Bytes} {request : FieldRequest}
  {within? : Option (Rect t n)} {b : Binding t n} {access : Access t n} {start : Nat}

theorem represents_blank (hentries : layout.EntriesApart) :
    layout.Represents (Contents.blank layout) (Bytes.zeros layout.bytesUsed.toNat) where
  length_eq := List.length_replicate
  entry_eq := fun id p start hstart => Bytes.part_zeros (hentries.inside id p start hstart)

theorem request_le_of_bind (h : layout.bind request within? = .ok b) :
    request.subfield.toNat + request.element ≤ layout.fieldSize request.field := by
  obtain ⟨hfield, hle, _⟩ := bind_eq_ok h
  rw [fieldSize, (get?_of_field? hfield).1]
  exact hle

theorem window?_of_entryStart? (hentries : layout.EntriesApart) {p : Point t n}
    (hle : request.subfield.toNat + request.element ≤ layout.fieldSize request.field)
    (h : layout.entryStart? request.field p = some start) :
    layout.window? request p = some (start + request.subfield.toNat) := by
  have hinside := hentries.inside _ _ _ h
  obtain ⟨offset, hoffset, rfl⟩ := Option.map_eq_some_iff.mp h
  have hused := layout.bytesUsed.toNat_lt
  have hsum : (offset + request.subfield).toNat = offset.toNat + request.subfield.toNat := by
    rw [UInt64.toNat_add, Nat.mod_eq_of_lt (by omega)]
  rw [window?, hoffset]
  dsimp only
  rw [hsum, if_pos (by omega)]

/-- An access to the window of a request is one to the entry, and no other entry changes. -/
theorem Represents.effect (hentries : layout.EntriesApart)
    (h : layout.Represents contents bytes)
    (hle : request.subfield.toNat + request.element ≤ layout.fieldSize request.field)
    (hstart : layout.entryStart? request.field access.point = some start)
    (hfits : access.Fits request.element) :
    let there := access.effect bytes (start + request.subfield.toNat) request.element
    let here := access.effect (contents request.field access.point) request.subfield.toNat
      request.element
    there.1 = here.1 ∧
      layout.Represents (contents.update request.field access.point here.2) there.2 := by
  have hinside := hentries.inside _ _ _ hstart
  have hbytes := h.length_eq
  have hentry := h.entry_eq _ _ _ hstart
  cases access with
  | read shared p =>
    refine ⟨?_, ?_⟩
    · rw [Access.effect, Access.effect, ← hentry, Bytes.part_part hle]
    · rw [Access.effect, Access.effect, Contents.update_same]
      exact h
  | write shared p value =>
    have hvalue : value.length = request.element := hfits
    rw [← hvalue] at hle
    refine ⟨rfl, ?_, fun id' p' start' hstart' => ?_⟩
    · rw [Access.effect, Bytes.length_overlay (by omega)]
      exact hbytes
    · change layout.entryStart? request.field p = some start at hstart
      simp only [Access.effect, Access.point] at hentry ⊢
      by_cases hsame : (id', p') = (request.field, p)
      · cases hsame
        cases hstart.symm.trans hstart'
        rw [Contents.update_self, Bytes.part_overlay_within hle (by omega), hentry]
      · have hapart := hentries.apart _ _ _ _ _ _ hstart' hstart hsame
        rw [Contents.update_of_ne hsame, Bytes.part_overlay_apart (by omega) (by omega)]
        exact h.entry_eq _ _ _ hstart'

end Layout

section Run

variable {layout : Layout t n} {requests : Fin k → FieldRequest} {bindings : Fin k → Binding t n}
  {accessors : Fin k → Accessor t n} {contents : Contents t n} {bytes : Bytes}

/-- The accessors answer for their requests. -/
structure Ready (layout : Layout t n) (requests : Fin k → FieldRequest)
    (bindings : Fin k → Binding t n) (accessors : Fin k → Accessor t n) : Prop where
  bound : ∀ i, ∃ within?, layout.bind (requests i) within? = .ok (bindings i)
  disjoint : ∀ i, PairwiseDisjoint (List.map Piece.bounds (bindings i).pieces)
  serves : ∀ i, (accessors i).Serves (requests i) (bindings i) layout.bytesUsed.toNat

/-- An access can be made: it is within the bounds of the accessor, and its entry exists. -/
def Layout.Admits (layout : Layout t n) (requests : Fin k → FieldRequest)
    (bindings : Fin k → Binding t n) (turn : Fin k × Access t n) : Prop :=
  turn.2.point ∈ (bindings turn.1).bounds ∧ turn.2.Fits (requests turn.1).element ∧
    ∃ start, layout.entryStart? (requests turn.1).field turn.2.point = some start

theorem Ready.step (h : Ready layout requests bindings accessors) (i : Fin k)
    (storage : Storage) (access : Access t n) :
    Ready layout requests bindings
      (fun j => if j = i then ((accessors i).perform storage access).2.1 else accessors j) where
  bound := h.bound
  disjoint := h.disjoint
  serves := by
    intro j
    split
    · next hj =>
      subst hj
      rw [Accessor.perform_accessor]
      exact ((h.serves j).addressBy (h.disjoint j) access.shared access.point).1
    · exact h.serves j

/-- One access of a session is the access to the map. -/
theorem Ready.perform (h : Ready layout requests bindings accessors)
    (hentries : layout.EntriesApart) (hcontents : layout.Represents contents bytes) {i : Fin k}
    {access : Access t n} (hturn : layout.Admits requests bindings (i, access)) :
    let there := (accessors i).perform (.host bytes) access
    let here := access.effect (contents (requests i).field access.point)
      (requests i).subfield.toNat (requests i).element
    there.1 = .ok here.1 ∧ ∃ bytes', there.2.2 = .host bytes' ∧
      layout.Represents (contents.update (requests i).field access.point here.2) bytes' := by
  obtain ⟨hp, hfits, start, hstart⟩ := hturn
  obtain ⟨within?, hbound⟩ := h.bound i
  have hle := Layout.request_le_of_bind hbound
  have hdone := (h.serves i).perform_eq hbound (h.disjoint i) hcontents.length_eq hp hfits
  rw [Layout.window?_of_entryStart? hentries hle hstart] at hdone
  obtain ⟨hreply, hnext⟩ := hcontents.effect hentries hle hstart hfits
  refine ⟨?_, _, hdone.2, hnext⟩
  rw [hdone.1, hreply]

theorem session_eq (h : Ready layout requests bindings accessors)
    (hentries : layout.EntriesApart) (hcontents : layout.Represents contents bytes)
    {turns : List (Fin k × Access t n)}
    (hturns : ∀ turn ∈ turns, layout.Admits requests bindings turn) :
    ∃ bytes', session accessors (.host bytes) turns =
        ((contents.session requests turns).1.map .ok, .host bytes') ∧
      layout.Represents (contents.session requests turns).2 bytes' := by
  induction turns generalizing accessors contents bytes with
  | nil => exact ⟨bytes, rfl, hcontents⟩
  | cons turn turns ih =>
    obtain ⟨i, access⟩ := turn
    obtain ⟨hreply, between, hstorage, hnext⟩ :=
      h.perform hentries hcontents (hturns _ List.mem_cons_self)
    obtain ⟨bytes', hrest, hlast⟩ := ih (h.step i (.host bytes) access) hnext fun turn hturn =>
      hturns turn (List.mem_cons_of_mem _ hturn)
    refine ⟨bytes', ?_, hlast⟩
    simp only [session, Contents.session, List.map_cons]
    rw [hstorage, hrest, hreply]

end Run

/-- On an instance of a chosen layout with disjoint rectangles and no fixed offsets, whatever
accessors do at points that are covered and within their bounds is what happens to a map: no access
faults, each reads or replaces the bytes of its request in the entry of its field and point, and in
the end the instance holds the entries of the map. Entries have the sizes that were asked for, and
there are no more groups than a word can number. -/
theorem session_represents (space : IndexSpace t n) (covering : List (Rect t n))
    (constraints : Constraints) (order : Vector UInt64 n) (layout : Layout t n)
    (h : Layout.chooseWithCovering space covering constraints order = .ok layout)
    (hdisjoint : PairwiseDisjoint covering)
    (hfree : ∀ group ∈ constraints.groups, ∀ f ∈ group, f.fixedOffset = none)
    (hcount : constraints.groups.length ≤ wordLimit) (inst : Instance t n)
    (hinst : Instance.onHost layout = .ok inst) (tiers : Fin k → Tier)
    (requests : Fin k → FieldRequest) (within? : Fin k → Option (Rect t n))
    (accessors : Fin k → Accessor t n)
    (haccessors : ∀ i, Accessor.bind inst (tiers i) (requests i) (within? i) =
      .ok (accessors i))
    (turns : List (Fin k × Access t n))
    (hturns : ∀ turn ∈ turns,
      (∃ bounds, (accessors turn.1).bounds? = some bounds ∧ turn.2.point ∈ bounds) ∧
        (∃ r ∈ covering, turn.2.point ∈ r) ∧ turn.2.Fits (requests turn.1).element) :
    (∀ group ∈ constraints.groups, ∀ f ∈ group, layout.fieldSize f.id = f.size.toNat) ∧
      ∃ bytes, session accessors inst.storage turns =
          (((Contents.blank layout).session requests turns).1.map .ok, .host bytes) ∧
        layout.Represents ((Contents.blank layout).session requests turns).2 bytes := by
  have hentries := Layout.entriesApart_of_choose h hcount hfree
  rw [Instance.onHost_eq_ok hinst] at haccessors ⊢
  have hlists : ∀ {id : FieldId} {slot : FieldSlot} {pieces : PieceList t n},
      layout.field? id = some (slot, pieces) →
        PairwiseDisjoint (List.map Piece.bounds pieces) := by
    intro id slot pieces hfield
    rw [Layout.bounds_of_choose h hcount hfield]
    exact List.Pairwise.filter _ hdisjoint
  have hbind : ∀ i, ∃ b, layout.bind (requests i) (within? i) = .ok b ∧
      (accessors i).Serves (requests i) b layout.bytesUsed.toNat := by
    intro i
    obtain ⟨b, hb, hserves, _⟩ := Accessor.serves_of_bind (haccessors i) fun _ _ => hlists
    exact ⟨b, hb, hserves⟩
  choose bindings hbound hserves using hbind
  have hready : Ready layout requests bindings accessors :=
    ⟨fun i => ⟨within? i, hbound i⟩, fun i => hlists (Layout.bind_eq_ok (hbound i)).1, hserves⟩
  refine ⟨fun group hgroup f hf => Layout.fieldSize_of_choose h hgroup hf, ?_⟩
  refine session_eq hready hentries (Layout.represents_blank hentries) fun turn hturn => ?_
  obtain ⟨⟨bounds, hbounds, hp⟩, hcovered, hfits⟩ := hturns turn hturn
  rw [(hserves turn.1).bounds_eq] at hbounds
  cases hbounds
  exact ⟨hp, hfits, Layout.entry_of_covered h hcount (Layout.bind_eq_ok (hbound turn.1)).1 hcovered⟩

/-- Two tiles side by side, the first one with negative coordinates. -/
def tiles : List (Rect .i32 2) := [⟨corner (-1) 0, corner 0 1⟩, ⟨corner 1 0, corner 2 1⟩]

/-- Two fields in one group and a third in another, dimension 1 packed fastest. -/
def tiled : Layout .i32 2 where
  space := .dense ⟨corner (-1) 0, corner 2 1⟩
  lists := [tiles.map fun r => ⟨r, 16, #v[16, 8]⟩, tiles.map fun r => ⟨r, 66, #v[2, 1]⟩]
  fields := FieldMap.ofList [(1, ⟨0, 0, 4⟩), (2, ⟨0, 4, 2⟩), (3, ⟨1, 0, 1⟩)]
  bytesUsed := 72
  alignment := 4

/-- The field of four bytes as a whole, its upper half in the second tile, and its lower half. -/
def tiledRequests : Fin 3 → FieldRequest
  | 0 => ⟨1, 4, 0⟩
  | 1 => ⟨1, 2, 2⟩
  | 2 => ⟨1, 2, 0⟩

/-- An accessor of each tier. -/
def tiledAccessor? (i : Fin 3) : Option (Accessor .i32 2) :=
  (Accessor.bind ⟨tiled, .host (Bytes.zeros 72)⟩ (#v[.generic, .affine, .multiAffine].get i)
    (tiledRequests i) (#v[none, tiles[1]?, none].get i)).toOption

private theorem isSome_tiledAccessor? : ∀ i, (tiledAccessor? i).isSome := by decide +kernel

def tiledTurns : List (Fin 3 × Access .i32 2) :=
  [(0, .write false (corner 2 1) [1, 2, 3, 4]), (1, .read false (corner 2 1)),
    (2, .write true (corner 2 1) [8, 9]), (0, .read false (corner 2 1)),
    (2, .read false (corner (-1) 0))]

theorem session_represents_tiled :
    ∃ accessors : Fin 3 → Accessor .i32 2, (∀ i, tiledAccessor? i = some (accessors i)) ∧
      (session accessors (.host (Bytes.zeros 72)) tiledTurns).1 =
        [.ok none, .ok (some [3, 4]), .ok none, .ok (some [8, 9, 3, 4]), .ok (some [0, 0])] := by
  have hchoose : Layout.chooseWithCovering (.dense ⟨corner (-1) 0, corner 2 1⟩) tiles
      ⟨[[FieldSpec.natural 1 4, FieldSpec.natural 2 2], [FieldSpec.natural 3 1]]⟩ #v[1, 0] =
        .ok tiled :=
    toOption_eq_some.mp (by decide +kernel)
  have hopened : ∀ i, tiledAccessor? i =
      some ((tiledAccessor? i).get (isSome_tiledAccessor? i)) :=
    fun i => (Option.some_get _).symm
  have hturns : ∀ turn ∈ tiledTurns,
      (∃ bounds ∈ ((tiledAccessor? turn.1).get (isSome_tiledAccessor? turn.1)).bounds?,
          turn.2.point ∈ bounds) ∧
        (∃ r ∈ tiles, turn.2.point ∈ r) ∧ turn.2.Fits (tiledRequests turn.1).element := by
    decide +kernel
  obtain ⟨_, bytes, hsession, _⟩ := session_represents _ tiles _ #v[1, 0] tiled hchoose
    (by decide +kernel) (by decide +kernel) (by decide +kernel) _ (if_neg (by decide)) _
    tiledRequests _ _ (fun i => toOption_eq_some.mp (hopened i)) tiledTurns hturns
  have hreplies : ((Contents.blank tiled).session tiledRequests tiledTurns).1 =
      [none, some [3, 4], none, some [8, 9, 3, 4], some [0, 0]] := by
    decide +kernel
  rw [hreplies] at hsession
  exact ⟨_, hopened, congrArg Prod.fst hsession⟩

end RegionLayout
