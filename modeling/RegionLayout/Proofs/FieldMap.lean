import RegionLayout.FieldMap

namespace RegionLayout.FieldMap

variable {α : Type}

theorem lookup_eq_some_iff {id : FieldId} {a : α} {entries : List (FieldId × α)}
    (h : Ascending entries) : entries.lookup id = some a ↔ (id, a) ∈ entries := by
  induction entries with
  | nil => simp
  | cons e rest ih =>
    obtain ⟨hfirst, hrest⟩ := List.pairwise_cons.mp h
    rw [lookup_cons, List.mem_cons]
    by_cases he : id = e.1
    · subst he
      have hout : (e.1, a) ∉ rest := fun hmem =>
        UInt32.lt_irrefl _ (hfirst (e.1, a) hmem)
      rw [if_pos rfl, Option.some.injEq, or_iff_left hout]
      exact ⟨fun ha => by rw [← ha], fun ha => by rw [← ha]⟩
    · have hne : (id, a) ≠ e := fun hmem => he (congrArg Prod.fst hmem)
      rw [if_neg he, ih hrest, or_iff_right hne]

theorem get?_eq_some_iff (m : FieldMap α) {id : FieldId} {a : α} :
    m.get? id = some a ↔ (id, a) ∈ m.entries :=
  lookup_eq_some_iff m.ascending

theorem get?_empty (id : FieldId) : (empty : FieldMap α).get? id = none := rfl

theorem get?_insert_self (m : FieldMap α) (id : FieldId) (a : α) :
    (m.insert id a).get? id = some a := by
  rw [get?_insert, if_pos rfl]

theorem get?_insert_of_new {m : FieldMap α} {id id' : FieldId} {a a' : α}
    (hnew : m.get? id = none) (h : m.get? id' = some a') :
    (m.insert id a).get? id' = some a' := by
  have hne : id' ≠ id := by
    rintro rfl
    rw [hnew] at h
    contradiction
  rw [get?_insert, if_neg hne, h]

theorem of_get?_insert {m : FieldMap α} {id id' : FieldId} {a a' : α}
    (h : (m.insert id a).get? id' = some a') :
    id' = id ∧ a' = a ∨ m.get? id' = some a' := by
  rw [get?_insert] at h
  split at h
  case isTrue hid => exact .inl ⟨hid, (Option.some.inj h).symm⟩
  case isFalse => exact .inr h

private theorem insertEntry_last {id : FieldId} {a : α} {entries : List (FieldId × α)}
    (h : ∀ e ∈ entries, e.1 < id) : insertEntry id a entries = entries ++ [(id, a)] := by
  induction entries with
  | nil => rfl
  | cons e rest ih =>
    have he : e.1 < id := h e List.mem_cons_self
    have hnot : ¬ id < e.1 := UInt32.lt_asymm he
    have hne : id ≠ e.1 := (UInt32.ne_of_lt he).symm
    rw [insertEntry, if_neg hnot, if_neg hne, ih fun e he => h e (List.mem_cons_of_mem _ he),
      List.cons_append]

private theorem foldl_insert_ascending {m : FieldMap α} {rest : List (FieldId × α)}
    (h : Ascending (m.entries ++ rest)) :
    (rest.foldl (fun m e => m.insert e.1 e.2) m).entries = m.entries ++ rest := by
  induction rest generalizing m with
  | nil => rw [List.foldl_nil, List.append_nil]
  | cons e rest ih =>
    have hbefore : ∀ e' ∈ m.entries, e'.1 < e.1 := fun e' he' =>
      (List.pairwise_append.mp h).2.2 e' he' e List.mem_cons_self
    have hentries : (m.insert e.1 e.2).entries = m.entries ++ [e] := insertEntry_last hbefore
    have hsplit : m.entries ++ e :: rest = (m.insert e.1 e.2).entries ++ rest := by
      rw [hentries, List.append_assoc, List.singleton_append]
    rw [hsplit] at h ⊢
    exact ih h

theorem ofList_entries (m : FieldMap α) : ofList m.entries = m :=
  ext (foldl_insert_ascending m.ascending)

private theorem length_add_le {entries : List (FieldId × α)} (h : Ascending entries) {lower : Nat}
    (hlower : lower ≤ UInt32.size) (hall : ∀ e ∈ entries, lower ≤ e.1.toNat) :
    entries.length + lower ≤ UInt32.size := by
  induction entries generalizing lower with
  | nil => simpa using hlower
  | cons e rest ih =>
    obtain ⟨hfirst, hrest⟩ := List.pairwise_cons.mp h
    have he : lower ≤ e.1.toNat := hall e List.mem_cons_self
    have hlt : e.1.toNat < UInt32.size := e.1.toNat_lt_size
    have hle : rest.length + (e.1.toNat + 1) ≤ UInt32.size :=
      ih hrest hlt fun e' he' => UInt32.lt_iff_toNat_lt.mp (hfirst e' he')
    rw [List.length_cons]
    omega

theorem length_entries_le (m : FieldMap α) : m.entries.length ≤ UInt32.size :=
  length_add_le m.ascending (Nat.zero_le _) fun _ _ => Nat.zero_le _

private theorem length_insertEntry_le (id : FieldId) (a : α) (entries : List (FieldId × α)) :
    (insertEntry id a entries).length ≤ entries.length + 1 := by
  induction entries with
  | nil => exact Nat.le_refl _
  | cons e rest ih =>
    rw [insertEntry]
    split
    · exact Nat.le_refl _
    · split
      · exact Nat.le_succ _
      · exact Nat.succ_le_succ ih

theorem length_ofList_le (entries : List (FieldId × α)) :
    (ofList entries).entries.length ≤ entries.length := by
  have hfold : ∀ (rest : List (FieldId × α)) (m : FieldMap α),
      (rest.foldl (fun m e => m.insert e.1 e.2) m).entries.length ≤
        m.entries.length + rest.length := by
    intro rest
    induction rest with
    | nil => exact fun m => Nat.le_refl _
    | cons e rest ih =>
      intro m
      have hstep : (m.insert e.1 e.2).entries.length ≤ m.entries.length + 1 :=
        length_insertEntry_le e.1 e.2 m.entries
      have hrest := ih (m.insert e.1 e.2)
      rw [List.foldl_cons, List.length_cons]
      omega
  have h := hfold entries empty
  rwa [empty, List.length_nil, Nat.zero_add] at h

theorem mem_of_get?_ofList {entries : List (FieldId × α)} {id : FieldId} {a : α}
    (h : (ofList entries).get? id = some a) : (id, a) ∈ entries := by
  have hfold : ∀ (rest : List (FieldId × α)) (m : FieldMap α),
      (rest.foldl (fun m e => m.insert e.1 e.2) m).get? id = some a →
        (id, a) ∈ rest ∨ m.get? id = some a := by
    intro rest
    induction rest with
    | nil => exact fun m => Or.inr
    | cons e rest ih =>
      intro m hget
      rcases ih _ hget with hmem | hstep
      · exact .inl (List.mem_cons_of_mem e hmem)
      · rcases of_get?_insert hstep with ⟨rfl, rfl⟩ | hbefore
        · exact .inl List.mem_cons_self
        · exact .inr hbefore
  rcases hfold entries empty h with hmem | hnone
  · exact hmem
  · rw [get?_empty] at hnone
    contradiction

section Free

variable {fields fields' fields'' : FieldMap α} {ids ids' : List FieldId}

/-- The fields are not in the map, and each is named once. -/
def Free (fields : FieldMap α) (ids : List FieldId) : Prop :=
  (∀ id ∈ ids, fields.get? id = none) ∧ ids.Nodup

/-- The second map has the given fields besides those of the first. -/
def Gains (fields : FieldMap α) (ids : List FieldId) (fields' : FieldMap α) : Prop :=
  ∀ id, fields'.get? id = none ↔ fields.get? id = none ∧ id ∉ ids

theorem gains_nil (fields : FieldMap α) : fields.Gains [] fields := by
  intro id
  simp

theorem gains_insert (fields : FieldMap α) (id : FieldId) (a : α) :
    fields.Gains [id] (fields.insert id a) := by
  intro id'
  rw [get?_insert, List.mem_singleton]
  split <;> simp [*]

theorem Gains.append (h : fields.Gains ids fields') (h' : fields'.Gains ids' fields'') :
    fields.Gains (ids ++ ids') fields'' := by
  intro id
  rw [h', h, List.mem_append, not_or, and_assoc]

theorem free_nil (fields : FieldMap α) : fields.Free [] := ⟨by simp, .nil⟩

theorem free_singleton {id : FieldId} (h : fields.get? id = none) : fields.Free [id] :=
  ⟨by simpa using h, List.pairwise_singleton _ _⟩

theorem Free.left (h : fields.Free (ids ++ ids')) : fields.Free ids :=
  ⟨fun id hid => h.1 id (List.mem_append_left _ hid), (List.nodup_append.mp h.2).1⟩

theorem free_append (h : fields.Gains ids fields') (hfree : fields.Free ids)
    (ids' : List FieldId) : fields.Free (ids ++ ids') ↔ fields'.Free ids' := by
  constructor
  · rintro ⟨hnew, hnodup⟩
    obtain ⟨_, hnodup', hapart⟩ := List.nodup_append.mp hnodup
    refine ⟨fun id hid => (h id).mpr ⟨hnew id (List.mem_append_right _ hid), ?_⟩, hnodup'⟩
    exact fun hid' => hapart id hid' id hid rfl
  · rintro ⟨hnew, hnodup⟩
    refine ⟨fun id hid => ?_, List.nodup_append.mpr ⟨hfree.2, hnodup, ?_⟩⟩
    · rcases List.mem_append.mp hid with hid | hid
      · exact hfree.1 id hid
      · exact ((h id).mp (hnew id hid)).1
    · rintro id hid id' hid' rfl
      exact ((h id).mp (hnew id hid')).2 hid

end Free

end RegionLayout.FieldMap
