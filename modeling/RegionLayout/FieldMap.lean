import RegionLayout.Fault

namespace RegionLayout

def Ascending {α : Type} (entries : List (FieldId × α)) : Prop :=
  entries.Pairwise fun a b => a.1 < b.1

structure FieldMap (α : Type) where
  entries : List (FieldId × α)
  ascending : Ascending entries

namespace FieldMap

variable {α : Type}

theorem ext {m m' : FieldMap α} (h : m.entries = m'.entries) : m = m' := by
  cases m; cases m'; simp_all

instance [DecidableEq α] : DecidableEq (FieldMap α) := fun m m' =>
  decidable_of_iff (m.entries = m'.entries) ⟨ext, congrArg entries⟩

def empty : FieldMap α := ⟨[], .nil⟩

def get? (m : FieldMap α) (id : FieldId) : Option α := m.entries.lookup id

/-- Puts an entry in its place, instead of the one of the same field if there is one. -/
def insertEntry (id : FieldId) (a : α) : List (FieldId × α) → List (FieldId × α)
  | [] => [(id, a)]
  | e :: rest =>
      if id < e.1 then (id, a) :: e :: rest
      else if id = e.1 then (id, a) :: rest
      else e :: insertEntry id a rest

theorem fst_of_mem_insertEntry {id : FieldId} {a : α} {entries : List (FieldId × α)}
    {e : FieldId × α} (he : e ∈ insertEntry id a entries) : e.1 = id ∨ e ∈ entries := by
  induction entries with
  | nil =>
    rw [insertEntry, List.mem_singleton] at he
    exact .inl (he ▸ rfl)
  | cons x rest ih =>
    rw [insertEntry] at he
    split at he
    · rcases List.mem_cons.mp he with rfl | h
      · exact .inl rfl
      · exact .inr h
    · split at he
      · rcases List.mem_cons.mp he with rfl | h
        · exact .inl rfl
        · exact .inr (List.mem_cons_of_mem _ h)
      · rcases List.mem_cons.mp he with rfl | h
        · exact .inr List.mem_cons_self
        · exact (ih h).imp_right (List.mem_cons_of_mem _)

theorem ascending_insertEntry (id : FieldId) (a : α) {entries : List (FieldId × α)}
    (h : Ascending entries) : Ascending (insertEntry id a entries) := by
  induction entries with
  | nil => exact List.pairwise_singleton _ _
  | cons x rest ih =>
    obtain ⟨hx, hrest⟩ := List.pairwise_cons.mp h
    rw [insertEntry]
    split
    case isTrue hlt =>
      refine List.pairwise_cons.mpr ⟨fun e he => ?_, h⟩
      rcases List.mem_cons.mp he with rfl | he
      · exact hlt
      · exact UInt32.lt_trans hlt (hx e he)
    case isFalse hge =>
      split
      case isTrue heq =>
        subst heq
        exact List.pairwise_cons.mpr ⟨hx, hrest⟩
      case isFalse hne =>
        refine List.pairwise_cons.mpr ⟨fun e he => ?_, ih hrest⟩
        rcases fst_of_mem_insertEntry he with heq | he
        · rw [heq]
          exact UInt32.lt_of_le_of_ne (UInt32.not_lt.mp hge) fun h => hne h.symm
        · exact hx e he

def insert (m : FieldMap α) (id : FieldId) (a : α) : FieldMap α :=
  ⟨insertEntry id a m.entries, ascending_insertEntry id a m.ascending⟩

theorem lookup_cons (id : FieldId) (e : FieldId × α) (rest : List (FieldId × α)) :
    (e :: rest).lookup id = if id = e.1 then some e.2 else rest.lookup id := by
  rw [List.lookup_cons]
  by_cases h : id = e.1
  · rw [if_pos h, beq_iff_eq.mpr h]
  · rw [if_neg h, beq_eq_false_iff_ne.mpr h]

theorem lookup_insertEntry (id id' : FieldId) (a : α) (entries : List (FieldId × α)) :
    (insertEntry id a entries).lookup id' = if id' = id then some a else entries.lookup id' := by
  induction entries with
  | nil => rw [insertEntry, lookup_cons]
  | cons e rest ih =>
    rw [insertEntry]
    split
    · rw [lookup_cons]
    · split
      case isTrue heq =>
        subst heq
        simp only [lookup_cons]
        split <;> rfl
      case isFalse hne =>
        simp only [lookup_cons, ih]
        by_cases h : id' = id
        · subst h
          simp only [hne, if_false, if_true]
        · simp only [h, if_false]

theorem get?_insert (m : FieldMap α) (id id' : FieldId) (a : α) :
    (m.insert id a).get? id' = if id' = id then some a else m.get? id' :=
  lookup_insertEntry id id' a m.entries

/-- The map of the given entries. Of several for one field the last counts. -/
def ofList (entries : List (FieldId × α)) : FieldMap α :=
  entries.foldl (fun m e => m.insert e.1 e.2) empty

end FieldMap

end RegionLayout
