import RegionLayout.Program.Memory

/-!
# A memory for one program

A memory gives its buffer away once and keeps the bytes put there. A commit is meant to come after
the allocation, but one that comes first is remembered, and then nothing holds the bytes back.
-/

namespace RegionLayout

/-- What is asked of a memory. Whoever is given the buffer fills it before anything else is
asked. -/
inductive MemoryCall where
  | allocate (size : Nat) (contents : Bytes)
  | commit

namespace ProgramMemory

/-- A memory of which nothing has been asked yet, with a limit or without. -/
def unused : Option Nat → ProgramMemory
  | none => fresh
  | some limit => withLimit limit

/-- The answer to a call, and the memory after it. -/
def perform (m : ProgramMemory) : MemoryCall → Except AllocError Unit × ProgramMemory
  | .allocate size contents =>
      match m.allocate size with
      | .ok m' => (.ok (), m'.write contents)
      | .error e => (.error e, m)
  | .commit => (.ok (), m.commit)

def after (m : ProgramMemory) (calls : List MemoryCall) : ProgramMemory :=
  calls.foldl (fun m call => (m.perform call).2) m

/-- The call at position `i` is an allocation, and it succeeds. -/
def AllocatesAt (m : ProgramMemory) (calls : List MemoryCall) (i : Nat) : Prop :=
  ∃ size contents, calls[i]? = some (.allocate size contents) ∧
    ((m.after (calls.take i)).perform (.allocate size contents)).1 = .ok ()

/-- There is a buffer to give, and no limit in the way. -/
def Grants (m : ProgramMemory) (size : Nat) : Prop :=
  m.buffer? = none ∧ ∀ limit, m.limit? = some limit → size ≤ limit

/-- A zeroed buffer of the size, as far as it has been filled. -/
def filled (size : Nat) (contents : Bytes) : Bytes :=
  contents.take size ++ (Bytes.zeros size).drop contents.length

variable {m : ProgramMemory} {call : MemoryCall} {calls : List MemoryCall} {limit? : Option Nat}
  {size i j : Nat} {contents bytes : Bytes}

section Step

theorem allocate_of_grants (h : m.Grants size) :
    m.allocate size = .ok { m with buffer? := some (Bytes.zeros size) } := by
  rw [allocate, h.1]
  cases hlimit : m.limit? with
  | none => rfl
  | some limit => exact if_neg (Nat.not_lt.mpr (h.2 limit hlimit))

theorem allocate_of_not_grants (h : ¬ m.Grants size) : ∃ e, m.allocate size = .error e := by
  rw [allocate]
  cases hbuffer : m.buffer? with
  | some buffer => exact ⟨_, rfl⟩
  | none =>
    cases hlimit : m.limit? with
    | none => exact absurd ⟨hbuffer, by simp [hlimit]⟩ h
    | some limit =>
      have hlt : limit < size := by
        rw [← Nat.not_le]
        intro hle
        exact h ⟨hbuffer, by simp [hlimit, hle]⟩
      exact ⟨_, if_pos hlt⟩

theorem perform_of_grants (h : m.Grants size) (contents : Bytes) :
    m.perform (.allocate size contents) =
      (.ok (), { m with buffer? := some (filled size contents) }) := by
  simp [perform, allocate_of_grants h, write, filled, Bytes.zeros]

theorem perform_of_not_grants (h : ¬ m.Grants size) (contents : Bytes) :
    ∃ e, m.perform (.allocate size contents) = (.error e, m) := by
  obtain ⟨e, he⟩ := allocate_of_not_grants h
  exact ⟨e, by rw [perform, he]⟩

theorem perform_eq_ok_iff :
    (m.perform (.allocate size contents)).1 = .ok () ↔ m.Grants size := by
  by_cases h : m.Grants size
  · simp [perform_of_grants h, h]
  · obtain ⟨e, he⟩ := perform_of_not_grants h contents
    simp [he, h]

theorem limit?_perform (m : ProgramMemory) (call : MemoryCall) :
    (m.perform call).2.limit? = m.limit? := by
  cases call with
  | commit => rfl
  | allocate size contents =>
    by_cases h : m.Grants size
    · rw [perform_of_grants h]
    · obtain ⟨e, he⟩ := perform_of_not_grants h contents
      rw [he]

theorem buffer?_perform (h : m.buffer? = some bytes) (call : MemoryCall) :
    (m.perform call).2.buffer? = some bytes := by
  cases call with
  | commit => exact h
  | allocate size contents =>
    have hgiven : ¬ m.Grants size := by simp [Grants, h]
    obtain ⟨e, he⟩ := perform_of_not_grants hgiven contents
    rw [he]
    exact h

theorem committed_perform (m : ProgramMemory) (call : MemoryCall) :
    (m.perform call).2.committed = true ↔ m.committed = true ∨ call = .commit := by
  cases call with
  | commit => simp [perform, commit]
  | allocate size contents =>
    by_cases h : m.Grants size
    · simp [perform_of_grants h]
    · obtain ⟨e, he⟩ := perform_of_not_grants h contents
      simp [he]

end Step

theorem after_append (m : ProgramMemory) (calls more : List MemoryCall) :
    m.after (calls ++ more) = (m.after calls).after more := List.foldl_append

theorem limit?_after (m : ProgramMemory) (calls : List MemoryCall) :
    (m.after calls).limit? = m.limit? := by
  induction calls generalizing m with
  | nil => rfl
  | cons call calls ih => exact (ih (m.perform call).2).trans (m.limit?_perform call)

theorem buffer?_after (h : m.buffer? = some bytes) (calls : List MemoryCall) :
    (m.after calls).buffer? = some bytes := by
  induction calls generalizing m with
  | nil => exact h
  | cons call calls ih => exact ih (buffer?_perform h call)

theorem committed_after (m : ProgramMemory) (calls : List MemoryCall) :
    (m.after calls).committed = true ↔ m.committed = true ∨ .commit ∈ calls := by
  induction calls generalizing m with
  | nil => simp [after]
  | cons call calls ih =>
    have hstep := ih (m.perform call).2
    rw [committed_perform, or_assoc] at hstep
    rw [List.mem_cons, eq_comm (a := MemoryCall.commit)]
    exact hstep

theorem allocatesAt_iff : m.AllocatesAt calls i ↔
    ∃ size contents, calls[i]? = some (.allocate size contents) ∧
      (m.after (calls.take i)).Grants size := by
  simp only [AllocatesAt, perform_eq_ok_iff]

theorem buffer?_perform_eq_none_iff (m : ProgramMemory) (call : MemoryCall)
    (calls : List MemoryCall) :
    (m.perform call).2.buffer? = none ↔
      m.buffer? = none ∧ ¬ m.AllocatesAt (call :: calls) 0 := by
  cases call with
  | commit => simp [perform, commit, AllocatesAt]
  | allocate size contents =>
    have hfirst : m.AllocatesAt (.allocate size contents :: calls) 0 ↔ m.Grants size := by
      simp [allocatesAt_iff, after]
    rw [hfirst]
    by_cases h : m.Grants size
    · simp [perform_of_grants h, h]
    · obtain ⟨e, he⟩ := perform_of_not_grants h contents
      simp [he, h]

theorem buffer?_after_eq_none_iff (m : ProgramMemory) (calls : List MemoryCall) :
    (m.after calls).buffer? = none ↔ m.buffer? = none ∧ ∀ i, ¬ m.AllocatesAt calls i := by
  induction calls generalizing m with
  | nil => simp [after, AllocatesAt]
  | cons call calls ih =>
    calc (m.after (call :: calls)).buffer? = none
        ↔ (m.perform call).2.buffer? = none ∧
            ∀ i, ¬ (m.perform call).2.AllocatesAt calls i := ih _
      _ ↔ m.buffer? = none ∧ ¬ m.AllocatesAt (call :: calls) 0 ∧
            ∀ i, ¬ m.AllocatesAt (call :: calls) (i + 1) := by
          rw [buffer?_perform_eq_none_iff m call calls, and_assoc]
          rfl
      _ ↔ m.buffer? = none ∧ ∀ i, ¬ m.AllocatesAt (call :: calls) i :=
          and_congr_right'
            (Nat.and_forall_add_one (p := fun i => ¬ m.AllocatesAt (call :: calls) i))

theorem allocatesAt_iff_grants (hi : calls[i]? = some (.allocate size contents)) :
    m.AllocatesAt calls i ↔ (m.after (calls.take i)).Grants size := by
  rw [allocatesAt_iff]
  constructor
  · intro h
    obtain ⟨size', contents', hi', hgrants⟩ := h
    rw [hi, Option.some.injEq, MemoryCall.allocate.injEq] at hi'
    rw [hi'.1]
    exact hgrants
  · intro h
    exact ⟨size, contents, hi, h⟩

theorem allocatesAt_take (h : j < i) : m.AllocatesAt (calls.take i) j ↔ m.AllocatesAt calls j := by
  rw [AllocatesAt, AllocatesAt, List.getElem?_take_of_lt h, List.take_take,
    Nat.min_eq_left (Nat.le_of_lt h)]

theorem lt_length_of_allocatesAt (h : m.AllocatesAt calls i) : i < calls.length := by
  obtain ⟨size, contents, hi, _⟩ := h
  exact (List.getElem?_eq_some_iff.mp hi).1

theorem buffer?_take_eq_none_iff (hm : m.buffer? = none) (i : Nat) :
    (m.after (calls.take i)).buffer? = none ↔ ∀ j, j < i → ¬ m.AllocatesAt calls j := by
  rw [buffer?_after_eq_none_iff, and_iff_right hm]
  constructor
  · intro h j hj
    rw [← allocatesAt_take hj]
    exact h j
  · intro h j hj
    have hlt : j < i := by
      have := lt_length_of_allocatesAt hj
      rw [List.length_take] at this
      omega
    exact h j hlt ((allocatesAt_take hlt).mp hj)

/-- An allocation succeeds if it is the first to do so and asks for no more than the limit. -/
theorem allocatesAt_iff_first (hm : m.buffer? = none)
    (hi : calls[i]? = some (.allocate size contents)) :
    m.AllocatesAt calls i ↔ (∀ j, j < i → ¬ m.AllocatesAt calls j) ∧
      ∀ limit, m.limit? = some limit → size ≤ limit := by
  rw [allocatesAt_iff_grants hi, Grants, buffer?_take_eq_none_iff hm, limit?_after]

theorem eq_of_allocatesAt (hm : m.buffer? = none) (hi : m.AllocatesAt calls i)
    (hj : m.AllocatesAt calls j) : i = j := by
  have hfirst : ∀ {k : Nat}, m.AllocatesAt calls k → ∀ l, l < k → ¬ m.AllocatesAt calls l := by
    intro k hk
    obtain ⟨size, contents, hcall, _⟩ := id hk
    exact ((allocatesAt_iff_first hm hcall).mp hk).1
  rcases Nat.lt_trichotomy i j with hlt | heq | hgt
  · exact absurd hi (hfirst hj i hlt)
  · exact heq
  · exact absurd hj (hfirst hi j hgt)

theorem after_take_succ (hi : calls[i]? = some call) :
    m.after (calls.take (i + 1)) = ((m.after (calls.take i)).perform call).2 := by
  rw [List.take_add_one, hi, after_append]
  rfl

theorem after_of_not_allocatesAt (hi : calls[i]? = some (.allocate size contents))
    (h : ¬ m.AllocatesAt calls i) : m.after (calls.take (i + 1)) = m.after (calls.take i) := by
  rw [allocatesAt_iff_grants hi] at h
  obtain ⟨e, he⟩ := perform_of_not_grants h contents
  rw [after_take_succ hi, he]

theorem buffer?_of_allocatesAt (hi : calls[i]? = some (.allocate size contents))
    (h : m.AllocatesAt calls i) : (m.after calls).buffer? = some (filled size contents) := by
  rw [allocatesAt_iff_grants hi] at h
  have hfilled : (m.after (calls.take (i + 1))).buffer? = some (filled size contents) := by
    rw [after_take_succ hi, perform_of_grants h]
  rw [← List.take_append_drop (i + 1) calls, after_append]
  exact buffer?_after hfilled _

theorem isSome_committedBytes?_iff :
    m.committedBytes?.isSome ↔ m.buffer? ≠ none ∧ m.committed = true := by
  rw [committedBytes?, ← Option.isSome_iff_ne_none]
  split
  case isTrue h => simp [h]
  case isFalse h => simp [h]

@[simp] theorem buffer?_unused (limit? : Option Nat) : (unused limit?).buffer? = none := by
  cases limit? <;> rfl

@[simp] theorem committed_unused (limit? : Option Nat) : (unused limit?).committed = false := by
  cases limit? <;> rfl

@[simp] theorem limit?_unused (limit? : Option Nat) : (unused limit?).limit? = limit? := by
  cases limit? <;> rfl

/-- Bytes are visible after an allocation and a commit, whichever came first. -/
theorem isSome_committedBytes?_after (limit? : Option Nat) (calls : List MemoryCall) :
    ((unused limit?).after calls).committedBytes?.isSome ↔
      (∃ i, (unused limit?).AllocatesAt calls i) ∧ .commit ∈ calls := by
  rw [isSome_committedBytes?_iff, ne_eq, buffer?_after_eq_none_iff, committed_after]
  simp

theorem isSome_committedBytes?_of_ordered
    (h : ∀ i, (unused limit?).AllocatesAt calls i → .commit ∉ calls.take i) :
    ((unused limit?).after calls).committedBytes?.isSome ↔
      ∃ i j, (unused limit?).AllocatesAt calls i ∧ i < j ∧ calls[j]? = some .commit := by
  rw [isSome_committedBytes?_after]
  constructor
  · intro hvisible
    obtain ⟨⟨i, hi⟩, hcommit⟩ := hvisible
    obtain ⟨j, hj⟩ := List.mem_iff_getElem?.mp hcommit
    refine ⟨i, j, hi, ?_, hj⟩
    obtain ⟨size, contents, hcall, _⟩ := id hi
    rcases Nat.lt_trichotomy i j with hlt | heq | hgt
    · exact hlt
    · rw [heq, hj] at hcall
      cases hcall
    · have hearlier : MemoryCall.commit ∈ calls.take i :=
        List.mem_iff_getElem?.mpr ⟨j, by rw [List.getElem?_take_of_lt hgt, hj]⟩
      exact absurd hearlier (h i hi)
  · intro hordered
    obtain ⟨i, j, hi, _, hj⟩ := hordered
    exact ⟨⟨i, hi⟩, List.mem_of_getElem? hj⟩

theorem committedBytes?_after (h : m.committedBytes? = some bytes) (calls : List MemoryCall) :
    (m.after calls).committedBytes? = some bytes := by
  rw [committedBytes?] at h ⊢
  split at h
  case isTrue hcommitted =>
    rw [if_pos ((committed_after m calls).mpr (.inl hcommitted))]
    exact buffer?_after h calls
  case isFalse => contradiction

/-- At most one allocation succeeds, and it is the first that asks for no more than the limit; all
others leave the memory as it was. Bytes are visible after an allocation and a commit. If no commit
comes before the allocation, that takes a commit after it. What is visible is what the allocation
has been filled with, and stays so. -/
theorem visible_once (limit? : Option Nat) (calls : List MemoryCall) :
    (∀ i j, (unused limit?).AllocatesAt calls i → (unused limit?).AllocatesAt calls j → i = j) ∧
    (∀ i size contents, calls[i]? = some (.allocate size contents) →
      ((unused limit?).AllocatesAt calls i ↔
        (∀ j, j < i → ¬ (unused limit?).AllocatesAt calls j) ∧
          ∀ limit, limit? = some limit → size ≤ limit) ∧
      (¬ (unused limit?).AllocatesAt calls i →
        (unused limit?).after (calls.take (i + 1)) = (unused limit?).after (calls.take i)) ∧
      ((unused limit?).AllocatesAt calls i →
        ((unused limit?).after calls).buffer? = some (filled size contents))) ∧
    (((unused limit?).after calls).committedBytes?.isSome ↔
      (∃ i, (unused limit?).AllocatesAt calls i) ∧ .commit ∈ calls) ∧
    ((∀ i, (unused limit?).AllocatesAt calls i → .commit ∉ calls.take i) →
      (((unused limit?).after calls).committedBytes?.isSome ↔
        ∃ i j, (unused limit?).AllocatesAt calls i ∧ i < j ∧ calls[j]? = some .commit)) ∧
    (∀ bytes, ((unused limit?).after calls).committedBytes? = some bytes →
      ∀ more, ((unused limit?).after (calls ++ more)).committedBytes? = some bytes) := by
  have hbuffer := buffer?_unused limit?
  refine ⟨fun i j => eq_of_allocatesAt hbuffer, ?_, isSome_committedBytes?_after limit? calls,
    isSome_committedBytes?_of_ordered, ?_⟩
  · intro i size contents hi
    have hfirst := allocatesAt_iff_first hbuffer hi
    rw [limit?_unused] at hfirst
    exact ⟨hfirst, after_of_not_allocatesAt hi, buffer?_of_allocatesAt hi⟩
  · intro bytes h more
    rw [after_append]
    exact committedBytes?_after h more

/-- A commit that comes first lets a byte be seen that is written after it. -/
theorem not_all_visible_committed :
    ¬ ∀ (limit? : Option Nat) (calls : List MemoryCall),
      ((unused limit?).after calls).committedBytes?.isSome ↔
        ∃ i j, (unused limit?).AllocatesAt calls i ∧ i < j ∧ calls[j]? = some .commit := by
  intro h
  have hvisible : ((unused none).after [.commit, .allocate 1 [7]]).committedBytes? = some [7] := by
    decide
  obtain ⟨i, j, _, hlt, hj⟩ := (h none [.commit, .allocate 1 [7]]).mp (by rw [hvisible]; rfl)
  obtain ⟨k, rfl⟩ := Nat.exists_eq_succ_of_ne_zero (Nat.ne_zero_of_lt hlt)
  have hlater : MemoryCall.commit ∈ [MemoryCall.allocate 1 [7]] := List.mem_of_getElem? hj
  simp at hlater

end ProgramMemory

end RegionLayout
