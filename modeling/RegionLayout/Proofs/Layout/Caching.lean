import RegionLayout.Layout.Cached
import RegionLayout.Layout.Decode

/-!
# Cached programs are never stale

Any number of layouts are made, copied, moved and asked, in any order. Whatever program one of them
has kept is that of its present pieces.
-/

namespace RegionLayout

/-- Layouts, each known by its position. -/
abbrev LayoutStore (t : CoordType) (n : Nat) := List (CachedLayout t n)

/-- What can be asked of a store. New layouts are put at its end. -/
inductive LayoutCall (t : CoordType) (n : Nat) where
  | make (layout : Layout t n)
  | read (bytes : Bytes)
  | copy (i : Nat)
  | relocated (i : Nat) (delta : UInt64)
  | relocate (i : Nat) (delta : UInt64)
  | program (i : Nat)
  | compile (i : Nat) (memory : ProgramMemory) (options : CompileOptions)
  | same (i j : Nat)
  | offset (i : Nat) (id : FieldId) (p : Point t n)
  | write (i : Nat) (room : Nat)

inductive LayoutReply (t : CoordType) (n : Nat) where
  | unknown
  | stored (i : Nat)
  | unreadable (e : ReadError)
  | moved
  | program (result : Except (Failure CompileError) (Program t n))
  | same (answer : Bool)
  | offset (offset? : Option UInt64)
  | written (result : Except WriteError Bytes)

/-- The layouts a call is about. -/
def LayoutCall.subjects {t : CoordType} {n : Nat} : LayoutCall t n → List Nat
  | .make _ | .read _ => []
  | .copy i | .relocated i _ | .relocate i _ | .program i | .compile i _ _ | .offset i _ _
  | .write i _ => [i]
  | .same i j => [i, j]

namespace CachedLayout

variable {t : CoordType} {n : Nat} {c : CachedLayout t n}

/-- What has been kept is what compiling now would give. -/
def Fresh (c : CachedLayout t n) : Prop :=
  ∀ result, c.program? = some result → c.layout.defaultProgram = result.mapError .error

theorem fresh_ofLayout (layout : Layout t n) : (ofLayout layout).Fresh := by
  intro result h
  contradiction

@[simp] theorem layout_program (c : CachedLayout t n) : c.program.2.layout = c.layout := by
  rw [program]
  split
  · rfl
  · split <;> rfl

theorem Fresh.program_eq (h : c.Fresh) : c.program.1 = c.layout.defaultProgram := by
  rw [program]
  split
  case h_1 result hkept => exact (h result hkept).symm
  case h_2 =>
    split
    case h_1 hresult => exact hresult.symm
    case h_2 hresult => exact hresult.symm
    case h_3 hresult => exact hresult.symm

theorem Fresh.program (h : c.Fresh) : c.program.2.Fresh := by
  rw [CachedLayout.program]
  split
  case h_1 => exact h
  case h_2 =>
    split
    case h_1 hresult =>
      intro result hkept
      cases hkept
      exact hresult
    case h_2 hresult =>
      intro result hkept
      cases hkept
      exact hresult
    -- a fault leaves nothing behind
    case h_3 => exact h

end CachedLayout

namespace LayoutStore

open CachedLayout

variable {t : CoordType} {n : Nat} {store store' : LayoutStore t n} {hidden : List Nat}

/-- A call about the layout at a position. -/
def about (store : LayoutStore t n) (i : Nat)
    (call : CachedLayout t n → LayoutReply t n × LayoutStore t n) :
    LayoutReply t n × LayoutStore t n :=
  match store[i]? with
  | some c => call c
  | none => (.unknown, store)

/-- Keeps a new layout. -/
def keep (store : LayoutStore t n) (c : CachedLayout t n) : LayoutReply t n × LayoutStore t n :=
  (.stored store.length, store ++ [c])

def perform (store : LayoutStore t n) : LayoutCall t n → LayoutReply t n × LayoutStore t n
  | .make layout => store.keep (ofLayout layout)
  | .read bytes =>
      match Layout.read t n bytes with
      | .ok (layout, _) => store.keep (ofLayout layout)
      | .error e => (.unreadable e, store)
  | .copy i => store.about i fun c => store.keep c.copy
  | .relocated i delta => store.about i fun c => store.keep (c.relocated delta)
  | .relocate i delta => store.about i fun c => (.moved, store.set i (c.relocate delta))
  | .program i => store.about i fun c => (.program c.program.1, store.set i c.program.2)
  | .compile i memory options =>
      store.about i fun c => (.program (c.layout.compile memory options), store)
  | .same i j => store.about i fun c => store.about j fun c' => (.same (c.Same c'), store)
  | .offset i id p => store.about i fun c => (.offset (c.layout.offset? id p), store)
  | .write i room => store.about i fun c => (.written (c.layout.encodeInto room), store)

/-- Calls one after the other. What they answered, and the layouts afterwards. -/
def run (store : LayoutStore t n) :
    List (LayoutCall t n) → List (LayoutReply t n) × LayoutStore t n
  | [] => ([], store)
  | call :: calls =>
      let (reply, store) := store.perform call
      let (replies, store) := run store calls
      (reply :: replies, store)

theorem run_cons (store : LayoutStore t n) (call : LayoutCall t n)
    (calls : List (LayoutCall t n)) : store.run (call :: calls) =
      ((store.perform call).1 :: ((store.perform call).2.run calls).1,
        ((store.perform call).2.run calls).2) := rfl

/-- No layout has kept anything stale. -/
def Fresh (store : LayoutStore t n) : Prop := ∀ c ∈ store, c.Fresh

/-- The same layouts at the same positions, except for the hidden ones, whatever is kept. -/
structure Alike (hidden : List Nat) (store store' : LayoutStore t n) : Prop where
  length_eq : store.length = store'.length
  layout_eq : ∀ i ∉ hidden, store[i]?.map layout = store'[i]?.map layout

theorem Fresh.keep (h : store.Fresh) {c : CachedLayout t n} (hc : c.Fresh) :
    (store.keep c).2.Fresh := by
  intro c' hmem
  rcases List.mem_append.mp hmem with hold | hnew
  · exact h c' hold
  · exact List.mem_singleton.mp hnew ▸ hc

theorem Fresh.set (h : store.Fresh) (i : Nat) {c : CachedLayout t n} (hc : c.Fresh) :
    Fresh (store.set i c) := by
  intro c' hmem
  rcases List.mem_or_eq_of_mem_set hmem with hold | rfl
  · exact h c' hold
  · exact hc

theorem Fresh.about {call : CachedLayout t n → LayoutReply t n × LayoutStore t n}
    (h : store.Fresh) (i : Nat) (hcall : ∀ c, c.Fresh → (call c).2.Fresh) :
    (store.about i call).2.Fresh := by
  rw [LayoutStore.about]
  split
  case h_1 c hc => exact hcall c (h c (List.mem_of_getElem? hc))
  case h_2 => exact h

theorem Fresh.perform (h : store.Fresh) (call : LayoutCall t n) : (store.perform call).2.Fresh := by
  cases call with
  | make layout => exact h.keep (fresh_ofLayout layout)
  | read bytes =>
    rw [LayoutStore.perform]
    split
    case h_1 layout _ _ => exact h.keep (fresh_ofLayout layout)
    case h_2 => exact h
  | copy i => exact h.about i fun c _ => h.keep (fresh_ofLayout _)
  | relocated i delta => exact h.about i fun c _ => h.keep (fresh_ofLayout _)
  | relocate i delta => exact h.about i fun c _ => h.set i (fresh_ofLayout _)
  | program i => exact h.about i fun c hc => h.set i hc.program
  | compile i memory options => exact h.about i fun _ _ => h
  | same i j => exact h.about i fun _ _ => h.about j fun _ _ => h
  | offset i id p => exact h.about i fun _ _ => h
  | write i room => exact h.about i fun _ _ => h

theorem Fresh.run (h : store.Fresh) (calls : List (LayoutCall t n)) :
    (store.run calls).2.Fresh := by
  induction calls generalizing store with
  | nil => exact h
  | cons call calls ih => exact ih (h.perform call)

theorem fresh_nil : Fresh ([] : LayoutStore t n) := by
  intro c hmem
  contradiction

namespace Alike

theorem keep (h : Alike hidden store store') {c c' : CachedLayout t n} (hc : c.layout = c'.layout) :
    (store.keep c).1 = (store'.keep c').1 ∧
      Alike hidden (store.keep c).2 (store'.keep c').2 := by
  refine ⟨congrArg LayoutReply.stored h.length_eq, ?_, ?_⟩
  · simp [LayoutStore.keep, h.length_eq]
  · intro i hi
    have hlayout := h.layout_eq i hi
    simp only [LayoutStore.keep, List.getElem?_append, h.length_eq]
    split
    case isTrue => exact hlayout
    case isFalse =>
      cases i - store'.length with
      | zero => exact congrArg some hc
      | succ k => rfl

theorem set (h : Alike hidden store store') (i : Nat) {c c' : CachedLayout t n}
    (hc : c.layout = c'.layout) : Alike hidden (store.set i c) (store'.set i c') := by
  constructor
  · simp [h.length_eq]
  · intro j hj
    have hlayout := h.layout_eq j hj
    simp only [List.getElem?_set, h.length_eq]
    split
    case isTrue =>
      split
      case isTrue => exact congrArg some hc
      case isFalse => rfl
    case isFalse => exact hlayout

theorem about (h : Alike hidden store store') {i : Nat} (hi : i ∉ hidden)
    {call call' : CachedLayout t n → LayoutReply t n × LayoutStore t n}
    (hcall : ∀ c c', store[i]? = some c → store'[i]? = some c' → c.layout = c'.layout →
      (call c).1 = (call' c').1 ∧ Alike hidden (call c).2 (call' c').2) :
    (store.about i call).1 = (store'.about i call').1 ∧
      Alike hidden (store.about i call).2 (store'.about i call').2 := by
  have hlayout := h.layout_eq i hi
  rw [LayoutStore.about, LayoutStore.about]
  cases hc : store[i]? with
  | none =>
    rw [hc, Option.map_none, eq_comm, Option.map_eq_none_iff] at hlayout
    rw [hlayout]
    exact ⟨rfl, h⟩
  | some c =>
    rw [hc, Option.map_some, eq_comm, Option.map_eq_some_iff] at hlayout
    obtain ⟨c', hc', heq⟩ := hlayout
    rw [hc']
    exact hcall c c' hc hc' heq.symm

/-- Stores that are alike answer alike, and stay so, as long as no hidden layout is named. -/
theorem perform (h : Alike hidden store store') (hfresh : store.Fresh) (hfresh' : store'.Fresh)
    {call : LayoutCall t n} (hseen : ∀ i ∈ call.subjects, i ∉ hidden) :
    (store.perform call).1 = (store'.perform call).1 ∧
      Alike hidden (store.perform call).2 (store'.perform call).2 := by
  have hfirst : ∀ {i rest}, call.subjects = i :: rest → i ∉ hidden := by
    intro i rest heq
    exact hseen i (heq ▸ List.mem_cons_self)
  cases call with
  | make layout => exact h.keep rfl
  | read bytes =>
    rw [LayoutStore.perform, LayoutStore.perform]
    split
    case h_1 => exact h.keep rfl
    case h_2 => exact ⟨rfl, h⟩
  | copy i =>
    apply h.about (hfirst rfl)
    intro c c' _ _ heq
    exact h.keep heq
  | relocated i delta =>
    apply h.about (hfirst rfl)
    intro c c' _ _ heq
    exact h.keep (congrArg (Layout.relocate · delta) heq)
  | relocate i delta =>
    apply h.about (hfirst rfl)
    intro c c' _ _ heq
    exact ⟨rfl, h.set i (congrArg (Layout.relocate · delta) heq)⟩
  | program i =>
    apply h.about (hfirst rfl)
    intro c c' hc hc' heq
    have hkept := hfresh c (List.mem_of_getElem? hc)
    have hkept' := hfresh' c' (List.mem_of_getElem? hc')
    constructor
    · rw [hkept.program_eq, hkept'.program_eq, heq]
    · apply h.set
      rw [layout_program, layout_program, heq]
  | compile i memory options =>
    apply h.about (hfirst rfl)
    intro c c' _ _ heq
    exact ⟨congrArg (fun layout => LayoutReply.program (layout.compile memory options)) heq, h⟩
  | same i j =>
    apply h.about (hfirst rfl)
    intro c c' _ _ heq
    apply h.about (hseen j (by simp [LayoutCall.subjects]))
    intro d d' _ _ heq'
    simp only [Same, heq, heq']
    exact ⟨rfl, h⟩
  | offset i id p =>
    apply h.about (hfirst rfl)
    intro c c' _ _ heq
    exact ⟨congrArg (fun layout => LayoutReply.offset (layout.offset? id p)) heq, h⟩
  | write i room =>
    apply h.about (hfirst rfl)
    intro c c' _ _ heq
    exact ⟨congrArg (fun layout => LayoutReply.written (layout.encodeInto room)) heq, h⟩

theorem run (h : Alike hidden store store') (hfresh : store.Fresh) (hfresh' : store'.Fresh)
    {calls : List (LayoutCall t n)} (hseen : ∀ call ∈ calls, ∀ i ∈ call.subjects, i ∉ hidden) :
    (store.run calls).1 = (store'.run calls).1 ∧
      Alike hidden (store.run calls).2 (store'.run calls).2 := by
  induction calls generalizing store store' with
  | nil => exact ⟨rfl, h⟩
  | cons call calls ih =>
    obtain ⟨hreply, hnext⟩ := h.perform hfresh hfresh' (hseen call List.mem_cons_self)
    obtain ⟨hreplies, hlast⟩ := ih hnext (hfresh.perform call) (hfresh'.perform call)
      fun call' hmem => hseen call' (List.mem_cons_of_mem call hmem)
    refine ⟨?_, hlast⟩
    rw [run_cons, run_cons, hreply, hreplies]

end Alike

theorem alike_of_compiling {i : Nat} {call : LayoutCall t n}
    (hcall : call = .program i ∨ ∃ memory options, call = .compile i memory options) :
    Alike [] (store.perform call).2 store := by
  rcases hcall with rfl | ⟨memory, options, rfl⟩
  · simp only [LayoutStore.perform, LayoutStore.about]
    split
    case h_1 c hc =>
      constructor
      · simp
      · intro j _
        rw [List.getElem?_set]
        split
        case isTrue heq =>
          subst heq
          have hlt := List.getElem?_eq_some_iff.mp hc
          rw [if_pos hlt.1, hc, Option.map_some, Option.map_some, layout_program]
        case isFalse => rfl
    case h_2 => exact ⟨rfl, fun _ _ => rfl⟩
  · simp only [LayoutStore.perform, LayoutStore.about]
    split <;> exact ⟨rfl, fun _ _ => rfl⟩

theorem alike_of_relocate (i : Nat) (delta : UInt64) :
    Alike [i] (store.perform (.relocate i delta)).2 store := by
  simp only [LayoutStore.perform, LayoutStore.about]
  split
  case h_1 =>
    constructor
    · simp
    · intro j hj
      rw [List.getElem?_set_ne (List.ne_of_not_mem_cons hj).symm]
  case h_2 => exact ⟨rfl, fun _ _ => rfl⟩

/-- Whatever has been done to a store, a layout answers with the program of its present pieces,
compiled into memory of its own, or with the error of that. Having asked for a program changes no
later answer, and moving a layout none that is not about that layout. -/
theorem program_never_stale (calls : List (LayoutCall t n)) (i : Nat)
    (later : List (LayoutCall t n)) :
    let store : LayoutStore t n := (run [] calls).2
    (∀ c, store[i]? = some c → (store.perform (.program i)).1 =
      .program (c.layout.compile ProgramMemory.fresh CompileOptions.default)) ∧
    (∀ call, (call = .program i ∨ ∃ memory options, call = .compile i memory options) →
      ((store.perform call).2.run later).1 = (store.run later).1) ∧
    ∀ delta, (∀ call ∈ later, i ∉ call.subjects) →
      ((store.perform (.relocate i delta)).2.run later).1 = (store.run later).1 := by
  intro store
  have hfresh : store.Fresh := fresh_nil.run calls
  refine ⟨?_, ?_, ?_⟩
  · intro c hc
    have hkept := hfresh c (List.mem_of_getElem? hc)
    simp only [LayoutStore.perform, LayoutStore.about, hc, hkept.program_eq]
    rfl
  · intro call hcall
    have hseen : ∀ call ∈ later, ∀ j ∈ call.subjects, j ∉ [] := fun _ _ _ _ => List.not_mem_nil
    exact ((alike_of_compiling hcall).run (hfresh.perform call) hfresh hseen).1
  · intro delta hunmoved
    have hseen : ∀ call ∈ later, ∀ j ∈ call.subjects, j ∉ [i] := by
      intro call hcall j hj hji
      exact hunmoved call hcall (List.mem_singleton.mp hji ▸ hj)
    exact ((alike_of_relocate i delta).run (hfresh.perform _) hfresh hseen).1

/-- A row of four elements, from byte 64 on. -/
def shortRow : Layout .i32 1 where
  space := .dense ⟨#v[Coord.wrap .i32 0], #v[Coord.wrap .i32 3]⟩
  lists := [[⟨⟨#v[Coord.wrap .i32 0], #v[Coord.wrap .i32 3]⟩, ⟨64, #v[4]⟩⟩]]
  fields := FieldMap.ofList [(7, ⟨0, 0, 4⟩)]
  bytesUsed := 80
  alignment := 4

theorem program_never_stale_row :
    let store : LayoutStore .i32 1 :=
      (run [] [.make shortRow, .program 0, .copy 0, .program 1, .relocate 1 16]).2
    (store.perform (.program 1)).1 = .program
      ((shortRow.relocate 16).compile ProgramMemory.fresh CompileOptions.default) ∧
    ((store.perform (.program 1)).2.run [.same 0 1]).1 = (store.run [.same 0 1]).1 ∧
    ((store.perform (.relocate 1 8)).2.run [.program 0]).1 = (store.run [.program 0]).1 := by
  intro store
  have h := program_never_stale (t := .i32) (n := 1)
    [.make shortRow, .program 0, .copy 0, .program 1, .relocate 1 16] 1
  have hmoved : store[1]?.map layout = some (shortRow.relocate 16) := by decide +kernel
  obtain ⟨c, hc, hlayout⟩ := Option.map_eq_some_iff.mp hmoved
  refine ⟨?_, ?_, ?_⟩
  · rw [(h [.same 0 1]).1 c hc, hlayout]
  · exact (h [.same 0 1]).2.1 _ (.inl rfl)
  · exact (h [.program 0]).2.2 8 (by decide)

end LayoutStore

end RegionLayout
