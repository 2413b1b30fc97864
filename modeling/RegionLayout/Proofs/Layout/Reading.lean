import RegionLayout.Layout.Decode

namespace RegionLayout.Reader

variable {α β : Type} {r : Reader α} {f : α → Reader β} {a : α} {b : β} {bs bs' : Bytes}
  {e : ReadError}

/-- The reader takes `bs` from the front of its input as `a`, and needs every byte of it. -/
structure Takes (r : Reader α) (bs : Bytes) (a : α) : Prop where
  whole : ∀ rest, r (bs ++ rest) = .ok (a, rest)
  short : ∀ k < bs.length, r (bs.take k) = .error .endOfInput

/-- The reader stops at `bs`, whatever follows. -/
def Refuses (r : Reader α) (bs : Bytes) (e : ReadError) : Prop :=
  ∀ rest, r (bs ++ rest) = .error e

theorem bind_of_ok {rest : Bytes} (h : r bs = .ok (a, rest)) : (r >>= f) bs = f a rest := by
  simp only [Bind.bind, h]

theorem bind_of_error (h : r bs = .error e) : (r >>= f) bs = .error e := by
  simp only [Bind.bind, h]

instance : LawfulMonad Reader := LawfulMonad.mk' Reader
  (fun r => by
    funext bs
    cases h : r bs with
    | error e => exact bind_of_error h
    | ok parts => exact bind_of_ok h)
  (fun _ _ => rfl)
  (fun r f g => by
    funext bs
    cases h : r bs with
    | error e => rw [bind_of_error (bind_of_error h), bind_of_error h]
    | ok parts =>
      rw [bind_of_ok h]
      cases hf : f parts.1 parts.2 with
      | error e => rw [bind_of_error ((bind_of_ok h).trans hf), bind_of_error hf]
      | ok parts' => rw [bind_of_ok ((bind_of_ok h).trans hf), bind_of_ok hf])

namespace Takes

theorem pure (a : α) : Takes (pure a) [] a where
  whole := fun _ => rfl
  short := fun k hk => absurd hk (Nat.not_lt_zero k)

theorem bind (hr : Takes r bs a) (hf : Takes (f a) bs' b) : Takes (r >>= f) (bs ++ bs') b where
  whole := by
    intro rest
    rw [List.append_assoc, bind_of_ok (hr.whole (bs' ++ rest)), hf.whole]
  short := by
    intro k hk
    by_cases hlt : k < bs.length
    · rw [List.take_append_of_le_length (Nat.le_of_lt hlt), bind_of_error (hr.short k hlt)]
    · have hk' : k - bs.length < bs'.length := by
        rw [List.length_append] at hk
        omega
      rw [List.take_append, List.take_of_length_le (Nat.not_lt.mp hlt),
        bind_of_ok (hr.whole _), hf.short _ hk']

theorem map (hr : Takes r bs a) (g : α → β) : Takes (r >>= fun a => Pure.pure (g a)) bs (g a) := by
  have h := hr.bind (f := fun a => Pure.pure (g a)) (pure (g a))
  rwa [List.append_nil] at h

end Takes

theorem Takes.bind_refuses (hr : Takes r bs a) (hf : Refuses (f a) bs' e) :
    Refuses (r >>= f) (bs ++ bs') e := by
  intro rest
  rw [List.append_assoc, bind_of_ok (hr.whole (bs' ++ rest)), hf]

theorem Refuses.bind (hr : Refuses r bs e) : Refuses (r >>= f) bs e := fun rest =>
  bind_of_error (hr rest)

theorem Refuses.append (hr : Refuses r bs e) (more : Bytes) : Refuses r (bs ++ more) e := by
  intro rest
  rw [List.append_assoc]
  exact hr _

theorem takes_take {count : Nat} (h : bs.length = count) : Takes (take count) bs bs where
  whole := by
    intro rest
    have hreach : Bytes.reaches count (bs ++ rest) = true := by
      rw [Bytes.reaches_iff, List.length_append, h]
      exact Nat.le_add_right _ _
    rw [take, Bytes.splitOff?, if_pos hreach, List.splitAt_eq, List.take_left' h,
      List.drop_left' h]
  short := by
    intro k hk
    have hreach : ¬ Bytes.reaches count (bs.take k) = true := by
      rw [Bytes.reaches_iff, List.length_take]
      omega
    rw [take, Bytes.splitOff?, if_neg hreach]

theorem takes_nat {width x : Nat} (h : x < Bytes.limit width) :
    Takes (nat width) (Bytes.ofNat width x) x := by
  have hx : Bytes.toNat (Bytes.ofNat width x) = x := by
    rw [Bytes.toNat_ofNat, Nat.mod_eq_of_lt h]
  have := (takes_take (Bytes.length_ofNat width x)).map Bytes.toNat
  rwa [hx] at this

theorem takes_word (w : UInt64) : Takes word (Bytes.ofWord w) w := by
  have := (takes_take (Bytes.length_ofWord w)).map Bytes.toWord
  rwa [Bytes.toWord_ofWord] at this

section Counted

variable {item : Reader α} {encode : α → Bytes} {items : List α}

theorem takes_many (h : ∀ a ∈ items, Takes item (encode a) a) :
    Takes (many item items.length) (items.flatMap encode) items := by
  induction items with
  | nil => exact .pure []
  | cons a items ih =>
    have hitems : ∀ a ∈ items, Takes item (encode a) a := fun a ha =>
      h a (List.mem_cons_of_mem _ ha)
    rw [List.length_cons, many, List.flatMap_cons]
    exact (h a List.mem_cons_self).bind ((ih hitems).map (a :: ·))

theorem refuses_many {before after : List α} {bad : α}
    (hbefore : ∀ a ∈ before, Takes item (encode a) a) (hbad : Refuses item (encode bad) e) :
    Refuses (many item (before ++ bad :: after).length)
      ((before ++ bad :: after).flatMap encode) e := by
  induction before with
  | nil =>
    rw [List.nil_append, List.length_cons, many, List.flatMap_cons]
    exact (hbad.bind).append _
  | cons a before ih =>
    have hbefore' : ∀ a ∈ before, Takes item (encode a) a := fun a ha =>
      hbefore a (List.mem_cons_of_mem _ ha)
    rw [List.cons_append, List.length_cons, many, List.flatMap_cons]
    exact (hbefore a List.mem_cons_self).bind_refuses ((ih hbefore').bind)

private theorem toNat_count (h : items.length < wordLimit) :
    (UInt64.ofNat items.length).toNat = items.length := by
  rw [UInt64.toNat_ofNat']
  exact Nat.mod_eq_of_lt h

theorem takes_counted (hlen : items.length < wordLimit)
    (h : ∀ a ∈ items, Takes item (encode a) a) :
    Takes (counted item) (encodeCounted encode items) items := by
  rw [counted, encodeCounted]
  refine (takes_word _).bind ?_
  rw [toNat_count hlen]
  exact takes_many h

theorem refuses_counted {before after : List α} {bad : α}
    (hlen : (before ++ bad :: after).length < wordLimit)
    (hbefore : ∀ a ∈ before, Takes item (encode a) a) (hbad : Refuses item (encode bad) e) :
    Refuses (counted item) (encodeCounted encode (before ++ bad :: after)) e := by
  rw [counted, encodeCounted]
  refine (takes_word _).bind_refuses ?_
  rw [toNat_count hlen]
  exact refuses_many hbefore hbad

end Counted

end RegionLayout.Reader
