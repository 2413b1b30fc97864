import RegionLayout.Fault

namespace RegionLayout

variable {ε δ α β σ : Type}

theorem bind_eq_ok {x : Except ε α} {f : α → Except ε β} {b : β} :
    x >>= f = .ok b ↔ ∃ a, x = .ok a ∧ f a = .ok b := by
  cases x with
  | error e => simp [bind, Except.bind]
  | ok a => simp [bind, Except.bind]

theorem pure_eq_ok {a b : α} : (pure a : Except ε α) = .ok b ↔ a = b := by
  simp [pure, Except.pure]

theorem map_eq_ok {x : Except ε α} {f : α → β} {b : β} :
    x.map f = .ok b ↔ ∃ a, x = .ok a ∧ f a = b := by
  cases x <;> simp [Except.map]

theorem mapError_eq_ok {x : Except ε α} {f : ε → δ} {a : α} :
    x.mapError f = .ok a ↔ x = .ok a := by
  cases x with
  | error e => exact iff_of_false (fun h => nomatch h) (fun h => nomatch h)
  | ok a' =>
    change Except.ok a' = Except.ok a ↔ _
    rw [Except.ok.injEq, Except.ok.injEq]

theorem toOption_eq_some {x : Except ε α} {a : α} : x.toOption = some a ↔ x = .ok a := by
  cases x <;> simp [Except.toOption]

theorem mapError_bind {x : Except ε α} {f : α → Except ε β} {g : ε → δ} :
    (x >>= f).mapError g = x.mapError g >>= fun a => (f a).mapError g := by
  cases x <;> rfl

theorem mapError_foldlM {f : σ → α → Except ε σ} {g : ε → δ} (xs : List α) (s : σ) :
    (xs.foldlM f s).mapError g = xs.foldlM (fun s a => (f s a).mapError g) s := by
  induction xs generalizing s with
  | nil => rfl
  | cons a xs ih => simp only [List.foldlM_cons, mapError_bind, ih]

theorem foldlM_invariant {f : σ → α → Except ε σ} (P : List α → σ → Prop)
    (step : ∀ done a s s', P done s → f s a = .ok s' → P (done ++ [a]) s')
    {done xs : List α} {s r : σ} (start : P done s) (h : xs.foldlM f s = .ok r) :
    P (done ++ xs) r := by
  induction xs generalizing done s with
  | nil =>
    rw [List.foldlM_nil, pure_eq_ok] at h
    rw [List.append_nil, ← h]
    exact start
  | cons a xs ih =>
    rw [List.foldlM_cons, bind_eq_ok] at h
    obtain ⟨s', hs', h⟩ := h
    have := ih (step done a s s' start hs') h
    rwa [List.append_assoc] at this

/-- Both computations end with the same error, one of those in `P`, or with results related
by `R`. -/
inductive Matched (P : ε → Prop) (R : α → β → Prop) : Except ε α → Except ε β → Prop
  | error {e : ε} (he : P e) : Matched P R (.error e) (.error e)
  | ok {a : α} {b : β} (h : R a b) : Matched P R (.ok a) (.ok b)

namespace Matched

variable {α' β' : Type} {P : ε → Prop} {R : α → β → Prop} {x : Except ε α} {y : Except ε β}

theorem refl {z : Except ε α} (hP : ∀ e, z = .error e → P e) : Matched P Eq z z := by
  cases z with
  | error e => exact .error (hP e rfl)
  | ok a => exact .ok rfl

theorem bind {S : α' → β' → Prop} {f : α → Except ε α'} {g : β → Except ε β'}
    (h : Matched P R x y) (step : ∀ a b, R a b → Matched P S (f a) (g b)) :
    Matched P S (x >>= f) (y >>= g) := by
  cases h with
  | error he => exact .error he
  | ok h => exact step _ _ h

theorem imp_of_ok {S : α → β → Prop} (h : Matched P R x y)
    (hRS : ∀ a b, x = .ok a → y = .ok b → R a b → S a b) : Matched P S x y := by
  cases h with
  | error he => exact .error he
  | ok h => exact .ok (hRS _ _ rfl rfl h)

theorem mapError {Q : δ → Prop} {f : ε → δ} (h : Matched P R x y) (hPQ : ∀ e, P e → Q (f e)) :
    Matched Q R (x.mapError f) (y.mapError f) := by
  cases h with
  | error he => exact .error (hPQ _ he)
  | ok h => exact .ok h

theorem foldlM {R : α → β → Prop} {f : α → σ → Except ε α} {g : β → σ → Except ε β}
    (step : ∀ a b item, R a b → Matched P R (f a item) (g b item)) (items : List σ) {a : α} {b : β}
    (start : R a b) : Matched P R (items.foldlM f a) (items.foldlM g b) := by
  induction items generalizing a b with
  | nil => exact .ok start
  | cons item items ih =>
    rw [List.foldlM_cons, List.foldlM_cons]
    exact (step a b item start).bind fun _ _ h => ih h

end Matched

/-- The computation succeeds exactly if `C` holds, and what it then returns satisfies `P`. -/
structure SucceedsIff (x : Except ε α) (C : Prop) (P : α → Prop) : Prop where
  exists_iff : (∃ a, x = .ok a) ↔ C
  of_ok : ∀ a, x = .ok a → P a

namespace SucceedsIff

variable {C D : Prop} {P : α → Prop} {Q : β → Prop} {x : Except ε α}

theorem ok {a : α} (hC : C) (h : P a) : SucceedsIff (.ok a : Except ε α) C P where
  exists_iff := iff_of_true ⟨a, rfl⟩ hC
  of_ok := fun _ ha => Except.ok.inj ha ▸ h

theorem error {e : ε} (hC : ¬ C) : SucceedsIff (.error e : Except ε α) C P where
  exists_iff := iff_of_false (fun ⟨_, ha⟩ => nomatch ha) hC
  of_ok := fun _ ha => nomatch ha

theorem bind {f : α → Except ε β} (hx : SucceedsIff x C P)
    (hf : C → ∀ a, P a → SucceedsIff (f a) D Q) : SucceedsIff (x >>= f) (C ∧ D) Q := by
  cases x with
  | error e => exact .error fun h => nomatch hx.exists_iff.mpr h.1
  | ok a =>
    have hC : C := hx.exists_iff.mp ⟨a, rfl⟩
    have hfa := hf hC a (hx.of_ok a rfl)
    exact ⟨hfa.exists_iff.trans (iff_and_self.mpr fun _ => hC), hfa.of_ok⟩

theorem congr {P' : α → Prop} (h : SucceedsIff x C P) (hC : C ↔ D)
    (hP : D → ∀ a, P a → P' a) : SucceedsIff x D P' where
  exists_iff := h.exists_iff.trans hC
  of_ok := fun a ha => hP (hC.mp (h.exists_iff.mp ⟨a, ha⟩)) a (h.of_ok a ha)

theorem bind_of_imp {f : α → Except ε β} (hx : SucceedsIff x C P) (himp : D → C)
    (hf : C → ∀ a, P a → SucceedsIff (f a) D Q) : SucceedsIff (x >>= f) D Q :=
  (hx.bind hf).congr (and_iff_right_of_imp himp) fun _ _ => id

theorem bind_ok {f : α → Except ε β} (hx : SucceedsIff x C P)
    (hf : C → ∀ a, P a → ∃ b, f a = .ok b ∧ Q b) : SucceedsIff (x >>= f) C Q := by
  refine (hx.bind (D := True) fun hC a ha => ?_).congr (iff_of_eq (and_true C)) fun _ _ => id
  obtain ⟨b, hb, hQ⟩ := hf hC a ha
  rw [hb]
  exact .ok trivial hQ

end SucceedsIff

end RegionLayout
