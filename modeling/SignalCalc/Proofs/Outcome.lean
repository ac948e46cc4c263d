/-!
# Outcomes

A computation of the library ends with a value or with an error. These lemmas take such computations
apart at their steps.
-/

namespace SignalCalc

variable {ε α β : Type}

@[simp] theorem ok_bind (a : α) (f : α → Except ε β) : (Except.ok a >>= f) = f a := rfl

@[simp] theorem error_bind (e : ε) (f : α → Except ε β) : (Except.error e >>= f) = .error e := rfl

@[simp] theorem pure_eq_ok (a : α) : (pure a : Except ε α) = .ok a := rfl

@[simp] theorem throw_eq_error (e : ε) : (throw e : Except ε α) = .error e := rfl

@[simp] theorem map_ok (f : α → β) (a : α) : (Except.ok a : Except ε α).map f = .ok (f a) := rfl

@[simp] theorem map_error (f : α → β) (e : ε) :
    (Except.error e : Except ε α).map f = .error e :=
  rfl

/-- A computation in two steps ends with a value if both steps do. -/
theorem bind_eq_ok_iff {x : Except ε α} {f : α → Except ε β} {b : β} :
    x >>= f = .ok b ↔ ∃ a, x = .ok a ∧ f a = .ok b := by
  cases x <;> simp

/-- A computation in two steps ends with an error if one of them does. -/
theorem bind_eq_error_iff {x : Except ε α} {f : α → Except ε β} {e : ε} :
    x >>= f = .error e ↔ x = .error e ∨ ∃ a, x = .ok a ∧ f a = .error e := by
  cases x <;> simp

/-- A computation behind a check ends with a value if the check passes. -/
theorem ite_error_eq_ok_iff {p : Prop} [Decidable p] {e : ε} {x : Except ε α} {a : α} :
    (if p then .error e else x) = .ok a ↔ ¬p ∧ x = .ok a := by
  split <;> simp [*]

/-- A computation behind a check ends with an error if the check or the computation does. -/
theorem ite_error_eq_error_iff {p : Prop} [Decidable p] {e e' : ε} {x : Except ε α} :
    (if p then .error e else x) = .error e' ↔ p ∧ e = e' ∨ ¬p ∧ x = .error e' := by
  split <;> simp [*]

/-- Two loops over one list, of which the first can fail. If they are related at the start and every
round keeps them so, the first one ends, and they are related at the end. -/
theorem foldlM_related {γ σ τ : Type} (Related : σ → τ → Prop) {f : σ → γ → Except ε σ}
    {g : τ → γ → τ} {cs : List γ}
    (hstep : ∀ c ∈ cs, ∀ s t, Related s t → ∃ s', f s c = .ok s' ∧ Related s' (g t c)) {s : σ}
    {t : τ} (h : Related s t) : ∃ s', cs.foldlM f s = .ok s' ∧ Related s' (cs.foldl g t) := by
  induction cs generalizing s t with
  | nil => exact ⟨s, rfl, h⟩
  | cons c cs ih =>
    obtain ⟨s', hs, hr⟩ := hstep c List.mem_cons_self s t h
    obtain ⟨s'', hs', hr'⟩ := ih (fun d hd => hstep d (List.mem_cons_of_mem c hd)) hr
    exact ⟨s'', by rw [List.foldlM_cons, hs, ok_bind, hs'], hr'⟩

end SignalCalc
