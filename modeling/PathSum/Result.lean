/-!
# Results that may be errors

When one thing is done after another and there is a result in the end, each of the two had one. What
every step of a loop goes through, the loop goes through (`foldlM_map_mapError`).
-/

namespace PathSum

universe u v w

variable {ε : Type u} {α : Type v} {β : Type w} {x : Except ε α} {b : β}

theorem ok_bind {α β : Type v} (a : α) (f : α → Except ε β) : (Except.ok a >>= f) = f a := rfl

theorem bind_eq_ok_iff {f : α → Except ε β} :
    x.bind f = .ok b ↔ ∃ a, x = .ok a ∧ f a = .ok b := by
  cases x with
  | error e => simp [Except.bind]
  | ok a => simp [Except.bind]

theorem bind_eq_error_iff {f : α → Except ε β} {e : ε} :
    x.bind f = .error e ↔ x = .error e ∨ ∃ a, x = .ok a ∧ f a = .error e := by
  cases x with
  | error d => simp [Except.bind]
  | ok a => simp [Except.bind]

/-- There is a result unless there is an error. -/
theorem exists_eq_ok_iff : (∃ a, x = .ok a) ↔ ¬ ∃ e, x = .error e := by
  cases x with
  | error e => simp
  | ok a => simp

theorem map_eq_ok_iff {f : α → β} : x.map f = .ok b ↔ ∃ a, x = .ok a ∧ f a = b := by
  cases x with
  | error e => simp [Except.map]
  | ok a => simp [Except.map]

/-- What a map results in is the image of something. -/
theorem exists_of_map_eq_ok {f : α → β} (h : x.map f = .ok b) : ∃ a, f a = b := by
  obtain ⟨a, _, ha⟩ := map_eq_ok_iff.mp h
  exact ⟨a, ha⟩

theorem map_eq_error_iff {f : α → β} {e : ε} : x.map f = .error e ↔ x = .error e := by
  cases x with
  | error d => simp [Except.map]
  | ok a => simp [Except.map]

theorem mapError_eq_ok_iff {ε' : Type u} {f : ε → ε'} {a : α} :
    x.mapError f = .ok a ↔ x = .ok a := by
  cases x with
  | error e => exact ⟨nofun, nofun⟩
  | ok b =>
    show (Except.ok b : Except ε' α) = .ok a ↔ Except.ok b = .ok a
    rw [Except.ok.injEq, Except.ok.injEq]

theorem mapError_eq_error_iff {ε' : Type u} {f : ε → ε'} {e : ε'} :
    x.mapError f = .error e ↔ ∃ d, x = .error d ∧ f d = e := by
  cases x with
  | error d =>
    refine ⟨fun h => ⟨d, rfl, Except.error.inj h⟩, ?_⟩
    rintro ⟨_, ⟨rfl⟩, rfl⟩
    rfl
  | ok a =>
    refine ⟨nofun, ?_⟩
    rintro ⟨_, h, _⟩
    exact nomatch h

theorem mapError_id (x : Except ε α) : x.mapError id = x := by
  cases x <;> rfl

/-- If each step of a loop goes through a map of what is carried and a map of the errors, then so
does the loop. -/
theorem foldlM_map_mapError {ε' : Type u} {σ : Type} {γ : Type v} {step : α → σ → Except ε α}
    {step' : γ → σ → Except ε' γ} {f : α → γ} {err : ε → ε'}
    (through : ∀ a s, step' (f a) s = ((step a s).map f).mapError err) (a : α) (word : List σ) :
    word.foldlM step' (f a) = ((word.foldlM step a).map f).mapError err := by
  induction word generalizing a with
  | nil => rfl
  | cons s word ih =>
    rw [List.foldlM_cons, List.foldlM_cons, through]
    cases step a s with
    | error e => rfl
    | ok b => exact ih b

theorem foldlM_map {σ : Type} {γ : Type v} {step : α → σ → Except ε α} {step' : γ → σ → Except ε γ}
    {f : α → γ} (through : ∀ a s, step' (f a) s = (step a s).map f) (a : α) (word : List σ) :
    word.foldlM step' (f a) = (word.foldlM step a).map f := by
  rw [← mapError_id ((word.foldlM step a).map f)]
  apply foldlM_map_mapError
  intro b s
  rw [through, mapError_id]

end PathSum
