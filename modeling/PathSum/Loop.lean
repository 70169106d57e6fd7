import PathSum.Result

/-!
# Loops over indices

What a loop does to one part of what it carries can be seen by following that part alone
(`foldl_seen`), and a loop that does something at one index only does it once (`foldl_once`). A loop
whose steps all have results has one (`foldlM_eq_ok`), and what each step keeps as long as it has a
result, the loop keeps (`of_foldlM_eq_ok`). If a loop fails, one of its steps does
(`of_foldlM_eq_error`).
-/

namespace PathSum

universe u v

variable {β : Type u} {γ : Type v} {n : Nat}

/-- If every step goes through `see`, then so does the loop. With `see` as one entry of a matrix,
this is how a loop over a matrix is followed in that entry. -/
theorem foldl_seen (see : β → γ) {step : β → Fin n → β} (step' : γ → Fin n → γ)
    (h : ∀ b i, see (step b i) = step' (see b) i) (b : β) :
    see (Fin.foldl n step b) = Fin.foldl n step' (see b) := by
  induction n with
  | zero => rfl
  | succ n ih =>
    have hbefore : see (Fin.foldl n (fun b i => step b i.castSucc) b) =
        Fin.foldl n (fun c i => step' c i.castSucc) (see b) :=
      ih _ fun b i => h b i.castSucc
    rw [Fin.foldl_succ_last, Fin.foldl_succ_last, h, hbefore]

theorem foldl_id (b : β) : Fin.foldl n (fun b _ => b) b = b := by
  induction n with
  | zero => rfl
  | succ n ih => rw [Fin.foldl_succ_last, ih]

/-- What is done at one index only is done once. The loop passes that index exactly one time, and
all other steps leave things as they are. -/
theorem foldl_once (i : Fin n) (f : β → β) (b : β) :
    Fin.foldl n (fun b j => if j = i then f b else b) b = f b := by
  induction n with
  | zero => exact i.elim0
  | succ n ih =>
    rw [Fin.foldl_succ_last]
    cases i using Fin.lastCases with
    | last =>
      -- the steps before the last change nothing.
      have hbefore (j : Fin n) : j.castSucc ≠ Fin.last n := Fin.ne_of_lt j.castSucc_lt_last
      simp only [hbefore, if_false, if_true, foldl_id]
    | cast i =>
      simp only [Fin.castSucc_inj, ih, (Fin.ne_of_lt i.castSucc_lt_last).symm, if_false]

/-- A loop whose steps all have results has one. -/
theorem foldlM_eq_ok {ε : Type} {step : β → Fin n → Except ε β} {step' : β → Fin n → β}
    (h : ∀ b i, step b i = .ok (step' b i)) (b : β) :
    Fin.foldlM n step b = .ok (Fin.foldl n step' b) := by
  obtain rfl : step = fun b i => .ok (step' b i) := funext fun b => funext (h b)
  exact Fin.foldlM_pure

/-- If each step that has a result leads from what holds before its index to what holds before the
next, and the loop has a result, then that is what holds after the last index. -/
theorem of_foldlM_eq_ok {ε : Type} {P : Nat → β → Prop} {step : β → Fin n → Except ε β}
    (kept : ∀ b (i : Fin n) c, P i b → step b i = .ok c → P (i + 1) c) {b c : β} (hb : P 0 b)
    (h : Fin.foldlM n step b = .ok c) : P n c := by
  induction n generalizing c with
  | zero =>
    rw [Fin.foldlM_zero] at h
    cases h
    exact hb
  | succ n ih =>
    rw [Fin.foldlM_succ_last] at h
    obtain ⟨d, hd, hstep⟩ := bind_eq_ok_iff.mp h
    exact kept d (Fin.last n) c (ih (fun b i => kept b i.castSucc) hd) hstep

/-- A loop fails as one of its steps fails. What is known of the errors of every step, whatever it
begins from, is known of the error of the loop. -/
theorem of_foldlM_eq_error {ε : Type} {Q : ε → Prop} {step : β → Fin n → Except ε β}
    (failed : ∀ b i e, step b i = .error e → Q e) {b : β} {e : ε}
    (h : Fin.foldlM n step b = .error e) : Q e := by
  induction n with
  | zero =>
    rw [Fin.foldlM_zero] at h
    exact nomatch h
  | succ n ih =>
    rw [Fin.foldlM_succ_last] at h
    obtain hbefore | ⟨d, -, hstep⟩ := bind_eq_error_iff.mp h
    · exact ih (fun b i => failed b i.castSucc) hbefore
    · exact failed d (Fin.last n) e hstep

end PathSum
