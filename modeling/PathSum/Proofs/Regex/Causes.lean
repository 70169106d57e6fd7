import PathSum.Proofs.Regex.Places

/-!
# Errors point at their causes

A pattern is refused either in a step, while a character is read, or at its end. Both go by cases
on the mode of the reader, and what `Reader.Located` says of the mode is the cause of the error:

* **`hasCause_step`**: one lemma for each function that reads a character. A step knows nothing of
  the text behind its character, so the cause holds with any text there.
* **`hasCause_finish`**: a text that ends too early.

The cause of a parenthesis that closes nothing is another run of the reader, which accepts the text
before it. Whenever there is such a run, the error is reported too (`parseChars_trailing`).

Main statement: **`parse_error_cause`**.
-/

namespace PathSum.Regex

variable {limit : Nat} {r : Reader} {negated : Bool} {set set' : CharSet} {c : Char}
  {mode : ClassMode} {before text items pending : List Char} {e : ParseError}

/-! ## What stands in a class -/

/-- The bracket that opens a class, and what has been read of the class. Without a bracket that
closes it, there is no mark behind the opening one. -/
theorem ClassAt.exists_opening {start : Nat} (h : ClassAt text start negated set mode) :
    ∃ before rest, text = before ++ '[' :: rest ∧ start = before.length ∧
      placeAfter before = .outside ∧ marksFrom .inClass rest = [] := by
  obtain ⟨before, items, pending, rfl, hstart, hmarks, hread⟩ := h
  obtain ⟨caret, hcaret⟩ : ∃ caret, classOpening negated = '[' :: caret := by
    cases negated <;> exact ⟨_, rfl⟩
  refine ⟨before, caret ++ (items ++ pending), ?_, hstart.symm, hread.outside, ?_⟩
  · rw [hcaret, List.cons_append]
  · rw [hcaret, marks_append, hread.outside, List.append_right_eq_self] at hmarks
    exact hmarks

/-- The item being read begins behind the whole ones. A caret among these would have been read as
the sign that negates the class. -/
theorem ClassRead.beginsItem {first last : List Char}
    (h : ClassRead before negated set mode items pending) (heq : pending ++ [c] = first ++ last)
    (hne : pending ≠ []) (hfirst : first ≠ []) :
    BeginsItem (before ++ (classOpening negated ++ items)) first := by
  have hwhole : WholeItems items first.head? := by
    have hhead : (first ++ last).head? = first.head? := @head?_append_append [] first hfirst last
    rw [← hhead, ← heq]
    exact h.whole [c]
  cases negated with
  | false =>
    refine ⟨before, [], items, rfl, h.outside, .inr ⟨rfl, ?_⟩, hwhole⟩
    rw [← head?_append_append (List.append_ne_nil_of_right_ne_nil _ hfirst) last, ← heq,
      head?_append_append (List.append_ne_nil_of_right_ne_nil _ hne)]
    exact h.head rfl
  | true => exact ⟨before, ['^'], items, rfl, h.outside, .inl rfl, hwhole⟩

/-! ## Steps -/

namespace Reader

/-- No more groups are open than allowed. -/
theorem stack_length_le (h : start.readAll limit text = .ok r) : r.stack.length ≤ limit := by
  obtain ⟨budget, _, _, _, _, hgroups, _⟩ := hasRead_start.readAll h
  have hbudget := hgroups.budget_add
  omega

theorem hasCause_readAtom (h : r.Located text) (hmode : r.mode.place = .outside)
    (hstack : r.stack.length ≤ limit) (hstep : r.readAtom limit c = .error e)
    (rest : List Char) : e.HasCause limit (text ++ c :: rest) := by
  have hplace : placeAfter text = .outside := h.place.trans hmode
  unfold readAtom at hstep
  split at hstep
  · split at hstep
    · rename_i hlimit
      cases hstep
      have hgroups := h.groups
      rw [Nat.le_antisymm hstack hlimit] at hgroups
      exact ⟨text, _, rfl, h.position, rfl, ⟨hplace, hgroups⟩, rest, rfl⟩
    · cases hstep
  -- what is left fails only at the operators and at a closing parenthesis.
  all_goals cases hstep
  all_goals exact ⟨text, _, rfl, h.position, by simp, hplace, rest, rfl⟩

theorem hasCause_readAfter {atom : Pattern} (h : r.Located text)
    (hread : start.readAll limit text = .ok r) (hmode : r.mode = .complete atom)
    (hstep : r.readAfter limit atom c = .error e) (rest : List Char) :
    e.HasCause limit (text ++ c :: rest) := by
  unfold readAfter at hstep
  split at hstep
  · cases hstep
  · cases hstep
  · cases hstep
  · cases hstep
  · split at hstep
    · -- no group is open and an atom is complete, so the text so far is a pattern.
      rename_i hstack
      cases hstep
      have hparse : Pattern.parseChars limit text = .ok (r.frame.close atom) := by
        rw [Pattern.parseChars, hread]
        show r.finish = _
        simp only [finish, hmode, hstack]
      exact ⟨text, _, rfl, h.position, rfl, ⟨rest, rfl⟩, _, hparse⟩
    · cases hstep
  · -- the character begins the next atom, and the reader stands where it stood.
    have hframe (frame : Frame) : ({ r with frame } : Reader).Located text :=
      ⟨h.position, h.place, h.groups, h.slash, h.inClass⟩
    have hstack : r.stack.length ≤ limit := stack_length_le hread
    have hat : r.mode.place = .outside := by
      rw [hmode]
      rfl
    exact hasCause_readAtom (hframe ⟨r.frame.alternatives, some (r.frame.sequenceWith atom)⟩)
      hat hstack hstep rest

theorem hasCause_readItem {start : Nat} (h : r.Located text)
    (hmode : r.mode = .inClass start negated set mode)
    (hitems : ∀ before items pending, ClassRead before negated set mode items pending →
      WholeBefore before negated set' (items ++ pending) c)
    (hstep : r.readItem start negated set' c = .error e) (rest : List Char) :
    e.HasCause limit (text ++ c :: rest) := by
  obtain ⟨before, items, pending, rfl, hstart, _, hread⟩ := h.inClass _ _ _ _ hmode
  unfold readItem at hstep
  split at hstep
  · split at hstep
    · rename_i hempty
      cases hstep
      -- the set is empty only if no item came before, so the bracket follows the opening.
      have hnil := (hitems before items pending hread).nil (CharSet.isEmpty_iff.mp hempty)
      rw [hnil, List.append_nil, List.append_assoc]
      refine ⟨before, _, rfl, hstart.symm, hread.outside, rest, ?_⟩
      cases negated with
      | false => exact .inl rfl
      | true => exact .inr rfl
    · cases hstep
  · cases hstep
  · split at hstep <;> cases hstep

theorem hasCause_readLast {start item : Nat} {first : Char} (h : r.Located text)
    (hmode : r.mode = .inClass start negated set mode) (hitem : mode.item? = some item)
    (hlast : mode.Ranges first c)
    (hstep : r.readLast start negated set item first c = .error e) (rest : List Char) :
    e.HasCause limit (text ++ c :: rest) := by
  obtain ⟨before, items, pending, rfl, _, _, hread⟩ := h.inClass _ _ _ _ hmode
  -- the two bounds and the dash are what is pending and the character that was read.
  obtain ⟨u, v, heq, hne, hu, hv⟩ := hlast pending hread.pending
  unfold readLast at hstep
  split at hstep
  · rename_i hlt
    cases hstep
    refine ⟨before ++ (classOpening negated ++ items), u ++ '-' :: (v ++ rest), ?_,
      hread.item item hitem, hlt, u, v, rest, rfl, hu, hv, hread.beginsItem heq hne hu.ne_nil⟩
    calc before ++ (classOpening negated ++ (items ++ pending)) ++ c :: rest
        = before ++ (classOpening negated ++ items) ++ (pending ++ [c] ++ rest) := by simp
      _ = before ++ (classOpening negated ++ items) ++ (u ++ '-' :: (v ++ rest)) := by
        simp [heq]
  · cases hstep

theorem hasCause_readClass {start : Nat} (h : r.Located text)
    (hmode : r.mode = .inClass start negated set mode)
    (hstep : r.readClass start negated set mode c = .error e) (rest : List Char) :
    e.HasCause limit (text ++ c :: rest) := by
  unfold readClass at hstep
  split at hstep
  · refine hasCause_readItem h hmode (fun before items pending hread => ?_) hstep rest
    -- only an item that may start here can be the closing bracket of an empty class.
    obtain rfl : pending = [] := hread.pending
    rw [List.append_nil]
    exact hread.wholeBefore
  · cases hstep
  · split at hstep
    · cases hstep
    · rename_i hdash
      exact hasCause_readItem h hmode (fun before items pending hread =>
        hread.wholeBefore_first hread.pending hdash) hstep rest
  · split at hstep
    · cases hstep
    · cases hstep
    · rename_i hclose hslash
      exact hasCause_readLast h hmode rfl (.of_dash hslash hclose) hstep rest
  · exact hasCause_readLast h hmode rfl .of_lastEscape hstep rest

/-- **A step fails at its cause.** What the reader holds tells how its character stands in the text,
and so does the error. -/
theorem hasCause_step (hread : start.readAll limit text = .ok r)
    (hstep : r.step limit c = .error e) (rest : List Char) :
    e.HasCause limit (text ++ c :: rest) := by
  have h : r.Located text := located_start.readAll hread
  unfold step at hstep
  split at hstep
  · rename_i hmode
    have hat : r.mode.place = .outside := by
      rw [hmode]
      rfl
    exact hasCause_readAtom h hat (stack_length_le hread) hstep rest
  · rename_i hmode
    exact hasCause_readAfter h hread hmode hstep rest
  · cases hstep
  · rename_i hmode
    exact hasCause_readClass h hmode hstep rest

/-! ## The end of a text -/

/-- **The end of a text fails at its cause.** What is missing depends on the mode alone: an atom,
the end of an escape or a class, or the parentheses that close the open groups. -/
theorem hasCause_finish (h : r.Located text) (hfinish : r.finish = .error e) :
    e.HasCause limit text := by
  have hend : text = text ++ [] := (List.append_nil text).symm
  -- three modes wait for the character after a backslash, and the cause is the same.
  have hescape {slash : Nat} (hslash : r.mode.slash? = some slash) :
      (⟨slash, .danglingEscape⟩ : ParseError).HasCause limit text := by
    obtain ⟨before, rfl, hlength, hplace⟩ := h.slash slash hslash
    exact ⟨before, _, rfl, hlength.symm, rfl, hplace⟩
  have hplace := h.place
  unfold finish at hfinish
  split at hfinish
  · rename_i hmode
    cases hfinish
    rw [hmode] at hplace
    exact ⟨text, [], hend, h.position, rfl, hplace⟩
  · rename_i hmode
    split at hfinish
    · cases hfinish
    · rename_i hstack
      cases hfinish
      -- the text is complete but for the groups that are still open.
      have hopen : 0 < r.stack.length := by
        rw [hstack]
        exact Nat.succ_pos _
      rw [hmode] at hplace
      exact ⟨text, [], hend, h.position, rfl, _, hopen, hplace, h.groups⟩
  · rename_i hmode
    cases hfinish
    apply hescape
    rw [hmode]
    rfl
  · rename_i hmode
    cases hfinish
    apply hescape
    rw [hmode]
    rfl
  · rename_i hmode
    cases hfinish
    apply hescape
    rw [hmode]
    rfl
  · rename_i hmode
    cases hfinish
    -- the class is reported where it was opened, which may be far back.
    obtain ⟨before, rest, rfl, hstart, hplace, hmarks⟩ := (h.inClass _ _ _ _ hmode).exists_opening
    exact ⟨before, _, rfl, hstart, rest, rfl, hplace, hmarks⟩

end Reader

/-! ## Whole texts -/

namespace Pattern

theorem hasCause_of_parseChars (h : parseChars limit text = .error e) :
    e.HasCause limit text := by
  rw [parseChars] at h
  cases hread : Reader.start.readAll limit text with
  | error e' =>
    rw [hread] at h
    obtain rfl : e' = e := Except.error.inj h
    obtain ⟨before, c, rest, r, rfl, hbefore, hstep⟩ := Reader.exists_step_of_readAll hread
    exact Reader.hasCause_step hbefore hstep rest
  | ok r =>
    rw [hread] at h
    exact Reader.hasCause_finish (Reader.located_start.readAll hread) h

/-- A parenthesis behind a whole pattern closes nothing, and the reader stops there whatever comes
behind it. -/
theorem parseChars_trailing {p : Pattern} (h : parseChars limit before = .ok p)
    (rest : List Char) :
    parseChars limit (before ++ ')' :: rest) = .error ⟨before.length, .trailingInput ')'⟩ := by
  obtain ⟨r, hread, hfinish⟩ := parseChars_eq_ok_iff.mp h
  obtain ⟨atom, hmode, hstack, -⟩ := Reader.exists_atom_of_finish hfinish
  have hposition : r.position = before.length := (Reader.located_start.readAll hread).position
  have hstep : r.step limit ')' = .error ⟨before.length, .trailingInput ')'⟩ := by
    rw [← hposition]
    simp only [Reader.step, hmode, Reader.readAfter, hstack, Reader.fail]
  rw [parseChars, Reader.readAll_append_of_readAll hread, Reader.readAll_cons, hstep]
  rfl

/-- **Every error points at its cause.** What stands at the position of an error, and what stands
before it, is as the kind of the error says. A closing parenthesis is reported as trailing exactly
where the text before it is a pattern. -/
theorem parse_error_cause (limit : Nat) (text : String) :
    (∀ e, parse limit text = .error e → e.HasCause limit text.toList) ∧
      ∀ p, parse limit text = .ok p → ∀ rest : String,
        parse limit (text ++ ")" ++ rest) = .error ⟨text.length, .trailingInput ')'⟩ := by
  refine ⟨fun e h => hasCause_of_parseChars h, fun p h rest => ?_⟩
  have htext : (text ++ ")" ++ rest).toList = text.toList ++ ')' :: rest.toList := by
    simp
  rw [parse, htext, parseChars_trailing h, String.length_toList]

/-- A range behind an escape, in a group and in a class, and a parenthesis after a whole group. -/
theorem parse_error_cause_range :
    ParseError.HasCause ⟨4, .invalidRange 'z' 'c'⟩ 1 "(a[b\\z-c]".toList ∧
      parse 1 ("([)]\\))" ++ ")" ++ "*(") = .error ⟨7, .trailingInput ')'⟩ :=
  ⟨(parse_error_cause 1 "(a[b\\z-c]").1 ⟨4, .invalidRange 'z' 'c'⟩ (by rfl),
    (parse_error_cause 1 "([)]\\))").2 (.seq (.oneOf ⟨[(')', ')')]⟩) (.char ')')) (by rfl) "*("⟩

end Pattern

end PathSum.Regex
