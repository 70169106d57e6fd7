import PathSum.Proofs.Regex.Completeness

/-!
# Errors and continuations

Some refused patterns only lack their end, and others cannot be mended by anything that follows.
The kind of the error tells which. A step fails only where no continuation helps, and every longer
pattern fails in that same step; the end of the pattern fails only where something is open, and
`Reader.ending` closes it, whatever the reader is in the middle of.
-/

namespace PathSum.Regex

variable {limit : Nat} {text : List Char} {c : Char} {r r' : Reader} {e : ParseError}

/-- Whether a pattern is refused only because it ends too early. -/
def ParseError.Kind.isUnfinished : ParseError.Kind → Bool
  | .unexpectedEnd | .unterminatedClass | .unclosedGroup | .danglingEscape => true
  | .unexpectedChar _ | .trailingInput _ | .emptyClass | .invalidRange _ _ | .nestingTooDeep _ =>
    false

namespace Reader

/-! ## Errors before the end -/

theorem isUnfinished_readAtom (h : r.readAtom limit c = .error e) :
    e.kind.isUnfinished = false := by
  unfold readAtom at h
  split at h
  · split at h <;> cases h
    rfl
  all_goals cases h
  all_goals rfl

theorem isUnfinished_readAfter {atom : Pattern} (h : r.readAfter limit atom c = .error e) :
    e.kind.isUnfinished = false := by
  unfold readAfter at h
  split at h
  · cases h
  · cases h
  · cases h
  · cases h
  · -- a parenthesis that closes nothing stays one, whatever follows.
    split at h <;> cases h
    rfl
  · exact isUnfinished_readAtom h

theorem isUnfinished_readItem {start : Nat} {negated : Bool} {set : CharSet}
    (h : r.readItem start negated set c = .error e) : e.kind.isUnfinished = false := by
  unfold readItem at h
  split at h
  · split at h <;> cases h
    rfl
  · cases h
  · split at h <;> cases h

theorem isUnfinished_readLast {start item : Nat} {negated : Bool} {set : CharSet} {first : Char}
    (h : r.readLast start negated set item first c = .error e) : e.kind.isUnfinished = false := by
  unfold readLast at h
  split at h <;> cases h
  rfl

theorem isUnfinished_readClass {start : Nat} {negated : Bool} {set : CharSet} {mode : ClassMode}
    (h : r.readClass start negated set mode c = .error e) : e.kind.isUnfinished = false := by
  unfold readClass at h
  split at h
  · exact isUnfinished_readItem h
  · cases h
  · split at h
    · cases h
    · exact isUnfinished_readItem h
  · split at h
    · cases h
    · cases h
    · exact isUnfinished_readLast h
  · exact isUnfinished_readLast h

/-- No step fails because something is missing. -/
theorem isUnfinished_step (h : r.step limit c = .error e) : e.kind.isUnfinished = false := by
  unfold step at h
  split at h
  · exact isUnfinished_readAtom h
  · exact isUnfinished_readAfter h
  · cases h
  · exact isUnfinished_readClass h

theorem isUnfinished_readAll (h : r.readAll limit text = .error e) :
    e.kind.isUnfinished = false := by
  obtain ⟨_, _, _, _, _, _, hstep⟩ := exists_step_of_readAll h
  exact isUnfinished_step hstep

/-- What follows an error is not read. -/
theorem readAll_append_of_error (h : r.readAll limit text = .error e) (rest : List Char) :
    r.readAll limit (text ++ rest) = .error e := by
  rw [readAll_append, h]
  rfl

/-! ## Errors at the end -/

theorem isUnfinished_finish (h : r.finish = .error e) : e.kind.isUnfinished = true := by
  unfold finish at h
  split at h
  · cases h
    rfl
  · split at h <;> cases h
    rfl
  all_goals cases h
  all_goals rfl

end Reader

/-- Makes a complete atom of whatever is being read. A range may end where it starts, so there
always is a character that ends it. -/
def Mode.ending : Mode → List Char
  | .atom => ['a']
  | .complete _ => []
  | .escape _ => ['a']
  | .inClass _ _ _ .item => ['a', ']']
  | .inClass _ _ _ (.escape _) => ['a', ']']
  | .inClass _ _ _ (.first _ _) => [']']
  | .inClass _ _ _ (.dash _ _) => [']']
  | .inClass _ _ _ (.lastEscape _ first _) => [first, ']']

namespace Reader

/-- Makes a whole pattern of what has been read: the atom is ended, then all groups are closed. -/
def ending (r : Reader) : List Char :=
  r.mode.ending ++ List.replicate r.stack.length ')'

theorem readAll_ending_mode (limit : Nat) (r : Reader) :
    ∃ position atom, r.readAll limit r.mode.ending =
      .ok ⟨position, r.stack, r.frame, .complete atom⟩ := by
  obtain ⟨position, stack, frame, mode⟩ := r
  have hclose (position start : Nat) (negated : Bool) {set : CharSet} (h : set.isEmpty = false) :
      ∃ position' atom, (within position stack frame start negated set .item).readAll limit [']'] =
        .ok ⟨position', stack, frame, .complete atom⟩ :=
    ⟨_, _, readAll_cons_of_step (step_item_close h)⟩
  cases mode with
  | atom => exact ⟨_, _, readAll_cons_of_step rfl⟩
  | complete atom => exact ⟨_, atom, rfl⟩
  | escape start => exact ⟨_, _, readAll_cons_of_step rfl⟩
  | inClass start negated set mode =>
    have hlast (position item : Nat) (c : Char) : ∃ position' atom,
        (within position stack frame start negated set (.first item c)).readAll limit [']'] =
          .ok ⟨position', stack, frame, .complete atom⟩ := by
      have hitem := @readAll_first limit position start stack frame negated set c [] item (by simp)
      rw [List.nil_append] at hitem
      rw [hitem]
      exact hclose position start negated (set.isEmpty_pushChar c)
    -- an item that has not begun, or is only a backslash, becomes the letter.
    cases mode with
    | item =>
      obtain ⟨position', atom, hread⟩ := hlast (position + 1) position 'a'
      exact ⟨position', atom, (readAll_cons_of_step rfl).trans hread⟩
    | escape item =>
      obtain ⟨position', atom, hread⟩ := hlast (position + 1) item 'a'
      exact ⟨position', atom, (readAll_cons_of_step rfl).trans hread⟩
    | first item c => exact hlast position item c
    | dash item c => exact ⟨_, _, readAll_cons_of_step rfl⟩
    | lastEscape item c slash =>
      have hrange : (within position stack frame start negated set
          (.lastEscape item c slash)).step limit c =
        .ok (within (position + 1) stack frame start negated (set.pushRange c c) .item) := by
        show (if c < c then _ else _) = _
        rw [if_neg (Char.lt_irrefl c)]
        rfl
      obtain ⟨position', atom, hread⟩ :=
        hclose (position + 1) start negated (set.isEmpty_pushRange c c)
      exact ⟨position', atom, (readAll_cons_of_step hrange).trans hread⟩

/-- Each parenthesis closes one group and leaves an atom behind. The induction is on the groups that
are open. -/
theorem readAll_ending_groups (limit position : Nat) (stack : List Frame) (frame : Frame)
    (atom : Pattern) :
    ∃ position' frame' atom',
      (⟨position, stack, frame, .complete atom⟩ : Reader).readAll limit
          (List.replicate stack.length ')') = .ok ⟨position', [], frame', .complete atom'⟩ := by
  induction stack generalizing position frame atom with
  | nil => exact ⟨position, frame, atom, rfl⟩
  | cons outer stack ih =>
    obtain ⟨position', frame', atom', hread⟩ := ih (position + 1) outer (frame.close atom)
    exact ⟨position', frame', atom', (readAll_cons_of_step rfl).trans hread⟩

/-- **Whatever has been read can be made a pattern.** -/
theorem finish_ending (limit : Nat) (r : Reader) :
    ∃ r' p, r.readAll limit r.ending = .ok r' ∧ r'.finish = .ok p := by
  obtain ⟨position, atom, hmode⟩ := readAll_ending_mode limit r
  obtain ⟨position', frame, atom', hgroups⟩ :=
    readAll_ending_groups limit position r.stack r.frame atom
  refine ⟨⟨position', [], frame, .complete atom'⟩, frame.close atom', ?_, rfl⟩
  rw [ending, readAll_append_of_readAll hmode, hgroups]

end Reader

namespace Pattern

theorem parseChars_append_of_readAll {r : Reader} (h : Reader.start.readAll limit text = .ok r)
    (rest : List Char) :
    parseChars limit (text ++ rest) = r.readAll limit rest >>= fun r' => r'.finish := by
  rw [parseChars, Reader.readAll_append_of_readAll h]

/-- **The kind of an error tells whether a pattern can be continued.** An unfinished pattern has a
continuation that is accepted under the same limit; any other error is final, and every longer
pattern is refused with that very error. -/
theorem parse_continuation {text : String} (h : parse limit text = .error e) :
    (e.kind.isUnfinished = true → ∃ rest p, parse limit (text ++ rest) = .ok p) ∧
      (e.kind.isUnfinished = false → ∀ rest, parse limit (text ++ rest) = .error e) := by
  unfold parse parseChars at h
  cases hread : Reader.start.readAll limit text.toList with
  | error e' =>
    -- a step failed, and it fails in the same way if more follows.
    rw [hread] at h
    obtain rfl : e' = e := Except.error.inj h
    have hfinal := Reader.isUnfinished_readAll hread
    refine ⟨fun hopen => absurd (hfinal.symm.trans hopen) Bool.false_ne_true, fun _ rest => ?_⟩
    rw [parse, parseChars, String.toList_append, Reader.readAll_append_of_error hread]
    rfl
  | ok r =>
    -- all steps went well, so something is only missing at the end.
    rw [hread] at h
    have hopen : e.kind.isUnfinished = true := Reader.isUnfinished_finish h
    refine ⟨fun _ => ?_, fun hfinal => absurd (hfinal.symm.trans hopen) Bool.false_ne_true⟩
    obtain ⟨r', p, hending, hfinish⟩ := r.finish_ending limit
    refine ⟨String.ofList r.ending, p, ?_⟩
    rw [parse, String.toList_append, String.toList_ofList, parseChars_append_of_readAll hread,
      hending]
    exact hfinish

/-- A dangling backslash in a class can be mended, a range in the wrong order cannot. -/
theorem parse_continuation_range :
    (∃ rest p, parse 1 ("(x[+-\\" ++ rest) = .ok p) ∧
      ∀ rest, parse 1 ("(x[z-a" ++ rest) = .error ⟨3, .invalidRange 'z' 'a'⟩ :=
  ⟨(@parse_continuation 1 ⟨5, .danglingEscape⟩ "(x[+-\\" (by rfl)).1 rfl,
    (@parse_continuation 1 ⟨3, .invalidRange 'z' 'a'⟩ "(x[z-a" (by rfl)).2 rfl⟩

end Pattern

end PathSum.Regex
