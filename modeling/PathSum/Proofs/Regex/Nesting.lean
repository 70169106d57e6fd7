import Mathlib.Order.Bounds.Defs
import PathSum.Proofs.Regex.Causes
import PathSum.Proofs.Regex.Continuation

/-!
# The limit on nested groups

A step asks for the limit only at a parenthesis that opens a group. Two readers with different
limits go the same way until one of them refuses such a parenthesis, so the limit decides nothing
but where a pattern is cut off, and a pattern that is not cut off is read alike under every higher
limit.

Where it is cut off can be found without looking at errors. A pattern is cut off at the first
parenthesis behind which one group more than allowed can be closed, under the next higher limit
(`OverflowsAt`). The parenthesis may be escaped or stand in a class, but then another one comes
first or no closing parenthesis ends the class.

* **`step_open`**: the one step that depends on the limit, under all limits at once.
* **`readAll_eq_or_tooDeep`**: two runs under different limits.
* **`opensGroups_of_parseChars`**: in a whole pattern every group is closed, so the text behind a
  parenthesis tells how many groups were open at it.

Main statement: **`parse_nesting`**.
-/

namespace PathSum.Regex

variable {limit limit' i n : Nat} {r r' : Reader} {c : Char} {text before : List Char}
  {p : Pattern}

namespace Reader

/-! ## Steps under two limits -/

/-- A parenthesis that opens a group: the limit decides whether it may, and nothing else. This is
the only step that asks for the limit. -/
theorem step_open (h : r.mode.place = .outside) :
    ∃ frame, ∀ limit, r.step limit '(' =
      if limit ≤ r.stack.length then .error ⟨r.position, .nestingTooDeep limit⟩
      else .ok ⟨r.position + 1, frame :: r.stack, .empty, .atom⟩ := by
  obtain ⟨position, stack, frame, mode⟩ := r
  cases mode with
  | atom => exact ⟨frame, fun _ => rfl⟩
  | complete atom => exact ⟨{ frame with sequence := some (frame.sequenceWith atom) }, fun _ => rfl⟩
  | escape => cases h
  | inClass _ _ _ mode => cases mode <;> cases h

theorem readAtom_eq_of_ne (hc : c ≠ '(') (limit limit' : Nat) :
    r.readAtom limit' c = r.readAtom limit c := by
  unfold readAtom
  split
  · exact absurd rfl hc
  all_goals rfl

/-- Any other character is read without the limit. This includes parentheses that are escaped or
stand in a class. -/
theorem step_eq_of_not_open (h : c = '(' → r.mode.place ≠ .outside) (limit limit' : Nat) :
    r.step limit' c = r.step limit c := by
  unfold step
  split
  · rename_i hmode
    exact readAtom_eq_of_ne (fun hc => h hc (hmode ▸ rfl)) limit limit'
  · rename_i hmode
    unfold readAfter
    split
    all_goals first | rfl | exact readAtom_eq_of_ne (fun hc => h hc (hmode ▸ rfl)) limit limit'
  · rfl
  · rfl

theorem step_eq_or_tooDeep (hle : limit ≤ limit') (r : Reader) (c : Char) :
    r.step limit' c = r.step limit c ∨
      ∃ i, r.step limit c = .error ⟨i, .nestingTooDeep limit⟩ := by
  by_cases h : c = '(' ∧ r.mode.place = .outside
  · obtain ⟨rfl, hplace⟩ := h
    obtain ⟨frame, hstep⟩ := step_open hplace
    by_cases hlimit : limit ≤ r.stack.length
    · exact .inr ⟨r.position, by rw [hstep, if_pos hlimit]⟩
    · exact .inl (by rw [hstep, hstep, if_neg hlimit, if_neg (by omega)])
  · exact .inl (step_eq_of_not_open (fun hc hplace => h ⟨hc, hplace⟩) limit limit')

/-! ## Runs under two limits -/

/-- **Runs under two limits.** They are alike unless the lower limit ends one of them. The induction
is on the text, from any reader on. -/
theorem readAll_eq_or_tooDeep (hle : limit ≤ limit') (r : Reader) (text : List Char) :
    r.readAll limit' text = r.readAll limit text ∨
      ∃ i, r.readAll limit text = .error ⟨i, .nestingTooDeep limit⟩ := by
  induction text generalizing r with
  | nil => exact .inl rfl
  | cons c text ih =>
    rw [readAll_cons, readAll_cons]
    obtain hstep | ⟨i, hstep⟩ := step_eq_or_tooDeep hle r c
    · rw [hstep]
      cases r.step limit c with
      | error e => exact .inl rfl
      | ok next => exact ih next
    · exact .inr ⟨i, by rw [hstep]; rfl⟩

theorem readAll_mono (hle : limit ≤ limit') (h : r.readAll limit text = .ok r') :
    r.readAll limit' text = .ok r' := by
  obtain heq | ⟨i, hfail⟩ := readAll_eq_or_tooDeep hle r text
  · exact heq.trans h
  · rw [hfail] at h
    cases h

/-- A run that the limit ends is cut off at a parenthesis, with as many groups open as allowed.
Everything before it has been read. -/
theorem exists_open_of_tooDeep (h : start.readAll limit text = .error ⟨i, .nestingTooDeep n⟩) :
    ∃ before rest r, text = before ++ '(' :: rest ∧ i = before.length ∧ n = limit ∧
      start.readAll limit before = .ok r ∧ r.mode.place = .outside ∧ r.stack.length = limit := by
  obtain ⟨before, c, rest, r, rfl, hread, hfail⟩ := exists_step_of_readAll h
  have hposition : r.position = before.length := (located_start.readAll hread).position
  by_cases hopen : c = '(' ∧ r.mode.place = .outside
  · obtain ⟨rfl, hplace⟩ := hopen
    obtain ⟨frame, hstep⟩ := step_open hplace
    rw [hstep] at hfail
    split at hfail
    · rename_i hlimit
      cases hfail
      exact ⟨before, rest, r, rfl, hposition, rfl, hread, hplace,
        Nat.le_antisymm (stack_length_le hread) hlimit⟩
    · cases hfail
  · -- such a step fails alike under the next limit, but an error names the limit it is under.
    have hfail' : r.step (limit + 1) c = .error ⟨i, .nestingTooDeep n⟩ :=
      (step_eq_of_not_open (fun hc hplace => hopen ⟨hc, hplace⟩) limit (limit + 1)).trans hfail
    obtain ⟨_, _, _, _, hn, _⟩ := hasCause_step hread hfail []
    obtain ⟨_, _, _, _, hn', _⟩ := hasCause_step (readAll_mono (Nat.le_succ limit) hread) hfail' []
    omega

/-- A parenthesis with as many groups open as allowed. The error is there whatever comes behind it.
-/
theorem readAll_tooDeep (h : start.readAll limit before = .ok r) (hplace : r.mode.place = .outside)
    (hstack : r.stack.length = limit) (rest : List Char) :
    start.readAll limit (before ++ '(' :: rest) =
      .error ⟨before.length, .nestingTooDeep limit⟩ := by
  have hposition : r.position = before.length := (located_start.readAll h).position
  obtain ⟨frame, hstep⟩ := step_open hplace
  rw [readAll_append_of_readAll h, readAll_cons, hstep, if_pos (Nat.le_of_eq hstack.symm),
    hposition]
  rfl

end Reader

/-! ## Whole patterns -/

namespace Pattern

theorem parseChars_eq_or_tooDeep (hle : limit ≤ limit') (text : List Char) :
    parseChars limit' text = parseChars limit text ∨
      ∃ i, parseChars limit text = .error ⟨i, .nestingTooDeep limit⟩ := by
  rw [parseChars, parseChars]
  obtain heq | ⟨i, hfail⟩ := Reader.readAll_eq_or_tooDeep hle .start text
  · exact .inl (by rw [heq])
  · exact .inr ⟨i, by rw [hfail]; rfl⟩

/-- Nothing is missing at the end of a text that the limit cuts off: the error comes from a step,
never from the end. -/
theorem parseChars_tooDeep_iff :
    parseChars limit text = .error ⟨i, .nestingTooDeep n⟩ ↔
      Reader.start.readAll limit text = .error ⟨i, .nestingTooDeep n⟩ := by
  rw [parseChars]
  cases hread : Reader.start.readAll limit text with
  | error e =>
    constructor <;> rintro ⟨⟩ <;> rfl
  | ok r =>
    refine ⟨fun h => ?_, fun h => by cases h⟩
    have hopen := Reader.isUnfinished_finish h
    cases hopen

/-- Every group of a whole pattern is closed, and so are its classes and escapes. -/
theorem opensGroups_of_parseChars (h : parseChars limit text = .ok p) : OpensGroups text 0 := by
  obtain ⟨r, hread, hfinish⟩ := parseChars_eq_ok_iff.mp h
  obtain ⟨atom, hmode, hstack, -⟩ := Reader.exists_atom_of_finish hfinish
  have hlocated : r.Located text := Reader.located_start.readAll hread
  have hgroups := hlocated.groups
  rw [hstack] at hgroups
  exact ⟨hlocated.place.trans (hmode ▸ rfl), hgroups⟩

/-- A group with one character in it, and so many parentheses that close the groups around it. -/
def innermost (limit : Nat) : List Char :=
  '(' :: 'a' :: List.replicate (limit + 1) ')'

theorem marks_closings (count : Nat) :
    marks (List.replicate count ')') = List.replicate count .closed := by
  induction count with
  | zero => rfl
  | succ count ih =>
    rw [List.replicate_succ, marks_cons (by decide) (by decide), ih]
    rfl

theorem marks_innermost (limit : Nat) :
    marksFrom .outside (innermost limit) =
      .opened :: .leaf :: List.replicate (limit + 1) .closed := by
  rw [← marks_closings]
  rfl

theorem marks_innermost_escaped (limit : Nat) :
    marksFrom .escaped (innermost limit) =
      .leaf :: .leaf :: List.replicate (limit + 1) .closed := by
  rw [← marks_closings]
  rfl

/-- No parenthesis ends a class. -/
theorem place_innermost (limit : Nat) : (innermost limit).foldl Place.next .inClass = .inClass := by
  have hclosings (count : Nat) :
      (List.replicate count ')').foldl Place.next .inClass = .inClass := by
    induction count with
    | zero => rfl
    | succ count ih => exact ih
  exact hclosings (limit + 1)

/-- How many groups are open behind a text shows in what closes them. The first parenthesis may also
stand behind a backslash, and then one more group is open. -/
theorem opened_of_innermost (h : OpensGroups (before ++ innermost limit) 0) :
    OpensGroups before limit ∨
      (marks before).count .opened = (marks before).count .closed + (limit + 1) := by
  obtain ⟨houtside, hcount⟩ := h
  rw [placeAfter_append] at houtside
  rw [marks_append, List.count_append, List.count_append] at hcount
  cases hplace : placeAfter before with
  | outside =>
    have hopen : (marks before).count .opened = (marks before).count .closed + limit := by
      simpa [hplace, marks_innermost, List.count_replicate, ← Nat.add_assoc] using hcount
    exact .inl ⟨hplace, hopen⟩
  | escaped =>
    exact .inr (by simpa [hplace, marks_innermost_escaped, List.count_replicate] using hcount)
  | inClass =>
    rw [hplace, place_innermost] at houtside
    cases houtside
  | escapedInClass =>
    -- the first parenthesis is escaped, the others stand in the class.
    have hin : (innermost limit).foldl Place.next .escapedInClass = .inClass :=
      place_innermost limit
    rw [hplace, hin] at houtside
    cases houtside

/-- At a parenthesis more groups can be opened and closed than allowed. -/
def OverflowsAt (limit : Nat) (text : String) (i : Nat) : Prop :=
  text.toList[i]? = some '(' ∧ ∃ p,
    parse (limit + 1) (String.ofList (text.toList.take i) ++ "(a)" ++
      String.ofList (List.replicate limit ')')) = .ok p

theorem overflowsAt_iff {text : String} : OverflowsAt limit text i ↔
    ∃ before rest p, text.toList = before ++ '(' :: rest ∧ before.length = i ∧
      parseChars (limit + 1) (before ++ innermost limit) = .ok p := by
  have htext : (String.ofList (text.toList.take i) ++ "(a)" ++
      String.ofList (List.replicate limit ')')).toList = text.toList.take i ++ innermost limit := by
    simp [innermost, List.replicate_succ]
  rw [OverflowsAt, parse, htext]
  constructor
  · rintro ⟨hopen, p, hparse⟩
    obtain ⟨hlength, hget⟩ := List.getElem?_eq_some_iff.mp hopen
    refine ⟨_, text.toList.drop (i + 1), p, ?_, ?_, hparse⟩
    · rw [← hget, List.getElem_cons_drop, List.take_append_drop]
    · exact List.length_take_of_le (Nat.le_of_lt hlength)
  · rintro ⟨before, rest, p, heq, rfl, hparse⟩
    rw [heq, List.getElem?_append_right (Nat.le_refl _), Nat.sub_self, List.take_left]
    exact ⟨rfl, p, hparse⟩

/-- Where the limit cuts a pattern off, one more group fits under the next limit. What was read
before can be completed by an atom and as many parentheses as there are groups. -/
theorem overflowsAt_of_tooDeep {text : String}
    (h : parse limit text = .error ⟨i, .nestingTooDeep n⟩) : OverflowsAt limit text i := by
  obtain ⟨before, rest, r, heq, rfl, -, hread, hplace, hstack⟩ :=
    Reader.exists_open_of_tooDeep (parseChars_tooDeep_iff.mp h)
  obtain ⟨frame, hopen⟩ := Reader.step_open hplace
  obtain ⟨position, frame', atom, hclose⟩ := Reader.readAll_ending_groups (limit + 1)
    (r.position + 1 + 1) (frame :: r.stack) .empty (.char 'a')
  refine overflowsAt_iff.mpr ⟨before, rest, frame'.close atom, heq, rfl, ?_⟩
  have hstep := hopen (limit + 1)
  rw [hstack, if_neg (Nat.not_succ_le_self limit)] at hstep
  rw [List.length_cons, hstack] at hclose
  rw [parseChars_append_of_readAll (Reader.readAll_mono (Nat.le_succ limit) hread), innermost,
    Reader.readAll_cons_of_step hstep]
  exact congrArg (· >>= Reader.finish) ((Reader.readAll_cons_of_step rfl).trans hclose)

/-- Where one more group fits under the next limit, the pattern is cut off, if not before. The
completed pattern has more groups open at that place than allowed, and up to it both texts are the
same. -/
theorem tooDeep_of_overflowsAt {text : String} (h : OverflowsAt limit text i) :
    ∃ j ≤ i, parse limit text = .error ⟨j, .nestingTooDeep limit⟩ := by
  obtain ⟨before, rest, p, heq, rfl, hparse⟩ := overflowsAt_iff.mp h
  obtain ⟨r', hread', -⟩ := parseChars_eq_ok_iff.mp hparse
  rw [Reader.readAll_append] at hread'
  obtain ⟨r, hbefore, -⟩ := bind_eq_ok_iff.mp hread'
  rw [parse, heq]
  obtain hsame | ⟨j, hfail⟩ :=
    Reader.readAll_eq_or_tooDeep (Nat.le_succ limit) Reader.start before
  · -- the lower limit allows all groups that are open, so none is left to be escaped.
    have hread : Reader.start.readAll limit before = .ok r := hsame.symm.trans hbefore
    have hlocated : r.Located before := Reader.located_start.readAll hread
    have hstack : r.stack.length ≤ limit := Reader.stack_length_le hread
    have hgroups := hlocated.groups
    obtain ⟨hplace, hcount⟩ | hcount := opened_of_innermost (opensGroups_of_parseChars hparse)
    · exact ⟨before.length, Nat.le_refl _, parseChars_tooDeep_iff.mpr
        (Reader.readAll_tooDeep hread (hlocated.place.symm.trans hplace) (by omega) rest)⟩
    · omega
  · obtain ⟨before', rest', r', rfl, rfl, -⟩ := Reader.exists_open_of_tooDeep hfail
    exact ⟨before'.length, by simp,
      parseChars_tooDeep_iff.mpr (Reader.readAll_append_of_error hfail _)⟩

/-- **The limit only cuts off.** A pattern that a limit does not cut off is read alike under every
higher limit: as the same pattern, which has the same table of nodes, or with the same error. It is
cut off exactly at the first parenthesis where one more group fits under the next limit. -/
theorem parse_nesting (limit : Nat) (text : String) :
    (∀ limit', limit ≤ limit' → (∀ i, parse limit text ≠ .error ⟨i, .nestingTooDeep limit⟩) →
      parse limit' text = parse limit text) ∧
    ∀ i, (∃ n, parse limit text = .error ⟨i, .nestingTooDeep n⟩) ↔
      IsLeast {j | OverflowsAt limit text j} i := by
  constructor
  · intro limit' hle hnever
    obtain heq | ⟨i, hcut⟩ := parseChars_eq_or_tooDeep hle text.toList
    · exact heq
    · exact absurd hcut (hnever i)
  · intro i
    constructor
    · rintro ⟨n, hcut⟩
      refine ⟨overflowsAt_of_tooDeep hcut, fun j hj => ?_⟩
      -- a text is cut off at one place, so the place found from `j` on is `i`.
      obtain ⟨k, hk, hcut'⟩ := tooDeep_of_overflowsAt hj
      obtain ⟨rfl, -⟩ := ParseError.mk.inj (Except.error.inj (hcut.symm.trans hcut'))
      exact hk
    · rintro ⟨hover, hleast⟩
      obtain ⟨j, hj, hcut⟩ := tooDeep_of_overflowsAt hover
      obtain rfl : i = j := Nat.le_antisymm (hleast (overflowsAt_of_tooDeep hcut)) hj
      exact ⟨limit, hcut⟩

/-- Groups side by side never add up, and a parenthesis that is escaped or in a class opens none. -/
theorem parse_nesting_siblings :
    parse 7 "((a)(b)|(c))(d)" = parse 2 "((a)(b)|(c))(d)" ∧
      IsLeast {j | OverflowsAt 1 "\\((b)([(](*" j} 9 :=
  ⟨(parse_nesting 2 "((a)(b)|(c))(d)").1 7 (by decide) (by rintro i ⟨⟩),
    ((parse_nesting 1 "\\((b)([(](*").2 9).mp ⟨1, by rfl⟩⟩

end Pattern

end PathSum.Regex
