import PathSum.Proofs.Regex.Soundness
import PathSum.Regex.Cause

/-!
# Where a reader stands

A reader keeps positions of its own: the next character, and the beginnings of the class, the item
and the escape that it is in. The invariant `Reader.Located` says what stands in the text at each of
them, and that as many groups are open as the marks of the text say. The text is described by its
marks and by the items of a class, never by what the reader made of it.

* **`ClassRead`**: the items of the class being read. They stay whole whatever comes behind them, so
  the item being read can be put off until it is known to be a character or a range.
* **`Located.advance`**, **`Located.advance_class`**: a step of any mode outside of classes, and one
  of any mode inside. Only parentheses change the open groups (`Located.move`).
* **`Located.step`**, **`Located.readAll`**: one character, then all of them.
-/

namespace PathSum.Regex

variable {limit : Nat} {r r' : Reader} {negated : Bool} {set set' : CharSet} {c : Char}
  {mode mode' : ClassMode} {before text items pending : List Char}

/-! ## What a mode stands for -/

/-- Where the next character stands. -/
def Mode.place : Mode → Place
  | .atom | .complete _ => .outside
  | .escape _ => .escaped
  | .inClass _ _ _ (.escape _) | .inClass _ _ _ (.lastEscape _ _ _) => .escapedInClass
  | .inClass _ _ _ _ => .inClass

/-- Where the backslash stands that the next character comes behind. -/
def Mode.slash? : Mode → Option Nat
  | .escape slash | .inClass _ _ _ (.escape slash) | .inClass _ _ _ (.lastEscape _ _ slash) =>
    some slash
  | _ => none

/-- Where the item begins that is being read. -/
def ClassMode.item? : ClassMode → Option Nat
  | .item => none
  | .escape i | .first i _ | .dash i _ | .lastEscape i _ _ => some i

/-! ## What a class has read -/

/-- The items of a class that was opened behind `before`: the whole ones, and the one being read,
whatever comes behind it. -/
structure ClassRead (before : List Char) (negated : Bool) (set : CharSet) (mode : ClassMode)
    (items pending : List Char) : Prop extends ClassText negated set items pending where
  outside : placeAfter before = .outside
  whole : ∀ rest, WholeItems items (pending ++ rest).head?
  pending : mode.Pending pending
  item : ∀ i, mode.item? = some i → i = (before ++ (classOpening negated ++ items)).length

/-- A text ends in a class that was opened at `start`, and nothing in the class is marked. -/
def ClassAt (text : List Char) (start : Nat) (negated : Bool) (set : CharSet)
    (mode : ClassMode) : Prop :=
  ∃ before items pending, text = before ++ (classOpening negated ++ (items ++ pending)) ∧
    before.length = start ∧ marks text = marks before ∧
      ClassRead before negated set mode items pending

theorem ClassRead.start (negated : Bool) (h : placeAfter before = .outside) :
    ClassRead before negated .empty .item [] [] where
  toClassText := .start negated
  outside := h
  whole _ := .nil
  pending := rfl
  item _ hi := nomatch hi

theorem ClassRead.more (h : ClassRead before negated set mode items pending) (hne : pending ≠ [])
    (hitem : mode'.item? = mode.item?) (hpending : mode'.Pending (pending ++ [c])) :
    ClassRead before negated set mode' items (pending ++ [c]) where
  toClassText := h.toClassText.more hne [c]
  outside := h.outside
  whole rest := by
    rw [List.append_assoc]
    exact h.whole _
  pending := hpending
  item i hi := by
    rw [hitem] at hi
    exact h.item i hi

/-- The range begins where its first character was read. With its last character all that was
pending becomes a whole item, and nothing is pending any more. -/
theorem ClassRead.range {first last : List Char} {lo hi : Char}
    (h : ClassRead before negated set mode items pending)
    (heq : pending ++ [c] = first ++ '-' :: last) (hlo : DerivesClassChar first lo)
    (hhi : DerivesClassChar last hi) (hle : lo ≤ hi) (hne : pending ≠ []) :
    ClassRead before negated (set.pushRange lo hi) .item (items ++ (pending ++ [c])) [] where
  toClassText := h.toClassText.range heq hlo hhi hle hne
  outside := h.outside
  whole rest := by
    have hhead : (first ++ '-' :: last).head? = first.head? :=
      @head?_append_append [] first hlo.ne_nil ('-' :: last)
    have hwhole : WholeItems items first.head? := by
      rw [← hhead, ← heq]
      exact h.whole [c]
    rw [heq]
    exact .range hwhole hlo hhi hle
  pending := rfl
  item _ hi := nomatch hi

/-- Whole items with `c` behind them, which either closes the class or begins the next item. -/
structure WholeBefore (before : List Char) (negated : Bool) (set : CharSet) (items : List Char)
    (c : Char) : Prop extends BeforeItem negated set items c where
  outside : placeAfter before = .outside
  whole : WholeItems items (some c)

theorem ClassRead.wholeBefore (h : ClassRead before negated set mode items []) :
    WholeBefore before negated set items c where
  toBeforeItem := h.toClassText.beforeItem
  outside := h.outside
  whole := h.whole [c]

/-- A character that no dash comes behind is a whole item. -/
theorem ClassRead.wholeBefore_first {d : Char}
    (h : ClassRead before negated set mode items pending) (hpending : DerivesClassChar pending d)
    (hdash : c ≠ '-') : WholeBefore before negated (set.pushChar d) (items ++ pending) c where
  toBeforeItem := h.toClassText.beforeItem_first hpending hdash
  outside := h.outside
  whole := .single (by simpa using h.whole []) hpending (by simpa using hdash)

/-- An item begins with `c`. All items before it are whole, and its own place is the end of what was
read. -/
theorem WholeBefore.begin (h : WholeBefore before negated set items c)
    (hcaret : negated = true ∨ set.isEmpty = false ∨ c ≠ '^') (hpending : mode.Pending [c])
    (hitem : ∀ i, mode.item? = some i → i = (before ++ (classOpening negated ++ items)).length) :
    ClassRead before negated set mode items [c] where
  toClassText := h.begins hcaret
  outside := h.outside
  whole _ := h.whole
  pending := hpending
  item := hitem

/-! ## What a reader has read -/

namespace Reader

/-- What the position, the mode and the open groups of a reader say about the text so far. It speaks
of marks and places only, not of the pattern that is being read. -/
structure Located (r : Reader) (text : List Char) : Prop where
  position : r.position = text.length
  place : placeAfter text = r.mode.place
  groups : (marks text).count .opened = (marks text).count .closed + r.stack.length
  slash : ∀ slash, r.mode.slash? = some slash → ∃ before, text = before ++ ['\\'] ∧
    before.length = slash ∧ (placeAfter before = .outside ∨ placeAfter before = .inClass)
  inClass : ∀ start negated set mode, r.mode = .inClass start negated set mode →
    ClassAt text start negated set mode

theorem located_start : start.Located [] where
  position := rfl
  place := rfl
  groups := rfl
  slash := nofun
  inClass := nofun

end Reader

/-- A character behind which the text is not outside of escapes and classes has not ended an atom,
and so it gives no mark. -/
theorem marksFrom_singleton_eq_nil {place : Place} (h : place.next c ≠ .outside) :
    marksFrom place [c] = [] := by
  cases place with
  | outside =>
    by_cases hescape : c = '\\'
    · subst hescape
      rfl
    by_cases hclass : c = '['
    · subst hclass
      rfl
    exact absurd (Place.next_outside hescape hclass) h
  | escaped => exact absurd (by rw [Place.next]) h
  | inClass =>
    by_cases hescape : c = '\\'
    · subst hescape
      rfl
    by_cases hclose : c = ']'
    · subst hclose
      exact absurd rfl h
    rw [marksFrom_inClass_cons hescape hclose]
    rfl
  | escapedInClass => exact marksFrom_escapedInClass_cons c []

namespace Reader

/-- One character more, whatever the reader makes of it. Where it stands is given by `place`, so
that all conditions are about one place and not about the mode of the reader. -/
theorem Located.move {place : Place} (h : r.Located text) (hat : r.mode.place = place)
    (hposition : r'.position = r.position + 1) (hplace : r'.mode.place = place.next c)
    (hgroups : r.stack.length + (marksFrom place [c]).count .opened =
      (marksFrom place [c]).count .closed + r'.stack.length)
    (hslash : ∀ slash, r'.mode.slash? = some slash →
      slash = r.position ∧ c = '\\' ∧ (place = .outside ∨ place = .inClass))
    (hclass : ∀ start negated set mode, r'.mode = .inClass start negated set mode →
      ClassAt (text ++ [c]) start negated set mode) : r'.Located (text ++ [c]) := by
  subst hat
  exact
    { position := by rw [hposition, h.position, List.length_append, List.length_singleton]
      place := by
        rw [placeAfter_append, h.place]
        exact hplace.symm
      groups := by
        -- what is open and what was opened and closed go up and down together.
        have hbefore := h.groups
        rw [marks_append, h.place, List.count_append, List.count_append]
        omega
      slash := by
        intro slash hs
        obtain ⟨rfl, rfl, hp⟩ := hslash slash hs
        refine ⟨text, rfl, h.position.symm, ?_⟩
        rwa [h.place]
      inClass := hclass }

/-- Where there is no parenthesis outside of classes and escapes, the groups stay as they are, and
so does the balance of the marks. -/
theorem Located.advance {place : Place} {m : Mode} (h : r.Located text)
    (hat : r.mode.place = place) (hplain : place = .outside → c ≠ '(' ∧ c ≠ ')')
    (hplace : m.place = place.next c)
    (hslash : ∀ slash, m.slash? = some slash →
      slash = r.position ∧ c = '\\' ∧ (place = .outside ∨ place = .inClass))
    (hclass : ∀ start negated set mode, m = .inClass start negated set mode →
      ClassAt (text ++ [c]) start negated set mode) :
    (r.advance m).Located (text ++ [c]) := by
  refine h.move hat rfl hplace ?_ hslash hclass
  have hopened : ¬(place = .outside ∧ Mark.ofChar c = .opened) := by
    rintro ⟨hout, hc⟩
    exact (hplain hout).1 (Mark.ofChar_eq_opened_iff.mp hc)
  have hclosed : ¬(place = .outside ∧ Mark.ofChar c = .closed) := by
    rintro ⟨hout, hc⟩
    exact (hplain hout).2 (Mark.ofChar_eq_closed_iff.mp hc)
  rw [count_marksFrom_singleton (by decide), count_marksFrom_singleton (by decide),
    if_neg hopened, if_neg hclosed, Nat.add_zero, Nat.zero_add]
  rfl

theorem Located.readAtom (h : r.Located text) (hat : r.mode.place = .outside)
    (hstep : r.readAtom limit c = .ok r') : r'.Located (text ++ [c]) := by
  unfold Reader.readAtom at hstep
  split at hstep
  · split at hstep
    · cases hstep
    · -- a group more is open, and the mark of the text says so.
      cases hstep
      exact h.move hat rfl rfl (Nat.zero_add _).symm nofun nofun
  · -- a class begins, and nothing of it has been read yet.
    cases hstep
    refine h.advance hat (by decide) rfl nofun ?_
    rintro _ _ _ _ ⟨⟩
    refine ⟨text, [], [], rfl, h.position.symm, ?_, ?_⟩
    · rw [marks_append, h.place, hat]
      exact List.append_nil _
    · apply ClassRead.start
      rw [h.place, hat]
  · -- the wildcard.
    cases hstep
    exact h.advance hat (by decide) rfl nofun nofun
  · -- an escape: its backslash stands outside of classes.
    cases hstep
    refine h.advance hat (by decide) rfl ?_ nofun
    rintro _ ⟨⟩
    exact ⟨rfl, rfl, .inl rfl⟩
  -- the signs that begin no atom are errors. What is left is a plain character.
  all_goals cases hstep
  rename_i hopen hbracket _ hslash hclose _ _ _ _
  refine h.advance hat (fun _ => ⟨hopen, hclose⟩) ?_ nofun nofun
  rw [Place.next_outside hslash hbracket]
  rfl

theorem Located.readAfter {atom : Pattern} (h : r.Located text) (hat : r.mode.place = .outside)
    (hstep : r.readAfter limit atom c = .ok r') : r'.Located (text ++ [c]) := by
  unfold Reader.readAfter at hstep
  split at hstep
  · -- the three signs that change the atom stay in the same group.
    cases hstep
    exact h.advance hat (by decide) rfl nofun nofun
  · cases hstep
    exact h.advance hat (by decide) rfl nofun nofun
  · cases hstep
    exact h.advance hat (by decide) rfl nofun nofun
  · cases hstep
    -- a bar only changes the frame besides, of which nothing is said here.
    have hadvance : (r.advance .atom).Located (text ++ ['|']) :=
      h.advance hat (by decide) rfl nofun nofun
    exact ⟨hadvance.position, hadvance.place, hadvance.groups, nofun, nofun⟩
  · cases hstack : r.stack with
    | nil =>
      rw [hstack] at hstep
      cases hstep
    | cons frame stack =>
      rw [hstack] at hstep
      cases hstep
      -- a group less is open, and the mark of the text says so.
      refine h.move hat rfl rfl ?_ nofun nofun
      rw [hstack]
      exact Nat.add_comm _ 1
  · -- the atom joins its sequence, which does not move the reader, and the next one begins.
    have hframe (frame : Frame) : ({ r with frame } : Reader).Located text :=
      ⟨h.position, h.place, h.groups, h.slash, h.inClass⟩
    exact (hframe ⟨r.frame.alternatives, some (r.frame.sequenceWith atom)⟩).readAtom hat hstep

/-! ### Steps in a class -/

/-- A character that does not end the class. The class goes on from the same opening bracket, and
the marks of the text stay those before it. -/
theorem Located.advance_class {place : Place} {start : Nat} {negated' : Bool} (h : r.Located text)
    (hmode : r.mode = .inClass start negated set mode) (hat : r.mode.place = place)
    (hplace : (Mode.inClass start negated' set' mode').place = place.next c)
    (hslash : ∀ slash, (Mode.inClass start negated' set' mode').slash? = some slash →
      slash = r.position ∧ c = '\\' ∧ place = .inClass)
    (hclass : ∀ before items pending,
      text = before ++ (classOpening negated ++ (items ++ pending)) →
      ClassRead before negated set mode items pending → ∃ items' pending',
        classOpening negated ++ (items ++ (pending ++ [c])) =
          classOpening negated' ++ (items' ++ pending') ∧
        ClassRead before negated' set' mode' items' pending') :
    (r.advance (.inClass start negated' set' mode')).Located (text ++ [c]) := by
  -- inside of a class no atom ends, so there is no mark.
  have hin : place ≠ .outside := by
    rw [← hat, hmode]
    cases mode <;> nofun
  have hin' : place.next c ≠ .outside := by
    rw [← hplace]
    cases mode' <;> nofun
  refine h.advance hat (fun hout => absurd hout hin) hplace ?_ ?_
  · intro slash hs
    obtain ⟨hposition, hc, hinside⟩ := hslash slash hs
    exact ⟨hposition, hc, .inr hinside⟩
  · rintro _ _ _ _ ⟨⟩
    obtain ⟨before, items, pending, heq, hstart, hmarks, hread⟩ := h.inClass _ _ _ _ hmode
    obtain ⟨items', pending', heq', hread'⟩ := hclass before items pending heq hread
    refine ⟨before, items', pending', ?_, hstart, ?_, hread'⟩
    · rw [← heq', heq]
      simp only [List.append_assoc]
    · rw [marks_append, h.place, hat, marksFrom_singleton_eq_nil hin', hmarks, List.append_nil]

/-- The bracket that ends a class. -/
theorem Located.advance_close {atom : Pattern} (h : r.Located text)
    (hat : r.mode.place = .inClass) : (r.advance (.complete atom)).Located (text ++ [']']) :=
  h.advance hat (by decide) rfl nofun nofun

theorem Located.readItem {start : Nat} (h : r.Located text)
    (hmode : r.mode = .inClass start negated set mode) (hat : r.mode.place = .inClass)
    (hitems : ∀ before items pending, ClassRead before negated set mode items pending →
      WholeBefore before negated set' (items ++ pending) c)
    (hstep : r.readItem start negated set' c = .ok r') : r'.Located (text ++ [c]) := by
  have hitem {before items pending : List Char}
      (heq : text = before ++ (classOpening negated ++ (items ++ pending))) (i : Nat)
      (hi : some r.position = some i) :
      i = (before ++ (classOpening negated ++ (items ++ pending))).length := by
    rw [← heq, ← h.position]
    exact (Option.some.inj hi).symm
  unfold Reader.readItem at hstep
  split at hstep
  · split at hstep
    · cases hstep
    · cases hstep
      exact h.advance_close hat
  · cases hstep
    -- a backslash begins an item.
    refine h.advance_class hmode hat rfl ?_ ?_
    · rintro _ ⟨⟩
      exact ⟨rfl, rfl, rfl⟩
    · intro before items pending heq hread
      have hbefore := hitems before items pending hread
      refine ⟨items ++ pending, ['\\'], ?_, ?_⟩
      · simp only [List.append_assoc]
      · exact hbefore.begin (.inr (.inr (by decide))) rfl (hitem heq)
  · rename_i hclose hslash
    split at hstep
    · -- a caret that nothing stands before negates the class.
      rename_i hcaret
      cases hstep
      simp only [Bool.and_eq_true, decide_eq_true_eq, Bool.not_eq_true', CharSet.isEmpty_iff]
        at hcaret
      obtain ⟨⟨rfl, rfl⟩, hranges⟩ := hcaret
      refine h.advance_class hmode hat rfl nofun ?_
      intro before items pending heq hread
      have hnil := (hitems before items pending hread).nil hranges
      obtain ⟨rfl, rfl⟩ := List.append_eq_nil_iff.mp hnil
      obtain rfl : set' = .empty := by
        cases set'
        rw [CharSet.mk.injEq]
        exact hranges
      exact ⟨[], [], rfl, .start true hread.outside⟩
    · rename_i hcaret
      cases hstep
      -- any other character begins an item too.
      refine h.advance_class hmode hat ?_ nofun ?_
      · rw [Place.next_inClass hslash hclose]
        rfl
      · intro before items pending heq hread
        have hbefore := hitems before items pending hread
        refine ⟨items ++ pending, [c], ?_, ?_⟩
        · simp only [List.append_assoc]
        · exact hbefore.begin (caret_is_item hcaret) (.plain hslash hclose) (hitem heq)

theorem Located.readLast {place : Place} {start item : Nat} {first : Char} (h : r.Located text)
    (hmode : r.mode = .inClass start negated set mode) (hat : r.mode.place = place)
    (hplace : place.next c = .inClass) (hlast : mode.Ranges first c)
    (hstep : r.readLast start negated set item first c = .ok r') : r'.Located (text ++ [c]) := by
  unfold Reader.readLast at hstep
  split at hstep
  · cases hstep
  · rename_i hlt
    cases hstep
    refine h.advance_class hmode hat hplace.symm nofun ?_
    intro before items pending _ hread
    -- the range is whole: what was pending becomes an item.
    obtain ⟨u, v, heq, hne, hu, hv⟩ := hlast pending hread.pending
    refine ⟨items ++ (pending ++ [c]), [], ?_, hread.range heq hu hv (Char.not_lt.mp hlt) hne⟩
    rw [List.append_nil]

theorem Located.readClass {start : Nat} (h : r.Located text)
    (hmode : r.mode = .inClass start negated set mode)
    (hstep : r.readClass start negated set mode c = .ok r') : r'.Located (text ++ [c]) := by
  -- the mode of the class decides the place, once for all cases.
  have hat : r.mode.place = (Mode.inClass start negated set mode).place := by rw [hmode]
  unfold Reader.readClass at hstep
  split at hstep
  · -- an item may start here, and none is pending.
    refine h.readItem hmode hat ?_ hstep
    intro before items pending hread
    obtain rfl : pending = [] := hread.pending
    rw [List.append_nil]
    exact hread.wholeBefore
  · cases hstep
    refine h.advance_class hmode hat rfl nofun ?_
    intro before items pending _ hread
    -- the character after a backslash, which may start a range.
    obtain rfl : pending = ['\\'] := hread.pending
    exact ⟨items, ['\\', c], rfl, hread.more (by simp) rfl (.escaped c)⟩
  · split at hstep
    · rename_i item first hdash
      subst hdash
      cases hstep
      refine h.advance_class hmode hat rfl nofun ?_
      intro before items pending _ hread
      -- a dash after the first character: it waits for what comes next.
      have hpending : DerivesClassChar pending first := hread.pending
      exact ⟨items, pending ++ ['-'], rfl, hread.more hpending.ne_nil rfl ⟨pending, rfl, hpending⟩⟩
    · rename_i item first hdash
      refine h.readItem hmode hat ?_ hstep
      intro before items pending hread
      exact hread.wholeBefore_first hread.pending hdash
  · split at hstep
    · cases hstep
      exact h.advance_close hat
    · cases hstep
      refine h.advance_class hmode hat rfl ?_ ?_
      · rintro _ ⟨⟩
        exact ⟨rfl, rfl, rfl⟩
      · intro before items pending _ hread
        -- a backslash after the dash: the last character of the range comes next.
        obtain ⟨u, hu, hfirst⟩ := hread.pending
        refine ⟨items, pending ++ ['\\'], rfl, hread.more ?_ rfl ⟨u, ?_, hfirst⟩⟩
        · simp [hu]
        · rw [hu, List.append_assoc]
          rfl
    · rename_i hclose hslash
      exact h.readLast hmode hat (Place.next_inClass hslash hclose) (.of_dash hslash hclose) hstep
  · exact h.readLast hmode hat rfl .of_lastEscape hstep

/-! ### Runs -/

/-- **One character more.** The mode decides which function reads it. -/
theorem Located.step (h : r.Located text) (hstep : r.step limit c = .ok r') :
    r'.Located (text ++ [c]) := by
  unfold Reader.step at hstep
  split at hstep
  · rename_i hmode
    have hat : r.mode.place = .outside := by
      rw [hmode]
      rfl
    exact h.readAtom hat hstep
  · rename_i hmode
    have hat : r.mode.place = .outside := by
      rw [hmode]
      rfl
    exact h.readAfter hat hstep
  · rename_i hmode
    cases hstep
    have hat : r.mode.place = .escaped := by
      rw [hmode]
      rfl
    exact h.advance hat nofun rfl nofun nofun
  · rename_i hmode
    exact h.readClass hmode hstep

theorem Located.readAll {rest : List Char} (h : r.Located text)
    (hread : r.readAll limit rest = .ok r') : r'.Located (text ++ rest) := by
  induction rest generalizing r text with
  | nil =>
    cases hread
    rwa [List.append_nil]
  | cons c rest ih =>
    rw [readAll_cons] at hread
    obtain ⟨next, hstep, hrest⟩ := bind_eq_ok_iff.mp hread
    have hall := ih (h.step hstep) hrest
    rwa [List.append_assoc] at hall

end Reader

end PathSum.Regex
