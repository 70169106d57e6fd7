import PathSum.Proofs.Regex.Completeness
import PathSum.Proofs.Regex.Numbering

/-!
# Texts that are read are derivable

The invariant of the reader is `Reader.HasRead`: the text so far is what stands before the open
groups, then what the frame holds, then what the mode holds, and each of these parts is derivable on
its own. One step preserves it (`HasRead.step`), so whole runs do (`HasRead.readAll`), and at the
end the parts make up one derivation.

A class is harder, since an item is known to be a single character only when the next character has
been seen. `ClassText` therefore keeps the finished items apart from the one being read, and says
what the finished ones are followed by.

Main statement: **`parse_exact`**, both directions together with the table of the pattern.
-/

namespace PathSum.Regex

variable {limit budget : Nat} {stack : List Frame} {frame : Frame} {negated : Bool}
  {set : CharSet} {c : Char} {text items pending : List Char} {p atom : Pattern} {r r' : Reader}

/-! ## What a class has read -/

/-- A character in a class takes at least one character of text. -/
theorem DerivesClassChar.ne_nil (h : DerivesClassChar text c) : text ≠ [] := by
  cases h <;> exact List.cons_ne_nil _ _

/-- The text of the item being read. -/
def ClassMode.Pending (mode : ClassMode) (text : List Char) : Prop :=
  match mode with
  | .item => text = []
  | .escape _ => text = ['\\']
  | .first _ c => DerivesClassChar text c
  | .dash _ c => ∃ first, text = first ++ ['-'] ∧ DerivesClassChar first c
  | .lastEscape _ c _ => ∃ first, text = first ++ ['-', '\\'] ∧ DerivesClassChar first c

/-- The item being read becomes a range from `first` to `last` with the character `last`. -/
def ClassMode.Ranges (mode : ClassMode) (first last : Char) : Prop :=
  ∀ pending, mode.Pending pending → ∃ u v, pending ++ [last] = u ++ '-' :: v ∧ pending ≠ [] ∧
    DerivesClassChar u first ∧ DerivesClassChar v last

/-- A character behind a dash ends the range, if it is not a backslash and does not close the class.
-/
theorem ClassMode.Ranges.of_dash {item : Nat} {first last : Char} (hslash : last ≠ '\\')
    (hclose : last ≠ ']') : (ClassMode.dash item first).Ranges first last := by
  rintro _ ⟨u, rfl, hu⟩
  exact ⟨u, [last], by simp, by simp, hu, .plain hslash hclose⟩

/-- Behind a backslash every character ends the range. -/
theorem ClassMode.Ranges.of_lastEscape {item slash : Nat} {first last : Char} :
    (ClassMode.lastEscape item first slash).Ranges first last := by
  rintro _ ⟨u, rfl, hu⟩
  exact ⟨u, ['\\', last], by simp, by simp, hu, .escaped last⟩

/-- The items of a class: whatever the item being read turns into, it may follow the finished ones,
whose ranges are in the set. -/
structure ClassText (negated : Bool) (set : CharSet) (items pending : List Char) : Prop where
  follow : ∀ rest ranges, DerivesItems (pending ++ rest) ranges →
    DerivesItems (items ++ (pending ++ rest)) (set.ranges ++ ranges)
  nil_iff : items = [] ↔ set.ranges = []
  head : negated = false → (items ++ pending).head? ≠ some '^'

/-- A caret is an item of a class unless it comes first and excludes the items. -/
theorem caret_is_item (h : ¬(c = '^' && !negated && set.isEmpty) = true) :
    negated = true ∨ set.isEmpty = false ∨ c ≠ '^' := by
  simp only [Bool.and_eq_true, decide_eq_true_eq, Bool.not_eq_true'] at h
  by_cases hneg : negated = true
  · exact .inl hneg
  · by_cases hempty : set.isEmpty = true
    · exact .inr (.inr fun hc => h ⟨⟨hc, eq_false_of_ne_true hneg⟩, hempty⟩)
    · exact .inr (.inl (eq_false_of_ne_true hempty))

/-- At the beginning there are no items and no ranges. -/
theorem ClassText.start (negated : Bool) : ClassText negated .empty [] [] where
  follow _ _ h := h
  nil_iff := by simp [CharSet.empty]
  head := by simp

/-- What comes behind the first item does not change its first character. -/
theorem head?_append_append {first : List Char} (hne : items ++ first ≠ []) (rest : List Char) :
    (items ++ (first ++ rest)).head? = (items ++ first).head? := by
  obtain ⟨d, more, heq⟩ := List.exists_cons_of_ne_nil hne
  rw [← List.append_assoc, heq]
  rfl

/-- The item being read may become longer, as long as it has begun. -/
theorem ClassText.more (h : ClassText negated set items pending) (hne : pending ≠ [])
    (more : List Char) : ClassText negated set items (pending ++ more) where
  follow rest ranges hrest := by
    rw [List.append_assoc] at hrest ⊢
    exact h.follow _ _ hrest
  nil_iff := h.nil_iff
  head hneg := by
    rw [head?_append_append (List.append_ne_nil_of_right_ne_nil _ hne)]
    exact h.head hneg

/-- An item begins, unless it is the caret that negates the class. What was read before it is whole.
-/
theorem ClassText.begin (h : ClassText negated set items [])
    (hcaret : negated = true ∨ set.isEmpty = false ∨ c ≠ '^') :
    ClassText negated set items [c] where
  follow rest ranges hrest := h.follow _ _ hrest
  nil_iff := h.nil_iff
  head hneg := by
    rcases items with - | ⟨d, items⟩
    · -- nothing is finished, so the set is empty, and a caret would have excluded the items.
      have hranges : set.ranges = [] := h.nil_iff.mp rfl
      simpa [CharSet.isEmpty, hneg, hranges] using hcaret
    · exact h.head hneg

/-- A single character is finished when something comes that does not make it a range: any other
character, or the bracket behind a dash. -/
theorem ClassText.single (h : ClassText negated set items pending)
    (hpending : DerivesClassChar pending c) {next : List Char}
    (hnext : ∀ rest d more, next ++ rest ≠ '-' :: d :: more) :
    ClassText negated (set.pushChar c) (items ++ pending) next where
  follow rest ranges hrest := by
    have hitems := h.follow _ _ (.single hpending hrest (hnext rest))
    simpa using hitems
  nil_iff := by
    have hne := hpending.ne_nil
    simp [hne]
  head hneg := by
    have hne := List.append_ne_nil_of_right_ne_nil items hpending.ne_nil
    rw [List.append_assoc, head?_append_append hne]
    exact h.head hneg

/-- A range is finished with its last character, and it is in the set from then on. Nothing is
pending any more. -/
theorem ClassText.range {first last : List Char} {lo hi : Char}
    (h : ClassText negated set items pending) (heq : pending ++ [c] = first ++ '-' :: last)
    (hlo : DerivesClassChar first lo) (hhi : DerivesClassChar last hi) (hle : lo ≤ hi)
    (hne : pending ≠ []) :
    ClassText negated (set.pushRange lo hi) (items ++ (pending ++ [c])) [] where
  follow rest ranges hrest := by
    rw [List.nil_append] at hrest ⊢
    have hrange := DerivesItems.range hlo hhi hle hrest
    -- what was pending and the last character are the range, cut in another place.
    have hsplit : first ++ '-' :: (last ++ rest) = pending ++ (c :: rest) := by
      rw [← List.cons_append, ← List.append_assoc, ← heq, List.append_assoc]
      rfl
    rw [hsplit] at hrange
    have hitems := h.follow _ _ hrange
    simpa using hitems
  nil_iff := by simp
  head hneg := by
    rw [List.append_nil, head?_append_append (List.append_ne_nil_of_right_ne_nil _ hne)]
    exact h.head hneg

/-- Items that another one may follow, and `c` after them: either `c` closes the class, or it is the
first character of the next item. -/
structure BeforeItem (negated : Bool) (set : CharSet) (items : List Char) (c : Char) : Prop where
  ends : DerivesItems items set.ranges
  nil : set.ranges = [] → items = []
  begins : (negated = true ∨ set.isEmpty = false ∨ c ≠ '^') → ClassText negated set items [c]

/-- Between two items anything may follow. -/
theorem ClassText.beforeItem (h : ClassText negated set items []) :
    BeforeItem negated set items c where
  ends := by simpa using h.follow [] [] .nil
  nil := h.nil_iff.mpr
  begins hcaret := h.begin hcaret

/-- A character that no dash comes behind was an item of its own. -/
theorem ClassText.beforeItem_first {d : Char} (h : ClassText negated set items pending)
    (hpending : DerivesClassChar pending d) (hdash : c ≠ '-') :
    BeforeItem negated (set.pushChar d) (items ++ pending) c where
  ends := by
    have hsingle : DerivesItems (pending ++ []) [(d, d)] := .single hpending .nil (by simp)
    simpa using h.follow [] _ hsingle
  nil hset := by simp at hset
  begins _ := h.single hpending fun rest e more heq => hdash (List.cons.inj heq).1

/-! ## What a reader has read -/

/-- The text of the alternatives and of the sequence that stand before an atom. What comes behind it
is the text of that atom. -/
inductive Frame.HasRead (budget : Nat) : Frame → List Char → Prop where
  | empty : HasRead budget ⟨none, none⟩ []
  | sequence {text : List Char} {p : Pattern} :
      Derives .sequence budget text p → HasRead budget ⟨none, some p⟩ text
  | alternatives {text : List Char} {p : Pattern} :
      Derives .alternatives budget text p → HasRead budget ⟨some p, none⟩ (text ++ ['|'])
  | both {left right : List Char} {p q : Pattern} :
      Derives .alternatives budget left p → Derives .sequence budget right q →
        HasRead budget ⟨some p, some q⟩ (left ++ '|' :: right)

/-- An atom takes its place in the sequence, behind the atoms that came before it. The alternatives
before the last bar stay as they are. -/
theorem Frame.HasRead.push {last : List Char} (h : frame.HasRead budget text)
    (hatom : Derives .repetition budget last atom) :
    HasRead budget ⟨frame.alternatives, some (frame.sequenceWith atom)⟩ (text ++ last) := by
  cases h with
  | empty => exact .sequence (.single hatom)
  | sequence hseq => exact .sequence (.seq hseq hatom)
  | alternatives halts =>
    rw [List.append_assoc]
    exact .both halts (.single hatom)
  | both halts hseq =>
    rw [List.append_assoc, List.cons_append]
    exact .both halts (.seq hseq hatom)

/-- An atom is the last of all alternatives: it ends its sequence, and this ends the alternatives.
-/
theorem Frame.HasRead.close {last : List Char} (h : frame.HasRead budget text)
    (hatom : Derives .repetition budget last atom) :
    Derives .alternatives budget (text ++ last) (frame.close atom) := by
  cases h with
  | empty => exact .only (.single hatom)
  | sequence hseq => exact .only (.seq hseq hatom)
  | alternatives halts =>
    rw [List.append_assoc]
    exact .alt halts (.single hatom)
  | both halts hseq =>
    rw [List.append_assoc, List.cons_append]
    exact .alt halts (.seq hseq hatom)

/-- The text before the open groups; `budget` groups may still be opened. -/
inductive OpenGroups (limit : Nat) : List Frame → (budget : Nat) → List Char → Prop where
  | nil : OpenGroups limit [] limit []
  | cons {stack : List Frame} {budget : Nat} {frame : Frame} {before text : List Char} :
      OpenGroups limit stack (budget + 1) before → frame.HasRead (budget + 1) text →
        OpenGroups limit (frame :: stack) budget (before ++ (text ++ ['(']))

/-- Each open group takes one of the groups that may be opened. -/
theorem OpenGroups.budget_add (h : OpenGroups limit stack budget text) :
    budget + stack.length = limit := by
  induction h with
  | nil => rfl
  | cons _ _ ih =>
    rw [List.length_cons]
    omega

/-- How a class begins. -/
def classOpening (negated : Bool) : List Char :=
  if negated then ['[', '^'] else ['[']

/-- The text since the last atom that is complete, or the text of that atom. In a class it is the
opening, the items and what is pending. -/
def Mode.HasRead (budget : Nat) (mode : Mode) (text : List Char) : Prop :=
  match mode with
  | .atom => text = []
  | .complete atom => Derives .repetition budget text atom
  | .escape _ => text = ['\\']
  | .inClass _ negated set mode =>
    ∃ items pending, text = classOpening negated ++ (items ++ pending) ∧
      ClassText negated set items pending ∧ mode.Pending pending

/-- What a reader has read. -/
def Reader.HasRead (limit : Nat) (r : Reader) (text : List Char) : Prop :=
  ∃ budget outer inner last, text = outer ++ (inner ++ last) ∧
    OpenGroups limit r.stack budget outer ∧ r.frame.HasRead budget inner ∧
    r.mode.HasRead budget last

/-! ## Steps -/

namespace Reader

theorem hasRead_start : start.HasRead limit [] :=
  ⟨limit, [], [], [], rfl, .nil, .empty, rfl⟩

/-- Where neither the stack nor the frame changes, only the mode has to be right about the text
since the last atom. -/
theorem HasRead.advance {mode : Mode} (h : r.HasRead limit text)
    (hmode : ∀ budget last, r.mode.HasRead budget last → mode.HasRead budget (last ++ [c])) :
    (r.advance mode).HasRead limit (text ++ [c]) := by
  obtain ⟨budget, outer, inner, last, rfl, houter, hinner, hlast⟩ := h
  refine ⟨budget, outer, inner, last ++ [c], ?_, houter, hinner, hmode budget last hlast⟩
  rw [List.append_assoc, List.append_assoc]

/-- What begins an atom: a group opens, a class opens, or a character stands for itself. The text
before it is the text of the frame. -/
theorem hasRead_readAtom {outer inner : List Char} (hstep : r.readAtom limit c = .ok r')
    (houter : OpenGroups limit r.stack budget outer) (hinner : r.frame.HasRead budget inner) :
    r'.HasRead limit (outer ++ (inner ++ [c])) := by
  unfold readAtom at hstep
  split at hstep
  · -- a group is opened, so one group less may be opened in it.
    have hbudget := houter.budget_add
    split at hstep
    · cases hstep
    · obtain ⟨budget, rfl⟩ : ∃ b, budget = b + 1 := Nat.exists_eq_succ_of_ne_zero (by omega)
      cases hstep
      refine ⟨budget, outer ++ (inner ++ ['(']), [], [], ?_, .cons houter hinner, .empty, rfl⟩
      rw [List.append_nil, List.append_nil]
  · cases hstep
    exact ⟨budget, outer, inner, ['['], rfl, houter, hinner, [], [], rfl, .start false, rfl⟩
  · cases hstep
    exact ⟨budget, outer, inner, ['.'], rfl, houter, hinner, .once .any⟩
  · cases hstep
    exact ⟨budget, outer, inner, ['\\'], rfl, houter, hinner, rfl⟩
  all_goals cases hstep
  -- all signs have been dealt with.
  refine ⟨budget, outer, inner, [c], rfl, houter, hinner, .once (.char ?_)⟩
  simp_all [signs]

/-- What comes behind an atom: it is repeated, the alternatives go on, the group closes, or the next
atom begins and the last one joins the sequence. -/
theorem hasRead_readAfter (h : r.HasRead limit text) (hmode : r.mode = .complete atom)
    (hstep : r.readAfter limit atom c = .ok r') : r'.HasRead limit (text ++ [c]) := by
  unfold readAfter at hstep
  have hrepeat {q : Pattern} (hq : ∀ budget last, Derives .repetition budget last atom →
      Derives .repetition budget (last ++ [c]) q) :
      (r.advance (.complete q)).HasRead limit (text ++ [c]) :=
    h.advance fun budget last hlast => hq budget last (by rwa [hmode] at hlast)
  have hparts := h
  obtain ⟨budget, outer, inner, last, rfl, houter, hinner, hlast⟩ := hparts
  rw [hmode] at hlast
  split at hstep
  · cases hstep
    exact hrepeat fun _ _ => .star
  · cases hstep
    exact hrepeat fun _ _ => .plus
  · cases hstep
    exact hrepeat fun _ _ => .opt
  · cases hstep
    refine ⟨budget, outer, inner ++ last ++ ['|'], [], ?_, houter,
      .alternatives (hinner.close hlast), rfl⟩
    simp
  · -- the innermost group is closed, and what was before it stands before it again.
    cases hstack : r.stack with
    | nil =>
      rw [hstack] at hstep
      cases hstep
    | cons frame stack =>
      rw [hstack] at hstep houter
      cases hstep
      cases houter with
      | @cons _ _ _ before text hbefore htext =>
        refine ⟨budget + 1, before, text, '(' :: (inner ++ last ++ [')']), ?_, hbefore, htext,
          .once (.group (hinner.close hlast))⟩
        simp
  · -- the next atom begins, and the complete one joins the sequence.
    have hread := hasRead_readAtom hstep houter (hinner.push hlast)
    simpa using hread

/-! ## Steps in a class -/

/-- A character inside of a class. It is enough to say how the text of the class splits into items
again. -/
theorem HasRead.advance_class {start : Nat} {mode mode' : ClassMode} {set' : CharSet}
    (h : r.HasRead limit text) (hmode : r.mode = .inClass start negated set mode)
    (hclass : ∀ items pending, ClassText negated set items pending → mode.Pending pending →
      ∃ items' pending', items ++ (pending ++ [c]) = items' ++ pending' ∧
        ClassText negated set' items' pending' ∧ mode'.Pending pending') :
    (r.advance (.inClass start negated set' mode')).HasRead limit (text ++ [c]) := by
  refine h.advance fun budget last hlast => ?_
  rw [hmode] at hlast
  obtain ⟨items, pending, rfl, hitems, hpending⟩ := hlast
  obtain ⟨items', pending', heq, hitems', hpending'⟩ := hclass items pending hitems hpending
  refine ⟨items', pending', ?_, hitems', hpending'⟩
  rw [List.append_assoc, List.append_assoc, heq]

/-- The bracket that ends a class, with the items that the class has. It leaves an atom behind. -/
theorem HasRead.advance_close {start : Nat} {mode : ClassMode} {set' : CharSet}
    (h : r.HasRead limit text) (hmode : r.mode = .inClass start negated set mode)
    (hne : set'.ranges ≠ [])
    (hclass : ∀ items pending, ClassText negated set items pending → mode.Pending pending →
      DerivesItems (items ++ pending) set'.ranges) :
    (r.advance (.complete (classPattern negated set'))).HasRead limit (text ++ [']']) := by
  refine h.advance fun budget last hlast => ?_
  rw [hmode] at hlast
  obtain ⟨items, pending, rfl, hitems, hpending⟩ := hlast
  have hderives := hclass items pending hitems hpending
  refine .once ?_
  rw [List.append_assoc]
  -- only items that are not excluded are restricted in how they begin.
  cases negated with
  | false => exact .oneOf hderives hne (hitems.head rfl)
  | true => exact .noneOf hderives hne

/-- Where an item may begin, a character closes the class, negates it, or begins the item. A caret
negates only if nothing has been read of the class. -/
theorem hasRead_readItem {start : Nat} {mode : ClassMode} {set' : CharSet}
    (h : r.HasRead limit text) (hmode : r.mode = .inClass start negated set mode)
    (hitems : ∀ items pending, ClassText negated set items pending → mode.Pending pending →
      BeforeItem negated set' (items ++ pending) c)
    (hstep : r.readItem start negated set' c = .ok r') : r'.HasRead limit (text ++ [c]) := by
  unfold readItem at hstep
  split at hstep
  · split at hstep
    · cases hstep
    · rename_i hempty
      cases hstep
      have hne : set'.ranges ≠ [] := fun hranges => hempty (CharSet.isEmpty_iff.mpr hranges)
      exact h.advance_close hmode hne fun items pending hclass hpending =>
        (hitems items pending hclass hpending).ends
  · cases hstep
    refine h.advance_class hmode fun items pending hclass hpending => ?_
    have hbefore := hitems items pending hclass hpending
    refine ⟨items ++ pending, ['\\'], ?_, hbefore.begins (.inr (.inr (by decide))), rfl⟩
    rw [List.append_assoc]
  · rename_i hclose hslash
    split at hstep
    · -- the items are excluded, and there are none so far.
      rename_i hcaret
      cases hstep
      simp only [Bool.and_eq_true, decide_eq_true_eq, Bool.not_eq_true', CharSet.isEmpty_iff]
        at hcaret
      obtain ⟨⟨rfl, rfl⟩, hranges⟩ := hcaret
      refine h.advance fun budget last hlast => ?_
      rw [hmode] at hlast
      obtain ⟨items, pending, rfl, hclass, hpending⟩ := hlast
      have hnil := (hitems items pending hclass hpending).nil hranges
      rw [hnil]
      have hset : set' = .empty := by
        cases set'
        exact congrArg CharSet.mk hranges
      exact ⟨[], [], rfl, hset ▸ .start true, rfl⟩
    · rename_i hcaret
      cases hstep
      have hnot := caret_is_item hcaret
      refine h.advance_class hmode fun items pending hclass hpending => ?_
      have hbefore := hitems items pending hclass hpending
      refine ⟨items ++ pending, [c], ?_, hbefore.begins hnot, .plain hslash hclose⟩
      rw [List.append_assoc]

/-- The last character of a range is compared with the first. If it is not below it, the range is
whole. -/
theorem hasRead_readLast {start item : Nat} {mode : ClassMode} {first : Char}
    (h : r.HasRead limit text) (hmode : r.mode = .inClass start negated set mode)
    (hlast : mode.Ranges first c)
    (hstep : r.readLast start negated set item first c = .ok r') :
    r'.HasRead limit (text ++ [c]) := by
  unfold readLast at hstep
  split at hstep
  · cases hstep
  · rename_i hlt
    cases hstep
    -- the range is finished, so the item being read becomes one of the finished ones.
    refine h.advance_class hmode fun items pending hclass hpending => ?_
    obtain ⟨u, v, heq, hne, hu, hv⟩ := hlast pending hpending
    refine ⟨items ++ (pending ++ [c]), [], ?_, hclass.range heq hu hv (Char.not_lt.mp hlt) hne, rfl⟩
    rw [List.append_nil]

/-- A character inside of a class, one case for each mode of the class. -/
theorem hasRead_readClass {start : Nat} {mode : ClassMode} (h : r.HasRead limit text)
    (hmode : r.mode = .inClass start negated set mode)
    (hstep : r.readClass start negated set mode c = .ok r') : r'.HasRead limit (text ++ [c]) := by
  unfold readClass at hstep
  split at hstep
  · refine hasRead_readItem h hmode (fun items pending hclass hpending => ?_) hstep
    obtain rfl : pending = [] := hpending
    rw [List.append_nil]
    exact hclass.beforeItem
  · cases hstep
    refine h.advance_class hmode fun items pending hclass hpending => ?_
    obtain rfl : pending = ['\\'] := hpending
    exact ⟨items, ['\\', c], rfl, hclass.more (by simp) [c], .escaped c⟩
  · split at hstep
    · rename_i item first hdash
      subst hdash
      cases hstep
      refine h.advance_class hmode fun items pending hclass hpending => ?_
      have hmore := hclass.more hpending.ne_nil ['-']
      exact ⟨items, pending ++ ['-'], rfl, hmore, pending, rfl, hpending⟩
    · rename_i item first hdash
      exact hasRead_readItem h hmode (fun items pending hclass hpending =>
        hclass.beforeItem_first hpending hdash) hstep
  · split at hstep
    · rename_i first _
      cases hstep
      refine h.advance_close hmode (by simp)
        fun items pending hclass hpending => ?_
      -- the dash was not the sign of a range, but the last item.
      obtain ⟨u, rfl, hu⟩ := hpending
      have hdash : DerivesItems ['-'] [('-', '-')] :=
        .single (.plain (by decide) (by decide)) .nil (by simp)
      have hboth : DerivesItems (u ++ ['-']) [(first, first), ('-', '-')] :=
        .single hu hdash (by simp)
      have hall := hclass.follow [] _ (by rwa [List.append_nil])
      simpa using hall
    · cases hstep
      refine h.advance_class hmode fun items pending hclass hpending => ?_
      obtain ⟨u, rfl, hu⟩ := hpending
      refine ⟨items, u ++ ['-'] ++ ['\\'], rfl, hclass.more (by simp) ['\\'], u, ?_, hu⟩
      rw [List.append_assoc]
      rfl
    · rename_i hclose hslash
      exact hasRead_readLast h hmode (.of_dash hslash hclose) hstep
  · exact hasRead_readLast h hmode .of_lastEscape hstep

/-! ## Runs -/

/-- **One character more.** The invariant says which text the stack, the frame and the mode stand
for; the mode decides which function reads the character. -/
theorem HasRead.step (h : r.HasRead limit text) (hstep : r.step limit c = .ok r') :
    r'.HasRead limit (text ++ [c]) := by
  unfold Reader.step at hstep
  split at hstep
  · rename_i hmode
    obtain ⟨budget, outer, inner, last, rfl, houter, hinner, hlast⟩ := h
    rw [hmode] at hlast
    -- an atom begins, so nothing of it has been read.
    obtain rfl : last = [] := hlast
    have hread := hasRead_readAtom hstep houter hinner
    simpa using hread
  · rename_i hmode
    exact hasRead_readAfter h hmode hstep
  · rename_i hmode
    cases hstep
    refine h.advance fun budget last hlast => ?_
    rw [hmode] at hlast
    -- the escaped character completes an atom of two characters.
    obtain rfl : last = ['\\'] := hlast
    exact .once (.escaped c)
  · rename_i hmode
    exact hasRead_readClass h hmode hstep

/-- One character after the other, by induction on the text, for any text that came before. -/
theorem HasRead.readAll {rest : List Char} (h : r.HasRead limit text)
    (hread : r.readAll limit rest = .ok r') : r'.HasRead limit (text ++ rest) := by
  induction rest generalizing r text with
  | nil =>
    cases hread
    rwa [List.append_nil]
  | cons c rest ih =>
    rw [readAll_cons] at hread
    cases hstep : r.step limit c with
    | error e =>
      rw [hstep] at hread
      cases hread
    | ok next =>
      rw [hstep] at hread
      have hrest := ih (h.step hstep) hread
      rwa [List.append_assoc] at hrest

/-- At the end, all parts of the text make up one pattern. -/
theorem HasRead.derives (h : r.HasRead limit text) (hfinish : r.finish = .ok p) :
    Derives .alternatives limit text p := by
  obtain ⟨atom, hmode, hstack, rfl⟩ := exists_atom_of_finish hfinish
  obtain ⟨budget, outer, inner, last, rfl, houter, hinner, hlast⟩ := h
  rw [hstack] at houter
  rw [hmode] at hlast
  cases houter
  exact hinner.close hlast

end Reader

/-- A text that is accepted is derivable. -/
theorem derives_of_parseChars (h : Pattern.parseChars limit text = .ok p) :
    Derives .alternatives limit text p := by
  obtain ⟨r, hread, hfinish⟩ := Pattern.parseChars_eq_ok_iff.mp h
  exact (Reader.hasRead_start.readAll hread).derives hfinish

/-- **The reader accepts exactly what the grammar derives**, as the pattern that is derived, and the
table of the pattern unfolds to its tree. -/
theorem parse_exact (limit : Nat) (text : String) (p : Pattern) :
    (Pattern.parse limit text = .ok p ↔ Derives .alternatives limit text.toList p) ∧
      p.nodeTable.tree? = some p.tree :=
  ⟨⟨derives_of_parseChars, Derives.parseChars⟩, p.tree?_nodeTable⟩

end PathSum.Regex
