import PathSum.Regex.Grammar
import PathSum.Regex.Reader

/-!
# Derivable texts are read

The reader accepts every text that the grammar derives, and reads it as the pattern that is derived.
The proof is an induction on the derivation. A part of a text stands behind open groups, other
alternatives and a sequence, so what is shown of a part is what reading it does to any reader that
waits for an atom.

* **`readAll_items`**: the items of a class, up to the bracket that closes it.
* **`Derives.readAll`**: a text of any level leaves the open groups as they were, and `Level.Ends`
  says what it leaves in the frame.
-/

namespace PathSum.Regex

open Reader

variable {limit position start : Nat} {stack : List Frame} {frame : Frame} {negated : Bool}
  {set : CharSet} {c : Char} {text rest : List Char} {p : Pattern}

/-! ## Classes -/

/-- A class with what has been read of it. -/
abbrev Reader.within (position : Nat) (stack : List Frame) (frame : Frame) (start : Nat)
    (negated : Bool) (set : CharSet) (mode : ClassMode) : Reader :=
  ⟨position, stack, frame, .inClass start negated set mode⟩

theorem readItem_plain {r : Reader} (hslash : c ≠ '\\') (hclose : c ≠ ']')
    (hcaret : negated = true ∨ set.isEmpty = false ∨ c ≠ '^') :
    r.readItem start negated set c =
      .ok (r.advance (.inClass start negated set (.first r.position c))) := by
  unfold readItem
  split
  · exact absurd rfl hclose
  · exact absurd rfl hslash
  · rw [if_neg]
    rcases hcaret with h | h | h <;> simp [h]

theorem step_item_close (h : set.isEmpty = false) :
    (within position stack frame start negated set .item).step limit ']' =
      .ok ⟨position + 1, stack, frame, .complete (classPattern negated set)⟩ := by
  show (if set.isEmpty then _ else _) = _
  rw [if_neg (by simp [h])]
  rfl

theorem readAll_classChar (rest : List Char) (h : DerivesClassChar text c)
    (hcaret : negated = true ∨ set.isEmpty = false ∨ text.head? ≠ some '^') :
    ∃ position' item,
      (within position stack frame start negated set .item).readAll limit (text ++ rest) =
        (within position' stack frame start negated set (.first item c)).readAll limit rest := by
  cases h with
  | plain hslash hclose =>
    refine ⟨position + 1, position, readAll_cons_of_step (readItem_plain hslash hclose ?_)⟩
    simpa using hcaret
  | escaped =>
    exact ⟨position + 1 + 1, position,
      (readAll_cons_of_step rfl).trans (readAll_cons_of_step rfl)⟩

/-- The last character of a range is read alike whether it is plain or behind a backslash. Only the
position of the reader tells the two apart, and it is not asked for again. -/
theorem readAll_lastChar {first last : Char} {item : Nat} (rest : List Char)
    (h : DerivesClassChar text last) (hle : first ≤ last) :
    ∃ position',
      (within position stack frame start negated set (.dash item first)).readAll limit
          (text ++ rest) =
        (within position' stack frame start negated (set.pushRange first last) .item).readAll limit
          rest := by
  -- both forms end with the same step, at another position.
  have hlast (r : Reader) : r.readLast start negated set item first last =
      .ok (r.advance (.inClass start negated (set.pushRange first last) .item)) := by
    unfold readLast
    rw [if_neg (Char.not_lt.mpr hle)]
  cases h with
  | plain hslash hclose =>
    refine ⟨position + 1, readAll_cons_of_step ?_⟩
    show readClass (within position stack frame start negated set (.dash item first)) start negated
      set (.dash item first) last = _
    simp only [readClass]
    exact hlast _
  | escaped =>
    refine ⟨position + 1 + 1, (readAll_cons_of_step rfl).trans (readAll_cons_of_step ?_)⟩
    exact hlast _

/-- A character that is not the start of a range is an item. A dash right before the end of the
class is one too, though it is read as if a range came. -/
theorem readAll_first {item : Nat} (hdash : ∀ next more, text ≠ '-' :: next :: more) :
    (within position stack frame start negated set (.first item c)).readAll limit
        (text ++ [']']) =
      (within position stack frame start negated (set.pushChar c) .item).readAll limit
        (text ++ [']']) := by
  have hitem (next : Char) (hnext : next ≠ '-') :
      (within position stack frame start negated set (.first item c)).step limit next =
        (within position stack frame start negated (set.pushChar c) .item).step limit next := by
    show (if next = '-' then _ else _) = _
    rw [if_neg hnext]
    rfl
  rcases text with - | ⟨next, more⟩
  · rw [List.nil_append, readAll_cons, readAll_cons, hitem _ (by decide)]
  · by_cases hnext : next = '-'
    · -- only the bracket may follow the dash, and then both readers take the dash as an item.
      subst hnext
      rcases more with - | ⟨last, more⟩
      · have hstart : (within position stack frame start negated (set.pushChar c) .item).step limit
            '-' = .ok (within (position + 1) stack frame start negated (set.pushChar c)
              (.first position '-')) := rfl
        have hend : (within (position + 1) stack frame start negated (set.pushChar c)
            (.first position '-')).step limit ']' =
          .ok ⟨position + 1 + 1, stack, frame,
            .complete (classPattern negated ((set.pushChar c).pushChar '-'))⟩ :=
          @step_item_close limit _ _ _ _ _ _ (CharSet.isEmpty_pushChar ..)
        show _ = readAll limit _ ('-' :: [']'])
        rw [readAll_cons_of_step hstart, readAll_cons_of_step hend]
        rfl
      · exact absurd rfl (hdash last more)
    · rw [List.cons_append, readAll_cons, readAll_cons, hitem next hnext]

/-- **The items of a class are read up to the bracket.** The induction is on the derivation of the
items, with any set of ranges before them; the reader adds theirs in the same order. -/
theorem readAll_items {ranges : List (Char × Char)} (h : DerivesItems text ranges)
    (hne : set.ranges ++ ranges ≠ [])
    (hcaret : negated = true ∨ set.isEmpty = false ∨ text.head? ≠ some '^') :
    ∃ position', (within position stack frame start negated set .item).readAll limit
        (text ++ [']']) =
      .ok ⟨position', stack, frame, .complete (classPattern negated ⟨set.ranges ++ ranges⟩)⟩ := by
  induction h generalizing position set with
  | nil =>
    have hset : set.isEmpty = false := by simpa [CharSet.isEmpty] using hne
    refine ⟨position + 1, ?_⟩
    rw [List.nil_append, readAll_cons_of_step (step_item_close hset), List.append_nil]
    rfl
  | @single text rest c ranges hc _ hdash ih =>
    -- a caret counts only in front of the first item, which this one then is.
    have hhead : negated = true ∨ set.isEmpty = false ∨ text.head? ≠ some '^' := by
      cases hc <;> exact hcaret
    obtain ⟨position₁, item, hfirst⟩ := readAll_classChar (rest ++ [']']) hc hhead
    obtain ⟨position₂, hrest⟩ := @ih position₁ (set.pushChar c)
      (by simp) (.inr (.inl (CharSet.isEmpty_pushChar ..)))
    refine ⟨position₂, ?_⟩
    rw [List.append_assoc, hfirst, readAll_first hdash, hrest]
    simp
  | @range first last rest lo hi ranges hlo hhi hle _ ih =>
    have hhead : negated = true ∨ set.isEmpty = false ∨ first.head? ≠ some '^' := by
      cases hlo <;> exact hcaret
    obtain ⟨position₁, item, hfirst⟩ :=
      readAll_classChar ('-' :: (last ++ (rest ++ [']']))) hlo hhead
    obtain ⟨position₂, hlast⟩ := readAll_lastChar (rest ++ [']']) hhi hle
    obtain ⟨position₃, hrest⟩ := @ih position₂ (set.pushRange lo hi)
      (by simp) (.inr (.inl (CharSet.isEmpty_pushRange ..)))
    refine ⟨position₃, ?_⟩
    have hassoc : first ++ '-' :: (last ++ rest) ++ [']'] =
        first ++ '-' :: (last ++ (rest ++ [']'])) := by simp
    rw [hassoc, hfirst, readAll_cons_of_step rfl]
    refine hlast.trans (hrest.trans ?_)
    simp

/-! ## Patterns -/

/-- What a text of some level leaves behind. Atoms and repetitions leave the frame alone. A sequence
collects its parts in the frame, and so do alternatives; the last atom is still outside, since it
may be repeated. -/
def Level.Ends (level : Level) (before after : Frame) (atom p : Pattern) : Prop :=
  match level with
  | .atom | .repetition => after = before ∧ atom = p
  | .sequence =>
    before.sequence = none →
      after.alternatives = before.alternatives ∧ after.sequenceWith atom = p
  | .alternatives => before = .empty → after.close atom = p

/-- A pattern does not start with an operator or a closing parenthesis. So what comes behind a
complete atom is read as the beginning of the next one. -/
theorem Derives.exists_cons {level : Level} (h : Derives level limit text p) :
    ∃ c rest, text = c :: rest ∧ c ∉ [')', '|', '*', '+', '?'] := by
  have hcons {left right : List Char}
      (hleft : ∃ c rest, left = c :: rest ∧ c ∉ [')', '|', '*', '+', '?']) :
      ∃ c rest, left ++ right = c :: rest ∧ c ∉ [')', '|', '*', '+', '?'] := by
    obtain ⟨c, rest, rfl, hc⟩ := hleft
    exact ⟨c, rest ++ right, rfl, hc⟩
  induction h with
  | @char _ c hc =>
    have hsigns : ∀ c ∈ [')', '|', '*', '+', '?'], c ∈ signs := by simp [signs]
    exact ⟨c, [], rfl, fun h => hc (hsigns c h)⟩
  | escaped | any | oneOf | noneOf | group => exact ⟨_, _, rfl, by decide⟩
  | once _ ih | single _ ih | only _ ih => exact ih
  | star _ ih | plus _ ih | opt _ ih => exact hcons ih
  | seq _ _ ih _ | alt _ _ ih _ => exact hcons ih

theorem readAtom_eq {atom : Pattern} :
    (⟨position, stack, frame, .complete atom⟩ : Reader).readAtom limit c =
      (⟨position, stack, frame, .atom⟩ : Reader).readAtom limit c := by
  simp only [readAtom]
  split <;> rfl

/-- Behind a complete atom, the next atom is read with the complete one in the frame. This takes the
reader from one part of a sequence to the next. -/
theorem readAll_after {atom : Pattern} (h : Derives .repetition limit text p) (nesting : Nat) :
    (⟨position, stack, frame, .complete atom⟩ : Reader).readAll nesting text =
      (⟨position, stack, ⟨frame.alternatives, some (frame.sequenceWith atom)⟩, .atom⟩ :
        Reader).readAll nesting text := by
  obtain ⟨c, rest, rfl, hc⟩ := h.exists_cons
  simp only [List.mem_cons, List.not_mem_nil, or_false, not_or] at hc
  obtain ⟨hclose, halt, hstar, hplus, hopt⟩ := hc
  have hstep : (⟨position, stack, frame, .complete atom⟩ : Reader).step nesting c =
      (⟨position, stack, ⟨frame.alternatives, some (frame.sequenceWith atom)⟩, .complete atom⟩ :
        Reader).readAtom nesting c := by
    show readAfter nesting _ atom c = _
    simp only [readAfter]
  rw [readAll_cons, readAll_cons, hstep, readAtom_eq]
  rfl

theorem step_char (hc : c ∉ signs) :
    (⟨position, stack, frame, .atom⟩ : Reader).step limit c =
      .ok ⟨position + 1, stack, frame, .complete (.char c)⟩ := by
  simp only [signs, List.mem_cons, List.not_mem_nil, or_false, not_or] at hc
  obtain ⟨hopen, hclose, hclass, halt, hstar, hplus, hopt, hany, hslash⟩ := hc
  show readAtom limit _ c = _
  simp only [readAtom]
  rfl

/-- **A derivable text is read**, and leaves the open groups as they were. The induction is on the
derivation. At each level something else is left behind: an atom, an atom with its repetitions, a
sequence, or alternatives in the frame. -/
theorem Derives.readAll {level : Level} (h : Derives level limit text p) {nesting : Nat}
    (hlimit : limit + stack.length ≤ nesting) :
    ∃ position' after atom,
      (⟨position, stack, frame, .atom⟩ : Reader).readAll nesting text =
        .ok ⟨position', stack, after, .complete atom⟩ ∧ level.Ends frame after atom p := by
  induction h generalizing position stack frame with
  | char hc => exact ⟨_, _, _, readAll_cons_of_step (step_char hc), rfl, rfl⟩
  | escaped c =>
    exact ⟨_, _, _, (readAll_cons_of_step rfl).trans (readAll_cons_of_step rfl), rfl, rfl⟩
  | any => exact ⟨_, _, _, readAll_cons_of_step rfl, rfl, rfl⟩
  | @oneOf _ items ranges hitems hne hhead =>
    obtain ⟨position', hread⟩ := @readAll_items nesting (position + 1) position stack frame false
      .empty items ranges hitems hne (.inr (.inr hhead))
    exact ⟨position', frame, .oneOf ⟨ranges⟩, (readAll_cons_of_step rfl).trans hread, rfl, rfl⟩
  | @noneOf _ items ranges hitems hne =>
    obtain ⟨position', hread⟩ := @readAll_items nesting (position + 1 + 1) position stack frame true
      .empty items ranges hitems hne (.inl rfl)
    exact ⟨position', frame, .noneOf ⟨ranges⟩,
      (readAll_cons_of_step rfl).trans ((readAll_cons_of_step rfl).trans hread), rfl, rfl⟩
  | @group limit text p _ ih =>
    -- inside, one group more is open and nothing stands before the atom.
    have hopen : (⟨position, stack, frame, .atom⟩ : Reader).step nesting '(' =
        .ok ⟨position + 1, frame :: stack, .empty, .atom⟩ := by
      show (if nesting ≤ stack.length then _ else _) = _
      rw [if_neg (by omega)]
      rfl
    have hinner : limit + (frame :: stack).length ≤ nesting := by
      rw [List.length_cons]
      omega
    obtain ⟨position', after, atom, hread, hends⟩ :=
      @ih (position + 1) (frame :: stack) .empty hinner
    have hclose : (⟨position', frame :: stack, after, .complete atom⟩ : Reader).step nesting ')' =
        .ok ⟨position' + 1, stack, frame, .complete (after.close atom)⟩ := rfl
    refine ⟨position' + 1, frame, after.close atom, ?_, rfl, hends rfl⟩
    rw [readAll_cons_of_step hopen, readAll_append_of_readAll hread, readAll_cons_of_step hclose]
    rfl
  | once _ ih => exact ih hlimit
  | star _ ih | plus _ ih | opt _ ih =>
    obtain ⟨position', after, atom, hread, hafter, hatom⟩ := @ih position stack frame hlimit
    refine ⟨position' + 1, after, _, ?_, hafter, congrArg _ hatom⟩
    rw [readAll_append_of_readAll hread]
    rfl
  | single _ ih =>
    obtain ⟨position', after, atom, hread, rfl, rfl⟩ := @ih position stack frame hlimit
    refine ⟨position', after, atom, hread, fun hnone => ⟨rfl, ?_⟩⟩
    rw [Frame.sequenceWith, hnone]
  | @seq _ left right p q _ hright ihl ihr =>
    -- the last atom on the left joins the sequence when the right side begins.
    obtain ⟨position₁, frame₁, atom₁, hreadl, hendsl⟩ := @ihl position stack frame hlimit
    obtain ⟨position₂, frame₂, atom₂, hreadr, rfl, rfl⟩ :=
      @ihr position₁ stack ⟨frame₁.alternatives, some (frame₁.sequenceWith atom₁)⟩ hlimit
    refine ⟨position₂, ⟨frame₁.alternatives, some (frame₁.sequenceWith atom₁)⟩, atom₂, ?_,
      fun hnone => ?_⟩
    · rw [readAll_append_of_readAll hreadl, readAll_after hright, hreadr]
    · obtain ⟨halts, rfl⟩ := hendsl hnone
      exact ⟨halts, rfl⟩
  | only _ ih =>
    obtain ⟨position', after, atom, hread, hends⟩ := @ih position stack frame hlimit
    refine ⟨position', after, atom, hread, ?_⟩
    rintro rfl
    obtain ⟨halts, rfl⟩ := hends rfl
    rw [Frame.close, halts]
    rfl
  | @alt _ left right p q _ _ ihl ihr =>
    -- the bar closes all that stands before it.
    obtain ⟨position₁, frame₁, atom₁, hreadl, hendsl⟩ := @ihl position stack frame hlimit
    obtain ⟨position₂, frame₂, atom₂, hreadr, hendsr⟩ :=
      @ihr (position₁ + 1) stack ⟨some (frame₁.close atom₁), none⟩ hlimit
    have hbar : (⟨position₁, stack, frame₁, .complete atom₁⟩ : Reader).step nesting '|' =
        .ok ⟨position₁ + 1, stack, ⟨some (frame₁.close atom₁), none⟩, .atom⟩ := rfl
    refine ⟨position₂, frame₂, atom₂, ?_, ?_⟩
    · rw [readAll_append_of_readAll hreadl, readAll_cons_of_step hbar, hreadr]
    · rintro rfl
      obtain ⟨halts, rfl⟩ := hendsr rfl
      rw [Frame.close, halts, ← hendsl rfl]

/-- The whole text of a pattern is accepted. -/
theorem Derives.parseChars (h : Derives .alternatives limit text p) :
    Pattern.parseChars limit text = .ok p := by
  obtain ⟨position, after, atom, hread, hends⟩ := @Derives.readAll _ 0 [] .empty _ _ _ h limit
    (Nat.le_refl _)
  rw [Pattern.parseChars]
  show (Reader.start.readAll limit text >>= _) = _
  rw [show Reader.start = ⟨0, [], .empty, .atom⟩ from rfl, hread, ← hends rfl]
  rfl

end PathSum.Regex
