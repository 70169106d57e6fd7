import PathSum.Regex.ParseError
import PathSum.Regex.Pattern
import PathSum.Result

/-!
# Reading patterns

A pattern is read in one pass, a character at a time. The reader keeps what stands before the open
groups on a stack and knows what the next character continues: an atom that has to come, an atom
that can still be repeated, an escape, or a character class. It therefore reports an error at the
first character that no continuation can mend, and all other errors only at the end.

Alternatives bind weakest, then sequences, then repetitions; alternatives and sequences group to
the left.

Main statements: a text is read a character or a part at a time (`readAll_cons`, `readAll_append`),
and what cannot be read fails in one step (`exists_step_of_readAll`).
-/

namespace PathSum.Regex

/-! ## What has been read -/

/-- The alternatives and the sequence that stand before the atom being read. -/
structure Frame where
  /-- What stands before the last `|`. -/
  alternatives : Option Pattern
  /-- What stands between the last `|` and the atom. -/
  sequence : Option Pattern
deriving DecidableEq, Repr

namespace Frame

/-- Nothing stands before the atom. -/
def empty : Frame := ⟨none, none⟩

/-- The sequence including the atom. -/
def sequenceWith (frame : Frame) (atom : Pattern) : Pattern :=
  match frame.sequence with
  | none => atom
  | some left => .seq left atom

/-- All alternatives, the last one ending with the atom. -/
def close (frame : Frame) (atom : Pattern) : Pattern :=
  match frame.alternatives with
  | none => frame.sequenceWith atom
  | some left => .alt left (frame.sequenceWith atom)

end Frame

/-- What the next character of a class continues. Positions are kept for the errors that point back
at the beginning of an item or of an escape. -/
inductive ClassMode where
  /-- An item may start, or the class may end. -/
  | item
  /-- A backslash at position `start` begins an item. -/
  | escape (start : Nat)
  /-- The item that began at `start` has its first character. -/
  | first (start : Nat) (c : Char)
  /-- A dash follows that character. -/
  | dash (start : Nat) (c : Char)
  /-- A backslash at position `escape` begins the end of the range. -/
  | lastEscape (start : Nat) (c : Char) (escape : Nat)
deriving DecidableEq, Repr

/-- What the next character continues. -/
inductive Mode where
  /-- An atom has to come. -/
  | atom
  /-- An atom is complete and can be repeated. -/
  | complete (atom : Pattern)
  /-- A backslash at position `start` begins an atom. -/
  | escape (start : Nat)
  /-- A class that was opened at `start` and has the items `set` so far. -/
  | inClass (start : Nat) (negated : Bool) (set : CharSet) (mode : ClassMode)
deriving DecidableEq, Repr

/-- A reader between two characters. -/
structure Reader where
  position : Nat
  /-- What stands before each open group, the innermost group first. -/
  stack : List Frame
  /-- What stands before the current atom in its group. -/
  frame : Frame
  mode : Mode
deriving DecidableEq, Repr

namespace Reader

def start : Reader := ⟨0, [], .empty, .atom⟩

def fail {α : Type} (r : Reader) (kind : ParseError.Kind) : Except ParseError α :=
  .error ⟨r.position, kind⟩

/-- The reader after one more character, in a new mode. -/
def advance (r : Reader) (mode : Mode) : Reader :=
  { r with position := r.position + 1, mode }

/-! ## One character -/

/-- Reads the first character of an atom. The signs that cannot begin one are errors here, and the
limit on groups is asked for at a parenthesis. -/
def readAtom (limit : Nat) (r : Reader) (c : Char) : Except ParseError Reader :=
  match c with
  | '(' =>
    if limit ≤ r.stack.length then r.fail (.nestingTooDeep limit)
    else .ok { r.advance .atom with stack := r.frame :: r.stack, frame := .empty }
  | '[' => .ok (r.advance (.inClass r.position false .empty .item))
  | '.' => .ok (r.advance (.complete .any))
  | '\\' => .ok (r.advance (.escape r.position))
  | ')' | '|' | '*' | '+' | '?' => r.fail (.unexpectedChar c)
  | c => .ok (r.advance (.complete (.char c)))

/-- Reads a character after a complete atom: a repetition of it, a bar, the end of its group, or the
first character of the next atom. -/
def readAfter (limit : Nat) (r : Reader) (atom : Pattern) (c : Char) : Except ParseError Reader :=
  match c with
  | '*' => .ok (r.advance (.complete (.star atom)))
  | '+' => .ok (r.advance (.complete (.plus atom)))
  | '?' => .ok (r.advance (.complete (.opt atom)))
  | '|' => .ok { r.advance .atom with frame := ⟨some (r.frame.close atom), none⟩ }
  | ')' =>
    match r.stack with
    | [] => r.fail (.trailingInput c)
    | outer :: stack =>
      .ok { r.advance (.complete (r.frame.close atom)) with stack, frame := outer }
  | c =>
    let frame := { r.frame with sequence := some (r.frame.sequenceWith atom) }
    readAtom limit { r with frame } c

def classPattern (negated : Bool) (set : CharSet) : Pattern :=
  if negated then .noneOf set else .oneOf set

/-- Reads a character where an item of a class may start. A `^` that comes first excludes the
items, and a class is closed by `]` once it has an item. -/
def readItem (r : Reader) (start : Nat) (negated : Bool) (set : CharSet) (c : Char) :
    Except ParseError Reader :=
  match c with
  | ']' =>
    if set.isEmpty then .error ⟨start, .emptyClass⟩
    else .ok (r.advance (.complete (classPattern negated set)))
  | '\\' => .ok (r.advance (.inClass start negated set (.escape r.position)))
  | c =>
    if c = '^' && !negated && set.isEmpty then .ok (r.advance (.inClass start true set .item))
    else .ok (r.advance (.inClass start negated set (.first r.position c)))

/-- Reads the last character of a range whose item began at `item`. -/
def readLast (r : Reader) (start : Nat) (negated : Bool) (set : CharSet) (item : Nat)
    (first last : Char) : Except ParseError Reader :=
  if last < first then .error ⟨item, .invalidRange first last⟩
  else .ok (r.advance (.inClass start negated (set.pushRange first last) .item))

/-- Reads a character of a class. A dash makes a range unless the class ends right after it. -/
def readClass (r : Reader) (start : Nat) (negated : Bool) (set : CharSet) (mode : ClassMode)
    (c : Char) : Except ParseError Reader :=
  match mode with
  | .item => r.readItem start negated set c
  | .escape item => .ok (r.advance (.inClass start negated set (.first item c)))
  | .first item first =>
    if c = '-' then .ok (r.advance (.inClass start negated set (.dash item first)))
    else r.readItem start negated (set.pushChar first) c
  | .dash item first =>
    match c with
    | ']' =>
      .ok (r.advance (.complete (classPattern negated ((set.pushChar first).pushChar '-'))))
    | '\\' => .ok (r.advance (.inClass start negated set (.lastEscape item first r.position)))
    | c => r.readLast start negated set item first c
  | .lastEscape item first _ => r.readLast start negated set item first c

/-- Reads one character. No more than `limit` groups may be open. -/
def step (limit : Nat) (r : Reader) (c : Char) : Except ParseError Reader :=
  match r.mode with
  | .atom => r.readAtom limit c
  | .complete atom => r.readAfter limit atom c
  | .escape _ => .ok (r.advance (.complete (.char c)))
  | .inClass start negated set mode => r.readClass start negated set mode c

def readAll (limit : Nat) (r : Reader) (text : List Char) : Except ParseError Reader :=
  text.foldlM (step limit) r

theorem readAll_cons {limit : Nat} {r : Reader} {c : Char} {rest : List Char} :
    r.readAll limit (c :: rest) = r.step limit c >>= fun r' => r'.readAll limit rest :=
  List.foldlM_cons

theorem readAll_append {limit : Nat} {r : Reader} {text rest : List Char} :
    r.readAll limit (text ++ rest) = r.readAll limit text >>= fun r' => r'.readAll limit rest :=
  List.foldlM_append

theorem readAll_cons_of_step {limit : Nat} {r r' : Reader} {c : Char} {rest : List Char}
    (h : r.step limit c = .ok r') : r.readAll limit (c :: rest) = r'.readAll limit rest := by
  rw [readAll_cons, h]
  rfl

theorem readAll_append_of_readAll {limit : Nat} {r r' : Reader} {text rest : List Char}
    (h : r.readAll limit text = .ok r') :
    r.readAll limit (text ++ rest) = r'.readAll limit rest := by
  rw [readAll_append, h]
  rfl

/-- Where reading fails, it goes well up to the step that fails. So an error of a text is an error
of one character, in the reader that came that far. -/
theorem exists_step_of_readAll {limit : Nat} {r : Reader} {text : List Char} {e : ParseError}
    (h : r.readAll limit text = .error e) :
    ∃ before c rest r', text = before ++ c :: rest ∧ r.readAll limit before = .ok r' ∧
      r'.step limit c = .error e := by
  induction text generalizing r with
  | nil => cases h
  | cons c text ih =>
    rw [readAll_cons] at h
    cases hstep : r.step limit c with
    | error e' =>
      rw [hstep] at h
      cases h
      exact ⟨[], c, text, r, rfl, rfl, hstep⟩
    | ok next =>
      rw [hstep] at h
      obtain ⟨before, d, rest, r', rfl, hread, hfail⟩ := ih h
      exact ⟨c :: before, d, rest, r', rfl, (readAll_cons_of_step hstep).trans hread, hfail⟩

/-! ## The end -/

/-- The pattern that has been read, if it is complete. -/
def finish (r : Reader) : Except ParseError Pattern :=
  match r.mode with
  | .atom => r.fail .unexpectedEnd
  | .complete atom =>
    match r.stack with
    | [] => .ok (r.frame.close atom)
    | _ :: _ => r.fail .unclosedGroup
  | .escape start => .error ⟨start, .danglingEscape⟩
  | .inClass _ _ _ (.escape start) => .error ⟨start, .danglingEscape⟩
  | .inClass _ _ _ (.lastEscape _ _ start) => .error ⟨start, .danglingEscape⟩
  | .inClass start _ _ _ => .error ⟨start, .unterminatedClass⟩

/-- Only where an atom is complete and no group is open has a pattern been read. The atom and the
frame make it up. -/
theorem exists_atom_of_finish {r : Reader} {p : Pattern} (h : r.finish = .ok p) :
    ∃ atom, r.mode = .complete atom ∧ r.stack = [] ∧ r.frame.close atom = p := by
  unfold finish at h
  split at h
  · cases h
  · rename_i atom hmode
    split at h
    · rename_i hstack
      exact ⟨atom, hmode, hstack, Except.ok.inj h⟩
    · cases h
  all_goals cases h

end Reader

namespace Pattern

/-- How many groups may be open where no limit is asked for. -/
def defaultNesting : Nat := 256

/-- Reads a pattern in which no more than `limit` groups may be open at a time. -/
def parseChars (limit : Nat) (text : List Char) : Except ParseError Pattern := do
  (← Reader.start.readAll limit text).finish

theorem parseChars_eq_ok_iff {limit : Nat} {text : List Char} {p : Pattern} :
    parseChars limit text = .ok p ↔
      ∃ r, Reader.start.readAll limit text = .ok r ∧ r.finish = .ok p :=
  bind_eq_ok_iff

def parse (limit : Nat) (text : String) : Except ParseError Pattern :=
  parseChars limit text.toList

end Pattern

end PathSum.Regex
