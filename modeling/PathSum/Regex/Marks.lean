/-!
# Marks of a text

What the parts of a pattern are for, read off its characters. The scan knows whether a character
stands behind a backslash or in a class, and nothing of how operators bind, so it says what there is
to count in a text without saying what pattern it is.

Main statements: what the marks of a text are when one more character is put in front of it
(`marksFrom_cons`) or a text behind it (`marks_append`), that there are no more of them than
characters (`length_marks_le`), and where joints come in between two texts (`joints_append`).
-/

namespace PathSum.Regex

/-- What a part of a text is for. Parts are marked in the order of the text, one mark for each
operator and for each atom. -/
inductive Mark where
  /-- An atom that is not a group: a character, an escape, a class or a dot. -/
  | leaf
  | opened
  | closed
  | bar
  | star
  | plus
  | opt
deriving DecidableEq, Repr

namespace Mark

/-- The mark of a character that stands neither behind a backslash nor in a class. -/
def ofChar : Char → Mark
  | '(' => .opened
  | ')' => .closed
  | '|' => .bar
  | '*' => .star
  | '+' => .plus
  | '?' => .opt
  | _ => .leaf

/-- An atom begins here. -/
def begins : Mark → Bool
  | .leaf | .opened => true
  | _ => false

/-- An atom ends here, or one of its repetitions. -/
def ends : Mark → Bool
  | .leaf | .closed | .star | .plus | .opt => true
  | _ => false

end Mark

/-- Where the next character stands. -/
inductive Place where
  | outside
  /-- Behind a backslash. -/
  | escaped
  | inClass
  /-- Behind a backslash in a class. -/
  | escapedInClass
deriving DecidableEq, Repr

/-- The marks of a text whose first character stands at the given place. An escape and a class are
marked where they end. -/
def marksFrom : Place → List Char → List Mark
  | _, [] => []
  | .outside, '\\' :: rest => marksFrom .escaped rest
  | .outside, '[' :: rest => marksFrom .inClass rest
  | .outside, c :: rest => .ofChar c :: marksFrom .outside rest
  | .escaped, _ :: rest => .leaf :: marksFrom .outside rest
  | .inClass, '\\' :: rest => marksFrom .escapedInClass rest
  | .inClass, ']' :: rest => .leaf :: marksFrom .outside rest
  | .inClass, _ :: rest => marksFrom .inClass rest
  | .escapedInClass, _ :: rest => marksFrom .inClass rest

/-- The marks of a whole text, which stands outside of classes and escapes. -/
def marks (text : List Char) : List Mark :=
  marksFrom .outside text

/-- Where the character behind `c` stands. An escape is over after one character, and a class at its
bracket. -/
def Place.next : Place → Char → Place
  | .outside, '\\' => .escaped
  | .outside, '[' => .inClass
  | .outside, _ => .outside
  | .escaped, _ => .outside
  | .inClass, '\\' => .escapedInClass
  | .inClass, ']' => .outside
  | .inClass, _ => .inClass
  | .escapedInClass, _ => .inClass

/-- Where a character stands that comes behind a text. -/
def placeAfter (text : List Char) : Place :=
  text.foldl Place.next .outside

/-- How often an atom with its repetitions has another atom right behind it. -/
def joints : List Mark → Nat
  | a :: b :: rest => (a.ends && b.begins).toNat + joints (b :: rest)
  | _ => 0

/-! ## One more character -/

theorem marks_nil : marks [] = [] := rfl

theorem marks_cons {c : Char} (hescape : c ≠ '\\') (hclass : c ≠ '[') (rest : List Char) :
    marks (c :: rest) = .ofChar c :: marks rest := by
  rw [marks, marksFrom]
  · rfl
  · exact hescape
  · exact hclass

/-- If what comes behind a text does not change its marks, it does not change those of the text with
one more character either. -/
theorem marks_concat {text : List Char} {ms : List Mark}
    (h : ∀ rest, marks (text ++ rest) = ms ++ marks rest) {c : Char} (hescape : c ≠ '\\')
    (hclass : c ≠ '[') (rest : List Char) :
    marks (text ++ [c] ++ rest) = ms ++ [.ofChar c] ++ marks rest := by
  rw [List.append_assoc, h, List.append_assoc]
  exact congrArg _ (marks_cons hescape hclass rest)

/-- Behind a backslash every character is a part of an atom. -/
theorem marksFrom_escaped_cons (c : Char) (rest : List Char) :
    marksFrom .escaped (c :: rest) = .leaf :: marks rest := by
  rw [marksFrom, marks]

/-- A backslash and the character behind it are one part of an atom. -/
theorem marks_escaped (c : Char) (rest : List Char) :
    marks ('\\' :: c :: rest) = .leaf :: marks rest := by
  rw [marks, marksFrom, marksFrom_escaped_cons]

/-- A class is not marked where it opens, but where it ends. -/
theorem marks_class (rest : List Char) : marks ('[' :: rest) = marksFrom .inClass rest := by
  simp [marks, marksFrom]

/-- Behind a backslash in a class every character belongs to the class. -/
theorem marksFrom_escapedInClass_cons (c : Char) (rest : List Char) :
    marksFrom .escapedInClass (c :: rest) = marksFrom .inClass rest := by
  rw [marksFrom]

/-- An escaped character in a class gives no mark, and the class goes on behind it. -/
theorem marksFrom_inClass_escaped (c : Char) (rest : List Char) :
    marksFrom .inClass ('\\' :: c :: rest) = marksFrom .inClass rest := by
  simp [marksFrom]

/-- A class that ends is an atom. -/
theorem marksFrom_inClass_close (rest : List Char) :
    marksFrom .inClass (']' :: rest) = .leaf :: marks rest := by
  simp [marksFrom, marks]

theorem marksFrom_inClass_cons {c : Char} (hescape : c ≠ '\\') (hclose : c ≠ ']')
    (rest : List Char) : marksFrom .inClass (c :: rest) = marksFrom .inClass rest := by
  rw [marksFrom]
  · exact hescape
  · exact hclose

/-- Every mark takes a character. -/
theorem length_marksFrom_le (place : Place) (text : List Char) :
    (marksFrom place text).length ≤ text.length := by
  fun_induction marksFrom place text <;> simp only [List.length_cons, List.length_nil] <;> omega

theorem length_marks_le (text : List Char) : (marks text).length ≤ text.length :=
  length_marksFrom_le .outside text

/-! ## What comes behind -/

/-- Outside, only a backslash and an opening bracket lead anywhere else. -/
theorem Place.next_outside {c : Char} (hescape : c ≠ '\\') (hclass : c ≠ '[') :
    outside.next c = outside := by
  rw [next]
  · exact hescape
  · exact hclass

/-- In a class, only a backslash and the closing bracket do. -/
theorem Place.next_inClass {c : Char} (hescape : c ≠ '\\') (hclose : c ≠ ']') :
    inClass.next c = inClass := by
  rw [next]
  · exact hescape
  · exact hclose

/-- The scan goes through a text one character after the other. A character gives the marks that it
gives as a text of its own, and decides where the next one stands. -/
theorem marksFrom_cons (place : Place) (c : Char) (rest : List Char) :
    marksFrom place (c :: rest) = marksFrom place [c] ++ marksFrom (place.next c) rest := by
  cases place with
  | outside =>
    by_cases hescape : c = '\\'
    · subst hescape
      rfl
    by_cases hclass : c = '['
    · subst hclass
      rfl
    have hmark (rest : List Char) :
        marksFrom .outside (c :: rest) = .ofChar c :: marksFrom .outside rest :=
      marks_cons hescape hclass rest
    rw [Place.next_outside hescape hclass, hmark, hmark]
    rfl
  | escaped =>
    have hnext : Place.escaped.next c = .outside := by rw [Place.next]
    rw [hnext, marksFrom_escaped_cons, marksFrom_escaped_cons]
    rfl
  | inClass =>
    by_cases hescape : c = '\\'
    · subst hescape
      rfl
    by_cases hclose : c = ']'
    · subst hclose
      rfl
    rw [Place.next_inClass hescape hclose, marksFrom_inClass_cons hescape hclose,
      marksFrom_inClass_cons hescape hclose]
    rfl
  | escapedInClass =>
    have hnext : Place.escapedInClass.next c = .inClass := by rw [Place.next]
    rw [hnext, marksFrom_escapedInClass_cons, marksFrom_escapedInClass_cons]
    rfl

/-- Where a text ends is all that matters for what comes behind it. -/
theorem marksFrom_append (place : Place) (text rest : List Char) :
    marksFrom place (text ++ rest) =
      marksFrom place text ++ marksFrom (text.foldl Place.next place) rest := by
  induction text generalizing place with
  | nil => rfl
  | cons c text ih =>
    rw [List.cons_append, marksFrom_cons, ih, marksFrom_cons place c text, List.append_assoc,
      List.foldl_cons]

theorem marks_append (text rest : List Char) :
    marks (text ++ rest) = marks text ++ marksFrom (placeAfter text) rest :=
  marksFrom_append .outside text rest

theorem placeAfter_append (text rest : List Char) :
    placeAfter (text ++ rest) = rest.foldl Place.next (placeAfter text) :=
  List.foldl_append ..

/-! ## Counting -/

/-- Only an opening parenthesis is marked as one. -/
theorem Mark.ofChar_eq_opened_iff {c : Char} : ofChar c = .opened ↔ c = '(' := by
  constructor
  · intro h
    unfold ofChar at h
    split at h
    case h_1 => rfl
    all_goals exact nomatch h
  · rintro rfl
    rfl

/-- And only a closing one as that. -/
theorem Mark.ofChar_eq_closed_iff {c : Char} : ofChar c = .closed ↔ c = ')' := by
  constructor
  · intro h
    unfold ofChar at h
    split at h
    case h_2 => rfl
    all_goals exact nomatch h
  · rintro rfl
    rfl

/-- In a class only the bracket that ends it is marked, and it is marked as an atom. So no character
of a class opens or closes a group. -/
theorem count_marksFrom_inClass {m : Mark} (hm : m ≠ .leaf) (c : Char) :
    (marksFrom .inClass [c]).count m = 0 := by
  by_cases hescape : c = '\\'
  · subst hescape
    rfl
  by_cases hclose : c = ']'
  · subst hclose
    exact List.count_eq_zero.mpr fun hmem => hm (List.mem_singleton.mp hmem)
  rw [marksFrom_inClass_cons hescape hclose]
  rfl

/-- Only outside of classes and escapes does a character count as anything but a part of an atom.
With this the number of open groups is followed from one character to the next. -/
theorem count_marksFrom_singleton {m : Mark} (hm : m ≠ .leaf) (place : Place) (c : Char) :
    (marksFrom place [c]).count m = if place = .outside ∧ Mark.ofChar c = m then 1 else 0 := by
  have hleaf : [Mark.leaf].count m = 0 :=
    List.count_eq_zero.mpr fun hmem => hm (List.mem_singleton.mp hmem)
  cases place with
  | outside =>
    -- a backslash and a bracket are no marks themselves, and would be those of an atom.
    by_cases hescape : c = '\\'
    · subst hescape
      exact (if_neg fun h => hm h.2.symm).symm
    by_cases hclass : c = '['
    · subst hclass
      exact (if_neg fun h => hm h.2.symm).symm
    have hmark : marksFrom .outside [c] = [.ofChar c] := marks_cons hescape hclass []
    rw [hmark, List.count_singleton]
    simp only [beq_iff_eq, true_and]
  | escaped =>
    rw [marksFrom_escaped_cons, marks_nil, hleaf, if_neg]
    rintro ⟨⟨⟩, -⟩
  | inClass =>
    rw [count_marksFrom_inClass hm, if_neg]
    rintro ⟨⟨⟩, -⟩
  | escapedInClass =>
    rw [marksFrom_escapedInClass_cons, if_neg]
    · rfl
    · rintro ⟨⟨⟩, -⟩

/-- Two texts in a row have the joints of both, and one more if an atom ends the first and an atom
begins the second. -/
theorem joints_append (left right : List Mark) :
    joints (left ++ right) = joints left + joints right +
      (left.getLast?.any Mark.ends && right.head?.any Mark.begins).toNat := by
  induction left with
  | nil => simp [joints]
  | cons a left ih =>
    cases left with
    | nil =>
      -- this is where the two texts meet.
      cases right with
      | nil => simp [joints]
      | cons b right =>
        simp only [List.cons_append, List.nil_append, joints, List.getLast?_singleton,
          List.head?_cons, Option.any_some]
        omega
    | cons a' left =>
      simp only [List.cons_append, joints] at ih ⊢
      rw [ih, List.getLast?_cons_cons]
      omega

/-- No mark is counted twice. -/
theorem count_marks_le (ms : List Mark) :
    ms.count .leaf + ms.count .bar + ms.count .star + ms.count .plus + ms.count .opt ≤
      ms.length := by
  induction ms with
  | nil => simp
  | cons m ms ih => cases m <;> simp <;> omega

end PathSum.Regex
