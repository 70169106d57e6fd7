import PathSum.Regex.Pattern

/-!
# The grammar of patterns

Which texts are patterns, and which pattern each of them is. The rules describe whole texts and say
nothing about how a text is read, so they say what a reader has to accept.

Main statement: a text that may have `limit` groups open at a time may also have more
(`Derives.mono`).
-/

namespace PathSum.Regex

/-! ## Classes -/

/-- A character of a class, plain or behind a backslash. -/
inductive DerivesClassChar : List Char → Char → Prop where
  | plain {c : Char} : c ≠ '\\' → c ≠ ']' → DerivesClassChar [c] c
  | escaped (c : Char) : DerivesClassChar ['\\', c] c

/-- The items of a class, up to the bracket that closes it. A dash after a character makes a range
of it, unless the class ends right after the dash. -/
inductive DerivesItems : List Char → List (Char × Char) → Prop where
  | nil : DerivesItems [] []
  | single {text rest : List Char} {c : Char} {ranges : List (Char × Char)} :
      DerivesClassChar text c → DerivesItems rest ranges →
        (∀ next more, rest ≠ '-' :: next :: more) → DerivesItems (text ++ rest) ((c, c) :: ranges)
  | range {first last rest : List Char} {lo hi : Char} {ranges : List (Char × Char)} :
      DerivesClassChar first lo → DerivesClassChar last hi → lo ≤ hi → DerivesItems rest ranges →
        DerivesItems (first ++ '-' :: (last ++ rest)) ((lo, hi) :: ranges)

/-! ## Patterns -/

/-- The characters that a pattern uses as signs; they stand for themselves only behind a
backslash. -/
def signs : List Char :=
  ['(', ')', '[', '|', '*', '+', '?', '.', '\\']

/-- How tightly the parts of a text are bound. -/
inductive Level where
  | atom
  | repetition
  | sequence
  | alternatives
deriving DecidableEq, Repr

/-- A text is a pattern in which no more than `limit` groups are open at a time. The levels are tied
to one another by the rules `once`, `single` and `only`, which keep the text, and by `group`, which
lets alternatives be an atom. -/
inductive Derives : Level → (limit : Nat) → List Char → Pattern → Prop where
  | char {limit : Nat} {c : Char} : c ∉ signs → Derives .atom limit [c] (.char c)
  | escaped {limit : Nat} (c : Char) : Derives .atom limit ['\\', c] (.char c)
  | any {limit : Nat} : Derives .atom limit ['.'] .any
  | oneOf {limit : Nat} {items : List Char} {ranges : List (Char × Char)} :
      DerivesItems items ranges → ranges ≠ [] → items.head? ≠ some '^' →
        Derives .atom limit ('[' :: (items ++ [']'])) (.oneOf ⟨ranges⟩)
  | noneOf {limit : Nat} {items : List Char} {ranges : List (Char × Char)} :
      DerivesItems items ranges → ranges ≠ [] →
        Derives .atom limit ('[' :: '^' :: (items ++ [']'])) (.noneOf ⟨ranges⟩)
  | group {limit : Nat} {text : List Char} {p : Pattern} :
      Derives .alternatives limit text p → Derives .atom (limit + 1) ('(' :: (text ++ [')'])) p
  | once {limit : Nat} {text : List Char} {p : Pattern} :
      Derives .atom limit text p → Derives .repetition limit text p
  | star {limit : Nat} {text : List Char} {p : Pattern} :
      Derives .repetition limit text p → Derives .repetition limit (text ++ ['*']) (.star p)
  | plus {limit : Nat} {text : List Char} {p : Pattern} :
      Derives .repetition limit text p → Derives .repetition limit (text ++ ['+']) (.plus p)
  | opt {limit : Nat} {text : List Char} {p : Pattern} :
      Derives .repetition limit text p → Derives .repetition limit (text ++ ['?']) (.opt p)
  | single {limit : Nat} {text : List Char} {p : Pattern} :
      Derives .repetition limit text p → Derives .sequence limit text p
  | seq {limit : Nat} {left right : List Char} {p q : Pattern} :
      Derives .sequence limit left p → Derives .repetition limit right q →
        Derives .sequence limit (left ++ right) (.seq p q)
  | only {limit : Nat} {text : List Char} {p : Pattern} :
      Derives .sequence limit text p → Derives .alternatives limit text p
  | alt {limit : Nat} {left right : List Char} {p q : Pattern} :
      Derives .alternatives limit left p → Derives .sequence limit right q →
        Derives .alternatives limit (left ++ '|' :: right) (.alt p q)

/-- A higher limit allows at least the same patterns. The induction is on the derivation; only a
group makes use of the limit. -/
theorem Derives.mono {level : Level} {limit limit' : Nat} {text : List Char} {p : Pattern}
    (h : Derives level limit text p) (hle : limit ≤ limit') : Derives level limit' text p := by
  induction h generalizing limit' with
  | char hc => exact .char hc
  | escaped c => exact .escaped c
  | any => exact .any
  | oneOf items hne hhead => exact .oneOf items hne hhead
  | noneOf items hne => exact .noneOf items hne
  | group _ ih =>
    obtain _ | limit' := limit'
    · -- a group needs a limit of one at least, so the higher one has a predecessor too.
      contradiction
    · exact .group (ih (Nat.le_of_succ_le_succ hle))
  | once _ ih => exact .once (ih hle)
  | star _ ih => exact .star (ih hle)
  | plus _ ih => exact .plus (ih hle)
  | opt _ ih => exact .opt (ih hle)
  | single _ ih => exact .single (ih hle)
  | seq _ _ ihl ihr => exact .seq (ihl hle) (ihr hle)
  | only _ ih => exact .only (ih hle)
  | alt _ _ ihl ihr => exact .alt (ihl hle) (ihr hle)

end PathSum.Regex
