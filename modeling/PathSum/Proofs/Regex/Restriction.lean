import PathSum.Proofs.Regex.Matching

/-!
# What the alphabet decides

A pattern is compiled over an alphabet. States and silent edges do not depend on it, and the edges
for a character depend only on whether that character is in it. So a smaller alphabet restricts the
automaton to its own symbols and changes nothing else.

* `Fragment.Agree`, `Pattern.agree_fragment`: two fragments that differ only in edges for other
  characters, kept by every operator and so by the induction over the pattern.
* `agree_ofFragment`, `agree_ofPattern`: the closure does not look at the alphabet either, so
  automata without silent edges agree as well.
* `WeightedAutomaton.Agree.run_eq`: words of the characters that are agreed on weigh the same.
-/

namespace PathSum

/-! ## Automata that agree on some symbols -/

/-- Two automata that differ in no state and in no matrix of the symbols in `P`. -/
inductive WeightedAutomaton.Agree {σ α : Type} [DecidableEq σ] (P : σ → Prop) :
    WeightedAutomaton σ α → WeightedAutomaton σ α → Prop where
  | intro {weights : Weights α} {size : Nat} {initial final : Vector α size}
      {small large : SymbolMap σ (Matrix α size size)}
      (get?_eq : ∀ s, P s → small.get? s = large.get? s) :
      Agree P ⟨weights, size, initial, final, small⟩ ⟨weights, size, initial, final, large⟩

/-- Where only symbols are read that two automata agree on, they give the same result. Only the
matrices that are looked up count, not what else the automata know. -/
theorem WeightedAutomaton.Agree.run_eq {σ α : Type} [DecidableEq σ] {P : σ → Prop}
    {A B : WeightedAutomaton σ α} (h : A.Agree P B) {word : List σ} (inside : ∀ s ∈ word, P s) :
    A.run word = B.run word := by
  obtain @⟨weights, size, initial, final, small, large, get?_eq⟩ := h
  have hforward (v : Vector α size) :
      (mk weights size initial final small).forwardFrom v word =
        (mk weights size initial final large).forwardFrom v word := by
    induction word generalizing v with
    | nil => rfl
    | cons s word ih =>
      have hlookup : small.lookup s = large.lookup s := by
        rw [SymbolMap.lookup, SymbolMap.lookup, get?_eq s (inside s (List.mem_cons_self ..))]
      have hrest := ih fun t ht => inside t (List.mem_cons_of_mem _ ht)
      simp only [forwardFrom_cons, hlookup, hrest]
      cases large.lookup s <;> rfl
  rw [run, run, forward, forward, hforward]

namespace Regex

variable {S T : Alphabet Char} {P : Char → Prop}

/-! ## Fragments -/

/-- Two fragments that differ in no state, in no silent edge and in no edge for the characters in
`P`. -/
structure Fragment.Agree (P : Char → Prop) (f g : Fragment) : Prop where
  next_eq : f.next = g.next
  start_eq : f.start = g.start
  accept_eq : f.accept = g.accept
  silent_eq : f.silent = g.silent
  labelled_iff : ∀ i c j, P c → ((i, c, j) ∈ f.labelled ↔ (i, c, j) ∈ g.labelled)

namespace Fragment

variable {f g f' g' : Fragment}

theorem mem_labelled_symbols {chars : List Char} {next i j : Nat} {c : Char} :
    (i, c, j) ∈ (symbols next chars).labelled ↔ c ∈ chars ∧ i = next ∧ j = next + 1 := by
  simp only [symbols, List.mem_map, Prod.mk.injEq]
  constructor
  · rintro ⟨a, ha, rfl, rfl, rfl⟩
    exact ⟨ha, rfl, rfl⟩
  · rintro ⟨hc, rfl, rfl⟩
    exact ⟨c, hc, rfl, rfl, rfl⟩

/-- Two states with edges for the characters of two lists that agree. -/
theorem agree_symbols {chars chars' : List Char} (shared : ∀ c, P c → (c ∈ chars ↔ c ∈ chars'))
    (next : Nat) : Agree P (symbols next chars) (symbols next chars') where
  next_eq := rfl
  start_eq := rfl
  accept_eq := rfl
  silent_eq := rfl
  labelled_iff i c j hc := by rw [mem_labelled_symbols, mem_labelled_symbols, shared c hc]

theorem agree_empty (next : Nat) : Agree P (empty next) (empty next) :=
  ⟨rfl, rfl, rfl, rfl, fun _ _ _ _ => Iff.rfl⟩

theorem Agree.seq (hl : Agree P f g) (hr : Agree P f' g') : Agree P (f.seq f') (g.seq g') where
  next_eq := hr.next_eq
  start_eq := hl.start_eq
  accept_eq := hr.accept_eq
  silent_eq := by
    simp only [Fragment.seq, hl.silent_eq, hr.silent_eq, hl.accept_eq, hr.start_eq]
  labelled_iff i c j hc := by
    simp only [Fragment.seq, List.mem_append, hl.labelled_iff i c j hc, hr.labelled_iff i c j hc]

theorem Agree.alt (hl : Agree P f g) (hr : Agree P f' g') : Agree P (f.alt f') (g.alt g') where
  next_eq := by simp only [Fragment.alt, hr.next_eq]
  start_eq := hr.next_eq
  accept_eq := by simp only [Fragment.alt, hr.next_eq]
  silent_eq := by
    simp only [Fragment.alt, hl.silent_eq, hr.silent_eq, hr.next_eq, hl.start_eq, hr.start_eq,
      hl.accept_eq, hr.accept_eq]
  labelled_iff i c j hc := by
    simp only [Fragment.alt, List.mem_append, hl.labelled_iff i c j hc, hr.labelled_iff i c j hc]

theorem Agree.star (h : Agree P f g) : Agree P f.star g.star where
  next_eq := by simp only [Fragment.star, h.next_eq]
  start_eq := h.next_eq
  accept_eq := by simp only [Fragment.star, h.next_eq]
  silent_eq := by
    simp only [Fragment.star, h.silent_eq, h.next_eq, h.start_eq, h.accept_eq]
  labelled_iff := h.labelled_iff

theorem Agree.plus (h : Agree P f g) : Agree P f.plus g.plus where
  next_eq := by simp only [Fragment.plus, h.next_eq]
  start_eq := h.start_eq
  accept_eq := h.next_eq
  silent_eq := by
    simp only [Fragment.plus, h.silent_eq, h.next_eq, h.start_eq, h.accept_eq]
  labelled_iff := h.labelled_iff

end Fragment

/-- The alphabet decides which edges for its characters there are, and nothing else. The states and
the silent edges come from the pattern alone, in the same order. -/
theorem Pattern.agree_fragment (shared : ∀ c, P c → (c ∈ S.symbols ↔ c ∈ T.symbols))
    (pattern : Pattern) (next : Nat) :
    Fragment.Agree P (pattern.fragment S next) (pattern.fragment T next) := by
  have hfilter (p : Char → Bool) (c : Char) (hc : P c) :
      c ∈ S.symbols.filter p ↔ c ∈ T.symbols.filter p := by
    rw [List.mem_filter, List.mem_filter, shared c hc]
  induction pattern generalizing next with
  | char c => exact Fragment.agree_symbols (hfilter _) next
  | any => exact Fragment.agree_symbols shared next
  | oneOf set => exact Fragment.agree_symbols (hfilter _) next
  | noneOf set => exact Fragment.agree_symbols (hfilter _) next
  | seq left right ihl ihr =>
    -- the right operand is numbered from where the left one ends, which is the same number.
    simp only [fragment, (ihl next).next_eq]
    exact (ihl next).seq (ihr _)
  | alt left right ihl ihr =>
    simp only [fragment, (ihl next).next_eq]
    exact (ihl next).alt (ihr _)
  | star inner ih => exact (ih next).star
  | plus inner ih => exact (ih next).plus
  | opt inner ih => exact (Fragment.agree_empty next).alt (ih (next + 2))

/-! ## Compiled patterns -/

namespace Nfa

/-- Fragments that agree have the same closure, and the same matrices for the characters in `P`. So
the automata agree on words of these characters. -/
theorem agree_ofFragment {f g : Fragment} (h : Fragment.Agree P f g)
    (shared : ∀ c, P c → (c ∈ S.symbols ↔ c ∈ T.symbols)) (hf : f.start < f.next)
    (hf' : f.accept < f.next) (hg : g.start < g.next) (hg' : g.accept < g.next) :
    (ofFragment S f hf hf').withoutSilent.Agree P (ofFragment T g hg hg').withoutSilent := by
  obtain ⟨next, start, accept, silent, edges⟩ := f
  obtain ⟨next', start', accept', silent', edges'⟩ := g
  obtain ⟨rfl, rfl, rfl, rfl, labelled_iff⟩ := h
  -- the silent edges are the same, and with them the closure and both vectors.
  refine .intro fun c hc => ?_
  rw [SymbolMap.get?_map, SymbolMap.get?_map, SymbolMap.get?_ofKeys, SymbolMap.get?_ofKeys,
    relation_filterMap_label_eq fun i j => labelled_iff i c j hc]
  simp only [shared c hc]
  rfl

theorem agree_ofPattern (shared : ∀ c, P c → (c ∈ S.symbols ↔ c ∈ T.symbols)) (pattern : Pattern) :
    (ofPattern S pattern).withoutSilent.Agree P (ofPattern T pattern).withoutSilent :=
  agree_ofFragment (pattern.agree_fragment shared 0) shared ..

end Nfa

namespace Compiled

theorem ofPattern_eq_error {limit : Nat} {alphabet : Alphabet Char} {pattern : String}
    {e : ParseError} (h : Pattern.parse limit pattern = .error e) :
    ofPattern limit alphabet pattern = .error e := by
  rw [ofPattern, compile, h]
  rfl

/-- **The alphabet only restricts.** Whether a pattern compiles, and the error if it does not, is
the same over every alphabet. Where the symbols of `S` are all in `T`, both automata have the same
states, the same vectors and the same matrices for the symbols of `S`; over `S` these are all, in
the order in which they first came. So both give the same answer for a text over `S`, and the order
of the symbols and how often each is listed never matter. -/
theorem ofPattern_restrict (limit : Nat) (pattern : String) {S T : List Char}
    (inside : ∀ c ∈ S, c ∈ T) :
    (∃ e, ofPattern limit (.ofList S) pattern = .error e ∧
      ofPattern limit (.ofList T) pattern = .error e) ∨
    ∃ small large, ofPattern limit (.ofList S) pattern = .ok small ∧
      ofPattern limit (.ofList T) pattern = .ok large ∧
      small.automaton.Agree (· ∈ S) large.automaton ∧
      small.automaton.transitions.keys = S.eraseDups ∧
      (∀ text : String, (∀ c ∈ text.toList, c ∈ S) →
        ∃ b, small.isMatch text = .ok b ∧ large.isMatch text = .ok b) ∧
      ((∀ c ∈ T, c ∈ S) → ∀ text, small.isMatch text = large.isMatch text) := by
  cases hparse : Pattern.parse limit pattern with
  | error e => exact .inl ⟨e, ofPattern_eq_error hparse, ofPattern_eq_error hparse⟩
  | ok p =>
    have hagree : (Nfa.ofPattern (.ofList S) p).withoutSilent.Agree (· ∈ S)
        (Nfa.ofPattern (.ofList T) p).withoutSilent := by
      refine Nfa.agree_ofPattern (fun c hc => ?_) p
      rw [Alphabet.mem_ofList_iff, Alphabet.mem_ofList_iff]
      exact ⟨inside c, fun _ => hc⟩
    refine .inr ⟨_, _, ofPattern_eq_ok hparse, ofPattern_eq_ok hparse, hagree, ?_, ?_, ?_⟩
    · rw [Nfa.keys_transitions_ofPattern]
      exact Alphabet.symbols_ofList S
    · intro text known
      have hdecides : ∃ b, (Nfa.ofPattern (.ofList S) p).withoutSilent.accepts text.toList = .ok b ∧
          (b = true ↔ p.tree.Matches (.ofList S) text.toList) :=
        Nfa.accepts_ofPattern fun c hc => Alphabet.mem_ofList_iff.mpr (known c hc)
      obtain ⟨b, hb, _⟩ := hdecides
      exact ⟨b, hb, (hagree.run_eq known).symm.trans hb⟩
    · -- the same symbols: then the automata agree on every character, known or not.
      intro outside text
      have hall : (Nfa.ofPattern (.ofList S) p).withoutSilent.Agree (fun _ => True)
          (Nfa.ofPattern (.ofList T) p).withoutSilent := by
        refine Nfa.agree_ofPattern (fun c _ => ?_) p
        rw [Alphabet.mem_ofList_iff, Alphabet.mem_ofList_iff]
        exact ⟨inside c, outside c⟩
      exact hall.run_eq fun _ _ => trivial

/-- A negated class and the wildcard reach further over a larger alphabet, but not for the symbols
of the smaller one. -/
theorem ofPattern_restrict_negated : ∃ small large,
    ofPattern 0 (.ofList ['b', 'a', 'b']) "[^a]." = .ok small ∧
      ofPattern 0 (.ofList ['a', 'b', 'c']) "[^a]." = .ok large ∧
      small.automaton.transitions.keys = ['b', 'a'] ∧
      ∃ b, small.isMatch "ba" = .ok b ∧ large.isMatch "ba" = .ok b := by
  have hparse : Pattern.parse 0 "[^a]." = .ok (.seq (.noneOf ⟨[('a', 'a')]⟩) .any) := by rfl
  obtain ⟨e, he, _⟩ | ⟨small, large, hsmall, hlarge, _, hkeys, hmatch, _⟩ :=
    ofPattern_restrict 0 "[^a]." (S := ['b', 'a', 'b']) (T := ['a', 'b', 'c']) (by simp)
  · rw [ofPattern_eq_ok hparse] at he
    cases he
  · exact ⟨small, large, hsmall, hlarge, hkeys, hmatch "ba" (by simp)⟩

end Compiled

end Regex

end PathSum
