import PathSum.Proofs.Automaton.Forward
import PathSum.Proofs.Regex.Numbering
import PathSum.Proofs.Regex.Recognition
import PathSum.Proofs.Regex.SilentEdges

/-!
# Matching

A pattern goes through four forms before it is matched with a text: the table of its nodes, the
automaton that the walk builds from the table, the automaton without silent edges, and the runs of
that one. **`isMatch_exact`** puts the four together: a text over the alphabet matches if and only
if it is in the language of the tree that the table unfolds to, and any other text is refused at
its first character outside the alphabet.
-/

namespace PathSum.Regex

namespace Nfa

variable {alphabet : Alphabet Char} {pattern : Pattern} {word : List Char}

theorem keys_labelled_ofPattern (alphabet : Alphabet Char) (pattern : Pattern) :
    (ofPattern alphabet pattern).labelled.keys = alphabet.symbols :=
  SymbolMap.keys_ofKeys alphabet.symbols alphabet.nodup _

theorem keys_transitions_ofPattern (alphabet : Alphabet Char) (pattern : Pattern) :
    (ofPattern alphabet pattern).withoutSilent.transitions.keys = alphabet.symbols := by
  show (SymbolMap.map _ (ofPattern alphabet pattern).labelled).keys = _
  rw [SymbolMap.keys_map, keys_labelled_ofPattern]

/-- Over the alphabet, the automaton of a pattern decides the language of its tree. -/
theorem accepts_ofPattern (known : ∀ c ∈ word, c ∈ alphabet.symbols) :
    ∃ b, (ofPattern alphabet pattern).withoutSilent.accepts word = .ok b ∧
      (b = true ↔ pattern.tree.Matches alphabet word) := by
  rw [← keys_labelled_ofPattern alphabet pattern] at known
  obtain ⟨b, hb, hiff⟩ := accepts_withoutSilent known
  rw [keys_labelled_ofPattern] at known
  refine ⟨b, hb, hiff.trans (accepts_ofPattern_iff.trans ?_)⟩
  exact ⟨fun h => h.2, fun h => ⟨known, h⟩⟩

/-- The first character outside the alphabet is reported, whatever stands before it. -/
theorem accepts_ofPattern_eq_error {c : Char} {rest : List Char}
    (known : ∀ a ∈ word, a ∈ alphabet.symbols) (unknown : c ∉ alphabet.symbols) :
    (ofPattern alphabet pattern).withoutSilent.accepts (word ++ c :: rest) = .error ⟨c⟩ := by
  rw [← keys_transitions_ofPattern alphabet pattern] at known unknown
  exact WeightedAutomaton.run_eq_error known unknown

end Nfa

namespace Compiled

theorem ofPattern_eq_ok {limit : Nat} {alphabet : Alphabet Char} {pattern : String} {p : Pattern}
    (h : Pattern.parse limit pattern = .ok p) :
    ofPattern limit alphabet pattern =
      .ok ⟨pattern, (Nfa.ofPattern alphabet p).withoutSilent⟩ := by
  rw [ofPattern, compile, h]
  rfl

/-- **A compiled pattern decides its language.** All steps from a pattern to its automaton succeed.
A text over the alphabet matches if and only if the tree of the pattern describes it; for any other
text, the first character outside the alphabet is reported, whatever was matched before it. -/
theorem isMatch_exact {limit : Nat} {pattern : String} {p : Pattern}
    (h : Pattern.parse limit pattern = .ok p) (symbols : List Char) :
    ∃ tree nfa regex,
      p.nodeTable.tree? = some tree ∧
      p.nodeTable.nfa? (.ofList symbols) = some nfa ∧
      nfa.removeSilent = .ok regex.automaton ∧
      ofPattern limit (.ofList symbols) pattern = .ok regex ∧
      ∀ text : String,
        ((∀ c ∈ text.toList, c ∈ symbols) → ∃ b, regex.isMatch text = .ok b ∧
          (b = true ↔ tree.Matches (.ofList symbols) text.toList)) ∧
        ∀ u c v, text.toList = u ++ c :: v → (∀ a ∈ u, a ∈ symbols) → c ∉ symbols →
          regex.isMatch text = .error ⟨c⟩ := by
  refine ⟨p.tree, .ofPattern (.ofList symbols) p, _, p.tree?_nodeTable, p.nfa?_nodeTable _,
    Nfa.removeSilent_eq_ok _, ofPattern_eq_ok h, fun text => ⟨fun known => ?_, ?_⟩⟩
  · -- a repeated symbol is in the alphabet once.
    exact Nfa.accepts_ofPattern fun c hc => Alphabet.mem_ofList_iff.mpr (known c hc)
  · intro u c v htext known unknown
    rw [← Alphabet.mem_ofList_iff] at unknown
    rw [isMatch, htext]
    exact Nfa.accepts_ofPattern_eq_error
      (fun a ha => Alphabet.mem_ofList_iff.mpr (known a ha)) unknown

/-- A negated class, a class and the wildcard around a repetition whose operand may read nothing,
over an alphabet with a repeated symbol. The class of `b` to `d` reads `b`, the negated class does
not read `a`, and `c` is reported although the class holds it, because the alphabet does not. -/
theorem isMatch_nested : ∃ p, Pattern.parse 1 "[^a]([b-d]*a?)+." = .ok p ∧
    ∃ regex, ofPattern 1 (.ofList ['b', 'a', 'b']) "[^a]([b-d]*a?)+." = .ok regex ∧
      regex.isMatch "bba" = .ok true ∧ regex.isMatch "ab" = .ok false ∧
      regex.isMatch "bc" = .error ⟨'c'⟩ := by
  have hparse : Pattern.parse 1 "[^a]([b-d]*a?)+." =
      .ok (.seq (.seq (.noneOf ⟨[('a', 'a')]⟩)
        (.plus (.seq (.star (.oneOf ⟨[('b', 'd')]⟩)) (.opt (.char 'a'))))) .any) := by rfl
  obtain ⟨tree, _, regex, htree, _, _, hregex, hmatch⟩ := isMatch_exact hparse ['b', 'a', 'b']
  obtain rfl : _ = tree := Option.some.inj ((Pattern.tree?_nodeTable _).symm.trans htree)
  obtain ⟨yes, hyes, hbba⟩ := (hmatch "bba").1 (by simp)
  obtain ⟨no, hno, hab⟩ := (hmatch "ab").1 (by simp)
  obtain rfl : yes = true := by
    -- the negated class and the class read one `b` each, the wildcard reads `a`.
    have hround : (Pattern.seq (.star (.oneOf ⟨[('b', 'd')]⟩)) (.opt (.char 'a'))).tree.Matches
        (.ofList ['b', 'a', 'b']) ['b'] :=
      .seq (.starCons (.oneOf (by decide)) .starNil) (.altLeft .empty)
    exact hbba.mpr (.seq (u := ['b', 'b']) (.seq (.noneOf (by decide) (by decide))
      (.seq hround .starNil)) (.any (by decide)))
  obtain rfl : no = false := by
    rw [← Bool.not_eq_true, hab]
    intro hwords
    -- the first character would have to be outside of the negated class.
    obtain ⟨u, v, huv, hu, -⟩ := Tree.matches_seq_iff.mp hwords
    obtain ⟨first, rest, rfl, hfirst, -⟩ := Tree.matches_seq_iff.mp hu
    obtain ⟨c, rfl, -, hc⟩ := Tree.matches_noneOf_iff.mp hfirst
    obtain rfl : 'a' = c := (List.cons.inj huv).1
    exact hc (by decide)
  refine ⟨_, hparse, regex, hregex, hyes, hno, ?_⟩
  exact (hmatch "bc").2 ['b'] 'c' [] rfl (by simp) (by decide)

end Compiled

end PathSum.Regex
