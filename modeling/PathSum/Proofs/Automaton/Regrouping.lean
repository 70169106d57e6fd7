import PathSum.Alphabet
import PathSum.Proofs.Automaton.Product

/-!
# Three automata at once

The product of three automata does not depend on which two are multiplied first. The two products
have the same matrices for the same symbols in the same order, and a triple of states has the same
number in both, so they are one automaton and not merely two with the same weights. All that is
asked of the weights is that their product is associative.

* `Share.exists_pairTransition_assoc`: the two matrices of one symbol are the same matrix.
* `pairTransitions_assoc`: so are all the matrices over an alphabet.
* `joint_assoc`: so are the automata that are made of them.
* `keys_of_pairTransitions_eq_ok`: in which order the symbols stand.
-/

namespace PathSum.WeightedAutomaton

variable {σ α : Type} {A B C : WeightedAutomaton σ α}

/-- An automaton is the same when its number of states is written differently. -/
theorem eq_of_cast {w : Weights α} {m n : Nat} (h : m = n) (initial final : Vector α m)
    (transitions : SymbolMap σ (Matrix α m m)) :
    (⟨w, m, initial, final, transitions⟩ : WeightedAutomaton σ α) =
      ⟨w, n, initial.cast h, final.cast h, transitions.map fun M => M.cast h h⟩ := by
  subst h
  simp [SymbolMap.map]

variable [DecidableEq σ] {alphabet symbols : List σ}

/-! ## The order of the symbols -/

/-- Each symbol of the alphabet comes where it was inserted first. The matrices have no influence on
the order, so both ways to group the automata have the same one. -/
theorem keys_of_pairTransitions_eq_ok
    {map out : SymbolMap σ (Matrix α (A.size * B.size) (A.size * B.size))}
    (h : A.pairTransitions B alphabet map = .ok out) :
    out.keys = (alphabet.foldl Alphabet.insert ⟨map.keys, map.nodup_keys⟩).symbols := by
  induction alphabet generalizing map with
  | nil =>
    cases h
    rfl
  | cons s alphabet ih =>
    rw [pairTransitions_cons] at h
    obtain ⟨M, -, hrest⟩ := bind_eq_ok_iff.mp h
    rw [ih hrest, List.foldl_cons]
    congr 2
    simp only [Alphabet.insert, SymbolMap.keys_insert]
    split <;> rfl

theorem keys_of_product_eq_ok {P : WeightedAutomaton σ α} (h : A.product B alphabet = .ok P) :
    P.transitions.keys = alphabet.eraseDups := by
  rw [product_eq_map] at h
  obtain ⟨map, hmap, rfl⟩ := map_eq_ok_iff.mp h
  show map.keys = alphabet.eraseDups
  rw [keys_of_pairTransitions_eq_ok hmap]
  exact Alphabet.symbols_ofList alphabet

/-! ## Which two come first -/

section
variable
  (assoc : ∀ x y z, A.weights.mul (A.weights.mul x y) z = A.weights.mul x (A.weights.mul y z))
  (same : B.weights = A.weights)
  {left : SymbolMap σ (Matrix α (A.size * B.size) (A.size * B.size))}
  {right : SymbolMap σ (Matrix α (B.size * C.size) (B.size * C.size))}
include assoc same

/-- One symbol is read alike. Its matrix is a product of three either way, and only the shape is
written in another form. -/
theorem Share.exists_pairTransition_assoc {s : σ} (hAB : A.Share B s) (hC : s ∈ C.transitions.keys)
    (hleft : left.lookup s = A.pairTransition B s)
    (hright : right.lookup s = B.pairTransition C s) :
    ∃ M, (A.joint B left).pairTransition C s = .ok M ∧
      A.pairTransition (B.joint C right) s =
        .ok (M.cast (Nat.mul_assoc ..) (Nat.mul_assoc ..)) := by
  obtain ⟨K, L, hA, hB, hpair⟩ := hAB.exists_pairTransition
  obtain ⟨L', M, hB', hC', hpair'⟩ := Share.exists_pairTransition (A := B) (B := C) ⟨hAB.2, hC⟩
  obtain rfl : L = L' := Except.ok.inj (hB.symm.trans hB')
  refine ⟨(K.kron A.weights L).kron A.weights M, ?_, ?_⟩
  · rw [pairTransition, hleft, hpair, hC']
    rfl
  · rw [Matrix.kron_assoc assoc, pairTransition, hA, hright, hpair', same]
    rfl

/-- All symbols are read alike, whatever the maps had before. The induction is on the alphabet, for
all maps, since each symbol is inserted into what the symbols before it left. -/
theorem pairTransitions_assoc (known : ∀ s ∈ symbols, A.Share B s ∧ s ∈ C.transitions.keys)
    (hleft : ∀ s ∈ symbols, left.lookup s = A.pairTransition B s)
    (hright : ∀ s ∈ symbols, right.lookup s = B.pairTransition C s)
    (map : SymbolMap σ (Matrix α (A.size * B.size * C.size) (A.size * B.size * C.size))) :
    ∃ out, (A.joint B left).pairTransitions C symbols map = .ok out ∧
      A.pairTransitions (B.joint C right) symbols
          (map.map fun M => M.cast (Nat.mul_assoc ..) (Nat.mul_assoc ..)) =
        .ok (out.map fun M => M.cast (Nat.mul_assoc ..) (Nat.mul_assoc ..)) := by
  induction symbols generalizing map with
  | nil => exact ⟨map, rfl, rfl⟩
  | cons s symbols ih =>
    have hs := known s (List.mem_cons_self ..)
    obtain ⟨M, hM, hM'⟩ := hs.1.exists_pairTransition_assoc assoc same hs.2
      (hleft s (List.mem_cons_self ..)) (hright s (List.mem_cons_self ..))
    obtain ⟨out, hout, hout'⟩ := ih (fun t ht => known t (List.mem_cons_of_mem _ ht))
      (fun t ht => hleft t (List.mem_cons_of_mem _ ht))
      (fun t ht => hright t (List.mem_cons_of_mem _ ht)) (map.insert s M)
    -- both maps take the symbol at the same moment, which keeps their keys in one order.
    refine ⟨out, ?_, ?_⟩
    · rw [pairTransitions_cons, hM]
      exact hout
    · rw [SymbolMap.map_insert] at hout'
      rw [pairTransitions_cons, hM']
      exact hout'

omit [DecidableEq σ] in
/-- The triples of states are numbered alike. So the three products of vectors are equal as they
are, and only the type has to be changed from one number of states to the other. -/
theorem joint_assoc (transitions : SymbolMap σ (Matrix α (A.size * B.size * C.size)
      (A.size * B.size * C.size))) :
    (A.joint B left).joint C transitions = A.joint (B.joint C right)
      (transitions.map fun M => M.cast (Nat.mul_assoc ..) (Nat.mul_assoc ..)) := by
  refine (eq_of_cast (Nat.mul_assoc A.size B.size C.size) _ _ _).trans ?_
  simp only [kronVec_assoc assoc, joint, same]

end

/-! ## All together -/

/-- **The product is associative on the nose.** Where three automata know all symbols of an alphabet
and the product of weights is associative, all products exist, and the two products of all three are
the same automaton: the same states, vectors, symbols in the same order, and matrices. So the triple
of the states `p`, `q` and `r` has the same number in both, and there it has the weights of the
triple. -/
theorem product_assoc (A B C : WeightedAutomaton σ α) (alphabet : List σ)
    (assoc : ∀ x y z,
      A.weights.mul (A.weights.mul x y) z = A.weights.mul x (A.weights.mul y z))
    (same : B.weights = A.weights)
    (known : ∀ s ∈ alphabet,
      s ∈ A.transitions.keys ∧ s ∈ B.transitions.keys ∧ s ∈ C.transitions.keys) :
    ∃ AB BC P, A.product B alphabet = .ok AB ∧ B.product C alphabet = .ok BC ∧
      AB.product C alphabet = .ok P ∧ A.product BC alphabet = .ok P ∧
      P.transitions.keys = alphabet.eraseDups ∧
      ∀ (p : Fin A.size) (q : Fin B.size) (r : Fin C.size), ∃ i,
        i = (p.val * B.size + q.val) * C.size + r.val ∧
        i = p.val * BC.size + (q.val * C.size + r.val) ∧
        P.initial[i]? = some (A.weights.mul (A.initial.get p)
          (A.weights.mul (B.initial.get q) (C.initial.get r))) ∧
        P.final[i]? = some (A.weights.mul (A.final.get p)
          (A.weights.mul (B.final.get q) (C.final.get r))) := by
  obtain ⟨left, hleft, inLeft, -⟩ := exists_pairTransitions_eq_ok (A := A) (B := B) .empty
    fun s hs => ⟨(known s hs).1, (known s hs).2.1⟩
  obtain ⟨right, hright, inRight, -⟩ := exists_pairTransitions_eq_ok (A := B) (B := C) .empty
    fun s hs => (known s hs).2
  have shared : ∀ s ∈ alphabet, A.Share B s ∧ s ∈ C.transitions.keys := fun s hs =>
    ⟨⟨(known s hs).1, (known s hs).2.1⟩, (known s hs).2.2⟩
  obtain ⟨out, hout, hout'⟩ := pairTransitions_assoc assoc same shared inLeft inRight .empty
  have hAB : A.product B alphabet = .ok (A.joint B left) := by
    rw [product_eq_map, hleft]
    rfl
  have hBC : B.product C alphabet = .ok (B.joint C right) := by
    rw [product_eq_map, hright]
    rfl
  have hABC : (A.joint B left).product C alphabet = .ok ((A.joint B left).joint C out) := by
    rw [product_eq_map, hout]
    rfl
  have hABC' : A.product (B.joint C right) alphabet = .ok ((A.joint B left).joint C out) := by
    have hjoint : (A.joint B left).joint C out = A.joint (B.joint C right)
        (out.map fun M => M.cast (Nat.mul_assoc ..) (Nat.mul_assoc ..)) :=
      joint_assoc assoc same out
    have hpairs : A.pairTransitions (B.joint C right) alphabet .empty =
        .ok (out.map fun M => M.cast (Nat.mul_assoc ..) (Nat.mul_assoc ..)) := hout'
    rw [hjoint, product_eq_map, hpairs]
    rfl
  refine ⟨_, _, _, hAB, hBC, hABC, hABC', keys_of_product_eq_ok hABC, fun p q r => ?_⟩
  -- the state `(p, q)` of the first product and the state `r` make up the triple.
  refine ⟨Index.pair (Index.pair p q) r, rfl, ?_, ?_, ?_⟩
  · rw [← Index.cast_pair_pair p q r]
    rfl
  · rw [← assoc, ← get_kronVec_pair A.initial]
    exact getElem?_kronVec_pair _ C.initial (Index.pair p q) r
  · rw [← assoc, ← get_kronVec_pair A.final]
    exact getElem?_kronVec_pair _ C.final (Index.pair p q) r

/-- Words as weights, of which a longer path only collects more. Neither sums nor units obey a law,
and the product is not commutative. -/
def wordWeights : Weights (List Char) where
  zero := ['0']
  one := ['1']
  add x _ := x
  mul := (· ++ ·)
  same := (· == ·)

/-- An automaton whose weights are told apart by a letter. -/
def lettered (n : Nat) (letter : Char) (symbols : List Char) :
    WeightedAutomaton Char (List Char) where
  weights := wordWeights
  size := n
  initial := .ofFn fun i => [letter, Char.ofNat (48 + i)]
  final := .ofFn fun i => [Char.ofNat (48 + i), letter]
  transitions := .ofList (symbols.map fun s => (s, .ofFn fun i j =>
    [letter, Char.ofNat (48 + i), Char.ofNat (48 + j)]))

theorem product_assoc_lettered : ∃ AB BC P,
    (lettered 2 'p' ['a', 'b']).product (lettered 3 'q' ['b', 'a']) ['b', 'a', 'b'] = .ok AB ∧
    (lettered 3 'q' ['b', 'a']).product (lettered 2 'r' ['a', 'b', 'c']) ['b', 'a', 'b'] =
      .ok BC ∧
    AB.product (lettered 2 'r' ['a', 'b', 'c']) ['b', 'a', 'b'] = .ok P ∧
    (lettered 2 'p' ['a', 'b']).product BC ['b', 'a', 'b'] = .ok P ∧
    P.transitions.keys = ['b', 'a'] ∧
    P.initial[9]? = some ['p', '1', 'q', '1', 'r', '1'] := by
  have hknown : ∀ s ∈ ['b', 'a', 'b'], s ∈ (lettered 2 'p' ['a', 'b']).transitions.keys ∧
      s ∈ (lettered 3 'q' ['b', 'a']).transitions.keys ∧
      s ∈ (lettered 2 'r' ['a', 'b', 'c']).transitions.keys := by
    show ∀ s ∈ ['b', 'a', 'b'], s ∈ ['a', 'b'] ∧ s ∈ ['b', 'a'] ∧ s ∈ ['a', 'b', 'c']
    simp
  obtain ⟨AB, BC, P, hAB, hBC, hP, hP', hkeys, hindex⟩ := product_assoc
    (lettered 2 'p' ['a', 'b']) (lettered 3 'q' ['b', 'a']) (lettered 2 'r' ['a', 'b', 'c'])
    ['b', 'a', 'b'] (fun x y z => List.append_assoc x y z) rfl hknown
  obtain ⟨i, rfl, -, hinitial, -⟩ := hindex (1 : Fin 2) (1 : Fin 3) (1 : Fin 2)
  exact ⟨AB, BC, P, hAB, hBC, hP, hP', hkeys, hinitial⟩

end PathSum.WeightedAutomaton
