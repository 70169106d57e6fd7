import PathSum.Automaton.Basic
import PathSum.Proofs.Automaton.Forward
import PathSum.Proofs.Matrix.Boolean
import PathSum.Proofs.Matrix.Kronecker
import PathSum.SymbolMap.Ordered

/-!
# The synchronised product multiplies weights

The product of two automata over an alphabet reads a word with both of them at once. The invariant
of its forward pass is that the weights of the pairs of states are the Kronecker product of the
weights of the states.

* `exists_pairTransitions_eq_ok`, `pairTransitions_eq_error`: which matrices the product has, and
  which symbol it fails on.
* `toMap_pairTransitionsOver`: no map that keeps the order of insertion makes a difference.
* `forwardFrom_joint`: one symbol keeps the invariant, and so does a word.
* `synchronized_joint`: what follows for states, words and unknown symbols.
-/

namespace PathSum.WeightedAutomaton

variable {σ α : Type} [DecidableEq σ] {A B : WeightedAutomaton σ α} {alphabet word : List σ}

/-! ## The matrices of the product -/

/-- Both automata have a matrix for a symbol. -/
def Share (A B : WeightedAutomaton σ α) (s : σ) : Prop :=
  s ∈ A.transitions.keys ∧ s ∈ B.transitions.keys

instance (s : σ) : Decidable (A.Share B s) :=
  inferInstanceAs (Decidable (_ ∧ _))

theorem Share.exists_pairTransition {s : σ} (shared : A.Share B s) : ∃ M N,
    A.transitions.lookup s = .ok M ∧ B.transitions.lookup s = .ok N ∧
      A.pairTransition B s = .ok (M.kron A.weights N) := by
  obtain ⟨M, left⟩ := SymbolMap.mem_keys_iff.mp shared.1
  obtain ⟨N, right⟩ := SymbolMap.mem_keys_iff.mp shared.2
  rw [← SymbolMap.lookup_eq_ok_iff] at left right
  refine ⟨M, N, left, right, ?_⟩
  rw [pairTransition, left, right]
  rfl

theorem pairTransition_eq_error {s : σ} (missing : ¬ A.Share B s) :
    A.pairTransition B s = .error ⟨s⟩ := by
  rw [pairTransition]
  by_cases known : s ∈ A.transitions.keys
  · obtain ⟨M, left⟩ := SymbolMap.mem_keys_iff.mp known
    have right : s ∉ B.transitions.keys := fun h => missing ⟨known, h⟩
    rw [SymbolMap.lookup_eq_ok_iff.mpr left, SymbolMap.lookup_eq_error right]
    rfl
  · rw [SymbolMap.lookup_eq_error known]
    rfl

/-- Gives one symbol after the other its pair of matrices. -/
def pairTransitions (A B : WeightedAutomaton σ α) (alphabet : List σ)
    (map : SymbolMap σ (Matrix α (A.size * B.size) (A.size * B.size))) :
    Except (LookupError σ) (SymbolMap σ (Matrix α (A.size * B.size) (A.size * B.size))) :=
  alphabet.foldlM (fun map s => return map.insert s (← A.pairTransition B s)) map

variable {map : SymbolMap σ (Matrix α (A.size * B.size) (A.size * B.size))}

theorem pairTransitions_cons {s : σ} :
    A.pairTransitions B (s :: alphabet) map = A.pairTransition B s >>= fun M =>
      A.pairTransitions B alphabet (map.insert s M) := by
  rw [pairTransitions, List.foldlM_cons]
  cases A.pairTransition B s <;> rfl

/-- The symbols of the alphabet get their pairs of matrices, all others keep what they had. A symbol
that is listed again gets the same matrix again. -/
theorem exists_pairTransitions_eq_ok
    (map : SymbolMap σ (Matrix α (A.size * B.size) (A.size * B.size)))
    (shared : ∀ s ∈ alphabet, A.Share B s) :
    ∃ out, A.pairTransitions B alphabet map = .ok out ∧
      (∀ s ∈ alphabet, out.lookup s = A.pairTransition B s) ∧
      ∀ s, s ∉ alphabet → out.get? s = map.get? s := by
  induction alphabet generalizing map with
  | nil => exact ⟨map, rfl, nofun, fun _ _ => rfl⟩
  | cons t alphabet ih =>
    obtain ⟨M, N, -, -, hpair⟩ := (shared t (List.mem_cons_self ..)).exists_pairTransition
    obtain ⟨out, hout, hin, hother⟩ := ih (map.insert t (M.kron A.weights N))
      fun s hs => shared s (List.mem_cons_of_mem _ hs)
    refine ⟨out, ?_, fun s hs => ?_, fun s hs => ?_⟩
    · rw [pairTransitions_cons, hpair]
      exact hout
    · by_cases hrest : s ∈ alphabet
      · exact hin s hrest
      · -- a symbol that does not come again keeps the matrix of its last insertion.
        obtain rfl : s = t := (List.mem_cons.mp hs).resolve_right hrest
        rw [hpair, SymbolMap.lookup_eq_ok_iff, hother s hrest, SymbolMap.get?_insert, if_pos rfl]
    · rw [List.mem_cons, not_or] at hs
      obtain ⟨hne, hrest⟩ := hs
      rw [hother s hrest, SymbolMap.get?_insert, if_neg hne]

theorem pairTransitions_eq_error {s : σ}
    (missing : alphabet.find? (fun s => ¬ A.Share B s) = some s) :
    A.pairTransitions B alphabet map = .error ⟨s⟩ := by
  induction alphabet generalizing map with
  | nil => exact nomatch missing
  | cons t alphabet ih =>
    rw [pairTransitions_cons]
    by_cases shared : A.Share B t
    · obtain ⟨M, N, -, -, hpair⟩ := shared.exists_pairTransition
      rw [List.find?_cons_of_neg (by simpa using shared)] at missing
      rw [hpair]
      exact ih missing
    · rw [List.find?_cons_of_pos (by simpa using shared)] at missing
      obtain rfl := Option.some.inj missing
      rw [pairTransition_eq_error shared]
      rfl

/-- The same over maps of the kind `M`. -/
def pairTransitionsOver {μ : Type} (A B : WeightedAutomaton σ α)
    (M : OrderedMaps σ (Matrix α (A.size * B.size) (A.size * B.size)) μ) (alphabet : List σ)
    (m : μ) : Except (LookupError σ) μ :=
  alphabet.foldlM (fun m s => (A.pairTransition B s).map (M.insert m s)) m

/-- **The matrices of a product do not depend on the map that keeps them.** Over any documented map
the loop ends with the same matrices in the same order, or fails on the same symbol. -/
theorem toMap_pairTransitionsOver {μ : Type}
    {M : OrderedMaps σ (Matrix α (A.size * B.size) (A.size * B.size)) μ}
    (documented : M.Documented) (alphabet : List σ) (m : μ) :
    (A.pairTransitionsOver B M alphabet m).map documented.toMap =
      A.pairTransitions B alphabet (documented.toMap m) := by
  have hstep (map : SymbolMap σ (Matrix α (A.size * B.size) (A.size * B.size))) (s : σ) :
      (do return map.insert s (← A.pairTransition B s)) =
        (A.pairTransition B s).map (map.insert s) := by
    cases A.pairTransition B s <;> rfl
  rw [pairTransitionsOver, documented.toMap_foldlM_insert, pairTransitions]
  simp only [hstep]

/-- The automaton of pairs of states with given matrices. Its vectors are the products of those of
the two automata; the matrices are left open, because they are found symbol by symbol. -/
@[reducible]
def joint (A B : WeightedAutomaton σ α)
    (transitions : SymbolMap σ (Matrix α (A.size * B.size) (A.size * B.size))) :
    WeightedAutomaton σ α where
  weights := A.weights
  size := A.size * B.size
  initial := A.weights.kronVec A.initial B.initial
  final := A.weights.kronVec A.final B.final
  transitions

theorem product_eq_map : A.product B alphabet =
    (A.pairTransitions B alphabet .empty).map (A.joint B) := by
  rw [product]
  show (A.pairTransitions B alphabet .empty >>= _) = _
  cases A.pairTransitions B alphabet .empty <;> rfl

/-! ## Reading a word together -/

theorem forwardFrom_joint (laws : A.weights.CommSemiringLaws) (same : B.weights = A.weights)
    (shared : ∀ s ∈ alphabet, A.Share B s)
    (paired : ∀ s ∈ alphabet, map.lookup s = A.pairTransition B s)
    (inside : ∀ s ∈ word, s ∈ alphabet) (u : Vector α A.size) (v : Vector α B.size) :
    ∃ u' v', A.forwardFrom u word = .ok u' ∧ B.forwardFrom v word = .ok v' ∧
      (A.joint B map).forwardFrom (A.weights.kronVec u v) word =
        .ok (A.weights.kronVec u' v') := by
  induction word generalizing u v with
  | nil => exact ⟨u, v, rfl, rfl, rfl⟩
  | cons s word ih =>
    have hs := inside s (List.mem_cons_self ..)
    obtain ⟨M, N, left, right, hpair⟩ := (shared s hs).exists_pairTransition
    obtain ⟨u', v', hu, hv, hjoint⟩ := ih (fun t ht => inside t (List.mem_cons_of_mem _ ht))
      (Matrix.vecMul A.weights u M) (Matrix.vecMul B.weights v N)
    refine ⟨u', v', ?_, ?_, ?_⟩
    · rw [forwardFrom_cons, left]
      exact hu
    · rw [forwardFrom_cons, right]
      exact hv
    · have hstep : (A.joint B map).transitions.lookup s = .ok (M.kron A.weights N) :=
        (paired s hs).trans hpair
      -- one step of the product is a step of each automaton, by the mixed product.
      have hkron : Matrix.vecMul (A.joint B map).weights (A.weights.kronVec u v)
          (M.kron A.weights N) = A.weights.kronVec (Matrix.vecMul A.weights u M)
            (Matrix.vecMul B.weights v N) := by
        rw [same]
        exact Matrix.vecMul_kron laws u v M N
      rw [forwardFrom_cons, hstep]
      simp only [hkron]
      exact hjoint

/-- What is to hold of an automaton `P` that reads the words over an alphabet with both `A` and `B`
at once. State `p * B.size + q` of `P` is the pair of the states `p` and `q`. -/
structure Synchronized (A B : WeightedAutomaton σ α) (alphabet : List σ)
    (P : WeightedAutomaton σ α) : Prop where
  forward_eq : ∀ word, (∀ s ∈ word, s ∈ alphabet) → ∃ u v r,
    A.forward word = .ok u ∧ B.forward word = .ok v ∧ P.forward word = .ok r ∧
      ∀ (p : Fin A.size) (q : Fin B.size),
        r[p.val * B.size + q.val]? = some (A.weights.mul (u.get p) (v.get q))
  run_eq : ∀ word, (∀ s ∈ word, s ∈ alphabet) → ∃ x y,
    A.run word = .ok x ∧ B.run word = .ok y ∧ P.run word = .ok (A.weights.mul x y)
  unknown : ∀ word symbol, word.find? (· ∉ alphabet) = some symbol →
    P.forward word = .error ⟨symbol⟩ ∧ P.run word = .error ⟨symbol⟩

theorem synchronized_joint (laws : A.weights.CommSemiringLaws) (same : B.weights = A.weights)
    (shared : ∀ s ∈ alphabet, A.Share B s)
    (paired : ∀ s ∈ alphabet, map.lookup s = A.pairTransition B s)
    (others : ∀ s, s ∉ alphabet → map.get? s = none) :
    A.Synchronized B alphabet (A.joint B map) where
  forward_eq word inside := by
    obtain ⟨u, v, hu, hv, hjoint⟩ :=
      forwardFrom_joint laws same shared paired inside A.initial B.initial
    exact ⟨u, v, A.weights.kronVec u v, hu, hv, hjoint, getElem?_kronVec_pair u v⟩
  run_eq word inside := by
    obtain ⟨u, v, hu, hv, hjoint⟩ :=
      forwardFrom_joint laws same shared paired inside A.initial B.initial
    refine ⟨A.weights.dot u A.final, B.weights.dot v B.final, ?_, ?_, ?_⟩
    · rw [run, forward, hu]
      rfl
    · rw [run, forward, hv]
      rfl
    · rw [run, forward, hjoint, same, ← dot_kronVec laws]
      rfl
  unknown word symbol first := by
    -- the product knows the symbols of the alphabet and no others, so it misses the first one
    -- outside.
    have hkeys (s : σ) : s ∈ (A.joint B map).transitions.keys ↔ s ∈ alphabet := by
      constructor
      · intro hs
        obtain ⟨M, hM⟩ := SymbolMap.mem_keys_iff.mp hs
        by_contra hnot
        rw [others s hnot] at hM
        cases hM
      · intro hs
        obtain ⟨M, N, -, -, hpair⟩ := (shared s hs).exists_pairTransition
        have hlookup := (paired s hs).trans hpair
        exact SymbolMap.mem_keys_iff.mpr ⟨_, SymbolMap.lookup_eq_ok_iff.mp hlookup⟩
    have herror : (A.joint B map).forward word = .error ⟨symbol⟩ := by
      rw [forward_eq_error_iff]
      simpa only [hkeys] using first
    exact ⟨herror, run_eq_error_iff.mpr herror⟩

/-- Over a shared alphabet there is a product. Its map has a matrix for each symbol of the alphabet
and for no others, which is all that is needed to run it. -/
theorem exists_product_eq_ok (laws : A.weights.CommSemiringLaws) (same : B.weights = A.weights)
    (shared : ∀ s ∈ alphabet, A.Share B s) :
    ∃ P, A.product B alphabet = .ok P ∧ P.size = A.size * B.size ∧
      A.Synchronized B alphabet P := by
  obtain ⟨map, hmap, paired, others⟩ := exists_pairTransitions_eq_ok .empty shared
  refine ⟨A.joint B map, ?_, rfl, synchronized_joint laws same shared paired fun s hs => ?_⟩
  · rw [product_eq_map, hmap]
    rfl
  · rw [others s hs, SymbolMap.get?_empty]

/-- The product fails on the first symbol of the alphabet that one of the automata lacks. It does
not matter which of the two it is, or whether it is both. -/
theorem product_eq_error_iff {e : LookupError σ} :
    A.product B alphabet = .error e ↔
      alphabet.find? (fun s => ¬ A.Share B s) = some e.symbol := by
  rw [product_eq_map]
  constructor
  · intro h
    cases hfind : alphabet.find? (fun s => ¬ A.Share B s) with
    | none =>
      have shared : ∀ s ∈ alphabet, A.Share B s := by simpa using hfind
      obtain ⟨map, hmap, -⟩ := exists_pairTransitions_eq_ok .empty shared
      rw [hmap] at h
      exact nomatch h
    | some s =>
      rw [pairTransitions_eq_error hfind] at h
      cases h
      rfl
  · intro h
    rw [pairTransitions_eq_error h]
    rfl

/-! ## Boolean products -/

/-- An automaton that reads with two others at once accepts what both of them accept. -/
theorem Synchronized.accepts_iff {A B P : WeightedAutomaton σ Bool}
    (h : A.Synchronized B alphabet P) (boolean : A.weights = .boolean)
    (inside : ∀ s ∈ word, s ∈ alphabet) :
    P.accepts word = .ok true ↔ A.accepts word = .ok true ∧ B.accepts word = .ok true := by
  obtain ⟨x, y, hA, hB, hP⟩ := h.run_eq word inside
  rw [accepts, accepts, accepts, hA, hB, hP, boolean]
  simp only [Except.ok.injEq]
  exact boolean_mul_iff

/-! ## All together -/

/-- **The product multiplies weights.** Over commutative weights and an alphabet that both automata
know, the product exists. The weight of a pair of states, after a word over the alphabet, is the
product of the weights of the two states, and the weight of the word is the product of its two
weights. A symbol outside the alphabet is an error, and so is, when the product is made, a symbol
of the alphabet that one of the automata lacks. With Boolean weights the product accepts what both
automata accept. -/
theorem product_exact (alphabet : List σ) :
    (∀ A B : WeightedAutomaton σ α, A.weights.CommSemiringLaws → B.weights = A.weights →
      (∀ s ∈ alphabet, A.Share B s) →
      ∃ P, A.product B alphabet = .ok P ∧ P.size = A.size * B.size ∧
        A.Synchronized B alphabet P) ∧
    (∀ (A B : WeightedAutomaton σ α) (e : LookupError σ), A.product B alphabet = .error e ↔
      alphabet.find? (fun s => ¬ A.Share B s) = some e.symbol) ∧
    ∀ A B : WeightedAutomaton σ Bool, A.weights = .boolean → B.weights = .boolean →
      (∀ s ∈ alphabet, A.Share B s) →
      ∃ P, A.product B alphabet = .ok P ∧ ∀ word, (∀ s ∈ word, s ∈ alphabet) →
        (P.accepts word = .ok true ↔ A.accepts word = .ok true ∧ B.accepts word = .ok true) := by
  refine ⟨fun A B laws same shared => exists_product_eq_ok laws same shared,
    fun A B e => product_eq_error_iff, fun A B left right shared => ?_⟩
  have laws : A.weights.CommSemiringLaws := left ▸ Weights.boolean_laws
  obtain ⟨P, hP, -, synchronized⟩ := exists_product_eq_ok laws (right.trans left.symm) shared
  exact ⟨P, hP, fun word inside => synchronized.accepts_iff left inside⟩

/-- Accepts the words with an odd number of `a`s, and reads `b` and `c` besides. -/
def oddlyMany : WeightedAutomaton Char Bool where
  weights := .boolean
  size := 2
  initial := #v[true, false]
  final := #v[false, true]
  transitions := .ofList [('a', .ofFn fun i j => i ≠ j), ('b', .identity .boolean 2),
    ('c', .identity .boolean 2)]

/-- Accepts the words with an `a`, and reads `b` besides. -/
def atLeastOne : WeightedAutomaton Char Bool where
  weights := .boolean
  size := 2
  initial := #v[true, false]
  final := #v[false, true]
  transitions := .ofList [('a', .ofFn fun _ j => j = 1), ('b', .identity .boolean 2)]

theorem product_exact_oddlyMany : ∃ P, oddlyMany.product atLeastOne ['a', 'a'] = .ok P ∧
    P.run ['a', 'a', 'a'] = .ok true ∧ P.run ['a', 'b'] = .error ⟨'b'⟩ ∧
    oddlyMany.product atLeastOne ['a', 'c'] = .error ⟨'c'⟩ := by
  have both : oddlyMany.Share atLeastOne 'a' := by decide
  have shared : ∀ s ∈ ['a', 'a'], oddlyMany.Share atLeastOne s := by simpa using both
  obtain ⟨hproduct, -, -⟩ := product_exact (α := Bool) ['a', 'a']
  obtain ⟨P, hP, -, synchronized⟩ :=
    hproduct oddlyMany atLeastOne Weights.boolean_laws rfl shared
  obtain ⟨x, y, hx, hy, hrun⟩ := synchronized.run_eq ['a', 'a', 'a'] (by simp)
  obtain ⟨-, hb⟩ := synchronized.unknown ['a', 'b'] 'b' (by decide)
  have hxt : x = true := by
    have h : oddlyMany.run ['a', 'a', 'a'] = .ok true := by decide
    exact Except.ok.inj (hx.symm.trans h)
  have hyt : y = true := by
    have h : atLeastOne.run ['a', 'a', 'a'] = .ok true := by decide
    exact Except.ok.inj (hy.symm.trans h)
  obtain ⟨-, herror, -⟩ := product_exact (α := Bool) ['a', 'c']
  refine ⟨P, hP, ?_, hb, (herror oddlyMany atLeastOne ⟨'c'⟩).mpr (by decide)⟩
  rw [hrun, hxt, hyt]
  rfl

end PathSum.WeightedAutomaton
