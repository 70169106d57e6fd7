import PathSum.Proofs.Automaton.RunSums
import PathSum.Proofs.HiddenMarkov.StateSums

/-!
# Images of automata and models

A map from weights to weights that goes through sums and products (`Weights.Hom`) turns an automaton
into one with other weights, entry by entry, and so it turns a hidden Markov model. Nothing that the
two compute can tell whether the map came first or last.

* `Hom.map_sumOver`, `Hom.map_vecMul`: sums of products, hence the steps of a forward pass.
* `WeightedAutomaton.run_image`, `HiddenMarkov.forward_image`: the weight of a word in the image is
  the image of its weight, and the same symbols are unknown.
-/

namespace PathSum

universe u v

/-! ## Maps that go through sums and products -/

/-- A map from weights to weights that goes through sums and products. It need not keep anything
apart, so counts that are cut off are an image of exact ones. -/
structure Weights.Hom {α : Type u} {β : Type v} (w : Weights α) (w' : Weights β) (f : α → β) :
    Prop where
  map_zero : f w.zero = w'.zero
  map_add : ∀ a b, f (w.add a b) = w'.add (f a) (f b)
  map_mul : ∀ a b, f (w.mul a b) = w'.mul (f a) (f b)

namespace Weights

variable {α : Type u} {β : Type v} {w : Weights α} {w' : Weights β} {f : α → β} {m n : Nat}

/-- A map that goes through sums of two goes through all sums. -/
theorem Hom.map_sum (hf : w.Hom w' f) (items : List α) :
    f (w.sum items) = w'.sum (items.map f) := by
  rw [sum, sum, List.foldl_map, ← hf.map_zero]
  exact (List.foldl_hom f fun a b => (hf.map_add a b).symm).symm

theorem Hom.map_sumOver (hf : w.Hom w' f) (g : Fin n → α) :
    f (w.sumOver n g) = w'.sumOver n fun i => f (g i) := by
  rw [sumOver_eq_sum, hf.map_sum, List.map_ofFn, sumOver_eq_sum]
  rfl

/-- It goes through products of vectors, -/
theorem Hom.map_dot (hf : w.Hom w' f) (x y : Vector α n) :
    f (w.dot x y) = w'.dot (x.map f) (y.map f) := by
  simp only [dot, hf.map_sumOver, hf.map_mul, get_map]

/-- and through products with a matrix. -/
theorem Hom.map_vecMul (hf : w.Hom w' f) (x : Vector α m) (A : Matrix α m n) :
    (Matrix.vecMul w x A).map f = Matrix.vecMul w' (x.map f) (A.map f) := by
  apply ext_get
  intro j
  simp only [get_map, Matrix.get_vecMul, hf.map_sumOver, hf.map_mul, Matrix.entry_map]

end Weights

/-! ## Maps that are undone -/

section
variable {α : Type u} {β : Type v} {f : α → β} {g : β → α} {m n : Nat}

theorem map_comp_eq_id (inverse : ∀ x, g (f x) = x) :
    Vector.map g ∘ Vector.map f = (id : Vector α n → Vector α n) := by
  funext v
  simp [Function.comp_def, inverse]

theorem Matrix.map_comp_eq_id (inverse : ∀ x, g (f x) = x) :
    map g ∘ map f = (id : Matrix α m n → Matrix α m n) := by
  funext M
  apply ext_entry
  simp [inverse]

end

variable {σ α β : Type}

/-! ## Automata -/

namespace WeightedAutomaton

/-- The automaton with other weights, which `f` makes of the old ones. -/
@[reducible]
def image (A : WeightedAutomaton σ α) (w : Weights β) (f : α → β) : WeightedAutomaton σ β where
  weights := w
  size := A.size
  initial := A.initial.map f
  final := A.final.map f
  transitions := A.transitions.map (Matrix.map f)

/-- Other weights leave the symbols as they are. -/
theorem keys_image (A : WeightedAutomaton σ α) (w : Weights β) (f : α → β) :
    (A.image w f).transitions.keys = A.transitions.keys :=
  SymbolMap.keys_map ..

variable {A : WeightedAutomaton σ α} {w : Weights β} {f : α → β}

/-- Where `g` takes back what `f` does, the image of the image is the automaton itself. -/
theorem image_image {g : β → α} (inverse : ∀ x, g (f x) = x) :
    (A.image w f).image A.weights g = A := by
  have hvector (v : Vector α A.size) : (v.map f).map g = v := congrFun (map_comp_eq_id inverse) v
  simp only [image, SymbolMap.map_map, hvector, Matrix.map_comp_eq_id inverse]
  simp [SymbolMap.map]

variable [DecidableEq σ] {word : List σ}

/-- Every step of the forward pass goes through the map, so the pass does. -/
theorem forwardFrom_image (hf : A.weights.Hom w f) (v : Vector α A.size) :
    (A.image w f).forwardFrom (v.map f) word = (A.forwardFrom v word).map (Vector.map f) :=
  SymbolMap.foldlM_lookup_map hf.map_vecMul A.transitions v word

/-- The weight of a word in the image is the image of its weight. An unknown symbol is unknown to
both, and they report it alike. -/
theorem run_image (hf : A.weights.Hom w f) : (A.image w f).run word = (A.run word).map f := by
  have hforward : (A.image w f).forward word = (A.forward word).map (Vector.map f) :=
    forwardFrom_image hf A.initial
  rw [run, run, hforward]
  cases A.forward word with
  | error e => rfl
  | ok v =>
    show Except.ok (w.dot (v.map f) (A.final.map f)) = .ok (f (A.weights.dot v A.final))
    rw [hf.map_dot]

/-- Where the weights are the image of others under which the laws hold, a word of known symbols
weighs the image of the sum over its runs. -/
theorem exists_run_eq_image {g : β → α} (hg : w.Hom A.weights g) (inverse : ∀ x, g (f x) = x)
    (laws : w.PathLaws) (known : ∀ s ∈ word, s ∈ A.transitions.keys) :
    ∃ steps, (A.image w f).matrices word = .ok steps ∧
      A.run word = .ok (g ((A.image w f).pathSum steps)) := by
  rw [← A.keys_image w f] at known
  obtain ⟨steps, hsteps, hforward⟩ := exists_matrices_eq_ok known (A.image w f).initial
  have hrun : (A.image w f).run word = .ok ((A.image w f).pathSum steps) := by
    rw [run, forward, hforward, ← dot_foldl_vecMul laws]
    rfl
  have himage : ((A.image w f).image A.weights g).run word = ((A.image w f).run word).map g :=
    run_image hg
  rw [image_image inverse, hrun] at himage
  exact ⟨steps, hsteps, himage⟩

end WeightedAutomaton

/-! ## Hidden Markov models -/

namespace HiddenMarkov

/-- The model with other weights, which `f` makes of the old ones. -/
@[reducible]
def image (H : HiddenMarkov σ α) (w : Weights β) (f : α → β) : HiddenMarkov σ β where
  weights := w
  size := H.size
  transition := H.transition.map f
  emission := H.emission.map (Matrix.map f)
  initial := H.initial.map f
  final := H.final.map (Vector.map f)

/-- Other weights leave the symbols as they are. -/
theorem keys_image (H : HiddenMarkov σ α) (w : Weights β) (f : α → β) :
    (H.image w f).emission.keys = H.emission.keys :=
  SymbolMap.keys_map ..

variable {H : HiddenMarkov σ α} {w : Weights β} {f : α → β}

/-- Where `g` takes back what `f` does, the image of the image is the model itself. -/
theorem image_image {g : β → α} (inverse : ∀ x, g (f x) = x) :
    (H.image w f).image H.weights g = H := by
  have hvector (v : Vector α H.size) : (v.map f).map g = v := congrFun (map_comp_eq_id inverse) v
  have hmatrix : (H.transition.map f).map g = H.transition :=
    congrFun (Matrix.map_comp_eq_id inverse) H.transition
  simp only [image, SymbolMap.map_map, hvector, hmatrix, Matrix.map_comp_eq_id inverse,
    Option.map_map, map_comp_eq_id inverse]
  simp [SymbolMap.map]

/-- A step of the model goes through the map, also where it reads the diagonal only. -/
theorem step_image (hf : H.weights.Hom w f) (v : Vector α H.size) (E : Matrix α H.size H.size) :
    (H.step v E).map f = (H.image w f).step (v.map f) (E.map f) := by
  rw [step, hf.map_vecMul]
  congr 1
  apply ext_get
  intro i
  simp [hf.map_mul]

/-- And so does the sum at the end, with weights of ending and without. -/
theorem finish_image (hf : H.weights.Hom w f) (v : Vector α H.size) :
    f (H.finish v) = (H.image w f).finish (v.map f) := by
  unfold finish image
  cases H.final with
  | some final => exact hf.map_dot v final
  | none =>
    show f (H.weights.sum v.toList) = w.sum (v.map f).toList
    rw [hf.map_sum, Vector.toList_map]

variable [DecidableEq σ] {word : List σ}

/-- The weight of a word in the image is the image of its weight, with weights of ending or without.
-/
theorem forward_image (hf : H.weights.Hom w f) :
    (H.image w f).forward word = (H.forward word).map f := by
  have hpass := SymbolMap.foldlM_lookup_map (step_image hf) H.emission H.initial word
  rw [forward, forward, hpass]
  cases word.foldlM (fun v s => (H.emission.lookup s).map (H.step v)) H.initial with
  | error e => rfl
  | ok v =>
    show Except.ok ((H.image w f).finish (v.map f)) = .ok (f (H.finish v))
    rw [finish_image hf]

/-- Where the weights are the image of others under which the laws hold, a word of known symbols
weighs the image of the sum over the sequences of states. -/
theorem exists_forward_eq_image {g : β → α} (hg : w.Hom H.weights g) (inverse : ∀ x, g (f x) = x)
    (laws : w.PathLaws) (known : ∀ s ∈ word, s ∈ H.emission.keys) :
    ∃ shown, (H.image w f).matrices word = .ok shown ∧
      H.forward word = .ok (g ((H.image w f).pathSum shown)) := by
  rw [← H.keys_image w f] at known
  obtain ⟨shown, hshown⟩ := SymbolMap.exists_mapM_lookup_eq_ok known
  have hmatrices : (H.image w f).matrices word = .ok shown := hshown
  have hforward : (H.image w f).forward word = .ok ((H.image w f).pathSum shown) := by
    rw [forward_eq_map, hmatrices, ← finish_foldl_step laws]
    rfl
  have himage : ((H.image w f).image H.weights g).forward word =
      ((H.image w f).forward word).map g := forward_image hg
  rw [image_image inverse, hforward] at himage
  exact ⟨shown, hmatrices, himage⟩

end HiddenMarkov

end PathSum
