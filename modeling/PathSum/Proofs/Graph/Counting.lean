import PathSum.Graph.Traversal
import PathSum.Graph.Walks
import PathSum.Proofs.Matrix.Saturation

/-!
# Counts of walks are exact

Up to the largest count, the powers of the multiplicities of a graph say how many walks there are,
where a walk is a sequence of edges of the list, and edges that are listed twice are two edges.

* `exists_foldlM_addEdge`, `multiplicity_eq_ok`: an entry of the matrix holds how many edges join
  its two vertices.
* `walkCount_succ`, `sum_edgeCount_mul`: a walk goes first along some edge, and the edges can be
  taken together by the vertex that they lead to.
* `walkCount_eq_pow`: hence the walks are counted by the exact power.
-/

namespace PathSum.Graph

variable {α β : Type} {n : Nat}

/-! ## Edges one after the other -/

theorem vertex_of_lt {i : Nat} (h : i < n) : vertex n i = .ok ⟨i, h⟩ :=
  dif_pos h

/-- An edge goes from a vertex to another. -/
def Edge.Joins (i j : Nat) (edge : Edge β) : Prop :=
  edge.source = i ∧ edge.target = j

instance (i j : Nat) (edge : Edge β) : Decidable (edge.Joins i j) :=
  inferInstanceAs (Decidable (_ ∧ _))

/-- Edges that fit are taken into the entries that they join, in the order of the list. This is said
for any way to take an edge in, so that it holds for relations and for counts. -/
theorem exists_foldlM_addEdge (join : α → β → α) {edges : List (Edge β)}
    (inside : ∀ e ∈ edges, e.source < n ∧ e.target < n) (A : Matrix α n n) :
    ∃ out, edges.foldlM (addEdge join) A = .ok out ∧ ∀ i j : Fin n,
      out.entry i j =
        (edges.filter (Edge.Joins i j ·)).foldl (fun x e => join x e.label) (A.entry i j) := by
  induction edges generalizing A with
  | nil => exact ⟨A, rfl, fun _ _ => rfl⟩
  | cons e edges ih =>
    obtain ⟨hsource, htarget⟩ := inside e (List.mem_cons_self ..)
    obtain ⟨out, hout, hentry⟩ := ih (fun d hd => inside d (List.mem_cons_of_mem _ hd))
      (A.set ⟨e.source, hsource⟩ ⟨e.target, htarget⟩
        (join (A.entry ⟨e.source, hsource⟩ ⟨e.target, htarget⟩) e.label))
    refine ⟨out, ?_, fun i j => ?_⟩
    · rw [List.foldlM_cons, addEdge, vertex_of_lt hsource, vertex_of_lt htarget]
      exact hout
    · rw [hentry, Matrix.entry_set, List.filter_cons]
      -- the first edge changes one entry, and only there it is among the edges that count.
      by_cases h : e.Joins i j
      · obtain ⟨hi, hj⟩ := h
        obtain rfl : i = ⟨e.source, hsource⟩ := Fin.ext hi.symm
        obtain rfl : j = ⟨e.target, htarget⟩ := Fin.ext hj.symm
        simp [Edge.Joins]
      · have hne : ¬ (i = ⟨e.source, hsource⟩ ∧ j = ⟨e.target, htarget⟩) := by
          rintro ⟨rfl, rfl⟩
          exact h ⟨rfl, rfl⟩
        rw [if_neg hne]
        simp [h]

variable {edges : List (Edge Unit)}

/-- How many edges go from a vertex to another. -/
def edgeCount (edges : List (Edge Unit)) (i j : Nat) : Nat :=
  edges.countP (Edge.Joins i j ·)

theorem foldl_saturatingAdd_one {γ : Type} (items : List γ) (x : Nat) :
    items.foldl (fun count _ => saturatingAdd count 1) (saturate x) =
      saturate (x + items.length) := by
  induction items generalizing x with
  | nil => rfl
  | cons _ items ih =>
    have hone : saturatingAdd (saturate x) 1 = saturate (x + 1) := (saturate_add x 1).symm
    rw [List.foldl_cons, hone, ih, List.length_cons, Nat.add_assoc, Nat.add_comm 1]

/-- How many edges join each two vertices. -/
def edgeCounts (n : Nat) (edges : List (Edge Unit)) : Matrix.OfSize n n ℕ :=
  .of fun i j => edgeCount edges i j

/-- The multiplicity of an edge is how often it is listed, up to the largest count. The matrix is
the exact one with all its entries cut off. -/
theorem multiplicity_eq_ok (inside : ∀ e ∈ edges, e.source < n ∧ e.target < n) :
    multiplicity n edges = .ok (.saturated (edgeCounts n edges)) := by
  obtain ⟨A, hA, hentry⟩ :=
    exists_foldlM_addEdge (fun count _ => saturatingAdd count 1) inside (.filled n n 0)
  refine hA.trans (congrArg Except.ok (Matrix.ext_entry fun i j => ?_))
  calc A.entry i j
      = (edges.filter (Edge.Joins i j ·)).foldl (fun count _ => saturatingAdd count 1)
          (saturate 0) := by
        rw [hentry, Matrix.entry_filled]
        rfl
    _ = saturate (edgeCount edges i j) := by
        rw [foldl_saturatingAdd_one, Nat.zero_add, edgeCount, List.countP_eq_length_filter]
    _ = (Matrix.saturated (edgeCounts n edges)).entry i j := by
        rw [Matrix.entry_saturated]
        rfl

/-! ## Walks -/

/-- A sum over the targets of a vertex, edge by edge. An edge that is listed several times has as
many terms. -/
theorem sum_edgeCount_mul (inside : ∀ e ∈ edges, e.source < n ∧ e.target < n) (i : Nat)
    (f : Nat → Nat) :
    ∑ m : Fin n, edgeCount edges i m * f m =
      (edges.map fun e => if e.source = i then f e.target else 0).sum := by
  induction edges with
  | nil => simp [edgeCount]
  | cons e edges ih =>
    obtain ⟨-, htarget⟩ := inside e (List.mem_cons_self ..)
    -- one edge ends at one vertex, so one term of the sum is left of it.
    have hedge : ∑ m : Fin n, (if e.Joins i m then 1 else 0) * f m =
        if e.source = i then f e.target else 0 := by
      rw [Finset.sum_eq_single ⟨e.target, htarget⟩]
      · simp [Edge.Joins]
      · intro m _ hm
        have hne : ¬ e.Joins i m := fun h => hm (Fin.ext h.2.symm)
        rw [if_neg hne, Nat.zero_mul]
      · intro h
        exact absurd (Finset.mem_univ _) h
    have hrest := ih fun d hd => inside d (List.mem_cons_of_mem _ hd)
    have hcons (m : Nat) : edgeCount (e :: edges) i m =
        edgeCount edges i m + if e.Joins i m then 1 else 0 := by
      simp [edgeCount, List.countP_cons]
    simp only [hcons, Nat.add_mul, Finset.sum_add_distrib, hrest, hedge, List.map_cons,
      List.sum_cons]
    exact Nat.add_comm ..

theorem walkCount_zero (i j : Nat) : walkCount edges 0 i j = if i = j then 1 else 0 := by
  simp [walkCount, sequences, leads]

/-- The first edge of a walk is any edge from where it starts. The rest is a walk of one edge less,
from where that edge ends. -/
theorem walkCount_succ (len i j : Nat) :
    walkCount edges (len + 1) i j =
      (edges.map fun e => if e.source = i then walkCount edges len e.target j else 0).sum := by
  have hfirst (e : Fin edges.length) :
      (sequences edges.length len).countP (fun rest => leads edges i (e :: rest) j) =
        if edges[e.val].source = i then walkCount edges len edges[e.val].target j else 0 := by
    by_cases h : edges[e.val].source = i <;> simp [leads, walkCount, h]
  rw [← Fin.sum_univ_fun_getElem]
  simp only [← hfirst]
  rw [walkCount, sequences, List.countP_flatMap, Fin.sum_univ_def]
  simp only [Function.comp_def, List.countP_map]

/-- The exact power counts the walks. The induction is on their length, with the first edge as the
first factor. -/
theorem walkCount_eq_pow (inside : ∀ e ∈ edges, e.source < n ∧ e.target < n) (len : Nat)
    (i j : Fin n) : walkCount edges len i j = (edgeCounts n edges ^ len) i j := by
  induction len generalizing i with
  | zero => simp [walkCount_zero, Matrix.one_apply, Fin.ext_iff]
  | succ len ih =>
    calc walkCount edges (len + 1) i j
        = ∑ m : Fin n, edgeCount edges i m * walkCount edges len m j := by
          rw [walkCount_succ, sum_edgeCount_mul inside i fun m => walkCount edges len m j]
      _ = ∑ m, edgeCounts n edges i m * (edgeCounts n edges ^ len) m j :=
          Finset.sum_congr rfl fun m _ => by rw [ih]; rfl
      _ = (edgeCounts n edges ^ (len + 1)) i j := by rw [pow_succ', Matrix.mul_apply]

/-! ## All together -/

/-- **Walk counts are exact up to the largest count.** A graph whose edges join vertices below `n`
has a matrix, and an entry of the count of its walks is the number of sequences of edges that lead
from one vertex to the other, or the largest count if there are more. The same holds of the powers
of all square matrices of counts: no sum, product or square on the way loses more than the result
does. -/
theorem countWalks_exact :
    (∀ (n : Nat) (edges : List (Edge Unit)), (∀ e ∈ edges, e.source < n ∧ e.target < n) →
      ∃ A : Matrix UInt64 n n, multiplicity n edges = .ok A ∧ ∀ len, ∃ C : Matrix UInt64 n n,
        (AnyMatrix.of A).countWalks len = .ok (.of C) ∧ ∀ i j : Fin n,
          (C.entry i j).toNat = min (walkCount edges len i j) (2 ^ 64 - 1)) ∧
    ∀ (n : Nat) (A : Matrix UInt64 n n) (k : Nat), ∃ P : Matrix UInt64 n n,
      (AnyMatrix.of A).pow .counting k = .ok (.of P) ∧ ∀ i j : Fin n,
        (P.entry i j).toNat = min ((A.exact ^ k) i j) (2 ^ 64 - 1) := by
  constructor
  · intro n edges inside
    -- the matrix that was built is the exact one, cut off; so are its powers.
    refine ⟨.saturated (edgeCounts n edges), multiplicity_eq_ok inside, fun len => ?_⟩
    refine ⟨_, AnyMatrix.countWalks_of .., fun i j => ?_⟩
    rw [countWalks, Matrix.pow_saturated, Matrix.entry_saturated, toNat_saturate,
      walkCount_eq_pow inside]
    rfl
  · intro n A k
    refine ⟨_, AnyMatrix.pow_of .., fun i j => ?_⟩
    rw [Matrix.pow_counting, Matrix.entry_saturated, toNat_saturate]
    rfl

/-- Two edges from vertex `0` to vertex `1`, and a loop at vertex `1`. -/
def doubled : List (Edge Unit) :=
  [⟨0, 1, ()⟩, ⟨0, 1, ()⟩, ⟨1, 1, ()⟩]

theorem countWalks_exact_doubled :
    (∃ A C : Matrix UInt64 2 2, multiplicity 2 doubled = .ok A ∧
      (AnyMatrix.of A).countWalks 3 = .ok (.of C) ∧ (C.entry 0 1).toNat = 2) ∧
    ∃ P : Matrix UInt64 1 1,
      (AnyMatrix.of (.filled 1 1 0x8000000000000000)).pow .counting 2 = .ok (.of P) ∧
      (P.entry 0 0).toNat = 2 ^ 64 - 1 := by
  obtain ⟨hwalks, hpow⟩ := countWalks_exact
  constructor
  · obtain ⟨A, hA, hlen⟩ := hwalks 2 doubled (by decide)
    obtain ⟨C, hC, hentry⟩ := hlen 3
    refine ⟨A, C, hA, hC, (hentry 0 1).trans ?_⟩
    decide
  · obtain ⟨P, hP, hentry⟩ := hpow 1 (.filled 1 1 0x8000000000000000) 2
    refine ⟨P, hP, (hentry 0 0).trans ?_⟩
    rw [pow_two, Matrix.mul_apply]
    simp [Matrix.exact]

end PathSum.Graph
