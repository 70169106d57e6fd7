import Mathlib.Data.List.FinRange
import Mathlib.Data.List.Perm.Subperm
import PathSum.Proofs.Regex.Building
import PathSum.Proofs.Regex.Matching
import PathSum.Proofs.Regex.Restriction
import PathSum.Regex.Edges

/-!
# What leaves a state

An automaton is joined from fragments by silent edges that leave the exits of fragments or new
states. An exit has no other edges, so no state gets more than two, and no state that reads gets
one. The entry of "at least once" is that of its operand and has edges into it; nothing here asks
what leads into a state.

* `Fragment.Leaving`: the two kinds of states.
* **`Fragment.Inside.leaving`**: what joining adds to the states of a fragment.
* `Fragment.Orderly.seq`, `alt`, `star`, `plus`: every way to join keeps the invariant.
* `Nfa.sparse_ofFragment`: edges in lists and edges in matrices.

**`outgoing_exact`** puts this together.
-/

namespace PathSum.Regex

namespace Fragment

variable {f g inner left right : Fragment} {lo s : Nat} {exits : List Nat}

/-! ## Edges of one state -/

/-- A state is left by silent edges to two states at most, or by edges that read and that lead to
one state. -/
inductive Leaving (f : Fragment) (s : Nat) : Prop where
  | silent (targets : List Nat) : targets.length ≤ 2 → (∀ t, (s, t) ∈ f.silent → t ∈ targets) →
      (∀ c t, (s, c, t) ∉ f.labelled) → Leaving f s
  | reading (a : Nat) : (∀ t, (s, t) ∉ f.silent) →
      (∀ c t, (s, c, t) ∈ f.labelled → t = a) → Leaving f s

/-- Nothing leaves a state. -/
structure Sink (f : Fragment) (s : Nat) : Prop where
  silent : ∀ t, (s, t) ∉ f.silent
  labelled : ∀ c t, (s, c, t) ∉ f.labelled

/-- A state that nothing leaves is left by no more than allowed. -/
theorem Sink.leaving (h : f.Sink s) : f.Leaving s :=
  .silent [] (Nat.zero_le 2) (fun t ht => absurd ht (h.silent t)) h.labelled

/-- With fewer edges a state is left by no more than before. The edges that are left still go to the
same few targets. -/
theorem Leaving.mono (h : f.Leaving s) (silent : ∀ t, (s, t) ∈ g.silent → (s, t) ∈ f.silent)
    (labelled : ∀ c t, (s, c, t) ∈ g.labelled → (s, c, t) ∈ f.labelled) : g.Leaving s := by
  cases h with
  | silent targets hlength hsilent hlabelled =>
    exact .silent targets hlength (fun t ht => hsilent t (silent t ht))
      fun c t ht => hlabelled c t (labelled c t ht)
  | reading a hsilent hlabelled =>
    exact .reading a (fun t ht => hsilent t (silent t ht))
      fun c t ht => hlabelled c t (labelled c t ht)

/-- No edge leaves a state that is not in the block. -/
theorem Within.sink (h : f.Within lo) (hs : s < lo ∨ f.next ≤ s) : f.Sink s where
  silent t ht := by
    have hblock := (h.silent_mem s t ht).1
    omega
  labelled c t ht := by
    have hblock := (h.labelled_mem s c t ht).1
    omega

/-! ## Joining -/

/-- What is kept while fragments are joined. -/
structure Orderly (f : Fragment) : Prop where
  start_ne : f.start ≠ f.accept
  sink : f.Sink f.accept
  leaving : ∀ s, f.Leaving s

/-- **Joining gives new edges to the exit only**, which had none. So no other state of the fragment
can get too many. -/
theorem Inside.leaving (inside : f.Inside g lo exits) (orderly : f.Orderly)
    (hexits : exits.length ≤ 2) (hs : lo ≤ s ∧ s < f.next) : g.Leaving s := by
  by_cases heq : s = f.accept
  · -- nothing left the exit before, so all its edges are new.
    subst heq
    refine .silent exits hexits (fun t ht => ?_) fun c t ht => ?_
    · have hold := inside.silent _ t hs.1 hs.2 ht
      exact (hold.resolve_left (orderly.sink.silent t)).2
    · exact orderly.sink.labelled c t (inside.labelled _ c t hs.1 hs.2 ht)
  · refine (orderly.leaving s).mono (fun t ht => ?_) fun c t => inside.labelled s c t hs.1 hs.2
    exact (inside.silent s t hs.1 hs.2 ht).resolve_right fun hexit => heq hexit.1

/-- A block without exits leaves its sinks alone. -/
theorem Inside.sink (inside : f.Inside g lo []) (h : f.Sink s) (hs : lo ≤ s ∧ s < f.next) :
    g.Sink s where
  silent t ht := by
    obtain hold | ⟨-, hexit⟩ := inside.silent s t hs.1 hs.2 ht
    · exact h.silent t hold
    · exact List.not_mem_nil hexit
  labelled c t ht := h.labelled c t (inside.labelled s c t hs.1 hs.2 ht)

theorem orderly_symbols (next : Nat) (chars : List Char) : (symbols next chars).Orderly where
  start_ne := Nat.ne_of_lt (Nat.lt_succ_self next)
  sink := ⟨fun _ => List.not_mem_nil,
    fun _ _ ht => Nat.succ_ne_self next (mem_labelled_symbols.mp ht).2.1⟩
  leaving _ := .reading (next + 1) (fun _ => List.not_mem_nil)
    fun _ _ ht => (mem_labelled_symbols.mp ht).2.2

theorem orderly_empty (next : Nat) : (empty next).Orderly where
  start_ne := Nat.ne_of_lt (Nat.lt_succ_self next)
  sink := by
    refine ⟨fun t ht => ?_, fun _ _ => List.not_mem_nil⟩
    simp only [empty, List.mem_singleton, Prod.mk.injEq] at ht
    omega
  leaving s := by
    refine .silent [next + 1] (Nat.le_succ 1) (fun t ht => ?_) fun _ _ => List.not_mem_nil
    simp only [empty, List.mem_singleton, Prod.mk.injEq] at ht
    exact List.mem_singleton.mpr ht.2

/-- The exit on the left gets its only edge, to the entry on the right. The exit of the sequence is
the one on the right, which keeps having none. -/
theorem Orderly.seq (hl : left.Within lo) (hr : right.Within left.next) (hleft : left.Orderly)
    (hright : right.Orderly) : (left.seq right).Orderly where
  start_ne := by
    have hstart := hl.start_mem
    have haccept := hr.accept_mem
    simp only [Fragment.seq]
    omega
  sink := (inside_seq_right hl).sink hright.sink hr.accept_mem
  leaving s := by
    -- a state of the left block, one of the right block, or none of either.
    obtain h | h | h : (lo ≤ s ∧ s < left.next) ∨ (left.next ≤ s ∧ s < right.next) ∨
        s < lo ∨ right.next ≤ s := by omega
    · exact (inside_seq_left hr).leaving hleft (Nat.le_succ 1) h
    · exact (inside_seq_right hl).leaving hright (Nat.zero_le 2) h
    · exact ((hl.seq hr).sink h).leaving

/-- Both exits get their only edge, to the new exit, and the new entry has two. -/
theorem Orderly.alt (hl : left.Within lo) (hr : right.Within left.next) (hleft : left.Orderly)
    (hright : right.Orderly) : (left.alt right).Orderly where
  start_ne := Nat.ne_of_lt (Nat.lt_succ_self right.next)
  sink := ⟨fun t ht => Nat.succ_ne_self _ ((alt_edges_of_new hl hr (Nat.le_succ _)).1 ht).1,
    fun c t => (alt_edges_of_new hl hr (Nat.le_succ _)).2 c⟩
  leaving s := by
    -- now there are new states behind both blocks, of which the entry has two edges.
    obtain h | h | h | h : (lo ≤ s ∧ s < left.next) ∨ (left.next ≤ s ∧ s < right.next) ∨
        right.next ≤ s ∨ s < lo := by omega
    · exact (inside_alt_left hr).leaving hleft (Nat.le_succ 1) h
    · exact (inside_alt_right hl).leaving hright (Nat.le_succ 1) h
    · refine .silent [left.start, right.start] (Nat.le_refl 2) (fun t ht => ?_)
        fun c t => (alt_edges_of_new hl hr h).2 c
      exact List.mem_pair.mpr ((alt_edges_of_new hl hr h).1 ht).2
    · exact ((hl.alt hr).sink (.inl h)).leaving

/-- The old exit and the new entry get two silent edges each, and the new exit has none. -/
theorem Orderly.star (hi : inner.Within lo) (hinner : inner.Orderly) : inner.star.Orderly where
  start_ne := Nat.ne_of_lt (Nat.lt_succ_self inner.next)
  sink := ⟨fun t ht => Nat.succ_ne_self _ ((star_edges_of_new hi (Nat.le_succ _)).1 ht).1,
    fun c t => (star_edges_of_new hi (Nat.le_succ _)).2 c⟩
  leaving s := by
    obtain h | h | h : (lo ≤ s ∧ s < inner.next) ∨ inner.next ≤ s ∨ s < lo := by omega
    · exact inside_star.leaving hinner (Nat.le_refl 2) h
    · refine .silent [inner.start, inner.next + 1] (Nat.le_refl 2) (fun t ht => ?_)
        fun c t => (star_edges_of_new hi h).2 c
      exact List.mem_pair.mpr ((star_edges_of_new hi h).1 ht).2
    · exact (hi.star.sink (.inl h)).leaving

/-- Nothing leaves the new exit of a "at least once". -/
theorem sink_plus (hi : inner.Within lo) (hs : inner.next ≤ s) : inner.plus.Sink s :=
  ⟨fun _ => (plus_edges_of_new hi hs).1, fun c _ => (plus_edges_of_new hi hs).2 c⟩

/-- The old exit gets two silent edges, back to the entry and on to the new exit. -/
theorem Orderly.plus (hi : inner.Within lo) (hinner : inner.Orderly) : inner.plus.Orderly where
  start_ne := Nat.ne_of_lt hi.start_mem.2
  sink := sink_plus hi (Nat.le_refl _)
  leaving s := by
    -- the entry is that of the operand and keeps its edges; only the exits differ.
    obtain h | h | h : (lo ≤ s ∧ s < inner.next) ∨ inner.next ≤ s ∨ s < lo := by omega
    · exact inside_plus.leaving hinner (Nat.le_refl 2) h
    · exact (sink_plus hi h).leaving
    · exact (hi.plus.sink (.inl h)).leaving

end Fragment

/-- **The fragment of every pattern is orderly**, by induction on the pattern. Each operator is one
of the ways to join. -/
theorem Pattern.orderly_fragment (alphabet : Alphabet Char) (pattern : Pattern) (next : Nat) :
    (pattern.fragment alphabet next).Orderly := by
  induction pattern generalizing next with
  | char | any | oneOf | noneOf => exact Fragment.orderly_symbols ..
  | seq left right ihl ihr =>
    exact (ihl next).seq (left.within_fragment alphabet next) (right.within_fragment alphabet _)
      (ihr _)
  | alt left right ihl ihr =>
    exact (ihl next).alt (left.within_fragment alphabet next) (right.within_fragment alphabet _)
      (ihr _)
  | star inner ih => exact (ih next).star (inner.within_fragment alphabet next)
  | plus inner ih => exact (ih next).plus (inner.within_fragment alphabet next)
  | opt inner ih =>
    exact (Fragment.orderly_empty next).alt (Fragment.within_empty next)
      (inner.within_fragment alphabet (next + 2)) (ih (next + 2))

/-! ## Matrices -/

/-- Places that are all in a list are no more than the list is long. This turns lists of targets
into numbers of matrix entries. -/
theorem countP_finRange_le {n : Nat} {q : Fin n → Bool} {places : List Nat}
    (h : ∀ i, q i = true → i.val ∈ places) : (List.finRange n).countP q ≤ places.length := by
  have hnodup : (((List.finRange n).filter q).map Fin.val).Nodup :=
    ((List.nodup_finRange n).filter q).map Fin.val_injective
  have hsub : ((List.finRange n).filter q).map Fin.val ⊆ places := by
    intro place hplace
    obtain ⟨i, hi, rfl⟩ := List.mem_map.mp hplace
    exact h i (List.mem_filter.mp hi).2
  rw [List.countP_eq_length_filter, ← List.length_map (f := Fin.val)]
  exact (hnodup.subperm hsub).length_le

namespace Nfa

variable {alphabet : Alphabet Char} {f : Fragment} {hstart : f.start < f.next}
  {haccept : f.accept < f.next}

/-- Silent edges that lead to listed states are no more than there are in the list. -/
theorem silentOut_ofFragment_le {s : Fin f.next} {targets : List Nat}
    (h : ∀ t, (s.val, t) ∈ f.silent → t ∈ targets) :
    (ofFragment alphabet f hstart haccept).silentOut s ≤ targets.length :=
  countP_finRange_le fun i hi => h i (silent_ofFragment_iff.mp hi)

theorem silentOut_ofFragment_eq_zero {s : Fin f.next} (h : ∀ t, (s.val, t) ∉ f.silent) :
    (ofFragment alphabet f hstart haccept).silentOut s = 0 := by
  have hnone : ∀ t, (s.val, t) ∈ f.silent → t ∈ ([] : List Nat) := fun t ht => absurd ht (h t)
  exact Nat.le_zero.mp (silentOut_ofFragment_le hnone)

/-- What holds of the edges of a fragment holds of the matrices of its automaton, since an entry is
set exactly if there is an edge for it. -/
theorem sparse_ofFragment (orderly : f.Orderly) :
    (ofFragment alphabet f hstart haccept).Sparse where
  start_ne_accept heq := orderly.start_ne (congrArg Fin.val heq)
  silentOut_accept := silentOut_ofFragment_eq_zero orderly.sink.silent
  not_reads_accept c t hread := orderly.sink.labelled c t (labelled_ofFragment_iff.mp hread).2
  silentOut_le s := by
    -- a state either has silent edges alone or reads to a single target.
    cases orderly.leaving s with
    | silent targets hlength hsilent =>
      exact Nat.le_trans (silentOut_ofFragment_le hsilent) hlength
    | reading a hsilent => exact silentOut_ofFragment_eq_zero hsilent ▸ Nat.zero_le 2
  silentOut_of_reads s c t hread := by
    have hedge := (labelled_ofFragment_iff.mp hread).2
    cases orderly.leaving s with
    | silent _ _ _ hlabelled => exact absurd hedge (hlabelled c t)
    | reading a hsilent => exact silentOut_ofFragment_eq_zero hsilent
  target_eq s c t c' t' hread hread' := by
    have hedge := (labelled_ofFragment_iff.mp hread).2
    have hedge' := (labelled_ofFragment_iff.mp hread').2
    cases orderly.leaving s with
    | silent _ _ _ hlabelled => exact absurd hedge (hlabelled c t)
    | reading a _ htarget =>
      exact Fin.ext ((htarget c t hedge).trans (htarget c' t' hedge').symm)

end Nfa

/-! ## All together -/

/-- **Few edges leave a state.** The walk over the table of an accepted pattern ends with an entry
and an exit that are among its states, and the automaton that is compiled has them for start and
accepting state. Nothing leaves the accepting state, which is not the start. At most two silent
edges leave a state; where a state has edges that read, it has no silent ones, and they all lead to
one state. All matrices have as many rows and columns as there are states, and there is one for each
symbol of the alphabet, in its order. -/
theorem outgoing_exact {limit : Nat} {text : String} {p : Pattern}
    (h : Pattern.parse limit text = .ok p) (alphabet : Alphabet Char) :
    ∃ root builder nfa,
      (∀ count, 2 * p.nodeTable.nodes.size ≤ count →
        p.nodeTable.steps alphabet count (.start p.nodeTable.root) = .ok ⟨[], [root], builder⟩) ∧
      (root.start < builder.next ∧ root.accept < builder.next ∧ root.start ≠ root.accept) ∧
      p.nodeTable.build alphabet = .ok nfa ∧ p.nodeTable.nfa? alphabet = some nfa ∧
      (nfa.size = builder.next ∧ nfa.start.val = root.start ∧ nfa.accept.val = root.accept) ∧
      nfa.Sparse ∧
      (AnyMatrix.of nfa.silent).shape = ⟨nfa.size, nfa.size⟩ ∧
      (∀ A ∈ nfa.labelled.values, (AnyMatrix.of A).shape = ⟨nfa.size, nfa.size⟩) ∧
      nfa.labelled.keys = alphabet.symbols ∧
      compileStages limit alphabet text = nfa.removeSilent.mapError .shape := by
  have within := p.within_fragment alphabet 0
  have orderly := p.orderly_fragment alphabet 0
  have hbuild := p.build_nodeTable alphabet
  refine ⟨(p.fragment alphabet 0).ports, Builder.empty.extend (p.fragment alphabet 0),
    .ofPattern alphabet p, fun _ => p.steps_nodeTable alphabet,
    ⟨within.start_mem.2, within.accept_mem.2, orderly.start_ne⟩, hbuild,
    p.nfa?_nodeTable alphabet, ⟨rfl, rfl, rfl⟩, Nfa.sparse_ofFragment orderly, rfl,
    fun _ _ => rfl, Nfa.keys_labelled_ofPattern alphabet p, compileStages_eq_removeSilent h hbuild⟩

/-- An entry that two repetitions lead back to. Of the edges into a state nothing is said; those
that leave this one read, and lead to one state. -/
theorem outgoing_exact_nested : ∃ p nfa, Pattern.parse 1 "([ab]+)*" = .ok p ∧
    p.nodeTable.build (.ofList ['b', 'a', 'b']) = .ok nfa ∧ nfa.size = 5 ∧ nfa.Sparse ∧
    nfa.labelled.keys = ['b', 'a'] := by
  have hparse : Pattern.parse 1 "([ab]+)*" =
      .ok (.star (.plus (.oneOf ⟨[('a', 'a'), ('b', 'b')]⟩))) := by rfl
  obtain ⟨_, _, nfa, -, -, hbuild, hnfa, -, hsparse, -, -, hkeys, -⟩ :=
    outgoing_exact hparse (.ofList ['b', 'a', 'b'])
  rw [Pattern.nfa?_nodeTable] at hnfa
  have hsize : nfa.size = 5 := (congrArg Nfa.size (Option.some.inj hnfa)).symm
  exact ⟨_, nfa, hparse, hbuild, hsize, hsparse, hkeys⟩

end PathSum.Regex
