import PathSum.Regex.Nfa

/-!
# What fragments read

The words that a fragment reads on the way from its entry to its exit, for each way in which
fragments are put together.

* **`Within`**: all edges of a fragment join states of one block of numbers, so fragments that are
  made one after the other share no state.
* **`Path.stay`, `Path.leave`**: what a path of a larger fragment does inside a smaller one. If
  nothing but silent edges from the exit leads on, the path reads a word of the smaller fragment
  before it goes on. An entry may well have edges into it (the entry of "at least once" has), so a
  path may come back to the smaller fragment; `Path.leave` follows it through all rounds.
* **`accepts_seq_iff`, `accepts_alt_iff`, `accepts_star_iff`, `accepts_plus_iff`**: one equivalence
  for each way to join fragments.
-/

namespace PathSum.Regex

namespace Fragment

variable {f g inner left right : Fragment} {lo s t : Nat} {word : List Char}

/-! ## Paths of a fragment -/

/-- A word can be read on the way from one state to another. -/
inductive Path (f : Fragment) : Nat → List Char → Nat → Prop where
  | nil (s : Nat) : Path f s [] s
  | silent {s t u : Nat} {word : List Char} :
      (s, t) ∈ f.silent → Path f t word u → Path f s word u
  | read {s t u : Nat} {c : Char} {word : List Char} :
      (s, c, t) ∈ f.labelled → Path f t word u → Path f s (c :: word) u

/-- A word is read from the entry to the exit. -/
def Accepts (f : Fragment) (word : List Char) : Prop :=
  f.Path f.start word f.accept

/-- Ways are put together: what is read on both of them is read on the whole way. -/
theorem Path.append {u v : List Char} {r : Nat} (first : f.Path r u s) (second : f.Path s v t) :
    f.Path r (u ++ v) t := by
  induction first with
  | nil => exact second
  | silent hedge _ ih => exact .silent hedge (ih second)
  | read hedge _ ih => exact .read hedge (ih second)

/-- More edges take no way away. So a way inside a fragment is one in everything that is built
around it. -/
theorem Path.mono (path : f.Path s word t) (silent : f.silent ⊆ g.silent)
    (labelled : f.labelled ⊆ g.labelled) : g.Path s word t := by
  induction path with
  | nil => exact .nil _
  | silent hedge _ ih => exact .silent (silent hedge) ih
  | read hedge _ ih => exact .read (labelled hedge) ih

/-! ## Blocks of states -/

/-- Entry, exit and edges of a fragment are states from `lo` on. -/
structure Within (f : Fragment) (lo : Nat) : Prop where
  start_mem : lo ≤ f.start ∧ f.start < f.next
  accept_mem : lo ≤ f.accept ∧ f.accept < f.next
  silent_mem : ∀ s t, (s, t) ∈ f.silent → (lo ≤ s ∧ s < f.next) ∧ lo ≤ t ∧ t < f.next
  labelled_mem : ∀ s c t, (s, c, t) ∈ f.labelled → (lo ≤ s ∧ s < f.next) ∧ lo ≤ t ∧ t < f.next

theorem Within.lt_next (h : f.Within lo) : lo < f.next :=
  Nat.lt_of_le_of_lt h.start_mem.1 h.start_mem.2

/-- Edges stay among the states of the fragment. The edges that are added later leave its block only
where its operator says so. -/
theorem Within.silent_lt (h : f.Within lo) (s t : Nat) (hedge : (s, t) ∈ f.silent) :
    s < f.next ∧ t < f.next :=
  ⟨(h.silent_mem s t hedge).1.2, (h.silent_mem s t hedge).2.2⟩

theorem Within.labelled_lt (h : f.Within lo) (s : Nat) (c : Char) (t : Nat)
    (hedge : (s, c, t) ∈ f.labelled) : s < f.next ∧ t < f.next :=
  ⟨(h.labelled_mem s c t hedge).1.2, (h.labelled_mem s c t hedge).2.2⟩

/-- Every edge of `g` that leaves a state of the block of `f` is an edge of `f`, or a silent edge
from the exit of `f` that is one of `exits`. -/
structure Inside (f g : Fragment) (lo : Nat) (exits : List Nat) : Prop where
  silent : ∀ s t, lo ≤ s → s < f.next → (s, t) ∈ g.silent →
    (s, t) ∈ f.silent ∨ (s = f.accept ∧ t ∈ exits)
  labelled : ∀ s c t, lo ≤ s → s < f.next → (s, c, t) ∈ g.labelled → (s, c, t) ∈ f.labelled

/-- A way that starts in the block of `f` stays there if nothing leads out of the block, and then it
uses only edges of `f`. -/
theorem Path.stay (path : g.Path s word t) (within : f.Within lo) (inside : f.Inside g lo [])
    (hs : lo ≤ s ∧ s < f.next) : f.Path s word t := by
  induction path with
  | nil => exact .nil _
  | silent hedge _ ih =>
    rcases inside.silent _ _ hs.1 hs.2 hedge with hf | ⟨_, hexit⟩
    · exact .silent hf (ih (within.silent_mem _ _ hf).2)
    · exact absurd hexit List.not_mem_nil
  | read hedge _ ih =>
    have hf := inside.labelled _ _ _ hs.1 hs.2 hedge
    exact .read hf (ih (within.labelled_mem _ _ _ hf).2)

/-- **What a path reads before it leaves for good.** A path that starts in the block of `f` and ends
outside reads its way to the exit of `f`, and then a word with the property `R`. This may be any
property that the words after an exit out of the block have, and that one more round after an exit
back into the block preserves. -/
theorem Path.leave {exits : List Nat} {R : List Char → Prop} (path : g.Path s word t)
    (within : f.Within lo) (inside : f.Inside g lo exits) (outside : ¬ (lo ≤ t ∧ t < f.next))
    (back : ∀ x ∈ exits, lo ≤ x ∧ x < f.next → ∀ u v, f.Path x u f.accept → R v → R (u ++ v))
    (out : ∀ x ∈ exits, ¬ (lo ≤ x ∧ x < f.next) → ∀ v, g.Path x v t → R v)
    (hs : lo ≤ s ∧ s < f.next) :
    ∃ u v, word = u ++ v ∧ f.Path s u f.accept ∧ R v := by
  induction path with
  | nil => exact absurd hs outside
  | @silent s x t word hedge rest ih =>
    rcases inside.silent _ _ hs.1 hs.2 hedge with hf | ⟨rfl, hexit⟩
    · obtain ⟨u, v, hword, path, hrest⟩ := ih outside out (within.silent_mem _ _ hf).2
      exact ⟨u, v, hword, .silent hf path, hrest⟩
    · -- the path is at the exit and goes out, or back for another round.
      by_cases hx : lo ≤ x ∧ x < f.next
      · obtain ⟨u, v, hword, path, hrest⟩ := ih outside out hx
        exact ⟨[], word, rfl, .nil _, hword ▸ back x hexit hx u v path hrest⟩
      · exact ⟨[], word, rfl, .nil _, out x hexit hx word rest⟩
  | read hedge _ ih =>
    have hf := inside.labelled _ _ _ hs.1 hs.2 hedge
    obtain ⟨u, v, hword, path, hrest⟩ := ih outside out (within.labelled_mem _ _ _ hf).2
    exact ⟨_ :: u, v, hword ▸ rfl, .read hf path, hrest⟩

/-- A way between two states begins with an edge. It is silent, and then the same word is still to
be read, or it reads the first character. -/
theorem Path.first_edge (path : g.Path s word t) (hne : s ≠ t) :
    (∃ x, (s, x) ∈ g.silent ∧ g.Path x word t) ∨
      ∃ c x rest, word = c :: rest ∧ (s, c, x) ∈ g.labelled ∧ g.Path x rest t := by
  cases path with
  | nil => exact absurd rfl hne
  | silent hedge rest => exact .inl ⟨_, hedge, rest⟩
  | read hedge rest => exact .inr ⟨_, _, _, rfl, hedge, rest⟩

/-- From a state without edges no way leads on, so nothing is read from it. -/
theorem Path.of_sink (path : g.Path s word t) (silent : ∀ x, (s, x) ∉ g.silent)
    (labelled : ∀ c x, (s, c, x) ∉ g.labelled) : word = [] := by
  cases path with
  | nil => rfl
  | silent hedge _ => exact absurd hedge (silent _)
  | read hedge _ => exact absurd hedge (labelled _ _)

/-- A smaller fragment whose only exit leads to where nothing more is read. What the larger one
accepts from inside is what the smaller one accepts. -/
theorem Path.accepts_inside {x : Nat} (path : g.Path f.start word t) (within : f.Within lo)
    (inside : f.Inside g lo [x]) (hx : f.next ≤ x) (ht : f.next ≤ t)
    (sink : ∀ v, g.Path x v t → v = []) : f.Accepts word := by
  obtain ⟨u, v, rfl, hu, rfl⟩ := path.leave (R := (· = [])) within inside
    (fun hblock => by omega)
    (fun y hy hblock => by rw [List.mem_singleton.mp hy] at hblock; omega)
    (fun y hy _ => by rw [List.mem_singleton.mp hy]; exact sink)
    within.start_mem
  rwa [List.append_nil]

/-- A word of a smaller fragment is read between the states that silent edges join it to. -/
theorem Accepts.path (h : f.Accepts word) (silent : f.silent ⊆ g.silent)
    (labelled : f.labelled ⊆ g.labelled) (entry : (s, f.start) ∈ g.silent)
    (exit : (f.accept, t) ∈ g.silent) : g.Path s word t := by
  have path := (h.mono silent labelled).append (.silent exit (.nil t))
  rw [List.append_nil] at path
  exact .silent entry path

/-! ## The blocks of joined fragments -/

/-- Two new states, the entry and the exit, and edges only between them. This is the block of every
pattern that reads one character. -/
theorem within_symbols (next : Nat) (items : List Char) : (symbols next items).Within next where
  start_mem := by simp only [symbols]; omega
  accept_mem := by simp only [symbols]; omega
  silent_mem := by
    intro s t h
    exact absurd h List.not_mem_nil
  labelled_mem := by
    intro s c t h
    simp only [symbols, List.mem_map, Prod.mk.injEq] at h ⊢
    obtain ⟨_, _, rfl, _, rfl⟩ := h
    omega

theorem within_empty (next : Nat) : (empty next).Within next where
  start_mem := by simp only [empty]; omega
  accept_mem := by simp only [empty]; omega
  silent_mem := by
    intro s t h
    simp only [empty, List.mem_singleton, Prod.mk.injEq] at h ⊢
    omega
  labelled_mem := by
    intro s c t h
    exact absurd h List.not_mem_nil

/-- Two fragments of which the second begins where the first ends, joined in any way by edges
between their states and new states. -/
theorem Within.join (hl : left.Within lo) (hr : right.Within left.next)
    (hnext : right.next ≤ g.next)
    (hstart : lo ≤ g.start ∧ g.start < g.next) (haccept : lo ≤ g.accept ∧ g.accept < g.next)
    (silent : ∀ s t, (s, t) ∈ g.silent → (s, t) ∈ left.silent ∨ (s, t) ∈ right.silent ∨
      ((lo ≤ s ∧ s < g.next) ∧ lo ≤ t ∧ t < g.next))
    (labelled : g.labelled = left.labelled ++ right.labelled) : g.Within lo where
  start_mem := hstart
  accept_mem := haccept
  silent_mem := by
    intro s t h
    have hlo := hl.lt_next
    have hmid := hr.lt_next
    -- an edge of a part stays in the block of that part, and the blocks are next to each other.
    rcases silent s t h with hleft | hright | hnew
    · have hblock := hl.silent_mem s t hleft
      omega
    · have hblock := hr.silent_mem s t hright
      omega
    · exact hnew
  labelled_mem := by
    intro s c t h
    have hlo := hl.lt_next
    have hmid := hr.lt_next
    rw [labelled, List.mem_append] at h
    rcases h with hleft | hright
    · have hblock := hl.labelled_mem s c t hleft
      omega
    · have hblock := hr.labelled_mem s c t hright
      omega

/-- The block on the right begins where the one on the left ends, and one silent edge joins them. -/
theorem Within.seq (hl : left.Within lo) (hr : right.Within left.next) :
    (left.seq right).Within lo := by
  have hlo := hl.lt_next
  have hmid := hr.lt_next
  have hstart := hl.start_mem
  have haccept := hl.accept_mem
  have hstart' := hr.start_mem
  have haccept' := hr.accept_mem
  refine hl.join hr (Nat.le_refl _) ?_ ?_ (fun s t h => ?_) rfl
  · simp only [Fragment.seq]
    omega
  · simp only [Fragment.seq]
    omega
  · simp only [Fragment.seq, List.mem_append, List.mem_singleton, Prod.mk.injEq] at h ⊢
    rcases h with (hleft | hright) | ⟨rfl, rfl⟩
    · exact .inl hleft
    · exact .inr (.inl hright)
    · exact .inr (.inr (by omega))

/-- Two more states come behind both blocks, a new entry and a new exit. -/
theorem Within.alt (hl : left.Within lo) (hr : right.Within left.next) :
    (left.alt right).Within lo := by
  have hlo := hl.lt_next
  have hmid := hr.lt_next
  have hstart := hl.start_mem
  have haccept := hl.accept_mem
  have hstart' := hr.start_mem
  have haccept' := hr.accept_mem
  refine hl.join hr ?_ ?_ ?_ (fun s t h => ?_) rfl
  · simp only [Fragment.alt]
    omega
  · simp only [Fragment.alt]
    omega
  · simp only [Fragment.alt]
    omega
  · simp only [Fragment.alt, List.mem_append, List.mem_cons, List.not_mem_nil, or_false,
      Prod.mk.injEq] at h ⊢
    rcases h with (hleft | hright) | hnew
    · exact .inl hleft
    · exact .inr (.inl hright)
    · exact .inr (.inr (by omega))

/-- One fragment with more edges between its states and new states. Stars and "at least once" differ
only in which states are new. -/
theorem Within.wrap (hi : inner.Within lo) (hnext : inner.next ≤ g.next)
    (hstart : lo ≤ g.start ∧ g.start < g.next) (haccept : lo ≤ g.accept ∧ g.accept < g.next)
    (silent : ∀ s t, (s, t) ∈ g.silent → (s, t) ∈ inner.silent ∨
      ((lo ≤ s ∧ s < g.next) ∧ lo ≤ t ∧ t < g.next))
    (labelled : g.labelled = inner.labelled) : g.Within lo where
  start_mem := hstart
  accept_mem := haccept
  silent_mem := by
    intro s t h
    rcases silent s t h with hinner | hnew
    · have hblock := hi.silent_mem s t hinner
      omega
    · exact hnew
  labelled_mem := by
    intro s c t h
    have hblock := hi.labelled_mem s c t (labelled ▸ h)
    omega

/-- Two more states come behind the block, a new entry and a new exit. -/
theorem Within.star (hi : inner.Within lo) : inner.star.Within lo := by
  have hlo := hi.lt_next
  have hstart := hi.start_mem
  have haccept := hi.accept_mem
  refine hi.wrap ?_ ?_ ?_ (fun s t h => ?_) rfl
  · simp only [Fragment.star]
    omega
  · simp only [Fragment.star]
    omega
  · simp only [Fragment.star]
    omega
  · simp only [Fragment.star, List.mem_append, List.mem_cons, List.not_mem_nil, or_false,
      Prod.mk.injEq] at h ⊢
    rcases h with hinner | hnew
    · exact .inl hinner
    · exact .inr (by omega)

/-- One more state comes behind the block, a new exit. The entry stays that of the operand. -/
theorem Within.plus (hi : inner.Within lo) : inner.plus.Within lo := by
  have hlo := hi.lt_next
  have hstart := hi.start_mem
  have haccept := hi.accept_mem
  refine hi.wrap ?_ ?_ ?_ (fun s t h => ?_) rfl
  · simp only [Fragment.plus]
    omega
  · simp only [Fragment.plus]
    omega
  · simp only [Fragment.plus]
    omega
  · simp only [Fragment.plus, List.mem_append, List.mem_cons, List.not_mem_nil, or_false,
      Prod.mk.injEq] at h ⊢
    rcases h with hinner | hnew
    · exact .inl hinner
    · exact .inr (by omega)

/-! ## What the joined fragments read -/

/-- One character is read, any of those that the edges are for, since nothing leaves the exit and
nothing leads back to the entry. -/
theorem accepts_symbols_iff {next : Nat} {items : List Char} :
    (symbols next items).Accepts word ↔ ∃ c ∈ items, word = [c] := by
  constructor
  · intro path
    cases path with
    | silent hedge _ => exact absurd hedge List.not_mem_nil
    | @read _ t _ c word hedge rest =>
      simp only [symbols, List.mem_map, Prod.mk.injEq] at hedge
      obtain ⟨_, hc, _, rfl, rfl⟩ := hedge
      -- the exit is a sink: every edge starts at the entry.
      have hword : word = [] := by
        refine rest.of_sink (fun _ => List.not_mem_nil) fun d x hedge => ?_
        simp only [symbols, List.mem_map, Prod.mk.injEq] at hedge
        obtain ⟨_, _, heq, _⟩ := hedge
        omega
      exact ⟨_, hc, hword ▸ rfl⟩
  · rintro ⟨c, hc, rfl⟩
    have hedge : (next, c, next + 1) ∈ (symbols next items).labelled :=
      List.mem_map.mpr ⟨c, hc, rfl⟩
    exact .read hedge (.nil _)

/-- A silent edge reads nothing. -/
theorem accepts_empty_iff {next : Nat} : (empty next).Accepts word ↔ word = [] := by
  constructor
  · intro path
    cases path with
    | @silent _ t _ _ hedge rest =>
      simp only [empty, List.mem_singleton, Prod.mk.injEq] at hedge
      obtain ⟨_, rfl⟩ := hedge
      refine rest.of_sink (fun x hedge => ?_) fun _ _ => List.not_mem_nil
      simp only [empty, List.mem_singleton, Prod.mk.injEq] at hedge
      omega
    | read hedge _ => exact absurd hedge List.not_mem_nil
  · rintro rfl
    exact .silent (List.mem_singleton.mpr rfl) (.nil _)

/-- Of the labelled edges of two blocks, those that leave a state of the left one are its own. -/
theorem mem_labelled_left (hr : right.Within left.next) {c : Char} (hs : s < left.next)
    (h : (s, c, t) ∈ left.labelled ++ right.labelled) : (s, c, t) ∈ left.labelled := by
  rcases List.mem_append.mp h with hleft | hright
  · exact hleft
  · exact absurd hs (Nat.not_lt.mpr (hr.labelled_mem s c t hright).1.1)

/-- And those that leave a state beyond the left block belong to the right one. -/
theorem mem_labelled_right (hl : left.Within lo) {c : Char} (hs : left.next ≤ s)
    (h : (s, c, t) ∈ left.labelled ++ right.labelled) : (s, c, t) ∈ right.labelled := by
  rcases List.mem_append.mp h with hleft | hright
  · exact absurd (hl.labelled_mem s c t hleft).1.2 (Nat.not_lt.mpr hs)
  · exact hright

/-- The left block is left only for the entry of the right one, silently. From there on the right
block reads the rest of the word. -/
theorem inside_seq_left (hr : right.Within left.next) :
    left.Inside (left.seq right) lo [right.start] where
  silent := by
    intro s t hlo hlt h
    simp only [Fragment.seq, List.mem_append, List.mem_singleton, Prod.mk.injEq] at h
    rcases h with (hleft | hright) | ⟨rfl, rfl⟩
    · exact .inl hleft
    · have hblock := hr.silent_mem s t hright
      omega
    · exact .inr ⟨rfl, List.mem_singleton.mpr rfl⟩
  labelled _ _ _ _ hlt h := mem_labelled_left hr hlt h

/-- The right block is not left at all, since the exit of the sequence is its own. -/
theorem inside_seq_right (hl : left.Within lo) :
    right.Inside (left.seq right) left.next [] where
  silent := by
    intro s t hlo hlt h
    have haccept := hl.accept_mem
    simp only [Fragment.seq, List.mem_append, List.mem_singleton, Prod.mk.injEq] at h
    rcases h with (hleft | hright) | ⟨rfl, rfl⟩
    · have hblock := hl.silent_mem s t hleft
      omega
    · exact .inl hright
    · omega
  labelled _ _ _ hlo _ h := mem_labelled_right hl hlo h

/-- **A sequence reads a word of the left operand and then one of the right.** In the one direction
the two ways are put together, and in the other a way is cut where it leaves the left block. -/
theorem accepts_seq_iff (hl : left.Within lo) (hr : right.Within left.next) :
    (left.seq right).Accepts word ↔ ∃ u v, word = u ++ v ∧ left.Accepts u ∧ right.Accepts v := by
  have haccept := hr.accept_mem
  have hstart := hr.start_mem
  constructor
  · intro path
    -- the left block is left by the joining edge only, and the right block is never left.
    refine path.leave hl (inside_seq_left hr) ?_ ?_ ?_ hl.start_mem
    · simp only [Fragment.seq]
      omega
    · intro x hx hblock
      rw [List.mem_singleton.mp hx] at hblock
      omega
    · intro x hx _ v rest
      rw [List.mem_singleton.mp hx] at rest
      exact rest.stay hr (inside_seq_right hl) hstart
  · rintro ⟨u, v, rfl, hu, hv⟩
    have hleft : (left.seq right).Path left.start u left.accept :=
      hu.mono (by simp [Fragment.seq]) (by simp [Fragment.seq])
    have hright : (left.seq right).Path right.start v right.accept :=
      hv.mono (by simp [Fragment.seq]) (by simp [Fragment.seq])
    have hedge : (left.accept, right.start) ∈ (left.seq right).silent := by
      simp [Fragment.seq]
    exact hleft.append (.silent hedge hright)

/-- The left block is left only for the new exit, where nothing more is read. -/
theorem inside_alt_left (hr : right.Within left.next) :
    left.Inside (left.alt right) lo [right.next + 1] where
  silent := by
    intro s t hlo hlt h
    have hmid := hr.lt_next
    have haccept := hr.accept_mem
    simp only [Fragment.alt, List.mem_append, List.mem_cons, List.not_mem_nil, or_false,
      Prod.mk.injEq] at h ⊢
    rcases h with (hleft | hright) | hnew
    · exact .inl hleft
    · have hblock := hr.silent_mem s t hright
      omega
    · exact .inr (by omega)
  labelled _ _ _ _ hlt h := mem_labelled_left hr hlt h

/-- So is the right block. -/
theorem inside_alt_right (hl : left.Within lo) :
    right.Inside (left.alt right) left.next [right.next + 1] where
  silent := by
    intro s t hlo hlt h
    have haccept := hl.accept_mem
    simp only [Fragment.alt, List.mem_append, List.mem_cons, List.not_mem_nil, or_false,
      Prod.mk.injEq] at h ⊢
    rcases h with (hleft | hright) | hnew
    · have hblock := hl.silent_mem s t hleft
      omega
    · exact .inl hright
    · exact .inr (by omega)
  labelled _ _ _ hlo _ h := mem_labelled_right hl hlo h

/-- No edge of the joined fragment leaves a state beyond both blocks, except for the new silent
edges from its entry. -/
theorem alt_edges_of_new (hl : left.Within lo) (hr : right.Within left.next) (hs : right.next ≤ s) :
    ((s, t) ∈ (left.alt right).silent → s = right.next ∧ (t = left.start ∨ t = right.start)) ∧
      ∀ c, (s, c, t) ∉ (left.alt right).labelled := by
  have hmid := hr.lt_next
  have haccept := hl.accept_mem
  have haccept' := hr.accept_mem
  constructor
  · intro h
    simp only [Fragment.alt, List.mem_append, List.mem_cons, List.not_mem_nil, or_false,
      Prod.mk.injEq] at h
    -- the edges of the parts stay below, and of the new ones two end at the new exit.
    rcases h with (hleft | hright) | hnew
    · have hblock := hl.silent_mem s t hleft
      omega
    · have hblock := hr.silent_mem s t hright
      omega
    · omega
  · intro c h
    rcases List.mem_append.mp h with hleft | hright
    · have hblock := hl.labelled_mem s c t hleft
      omega
    · have hblock := hr.labelled_mem s c t hright
      omega

/-- **A choice reads the words of either operand.** The first edge from the new entry decides which
block the rest of the way is in. -/
theorem accepts_alt_iff (hl : left.Within lo) (hr : right.Within left.next) :
    (left.alt right).Accepts word ↔ left.Accepts word ∨ right.Accepts word := by
  have hmid := hr.lt_next
  -- at the new exit nothing more is read.
  have hsink : ∀ v, (left.alt right).Path (right.next + 1) v (right.next + 1) → v = [] := by
    intro v rest
    refine rest.of_sink (fun y hedge => ?_) fun c y => (alt_edges_of_new hl hr (Nat.le_succ _)).2 c
    have hentry := (alt_edges_of_new hl hr (Nat.le_succ _)).1 hedge
    omega
  constructor
  · intro path
    -- the first edge is silent and decides between the two.
    rcases path.first_edge (Nat.ne_of_lt (Nat.lt_succ_self _)) with
      ⟨x, hedge, rest⟩ | ⟨c, x, _, _, hedge, _⟩
    · rcases ((alt_edges_of_new hl hr (Nat.le_refl _)).1 hedge).2 with rfl | rfl
      · exact .inl (rest.accepts_inside hl (inside_alt_left hr) (by omega)
          (by simp only [Fragment.alt]; omega) hsink)
      · exact .inr (rest.accepts_inside hr (inside_alt_right hl) (by omega)
          (by simp only [Fragment.alt]; omega) hsink)
    · exact absurd hedge ((alt_edges_of_new hl hr (Nat.le_refl _)).2 c)
  · rintro (hu | hu)
    · exact hu.path (by simp [Fragment.alt]) (by simp [Fragment.alt]) (by simp [Fragment.alt])
        (by simp [Fragment.alt])
    · exact hu.path (by simp [Fragment.alt]) (by simp [Fragment.alt]) (by simp [Fragment.alt])
        (by simp [Fragment.alt])

/-! ### Loops -/

/-- Any number of words, one after the other. -/
inductive Repeated (words : List Char → Prop) : List Char → Prop where
  | nil : Repeated words []
  | cons {u v : List Char} : words u → Repeated words v → Repeated words (u ++ v)

/-- A fragment whose exit leads back to its entry and on to a sink reads words of its own, at least
one, one after the other. -/
theorem Path.rounds (path : g.Path inner.start word t) (within : inner.Within lo)
    (inside : inner.Inside g lo [inner.start, t]) (ht : inner.next ≤ t)
    (sink : ∀ v, g.Path t v t → v = []) :
    ∃ u v, word = u ++ v ∧ inner.Accepts u ∧ Repeated inner.Accepts v := by
  refine path.leave within inside (fun hblock => by omega) ?_ ?_ within.start_mem
  · intro x hx hblock u v hu hv
    simp only [List.mem_cons, List.not_mem_nil, or_false] at hx
    rcases hx with rfl | rfl
    · -- back at the entry, a whole word of the fragment is read before the rest.
      exact .cons hu hv
    · omega
  · intro x hx houtside v rest
    simp only [List.mem_cons, List.not_mem_nil, or_false] at hx
    rcases hx with rfl | rfl
    · exact absurd within.start_mem houtside
    · rw [sink v rest]
      exact .nil

/-- Words of the operand, one after the other, are read by going back from its exit to its entry,
and at last from its exit to `t`. -/
theorem Repeated.path (h : Repeated inner.Accepts word) (silent : inner.silent ⊆ g.silent)
    (labelled : inner.labelled ⊆ g.labelled) (back : (inner.accept, inner.start) ∈ g.silent)
    (exit : (inner.accept, t) ∈ g.silent) : g.Path inner.accept word t := by
  induction h with
  | nil => exact .silent exit (.nil t)
  | cons hu _ ih => exact .silent back ((Path.mono hu silent labelled).append ih)

/-- The block of the operand is left for its own entry, to begin again, or for the new exit. These
are the two silent edges that its exit gets. -/
theorem inside_star : inner.Inside inner.star lo [inner.start, inner.next + 1] where
  silent := by
    intro s t hlo hlt h
    simp only [Fragment.star, List.mem_append, List.mem_cons, List.not_mem_nil, or_false,
      Prod.mk.injEq] at h ⊢
    rcases h with hinner | hnew
    · exact .inl hinner
    · exact .inr (by omega)
  labelled := fun _ _ _ _ _ h => h

/-- The block of the operand is left for its own entry, to begin again, or for the new exit. There
is no other way in than through the operand, so one round is always made. -/
theorem inside_plus : inner.Inside inner.plus lo [inner.start, inner.next] where
  silent := by
    intro s t hlo hlt h
    simp only [Fragment.plus, List.mem_append, List.mem_cons, List.not_mem_nil, or_false,
      Prod.mk.injEq] at h ⊢
    rcases h with hinner | hnew
    · exact .inl hinner
    · exact .inr (by omega)
  labelled := fun _ _ _ _ _ h => h

/-- Of the new states, only the entry has edges. They are silent, and lead to the operand or past
it. -/
theorem star_edges_of_new (hi : inner.Within lo) (hs : inner.next ≤ s) :
    ((s, t) ∈ inner.star.silent → s = inner.next ∧ (t = inner.start ∨ t = inner.next + 1)) ∧
      ∀ c, (s, c, t) ∉ inner.star.labelled := by
  have haccept := hi.accept_mem
  constructor
  · intro h
    simp only [Fragment.star, List.mem_append, List.mem_cons, List.not_mem_nil, or_false,
      Prod.mk.injEq] at h
    rcases h with hinner | hnew
    · have hblock := hi.silent_mem s t hinner
      omega
    · omega
  · intro c h
    have hblock := hi.labelled_mem s c t h
    omega

/-- **A star reads any number of words of its operand.** The induction is on the way, which comes by
the exit of the operand once for each word. -/
theorem accepts_star_iff (hi : inner.Within lo) :
    inner.star.Accepts word ↔ Repeated inner.Accepts word := by
  have hsink : ∀ v, inner.star.Path (inner.next + 1) v (inner.next + 1) → v = [] := by
    intro v rest
    refine rest.of_sink (fun y hedge => ?_) fun c y => (star_edges_of_new hi (Nat.le_succ _)).2 c
    have hentry := (star_edges_of_new hi (Nat.le_succ _)).1 hedge
    omega
  constructor
  · intro path
    -- the entry leads into the operand or past it.
    rcases path.first_edge (Nat.ne_of_lt (Nat.lt_succ_self _)) with
      ⟨x, hedge, rest⟩ | ⟨c, x, _, _, hedge, _⟩
    · rcases ((star_edges_of_new hi (Nat.le_refl _)).1 hedge).2 with rfl | rfl
      · obtain ⟨u, v, rfl, hu, hv⟩ := rest.rounds hi inside_star (Nat.le_succ _) hsink
        exact .cons hu hv
      · rw [hsink word rest]
        exact .nil
    · exact absurd hedge ((star_edges_of_new hi (Nat.le_refl _)).2 c)
  · intro h
    cases h with
    | nil => exact .silent (by simp [Fragment.star]) (.nil _)
    | cons hu hv =>
      have hentry : (inner.next, inner.start) ∈ inner.star.silent := by simp [Fragment.star]
      have hfirst := Path.mono (g := inner.star) hu (by simp [Fragment.star])
        (by simp [Fragment.star])
      exact .silent hentry (hfirst.append (hv.path (by simp [Fragment.star])
        (by simp [Fragment.star]) (by simp [Fragment.star]) (by simp [Fragment.star])))

/-- The new exit has no edges. So a path that has come to it has come to its end. -/
theorem plus_edges_of_new (hi : inner.Within lo) (hs : inner.next ≤ s) :
    (s, t) ∉ inner.plus.silent ∧ ∀ c, (s, c, t) ∉ inner.plus.labelled := by
  have haccept := hi.accept_mem
  constructor
  · intro h
    simp only [Fragment.plus, List.mem_append, List.mem_cons, List.not_mem_nil, or_false,
      Prod.mk.injEq] at h
    rcases h with hinner | hnew
    · have hblock := hi.silent_mem s t hinner
      omega
    · omega
  · intro c h
    have hblock := hi.labelled_mem s c t h
    omega

/-- **A plus reads one word of its operand and then any number of them.** Entry and operand are the
same, so at least one word is read before the exit can be reached. -/
theorem accepts_plus_iff (hi : inner.Within lo) :
    inner.plus.Accepts word ↔
      ∃ u v, word = u ++ v ∧ inner.Accepts u ∧ Repeated inner.Accepts v := by
  have hsink : ∀ v, inner.plus.Path inner.next v inner.next → v = [] := by
    intro v rest
    exact rest.of_sink (fun y => (plus_edges_of_new hi (Nat.le_refl _)).1)
      fun c y => (plus_edges_of_new hi (Nat.le_refl _)).2 c
  constructor
  · intro path
    -- the entry is that of the operand, so the first round begins at once.
    exact Path.rounds path hi inside_plus (Nat.le_refl _) hsink
  · rintro ⟨u, v, rfl, hu, hv⟩
    have hfirst : inner.plus.Path inner.start u inner.accept :=
      hu.mono (by simp [Fragment.plus]) (by simp [Fragment.plus])
    exact hfirst.append (hv.path (by simp [Fragment.plus]) (by simp [Fragment.plus])
      (by simp [Fragment.plus]) (by simp [Fragment.plus]))

end Fragment

end PathSum.Regex
