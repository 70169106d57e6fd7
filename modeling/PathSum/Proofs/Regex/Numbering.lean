import PathSum.Regex.Walk

/-!
# Numbered nodes stand for their pattern

The table of a pattern shares nodes, and the walk that builds an automaton from it keeps its own
stacks. Neither can be seen from outside: unfolding the table gives the tree of the pattern, and the
walk builds the fragment that recursion over the pattern builds.

* **`Pattern.unfolds_number`**: numbering a pattern keeps the trees of all nodes before it and adds
  that of the pattern.
* **`Holds`**: what it means that a node is the top of a pattern. A sequence is never taken for "at
  least once" (`Pattern.numbers_number`), since its right operand is numbered after all of the left
  one.
* **`NodeTable.walk_enter`**: what the walk does from a task on, whatever else is on its stacks.
* **`Pattern.tree?_nodeTable`, `Pattern.nfa?_nodeTable`**: both ways out of the table.
-/

namespace PathSum.Regex

/-! ## Unfolding -/

/-- The trees of all nodes of a table. -/
structure Unfolds (nodes : Array Node) (trees : Array Tree) : Prop where
  trees_eq : nodes.foldlM (fun trees node => (node.tree? trees).map trees.push) #[] = some trees
  size_eq : trees.size = nodes.size

theorem unfolds_empty : Unfolds #[] #[] := ⟨rfl, rfl⟩

/-- One node more, whose children are there, unfolds to a tree that is added at the end. The trees
before it stay as they were. -/
theorem Unfolds.append {nodes : Array Node} {trees : Array Tree} {tree : Tree}
    (h : Unfolds nodes trees) (node : Node) (hnode : node.tree? trees = some tree) :
    Unfolds (Pattern.append nodes node).1 (trees.push tree) ∧
      (trees.push tree)[(Pattern.append nodes node).2]? = some tree := by
  have htrees : (nodes.push node).foldlM
      (fun trees node => (node.tree? trees).map trees.push) #[] = some (trees.push tree) := by
    rw [Array.foldlM_push, h.trees_eq]
    show (node.tree? trees).map trees.push = _
    rw [hnode]
    rfl
  refine ⟨⟨htrees, ?_⟩, ?_⟩
  · show (trees.push tree).size = (nodes.push node).size
    rw [Array.size_push, Array.size_push, h.size_eq]
  · show (trees.push tree)[nodes.size]? = some tree
    rw [← h.size_eq, Array.getElem?_push_size]

/-- Entries stay where they are when others are added. -/
def Keeps {α : Type} (before after : Array α) : Prop :=
  ∀ (i : Nat) (x : α), before[i]? = some x → after[i]? = some x

theorem keeps_refl {α : Type} (items : Array α) : Keeps items items :=
  fun _ _ h => h

theorem Keeps.trans {α : Type} {a b c : Array α} (hab : Keeps a b) (hbc : Keeps b c) : Keeps a c :=
  fun i x h => hbc i x (hab i x h)

theorem keeps_push {α : Type} (items : Array α) (x : α) : Keeps items (items.push x) := by
  intro i y h
  obtain ⟨hi, rfl⟩ := Array.getElem?_eq_some_iff.mp h
  rw [Array.getElem?_push_lt hi]

namespace Pattern

/-- Numbering a pattern adds its tree to those of the nodes before it. The induction is on the
pattern, for any nodes that come before. -/
theorem unfolds_number (pattern : Pattern) {nodes : Array Node} {trees : Array Tree}
    (h : Unfolds nodes trees) :
    ∃ trees', Unfolds (pattern.number nodes).1 trees' ∧ Keeps trees trees' ∧
      trees'[(pattern.number nodes).2]? = some pattern.tree := by
  induction pattern generalizing nodes trees with
  | char c =>
    obtain ⟨hall, htop⟩ := h.append (.char c) rfl
    exact ⟨_, hall, keeps_push _ _, htop⟩
  | any =>
    obtain ⟨hall, htop⟩ := h.append .any rfl
    exact ⟨_, hall, keeps_push _ _, htop⟩
  | oneOf set =>
    obtain ⟨hall, htop⟩ := h.append (.oneOf set) rfl
    exact ⟨_, hall, keeps_push _ _, htop⟩
  | noneOf set =>
    obtain ⟨hall, htop⟩ := h.append (.noneOf set) rfl
    exact ⟨_, hall, keeps_push _ _, htop⟩
  | seq left right ihl ihr =>
    obtain ⟨lefts, hl, hkeep, htop⟩ := ihl h
    obtain ⟨rights, hr, hkeep', htop'⟩ := ihr hl
    -- the left tree is still where it was when the right one has been numbered.
    have hnode : (Node.seq (left.number nodes).2
        (right.number (left.number nodes).1).2).tree? rights =
          some (.seq left.tree right.tree) := by
      simp [Node.tree?, hkeep' _ _ htop, htop']
    obtain ⟨hall, htop''⟩ := hr.append _ hnode
    exact ⟨_, hall, (hkeep.trans hkeep').trans (keeps_push _ _), htop''⟩
  | alt left right ihl ihr =>
    obtain ⟨lefts, hl, hkeep, htop⟩ := ihl h
    obtain ⟨rights, hr, hkeep', htop'⟩ := ihr hl
    have hnode : (Node.alt (left.number nodes).2
        (right.number (left.number nodes).1).2).tree? rights =
          some (.alt left.tree right.tree) := by
      simp [Node.tree?, hkeep' _ _ htop, htop']
    obtain ⟨hall, htop''⟩ := hr.append _ hnode
    exact ⟨_, hall, (hkeep.trans hkeep').trans (keeps_push _ _), htop''⟩
  | star inner ih =>
    obtain ⟨inners, hi, hkeep, htop⟩ := ih h
    have hnode : (Node.star (inner.number nodes).2).tree? inners = some (.star inner.tree) := by
      simp [Node.tree?, htop]
    obtain ⟨hall, htop'⟩ := hi.append _ hnode
    exact ⟨_, hall, hkeep.trans (keeps_push _ _), htop'⟩
  | plus inner ih =>
    obtain ⟨inners, hi, hkeep, htop⟩ := ih h
    have hstar : (Node.star (inner.number nodes).2).tree? inners = some (.star inner.tree) := by
      simp [Node.tree?, htop]
    obtain ⟨hstars, htop'⟩ := hi.append _ hstar
    -- the operand is named a second time, beside the star that was made of it.
    have hnode : (Node.seq (inner.number nodes).2
        (append (inner.number nodes).1 (.star (inner.number nodes).2)).2).tree?
          (inners.push (.star inner.tree)) = some (.seq inner.tree (.star inner.tree)) := by
      simp [Node.tree?, keeps_push _ _ _ _ htop, htop']
    obtain ⟨hall, htop''⟩ := hstars.append _ hnode
    exact ⟨_, hall, (hkeep.trans (keeps_push _ _)).trans (keeps_push _ _), htop''⟩
  | opt inner ih =>
    obtain ⟨inners, hi, hkeep, htop⟩ := ih h
    obtain ⟨hempties, htop'⟩ := hi.append .empty rfl
    have hnode : (Node.alt (append (inner.number nodes).1 .empty).2 (inner.number nodes).2).tree?
        (inners.push .empty) = some (.alt .empty inner.tree) := by
      simp [Node.tree?, keeps_push _ _ _ _ htop, htop']
    obtain ⟨hall, htop''⟩ := hempties.append _ hnode
    exact ⟨_, hall, (hkeep.trans (keeps_push _ _)).trans (keeps_push _ _), htop''⟩

/-- **The table unfolds to the tree.** -/
theorem tree?_nodeTable (pattern : Pattern) : pattern.nodeTable.tree? = some pattern.tree := by
  obtain ⟨trees, hall, _, htop⟩ := pattern.unfolds_number unfolds_empty
  have htrees : pattern.nodeTable.trees? = some trees := hall.trees_eq
  rw [NodeTable.tree?, htrees]
  exact htop

end Pattern

/-! ## Where the nodes of a pattern stand -/

/-- A node is the top of a pattern. The right operand of a sequence is not the star of the very node
on its left; that is what tells a sequence from "at least once". -/
inductive Holds (nodes : Array Node) : Pattern → Nat → Prop where
  | char {id : Nat} {c : Char} : nodes[id]? = some (.char c) → Holds nodes (.char c) id
  | any {id : Nat} : nodes[id]? = some .any → Holds nodes .any id
  | oneOf {id : Nat} {set : CharSet} : nodes[id]? = some (.oneOf set) → Holds nodes (.oneOf set) id
  | noneOf {id : Nat} {set : CharSet} :
      nodes[id]? = some (.noneOf set) → Holds nodes (.noneOf set) id
  | seq {id l r : Nat} {left right : Pattern} {node : Node} :
      Holds nodes left l → Holds nodes right r → nodes[id]? = some (.seq l r) →
        nodes[r]? = some node → node ≠ .star l → Holds nodes (.seq left right) id
  | alt {id l r : Nat} {left right : Pattern} :
      Holds nodes left l → Holds nodes right r → nodes[id]? = some (.alt l r) →
        Holds nodes (.alt left right) id
  | star {id x : Nat} {inner : Pattern} :
      Holds nodes inner x → nodes[id]? = some (.star x) → Holds nodes (.star inner) id
  | plus {id x again : Nat} {inner : Pattern} :
      Holds nodes inner x → nodes[again]? = some (.star x) → nodes[id]? = some (.seq x again) →
        Holds nodes (.plus inner) id
  | opt {id e x : Nat} {inner : Pattern} :
      Holds nodes inner x → nodes[e]? = some .empty → nodes[id]? = some (.alt e x) →
        Holds nodes (.opt inner) id

/-- A pattern in a table stays there when nodes are added, since a node only refers to nodes before
it. -/
theorem Holds.mono {before after : Array Node} {pattern : Pattern} {id : Nat}
    (h : Holds before pattern id) (hkeep : Keeps before after) : Holds after pattern id := by
  induction h with
  | char hid => exact .char (hkeep _ _ hid)
  | any hid => exact .any (hkeep _ _ hid)
  | oneOf hid => exact .oneOf (hkeep _ _ hid)
  | noneOf hid => exact .noneOf (hkeep _ _ hid)
  | seq _ _ hid hr hne ihl ihr => exact .seq ihl ihr (hkeep _ _ hid) (hkeep _ _ hr) hne
  | alt _ _ hid ihl ihr => exact .alt ihl ihr (hkeep _ _ hid)
  | star _ hid ih => exact .star ih (hkeep _ _ hid)
  | plus _ hagain hid ih => exact .plus ih (hkeep _ _ hagain) (hkeep _ _ hid)
  | opt _ he hid ih => exact .opt ih (hkeep _ _ he) (hkeep _ _ hid)

/-- What numbering a pattern does: its nodes come after all others, its topmost node comes last, and
if that is a star, its operand is one of the new nodes. -/
structure Numbers (pattern : Pattern) (before after : Array Node) (id : Nat) : Prop where
  keeps : Keeps before after
  holds : Holds after pattern id
  last : after.size = id + 1
  le_id : before.size ≤ id
  le_inner : ∀ x, after[id]? = some (.star x) → before.size ≤ x

/-- A node that is appended disturbs none of those before it. -/
theorem keeps_append (nodes : Array Node) (node : Node) :
    Keeps nodes (Pattern.append nodes node).1 :=
  keeps_push nodes node

theorem getElem?_append_self (nodes : Array Node) (node : Node) :
    (Pattern.append nodes node).1[(Pattern.append nodes node).2]? = some node :=
  Array.getElem?_push_size ..

/-- Whatever a pattern adds before its topmost node, that node comes last. So the number of the top
is known from the size of the table. -/
theorem Numbers.of_append {pattern : Pattern} {before nodes : Array Node} {node : Node}
    (hkeep : Keeps before nodes) (hsize : before.size ≤ nodes.size)
    (hholds : Holds (Pattern.append nodes node).1 pattern (Pattern.append nodes node).2)
    (hinner : ∀ x, node = .star x → before.size ≤ x) :
    Numbers pattern before (Pattern.append nodes node).1 (Pattern.append nodes node).2 where
  keeps := hkeep.trans (keeps_append nodes node)
  holds := hholds
  last := Array.size_push ..
  le_id := hsize
  le_inner x hx := by
    rw [getElem?_append_self] at hx
    exact hinner x (Option.some.inj hx)

/-- Numbering only adds nodes. -/
theorem Numbers.size_le {pattern : Pattern} {before after : Array Node} {id : Nat}
    (h : Numbers pattern before after id) : before.size ≤ after.size := by
  have := h.last
  have := h.le_id
  omega

/-- On top of a pattern there is a node. -/
theorem Holds.exists_node {nodes : Array Node} {pattern : Pattern} {id : Nat}
    (h : Holds nodes pattern id) : ∃ node, nodes[id]? = some node := by
  cases h <;> exact ⟨_, ‹nodes[id]? = _›⟩

namespace Pattern

/-- **Numbering a pattern puts it into the table.** The induction is on the pattern. For a sequence,
the case that needs care is a star on the right: its operand is one of the new nodes, so it is not
the node on the left. -/
theorem numbers_number (pattern : Pattern) (nodes : Array Node) :
    Numbers pattern nodes (pattern.number nodes).1 (pattern.number nodes).2 := by
  induction pattern generalizing nodes with
  | char c =>
    exact .of_append (keeps_refl _) (Nat.le_refl _) (.char (getElem?_append_self ..)) (by simp)
  | any =>
    exact .of_append (keeps_refl _) (Nat.le_refl _) (.any (getElem?_append_self ..)) (by simp)
  | oneOf set =>
    exact .of_append (keeps_refl _) (Nat.le_refl _) (.oneOf (getElem?_append_self ..)) (by simp)
  | noneOf set =>
    exact .of_append (keeps_refl _) (Nat.le_refl _) (.noneOf (getElem?_append_self ..)) (by simp)
  | seq left right ihl ihr =>
    have hl := ihl nodes
    have hr := ihr (left.number nodes).1
    obtain ⟨node, hnode⟩ := hr.holds.exists_node
    refine .of_append (hl.keeps.trans hr.keeps) (Nat.le_trans hl.size_le hr.size_le) ?_ (by simp)
    refine .seq ((hl.holds.mono hr.keeps).mono (keeps_append _ _))
      (hr.holds.mono (keeps_append _ _)) (getElem?_append_self ..) (keeps_append _ _ _ _ hnode) ?_
    rintro rfl
    -- the operand of a star on the right would be numbered after everything on the left.
    have hle := hr.le_inner _ hnode
    have hlast := hl.last
    omega
  | alt left right ihl ihr =>
    have hl := ihl nodes
    have hr := ihr (left.number nodes).1
    refine .of_append (hl.keeps.trans hr.keeps) (Nat.le_trans hl.size_le hr.size_le) ?_ (by simp)
    exact .alt ((hl.holds.mono hr.keeps).mono (keeps_append _ _)) (hr.holds.mono (keeps_append _ _))
      (getElem?_append_self ..)
  | star inner ih =>
    have hi := ih nodes
    refine .of_append hi.keeps hi.size_le
      (.star (hi.holds.mono (keeps_append _ _)) (getElem?_append_self ..)) ?_
    rintro x ⟨⟩
    exact hi.le_id
  | plus inner ih =>
    have hi := ih nodes
    refine .of_append (hi.keeps.trans (keeps_append _ _)) ?_ ?_ (by simp)
    · have hle := hi.size_le
      rw [Array.size_push]
      omega
    · exact .plus ((hi.holds.mono (keeps_append _ _)).mono (keeps_append _ _))
        (keeps_append _ _ _ _ (getElem?_append_self ..)) (getElem?_append_self ..)
  | opt inner ih =>
    have hi := ih nodes
    refine .of_append (hi.keeps.trans (keeps_append _ _)) ?_ ?_ (by simp)
    · have hle := hi.size_le
      rw [Array.size_push]
      omega
    · exact .opt ((hi.holds.mono (keeps_append _ _)).mono (keeps_append _ _))
        (keeps_append _ _ _ _ (getElem?_append_self ..)) (getElem?_append_self ..)

/-- How many tasks the walk does for a pattern. -/
def taskCount : Pattern → Nat
  | .char _ | .any | .oneOf _ | .noneOf _ => 1
  | .seq left right | .alt left right => left.taskCount + right.taskCount + 2
  | .star inner | .plus inner => inner.taskCount + 2
  | .opt inner => inner.taskCount + 3

/-- A pattern has at most two tasks for each of its nodes, one to enter it and one to join its
parts. -/
theorem taskCount_le (pattern : Pattern) (nodes : Array Node) :
    pattern.taskCount + 2 * nodes.size ≤ 2 * (pattern.number nodes).1.size := by
  induction pattern generalizing nodes with
  | char | any | oneOf | noneOf => simp [taskCount, number, append]; omega
  | seq left right ihl ihr =>
    have hl := ihl nodes
    have hr := ihr (left.number nodes).1
    simp only [taskCount, number, append, Array.size_push]
    omega
  | alt left right ihl ihr =>
    have hl := ihl nodes
    have hr := ihr (left.number nodes).1
    simp only [taskCount, number, append, Array.size_push]
    omega
  | star inner ih | plus inner ih | opt inner ih =>
    have hi := ih nodes
    simp only [taskCount, number, append, Array.size_push]
    omega

end Pattern

/-! ## The walk -/

namespace NodeTable

variable {table : NodeTable} {alphabet : Alphabet Char} {id fuel next : Nat} {tasks : List Task}
  {stack : List Fragment} {node : Node}

/-- A node with parts is replaced by the tasks for its parts. -/
theorem walk_enter_of_tasks {first : List Task} (hnode : table.nodes[id]? = some node)
    (hfirst : table.expand alphabet id next node = .inl first) :
    table.walk alphabet (fuel + 1) (.enter id :: tasks) stack next =
      table.walk alphabet fuel (first ++ tasks) stack next := by
  simp [walk, hnode, hfirst]

/-- A leaf is built at once. -/
theorem walk_enter_of_fragment {fragment : Fragment} (hnode : table.nodes[id]? = some node)
    (hfragment : table.expand alphabet id next node = .inr fragment) :
    table.walk alphabet (fuel + 1) (.enter id :: tasks) stack next =
      table.walk alphabet fuel tasks (fragment :: stack) fragment.next := by
  simp [walk, hnode, hfragment]

/-- A node whose parts are on the stack is joined from them. -/
theorem walk_combine {fragment : Fragment} {rest : List Fragment}
    (hnode : table.nodes[id]? = some node)
    (hjoin : table.join id node stack = some (fragment, rest)) :
    table.walk alphabet (fuel + 1) (.combine id :: tasks) stack next =
      table.walk alphabet fuel tasks (fragment :: rest) fragment.next := by
  simp [walk, hnode, hjoin]

theorem isPlus_eq_true {l r : Nat} (hid : table.nodes[id]? = some (.seq l r))
    (hr : table.nodes[r]? = some (.star l)) : table.isPlus id = true := by
  simp [isPlus, hid, hr]

theorem isPlus_eq_false {l r : Nat} (hid : table.nodes[id]? = some (.seq l r))
    (hr : table.nodes[r]? = some node) (hne : node ≠ .star l) : table.isPlus id = false := by
  simp [isPlus, hid, hr, hne]

/-- The walk puts the fragment of a pattern on its stack and goes on with its other tasks. The
induction is on the pattern, for any stack and any tasks; the fuel is what the tasks of the pattern
take. -/
theorem walk_enter {pattern : Pattern} (h : Holds table.nodes pattern id) (fuel : Nat)
    (tasks : List Task) (stack : List Fragment) (next : Nat) :
    table.walk alphabet (fuel + pattern.taskCount) (.enter id :: tasks) stack next =
      table.walk alphabet fuel tasks (pattern.fragment alphabet next :: stack)
        (pattern.fragment alphabet next).next := by
  -- operands are entered with other tasks waiting and other fragments on the stack, so the
  -- induction is for all of them.
  induction h generalizing fuel tasks stack next with
  | char hid => exact walk_enter_of_fragment hid rfl
  | any hid => exact walk_enter_of_fragment hid rfl
  | oneOf hid => exact walk_enter_of_fragment hid rfl
  | noneOf hid => exact walk_enter_of_fragment hid rfl
  | @seq id l r left right node _ _ hid hr hne ihl ihr =>
    have hplus : table.isPlus id = false := isPlus_eq_false hid hr hne
    have hfuel : fuel + (Pattern.seq left right).taskCount =
        fuel + 1 + right.taskCount + left.taskCount + 1 := by
      simp only [Pattern.taskCount]
      omega
    have hexpand : table.expand alphabet id next (.seq l r) =
        .inl [.enter l, .enter r, .combine id] := by
      simp [expand, hplus]
    have hjoin (right left : Fragment) (stack : List Fragment) :
        table.join id (.seq l r) (right :: left :: stack) = some (left.seq right, stack) := by
      simp [join, hplus]
    rw [hfuel, walk_enter_of_tasks hid hexpand]
    show table.walk alphabet _ (.enter l :: .enter r :: .combine id :: tasks) stack next = _
    rw [ihl, ihr, walk_combine hid (hjoin ..)]
    rfl
  | @alt id l r left right _ _ hid ihl ihr =>
    have hfuel : fuel + (Pattern.alt left right).taskCount =
        fuel + 1 + right.taskCount + left.taskCount + 1 := by
      simp only [Pattern.taskCount]
      omega
    rw [hfuel, walk_enter_of_tasks hid rfl]
    show table.walk alphabet _ (.enter l :: .enter r :: .combine id :: tasks) stack next = _
    rw [ihl, ihr, walk_combine hid rfl]
    rfl
  | @star id x inner _ hid ih =>
    have hfuel : fuel + (Pattern.star inner).taskCount = fuel + 1 + inner.taskCount + 1 := by
      simp only [Pattern.taskCount]
      omega
    rw [hfuel, walk_enter_of_tasks hid rfl]
    show table.walk alphabet _ (.enter x :: .combine id :: tasks) stack next = _
    rw [ih, walk_combine hid rfl]
    rfl
  | @plus id x again inner _ hagain hid ih =>
    have hplus : table.isPlus id = true := isPlus_eq_true hid hagain
    have hfuel : fuel + (Pattern.plus inner).taskCount = fuel + 1 + inner.taskCount + 1 := by
      simp only [Pattern.taskCount]
      omega
    -- the star is never entered: its operand stands for both.
    have hexpand : table.expand alphabet id next (.seq x again) =
        .inl [.enter x, .combine id] := by
      simp [expand, hplus]
    have hjoin (inner : Fragment) (stack : List Fragment) :
        table.join id (.seq x again) (inner :: stack) = some (inner.plus, stack) := by
      simp [join, hplus]
    rw [hfuel, walk_enter_of_tasks hid hexpand]
    show table.walk alphabet _ (.enter x :: .combine id :: tasks) stack next = _
    rw [ih, walk_combine hid (hjoin ..)]
    rfl
  | @opt id e x inner _ he hid ih =>
    have hfuel : fuel + (Pattern.opt inner).taskCount =
        fuel + 1 + inner.taskCount + 1 + 1 := by
      simp only [Pattern.taskCount]
      omega
    rw [hfuel, walk_enter_of_tasks hid rfl]
    show table.walk alphabet _ (.enter e :: .enter x :: .combine id :: tasks) stack next = _
    rw [walk_enter_of_fragment he rfl, ih, walk_combine hid rfl]
    rfl

end NodeTable

namespace Pattern

/-- The fuel of the walk is enough for the table of a pattern: no pattern has more tasks than twice
the number of its nodes. -/
theorem fragment?_nodeTable (pattern : Pattern) (alphabet : Alphabet Char) :
    pattern.nodeTable.fragment? alphabet = some (pattern.fragment alphabet 0) := by
  have hnum : Numbers pattern #[] pattern.nodeTable.nodes pattern.nodeTable.root :=
    pattern.numbers_number #[]
  have hfuel : pattern.taskCount ≤ 2 * pattern.nodeTable.nodes.size :=
    pattern.taskCount_le #[]
  -- the walk ends with fuel to spare.
  obtain ⟨spare, hspare⟩ := Nat.exists_eq_add_of_le' hfuel
  unfold NodeTable.fragment?
  rw [hspare, NodeTable.walk_enter hnum.holds]
  simp only [NodeTable.walk]

/-- **The walk builds the automaton of the pattern.** -/
theorem nfa?_nodeTable (pattern : Pattern) (alphabet : Alphabet Char) :
    pattern.nodeTable.nfa? alphabet = some (.ofPattern alphabet pattern) := by
  have hlt := pattern.lt_next_fragment alphabet 0
  simp [NodeTable.nfa?, fragment?_nodeTable, hlt, Nfa.ofPattern]

end Pattern

end PathSum.Regex
