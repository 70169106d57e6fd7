import Mathlib.Logic.Relation
import PathSum.Proofs.Regex.Building
import PathSum.Proofs.Regex.Sizes
import PathSum.Regex.Entries

/-!
# Which nodes are shared

The table of a pattern is a graph in which every node but the one on top is some node's child. Only
the operand of "at least once" is a child twice: of its star and of the node on top, which come
right behind it.

* `Pattern.number_eq`, `Pattern.zipIdx_entries`: the nodes of a pattern are its entries.
* **`Pattern.use_entries`**: how an entry is referred to, by induction on the pattern. A pattern
  refers to none but its own entries (`child_of_mem_entries`), so in a larger pattern an operand is
  only referred to anew where it is on top.
* `Pattern.isPlus_iff`: a sequence that looks like "at least once" has an operand with two parents,
  and so it is the one on top of an "at least once".
* **`Pattern.sharing_exact`**: all of it together.
-/

namespace PathSum.Regex

namespace Pattern

variable {p left right : Pattern} {next id x c : Nat} {node : Node} {e : Entry}

/-! ## Entries and nodes -/

/-- Numbering a pattern appends the nodes of its entries. The number of the top and the size of the
table are known with it, which the induction needs for the parts. -/
theorem number_eq (p : Pattern) (nodes : Array Node) :
    (p.number nodes).1.toList = nodes.toList ++ (p.entries nodes.size).map Entry.node ∧
      (p.number nodes).2 = nodes.size + p.nodesBelow ∧
      (p.number nodes).1.size = nodes.size + p.nodesBelow + 1 := by
  induction p generalizing nodes with
  | char | any | oneOf | noneOf => simp [number, append, entries, nodesBelow]
  | seq left right ihl ihr | alt left right ihl ihr =>
    -- the right part is numbered behind the left one, and the node on top comes last.
    obtain ⟨hl, hltop, hlsize⟩ := ihl nodes
    obtain ⟨hr, hrtop, hrsize⟩ := ihr (left.number nodes).1
    simp only [number, append, Array.toList_push, Array.size_push, hr, hl, hltop, hrtop, hlsize,
      hrsize, entries, nodesBelow, List.map_append, List.map_cons, List.map_nil, List.append_assoc]
    exact ⟨trivial, by omega, by omega⟩
  | star inner ih =>
    obtain ⟨hi, htop, hsize⟩ := ih nodes
    simp only [number, append, Array.toList_push, Array.size_push, hi, htop, hsize, entries,
      nodesBelow, List.map_append, List.map_cons, List.map_nil, List.append_assoc]
    exact ⟨trivial, by omega, by omega⟩
  | plus inner ih | opt inner ih =>
    obtain ⟨hi, htop, hsize⟩ := ih nodes
    simp only [number, append, Array.toList_push, Array.size_push, hi, htop, hsize, entries,
      nodesBelow, List.map_append, List.map_cons, List.map_nil, List.append_assoc]
    exact ⟨rfl, by omega, by omega⟩

/-- The table of a pattern lists its entries in order. -/
theorem toList_nodeTable (p : Pattern) :
    p.nodeTable.nodes.toList = (p.entries 0).map Entry.node :=
  (p.number_eq #[]).1

theorem root_nodeTable (p : Pattern) : p.nodeTable.root = p.nodesBelow :=
  (p.number_eq #[]).2.1.trans (Nat.zero_add _)

/-- The one on top comes last, so there is one node more than there are below it. -/
theorem size_nodeTable (p : Pattern) : p.nodeTable.nodes.size = p.nodesBelow + 1 :=
  (p.number_eq #[]).2.2.trans (congrArg (· + 1) (Nat.zero_add _))

/-- The entries are numbered one after the other, without gaps, from the first free number on. -/
theorem map_id_entries (p : Pattern) (next : Nat) :
    (p.entries next).map Entry.id = List.range' next (p.nodesBelow + 1) := by
  induction p generalizing next with
  | char | any | oneOf | noneOf => rfl
  | seq left right ihl ihr | alt left right ihl ihr =>
    have htop : next + left.nodesBelow + 1 + right.nodesBelow + 1 =
        next + (left.nodesBelow + 1 + (right.nodesBelow + 1)) := by omega
    have hcount : left.nodesBelow + right.nodesBelow + 2 + 1 =
        left.nodesBelow + 1 + (right.nodesBelow + 1) + 1 := by omega
    simp only [entries, nodesBelow, List.map_append, ihl, ihr, List.map_cons, List.map_nil, htop,
      hcount, List.range'_1_concat (n := left.nodesBelow + 1 + (right.nodesBelow + 1))]
    exact congrArg (· ++ _) List.range'_append_1
  | star inner ih =>
    simp only [entries, nodesBelow, List.map_append, ih, List.map_cons, List.map_nil]
    exact List.range'_1_concat.symm
  | plus inner ih | opt inner ih =>
    simp only [entries, nodesBelow, List.map_append, ih, List.map_cons, List.map_nil]
    exact List.range'_append_1 (n := 2)

theorem length_entries (p : Pattern) (next : Nat) :
    (p.entries next).length = p.nodesBelow + 1 := by
  rw [← List.length_map (f := Entry.id), map_id_entries, List.length_range']

/-- The number of an entry is its place in the table. -/
theorem zipIdx_entries (p : Pattern) (next : Nat) :
    ((p.entries next).map Entry.node).zipIdx next =
      (p.entries next).map fun e => (e.node, e.id) := by
  rw [List.zipIdx_eq_zip_range', List.length_map, length_entries, ← map_id_entries, List.zip_map']

/-- The numbers of a pattern are those from `next` on. -/
theorem id_of_mem_entries (h : e ∈ p.entries next) : next ≤ e.id ∧ e.id ≤ next + p.nodesBelow := by
  have hid : e.id ∈ (p.entries next).map Entry.id := List.mem_map_of_mem h
  rw [map_id_entries, List.mem_range'_1] at hid
  omega

/-- The node with a number is the one of the entry with that number. So what is known of entries is
known of the table. -/
theorem getElem?_nodeTable_iff :
    p.nodeTable.nodes[id]? = some node ↔ ∃ source, ⟨id, node, source⟩ ∈ p.entries 0 := by
  rw [← Array.getElem?_toList, toList_nodeTable, ← List.mk_mem_zipIdx_iff_getElem?,
    zipIdx_entries, List.mem_map]
  constructor
  · rintro ⟨⟨i, n, source⟩, hmem, heq⟩
    cases heq
    exact ⟨source, hmem⟩
  · rintro ⟨source, hmem⟩
    exact ⟨_, hmem, rfl⟩

/-! ## Children -/

/-- A node refers to nodes of its own pattern that come before it. In particular it does not refer
to nodes that were there before the pattern. -/
theorem child_of_mem_entries (h : e ∈ p.entries next) (hc : c ∈ e.node.children) :
    next ≤ c ∧ c < e.id := by
  induction p generalizing next with
  | char | any | oneOf | noneOf =>
    obtain rfl := List.mem_singleton.mp h
    exact absurd hc List.not_mem_nil
  | seq left right ihl ihr | alt left right ihl ihr =>
    simp only [entries, List.mem_append, List.mem_singleton] at h
    rcases h with (h | h) | rfl
    · exact ihl h
    · have hright := ihr h
      omega
    · -- the node on top refers to the tops of its parts, which have the numbers before it.
      simp only [Node.children, List.mem_cons, List.not_mem_nil, or_false] at hc
      dsimp only
      omega
  | star inner ih =>
    simp only [entries, List.mem_append, List.mem_singleton] at h
    rcases h with h | rfl
    · exact ih h
    · simp only [Node.children, List.mem_singleton] at hc
      dsimp only
      omega
  | plus inner ih =>
    simp only [entries, List.mem_append, List.mem_cons, List.not_mem_nil, or_false] at h
    rcases h with h | rfl | rfl
    · exact ih h
    · simp only [Node.children, List.mem_singleton] at hc
      dsimp only
      omega
    · simp only [Node.children, List.mem_cons, List.not_mem_nil, or_false] at hc
      dsimp only
      omega
  | opt inner ih =>
    simp only [entries, List.mem_append, List.mem_cons, List.not_mem_nil, or_false] at h
    rcases h with h | rfl | rfl
    · exact ih h
    · exact absurd hc List.not_mem_nil
    · simp only [Node.children, List.mem_cons, List.not_mem_nil, or_false] at hc
      dsimp only
      omega

/-- What stands on top of "at least once" comes right behind its star, and that right behind the
operand. -/
theorem exists_of_plusTop (h : ⟨id, node, .plusTop⟩ ∈ p.entries next) :
    ∃ x, id = x + 2 ∧ node = .seq x (x + 1) ∧ ⟨x + 1, .star x, .plusStar⟩ ∈ p.entries next := by
  induction p generalizing next with
  | char | any | oneOf | noneOf => simp [entries] at h
  | seq left right ihl ihr | alt left right ihl ihr =>
    simp only [entries, List.mem_append, List.mem_singleton, Entry.mk.injEq, reduceCtorEq,
      and_false, or_false] at h
    rcases h with h | h
    · obtain ⟨x, hid, hnode, hstar⟩ := ihl h
      exact ⟨x, hid, hnode, List.mem_append_left _ (List.mem_append_left _ hstar)⟩
    · obtain ⟨x, hid, hnode, hstar⟩ := ihr h
      exact ⟨x, hid, hnode, List.mem_append_left _ (List.mem_append_right _ hstar)⟩
  | star inner ih | opt inner ih =>
    simp only [entries, List.mem_append, List.mem_cons, List.not_mem_nil, Entry.mk.injEq,
      reduceCtorEq, and_false, or_false] at h
    obtain ⟨x, hid, hnode, hstar⟩ := ih h
    exact ⟨x, hid, hnode, List.mem_append_left _ hstar⟩
  | plus inner ih =>
    simp only [entries, List.mem_append, List.mem_cons, List.not_mem_nil, Entry.mk.injEq,
      reduceCtorEq, and_false, false_or, or_false, and_true] at h
    -- either it is below the operand, or it is this one.
    rcases h with h | ⟨rfl, rfl⟩
    · obtain ⟨x, hid, hnode, hstar⟩ := ih h
      exact ⟨x, hid, hnode, List.mem_append_left _ hstar⟩
    · exact ⟨_, rfl, rfl, List.mem_append_right _ (List.mem_cons_self ..)⟩

/-! ## Parents -/

/-- The entries that refer to a node, each as often as it does. -/
def parentsIn (log : List Entry) (child : Nat) : List Nat :=
  log.flatMap fun e => List.replicate (e.node.children.count child) e.id

/-- The parents in a table are the entries that refer to a node. -/
theorem parents_nodeTable (p : Pattern) (x : Nat) :
    p.nodeTable.parents x = parentsIn (p.entries 0) x := by
  rw [NodeTable.parents, toList_nodeTable, zipIdx_entries, List.flatMap_map]
  rfl

variable {log a b : List Entry}

/-- The entries of two patterns, one after the other, are looked at one after the other. -/
theorem parentsIn_append (a b : List Entry) (x : Nat) :
    parentsIn (a ++ b) x = parentsIn a x ++ parentsIn b x :=
  List.flatMap_append

/-- A parent is the number of an entry with that child. -/
theorem mem_parentsIn {parent : Nat} :
    parent ∈ parentsIn log x ↔ ∃ e ∈ log, e.id = parent ∧ x ∈ e.node.children := by
  simp only [parentsIn, List.mem_flatMap, List.mem_replicate, ne_eq, List.count_eq_zero,
    Classical.not_not]
  constructor
  · rintro ⟨e, he, hx, rfl⟩
    exact ⟨e, he, rfl, hx⟩
  · rintro ⟨e, he, rfl, hx⟩
    exact ⟨e, he, hx, rfl⟩

/-- Where no entry has this child, there is no parent. -/
theorem parentsIn_eq_nil (h : ∀ e ∈ log, x ∉ e.node.children) : parentsIn log x = [] := by
  rw [List.eq_nil_iff_forall_not_mem]
  intro parent hparent
  obtain ⟨e, he, -, hx⟩ := mem_parentsIn.mp hparent
  exact h e he hx

/-- Nothing in a pattern refers to what is on top of it or to what is not in it. -/
theorem parentsIn_entries_eq_nil (p : Pattern) (next x : Nat)
    (h : x < next ∨ next + p.nodesBelow ≤ x) :
    parentsIn (p.entries next) x = [] := by
  refine parentsIn_eq_nil fun e he hx => ?_
  have hid := id_of_mem_entries he
  have hchild := child_of_mem_entries he hx
  omega

/-- How a node that is not on top is referred to. -/
inductive Use (log : List Entry) (x : Nat) : Prop where
  | once (parent : Nat) : parentsIn log x = [parent] → Use log x
  | repeated : parentsIn log x = [x + 1, x + 2] → ⟨x + 1, .star x, .plusStar⟩ ∈ log →
      ⟨x + 2, .seq x (x + 1), .plusTop⟩ ∈ log → Use log x

/-- How a node is used does not change if no entry that refers to it is added. -/
theorem Use.of_parentsIn (h : Use a x) (sub : a ⊆ b) (hparents : parentsIn b x = parentsIn a x) :
    Use b x := by
  cases h with
  | once _ hone => exact .once _ (hparents.trans hone)
  | repeated htwo hstar htop => exact .repeated (hparents.trans htwo) (sub hstar) (sub htop)

theorem Use.append_left (h : Use a x) (hb : parentsIn b x = []) : Use (a ++ b) x :=
  h.of_parentsIn (List.subset_append_left a b) (by rw [parentsIn_append, hb, List.append_nil])

theorem Use.append_right (ha : parentsIn a x = []) (h : Use b x) : Use (a ++ b) x :=
  h.of_parentsIn (List.subset_append_right a b) (by rw [parentsIn_append, ha, List.nil_append])

/-- Two patterns below one node, which refers to what is on top of them. Nothing in one of the
patterns refers to a node of the other. -/
theorem use_join {l r : Nat} (hl : l = next + left.nodesBelow) (hr : r = l + 1 + right.nodesBelow)
    (ihl : next ≤ x → x < l → Use (left.entries next) x)
    (ihr : l + 1 ≤ x → x < r → Use (right.entries (l + 1)) x)
    (he : e.node.children = [l, r]) (hx : next ≤ x) (hxtop : x ≤ r) :
    Use (left.entries next ++ right.entries (l + 1) ++ [e]) x := by
  have hleft := left.parentsIn_entries_eq_nil next x
  have hright := right.parentsIn_entries_eq_nil (l + 1) x
  have hlast (hne : x ≠ l ∧ x ≠ r) : parentsIn [e] x = [] := by
    refine parentsIn_eq_nil fun e' he' => ?_
    rw [List.mem_singleton.mp he', he]
    simp [hne]
  -- a node below the top of a part has its uses there, and the two tops are used here.
  obtain h | h | h : x < l ∨ (l + 1 ≤ x ∧ x < r) ∨ x = l ∨ x = r := by omega
  · exact ((ihl hx h).append_left (hright (by omega))).append_left (hlast (by omega))
  · exact (Use.append_right (hleft (by omega)) (ihr h.1 h.2)).append_left (hlast (by omega))
  · have hne : l ≠ r := by omega
    have hcount : [l, r].count x = 1 := by
      rcases h with rfl | rfl
      · simp [hne.symm]
      · simp [hne]
    refine .once e.id ?_
    rw [parentsIn_append, parentsIn_append, hleft (by omega), hright (by omega)]
    simp [parentsIn, he, hcount]

/-- **Every node of a pattern but the one on top has one parent, or is what "at least once"
repeats.** -/
theorem use_entries (p : Pattern) (next : Nat) (hx : next ≤ x) (hxtop : x < next + p.nodesBelow) :
    Use (p.entries next) x := by
  induction p generalizing next with
  | char | any | oneOf | noneOf =>
    simp only [nodesBelow] at hxtop
    omega
  | seq left right ihl ihr | alt left right ihl ihr =>
    simp only [nodesBelow] at hxtop
    exact use_join rfl rfl (ihl next) (ihr _) rfl hx (by omega)
  | star inner ih =>
    have hinner := inner.parentsIn_entries_eq_nil next x
    simp only [nodesBelow] at hxtop
    obtain h | rfl : x < next + inner.nodesBelow ∨ x = next + inner.nodesBelow := by omega
    · refine (ih next hx h).append_left ?_
      simp [parentsIn, Node.children, Nat.ne_of_gt h]
    · refine .once (next + inner.nodesBelow + 1) ?_
      rw [entries, parentsIn_append, hinner (by omega)]
      simp [parentsIn, Node.children]
  | plus inner ih =>
    have hinner := inner.parentsIn_entries_eq_nil next x
    simp only [nodesBelow] at hxtop
    -- below the operand nothing changes; the operand is used twice, and the star once.
    obtain h | rfl | rfl : x < next + inner.nodesBelow ∨ x = next + inner.nodesBelow ∨
        x = next + inner.nodesBelow + 1 := by omega
    · refine (ih next hx h).append_left ?_
      simp [parentsIn, Node.children, Nat.ne_of_gt h, Nat.ne_of_gt (Nat.lt_succ_of_lt h)]
    · refine .repeated ?_ ?_ ?_
      · rw [entries, parentsIn_append, hinner (by omega)]
        simp [parentsIn, Node.children]
      · simp [entries]
      · simp [entries]
    · refine .once (next + inner.nodesBelow + 2) ?_
      rw [entries, parentsIn_append, hinner (by omega)]
      simp [parentsIn, Node.children]
  | opt inner ih =>
    have hinner := inner.parentsIn_entries_eq_nil next x
    simp only [nodesBelow] at hxtop
    -- the operand and the empty node are both used once, by the node on top.
    obtain h | h : x < next + inner.nodesBelow ∨ x = next + inner.nodesBelow ∨
        x = next + inner.nodesBelow + 1 := by omega
    · refine (ih next hx h).append_left ?_
      simp [parentsIn, Node.children, Nat.ne_of_gt h, Nat.ne_of_gt (Nat.lt_succ_of_lt h)]
    · refine .once (next + inner.nodesBelow + 2) ?_
      rw [entries, parentsIn_append, hinner (by omega)]
      rcases h with rfl | rfl <;> simp [parentsIn, Node.children]

/-! ## The table -/

/-- A parent in the list is a node that refers to this one. -/
theorem mem_parents_nodeTable {parent : Nat} :
    parent ∈ p.nodeTable.parents x ↔ p.nodeTable.Refers parent x := by
  rw [parents_nodeTable, mem_parentsIn]
  constructor
  · rintro ⟨e, he, rfl, hx⟩
    exact ⟨e.node, getElem?_nodeTable_iff.mpr ⟨e.source, he⟩, hx⟩
  · rintro ⟨node, hnode, hx⟩
    obtain ⟨source, hmem⟩ := getElem?_nodeTable_iff.mp hnode
    exact ⟨_, hmem, rfl, hx⟩

/-- All nodes but the one on top are used in one of the two ways. -/
theorem use_nodeTable (hx : x < p.nodeTable.root) : Use (p.entries 0) x :=
  p.use_entries 0 (Nat.zero_le x) (by rw [Nat.zero_add, ← root_nodeTable]; exact hx)

/-- A node refers to nodes before it, and so not to the one on top. -/
theorem Refers.lt {parent child : Nat} (h : p.nodeTable.Refers parent child) :
    child < parent ∧ parent ≤ p.nodeTable.root := by
  obtain ⟨node, hnode, hchild⟩ := h
  obtain ⟨source, hmem⟩ := getElem?_nodeTable_iff.mp hnode
  refine ⟨(child_of_mem_entries hmem hchild).2, ?_⟩
  rw [root_nodeTable, ← Nat.zero_add p.nodesBelow]
  exact (id_of_mem_entries hmem).2

/-- Every node is below the one on top. Going up from a node to a parent ends at the top, since the
numbers only grow. -/
theorem reaches_nodeTable (hx : x ≤ p.nodeTable.root) :
    Relation.ReflTransGen p.nodeTable.Refers p.nodeTable.root x := by
  -- a parent comes later, so the induction goes down from the top.
  induction hrest : p.nodeTable.root - x using Nat.strongRecOn generalizing x with
  | _ rest ih =>
    obtain rfl | hlt := Nat.eq_or_lt_of_le hx
    · exact .refl
    · have hparent : ∃ parent, parent ∈ p.nodeTable.parents x := by
        rw [parents_nodeTable]
        cases use_nodeTable hlt with
        | once _ hone => exact ⟨_, hone ▸ List.mem_singleton_self _⟩
        | repeated htwo => exact ⟨_, htwo ▸ List.mem_cons_self ..⟩
      obtain ⟨parent, hparent⟩ := hparent
      have hrefers := mem_parents_nodeTable.mp hparent
      obtain ⟨hbefore, hle⟩ := Refers.lt hrefers
      exact (ih (p.nodeTable.root - parent) (by omega) hle rfl).tail hrefers

/-- The operand of "at least once" is referred to by the two nodes right behind it, the star and
then the sequence, and by no others. -/
theorem Repeats.parents_eq (h : p.Repeats x) :
    p.nodeTable.parents x = [x + 1, x + 2] ∧ p.nodeTable.nodes[x + 1]? = some (.star x) ∧
      p.nodeTable.nodes[x + 2]? = some (.seq x (x + 1)) ∧ p.IsPlusTop (x + 2) := by
  obtain ⟨top, star, htop⟩ := h
  obtain ⟨y, rfl, hnode, hstar⟩ := exists_of_plusTop htop
  obtain ⟨rfl, rfl⟩ := Node.seq.inj hnode
  have hstarNode := getElem?_nodeTable_iff.mpr ⟨_, hstar⟩
  have htopNode := getElem?_nodeTable_iff.mpr ⟨_, htop⟩
  refine ⟨?_, hstarNode, htopNode, _, htop⟩
  have hlt := (Refers.lt ⟨_, hstarNode, List.mem_singleton_self x⟩).2
  cases use_nodeTable (Nat.lt_of_succ_le hlt) with
  | once _ hone =>
    -- both nodes are parents, so there is more than one.
    have hfirst : x + 1 ∈ p.nodeTable.parents x :=
      mem_parents_nodeTable.mpr ⟨_, hstarNode, List.mem_singleton_self x⟩
    have hsecond : x + 2 ∈ p.nodeTable.parents x :=
      mem_parents_nodeTable.mpr ⟨_, htopNode, List.mem_cons_self ..⟩
    rw [parents_nodeTable, hone, List.mem_singleton] at hfirst hsecond
    omega
  | repeated htwo => exact (p.parents_nodeTable x).trans htwo

/-- A node with two different parents is not used once, so it is repeated: there is no third way to
be used. -/
theorem repeats_of_two_parents {q r : Nat} (hne : q ≠ r) (hq : p.nodeTable.Refers q x)
    (hr : p.nodeTable.Refers r x) : p.Repeats x := by
  have hlt := Refers.lt hq
  cases use_nodeTable (Nat.lt_of_lt_of_le hlt.1 hlt.2) with
  | once _ hone =>
    have hq' := mem_parents_nodeTable.mpr hq
    have hr' := mem_parents_nodeTable.mpr hr
    rw [parents_nodeTable, hone, List.mem_singleton] at hq' hr'
    exact absurd (hq'.trans hr'.symm) hne
  | repeated _ _ htop => exact ⟨_, _, htop⟩

/-- A node has more than one parent if and only if it is what "at least once" repeats. Every other
node but the one on top has exactly one. -/
theorem one_lt_length_parents_iff : 1 < (p.nodeTable.parents x).length ↔ p.Repeats x := by
  constructor
  · intro h
    obtain hlt | hle := Nat.lt_or_ge x p.nodeTable.root
    · cases use_nodeTable hlt with
      | once _ hone =>
        rw [parents_nodeTable, hone] at h
        exact absurd h (Nat.lt_irrefl 1)
      | repeated _ _ htop => exact ⟨_, _, htop⟩
    · have hnil := p.parentsIn_entries_eq_nil 0 x
        (.inr (by rw [Nat.zero_add, ← root_nodeTable]; exact hle))
      rw [parents_nodeTable, hnil] at h
      exact absurd h (Nat.not_lt_zero 1)
  · intro h
    rw [h.parents_eq.1]
    exact Nat.one_lt_two

/-- Nothing but the top of an "at least once" is taken for one. A sequence whose right part is a
star of its left part shares a node, and only "at least once" does. -/
theorem isPlus_iff : p.nodeTable.isPlus id = true ↔ p.IsPlusTop id := by
  constructor
  · intro h
    unfold NodeTable.isPlus at h
    split at h
    · next l r hid =>
      have hr : p.nodeTable.nodes[r]? = some (.star l) := eq_of_beq h
      have hlast : p.nodeTable.Refers id r := ⟨_, hid, by simp [Node.children]⟩
      have htop : p.nodeTable.Refers id l := ⟨_, hid, by simp [Node.children]⟩
      have hstar : p.nodeTable.Refers r l := ⟨_, hr, List.mem_singleton_self l⟩
      -- the operand has two parents, so these are the two nodes right behind it.
      have hlt := (Refers.lt hlast).1
      obtain ⟨hparents, -, -, hplus⟩ :=
        (repeats_of_two_parents (Nat.ne_of_lt hlt) hstar htop).parents_eq
      have hid' := mem_parents_nodeTable.mpr htop
      have hr' := mem_parents_nodeTable.mpr hstar
      simp only [hparents, List.mem_cons, List.not_mem_nil, or_false] at hid' hr'
      obtain rfl : id = l + 2 := by omega
      exact hplus
    · exact absurd h Bool.false_ne_true
  · rintro ⟨node, hmem⟩
    obtain ⟨x, rfl, rfl, hstar⟩ := exists_of_plusTop hmem
    exact NodeTable.isPlus_eq_true (getElem?_nodeTable_iff.mpr ⟨_, hmem⟩)
      (getElem?_nodeTable_iff.mpr ⟨_, hstar⟩)

/-- The question has an answer for every node: the nodes that it looks at are all in the table. -/
theorem checkPlus_nodeTable (hid : id < p.nodeTable.nodes.size) :
    p.nodeTable.checkPlus id = .ok (p.nodeTable.isPlus id) := by
  obtain ⟨node, hnode⟩ : ∃ node, p.nodeTable.nodes[id]? = some node :=
    ⟨_, Array.getElem?_eq_getElem hid⟩
  rw [NodeTable.checkPlus, NodeTable.isPlus, NodeTable.lookup_eq_ok hnode, hnode, ok_bind]
  cases node with
  | seq l r =>
    have hr : r < id := (Refers.lt (p := p) ⟨_, hnode, by simp [Node.children]⟩).1
    obtain ⟨right, hright⟩ : ∃ right, p.nodeTable.nodes[r]? = some right :=
      ⟨_, Array.getElem?_eq_getElem (Nat.lt_trans hr hid)⟩
    simp only [NodeTable.lookup_eq_ok hright, hright, ok_bind]
    rfl
  | _ => rfl

/-! ## Signs -/

/-- There is one top of an "at least once" for each plus sign that stands neither behind a backslash
nor in a class. -/
theorem composes_plusTop : Composes fun ms p =>
    ∀ next, (p.entries next).countP (fun e => e.source = .plusTop) = ms.count .plus where
  leaf p hp next := by
    cases p with
    | char | any | oneOf | noneOf => rfl
    | _ => simp [taskCount] at hp
  group ms p h next := by simp [h]
  star ms p h next := by simp [entries, h]
  plus ms p h next := by simp [entries, h]
  opt ms p h next := by simp [entries, h]
  seq ms ms' p q hp hq next := by simp [entries, hp, hq]
  alt ms ms' p q hp hq next := by simp [entries, hp, hq]

/-! ## All together -/

/-- **Only the operands of "at least once" are shared.** The nodes of an accepted pattern are its
entries, and as many of them are on top of an "at least once" as there are plus signs. Children come
before their parents, the last node is on top, and every node is below it. A node has more than one
parent if and only if an "at least once" repeats it; then its parents are the star and the sequence
right behind it. Where the nodes of a sequence look like "at least once", it is the top of one. -/
theorem sharing_exact {limit : Nat} {text : String} {p : Pattern}
    (h : Pattern.parse limit text = .ok p) :
    (p.nodeTable.nodes.toList = (p.entries 0).map Entry.node ∧
      (p.entries 0).map Entry.id = List.range p.nodeTable.nodes.size ∧
      (p.entries 0).countP (fun e => e.source = .plusTop) = (marks text.toList).count .plus) ∧
    (∀ (id : Nat) (node : Node), p.nodeTable.nodes[id]? = some node →
      ∀ child ∈ node.children, child < id) ∧
    p.nodeTable.nodes.size = p.nodeTable.root + 1 ∧
    (∀ id < p.nodeTable.nodes.size,
      Relation.ReflTransGen p.nodeTable.Refers p.nodeTable.root id) ∧
    (∀ id, 1 < (p.nodeTable.parents id).length ↔ p.Repeats id) ∧
    (∀ id, p.Repeats id →
      p.nodeTable.parents id = [id + 1, id + 2] ∧
      p.nodeTable.nodes[id + 1]? = some (.star id) ∧
      p.nodeTable.nodes[id + 2]? = some (.seq id (id + 1)) ∧ p.IsPlusTop (id + 2)) ∧
    (∀ id, p.nodeTable.isPlus id = true ↔ p.IsPlusTop id) ∧
    ∀ id < p.nodeTable.nodes.size, p.nodeTable.checkPlus id = .ok (p.nodeTable.isPlus id) := by
  have hsize : p.nodeTable.nodes.size = p.nodeTable.root + 1 := by
    rw [size_nodeTable, root_nodeTable]
  have hids : (p.entries 0).map Entry.id = List.range p.nodeTable.nodes.size := by
    rw [map_id_entries, size_nodeTable, List.range_eq_range']
  have hsigns := (derives_of_parseChars h).of_marks composes_plusTop 0
  refine ⟨⟨p.toList_nodeTable, hids, hsigns⟩, fun id node hnode child hchild => ?_, hsize,
    fun id hid => reaches_nodeTable (Nat.le_of_lt_succ (Nat.lt_of_lt_of_eq hid hsize)),
    fun _ => one_lt_length_parents_iff, fun _ => Repeats.parents_eq, fun _ => isPlus_iff,
    fun _ => checkPlus_nodeTable⟩
  exact (Refers.lt ⟨node, hnode, hchild⟩).1

/-- Stacked plus signs, and a repetition that is written out, which is not taken for "at least
once". -/
theorem sharing_exact_stacked : ∃ p, Pattern.parse 1 "(aa*)++" = .ok p ∧
    p.nodeTable.parents 3 = [4, 5] ∧ p.nodeTable.parents 5 = [6, 7] ∧
      p.nodeTable.parents 1 = [2] ∧ p.nodeTable.isPlus 7 = true ∧
      p.nodeTable.isPlus 3 = false := by
  have hparse : Pattern.parse 1 "(aa*)++" =
      .ok (.plus (.plus (.seq (.char 'a') (.star (.char 'a'))))) := by rfl
  obtain ⟨-, -, -, -, -, hrepeats, hplus, -⟩ := sharing_exact hparse
  refine ⟨_, hparse, (hrepeats 3 ⟨5, 4, by decide⟩).1, (hrepeats 5 ⟨7, 6, by decide⟩).1, by decide,
    (hplus 7).mpr ⟨.seq 5 6, by decide⟩, by decide⟩

end Pattern

end PathSum.Regex
