import PathSum.Proofs.Regex.Numbering
import PathSum.Proofs.Regex.Soundness
import PathSum.Regex.Printer

/-!
# Reading what was printed

Printing and reading meet in the printed form of the tree. The loop over a table of nodes writes
that form, though it works through a stack and meets shared nodes more than once; and the grammar
derives the form, so the reader accepts it.

* **`NodeTable.prints_of_holds`**: the top of a pattern is printed as the tree of the pattern,
  whatever else is on the stack, so the loop ends (`Pattern.printSteps_nodeTable`).
* **`Derives.classesOrdered`**: what reading says of classes. A class without items, or with a range
  in the wrong order, could be printed but not be read back.
* **`Tree.derivesItems_classItems`**: the items of a class. The first character of an item is never
  a dash, so a single character in front of it makes no range.
* **`Tree.derives_chars`**: the printed form of a tree is a repetition of its own. So it may stand
  beside others, behind a bar and in front of a star, and the groups around it are all that is ever
  open.

Main statement: **`Pattern.parse_print`**.
-/

namespace PathSum.Regex

variable {limit limit' : Nat} {text : List Char} {level : Level} {p : Pattern}
  {ranges : List (Char × Char)}

/-! ## Printing -/

namespace Tree

theorem text_char (c : Char) : (Tree.char c).text = c.toString := by
  simp [text_eq, chars]

theorem text_oneOf (set : CharSet) :
    (Tree.oneOf set).text = "[" ++ String.ofList (classItems set) ++ "]" := by
  simp [text_eq, chars, ← String.toList_inj]

theorem text_noneOf (set : CharSet) :
    (Tree.noneOf set).text = "[^" ++ String.ofList (classItems set) ++ "]" := by
  simp [text_eq, chars, ← String.toList_inj]

theorem text_seq (left right : Tree) :
    (Tree.seq left right).text = "(" ++ left.text ++ right.text ++ ")" := by
  simp [text_eq, chars, ← String.toList_inj]

theorem text_alt (left right : Tree) :
    (Tree.alt left right).text = "(" ++ left.text ++ "|" ++ right.text ++ ")" := by
  simp [text_eq, chars, ← String.toList_inj]

theorem text_star (inner : Tree) : (Tree.star inner).text = "(" ++ inner.text ++ ")*" := by
  simp [text_eq, chars, ← String.toList_inj]

end Tree

namespace NodeTable

/-- A node is printed as a tree, with a round for each piece, whatever is printed before and after
it. -/
def Prints (table : NodeTable) (id : Nat) (tree : Tree) : Prop :=
  ∀ count written pieces, table.printSteps (count + tree.pieceCount) ⟨written, .node id :: pieces⟩ =
    table.printSteps count ⟨written ++ tree.text, pieces⟩

variable {table : NodeTable} {id : Nat} {node : Node}

/-- A node without parts is printed in one round. -/
theorem Prints.leaf {tree : Tree} (hid : table.nodes[id]? = some node) (hleaf : node.pieces = [])
    (htext : node.opening = tree.text) (hcount : tree.pieceCount = 1) : table.Prints id tree := by
  intro count written pieces
  rw [hcount, printSteps_node hid, hleaf, htext, List.nil_append]

/-- A parenthesis, both parts and a parenthesis: one round for each of these pieces, and one to
replace the node by them. -/
theorem Prints.seq {l r : Nat} {left right : Tree} (hl : table.Prints l left)
    (hr : table.Prints r right) (hid : table.nodes[id]? = some (.seq l r)) :
    table.Prints id (.seq left right) := by
  intro count written pieces
  have hcount : count + (Tree.seq left right).pieceCount =
      count + 1 + right.pieceCount + left.pieceCount + 1 := by
    simp only [Tree.pieceCount]
    omega
  calc table.printSteps (count + (Tree.seq left right).pieceCount) ⟨written, .node id :: pieces⟩
      = table.printSteps (count + 1 + right.pieceCount + left.pieceCount)
          ⟨written ++ "(", .node l :: .node r :: .text ")" :: pieces⟩ := by
        rw [hcount, printSteps_node hid]
        rfl
    _ = table.printSteps count ⟨written ++ "(" ++ left.text ++ right.text ++ ")", pieces⟩ := by
        rw [hl, hr, printSteps_text]
    _ = table.printSteps count ⟨written ++ (Tree.seq left right).text, pieces⟩ := by
        simp only [Tree.text_seq, String.append_assoc]

/-- The same with a bar between the parts, which takes one round more. -/
theorem Prints.alt {l r : Nat} {left right : Tree} (hl : table.Prints l left)
    (hr : table.Prints r right) (hid : table.nodes[id]? = some (.alt l r)) :
    table.Prints id (.alt left right) := by
  intro count written pieces
  have hcount : count + (Tree.alt left right).pieceCount =
      count + 1 + right.pieceCount + 1 + left.pieceCount + 1 := by
    simp only [Tree.pieceCount]
    omega
  calc table.printSteps (count + (Tree.alt left right).pieceCount) ⟨written, .node id :: pieces⟩
      = table.printSteps (count + 1 + right.pieceCount + 1 + left.pieceCount)
          ⟨written ++ "(", .node l :: .text "|" :: .node r :: .text ")" :: pieces⟩ := by
        -- the node is replaced by its pieces, and these are written one after another.
        rw [hcount, printSteps_node hid]
        rfl
    _ = table.printSteps count
          ⟨written ++ "(" ++ left.text ++ "|" ++ right.text ++ ")", pieces⟩ := by
        rw [hl, printSteps_text, hr, printSteps_text]
    _ = table.printSteps count ⟨written ++ (Tree.alt left right).text, pieces⟩ := by
        simp only [Tree.text_alt, String.append_assoc]

/-- The operand between parentheses, and the star behind them, so that it is read back as an atom
with a star. -/
theorem Prints.star {x : Nat} {inner : Tree} (hx : table.Prints x inner)
    (hid : table.nodes[id]? = some (.star x)) : table.Prints id (.star inner) := by
  intro count written pieces
  have hcount : count + (Tree.star inner).pieceCount = count + 1 + inner.pieceCount + 1 := by
    simp only [Tree.pieceCount]
    omega
  calc table.printSteps (count + (Tree.star inner).pieceCount) ⟨written, .node id :: pieces⟩
      = table.printSteps (count + 1 + inner.pieceCount)
          ⟨written ++ "(", .node x :: .text ")*" :: pieces⟩ := by
        rw [hcount, printSteps_node hid]
        rfl
    _ = table.printSteps count ⟨written ++ "(" ++ inner.text ++ ")*", pieces⟩ := by
        rw [hx, printSteps_text]
    _ = table.printSteps count ⟨written ++ (Tree.star inner).text, pieces⟩ := by
        simp only [Tree.text_star, String.append_assoc]

/-- **The top of a pattern is printed as the tree of the pattern**, by induction on the pattern. A
shared operand is visited once for each node that refers to it. -/
theorem prints_of_holds (h : Holds table.nodes p id) : table.Prints id p.tree := by
  induction h with
  | char hid => exact .leaf hid rfl (Tree.text_char _).symm rfl
  | any hid => exact .leaf hid rfl rfl rfl
  | oneOf hid => exact .leaf hid rfl (Tree.text_oneOf _).symm rfl
  | noneOf hid => exact .leaf hid rfl (Tree.text_noneOf _).symm rfl
  | seq _ _ hid _ _ ihl ihr => exact ihl.seq ihr hid
  | alt _ _ hid ihl ihr => exact ihl.alt ihr hid
  | star _ hid ih => exact ih.star hid
  | plus _ hagain hid ih =>
    -- the shared operand is printed once for the sequence and once for its star.
    exact ih.seq (ih.star hagain) hid
  | @opt _ e _ _ _ he hid ih =>
    have hempty : table.Prints e .empty := .leaf he rfl rfl rfl
    exact hempty.alt ih hid

end NodeTable

/-- The loop ends with the printed form of the tree. -/
theorem Pattern.printSteps_nodeTable (p : Pattern) {count : Nat} (h : p.tree.pieceCount ≤ count) :
    p.nodeTable.printSteps count (.start p.nodeTable.root) = some ⟨p.tree.text, []⟩ := by
  have htop : p.nodeTable.Prints p.nodeTable.root p.tree :=
    NodeTable.prints_of_holds (p.numbers_number #[]).holds
  obtain ⟨spare, rfl⟩ := Nat.exists_eq_add_of_le' h
  rw [Printing.start, htop, NodeTable.printSteps_of_done, String.empty_append]

/-! ## Classes -/

/-- The ranges of a class that was read are in order. -/
theorem DerivesItems.ordered (h : DerivesItems text ranges) :
    ∀ range ∈ ranges, range.1 ≤ range.2 := by
  induction h with
  | nil => nofun
  | single _ _ _ ih => exact List.forall_mem_cons.mpr ⟨Char.le_refl _, ih⟩
  | range _ _ hle _ ih => exact List.forall_mem_cons.mpr ⟨hle, ih⟩

namespace Tree

/-- Every class has an item, and all ranges are in order. -/
def ClassesOrdered : Tree → Prop
  | .empty | .char _ | .any => True
  | .oneOf set | .noneOf set => set.ranges ≠ [] ∧ ∀ range ∈ set.ranges, range.1 ≤ range.2
  | .seq left right | .alt left right => left.ClassesOrdered ∧ right.ClassesOrdered
  | .star inner => inner.ClassesOrdered

end Tree

/-- By induction on the derivation, all classes of a pattern that was read are in order. -/
theorem Derives.classesOrdered (h : Derives level limit text p) : p.tree.ClassesOrdered := by
  induction h with
  | char | escaped | any => trivial
  | oneOf hitems hne | noneOf hitems hne => exact ⟨hne, hitems.ordered⟩
  | group _ ih | once _ ih | star _ ih | single _ ih | only _ ih => exact ih
  | plus _ ih => exact ⟨ih, ih⟩
  | opt _ ih => exact ⟨trivial, ih⟩
  | seq _ _ ihl ihr | alt _ _ ihl ihr => exact ⟨ihl, ihr⟩

namespace Tree

/-- The printed items begin with a bound of a range. -/
theorem head?_classItems {c : Char} (h : (classItems ⟨ranges⟩).head? = some c) :
    ∃ range ∈ ranges, range.1 = c := by
  cases ranges with
  | nil => cases h
  | cons range ranges =>
    refine ⟨range, List.mem_cons_self, ?_⟩
    simp only [classItems, List.flatMap_cons] at h
    split at h <;> exact Option.some.inj h

/-- The printed items are read as the ranges that they were printed for. A dash only stands between
the bounds of a range. -/
theorem derivesItems_classItems (hreadable : CharSet.Readable ⟨ranges⟩)
    (hordered : ∀ range ∈ ranges, range.1 ≤ range.2) :
    DerivesItems (classItems ⟨ranges⟩) ranges := by
  induction ranges with
  | nil => exact .nil
  | cons range ranges ih =>
    obtain ⟨lo, hi⟩ := range
    obtain ⟨⟨hlo, hhi⟩, hrest⟩ := List.forall_mem_cons.mp hreadable
    obtain ⟨hle, hordered⟩ := List.forall_mem_cons.mp hordered
    have hplain {c : Char} (hc : c ∉ classSigns) : DerivesClassChar [c] c :=
      .plain (fun h => hc (h ▸ by decide)) (fun h => hc (h ▸ by decide))
    by_cases heq : lo = hi
    · have hitems : classItems ⟨(lo, hi) :: ranges⟩ = [lo] ++ classItems ⟨ranges⟩ := by
        simp [classItems, heq]
      rw [hitems, ← heq]
      -- no dash may follow, or the three characters would be a range.
      refine .single (hplain hlo) (ih hrest hordered) fun next more hdash => ?_
      obtain ⟨range, hmem, hfirst⟩ := head?_classItems (congrArg List.head? hdash)
      exact (hrest range hmem).1 (hfirst ▸ by decide)
    · have hitems : classItems ⟨(lo, hi) :: ranges⟩ =
          [lo] ++ '-' :: ([hi] ++ classItems ⟨ranges⟩) := by
        simp [classItems, heq]
      rw [hitems]
      exact .range (hplain hlo) (hplain hhi) hle (ih hrest hordered)

/-! ## Trees -/

/-- **The printed form is read as one atom with its stars**, whatever stands beside it. The
induction is on the tree; each part comes in parentheses of its own, so the limit has to be as high
as the tree. -/
theorem derives_chars {tree : Tree} (hreadable : tree.Readable) (hordered : tree.ClassesOrdered) :
    ∃ p, p.tree = tree ∧ Derives .repetition tree.height tree.chars p := by
  induction tree with
  | empty => cases hreadable
  | char c => exact ⟨.char c, rfl, .once (.char hreadable)⟩
  | oneOf set =>
    have hitems := derivesItems_classItems hreadable hordered.2
    -- a caret in front would negate the class, and a readable set begins with none.
    refine ⟨.oneOf set, rfl, .once (.oneOf hitems hordered.1 fun hcaret => ?_)⟩
    obtain ⟨range, hmem, hfirst⟩ := head?_classItems hcaret
    exact (hreadable range hmem).1 (hfirst ▸ by decide)
  | noneOf set =>
    have hitems := derivesItems_classItems hreadable hordered.2
    exact ⟨.noneOf set, rfl, .once (.noneOf hitems hordered.1)⟩
  | any => exact ⟨.any, rfl, .once .any⟩
  | seq left right ihl ihr =>
    obtain ⟨p, rfl, hp⟩ := ihl hreadable.1 hordered.1
    obtain ⟨q, rfl, hq⟩ := ihr hreadable.2 hordered.2
    -- each part is printed so that it is one atom, which may stand in a sequence.
    have hseq := Derives.seq (.single (hp.mono (Nat.le_max_left ..)))
      (hq.mono (Nat.le_max_right ..))
    exact ⟨.seq p q, rfl, .once (.group (.only hseq))⟩
  | alt left right ihl ihr =>
    obtain ⟨p, rfl, hp⟩ := ihl hreadable.1 hordered.1
    obtain ⟨q, rfl, hq⟩ := ihr hreadable.2 hordered.2
    have halt := Derives.alt (.only (.single (hp.mono (Nat.le_max_left ..))))
      (.single (hq.mono (Nat.le_max_right ..)))
    exact ⟨.alt p q, rfl, .once (.group halt)⟩
  | star inner ih =>
    obtain ⟨p, rfl, hp⟩ := ih hreadable hordered
    have hchars : (Tree.star p.tree).chars = '(' :: (p.tree.chars ++ [')']) ++ ['*'] := by
      simp [chars]
    exact ⟨.star p, rfl, hchars ▸ .star (.once (.group (.only (.single hp))))⟩

end Tree

namespace Pattern

/-- The printed form of a pattern that was read is read as a pattern with the same tree, under every
limit that is not below its height. -/
theorem exists_parse_text (h : Derives level limit text p) (hreadable : p.tree.Readable)
    (hheight : p.tree.height ≤ limit') :
    ∃ q, parse limit' p.tree.text = .ok q ∧ q.tree = p.tree := by
  obtain ⟨q, htree, hderives⟩ := Tree.derives_chars hreadable h.classesOrdered
  refine ⟨q, ?_, htree⟩
  rw [parse, Tree.text_eq, String.toList_ofList]
  exact ((Derives.only (.single hderives)).mono hheight).parseChars

/-- **What was printed is read back.** A table is printed with a round for each piece of its tree.
If nothing in the printed form stands for anything else, the form is read as a pattern with the same
tree, and no other tree has that form. -/
theorem parse_print {text : String} (h : parse limit text = .ok p) (hreadable : p.tree.Readable)
    (hheight : p.tree.height ≤ limit') :
    (∀ count, p.tree.pieceCount ≤ count →
      p.nodeTable.printSteps count (.start p.nodeTable.root) = some ⟨p.tree.text, []⟩) ∧
    (∃ q, parse limit' p.tree.text = .ok q ∧ q.tree = p.tree ∧
      q.nodeTable.tree? = p.nodeTable.tree?) ∧
    ∀ limit₂ text₂ p₂, parse limit₂ text₂ = .ok p₂ → p₂.tree.Readable →
      p₂.tree.text = p.tree.text → p₂.tree = p.tree := by
  have hderives := derives_of_parseChars h
  refine ⟨fun count hcount => p.printSteps_nodeTable hcount, ?_, ?_⟩
  · obtain ⟨q, hparse, htree⟩ := exists_parse_text hderives hreadable hheight
    exact ⟨q, hparse, htree, by rw [tree?_nodeTable, tree?_nodeTable, htree]⟩
  · intro limit₂ text₂ p₂ h₂ hreadable₂ htext
    -- under a limit that is high enough for both, the form is read only once.
    obtain ⟨q, hparse, htree⟩ := exists_parse_text hderives hreadable
      (Nat.le_max_left _ p₂.tree.height)
    obtain ⟨q₂, hparse₂, htree₂⟩ := exists_parse_text (derives_of_parseChars h₂) hreadable₂
      (Nat.le_max_right p.tree.height _)
    rw [htext, hparse, Except.ok.injEq] at hparse₂
    rw [← htree₂, ← hparse₂, htree]

/-- The operand of "at least once" is shared in the table and comes twice in the printed form. -/
theorem parse_print_shared :
    ∃ p q, parse 0 "[a-cx]+|]*.b" = .ok p ∧
      p.nodeTable.printSteps 18 (.start p.nodeTable.root) =
        some ⟨"(([a-cx]([a-cx])*)|(((])*.)b))", []⟩ ∧
      parse 4 "(([a-cx]([a-cx])*)|(((])*.)b))" = .ok q ∧ q.tree = p.tree := by
  let p : Pattern := .alt (.plus (.oneOf ⟨[('a', 'c'), ('x', 'x')]⟩))
    (.seq (.seq (.star (.char ']')) .any) (.char 'b'))
  have hparse : parse 0 "[a-cx]+|]*.b" = .ok p := by rfl
  obtain ⟨hprint, ⟨q, hback, htree, _⟩, _⟩ := @parse_print 0 4 p _ hparse (by decide) (by decide)
  exact ⟨p, q, hparse, hprint 18 (by decide), hback, htree⟩

end Pattern

end PathSum.Regex
