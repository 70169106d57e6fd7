import Mathlib.Data.Finset.Lattice.Fold
import Mathlib.Order.Lattice.Nat
import PathSum.StateSet.Bits

/-!
# Histories of state sets

A set of states is the finite set that its history describes, whatever room it had when it was made
and however it grew. What the bit sets under it do is taken from what is known of them
(`BitSets.Documented`).

* `StateSets.describe`: the members and the room that a history describes.
* `BitSets.Represents`: the invariant, a bit set with these members and this length.
* `BitSets.Documented.represents_step`, `represents_run`: one command keeps it, so a history does.
* `BitSets.Documented.denotes`: all that can be seen of such a bit set are its members.
* `StateSet.states_bits`: the sets of states over digits are those that run.

**`StateSets.finite_sets`** puts this together.
-/

namespace PathSum

/-- A list has a first item if it has any. This is how an intersection is tested. -/
theorem isSome_head?_iff_exists {items : List Nat} :
    items.head?.isSome = true ↔ ∃ s, s ∈ items := by
  rw [List.isSome_head?]
  exact ⟨List.exists_mem_of_ne_nil items, fun ⟨_, hs⟩ => List.ne_nil_of_mem hs⟩

/-- What a set of states is: its members, and the states up to which it has room. -/
@[ext]
structure Extent where
  members : Finset Nat
  room : Nat
deriving DecidableEq

namespace Extent

def empty (room : Nat) : Extent :=
  ⟨∅, room⟩

def ofFlags (flags : List Bool) : Extent :=
  ⟨(Finset.range flags.length).filter fun s => flags[s]? = some true, flags.length⟩

/-- No more room than the largest member needs. -/
def ofMembers (members : Finset Nat) : Extent :=
  ⟨members, members.sup (· + 1)⟩

/-- A new member, and room up to it. -/
def insert (m : Extent) (state : Nat) : Extent :=
  ⟨Insert.insert state m.members, max m.room (state + 1)⟩

/-- The members of both, and the room of the one that has more. -/
def union (m n : Extent) : Extent :=
  ⟨m.members ∪ n.members, max m.room n.room⟩

/-- Past the last flag there are no members. -/
theorem mem_ofFlags {flags : List Bool} {s : Nat} :
    s ∈ (ofFlags flags).members ↔ flags[s]? = some true := by
  rw [ofFlags, Finset.mem_filter, Finset.mem_range]
  constructor
  · rintro ⟨-, hget⟩
    exact hget
  · intro hget
    exact ⟨(List.getElem?_eq_some_iff.mp hget).1, hget⟩

/-- Inserting into one of two sets is inserting into the other, once they are united. So a loop of
insertions can be gathered on the right. -/
theorem insert_union (m n : Extent) (state : Nat) :
    (m.insert state).union n = m.union (n.insert state) := by
  ext s
  · simp only [insert, union, Finset.mem_union, Finset.mem_insert]
    tauto
  · show max (max m.room (state + 1)) n.room = max m.room (max n.room (state + 1))
    rw [Nat.max_assoc, Nat.max_comm (state + 1)]

theorem union_empty (m : Extent) : m.union (.ofMembers ∅) = m := by
  ext s
  · simp [union, ofMembers]
  · exact Nat.max_eq_left (Nat.zero_le _)

theorem empty_union (m : Extent) : (empty 0).union m = m := by
  ext s
  · simp [union, empty]
  · exact Nat.max_eq_right (Nat.zero_le _)

theorem insert_ofMembers (members : Finset Nat) (state : Nat) :
    (ofMembers members).insert state = ofMembers (Insert.insert state members) := by
  rw [insert, ofMembers, ofMembers, Finset.sup_insert, Nat.max_comm]

end Extent

namespace StateSets

/-- What a command does to what the sets are. -/
def Command.describe (extents : Nat → Extent) : Command → Nat → Extent
  | .empty r room => Function.update extents r (.empty room)
  | .ofFlags r flags => Function.update extents r (.ofFlags flags)
  | .ofList r states => Function.update extents r (.ofMembers states.toFinset)
  | .copy r q => Function.update extents r (extents q)
  | .insert r state => Function.update extents r ((extents r).insert state)
  | .union r q => Function.update extents r ((extents r).union (extents q))

/-- What the sets are after some commands. -/
def describe (commands : List Command) : Nat → Extent :=
  commands.foldl Command.describe fun _ => .empty 0

variable {β : Type} (K : StateSets β)

/-- All that can be seen of a set are the members. -/
structure Denotes (set : β) (members : Finset Nat) : Prop where
  contains_iff (s : Nat) : K.contains set s = true ↔ s ∈ members
  size_eq : K.size set = members.card
  isEmpty_iff : K.isEmpty set = true ↔ members = ∅
  mem_toList (s : Nat) : s ∈ K.toList set ↔ s ∈ members
  pairwise_toList : (K.toList set).Pairwise (· < ·)
  toFlags_eq (n : Nat) : K.toFlags set n = (List.range n).map fun s => decide (s ∈ members)

end StateSets

namespace BitSets

variable {β : Type}

/-- A bit set of the room that is described, in which the bits of the members are set. -/
structure Represents (B : BitSets β) (b : β) (m : Extent) : Prop where
  contains_iff (s : Nat) : B.contains b s = true ↔ s ∈ m.members
  length_eq : B.length b = m.room

namespace Documented

variable {B : BitSets β} (documented : B.Documented) {b c : β} {m n : Extent}

include documented

/-! ## Operations -/

theorem represents_clear (room : Nat) : B.Represents (B.clear room) (.empty room) where
  contains_iff s := by
    rw [documented.contains_clear]
    exact ⟨nofun, fun h => absurd h (Finset.notMem_empty s)⟩
  length_eq := documented.length_clear room

/-- Setting a bit that there is changes the members, and not the room. -/
theorem exists_insert {s : Nat} (hs : s < B.length b) :
    ∃ c, B.insert b s = some c ∧ B.length c = B.length b ∧
      ∀ t, B.contains c t = (B.contains b t || decide (s = t)) := by
  cases hinsert : B.insert b s with
  | none => exact absurd hs (Nat.not_lt.mpr ((documented.insert_eq_none_iff b s).mp hinsert))
  | some c =>
    exact ⟨c, rfl, documented.length_insert hinsert, documented.contains_insert hinsert⟩

/-- A member can be inserted into every bit set, since it is made to grow first. It then has the
room for that member, or what it had if that was more. -/
theorem represents_insert (h : B.Represents b m) (s : Nat) :
    ∃ c, B.insertState b s = some c ∧ B.Represents c (m.insert s) := by
  -- after growing there is room for `s`, and the members are the same.
  have hgrown : ∃ d, (if B.length b ≤ s then B.grow b (s + 1) else b) = d ∧
      B.length d = max m.room (s + 1) ∧ ∀ t, B.contains d t = B.contains b t := by
    refine ⟨_, rfl, ?_, ?_⟩
    · split
      · rw [documented.length_grow, h.length_eq]
      · next hlt => rw [← h.length_eq, Nat.max_eq_left (Nat.lt_of_not_le hlt)]
    · intro t
      split
      · exact documented.contains_grow b (s + 1) t
      · rfl
  obtain ⟨d, hd, hlength, hcontains⟩ := hgrown
  have hs : s < B.length d := by omega
  obtain ⟨c, hinsert, hlength', hcontains'⟩ := documented.exists_insert hs
  refine ⟨c, by rw [insertState, hd, hinsert], fun t => ?_, hlength'.trans hlength⟩
  rw [hcontains', hcontains, Bool.or_eq_true, decide_eq_true_eq, h.contains_iff, Extent.insert,
    Finset.mem_insert, eq_comm, or_comm]

/-- Members inserted one after the other are united with what was there. The induction is on the
list, and the set it starts from varies. -/
theorem represents_foldlM (states : List Nat) (h : B.Represents b m) :
    ∃ c, states.foldlM B.insertState b = some c ∧
      B.Represents c (m.union (.ofMembers states.toFinset)) := by
  induction states generalizing b m with
  | nil => exact ⟨b, rfl, by rwa [List.toFinset_nil, Extent.union_empty]⟩
  | cons s states ih =>
    obtain ⟨c, hinsert, hc⟩ := documented.represents_insert h s
    obtain ⟨d, hrest, hd⟩ := ih hc
    refine ⟨d, ?_, ?_⟩
    · rw [List.foldlM_cons, hinsert]
      exact hrest
    · rwa [Extent.insert_union, Extent.insert_ofMembers, ← List.toFinset_cons] at hd

/-- So a list of members gives the set of them, with no spare room. -/
theorem represents_ofStates (states : List Nat) :
    ∃ c, B.ofStates states = some c ∧ B.Represents c (.ofMembers states.toFinset) := by
  have hfold := documented.represents_foldlM states (documented.represents_clear 0)
  rwa [Extent.empty_union] at hfold

/-- Without growing, bits can be set up to the length. The length stays, and the bits that are set
in the end are those from before and the new ones. -/
theorem exists_foldlM_insert (flags : List (Bool × Nat))
    (hflags : ∀ flag ∈ flags, flag.2 < B.length b) :
    ∃ c, flags.foldlM (fun b flag => B.insert b flag.2) b = some c ∧ B.length c = B.length b ∧
      ∀ t, B.contains c t = true ↔ B.contains b t = true ∨ ∃ flag ∈ flags, flag.2 = t := by
  induction flags generalizing b with
  | nil => exact ⟨b, rfl, rfl, fun t => by simp⟩
  | cons flag flags ih =>
    obtain ⟨c, hinsert, hlength, hcontains⟩ :=
      documented.exists_insert (hflags flag (List.mem_cons_self ..))
    have hflags' : ∀ f ∈ flags, f.2 < B.length c := by
      intro f hf
      rw [hlength]
      exact hflags f (List.mem_cons_of_mem _ hf)
    obtain ⟨d, hrest, hlength', hcontains'⟩ := ih hflags'
    refine ⟨d, ?_, ?_, ?_⟩
    · rw [List.foldlM_cons, hinsert]
      exact hrest
    · rw [hlength', hlength]
    · intro t
      rw [hcontains', hcontains, Bool.or_eq_true, decide_eq_true_eq, List.exists_mem_cons_iff,
        or_assoc]

/-- Flags never set a bit past the end, because the set is made as long as there are flags. Every
member is one of a flag that is up. -/
theorem represents_ofFlags (flags : List Bool) :
    ∃ c, B.ofFlags flags = some c ∧ B.Represents c (.ofFlags flags) := by
  have hflag (flag : Bool × Nat) : flag ∈ flags.zipIdx.filter (fun flag => flag.1) ↔
      flags[flag.2]? = some flag.1 ∧ flag.1 = true := by
    rw [List.mem_filter, List.mem_zipIdx_iff_getElem?]
  -- a flag stands at a place below the number of flags, which is the length.
  have hrange (flag) (h : flag ∈ flags.zipIdx.filter fun flag => flag.1) :
      flag.2 < B.length (B.clear flags.length) := by
    rw [documented.length_clear]
    exact (List.getElem?_eq_some_iff.mp ((hflag flag).mp h).1).1
  obtain ⟨c, hfold, hlength, hcontains⟩ := documented.exists_foldlM_insert _ hrange
  refine ⟨c, hfold, ?_, ?_⟩
  · intro s
    rw [hcontains, documented.contains_clear, Extent.mem_ofFlags]
    constructor
    · rintro (h | ⟨⟨f, _⟩, hf, rfl⟩)
      · exact nomatch h
      · obtain ⟨hget, rfl⟩ := (hflag _).mp hf
        exact hget
    · intro hget
      exact .inr ⟨(true, s), (hflag _).mpr ⟨hget, rfl⟩, rfl⟩
  · rw [hlength, documented.length_clear]
    rfl

/-- Growing for the other set adds no members. -/
theorem contains_unionStates (b c : β) (s : Nat) :
    B.contains (B.unionStates b c) s = (B.contains b s || B.contains c s) := by
  rw [unionStates, documented.contains_union]
  split
  · rw [documented.contains_grow]
  · rfl

/-- Uniting keeps the members of both. It grows for the other set first, so no member of it is lost.
-/
theorem represents_union (hb : B.Represents b m) (hc : B.Represents c n) :
    B.Represents (B.unionStates b c) (m.union n) where
  contains_iff s := by
    rw [documented.contains_unionStates, Bool.or_eq_true, Extent.union, Finset.mem_union,
      ← hb.contains_iff, ← hc.contains_iff]
  length_eq := by
    rw [unionStates, documented.length_union, Extent.union, ← hb.length_eq, ← hc.length_eq]
    split
    · rw [documented.length_grow, Nat.max_assoc, Nat.max_self]
    · rfl

/-! ## Histories -/

/-- One command keeps all sets as they are described. It changes one of them, and only the
description of that one is changed with it. -/
theorem represents_step {sets : Nat → β} {extents : Nat → Extent}
    (h : ∀ r, B.Represents (sets r) (extents r)) (command : StateSets.Command) :
    ∃ sets', B.states.step sets command = some sets' ∧
      ∀ r, B.Represents (sets' r) (command.describe extents r) := by
  -- a command changes one set and its description together.
  have hupdate (r : Nat) {c : β} {n : Extent} (hc : B.Represents c n) (q : Nat) :
      B.Represents (Function.update sets r c q) (Function.update extents r n q) := by
    by_cases hq : q = r
    · subst hq
      rwa [Function.update_self, Function.update_self]
    · rw [Function.update_of_ne hq, Function.update_of_ne hq]
      exact h q
  cases command with
  | empty r room => exact ⟨_, rfl, hupdate r (documented.represents_clear room)⟩
  | ofFlags r flags =>
    obtain ⟨c, hflags, hc⟩ := documented.represents_ofFlags flags
    refine ⟨_, ?_, hupdate r hc⟩
    show (B.ofFlags flags).map _ = _
    rw [hflags, Option.map_some]
  | ofList r states =>
    obtain ⟨c, hstates, hc⟩ := documented.represents_ofStates states
    refine ⟨_, ?_, hupdate r hc⟩
    show (B.ofStates states).map _ = _
    rw [hstates, Option.map_some]
  | copy r q => exact ⟨_, rfl, hupdate r (h q)⟩
  | insert r state =>
    obtain ⟨c, hinsert, hc⟩ := documented.represents_insert (h r) state
    refine ⟨_, ?_, hupdate r hc⟩
    show (B.insertState (sets r) state).map _ = _
    rw [hinsert, Option.map_some]
  | union r q => exact ⟨_, rfl, hupdate r (documented.represents_union (h r) (h q))⟩

/-- After any history, all sets are as it describes them. The induction is on the history, from any
sets on; in the beginning they are all empty and without room. -/
theorem represents_run (commands : List StateSets.Command) :
    ∃ sets, B.states.run commands = some sets ∧
      ∀ r, B.Represents (sets r) (StateSets.describe commands r) := by
  have hfold {sets : Nat → β} {extents : Nat → Extent}
      (h : ∀ r, B.Represents (sets r) (extents r)) :
      ∃ sets', commands.foldlM B.states.step sets = some sets' ∧
        ∀ r, B.Represents (sets' r) (commands.foldl StateSets.Command.describe extents r) := by
    induction commands generalizing sets extents with
    | nil => exact ⟨sets, rfl, h⟩
    | cons command commands ih =>
      obtain ⟨sets₁, hstep, h₁⟩ := documented.represents_step h command
      obtain ⟨sets₂, hrest, h₂⟩ := ih h₁
      refine ⟨sets₂, ?_, h₂⟩
      rw [List.foldlM_cons, hstep]
      exact hrest
  exact hfold fun _ => documented.represents_clear 0

/-! ## What can be seen -/

/-- The check of the length changes nothing, since no bit is set past the end. -/
theorem containsState_eq (b : β) (s : Nat) : B.containsState b s = B.contains b s := by
  rw [Bool.eq_iff_iff, containsState, Bool.and_eq_true, decide_eq_true_eq]
  exact and_iff_right_of_imp documented.lt_length_of_contains

/-- What is contained is what is a member, whatever the length. -/
theorem containsState_iff (h : B.Represents b m) (s : Nat) :
    B.containsState b s = true ↔ s ∈ m.members := by
  rw [documented.containsState_eq, h.contains_iff]

/-- Bits are counted up to the length, and each bit once. So their number is that of the members. -/
theorem countOnes_eq_card (h : B.Represents b m) : B.countOnes b = m.members.card := by
  have hmembers : ((List.range (B.length b)).filter (B.contains b)).toFinset = m.members := by
    ext s
    rw [List.mem_toFinset, List.mem_filter, List.mem_range, ← h.contains_iff]
    exact and_iff_right_of_imp documented.lt_length_of_contains
  rw [documented.countOnes_eq, List.countP_eq_length_filter, ← hmembers,
    List.toFinset_card_of_nodup (List.nodup_range.filter _)]

theorem isClear_iff_eq_empty (h : B.Represents b m) : B.isClear b = true ↔ m.members = ∅ := by
  rw [documented.isClear_iff, Finset.eq_empty_iff_forall_notMem]
  refine forall_congr' fun s => ?_
  rw [← h.contains_iff, Bool.not_eq_true]

/-- **All that can be seen of a bit set are the members that it represents.** Two sets with the same
members are told apart by their lengths only. -/
theorem denotes (h : B.Represents b m) : B.states.Denotes b m.members where
  contains_iff := documented.containsState_iff h
  size_eq := documented.countOnes_eq_card h
  isEmpty_iff := documented.isClear_iff_eq_empty h
  mem_toList s := by
    show s ∈ B.ones b ↔ _
    rw [documented.mem_ones, h.contains_iff]
  pairwise_toList := documented.pairwise_ones b
  toFlags_eq k := List.map_congr_left fun s _ => by
    rw [Bool.eq_iff_iff, decide_eq_true_eq]
    exact documented.containsState_iff h s

/-- The bits that are set in both are listed, and the first of them is asked for. -/
theorem intersects_iff (hb : B.Represents b m) (hc : B.Represents c n) :
    B.states.intersects b c = true ↔ ∃ s, s ∈ m.members ∧ s ∈ n.members := by
  show (B.intersection b c).head?.isSome = true ↔ _
  rw [isSome_head?_iff_exists]
  refine exists_congr fun s => ?_
  rw [documented.mem_intersection, hb.contains_iff, hc.contains_iff]

end Documented

end BitSets

/-! ## Digits of numbers as bit sets -/

namespace StateSet

/-- A set is determined by its room and its members. -/
theorem ext_contains {a b : StateSet} (hroom : a.room = b.room)
    (h : ∀ s, a.contains s = b.contains s) : a = b := by
  obtain ⟨_, x, _⟩ := a
  obtain ⟨_, y, _⟩ := b
  obtain rfl : x = y := Nat.eq_of_testBit_eq h
  obtain rfl := hroom
  rfl

/-- Room alone has no members. -/
theorem contains_grow (set : StateSet) (room s : Nat) :
    (set.grow room).contains s = set.contains s := by
  rw [grow, contains_union, contains_empty, Bool.or_false]

/-- No digit is set if and only if the number is zero. -/
theorem isEmpty_iff (set : StateSet) : set.isEmpty = true ↔ ∀ s, set.contains s = false := by
  rw [isEmpty, beq_iff_eq]
  constructor
  · intro h s
    rw [contains, h, Nat.zero_testBit]
  · intro h
    apply Nat.eq_of_testBit_eq
    intro s
    rw [Nat.zero_testBit]
    exact h s

/-- Counting the members by position comes to as many as listing them, because the list has each of
them once. -/
theorem size_eq_countP (set : StateSet) :
    set.size = (List.range set.room).countP set.contains := by
  have hmembers : ((List.range set.room).filter set.contains).toFinset = set.toList.toFinset := by
    ext s
    rw [List.mem_toFinset, List.mem_filter, List.mem_range, List.mem_toFinset, mem_toList]
    exact and_iff_right_of_imp lt_room_of_contains
  rw [size, List.countP_eq_length_filter, ← List.toFinset_card_of_nodup set.pairwise_toList.nodup,
    ← hmembers, List.toFinset_card_of_nodup (List.nodup_range.filter _)]

/-- The digits of numbers do what is known of bit sets. So what is proved over documented bit sets
is proved of sets that run. -/
theorem bits_documented : bits.Documented where
  length_clear _ := rfl
  contains_clear := contains_empty
  length_grow _ _ := rfl
  contains_grow := contains_grow
  insert_eq_none_iff set s := by
    show (if s < set.room then some (set.insert s) else none) = none ↔ set.room ≤ s
    split
    · next h => exact ⟨nofun, fun hle => absurd h (Nat.not_lt.mpr hle)⟩
    · next h => exact ⟨fun _ => Nat.le_of_not_lt h, fun _ => rfl⟩
  length_insert {set c s} h := by
    obtain ⟨hs, hc⟩ := Option.ite_none_right_eq_some.mp h
    cases hc
    exact Nat.max_eq_left hs
  contains_insert {set c s} h t := by
    obtain ⟨-, hc⟩ := Option.ite_none_right_eq_some.mp h
    cases hc
    exact contains_insert set s t
  lt_length_of_contains := lt_room_of_contains
  length_union _ _ := rfl
  contains_union := contains_union
  mem_intersection a b s := by
    show s ∈ a.toList.filter b.contains ↔ _
    rw [List.mem_filter, mem_toList]
    rfl
  mem_ones _ _ := mem_toList
  pairwise_ones := pairwise_toList
  countOnes_eq := size_eq_countP
  isClear_iff := isEmpty_iff
  same_iff a b := by
    show (a == b) = true ↔ _
    rw [beq_iff_eq]
    constructor
    · rintro rfl
      exact ⟨rfl, fun _ => rfl⟩
    · rintro ⟨hroom, h⟩
      exact ext_contains hroom h

/-- Room for a new member is made by putting it in, too. Asking for room first changes nothing over
the digits of numbers. -/
theorem insertState_bits (set : StateSet) (s : Nat) :
    bits.insertState set s = some (set.insert s) := by
  by_cases hs : bits.length set ≤ s
  · have hroom : max (max set.room (s + 1)) (s + 1) = max set.room (s + 1) := by omega
    have hinsert : (set.grow (s + 1)).insert s = set.insert s := by
      refine ext_contains hroom fun t => ?_
      rw [contains_insert, contains_grow, contains_insert]
    have hlt : s < (set.grow (s + 1)).room := Nat.le_max_right set.room (s + 1)
    have hgrown : bits.insert (set.grow (s + 1)) s = some ((set.grow (s + 1)).insert s) :=
      if_pos hlt
    rw [BitSets.insertState, if_pos hs]
    show bits.insert (set.grow (s + 1)) s = _
    rw [hgrown, hinsert]
  · rw [BitSets.insertState, if_neg hs]
    exact if_pos (Nat.lt_of_not_le hs)

/-- Each insertion makes room, so no insertion fails, and the loop is the one that runs. -/
theorem ofStates_bits (states : List Nat) : bits.ofStates states = some (ofList states) := by
  have hinsert : bits.insertState = fun set s => pure (set.insert s) := by
    funext set s
    exact insertState_bits set s
  rw [BitSets.ofStates, hinsert, List.foldlM_pure]
  rfl

/-- The digits of the flags are those that setting one bit after the other gives. -/
theorem ofFlags_bits (flags : List Bool) : bits.ofFlags flags = some (ofFlags flags) := by
  obtain ⟨c, hc, hrep⟩ := bits_documented.represents_ofFlags flags
  rw [hc, Option.some_inj]
  refine ext_contains hrep.length_eq fun s => ?_
  rw [Bool.eq_iff_iff, contains_ofFlags_iff, ← Extent.mem_ofFlags]
  exact hrep.contains_iff s

/-- Room for the members of another set is made by putting them in, too, as it is for a single
member. -/
theorem unionStates_bits (a b : StateSet) : bits.unionStates a b = a.union b := by
  by_cases hroom : bits.length a < bits.length b
  · rw [BitSets.unionStates, if_pos hroom]
    refine ext_contains ?_ fun s => ?_
    · show max (max a.room b.room) b.room = max a.room b.room
      omega
    · show ((a.grow b.room).union b).contains s = _
      rw [contains_union, contains_grow, contains_union]
  · rw [BitSets.unionStates, if_neg hroom]
    rfl

/-- Two numbers have a common digit if the list of common digits has a first one. -/
theorem intersection_bits (a b : StateSet) :
    (bits.intersection a b).head?.isSome = a.intersects b := by
  rw [Bool.eq_iff_iff, intersects_iff, isSome_head?_iff_exists]
  exact exists_congr (bits_documented.mem_intersection a b)

/-- **Over the digits of numbers, sets of states are those that run.** Each operation is compared
with the one that is used by automata. -/
theorem states_bits : bits.states = kind := by
  have hinsert : bits.insertState = fun set s => some (set.insert s) := by
    funext set s
    exact insertState_bits set s
  have hunion : bits.unionStates = union := by
    funext a b
    exact unionStates_bits a b
  have hcontains : bits.containsState = contains := by
    funext set s
    exact bits_documented.containsState_eq set s
  have hintersects : (fun a b => (bits.intersection a b).head?.isSome) = intersects := by
    funext a b
    exact intersection_bits a b
  rw [BitSets.states, funext ofFlags_bits, funext ofStates_bits, hinsert, hunion, hcontains,
    hintersects]
  rfl

end StateSet

/-! ## Finite sets -/

namespace StateSets

/-- After a history, every set is the finite set that is described. -/
def Follows {β : Type} (K : StateSets β) (commands : List Command) : Prop :=
  ∃ sets, K.run commands = some sets ∧
    (∀ r, K.Denotes (sets r) (describe commands r).members) ∧
    ∀ r q, (K.intersects (sets r) (sets q) = true ↔
        ∃ s, s ∈ (describe commands r).members ∧ s ∈ (describe commands q).members) ∧
      K.intersects (sets r) (sets q) = K.intersects (sets q) (sets r)

/-- Every history over documented bit sets ends with the sets that it describes: the invariant
`Represents` is kept by all commands, and all that is seen of a set follows from it. -/
theorem follows {β : Type} {B : BitSets β} (documented : B.Documented) (commands : List Command) :
    B.states.Follows commands := by
  obtain ⟨sets, hrun, h⟩ := documented.represents_run commands
  refine ⟨sets, hrun, fun r => documented.denotes (h r), fun r q => ?_⟩
  have hiff := documented.intersects_iff (h r) (h q)
  refine ⟨hiff, ?_⟩
  rw [Bool.eq_iff_iff, hiff, documented.intersects_iff (h q) (h r)]
  exact exists_congr fun s => and_comm

/-- **Whatever its room, a set of states is the finite set that its history describes**, over any
bit sets that do what is known of them. -/
theorem finite_sets (commands : List Command) :
    StateSet.kind.Follows commands ∧
    ∀ (β : Type) (B : BitSets β), B.Documented → B.states.Follows commands := by
  constructor
  · rw [← StateSet.states_bits]
    exact follows StateSet.bits_documented commands
  · intro β B documented
    exact follows documented commands

/-- A set with room for two states takes up a set with more room. Its own members stay, and those
beyond its room come in. -/
theorem finite_sets_union :
    ∃ sets, StateSet.bits.states.run
        [.ofFlags 0 [false, true], .ofList 1 [12, 3, 12], .union 0 1] = some sets ∧
      StateSet.bits.states.size (sets 0) = 3 ∧
      StateSet.bits.states.intersects (sets 1) (sets 0) = true ∧
      StateSet.bits.states.toFlags (sets 0) 5 = [false, true, false, true, false] := by
  obtain ⟨sets, hrun, hdenotes, hintersects⟩ :=
    (finite_sets [.ofFlags 0 [false, true], .ofList 1 [12, 3, 12], .union 0 1]).2
      StateSet StateSet.bits StateSet.bits_documented
  exact ⟨sets, hrun, (hdenotes 0).size_eq.trans (by decide),
    (hintersects 1 0).1.mpr ⟨3, by decide, by decide⟩,
    ((hdenotes 0).toFlags_eq 5).trans (by decide)⟩

end StateSets

end PathSum
