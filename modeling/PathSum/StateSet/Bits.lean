import Mathlib.Logic.Function.Basic
import PathSum.StateSet

/-!
# Sets of states over bit sets

A set of states is kept in a bit set of bounded length, which refuses bits past its end and has to
be told to grow. `BitSets` is what such bit sets can do, and `BitSets.Documented` what is known of
it. `BitSets.states` are sets of states over any of them.

`StateSet.kind` are the operations of the sets of states that digits of one number make, and
`StateSet.bits` are these digits as bit sets.
-/

namespace PathSum

/-- Sets of states by what can be done with them. An operation without a result is one that
panics. -/
structure StateSets (β : Type) where
  /-- The empty set, with room for the states below a number. -/
  empty : Nat → β
  ofFlags : List Bool → Option β
  ofList : List Nat → Option β
  insert : β → Nat → Option β
  union : β → β → β
  contains : β → Nat → Bool
  isEmpty : β → Bool
  size : β → Nat
  /-- The members, in the order in which they are visited. -/
  toList : β → List Nat
  toFlags : β → Nat → List Bool
  intersects : β → β → Bool
  same : β → β → Bool

/-- Bit sets by what can be done with them. What each operation does is not said here, so that any
such bit sets can be put in. -/
structure BitSets (β : Type) where
  /-- A number of bits, none of them set. -/
  clear : Nat → β
  /-- The number of bits. -/
  length : β → Nat
  /-- Asks for at least so many bits. -/
  grow : β → Nat → β
  /-- Sets a bit, if there is such a bit. -/
  insert : β → Nat → Option β
  contains : β → Nat → Bool
  union : β → β → β
  /-- The bits that are set in both. -/
  intersection : β → β → List Nat
  /-- The bits that are set. -/
  ones : β → List Nat
  countOnes : β → Nat
  isClear : β → Bool
  same : β → β → Bool

namespace BitSets

variable {β : Type}

/-- What is known of bit sets. A bit past the end is not set, and setting it is refused; growing and
taking a union keep the bits that are set; and two bit sets are equal only if they are of one
length. -/
structure Documented (B : BitSets β) : Prop where
  length_clear (n : Nat) : B.length (B.clear n) = n
  contains_clear (n s : Nat) : B.contains (B.clear n) s = false
  length_grow (b : β) (n : Nat) : B.length (B.grow b n) = max (B.length b) n
  contains_grow (b : β) (n s : Nat) : B.contains (B.grow b n) s = B.contains b s
  /-- Setting a bit past the end panics. -/
  insert_eq_none_iff (b : β) (s : Nat) : B.insert b s = none ↔ B.length b ≤ s
  length_insert {b c : β} {s : Nat} : B.insert b s = some c → B.length c = B.length b
  contains_insert {b c : β} {s : Nat} :
    B.insert b s = some c → ∀ t, B.contains c t = (B.contains b t || decide (s = t))
  /-- Bits past the end are never set. -/
  lt_length_of_contains {b : β} {s : Nat} : B.contains b s = true → s < B.length b
  length_union (b c : β) : B.length (B.union b c) = max (B.length b) (B.length c)
  contains_union (b c : β) (s : Nat) :
    B.contains (B.union b c) s = (B.contains b s || B.contains c s)
  mem_intersection (b c : β) (s : Nat) :
    s ∈ B.intersection b c ↔ B.contains b s = true ∧ B.contains c s = true
  mem_ones (b : β) (s : Nat) : s ∈ B.ones b ↔ B.contains b s = true
  pairwise_ones (b : β) : (B.ones b).Pairwise (· < ·)
  countOnes_eq (b : β) : B.countOnes b = (List.range (B.length b)).countP (B.contains b)
  isClear_iff (b : β) : B.isClear b = true ↔ ∀ s, B.contains b s = false
  /-- The lengths count as well as the bits. -/
  same_iff (b c : β) :
    B.same b c = true ↔ B.length b = B.length c ∧ ∀ s, B.contains b s = B.contains c s

variable (B : BitSets β)

/-! ## Sets of states -/

/-- Puts a state in, after growing up to it. -/
def insertState (b : β) (state : Nat) : Option β :=
  B.insert (if B.length b ≤ state then B.grow b (state + 1) else b) state

/-- Sets the bits with a flag, without growing. -/
def ofFlags (flags : List Bool) : Option β :=
  (flags.zipIdx.filter fun flag => flag.1).foldlM (fun b flag => B.insert b flag.2)
    (B.clear flags.length)

def ofStates (states : List Nat) : Option β :=
  states.foldlM B.insertState (B.clear 0)

/-- Puts the bits of another set in, after growing to its length. -/
def unionStates (b c : β) : β :=
  B.union (if B.length b < B.length c then B.grow b (B.length c) else b) c

def containsState (b : β) (state : Nat) : Bool :=
  decide (state < B.length b) && B.contains b state

/-- The sets of states over these bit sets. -/
def states : StateSets β where
  empty := B.clear
  ofFlags := B.ofFlags
  ofList := B.ofStates
  insert := B.insertState
  union := B.unionStates
  contains := B.containsState
  isEmpty := B.isClear
  size := B.countOnes
  toList := B.ones
  toFlags b n := (List.range n).map (B.containsState b)
  intersects b c := (B.intersection b c).head?.isSome
  same := B.same

end BitSets

namespace StateSet

/-- The operations of sets of states, over the digits of one number. -/
def kind : StateSets StateSet where
  empty := empty
  ofFlags flags := some (ofFlags flags)
  ofList states := some (ofList states)
  insert set state := some (set.insert state)
  union := union
  contains := contains
  isEmpty := isEmpty
  size := size
  toList := toList
  toFlags := toFlags
  intersects := intersects
  same a b := a == b

/-- Makes room for the states below `room`. -/
def grow (set : StateSet) (room : Nat) : StateSet :=
  set.union (empty room)

/-- Sets of states as the bit sets that they are. -/
def bits : BitSets StateSet where
  clear := empty
  length := room
  grow := grow
  insert set state := if state < set.room then some (set.insert state) else none
  contains := contains
  union := union
  intersection a b := a.toList.filter b.contains
  ones := toList
  countOnes := size
  isClear := isEmpty
  same a b := a == b

end StateSet

/-! ## Histories -/

/-- What can happen to numbered sets: a set is made, changed or copied. A history is a list of
these. -/
inductive StateSets.Command where
  | empty (r room : Nat)
  | ofFlags (r : Nat) (flags : List Bool)
  | ofList (r : Nat) (states : List Nat)
  /-- Makes `r` a copy of `q`. -/
  | copy (r q : Nat)
  | insert (r state : Nat)
  /-- Puts the members of `q` into `r`. -/
  | union (r q : Nat)

namespace StateSets

variable {β : Type} (K : StateSets β)

def step (sets : Nat → β) : Command → Option (Nat → β)
  | .empty r room => some (Function.update sets r (K.empty room))
  | .ofFlags r flags => (K.ofFlags flags).map (Function.update sets r)
  | .ofList r states => (K.ofList states).map (Function.update sets r)
  | .copy r q => some (Function.update sets r (sets q))
  | .insert r state => (K.insert (sets r) state).map (Function.update sets r)
  | .union r q => some (Function.update sets r (K.union (sets r) (sets q)))

/-- The sets after some commands. At first all are empty and have no room. -/
def run (commands : List Command) : Option (Nat → β) :=
  commands.foldlM K.step fun _ => K.empty 0

end StateSets

end PathSum
