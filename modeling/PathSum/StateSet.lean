/-!
# Sets of states

A set of natural numbers, packed into the binary digits of one number. A set also remembers up to
where it has room: room is given when it is made and grows with what is put in, and two sets are
equal only if they have the same room and the same members.

Main statements: `contains_*` say which members each operation gives, `mem_toList` that the list of
members is complete, `pairwise_toList` that it is ascending, and `intersects_iff` that two sets
intersect where they share a member.
-/

namespace PathSum

/-- A set of states below `room`. -/
structure StateSet where
  /-- All members are below this number. -/
  room : Nat
  /-- Digit `s` of this number is one exactly for the members `s`. -/
  digits : Nat
  digits_lt : digits < 1 <<< room
deriving DecidableEq

namespace StateSet

/-- A digit is set at every position, so there is always a number with just that digit. -/
theorem shift_pos (n : Nat) : 0 < 1 <<< n := by
  rw [Nat.one_shiftLeft]
  exact Nat.two_pow_pos n

theorem shift_lt_shift {m n : Nat} (h : m < n) : 1 <<< m < 1 <<< n := by
  rw [Nat.one_shiftLeft, Nat.one_shiftLeft]
  exact Nat.pow_lt_pow_right (by decide) h

/-- Digits of two numbers together take no more room than the larger needs. -/
theorem or_lt_shift {x y m n : Nat} (hx : x < 1 <<< m) (hy : y < 1 <<< n) :
    x ||| y < 1 <<< max m n := by
  rw [Nat.one_shiftLeft] at *
  exact Nat.or_lt_two_pow
    (Nat.lt_of_lt_of_le hx (Nat.pow_le_pow_right (by decide) (Nat.le_max_left ..)))
    (Nat.lt_of_lt_of_le hy (Nat.pow_le_pow_right (by decide) (Nat.le_max_right ..)))

/-- The empty set with room for the states below `room`. -/
def empty (room : Nat) : StateSet where
  room
  digits := 0
  digits_lt := shift_pos room

/-- Whether a state is a member: whether its digit is set. -/
def contains (set : StateSet) (state : Nat) : Bool :=
  set.digits.testBit state

/-- Puts a state in, and makes room for it. -/
def insert (set : StateSet) (state : Nat) : StateSet where
  room := max set.room (state + 1)
  digits := set.digits ||| 1 <<< state
  digits_lt := or_lt_shift set.digits_lt (shift_lt_shift (Nat.lt_succ_self state))

/-- The members of both sets, with the larger room. -/
def union (a b : StateSet) : StateSet where
  room := max a.room b.room
  digits := a.digits ||| b.digits
  digits_lt := or_lt_shift a.digits_lt b.digits_lt

/-- Whether two sets share a member: whether their numbers share a digit. -/
def intersects (a b : StateSet) : Bool :=
  a.digits &&& b.digits != 0

def isEmpty (set : StateSet) : Bool :=
  set.digits == 0

/-- Puts the positions of the digits that are one before a list, in ascending order. Only these
digits are visited, the highest one first. -/
def positions (digits : Nat) (above : List Nat) : List Nat :=
  if digits = 0 then above
  else positions (digits % 1 <<< digits.log2) (digits.log2 :: above)
termination_by digits
decreasing_by
  rename_i h
  rw [Nat.one_shiftLeft]
  exact Nat.lt_of_lt_of_le (Nat.mod_lt _ (Nat.two_pow_pos _)) (Nat.log2_self_le h)

/-- The members in ascending order. -/
def toList (set : StateSet) : List Nat :=
  positions set.digits []

/-- The number of members. -/
def size (set : StateSet) : Nat :=
  set.toList.length

/-- A set from a list of members, without spare room. -/
def ofList (states : List Nat) : StateSet :=
  states.foldl insert (empty 0)

/-! ## Flags -/

/-- The number whose binary digits are the flags, the first one lowest. -/
def digitsOfFlags : List Bool → Nat
  | [] => 0
  | flag :: flags => flag.toNat + 2 * digitsOfFlags flags

/-- Flags need no more digits than there are flags. -/
theorem digitsOfFlags_lt (flags : List Bool) : digitsOfFlags flags < 1 <<< flags.length := by
  induction flags with
  | nil => decide
  | cons flag flags ih =>
    have hflag := flag.toNat_le
    rw [Nat.one_shiftLeft] at *
    simp only [digitsOfFlags, List.length_cons, Nat.pow_succ]
    omega

/-- The set of the positions that are flagged, with room for all positions. -/
def ofFlags (flags : List Bool) : StateSet where
  room := flags.length
  digits := digitsOfFlags flags
  digits_lt := digitsOfFlags_lt flags

/-- A flag for each of the states below `n`. Members past these are left out, and flags past the
room are down. -/
def toFlags (set : StateSet) (n : Nat) : List Bool :=
  (List.range n).map set.contains

/-- The members as they are printed, in ascending order between braces. -/
def text (set : StateSet) : String :=
  "\x7b" ++ ", ".intercalate (set.toList.map toString) ++ "\x7d"

/-! ## Members -/

@[simp]
theorem contains_empty (room state : Nat) : (empty room).contains state = false :=
  Nat.zero_testBit state

/-- Inserting adds the state that is inserted, whatever room there was. -/
@[simp]
theorem contains_insert (set : StateSet) (s t : Nat) :
    (set.insert s).contains t = (set.contains t || decide (s = t)) := by
  simp [contains, insert, Nat.testBit_or, Nat.one_shiftLeft, Nat.testBit_two_pow]

/-- The members of either set are those of the union, whatever room there was. -/
@[simp]
theorem contains_union (a b : StateSet) (state : Nat) :
    (a.union b).contains state = (a.contains state || b.contains state) := by
  simp [contains, union, Nat.testBit_or]

/-- Members have room. The number is smaller than the power of two at the room, so it has no digits
from there on. -/
theorem lt_room_of_contains {set : StateSet} {state : Nat} (h : set.contains state = true) :
    state < set.room := by
  apply Nat.lt_of_not_le
  intro hle
  have hdigits := set.digits_lt
  rw [Nat.one_shiftLeft] at hdigits
  have hlt := Nat.lt_of_lt_of_le hdigits (Nat.pow_le_pow_right (by decide) hle)
  rw [contains, Nat.testBit_lt_two_pow hlt] at h
  contradiction

/-- The loop finds all digits that are set, and keeps what was found above them. The induction is on
the digits that are left. -/
theorem mem_positions {digits state : Nat} {above : List Nat} :
    state ∈ positions digits above ↔ digits.testBit state = true ∨ state ∈ above := by
  fun_induction positions digits above with
  | case1 above => simp
  | case2 digits above h ih =>
    rw [ih, List.mem_cons, Nat.one_shiftLeft, Nat.testBit_mod_two_pow]
    have htop : digits.testBit digits.log2 = true := Nat.testBit_log2 h
    have hhigh : digits.testBit state = true → state ≤ digits.log2 := fun hbit =>
      Nat.le_of_not_lt fun hlt => by
        rw [Nat.testBit_lt_two_pow ((Nat.log2_lt h).1 hlt)] at hbit
        contradiction
    grind

/-- The highest digit is found first and put in front of those above it. Invariant: what is left of
the number is too small to have a digit at a position that was found. -/
theorem pairwise_positions {digits : Nat} {above : List Nat} (habove : above.Pairwise (· < ·))
    (hdigits : ∀ s ∈ above, digits < 1 <<< s) : (positions digits above).Pairwise (· < ·) := by
  fun_induction positions digits above with
  | case1 above => exact habove
  | case2 digits above h ih =>
    have hmod : digits % 1 <<< digits.log2 < 1 <<< digits.log2 := Nat.mod_lt _ (shift_pos _)
    refine ih (List.pairwise_cons.2 ⟨fun s hs => ?_, habove⟩) fun s hs => ?_
    · have hlt := hdigits s hs
      rw [Nat.one_shiftLeft] at hlt
      exact (Nat.log2_lt h).2 hlt
    · rcases List.mem_cons.1 hs with rfl | hs
      · exact hmod
      · exact Nat.lt_of_le_of_lt (Nat.mod_le ..) (hdigits s hs)

@[simp]
theorem mem_toList {set : StateSet} {state : Nat} :
    state ∈ set.toList ↔ set.contains state = true := by
  simp [toList, mem_positions, contains]

theorem pairwise_toList (set : StateSet) : set.toList.Pairwise (· < ·) :=
  pairwise_positions List.Pairwise.nil nofun

/-- The digit at a position is the flag at it, and past the last flag there is none, so no member is
as large as the number of flags. -/
theorem testBit_digitsOfFlags (flags : List Bool) (state : Nat) :
    (digitsOfFlags flags).testBit state = flags.getD state false := by
  induction flags generalizing state with
  | nil => simp [digitsOfFlags]
  | cons flag flags ih =>
    cases state with
    | zero => cases flag <;> simp [digitsOfFlags, Nat.testBit_zero]
    | succ state =>
      have hdiv : (flag.toNat + 2 * digitsOfFlags flags) / 2 = digitsOfFlags flags := by
        cases flag <;> simp only [Bool.toNat_false, Bool.toNat_true] <;> omega
      rw [digitsOfFlags, Nat.testBit_succ, hdiv, ih]
      simp

@[simp]
theorem contains_ofFlags (flags : List Bool) (state : Nat) :
    (ofFlags flags).contains state = flags.getD state false :=
  testBit_digitsOfFlags flags state

/-- The members are the positions with a flag. -/
theorem contains_ofFlags_iff {flags : List Bool} {state : Nat} :
    (ofFlags flags).contains state = true ↔ flags[state]? = some true := by
  rw [contains_ofFlags, List.getD_eq_getElem?_getD]
  cases flags[state]? <;> simp

/-- Two sets intersect if they share a member. -/
theorem intersects_iff {a b : StateSet} :
    a.intersects b = true ↔ ∃ state, a.contains state = true ∧ b.contains state = true := by
  rw [intersects, bne_iff_ne]
  constructor
  · intro hne
    obtain ⟨state, hbit⟩ := Nat.exists_testBit_of_ne_zero hne
    rw [Nat.testBit_and, Bool.and_eq_true] at hbit
    exact ⟨state, hbit⟩
  · rintro ⟨state, ha, hb⟩ hzero
    have hbit : (a.digits &&& b.digits).testBit state = true := by
      rw [Nat.testBit_and, Bool.and_eq_true]
      exact ⟨ha, hb⟩
    rw [hzero, Nat.zero_testBit] at hbit
    contradiction

end StateSet

end PathSum
