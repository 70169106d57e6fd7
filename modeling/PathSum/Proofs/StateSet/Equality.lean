import PathSum.Proofs.StateSet.Histories

/-!
# Equality of state sets

Two sets of states are equal if they have the same members and the same room. The room is a matter
of history, so two sets with the same members need not be equal (`StateSets.same_members_differ`).
A set is equal to the one that is collected from its members only if the last state for which it
has room is a member.

**`StateSets.equality`** says this of all histories.
-/

namespace PathSum

/-- Members are their own description if there is no room past the last of them. Without members
there must be no room at all. -/
theorem Extent.eq_ofMembers_iff {m : Extent} (h : ∀ s ∈ m.members, s < m.room) :
    m = ofMembers m.members ↔ ∀ s, m.room = s + 1 → s ∈ m.members := by
  have hroom : m = ofMembers m.members ↔ m.room = m.members.sup (· + 1) := by
    rw [Extent.ext_iff]
    exact and_iff_right rfl
  have hsup : m.members.sup (· + 1) ≤ m.room := Finset.sup_le h
  rw [hroom]
  constructor
  · intro heq s hs
    rw [heq] at hs
    -- the largest member is one less than the room.
    have hne : m.members.Nonempty := by
      rw [Finset.nonempty_iff_ne_empty]
      intro hempty
      rw [hempty] at hs
      exact nomatch hs
    obtain ⟨last, hlast, hmax⟩ := Finset.exists_mem_eq_sup m.members hne (· + 1)
    rwa [Nat.succ.inj (hs.symm.trans hmax)]
  · intro hlast
    refine le_antisymm ?_ hsup
    cases hm : m.room with
    | zero => exact Nat.zero_le _
    | succ s => exact Finset.le_sup (f := (· + 1)) (hlast s hm)

namespace BitSets.Documented

variable {β : Type} {B : BitSets β} (documented : B.Documented) {b c : β} {m n : Extent}

include documented

theorem same_iff_eq (hb : B.Represents b m) (hc : B.Represents c n) :
    B.same b c = true ↔ m = n := by
  rw [documented.same_iff, hb.length_eq, hc.length_eq, Extent.ext_iff, and_comm, Finset.ext_iff]
  refine and_congr_left' (forall_congr' fun s => ?_)
  rw [Bool.eq_iff_iff, hb.contains_iff, hc.contains_iff]

/-- Collecting the members gives a set without spare room. -/
theorem represents_collected (h : B.Represents b m) :
    ∃ c, B.ofStates (B.ones b) = some c ∧ B.Represents c (.ofMembers m.members) := by
  obtain ⟨c, hstates, hc⟩ := documented.represents_ofStates (B.ones b)
  have hmembers : (B.ones b).toFinset = m.members := by
    ext s
    rw [List.mem_toFinset, documented.mem_ones, h.contains_iff]
  rw [← hmembers]
  exact ⟨c, hstates, hc⟩

end BitSets.Documented

namespace StateSets

/-- After a history, two sets are equal if they have the same members and the same room. A set is
equal to the one that is collected from its members if its last state, when it has room for any, is
a member. -/
def Compares {β : Type} (K : StateSets β) (commands : List Command) : Prop :=
  ∃ sets, K.run commands = some sets ∧
    (∀ r q, K.same (sets r) (sets q) = true ↔
      (∀ s, K.contains (sets r) s = K.contains (sets q) s) ∧
        (describe commands r).room = (describe commands q).room) ∧
    ∀ r, ∃ collected, K.ofList (K.toList (sets r)) = some collected ∧
      (∀ s, K.contains collected s = K.contains (sets r) s) ∧
      (K.same (sets r) collected = true ↔
        ∀ s, (describe commands r).room = s + 1 → K.contains (sets r) s = true)

theorem compares {β : Type} {B : BitSets β} (documented : B.Documented) (commands : List Command) :
    B.states.Compares commands := by
  obtain ⟨sets, hrun, h⟩ := documented.represents_run commands
  have hcontains {b c : β} {m n : Extent} (hb : B.Represents b m) (hc : B.Represents c n)
      (s : Nat) :
      B.containsState b s = B.containsState c s ↔ (s ∈ m.members ↔ s ∈ n.members) := by
    rw [Bool.eq_iff_iff, documented.containsState_iff hb, documented.containsState_iff hc]
  refine ⟨sets, hrun, fun r q => ?_, fun r => ?_⟩
  · refine (documented.same_iff_eq (h r) (h q)).trans ?_
    rw [Extent.ext_iff, Finset.ext_iff]
    exact and_congr_left' (forall_congr' fun s => (hcontains (h r) (h q) s).symm)
  · obtain ⟨collected, hcollected, hrep⟩ := documented.represents_collected (h r)
    refine ⟨collected, hcollected, fun s => (hcontains hrep (h r) s).mpr Iff.rfl, ?_⟩
    have hlt : ∀ s ∈ (describe commands r).members, s < (describe commands r).room := by
      intro s hs
      rw [← (h r).length_eq]
      exact documented.lt_length_of_contains (((h r).contains_iff s).mpr hs)
    refine (documented.same_iff_eq (h r) hrep).trans ((Extent.eq_ofMembers_iff hlt).trans ?_)
    refine forall₂_congr fun s _ => ?_
    exact (documented.containsState_iff (h r) s).symm

/-- **Sets of states are equal if they have the same members and the same room**, over any bit sets
that do what is known of them. -/
theorem equality (commands : List Command) :
    StateSet.kind.Compares commands ∧
    ∀ (β : Type) (B : BitSets β), B.Documented → B.states.Compares commands := by
  constructor
  · rw [← StateSet.states_bits]
    exact compares StateSet.bits_documented commands
  · intro β B documented
    exact compares documented commands

/-- If the last flag is up, then collecting the members gives the same set, with the same room. -/
theorem equality_last_flag :
    ∃ sets collected, StateSet.bits.states.run [.ofFlags 0 [false, true]] = some sets ∧
      StateSet.bits.states.ofList (StateSet.bits.states.toList (sets 0)) = some collected ∧
      StateSet.bits.states.same (sets 0) collected = true := by
  obtain ⟨sets, hrun, hsame, hcollected⟩ := (equality [.ofFlags 0 [false, true]]).2
    StateSet StateSet.bits StateSet.bits_documented
  obtain ⟨collected, hlist, -, hiff⟩ := hcollected 0
  refine ⟨sets, collected, hrun, hlist, hiff.mpr fun s hs => ?_⟩
  obtain rfl : 1 = s := Nat.succ.inj hs
  cases hrun
  decide

/-- If the last flag is down, it does not: the members are the same, and the room is not. -/
theorem same_members_differ :
    ∃ sets, StateSet.kind.run [.ofFlags 0 [false, true, false], .ofList 1 [1]] = some sets ∧
      (∀ s, StateSet.kind.contains (sets 0) s = StateSet.kind.contains (sets 1) s) ∧
      StateSet.kind.same (sets 0) (sets 1) = false := by
  refine ⟨_, rfl, fun s => ?_, by decide⟩
  show (StateSet.ofFlags [false, true, false]).contains s =
    ((StateSet.empty 0).insert 1).contains s
  rw [StateSet.contains_ofFlags, StateSet.contains_insert, StateSet.contains_empty]
  match s with
  | 0 | 1 | 2 => rfl
  | s + 3 => simp

end StateSets

end PathSum
