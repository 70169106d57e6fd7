import Mathlib.Data.List.Perm.Basic
import PathSum.Proofs.Matrix.Storage

/-!
# Written matrices

A written matrix is read back as it was. What is read is checked against the dimensions, by a
product of 64 bits that may overflow; no number of entries goes with an overflow.

* `Json.Encoding.Faithful`: values are read back as they were written. Booleans, natural numbers of
  64 bits and integers of 64 bits are (`faithful_bool`, `faithful_uint64`, `faithful_int64`).
* `StoredMatrix.WrittenAs`: the written forms, with the members in any order and others among them.
* `StoredMatrix.readsAs_of_writtenAs`: what reading makes of them.
* `AnyMatrix.ofJson_stored`: the check with the exact product decides alike.

**`StoredMatrix.wire_form`** puts this together.
-/

namespace PathSum

namespace Json

variable {α : Type}

/-- What is written is read back. -/
def Encoding.Faithful (α : Type) [Encoding α] : Prop :=
  ∀ x : α, decode? (encode x) = some x

theorem toInt?_ofInt (n : Int) : (Value.ofInt n).toInt? = some n :=
  Numeral.toInt?_ofInt n

/-- A number that 64 bits can hold is read back as a size. -/
theorem toWord?_ofInt {n : Nat} (h : n < UInt64.size) : (Value.ofInt n).toWord? = some n := by
  have hrange : (0 : Int) ≤ n ∧ (n : Int) < UInt64.size :=
    ⟨Int.natCast_nonneg n, Int.ofNat_lt.mpr h⟩
  rw [Value.toWord?, toInt?_ofInt, Option.bind_eq_bind, Option.bind_some, if_pos hrange,
    Int.toNat_natCast]

theorem faithful_bool : Encoding.Faithful Bool := fun _ => rfl

/-- Counts are written as integers, and each of them is in range when it is read. -/
theorem faithful_uint64 : Encoding.Faithful UInt64 := by
  intro n
  show (Value.toWord? (Value.ofInt n.toNat)).map UInt64.ofNat = some n
  rw [toWord?_ofInt n.toNat_lt_size, Option.map_some, UInt64.ofNat_toNat]

/-- Signed numbers are written as integers, and are in range between the smallest and the largest
one. -/
theorem faithful_int64 : Encoding.Faithful Int64 := by
  intro n
  have hrange : Int64.minValue.toInt ≤ n.toInt ∧ n.toInt ≤ Int64.maxValue.toInt :=
    ⟨Int64.toInt_minValue ▸ n.le_toInt, n.toInt_le⟩
  show ((Value.ofInt n.toInt).toInt?.bind fun z =>
    if Int64.minValue.toInt ≤ z ∧ z ≤ Int64.maxValue.toInt then some (Int64.ofInt z) else none) = _
  rw [toInt?_ofInt, Option.bind_some, if_pos hrange, Int64.ofInt_toInt]

/-- A list is read back item by item. -/
theorem mapM_decode?_encode [Encoding α] (faithful : Encoding.Faithful α) (items : List α) :
    (items.map Encoding.encode).mapM Encoding.decode? = some items := by
  have hpure : (Encoding.decode? ∘ Encoding.encode : α → Option α) = pure := funext faithful
  rw [List.mapM_map, hpure]
  exact List.mapM_pure.trans (congrArg some (List.map_id' items))

end Json

open Json

namespace StoredMatrix

variable {α : Type} [Encoding α]

/-- The written forms of a matrix, whether or not it has as many entries as its dimensions ask for:
an object with its members and any number of others, in any order, or the list of its parts. -/
inductive WrittenAs (A : StoredMatrix α) : Value → Prop where
  | object {members : List (Json.Text × Value)} (others : List (Json.Text × Value)) :
      members.Perm (A.members ++ others) →
      (∀ member ∈ others, ∃ name ∉ ["rows", "cols", "data"], member.1 = some name) →
      WrittenAs A (.object members)
  | list : WrittenAs A (.array [.ofInt A.rows, .ofInt A.cols, .ofList A.data.toList])

/-- What is written is one of the written forms: the object with its own members only, in their
order. -/
theorem writtenAs_toJson (A : StoredMatrix α) : A.WrittenAs A.toJson :=
  .object [] (by simp) nofun

end StoredMatrix

/-! ## Finding the parts -/

namespace AnyMatrix

variable {α : Type}

/-- A member is found wherever it stands, if no other has its name. The search takes all members of
that name and fails if there are several, so their order does not matter. -/
theorem field?_of_perm {members after : List (Json.Text × Value)} {name : String} {value : Value}
    (before : List (Json.Text × Value))
    (hperm : members.Perm (before ++ (some name, value) :: after))
    (hothers : ∀ member ∈ before ++ after, member.1 ≠ some name) :
    field? name members = some value := by
  have hbefore : before.filter (fun member => member.1 = some name) = [] :=
    List.filter_eq_nil_iff.mpr fun member hmember => by
      simpa using hothers member (List.mem_append_left _ hmember)
  have hafter : after.filter (fun member => member.1 = some name) = [] :=
    List.filter_eq_nil_iff.mpr fun member hmember => by
      simpa using hothers member (List.mem_append_right _ hmember)
  have hfilter : members.filter (fun member => member.1 = some name) = [(some name, value)] := by
    rw [← List.perm_singleton]
    refine (hperm.filter _).trans ?_
    rw [List.filter_append, hbefore, List.filter_cons_of_pos (by simp), hafter, List.nil_append]
  rw [field?, hfilter]

/-- All written forms have the same three parts. In an object each of them is found by its name, and
no other member has one of the three names. -/
theorem parts?_of_writtenAs [Encoding α] {A : StoredMatrix α} {value : Value}
    (h : A.WrittenAs value) :
    parts? value = some (.ofInt A.rows, .ofInt A.cols, .ofList A.data.toList) := by
  cases h with
  | list => rfl
  | @object members others hperm hothers =>
    -- the other members were put in between, but none of them goes by one of the three names.
    have hunknown {name : String} (hown : name ∈ ["rows", "cols", "data"]) :
        ∀ member ∈ others, member.1 ≠ some name := by
      intro member hmember hname
      obtain ⟨other, hother, hmember'⟩ := hothers member hmember
      rw [hmember', Option.some.injEq] at hname
      subst hname
      exact hother hown
    have hrows : field? "rows" members = some (.ofInt A.rows) :=
      field?_of_perm [] hperm (by simpa using hunknown (by simp))
    have hcols : field? "cols" members = some (.ofInt A.cols) :=
      field?_of_perm [_] hperm (by simpa using hunknown (by simp))
    have hdata : field? "data" members = some (.ofList A.data.toList) :=
      field?_of_perm [_, _] hperm (by simpa using hunknown (by simp))
    have hnames : members.all (fun member => member.1.isSome) = true := by
      rw [hperm.all_eq, List.all_append, Bool.and_eq_true, List.all_eq_true, List.all_eq_true]
      refine ⟨by simp [StoredMatrix.members], fun member hmember => ?_⟩
      obtain ⟨other, -, hmember'⟩ := hothers member hmember
      rw [hmember', Option.isSome_some]
    rw [parts?, if_pos hnames, hrows, hcols, hdata]
    rfl

/-- So from all of them come the dimensions and the data. -/
theorem fields?_of_writtenAs [Encoding α] (faithful : Encoding.Faithful α) {A : StoredMatrix α}
    {value : Value} (h : A.WrittenAs value) (hrows : A.rows < UInt64.size)
    (hcols : A.cols < UInt64.size) : fields? value = some (A.rows, A.cols, A.data) := by
  rw [fields?, parts?_of_writtenAs h, Option.bind_eq_bind, Option.bind_some]
  simp only [toWord?_ofInt hrows, toWord?_ofInt hcols, Option.bind_eq_bind, Option.bind_some,
    Value.ofList, mapM_decode?_encode faithful]
  rfl

theorem toJson_stored [Encoding α] (A : AnyMatrix α) : A.stored.toJson = A.toJson := rfl

/-- With fewer entries than 64 bits can count, it does not matter how the product is taken: cut off
at the largest number, or exactly. -/
theorem ofJson_stored [Encoding α] {value : Value}
    (hsize : ∀ rows cols (data : Array α), fields? value = some (rows, cols, data) →
      data.size < UInt64.size - 1) :
    StoredMatrix.ofJson value = (ofJson value : Except WireError (AnyMatrix α)).map stored := by
  rw [StoredMatrix.ofJson, ofJson]
  cases hfields : fields? (α := α) value with
  | none => rfl
  | some fields =>
    obtain ⟨rows, cols, data⟩ := fields
    simp only [ofData_stored rows cols (hsize rows cols data hfields)]
    cases ofData rows cols data with
    | error e => rfl
    | ok A => rfl

end AnyMatrix

/-! ## Reading -/

namespace StoredMatrix

section

variable {α : Type}

/-- Fewer entries than the largest number of 64 bits are taken for the product of the dimensions
only if they are as many. A product that 64 bits cannot hold is replaced by that largest number,
which is then never reached. -/
theorem ofData_eq (A : StoredMatrix α) (hsize : A.data.size < UInt64.size - 1) :
    ofData A.rows A.cols A.data =
      if A.data.size = A.rows * A.cols then .ok A
      else .error (.lengthMismatch .matrixData (min (A.rows * A.cols) (UInt64.size - 1))
        A.data.size) := by
  rw [AnyMatrix.ofData_stored _ _ hsize, AnyMatrix.ofData]
  split <;> rfl

/-- The number of entries is the largest that 64 bits can hold, or a smaller one. -/
theorem ofData_eq_ok {A : StoredMatrix α} (hdata : A.data.size = A.rows * A.cols)
    (hsize : A.data.size < UInt64.size) : ofData A.rows A.cols A.data = .ok A := by
  have hproduct : A.rows * A.cols < UInt64.size := by
    rw [← hdata]
    exact hsize
  have hexpected : expectedSize A.rows A.cols = A.rows * A.cols := if_pos hproduct
  rw [ofData, hexpected, if_pos hdata]

variable [Encoding α]

/-- Reading a written form is checking its data against its dimensions. -/
theorem ofJson_of_writtenAs (faithful : Encoding.Faithful α) {A : StoredMatrix α} {value : Value}
    (h : A.WrittenAs value) (hrows : A.rows < UInt64.size) (hcols : A.cols < UInt64.size) :
    ofJson value = (ofData A.rows A.cols A.data).mapError .shape := by
  rw [ofJson, AnyMatrix.fields?_of_writtenAs faithful h hrows hcols]

/-- What reading makes of a written form: it is refused if there are not as many entries as the
dimensions ask for, also if they ask for more than 64 bits can count. -/
structure ReadsAs (A : StoredMatrix α) (value : Value) : Prop where
  accepted_iff : (∃ B, ofJson (α := α) value = .ok B) ↔ A.data.size = A.rows * A.cols
  eq_of_accepted (B : StoredMatrix α) : ofJson value = .ok B → B = A
  refused : A.data.size ≠ A.rows * A.cols → ofJson (α := α) value =
    .error (.shape (.lengthMismatch .matrixData (min (A.rows * A.cols) (UInt64.size - 1))
      A.data.size))
  refused_overflow : UInt64.size ≤ A.rows * A.cols → ofJson (α := α) value =
    .error (.shape (.lengthMismatch .matrixData (UInt64.size - 1) A.data.size))
  agrees : (AnyMatrix.ofJson value).map AnyMatrix.stored = ofJson (α := α) value

/-- Where the number of entries is right, the matrix comes back. Where it is wrong, the error says
how many there should have been, or the largest number of 64 bits if there should have been more
than that. -/
theorem readsAs_of_writtenAs (faithful : Encoding.Faithful α) {A : StoredMatrix α} {value : Value}
    (h : A.WrittenAs value) (hrows : A.rows < UInt64.size) (hcols : A.cols < UInt64.size)
    (hsize : A.data.size < UInt64.size - 1) : A.ReadsAs value := by
  have hread := ofJson_of_writtenAs faithful h hrows hcols
  rw [A.ofData_eq hsize] at hread
  -- the reader of shapes that are known agrees, because there are fewer entries than the limit.
  have hagree : (AnyMatrix.ofJson value).map AnyMatrix.stored = ofJson (α := α) value := by
    refine (AnyMatrix.ofJson_stored fun rows cols data hfields => ?_).symm
    rw [AnyMatrix.fields?_of_writtenAs faithful h hrows hcols] at hfields
    cases hfields
    exact hsize
  by_cases hdata : A.data.size = A.rows * A.cols
  · rw [if_pos hdata] at hread
    exact {
      accepted_iff := ⟨fun _ => hdata, fun _ => ⟨A, hread⟩⟩
      eq_of_accepted := fun B hB => Except.ok.inj (hB.symm.trans hread)
      refused := fun hne => absurd hdata hne
      refused_overflow := fun hover => by omega
      agrees := hagree }
  · rw [if_neg hdata] at hread
    exact {
      accepted_iff := ⟨fun ⟨B, hB⟩ => (nomatch hB.symm.trans hread), fun h => absurd h hdata⟩
      eq_of_accepted := fun B hB => (nomatch hB.symm.trans hread)
      refused := fun _ => hread
      refused_overflow := fun hover => by
        rw [hread, Nat.min_eq_right (by omega)]
        rfl
      agrees := hagree }

/-- Every matrix of which 64 bits can count the rows, the columns and the entries is read back,
whatever the order of its members and whatever else was written. -/
theorem ofJson_stored_of_writtenAs (faithful : Encoding.Faithful α) {A : AnyMatrix α}
    {value : Value} (h : A.stored.WrittenAs value) (hrows : A.rows < UInt64.size)
    (hcols : A.cols < UInt64.size) (hsize : A.rows * A.cols < UInt64.size) :
    ofJson value = .ok A.stored := by
  have hdata := A.size_data_stored
  have hsize' : A.stored.data.size < UInt64.size := by
    rw [hdata]
    exact hsize
  rw [ofJson_of_writtenAs faithful h hrows hcols, ofData_eq_ok hdata hsize']
  rfl

end

/-- **A written matrix is read back as it was, and is refused if it does not have as many entries as
its dimensions ask for.** -/
theorem wire_form :
    (Encoding.Faithful Bool ∧ Encoding.Faithful UInt64 ∧ Encoding.Faithful Int64) ∧
    ∀ (α : Type) [Encoding α], Encoding.Faithful α →
      (∀ (A : StoredMatrix α) (value : Value), A.WrittenAs value → A.rows < UInt64.size →
        A.cols < UInt64.size → A.data.size < UInt64.size - 1 → A.ReadsAs value) ∧
      ∀ A : AnyMatrix α, A.rows < UInt64.size → A.cols < UInt64.size →
        A.rows * A.cols < UInt64.size →
        A.stored.WrittenAs A.toJson ∧
        ∀ value, A.stored.WrittenAs value → ofJson value = .ok A.stored := by
  refine ⟨⟨faithful_bool, faithful_uint64, faithful_int64⟩, fun α _ faithful => ⟨?_, ?_⟩⟩
  · intro A value h hrows hcols hsize
    exact readsAs_of_writtenAs faithful h hrows hcols hsize
  · intro A hrows hcols hsize
    constructor
    · rw [← A.toJson_stored]
      exact A.stored.writtenAs_toJson
    · intro value h
      exact ofJson_stored_of_writtenAs faithful h hrows hcols hsize

/-- The smallest integer comes back from members in another order, one of them unknown. A product
that overflows to zero is not taken for the length of no data. -/
theorem wire_form_reordered :
    ofJson (.object [(some "note", .null), (some "data", .ofList [Int64.minValue]),
      (some "cols", .ofInt 1), (some "rows", .ofInt 1)]) = .ok ⟨1, 1, #[Int64.minValue]⟩ ∧
    ofJson (α := Bool) (.array [.ofInt UInt32.size, .ofInt UInt32.size, .array []]) =
      .error (.shape (.lengthMismatch .matrixData (UInt64.size - 1) 0)) := by
  obtain ⟨⟨faithful, -, hint⟩, hwire⟩ := wire_form
  constructor
  · let A : AnyMatrix Int64 := .of (.filled 1 1 Int64.minValue)
    refine ((hwire Int64 hint).2 A (by decide) (by decide) (by decide)).2 _ ?_
    exact .object [(some "note", .null)]
      (List.reverse_perm (A.stored.members ++ [(some "note", Value.null)])) (by simp)
  · exact ((hwire Bool faithful).1 ⟨UInt32.size, UInt32.size, #[]⟩ _ .list (by decide) (by decide)
      (by decide)).refused_overflow (by decide)

end StoredMatrix

end PathSum
