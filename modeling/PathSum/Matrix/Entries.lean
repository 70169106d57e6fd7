/-!
# Entries of vectors

What the entries of a vector are after each way to make one, and that a vector is determined by its
entries.
-/

namespace PathSum

universe u v

variable {α : Type u} {β : Type v} {n : Nat}

theorem get_eq_getElem (x : Vector α n) (i : Fin n) : x.get i = x[i.val] := rfl

/-- A vector is determined by its entries. -/
theorem ext_get {x y : Vector α n} (h : ∀ i, x.get i = y.get i) : x = y :=
  Vector.ext fun i hi => h ⟨i, hi⟩

@[simp]
theorem get_ofFn (f : Fin n → α) (i : Fin n) : (Vector.ofFn f).get i = f i := by
  rw [get_eq_getElem, Vector.getElem_ofFn]

@[simp]
theorem get_replicate (a : α) (i : Fin n) : (Vector.replicate n a).get i = a := by
  rw [get_eq_getElem, Vector.getElem_replicate]

@[simp]
theorem get_map (f : α → β) (x : Vector α n) (i : Fin n) : (x.map f).get i = f (x.get i) := by
  rw [get_eq_getElem, Vector.getElem_map, get_eq_getElem]

@[simp]
theorem get_zipWith (f : α → α → β) (x y : Vector α n) (i : Fin n) :
    (Vector.zipWith f x y).get i = f (x.get i) (y.get i) := by
  rw [get_eq_getElem, Vector.getElem_zipWith, get_eq_getElem, get_eq_getElem]

theorem get_set (x : Vector α n) (i j : Fin n) (a : α) :
    (x.set i a i.isLt).get j = if j = i then a else x.get j := by
  rw [get_eq_getElem, Vector.getElem_set, get_eq_getElem]
  by_cases h : j = i
  · rw [if_pos h, if_pos (congrArg Fin.val h.symm)]
  · rw [if_neg h, if_neg fun heq => h (Fin.ext heq.symm)]

theorem getElem?_toArray_iff {x : Vector α n} {i : Nat} {a : α} :
    x.toArray[i]? = some a ↔ ∃ hi : i < n, x.get ⟨i, hi⟩ = a := by
  rw [Vector.getElem?_toArray, Vector.getElem?_eq_some_iff]
  rfl

@[simp]
theorem get_cast {m : Nat} (x : Vector α m) (h : m = n) (i : Fin n) :
    (x.cast h).get i = x.get (i.cast h.symm) := by
  subst h
  rfl

end PathSum
