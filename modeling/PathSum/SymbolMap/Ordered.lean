import PathSum.SymbolMap

/-!
# Maps that keep the order of insertion

`OrderedMaps` is what maps with an order of insertion can do, and `OrderedMaps.Documented` what is
known of them: a symbol that is inserted again keeps its place and gets the new value, and a new one
comes last. That leaves no choice. Whatever is inserted, what can be seen of such a map is the
`SymbolMap` of the same insertions.

* `SymbolMap.ext_get?`: the symbols in their order and the values found decide a map.
* `Documented.toMap`: a documented map as it is seen. Inserting goes through it (`toMap_insert`),
  so whole histories do (`toMap_ofEntries`), and loops that compute what they insert
  (`toMap_foldlM_insert`). No `SymbolMap` is left out (`toMap_ofEntries_entries`).
* `SymbolMap.documented_ordered`: the maps that are used here are documented ones.
-/

namespace PathSum

universe u v w

variable {σ : Type u} {β : Type v}

namespace SymbolMap

/-! ## What decides a map -/

theorem ext_entries {a b : SymbolMap σ β} (h : a.entries = b.entries) : a = b := by
  cases a
  cases b
  cases h
  rfl

variable [DecidableEq σ]

/-- Where no symbol comes twice, looking up finds every entry. Otherwise it would find the first one
of its symbol only. -/
theorem find?_eq_some_iff {entries : List (σ × β)} (nodup : (entries.map Prod.fst).Nodup) {s : σ}
    {x : β} : find? s entries = some x ↔ (s, x) ∈ entries := by
  induction entries with
  | nil => simp [find?]
  | cons entry rest ih =>
    obtain ⟨t, y⟩ := entry
    rw [List.map_cons, List.nodup_cons] at nodup
    obtain ⟨hnotin, hrest⟩ := nodup
    by_cases ht : t = s
    · -- the rest has no entry for this symbol.
      subst ht
      have hnone : (t, x) ∉ rest := by
        intro hmem
        exact hnotin (List.mem_map.mpr ⟨(t, x), hmem, rfl⟩)
      simp [find?, hnone, eq_comm]
    · have hne : s ≠ t := fun heq => ht heq.symm
      simp [find?, ht, hne, ih hrest]

theorem get?_eq_some_iff {map : SymbolMap σ β} {s : σ} {x : β} :
    map.get? s = some x ↔ (s, x) ∈ map.entries :=
  find?_eq_some_iff map.nodup_keys

/-- A map is decided by its symbols in their order and the values that are found for them. So two
ways to make a map can be compared without looking at lists of entries. -/
theorem ext_get? {a b : SymbolMap σ β} (hkeys : a.keys = b.keys)
    (h : ∀ s, a.get? s = b.get? s) : a = b := by
  have hlength : a.entries.length = b.entries.length := by
    have hkeys' : a.keys.length = b.keys.length := by rw [hkeys]
    rwa [keys, keys, List.length_map, List.length_map] at hkeys'
  have hentries : a.entries = b.entries := by
    apply List.ext_getElem hlength
    intro i hi hi'
    have hkey : a.entries[i].1 = b.entries[i].1 := by
      have hget : a.keys[i]? = b.keys[i]? := by rw [hkeys]
      simpa [keys, hi, hi'] using hget
    -- a symbol that is there is found with the value of its entry.
    have hvalue : a.get? a.entries[i].1 = some a.entries[i].2 :=
      get?_eq_some_iff.mpr (List.getElem_mem hi)
    have hvalue' : b.get? b.entries[i].1 = some b.entries[i].2 :=
      get?_eq_some_iff.mpr (List.getElem_mem hi')
    rw [hkey, h, hvalue', Option.some_inj] at hvalue
    exact Prod.ext hkey hvalue.symm
  exact ext_entries hentries

theorem replace_of_notMem {entries : List (σ × β)} {s : σ} (hs : s ∉ entries.map Prod.fst)
    (x : β) : replace s x entries = entries ++ [(s, x)] := by
  induction entries with
  | nil => rfl
  | cons entry rest ih =>
    rw [List.map_cons, List.mem_cons, not_or] at hs
    obtain ⟨hne, hrest⟩ := hs
    rw [replace, if_neg (fun heq => hne heq.symm), ih hrest]
    rfl

/-- Inserting the entries of a map one after the other gives the map back, in the same order. -/
theorem ofList_entries (map : SymbolMap σ β) : ofList map.entries = map := by
  have hloop (before : SymbolMap σ β) (entries : List (σ × β))
      (nodup : (before.keys ++ entries.map Prod.fst).Nodup) :
      (entries.foldl (fun map entry => map.insert entry.1 entry.2) before).entries =
        before.entries ++ entries := by
    induction entries generalizing before with
    | nil => rw [List.foldl_nil, List.append_nil]
    | cons entry rest ih =>
      obtain ⟨s, x⟩ := entry
      -- no symbol comes twice, so each entry goes to the end.
      have hnew : s ∉ before.keys := by
        intro hs
        exact (List.nodup_append.mp nodup).2.2 s hs s (List.mem_cons_self ..) rfl
      have hentries : (before.insert s x).entries = before.entries ++ [(s, x)] :=
        replace_of_notMem hnew x
      have hkeys : (before.insert s x).keys = before.keys ++ [s] := by
        rw [keys_insert, if_neg hnew]
      rw [List.foldl_cons, ih (before.insert s x), hentries, List.append_assoc]
      · rfl
      · rw [hkeys, List.append_assoc]
        exact nodup
  exact ext_entries (hloop empty map.entries map.nodup_keys)

end SymbolMap

/-! ## Maps of any kind -/

/-- Maps that keep the order of insertion, by what can be done with them. -/
structure OrderedMaps (σ : Type u) (β : Type v) (μ : Type w) where
  empty : μ
  insert : μ → σ → β → μ
  get? : μ → σ → Option β
  /-- The entries, in the order in which they are visited. -/
  entries : μ → List (σ × β)

namespace OrderedMaps

variable {μ : Type w} (M : OrderedMaps σ β μ)

def keys (m : μ) : List σ :=
  (M.entries m).map Prod.fst

/-- Inserts one entry after the other. -/
def ofEntries (entries : List (σ × β)) : μ :=
  entries.foldl (fun m entry => M.insert m entry.1 entry.2) M.empty

/-- What is known of maps that keep the order of insertion. -/
structure Documented (M : OrderedMaps σ β μ) : Prop where
  entries_empty : M.entries M.empty = []
  nodup_keys (m : μ) : (M.keys m).Nodup
  /-- The entries that are visited are those that are found. -/
  get?_eq_some_iff {m : μ} {s : σ} {x : β} : M.get? m s = some x ↔ (s, x) ∈ M.entries m
  /-- A symbol that is inserted again keeps its place. -/
  keys_insert_of_mem {m : μ} {s : σ} (x : β) : s ∈ M.keys m → M.keys (M.insert m s x) = M.keys m
  /-- A new symbol comes last. -/
  keys_insert_of_notMem {m : μ} {s : σ} (x : β) :
    s ∉ M.keys m → M.keys (M.insert m s x) = M.keys m ++ [s]
  get?_insert_self (m : μ) (s : σ) (x : β) : M.get? (M.insert m s x) s = some x
  get?_insert_of_ne (m : μ) {s t : σ} (x : β) : t ≠ s → M.get? (M.insert m s x) t = M.get? m t

namespace Documented

variable {M} (documented : M.Documented)

/-- What can be seen of a map. -/
def toMap (m : μ) : SymbolMap σ β where
  entries := M.entries m
  nodup_keys := documented.nodup_keys m

theorem toMap_empty : documented.toMap M.empty = .empty := by
  have hentries := documented.entries_empty
  simp only [toMap, hentries]
  rfl

variable [DecidableEq σ]

theorem get?_toMap (m : μ) (s : σ) : (documented.toMap m).get? s = M.get? m s := by
  apply Option.ext
  intro x
  rw [SymbolMap.get?_eq_some_iff, documented.get?_eq_some_iff]
  rfl

/-- **Inserting leaves no choice**: it does to what is seen of a map what it does to a
`SymbolMap`. -/
theorem toMap_insert (m : μ) (s : σ) (x : β) :
    documented.toMap (M.insert m s x) = (documented.toMap m).insert s x := by
  apply SymbolMap.ext_get?
  · rw [SymbolMap.keys_insert]
    show M.keys (M.insert m s x) = if s ∈ M.keys m then M.keys m else M.keys m ++ [s]
    by_cases hs : s ∈ M.keys m
    · rw [if_pos hs, documented.keys_insert_of_mem x hs]
    · rw [if_neg hs, documented.keys_insert_of_notMem x hs]
  · intro t
    rw [SymbolMap.get?_insert, documented.get?_toMap, documented.get?_toMap]
    by_cases ht : t = s
    · subst ht
      rw [if_pos rfl, documented.get?_insert_self]
    · rw [if_neg ht, documented.get?_insert_of_ne m x ht]

/-- **What is seen of a map are its insertions**, one after the other. The induction is on the
entries, for any map that was there before. -/
theorem toMap_ofEntries (entries : List (σ × β)) :
    documented.toMap (M.ofEntries entries) = .ofList entries := by
  have hloop (m : μ) : documented.toMap
      (entries.foldl (fun m entry => M.insert m entry.1 entry.2) m) =
        entries.foldl (fun map entry => map.insert entry.1 entry.2) (documented.toMap m) := by
    induction entries generalizing m with
    | nil => rfl
    | cons entry rest ih =>
      rw [List.foldl_cons, List.foldl_cons, ih, documented.toMap_insert]
  rw [ofEntries, hloop, documented.toMap_empty]
  rfl

/-- Every `SymbolMap` is what is seen of some map of the kind `M`. -/
theorem toMap_ofEntries_entries (map : SymbolMap σ β) :
    documented.toMap (M.ofEntries map.entries) = map := by
  rw [documented.toMap_ofEntries, SymbolMap.ofList_entries]

/-- A loop that computes what it inserts for one symbol after the other ends with the same entries,
or with the same error. -/
theorem toMap_foldlM_insert {σ : Type} [DecidableEq σ] {β : Type v} {μ : Type w} {ε : Type v}
    {M : OrderedMaps σ β μ} (documented : M.Documented) (value : σ → Except ε β)
    (symbols : List σ) (m : μ) :
    (symbols.foldlM (fun m s => (value s).map (M.insert m s)) m).map documented.toMap =
      symbols.foldlM (fun map s => (value s).map (map.insert s)) (documented.toMap m) := by
  induction symbols generalizing m with
  | nil => rfl
  | cons s symbols ih =>
    rw [List.foldlM_cons, List.foldlM_cons]
    cases value s with
    | error e => rfl
    | ok x =>
      have hrest := ih (M.insert m s x)
      rw [documented.toMap_insert] at hrest
      exact hrest

end Documented

end OrderedMaps

/-! ## The maps that are used -/

namespace SymbolMap

variable [DecidableEq σ]

def ordered : OrderedMaps σ β (SymbolMap σ β) where
  empty := empty
  insert := insert
  get? := get?
  entries := entries

/-- The maps that are used here do what is known of maps with an order of insertion. -/
theorem documented_ordered : (ordered : OrderedMaps σ β (SymbolMap σ β)).Documented where
  entries_empty := rfl
  nodup_keys := nodup_keys
  get?_eq_some_iff := get?_eq_some_iff
  keys_insert_of_mem {m s} x hs := by
    show (m.insert s x).keys = m.keys
    have hmem : s ∈ m.keys := hs
    rw [keys_insert, if_pos hmem]
  keys_insert_of_notMem {m s} x hs := by
    show (m.insert s x).keys = m.keys ++ [s]
    have hnotin : s ∉ m.keys := hs
    rw [keys_insert, if_neg hnotin]
  get?_insert_self m s x := by
    show (m.insert s x).get? s = some x
    rw [get?_insert, if_pos rfl]
  get?_insert_of_ne m {s t} x ht := by
    show (m.insert s x).get? t = m.get? t
    rw [get?_insert, if_neg ht]

end SymbolMap

end PathSum
