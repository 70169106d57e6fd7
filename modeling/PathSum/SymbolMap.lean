import PathSum.Result

/-!
# Maps from symbols

A map that keeps its symbols in the order in which they first came. A symbol that comes again gets
the new value and keeps its place.

Main statements: `get?_insert`, `get?_ofKeys` and `get?_map` say what is found, `keys_insert` in
which order the symbols stand, `insert_ofKeys` which values a new one leaves, and `mem_keys_iff`
that the symbols are those for which something is found. `map_of_tryMap_eq_ok` and
`tryMap_eq_error_iff` say what a check of all values comes to, and `tryMap_eq_error_first_iff` which
of the values it refuses.
-/

namespace PathSum

universe u v v'

/-- Values for finitely many symbols, in order of first appearance. -/
structure SymbolMap (σ : Type u) (β : Type v) where
  entries : List (σ × β)
  nodup_keys : (entries.map Prod.fst).Nodup

namespace SymbolMap

variable {σ : Type u} {β : Type v} {γ : Type v'}

/-- The symbols, in their order. -/
def keys (map : SymbolMap σ β) : List σ :=
  map.entries.map Prod.fst

/-- The values, in the order of their symbols. -/
def values (map : SymbolMap σ β) : List β :=
  map.entries.map Prod.snd

def empty : SymbolMap σ β where
  entries := []
  nodup_keys := List.nodup_nil

/-! ## Looking up and inserting -/

section
variable [DecidableEq σ]

/-- The value of a symbol in a list of entries. -/
def find? (symbol : σ) : List (σ × β) → Option β
  | [] => none
  | (s, x) :: rest => if s = symbol then some x else find? symbol rest

/-- The entries with a new value for a symbol, at its old place or else at the end. -/
def replace (symbol : σ) (value : β) : List (σ × β) → List (σ × β)
  | [] => [(symbol, value)]
  | (s, x) :: rest => if s = symbol then (s, value) :: rest else (s, x) :: replace symbol value rest

/-- A symbol that is there keeps its place, and a new one comes last. This is the order of
insertion. -/
theorem keys_replace (symbol : σ) (value : β) (entries : List (σ × β)) :
    (replace symbol value entries).map Prod.fst =
      if symbol ∈ entries.map Prod.fst then entries.map Prod.fst
      else entries.map Prod.fst ++ [symbol] := by
  induction entries with
  | nil => simp [replace]
  | cons entry rest ih =>
    obtain ⟨s, x⟩ := entry
    by_cases h : s = symbol
    · simp [replace, h]
    · have hne : ¬ symbol = s := fun heq => h heq.symm
      simp only [replace, h, if_false, List.map_cons, ih, List.mem_cons, hne, false_or]
      split <;> rfl

def get? (map : SymbolMap σ β) (symbol : σ) : Option β :=
  find? symbol map.entries

/-- The map with a new value for a symbol. No symbol comes twice, since a symbol that is there is
not added again. -/
def insert (map : SymbolMap σ β) (symbol : σ) (value : β) : SymbolMap σ β where
  entries := replace symbol value map.entries
  nodup_keys := by
    rw [keys_replace]
    split
    · exact map.nodup_keys
    · next h =>
      rw [List.nodup_append]
      refine ⟨map.nodup_keys, by simp, ?_⟩
      intro s hs t ht heq
      rw [List.mem_singleton] at ht
      exact h (ht ▸ heq ▸ hs)

/-- The map of entries that are inserted one after the other. The last value for a symbol counts,
and the first place. -/
def ofList (entries : List (σ × β)) : SymbolMap σ β :=
  entries.foldl (fun map entry => map.insert entry.1 entry.2) empty

/-- Where the symbols stand after an insertion. -/
theorem keys_insert (map : SymbolMap σ β) (symbol : σ) (value : β) :
    (map.insert symbol value).keys =
      if symbol ∈ map.keys then map.keys else map.keys ++ [symbol] :=
  keys_replace symbol value map.entries

@[simp]
theorem get?_empty (symbol : σ) : (empty : SymbolMap σ β).get? symbol = none := rfl

/-- Only the symbol that is inserted changes its value, whether it was there before or not. -/
theorem get?_insert (map : SymbolMap σ β) (symbol s : σ) (value : β) :
    (map.insert symbol value).get? s = if s = symbol then some value else map.get? s := by
  show find? s (replace symbol value map.entries) = if s = symbol then _ else find? s map.entries
  induction map.entries with
  | nil => simp only [replace, find?, eq_comm]
  | cons entry rest ih =>
    obtain ⟨t, x⟩ := entry
    by_cases ht : t = symbol
    · by_cases hs : s = symbol
      · simp [replace, find?, ht, hs]
      · simp [replace, find?, ht, hs, Ne.symm hs]
    · by_cases hts : t = s
      · have hs : ¬ s = symbol := hts ▸ ht
        simp [replace, find?, hts, hs]
      · simp only [replace, ht, if_false, find?, hts, ih]

/-- The symbols of a map are those that have a value, and no symbol has two of them. -/
theorem mem_keys_iff {map : SymbolMap σ β} {symbol : σ} :
    symbol ∈ map.keys ↔ ∃ value, map.get? symbol = some value := by
  show symbol ∈ map.entries.map Prod.fst ↔ ∃ value, find? symbol map.entries = some value
  induction map.entries with
  | nil => simp [find?]
  | cons entry rest ih =>
    obtain ⟨s, x⟩ := entry
    by_cases h : s = symbol
    · simp [find?, h]
    · have hne : ¬ symbol = s := fun heq => h heq.symm
      simp only [List.map_cons, List.mem_cons, hne, false_or, find?, h, if_false, ih]

end

/-! ## Changing the values -/

/-- A value for each symbol of a list without repetitions. -/
def ofKeys (symbols : List σ) (nodup : symbols.Nodup) (value : σ → β) : SymbolMap σ β where
  entries := symbols.map fun s => (s, value s)
  nodup_keys := by simpa [Function.comp_def] using nodup

/-- Another value for each symbol, made from the one it has. -/
def map (f : β → γ) (m : SymbolMap σ β) : SymbolMap σ γ where
  entries := m.entries.map fun entry => (entry.1, f entry.2)
  nodup_keys := by simpa [Function.comp_def] using m.nodup_keys

@[simp]
theorem keys_ofKeys (symbols : List σ) (nodup : symbols.Nodup) (value : σ → β) :
    (ofKeys symbols nodup value).keys = symbols := by
  simp [keys, ofKeys, Function.comp_def]

@[simp]
theorem keys_map (f : β → γ) (m : SymbolMap σ β) : (m.map f).keys = m.keys := by
  simp [keys, map, Function.comp_def]

@[simp]
theorem values_map (f : β → γ) (m : SymbolMap σ β) : (m.map f).values = m.values.map f := by
  simp [values, map, Function.comp_def]

/-- All symbols of the list have their values, and no others have any. -/
theorem get?_ofKeys [DecidableEq σ] (symbols : List σ) (nodup : symbols.Nodup) (value : σ → β)
    (s : σ) :
    (ofKeys symbols nodup value).get? s = if s ∈ symbols then some (value s) else none := by
  show find? s (symbols.map fun s => (s, value s)) = _
  clear nodup
  induction symbols with
  | nil => rfl
  | cons t symbols ih =>
    by_cases h : t = s
    · simp [find?, h]
    · have hne : ¬ s = t := fun heq => h heq.symm
      simp only [List.map_cons, find?, h, if_false, ih, List.mem_cons, hne, false_or]

/-- The symbols of a list decide which values there are. -/
theorem ofKeys_congr {symbols : List σ} {nodup : symbols.Nodup} {value value' : σ → β}
    (h : ∀ s ∈ symbols, value s = value' s) :
    ofKeys symbols nodup value = ofKeys symbols nodup value' := by
  simp only [ofKeys, mk.injEq]
  exact List.map_congr_left fun s hs => congrArg (Prod.mk s) (h s hs)

/-- A new value for one of the symbols. It stays where it was in the list, so the map is that of the
same list with another function. -/
theorem insert_ofKeys [DecidableEq σ] {symbols : List σ} {nodup : symbols.Nodup} {symbol : σ}
    (h : symbol ∈ symbols) (value : σ → β) (x : β) :
    (ofKeys symbols nodup value).insert symbol x =
      ofKeys symbols nodup fun s => if s = symbol then x else value s := by
  simp only [insert, ofKeys, mk.injEq]
  induction symbols with
  | nil => exact absurd h List.not_mem_nil
  | cons t symbols ih =>
    obtain ⟨hnotin, hrest⟩ := List.nodup_cons.mp nodup
    by_cases ht : t = symbol
    · -- the symbol does not come again.
      have hrest : ∀ s ∈ symbols, (s, value s) = (s, if s = symbol then x else value s) := by
        intro s hs
        have hne : s ≠ symbol := fun heq => hnotin (ht.trans heq.symm ▸ hs)
        rw [if_neg hne]
      simp only [List.map_cons, replace, ht, if_true, List.map_congr_left hrest]
    · have hmem : symbol ∈ symbols := (List.mem_cons.mp h).resolve_left fun heq => ht heq.symm
      simp only [List.map_cons, replace, ht, if_false, @ih hrest hmem]

/-- What is found is made from what was found before. -/
@[simp]
theorem get?_map [DecidableEq σ] (f : β → γ) (m : SymbolMap σ β) (s : σ) :
    (m.map f).get? s = (m.get? s).map f := by
  show find? s (m.entries.map fun entry => (entry.1, f entry.2)) = (find? s m.entries).map f
  induction m.entries with
  | nil => rfl
  | cons entry rest ih =>
    obtain ⟨t, x⟩ := entry
    by_cases h : t = s
    · simp [find?, h]
    · simp only [List.map_cons, find?, h, if_false, ih]

theorem replace_map [DecidableEq σ] (f : β → γ) (symbol : σ) (value : β)
    (entries : List (σ × β)) :
    replace symbol (f value) (entries.map fun entry => (entry.1, f entry.2)) =
      (replace symbol value entries).map fun entry => (entry.1, f entry.2) := by
  induction entries with
  | nil => rfl
  | cons entry rest ih =>
    by_cases h : entry.1 = symbol
    · simp [replace, h]
    · simp [replace, h, ih]

/-- It makes no difference whether a value is changed before it is inserted or after. -/
theorem map_insert [DecidableEq σ] (f : β → γ) (m : SymbolMap σ β) (symbol : σ) (value : β) :
    (m.insert symbol value).map f = (m.map f).insert symbol (f value) := by
  simp only [map, insert, replace_map]

theorem map_map {δ : Type v} (f : β → γ) (g : δ → β) (m : SymbolMap σ δ) :
    (m.map g).map f = m.map (f ∘ g) := by
  simp [map]

/-- The entries after `f`, or the error of the first value that `f` refuses. That the symbols stay
is part of the result, so that it is a map again. -/
def tryEntries {ε : Type} (f : β → Except ε γ) :
    (entries : List (σ × β)) →
      Except ε { out : List (σ × γ) // out.map Prod.fst = entries.map Prod.fst }
  | [] => .ok ⟨[], rfl⟩
  | (s, x) :: rest =>
    match f x with
    | .error e => .error e
    | .ok y =>
      match tryEntries f rest with
      | .error e => .error e
      | .ok ⟨out, hout⟩ => .ok ⟨(s, y) :: out, by simp [hout]⟩

/-- Every value goes through `f`, in order; the first error ends it. -/
def tryMap {ε : Type} (f : β → Except ε γ) (m : SymbolMap σ β) : Except ε (SymbolMap σ γ) :=
  (tryEntries f m.entries).map fun out =>
    { entries := out.val
      nodup_keys := by rw [out.property]; exact m.nodup_keys }

/-- Where no value is refused, every value goes through. -/
theorem tryMap_map_eq_ok {ε : Type} {δ : Type v} {inner : δ → β} {f : β → Except ε γ} {g : δ → γ}
    (h : ∀ x, f (inner x) = .ok (g x)) (m : SymbolMap σ δ) :
    (m.map inner).tryMap f = .ok (m.map g) := by
  -- the proof that the symbols stay comes with the list, so it is found together with it.
  have hentries : ∀ entries : List (σ × δ), ∃ hout,
      tryEntries f (entries.map fun entry => (entry.1, inner entry.2)) =
        .ok ⟨entries.map fun entry => (entry.1, g entry.2), hout⟩ := by
    intro entries
    induction entries with
    | nil => exact ⟨rfl, rfl⟩
    | cons entry rest ih =>
      obtain ⟨hrest, hok⟩ := ih
      refine ⟨by simp, ?_⟩
      show tryEntries f ((entry.1, inner entry.2) :: rest.map _) = _
      simp only [tryEntries, h, hok]
      rfl
  obtain ⟨_, hok⟩ := hentries m.entries
  rw [tryMap, map, hok]
  rfl

/-- If `f` refuses nothing, then it changes the values as `g` does. -/
theorem tryMap_eq_ok {ε : Type} {f : β → Except ε γ} {g : β → γ} (h : ∀ x, f x = .ok (g x))
    (m : SymbolMap σ β) : m.tryMap f = .ok (m.map g) := by
  have hid : m.map id = m := by simp [map]
  have hmap : (m.map id).tryMap f = .ok (m.map g) := tryMap_map_eq_ok h m
  rwa [hid] at hmap

/-- The value of a symbol after `f` comes from its value before, which `f` did not refuse. -/
theorem exists_of_tryEntries_eq_ok [DecidableEq σ] {ε : Type} {f : β → Except ε γ}
    {entries : List (σ × β)} {out : { out : List (σ × γ) // out.map Prod.fst =
      entries.map Prod.fst }} (h : tryEntries f entries = .ok out) {s : σ} {y : γ}
    (hy : find? s out.val = some y) : ∃ x, find? s entries = some x ∧ f x = .ok y := by
  induction entries with
  | nil =>
    cases h
    exact nomatch hy
  | cons entry rest ih =>
    obtain ⟨t, x⟩ := entry
    rw [tryEntries] at h
    split at h
    · exact nomatch h
    · next y' hx =>
      split at h
      · exact nomatch h
      · next rest' hkeys hrest =>
        cases h
        -- the symbol is found at the first entry, or in the rest on both sides.
        by_cases ht : t = s
        · simp only [find?, ht, if_true] at hy ⊢
          exact ⟨x, rfl, hx.trans (congrArg Except.ok (Option.some.inj hy))⟩
        · simp only [find?, ht, if_false] at hy ⊢
          exact ih hrest hy

/-- Every value after `f` comes from the value of its symbol. -/
theorem exists_of_tryMap_eq_ok [DecidableEq σ] {ε : Type} {f : β → Except ε γ} {m : SymbolMap σ β}
    {out : SymbolMap σ γ} (h : m.tryMap f = .ok out) {s : σ} {y : γ} (hy : out.get? s = some y) :
    ∃ x, m.get? s = some x ∧ f x = .ok y := by
  obtain ⟨entries, hentries, rfl⟩ := map_eq_ok_iff.mp h
  exact exists_of_tryEntries_eq_ok hentries hy

/-- If `g` takes back what `f` does to one value, then it takes back what `f` did to all of them.
The symbols are not touched. -/
theorem map_of_tryEntries_eq_ok {ε : Type} {f : β → Except ε γ} {g : γ → β}
    (undo : ∀ x y, f x = .ok y → g y = x) {entries : List (σ × β)}
    {out : { out : List (σ × γ) // out.map Prod.fst = entries.map Prod.fst }}
    (h : tryEntries f entries = .ok out) :
    out.val.map (fun entry => (entry.1, g entry.2)) = entries := by
  induction entries with
  | nil =>
    cases h
    rfl
  | cons entry rest ih =>
    rw [tryEntries] at h
    split at h
    · exact nomatch h
    · next y hx =>
      split at h
      · exact nomatch h
      · next rest' hkeys hrest =>
        cases h
        rw [List.map_cons, ih hrest, undo _ _ hx]

/-- Where `g` takes back what `f` does, it takes back what was done to all values. -/
theorem map_of_tryMap_eq_ok {ε : Type} {f : β → Except ε γ} {g : γ → β}
    (undo : ∀ x y, f x = .ok y → g y = x) {m : SymbolMap σ β} {out : SymbolMap σ γ}
    (h : m.tryMap f = .ok out) : out.map g = m := by
  obtain ⟨entries, hentries, rfl⟩ := map_eq_ok_iff.mp h
  simp only [map, map_of_tryEntries_eq_ok undo hentries]

/-- There is an error if and only if some value is refused, whatever comes before it. -/
theorem tryEntries_eq_error_iff {ε : Type} {f : β → Except ε γ} {entries : List (σ × β)} :
    (∃ e, tryEntries f entries = .error e) ↔ ∃ x ∈ entries.map Prod.snd, ∃ e, f x = .error e := by
  induction entries with
  | nil => simp [tryEntries]
  | cons entry rest ih =>
    simp only [List.map_cons, List.mem_cons, exists_eq_or_imp, ← ih]
    rw [tryEntries]
    cases f entry.2 with
    | error e => simp
    | ok y => cases tryEntries f rest <;> simp

/-- Behind a value that is not refused, the rest decides. -/
theorem tryEntries_cons_eq_error_iff {ε : Type} {f : β → Except ε γ} {s : σ} {x : β} {y : γ}
    {rest : List (σ × β)} {e : ε} (hx : f x = .ok y) :
    tryEntries f ((s, x) :: rest) = .error e ↔ tryEntries f rest = .error e := by
  rw [tryEntries, hx]
  cases tryEntries f rest <;> simp

/-- The error is that of the first value that is refused: all values before it go through. -/
theorem tryEntries_eq_error_first_iff {ε : Type} {f : β → Except ε γ} {entries : List (σ × β)}
    {e : ε} :
    tryEntries f entries = .error e ↔ ∃ before s x after, entries = before ++ (s, x) :: after ∧
      (∀ entry ∈ before, ∃ y, f entry.2 = .ok y) ∧ f x = .error e := by
  induction entries with
  | nil => simp [tryEntries]
  | cons entry rest ih =>
    obtain ⟨t, z⟩ := entry
    simp only [List.cons_eq_append_iff]
    -- the first entry is the one that is refused, or it belongs to those before.
    cases hz : f z with
    | error d =>
      rw [tryEntries, hz]
      constructor
      · rintro ⟨⟩
        exact ⟨[], t, z, rest, .inl ⟨rfl, rfl⟩, nofun, hz⟩
      · rintro ⟨before, s, x, after, ⟨rfl, hcons⟩ | ⟨tail, rfl, -⟩, hbefore, hx⟩
        · cases hcons
          exact congrArg Except.error (Except.error.inj (hz.symm.trans hx))
        · obtain ⟨y, hy⟩ := hbefore (t, z) (List.mem_cons_self ..)
          exact nomatch hz.symm.trans hy
    | ok y =>
      rw [tryEntries_cons_eq_error_iff hz, ih]
      constructor
      · rintro ⟨before, s, x, after, rfl, hbefore, hx⟩
        exact ⟨(t, z) :: before, s, x, after, .inr ⟨before, rfl, rfl⟩,
          List.forall_mem_cons.mpr ⟨⟨y, hz⟩, hbefore⟩, hx⟩
      · rintro ⟨before, s, x, after, ⟨rfl, hcons⟩ | ⟨tail, rfl, rfl⟩, hbefore, hx⟩
        · cases hcons
          exact nomatch hz.symm.trans hx
        · exact ⟨tail, s, x, after, rfl, (List.forall_mem_cons.mp hbefore).2, hx⟩

/-- The error of the first value that is refused. -/
theorem tryMap_eq_error_first_iff {ε : Type} {f : β → Except ε γ} {m : SymbolMap σ β} {e : ε} :
    m.tryMap f = .error e ↔ ∃ before s x after, m.entries = before ++ (s, x) :: after ∧
      (∀ entry ∈ before, ∃ y, f entry.2 = .ok y) ∧ f x = .error e := by
  rw [← tryEntries_eq_error_first_iff, tryMap, map_eq_error_iff]

/-- All values go through unless one of them is refused. -/
theorem tryMap_eq_error_iff {ε : Type} {f : β → Except ε γ} {m : SymbolMap σ β} :
    (∃ e, m.tryMap f = .error e) ↔ ∃ x ∈ m.values, ∃ e, f x = .error e := by
  rw [values, ← tryEntries_eq_error_iff, tryMap]
  cases tryEntries f m.entries <;> simp [Except.map]

end SymbolMap

end PathSum
