/-!
# Sorted maps

A finite map is the list of its entries in strictly ascending key order. The order makes the list
canonical: two maps with the same lookups are the same map (`SortedMap.ext_get?`), so equality of
states that hold maps is plain equality, and walking the entries walks the keys in order.

`get?` is the view of a map; each operation has one lemma that says what it does to `get?`.
-/

namespace LogSync

/-- Comparing through an injective function tells equal keys from different ones. -/
theorem lawfulEqCmp_compareOn {κ ρ : Type} [Ord ρ] [Std.LawfulEqOrd ρ] (f : κ → ρ)
    (injective : ∀ a b, f a = f b → a = b) : Std.LawfulEqCmp (compareOn f) where
  compare_self := Std.ReflOrd.compare_self (α := ρ)
  eq_of_compare h := injective _ _ (Std.LawfulEqOrd.eq_of_compare (α := ρ) h)

/-- A finite map from keys to values, its entries in strictly ascending key order. -/
structure SortedMap (κ : Type) [Ord κ] (α : Type) where
  toList : List (κ × α)
  ascending : toList.Pairwise fun a b => compare a.1 b.1 = .lt

namespace SortedMap

variable {κ : Type} [Ord κ] {α β : Type}

/-- A map is its entries: that they ascend is no further choice. -/
@[ext]
theorem ext_toList {m n : SortedMap κ α} (h : m.toList = n.toList) : m = n := by
  cases m; cases n; simp_all

instance [DecidableEq κ] [DecidableEq α] : DecidableEq (SortedMap κ α) := fun m n =>
  decidable_of_iff (m.toList = n.toList) ⟨ext_toList, congrArg toList⟩

/-- The map without entries. -/
def empty : SortedMap κ α := ⟨[], .nil⟩

instance : EmptyCollection (SortedMap κ α) := ⟨empty⟩
instance : Inhabited (SortedMap κ α) := ⟨empty⟩

/-- The value of a key in a list of entries. -/
def lookup (k : κ) : List (κ × α) → Option α
  | [] => none
  | (j, v) :: rest => if compare k j = .eq then some v else lookup k rest

/-- The value of a key. -/
def get? (m : SortedMap κ α) (k : κ) : Option α := lookup k m.toList

/-- Whether a key has a value. -/
def contains (m : SortedMap κ α) (k : κ) : Bool := (m.get? k).isSome

/-- The keys in ascending order. -/
def keys (m : SortedMap κ α) : List κ := m.toList.map (·.1)

/-- The values in ascending order of their keys. -/
def values (m : SortedMap κ α) : List α := m.toList.map (·.2)

/-- The number of keys. -/
def size (m : SortedMap κ α) : Nat := m.toList.length

/-- Whether there are no entries. -/
def isEmpty (m : SortedMap κ α) : Bool := m.toList.isEmpty

/-- Puts an entry at its place in an ascending list, over an entry of the same key. -/
def insertEntry (k : κ) (v : α) : List (κ × α) → List (κ × α)
  | [] => [(k, v)]
  | (j, w) :: rest =>
    match compare k j with
    | .lt => (k, v) :: (j, w) :: rest
    | .eq => (k, v) :: rest
    | .gt => (j, w) :: insertEntry k v rest

/-- An insertion brings in no entry but its own. -/
theorem mem_insertEntry {k : κ} {v : α} {a : κ × α} {l : List (κ × α)}
    (h : a ∈ insertEntry k v l) : a = (k, v) ∨ a ∈ l := by
  induction l with
  | nil => simpa [insertEntry] using h
  | cons b l ih =>
    rw [insertEntry] at h
    split at h <;> grind

/-- An insertion keeps the keys ascending. -/
theorem ascending_insertEntry [Std.TransOrd κ] (k : κ) (v : α) {l : List (κ × α)}
    (h : l.Pairwise fun a b => compare a.1 b.1 = .lt) :
    (insertEntry k v l).Pairwise fun a b => compare a.1 b.1 = .lt := by
  induction l with
  | nil => simp [insertEntry]
  | cons b l ih =>
    obtain ⟨hb, hl⟩ := List.pairwise_cons.1 h
    rw [insertEntry]
    split
    · next hlt =>
      refine List.pairwise_cons.2 ⟨fun a ha => ?_, h⟩
      rcases List.mem_cons.1 ha with rfl | ha
      · exact hlt
      · exact Std.TransCmp.lt_trans hlt (hb a ha)
    · next heq =>
      refine List.pairwise_cons.2 ⟨fun a ha => ?_, hl⟩
      exact Std.TransCmp.lt_of_eq_of_lt heq (hb a ha)
    · next hgt =>
      refine List.pairwise_cons.2 ⟨fun a ha => ?_, ih hl⟩
      rcases mem_insertEntry ha with rfl | ha
      · exact Std.OrientedCmp.lt_of_gt hgt
      · exact hb a ha

/-- Gives a key a value, in place of the one it had. -/
def insert [Std.TransOrd κ] (m : SortedMap κ α) (k : κ) (v : α) : SortedMap κ α :=
  ⟨insertEntry k v m.toList, ascending_insertEntry k v m.ascending⟩

/-- Keeps the entries that pass a test. -/
def filter (keep : κ → α → Bool) (m : SortedMap κ α) : SortedMap κ α :=
  ⟨m.toList.filter fun e => keep e.1 e.2, m.ascending.filter _⟩

/-- Takes a key's entry away. -/
def erase (m : SortedMap κ α) (k : κ) : SortedMap κ α :=
  m.filter fun j _ => !(compare k j == .eq)

/-- Changes every value. -/
def mapValues (f : κ → α → β) (m : SortedMap κ α) : SortedMap κ β :=
  ⟨m.toList.map fun e => (e.1, f e.1 e.2), List.pairwise_map.2 m.ascending⟩

/-- Changes the value of one key, if it has one. -/
def modify (m : SortedMap κ α) (k : κ) (f : α → α) : SortedMap κ α :=
  m.mapValues fun j v => if compare k j = .eq then f v else v

/-- Changes the value of one key, which counts as `start` if it had none. -/
def upsert [Std.TransOrd κ] (m : SortedMap κ α) (k : κ) (start : α) (f : α → α) : SortedMap κ α :=
  m.insert k (f ((m.get? k).getD start))

/-- The map of a list of entries; the last entry of a key wins. -/
def ofList [Std.TransOrd κ] (l : List (κ × α)) : SortedMap κ α :=
  l.foldl (fun m e => m.insert e.1 e.2) empty

/-! ## What each operation does to lookups -/

@[simp]
theorem get?_empty (k : κ) : (∅ : SortedMap κ α).get? k = none := rfl

section
variable [Std.LawfulEqOrd κ]

/-- Among ascending keys a key occurs once, so that a lookup finds whatever entry there is. -/
theorem lookup_eq_some_iff_mem {l : List (κ × α)}
    (h : l.Pairwise fun a b => compare a.1 b.1 = .lt) {k : κ} {v : α} :
    lookup k l = some v ↔ (k, v) ∈ l := by
  induction l with
  | nil => simp [lookup]
  | cons b l ih =>
    obtain ⟨j, w⟩ := b
    obtain ⟨hb, hl⟩ := List.pairwise_cons.1 h
    by_cases hk : k = j
    · subst hk
      have notin : (k, v) ∉ l := fun hm => by
        have := hb _ hm
        simp [Std.ReflOrd.compare_self] at this
      simp [lookup, Std.ReflOrd.compare_self, notin, eq_comm]
    · have hne : compare k j ≠ .eq := fun h => hk (Std.LawfulEqOrd.eq_of_compare h)
      simp [lookup, hne, hk, ih hl]

/-- The entries are the pairs that lookups give. -/
theorem mem_toList_iff {m : SortedMap κ α} {k : κ} {v : α} :
    (k, v) ∈ m.toList ↔ m.get? k = some v :=
  (lookup_eq_some_iff_mem m.ascending).symm

theorem lookup_insertEntry [Std.TransOrd κ] [DecidableEq κ] (k j : κ) (v : α) (l : List (κ × α)) :
    lookup j (insertEntry k v l) = if j = k then some v else lookup j l := by
  have compare_eq {a b : κ} : compare a b = .eq ↔ a = b := Std.LawfulEqOrd.compare_eq_iff_eq
  induction l with
  | nil => simp [insertEntry, lookup, compare_eq]
  | cons b l ih =>
    obtain ⟨i, w⟩ := b
    rw [insertEntry]
    split
    · simp [lookup, compare_eq]
    · next h => simp only [lookup, compare_eq] at h ⊢; grind
    · next h =>
      have hki : k ≠ i := fun e => by simp [e, Std.ReflOrd.compare_self] at h
      simp only [lookup, ih, compare_eq]; grind

/-- What is inserted is found under its key; every other key keeps its value. -/
theorem get?_insert [Std.TransOrd κ] [DecidableEq κ] (m : SortedMap κ α) (k j : κ) (v : α) :
    (m.insert k v).get? j = if j = k then some v else m.get? j :=
  lookup_insertEntry k j v m.toList

theorem get?_mapValues (f : κ → α → β) (m : SortedMap κ α) (k : κ) :
    (m.mapValues f).get? k = (m.get? k).map (f k) := by
  simp only [mapValues, get?]
  induction m.toList with
  | nil => rfl
  | cons b l ih =>
    by_cases h : k = b.1
    · simp [lookup, h, Std.ReflOrd.compare_self]
    · have hne : compare k b.1 ≠ .eq := fun e => h (Std.LawfulEqOrd.eq_of_compare e)
      simp [lookup, hne, ih]

/-- A filter keeps or drops each key by itself. -/
theorem get?_filter (keep : κ → α → Bool) (m : SortedMap κ α) (k : κ) :
    (m.filter keep).get? k = (m.get? k).filter (keep k) := by
  apply Option.ext
  intro v
  rw [← mem_toList_iff, Option.filter_eq_some_iff, ← mem_toList_iff]
  simp [filter]

/-- What is erased is found no more; every other key keeps its value. -/
theorem get?_erase [DecidableEq κ] (m : SortedMap κ α) (k j : κ) :
    (m.erase k).get? j = if j = k then none else m.get? j := by
  rw [erase, get?_filter]
  by_cases h : j = k
  · cases hv : m.get? j <;> simp [h, Option.filter, Std.ReflOrd.compare_self]
  · have hne : compare k j ≠ .eq := fun e => h (Std.LawfulEqOrd.eq_of_compare e).symm
    cases hv : m.get? j <;> simp [h, Option.filter, hne]

theorem get?_modify [DecidableEq κ] (m : SortedMap κ α) (k j : κ) (f : α → α) :
    (m.modify k f).get? j = if j = k then (m.get? j).map f else m.get? j := by
  rw [modify, get?_mapValues]
  by_cases h : j = k
  · simp [h, Std.ReflOrd.compare_self]
  · have hne : compare k j ≠ .eq := fun e => h (Std.LawfulEqOrd.eq_of_compare e).symm
    simp [h, hne]

/-- An update starts from the value of its key, or from the given one if the key is new; every other
key keeps its value. -/
theorem get?_upsert [Std.TransOrd κ] [DecidableEq κ] (m : SortedMap κ α) (k j : κ) (start : α)
    (f : α → α) :
    (m.upsert k start f).get? j = if j = k then some (f ((m.get? k).getD start)) else m.get? j :=
  get?_insert m k j _

end

/-- Two ascending lists with the same members are the same list. -/
theorem eq_of_ascending [Std.TransOrd κ] {l r : List (κ × α)}
    (hl : l.Pairwise fun a b => compare a.1 b.1 = .lt)
    (hr : r.Pairwise fun a b => compare a.1 b.1 = .lt) (h : ∀ e, e ∈ l ↔ e ∈ r) : l = r := by
  induction l generalizing r with
  | nil => cases r with
    | nil => rfl
    | cons b r => exact absurd ((h b).2 (by simp)) (by simp)
  | cons a l ih => cases r with
    | nil => exact absurd ((h a).1 (by simp)) (by simp)
    | cons b r =>
      obtain ⟨ha, hl'⟩ := List.pairwise_cons.1 hl
      obtain ⟨hb, hr'⟩ := List.pairwise_cons.1 hr
      have irrefl (x : κ × α) : compare x.1 x.1 ≠ .lt := by simp [Std.ReflOrd.compare_self]
      -- each head is the least entry of its list, so the heads agree
      have hab : a = b := by
        rcases List.mem_cons.1 ((h a).1 (by simp)) with e | har
        · exact e
        · rcases List.mem_cons.1 ((h b).2 (by simp)) with e | hbl
          · exact e.symm
          · exact absurd (Std.TransCmp.lt_trans (ha b hbl) (hb a har)) (irrefl a)
      subst hab
      refine congrArg _ (ih hl' hr' fun e => ⟨fun he => ?_, fun he => ?_⟩)
      · rcases List.mem_cons.1 ((h e).1 (by simp [he])) with rfl | her
        · exact absurd (ha _ he) (irrefl _)
        · exact her
      · rcases List.mem_cons.1 ((h e).2 (by simp [he])) with rfl | hel
        · exact absurd (hb _ he) (irrefl _)
        · exact hel

/-- A map is determined by its lookups. -/
theorem ext_get? [Std.TransOrd κ] [Std.LawfulEqOrd κ] {m n : SortedMap κ α}
    (h : ∀ k, m.get? k = n.get? k) : m = n :=
  ext_toList <| eq_of_ascending m.ascending n.ascending fun e => by
    rw [mem_toList_iff, mem_toList_iff, h]

end SortedMap

/-- A finite set, its members in strictly ascending order. -/
abbrev SortedSet (κ : Type) [Ord κ] := SortedMap κ Unit

namespace SortedSet

variable {κ : Type} [Ord κ]

/-- Adds a member. -/
def add [Std.TransOrd κ] (s : SortedSet κ) (k : κ) : SortedSet κ := s.insert k ()

end SortedSet

end LogSync
