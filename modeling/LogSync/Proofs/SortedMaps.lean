import LogSync.Counting
import LogSync.SortedMap

/-!
# More about sorted maps

How the operations of `SortedMap` go together when whole maps are walked: the values of a changed
map, and changes made one after the other.
-/

namespace LogSync

/-- A sum depends only on what is added for the members of the list. -/
theorem sumOver_congr {α : Type} {f g : α → Nat} {l : List α} (h : ∀ a ∈ l, f a = g a) :
    sumOver f l = sumOver g l := by
  induction l with
  | nil => rfl
  | cons a l ih => rw [sumOver, sumOver, h a (by simp), ih fun b hb => h b (by simp [hb])]

/-- A sum over images is the sum of what is added for each image. -/
theorem sumOver_map {α β : Type} (f : β → Nat) (g : α → β) (l : List α) :
    sumOver f (l.map g) = sumOver (fun a => f (g a)) l := by
  induction l with
  | nil => rfl
  | cons a l ih => rw [List.map_cons, sumOver, sumOver, ih]

/-- Whatever has no image adds nothing. -/
theorem sumOver_filterMap {α β : Type} (f : β → Nat) (g : α → Option β) (l : List α) :
    sumOver f (l.filterMap g) = sumOver (fun a => (g a).elim 0 f) l := by
  induction l with
  | nil => rfl
  | cons a l ih =>
    rw [List.filterMap_cons, sumOver, ← ih]
    cases g a with
    | none => exact (Nat.zero_add _).symm
    | some b => rfl

theorem sumOver_flatMap {α β : Type} (f : β → Nat) (g : α → List β) (l : List α) :
    sumOver f (l.flatMap g) = sumOver (fun a => sumOver f (g a)) l := by
  induction l with
  | nil => rfl
  | cons a l ih => rw [List.flatMap_cons, sumOver_append, sumOver, ih]

/-- A sum is positive if and only if something in it is. -/
theorem sumOver_pos_iff {α : Type} {f : α → Nat} {l : List α} :
    0 < sumOver f l ↔ ∃ a ∈ l, 0 < f a := by
  induction l with
  | nil => simp [sumOver]
  | cons a l ih => rw [sumOver, Nat.add_pos_iff_pos_or_pos, ih]; simp

namespace SortedMap

variable {κ : Type} [Ord κ] {α β γ : Type}

/-- The entries of a mapped map are the mapped entries, in their order. -/
@[simp]
theorem toList_mapValues (f : κ → α → β) (m : SortedMap κ α) :
    (m.mapValues f).toList = m.toList.map fun e => (e.1, f e.1 e.2) := rfl

theorem size_mapValues (f : κ → α → β) (m : SortedMap κ α) : (m.mapValues f).size = m.size :=
  List.length_map _

/-- Where the key plays no part, mapping a map maps the list of its values. -/
theorem values_mapValues (f : α → β) (m : SortedMap κ α) :
    (m.mapValues fun _ v => f v).values = m.values.map f := by
  simp only [values, toList_mapValues, List.map_map]
  rfl

/-- Mapping twice is mapping once. -/
theorem mapValues_mapValues (f : κ → α → β) (g : κ → β → γ) (m : SortedMap κ α) :
    (m.mapValues f).mapValues g = m.mapValues fun k v => g k (f k v) :=
  ext_toList (by simp [Function.comp_def])

/-- Two changes that agree on the values of a map make the same of it. -/
theorem mapValues_congr {f g : κ → α → β} {m : SortedMap κ α}
    (h : ∀ e ∈ m.toList, f e.1 e.2 = g e.1 e.2) : m.mapValues f = m.mapValues g :=
  ext_toList <| by
    rw [toList_mapValues, toList_mapValues]
    exact List.map_congr_left fun e he => by rw [h e he]

/-- A map stays as it is if each of its values does. -/
theorem mapValues_eq_self {f : κ → α → α} {m : SortedMap κ α}
    (h : ∀ e ∈ m.toList, f e.1 e.2 = e.2) : m.mapValues f = m :=
  ext_toList <| (List.map_congr_left fun e he => by rw [h e he]; rfl).trans (List.map_id _)

section
variable [Std.LawfulEqOrd κ]

/-- In an ascending list no entry behind the head has the head's key. -/
theorem lookup_tail {k : κ} {v : α} {rest : List (κ × α)}
    (h : ((k, v) :: rest).Pairwise fun a b => compare a.1 b.1 = .lt) : lookup k rest = none := by
  obtain ⟨hhead, htail⟩ := List.pairwise_cons.1 h
  cases hl : lookup k rest with
  | none => rfl
  | some w =>
    have hlt := hhead _ ((lookup_eq_some_iff_mem htail).1 hl)
    simp [Std.ReflOrd.compare_self] at hlt

theorem lookup_cons [DecidableEq κ] (j k : κ) (v : α) (rest : List (κ × α)) :
    lookup k ((j, v) :: rest) = if k = j then some v else lookup k rest := by
  simp only [lookup, Std.LawfulEqOrd.compare_eq_iff_eq]

/-- Working every entry of one map into another changes each key by its own entry. -/
theorem get?_foldl_upsert [Std.TransOrd κ] [DecidableEq κ] (start : β) (f : α → β → β)
    {l : List (κ × α)} (h : l.Pairwise fun a b => compare a.1 b.1 = .lt) (m : SortedMap κ β)
    (k : κ) :
    (l.foldl (fun m e => m.upsert e.1 start (f e.2)) m).get? k
      = (lookup k l).elim (m.get? k) fun v => some (f v ((m.get? k).getD start)) := by
  induction l generalizing m with
  | nil => rfl
  | cons e rest ih =>
    obtain ⟨j, v⟩ := e
    rw [List.foldl_cons, ih (List.pairwise_cons.1 h).2, lookup_cons, get?_upsert]
    by_cases hk : k = j
    · subst hk
      rw [lookup_tail h, if_pos rfl, if_pos rfl]
      rfl
    · rw [if_neg hk, if_neg hk]

/-- Every entry is found under its key. -/
theorem get?_of_mem {m : SortedMap κ α} {e : κ × α} (h : e ∈ m.toList) : m.get? e.1 = some e.2 :=
  mem_toList_iff.1 h

/-- The values are what is found under some key. -/
theorem mem_values_iff {m : SortedMap κ α} {v : α} : v ∈ m.values ↔ ∃ k, m.get? k = some v := by
  constructor
  · intro h
    obtain ⟨e, he, rfl⟩ := List.mem_map.1 h
    exact ⟨e.1, get?_of_mem he⟩
  · rintro ⟨k, hk⟩
    exact List.mem_map.2 ⟨(k, v), mem_toList_iff.2 hk, rfl⟩

theorem any_values_iff {m : SortedMap κ α} {f : α → Bool} :
    m.values.any f = true ↔ ∃ k, (m.get? k).map f = some true := by
  simp only [List.any_eq_true, mem_values_iff, Option.map_eq_some_iff]
  constructor
  · intro ⟨v, ⟨k, hk⟩, hv⟩
    exact ⟨k, v, hk, hv⟩
  · intro ⟨k, v, hk, hv⟩
    exact ⟨v, ⟨k, hk⟩, hv⟩

theorem contains_mapValues (f : κ → α → β) (m : SortedMap κ α) (k : κ) :
    (m.mapValues f).contains k = m.contains k := by
  unfold contains
  rw [get?_mapValues, Option.isSome_map]

/-- The keys are those under which something is found. -/
theorem mem_keys_iff {m : SortedMap κ α} {k : κ} : k ∈ m.keys ↔ m.contains k = true := by
  rw [contains, Option.isSome_iff_exists]
  constructor
  · intro h
    obtain ⟨e, he, rfl⟩ := List.mem_map.1 h
    exact ⟨e.2, get?_of_mem he⟩
  · rintro ⟨v, hv⟩
    exact List.mem_map.2 ⟨(k, v), mem_toList_iff.2 hv, rfl⟩

/-- A list put together from all the values is what a single one has to give, if the others give
nothing. -/
theorem flatMap_values_eq [DecidableEq κ] {m : SortedMap κ α} {k : κ} {v : α}
    (hk : m.get? k = some v) {f : α → List β} (hf : ∀ j w, m.get? j = some w → j ≠ k → f w = []) :
    m.values.flatMap f = f v := by
  obtain ⟨l, hl⟩ := m
  simp only [get?] at hk hf
  show (l.map (·.2)).flatMap f = f v
  induction l with
  | nil => contradiction
  | cons e rest ih =>
    obtain ⟨j, w⟩ := e
    -- what the tail knows of a key, the whole list knows too
    have hrest {i : κ} {u : α} (hi : lookup i rest = some u) :
        i ≠ j ∧ lookup i ((j, w) :: rest) = some u := by
      have hij : i ≠ j := by
        rintro rfl
        rw [lookup_tail hl] at hi
        contradiction
      exact ⟨hij, by rw [lookup_cons, if_neg hij, hi]⟩
    rw [List.map_cons, List.flatMap_cons]
    rw [lookup_cons] at hk
    split at hk
    · next hkj =>
      cases hk
      have hnone : (rest.map (·.2)).flatMap f = [] := by
        rw [List.flatMap_eq_nil_iff]
        intro u hu
        obtain ⟨e, he, rfl⟩ := List.mem_map.1 hu
        obtain ⟨hne, hlookup⟩ := hrest
          ((lookup_eq_some_iff_mem (List.pairwise_cons.1 hl).2).2 he)
        exact hf _ _ hlookup (hkj ▸ hne)
      rw [hnone, List.append_nil]
    · next hkj =>
      rw [hf j w (by rw [lookup_cons, if_pos rfl]) (Ne.symm hkj), List.nil_append]
      exact ih (List.pairwise_cons.1 hl).2 hk fun i u hi hne => hf i u (hrest hi).2 hne

/-- If every entry of one map has grown into an entry of another, sums over the entries have not
gone down; and if neither the number of entries nor the sum has changed, no entry has. -/
theorem sumOver_values_le [Std.TransOrd κ] [DecidableEq κ] {m n : SortedMap κ α} (f : α → Nat)
    (g : α → β)
    (h : ∀ k v, m.get? k = some v →
      ∃ w, n.get? k = some w ∧ f v ≤ f w ∧ (f w = f v → g w = g v)) :
    m.size ≤ n.size ∧ sumOver f m.values ≤ sumOver f n.values ∧
      (n.size = m.size → sumOver f n.values = sumOver f m.values →
        n.values.map g = m.values.map g) := by
  obtain ⟨l, hl⟩ := m
  obtain ⟨r, hr⟩ := n
  simp only [get?] at h
  show l.length ≤ r.length ∧ sumOver f (l.map (·.2)) ≤ sumOver f (r.map (·.2)) ∧
    (r.length = l.length → sumOver f (r.map (·.2)) = sumOver f (l.map (·.2)) →
      (r.map (·.2)).map g = (l.map (·.2)).map g)
  -- the lists are walked together; an entry that is only in the second list is passed over
  induction r generalizing l with
  | nil =>
    cases l with
    | nil => exact ⟨Nat.le_refl _, Nat.le_refl _, fun _ _ => rfl⟩
    | cons e l =>
      obtain ⟨w, hw, -⟩ := h e.1 e.2 ((lookup_eq_some_iff_mem hl).2 (by simp))
      contradiction
  | cons e r ih =>
    obtain ⟨j, w⟩ := e
    obtain ⟨hj, hr'⟩ := List.pairwise_cons.1 hr
    have hself (k : κ) : compare k k ≠ .lt := by simp [Std.ReflOrd.compare_self]
    have hskip {k : κ} (hk : k ≠ j) : lookup k ((j, w) :: r) = lookup k r := by
      rw [lookup_cons, if_neg hk]
    cases l with
    | nil => simp [sumOver]
    | cons e l =>
      obtain ⟨k, v⟩ := e
      obtain ⟨hk, hl'⟩ := List.pairwise_cons.1 hl
      by_cases hkj : k = j
      · subst hkj
        obtain ⟨w', hw, hle, heq⟩ := h k v (by rw [lookup_cons, if_pos rfl])
        rw [lookup_cons, if_pos rfl, Option.some.injEq] at hw
        subst hw
        obtain ⟨h1, h2, h3⟩ := ih l hl' hr' fun i u hi => by
          have hik : i ≠ k := by
            rintro rfl
            rw [lookup_tail hl] at hi
            contradiction
          rw [← hskip hik]
          exact h i u (by rw [lookup_cons, if_neg hik, hi])
        simp only [List.length_cons, List.map_cons, sumOver]
        refine ⟨by omega, by omega, fun hn hs => ?_⟩
        rw [heq (by omega), h3 (by omega) (by omega)]
      · -- the first key of the first list comes later in the second, and so do all behind it
        obtain ⟨w', hw, -⟩ := h k v (by rw [lookup_cons, if_pos rfl])
        rw [hskip hkj, lookup_eq_some_iff_mem hr'] at hw
        have hjk : compare j k = .lt := hj _ hw
        obtain ⟨h1, h2, h3⟩ := ih ((k, v) :: l) hl hr' fun i u hi => by
          have hij : i ≠ j := by
            rintro rfl
            rcases List.mem_cons.1 ((lookup_eq_some_iff_mem hl).1 hi) with heq | hmem
            · exact hkj (congrArg Prod.fst heq).symm
            · exact hself _ (Std.TransCmp.lt_trans hjk (hk _ hmem))
          rw [← hskip hij]
          exact h i u hi
        simp only [List.length_cons, List.map_cons, sumOver] at h1 h2 h3 ⊢
        exact ⟨by omega, by omega, fun hn => by omega⟩

theorem contains_insert [Std.TransOrd κ] [DecidableEq κ] (m : SortedMap κ α) (k j : κ) (v : α) :
    (m.insert k v).contains j = (decide (j = k) || m.contains j) := by
  unfold contains
  rw [get?_insert]
  by_cases h : j = k <;> simp [h]

/-- Of two values given to a key, the last one stays. -/
theorem insert_insert [Std.TransOrd κ] [DecidableEq κ] (m : SortedMap κ α) (k : κ) (v w : α) :
    (m.insert k v).insert k w = m.insert k w := by
  refine ext_get? fun j => ?_
  rw [get?_insert, get?_insert, get?_insert]
  by_cases h : j = k <;> simp [h]

/-- Two keys may be given their values in either order. -/
theorem insert_comm [Std.TransOrd κ] [DecidableEq κ] (m : SortedMap κ α) {j k : κ} (h : j ≠ k)
    (v w : α) : (m.insert j v).insert k w = (m.insert k w).insert j v := by
  refine ext_get? fun i => ?_
  rw [get?_insert, get?_insert, get?_insert, get?_insert]
  by_cases hj : i = j
  · simp [hj, h]
  · simp [hj]

/-- A key may be given the value that it has. -/
theorem insert_self [Std.TransOrd κ] [DecidableEq κ] {m : SortedMap κ α} {k : κ} {v : α}
    (h : m.get? k = some v) : m.insert k v = m := by
  refine ext_get? fun j => ?_
  rw [get?_insert]
  by_cases hj : j = k <;> simp [hj, h]

/-- An insertion makes the list longer by one if the key is new, else it replaces an entry. -/
theorem length_insertEntry [Std.TransOrd κ] [DecidableEq κ] (k : κ) (v : α) {l : List (κ × α)}
    (h : l.Pairwise fun a b => compare a.1 b.1 = .lt) :
    (insertEntry k v l).length = l.length + if (lookup k l).isSome then 0 else 1 := by
  induction l with
  | nil => rfl
  | cons e rest ih =>
    obtain ⟨j, w⟩ := e
    have hinserted := ascending_insertEntry k v h
    rw [insertEntry] at hinserted ⊢
    split at hinserted
    · -- the key comes before all others, so it is not among them
      rw [lookup_tail hinserted]
      rfl
    · next heq => rw [lookup, if_pos heq]; rfl
    · next hgt =>
      have hrest : lookup k ((j, w) :: rest) = lookup k rest := by
        rw [lookup, if_neg (by rw [hgt]; decide)]
      rw [hrest, List.length_cons, ih (List.pairwise_cons.1 h).2, List.length_cons]
      omega

/-- A map grows by a key that it did not have. -/
theorem size_insert [Std.TransOrd κ] [DecidableEq κ] (m : SortedMap κ α) (k : κ) (v : α) :
    (m.insert k v).size = m.size + if m.contains k then 0 else 1 :=
  length_insertEntry k v m.ascending

/-- To change the value of a key is to give it another one. -/
theorem modify_eq_insert [Std.TransOrd κ] [DecidableEq κ] {m : SortedMap κ α} {k : κ} {v : α}
    (h : m.get? k = some v) (f : α → α) : m.modify k f = m.insert k (f v) := by
  refine ext_get? fun j => ?_
  rw [get?_modify, get?_insert]
  by_cases hj : j = k <;> simp [hj, h]

/-- A change under a key that is not there changes nothing. -/
theorem modify_eq_self [Std.TransOrd κ] [DecidableEq κ] {m : SortedMap κ α} {k : κ}
    (h : m.get? k = none) (f : α → α) : m.modify k f = m := by
  refine ext_get? fun j => ?_
  rw [get?_modify]
  by_cases hj : j = k <;> simp [hj, h]

/-- Values may be mapped before an insertion or after it. -/
theorem mapValues_insert [Std.TransOrd κ] [DecidableEq κ] (f : α → β) (m : SortedMap κ α) (k : κ)
    (v : α) :
    ((m.insert k v).mapValues fun _ v => f v) = (m.mapValues fun _ v => f v).insert k (f v) := by
  refine ext_get? fun j => ?_
  rw [get?_mapValues, get?_insert, get?_insert, get?_mapValues]
  split <;> rfl

/-- Values may be mapped before an erasure or after it. -/
theorem mapValues_erase [Std.TransOrd κ] [DecidableEq κ] (f : α → β) (m : SortedMap κ α) (k : κ) :
    ((m.erase k).mapValues fun _ v => f v) = (m.mapValues fun _ v => f v).erase k := by
  refine ext_get? fun j => ?_
  rw [get?_mapValues, get?_erase, get?_erase, get?_mapValues]
  split <;> rfl

/-- In the map of a list whose values follow from the keys, every listed key has its value. -/
theorem get?_ofList [Std.TransOrd κ] [DecidableEq κ] {l : List (κ × α)} {f : κ → α}
    (h : ∀ e ∈ l, e.2 = f e.1) (k : κ) :
    (ofList l).get? k = if k ∈ l.map (·.1) then some (f k) else none := by
  -- entries that were worked in before count as well
  have hall (m : SortedMap κ α) : (l.foldl (fun m e => m.insert e.1 e.2) m).get? k
      = if k ∈ l.map (·.1) then some (f k) else m.get? k := by
    induction l generalizing m with
    | nil => rfl
    | cons e l ih =>
      rw [List.foldl_cons, ih fun e' he' => h e' (List.mem_cons_of_mem _ he'), get?_insert,
        h e List.mem_cons_self, List.map_cons]
      by_cases hl : k ∈ l.map (·.1)
      · rw [if_pos hl, if_pos (List.mem_cons_of_mem _ hl)]
      · by_cases hk : k = e.1
        · rw [if_neg hl, if_pos hk, if_pos (hk ▸ List.mem_cons_self), hk]
        · rw [if_neg hl, if_neg hk, if_neg (by simp [hk, hl])]
  exact hall ∅

/-- Entries that ascend are looked up in a list as in the map that they are put into. -/
theorem get?_foldl_insert [Std.TransOrd κ] [DecidableEq κ] {l : List (κ × α)}
    (h : l.Pairwise fun a b => compare a.1 b.1 = .lt) (m : SortedMap κ α) (k : κ) :
    (l.foldl (fun m e => m.insert e.1 e.2) m).get? k = (lookup k l).or (m.get? k) := by
  induction l generalizing m with
  | nil => rfl
  | cons e rest ih =>
    obtain ⟨j, v⟩ := e
    rw [List.foldl_cons, ih (List.pairwise_cons.1 h).2, lookup_cons, get?_insert]
    by_cases hk : k = j
    · subst hk
      rw [lookup_tail h, if_pos rfl, if_pos rfl]
      rfl
    · rw [if_neg hk, if_neg hk]

/-- A map is put together again from its entries. -/
theorem ofList_toList [Std.TransOrd κ] [DecidableEq κ] (m : SortedMap κ α) :
    ofList m.toList = m := by
  refine ext_get? fun k => ?_
  rw [ofList, get?_foldl_insert m.ascending]
  exact Option.or_none

theorem contains_erase [DecidableEq κ] (m : SortedMap κ α) (k j : κ) :
    (m.erase k).contains j = (!decide (j = k) && m.contains j) := by
  unfold contains
  rw [get?_erase]
  by_cases h : j = k <;> simp [h]

end

/-- A key is missing if and only if nothing is found under it. -/
theorem contains_eq_false {m : SortedMap κ α} {k : κ} :
    m.contains k = false ↔ m.get? k = none := by
  unfold contains
  cases m.get? k <;> simp

end SortedMap
end LogSync
