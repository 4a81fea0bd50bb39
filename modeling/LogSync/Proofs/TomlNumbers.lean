import LogSync.Toml.Reader

/-!
# Numbers of documents

A reader takes an integer only if 64 bits hold it with its sign. So the numbers that stand under
the keys of a document are below `Reader.integerBound` (`Toml.inRange_of_read`). Nothing that a
statement does to a document can change that: it adds a value that was read, or it adds to a table,
and a table is no number.
-/

namespace LogSync.Toml

open Reader

/-! ## What is said -/

/-- If a value is a number, then it is below the bound. -/
def InRange (v : Toml) : Prop := ∀ n, v.nat? = some n → n < integerBound

/-- The numbers among some entries are below the bound. -/
def EntriesInRange (entries : Entries) : Prop := ∀ e ∈ entries, e.2.InRange

/-! ## Values -/

/-- A value that is no natural number has nothing that could be out of range. -/
theorem inRange_of_nat?_eq_none {v : Toml} (h : v.nat? = none) : v.InRange := by
  intro n hn
  rw [h] at hn
  contradiction

theorem inRange_table (origin : Origin) (entries : Entries) : (table origin entries).InRange :=
  inRange_of_nat?_eq_none rfl

theorem inRange_tables (items : List Entries) : (tables items).InRange :=
  inRange_of_nat?_eq_none rfl

/-- An integer below the bound is in range: what is negative is no natural number. -/
theorem inRange_integer {n : Int} (h : n < integerBound) : (integer n).InRange := by
  intro m hm
  cases n with
  | ofNat k =>
    obtain rfl := Option.some.inj hm
    exact Int.ofNat_lt.1 h
  | negSucc k => contradiction

/-- A number in another base is rejected if it does not fit. -/
theorem inRange_based {base : Nat} {isDigit : Char → Bool} {cs rest : List Char} {v : Toml}
    (h : based base isDigit cs = some (v, rest)) : v.InRange := by
  obtain ⟨⟨ds, rest'⟩, -, hvalue⟩ := Option.bind_eq_some_iff.1 h
  simp only [Option.ite_none_right_eq_some, Option.some.injEq, Prod.mk.injEq] at hvalue
  obtain ⟨hbound, rfl, -⟩ := hvalue
  exact inRange_integer (Int.ofNat_lt.2 hbound)

/-- An integer that is read is below the bound, whatever its base. -/
theorem inRange_readInteger {cs rest : List Char} {v : Toml}
    (h : Reader.integer cs = some (v, rest)) : v.InRange := by
  unfold Reader.integer at h
  split at h
  · exact inRange_based h
  · exact inRange_based h
  · exact inRange_based h
  · generalize sign cs = signed at h
    obtain ⟨negative, rest'⟩ := signed
    obtain ⟨⟨ds, rest''⟩, -, hvalue⟩ := Option.bind_eq_some_iff.1 h
    cases negative with
    | true =>
      simp only [if_true, Option.ite_none_right_eq_some, Option.some.injEq, Prod.mk.injEq] at hvalue
      obtain ⟨-, rfl, -⟩ := hvalue
      refine inRange_integer ?_
      have hpos : (0 : Int) < integerBound := by decide
      omega
    | false =>
      simp only [Bool.false_eq_true, if_false, Option.ite_none_right_eq_some, Option.some.injEq,
        Prod.mk.injEq] at hvalue
      obtain ⟨hbound, rfl, -⟩ := hvalue
      exact inRange_integer (Int.ofNat_lt.2 hbound)

/-- What is made of something that was read is in range if it is never a number. -/
theorem inRange_of_map {α : Type} {o : Option α} {f : α → Toml × List Char} {rest : List Char}
    {v : Toml} (hf : ∀ a, (f a).1.nat? = none) (h : o.map f = some (v, rest)) : v.InRange := by
  obtain ⟨a, -, ha⟩ := Option.map_eq_some_iff.1 h
  have hnone : v.nat? = none := by
    rw [← hf a, ha]
  exact inRange_of_nat?_eq_none hnone

/-- A date or time is no number. -/
theorem inRange_readDatetime {cs rest : List Char} {v : Toml}
    (h : Reader.datetime cs = some (v, rest)) : v.InRange := by
  unfold Reader.datetime at h
  split at h
  · obtain ⟨rfl, -⟩ := Prod.mk.inj (Option.some.inj h)
    exact inRange_of_nat?_eq_none rfl
  · exact inRange_of_map (fun _ => rfl) h

/-- A float is no integer, whatever its value is. -/
theorem inRange_readFloat {cs rest : List Char} {v : Toml}
    (h : Reader.float cs = some (v, rest)) : v.InRange := by
  unfold Reader.float at h
  generalize sign cs = signed at h
  obtain ⟨negative, rest'⟩ := signed
  dsimp only at h
  split at h
  · obtain ⟨rfl, -⟩ := Prod.mk.inj (Option.some.inj h)
    exact inRange_of_nat?_eq_none rfl
  · obtain ⟨rfl, -⟩ := Prod.mk.inj (Option.some.inj h)
    exact inRange_of_nat?_eq_none rfl
  · obtain ⟨whole, -, h⟩ := Option.bind_eq_some_iff.1 h
    split at h
    all_goals
      obtain ⟨places, -, h⟩ := Option.bind_eq_some_iff.1 h
      simp only [Option.ite_none_right_eq_some, Option.some.injEq, Prod.mk.injEq] at h
      obtain ⟨-, rfl, -⟩ := h
      exact inRange_of_nat?_eq_none rfl

/-- A value that is read is in range. Only integers are numbers, so it does not matter what stands
between braces. -/
theorem inRange_value {fuel depth : Nat} {cs rest : List Char} {v : Toml}
    (h : value fuel depth cs = some (v, rest)) : v.InRange := by
  cases fuel with
  | zero => contradiction
  | succ fuel =>
    unfold value at h
    split at h
    · exact inRange_of_map (fun _ => rfl) h
    · exact inRange_of_map (fun _ => rfl) h
    · rw [Option.ite_none_right_eq_some] at h
      exact inRange_of_map (fun _ => rfl) h.2
    · rw [Option.ite_none_right_eq_some] at h
      obtain ⟨-, h⟩ := h
      split at h
      · obtain ⟨rfl, -⟩ := Prod.mk.inj (Option.some.inj h)
        exact inRange_of_nat?_eq_none rfl
      · exact inRange_of_map (fun _ => rfl) h
    · obtain ⟨rfl, -⟩ := Prod.mk.inj (Option.some.inj h)
      exact inRange_of_nat?_eq_none rfl
    · obtain ⟨rfl, -⟩ := Prod.mk.inj (Option.some.inj h)
      exact inRange_of_nat?_eq_none rfl
    · cases hdatetime : Reader.datetime cs with
      | some read =>
        rw [hdatetime] at h
        exact inRange_readDatetime (hdatetime.trans h)
      | none =>
        rw [hdatetime] at h
        cases hfloat : Reader.float cs with
        | some read =>
          rw [hfloat] at h
          exact inRange_readFloat (hfloat.trans h)
        | none =>
          rw [hfloat] at h
          exact inRange_readInteger h

/-! ## Tables -/

namespace EntriesInRange

/-- An entry in range may be added to a table in range. -/
theorem append_singleton {entries : Entries} (h : EntriesInRange entries) (key : String) {v : Toml}
    (hv : v.InRange) : EntriesInRange (entries ++ [(key, v)]) := by
  intro e he
  rcases List.mem_append.1 he with he | he
  · exact h e he
  · rw [List.mem_singleton.1 he]
    exact hv

/-- An entry may be replaced by one in range. -/
theorem replaceEntry {entries : Entries} (h : EntriesInRange entries) (key : String) {v : Toml}
    (hv : v.InRange) : EntriesInRange (replaceEntry key v entries) := by
  intro e he
  obtain ⟨e', he', rfl⟩ := List.mem_map.1 he
  split
  · exact hv
  · exact h e' he'

end EntriesInRange

/-- A change keeps the numbers of the table that it is made to in range. -/
def KeepsRange (change : Open → Option Open) : Prop :=
  ∀ t t', change t = some t' → EntriesInRange t.2 → EntriesInRange t'.2

/-- So does a change further down, since a table is no number. -/
theorem keepsRange_update {origin : Origin} {change : Open → Option Open} (h : KeepsRange change)
    (path : List String) : KeepsRange (update origin change path) := by
  intro t t' hupdate ht
  obtain ⟨own, entries⟩ := t
  cases path with
  | nil => exact h _ _ hupdate ht
  | cons key path =>
    unfold update at hupdate
    split at hupdate
    · obtain ⟨inner, -, hinner⟩ := Option.bind_eq_some_iff.1 hupdate
      obtain rfl := Option.some.inj hinner
      exact ht.append_singleton key (inRange_table _ _)
    · rw [Option.ite_none_left_eq_some] at hupdate
      obtain ⟨inner, -, hinner⟩ := Option.bind_eq_some_iff.1 hupdate.2
      obtain rfl := Option.some.inj hinner
      exact ht.replaceEntry key (inRange_table _ _)
    · split at hupdate
      · contradiction
      · obtain ⟨inner, -, hinner⟩ := Option.bind_eq_some_iff.1 hupdate
        obtain rfl := Option.some.inj hinner
        exact ht.replaceEntry key (inRange_tables _)
    · contradiction

/-- To enter a value in range keeps a document in range, be its key plain or dotted. -/
theorem keepsRange_addEntry {isDotted : Bool} {key : String} {v : Toml} (hv : v.InRange) :
    KeepsRange (addEntry isDotted key v) := by
  intro t t' hadd ht
  unfold addEntry at hadd
  simp only [Option.ite_none_left_eq_some] at hadd
  obtain rfl := Option.some.inj hadd.2.2
  exact ht.append_singleton key hv

/-- A dotted key is entered through the tables on its way, each of which keeps its range. -/
theorem keepsRange_addKey {key : List String} {v : Toml} (hv : v.InRange) :
    KeepsRange (addKey key v) := by
  intro t t' hadd ht
  obtain ⟨⟨path, last⟩, -, hupdate⟩ := Option.bind_eq_some_iff.1 hadd
  exact keepsRange_update (keepsRange_addEntry hv) path t t' hupdate ht

theorem keepsRange_addHeader (key : List String) : KeepsRange (addHeader key) := by
  intro t t' hadd ht
  obtain ⟨⟨path, last⟩, -, hupdate⟩ := Option.bind_eq_some_iff.1 hadd
  refine keepsRange_update (fun t t' hbegin ht => ?_) path t t' hupdate ht
  dsimp only at hbegin
  split at hbegin
  · obtain rfl := Option.some.inj hbegin
    exact ht.append_singleton last (inRange_table _ _)
  · obtain rfl := Option.some.inj hbegin
    have hothers : EntriesInRange (t.2.filter (·.1 ≠ last)) := by
      intro e he
      exact ht e (List.mem_filter.1 he).1
    exact hothers.append_singleton last (inRange_table _ _)
  · contradiction

theorem keepsRange_addArrayHeader (key : List String) : KeepsRange (addArrayHeader key) := by
  intro t t' hadd ht
  obtain ⟨⟨path, last⟩, -, hupdate⟩ := Option.bind_eq_some_iff.1 hadd
  refine keepsRange_update (fun t t' hbegin ht => ?_) path t t' hupdate ht
  dsimp only at hbegin
  split at hbegin
  · obtain rfl := Option.some.inj hbegin
    exact ht.append_singleton last (inRange_tables _)
  · obtain rfl := Option.some.inj hbegin
    exact ht.replaceEntry last (inRange_tables _)
  · contradiction

/-! ## Documents -/

/-- Statements keep a document in range, one by one. -/
theorem keepsRange_statements (fuel : Nat) (path : List String) (cs : List Char) :
    KeepsRange fun doc => statements fuel path doc cs := by
  -- the induction is on the statements: each leaves a document in range for the next
  induction fuel generalizing path cs with
  | zero => intro doc doc' h; contradiction
  | succ fuel ih =>
    intro doc doc' h hdoc
    dsimp only at h
    unfold statements at h
    split at h
    · obtain rfl := Option.some.inj h
      exact hdoc
    · simp only [Option.bind_eq_bind, Option.bind_eq_some_iff] at h
      obtain ⟨k, -, -, -, -, -, rest, -, next, hnext, h⟩ := h
      exact ih _ _ _ _ h (keepsRange_addArrayHeader k.1 _ _ hnext hdoc)
    · simp only [Option.bind_eq_bind, Option.bind_eq_some_iff] at h
      obtain ⟨k, -, -, -, rest, -, next, hnext, h⟩ := h
      exact ih _ _ _ _ h (keepsRange_addHeader k.1 _ _ hnext hdoc)
    · split at h
      · simp only [Option.bind_eq_bind, Option.bind_eq_some_iff] at h
        obtain ⟨rest, -, h⟩ := h
        exact ih _ _ _ _ h hdoc
      · simp only [Option.bind_eq_bind, Option.bind_eq_some_iff] at h
        obtain ⟨k, -, behind, -, ⟨v, rest⟩, hvalue, next, hnext, after, -, h⟩ := h
        have hadd : KeepsRange (addKey k.1 v) := keepsRange_addKey (inRange_value hvalue)
        exact ih _ _ _ _ h (keepsRange_update hadd path _ _ hnext hdoc)

/-- The numbers under the keys of a document are below the bound. -/
theorem inRange_of_read {s : String} {entries : Entries} (h : read? s = some entries) :
    EntriesInRange entries := by
  obtain ⟨doc, hdoc, rfl⟩ := Option.map_eq_some_iff.1 h
  refine keepsRange_statements _ _ _ _ _ hdoc ?_
  intro e he
  contradiction

/-- A number that is looked up in a document is below the bound. -/
theorem lt_of_read {s : String} {entries : Entries} (h : read? s = some entries) {key : String}
    {v : Toml} (hv : entries.lookup key = some v) {n : Nat} (hn : v.nat? = some n) :
    n < integerBound := by
  obtain ⟨before, behind, hentries, -⟩ := List.lookup_eq_some_iff.1 hv
  have hmem : (key, v) ∈ entries := by simp [hentries]
  exact inRange_of_read h (key, v) hmem n hn

end LogSync.Toml
