/-!
# TOML documents

A document is a table whose entries stand in the order in which they were written. Statements of
the text add to it one at a time: an entry under a key, a table under a header, a further table of
an array of tables. What may be added to a table depends on how the table came about, its *origin*;
a statement that would define something a second time is refused.
-/

namespace LogSync

/-- How a table came about. -/
inductive Toml.Origin where
  /-- Written as a value, between braces. It is complete. -/
  | inline
  /-- Written under its own header. -/
  | header
  /-- Named on the way to the header of another table. -/
  | implied
  /-- Named by the front parts of a dotted key. -/
  | dotted
deriving DecidableEq, Repr

/-- A value of a document. Of a floating-point number and of a date or time it is only kept that
there is one. -/
inductive Toml where
  | string (s : String)
  | integer (n : Int)
  | float
  | boolean (b : Bool)
  | datetime
  | array (items : List Toml)
  | table (origin : Toml.Origin) (entries : List (String × Toml))
  /-- An array of tables, each under a header of its own. -/
  | tables (items : List (List (String × Toml)))
deriving Inhabited

namespace Toml

/-- The entries of a table. -/
abbrev Entries := List (String × Toml)

/-- A table that can be added to. -/
abbrev Open := Origin × Entries

/-- Puts a value in the place of the one under a key. -/
def replaceEntry (key : String) (value : Toml) (entries : Entries) : Entries :=
  entries.map fun e => if e.1 = key then (key, value) else e

/-- Changes the table that a path of keys leads to. Tables that are not there yet are made, with
the given origin. A path leads through the last table of an array of tables, but not into a table
that is written between braces. The front parts of a dotted key lead only through tables that have
no header of their own. -/
def update (origin : Origin) (change : Open → Option Open) : List String → Open → Option Open
  | [], t => change t
  | key :: path, (own, entries) =>
    match entries.lookup key with
    | none => do
      let (o, es) ← update origin change path (origin, [])
      return (own, entries ++ [(key, table o es)])
    | some (.table o es) =>
      if o = .inline ∨ (origin = .dotted ∧ o = .header) then none
      else do
        let (o, es) ← update origin change path (o, es)
        return (own, replaceEntry key (.table o es) entries)
    | some (.tables items) =>
      match items.reverse with
      | [] => none
      | last :: before => do
        let (_, es) ← update origin change path (.header, last)
        return (own, replaceEntry key (.tables (before.reverse ++ [es])) entries)
    | some _ => none

/-- Adds an entry for the last part of a key to the table that the other parts have led to. Parts
before the last one must have led to a table that is made of dotted keys. -/
def addEntry (isDotted : Bool) (key : String) (value : Toml) : Open → Option Open
  | (own, entries) =>
    if decide (own = .dotted) ≠ isDotted then none
    else if (entries.lookup key).isSome then none
    else some (own, entries ++ [(key, value)])

/-- The parts of a key before the last one, and the last one. -/
def splitKey (key : List String) : Option (List String × String) :=
  key.getLast?.map (key.dropLast, ·)

/-- Adds an entry under a key to a table. -/
def addKey (key : List String) (value : Toml) (t : Open) : Option Open := do
  let (path, last) ← splitKey key
  update .dotted (addEntry (!path.isEmpty) last value) path t

/-- Begins the table of a header. One that was only implied before becomes the header's own, and
counts from there on. -/
def addHeader (key : List String) (t : Open) : Option Open := do
  let (path, last) ← splitKey key
  update .implied
    (fun (own, entries) =>
      match entries.lookup last with
      | none => some (own, entries ++ [(last, .table .header [])])
      | some (.table .implied es) =>
        some (own, entries.filter (·.1 ≠ last) ++ [(last, .table .header es)])
      | some _ => none)
    path t

/-- Begins a further table of an array of tables. -/
def addArrayHeader (key : List String) (t : Open) : Option Open := do
  let (path, last) ← splitKey key
  update .implied
    (fun (own, entries) =>
      match entries.lookup last with
      | none => some (own, entries ++ [(last, .tables [[]])])
      | some (.tables items) => some (own, replaceEntry last (.tables (items ++ [[]])) entries)
      | some _ => none)
    path t

/-! ## Looking at values -/

/-- The natural number that is written here. -/
def nat? : Toml → Option Nat
  | integer (.ofNat n) => some n
  | _ => none

/-- The truth value that is written here. -/
def bool? : Toml → Option Bool
  | boolean b => some b
  | _ => none

/-- The text that is written here. -/
def text? : Toml → Option String
  | string s => some s
  | _ => none

/-- The items of the list that is written here. -/
def items? : Toml → Option (List Toml)
  | array items => some items
  | tables items => some (items.map (.table .header))
  | _ => none

/-- The entries of the table that is written here. -/
def entries? : Toml → Option Entries
  | table _ entries => some entries
  | _ => none

/-- Whether nothing is in a table or list. -/
def isVoid : Toml → Bool
  | table _ [] | array [] => true
  | _ => false

/-- The name of a choice without further data: a string, or a table with the name as its only key
and nothing under it. -/
def choice? : Toml → Option String
  | string s => some s
  | table _ [(name, v)] => if v.isVoid then some name else none
  | _ => none

/-- The values of the named fields, as far as they are there. Other fields are passed over. A list
counts as the values of the first fields, and a date or time as a table without any of them. -/
def record? (names : List String) : Toml → Option (List (Option Toml))
  | table _ entries => some (names.map fun name => entries.lookup name)
  | array items =>
    some ((items.map some ++ List.replicate names.length none).take names.length)
  | datetime => some (names.map fun _ => none)
  | _ => none

end Toml

end LogSync
