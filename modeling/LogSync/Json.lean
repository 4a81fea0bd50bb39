import LogSync.Text.Double

/-!
# JSON values

Values as they stand in a JSON text, with what a reader of typed data needs to know of them. A
number that is written as plain digits is a natural number; of any other number only the magnitude
is kept, since no value of this library is read from one. A string may be written with escapes of
unpaired surrogates, which no text can hold; such a string is there, but has no text.
-/

namespace LogSync

/-- A JSON value. -/
inductive Json where
  | null
  | bool (b : Bool)
  /-- A number written as plain digits. -/
  | natural (n : Nat)
  /-- A number with a sign, a fraction or an exponent, of magnitude `mantissa * 10 ^ exponent`. -/
  | real (mantissa : Nat) (exponent : Int)
  /-- A string; `none` if it is written with unpaired surrogates. -/
  | string (text : Option String)
  | array (items : List Json)
  /-- An object, its fields in the order in which they are written. -/
  | object (fields : List (Option String × Json))
deriving Inhabited

namespace Json

/-- A string with a text. -/
def ofText (s : String) : Json := .string (some s)

/-- An object with readable names. -/
def ofFields (fields : List (String × Json)) : Json :=
  .object (fields.map fun (name, value) => (some name, value))

/-! ## Looking at values -/

/-- The natural number that is written here, if it is below the bound. -/
def natBelow? (bound : Nat) : Json → Option Nat
  | natural n => if n < bound then some n else none
  | _ => none

/-- The truth value that is written here. -/
def bool? : Json → Option Bool
  | bool b => some b
  | _ => none

/-- The text that is written here. -/
def text? : Json → Option String
  | string s => s
  | _ => none

/-- The items of the list that is written here. -/
def items? : Json → Option (List Json)
  | array items => some items
  | _ => none

/-- The fields of the object that is written here, if their names are readable. -/
def namedFields? : Json → Option (List (String × Json))
  | object fields => fields.mapM fun (name, value) => name.map (·, value)
  | _ => none

/-- The value of a field that stands at most once; the outer `none` is a second one. -/
def fieldOnce (fields : List (String × Json)) (name : String) : Option (Option Json) :=
  match fields.filter (·.1 == name) with
  | [] => some none
  | [(_, value)] => some (some value)
  | _ => none

/-- The values of the named fields, as far as they are there. Other fields are passed over, a
repeated one is refused. A list counts as the values of the first fields. -/
def record? (names : List String) : Json → Option (List (Option Json))
  | array items =>
    if items.length ≤ names.length then
      some (items.map some ++ List.replicate (names.length - items.length) none)
    else none
  | value => value.namedFields?.bind fun fields => names.mapM (fieldOnce fields)

/-- The name of a choice without further data: a string, or an object that gives the name a null
value. -/
def choice? : Json → Option String
  | string s => s
  | object [(name, null)] => name
  | _ => none

/-! ## Values that are kept before their type is known

Such a value must be readable as a whole: its strings have texts, its numbers have a magnitude that
a double can hold, and it is not nested too deeply. -/

mutual

/-- How many lists and objects are nested in each other. -/
def depth : Json → Nat
  | array items => depthOfItems items + 1
  | object fields => depthOfFields fields + 1
  | _ => 0

/-- The greatest depth of a list's items. -/
def depthOfItems : List Json → Nat
  | [] => 0
  | v :: rest => max v.depth (depthOfItems rest)

/-- The greatest depth of the values of an object. -/
def depthOfFields : List (Option String × Json) → Nat
  | [] => 0
  | (_, v) :: rest => max v.depth (depthOfFields rest)

end

mutual

/-- Whether the strings and numbers in a value are readable. -/
def isReadable : Json → Bool
  | null | bool _ => true
  | natural n => Double.fits n 0
  | real mantissa exponent => Double.fits mantissa exponent
  | string s => s.isSome
  | array items => areItemsReadable items
  | object fields => areFieldsReadable fields

/-- Whether all items of a list are readable. -/
def areItemsReadable : List Json → Bool
  | [] => true
  | v :: rest => v.isReadable && areItemsReadable rest

/-- Whether all names and values of an object are readable. -/
def areFieldsReadable : List (Option String × Json) → Bool
  | [] => true
  | (name, v) :: rest => name.isSome && v.isReadable && areFieldsReadable rest

end

/-- How deeply lists and objects may be nested where values are kept. -/
def maxDepth : Nat := 127

/-- Whether a value can be kept inside of `outer` lists and objects. -/
def canKeep (outer : Nat) (v : Json) : Bool := v.isReadable && outer + v.depth ≤ maxDepth

/-- The values of the named fields, all kept before they are looked at: the other fields have to
be readable too. Only an object can be read in this way. -/
def openRecord? (outer : Nat) (ownNames names : List String) (v : Json) :
    Option (List (Option Json)) :=
  v.namedFields?.bind fun fields =>
    if fields.all fun (name, value) => name ∈ ownNames || value.canKeep (outer + 1) then
      (ownNames ++ names).mapM (fieldOnce fields)
    else none

end Json

end LogSync
