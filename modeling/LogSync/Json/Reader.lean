import LogSync.Json
import LogSync.Text.Hex

/-!
# Reading JSON

A reader of a part of the text gives the part's value and the rest of the text. Values may be
nested; the depth to which the reader follows them is bounded by the length of the text, which no
nesting can exceed.
-/

namespace LogSync.Json.Reader

/-- Passes over blanks and line breaks. -/
def skipBlanks : List Char → List Char :=
  List.dropWhile fun c => c = ' ' || c = '\n' || c = '\r' || c = '\t'

/-! ## Strings -/

/-- What a string is made of: characters, and surrogates that are escaped one by one. -/
inductive Piece where
  | char (c : Char)
  | surrogate (unit : Nat)
deriving DecidableEq

/-- What an escaped unit of 16 bits stands for. -/
def Piece.ofUnit (unit : Nat) : Piece :=
  if 0xD800 ≤ unit ∧ unit < 0xE000 then .surrogate unit else .char (Char.ofNat unit)

/-- The characters that pieces make up. A high surrogate and a low one behind it make one
character; any other surrogate makes none. -/
def textOfPieces : List Piece → Option (List Char)
  | [] => some []
  | .char c :: rest => (textOfPieces rest).map (c :: ·)
  | .surrogate high :: .surrogate low :: rest =>
    if high < 0xDC00 ∧ 0xDC00 ≤ low then
      (textOfPieces rest).map
        (Char.ofNat (0x10000 + (high - 0xD800) * 0x400 + (low - 0xDC00)) :: ·)
    else none
  | .surrogate _ :: _ => none

/-- The character that a letter behind a backslash stands for. -/
def escape? : Char → Option Char
  | '"' => some '"'
  | '\\' => some '\\'
  | '/' => some '/'
  | 'b' => some (Char.ofNat 8)
  | 'f' => some (Char.ofNat 12)
  | 'n' => some '\n'
  | 'r' => some '\r'
  | 't' => some '\t'
  | _ => none

/-- The pieces up to the closing quote. Control characters must be escaped. -/
def pieces : List Char → Option (List Piece × List Char)
  | [] => none
  | '"' :: rest => some ([], rest)
  | '\\' :: 'u' :: a :: b :: c :: d :: rest => do
    let unit ← Hex.read? [a, b, c, d]
    let (ps, rest) ← pieces rest
    return (.ofUnit unit :: ps, rest)
  | '\\' :: c :: rest => do
    let e ← escape? c
    let (ps, rest) ← pieces rest
    return (.char e :: ps, rest)
  | c :: rest =>
    if c.toNat < 32 then none
    else do
      let (ps, rest) ← pieces rest
      return (.char c :: ps, rest)

/-- A string behind its opening quote. -/
def text (cs : List Char) : Option (Option String × List Char) := do
  let (ps, rest) ← pieces cs
  return ((textOfPieces ps).map String.ofList, rest)

/-! ## Numbers -/

/-- Continues a number by the digits at the start of a text; gives their count too. -/
def digits (n count : Nat) : List Char → Nat × Nat × List Char
  | [] => (n, count, [])
  | c :: rest =>
    if c.isDigit then digits (10 * n + (c.toNat - 48)) (count + 1) rest else (n, count, c :: rest)

/-- At least one digit: the number they make with one before them, their count, and the rest. -/
def someDigits (n : Nat) (cs : List Char) : Option (Nat × Nat × List Char) :=
  let (n, count, rest) := digits n 0 cs
  if count = 0 then none else some (n, count, rest)

/-- The digits before the point. A zero stands alone. -/
def wholePart : List Char → Option (Nat × List Char)
  | '0' :: rest =>
    match rest with
    | c :: _ => if c.isDigit then none else some (0, rest)
    | [] => some (0, rest)
  | cs => (someDigits 0 cs).map fun (n, _, rest) => (n, rest)

/-- The exponent, if there is one: its value, and whether it is there. -/
def exponentPart : List Char → Option (Int × Bool × List Char)
  | c :: rest =>
    if c = 'e' ∨ c = 'E' then
      match rest with
      | '-' :: rest => (someDigits 0 rest).map fun (n, _, rest) => (-(n : Int), true, rest)
      | '+' :: rest => (someDigits 0 rest).map fun (n, _, rest) => ((n : Int), true, rest)
      | _ => (someDigits 0 rest).map fun (n, _, rest) => ((n : Int), true, rest)
    else some (0, false, c :: rest)
  | [] => some (0, false, [])

/-- A number without its sign. -/
def unsigned (cs : List Char) : Option (Json × List Char) := do
  let (whole, rest) ← wholePart cs
  let (mantissa, places, rest) ←
    match rest with
    | '.' :: rest => someDigits whole rest
    | _ => some (whole, 0, rest)
  let (exponent, scaled, rest) ← exponentPart rest
  let value :=
    if places = 0 && !scaled then Json.natural mantissa else .real mantissa (exponent - places)
  return (value, rest)

/-- A number; behind a sign it is no plain one. -/
def number : List Char → Option (Json × List Char)
  | '-' :: rest => do
    let (value, rest) ← unsigned rest
    match value with
    | .natural n => return (.real n 0, rest)
    | v => return (v, rest)
  | cs => unsigned cs

/-! ## Values -/

mutual

/-- A value at the start of a text, blanks before it passed over. -/
def value : (fuel : Nat) → List Char → Option (Json × List Char)
  | 0, _ => none
  | fuel + 1, cs =>
    match skipBlanks cs with
    | '"' :: rest => (text rest).map fun (s, rest) => (.string s, rest)
    | '[' :: rest =>
      match skipBlanks rest with
      | ']' :: rest => some (.array [], rest)
      | rest => (items fuel rest).map fun (l, rest) => (.array l, rest)
    | '\x7b' :: rest =>
      match skipBlanks rest with
      | '\x7d' :: rest => some (.object [], rest)
      | rest => (fields fuel rest).map fun (l, rest) => (.object l, rest)
    | 'n' :: 'u' :: 'l' :: 'l' :: rest => some (.null, rest)
    | 't' :: 'r' :: 'u' :: 'e' :: rest => some (.bool true, rest)
    | 'f' :: 'a' :: 'l' :: 's' :: 'e' :: rest => some (.bool false, rest)
    | rest => number rest

/-- The items of a list, up to its end. -/
def items : (fuel : Nat) → List Char → Option (List Json × List Char)
  | 0, _ => none
  | fuel + 1, cs => do
    let (v, rest) ← value fuel cs
    match skipBlanks rest with
    | ',' :: rest =>
      let (l, rest) ← items fuel rest
      return (v :: l, rest)
    | ']' :: rest => return ([v], rest)
    | _ => none

/-- The fields of an object, up to its end. -/
def fields : (fuel : Nat) → List Char → Option (List (Option String × Json) × List Char)
  | 0, _ => none
  | fuel + 1, cs =>
    match skipBlanks cs with
    | '"' :: rest => do
      let (name, rest) ← text rest
      match skipBlanks rest with
      | ':' :: rest =>
        let (v, rest) ← value fuel rest
        match skipBlanks rest with
        | ',' :: rest =>
          let (l, rest) ← fields fuel rest
          return ((name, v) :: l, rest)
        | '\x7d' :: rest => return ([(name, v)], rest)
        | _ => none
      | _ => none
    | _ => none

end

end LogSync.Json.Reader

namespace LogSync.Json

/-- The value that a text stands for, if it is one value with nothing but blanks around it. -/
def read? (s : String) : Option Json := do
  let (v, rest) ← Reader.value (s.length + 1) s.toList
  if Reader.skipBlanks rest = [] then some v else none

end LogSync.Json
