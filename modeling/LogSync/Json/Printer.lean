import LogSync.Json
import LogSync.Text.Hex

/-!
# Writing JSON

Two forms: one line without blanks, and one with each item and field on a line of its own.
-/

namespace LogSync.Json

/-- A character inside of a string. Quotes, backslashes and control characters are escaped. -/
def escaped (c : Char) : List Char :=
  if c = '"' then ['\\', '"']
  else if c = '\\' then ['\\', '\\']
  else if c = '\n' then ['\\', 'n']
  else if c = '\r' then ['\\', 'r']
  else if c = '\t' then ['\\', 't']
  else if c.toNat = 8 then ['\\', 'b']
  else if c.toNat = 12 then ['\\', 'f']
  else if c.toNat < 32 then ['\\', 'u'] ++ Hex.write 4 c.toNat
  else [c]

/-- A string. One without a text is written as the shortest such string. -/
def quoted : Option String → List Char
  | some s => '"' :: s.toList.flatMap escaped ++ ['"']
  | none => "\"\\ud800\"".toList

/-- A value that holds no others. -/
def writeLeaf : Json → List Char
  | null => "null".toList
  | bool b => (if b then "true" else "false").toList
  | natural n => Nat.toDigits 10 n
  | real mantissa exponent => Nat.toDigits 10 mantissa ++ 'e' :: (toString exponent).toList
  | string s => quoted s
  | _ => []

mutual

/-- A value on one line, without blanks. -/
def write : Json → List Char
  | array items => '[' :: writeItems items
  | object fields => '\x7b' :: writeFields fields
  | v => v.writeLeaf

/-- The items of a list and its end. -/
def writeItems : List Json → List Char
  | [] => [']']
  | [v] => write v ++ [']']
  | v :: rest => write v ++ ',' :: writeItems rest

/-- The fields of an object and its end. -/
def writeFields : List (Option String × Json) → List Char
  | [] => ['\x7d']
  | [(name, v)] => quoted name ++ ':' :: write v ++ ['\x7d']
  | (name, v) :: rest => quoted name ++ ':' :: write v ++ ',' :: writeFields rest

end

/-- A value as text on one line. -/
def compact (v : Json) : String := String.ofList v.write

/-- The start of a new line, with the given number of blanks. -/
def newLine (indent : Nat) : List Char := '\n' :: List.replicate indent ' '

mutual

/-- A value over several lines, the first one unindented. Lists and objects without members stay on
one line. -/
def writePretty (indent : Nat) : Json → List Char
  | array [] => ['[', ']']
  | object [] => ['\x7b', '\x7d']
  | array items => '[' :: writeItemsPretty indent items
  | object fields => '\x7b' :: writeFieldsPretty indent fields
  | v => v.writeLeaf

/-- The items of a list and its end. -/
def writeItemsPretty (indent : Nat) : List Json → List Char
  | [] => newLine indent ++ [']']
  | [v] => newLine (indent + 2) ++ writePretty (indent + 2) v ++ newLine indent ++ [']']
  | v :: rest =>
    newLine (indent + 2) ++ writePretty (indent + 2) v ++ ',' :: writeItemsPretty indent rest

/-- The fields of an object and its end. -/
def writeFieldsPretty (indent : Nat) : List (Option String × Json) → List Char
  | [] => newLine indent ++ ['\x7d']
  | [(name, v)] =>
    newLine (indent + 2) ++ quoted name ++ ':' :: ' ' :: writePretty (indent + 2) v ++
      newLine indent ++ ['\x7d']
  | (name, v) :: rest =>
    newLine (indent + 2) ++ quoted name ++ ':' :: ' ' :: writePretty (indent + 2) v ++
      ',' :: writeFieldsPretty indent rest

end

/-- A value as text over several lines. -/
def pretty (v : Json) : String := String.ofList (v.writePretty 0)

end LogSync.Json
