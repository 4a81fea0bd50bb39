import LogSync.Text.Double
import LogSync.Text.Hex
import LogSync.Toml

/-!
# Reading TOML

A reader of a part of the text gives the part's value and the rest of the text. Lists and tables
between braces may be nested up to a limit, and dotted keys may have parts up to the same limit.
-/

namespace LogSync.Toml.Reader

/-- Lists and tables between braces are nested less deeply than this, and keys have fewer parts. -/
def depthLimit : Nat := 80

/-! ## Blanks, line ends and comments -/

/-- A blank within a line. -/
def isBlank (c : Char) : Bool := c = ' ' || c = '\t'

/-- A character that may stand in comments and strings: no control character but the tab. -/
def isPlain (c : Char) : Bool := c = '\t' || (c.toNat ≥ 32 && c.toNat ≠ 127)

/-- Passes over blanks. -/
def skipBlanks : List Char → List Char := List.dropWhile isBlank

/-- Passes over a line end, if there is one here. -/
def newline? : List Char → Option (List Char)
  | '\n' :: rest => some rest
  | '\r' :: '\n' :: rest => some rest
  | _ => none

/-- What follows the rest of a line that holds blanks and a comment at most. -/
def lineEnd (cs : List Char) : Option (List Char) :=
  let rest :=
    match skipBlanks cs with
    | '#' :: rest => rest.dropWhile isPlain
    | rest => rest
  match rest with
  | [] => some []
  | rest => newline? rest

/-- Passes over blanks, line ends and comments. -/
def skipLines (inComment : Bool) : List Char → List Char
  | [] => []
  | c :: rest =>
    if c = '\n' ∨ (c = '\r' ∧ rest.head? = some '\n') then skipLines false rest
    else if inComment then if isPlain c then skipLines true rest else c :: rest
    else if isBlank c then skipLines false rest
    else if c = '#' then skipLines true rest
    else c :: rest

/-! ## Strings -/

/-- The character that a number stands for, if it stands for one. -/
def charOf? (n : Nat) : Option Char :=
  if n < 0xD800 ∨ (0xE000 ≤ n ∧ n < 0x110000) then some (Char.ofNat n) else none

/-- The character that an escape stands for, its letter given. -/
def escape? : Char → Option Char
  | 'b' => some (Char.ofNat 8)
  | 't' => some '\t'
  | 'n' => some '\n'
  | 'f' => some (Char.ofNat 12)
  | 'r' => some '\r'
  | '"' => some '"'
  | '\\' => some '\\'
  | _ => none

/-- Puts a character before what is read. -/
def before (c : Char) : Option (List Char × List Char) → Option (List Char × List Char) :=
  Option.map fun (cs, rest) => (c :: cs, rest)

/-- A string on one line with escapes, behind its opening quote. -/
def basic : List Char → Option (List Char × List Char)
  | [] => none
  | '"' :: rest => some ([], rest)
  | '\\' :: 'u' :: a :: b :: c :: d :: rest => do
    before (← charOf? (← Hex.read? [a, b, c, d])) (basic rest)
  | '\\' :: 'U' :: a :: b :: c :: d :: e :: f :: g :: h :: rest => do
    before (← charOf? (← Hex.read? [a, b, c, d, e, f, g, h])) (basic rest)
  | '\\' :: c :: rest => do before (← escape? c) (basic rest)
  | c :: rest => if isPlain c then before c (basic rest) else none

/-- A string on one line without escapes, behind its opening quote. -/
def literal : List Char → Option (List Char × List Char)
  | [] => none
  | '\'' :: rest => some ([], rest)
  | c :: rest => if isPlain c then before c (literal rest) else none

/-- Whether only blanks stand before the line end. -/
def endsLine (cs : List Char) : Bool := (newline? (skipBlanks cs)).isSome

/-- A string over several lines with escapes, behind its opening quotes. A backslash at the end of
a line passes over all blanks and line ends that follow, `skipping` says that it has. Of more than
three quotes in a row, two at most belong to the string. -/
def basicLines (skipping : Bool) : List Char → Option (List Char × List Char)
  | [] => none
  | '"' :: '"' :: '"' :: '"' :: '"' :: rest => some (['"', '"'], rest)
  | '"' :: '"' :: '"' :: '"' :: rest => some (['"'], rest)
  | '"' :: '"' :: '"' :: rest => some ([], rest)
  | '\\' :: 'u' :: a :: b :: c :: d :: rest => do
    before (← charOf? (← Hex.read? [a, b, c, d])) (basicLines false rest)
  | '\\' :: 'U' :: a :: b :: c :: d :: e :: f :: g :: h :: rest => do
    before (← charOf? (← Hex.read? [a, b, c, d, e, f, g, h])) (basicLines false rest)
  | '\\' :: c :: rest =>
    if endsLine (c :: rest) then basicLines true (c :: rest)
    else do before (← escape? c) (basicLines false rest)
  | '\r' :: '\n' :: rest =>
    if skipping then basicLines true rest else before '\n' (basicLines false rest)
  | c :: rest =>
    if skipping ∧ (isBlank c ∨ c = '\n') then basicLines true rest
    else if isPlain c ∨ c = '\n' then before c (basicLines false rest)
    else none

/-- A string over several lines without escapes, behind its opening quotes. -/
def literalLines : List Char → Option (List Char × List Char)
  | [] => none
  | '\'' :: '\'' :: '\'' :: '\'' :: '\'' :: rest => some (['\'', '\''], rest)
  | '\'' :: '\'' :: '\'' :: '\'' :: rest => some (['\''], rest)
  | '\'' :: '\'' :: '\'' :: rest => some ([], rest)
  | '\r' :: '\n' :: rest => before '\n' (literalLines rest)
  | c :: rest => if isPlain c ∨ c = '\n' then before c (literalLines rest) else none

/-- Passes over a line end right behind opening quotes. -/
def dropFirstNewline (cs : List Char) : List Char := (newline? cs).getD cs

/-- A string of any kind. -/
def text : List Char → Option (List Char × List Char)
  | '"' :: '"' :: '"' :: rest => basicLines false (dropFirstNewline rest)
  | '"' :: rest => basic rest
  | '\'' :: '\'' :: '\'' :: rest => literalLines (dropFirstNewline rest)
  | '\'' :: rest => literal rest
  | _ => none

/-! ## Keys -/

/-- A character of a key without quotes. -/
def isBare (c : Char) : Bool := c.isAlphanum || c = '-' || c = '_'

/-- One part of a key, blanks around it passed over. -/
def keyPart (cs : List Char) : Option (String × List Char) :=
  let part :=
    match skipBlanks cs with
    | '"' :: rest => basic rest
    | '\'' :: rest => literal rest
    | rest => match rest.takeWhile isBare with
      | [] => none
      | name => some (name, rest.dropWhile isBare)
  part.map fun (name, rest) => (String.ofList name, skipBlanks rest)

/-- The parts of a key, with points between them. -/
def key : (fuel : Nat) → List Char → Option (List String × List Char)
  | 0, _ => none
  | fuel + 1, cs => do
    let (part, rest) ← keyPart cs
    match rest with
    | '.' :: rest =>
      let (parts, rest) ← key fuel rest
      return (part :: parts, rest)
    | rest => return ([part], rest)

/-! ## Numbers -/

/-- Digits behind a first one; an underscore may stand between two digits. -/
def moreDigits (isDigit : Char → Bool) : List Char → List Char × List Char
  | '_' :: c :: rest =>
    if isDigit c then
      let (ds, rest) := moreDigits isDigit rest
      (c :: ds, rest)
    else ([], '_' :: c :: rest)
  | c :: rest =>
    if isDigit c then
      let (ds, rest) := moreDigits isDigit rest
      (c :: ds, rest)
    else ([], c :: rest)
  | [] => ([], [])

/-- At least one digit. -/
def someDigits (isDigit : Char → Bool) : List Char → Option (List Char × List Char)
  | c :: rest =>
    if isDigit c then
      let (ds, rest) := moreDigits isDigit rest
      some (c :: ds, rest)
    else none
  | [] => none

/-- The number that digits stand for. -/
def valueOf (base : Nat) (ds : List Char) : Nat :=
  ds.foldl (fun n c => base * n + (Hex.value? c).getD 0) 0

/-- Whether there is a minus sign, and the text behind the sign. -/
def sign : List Char → Bool × List Char
  | '-' :: rest => (true, rest)
  | '+' :: rest => (false, rest)
  | rest => (false, rest)

/-- Decimal digits without a leading zero; a zero stands alone. -/
def wholePart : List Char → Option (List Char × List Char)
  | '0' :: rest => some (['0'], rest)
  | cs => someDigits Char.isDigit cs

/-- Integers are less than this, and not less than its negative. -/
def integerBound : Nat := 0x8000000000000000

/-- An integer in base 16, 8 or 2, behind its first two characters. -/
def based (base : Nat) (isDigit : Char → Bool) (cs : List Char) : Option (Toml × List Char) := do
  let (ds, rest) ← someDigits isDigit cs
  let n := valueOf base ds
  if n < integerBound then some (.integer n, rest) else none

/-- An integer that 64 bits hold with its sign. -/
def integer (cs : List Char) : Option (Toml × List Char) :=
  match cs with
  | '0' :: 'x' :: rest => based 16 (fun c => (Hex.value? c).isSome) rest
  | '0' :: 'o' :: rest => based 8 (fun c => '0' ≤ c && c ≤ '7') rest
  | '0' :: 'b' :: rest => based 2 (fun c => c = '0' || c = '1') rest
  | cs => do
    let (negative, rest) := sign cs
    let (ds, rest) ← wholePart rest
    let n := valueOf 10 ds
    if negative then if n ≤ integerBound then some (.integer (-n), rest) else none
    else if n < integerBound then some (.integer n, rest) else none

/-- The exponent of a floating-point number. -/
def exponent : List Char → Option (Int × List Char)
  | c :: rest =>
    if c = 'e' ∨ c = 'E' then do
      let (negative, rest) := sign rest
      let (ds, rest) ← someDigits Char.isDigit rest
      let n : Int := valueOf 10 ds
      return (if negative then -n else n, rest)
    else none
  | [] => none

/-- The digits behind a point. -/
def fraction : List Char → Option (List Char × List Char)
  | '.' :: rest => someDigits Char.isDigit rest
  | _ => none

/-- A floating-point number: digits with a fraction or an exponent, or one of the names for what is
no finite number. A positive one must be finite as a double. -/
def float (cs : List Char) : Option (Toml × List Char) :=
  let (negative, rest) := sign cs
  match rest with
  | 'i' :: 'n' :: 'f' :: rest => some (.float, rest)
  | 'n' :: 'a' :: 'n' :: rest => some (.float, rest)
  | rest => do
    let (whole, rest) ← wholePart rest
    let (places, exponent, rest) ←
      match fraction rest with
      | some (places, rest) =>
        let (e, rest) := (exponent rest).getD (0, rest)
        some (places, e, rest)
      | none => (exponent rest).map fun (e, rest) => ([], e, rest)
    if negative || Double.fits (valueOf 10 (whole ++ places)) (exponent - places.length) then
      some (.float, rest)
    else none

/-! ## Dates and times -/

/-- A number of exactly `count` decimal digits. -/
def fixedDigits (count : Nat) (cs : List Char) : Option (Nat × List Char) :=
  let ds := cs.take count
  if ds.length = count ∧ ds.all Char.isDigit then some (valueOf 10 ds, cs.drop count) else none

/-- Passes over a character that must stand here. -/
def expect (c : Char) : List Char → Option (List Char)
  | d :: rest => if c = d then some rest else none
  | [] => none

/-- The number of days of a month. -/
def daysOf (year month : Nat) : Nat :=
  if month = 2 then
    if year % 4 = 0 ∧ (year % 100 ≠ 0 ∨ year % 400 = 0) then 29 else 28
  else if month ∈ [4, 6, 9, 11] then 30
  else 31

/-- A day of the calendar. -/
def date (cs : List Char) : Option (List Char) := do
  let (year, rest) ← fixedDigits 4 cs
  let (month, rest) ← fixedDigits 2 (← expect '-' rest)
  let (day, rest) ← fixedDigits 2 (← expect '-' rest)
  if 1 ≤ month ∧ month ≤ 12 ∧ 1 ≤ day ∧ day ≤ daysOf year month then some rest else none

/-- A time of the day. -/
def time (cs : List Char) : Option (List Char) := do
  let (hour, rest) ← fixedDigits 2 cs
  let (minute, rest) ← fixedDigits 2 (← expect ':' rest)
  let (second, rest) ← fixedDigits 2 (← expect ':' rest)
  if hour ≤ 23 ∧ minute ≤ 59 ∧ second ≤ 60 then
    match rest with
    | '.' :: c :: more => some (if c.isDigit then more.dropWhile Char.isDigit else rest)
    | _ => some rest
  else none

/-- The distance from universal time, or nothing. -/
def offset (cs : List Char) : List Char :=
  let numeric (rest : List Char) : Option (List Char) := do
    let (hour, rest) ← fixedDigits 2 rest
    let (minute, rest) ← fixedDigits 2 (← expect ':' rest)
    if hour ≤ 23 ∧ minute ≤ 59 then some rest else none
  match cs with
  | 'Z' :: rest | 'z' :: rest => rest
  | '+' :: rest | '-' :: rest => (numeric rest).getD cs
  | _ => cs

/-- A date, a date with a time, or a time. -/
def datetime (cs : List Char) : Option (Toml × List Char) :=
  match date cs with
  | some rest =>
    let timed : Option (List Char) :=
      match rest with
      | c :: more => if c = 'T' ∨ c = 't' ∨ c = ' ' then (time more).map offset else none
      | [] => none
    some (.datetime, timed.getD rest)
  | none => (time cs).map fun rest => (.datetime, rest)

/-! ## Values -/

mutual

/-- A value inside of `depth` lists and tables between braces. -/
def value : (fuel depth : Nat) → List Char → Option (Toml × List Char)
  | 0, _, _ => none
  | fuel + 1, depth, cs =>
    match cs with
    | '"' :: _ | '\'' :: _ => (text cs).map fun (s, rest) => (.string (String.ofList s), rest)
    | '[' :: rest =>
      if depth + 1 < depthLimit then
        (items fuel (depth + 1) (skipLines false rest)).map fun (l, rest) => (.array l, rest)
      else none
    | '\x7b' :: rest =>
      if depth + 1 < depthLimit then
        match skipBlanks rest with
        | '\x7d' :: rest => some (.table .inline [], rest)
        | rest =>
          (members fuel (depth + 1) (.header, []) rest).map fun (t, rest) =>
            (.table .inline t.2, rest)
      else none
    | 't' :: 'r' :: 'u' :: 'e' :: rest => some (.boolean true, rest)
    | 'f' :: 'a' :: 'l' :: 's' :: 'e' :: rest => some (.boolean false, rest)
    | _ => datetime cs <|> float cs <|> integer cs

/-- The items of a list, up to its end; a comma may stand behind the last one. -/
def items : (fuel depth : Nat) → List Char → Option (List Toml × List Char)
  | 0, _, _ => none
  | _ + 1, _, ']' :: rest => some ([], rest)
  | fuel + 1, depth, cs => do
    let (v, rest) ← value fuel depth cs
    match skipLines false rest with
    | ',' :: rest =>
      let (l, rest) ← items fuel depth (skipLines false rest)
      return (v :: l, rest)
    | ']' :: rest => return ([v], rest)
    | _ => none

/-- Adds the entries of a table between braces, up to its end. -/
def members : (fuel depth : Nat) → Open → List Char → Option (Open × List Char)
  | 0, _, _, _ => none
  | fuel + 1, depth, t, cs => do
    let (k, rest) ← key depthLimit.pred cs
    let (v, rest) ← value fuel depth (skipBlanks (← expect '=' rest))
    let t ← addKey k v t
    match skipBlanks rest with
    | ',' :: rest => members fuel depth t rest
    | '\x7d' :: rest => return (t, rest)
    | _ => none

end

/-! ## Documents -/

/-- Adds the statements of a text to a document. Entries go into the table of the last header,
which `path` leads to. -/
def statements : (fuel : Nat) → (path : List String) → Open → List Char → Option Open
  | 0, _, _, _ => none
  | fuel + 1, path, doc, cs =>
    match skipBlanks cs with
    | [] => some doc
    | '[' :: '[' :: rest => do
      let (k, rest) ← key depthLimit.pred rest
      let rest ← lineEnd (← expect ']' (← expect ']' rest))
      statements fuel k (← addArrayHeader k doc) rest
    | '[' :: rest => do
      let (k, rest) ← key depthLimit.pred rest
      let rest ← lineEnd (← expect ']' rest)
      statements fuel k (← addHeader k doc) rest
    | c :: rest =>
      if c = '#' ∨ c = '\n' ∨ c = '\r' then do
        statements fuel path doc (← lineEnd (c :: rest))
      else do
        let (k, rest) ← key depthLimit.pred (c :: rest)
        let (v, rest) ← value (rest.length + 1) 0 (skipBlanks (← expect '=' rest))
        let doc ← update .implied (addKey k v) path doc
        statements fuel path doc (← lineEnd rest)

end LogSync.Toml.Reader

namespace LogSync.Toml

/-- The entries of the document that a text stands for. A mark of byte order may stand in front. -/
def read? (s : String) : Option Entries :=
  let cs := match s.toList with
    | '\uFEFF' :: rest => rest
    | cs => cs
  (Reader.statements (cs.length + 1) [] (.header, []) cs).map (·.2)

end LogSync.Toml
