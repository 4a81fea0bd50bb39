import LogSync.Json.Printer
import LogSync.Json.Reader
import LogSync.Proofs.HexDigits

/-!
# Written values are read back

A JSON value that is written on one line is read back as it was, whatever it is. The reader is
followed part by part: digits, strings, numbers, and then values, by induction over the value.
Behind a value stands nothing or what ends it (`Closed`), so a number is read up to its end and not
further; and its text is as long as the reader's nesting needs (`Reader.value_write`).
-/

namespace LogSync

namespace Json.Reader

/-! ## Strings -/

/-- A character goes before the pieces that are read of the rest. -/
def withChar (c : Char) : List Piece × List Char → List Piece × List Char
  | (ps, rest) => (.char c :: ps, rest)

/-- A character that is written as it is is read as one piece. -/
theorem pieces_plain {c : Char} (hquote : c ≠ '"') (hbackslash : c ≠ '\\') (h : ¬ c.toNat < 32)
    (rest : List Char) : pieces (c :: rest) = (pieces rest).map (withChar c) := by
  rw [pieces, if_neg h, Option.map_eq_bind]
  · rfl
  · exact hquote
  · exact fun _ _ _ _ _ hc _ => hbackslash hc
  · exact fun _ _ hc _ => hbackslash hc

/-- A character that is escaped by a letter is read as one piece. -/
theorem pieces_escape (letter : Char) {c : Char} (h : escape? letter = some c) (rest : List Char) :
    pieces ('\\' :: letter :: rest) = (pieces rest).map (withChar c) := by
  rw [pieces, h, Option.map_eq_bind]
  · rfl
  · rintro _ _ _ _ _ rfl -
    contradiction

/-- A control character is read back from its four digits. -/
theorem pieces_unit {c : Char} (h : c.toNat < 32) (rest : List Char) :
    pieces ('\\' :: 'u' :: Hex.write 4 c.toNat ++ rest) = (pieces rest).map (withChar c) := by
  have hunit : Piece.ofUnit c.toNat = .char c := by
    rw [Piece.ofUnit, if_neg (by omega), Char.ofNat_toNat]
  have hread : Hex.read? (Hex.write 4 c.toNat) = some c.toNat :=
    Hex.read_write (Nat.lt_trans h (by decide))
  rw [Option.map_eq_bind]
  show (Hex.read? (Hex.write 4 c.toNat)).bind _ = _
  rw [hread, Option.bind_some, hunit]
  rfl

/-- A character is read as it was written. -/
theorem pieces_escaped (c : Char) (rest : List Char) :
    pieces (escaped c ++ rest) = (pieces rest).map (withChar c) := by
  have hnamed {code : Nat} (h : c.toNat = code) : Char.ofNat code = c := by
    rw [← h, Char.ofNat_toNat]
  unfold escaped
  split
  · next h => subst h; exact pieces_escape '"' rfl rest
  split
  · next h => subst h; exact pieces_escape '\\' rfl rest
  split
  · next h => subst h; exact pieces_escape 'n' rfl rest
  split
  · next h => subst h; exact pieces_escape 'r' rfl rest
  split
  · next h => subst h; exact pieces_escape 't' rfl rest
  split
  · next h => exact pieces_escape 'b' (congrArg some (hnamed h)) rest
  split
  · next h => exact pieces_escape 'f' (congrArg some (hnamed h)) rest
  split
  · next h => exact pieces_unit h rest
  · next hquote hbackslash _ _ _ _ _ h => exact pieces_plain hquote hbackslash h rest

/-- A text is read up to the quote that ends it. -/
theorem pieces_text (cs rest : List Char) :
    pieces (cs.flatMap escaped ++ '"' :: rest) = some (cs.map .char, rest) := by
  induction cs with
  | nil => rfl
  | cons c cs ih =>
    rw [List.flatMap_cons, List.append_assoc, pieces_escaped, ih]
    rfl

/-- Pieces that are characters make up their text. -/
theorem textOfPieces_chars (cs : List Char) : textOfPieces (cs.map .char) = some cs := by
  induction cs with
  | nil => rfl
  | cons c cs ih =>
    rw [List.map_cons, textOfPieces, ih]
    rfl

/-- A string is read as it was written, also one without a text. -/
theorem text_quoted (s : Option String) (rest : List Char) :
    ∃ cs, quoted s ++ rest = '"' :: cs ∧ text cs = some (s, rest) := by
  cases s with
  | none =>
    have hquoted : quoted none = ['"', '\\', 'u', 'd', '8', '0', '0', '"'] := by decide
    have hunit : Hex.read? ['d', '8', '0', '0'] = some 0xD800 := by decide
    refine ⟨'\\' :: 'u' :: 'd' :: '8' :: '0' :: '0' :: '"' :: rest, by simp [hquoted], ?_⟩
    rw [text, pieces, pieces, hunit]
    rfl
  | some s =>
    refine ⟨s.toList.flatMap escaped ++ '"' :: rest, ?_, ?_⟩
    · show '"' :: s.toList.flatMap escaped ++ ['"'] ++ rest = _
      rw [List.append_assoc]
      rfl
    rw [text, pieces_text]
    show some ((textOfPieces _).map String.ofList, rest) = _
    rw [textOfPieces_chars, Option.map_some, String.ofList_toList]

/-! ## Numbers -/

/-- A text does not go on with a digit. -/
def NoDigit (rest : List Char) : Prop := ∀ c cs, rest = c :: cs → c.isDigit = false

/-- Reading digits carries them over into the number read so far. -/
theorem digits_append {ds : List Char} (hds : ∀ c ∈ ds, c.isDigit = true) (n count : Nat)
    (rest : List Char) :
    digits n count (ds ++ rest) = digits (Nat.ofDigitChars 10 ds n) (count + ds.length) rest := by
  induction ds generalizing n count with
  | nil => rfl
  | cons c ds ih =>
    rw [List.cons_append, digits, if_pos (hds c List.mem_cons_self),
      ih (fun c hc => hds c (List.mem_cons_of_mem _ hc)), Nat.ofDigitChars_cons, List.length_cons]
    congr 1
    omega

/-- Where no digit follows, the number is complete. -/
theorem digits_of_noDigit {rest : List Char} (h : NoDigit rest) (n count : Nat) :
    digits n count rest = (n, count, rest) := by
  cases rest with
  | nil => rfl
  | cons c rest =>
    rw [digits, h c rest rfl]
    rfl

/-- A number is read up to its last digit. -/
theorem someDigits_toDigits (n : Nat) {rest : List Char} (h : NoDigit rest) :
    someDigits 0 (Nat.toDigits 10 n ++ rest)
      = some (n, (Nat.toDigits 10 n).length, rest) := by
  have hcount : (Nat.toDigits 10 n).length ≠ 0 := Nat.ne_of_gt Nat.length_toDigits_pos
  rw [someDigits, digits_append fun c hc => Nat.isDigit_of_mem_toDigits (by decide) (by decide) hc,
    digits_of_noDigit h, Nat.ofDigitChars_toDigits (by decide) (by decide), Nat.zero_add]
  exact if_neg hcount

/-- The digits of a number begin with a digit. -/
theorem toDigits_cons (n : Nat) :
    ∃ c cs, Nat.toDigits 10 n = c :: cs ∧ c.isDigit = true := by
  obtain ⟨c, cs, hcs⟩ := List.exists_cons_of_ne_nil (Nat.toDigits_ne_nil (n := n) (b := 10))
  exact ⟨c, cs, hcs,
    Nat.isDigit_of_mem_toDigits (by decide) (by decide) (hcs ▸ List.mem_cons_self)⟩

/-- A number begins with a zero only if it is zero. -/
theorem toDigits_ne_zero {n : Nat} (h : n ≠ 0) (cs : List Char) :
    Nat.toDigits 10 n ≠ '0' :: cs := by
  induction n using Nat.strongRecOn generalizing cs with
  | ind n ih =>
    rw [Nat.toDigits_eq_if (by decide)]
    split
    · next hsmall =>
      intro heq
      have hcode := Nat.toNat_digitChar_of_lt_ten hsmall
      rw [(List.cons.inj heq).1] at hcode
      have hzero : '0'.toNat = 48 := rfl
      omega
    · next hlarge =>
      intro heq
      obtain ⟨d, ds, hds, -⟩ := toDigits_cons (n / 10)
      rw [hds, List.cons_append] at heq
      exact ih (n / 10) (by omega) (by omega) ds ((List.cons.inj heq).1 ▸ hds)

/-- A zero in front is the whole part by itself, as long as no digit follows it. -/
theorem wholePart_zero {rest : List Char} (h : NoDigit rest) :
    wholePart ('0' :: rest) = some (0, rest) := by
  cases rest with
  | nil => rfl
  | cons c rest => exact if_neg (by rw [h c rest rfl]; decide)

/-- A number is read up to its last digit. -/
theorem wholePart_toDigits (n : Nat) {rest : List Char} (h : NoDigit rest) :
    wholePart (Nat.toDigits 10 n ++ rest) = some (n, rest) := by
  by_cases hn : n = 0
  · subst hn
    exact wholePart_zero h
  · rw [wholePart, someDigits_toDigits n h]
    · rfl
    · intro cs heq
      -- What is not zero does not begin with one, so the reader does not stop at a lone zero.
      obtain ⟨d, ds, hds, -⟩ := toDigits_cons n
      rw [hds, List.cons_append] at heq
      exact toDigits_ne_zero hn ds ((List.cons.inj heq).1 ▸ hds)

/-- An exponent without a sign is read as its digits. -/
theorem exponentPart_unsigned {cs : List Char} (hminus : ∀ rest, cs ≠ '-' :: rest)
    (hplus : ∀ rest, cs ≠ '+' :: rest) :
    exponentPart ('e' :: cs)
      = (someDigits 0 cs).map fun (n, _, rest) => ((n : Int), true, rest) := by
  rw [exponentPart, if_pos (Or.inl rfl)]
  · exact hminus
  · exact hplus

/-- An exponent is read as it was written. -/
theorem exponentPart_toString (exponent : Int) {rest : List Char} (h : NoDigit rest) :
    exponentPart ('e' :: (toString exponent).toList ++ rest) = some (exponent, true, rest) := by
  rw [List.cons_append, Int.toString_eq_repr, Int.repr_eq_if]
  split
  · next hsign =>
    have hdigits := someDigits_toDigits exponent.toNat h
    have hsigned {c : Char} (hc : c.isDigit = false) (cs : List Char) :
        Nat.toDigits 10 exponent.toNat ++ rest ≠ c :: cs := by
      intro heq
      obtain ⟨d, ds, hds, hd⟩ := toDigits_cons exponent.toNat
      rw [hds, List.cons_append] at heq
      rw [(List.cons.inj heq).1, hc] at hd
      contradiction
    rw [Nat.toList_repr, exponentPart_unsigned (hsigned rfl) (hsigned rfl), hdigits,
      Option.map_some]
    show some ((exponent.toNat : Int), true, rest) = _
    rw [Int.toNat_of_nonneg hsign]
  · next hsign =>
    rw [String.toList_append, Nat.toList_repr]
    show (someDigits 0 (Nat.toDigits 10 (-exponent).toNat ++ rest)).map _ = _
    rw [someDigits_toDigits _ h, Option.map_some]
    show some (-((-exponent).toNat : Int), true, rest) = _
    rw [Int.toNat_of_nonneg (by omega), Int.neg_neg]

/-- A text does not go on with a part of a number. -/
def NoNumber (rest : List Char) : Prop :=
  ∀ c cs, rest = c :: cs → c.isDigit = false ∧ c ≠ '.' ∧ c ≠ 'e' ∧ c ≠ 'E'

theorem NoNumber.noDigit {rest : List Char} (h : NoNumber rest) : NoDigit rest :=
  fun c cs hrest => (h c cs hrest).1

theorem unsigned_eq {cs rest rest' : List Char} {whole : Nat} {exponent : Int} {scaled : Bool}
    (hwhole : wholePart cs = some (whole, rest)) (hpoint : ∀ cs, rest ≠ '.' :: cs)
    (hexponent : exponentPart rest = some (exponent, scaled, rest')) :
    unsigned cs = some (if scaled then .real whole exponent else .natural whole, rest') := by
  unfold unsigned
  rw [hwhole]
  dsimp only [Option.bind_eq_bind, Option.bind_some]
  split
  · exact (hpoint _ rfl).elim
  · rw [hexponent]
    cases scaled <;> simp

/-- A natural number is read back from its digits. -/
theorem unsigned_natural (n : Nat) {rest : List Char} (h : NoNumber rest) :
    unsigned (Nat.toDigits 10 n ++ rest) = some (.natural n, rest) := by
  have hexponent : exponentPart rest = some (0, false, rest) := by
    cases rest with
    | nil => rfl
    | cons c rest => exact if_neg fun hc => hc.elim (h c rest rfl).2.2.1 (h c rest rfl).2.2.2
  exact unsigned_eq (wholePart_toDigits n h.noDigit) (fun cs heq => (h _ _ heq).2.1 rfl) hexponent

/-- A real number is read back from its mantissa and its exponent. -/
theorem unsigned_real (mantissa : Nat) (exponent : Int) {rest : List Char} (h : NoDigit rest) :
    unsigned (Nat.toDigits 10 mantissa ++ ('e' :: (toString exponent).toList ++ rest))
      = some (.real mantissa exponent, rest) := by
  have hdigit : NoDigit ('e' :: (toString exponent).toList ++ rest) :=
    fun c cs heq => (List.cons.inj heq).1 ▸ rfl
  exact unsigned_eq (wholePart_toDigits mantissa hdigit) (fun cs heq => by cases heq)
    (exponentPart_toString exponent h)

/-! ## Values -/

/-- Behind a value: the end of the text, or what ends the value. -/
def Closed (rest : List Char) : Prop :=
  ∀ c cs, rest = c :: cs → c = ',' ∨ c = ']' ∨ c = '\x7d'

/-- A comma or a closing bracket ends a value. -/
theorem closed_cons {c : Char} (h : c = ',' ∨ c = ']' ∨ c = '\x7d') (rest : List Char) :
    Closed (c :: rest) := fun _ _ heq => (List.cons.inj heq).1 ▸ h

theorem Closed.noNumber {rest : List Char} (h : Closed rest) : NoNumber rest := by
  intro c cs heq
  rcases h c cs heq with rfl | rfl | rfl <;> decide

/-- Before anything else there is no blank to skip. -/
theorem skipBlanks_cons {c : Char} (h : c ≠ ' ' ∧ c ≠ '\n' ∧ c ≠ '\r' ∧ c ≠ '\t')
    (cs : List Char) : skipBlanks (c :: cs) = c :: cs := by
  refine List.dropWhile_cons_of_neg ?_
  simp [h]

/-- A digit begins a number and nothing else. -/
theorem value_of_digit {c : Char} (h : c.isDigit = true) (fuel : Nat) (cs : List Char) :
    value (fuel + 1) (c :: cs) = unsigned (c :: cs) := by
  have hother {d : Char} (hd : d.isDigit = false) : c ≠ d := by
    rintro rfl
    rw [hd] at h
    contradiction
  rw [value, skipBlanks_cons ⟨hother rfl, hother rfl, hother rfl, hother rfl⟩]
  split
  case h_7 =>
    rw [number]
    exact fun _ heq => hother rfl (List.cons.inj heq).1
  all_goals next heq => exact (hother rfl (List.cons.inj heq).1).elim

/-- Neither a blank nor the end of a list. -/
structure Opens (c : Char) : Prop where
  blank : c ≠ ' ' ∧ c ≠ '\n' ∧ c ≠ '\r' ∧ c ≠ '\t'
  notEnd : c ≠ ']'

/-- A digit begins a value. -/
theorem opens_of_isDigit {c : Char} (h : c.isDigit = true) : Opens c := by
  refine ⟨⟨?_, ?_, ?_, ?_⟩, ?_⟩ <;> rintro rfl <;> contradiction

/-! The reader, one step at a time. -/

section
variable (fuel : Nat)

/-- A quotation mark begins a text. -/
theorem value_quote (cs : List Char) :
    value (fuel + 1) ('"' :: cs) = (text cs).map fun (s, rest) => (.string s, rest) := rfl

/-- A bracket that is not closed at once begins the items of a list. -/
theorem value_list {c : Char} (h : Opens c) (cs : List Char) :
    value (fuel + 1) ('[' :: c :: cs)
      = (items fuel (c :: cs)).map fun (l, rest) => (.array l, rest) := by
  rw [value, skipBlanks_cons (by decide)]
  split
  case h_2 heq =>
    rw [← (List.cons.inj heq).2, skipBlanks_cons h.blank]
    split
    · next heq => exact (h.notEnd (List.cons.inj heq).1).elim
    · rfl
  case h_7 _ hlist _ _ _ _ => exact (hlist _ rfl).elim
  all_goals next heq => exact absurd (List.cons.inj heq).1 (by decide)

/-- A brace and a quotation mark begin the fields of an object. -/
theorem value_object (cs : List Char) :
    value (fuel + 1) ('\x7b' :: '"' :: cs)
      = (fields fuel ('"' :: cs)).map fun (l, rest) => (.object l, rest) := rfl

theorem value_number (n : Nat) {rest tail : List Char} {v : Json}
    (h : unsigned (Nat.toDigits 10 n ++ tail) = some (v, rest)) :
    value (fuel + 1) (Nat.toDigits 10 n ++ tail) = some (v, rest) := by
  obtain ⟨c, cs, hcs, hc⟩ := toDigits_cons n
  rw [hcs, List.cons_append] at h ⊢
  exact (value_of_digit hc fuel _).trans h

variable {fuel} {cs rest rest' : List Char} {v : Json}

/-- A closing bracket ends a list. -/
theorem items_last (h : value fuel cs = some (v, ']' :: rest)) :
    items (fuel + 1) cs = some ([v], rest) := by
  rw [items, h]
  rfl

/-- A comma leads to further items. -/
theorem items_more (h : value fuel cs = some (v, ',' :: rest)) {l : List Json}
    (hl : items fuel rest = some (l, rest')) : items (fuel + 1) cs = some (v :: l, rest') := by
  rw [items, h]
  show (items fuel rest).bind _ = _
  rw [hl]
  rfl

/-- A closing brace ends an object. -/
theorem fields_last {name : Option String} (hname : text cs = some (name, ':' :: rest))
    (h : value fuel rest = some (v, '\x7d' :: rest')) :
    fields (fuel + 1) ('"' :: cs) = some ([(name, v)], rest') := by
  show (text cs).bind _ = _
  rw [hname]
  show (value fuel rest).bind _ = _
  rw [h]
  rfl

/-- A comma leads to further fields. -/
theorem fields_more {name : Option String} (hname : text cs = some (name, ':' :: rest))
    {tail : List Char} (h : value fuel rest = some (v, ',' :: tail))
    {l : List (Option String × Json)} (hl : fields fuel tail = some (l, rest')) :
    fields (fuel + 1) ('"' :: cs) = some ((name, v) :: l, rest') := by
  show (text cs).bind _ = _
  rw [hname]
  show (value fuel rest).bind _ = _
  rw [h]
  show (fields fuel tail).bind _ = _
  rw [hl]
  rfl

end

/-! The printer, one step at a time. -/

theorem write_null : write null = ['n', 'u', 'l', 'l'] := by decide

/-- A truth value is written as its name. -/
theorem write_bool (b : Bool) :
    write (.bool b) = if b then ['t', 'r', 'u', 'e'] else ['f', 'a', 'l', 's', 'e'] := by
  cases b <;> decide

theorem writeItems_last (v : Json) : writeItems [v] = write v ++ [']'] := rfl

theorem writeItems_more (v w : Json) (l : List Json) :
    writeItems (v :: w :: l) = write v ++ ',' :: writeItems (w :: l) := rfl

theorem writeFields_last (name : Option String) (v : Json) :
    writeFields [(name, v)] = quoted name ++ ':' :: write v ++ ['\x7d'] := rfl

theorem writeFields_more (name : Option String) (v : Json) (f : Option String × Json)
    (l : List (Option String × Json)) :
    writeFields ((name, v) :: f :: l)
      = quoted name ++ ':' :: write v ++ ',' :: writeFields (f :: l) := rfl

/-- No value is written as nothing, and none begins like the end of a list, which the reader looks
for right after an opening bracket. -/
theorem write_cons (v : Json) : ∃ c cs, v.write = c :: cs ∧ Opens c := by
  cases v with
  | null => exact ⟨'n', _, write_null, by decide, by decide⟩
  | bool b =>
    cases b
    · exact ⟨'f', _, write_bool false, by decide, by decide⟩
    · exact ⟨'t', _, write_bool true, by decide, by decide⟩
  | natural n =>
    obtain ⟨c, cs, hcs, hc⟩ := toDigits_cons n
    exact ⟨c, cs, hcs, opens_of_isDigit hc⟩
  | real mantissa exponent =>
    obtain ⟨c, cs, hcs, hc⟩ := toDigits_cons mantissa
    refine ⟨c, cs ++ 'e' :: (toString exponent).toList, ?_, opens_of_isDigit hc⟩
    show Nat.toDigits 10 mantissa ++ 'e' :: (toString exponent).toList = _
    rw [hcs]
    rfl
  | string s =>
    obtain ⟨cs, hcs, -⟩ := text_quoted s []
    rw [List.append_nil] at hcs
    exact ⟨'"', cs, hcs, by decide, by decide⟩
  | array items => exact ⟨'[', _, rfl, by decide, by decide⟩
  | object fields => exact ⟨'\x7b', _, rfl, by decide, by decide⟩

/-- The items of a list begin with the beginning of a value. -/
theorem writeItems_cons (v : Json) (l : List Json) :
    ∃ c cs, writeItems (v :: l) = c :: cs ∧ Opens c := by
  obtain ⟨c, cs, hcs, hc⟩ := write_cons v
  cases l with
  | nil => exact ⟨c, cs ++ [']'], by rw [writeItems_last, hcs]; rfl, hc⟩
  | cons w l => exact ⟨c, cs ++ ',' :: writeItems (w :: l), by rw [writeItems_more, hcs]; rfl, hc⟩

/-- The fields of an object begin with a quotation mark. -/
theorem writeFields_cons (name : Option String) (v : Json) (l : List (Option String × Json)) :
    ∃ cs, writeFields ((name, v) :: l) = '"' :: cs := by
  cases l with
  | nil =>
    obtain ⟨cs, hcs, -⟩ := text_quoted name (':' :: write v ++ ['\x7d'])
    exact ⟨cs, by rw [writeFields_last, List.append_assoc, hcs]⟩
  | cons f l =>
    obtain ⟨cs, hcs, -⟩ := text_quoted name (':' :: write v ++ ',' :: writeFields (f :: l))
    exact ⟨cs, by rw [writeFields_more, List.append_assoc, hcs]⟩

-- Each level of nesting spends one unit of fuel and writes at least one character, so the length of
-- the text is fuel enough. What stands behind an item is a comma or a bracket, which is what
-- `Closed` needs of it.
mutual

/-- A value is read as it was written, up to its end. -/
theorem value_write : (v : Json) → {fuel : Nat} → v.write.length ≤ fuel → {rest : List Char} →
    Closed rest → value fuel (v.write ++ rest) = some (v, rest)
  | v, 0, hfuel, _, _ => by
    obtain ⟨c, cs, hcs, -⟩ := write_cons v
    rw [hcs] at hfuel
    contradiction
  | .null, fuel + 1, _, rest, _ => by
    rw [write_null]
    rfl
  | .bool b, fuel + 1, _, rest, _ => by
    rw [write_bool]
    cases b <;> rfl
  | .natural n, fuel + 1, _, rest, h => value_number fuel n (unsigned_natural n h.noNumber)
  | .real mantissa exponent, fuel + 1, _, rest, h => by
    show value (fuel + 1) (Nat.toDigits 10 mantissa ++ 'e' :: (toString exponent).toList ++ rest)
      = _
    rw [List.append_assoc]
    exact value_number fuel mantissa (unsigned_real mantissa exponent h.noNumber.noDigit)
  | .string s, fuel + 1, _, rest, _ => by
    obtain ⟨cs, hcs, htext⟩ := text_quoted s rest
    show value (fuel + 1) (quoted s ++ rest) = _
    rw [hcs, value_quote, htext]
    rfl
  | .array [], fuel + 1, _, rest, _ => rfl
  | .array (v :: l), fuel + 1, hfuel, rest, _ => by
    have hitems := items_write v l (Nat.le_of_succ_le_succ hfuel) rest
    obtain ⟨c, cs, hcs, hc⟩ := writeItems_cons v l
    show value (fuel + 1) ('[' :: (writeItems (v :: l) ++ rest)) = _
    rw [hcs, List.cons_append] at hitems ⊢
    rw [value_list fuel hc, hitems]
    rfl
  | .object [], fuel + 1, _, rest, _ => rfl
  | .object ((name, v) :: l), fuel + 1, hfuel, rest, _ => by
    have hfields := fields_write name v l (Nat.le_of_succ_le_succ hfuel) rest
    obtain ⟨cs, hcs⟩ := writeFields_cons name v l
    show value (fuel + 1) ('\x7b' :: (writeFields ((name, v) :: l) ++ rest)) = _
    rw [hcs, List.cons_append] at hfields ⊢
    rw [value_object, hfields]
    rfl

/-- Items are read as they were written, with the end of their list. -/
theorem items_write : (v : Json) → (l : List Json) → {fuel : Nat} →
    (writeItems (v :: l)).length ≤ fuel → (rest : List Char) →
    items fuel (writeItems (v :: l) ++ rest) = some (v :: l, rest)
  | v, l, 0, hfuel, rest => by
    obtain ⟨c, cs, hcs, -⟩ := writeItems_cons v l
    rw [hcs] at hfuel
    contradiction
  | v, [], fuel + 1, hfuel, rest => by
    rw [writeItems_last, List.length_append] at hfuel
    rw [writeItems_last, List.append_assoc]
    exact items_last (value_write v (Nat.le_of_succ_le_succ hfuel) (closed_cons (by decide) rest))
  | v, w :: l, fuel + 1, hfuel, rest => by
    rw [writeItems_more, List.length_append, List.length_cons] at hfuel
    rw [writeItems_more, List.append_assoc, List.cons_append]
    exact items_more (value_write v (by omega) (closed_cons (by decide) _))
      (items_write w l (by omega) rest)

/-- Fields are read as they were written, with the end of their object. -/
theorem fields_write : (name : Option String) → (v : Json) → (l : List (Option String × Json)) →
    {fuel : Nat} → (writeFields ((name, v) :: l)).length ≤ fuel → (rest : List Char) →
    fields fuel (writeFields ((name, v) :: l) ++ rest) = some ((name, v) :: l, rest)
  | name, v, l, 0, hfuel, rest => by
    obtain ⟨cs, hcs⟩ := writeFields_cons name v l
    rw [hcs] at hfuel
    contradiction
  | name, v, [], fuel + 1, hfuel, rest => by
    rw [writeFields_last] at hfuel ⊢
    simp only [List.length_append, List.length_cons] at hfuel
    obtain ⟨cs, hcs, hname⟩ := text_quoted name (':' :: (write v ++ ('\x7d' :: rest)))
    have hv : value fuel (write v ++ '\x7d' :: rest) = some (v, '\x7d' :: rest) :=
      value_write v (by omega) (closed_cons (Or.inr (Or.inr rfl)) rest)
    simp only [List.append_assoc, List.cons_append, List.nil_append] at hv ⊢
    rw [hcs]
    exact fields_last hname hv
  | name, v, (name', v') :: l, fuel + 1, hfuel, rest => by
    rw [writeFields_more] at hfuel ⊢
    simp only [List.length_append, List.length_cons] at hfuel
    obtain ⟨cs, hcs, hname⟩ :=
      text_quoted name (':' :: (write v ++ ',' :: (writeFields ((name', v') :: l) ++ rest)))
    have hv : value fuel (write v ++ ',' :: (writeFields ((name', v') :: l) ++ rest))
        = some (v, ',' :: (writeFields ((name', v') :: l) ++ rest)) :=
      value_write v (by omega) (closed_cons (Or.inl rfl) _)
    simp only [List.append_assoc, List.cons_append] at hv ⊢
    rw [hcs]
    exact fields_more hname hv (fields_write name' v' l (by omega) rest)

end

end Json.Reader

/-- **Written values are read back.** Whatever a value is, the text that it is written as stands for
it. -/
theorem Json.read_compact (v : Json) : Json.read? v.compact = some v := by
  have hfuel : v.write.length ≤ v.compact.length + 1 := by
    rw [compact, String.length_ofList]
    exact Nat.le_succ _
  have hvalue : Reader.value (v.compact.length + 1) (v.write ++ []) = some (v, []) :=
    Reader.value_write v hfuel fun _ _ heq => by contradiction
  rw [List.append_nil] at hvalue
  rw [read?, compact, String.toList_ofList]
  show (Reader.value (v.compact.length + 1) v.write).bind _ = _
  rw [hvalue]
  rfl

end LogSync
