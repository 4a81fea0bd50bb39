/-!
# Hexadecimal digits

Numbers written with a fixed count of hexadecimal digits, the highest first. Writing uses lowercase
letters; reading takes either case.
-/

namespace LogSync.Hex

/-- The digit of a number below sixteen. -/
def digit (n : Nat) : Char := Char.ofNat (if n < 10 then 48 + n else 87 + n)

/-- The number that a digit stands for. -/
def value? (c : Char) : Option Nat :=
  if '0' ≤ c ∧ c ≤ '9' then some (c.toNat - 48)
  else if 'a' ≤ c ∧ c ≤ 'f' then some (c.toNat - 87)
  else if 'A' ≤ c ∧ c ≤ 'F' then some (c.toNat - 55)
  else none

/-- The lowest `count` digits of a number. -/
def write : (count : Nat) → Nat → List Char
  | 0, _ => []
  | count + 1, n => write count (n / 16) ++ [digit (n % 16)]

/-- Continues a number by the digits of a text; `none` if one of them is no digit. -/
def readFrom (n : Nat) : List Char → Option Nat
  | [] => some n
  | c :: rest => (value? c).bind fun d => readFrom (16 * n + d) rest

/-- The number that a text of digits stands for. -/
def read? (cs : List Char) : Option Nat := readFrom 0 cs

end LogSync.Hex
