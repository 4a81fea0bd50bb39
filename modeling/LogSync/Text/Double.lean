/-!
# The range of double precision

Numbers in texts may be too large to be read as a double. Only that is asked here; no value is
rounded.
-/

namespace LogSync.Double

/-- The least magnitude that rounds to an infinite double: halfway behind the largest one. -/
def limit : Nat := (1 <<< 1024) - (1 <<< 970)

/-- Whether the magnitude `mantissa * 10 ^ exponent` is finite as a double. Far from the limit the
number of digits settles it. -/
def fits (mantissa : Nat) (exponent : Int) : Bool :=
  let digits : Int := (Nat.toDigits 10 mantissa).length
  if mantissa = 0 ∨ digits + exponent < 308 then true
  else if digits + exponent > 310 then false
  else if exponent ≥ 0 then mantissa * Nat.pow 10 exponent.toNat < limit
  else mantissa < limit * Nat.pow 10 exponent.natAbs

end LogSync.Double
