/-!
# Binary floating-point formats

A pattern is read as a sign, an exponent field and a fraction. Every finite value of a format is a
whole multiple of its unit, the least positive value, so the magnitude of a finite pattern is a
natural number of units and exact arithmetic on values is arithmetic on natural numbers.

Rounding is done in one place: `Format.nearest` gives the pattern whose magnitude is nearest to a
quotient of natural numbers, ties to the even pattern, and infinity beyond the range.
-/

namespace Comptime.Binary

/-- The quotient rounded to the nearest natural number, a tie to the even one. -/
def roundDiv (num den : Nat) : Nat :=
  let q := num / den
  let r := num % den
  if 2 * r < den then q else if den < 2 * r then q + 1 else q + q % 2

/-- A format: the width of the fraction field and of the exponent field. -/
structure Format where
  fraction : Nat
  exponent : Nat
deriving DecidableEq, Repr

/-- The 32-bit format. -/
def single : Format := ⟨23, 8⟩

/-- The 64-bit format. -/
def double : Format := ⟨52, 11⟩

/-- What a pattern stands for. A finite magnitude counts units. -/
inductive Number where
  | nan
  | infinite (negative : Bool)
  | finite (negative : Bool) (magnitude : Nat)
deriving DecidableEq, Repr

namespace Format

variable (f : Format)

/-- The pattern that holds the sign alone. -/
def signBit : Nat := 1 <<< (f.exponent + f.fraction)

/-- The pattern of positive infinity; larger patterns without a sign are no numbers. -/
def infinity : Nat := ((1 <<< f.exponent) - 1) <<< f.fraction

/-- The pattern that every invalid operation answers. -/
def quietNan : Nat := f.infinity + 1 <<< (f.fraction - 1)

/-- The unit is `2 ^ (-places)`. -/
def places : Nat := (1 <<< (f.exponent - 1)) - 2 + f.fraction

/-- The magnitude of a finite pattern without a sign, in units. -/
def magnitude (pattern : Nat) : Nat :=
  let e := pattern >>> f.fraction
  let m := pattern % (1 <<< f.fraction)
  if e = 0 then m else (1 <<< f.fraction + m) <<< (e - 1)

/-- Put a sign on a pattern that has none. -/
def signed (negative : Bool) (pattern : Nat) : Nat :=
  if negative then f.signBit + pattern else pattern

/-- The pattern whose magnitude is nearest to `num / den` units. -/
def nearest (num den : Nat) : Nat :=
  let whole := num / den
  let shift := if whole < 1 <<< (f.fraction + 1) then 0 else whole.log2 - f.fraction
  min (shift <<< f.fraction + roundDiv num (den <<< shift)) f.infinity

/-- Read a pattern. -/
def decode (pattern : Nat) : Number :=
  let negative := f.signBit ≤ pattern
  let rest := pattern % f.signBit
  if rest < f.infinity then .finite negative (f.magnitude rest)
  else if rest = f.infinity then .infinite negative
  else .nan

/-- The pattern nearest to the signed quotient `num / den` in units. -/
def round (negative : Bool) (num den : Nat) : Nat := f.signed negative (f.nearest num den)

end Format

end Comptime.Binary
