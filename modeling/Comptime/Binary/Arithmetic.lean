import Comptime.Binary.Format

/-!
# Floating-point arithmetic

Operations take and give patterns of one format. Each computes the exact result on magnitudes and
rounds once. A pattern that is no number makes the result no number, whatever its payload.
-/

namespace Comptime.Binary

def signedMagnitude (negative : Bool) (magnitude : Nat) : Int :=
  if negative then -(magnitude : Int) else magnitude

namespace Format

variable (f : Format)

/-- Change the sign of a pattern, whatever it stands for. -/
def negate (a : Nat) : Nat := if f.signBit ≤ a then a - f.signBit else a + f.signBit

/-- The sum. An exact zero is negative only if both operands are negative zeros. -/
def add (a b : Nat) : Nat :=
  match f.decode a, f.decode b with
  | .nan, _ | _, .nan => f.quietNan
  | .infinite s, .infinite t => if s = t then f.signed s f.infinity else f.quietNan
  | .infinite s, .finite _ _ => f.signed s f.infinity
  | .finite _ _, .infinite t => f.signed t f.infinity
  | .finite s m, .finite t n =>
    let sum := signedMagnitude s m + signedMagnitude t n
    if sum = 0 then f.signed (s && t) 0 else f.round (sum < 0) sum.natAbs 1

/-- The rounded difference. -/
def sub (a b : Nat) : Nat := f.add a (f.negate b)

/-- The rounded product. -/
def mul (a b : Nat) : Nat :=
  match f.decode a, f.decode b with
  | .nan, _ | _, .nan => f.quietNan
  | .infinite s, .infinite t => f.signed (s != t) f.infinity
  | .infinite s, .finite t n => if n = 0 then f.quietNan else f.signed (s != t) f.infinity
  | .finite s m, .infinite t => if m = 0 then f.quietNan else f.signed (s != t) f.infinity
  | .finite s m, .finite t n => f.round (s != t) (m * n) (1 <<< f.places)

/-- The quotient. A nonzero number divided by zero is infinite. -/
def div (a b : Nat) : Nat :=
  match f.decode a, f.decode b with
  | .nan, _ | _, .nan => f.quietNan
  | .infinite _, .infinite _ => f.quietNan
  | .infinite s, .finite t _ => f.signed (s != t) f.infinity
  | .finite s _, .infinite t => f.signed (s != t) 0
  | .finite s m, .finite t n =>
    if n = 0 then
      if m = 0 then f.quietNan else f.signed (s != t) f.infinity
    else f.round (s != t) (m <<< f.places) n

/-- The remainder of the quotient rounded toward zero; it has the sign of the dividend. -/
def rem (a b : Nat) : Nat :=
  match f.decode a, f.decode b with
  | .nan, _ | _, .nan => f.quietNan
  | .infinite _, _ => f.quietNan
  | .finite _ _, .infinite _ => a
  | .finite s m, .finite _ n => if n = 0 then f.quietNan else f.round s (m % n) 1

/-- The order of the numbers; zeros are equal, and what is no number is unordered. -/
def compare (a b : Nat) : Option Ordering :=
  match f.decode a, f.decode b with
  | .nan, _ | _, .nan => none
  | .infinite s, .infinite t => some (Ord.compare t s)
  | .infinite s, .finite _ _ => some (if s then .lt else .gt)
  | .finite _ _, .infinite t => some (if t then .gt else .lt)
  | .finite s m, .finite t n => some (Ord.compare (signedMagnitude s m) (signedMagnitude t n))

/-- The nearest pattern of another format. -/
def convert (g : Format) (a : Nat) : Nat :=
  match f.decode a with
  | .nan => g.quietNan
  | .infinite s => g.signed s g.infinity
  | .finite s m => g.round s (m <<< g.places) (1 <<< f.places)

/-- The nearest pattern to an integer. -/
def ofInt (n : Int) : Nat := f.round (n < 0) (n.natAbs <<< f.places) 1

/-- The integer part, held between `low` and `high`; what is no number counts as zero. -/
def truncate (low high : Int) (a : Nat) : Int :=
  match f.decode a with
  | .nan => 0
  | .infinite s => if s then low else high
  | .finite s m => max low (min high (signedMagnitude s (m >>> f.places)))

end Format

end Comptime.Binary
