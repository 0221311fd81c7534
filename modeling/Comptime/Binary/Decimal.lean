import Comptime.Binary.Format

/-!
# Decimal text of floating-point numbers

`Format.shortest` gives the fewest decimal digits that read back as the same pattern. On each
decimal grid only the two neighbours of the value are tried, the coarsest grid with a hit wins, of
two hits the nearer is taken, and a tie goes up. A number that rounds to the pattern lies between
the midpoints to the neighbouring patterns; the midpoints themselves count when the fraction is
even.

A `Style` fixes what is left: whether a whole number shows a decimal, and outside which decimal
exponents the text uses one.
-/

namespace Comptime.Binary

/-- The number `0.d1d2… · 10 ^ point`. -/
structure Digits where
  digits : String
  point : Int

/-- How a number is laid out. -/
structure Style where
  /-- A whole number ends in `.0`. -/
  pointZero : Bool
  /-- Decimal exponents in `[low, high)` are written positionally, all if there is no bound. -/
  positional : Option (Int × Int)

/-- Positional for every exponent, whole numbers without a point. -/
def Style.plain : Style := ⟨false, none⟩

/-- Whole numbers keep a decimal, and exponents below -4 or from 16 on are written as such. -/
def Style.listing : Style := ⟨true, some (-4, 16)⟩

private def zeros (n : Nat) : String := String.ofList (List.replicate n '0')

/-- Write digits in a style. -/
def Digits.layout (style : Style) (d : Digits) : String :=
  let n := d.digits.length
  let exponent := d.point - 1
  let positional := match style.positional with
    | none => true
    | some (low, high) => low ≤ exponent && exponent < high
  if positional then
    if d.point ≤ 0 then "0." ++ zeros (-d.point).toNat ++ d.digits
    else
      let k := d.point.toNat
      if k < n then
        String.ofList (d.digits.toList.take k) ++ "." ++ String.ofList (d.digits.toList.drop k)
      else d.digits ++ zeros (k - n) ++ (if style.pointZero then ".0" else "")
  else
    let tail := d.digits.toList.drop 1
    String.ofList (d.digits.toList.take 1) ++
      (if tail.isEmpty then "" else "." ++ String.ofList tail) ++ "e" ++ toString exponent

/-- How many zeros follow the point of `num / den`, a number in `(0, 1)`. -/
def leadingZeros : Nat → Nat → Nat → Nat
  | 0, _, _ => 0
  | fuel + 1, num, den => if den ≤ num * 10 then 0 else leadingZeros fuel (num * 10) den + 1

/-- The least `k` with `num / den < 10 ^ k`. -/
def decimalPoint (num den : Nat) : Int :=
  if num < den then -(leadingZeros den.log2 num den : Int)
  else ((toString (num / den)).length : Int)

private def dropTrailing (digits : String) : String :=
  String.ofList ((digits.toList.reverse.dropWhile (· == '0')).reverse)

namespace Format

variable (f : Format)

/-- The shortest digits among `count` and up to `fuel` more. Numbers are quotients over `den`; what
lies between `low` and `high` reads back, the ends too if `closed`. -/
def search (num den low high : Nat) (closed : Bool) (point : Int) : Nat → Nat → Digits
  | 0, count => ⟨toString (num / den), point + count⟩
  | fuel + 1, count =>
    -- the grid of `count` digits: multiples of 10 ^ (point - count)
    let e := point - count
    let up := if e < 0 then Nat.pow 10 e.natAbs else 1
    let down := if e < 0 then 1 else Nat.pow 10 e.natAbs
    let below := num * up / (den * down)
    let within := fun (digit : Nat) =>
      let x := digit * den * down
      if closed then low * up ≤ x && x ≤ high * up else low * up < x && x < high * up
    let answer := fun (digit : Nat) =>
      let text := toString digit
      Digits.mk (dropTrailing text) (point + ((text.length : Int) - count))
    match within below, within (below + 1) with
    | true, true =>
      -- the nearer one, a tie goes up
      if (2 * below + 1) * den * down ≤ 2 * num * up then answer (below + 1) else answer below
    | true, false => answer below
    | false, true => answer (below + 1)
    | false, false => search num den low high closed point fuel (count + 1)

/-- The fewest digits that read back as the finite nonzero pattern without a sign. -/
def shortest (pattern : Nat) : Digits :=
  let e := pattern >>> f.fraction
  let m := pattern % (1 <<< f.fraction)
  let step := 1 <<< (e - 1)
  let num := 4 * f.magnitude pattern
  let den := 4 <<< f.places
  -- below a power of two the patterns are twice as dense
  let low := if m = 0 && 0 < e then num - step else num - 2 * step
  search num den low (num + 2 * step) (m % 2 = 0) (decimalPoint num den) 20 1

def text (style : Style) (pattern : Nat) : String :=
  match f.decode pattern with
  | .nan => "NaN"
  | .infinite s => if s then "-inf" else "inf"
  | .finite s m =>
    let body :=
      if m = 0 then (if style.pointZero then "0.0" else "0")
      else (f.shortest (pattern % f.signBit)).layout style
    if s then "-" ++ body else body

/-- The text with a fixed number of decimals: the exact value, a tie to the even digit. -/
def fixed (decimals : Nat) (pattern : Nat) : String :=
  match f.decode pattern with
  | .nan => "NaN"
  | .infinite s => if s then "-inf" else "inf"
  | .finite s m =>
    let scale := Nat.pow 10 decimals
    let scaled := roundDiv (m * scale) (1 <<< f.places)
    let whole := toString (scaled / scale)
    let rest := toString (scaled % scale)
    let body :=
      if decimals = 0 then whole else whole ++ "." ++ zeros (decimals - rest.length) ++ rest
    if s then "-" ++ body else body

end Format

end Comptime.Binary
