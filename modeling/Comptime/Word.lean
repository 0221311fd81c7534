/-!
# Words

Integers live in 64-bit words. A value of an integer type of fewer bits is kept in canonical
form: cut to its width, then extended back to 64 bits by its sign (signed types) or by zeros
(unsigned types). Two values of one type are therefore equal exactly when their words are.
-/

namespace Comptime.Word

/-- The canonical form of `raw` at a width: cut to `bits`, then extended by sign or by zeros. -/
def canonical (raw : UInt64) (bits : Nat) (signed : Bool) : UInt64 :=
  if 64 ≤ bits then raw
  else
    let shift : UInt64 := UInt64.ofNat (64 - bits)
    if signed then ((raw <<< shift).toInt64 >>> shift.toInt64).toUInt64
    else (raw <<< shift) >>> shift

/-- The integer that a canonical word stands for. -/
def toInt (raw : UInt64) (signed : Bool) : Int :=
  if signed then raw.toInt64.toInt else Int.ofNat raw.toNat

/-- The word of an integer, modulo `2 ^ 64`. -/
def ofInt (n : Int) : UInt64 := UInt64.ofNat (n % 0x10000000000000000).toNat

/-- The least and the greatest integer of a width. -/
def range (bits : Nat) (signed : Bool) : Int × Int :=
  if signed then (-(1 <<< (bits - 1) : Nat), (1 <<< (bits - 1) : Nat) - 1)
  else (0, (1 <<< bits : Nat) - 1)

/-- The `count` low bytes of a word, the lowest first. -/
def bytes (w : UInt64) (count : Nat) : List UInt8 :=
  (List.range count).map fun i => UInt8.ofNat (w.toNat >>> (8 * i))

/-- The word whose low bytes, the lowest first, are given. -/
def ofBytes : List UInt8 → UInt64
  | [] => 0
  | b :: rest => UInt64.ofNat b.toNat + 256 * ofBytes rest

/-- Hexadecimal digits, without leading zeros. -/
def hex (w : UInt64) : String := String.ofList (Nat.toDigits 16 w.toNat)

/-- The signed reading in decimal. -/
def signedText (w : UInt64) : String := toString w.toInt64.toInt

end Comptime.Word
