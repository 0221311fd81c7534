import Comptime.Id
import Comptime.Word
import Comptime.Binary.Decimal
import Comptime.Binary.Arithmetic

/-!
# Values

A value is what a constant of the code holds and what a register of the machine holds. Integers
are canonical words, reals are bit patterns, so equal values have equal representations.
-/

namespace Comptime

open Binary (Style)

/-- A value known at compile time. -/
inductive Value where
  | void
  | bool (b : Bool)
  /-- An integer of some type, in canonical form. -/
  | int (word : UInt64)
  | f32 (bits : UInt32)
  | f64 (bits : UInt64)
  /-- An address; zero is null. -/
  | ptr (addr : UInt64)
  | fn (id : FnId)
  | type (id : TypeId)
  /-- The members of a struct, the elements of an array, or length and pointer of a slice. -/
  | agg (items : List Value)
deriving Repr, Inhabited

namespace Value

/-- The integer of a width whose low bits are those of `raw`. -/
def ofRaw (raw : UInt64) (bits : Nat) (signed : Bool) : Value :=
  .int (Word.canonical raw bits signed)

def asBool : Value → Option Bool
  | .bool b => some b
  | _ => none

/-- The word of an integer, a pointer or a truth value. -/
def asBits : Value → Option UInt64
  | .int w => some w
  | .ptr a => some a
  | .bool b => some (if b then 1 else 0)
  | _ => none

/-- The word read as a signed integer. -/
def asSigned (v : Value) : Option Int64 := v.asBits.map UInt64.toInt64

/-- The bit pattern of a 32-bit real in the 64-bit format. -/
def widen (bits : UInt32) : UInt64 :=
  UInt64.ofNat (Binary.single.convert Binary.double bits.toNat)

/-- The 64-bit pattern of a real. -/
def asReal : Value → Option UInt64
  | .f32 bits => some (widen bits)
  | .f64 bits => some bits
  | _ => none

def asType : Value → Option TypeId
  | .type ty => some ty
  | _ => none

mutual
/-- The text of a value in messages. -/
def text : Value → String
  | .void => "void"
  | .bool b => if b then "true" else "false"
  | .int w => Word.signedText w
  | .f32 bits => Binary.single.text Style.plain bits.toNat
  | .f64 bits => Binary.double.text Style.plain bits.toNat
  | .ptr a => if a = 0 then "null" else "0x" ++ Word.hex a
  | .fn id => id.text
  | .type ty => ty.text
  | .agg items => textItems "\x7b" "" items ++ "\x7d"

/-- Append the texts of items to `acc`, the first one behind `gap` and a comma between two. -/
def textItems (acc gap : String) : List Value → String
  | [] => acc
  | v :: rest => textItems (acc ++ gap ++ v.text) ", " rest
end

mutual
/-- The text of a value in code listings. -/
def listing : Value → String
  | .void => "Void"
  | .bool b => if b then "Bool(true)" else "Bool(false)"
  | .int w => "Int(" ++ toString w.toNat ++ ")"
  | .f32 bits => "F32(" ++ Binary.single.text Style.listing bits.toNat ++ ")"
  | .f64 bits => "F64(" ++ Binary.double.text Style.listing bits.toNat ++ ")"
  | .ptr a => "Ptr(" ++ toString a.toNat ++ ")"
  | .fn id => "Fn(" ++ id.listing ++ ")"
  | .type ty => "Type(" ++ ty.listing ++ ")"
  | .agg items => listingItems "Aggregate([" "" items ++ "])"

/-- Append the listing forms of items to `acc`, as in `textItems`. -/
def listingItems (acc gap : String) : List Value → String
  | [] => acc
  | v :: rest => listingItems (acc ++ gap ++ v.listing) ", " rest
end

end Value

end Comptime
