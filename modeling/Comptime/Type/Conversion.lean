import Comptime.Type.Table

/-!
# Conversions

An implicit conversion keeps every value: an integer goes to a wider type that can hold it, a
32-bit real to a 64-bit one, null to any pointer and any pointer to a pointer to bytes. Everything
else needs an explicit cast, for which `TypeTable.castOp` names the operation.
-/

namespace Comptime

/-- How good an implicit conversion is; the lesser cost is better. -/
inductive Rank where
  | identity | widening | pointer
deriving DecidableEq, Repr

/-- The cost of a conversion in the choice between overloads. -/
def Rank.cost : Rank → Nat
  | identity => 0
  | widening => 1
  | pointer => 2

/-- What a cast does to the value. -/
inductive CastOp where
  /-- Nothing at all. -/
  | keep
  | bitcast | sext | zext | trunc | fpTrunc | fpExt | fpToSi | fpToUi | siToFp | uiToFp
  | ptrToInt | intToPtr | ptrToBool | intToBool
deriving DecidableEq, Repr

/-- The name of a cast in listings. -/
def CastOp.name : CastOp → String
  | keep => "None"
  | bitcast => "Bitcast"
  | sext => "Sext"
  | zext => "Zext"
  | trunc => "Trunc"
  | fpTrunc => "FpTrunc"
  | fpExt => "FpExt"
  | fpToSi => "FpToSi"
  | fpToUi => "FpToUi"
  | siToFp => "SiToFp"
  | uiToFp => "UiToFp"
  | ptrToInt => "PtrToInt"
  | intToPtr => "IntToPtr"
  | ptrToBool => "PtrToBool"
  | intToBool => "IntToBool"

/-- Every cast. -/
def CastOp.all : List CastOp :=
  [keep, bitcast, sext, zext, trunc, fpTrunc, fpExt, fpToSi, fpToUi, siToFp, uiToFp, ptrToInt,
    intToPtr, ptrToBool, intToBool]

namespace TypeTable

/-- The rank of the implicit conversion, if there is one. -/
def conversionRank (t : TypeTable) (source target : TypeId) : Option Rank :=
  if source = target then some .identity
  else
    match t.kind source, t.kind target with
    | .int sb ss, .int tb ts =>
      if sb < tb ∧ (ss = ts ∨ (ss = false ∧ ts = true)) then some .widening else none
    | .real sb, .real tb => if sb = 32 ∧ tb = 64 then some .widening else none
    | .null, .ptr _ => some .pointer
    | .ptr _, .ptr inner => if inner = .u8 then some .pointer else none
    | _, _ => none

/-- The type that both operands of an operator take, if one converts into the other. -/
def commonType (t : TypeTable) (a b : TypeId) : Option TypeId :=
  if a = b then some a
  else if (t.conversionRank a b).isSome then some b
  else if (t.conversionRank b a).isSome then some a
  else none

/-- The operation of an explicit cast, if there is one. An enum counts as its base. -/
def castOp (t : TypeTable) (source target : TypeId) : Option CastOp :=
  if source = target then some .keep
  else
    match t.intInfo source, t.intInfo target with
    | some (sb, ss), some (tb, _) =>
      if sb < tb then some (if ss then .sext else .zext)
      else if tb < sb then some .trunc
      else some .bitcast
    | sourceInt, targetInt =>
      match t.kind source, t.kind target, sourceInt, targetInt with
      | .bool, _, _, some _ => some .zext
      | _, .bool, some _, _ => some .intToBool
      | .real sb, .real tb, _, _ => some (if sb < tb then .fpExt else .fpTrunc)
      | .real _, _, _, some (_, ts) => some (if ts then .fpToSi else .fpToUi)
      | _, .real _, some (_, ss), _ => some (if ss then .siToFp else .uiToFp)
      | .ptr _, .ptr _, _, _ => some .bitcast
      | .null, .ptr _, _, _ => some .bitcast
      | .ptr _, .bool, _, _ => some .ptrToBool
      | .ptr _, _, _, some _ => some .ptrToInt
      | _, .ptr _, some _, _ => some .intToPtr
      | _, _, _, _ => none

end TypeTable

end Comptime
