import Comptime.Analysis.Conversion
import Comptime.Proofs.Type.Proper

/-!
# The types of literals

Numbers, truth values and `null` have one of six types, and so has whatever operators make of them. All
that conversions and operators ask about such a type follows from its entry in the table.
-/

namespace Comptime

/-- The types of literals and of what operators make of them. -/
inductive Ground where
  | bool | s32 | s64 | u64 | f64 | null

namespace Ground

def ty : Ground → TypeId
  | bool => .bool
  | s32 => .s32
  | s64 => .s64
  | u64 => .u64
  | f64 => .f64
  | null => .null

def kind : Ground → TypeKind
  | bool => .bool
  | s32 => .int 32 true
  | s64 => .int 64 true
  | u64 => .int 64 false
  | f64 => .real 64
  | null => .null

/-- Width and sign of the integers. -/
def info : Ground → Option (Nat × Bool)
  | s32 => some (32, true)
  | s64 => some (64, true)
  | u64 => some (64, false)
  | _ => none

def isReal : Ground → Bool
  | f64 => true
  | _ => false

/-- The value into which a word is cast that stands for an integer with or without a sign. -/
def ofWord (signed : Bool) (w : UInt64) : Ground → Value
  | s32 => .ofRaw w 32 true
  | s64 => .ofRaw w 64 true
  | u64 => .ofRaw w 64 false
  | _ => .f64 (UInt64.ofNat (Binary.double.ofInt (Word.toInt w signed)))

theorem ty_injective {g g' : Ground} (h : g.ty = g'.ty) : g = g' := by
  cases g <;> cases g' <;> first | rfl | exact absurd h (by decide)

variable {t : TypeTable} {g g' : Ground} (h : t.kind g.ty = g.kind)

include h

theorem intInfo_ty : t.intInfo g.ty = g.info := by
  rw [TypeTable.intInfo, TypeTable.intInfoAt, h]
  cases g <;> rfl

theorem isInt_ty : t.isInt g.ty = g.info.isSome := by
  rw [TypeTable.isInt, h]
  cases g <;> rfl

theorem isReal_ty : t.isReal g.ty = g.isReal := by
  rw [TypeTable.isReal, h]
  cases g <;> rfl

theorem plainInt_ty : t.plainInt g.ty = g.info := by
  rw [TypeTable.plainInt, isInt_ty h, intInfo_ty h]
  cases g <;> rfl

variable (h' : t.kind g'.ty = g'.kind) (hne : g ≠ g')

include h' hne

/-- Only one of the types is converted into another implicitly. -/
theorem conversionRank_ty : (t.conversionRank g.ty g'.ty).isSome ↔ g = s32 ∧ g' = s64 := by
  rw [TypeTable.conversionRank, if_neg fun heq => hne (ty_injective heq), h, h']
  constructor
  · intro hr
    cases g <;> cases g' <;> first | exact ⟨rfl, rfl⟩ | cases hr
  · rintro ⟨rfl, rfl⟩
    rfl

/-- An integer is cast into every type of numbers. -/
theorem castOp_ty {bits : Nat} {signed : Bool} (hg : g.info = some (bits, signed))
    (hnumber : g'.info.isSome ∨ g' = .f64) : ∃ cast, t.castOp g.ty g'.ty = some cast ∧
      ∀ w, cast.eval t g'.ty (.int w) = .ok (g'.ofWord signed w) := by
  rw [TypeTable.castOp, if_neg fun heq => hne (ty_injective heq), intInfo_ty h, intInfo_ty h', hg, h, h']
  rcases hnumber with hint | rfl
  · have hword (w : UInt64) : CastOp.toInteger t g'.ty w = .ok (g'.ofWord signed w) := by
      rw [CastOp.toInteger, intInfo_ty h']
      cases g' <;> first | rfl | cases hint
    obtain ⟨⟨bits', signed'⟩, hinfo⟩ := Option.isSome_iff_exists.mp hint
    rw [hinfo]
    dsimp only
    split
    · exact ⟨_, rfl, fun w => by cases signed <;> exact hword w⟩
    · split
      · exact ⟨.trunc, rfl, hword⟩
      · have hptr : t.isPtr g'.ty = false := by
          rw [TypeTable.isPtr, h']
          cases g' <;> rfl
        exact ⟨.bitcast, rfl, fun w => by rw [CastOp.eval, if_neg (by simp [hptr])]; exact hword w⟩
  · have hreal (w : UInt64) : CastOp.eval t (if signed then .siToFp else .uiToFp) Ground.f64.ty (.int w) =
        .ok (Ground.f64.ofWord signed w) := by
      cases signed <;>
        simp only [CastOp.eval, CastOp.toReal, CastOp.integerOperand, h', bind, Except.bind] <;> rfl
    cases g <;> first | exact ⟨_, rfl, hreal⟩ | cases hg

end Ground

end Comptime
