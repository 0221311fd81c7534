import Comptime.Proofs.Arithmetic.Lowering
import Comptime.Proofs.Overload.Coercion
import Comptime.Session.Basic

/-!
# Written integers fit or are refused

An integer is written as digits or as a minus before digits. It is first given a type of its own, by its
size, then negated at this type, and only then is it checked against the type that is expected.

Main result: `Lower.written_accepted_iff`. The detour shows at `-9223372036854775808` and below: digits
from `9223372036854775808` on are of type `u64`, where the minus wraps around.
-/

namespace Comptime

/-- The node is the integer, written as digits or as a minus before digits. -/
inductive Ast.WritesInt (a : Ast) : NodeId → Int → Prop
  | digits {n : NodeId} {value : UInt64} {span : Span} (node : a.node n = ⟨.intLit value, span⟩) :
    WritesInt a n value.toNat
  | minus {n m : NodeId} {value : UInt64} {span inner : Span} (node : a.node n = ⟨.unary .neg m, span⟩)
    (operand : a.node m = ⟨.intLit value, inner⟩) : WritesInt a n (-value.toNat)

namespace Word

variable {bits : Nat} {signed : Bool} {w : UInt64} {n : Int}

theorem inRange_iff : inRange n bits signed = true ↔ Within n bits signed := by
  unfold inRange range Within
  cases signed <;> simp only [Nat.one_shiftLeft, Bool.and_eq_true, decide_eq_true_iff] <;> grind

theorem ofInt_emod (n : Int) : ((ofInt n).toNat : Int) = n % (2 ^ 64 : Nat) := by
  rw [ofInt, UInt64.toNat_ofNat']
  omega

theorem ofInt_of_toInt (h : toInt w signed = n) : ofInt n = w := by
  have hmod : ((ofInt n).toNat : Int) = w.toNat := by rw [ofInt_emod, ← h, toInt_emod]
  exact UInt64.toNat_inj.mp (Int.ofNat_inj.mp hmod)

theorem toInt_of_lt (h : w.toNat < 2 ^ 63) : toInt w signed = w.toNat := by
  cases signed with
  | false => rfl
  | true =>
    have hmod := toInt_emod w true
    have hself : Holds w (toInt w true) 64 true := holds_self (by decide) (by decide) (canonical_full w true)
    have hbounds := hself.bounds (by decide)
    simp only [Within, if_true] at hbounds
    omega

theorem toInt_canonical_ofInt (hb : 0 < bits) (hle : bits ≤ 64) (h : Within n bits signed) :
    toInt (canonical (ofInt n) bits signed) signed = n := by
  have hholds : Holds (canonical (ofInt n) bits signed) n bits signed := by
    refine holds_canonical hb hle (emod_of_full hle ?_) signed
    rw [ofInt_emod, Int.emod_emod_of_dvd _ (Int.dvd_refl _)]
  exact hholds.value.trans (wrap_of_within hb h)

end Word

/-- The operand is an integer of a width as it is written in the program. -/
structure Operand.Writes (t : TypeTable) (op : Operand) (n : Int) (bits : Nat) (signed : Bool) : Prop where
  literal : op.literal = true
  kind : t.kind op.ty = .int bits signed
  pos : 0 < bits
  le : bits ≤ 64
  word : ∃ w, op.kind = .const (.int w) ∧ Word.canonical w bits signed = w ∧ Word.toInt w signed = n

namespace Lower

variable {c : Context} {t : Tables} {d : Draft} {op : Operand} {n : Int} {sb bits : Nat} {ss signed : Bool}
  {target : TypeId} {node : NodeId}

/-- The operand is the constant of an integer in its canonical form. -/
structure Canonical (op : Operand) (n : Int) (target : TypeId) (bits : Nat) (signed : Bool) : Prop where
  typed : op.ty = target
  kind : op.kind = .const (.int (Word.canonical (Word.ofInt n) bits signed))
  value : Word.toInt (Word.canonical (Word.ofInt n) bits signed) signed = n

/-- The diagnostic for an integer that does not fit. -/
def unfit (t : TypeTable) (n : Int) (target : TypeId) (span : Span) : Diagnostic :=
  .error .type ("literal `" ++ toString n ++ "` does not fit in " ++ ("`" ++ t.name target ++ "`")) span

/-- A written integer is accepted if it is one of those of the expected type, and refused otherwise. -/
abbrev Checks (x : Lower Operand) (c : Context) (t : Tables) (d : Draft) (n : Int) (target : TypeId) (bits : Nat)
    (signed : Bool) : Prop :=
  Yields x c t d (fun op d' => d' = d ∧ Word.Within n bits signed ∧ Canonical op n target bits signed)
    fun e => ¬Word.Within n bits signed ∧ ∃ span, e = .error (unfit t.types n target span)

theorem adapt_checks (written : op.Writes t.types n sb ss) (htarget : t.types.kind target = .int bits signed)
    (hb : 0 < bits) (hle : bits ≤ 64) :
    Yields (adapt op target) c t d (fun r d' => d' = d ∧ Word.Within n bits signed ∧
        ∃ adapted, r = some adapted ∧ Canonical adapted n target bits signed)
      fun e => ¬Word.Within n bits signed ∧ ∃ span, e = .error (unfit t.types n target span) := by
  obtain ⟨w, hkind, -, hvalue⟩ := written.word
  have hint : t.types.isInt op.ty = true := TypeTable.isInt_iff.mpr ⟨_, _, written.kind⟩
  have hplain : t.types.plainInt target = some (bits, signed) := by
    simp only [TypeTable.plainInt, TypeTable.isInt_iff.mpr ⟨_, _, htarget⟩, if_true, TypeTable.intInfo_int htarget]
  have hexact : t.types.exact op.ty w = n := by
    simp only [TypeTable.exact, TypeTable.intInfo_int written.kind, Option.map_some, Option.getD_some, hvalue]
  unfold adapt
  refine .reads Analysis.types_reads ?_
  simp only [hplain, hint, hkind, hexact, Option.isNone_some, Bool.false_and, Bool.not_true, Bool.and_false,
    Bool.or_self, Bool.false_eq_true, if_false]
  by_cases hin : Word.Within n bits signed
  · rw [if_pos (Word.inRange_iff.mpr hin)]
    exact .pure ⟨rfl, hin, _, rfl, rfl, rfl, Word.toInt_canonical_ofInt hb hle hin⟩
  · rw [if_neg (mt Word.inRange_iff.mp hin)]
    exact .reads (Analysis.quoted_reads target) (.throw ⟨hin, _, rfl⟩)

theorem Canonical.of_writes (written : op.Writes t.types n bits signed) :
    Word.Within n bits signed ∧ Canonical op n op.ty bits signed := by
  obtain ⟨w, hkind, hform, hvalue⟩ := written.word
  have hword : Word.canonical (Word.ofInt n) bits signed = w := by rw [Word.ofInt_of_toInt hvalue, hform]
  refine ⟨?_, rfl, by rw [hword, hkind], by rw [hword, hvalue]⟩
  have hbounds := (Word.holds_self written.pos written.le hform).bounds written.pos
  rwa [hvalue] at hbounds

theorem coerce_checks (written : op.Writes t.types n sb ss) (htarget : t.types.kind target = .int bits signed)
    (hb : 0 < bits) (hle : bits ≤ 64) : Checks (coerce op target) c t d n target bits signed := by
  obtain ⟨w, hkind, -, -⟩ := written.word
  simp only [Checks, coerce, rvalue, hkind, pure_bind]
  unfold coerceValue
  by_cases hty : op.ty = target
  · rw [if_pos hty]
    subst hty
    obtain ⟨rfl, rfl⟩ := TypeKind.int.inj (written.kind.symm.trans htarget)
    obtain ⟨hin, hcanonical⟩ := Canonical.of_writes written
    exact .pure ⟨rfl, hin, hcanonical⟩
  · rw [if_neg hty, if_pos written.literal]
    refine (adapt_checks written htarget hb hle).bind ?_
    rintro r d' ⟨rfl, hin, adapted, rfl, hcanonical⟩
    exact .pure ⟨rfl, hin, hcanonical⟩

/-! ## The type of a written integer -/

def taken (n : Int) : Int := if -(2 ^ 63 : Nat) < n then n else n + (2 ^ 64 : Nat)

theorem taken_natCast (n : Nat) : taken n = n := if_pos (by omega)

theorem intLiteral_writes (predefined : TypeTable.initial.Grows t.types) (value : UInt64) (span) :
    ∃ bits signed, (intLiteral value span).Writes t.types value.toNat bits signed ∧
      (signed = true ∨ signed = false ∧ bits = 64 ∧ 2 ^ 63 ≤ value.toNat) := by
  unfold intLiteral Operand.number
  by_cases hs32 : value.toNat < 0x80000000
  · have hform : Word.canonical value 32 true = value := Word.canonical_of_lt (by decide) hs32
    simp only [if_pos hs32]
    have hkind : t.types.kind .s32 = .int 32 true := predefined.kind (by decide)
    exact ⟨32, true, ⟨rfl, hkind, by decide, by decide, value, rfl, hform, Word.toInt_of_lt (by omega)⟩, .inl rfl⟩
  by_cases hs64 : value.toNat < 0x8000000000000000
  · simp only [if_neg hs32, if_pos hs64]
    have hkind : t.types.kind .s64 = .int 64 true := predefined.kind (by decide)
    exact ⟨64, true, ⟨rfl, hkind, by decide, by decide, value, rfl, rfl, Word.toInt_of_lt hs64⟩, .inl rfl⟩
  · simp only [if_neg hs32, if_neg hs64]
    have hkind : t.types.kind .u64 = .int 64 false := predefined.kind (by decide)
    exact ⟨64, false, ⟨rfl, hkind, by decide, by decide, value, rfl, rfl, rfl⟩,
      .inr ⟨rfl, rfl, Nat.le_of_not_lt hs64⟩⟩

theorem unary_neg_writes (fold : c.config.foldConstants = true) {value : UInt64}
    (written : op.Writes t.types value.toNat bits signed)
    (hsign : signed = true ∨ signed = false ∧ bits = 64 ∧ 2 ^ 63 ≤ value.toNat) (span) :
    Yields (unary .neg op span) c t d
      (fun o d' => d' = d ∧ o.Writes t.types (taken (-value.toNat)) bits signed) fun _ => False := by
  obtain ⟨w, hkind, hform, hvalue⟩ := written.word
  have hinfo := TypeTable.intInfo_int written.kind
  have hallowed : t.types.allowsUnary .neg op.ty = true := by
    simp [TypeTable.allowsUnary, TypeTable.isNumeric, TypeTable.isInt_iff.mpr ⟨_, _, written.kind⟩]
  have hneg : UnaryOp.neg ≠ .not := by decide
  obtain ⟨r, heval, hholds⟩ := UnaryOp.eval_holds written.pos written.le hinfo hform hneg
  have hbounds := (Word.holds_self written.pos written.le hform).bounds written.pos
  rw [hvalue] at hholds hbounds
  have htaken : Word.toInt r signed = taken (-value.toNat) := by
    rw [hholds.value, taken]
    rcases hsign with rfl | ⟨rfl, rfl, hlarge⟩
    · have hpow : 2 ^ (bits - 1) ≤ 2 ^ 63 := Nat.pow_le_pow_right (by decide) (by have := written.le; omega)
      simp only [Word.Within, if_true] at hbounds
      rw [Word.wrap_of_within written.pos (by simp only [Word.Within, if_true, UnaryOp.exact]; omega), if_pos (by omega)]
      rfl
    · have hlt := value.toNat_lt
      rw [if_neg (by omega)]
      show -(value.toNat : Int) % (2 ^ 64 : Nat) = _
      omega
  simp only [unary, rvalue, hkind, pure_bind]
  refine .reads Analysis.types_reads ?_
  simp only [hallowed, if_true]
  refine .reads Analysis.folding_reads ?_
  simp only [Operand.const?, hkind, fold]
  rw [orTrapAt_ok heval]
  exact .pure ⟨rfl, written.literal, written.kind, written.pos, written.le, r, rfl, hholds.form, htaken⟩

/-- An integer literal, which is digits or a minus before digits, where an integer type is expected and
constants are folded. It is accepted if the integer is one of those of the type, and then gives the constant
in its canonical form; otherwise it is refused with a diagnostic that names the integer and the type. The
integer is the one that is written, unless this is `-9223372036854775808` or below. -/
theorem written_accepted_iff (predefined : TypeTable.initial.Grows t.types) (fold : c.config.foldConstants = true)
    (hwritten : c.ast.WritesInt node n) (htarget : t.types.kind target = .int bits signed)
    (width : bits = 8 ∨ bits = 16 ∨ bits = 32 ∨ bits = 64) (depth : Nat) (scope : ScopeId) :
    Checks ((Analysis.walk (depth + 2)).expr scope node >>= fun op => coerce op target) c t d (taken n) target
      bits signed := by
  have hb : 0 < bits := by omega
  have hle : bits ≤ 64 := by omega
  cases hwritten with
  | @digits value span hnode =>
    rw [walk_expr (by omega), taken_natCast]
    refine .bind (P := fun op d' => d' = d ∧ ∃ sb ss, op.Writes t.types value.toNat sb ss) ?_ ?_
    · refine .reads (Analysis.node_reads node) ?_
      rw [hnode]
      obtain ⟨sb, ss, hop, -⟩ := intLiteral_writes predefined value span
      exact .pure ⟨rfl, sb, ss, hop⟩
    · rintro op d' ⟨rfl, sb, ss, hop⟩
      exact coerce_checks hop htarget hb hle
  | @minus m value span inner hnode hoperand =>
    rw [walk_expr (by omega)]
    refine .bind (P := fun op d' => d' = d ∧ ∃ sb ss, op.Writes t.types (taken (-value.toNat)) sb ss) ?_ ?_
    · refine .reads (Analysis.node_reads node) ?_
      rw [hnode]
      dsimp only
      rw [walk_expr (by omega)]
      obtain ⟨sb, ss, hop, hsign⟩ := intLiteral_writes predefined value inner
      refine .bind (P := fun op d' => d' = d ∧ op.Writes t.types value.toNat sb ss) ?_ ?_
      · refine .reads (Analysis.node_reads m) ?_
        rw [hoperand]
        exact .pure ⟨rfl, hop⟩
      · rintro op d' ⟨rfl, hop⟩
        refine (unary_neg_writes fold hop hsign _).imp ?_ fun _ h => h.elim
        rintro o d' ⟨rfl, ho⟩
        exact ⟨rfl, sb, ss, ho⟩
    · rintro op d' ⟨rfl, sb, ss, hop⟩
      exact coerce_checks hop htarget hb hle

/-- A minus before digits. -/
def minusDigits (value : UInt64) : Context :=
  ⟨.default, .none, ⟨#[⟨.intLit value, .dummy⟩, ⟨.unary .neg 0, .dummy⟩]⟩, 0, none⟩

/-- The least integer of eight bits is accepted. -/
theorem written_accepted_iff_least_byte :
    Checks ((Analysis.walk 2).expr 0 1 >>= fun op => coerce op .s8) (minusDigits 128) Tables.initial
      (.scratch .dummy) (taken (-128)) .s8 8 true ∧ Word.Within (taken (-128)) 8 true :=
  have written : (minusDigits 128).ast.WritesInt 1 (-128) :=
    @Ast.WritesInt.minus _ _ 0 128 .dummy .dummy rfl rfl
  ⟨written_accepted_iff (.refl _) rfl written rfl (.inl rfl) 0 0, by decide⟩

/-- The least integer of 64 bits is refused, and `-18446744073709551615` is accepted as the byte `1`. -/
theorem least_refused :
    Word.Within (-9223372036854775808) 64 true ∧
    ((Analysis.walk 2).expr 0 1 >>= fun op => coerce op .s64) (.scratch .dummy)
      (minusDigits 9223372036854775808) Tables.initial =
      .error (.error (.error .type "literal `9223372036854775808` does not fit in `s64`" .dummy)) Tables.initial ∧
    ¬Word.Within (-18446744073709551615) 8 false ∧
    ((Analysis.walk 2).expr 0 1 >>= fun op => coerce op .u8) (.scratch .dummy)
      (minusDigits 18446744073709551615) Tables.initial =
      .ok (.number (.int 1) .u8 .dummy, .scratch .dummy) Tables.initial :=
  ⟨by decide, by rfl, by decide, by rfl⟩

end Lower

end Comptime
