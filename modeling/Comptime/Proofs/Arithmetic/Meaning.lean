import Comptime.Proofs.Arithmetic.Expression
import Comptime.Proofs.Type.Ground

/-!
# The meaning of numeric expressions

An expression has a quantity: an integer of 32 or 64 bits, a real, or a type if it is the name of one.
The rules are those of the language. A number that is written in the program takes the type of the
other operand if it fits; any other number is only widened. Whether a number counts as written, and
whether its size is checked, depends on whether operators on constants are computed during analysis
(`fold`) or by code that is executed afterwards, so `fold` is a parameter of the meaning.

Traps are part of a quantity: an expression that divides by zero has a type all the same.
-/

namespace Comptime

theorem Word.inRange_toInt (w) : Word.inRange (Word.toInt w true) 64 true = true := by
  have hlow := BitVec.le_toInt w.toBitVec
  have hhigh := Int.le_sub_one_of_lt (BitVec.toInt_lt (x := w.toBitVec))
  simp only [Word.inRange, Word.range, Word.toInt, if_true, Bool.and_eq_true, decide_eq_true_eq]
  exact ⟨hlow, hhigh⟩

/-- The types of the numbers in expressions. -/
inductive Scalar where
  | s32 | s64 | f64
deriving DecidableEq, Repr

namespace Scalar

def ground : Scalar → Ground
  | s32 => .s32
  | s64 => .s64
  | f64 => .f64

def ty (s : Scalar) : TypeId := s.ground.ty

def isReal : Scalar → Bool
  | f64 => true
  | _ => false

def bits : Scalar → Nat
  | s32 => 32
  | s64 | f64 => 64

/-- The value that a word stands for. -/
def value : Scalar → UInt64 → Value
  | f64, w => .f64 w
  | _, w => .int w

/-- The type that holds the values of both. -/
def common : Scalar → Scalar → Option Scalar
  | s32, s32 => some s32
  | f64, f64 => some f64
  | f64, _ | _, f64 => none
  | _, _ => some s64

/-- The type into which an integer that is cast is brought. -/
def cast : Scalar → UInt64 → UInt64
  | f64, w => UInt64.ofNat (Binary.double.ofInt (Word.toInt w true))
  | s, w => Word.canonical w s.bits true

/-- An operator that applies to integers applies to numbers of the type. -/
def allowsBinary : Scalar → BinaryOp → Bool
  | f64, .add | f64, .sub | f64, .mul | f64, .div | f64, .mod => true
  | f64, _ => false
  | _, _ => true

/-- An operator applies to numbers of the type. -/
def allowsUnary : Scalar → UnaryOp → Bool
  | _, .not | f64, .bitNot => false
  | _, _ => true

/-- The word that an operator gives for two others of a type. -/
def combine (op : BinaryOp) : Scalar → UInt64 → UInt64 → Except TrapKind UInt64
  | f64, a, b => (op.onReals Binary.double a.toNat b.toNat).map UInt64.ofNat
  | s, a, b => op.onWords s.bits true a b

/-- The word that an operator gives for another one of a type. -/
def change : UnaryOp → Scalar → UInt64 → UInt64
  | .neg, f64, a => UInt64.ofNat (Binary.double.negate a.toNat)
  | .neg, s, a => Word.canonical (-a) s.bits true
  | .bitNot, s, a => Word.canonical (~~~a) s.bits true
  | _, _, a => a

end Scalar

/-- What a name stands for in an expression. -/
inductive Constant where
  | number (scalar : Scalar) (word : UInt64)
  | type (ty : TypeId)
deriving DecidableEq, Repr

namespace Constant

def ty : Constant → TypeId
  | number scalar _ => scalar.ty
  | type _ => .type

def value : Constant → Value
  | number scalar word => scalar.value word
  | type ty => .type ty

end Constant

/-- A number, as far as the rules of the language tell numbers apart. -/
structure Number where
  scalar : Scalar
  /-- It counts as written in the program and may still take another type. -/
  literal : Bool
  /-- Analysis knows its word. -/
  known : Bool
  word : Except Trap UInt64

namespace Number

variable {fold : Bool} {n : Number}

/-- An integer that has been written. -/
def written (value : UInt64) : Number :=
  ⟨if value.toNat < 0x80000000 then .s32 else .s64, true, true, .ok value⟩

def writtenReal (bits : UInt64) : Number := ⟨.f64, true, true, .ok bits⟩

/-- Nothing is known against giving a number that was written another type. -/
def fits (n : Number) (target : Scalar) : Bool :=
  target.isReal || (!n.scalar.isReal &&
    match n.known, n.word with
    | true, .ok w => Word.inRange (Word.toInt w true) target.bits true
    | _, _ => true)

/-- The number that a cast makes of an integer. -/
def cast (n : Number) (target : Scalar) (literal known : Bool) : Number :=
  ⟨target, literal, known, n.word.map target.cast⟩

/-- Give a number another type. A number that was written must fit, any other one is only widened. -/
def convert (fold : Bool) (n : Number) (target : Scalar) : Option Number :=
  if n.scalar = target then some n
  else if n.literal then
    if n.fits target then some (n.cast target n.known n.known) else none
  else if n.scalar = .s32 ∧ target = .s64 then some (n.cast target false (n.known && fold))
  else none

/-- The type in which two numbers meet. An integer and a real, both written, meet in the reals. -/
def meet (l r : Number) : Option Scalar :=
  match l.literal, r.literal with
  | true, false => some r.scalar
  | false, true => some l.scalar
  | true, true => some ((l.scalar.common r.scalar).getD .f64)
  | false, false => l.scalar.common r.scalar

/-- The word that an operator gives for two others, each of which may be missing. -/
def combine (op : BinaryOp) (scalar : Scalar) (span : Span) (a b : Except Trap UInt64) :
    Except Trap UInt64 := do
  let a ← a
  let b ← b
  (scalar.combine op a b).mapError fun kind => ⟨kind, span⟩

/-- Apply an operator to two numbers. -/
def binary (fold : Bool) (op : BinaryOp) (l r : Number) (span : Span) : Option Number := do
  let scalar ← l.meet r
  let l ← l.convert fold scalar
  let r ← r.convert fold scalar
  if scalar.allowsBinary op then
    some ⟨scalar, l.literal && r.literal, fold && l.known && r.known,
      combine op scalar span l.word r.word⟩
  else none

/-- Apply an operator to a number. -/
def unary (fold : Bool) (op : UnaryOp) (n : Number) : Option Number :=
  if n.scalar.allowsUnary op then
    some ⟨n.scalar, n.literal, fold && n.known, n.word.map (Scalar.change op n.scalar)⟩
  else none

@[simp] theorem convert_scalar (fold) (n : Number) : n.convert fold n.scalar = some n :=
  if_pos rfl

theorem scalar_of_convert {n' target} (h : n.convert fold target = some n') : n'.scalar = target := by
  unfold convert at h
  split at h
  · next hs =>
    cases h
    exact hs
  · split at h <;> split at h <;> cases h <;> rfl

private theorem word_of_convert {n' target} (h : n.convert fold target = some n') : ∃ f, n'.word = n.word.map f := by
  unfold convert at h
  split at h
  · cases h
    exact ⟨id, by cases n.word <;> rfl⟩
  · split at h <;> split at h <;> cases h <;> exact ⟨_, rfl⟩

theorem binary_eq_some {op l r span} :
    binary fold op l r span = some n ↔ ∃ s l' r', l.meet r = some s ∧ l.convert fold s = some l' ∧
      r.convert fold s = some r' ∧ s.allowsBinary op = true ∧
      n = ⟨s, l'.literal && r'.literal, fold && l'.known && r'.known, combine op s span l'.word r'.word⟩ := by
  simp only [binary, Option.bind_eq_bind, Option.bind_eq_some_iff, Option.ite_none_right_eq_some, Option.some.injEq]
  constructor
  · rintro ⟨s, hs, l', hl, r', hr, hop, rfl⟩
    exact ⟨s, l', r', hs, hl, hr, hop, rfl⟩
  · rintro ⟨s, l', r', hs, hl, hr, hop, rfl⟩
    exact ⟨s, hs, l', hl, r', hr, hop, rfl⟩

theorem unary_eq_some {op m} : n.unary fold op = some m ↔ n.scalar.allowsUnary op = true ∧
      m = ⟨n.scalar, n.literal, fold && n.known, n.word.map (Scalar.change op n.scalar)⟩ := by
  simp only [unary, Option.ite_none_right_eq_some, Option.some.injEq, eq_comm (a := m)]

theorem word_of_binary {op l r span} (h : binary fold op l r span = some n) :
    ∃ s f g, s.allowsBinary op = true ∧ n.word = combine op s span (l.word.map f) (r.word.map g) := by
  obtain ⟨s, l', r', -, hl, hr, hop, rfl⟩ := binary_eq_some.mp h
  obtain ⟨f, hf⟩ := word_of_convert hl
  obtain ⟨g, hg⟩ := word_of_convert hr
  exact ⟨s, f, g, hop, by rw [hf, hg]⟩

end Number

/-- What an expression comes to. -/
inductive Quantity where
  | number (n : Number)
  | type (ty : TypeId)

namespace Quantity

/-- What a name stands for, as the quantity of an expression. -/
def ofConstant : Constant → Quantity
  | .number scalar word => .number ⟨scalar, false, true, .ok word⟩
  | .type ty => .type ty

/-- The constant that a quantity is, unless it traps. -/
def constant? : Quantity → Option Constant
  | number n => n.word.toOption.map (.number n.scalar)
  | type ty => some (.type ty)

end Quantity

namespace Arith

variable {fold : Bool} {env env' : String → Option Constant} {e : Arith} {q : Quantity}

/-- What an expression comes to where names stand for constants; nothing if a rule is broken. -/
def eval (fold : Bool) (env : String → Option Constant) : Arith → Option Quantity
  | lit value _ _ => some (.number (.written value))
  | real bits _ => some (.number (.writtenReal bits))
  | name x _ => (env x).map .ofConstant
  | unary op e _ => do
    let .number n ← e.eval fold env | none
    return .number (← n.unary fold op)
  | binary op l r span _ => do
    let .number a ← l.eval fold env | none
    let .number b ← r.eval fold env | none
    return .number (← Number.binary fold op a b span)

theorem eval_congr (h : ∀ x ∈ e.names, env x = env' x) : e.eval fold env = e.eval fold env' := by
  induction e with
  | lit | real => rfl
  | name x span => simp only [eval, h x (by simp [names])]
  | unary op e span ih => simp only [eval, ih h]
  | binary op l r span _ ihl ihr =>
    simp only [eval, ihl fun x hx => h x (List.mem_append_left _ hx),
      ihr fun x hx => h x (List.mem_append_right _ hx)]

theorem eval_unary_eq_some {op span} : (unary op e span).eval fold env = some q ↔
      ∃ n m, e.eval fold env = some (.number n) ∧ n.unary fold op = some m ∧ q = .number m := by
  simp only [eval, Option.bind_eq_bind, Option.bind_eq_some_iff]
  constructor
  · rintro ⟨p, hp, h⟩
    cases p with
    | type => cases h
    | number n =>
      obtain ⟨m, hm, h⟩ := Option.bind_eq_some_iff.mp h
      exact ⟨n, m, hp, hm, (Option.some.inj h).symm⟩
  · rintro ⟨n, m, hn, hm, rfl⟩
    exact ⟨_, hn, by simp [hm]⟩

theorem eval_binary_eq_some {op l r span} {hop : op.isArithmetic = true} :
    (binary op l r span hop).eval fold env = some q ↔ ∃ a b n, l.eval fold env = some (.number a) ∧
      r.eval fold env = some (.number b) ∧ Number.binary fold op a b span = some n ∧
      q = .number n := by
  simp only [eval, Option.bind_eq_bind, Option.bind_eq_some_iff]
  constructor
  · rintro ⟨p, hp, h⟩
    cases p with
    | type => cases h
    | number a =>
      obtain ⟨p', hp', h⟩ := Option.bind_eq_some_iff.mp h
      cases p' with
      | type => cases h
      | number b =>
        obtain ⟨n, hn, h⟩ := Option.bind_eq_some_iff.mp h
        exact ⟨a, b, n, hp, hp', hn, (Option.some.inj h).symm⟩
  · rintro ⟨a, b, n, ha, hb, hn, rfl⟩
    exact ⟨_, ha, by simp [hb, hn]⟩

theorem eval_mono (h : ∀ x k, env x = some k → env' x = some k) (he : e.eval fold env = some q) :
    e.eval fold env' = some q := by
  induction e generalizing q with
  | lit | real => exact he
  | name x span =>
    obtain ⟨k, hk, rfl⟩ := Option.map_eq_some_iff.mp he
    simp only [eval, h x k hk, Option.map_some]
  | unary op e span ih =>
    obtain ⟨n, m, hn, hm, rfl⟩ := eval_unary_eq_some.mp he
    exact eval_unary_eq_some.mpr ⟨n, m, ih hn, hm, rfl⟩
  | binary op l r span hop ihl ihr =>
    obtain ⟨a, b, n, ha, hb, hn, rfl⟩ := eval_binary_eq_some.mp he
    exact eval_binary_eq_some.mpr ⟨a, b, n, ihl ha, ihr hb, hn, rfl⟩

theorem known_of_eval {n} (he : e.eval true env = some (.number n)) : n.known = true := by
  have hconvert {m m' : Number} {s : Scalar} (hm : m.known = true)
      (h : m.convert true s = some m') : m'.known = true := by
    unfold Number.convert at h
    split at h
    · cases h
      exact hm
    · split at h <;> split at h <;> cases h <;> simp [Number.cast, hm]
  induction e generalizing n with
  | lit | real =>
    cases he
    rfl
  | name x span =>
    obtain ⟨k, -, hk⟩ := Option.map_eq_some_iff.mp he
    cases k <;> cases hk
    rfl
  | unary op e span ih =>
    obtain ⟨m, m', hm, hop, hn⟩ := eval_unary_eq_some.mp he
    obtain ⟨-, rfl⟩ := Number.unary_eq_some.mp hop
    cases hn
    simp [ih hm]
  | binary op l r span hop ihl ihr =>
    obtain ⟨a, b, m, ha, hb, hm, hn⟩ := eval_binary_eq_some.mp he
    obtain ⟨s, a', b', -, ha', hb', -, rfl⟩ := Number.binary_eq_some.mp hm
    cases hn
    simp [hconvert (ihl ha) ha', hconvert (ihr hb) hb']

end Arith

/-! ## Traps -/

theorem Scalar.combine_trap {op : BinaryOp} {s : Scalar} (h : op.isArithmetic = true) (hop : s.allowsBinary op = true)
    {a b kind} (ht : s.combine op a b = .error kind) : kind = .divideByZero := by
  have hwords {bits : Nat} (ht : op.onWords bits true a b = .error kind) : kind = .divideByZero := by
    cases op with
    | div | mod =>
      by_cases hb : b = 0
      · subst hb
        cases ht
        rfl
      · simp [BinaryOp.onWords, hb, bind, Except.bind, pure, Except.pure] at ht
    | add | sub | mul | bitAnd | bitOr | xor | shl | shr => cases ht
    | eq | neq | greater | less | greaterEq | lessEq | logicAnd | logicOr => cases h
  cases s with
  | s32 | s64 => exact hwords ht
  | f64 =>
    cases op with
    | add | sub | mul | div | mod => cases ht
    | _ => cases hop

namespace Number

def Regular (n : Number) : Prop := ∀ trap, n.word = .error trap → trap.kind = .divideByZero

theorem Regular.unary {n m : Number} (h : n.Regular) {fold : Bool} {op : UnaryOp}
    (hm : n.unary fold op = some m) : m.Regular := by
  obtain ⟨-, rfl⟩ := unary_eq_some.mp hm
  intro trap ht
  cases hw : n.word with
  | ok w => simp [hw, Except.map] at ht
  | error trap' =>
    simp only [hw, Except.map, Except.error.injEq] at ht
    exact h trap (ht ▸ hw)

theorem Regular.binary {l r n : Number} (hl : l.Regular) (hr : r.Regular) {fold : Bool}
    {op : BinaryOp} {span : Span} (hop : op.isArithmetic = true)
    (hb : Number.binary fold op l r span = some n) : n.Regular := by
  obtain ⟨s, f, g, hallowed, hn⟩ := word_of_binary hb
  intro trap ht
  rw [hn] at ht
  cases ha : l.word with
  | error trap' =>
    rw [ha] at ht
    cases ht
    exact hl trap ha
  | ok a =>
    cases hb : r.word with
    | error trap' =>
      rw [ha, hb] at ht
      cases ht
      exact hr trap hb
    | ok b =>
      rw [ha, hb] at ht
      simp only [combine, bind, Except.bind, Except.map] at ht
      cases ho : s.combine op (f a) (g b) with
      | ok w => simp [ho, Except.mapError] at ht
      | error kind =>
        simp only [ho, Except.mapError, Except.error.injEq] at ht
        rw [← ht]
        exact Scalar.combine_trap hop hallowed ho

end Number

theorem Arith.eval_regular {fold} {env : String → Option Constant} {e : Arith} {n : Number}
    (h : e.eval fold env = some (.number n)) : n.Regular := by
  induction e generalizing n with
  | lit | real =>
    cases h
    intro trap ht
    cases ht
  | name x span =>
    simp only [eval, Option.map_eq_some_iff] at h
    obtain ⟨c, -, hc⟩ := h
    cases c <;> cases hc
    intro trap ht
    cases ht
  | unary op e span ih =>
    obtain ⟨m, m', hm, hop, hn⟩ := eval_unary_eq_some.mp h
    cases hn
    exact (ih hm).unary hop
  | binary op l r span hop ihl ihr =>
    obtain ⟨a, b, m, ha, hb, hm, hn⟩ := eval_binary_eq_some.mp h
    cases hn
    exact (ihl ha).binary (ihr hb) hop hm

end Comptime
