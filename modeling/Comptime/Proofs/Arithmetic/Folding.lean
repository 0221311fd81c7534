import Comptime.Proofs.Arithmetic.Meaning

/-!
# Expressions without names, folded and executed

The type and the word of an expression that consists of numbers and operators can be said without
asking how it is computed. Where operators are folded, every such expression has them
(`Arith.eval_folded`). Where they are executed, an expression loses the freedom of a number that was
written as soon as the result of an operator is converted, and some expressions are refused for it
(`Arith.eval_executed`).
-/

namespace Comptime

namespace Scalar

/-- The least type that holds two others. The reals come last. -/
def join : Scalar → Scalar → Scalar
  | f64, _ | _, f64 => f64
  | s32, s32 => s32
  | _, _ => s64

theorem join_comm (a b : Scalar) : a.join b = b.join a := by cases a <;> cases b <;> rfl

theorem join_join (a b : Scalar) : a.join (a.join b) = a.join b := by cases a <;> cases b <;> rfl

/-- The word of a number after it has been given another type. -/
def convert (source target : Scalar) (word : Except Trap UInt64) : Except Trap UInt64 :=
  if source = target then word else word.map target.cast

end Scalar

namespace Number

theorem convert_literal {n : Number} (h : n.literal = true) (fold) {target} (hle : n.scalar.join target = target) :
    n.convert fold target = some ⟨target, if n.scalar = target then true else n.known, n.known,
      n.scalar.convert target n.word⟩ := by
  obtain ⟨scalar, literal, known, word⟩ := n
  subst h
  unfold convert Scalar.convert
  by_cases heq : scalar = target
  · simp [heq]
  · have hfits : fits ⟨scalar, true, known, word⟩ target = true := by
      cases scalar <;> cases target
      case s32.s64 =>
        cases known <;> cases word <;> simp [fits, Scalar.isReal, Scalar.bits, Word.inRange_toInt]
      all_goals first | rfl | exact absurd rfl heq | cases hle
    simp [heq, hfits, cast]

theorem meet_literals {l r : Number} (hl : l.literal = true) (hr : r.literal = true) :
    l.meet r = some (l.scalar.join r.scalar) := by
  rw [meet, hl, hr]
  cases l.scalar <;> cases r.scalar <;> rfl

/-! ## Numbers that are computed by code -/

/-- Code has no constants but those that were written, and results it converts to 64 bits at least. -/
structure Executed (n : Number) : Prop where
  known : n.known = true → n.literal = true
  wide : n.literal = false → n.scalar ≠ .s32

def clash (fixed : Bool) (own other : Scalar) : Bool := fixed && !own.isReal && other.isReal

variable {l r : Number}

theorem Executed.convert (hl : l.Executed) (h : clash (!l.literal) l.scalar r.scalar = false) :
    l.convert false (l.scalar.join r.scalar) = some ⟨l.scalar.join r.scalar,
      l.literal && (l.known || l.scalar == l.scalar.join r.scalar), l.known,
      l.scalar.convert (l.scalar.join r.scalar) l.word⟩ := by
  cases hliteral : l.literal with
  | true =>
    rw [convert_literal hliteral false (Scalar.join_join ..)]
    by_cases hs : l.scalar = l.scalar.join r.scalar
    · rw [if_pos hs, beq_iff_eq.mpr hs, Bool.or_true, Bool.and_true]
    · rw [if_neg hs, beq_eq_false_iff_ne.mpr hs, Bool.or_false, Bool.true_and]
  | false =>
    -- only a real is wider than what has been converted
    have hs : l.scalar.join r.scalar = l.scalar := by
      have hwide := hl.wide hliteral
      rw [hliteral] at h
      revert h hwide
      cases l.scalar <;> cases r.scalar <;> decide
    have hknown : l.known = false := by
      by_contra hknown
      simp [hl.known (Bool.not_eq_false _ |>.mp hknown)] at hliteral
    rw [hs, convert_scalar, Scalar.convert, if_pos rfl]
    simp [← hliteral]

theorem Executed.meet (hl : l.Executed) (hr : r.Executed) (hlr : clash (!l.literal) l.scalar r.scalar = false)
    (hrl : clash (!r.literal) r.scalar l.scalar = false) :
    l.meet r = some (l.scalar.join r.scalar) := by
  have hlw := hl.wide
  have hrw := hr.wide
  revert hlr hrl hlw hrw
  rw [Number.meet]
  cases l.literal <;> cases r.literal <;> cases l.scalar <;> cases r.scalar <;> decide

theorem Executed.binary_of_clash (hl : l.Executed) (h : clash (!l.literal) l.scalar r.scalar = true) (op span) :
    binary false op l r span = none ∧ binary false op r l span = none := by
  have hlit : l.literal = false := by
    cases hliteral : l.literal with
    | false => rfl
    | true => simp [clash, hliteral] at h
  have hs : l.scalar = .s64 ∧ r.scalar = .f64 := by
    have hwide := hl.wide hlit
    rw [hlit] at h
    revert h hwide
    cases l.scalar <;> cases r.scalar <;> decide
  cases hliteral : r.literal with
  | false => simp [binary, Number.meet, hlit, hliteral, hs.1, hs.2, Scalar.common]
  | true =>
    -- the real takes the type of the integer, which does not hold it
    have hnone : r.convert false .s64 = none := by
      simp [Number.convert, hs.2, hliteral, fits, Scalar.isReal]
    simp [binary, Number.meet, hlit, hliteral, hs.1, hnone]

end Number

namespace Arith

variable {e : Arith}

/-- The type of an expression without names. -/
def scalar : Arith → Scalar
  | lit value _ _ => (Number.written value).scalar
  | real _ _ => .f64
  | name _ _ => .s32
  | unary _ e _ => e.scalar
  | binary _ l r _ _ => l.scalar.join r.scalar

/-- There are no names, and every operator applies to the type of its operands. -/
def isTyped : Arith → Bool
  | lit _ _ _ | real _ _ => true
  | name _ _ => false
  | unary op e _ => e.isTyped && e.scalar.allowsUnary op
  | binary op l r _ _ => l.isTyped && r.isTyped && (l.scalar.join r.scalar).allowsBinary op

/-- The word of an expression without names. -/
def word : Arith → Except Trap UInt64
  | lit value _ _ => .ok value
  | real bits _ => .ok bits
  | name _ _ => .ok 0
  | unary op e _ => e.word.map (Scalar.change op e.scalar)
  | binary op l r span _ =>
    let s := l.scalar.join r.scalar
    Number.combine op s span (l.scalar.convert s l.word) (r.scalar.convert s r.word)

/-- The expression is one number. -/
def isLeaf : Arith → Bool
  | lit _ _ _ | real _ _ => true
  | _ => false

/-- The result of an operator has been converted, here or further down, so the type of the
expression is fixed where operators are executed. -/
def isFixed : Arith → Bool
  | unary _ e _ => e.isFixed
  | binary _ l r _ _ =>
    let s := l.scalar.join r.scalar
    (l.isFixed || !(l.isLeaf || l.scalar == s)) || (r.isFixed || !(r.isLeaf || r.scalar == s))
  | _ => false

/-- An integer whose type is fixed meets a real, here or further down. -/
def clashes : Arith → Bool
  | unary _ e _ => e.clashes
  | binary _ l r _ _ => (l.clashes || r.clashes) ||
    (Number.clash l.isFixed l.scalar r.scalar || Number.clash r.isFixed r.scalar l.scalar)
  | _ => false

theorem names_of_isTyped (h : e.isTyped = true) : e.names = [] := by
  induction e with
  | lit | real => rfl
  | name => cases h
  | unary op e span ih =>
    simp only [isTyped, Bool.and_eq_true] at h
    exact ih h.1
  | binary op l r span hop ihl ihr =>
    simp only [isTyped, Bool.and_eq_true] at h
    simp only [names, ihl h.1.1, ihr h.1.2, List.append_nil]

/-- What a typed expression is where operators are folded. -/
theorem eval_folded (h : e.isTyped = true) (env : String → Option Constant) :
    e.eval true env = some (.number ⟨e.scalar, true, true, e.word⟩) := by
  induction e with
  | lit | real => rfl
  | name => cases h
  | unary op e span ih =>
    simp only [isTyped, Bool.and_eq_true] at h
    exact eval_unary_eq_some.mpr ⟨_, _, ih h.1, Number.unary_eq_some.mpr ⟨h.2, rfl⟩, rfl⟩
  | binary op l r span hop ihl ihr =>
    simp only [isTyped, Bool.and_eq_true] at h
    obtain ⟨⟨hl, hr⟩, hallowed⟩ := h
    have hjoin := Scalar.join_join r.scalar l.scalar
    rw [Scalar.join_comm r.scalar l.scalar] at hjoin
    refine eval_binary_eq_some.mpr ⟨_, _, _, ihl hl, ihr hr, Number.binary_eq_some.mpr
      ⟨_, _, _, Number.meet_literals rfl rfl, Number.convert_literal rfl true (Scalar.join_join ..),
        Number.convert_literal rfl true hjoin, hallowed, rfl⟩, ?_⟩
    simp [scalar, word]

def executed (e : Arith) : Number := ⟨e.scalar, !e.isFixed, e.isLeaf, e.word⟩

private theorem isExecuted (e : Arith) : e.executed.Executed := by
  refine ⟨fun h => ?_, fun h => ?_⟩
  · cases e <;> first | rfl | cases h
  · replace h : e.isFixed = true := by simpa [executed] using h
    show e.scalar ≠ .s32
    induction e with
    | lit | real | name => cases h
    | unary op e span ih => exact ih h
    | binary op l r span hop ihl ihr =>
      simp only [isFixed, Bool.or_eq_true, Bool.not_eq_true', Bool.or_eq_false_iff, beq_eq_false_iff_ne] at h
      have hjoin {a b : Scalar} (h : a ≠ .s32 ∨ a ≠ a.join b) : a.join b ≠ .s32 := by
        revert h
        cases a <;> cases b <;> decide
      rw [scalar]
      rcases h with (hl | ⟨-, hl⟩) | hr | ⟨-, hr⟩
      · exact hjoin (.inl (ihl hl))
      · exact hjoin (.inr hl)
      · rw [Scalar.join_comm]
        exact hjoin (.inl (ihr hr))
      · rw [Scalar.join_comm] at hr ⊢
        exact hjoin (.inr hr)

theorem binary_executed {op : BinaryOp} {l r : Arith} {span} (hop : op.isArithmetic = true)
    (h : (l.scalar.join r.scalar).allowsBinary op = true) :
    Number.binary false op l.executed r.executed span =
      if Number.clash l.isFixed l.scalar r.scalar || Number.clash r.isFixed r.scalar l.scalar
      then none else some (binary op l r span hop).executed := by
  have hfixed (e : Arith) : (!e.executed.literal) = e.isFixed := Bool.not_not _
  cases hl : Number.clash l.isFixed l.scalar r.scalar with
  | true => exact (l.isExecuted.binary_of_clash (by rw [hfixed]; exact hl) op span).1
  | false =>
    cases hr : Number.clash r.isFixed r.scalar l.scalar with
    | true => exact (r.isExecuted.binary_of_clash (by rw [hfixed]; exact hr) op span).2
    | false =>
      rw [← hfixed] at hl hr
      have hconvert := r.isExecuted.convert (r := l.executed) hr
      rw [Scalar.join_comm r.executed.scalar] at hconvert
      refine Number.binary_eq_some.mpr ⟨_, _, _, l.isExecuted.meet r.isExecuted hl hr,
        l.isExecuted.convert hl, hconvert, h, ?_⟩
      simp [executed, scalar, isFixed, isLeaf, word]

/-- What it is where they are executed. -/
theorem eval_executed (h : e.isTyped = true) (env : String → Option Constant) :
    e.eval false env = if e.clashes then none else some (.number e.executed) := by
  induction e with
  | lit | real => rfl
  | name => cases h
  | unary op e span ih =>
    simp only [isTyped, Bool.and_eq_true] at h
    rw [eval, ih h.1, clashes]
    cases hc : e.clashes with
    | true => rfl
    | false => simp [executed, Number.unary, h.2, scalar, isFixed, isLeaf, word]
  | binary op l r span hop ihl ihr =>
    simp only [isTyped, Bool.and_eq_true] at h
    obtain ⟨⟨hl, hr⟩, hallowed⟩ := h
    rw [eval, ihl hl, ihr hr, clashes]
    cases hlc : l.clashes with
    | true => rfl
    | false =>
      cases hrc : r.clashes with
      | true => rfl
      | false =>
        simp only [Bool.false_eq_true, if_false, Option.bind_eq_bind, Option.bind_some,
          binary_executed hop hallowed, Bool.false_or]
        split <;> rfl

theorem eval_of_isTyped (h : e.isTyped = true) {fold} (hc : fold = true ∨ e.clashes = false)
    (env : String → Option Constant) :
    ∃ n, e.eval fold env = some (.number n) ∧ n.scalar = e.scalar ∧ n.word = e.word ∧
      (fold = true → n.known = true) := by
  cases fold with
  | true => exact ⟨_, eval_folded h env, rfl, rfl, fun _ => rfl⟩
  | false =>
    rw [eval_executed h, hc.resolve_left (by simp)]
    exact ⟨_, rfl, rfl, rfl, fun h => by cases h⟩

theorem isTyped_of_isInteger (h : e.isInteger = true) :
    e.isTyped = true ∧ e.scalar.isReal = false ∧ e.clashes = false := by
  induction e with
  | lit value span small =>
    refine ⟨rfl, ?_, rfl⟩
    simp only [scalar, Number.written]
    split <;> rfl
  | real | name => cases h
  | unary op e span ih =>
    simp only [isInteger, Bool.and_eq_true, bne_iff_ne] at h
    obtain ⟨htyped, hint, hclash⟩ := ih h.2
    refine ⟨?_, hint, hclash⟩
    have hallowed : e.scalar.allowsUnary op = true := by
      cases op <;> cases hs : e.scalar <;> simp_all [Scalar.allowsUnary, Scalar.isReal]
    simp [isTyped, htyped, hallowed]
  | binary op l r span hop ihl ihr =>
    simp only [isInteger, Bool.and_eq_true] at h
    obtain ⟨hlt, hli, hlc⟩ := ihl h.1
    obtain ⟨hrt, hri, hrc⟩ := ihr h.2
    have hint : (l.scalar.join r.scalar).isReal = false := by
      revert hli hri
      cases l.scalar <;> cases r.scalar <;> decide
    have hallowed : (l.scalar.join r.scalar).allowsBinary op = true := by
      revert hint
      cases l.scalar.join r.scalar <;> first | exact fun _ => rfl | exact fun h => by cases h
    refine ⟨by simp [isTyped, hlt, hrt, hallowed], hint, ?_⟩
    simp [clashes, hlc, hrc, Number.clash, hli, hri]

end Arith

end Comptime
