import Comptime.Proofs.Constant.Analysis

/-!
# The type of a calculation, folded and executed

A session computes the operators of a calculation during analysis or by code. Numbers that are written
take the type of what they meet, and where operators are folded so do their results. Code fixes the
type of a result as soon as it converts it, and an integer whose type is fixed does not meet a real.
So the one session accepts calculations that the other refuses; all others have the same value of the
same type in both.
-/

namespace Comptime

/-- The expression consists of numbers, `-` and the four basic operators. -/
def Arith.isCalculation : Arith → Bool
  | lit .. | real .. => true
  | name .. => false
  | unary op e _ => op == .neg && e.isCalculation
  | binary op l r _ _ =>
    [BinaryOp.add, .sub, .mul, .div].contains op && l.isCalculation && r.isCalculation

theorem Arith.isTyped_of_isCalculation {e : Arith} (h : e.isCalculation = true) : e.isTyped = true := by
  induction e with
  | lit | real => rfl
  | name => cases h
  | unary op e span ih =>
    simp only [isCalculation, Bool.and_eq_true, beq_iff_eq] at h
    obtain ⟨rfl, h⟩ := h
    rw [isTyped, ih h]
    cases e.scalar <;> rfl
  | binary op l r span hop ihl ihr =>
    simp only [isCalculation, Bool.and_eq_true, List.contains_iff_mem] at h
    obtain ⟨⟨hmem, hl⟩, hr⟩ := h
    rw [isTyped, ihl hl, ihr hr, Bool.true_and, Bool.true_and]
    simp only [List.mem_cons, List.not_mem_nil, or_false] at hmem
    rcases hmem with rfl | rfl | rfl | rfl <;> cases l.scalar.join r.scalar <;> rfl

namespace Config

variable {config : Config} {env : String → Option Constant} {e : Arith}

/-- What a calculation is as a constant: a trap is none. -/
def constantOf (config : Config) (e : Arith) : Option Constant :=
  (e.word.toOption.map (Constant.number e.scalar)).filter config.stores

theorem define_folded (hfold : config.foldConstants = true) (h : e.isTyped = true) :
    config.define env e = config.constantOf e := by
  have heval : e.eval config.foldConstants env = some (.number ⟨e.scalar, true, true, e.word⟩) := by
    rw [hfold]
    exact Arith.eval_folded h env
  rw [define, evaluate_of_eval heval rfl]
  rfl

theorem define_executed (hfold : config.foldConstants = false) (h : e.isTyped = true)
    (hframes : 0 < config.limits.maxFrames) :
    config.define env e = if e.clashes then none else config.constantOf e := by
  have heval : e.eval config.foldConstants env = if e.clashes then none else some (.number e.executed) := by
    rw [hfold]
    exact Arith.eval_executed h env
  split
  · next hclash =>
    rw [if_pos hclash] at heval
    apply define_of_evaluate
    rw [evaluate, heval]
    rfl
  · next hclash =>
    rw [if_neg hclash] at heval
    rw [define, evaluate_of_eval heval (by simp [hframes])]
    rfl

end Config

theorem meaning_closed {config defs d} (hd : Wellnamed defs) (hmem : d ∈ defs) (hnames : d.init.names = []) :
    meaning config defs d.name = config.define (fun _ => none) d.init := by
  refine Option.ext fun k => ?_
  rw [meaning_eq_some hd, denotes_iff_define hd hmem]
  have hcongr : config.define (meaning config defs) d.init = config.define (fun _ => none) d.init := by
    apply Config.define_congr
    intro x hx
    rw [hnames] at hx
    cases hx
  rw [hcongr]

namespace Session.Analyzed

variable {config : Config} {defs : List Definition} {d : Definition} {s : Session}

theorem symbolValue_folded (h : s.Analyzed config defs) (hfold : config.foldConstants = true)
    (hmem : d ∈ defs) (hpath : d.name.splitOn "." = [d.name]) (htyped : d.init.isTyped = true) :
    s.symbolValue d.name = (config.constantOf d.init).map Constant.symbolValue := by
  rw [h.symbolValue hpath, meaning_closed h.wellnamed hmem (Arith.names_of_isTyped htyped),
    Config.define_folded hfold htyped]

theorem symbolValue_executed (h : s.Analyzed config defs) (hfold : config.foldConstants = false)
    (hframes : 0 < config.limits.maxFrames) (hmem : d ∈ defs)
    (hpath : d.name.splitOn "." = [d.name]) (htyped : d.init.isTyped = true) :
    s.symbolValue d.name = if d.init.clashes then none else (config.constantOf d.init).map Constant.symbolValue := by
  rw [h.symbolValue hpath, meaning_closed h.wellnamed hmem (Arith.names_of_isTyped htyped),
    Config.define_executed hfold htyped hframes]
  split <;> rfl

end Session.Analyzed

/-- A calculation that has a value of some type where operators are folded has the same value of the
same type where they are executed, unless an integer whose type the code has fixed meets a real: then
it is refused. -/
theorem folded_type_kept_unless_clash {config : Config} {defs : List Definition} {s1 s2 : Session}
    (folds : s1.Analyzed { config with foldConstants := true } defs)
    (executes : s2.Analyzed { config with foldConstants := false } defs)
    (frames : 0 < config.limits.maxFrames) {d : Definition} (declared : d ∈ defs)
    (path : d.name.splitOn "." = [d.name]) (calculation : d.init.isCalculation = true) {ty : TypeId}
    {v : Value} (accepted : s1.symbolValue d.name = some (.const ty v)) :
    ty = d.init.scalar.ty ∧
      s2.symbolValue d.name = if d.init.clashes then none else some (.const ty v) := by
  have htyped := Arith.isTyped_of_isCalculation calculation
  rw [folds.symbolValue_folded rfl declared path htyped] at accepted
  rw [executes.symbolValue_executed rfl frames declared path htyped]
  constructor
  · obtain ⟨k, hk, hvalue⟩ := Option.map_eq_some_iff.mp accepted
    obtain ⟨w, -, rfl⟩ := Option.map_eq_some_iff.mp (Option.filter_eq_some_iff.mp hk).1
    cases hvalue
    rfl
  · -- the sizes that may be stored do not depend on how operators are computed
    rw [← accepted]
    rfl

/-! ## Two sums -/

/-- The constants `a :: (4 + 8) + 1.5` and `b :: ((4 + 8) + 6000000000) + 1.5`. -/
def sumsAst : Ast := ⟨#[
  ⟨.intLit 4, ⟨0, 6, 7⟩⟩, ⟨.intLit 8, ⟨0, 10, 11⟩⟩, ⟨.binary .add 0 1, ⟨0, 5, 12⟩⟩,
  ⟨.realLit 0x3ff8000000000000, ⟨0, 15, 18⟩⟩, ⟨.binary .add 2 3, ⟨0, 5, 18⟩⟩,
  ⟨.decl ⟨"a", none, some 4, false⟩, ⟨0, 0, 18⟩⟩,
  ⟨.intLit 4, ⟨0, 26, 27⟩⟩, ⟨.intLit 8, ⟨0, 30, 31⟩⟩, ⟨.binary .add 6 7, ⟨0, 25, 32⟩⟩,
  ⟨.intLit 6000000000, ⟨0, 35, 45⟩⟩, ⟨.binary .add 8 9, ⟨0, 24, 46⟩⟩,
  ⟨.realLit 0x3ff8000000000000, ⟨0, 49, 52⟩⟩, ⟨.binary .add 10 11, ⟨0, 24, 52⟩⟩,
  ⟨.decl ⟨"b", none, some 12, false⟩, ⟨0, 19, 52⟩⟩]⟩

/-- In this sum an integer that is computed meets a real. -/
def plainSum : Definition :=
  ⟨"a", .binary .add
    (.binary .add (.lit 4 ⟨0, 6, 7⟩ (by decide)) (.lit 8 ⟨0, 10, 11⟩ (by decide)) ⟨0, 5, 12⟩
      BinaryOp.isArithmetic_add)
    (.real 0x3ff8000000000000 ⟨0, 15, 18⟩) ⟨0, 5, 18⟩ BinaryOp.isArithmetic_add⟩

/-- In this sum the integer has been converted to 64 bits before. -/
def widenedSum : Definition :=
  ⟨"b", .binary .add
    (.binary .add
      (.binary .add (.lit 4 ⟨0, 26, 27⟩ (by decide)) (.lit 8 ⟨0, 30, 31⟩ (by decide)) ⟨0, 25, 32⟩
        BinaryOp.isArithmetic_add)
      (.lit 6000000000 ⟨0, 35, 45⟩ (by decide)) ⟨0, 24, 46⟩ BinaryOp.isArithmetic_add)
    (.real 0x3ff8000000000000 ⟨0, 49, 52⟩) ⟨0, 24, 52⟩ BinaryOp.isArithmetic_add⟩

private theorem sumsAst_defines : List.Forall₂ sumsAst.Defines [5, 13] [plainSum, widenedSum] :=
  .cons ⟨_, _, rfl, .binary rfl (.binary rfl (.lit rfl) (.lit rfl)) (.real rfl)⟩
    (.cons ⟨_, _, rfl, .binary rfl (.binary rfl (.binary rfl (.lit rfl) (.lit rfl)) (.lit rfl)) (.real rfl)⟩ .nil)

theorem exists_sums (fold) : ∃ s : Session,
    s.Analyzed { Config.default with foldConstants := fold } [plainSum, widenedSum] := by
  have hnames : Wellnamed [plainSum, widenedSum] := ⟨by decide, by decide⟩
  have hsteps : Session.Endures { Config.default with foldConstants := fold } [plainSum, widenedSum] := by
    unfold Session.Endures
    cases fold <;> decide
  obtain ⟨s0, s, hdeclare, hanalyze⟩ := @Session.exists_analyzed
    { Config.default with foldConstants := fold } _ .none sumsAst _ hnames hsteps sumsAst_defines
    (by cases fold <;> decide) (by cases fold <;> decide)
  exact ⟨s, hnames, hsteps, .none, sumsAst, _, s0, sumsAst_defines, hdeclare, hanalyze⟩

theorem constantOf_sums (fold) : Config.constantOf { Config.default with foldConstants := fold } plainSum.init =
      some (.number .f64 0x402b000000000000) ∧
    Config.constantOf { Config.default with foldConstants := fold } widenedSum.init =
      some (.number .f64 0x41f65a0bc0d80000) := by
  cases fold <;> decide +kernel

/-- The first sum is the same real in both sessions. -/
theorem folded_type_kept_unless_clash_sum : ∃ s1 s2 : Session,
    s1.Analyzed { Config.default with foldConstants := true } [plainSum, widenedSum] ∧
      s2.Analyzed { Config.default with foldConstants := false } [plainSum, widenedSum] ∧
      s1.symbolValue "a" = some (.const Scalar.f64.ty (.f64 0x402b000000000000)) ∧
      s2.symbolValue "a" = some (.const Scalar.f64.ty (.f64 0x402b000000000000)) := by
  obtain ⟨s1, h1⟩ := exists_sums true
  obtain ⟨s2, h2⟩ := exists_sums false
  have hmem : plainSum ∈ [plainSum, widenedSum] := by simp
  have haccepted : s1.symbolValue plainSum.name =
      some (.const Scalar.f64.ty (.f64 0x402b000000000000)) := by
    rw [h1.symbolValue_folded rfl hmem (splitOn_of_no_dot (by decide)) rfl, (constantOf_sums true).1]
    rfl
  obtain ⟨-, hvalue⟩ := folded_type_kept_unless_clash h1 h2 (by decide) hmem (splitOn_of_no_dot (by decide))
    rfl haccepted
  exact ⟨s1, s2, h1, h2, haccepted, hvalue⟩

/-- The second sum is a real where operators are folded, and refused where they are executed. -/
theorem widened_sum_refused : ∃ s1 s2 : Session,
    s1.Analyzed { Config.default with foldConstants := true } [plainSum, widenedSum] ∧
      s2.Analyzed { Config.default with foldConstants := false } [plainSum, widenedSum] ∧
      s1.symbolValue "b" = some (.const Scalar.f64.ty (.f64 0x41f65a0bc0d80000)) ∧
      s2.symbolValue "b" = none := by
  obtain ⟨s1, h1⟩ := exists_sums true
  obtain ⟨s2, h2⟩ := exists_sums false
  have hmem : widenedSum ∈ [plainSum, widenedSum] := by simp
  refine ⟨s1, s2, h1, h2, ?_, ?_⟩
  · show s1.symbolValue widenedSum.name = _
    rw [h1.symbolValue_folded rfl hmem (splitOn_of_no_dot (by decide)) rfl, (constantOf_sums true).2]
    rfl
  · exact h2.symbolValue_executed rfl (by decide) hmem (splitOn_of_no_dot (by decide)) rfl

end Comptime
