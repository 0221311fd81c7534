import Comptime.Analysis.Operation
import Comptime.Proofs.Arithmetic.Expression
import Comptime.Proofs.Except
import Comptime.Proofs.Type.Ground

/-!
# Expressions of literals

Trees of numbers, truth values and `null` with operators of every kind. Whatever such an expression is,
its type is one of six.
-/

namespace Comptime

/-! ## Trees -/

/-- The node is a number, a truth value or `null`. -/
def NodeKind.isLiteral : NodeKind → Bool
  | intLit _ | realLit _ | boolLit _ | nullLit => true
  | _ => false

namespace Ast

variable {ast : Ast} {n : NodeId} {h k : Nat}

/-- The node stands for an expression of some height that consists of literals and operators. -/
inductive Literal (ast : Ast) : NodeId → Nat → Prop
  | leaf {n : NodeId} (node : (ast.node n).kind.isLiteral = true) : Literal ast n 1
  | unary {n m : NodeId} {op : UnaryOp} {span : Span} {h : Nat}
    (node : ast.node n = ⟨.unary op m, span⟩) (operand : Literal ast m h) : Literal ast n (h + 1)
  | binary {n i j : NodeId} {op : BinaryOp} {span : Span} {h k : Nat}
    (node : ast.node n = ⟨.binary op i j, span⟩) (lhs : Literal ast i h) (rhs : Literal ast j k) :
    Literal ast n (max h k + 1)

namespace Literal

variable (hn : ast.Literal n h)

include hn

theorem pos : 0 < h := by
  cases hn <;> omega

theorem height_le : h ≤ ast.size := by
  refine Towers.height_le (n := n) ?_
  induction hn with
  | leaf node =>
    refine .ofLeaf (fun hk => by rw [hk] at node; cases node) ?_
    cases hk : (ast.node _).kind <;> rw [hk] at node <;> first | rfl | cases node
  | unary node _ ih => exact .unary node ih
  | binary node _ _ ihl ihr => exact .binary node ihl ihr

end Literal

end Ast

/-! ## The types of literals -/

namespace Ground

/-- The form of the values of a type. -/
def Holds : Ground → Value → Prop
  | bool, .bool _ | s32, .int _ | s64, .int _ | u64, .int _ | f64, .f64 _ | null, .ptr _ => True
  | _, _ => False

theorem holds_int {g : Ground} (h : g.info.isSome = true) (w) : g.Holds (.int w) := by
  cases g <;> trivial

theorem info_of_holds {g : Ground} {w} (h : g.Holds (.int w)) : g.info.isSome = true := by
  cases g <;> first | rfl | exact h.elim

theorem holds_bool {v} (h : bool.Holds v) : ∃ b, v = .bool b := by
  cases v <;> first | exact ⟨_, rfl⟩ | exact h.elim

end Ground

namespace TypeTable

/-- The table has the types of literals. -/
def Grounded (t : TypeTable) : Prop := ∀ g : Ground, t.kind g.ty = g.kind

end TypeTable

namespace Ground

variable {t : TypeTable} {g : Ground} {ty : TypeId} {a b v : Value}

theorem holds_binary {op : BinaryOp} (ha : g.Holds a) (hb : g.Holds b)
    (h : op.eval t ty a b = .ok v) : (if op.isComparison then bool else g).Holds v := by
  unfold BinaryOp.eval at h
  split at h
  · next hc =>
    rw [if_pos hc]
    obtain ⟨b, -, rfl⟩ := map_eq_ok.mp h
    trivial
  · next hc =>
    rw [if_neg hc]
    split at h
    · obtain ⟨r, -, rfl⟩ := map_eq_ok.mp h
      cases g <;> trivial
    · split at h
      · obtain ⟨r, -, rfl⟩ := map_eq_ok.mp h
        exact holds_int (info_of_holds ha) r
      · cases h
    · cases g <;> exact ha.elim
    · obtain ⟨r, -, rfl⟩ := map_eq_ok.mp h
      cases g <;> trivial
    · cases h

theorem holds_unary {op : UnaryOp} (ha : g.Holds a) (h : op.eval t ty a = .ok v) : g.Holds v := by
  have hword {raw w : UInt64} (hw : g.Holds (.int w)) (h : UnaryOp.eval.onWord t ty raw = .ok v) : g.Holds v := by
    unfold UnaryOp.eval.onWord at h
    split at h
    · cases h
      exact holds_int (info_of_holds hw) _
    · cases h
  unfold UnaryOp.eval at h
  split at h
  · cases h
    exact ha
  · cases h
    cases g <;> trivial
  · cases g <;> exact ha.elim
  · cases h
    cases g <;> trivial
  · exact hword ha h
  · exact hword ha h
  · cases h

end Ground

end Comptime
