import Comptime.Ast
import Comptime.Proofs.Pool
import Mathlib.Data.Finset.Card
import Mathlib.Order.Interval.Finset.Nat

/-!
# Heights

A program is a graph of nodes, and a table of types is a graph of types. Where everything has one height at most
and leads to something that is one lower, nothing is met twice on the way down. So no height exceeds the number of
things there are (`Pool.height_le_size`).

`Ast.Towers` are the heights of operators above what they are applied to.
-/

namespace Comptime

/-- Nothing is higher than there are entities. -/
theorem Pool.height_le_size {κ : Entity} {α : Type} {p : Pool κ α} {P : Id κ → Nat → Prop}
    (unique : ∀ i k k', P i k → P i k' → k = k') (has : ∀ i k, P i k → p.Has i)
    (lower : ∀ i k, 0 < k → P i (k + 1) → ∃ j, P j k) {i : Id κ} {height : Nat} (h : P i height) :
    height ≤ p.size := by
  have hbelow (k : Nat) (hpos : 0 < k) (hle : k ≤ height) : ∃ j, P j k := by
    induction hle using Nat.decreasingInduction with
    | self => exact ⟨i, h⟩
    | of_succ k _ ih =>
      obtain ⟨j, hj⟩ := ih (by omega)
      exact lower j k hpos hj
  choose! f hf using hbelow
  have hmem : ∀ k ∈ Finset.Icc 1 height, (f k).index ∈ Finset.range p.size := by
    intro k hk
    obtain ⟨hpos, hle⟩ := Finset.mem_Icc.mp hk
    exact Finset.mem_range.mpr (has _ _ (hf k hpos hle))
  have hinj : Set.InjOn (fun k => (f k).index) (Finset.Icc 1 height) := by
    intro k hk k' hk' heq
    obtain ⟨hpos, hle⟩ := Finset.mem_Icc.mp hk
    obtain ⟨hpos', hle'⟩ := Finset.mem_Icc.mp hk'
    have hsame : f k = f k' := congrArg Id.mk heq
    exact unique _ _ _ (hf k hpos hle) (hsame ▸ hf k' hpos' hle')
  calc height = (Finset.Icc 1 height).card := by simp
    _ ≤ (Finset.range p.size).card := Finset.card_le_card_of_injOn _ hmem hinj
    _ = p.size := Finset.card_range _

/-! ## Operators -/

/-- The node applies an operator. -/
def NodeKind.isOperation : NodeKind → Bool
  | unary .. | binary .. => true
  | _ => false

namespace Ast

variable {ast : Ast} {n : NodeId} {h k : Nat}

/-- The height of a node above nodes that are no operators. -/
inductive Towers (ast : Ast) : NodeId → Nat → Prop
  | leaf {n : NodeId} (has : ast.Has n) (node : (ast.node n).kind.isOperation = false) : Towers ast n 1
  | unary {n m : NodeId} {op : UnaryOp} {span : Span} {h : Nat}
    (node : ast.node n = ⟨.unary op m, span⟩) (operand : Towers ast m h) : Towers ast n (h + 1)
  | binary {n i j : NodeId} {op : BinaryOp} {span : Span} {h k : Nat}
    (node : ast.node n = ⟨.binary op i j, span⟩) (lhs : Towers ast i h) (rhs : Towers ast j k) :
    Towers ast n (max h k + 1)

namespace Towers

variable (hn : ast.Towers n h)

include hn

private theorem unique (hn' : ast.Towers n k) : h = k := by
  induction hn generalizing k with
  | leaf _ node =>
    cases hn' with
    | leaf => rfl
    | unary node' | binary node' => simp [node', NodeKind.isOperation] at node
  | unary node _ ih =>
    cases hn' with
    | unary node' operand' =>
      rw [node] at node'
      cases node'
      rw [ih operand']
    | leaf _ node' => simp [node, NodeKind.isOperation] at node'
    | binary node' => simp [node] at node'
  | binary node _ _ ihl ihr =>
    cases hn' with
    | binary node' lhs' rhs' =>
      rw [node] at node'
      cases node'
      rw [ihl lhs', ihr rhs']
    | leaf _ node' => simp [node, NodeKind.isOperation] at node'
    | unary node' => simp [node] at node'

private theorem has : ast.Has n := by
  refine Decidable.byContradiction fun hnot => ?_
  have hdefault : ast.node n = default := Pool.getD_of_not_has hnot default
  cases hn with
  | leaf has => exact hnot has
  | unary node | binary node =>
    rw [hdefault] at node
    cases node

theorem height_le : h ≤ ast.size := by
  refine Pool.height_le_size (P := ast.Towers) (fun _ _ _ h h' => unique h h') (fun _ _ h => has h) (fun m k hpos hm => ?_) hn
  generalize hk : k + 1 = k' at hm
  cases hm with
  | leaf => omega
  | unary _ operand => exact ⟨_, Nat.succ.inj hk ▸ operand⟩
  | @binary _ i j _ _ h h' _ lhs rhs =>
    rcases Nat.le_total h h' with hle | hle
    · exact ⟨j, by rw [Nat.succ.inj hk, Nat.max_eq_right hle]; exact rhs⟩
    · exact ⟨i, by rw [Nat.succ.inj hk, Nat.max_eq_left hle]; exact lhs⟩

end Towers

/-- A leaf is there. -/
theorem Towers.ofLeaf (hne : (ast.node n).kind ≠ (default : Node).kind) (node : (ast.node n).kind.isOperation = false) :
    ast.Towers n 1 := by
  refine .leaf (Decidable.byContradiction fun hnot => hne ?_) node
  rw [Ast.node, Pool.getD_of_not_has hnot]

end Ast

end Comptime
