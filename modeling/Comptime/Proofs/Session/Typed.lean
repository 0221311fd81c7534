import Comptime.Proofs.Session.Reachable

/-!
# Analysed functions are typed

Every body that analysis has finished is typed, in every session that can be reached.
-/

namespace Comptime.Session

/-- The machine may rely on the types in every body that analysis has finished: see
`InstrKind.Typed` for what that means for each instruction. The tables are sane as long as the values
that came from code executed at compile time were values of their types. -/
theorem typed_of_analyzed {s : Session} (h : s.Reachable) (hs : s.tables.Sane) {f : FnId}
    (ha : (s.code.function f).state = .analyzed) :
    s.types.kind (s.code.function f).ty = .fn (s.code.function f).params (s.code.function f).ret ∧
      (s.code.function f).Typed s.types s.code := by
  have hf : s.code.fns.Has f := by
    refine Decidable.byContradiction fun hn => ?_
    rw [Code.function, Pool.getD_of_not_has hn] at ha
    cases ha
  have hcode := (h.sound.proper hs).code
  exact ⟨hcode.signature f hf, hcode.bodies f hf ha⟩

/-- The factorial, and a constant that is computed with it:
`f :: (x: s32) -> s32 { if (x == 0) return 1; return x * f(x - 1); }` and `k :: f(4)`. -/
def factorialAst : Ast :=
  ⟨#[⟨.ident "s32", ⟨0, 9, 12⟩⟩,
    ⟨.ident "x", ⟨0, 30, 31⟩⟩,
    ⟨.intLit 0, ⟨0, 35, 36⟩⟩,
    ⟨.binary .eq 1 2, ⟨0, 30, 36⟩⟩,
    ⟨.intLit 1, ⟨0, 45, 46⟩⟩,
    ⟨.ret (some 4), ⟨0, 38, 47⟩⟩,
    ⟨.branch 3 5 none, ⟨0, 26, 47⟩⟩,
    ⟨.ident "f", ⟨0, 59, 60⟩⟩,
    ⟨.binary .sub 1 4, ⟨0, 61, 66⟩⟩,
    ⟨.call 7 [8], ⟨0, 59, 67⟩⟩,
    ⟨.binary .mul 1 9, ⟨0, 55, 67⟩⟩,
    ⟨.ret (some 10), ⟨0, 48, 68⟩⟩,
    ⟨.block [6, 11], ⟨0, 24, 70⟩⟩,
    ⟨.fnLit ⟨⟨[⟨"x", 0, ⟨0, 6, 12⟩⟩], some 0⟩, some 12, none, false, false⟩, ⟨0, 5, 70⟩⟩,
    ⟨.decl ⟨"f", none, some 13, false⟩, ⟨0, 0, 70⟩⟩,
    ⟨.intLit 4, ⟨0, 78, 79⟩⟩,
    ⟨.call 7 [15], ⟨0, 76, 80⟩⟩,
    ⟨.decl ⟨"k", none, some 16, false⟩, ⟨0, 71, 81⟩⟩]⟩

/-- The factorial has been analysed. -/
def factorial : Session :=
  stateAfter analyze (stateAfter (declare [14, 17]) (create .default .none factorialAst))

theorem reachable_factorial : factorial.Reachable :=
  ((Reachable.create .default .none factorialAst).tail (.inl (.declare _ _))).analyze

/-- The body of the factorial is typed. -/
theorem typed_factorial :
    (factorial.code.function 0).instrs.size = 16 ∧
      (factorial.code.function 0).Typed factorial.types factorial.code := by
  obtain ⟨hsane, hstate, hsize⟩ : factorial.tables.Sane ∧ (factorial.code.function 0).state = .analyzed ∧
      (factorial.code.function 0).instrs.size = 16 := by decide +kernel
  exact ⟨hsize, (typed_of_analyzed reachable_factorial hsane hstate).2⟩

end Comptime.Session
