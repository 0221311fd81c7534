import Comptime.Proofs.Session.Evaluate
import Comptime.Proofs.Shortcut.Skip

/-!
# Operators that are settled by their left operand

`false && e` and `true || e` have a value that does not depend on `e`. Where operators are executed,
the code of `e` is skipped. Where they are folded, `e` is analysed aside, and analysis computes what it
finds: if `e` traps, so does the whole.

Main result: `settled_unless_folded_operand_traps`.
-/

namespace Comptime

/-- A node that applies `&&` or `||` to a truth value which settles the result, and to another node. -/
inductive Ast.Settles (ast : Ast) (n : NodeId) (value : Bool) (rhs : NodeId) : Prop
  | intro {op : BinaryOp} {lhs : NodeId} {span place : Span} (logic : op.isLogic = true)
    (root : ast.node n = ⟨.binary op lhs rhs, span⟩) (left : ast.node lhs = ⟨.boolLit value, place⟩)
    (settled : (op == .logicOr) = value)

/-! ## Truth values -/

namespace Lower

variable {c : Context} {t : Tables} {d : Draft} {op : Operand} {g : Ground}

theorem coerce_of_const {v} (hkind : op.kind = .const v) (ty) : coerce op ty = coerceValue op ty := by
  unfold coerce rvalue
  rw [hkind]
  dsimp only
  rw [pure_bind, hkind]

theorem coerce_of_const_ty {v ty} (hkind : op.kind = .const v) (hty : op.ty = ty) : coerce op ty = pure op := by
  rw [coerce_of_const hkind, coerceValue, if_pos hty]

private theorem adapt_bool (ht : t.types.Grounded) (op) : adapt op .bool d c t = .ok (none, d) t := by
  have hint : t.types.plainInt .bool = none := Ground.plainInt_ty (ht .bool)
  have hreal : t.types.isReal .bool = false := Ground.isReal_ty (ht .bool)
  rw [adapt, reads_bind Analysis.types_reads, hint, hreal]
  rfl

private theorem widen_bool (ht : t.types.Grounded) (hty : op.ty = g.ty) (hne : g ≠ .bool) :
    ∃ diagnostic, widen op .bool d c t = .error (.error diagnostic) t := by
  have hrank : t.types.conversionRank op.ty .bool = none := by
    rw [hty]
    refine Option.not_isSome_iff_eq_none.mp fun h => ?_
    obtain ⟨-, hbool⟩ := (Ground.conversionRank_ty (ht g) (ht .bool) hne).mp h
    cases hbool
  rw [widen, reads_bind Analysis.types_reads, hrank]
  exact ⟨_, rfl⟩

theorem coerce_bool_refuses (ht : t.types.Grounded) {v} (hkind : op.kind = .const v) (hty : op.ty = g.ty)
    (hne : g ≠ .bool) : ∃ diagnostic, coerce op .bool d c t = .error (.error diagnostic) t := by
  have hbool : op.ty ≠ .bool := fun h => hne (Ground.ty_injective (hty.symm.trans h))
  rw [coerce_of_const hkind, coerceValue, if_neg hbool]
  cases op.literal with
  | false => exact widen_bool ht hty hne
  | true =>
    rw [if_pos rfl, bind_ok (adapt_bool ht op)]
    exact widen_bool ht hty hne

/-! ## The operator -/

theorem expr_settled {n rhs} {value depth} (h : c.ast.Settles n value rhs) (hdepth : 1 < depth) (scope) :
    ∃ span place,
    (Analysis.walk depth).expr scope n d c t = (if c.config.foldConstants then do
        let _ ← aside (.scratch span) (boolean (Analysis.walk (depth - 1)) scope rhs)
        return .constant (.bool value) .bool span
      else branchLogic (Analysis.walk (depth - 1)) scope value (.constant (.bool value) .bool place) rhs
        span : Lower Operand) d c t := by
  obtain @⟨o, lhs, span, place, logic, root, left, settled⟩ := h
  refine ⟨span, place, ?_⟩
  have hleft : boolean (Analysis.walk (depth - 1)) scope lhs d c t =
      .ok (.constant (.bool value) .bool place, d) t := by
    have hlit : (Analysis.walk (depth - 1)).expr scope lhs d c t =
        .ok (.constant (.bool value) .bool place, d) t := by
      rw [walk_expr (by omega), expression, reads_bind (Analysis.node_reads lhs), left]
      rfl
    have hsame : coerce (.constant (.bool value) .bool place) .bool = pure _ :=
      coerce_of_const_ty rfl rfl
    rw [boolean, bind_ok hlit, hsame]
    rfl
  rw [walk_expr (by omega), expression, reads_bind (Analysis.node_reads n), root]
  show (ite (o.isLogic = true) _ _ : Lower Operand) d c t = _
  rw [if_pos logic, Lower.logic, bind_ok hleft, reads_bind Analysis.folding_reads, settled]
  cases c.config.foldConstants with
  | false => rfl
  | true =>
    show (ite ((value == value) = true) _ _ : Lower Operand) d c t = _
    rw [if_pos (by simp)]
    rfl

private theorem materialize_of_similar {op'} {fold} (h : op.Similar fold op') (d c t) :
    ∃ i e, materialize op d c t = .ok (i, e) t ∧ d.Leads e := by
  have hvalue := (rvalue_of_similar h).1
  cases h with
  | const kind =>
    rw [materialize, hvalue, pure_bind, kind]
    exact ⟨_, _, rfl, d.leads_emit _ _ _⟩
  | instr =>
    rw [materialize, hvalue, pure_bind]
    exact ⟨_, _, rfl, .refl d⟩

theorem branchLogic_leads {w scope rhs} {fold}
    (h : ∀ d, ∃ o e o', boolean w scope rhs d c t = .ok (o, e) t ∧ d.Leads e ∧ o.Similar fold o') (name)
    (start place span) (value) :
    ∃ reachable g other, (Draft.opened name start place span value reachable).Leads g ∧
      let joined := { g with current := 2 }.emit (.phi [(Function.entry, 0), other]) .bool span
      branchLogic w scope value (.constant (.bool value) .bool place) rhs span (.straight name start [])
        c t = .ok (.instr joined.2 .bool span, joined.1) t := by
  have hcond : materialize (.constant (.bool value) .bool place) (.straight name start []) c t =
      .ok (0, .straight name start [⟨.const (.bool value), .bool, place, Function.entry⟩]) t := by
    show EStateM.Result.ok ((Draft.straight name start []).emit (.const (.bool value)) .bool place).swap t = _
    rw [Draft.emit_straight (fun i hi => by simp at hi)]
    rfl
  obtain ⟨reachable, hfork⟩ := Draft.forked_branch name start place span value
    (if value then [2, 1] else [1, 2])
  obtain ⟨o, e, o', hrhs, he, ho⟩ := h (.opened name start place span value reachable)
  obtain ⟨j, f, hj, hf⟩ := materialize_of_similar ho e c t
  refine ⟨reachable, f.jump 2 span, (f.current, j), he.trans (hf.trans (f.leads_jump _ _)), ?_⟩
  intro joined
  have hforked : ((Draft.straight name start
      [⟨.const (.bool value), .bool, place, Function.entry⟩]).addBlock "logic.rhs").1.addBlock
        "logic.end" = (Draft.forked name start
          [⟨.const (.bool value), .bool, place, Function.entry⟩], 2) := rfl
  rw [branchLogic, bind_ok hcond, bind_ok (get_eq ..), bind_ok (addBlock_eq ..), bind_ok (addBlock_eq ..), hforked]
  have hjoin : (do
      moveTo 1
      let rhs ← materialize (← boolean w scope rhs)
      let rhsEnd := (← get).current
      jump 2 span
      moveTo 2
      let id ← emit (.phi [(Function.entry, 0), (rhsEnd, rhs)]) .bool span
      return .instr id .bool span : Lower Operand)
      ((Draft.forked name start [⟨.const (.bool value), .bool, place, Function.entry⟩]).emitExit
        (if value then .branch 0 2 1 else .branch 0 1 2)
        (if value then [2, 1] else [1, 2]) span) c t =
      .ok (.instr joined.2 .bool span, joined.1) t := by
    rw [bind_ok (moveTo_eq ..), hfork, bind_ok hrhs, bind_ok hj, bind_ok (get_eq ..),
      bind_ok (jump_eq ..), bind_ok (moveTo_eq ..), bind_ok (emit_eq ..)]
    rfl
  cases value with
  | true =>
    rw [if_pos rfl, bind_ok (branch_eq ..)]
    exact hjoin
  | false =>
    rw [if_neg (by decide), bind_ok (branch_eq ..)]
    exact hjoin

end Lower

/-! ## Values -/

namespace Analysis

variable {c : Context} {t t0 : Tables} {n rhs : NodeId} {value : Bool} {h depth : Nat}
  {scope : ScopeId}

/-- The analysis of a truth value ends, or a trap stops it. -/
def accepted {α : Type} : EStateM.Result Halt Tables α → Bool
  | .ok _ _ | .error (.trap _) _ => true
  | .error _ _ => false

theorem runDraft_skips {d : Draft} {g name start} (hd : d.Forks name start value) (hg : d.Leads g)
    (hframes : 0 < c.config.limits.maxFrames) (hsteps : 4 ≤ c.config.limits.maxSteps) (other : BlockId × InstrId)
    (span place) : let joined := { g with current := 2 }.emit (.phi [(Function.entry, 0), other]) .bool span
    ∃ strays, runDraft joined.1 joined.2 .bool place c t = .ok (.bool value) { t with strays } := by
  intro joined
  obtain ⟨hbare, last, hskips⟩ := @Draft.Forks.skips _ _ span _ _ _ hd hg other .bool place
  have hrun := @Machine.runFn_skips ⟨c.config.limits, t.types, t.code, c.host⟩ _ _ _ _ _ _ _ _ _ hskips hframes hsteps
  obtain ⟨strays, hreceive⟩ := receive_eq c t .bool (.bool value)
  refine ⟨strays, ?_⟩
  rw [runDraft, hbare, reads_bind types_reads, Machine.layoutFrame_bare]
  show outcome .bool (Machine.fresh.runFn ⟨c.config.limits, t.types, t.code, c.host⟩ _ []).1 c t = _
  rw [hrun]
  exact hreceive

theorem comptimeValue_skips (hfold : c.config.foldConstants = false) (ht : t.types.Grounded)
    (hsettles : c.ast.Settles n value rhs) (hrhs : c.ast.Literal rhs h) (hdepth : h < depth)
    (htypes : t0.types = t.types) {depth0 : Nat} {scope0 : ScopeId} {d0 : Draft} (hdepth0 : h ≤ depth0)
    (haccepted : accepted (Lower.boolean (walk depth0) scope0 rhs d0 c t0) = true)
    (hframes : 0 < c.config.limits.maxFrames) (hsteps : 4 ≤ c.config.limits.maxSteps) :
    ∃ strays, comptimeValue (walk depth) scope n none c t =
      .ok (.bool value, .bool) { t.nested scope with strays } := by
  have hpos := hrhs.pos
  have hnested : (t.nested scope).types.Grounded := ht
  have hopen (d : Draft) : ∃ o e o', Lower.boolean (walk (depth - 1)) t.scopes.scopes.nextId rhs d c
      (t.nested scope) = .ok (o, e) (t.nested scope) ∧ d.Leads e ∧ o.Similar c.config.foldConstants o' := by
    have hfollows : Lower.Follows c (t.nested scope) t0
        ((walk (depth - 1)).expr t.scopes.scopes.nextId rhs) ((walk depth0).expr scope0 rhs) :=
      Lower.walk_follows hnested htypes hrhs (Nat.le_sub_one_of_lt hdepth) hdepth0
    have hconcur := Lower.boolean_matches hnested htypes hfollows d d0
    unfold Lower.Concur at hconcur
    split at hconcur
    · next o e u o' e' u' hx hy =>
      obtain ⟨⟨rfl, -⟩, hlead, hsimilar, -⟩ := hconcur
      exact ⟨o, e, o', hx, hlead, hsimilar⟩
    · next halt u halt' u' hx hy =>
      obtain ⟨-, rfl, hno⟩ := hconcur
      rw [hy] at haccepted
      cases halt with
      | trap trap => exact absurd rfl (hno hfold trap)
      | _ => cases haccepted
    · exact hconcur.elim
  obtain ⟨span, place, hexpr⟩ := Lower.expr_settled (t := t.nested scope)
    (d := .straight "<comptime>" (c.ast.span n) []) hsettles (show 1 < depth by omega)
    t.scopes.scopes.nextId
  rw [hfold, if_neg (by decide)] at hexpr
  obtain ⟨reachable, g, other, hlead, hbranch⟩ :=
    Lower.branchLogic_leads hopen "<comptime>" (c.ast.span n) place span value
  obtain ⟨strays, hrun⟩ := runDraft_skips (t := t.nested scope) (Draft.opened_forks ..) hlead hframes
    hsteps other span (c.ast.span n)
  dsimp only at hbranch hrun
  generalize { g with current := 2 }.emit (.phi [(Function.entry, 0), other]) .bool span = joined at hbranch hrun
  refine ⟨strays, ?_⟩
  rw [comptimeValue_eq]
  have hvalue : (walk depth).value t.scopes.scopes.nextId n (.straight "<comptime>" (c.ast.span n) []) c
      (t.nested scope) = .ok (.instr joined.2 .bool span, joined.1) (t.nested scope) :=
    Lower.bind_ok (hexpr.trans hbranch)
  rw [StateT.run, bind_ok hvalue]
  show (runDraft joined.1 joined.2 .bool (c.ast.span n) >>= fun v => pure (v, TypeId.bool) :
    Analysis (Value × TypeId)) c (t.nested scope) = _
  rw [bind_ok hrun]
  rfl

theorem comptimeValue_of_const {op e v}
    (hx : (walk depth).expr t.scopes.scopes.nextId n (.straight "<comptime>" (c.ast.span n) []) c
      (t.nested scope) = .ok (op, e) (t.nested scope)) (hkind : op.kind = .const v) :
    comptimeValue (walk depth) scope n none c t = .ok (v, op.ty) (t.nested scope) := by
  have hvalue : (walk depth).value t.scopes.scopes.nextId n (.straight "<comptime>" (c.ast.span n) []) c
      (t.nested scope) = .ok (op, e) (t.nested scope) := by
    rw [Walk.value, Lower.bind_ok hx, Lower.rvalue, hkind]
    rfl
  rw [comptimeValue_eq, StateT.run, bind_ok hvalue, valueOf, hkind]
  rfl

theorem comptimeValue_of_error {halt}
    (hx : (walk depth).expr t.scopes.scopes.nextId n (.straight "<comptime>" (c.ast.span n) []) c
      (t.nested scope) = .error halt (t.nested scope)) :
    comptimeValue (walk depth) scope n none c t = .error halt (t.nested scope) := by
  rw [comptimeValue_eq, StateT.run]
  exact bind_error (Lower.bind_error hx)

theorem comptimeValue_folds (hfold : c.config.foldConstants = true) (ht : t.types.Grounded)
    (hsettles : c.ast.Settles n value rhs) (hrhs : c.ast.Literal rhs h) (hdepth : h < depth)
    (htypes : t0.types = t.types)
    (haccepted : accepted (Lower.boolean (walk depth) scope rhs (.scratch (c.ast.span rhs)) c t0) = true) :
    (∃ b, comptimeValue (walk depth) scope rhs none c t0 = .ok (.bool b, .bool) (t0.nested scope) ∧
      comptimeValue (walk depth) scope n none c t = .ok (.bool value, .bool) (t.nested scope)) ∨
    ∃ trap, comptimeValue (walk depth) scope rhs none c t0 = .error (.trap trap) (t0.nested scope) ∧
      comptimeValue (walk depth) scope n none c t = .error (.trap trap) (t.nested scope) := by
  have hpos := hrhs.pos
  have ht0 : t0.types.Grounded := htypes ▸ ht
  -- the operand is analysed for its own sake and as a part of the whole
  have halone : Lower.Follows c t0 (t0.nested scope) ((walk depth).expr scope rhs)
      ((walk depth).expr t0.scopes.scopes.nextId rhs) :=
    Lower.walk_follows ht0 (show (t0.nested scope).types = t0.types from rfl) hrhs hdepth.le hdepth.le
  have hpart : Lower.Follows c t0 (t.nested scope) ((walk depth).expr scope rhs)
      ((walk (depth - 1)).expr t.scopes.scopes.nextId rhs) :=
    Lower.walk_follows ht0 (show (t.nested scope).types = t0.types from htypes.symm) hrhs hdepth.le
      (Nat.le_sub_one_of_lt hdepth)
  obtain ⟨span, place, hexpr⟩ := Lower.expr_settled (t := t.nested scope)
    (d := .straight "<comptime>" (c.ast.span n) []) hsettles (show 1 < depth by omega)
    t.scopes.scopes.nextId
  rw [hfold, if_pos rfl] at hexpr
  have halone := halone (.scratch (c.ast.span rhs)) (.straight "<comptime>" (c.ast.span rhs) [])
  have hpart := hpart (.scratch (c.ast.span rhs)) (.scratch span)
  rw [Lower.boolean] at haccepted
  cases hrun : (walk depth).expr scope rhs (.scratch (c.ast.span rhs)) c t0 with
  | error halt u =>
    rw [hrun] at halone hpart
    rw [Lower.bind_error hrun] at haccepted
    obtain ⟨trap, rfl⟩ : ∃ trap, halt = .trap trap := by
      cases halt with
      | trap trap => exact ⟨trap, rfl⟩
      | _ => cases haccepted
    refine .inr ⟨trap, ?_, ?_⟩
    · exact comptimeValue_of_error halone.of_error
    · refine comptimeValue_of_error (hexpr.trans (Lower.bind_error ?_))
      rw [Lower.lift_eq, Lower.aside_eq, Lower.boolean, Lower.bind_error hpart.of_error]
  | ok r u =>
    obtain ⟨a, e⟩ := r
    rw [hrun] at halone hpart
    rw [Lower.bind_ok hrun] at haccepted
    obtain ⟨rfl, b, e', hb, -, hab⟩ := halone.of_ok
    obtain ⟨-, b', e'', hb', -, hab'⟩ := hpart.of_ok
    rw [hfold] at hab hab'
    cases hab with
    | instr _ executed => cases executed
    | @const _ v g kind ty holds =>
      obtain rfl : b' = a := by
        cases hab' with
        | const => rfl
        | instr _ executed => cases executed
      obtain rfl : g = .bool := by
        by_contra hne
        obtain ⟨diagnostic, hrefused⟩ := Lower.coerce_bool_refuses (d := e) (c := c) ht0 kind ty hne
        rw [hrefused] at haccepted
        cases haccepted
      obtain ⟨x, rfl⟩ := Ground.holds_bool holds
      have hsame : Lower.coerce b' .bool = pure b' := Lower.coerce_of_const_ty kind ty
      refine .inl ⟨x, ?_, ?_⟩
      · rw [comptimeValue_of_const hb kind, ty]
        rfl
      · have haside : (liftM (Lower.aside (.scratch span)
            (Lower.boolean (walk (depth - 1)) t.scopes.scopes.nextId rhs)) : Lower Operand)
            (.straight "<comptime>" (c.ast.span n) []) c (t.nested scope) =
            .ok (b', .straight "<comptime>" (c.ast.span n) []) (t.nested scope) := by
          rw [Lower.lift_eq, Lower.aside_eq, Lower.boolean, Lower.bind_ok hb', hsame]
          rfl
        rw [Lower.bind_ok haside] at hexpr
        exact comptimeValue_of_const hexpr rfl

end Analysis

/-! ## Sessions -/

namespace Session

variable {s : Session} {n rhs : NodeId} {value : Bool} {h : Nat}

theorem Reachable.grounded (h : s.Reachable) : s.tables.types.Grounded := by
  have hgrows := h.types_grow
  intro g
  rw [hgrows.kind (by cases g <;> decide)]
  cases g <;> rfl

/-- The expression has the type of the truth values: its analysis ends, or a trap stops it. -/
def Accepts (s : Session) (n : NodeId) : Prop :=
  Analysis.accepted (Lower.boolean (Analysis.walk (s.config.fuel + 8 * s.ast.size))
    Analysis.globalScope n (.scratch (s.ast.span n)) ⟨s.config, s.host, s.ast, s.nextTask, none⟩
    (s.asked n).tables) = true

instance (s : Session) (n : NodeId) : Decidable (s.Accepts n) := inferInstanceAs (Decidable (_ = true))

end Session

open Session in
/-- `false && e` is false and `true || e` is true, unless operators are folded and `e` traps. In that
case the whole traps. -/
theorem settled_unless_folded_operand_traps {s : Session} {n rhs : NodeId} {value : Bool} {h : Nat}
    (asks : s.Asks n) (asks_rhs : s.Asks rhs) (settles : s.ast.Settles n value rhs)
    (literal : s.ast.Literal rhs h) (accepts : s.Accepts rhs)
    (can : s.config.foldConstants = false →
      0 < s.config.limits.maxFrames ∧ 4 ≤ s.config.limits.maxSteps) :
    if s.config.foldConstants then
      (∃ b s' s'', s.eval rhs = .ok (.bool b) s' ∧ s.eval n = .ok (.bool value) s'') ∨
        ∃ trap s' s'', s.eval rhs = .error (.trapped trap) s' ∧ s.eval n = .error (.trapped trap) s''
    else ∃ s', s.eval n = .ok (.bool value) s' := by
  have hheight := literal.height_le
  have hpos := literal.pos
  have hdepth : h < s.config.fuel + 8 * s.ast.size := by omega
  have hgrounded : (s.asked n).tables.types.Grounded := asks.live.reachable.grounded
  cases hfold : s.config.foldConstants with
  | true =>
    have hboth := @Analysis.comptimeValue_folds ⟨s.config, s.host, s.ast, s.nextTask, none⟩
      (s.asked n).tables (s.asked rhs).tables n rhs value h _ Analysis.globalScope hfold hgrounded
      settles literal hdepth rfl accepts
    rw [if_pos rfl]
    obtain ⟨b, hrhs, hn⟩ | ⟨trap, hrhs, hn⟩ := hboth
    · have hanswer : s.answer n = .ok (.bool value, .bool) _ := hn
      have hanswer' : s.answer rhs = .ok (.bool b, .bool) _ := hrhs
      have hquiet : Asks.Quiet s n := by rw [Asks.Quiet, hanswer]; exact ⟨rfl, rfl⟩
      have hquiet' : Asks.Quiet s rhs := by rw [Asks.Quiet, hanswer']; exact ⟨rfl, rfl⟩
      obtain ⟨s', hs'⟩ := asks_rhs.eval_ok hquiet' hanswer'
      obtain ⟨s'', hs''⟩ := asks.eval_ok hquiet hanswer
      exact .inl ⟨b, s', s'', hs', hs''⟩
    · have hanswer : s.answer n = .error (.trap trap) _ := hn
      have hanswer' : s.answer rhs = .error (.trap trap) _ := hrhs
      have hquiet : Asks.Quiet s n := by rw [Asks.Quiet, hanswer]; exact ⟨rfl, rfl⟩
      have hquiet' : Asks.Quiet s rhs := by rw [Asks.Quiet, hanswer']; exact ⟨rfl, rfl⟩
      obtain ⟨s', hs'⟩ := asks_rhs.eval_trapped hquiet' hanswer'
      obtain ⟨s'', hs''⟩ := asks.eval_trapped hquiet hanswer
      exact .inr ⟨trap, s', s'', hs', hs''⟩
  | false =>
    obtain ⟨hframes, hsteps⟩ := can hfold
    obtain ⟨strays, hvalue⟩ := @Analysis.comptimeValue_skips
      ⟨s.config, s.host, s.ast, s.nextTask, none⟩ (s.asked n).tables (s.asked rhs).tables n rhs value h
      _ Analysis.globalScope hfold hgrounded settles literal hdepth rfl _ _ _ hdepth.le accepts hframes
      hsteps
    have hanswer : s.answer n = .ok (.bool value, .bool) _ := hvalue
    refine asks.eval_ok ?_ hanswer
    rw [Asks.Quiet, hanswer]
    exact ⟨rfl, rfl⟩

/-- `false && (1 / 0 == 0)`. -/
def shortcutAst : Ast := ⟨#[
  ⟨.boolLit false, ⟨0, 0, 5⟩⟩, ⟨.intLit 1, ⟨0, 10, 11⟩⟩, ⟨.intLit 0, ⟨0, 14, 15⟩⟩,
  ⟨.binary .div 1 2, ⟨0, 10, 15⟩⟩, ⟨.intLit 0, ⟨0, 19, 20⟩⟩,
  ⟨.binary .eq 3 4, ⟨0, 10, 20⟩⟩, ⟨.binary .logicAnd 0 5, ⟨0, 0, 20⟩⟩]⟩

/-- A session that folds the operators, or one that executes them. -/
def Session.shortcut (fold : Bool) : Session :=
  create { Config.default with foldConstants := fold } .none shortcutAst

theorem Session.shortcut_asks (fold) {n} (h : n = 5 ∨ n = 6) : (shortcut fold).Asks n := by
  obtain rfl | rfl := h <;> exact ⟨.initial _ _ _, by cases fold <;> decide +kernel, by cases fold <;> decide +kernel,
      by cases fold <;> decide, by cases fold <;> decide⟩

theorem Session.shortcut_accepts (fold) : (shortcut fold).Accepts 5 := by
  cases fold <;> decide

private theorem shortcutAst_settles : shortcutAst.Settles 6 false 5 := .intro rfl rfl rfl rfl

private theorem shortcutAst_literal : shortcutAst.Literal 5 3 :=
  .binary rfl (.binary rfl (.leaf rfl) (.leaf rfl)) (.leaf rfl)

/-- Executed, the division by zero is skipped. Folded, it decides about the whole. -/
theorem settled_unless_folded_operand_traps_division :
    (∃ s', (Session.shortcut false).eval 6 = .ok (.bool false) s') ∧
    ((∃ b s' s'', (Session.shortcut true).eval 5 = .ok (.bool b) s' ∧
        (Session.shortcut true).eval 6 = .ok (.bool false) s'') ∨
      ∃ trap s' s'', (Session.shortcut true).eval 5 = .error (.trapped trap) s' ∧
        (Session.shortcut true).eval 6 = .error (.trapped trap) s'') :=
  ⟨settled_unless_folded_operand_traps (Session.shortcut_asks false (.inr rfl))
      (Session.shortcut_asks false (.inl rfl)) shortcutAst_settles shortcutAst_literal
      (Session.shortcut_accepts false) fun _ => by decide,
    settled_unless_folded_operand_traps (Session.shortcut_asks true (.inr rfl))
      (Session.shortcut_asks true (.inl rfl)) shortcutAst_settles shortcutAst_literal
      (Session.shortcut_accepts true) fun h => by cases h⟩

/-- The trap with which a request ends. -/
def trapOf? {α : Type} : EStateM.Result Failure Session α → Option Trap
  | .error (.trapped trap) _ => some trap
  | _ => none

private theorem of_trapOf? {α : Type} {r : EStateM.Result Failure Session α} {trap} (h : trapOf? r = some trap) :
    ∃ s, r = .error (.trapped trap) s := by
  unfold trapOf? at h
  split at h
  · cases h
    exact ⟨_, rfl⟩
  · cases h

/-- Folded, the division by zero is computed although the result is settled. -/
theorem settled_operand_computed : ∃ trap s',
    (Session.shortcut true).eval 6 = .error (.trapped trap) s' ∧ trap.kind = .divideByZero := by
  have hrun : (trapOf? ((Session.shortcut true).eval 6)).map Trap.kind = some .divideByZero := by
    decide +kernel
  obtain ⟨trap, htrap, hkind⟩ := Option.map_eq_some_iff.mp hrun
  obtain ⟨s', hs'⟩ := of_trapOf? htrap
  exact ⟨trap, s', hs', hkind⟩

end Comptime
