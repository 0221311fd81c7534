import Comptime.Proofs.Analysis.Equation
import Comptime.Proofs.Arithmetic.Folding
import Comptime.Proofs.Arithmetic.Lowering

/-!
# The values of numeric expressions

An expression that analysis cannot compute is written into a function, which the machine runs.
-/

namespace Comptime

namespace Analysis

variable {c : Context} {t : Tables} {name : String} {span place : Span} {l : List Instr}
  {id : InstrId} {n : Number} {ty : TypeId}

theorem receive_eq (c t ty v) : ∃ strays, receive ty v c t = .ok v { t with strays } := by
  show ∃ strays, (.ok v (if v.fits t.types ty then t else { t with strays := (ty, v) :: t.strays }) :
    EStateM.Result Halt Tables Value) = .ok v { t with strays }
  split
  · exact ⟨t.strays, rfl⟩
  · exact ⟨_, rfl⟩

theorem runDraft_eq (hl : Plain l) (id ty place) :
    runDraft (.straight name span l) id ty place c t =
      outcome ty (Machine.fresh.runFn ⟨c.config.limits, t.types, t.code, c.host⟩
        (Machine.straight name span l id place ty) []).1 c t := by
  rw [runDraft, Draft.emit_straight hl.unended]
  rfl

private theorem outcome_division {trap} (h : trap.kind = .divideByZero) :
    outcome ty (.trapped trap) c t = .error (.trap trap) t := by
  obtain ⟨kind, span⟩ := trap
  cases h
  rfl

theorem runDraft_spec (hl : Plain l) (hd : Delivers t.types l id n)
    (hstatus : status t.types l = n.status) (hregular : n.Regular)
    (hlen : l.length < c.config.limits.maxSteps) (hframes : 0 < c.config.limits.maxFrames) :
    match n.word with
    | .ok w => ∃ strays, runDraft (.straight name span l) id ty place c t =
      .ok (n.scalar.value w) { t with strays }
    | .error trap => runDraft (.straight name span l) id ty place c t = .error (.trap trap) t := by
  have hrun := @Machine.runFn_straight ⟨c.config.limits, t.types, t.code, c.host⟩ name span place l id
    ty hframes hlen hl
  rw [runDraft_eq hl]
  cases htrace : trace t.types l with
  | ok regs =>
    rw [htrace] at hrun
    obtain ⟨w, hw, hval⟩ := hd.word regs htrace
    rw [hw, hrun, hval]
    exact receive_eq c t ty (n.scalar.value w)
  | error trap =>
    rw [htrace] at hrun
    have hword : n.word = .error trap := by
      rw [status, htrace, Number.status] at hstatus
      cases hw : n.word with
      | ok w =>
        rw [hw] at hstatus
        cases hstatus
      | error trap' =>
        rw [hw] at hstatus
        cases hstatus
        rfl
    rw [hword, hrun]
    exact outcome_division (hregular trap hword)

theorem runDraft_overflow (hl : Plain l) (hframes : c.config.limits.maxFrames = 0) :
    runDraft (.straight name span l) id ty place c t = .error (.trap ⟨.stackOverflow, span⟩) t := by
  have hrun := @Machine.runFn_overflow ⟨c.config.limits, t.types, t.code, c.host⟩ name span place l id ty hframes
  rw [runDraft_eq hl, hrun]
  rfl

/-! ## Values -/

end Analysis

/-- Analysis knows the quantity without the machine. -/
def Quantity.isKnown : Quantity → Bool
  | number n => n.known
  | type _ => true

/-- The value of an expression, if it has one. What the machine has to compute needs a frame. -/
def Config.evaluate (config : Config) (env : String → Option Constant) (e : Arith) :
    Option Constant := do
  let q ← e.eval config.foldConstants env
  if q.isKnown || decide (0 < config.limits.maxFrames) then q.constant? else none

theorem Config.evaluate_of_eval {config : Config} {env : String → Option Constant} {e : Arith}
    {q : Quantity} (hq : e.eval config.foldConstants env = some q)
    (hknown : (q.isKnown || decide (0 < config.limits.maxFrames)) = true) :
    config.evaluate env e = q.constant? := by
  rw [evaluate, hq]
  exact if_pos hknown

/-- The tables in which an expression is evaluated: it has a scope of its own. -/
def Tables.nested (t : Tables) (scope : ScopeId) : Tables :=
  { t with scopes := (t.scopes.create .function (some scope)).1 }

/-- Why an expression is not evaluated. -/
inductive Unevaluated (c : Context) (view : String → Standing) (e : Arith) (h : Halt) : Prop
  | hindered (reason : Lower.Hindered c view e h)
  | executed {n : Number} {trap : Trap}
    (number : e.eval c.config.foldConstants (fun x => (view x).constant?) = some (.number n))
    (halt : h = .trap trap)
    (reason : n.word = .error trap ∨ (n.known = false ∧ c.config.limits.maxFrames = 0))

theorem Unevaluated.cases {c} {view : String → Standing} {e h} (hu : Unevaluated c view e h) :
    (∃ x ∈ e.names, (view x).Stops h) ∨ ((h.Reported ∨ ∃ trap, h = .trap trap) ∧
        ∀ env, Lower.Agrees view env → c.config.evaluate env e = none) := by
  have htrapped {n : Number} {trap : Trap} (hw : n.word = .error trap) :
      (Quantity.number n).constant? = none := by
    rw [Quantity.constant?, hw]
    rfl
  cases hu with
  | hindered reason =>
    cases reason with
    | name mem stops => exact .inl ⟨_, mem, stops⟩
    | refused reported meaningless =>
      refine .inr ⟨.inl reported, fun env henv => ?_⟩
      simp [Config.evaluate, Option.eq_none_iff_forall_ne_some.mpr (meaningless env henv)]
    | trapped fold halt traps =>
      refine .inr ⟨.inr ⟨_, halt⟩, fun env henv => ?_⟩
      rw [Config.evaluate]
      cases hq : e.eval c.config.foldConstants env with
      | none => rfl
      | some q =>
        obtain ⟨n, rfl, hw⟩ := traps env henv q hq
        simp [htrapped hw]
  | @executed n trap number halt reason =>
    refine .inr ⟨.inr ⟨_, halt⟩, fun env henv => ?_⟩
    rw [Config.evaluate, Arith.eval_mono henv number]
    rcases reason with hw | ⟨hk, hframes⟩
    · simp [htrapped hw]
    · simp [Quantity.isKnown, hk, hframes]

namespace Analysis

variable {c : Context} {t : Tables}

/-- The value of an operand, which the machine computes if it is no constant. -/
def valueOf (place : Span) (r : Operand × Draft) : Analysis (Value × TypeId) := do
  match r.1.kind with
  | .const v => return (v, r.1.ty)
  | .instr _ | .place _ =>
    let (result, d) ← (Lower.materialize r.1).run r.2
    return (← runDraft d result r.1.ty place, r.1.ty)
  | .group _ | .poly _ | .scope _ => typeError place "expected a value"

theorem comptimeValue_eq (w scope node c t) :
    comptimeValue w scope node none c t =
      ((w.value t.scopes.scopes.nextId node).run (.straight "<comptime>" (c.ast.span node) []) >>=
        valueOf (c.ast.span node)) c (t.nested scope) := by
  rw [comptimeValue, bind_ok (spanOf_reads node c t)]
  rfl

theorem valueOf_spec {l op q span place} {name : String} (hl : Plain l) (hop : op.Represents t.types l q)
    (hstatus : status t.types l = q.status) (hregular : ∀ n, q = .number n → n.Regular)
    (hlen : l.length < c.config.limits.maxSteps) :
    match valueOf place (op, .straight name span l) c t with
    | .ok (v, ty) t' => (∃ strays, t' = { t with strays }) ∧
      (q.isKnown || decide (0 < c.config.limits.maxFrames)) = true ∧
      ∃ k, q.constant? = some k ∧ v = k.value ∧ ty = k.ty
    | .error h t' => t' = t ∧ ∃ n trap, q = .number n ∧ h = .trap trap ∧
      (n.word = .error trap ∨ (n.known = false ∧ c.config.limits.maxFrames = 0)) := by
  cases hop with
  | @type ty kind typed literal =>
    have hvalue : valueOf place (op, .straight name span l) c t = .ok (.type ty, .type) t := by
      rw [valueOf, kind, typed]
      rfl
    rw [hvalue]
    exact ⟨⟨t.strays, rfl⟩, rfl, .type ty, rfl, rfl, rfl⟩
  | @number n carries =>
    obtain ⟨w, hk, hkind, hw⟩ | ⟨id, hk, hkind, hd⟩ := carries.cases
    · have hvalue : valueOf place (op, .straight name span l) c t = .ok (n.scalar.value w, n.scalar.ty) t := by
        rw [valueOf, hkind, carries.ty]
        rfl
      rw [hvalue]
      refine ⟨⟨t.strays, rfl⟩, by simp [Quantity.isKnown, hk], .number n.scalar w, ?_, rfl, rfl⟩
      rw [Quantity.constant?, hw]
      rfl
    · have hid : Lower.materialize op = pure id := by
        rw [Lower.materialize, Lower.rvalue_of_carries carries, pure_bind, hkind]
      have hvalue : valueOf place (op, .straight name span l) c t =
          ((runDraft (.straight name span l) id n.scalar.ty place >>= fun v =>
            pure (v, n.scalar.ty)) : Analysis (Value × TypeId)) c t := by
        rw [valueOf, hkind, carries.ty, hid]
        rfl
      rw [hvalue]
      by_cases hframes : 0 < c.config.limits.maxFrames
      · have hrun := @runDraft_spec c t name span place l id n n.scalar.ty hl hd hstatus (hregular n rfl) hlen hframes
        cases hw : n.word with
        | ok w =>
          rw [hw] at hrun
          obtain ⟨strays, hrun⟩ := hrun
          rw [bind_ok hrun]
          refine ⟨⟨strays, rfl⟩, by simp [hframes], .number n.scalar w, ?_, rfl, rfl⟩
          rw [Quantity.constant?, hw]
          rfl
        | error trap =>
          rw [hw] at hrun
          rw [bind_error hrun]
          exact ⟨rfl, n, trap, rfl, rfl, .inl hw⟩
      · have hzero : c.config.limits.maxFrames = 0 := by omega
        rw [bind_error (runDraft_overflow hl hzero)]
        exact ⟨rfl, n, _, rfl, rfl, .inr ⟨hk, hzero⟩⟩

theorem comptimeValue_spec {e : Arith} {node : NodeId} {scope : ScopeId} {view : String → Standing}
    {depth : Nat} (ht : t.types.Numbers) (he : c.ast.Spells node e) (hdepth : e.height ≤ depth)
    (hsteps : 7 * e.size < c.config.limits.maxSteps)
    (hview : ∀ x ∈ e.names, (t.nested scope).scopes.Shows t.scopes.scopes.nextId x (view x)) :
    match comptimeValue (walk depth) scope node none c t with
    | .ok (v, ty) t' => (∃ strays, t' = { t.nested scope with strays }) ∧
      ∃ k, c.config.evaluate (fun x => (view x).constant?) e = some k ∧ v = k.value ∧ ty = k.ty
    | .error h t' => t' = t.nested scope ∧ Unevaluated c view e h := by
  have hbody : Lower.Yields ((walk depth).value t.scopes.scopes.nextId node) c (t.nested scope)
      (.straight "<comptime>" (c.ast.span node) []) _ _ :=
    Lower.value_yields (Lower.expression_yields ht he hdepth hview fun k i hi => by simp at hi)
  unfold Lower.Yields at hbody
  rw [comptimeValue_eq, StateT.run]
  cases hres : (walk depth).value t.scopes.scopes.nextId node
      (.straight "<comptime>" (c.ast.span node) []) c (t.nested scope) with
  | error h t' =>
    rw [hres] at hbody
    obtain ⟨rfl, hh⟩ := hbody
    rw [bind_error hres]
    exact ⟨rfl, .hindered hh⟩
  | ok r t' =>
    obtain ⟨op, d⟩ := r
    rw [hres] at hbody
    obtain ⟨rfl, q, hq, l, rfl, hcont, hop⟩ := hbody
    rw [bind_ok hres]
    have hlen : l.length < c.config.limits.maxSteps := by
      have hbound := hcont.length
      rw [List.length_nil] at hbound
      omega
    have hvalue := @valueOf_spec c (t.nested scope) l op q (c.ast.span node) (c.ast.span node)
      "<comptime>" hcont.plain hop hcont.status (fun n hn => Arith.eval_regular (hn ▸ hq)) hlen
    split at hvalue
    · obtain ⟨hstrays, hknown, k, hk, rfl, rfl⟩ := hvalue
      exact ⟨hstrays, k, (Config.evaluate_of_eval hq hknown).trans hk, rfl, rfl⟩
    · obtain ⟨rfl, n, trap, rfl, rfl, hreason⟩ := hvalue
      exact ⟨rfl, .executed hq rfl hreason⟩

theorem comptimeValue_typed {e : Arith} {node : NodeId} {scope : ScopeId} {depth : Nat}
    (ht : t.types.Numbers) (he : c.ast.Spells node e) (hdepth : e.height ≤ depth)
    (hsteps : 7 * e.size < c.config.limits.maxSteps)
    (hframes : c.config.foldConstants = false → 0 < c.config.limits.maxFrames)
    (htyped : e.isTyped = true) (hc : c.config.foldConstants = true ∨ e.clashes = false) :
    match e.word with
    | .ok w => ∃ strays, comptimeValue (walk depth) scope node none c t =
      .ok (e.scalar.value w, e.scalar.ty) { t.nested scope with strays }
    | .error trap => comptimeValue (walk depth) scope node none c t =
      .error (.trap trap) (t.nested scope) := by
  let view : String → Standing := fun _ => .unknown
  obtain ⟨n, hn, hscalar, hword, hknown⟩ :=
    Arith.eval_of_isTyped htyped hc fun x => (view x).constant?
  have hspec := @comptimeValue_spec c t e node scope view depth ht he hdepth hsteps
    (by simp [Arith.names_of_isTyped htyped])
  have hcan : ((Quantity.number n).isKnown || decide (0 < c.config.limits.maxFrames)) = true := by
    cases hfold : c.config.foldConstants with
    | true => simp [Quantity.isKnown, hknown hfold]
    | false => simp [hframes hfold]
  split at hspec
  · next v ty t' hres =>
    obtain ⟨⟨strays, rfl⟩, k, hk, rfl, rfl⟩ := hspec
    rw [Config.evaluate_of_eval hn hcan, Quantity.constant?, hword, hscalar] at hk
    cases hw : e.word with
    | error trap => simp [hw, Except.toOption] at hk
    | ok w =>
      simp only [hw, Except.toOption, Option.map_some, Option.some.injEq] at hk
      subst hk
      exact ⟨strays, hres⟩
  · next h t' hres =>
    obtain ⟨rfl, hu⟩ := hspec
    have htrap : ∃ trap, h = .trap trap ∧ e.word = .error trap := by
      cases hu with
      | hindered reason =>
        cases reason with
        | name mem => simp [Arith.names_of_isTyped htyped] at mem
        | refused reported meaningless => exact absurd hn (meaningless _ (fun x k hk => hk) _)
        | @trapped trap fold halt traps =>
          obtain ⟨_, ⟨rfl⟩, hw⟩ := traps _ (fun x k hk => hk) _ hn
          exact ⟨trap, halt, hword ▸ hw⟩
      | @executed m trap number halt reason =>
        rw [hn] at number
        cases number
        refine ⟨trap, halt, hword ▸ reason.resolve_right ?_⟩
        rintro ⟨hk, hzero⟩
        simp [Quantity.isKnown, hk, hzero] at hcan
    obtain ⟨trap, rfl, hw⟩ := htrap
    rw [hw]
    exact hres

end Analysis

end Comptime
