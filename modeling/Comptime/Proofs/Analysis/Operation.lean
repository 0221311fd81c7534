import Comptime.Proofs.Analysis.Operand

/-!
# Operators in expressions

The operands of an operator are analysed by a walk, which is taken to be sound (`Walk.Sound`). Then
so is the operation: both operands have one type that allows the operator, and the result has the
type that follows from it.
-/

namespace Comptime

open Analysis (folding_reads quoted_reads types_reads)

/-- A walk whose expressions are sound, and from whose type expressions nothing comes out but types. -/
structure Walk.Sound (w : Walk) : Prop where
  expr : ∀ scope n c t d, Lower.Runs (w.expr scope n) c t d fun op t' d' => op.Sound t' d'
  stmt : ∀ scope n c t d, Lower.Runs (w.stmt scope n) c t d fun _ _ _ => True
  typeExpr : ∀ scope n c t, Analysis.Runs (w.typeExpr scope n) c t fun ty t' => t'.HasType ty
  frame : ∀ scope n c t, Ensures (w.typeExpr scope n c t) (fun _ t' => t.Frame t') fun _ _ => True

theorem Walk.Sound.value {w : Walk} (hw : w.Sound) (scope : ScopeId) (n : NodeId) (c : Context)
    (t : Tables) (d : Draft) :
    Lower.Runs (w.value scope n) c t d fun op t' d' => op.Sound t' d' :=
  (hw.expr scope n c t d).bind fun _ _ _ _ h => (Lower.rvalue_runs h).imp fun _ _ _ _ h => h.1

theorem Walk.Sound.typeExpr? {w : Walk} (hw : w.Sound) (scope n c t) :
    Analysis.Runs (w.typeExpr? scope n) c t fun ty t' => ∀ a ∈ ty, t'.HasType a := by
  cases n with
  | none => exact .pure (by simp)
  | some n =>
    refine (hw.typeExpr scope n c t).bind fun ty t' _ h => .pure ?_
    rintro a ⟨rfl⟩
    exact h

namespace Lower

variable {w : Walk} {c : Context} {t : Tables} {d : Draft} {lhs rhs : Operand} {op : BinaryOp} {span : Span}
  {scope : ScopeId}

/-! ## Operators -/

theorem meetingType_cases {t : TypeTable} {ty} (h : t.meetingType lhs rhs = some ty) :
    ty = lhs.ty ∨ ty = rhs.ty ∨ ty = .f64 := by
  unfold TypeTable.meetingType at h
  split at h
  · next ty' hc =>
    cases h
    unfold TypeTable.commonType at hc
    split at hc
    · cases hc
      exact .inl rfl
    · split at hc
      · cases hc
        exact .inr (.inl rfl)
      · split at hc <;> cases hc
        exact .inl rfl
  · split at h <;> cases h
    exact .inr (.inr rfl)

private theorem unifyOperands_runs (hl : lhs.Sound t d) (hr : rhs.Sound t d) :
    Runs (unifyOperands op lhs rhs span) c t d fun r t' d' => r.1.Sound t' d' ∧ r.2.Sound t' d' ∧ r.1.ty = r.2.ty := by
  have hleft : Runs (do return (← coerce lhs rhs.ty, rhs)) c t d fun r t' d' =>
      r.1.Sound t' d' ∧ r.2.Sound t' d' ∧ r.1.ty = r.2.ty :=
    (coerce_runs hl hr.hasType).bind fun _ _ _ s h => .pure ⟨h.1, hr.later s, h.2⟩
  have hright : Runs (do return (lhs, ← coerce rhs lhs.ty)) c t d fun r t' d' =>
      r.1.Sound t' d' ∧ r.2.Sound t' d' ∧ r.1.ty = r.2.ty :=
    (coerce_runs hr hl.hasType).bind fun _ _ _ s h => .pure ⟨hl.later s, h.1, h.2.symm⟩
  unfold unifyOperands
  split
  · exact hleft
  · exact hright
  · refine .ofSound fun ht => .reads types_reads ?_
    split
    · next ty hm =>
      have hty : t.HasType ty := by
        rcases meetingType_cases hm with rfl | rfl | rfl
        · exact hl.hasType
        · exact hr.hasType
        · exact fun _ => ht.types.has_f64.knows
      refine (coerce_runs hl hty).bind fun l t1 d1 s1 hl => ?_
      refine (coerce_runs (hr.later s1) (hty.later s1.toLater)).bind fun r t2 d2 s2 hr => ?_
      exact .pure ⟨hl.1.later s2, hr.1, hl.2.trans hr.2.symm⟩
    · refine .ite (fun _ => ?_) fun _ => ?_
      · exact .tryCatch (coerce_keeps.bind fun _ => .pure) hright fun _ => hleft
      · exact .reads (quoted_reads _) (.reads (quoted_reads _) (.throw rfl))

theorem binary_runs (hl : lhs.Sound t d) (hr : rhs.Sound t d) :
    Runs (binary op lhs rhs span) c t d fun r t' d' => r.Sound t' d' := by
  refine (unifyOperands_runs hl hr).bind fun r t1 d1 s1 h => ?_
  obtain ⟨lhs, rhs⟩ := r
  obtain ⟨hl, hr, hty⟩ := h
  simp only at hl hr hty
  refine .ofSound fun ht => .reads types_reads ?_
  refine .ite (fun ho => ?_) fun _ => .reads (quoted_reads _) (.thrown rfl)
  refine .reads folding_reads ?_
  split
  · next a b ha hb _ =>
    refine orTrapAt_runs.bind fun v t2 d2 s2 hv => .pure ?_
    have hc := (hl.ofConst? ha).binary (hty ▸ hr.ofConst? hb) ht ho hv
    have hop : (Operand.constant v (op.resultType lhs.ty) span).Sound t2 d2 :=
      .constant (hc.later s2.toLater)
    exact hop
  · refine (materialize_runs hl).bind fun a t2 d2 s2 ha => ?_
    refine (materialize_runs (hr.later s2)).bind fun b t3 d3 s3 hb => ?_
    have s13 := s2.trans s3
    have ho' := s13.grows.types.allowsBinary ht.types ho
    have hres : t3.HasType (op.resultType lhs.ty) := by
      intro hs
      unfold BinaryOp.resultType
      split
      · exact s13.sound'.types.has_bool.knows
      · exact hl.hasType.later s13.toLater hs
    refine (emit_runs rfl fun hs => ?_).bind fun i t4 d4 s4 hi => .pure ?_
    · exact .binary (ha.later s3 hs) (hty ▸ hb hs) ho'
    · have hop : (Operand.instr i (op.resultType lhs.ty) span).Sound t4 d4 :=
        .instr hi (hres.later s4.toLater)
      exact hop

theorem unary_runs {op operand} (h : operand.Sound t d) :
    Runs (unary op operand span) c t d fun r t' d' => r.Sound t' d' := by
  refine (rvalue_runs h).bind fun operand t1 d1 s1 h => ?_
  obtain ⟨h, -⟩ := h
  refine .ofSound fun ht => .reads types_reads ?_
  refine .ite (fun ho => ?_) fun _ => .reads (quoted_reads _) (.thrown rfl)
  refine .reads folding_reads ?_
  split
  · next a ha _ =>
    refine orTrapAt_runs.bind fun v t2 d2 s2 hv => .pure ?_
    have hop : (Operand.constant v operand.ty span).Sound t2 d2 :=
      .constant (((h.ofConst? ha).unary ht ho hv).later s2.toLater)
    exact hop
  · refine (materialize_runs h).bind fun a t2 d2 s2 ha => ?_
    have ho' := s2.grows.types.allowsUnary ht.types ho
    have hty := h.hasType.later s2.toLater
    refine (emit_runs rfl fun hs => .unary (ha hs) ho').bind fun i t3 d3 s3 hi => ?_
    have hop : (Operand.instr i operand.ty span).Sound t3 d3 := .instr hi (hty.later s3.toLater)
    exact .pure hop

theorem boolean_runs (hw : w.Sound) {n} : Runs (boolean w scope n) c t d fun r t' d' => r.Sound t' d' ∧ r.ty = .bool :=
  (hw.expr scope n c t d).bind fun _ _ _ s h =>
    coerce_runs h fun _ => s.sound'.types.has_bool.knows

/-! ## Logic -/

theorem branchLogic_runs (hw : w.Sound) {decided} {rhs} (hl : lhs.Sound t d) (hty : lhs.ty = .bool) :
    Runs (branchLogic w scope decided lhs rhs span) c t d fun r t' d' => r.Sound t' d' := by
  refine (materialize_runs hl).bind fun cond t1 d1 s1 hcond => ?_
  rw [hty] at hcond
  refine .get (addBlock_runs.bind fun rhsBlock t2 d2 s2 _ => ?_)
  refine addBlock_runs.bind fun stop t3 d3 s3 _ => ?_
  have hcond3 := hcond.later (s2.trans s3)
  have hjoin {t4 : Tables} {d4 : Draft} (s4 : Later t3 d3 t4 d4) :
      Runs (do
        moveTo rhsBlock
        let rhs ← materialize (← boolean w scope rhs)
        let rhsEnd := (← get).current
        jump stop span
        moveTo stop
        let id ← emit (.phi [(d1.current, cond), (rhsEnd, rhs)]) .bool span
        return Operand.instr id .bool span) c t4 d4 fun r t' d' => r.Sound t' d' := by
    refine moveTo_runs.bind fun _ t5 d5 s5 _ => ?_
    refine (boolean_runs hw).bind fun r t6 d6 s6 hr => ?_
    refine (materialize_runs hr.1).bind fun r' t7 d7 s7 hr' => ?_
    rw [hr.2] at hr'
    refine .get (jump_runs.bind fun _ t8 d8 s8 _ => ?_)
    refine moveTo_runs.bind fun _ t9 d9 s9 _ => ?_
    have hcond9 := hcond3.later (s4.trans (s5.trans (s6.trans (s7.trans (s8.trans s9)))))
    have hr9 := hr'.later (s8.trans s9)
    have hbool : t9.HasType .bool := fun _ => s9.sound'.types.has_bool.knows
    refine (emit_runs rfl fun hs => .phi ?_).bind fun i t' d' s hi => ?_
    · intro p hp
      rcases List.mem_pair.mp hp with rfl | rfl
      · exact hcond9 hs
      · exact hr9 hs
    · exact .pure (.instr hi (hbool.later s.toLater))
  refine .ite (fun _ => ?_) fun _ => ?_
  all_goals exact (branch_runs hcond3).bind fun _ t4 d4 s4 _ => hjoin s4

theorem logic_runs (hw : w.Sound) {lhs rhs} :
    Runs (logic w scope op lhs rhs span) c t d fun r t' d' => r.Sound t' d' := by
  refine (boolean_runs hw).bind fun l t1 d1 s1 hl => ?_
  refine .reads folding_reads ?_
  split
  · refine .ite (fun _ => ?_) fun _ => ?_
    · refine .liftBind (Runs.aside (P := fun _ _ => True) ?_ Draft.sound_scratch) fun _ t2 s2 _ => ?_
      · exact (boolean_runs hw).imp fun _ _ _ _ _ => trivial
      · exact .pure (.constant (.ofBool s2.sound'))
    · exact (boolean_runs hw).bind fun r _ _ _ hr => .pure hr.1
  · exact branchLogic_runs hw hl.1 hl.2

end Lower

end Comptime
