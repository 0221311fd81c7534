import Comptime.Proofs.Analysis.Expression

/-!
# Statements

Every statement extends the draft by typed code if its parts do.
-/

namespace Comptime.Lower

variable {w : Walk} {c : Context} {t : Tables} {d : Draft} {scope : ScopeId} {span : Span} {n : NodeId} {op : Operand}
  {decl : Decl}

/-! ## Blocks and deferred statements -/

theorem runDeferred_runs (hw : w.Sound) {stmts} : Runs (runDeferred w stmts) c t d fun _ _ _ => True := by
  refine .get (.modifyBind rfl rfl ?_)
  refine (Runs.forM fun s _ t' d' _ => hw.stmt s.2 s.1 c t' d').bind fun _ t2 d2 _ _ => ?_
  exact .modify rfl rfl trivial

private theorem closeBlock_runs : Runs closeBlock c t d fun _ _ _ => True :=
  .modifyGet (.ofSameBody rfl rfl) (fun ht hd => hd.ofSameBody ht rfl rfl) trivial

theorem block_runs (hw : w.Sound) {stmts} : Runs (block w scope stmts) c t d fun _ _ _ => True := by
  refine .liftBind Analysis.createScope_runs fun inner t1 s1 _ => ?_
  refine .modifyBind rfl rfl ?_
  refine (Runs.forM fun n _ t' d' _ => hw.stmt inner n c t' d').bind fun _ t3 d3 _ _ => ?_
  refine closeBlock_runs.bind fun deferred t4 d4 _ _ => .get ?_
  exact .ite (fun _ => .pure trivial) fun _ => runDeferred_runs hw

private theorem pushDeferred_runs {inner} :
    Runs (do
      match (← get).defers with
      | [] => Analysis.typeError span "`defer` outside of a block"
      | stmts :: outer => modify fun d => { d with defers := ((inner, scope) :: stmts) :: outer })
      c t d fun _ _ _ => True := by
  refine .get ?_
  split
  · exact .throw rfl
  · exact .modify rfl rfl trivial

theorem defer_runs {inner} : Runs (defer scope inner span) c t d fun _ _ _ => True := by
  refine .get (.ite (fun _ => .thrown rfl) fun _ => .reads (Analysis.node_reads inner) ?_)
  split
  · exact .thrown rfl
  · exact pushDeferred_runs

/-! ## Control -/

section

variable (hw : w.Sound)

include hw

theorem condition_runs : Runs (condition w scope n) c t d fun i t' d' => d'.Gives t' i .bool := by
  refine (boolean_runs hw).bind fun op t1 d1 _ hop => ?_
  rw [← hop.2]
  exact materialize_runs hop.1

theorem arm_runs {b stop} : Runs (choose.arm w scope span b n stop) c t d fun _ _ _ => True := by
  refine moveTo_runs.bind fun _ t1 d1 _ _ => ?_
  exact (hw.stmt scope n c t1 d1).bind fun _ t2 d2 _ _ => jump_runs

theorem choose_runs {cond yes no} : Runs (choose w scope cond yes no span) c t d fun _ _ _ => True := by
  refine (condition_runs hw).bind fun cond t1 d1 _ hcond => ?_
  refine addBlock_runs.bind fun yesBlock t2 d2 s2 _ => ?_
  split
  · refine addBlock_runs.bind fun noBlock t3 d3 s3 _ => ?_
    refine addBlock_runs.bind fun stop t4 d4 s4 _ => ?_
    refine (branch_runs (hcond.later (s2.trans (s3.trans s4)))).bind fun _ t5 d5 _ _ => ?_
    refine (arm_runs hw).bind fun _ t6 d6 _ _ => ?_
    exact (arm_runs hw).bind fun _ t7 d7 _ _ => moveTo_runs
  · refine addBlock_runs.bind fun stop t3 d3 s3 _ => ?_
    refine (branch_runs (hcond.later (s2.trans s3))).bind fun _ t4 d4 _ _ => ?_
    exact (arm_runs hw).bind fun _ t5 d5 _ _ => moveTo_runs

private theorem enterLoop_runs {cond body stop} :
    Runs (enterLoop w scope cond body stop span) c t d fun _ _ _ => True := by
  unfold enterLoop
  split
  · exact (condition_runs hw).bind fun cond t1 d1 _ hcond => branch_runs hcond
  · exact jump_runs

theorem repeatLoop_runs {cond body} : Runs (repeatLoop w scope cond body span) c t d fun _ _ _ => True := by
  refine addBlock_runs.bind fun condBlock t1 d1 _ _ => ?_
  refine addBlock_runs.bind fun bodyBlock t2 d2 _ _ => ?_
  refine addBlock_runs.bind fun stop t3 d3 _ _ => ?_
  refine jump_runs.bind fun _ t4 d4 _ _ => moveTo_runs.bind fun _ t5 d5 _ _ => ?_
  refine (enterLoop_runs hw).bind fun _ t6 d6 _ _ => ?_
  refine .modifyBind rfl rfl ?_
  refine moveTo_runs.bind fun _ t8 d8 _ _ => ?_
  refine (hw.stmt scope body c t8 d8).bind fun _ t9 d9 _ _ => ?_
  refine .modifyBind rfl rfl ?_
  exact jump_runs.bind fun _ _ _ _ _ => moveTo_runs

theorem exitLoop_runs {word} {target : LoopTargets → BlockId} :
    Runs (exitLoop w word target span) c t d fun _ _ _ => True := by
  refine .get (.ite (fun _ => .thrown rfl) fun _ => ?_)
  split
  · exact .throw rfl
  · exact (runDeferred_runs hw).bind fun _ _ _ _ _ => jump_runs

theorem giveBack_runs {value} : Runs (giveBack w scope value span) c t d fun _ _ _ => True := by
  refine .ofDraft fun hd => .get (.get ?_)
  refine .ite (fun _ => .thrown rfl) fun _ => ?_
  have hret : t.HasType d.func.ret := fun hs => (hd.typed hs).2
  cases value with
  | some value =>
    refine .ite (fun _ => .thrown rfl) fun hne => ?_
    refine (hw.expr scope value c t d).bind fun op t1 d1 s1 hop => ?_
    refine (coerce_runs hop (hret.later s1.toLater)).bind fun r t2 d2 s2 hr => ?_
    refine (materialize_runs hr.1).bind fun i t3 d3 s3 hi => ?_
    refine .get ((runDeferred_runs hw).bind fun _ t4 d4 s4 _ => ?_)
    have hsame : d4.func.ret = d.func.ret :=
      (s1.trans (s2.trans (s3.trans s4))).extended.ret
    refine (emitVoid_runs rfl fun hs => ?_).bind fun _ _ _ _ _ => .pure trivial
    have hg := hi.later s4 hs
    rw [hr.2, ← hsame] at hg
    exact .giveBack (hsame ▸ hne) hg
  | none =>
    refine .ite (fun _ => .reads (Analysis.quoted_reads _) (.thrown rfl)) fun hvoid => ?_
    refine .get ((runDeferred_runs hw).bind fun _ t1 d1 s1 _ => ?_)
    refine (emitVoid_runs rfl fun _ => .giveNothing ?_).bind fun _ _ _ _ _ => .pure trivial
    exact s1.extended.ret.trans (Decidable.not_not.mp hvoid)

/-! ## Switches -/

private theorem addCaseValue_runs {ty b cases} (hty : t.HasType ty) :
    Runs (addCaseValue w scope ty b cases n) c t d fun _ _ _ => True := by
  have he : ∀ a ∈ some ty, t.HasType a := by
    rintro a ⟨rfl⟩
    exact hty
  refine .liftBind (Analysis.comptimeValue_runs hw he) fun r t1 s1 _ => ?_
  dsimp only
  split
  · exact .ite (fun _ => .reads (Analysis.spanOf_reads n) (.thrown rfl)) fun _ => .pure trivial
  · exact .reads (Analysis.spanOf_reads n) (.throw rfl)

private theorem addCase_runs {ty table cs} (hty : t.HasType ty) :
    Runs (addCase w scope ty table cs) c t d fun _ _ _ => True := by
  refine .ite (fun _ => ?_) fun _ => ?_
  · refine addBlock_runs.bind fun b t1 d1 _ _ => ?_
    exact .ite (fun _ => .thrown rfl) fun _ => .pure trivial
  · refine addBlock_runs.bind fun b t1 d1 s1 _ => ?_
    refine (Runs.foldlM (Q := fun _ _ _ => True) trivial fun n _ cases t2 d2 s2 _ => ?_).bind
      fun _ _ _ _ _ => .pure trivial
    exact addCaseValue_runs hw (hty.later (s1.trans s2).toLater)

theorem switchStmt_runs {value cases} : Runs (switchStmt w scope value cases span) c t d fun _ _ _ => True := by
  refine (hw.value scope value c t d).bind fun op t1 d1 s1 hop => ?_
  refine .reads Analysis.types_reads (.ite (fun _ => .reads (Analysis.quoted_reads _) (.thrown rfl)) ?_)
  intro hint
  refine (materialize_runs hop).bind fun v t2 d2 s2 hv => ?_
  refine addBlock_runs.bind fun stop t3 d3 s3 _ => ?_
  have hcases : Runs (cases.foldlM (addCase w scope op.ty) ⟨[], none, []⟩) c t3 d3 fun _ _ _ => True := by
    refine .foldlM trivial fun cs _ table t' d' s' _ => addCase_runs hw ?_
    exact hop.hasType.later (s2.trans (s3.trans s')).toLater
  refine hcases.bind fun table t4 d4 s4 _ => ?_
  have s := s2.trans (s3.trans s4)
  have hinfo : (t4.types.intInfo op.ty).isSome = true := by
    obtain ⟨info, hi⟩ := Option.ne_none_iff_exists'.mp (by simpa using hint)
    rw [s.grows.types.intInfo_eq_some s.sound.types hi]
    rfl
  refine (switch_runs (hv.later (s3.trans s4)) fun _ => hinfo).bind fun _ t5 d5 _ _ => ?_
  refine (Runs.forM fun a _ t' d' _ => ?_).bind fun _ t6 d6 _ _ => moveTo_runs
  exact arm_runs hw

end

/-! ## Variables -/

private theorem assignedValue_runs {op place value} (hp : place.Sound t d) (hv : value.Sound t d) :
    Runs (assignedValue op place value span) c t d fun r t' d' => r.Sound t' d' := by
  cases op with
  | some op =>
    refine (rvalue_runs hp).bind fun current t1 d1 s1 hc => ?_
    refine (rvalue_runs (hv.later s1)).bind fun value t2 d2 s2 hv => ?_
    exact binary_runs (hc.1.later s2) hv.1
  | none => exact .pure hv

theorem assign_runs (hw : w.Sound) {op target value} :
    Runs (assign w scope op target value span) c t d fun _ _ _ => True := by
  refine (hw.expr scope target c t d).bind fun place t1 d1 s1 hp => ?_
  split
  · next ptr hk =>
    refine .ite (fun _ => ?_) fun _ => .thrown rfl
    refine (hw.expr scope value c t1 d1).bind fun value t2 d2 s2 hv => ?_
    refine (assignedValue_runs (hp.later s2) hv).bind fun value t3 d3 s3 hv => ?_
    have hty := hp.hasType.later (s2.trans s3).toLater
    refine (coerce_runs hv hty).bind fun value t4 d4 s4 hv => ?_
    refine (materialize_runs hv.1).bind fun stored t5 d5 s5 hstored => ?_
    refine (emitVoid_runs rfl fun hs => ?_).bind fun _ _ _ _ _ => .pure trivial
    obtain ⟨pty, hptr, hkind⟩ :=
      (hp.ofPlace hk).later (s2.trans (s3.trans (s4.trans s5))) hs
    rw [← hv.2] at hkind
    exact .store hptr (hstored hs) hkind
  · exact .throw rfl

theorem initialValue_runs (hw : w.Sound) :
    Runs (initialValue w scope n decl span) c t d fun op t' d' => op.Sound t' d' := by
  refine .liftBind (hw.typeExpr? scope decl.ty c t) fun declared t1 s1 hty => ?_
  split
  · refine (hw.expr scope _ c t1 d).bind fun op t2 d2 s2 hop => ?_
    exact (coerce_runs hop ((hty _ rfl).later s2.toLater)).imp fun _ _ _ _ h => h.1
  · exact hw.value scope _ c t1 d
  · refine .liftBind Analysis.zeroValue_runs fun v t2 s2 hv => ?_
    exact .pure (.constant hv)
  · exact .throw rfl

private theorem constantBinding_sound {v} (h : op.Sound t d) (hb : constantBinding op = some v) (hs : t.Sane) :
    v.Sound t := by
  unfold constantBinding at hb
  split at hb
  · next hk =>
    cases hb
    exact (h.ofConst hk).hasType hs
  · cases hb
    trivial
  · next hk =>
    cases hb
    exact h.ofConst hk hs
  · next hk =>
    cases hb
    exact fun f hf => h.ofGroup hk f hf hs
  · cases hb
    trivial
  · cases hb
    trivial
  · cases hb
  · cases hb

private theorem newVariable_runs {name mutable} (h : op.Sound t d) :
    Runs (newVariable name op mutable span) c t d fun v t' _ => t'.Sane → v.Sound t' := by
  refine .liftBind Analysis.checkStorage_runs fun _ t1 s1 _ => ?_
  have h := h.later (s1.keep d)
  refine (materialize_runs h).bind fun stored t2 d2 s2 hstored => ?_
  refine addSlot_runs.bind fun slot t3 d3 s3 _ => ?_
  have hty := h.hasType.later (s2.trans s3).toLater
  refine .liftBind (Analysis.ptrTo_runs hty) fun pty t4 s4 hpty => ?_
  refine (emit_runs rfl fun _ => .slotPtr hpty).bind fun ptr t5 d5 s5 hptr => ?_
  have hstored := hstored.later (s3.trans ((s4.keep d3).trans s5))
  refine (emitVoid_runs rfl fun hs => ?_).bind fun _ t6 d6 s6 _ => ?_
  · exact .store (hptr hs) (hstored hs) (s5.toLater.kind hpty (by simp))
  · exact .pure (hty.later (s4.trans (s5.trans s6).toLater))

private theorem localBinding_runs (h : op.Sound t d) :
    Runs (localBinding decl op span) c t d fun v t' _ => t'.Sane → v.Sound t' := by
  refine .ite (fun _ => ?_) fun _ => ?_
  · exact .ite (fun _ => newVariable_runs h) fun _ => .thrown rfl
  · split
    · next bound hb => exact .pure (constantBinding_sound h hb)
    · exact newVariable_runs h

private theorem localDecl_runs (hw : w.Sound) : Runs (localDecl w scope n decl span) c t d fun _ _ _ => True := by
  refine .read (.ite (fun _ => ?_) fun _ => ?_)
  · refine .liftBind (Analysis.declareSymbol_runs ⟨by simp, .inl rfl⟩ (by simp)) fun id t1 s1 _ => ?_
    refine .liftBind (Analysis.directBinding_runs hw) fun r t2 s2 hr => ?_
    split
    · next bound => exact .lift ((Analysis.resolveSymbol_runs (hr bound rfl)).imp fun _ _ _ _ => trivial)
    · exact .pure trivial
  · refine (initialValue_runs hw).bind fun op t1 d1 s1 hop => ?_
    refine (localBinding_runs hop).bind fun bound t2 d2 s2 hbound => ?_
    refine .liftBind (Analysis.declareSymbol_runs ⟨by simp, .inr ⟨_, rfl⟩⟩ ?_) fun _ _ _ _ => .pure trivial
    rintro v ⟨rfl⟩
    exact hbound

/-! ## All statements -/

private theorem staticAssert_runs (hw : w.Sound) {cond} {message} :
    Analysis.Runs (staticAssert w scope cond message span) c t fun _ _ => True := by
  refine .ofSound fun ht => ?_
  have he : ∀ a ∈ some TypeId.bool, t.HasType a := by
    rintro a ⟨rfl⟩
    exact fun _ => ht.types.has_bool.knows
  refine (Analysis.comptimeValue_runs hw he).bind fun r t1 _ _ => ?_
  split
  · exact .throw rfl
  · exact .pure trivial

theorem statement_runs (hw : w.Sound) : Runs (statement w scope n) c t d fun _ _ _ => True := by
  refine .reads (Analysis.node_reads n) ?_
  obtain ⟨kind, span⟩ := c.ast.node n
  dsimp only
  split
  · exact localDecl_runs hw
  · exact block_runs hw
  · exact choose_runs hw
  · exact repeatLoop_runs hw
  · exact exitLoop_runs hw
  · exact exitLoop_runs hw
  · exact giveBack_runs hw
  · exact switchStmt_runs hw
  · exact defer_runs
  · exact assign_runs hw
  · exact (emitVoid_runs rfl fun _ => .unreachable).bind fun _ _ _ _ _ => .pure trivial
  · refine (condition_runs hw).bind fun cond t1 d1 _ hcond => ?_
    exact (emitVoid_runs rfl fun hs => .assert (hcond hs)).bind fun _ _ _ _ _ => .pure trivial
  · exact .lift (staticAssert_runs hw)
  · exact .throw rfl
  · exact (hw.value scope n c t d).bind fun _ _ _ _ _ => .pure trivial

end Comptime.Lower
