import Comptime.Proofs.Analysis.Access

/-!
# Evaluation at compile time and declarations of functions

A value that the machine returns is received as a constant of its type, or it is noted as a stray. A
function that is declared exists, and its head is made of types that exist.
-/

namespace Comptime

/-! ## Evaluation at compile time -/

namespace Analysis

variable {w : Walk} {c : Context} {t : Tables} {ty : TypeId} {scope : ScopeId} {n : NodeId}
  {bindings : List (String × TypeId)} {name : String}

private theorem receive_runs {v} : Runs (receive ty v) c t fun r t' => t'.HasConst ty r := by
  refine (Runs.modify (P := fun _ t' => t'.HasConst ty v) ?_ ?_).bind fun _ _ _ h => .pure h
  · split
    · exact .refl t
    · exact Tables.Update.stray.updates
  · intro hs
    split at hs
    · next hfits => simpa only [if_pos hfits] using hfits
    · cases hs.strays

theorem outcome_runs {o} (ho : o.Fair t.code) : Runs (outcome ty o) c t fun r t' => t'.HasConst ty r := by
  unfold outcome
  split
  · exact receive_runs
  · next trap =>
    split
    · next hk =>
      obtain ⟨f, hf, hfailed⟩ := ho (by rw [hk]; rfl)
      exact .throwing (.function hf hfailed)
    · exact .throw rfl
  · refine .reads get_reads ?_
    split
    · next hf => exact .throwing (.body ho hf)
    · exact .throw rfl
  · exact .throw rfl
  · exact .throw rfl

theorem hasType_signature (ht : t.Sound) {f} (hf : t.HasFn f) :
    (∀ p ∈ (t.code.function f).params, t.HasType p) ∧ t.HasType (t.code.function f).ret := by
  have hsig (hs : t.Sane) := (ht.proper hs).named.knows_signature ((ht.proper hs).code.signature f (hf hs))
  exact ⟨fun p hp hs => (hsig hs).1 p hp, fun hs => (hsig hs).2⟩

theorem callNow_runs {f args} :
    Runs (callNow f args) c t fun r t' => t'.HasConst (t.code.function f).ret r :=
  .reads code_reads (.reads setting_reads (outcome_runs (Machine.fair_run ..)))

private theorem runDraft_runs {d result span} : Runs (runDraft d result ty span) c t fun r t' => t'.HasConst ty r := by
  refine .reads types_reads ?_
  split
  · next hframe => exact layoutHalt_runs (Function.admits_of_layoutFrame hframe)
  · exact .reads setting_reads (outcome_runs (Machine.fair_runFn ..))

private theorem comptimeOperand_runs (hw : w.Sound) (scope n d) {expected} (he : ∀ ty ∈ expected, t.HasType ty) :
    Lower.Runs (do
      let op ← w.expr scope n
      match expected with
      | some ty => Lower.coerce op ty
      | none => Lower.rvalue op) c t d fun op t' d' =>
      op.Sound t' d' ∧ ∀ ty ∈ expected, op.ty = ty := by
  refine (hw.expr scope n c t d).bind fun op t1 d1 s1 hop => ?_
  split
  · next ty =>
    refine (Lower.coerce_runs hop ((he ty rfl).later s1.toLater)).imp ?_
    rintro r t' d' - ⟨hr, hty⟩
    refine ⟨hr, ?_⟩
    rintro ty ⟨rfl⟩
    exact hty
  · exact (Lower.rvalue_runs hop).imp fun r t' d' _ hr => ⟨hr.1, by simp⟩

private theorem executeOperand_runs {op d} (span) (hd : d.Sound t) (hop : op.Sound t d) : Runs (do
      let (result, d) ← (Lower.materialize op).run d
      return (← runDraft d result op.ty span, op.ty)) c t fun r t' =>
      t'.HasConst r.2 r.1 ∧ r.2 = op.ty := by
  refine ((Lower.materialize_runs hop).run fun _ => hd).bind fun r t1 s1 _ => ?_
  exact runDraft_runs.bind fun v t2 s2 hv => .pure ⟨hv, rfl⟩

theorem comptimeValue_runs (hw : w.Sound) {expected} (he : ∀ ty ∈ expected, t.HasType ty) :
    Runs (comptimeValue w scope n expected) c t fun r t' => t'.HasConst r.2 r.1 ∧ ∀ ty ∈ expected, r.2 = ty := by
  refine .reads (spanOf_reads n) ?_
  refine createScope_runs.bind fun inner t1 s1 _ => ?_
  have hbody := comptimeOperand_runs (c := c) hw inner n (.temporary "<comptime>" (c.ast.span n))
    fun ty hty => (he ty hty).later s1
  refine (hbody.run Draft.sound_temporary).bind fun r t2 s2 hr => ?_
  obtain ⟨op, d⟩ := r
  obtain ⟨-, hd, hop, hty⟩ := hr
  have hrun := executeOperand_runs (c := c) (c.ast.span n) hd hop
  replace hrun : Runs _ c t2 fun (r : Value × TypeId) t' => t'.HasConst r.2 r.1 ∧ ∀ ty ∈ expected, r.2 = ty :=
    hrun.imp fun r _ _ hr => ⟨hr.1, fun ty hm => hr.2.trans (hty ty hm)⟩
  dsimp only
  split
  · next v hk => exact .pure ⟨hop.ofConst hk, hty⟩
  · exact hrun
  · exact hrun
  · exact .throw rfl
  · exact .throw rfl
  · exact .throw rfl

/-! ## Declarations of functions -/

theorem fnLiteral_runs : Runs (fnLiteral n) c t fun _ _ => True := by
  refine .reads (node_reads n) ?_
  split
  · exact .pure trivial
  · exact .throw rfl

theorem fnScope_runs {parent} (hb : ∀ b ∈ bindings, t.HasType b.2) :
    Runs (fnScope parent bindings) c t fun _ _ => True := by
  refine createScope_runs.bind fun scope t1 s1 _ => ?_
  refine (Runs.forM (Q := fun _ _ => True) trivial fun b hmem t2 s2 _ => ?_).bind fun _ _ _ _ => .pure trivial
  refine (insertSymbol_runs ⟨by simp, .inr ⟨_, rfl⟩⟩ ?_).bind fun _ _ _ _ => .pure trivial
  rintro v ⟨rfl⟩
  exact (hb b hmem).later (s1.trans s2)

private theorem paramTypes_runs (hw : w.Sound) {params} :
    Runs (paramTypes w scope params) c t fun tys t' => ∀ ty ∈ tys, t'.HasType ty := by
  refine (Runs.mapM (R := fun _ ty t => t.HasType ty) (fun _ _ s h => h.later s) ?_).imp ?_
  · intro p _ t' _
    refine (hw.typeExpr scope p.ty c t').bind fun ty t'' _ hty => ?_
    exact .ite (fun _ => .thrown rfl) fun _ => .pure hty
  · intro tys t' _ h ty hmem
    obtain ⟨i, hi, rfl⟩ := List.getElem_of_mem hmem
    exact h.get (h.length_eq ▸ hi) hi

private theorem addFunction_runs {func source} (signature : t.types.kind func.ty = .fn func.params func.ret)
    (bare : func.instrs = .empty) (bindings : ∀ b ∈ source.bindings, t.HasType b.2) (unfailed : func.state ≠ .failed) :
    Runs (addFunction func source) c t fun f t' => t'.HasFn f := by
  refine .modifyGet (Tables.Update.addFunction signature bare bindings unfailed rfl).updates fun _ => ?_
  exact Pool.has_push_nextId _ _

private theorem fnHead_runs (hw : w.Sound) (hb : ∀ b ∈ bindings, t.HasType b.2) :
    Runs (fnHead w scope n name bindings) c t fun func t' =>
      t'.types.kind func.ty = .fn func.params func.ret ∧ func.instrs = .empty ∧ func.state ≠ .failed := by
  refine fnLiteral_runs.bind fun lit t1 s1 _ => .reads (spanOf_reads n) ?_
  refine (fnScope_runs fun b h => (hb b h).later s1).bind fun sigScope t2 s2 _ => ?_
  refine (paramTypes_runs hw).bind fun params t3 s3 hparams => ?_
  refine (hw.typeExpr? sigScope lit.sig.ret c t3).bind fun ret? t4 s4 hret => ?_
  have hret : t4.HasType (ret?.getD .void) := by
    cases ret? with
    | none => exact fun _ => s4.sound'.types.has_void.knows
    | some ret => exact hret ret rfl
  have hparts (hs : t4.Sane) : ∀ p ∈ (TypeKind.fn params (ret?.getD .void)).parts, t4.types.Knows p :=
    List.forall_mem_cons.mpr ⟨hret hs, fun p hp => (hparams p hp).later s4 hs⟩
  refine (intern_runs (k := .fn params (ret?.getD .void)) trivial hparts).bind fun ty t5 s5 hty => .ite (fun _ => .thrown rfl) fun _ => ?_
  dsimp only
  split
  · exact .pure ⟨hty.1, rfl, by simp⟩
  · exact .pure ⟨hty.1, rfl, by simp [Function.declare]⟩
  · exact .throw rfl

theorem declareFn_runs (hw : w.Sound) (hb : ∀ b ∈ bindings, t.HasType b.2) :
    Runs (declareFn w scope n name bindings) c t fun f t' => t'.HasFn f := by
  refine (fnHead_runs hw hb).bind fun func t1 s1 hfunc => ?_
  exact addFunction_runs hfunc.1 hfunc.2.1 (fun b h => (hb b h).later s1) hfunc.2.2

private theorem bindRecipe_runs : Runs (bindRecipe scope n name) c t fun _ _ => True := by
  refine .reads read_reads (.modifyGet ?_ trivial)
  split
  · exact .refl t
  · exact Tables.Update.addRecipe.updates

theorem bindFnLiteral_runs (hw : w.Sound) :
    Runs (bindFnLiteral w scope n name) c t fun _ _ => True := by
  refine fnLiteral_runs.bind fun lit t1 s1 _ => .reads read_reads ?_
  refine .ite (fun _ => .ite (fun _ => ?_) fun _ => ?_) fun _ => .reads read_reads ?_
  · exact .reads (spanOf_reads n) (.thrown rfl)
  · exact bindRecipe_runs.bind fun _ _ _ _ => .pure trivial
  · refine .reads get_reads ?_
    split
    · exact .pure trivial
    · refine (declareFn_runs hw (by simp)).bind fun f t2 s2 hf => ?_
      exact (Runs.modify (P := fun _ _ => True) (Tables.Update.addLiteral hf).updates trivial).bind
        fun _ _ _ _ => .pure trivial

end Analysis

end Comptime
