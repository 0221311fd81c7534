import Comptime.Proofs.Analysis.Statement
import Comptime.Proofs.Footprint.Develop

/-!
# Tasks of analysis

Whatever a task does is made of allowed updates: the body that it installs is typed, and what it binds
a symbol to is sound.
-/

namespace Comptime

variable {w : Walk} {c : Context} {t : Tables} {d : Draft}

/-! ## Bodies -/

namespace Lower

private theorem parameters_runs {scope params} (h : ∀ p ∈ params, t.HasType p.2) :
    Runs (parameters scope params) c t d fun _ _ _ => True := by
  refine .forM fun p hp t1 d1 s1 => ?_
  refine addSlot_runs.bind fun slot t2 d2 s2 _ => .modifyBind rfl rfl ?_
  refine .liftBind (Analysis.declareSymbol_runs ⟨by simp, .inr ⟨_, rfl⟩⟩ ?_) fun _ _ _ _ => .pure trivial
  rintro v ⟨rfl⟩
  exact (h p hp).later (s1.trans s2).toLater

private theorem closeBody_runs {span} : Runs (closeBody span) c t d fun _ _ _ => True := by
  refine .get (.ite (fun _ => .pure trivial) fun _ => ?_)
  refine .ite (fun _ => ?_) fun _ => .ite (fun hret => ?_) fun _ => ?_
  · exact (emitVoid_runs rfl fun _ => .unreachable).bind fun _ _ _ _ _ => .pure trivial
  · exact (emitVoid_runs rfl fun _ => .giveNothing hret).bind fun _ _ _ _ _ => .pure trivial
  · exact .reads (Analysis.quoted_reads _) (.throw rfl)

private theorem body_runs (hw : w.Sound) {source lit n} (hb : ∀ b ∈ source.bindings, t.HasType b.2)
    (hp : ∀ ty ∈ d.func.params, t.HasType ty) : Runs (body w source lit n) c t d fun _ _ _ => True := by
  refine .get (.liftBind (Analysis.fnScope_runs hb) fun scope t1 s1 _ => ?_)
  have hparams : ∀ p ∈ lit.sig.params.zip d.func.params, t1.HasType p.2 :=
    fun p h => (hp p.2 (List.of_mem_zip h).2).later s1
  refine (parameters_runs hparams).bind fun _ t2 d2 s2 _ => ?_
  refine .reads (Analysis.node_reads n) ?_
  split
  · exact (block_runs hw).bind fun _ _ _ _ _ => closeBody_runs
  · exact (hw.stmt scope n c t2 d2).bind fun _ _ _ _ _ => closeBody_runs

end Lower

/-- What a task of the kind is about, if it exists, has been analysed. -/
def Tables.Finished (t : Tables) : TaskKind → Prop
  | .global id => t.scopes.symbols.Has id → ∃ v, (t.scopes.symbol id).state = .resolved v
  | .body f => t.code.fns.Has f → (t.code.function f).state = .analyzed
  | .eval _ => True

namespace Analysis

variable {decl : Decl} {span : Span}

private theorem hasType_head (ht : t.Sound) (f) :
    (∀ p ∈ (t.code.function f).params, t.HasType p) ∧ t.HasType (t.code.function f).ret := by
  by_cases hf : t.code.fns.Has f
  · exact hasType_signature ht fun _ => hf
  · rw [Code.function, Pool.getD_of_not_has hf]
    exact ⟨by simp [default, Function.declare], fun _ => ht.types.has_void.knows⟩

private theorem writeBody_runs (hw : w.Sound) {f source lit n} (hb : ∀ b ∈ source.bindings, t.HasType b.2)
    (hf : t.Sane → t.code.fns.Has f) :
    Runs (writeBody w f source lit n) c t fun d t' =>
      d.Sound t' ∧ (t'.Sane → d.func.ret = (t'.code.function f).ret) := by
  refine .ofSound fun ht => .reads code_reads ?_
  have hhead := hasType_head ht f
  refine Runs.bind (Lower.Runs.run (Lower.body_runs hw hb hhead.1) fun _ =>
    Draft.sound_start rfl hhead.2) fun r t1 s1 hr => ?_
  obtain ⟨hext, hsound, -⟩ := hr
  obtain ⟨_, d⟩ := r
  refine .reads types_reads ?_
  have hsame := d.func.layoutFrame_same t1.types
  split
  · next hframe => exact layoutHalt_runs (Function.admits_of_layoutFrame hframe)
  · next func hframe =>
    rw [hframe] at hsame
    refine .pure ⟨hsound.ofSameBody s1.sound' hsame.2 hsame.1, fun hs => ?_⟩
    have hret := s1.grows.code.ret (hf (s1.grows.sane hs))
    exact hsame.2.trans (hext.ret.trans hret.symm)

private theorem draftBody_runs (hw : w.Sound) {f} (hkind : t.scheduler.kind c.task = .body f) :
    Runs (draftBody w f) c t fun d t' => d.Sound t' ∧ (t'.Sane → d.func.ret = (t'.code.function f).ret) := by
  refine .ofSound fun ht => .ofRunning fun hr => .reads get_reads ?_
  split
  · next source hsource =>
    refine fnLiteral_runs.bind fun lit t1 s1 _ => ?_
    split
    · next n _ =>
      have hkind1 := (s1.updates.submits.keeps hr.has).2.2.trans hkind
      refine (Runs.modify (P := fun _ _ => True)
        (Tables.Update.startBody (s1.updates.running hr) hkind1).updates trivial).bind
        fun _ t2 s2 _ => ?_
      refine writeBody_runs hw (fun b h => ?_) fun hs => ?_
      · exact Tables.HasType.later (fun hs => (ht.proper hs).notes.sources f source hsource b h) (s1.trans s2)
      · have hs0 := (s1.trans s2).grows.sane hs
        have hf : t.code.fns.Has f := Nat.lt_of_lt_of_le (Pool.has_of_get?_eq_some hsource) (ht.proper hs0).notes.sourced
        exact (s1.trans s2).grows.code.has hf
    · exact .throw rfl
  · exact .throw rfl

theorem analyzeBody_runs (hw : w.Sound) {f} (hkind : t.scheduler.kind c.task = .body f) :
    Runs (analyzeBody w f) c t fun _ t' => t'.Finished (.body f) := by
  refine (Runs.withReader rfl (draftBody_runs hw hkind)).bind fun d t1 _ hd => ?_
  refine .modify (Tables.Update.install hd.2 hd.1.linked fun hs => (hd.1.typed hs).1).updates fun hf => ?_
  have hf : t1.code.fns.Has f := Pool.has_modify.mp hf
  simp only [Code.function, Code.modifyFn, Pool.getD_modify_self hf]

/-! ## Walks -/

theorem sound_walk (depth) : (walk depth).Sound := by
  induction depth with
  | zero =>
    exact ⟨fun _ _ _ _ _ => .throw rfl, fun _ _ _ _ _ => .throw rfl, fun _ _ _ _ => .throw rfl,
      fun _ _ _ _ => trivial⟩
  | succ depth ih =>
    exact ⟨fun _ _ _ _ _ => Lower.expression_runs ih, fun _ _ _ _ _ => Lower.statement_runs ih,
      fun _ _ _ _ => typeExpression_runs ih, fun _ n _ _ => ((walk_abides _ (depth + 1)).typeExpr trivial n).frame⟩

/-! ## Globals -/

theorem globalValue_runs (hw : w.Sound) {scope n} :
    Runs (globalValue w scope n decl span) c t fun r t' => t'.HasConst r.2 r.1 := by
  refine (hw.typeExpr? scope decl.ty c t).bind fun declared t1 s1 hty => ?_
  split
  · exact (comptimeValue_runs hw hty).imp fun _ _ _ h => h.1
  · exact zeroValue_runs.bind fun v t2 _ hv => .pure hv
  · exact .throw rfl

private theorem addGlobal_runs {g} (h : t.HasConst g.ty g.value) :
    Runs (addGlobal g) c t fun id t' => t'.code.globals.Has id :=
  .modifyGet (Tables.Update.addGlobal h).updates (Pool.has_push_nextId _ _)

private theorem globalBinding_runs {v ty} (h : t.HasConst ty v) :
    Runs (globalBinding decl v ty span) c t fun r t' => t'.Sane → r.Sound t' := by
  unfold globalBinding
  split
  · exact .pure h.hasType
  · exact .pure fun _ => trivial
  · refine checkStorage_runs.bind fun _ t1 s1 _ => ?_
    refine (addGlobal_runs (h.later s1)).bind fun g t2 s2 hg => .pure fun hs => ?_
    split
    · exact hg
    · exact h.later (s1.trans s2) hs

private theorem checkFnType_runs (hw : w.Sound) {scope bound} :
    Runs (checkFnType w scope decl bound span) c t fun _ _ => True := by
  unfold checkFnType
  split
  · refine (hw.typeExpr scope _ c t).bind fun declared t1 _ _ => .reads code_reads ?_
    exact .ite (fun _ => mismatch_runs) fun _ => .pure trivial
  · exact .pure trivial

private theorem analyzeGlobal_runs (hw : w.Sound) {symbol} :
    Runs (analyzeGlobal w symbol) c t fun _ t' => t'.Finished (.global symbol) := by
  have hresolve {t : Tables} {v : SymbolValue} (hv : t.Sane → v.Sound t) :
      Runs (resolveSymbol symbol v) c t fun _ t' => t'.Finished (.global symbol) :=
    (resolveSymbol_runs hv).imp fun _ _ _ h hs => ⟨v, h hs⟩
  refine .reads scopes_reads ?_
  dsimp only
  split
  · next n _ =>
    refine .reads (node_reads n) ?_
    obtain ⟨kind, span⟩ := c.ast.node n
    dsimp only
    split
    · refine (directBinding_runs hw).bind fun r t1 _ hr => ?_
      split
      · refine (checkFnType_runs hw).bind fun _ t2 s2 _ => hresolve fun hs => ?_
        exact (hr _ rfl (s2.grows.sane hs)).grow s2.sound.types s2.grows
      · refine (globalValue_runs hw).bind fun r t2 _ hv => ?_
        exact (globalBinding_runs hv).bind fun bound t3 _ hbound => hresolve hbound
    · exact .throw rfl
  · exact .throw rfl

/-! ## Tasks -/

theorem runTask_runs {kind} (hkind : t.scheduler.kind c.task = kind) :
    Runs (runTask kind) c t fun _ t' => t'.Finished kind := by
  refine .reads read_reads ?_
  have hw := sound_walk (c.config.fuel + 8 * c.ast.size)
  cases kind with
  | global symbol => exact analyzeGlobal_runs hw
  | body f => exact analyzeBody_runs hw hkind
  | eval n =>
    refine (comptimeValue_runs hw (by simp)).bind fun r t1 _ _ => ?_
    exact .ofRunning fun hr => .modify (Tables.Update.result hr).updates trivial

end Analysis

end Comptime
