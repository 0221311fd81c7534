import Comptime.Proofs.Analysis.Evaluation
import Comptime.Proofs.Overload.Selection

/-!
# Overloads, polymorphic functions and calls

The functions of a group and those that are made by a specialization exist. A call looks its function
up and passes arguments of exactly the types of its parameters.
-/

namespace Comptime

/-! ## Reports -/

theorem Diagnostic.isError_foldl_withNote {α : Type} (message : α → String) (span : α → Option Span)
    (l : List α) (d : Diagnostic) :
    (l.foldl (fun d a => d.withNote (message a) (span a)) d).isError = d.isError := by
  induction l generalizing d with
  | nil => rfl
  | cons a l ih => exact ih _

@[simp] theorem Diagnostics.hasErrors_emit (ds : Diagnostics) (d : Diagnostic) :
    (ds.emit d).hasErrors = (ds.hasErrors || d.isError) := by
  simp [hasErrors, emit]

/-! ## Overloads -/

namespace Analysis

variable {w : Walk} {c : Context} {t : Tables} {name : String}

theorem selectOverload_runs {members args span} :
    Runs (selectOverload members args span) c t fun _ _ => True := by
  refine .reads get_reads ?_
  dsimp only
  split
  · exact .pure trivial
  · exact .throwing (Diagnostic.isError_foldl_withNote _ _ members _)
  · exact .throwing (Diagnostic.isError_foldl_withNote _ _ _ _)

private theorem addToGroup_runs {span members fns} (hm : ∀ f ∈ members, t.HasFn f) :
    Runs (addToGroup name span members fns) c t fun r t' => ∀ f ∈ r, t'.HasFn f := by
  induction fns generalizing members with
  | nil => exact .pure hm
  | cons f rest ih =>
    refine functionOf_runs.bind ?_
    rintro func _ - ⟨rfl, hf, -⟩
    refine .reads get_reads ?_
    dsimp only
    split
    · refine .ite (fun _ => ih hm) fun _ => ?_
      exact .reads (quoted_reads _) (.throw rfl)
    · refine ih fun g hg => ?_
      rcases List.mem_append.mp hg with hg | hg
      · exact hm g hg
      · rw [List.mem_singleton.mp hg]
        exact fun _ => hf

private theorem groupMember_runs (hw : w.Sound) {scope n} : Runs (groupMember w scope name n) c t fun _ _ => True := by
  refine .reads (node_reads n) ?_
  obtain ⟨kind, span⟩ := c.ast.node n
  dsimp only
  split
  · refine (bindFnLiteral_runs hw).bind fun r t1 s1 _ => ?_
    split
    · exact .pure trivial
    · exact .throw rfl
  · refine (Lower.Runs.aside (P := fun _ _ => True) ?_ Draft.sound_scratch).bind fun op t1 s1 _ => ?_
    · exact (hw.expr scope n c t _).imp fun _ _ _ _ _ => trivial
    · split
      · exact .pure trivial
      · exact .pure trivial
      · exact .throw rfl

theorem fnGroup_runs (hw : w.Sound) {scope n members} :
    Runs (fnGroup w scope n name members) c t fun r t' => ∀ f ∈ r, t'.HasFn f := by
  refine (Runs.foldlM (Q := fun (fns : List FnId) t => ∀ f ∈ fns, t.HasFn f) (by simp)
    fun m _ fns t1 _ hfns => ?_).bind fun fns t1 _ hfns => ?_
  · refine .reads (spanOf_reads m) ((groupMember_runs hw).bind fun r t2 s2 _ => ?_)
    exact addToGroup_runs fun f hf => (hfns f hf).later s2
  · refine .ite (fun _ => .reads (spanOf_reads n) (.thrown rfl)) fun _ => .pure hfns

end Analysis

/-! ## Polymorphic functions -/

namespace Bindings

private theorem knows_bind {t : TypeTable} {b : Bindings} {b' name actual} (h : b.bind name actual = .ok b')
    (ha : t.Knows actual) (hb : ∀ p ∈ b, t.Knows p.2) : ∀ p ∈ b', t.Knows p.2 := by
  unfold Bindings.bind at h
  split at h
  · cases h
  · split at h
    · split at h <;> cases h
      exact hb
    · cases h
      intro p hp
      rcases List.mem_append.mp hp with hp | hp
      · exact hb p hp
      · rw [List.mem_singleton.mp hp]
        exact ha

theorem knows_matchType {a} {t : TypeTable} (hn : t.Named) {fuel pattern actual b b'}
    (h : matchType a t fuel pattern actual b = .ok b') (ha : t.Knows actual) (hb : ∀ p ∈ b, t.Knows p.2) :
    ∀ p ∈ b', t.Knows p.2 := by
  induction fuel generalizing pattern actual b b' with
  | zero => cases h
  | succ fuel ih =>
    rw [matchType] at h
    split at h
    · cases h
      exact hb
    · split at h
      · exact knows_bind h ha hb
      · next hk => exact ih h (hn.knows_pointee hk) hb
      · next hk => exact ih h (hn.knows_sliceElem hk) hb
      · next hk => exact ih h (hn.knows_elem hk) hb
      · next sig params ret _ hk =>
        obtain ⟨hparams, hret⟩ := hn.knows_signature hk
        split at h
        · obtain ⟨b1, hfold, h⟩ := bind_eq_ok.mp h
          have hb1 : ∀ p ∈ b1, t.Knows p.2 := by
            refine of_foldlM_eq_ok (P := fun b => ∀ p ∈ b, t.Knows p.2) hfold hb ?_
            rintro ⟨p, ty⟩ hmem b b' hb hstep
            exact ih hstep (hparams ty (List.of_mem_zip hmem).2) hb
          split at h
          · exact ih h hret hb1
          · cases h
            exact hb1
        · cases h
      · cases h

end Bindings

namespace Analysis

variable {w : Walk} {c : Context} {t : Tables}

private theorem matchArgument_runs {param} {arg : Operand} {b} {types : TypeTable} (hn : t.Sane → types.Named)
    (harg : t.Sane → types.Knows arg.ty) (hb : ∀ p ∈ b, t.Sane → types.Knows p.2) :
    Runs (match Bindings.matchType c.ast types (c.ast.size + 1) param arg.ty b with
      | .ok b => return b
      | .error clash => typeError arg.span (clash.message types)) c t' fun b _ =>
      ∀ p ∈ b, t.Sane → types.Knows p.2 := by
  split
  · next b' hm =>
    refine .pure fun p hp' hs => ?_
    exact Bindings.knows_matchType (hn hs) hm (harg hs) (fun p hp => hb p hp hs) p hp'
  · exact .throw rfl

private theorem inferBindings_runs {params args} (ha : ∀ a ∈ args, t.HasType a.ty) :
    Runs (inferBindings params args) c t fun b t' => ∀ p ∈ b, t'.HasType p.2 := by
  refine .ofSound fun ht => .reads read_reads (.reads types_reads ?_)
  -- the types are those of the start of the call
  refine (Runs.foldlM (Q := fun (b : Bindings) _ => ∀ p ∈ b, t.HasType p.2) (by simp) ?_).imp
    fun b t' s hb p hp => (hb p hp).later s
  rintro ⟨param, arg⟩ hmem b t' - hb
  have harg := ha arg (List.of_mem_zip hmem).2
  dsimp only
  split
  · exact .ite (fun _ => .throw rfl) fun _ => .pure hb
  · exact .ite (fun _ => .throw rfl) fun _ => .pure hb
  · exact .ite (fun _ => .throw rfl) fun _ => .pure hb
  · exact matchArgument_runs (fun hs => (ht.proper hs).named) harg hb

theorem specialize_runs (hw : w.Sound) {recipe args span} (ha : ∀ a ∈ args, t.HasType a.ty) :
    Runs (specialize w recipe args span) c t fun _ _ => True := by
  refine .reads get_reads ?_
  refine fnLiteral_runs.bind fun lit t1 s1 _ => .ite (fun _ => .thrown rfl) fun _ => ?_
  refine (inferBindings_runs fun a h => (ha a h).later s1).bind fun bindings t2 s2 hb => ?_
  refine .reads get_reads ?_
  split
  · exact .pure trivial
  · refine .reads types_reads ?_
    refine (declareFn_runs hw hb).bind fun f t3 s3 hf => ?_
    exact (Runs.modify (P := fun _ _ => True) (Tables.Update.addSpecialization hf).updates trivial).bind
      fun _ _ _ _ => .pure trivial

end Analysis

/-! ## Calls -/

namespace Lower

variable {w : Walk} {c : Context} {t : Tables} {d : Draft} {args : List Operand} {params : List TypeId} {span : Span}

def IsOf (op : Operand) (ty : TypeId) (t : Tables) (d : Draft) : Prop := op.Sound t d ∧ op.ty = ty

theorem IsOf.later {t' d' op ty} (h : IsOf op ty t d) (s : Later t d t' d') : IsOf op ty t' d' := ⟨h.1.later s, h.2⟩

private theorem coerceEach_runs (hargs : ∀ a ∈ args, a.Sound t d) (hparams : ∀ p ∈ params, t.HasType p)
    (hlen : params.length = args.length) :
    Runs ((args.zip params).mapM fun (arg, param) => coerce arg param) c t d fun ops t' d' =>
      List.Forall₂ (IsOf · · t' d') ops params := by
  refine (Runs.mapM (R := fun (p : Operand × TypeId) op t d => IsOf op p.2 t d) (fun _ _ s h => h.later s) ?_).imp ?_
  · rintro ⟨arg, param⟩ hmem t' d' s
    obtain ⟨ha, hp⟩ := List.of_mem_zip hmem
    exact coerce_runs ((hargs arg ha).later s) ((hparams param hp).later s.toLater)
  · intro ops t' d' _ h
    have hmap : (args.zip params).map Prod.snd = params :=
      List.map_snd_zip (Nat.le_of_eq hlen)
    rw [← hmap, List.forall₂_map_right_iff]
    exact h.flip

theorem coerceArgs_runs (hargs : ∀ a ∈ args, a.Sound t d) (hparams : ∀ p ∈ params, t.HasType p) :
    Runs (coerceArgs params args span) c t d fun ops t' d' => List.Forall₂ (IsOf · · t' d') ops params := by
  refine .ite (fun _ => .thrown rfl) fun hlen => ?_
  exact coerceEach_runs hargs hparams (Decidable.not_not.mp hlen)

theorem materializeEach_runs {ops types} (h : List.Forall₂ (IsOf · · t d) ops types) :
    Runs (ops.mapM materialize) c t d fun ids t' d' => t'.Sane → List.Forall₂ d'.func.Gives ids types := by
  refine (Runs.mapM (R := fun (op : Operand) i t d => d.Gives t i op.ty) (fun _ _ s h => h.later s) ?_).imp ?_
  · intro op hmem t' d' s
    obtain ⟨i, hi, rfl⟩ := List.getElem_of_mem hmem
    exact materialize_runs ((h.get hi (h.length_eq ▸ hi)).1.later s)
  · intro ids t' d' _ hids hs
    refine List.forall₂_iff_get.mpr ⟨hids.length_eq.symm.trans h.length_eq, fun i hi hi' => ?_⟩
    have hop : i < ops.length := h.length_eq ▸ hi'
    have hg := hids.get hop hi hs
    rw [(h.get hop hi').2] at hg
    exact hg

theorem emitCall_runs {callee ret} (hargs : ∀ a ∈ args, a.Sound t d) (hparams : ∀ p ∈ params, t.HasType p)
    (hret : t.HasType ret) (hlinked : ∀ ids, ∀ g ∈ (InstrKind.call callee ids).callee?, t.code.fns.Has g)
    (hcall : ∀ t' d' ids, Later t d t' d' → t'.Sane → List.Forall₂ d'.func.Gives ids params →
      (InstrKind.call callee ids).Typed t'.types t'.code d'.func ret) :
    Runs (emitCall callee params ret args span) c t d fun op t' d' => op.Sound t' d' := by
  refine (coerceArgs_runs hargs hparams).bind fun ops t1 d1 s1 hops => ?_
  refine (materializeEach_runs hops).bind fun ids t2 d2 s2 hids => ?_
  have hret2 := hret.later (s1.trans s2).toLater
  have hlinked2 (g : FnId) (hg : g ∈ (InstrKind.call callee ids).callee?) : t2.code.fns.Has g :=
    (s1.trans s2).grows.code.has (hlinked ids g hg)
  refine (emitLinked_runs hlinked2 fun hs => hcall t2 d2 ids (s1.trans s2) hs (hids hs)).bind fun i t3 d3 s3 hi => ?_
  exact .pure (.instr hi (hret2.later s3.toLater))

theorem directCall_runs {f} (hargs : ∀ a ∈ args, a.Sound t d) :
    Runs (directCall f args span) c t d fun op t' d' => op.Sound t' d' := by
  refine .liftBind Analysis.functionOf_runs ?_
  rintro _ _ - ⟨rfl, hf, rfl⟩
  refine .ofSound fun ht => ?_
  obtain ⟨hparams, hret⟩ := Analysis.hasType_signature ht fun _ => hf
  split
  · refine emitCall_runs hargs hparams hret ?_ fun t' d' ids s hs hids => ?_
    · rintro ids g ⟨⟩
      exact hf
    rw [← s.grows.code.ret hf]
    exact .callDirect (s.grows.code.has hf) ((s.grows.code.params hf).symm ▸ hids)
  · refine (coerceArgs_runs hargs hparams).bind fun ops t1 d1 s1 hops => ?_
    refine (Runs.mapM (R := fun _ _ _ _ => True) (fun _ _ _ _ => trivial) ?_).bind fun values t2 d2 s2 _ => ?_
    · intro op _ t' d' _
      split
      · exact .pure trivial
      · exact .throw rfl
    · have s := s1.trans s2
      refine .liftBind Analysis.callNow_runs fun v t3 s3 hv => .pure ?_
      refine .constant fun hs => ?_
      rw [← s.grows.code.ret hf]
      exact hv hs

private theorem indirectCall_runs {callee} (hcallee : callee.Sound t d) (hargs : ∀ a ∈ args, a.Sound t d) :
    Runs (indirectCall callee args span) c t d fun op t' d' => op.Sound t' d' := by
  refine (rvalue_runs hcallee).bind fun callee t1 d1 s1 hcallee => ?_
  obtain ⟨hcallee, -⟩ := hcallee
  refine .reads Analysis.types_reads ?_
  split
  · next params ret hsig =>
    rw [TypeTable.signature_eq_some] at hsig
    refine (materialize_runs hcallee).bind fun v t2 d2 s2 hv => ?_
    have hsig2 := s2.kind hsig (by simp)
    refine emitCall_runs (fun a h => (hargs a h).later (s1.trans s2)) (fun p hp hs => ?_)
      (fun hs => ?_) nofun fun t' d' ids s hs hids => ?_
    · exact ((s2.sound'.proper hs).named.knows_signature hsig2).1 p hp
    · exact ((s2.sound'.proper hs).named.knows_signature hsig2).2
    · exact .callIndirect (hv.later s hs) (s.kind hsig2 (by simp)) hids
  · exact .reads (Analysis.quoted_reads _) (.throw rfl)

theorem call_runs (hw : w.Sound) {scope callee args} :
    Runs (call w scope callee args span) c t d fun op t' d' => op.Sound t' d' := by
  refine (hw.expr scope callee c t d).bind fun callee t1 d1 s1 hcallee => ?_
  refine (Runs.mapM (R := fun _ op t d => op.Sound t d) (fun _ _ s h => h.later s)
    fun n _ t' d' _ => hw.value scope n c t' d').bind fun args t2 d2 s2 hargs => ?_
  have hcallee := hcallee.later s2
  have hargs : ∀ a ∈ args, a.Sound t2 d2 := by
    intro a ha
    obtain ⟨i, hi, rfl⟩ := List.getElem_of_mem ha
    exact hargs.get (hargs.length_eq ▸ hi) hi
  split
  · refine .liftBind Analysis.selectOverload_runs fun f t3 s3 _ => ?_
    exact directCall_runs fun a ha => (hargs a ha).later (s3.keep d2)
  · refine .liftBind (Analysis.specialize_runs hw fun a ha => (hargs a ha).hasType) fun f t3 s3 _ => ?_
    exact directCall_runs fun a ha => (hargs a ha).later (s3.keep d2)
  · exact directCall_runs hargs
  · exact .throw rfl
  · exact indirectCall_runs hcallee hargs

end Lower

end Comptime
