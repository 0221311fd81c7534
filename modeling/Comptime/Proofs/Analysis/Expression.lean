import Comptime.Proofs.Analysis.Nominal

/-!
# Expressions

Every form of expression gives a sound operand if its parts do.
-/

namespace Comptime

/-! ## Literals -/

namespace Tables.HasConst

variable {t : Tables} (ht : t.Sound)

include ht

theorem ofUnsigned (w) : t.HasConst .u64 (.int w) :=
  fun _ => (Value.fits_iff ht.types.kind_u64).mpr ⟨w, rfl, by simp⟩

theorem ofIntLiteral (w) (span) : t.HasConst (Lower.intLiteral w span).ty (.int w) := by
  unfold Lower.intLiteral Operand.number
  dsimp only
  split
  · next hlt =>
    have hc := Word.canonical_of_lt (by decide : 0 < 32) hlt
    exact fun _ => (Value.fits_iff ht.types.kind_s32).mpr ⟨w, rfl, hc⟩
  · split
    · exact .ofWord ht w
    · exact .ofUnsigned ht w

theorem ofReal (w) : t.HasConst .f64 (.f64 w) :=
  fun _ => (Value.fits_iff ht.types.kind_f64).mpr (.inr ⟨rfl, w, rfl⟩)

theorem ofNull : t.HasConst .null (.ptr 0) := fun _ => (Value.fits_iff ht.types.kind_null).mpr ⟨0, rfl⟩

end Tables.HasConst

namespace Lower

variable {w : Walk} {c : Context} {t : Tables} {d : Draft} {scope : ScopeId} {span : Span} {types : List TypeId}

private theorem typeOf_runs (hw : w.Sound) {n} : Analysis.Runs (typeOf w scope n) c t fun _ _ => True := by
  refine .reads (Analysis.spanOf_reads n) ?_
  refine (Runs.aside (P := fun _ _ => True) ?_ Draft.sound_scratch).bind fun op t1 s1 _ => ?_
  · exact (hw.expr scope n c t _).imp fun _ _ _ _ _ => trivial
  · split
    · exact .pure trivial
    · exact .pure trivial

theorem layoutOfNode_runs (hw : w.Sound) {n} : Analysis.Runs (layoutOfNode w scope n span) c t fun _ _ => True :=
  (typeOf_runs hw).bind fun _ _ _ _ => Analysis.layoutOf_runs

theorem addressOfPlace_runs {op} (h : op.Sound t d) :
    Runs (addressOfPlace op span) c t d fun r t' d' => r.Sound t' d' := by
  unfold addressOfPlace
  split
  · next p hk =>
    refine .liftBind (Analysis.ptrTo_runs h.hasType) fun pty t1 s1 hpty => .pure ?_
    have hhas : t1.types.Has pty := TypeTable.has_of_kind_ne (by rw [hpty]; simp)
    refine .instr (fun hs => ?_) fun _ => hhas.knows
    obtain ⟨pty', hg, hk'⟩ := (h.ofPlace hk).later (s1.keep d) hs
    have heq : pty' = pty :=
      s1.sound'.types.eq_of_kind_eq hhas (hk'.trans hpty.symm) (by rw [hk']; simp)
    exact heq ▸ hg
  · exact .throw rfl

theorem dereference_runs {op} (h : op.Sound t d) : Runs (dereference op span) c t d fun r t' d' => r.Sound t' d' := by
  refine .ofSound fun ht => .reads Analysis.types_reads ?_
  split
  · next target hptr =>
    rw [TypeTable.pointee_eq_some] at hptr
    refine (materialize_runs h).bind fun i t1 d1 s1 hi => .pure ?_
    refine .place (fun hs => ⟨op.ty, hi hs, s1.kind hptr (by simp)⟩) ?_
    exact Tables.HasType.later (fun hs => (ht.proper hs).named.knows_pointee hptr) s1.toLater
  · exact .reads (Analysis.quoted_reads _) (.throw rfl)

/-! ## Compound values -/

theorem compoundTypes_runs {ty} {count} :
    Runs (compoundTypes ty count span) c t d fun r t' _ => ∀ expected types,
      r = some (expected, types) → expected = count →
        t'.types.Parts ty types ∧ types.length = count ∧ ∀ p ∈ types, t'.HasType p := by
  refine .ofSound fun ht => .reads Analysis.types_reads ?_
  split
  · next id hk =>
    split
    · next members hm =>
      refine .pure ?_
      rintro _ _ ⟨rfl, rfl⟩ hlen
      refine ⟨.struct hk hm, by rw [List.length_map, hlen], fun p hp hs => ?_⟩
      obtain ⟨m, hmem, rfl⟩ := List.mem_map.mp hp
      exact (ht.proper hs).named.members hm m hmem
    · next hm => exact .lift (Analysis.layoutHalt_runs fun _ h => by cases h; exact hm)
  · next elem len hk =>
    refine .pure ?_
    rintro _ _ ⟨rfl, rfl⟩ hlen
    refine ⟨hlen ▸ .array hk, List.length_replicate, fun p hp hs => ?_⟩
    rw [List.eq_of_mem_replicate hp]
    exact (ht.proper hs).named.knows_elem hk
  · next elem hk =>
    have helem : t.HasType elem := fun hs => (ht.proper hs).named.knows_sliceElem hk
    refine .liftBind (Analysis.ptrTo_runs helem) fun pty t1 s1 hpty => .pure ?_
    rintro _ _ ⟨rfl, rfl⟩ hlen
    refine ⟨.slice (s1.kind hk (by simp)) hpty, hlen, fun p hp hs => ?_⟩
    rcases List.mem_pair.mp hp with rfl | rfl
    · exact s1.sound'.types.has_s64.knows
    · exact (TypeTable.has_of_kind_ne (by rw [hpty]; simp)).knows
  · refine .pure ?_
    intro expected types h
    cases h

private theorem fits_of_const? {ops items} (h : List.Forall₂ (IsOf · · t d) ops types)
    (hc : ops.mapM Operand.const? = some items) (hs : t.Sane) :
    List.Forall₂ (fun v ty => v.fits t.types ty = true) items types := by
  induction h generalizing items with
  | nil =>
    cases hc
    exact .nil
  | cons hop _ ih =>
    rw [List.mapM_cons] at hc
    obtain ⟨v, hv, hc⟩ := Option.bind_eq_some_iff.mp hc
    obtain ⟨vs, hvs, hc⟩ := Option.bind_eq_some_iff.mp hc
    cases hc
    exact .cons (hop.2 ▸ hop.1.ofConst? hv hs) (ih hvs)

theorem assemble_runs {ops ty} (hty : t.HasType ty) (hparts : t.types.Parts ty types)
    (hops : List.Forall₂ (IsOf · · t d) ops types) :
    Runs (assemble ops ty span) c t d fun op t' d' => op.Sound t' d' := by
  refine .ofSound fun ht => ?_
  unfold assemble
  split
  · next items hc =>
    exact .pure (.constant fun hs => hparts.fits ht.types.standard (fits_of_const? hops hc hs))
  · refine (materializeEach_runs hops).bind fun ids t1 d1 s1 hids => ?_
    have hty1 := hty.later s1.toLater
    refine (emit_runs rfl fun hs => ?_).bind fun i t2 d2 s2 hi => .pure ?_
    · exact .compound (s1.grows.types.parts hparts) (hids hs)
    · exact .instr hi (hty1.later s2.toLater)

private theorem compoundParts_runs (hw : w.Sound) {values : List NodeId} (hlen : types.length = values.length)
    (hty : ∀ p ∈ types, t.HasType p) :
    Runs ((values.zip types).mapM fun (value, target) => do
      coerce (← w.expr scope value) target) c t d fun ops t' d' =>
      List.Forall₂ (IsOf · · t' d') ops types := by
  refine (Runs.mapM (R := fun (p : NodeId × TypeId) op t d => IsOf op p.2 t d) (fun _ _ s h => h.later s) ?_).imp ?_
  · rintro ⟨value, target⟩ hmem t' d' s
    have htarget := hty target (List.of_mem_zip hmem).2
    refine (hw.expr scope value c t' d').bind fun op t1 d1 s1 hop => ?_
    exact coerce_runs hop (htarget.later (s.trans s1).toLater)
  · intro ops t' d' _ h
    have hmap : (values.zip types).map Prod.snd = types := List.map_snd_zip (Nat.le_of_eq hlen)
    rw [← hmap, List.forall₂_map_right_iff]
    exact h.flip

theorem compound_runs (hw : w.Sound) {ty values} :
    Runs (compound w scope ty values span) c t d fun op t' d' => op.Sound t' d' := by
  refine .liftBind (hw.typeExpr scope ty c t) fun ty t1 s1 hty => ?_
  refine .ite (fun _ => ?_) fun _ => ?_
  · exact .liftBind Analysis.zeroValue_runs fun v t2 s2 hv => .pure (.constant hv)
  · refine compoundTypes_runs.bind fun r t2 d2 s2 hr => ?_
    have hty := hty.later s2.toLater
    split
    · next expected types =>
      refine .ite (fun _ => .reads (Analysis.quoted_reads _) (.thrown rfl)) fun hne => ?_
      obtain ⟨hparts, hlen, htypes⟩ := hr expected types rfl (Decidable.not_not.mp hne)
      refine .liftBind Analysis.valueLayout_runs fun _ t3 s3 _ => ?_
      refine (compoundParts_runs hw hlen fun p hp => (htypes p hp).later s3).bind fun ops t4 d4 s4 hops => ?_
      have s := s3.trans s4.toLater
      exact assemble_runs (hty.later s) (s.grows.types.parts hparts) hops
    · refine (hw.expr scope _ c t2 d2).bind fun op t3 d3 s3 hop => ?_
      exact (coerce_runs hop (hty.later s3.toLater)).bind fun r t4 d4 _ hr => .pure hr.1
    · exact .reads (Analysis.quoted_reads _) (.throw rfl)

/-! ## All expressions -/

theorem expression_runs (hw : w.Sound) {n} : Runs (expression w scope n) c t d fun op t' d' => op.Sound t' d' := by
  refine .reads (Analysis.node_reads n) ?_
  obtain ⟨kind, span⟩ := c.ast.node n
  refine .ofSound fun ht => ?_
  have htype : Runs (do return Operand.constant (.type (← w.typeExpr scope n)) .type span) c t d
      fun op t' d' => op.Sound t' d' :=
    .liftBind (hw.typeExpr scope n c t) fun ty t1 s1 hty => .pure (.constant (.ofType s1.sound' hty))
  dsimp only
  split
  · next value => exact .pure (.number (.ofIntLiteral ht value span))
  · exact .pure (.number (.ofReal ht _))
  · exact .pure (.constant (.ofBool ht))
  · exact .pure (.constant (.ofNull ht))
  · exact ident_runs
  · next op lhs rhs =>
    refine .ite (fun _ => logic_runs hw) fun _ => ?_
    refine (hw.value scope lhs c t d).bind fun l t1 d1 s1 hl => ?_
    refine (hw.value scope rhs c t1 d1).bind fun r t2 d2 s2 hr => ?_
    exact binary_runs (hl.later s2) hr
  · next op operand => exact (hw.expr scope operand c t d).bind fun _ _ _ _ h => unary_runs h
  · next ty operand =>
    refine .liftBind (hw.typeExpr scope ty c t) fun target t1 s1 htarget => ?_
    refine (hw.expr scope operand c t1 d).bind fun op t2 d2 s2 hop => ?_
    exact castTo_runs hop (htarget.later s2.toLater)
  · exact call_runs hw
  · exact member_runs hw
  · exact index_runs hw
  · next inner => exact (hw.expr scope inner c t d).bind fun _ _ _ _ h => addressOfPlace_runs h
  · next inner => exact (hw.value scope inner c t d).bind fun _ _ _ _ h => dereference_runs h
  · exact compound_runs hw
  · exact .liftBind (layoutOfNode_runs hw) fun l t1 s1 _ => .pure (.number (.ofUnsigned s1.sound' _))
  · exact .liftBind (layoutOfNode_runs hw) fun l t1 s1 _ => .pure (.number (.ofUnsigned s1.sound' _))
  · refine .liftBind (Analysis.bindFnLiteral_runs hw) fun r t1 s1 _ => ?_
    split
    · exact .lift (Analysis.fnOperand_runs.imp fun _ _ _ h => h.1 d)
    · exact .pure (.poly s1.sound')
  · exact .liftBind (Analysis.fnGroup_runs hw) fun fns t1 s1 hfns => .pure (.group s1.sound' hfns)
  · exact .liftBind (Analysis.comptimeValue_runs hw (by simp)) fun r t1 s1 hr =>
      .pure (.constant hr.1)
  iterate 7 exact htype
  exact .throw rfl

end Lower

end Comptime
