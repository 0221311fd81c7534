import Comptime.Proofs.Analysis.Steps

/-!
# Operands and their conversions

Reading, storing and converting an operand keeps it sound, and a converted operand has the type that
was asked for.
-/

namespace Comptime

open Analysis (code_reads folding_reads quoted_reads types_reads)

/-! ## Sound operands -/

namespace Operand.Sound

variable {t : Tables} {d : Draft} {op : Operand} {span : Span}

theorem hasType (h : op.Sound t d) : t.HasType op.ty := fun hs => (h hs).1

theorem constant {v ty} (h : t.HasConst ty v) : (Operand.constant v ty span).Sound t d :=
  fun hs => ⟨(Value.has_of_fits (h hs)).knows, h hs⟩

theorem number {v ty span} (h : t.HasConst ty v) :
    (Operand.number v ty span).Sound t d := fun hs => ⟨(Value.has_of_fits (h hs)).knows, h hs⟩

theorem instr {i ty span} (h : d.Gives t i ty) (hty : t.HasType ty) :
    (Operand.instr i ty span).Sound t d := fun hs => ⟨hty hs, h hs⟩

theorem place {p ty} {mutable} (h : d.Points t p ty) (hty : t.HasType ty) :
    (Operand.place p ty span mutable).Sound t d := fun hs => ⟨hty hs, h hs⟩

theorem group {members} (ht : t.Sound) (h : ∀ f ∈ members, t.HasFn f) :
    (Operand.special (.group members) span).Sound t d :=
  fun hs => ⟨ht.types.has_void.knows, fun f hf => h f hf hs⟩

theorem poly {recipe} (ht : t.Sound) : (Operand.special (.poly recipe) span).Sound t d :=
  fun _ => ⟨ht.types.has_void.knows, trivial⟩

theorem scope {id} (ht : t.Sound) : (Operand.special (.scope id) span).Sound t d :=
  fun _ => ⟨ht.types.has_void.knows, trivial⟩

theorem ofConst {v} (h : op.Sound t d) (hk : op.kind = .const v) : t.HasConst op.ty v := by
  intro hs
  have := (h hs).2
  rw [hk] at this
  exact this

theorem ofInstr {i} (h : op.Sound t d) (hk : op.kind = .instr i) : d.Gives t i op.ty := by
  intro hs
  have := (h hs).2
  rw [hk] at this
  exact this

theorem ofPlace {p} (h : op.Sound t d) (hk : op.kind = .place p) : d.Points t p op.ty := by
  intro hs
  have := (h hs).2
  rw [hk] at this
  exact this

theorem ofGroup {members} (h : op.Sound t d) (hk : op.kind = .group members) : ∀ f ∈ members, t.HasFn f := by
  intro f hf hs
  have := (h hs).2
  rw [hk] at this
  exact this f hf

theorem ofConst? {v} (h : op.Sound t d) (hc : op.const? = some v) : t.HasConst op.ty v := by
  refine h.ofConst ?_
  unfold Operand.const? at hc
  split at hc
  · next hk =>
    cases hc
    exact hk
  · cases hc

end Operand.Sound

namespace Lower

variable {c : Context} {t : Tables} {d : Draft} {op : Operand}

theorem rvalue_runs (h : op.Sound t d) : Runs (rvalue op) c t d fun r t' d' => r.Sound t' d' ∧ r.ty = op.ty := by
  unfold rvalue
  split
  · next p hk =>
    refine (emit_runs rfl fun hs => ?_).bind fun i t' d' s hi => .pure ⟨.instr hi (h.hasType.later s.toLater), rfl⟩
    obtain ⟨pty, hg, hk⟩ := h.ofPlace hk hs
    exact .load hg hk
  · exact .pure ⟨h, rfl⟩

theorem materialize_runs (h : op.Sound t d) : Runs (materialize op) c t d fun i t' d' => d'.Gives t' i op.ty := by
  refine (rvalue_runs h).bind fun r t' d' s hr => ?_
  obtain ⟨hr, hty⟩ := hr
  rw [← hty]
  split
  · next v hk => exact emit_runs rfl fun hs => .const (hr.ofConst hk hs)
  · next i hk => exact .pure (hr.ofInstr hk)
  · exact .throw rfl
  · exact .throw rfl
  · exact .throw rfl
  · exact .throw rfl

theorem addressOf_runs (h : op.Sound t d) : Runs (addressOf op) c t d fun r t' d' => d'.Points t' r.1 op.ty := by
  unfold addressOf
  split
  · next p hk => exact .pure (h.ofPlace hk)
  · refine .liftBind Analysis.layoutOf_runs fun _ t1 s1 _ => ?_
    have h1 := h.later (s1.keep d)
    refine (materialize_runs h1).bind fun v t2 d2 s2 hv => ?_
    refine addSlot_runs.bind fun slot t3 d3 s3 _ => ?_
    have h3 := h1.hasType.later (s2.trans s3).toLater
    refine .liftBind (Analysis.ptrTo_runs h3) fun pty t4 s4 hpty => ?_
    refine (emit_runs rfl fun _ => .slotPtr hpty).bind fun p t5 d5 s5 hp => ?_
    have hpty5 := s5.kind hpty (by simp)
    have hv5 := hv.later (s3.trans ((s4.keep d3).trans s5))
    refine (emitVoid_runs rfl fun hs => .store (hp hs) (hv5 hs) hpty5).bind fun _ t6 d6 s6 _ => ?_
    exact .pure fun hs => ⟨pty, hp.later s6 hs, s6.kind hpty5 (by simp)⟩

end Lower

namespace Analysis

variable {c : Context} {t : Tables}

theorem fnOperand_runs {f span} :
    Runs (fnOperand f span) c t fun op t' => (∀ d, op.Sound t' d) ∧ op.ty = (t.code.function f).ty := by
  refine .ofSound fun ht => functionOf_runs.bind ?_
  rintro _ _ - ⟨rfl, hf, rfl⟩
  exact .pure ⟨fun _ => .constant (.ofFn ht fun _ => hf), rfl⟩

end Analysis

/-! ## Folding -/

namespace Tables.HasConst

variable {t : Tables} {ty : TypeId} {v r : Value}

private theorem ofRaw {bits signed} (hi : t.types.intInfo ty = some (bits, signed)) (raw) :
    t.HasConst ty (.ofRaw raw bits signed) := fun _ => (Value.fits_integer hi).mpr ⟨_, rfl, by simp⟩

theorem cast (h : t.HasConst ty v) (ht : t.Sound) {target op}
    (ho : t.Sane → t.types.castOp ty target = some op) (he : op.eval t.types target v = .ok r) : t.HasConst target r := by
  intro hs
  obtain ⟨r', hr', hfits⟩ := CastOp.eval_fits ht.types.standard.real (ho hs) (h hs)
  cases he.symm.trans hr'
  exact hfits

theorem binary {a b} (ha : t.HasConst ty a) (hb : t.HasConst ty b) (ht : t.Sound) {op}
    (ho : t.types.allowsBinary op ty = true) (he : op.eval t.types ty a b = .ok r) : t.HasConst (op.resultType ty) r := by
  intro hs
  rcases BinaryOp.eval_fits ht.types.standard ho (ha hs) (hb hs) with ⟨r', hr', hfits⟩ | ⟨hr', -⟩
  · cases he.symm.trans hr'
    exact hfits
  · cases he.symm.trans hr'

theorem unary (h : t.HasConst ty v) (ht : t.Sound) {op} (ho : t.types.allowsUnary op ty = true)
    (he : op.eval t.types ty v = .ok r) : t.HasConst ty r := by
  intro hs
  obtain ⟨r', hr', hfits⟩ := UnaryOp.eval_fits ht.types.standard ho (h hs)
  cases he.symm.trans hr'
  exact hfits

end Tables.HasConst

/-! ## Conversions -/

namespace Lower

variable {c : Context} {t : Tables} {d : Draft} {op : Operand} {target : TypeId} {span : Span} {cast : CastOp}

theorem orTrapAt_runs {α : Type} {r : Except TrapKind α} :
    Runs (Analysis.orTrapAt span r) c t d fun a _ _ => r = .ok a := by
  cases r with
  | ok a => exact .pure rfl
  | error kind => exact .throw rfl

theorem castInstr_runs {i ty} (hi : d.Gives t i ty) (ht : t.HasType target)
    (ho : t.Sane → t.types.castOp ty target = some cast) :
    Runs (emit (.cast cast i) target span) c t d fun j t' d' => (Operand.instr j target span).Sound t' d' :=
  (emit_runs rfl fun hs => .cast (hi hs) (ho hs)).imp fun _ _ _ s hj =>
    .instr hj (ht.later s.toLater)

theorem adapt_runs (h : op.Sound t d) (ht : t.HasType target) :
    Runs (adapt op target) c t d fun r t' d' => ∀ a ∈ r, a.Sound t' d' ∧ a.ty = target := by
  refine .ofSound fun hsound => ?_
  refine .reads types_reads ?_
  refine .ite (fun _ => .pure (by simp)) fun _ => ?_
  split
  -- an integer in the range of an integer type
  · next w bits signed hk hint =>
    refine .ite (fun _ => .pure ?_) fun _ => .reads (quoted_reads _) (.throw rfl)
    rintro a ⟨rfl⟩
    refine ⟨.number (.ofRaw ?_ _), rfl⟩
    unfold TypeTable.plainInt at hint
    split at hint
    · exact hint
    · cases hint
  -- a number that becomes a real
  · next v hk _ =>
    split
    iterate 3 next ho =>
        refine orTrapAt_runs.bind fun r t' d' s hr => .pure ?_
        rintro a ⟨rfl⟩
        exact ⟨.number (((h.ofConst hk).cast hsound (fun _ => ho) hr).later s.toLater), rfl⟩
    exact .pure (by simp)
  -- a number that is computed
  · next i hk =>
    split
    · next ho =>
      refine (castInstr_runs (h.ofInstr hk) ht fun _ => ho).bind fun j t' d' _ hj => .pure ?_
      rintro a ⟨rfl⟩
      exact ⟨hj, rfl⟩
    · exact .pure (by simp)
  · exact .pure (by simp)

theorem convert_runs (h : op.Sound t d) (ht : t.HasType target)
    (ho : t.Sane → t.types.castOp op.ty target = some cast) :
    Runs (convert op cast target) c t d fun r t' d' => r.Sound t' d' ∧ r.ty = target := by
  refine .ofSound fun hsound => .reads folding_reads ?_
  split
  · next v hk _ =>
    refine .reads types_reads ?_
    refine orTrapAt_runs.bind fun r t' d' s hr => .pure ⟨?_, rfl⟩
    exact .constant (((h.ofConst hk).cast hsound ho hr).later s.toLater)
  · refine (materialize_runs h).bind fun i t' d' s hi => ?_
    refine (castInstr_runs hi (ht.later s.toLater) fun hs => ?_).bind fun j _ _ _ hj => .pure ⟨hj, rfl⟩
    exact s.grows.types.castOp hsound.types (ho (s.grows.sane hs))

private theorem widen_runs (h : op.Sound t d) (ht : t.HasType target) :
    Runs (widen op target) c t d fun r t' d' => r.Sound t' d' ∧ r.ty = target := by
  refine .reads types_reads ?_
  refine .ite (fun _ => ?_) fun _ => ?_
  · exact .liftBind (Analysis.mismatch_runs (P := fun _ _ => False)) fun _ _ _ h => h.elim
  · split
    · next cast ho => exact convert_runs h ht fun _ => ho
    · exact .throw rfl

private theorem coerceValue_runs (h : op.Sound t d) (ht : t.HasType target) :
    Runs (coerceValue op target) c t d fun r t' d' => r.Sound t' d' ∧ r.ty = target := by
  refine .ite (fun heq => .pure ⟨h, heq⟩) fun _ => ?_
  refine .ite (fun _ => ?_) fun _ => widen_runs h ht
  refine (adapt_runs h ht).bind fun r t' d' s hr => ?_
  split
  · next a => exact .pure (hr a rfl)
  · exact widen_runs (h.later s) (ht.later s.toLater)

theorem coerce_runs (h : op.Sound t d) (ht : t.HasType target) :
    Runs (coerce op target) c t d fun r t' d' => r.Sound t' d' ∧ r.ty = target := by
  refine (rvalue_runs h).bind fun r t' d' s hr => ?_
  obtain ⟨hr, hty⟩ := hr
  split
  · next members hk =>
    refine .reads code_reads ?_
    split
    · next f hf =>
      have htype := List.find?_some hf
      obtain rfl := of_decide_eq_true htype
      exact .ofSound fun ht' => .pure ⟨.constant (.ofFn ht' (hr.ofGroup hk f (List.mem_of_find?_eq_some hf))), rfl⟩
    · exact .reads (quoted_reads _) (.throw rfl)
  · exact .throw rfl
  · exact .throw rfl
  · exact coerceValue_runs hr (ht.later s.toLater)

/-! A conversion leaves the tables as they are, so it can be tried. -/

theorem rvalue_keeps : Keeps (rvalue op) := by
  unfold rvalue
  split
  · exact .bind .modifyGet fun _ => .pure
  · exact .pure

private theorem materialize_keeps : Keeps (materialize op) := by
  refine rvalue_keeps.bind fun r => ?_
  split
  · exact .modifyGet
  · exact .pure
  all_goals exact .throw

theorem orTrapAt_keeps {α : Type} {r : Except TrapKind α} : Keeps (Analysis.orTrapAt span r) := by
  cases r with
  | ok a => exact .pure
  | error kind => exact .throw

private theorem adapt_keeps : Keeps (adapt op target) := by
  refine .reads types_reads fun t => .ite .pure ?_
  split
  · exact .ite .pure (.reads (quoted_reads _) fun _ => .throw)
  · split
    iterate 3 exact orTrapAt_keeps.bind fun _ => .pure
    exact .pure
  · split
    · exact .bind .modifyGet fun _ => .pure
    · exact .pure
  · exact .pure

private theorem convert_keeps : Keeps (convert op cast target) := by
  refine .reads folding_reads fun fold => ?_
  split
  · exact .reads types_reads fun _ => orTrapAt_keeps.bind fun _ => .pure
  · exact materialize_keeps.bind fun _ => .bind .modifyGet fun _ => .pure

private theorem widen_keeps : Keeps (widen op target) := by
  refine .reads types_reads fun t => .ite (.bind (fun _ _ _ => rfl) fun _ => ?_) ?_
  all_goals
    split
    · exact convert_keeps
    · exact .throw

private theorem coerceValue_keeps : Keeps (coerceValue op target) := by
  refine .ite .pure (.ite (adapt_keeps.bind fun r => ?_) widen_keeps)
  split
  · exact .pure
  · exact widen_keeps

theorem coerce_keeps : Keeps (coerce op target) := by
  refine rvalue_keeps.bind fun r => ?_
  split
  · refine .reads code_reads fun code => ?_
    split
    · exact .pure
    · exact .reads (quoted_reads _) fun _ => .throw
  · exact .throw
  · exact .throw
  · exact coerceValue_keeps

theorem castTo_runs (h : op.Sound t d) (ht : t.HasType target) :
    Runs (castTo op target span) c t d fun r t' d' => r.Sound t' d' := by
  refine (rvalue_runs h).bind fun r t' d' s hr => ?_
  obtain ⟨hr, hty⟩ := hr
  refine .reads types_reads ?_
  split
  · next cast ho =>
    exact (convert_runs hr (ht.later s.toLater) fun _ => ho).bind fun r _ _ _ hr => .pure hr.1
  · exact .reads (quoted_reads _) (.reads (quoted_reads _) (.throw rfl))

end Lower

end Comptime
