import Comptime.Proofs.Analysis.Logic
import Comptime.Proofs.List

/-!
# Steps of the analysis

What the basic steps do: entering types and names, computing layouts and zero values, writing
instructions, reading operands. Every step has one lemma, which says what it gives to the steps
after it.
-/

namespace Comptime

/-! ## Constants -/

namespace Tables

variable {t : Tables} {ty a : TypeId} {f : FnId}

theorem Proper.fits_fn (hp : t.Proper) (hs : t.Sane) (h : t.code.fns.Has f) :
    (Value.fn f).fits t.types (t.code.function f).ty = true :=
  (Value.fits_iff (hp.code.signature f h)).mpr (.inr ⟨f, rfl, Nat.lt_of_lt_of_le h hs.fns⟩)

theorem HasConst.ofFn (ht : t.Sound) (h : t.HasFn f) :
    t.HasConst (t.code.function f).ty (.fn f) := fun hs => (ht.proper hs).fits_fn hs (h hs)

theorem HasConst.ofType (ht : t.Sound) (h : t.HasType a) : t.HasConst .type (.type a) := by
  intro hs
  have hlt : a.index < referenceLimit := (h hs).elim (fun has => Nat.lt_of_lt_of_le has hs.types) id
  exact (Value.fits_iff ht.types.kind_type).mpr ⟨a, rfl, hlt⟩

theorem HasConst.ofBool (ht : t.Sound) {b} : t.HasConst .bool (.bool b) :=
  fun _ => (Value.fits_iff ht.types.kind_bool).mpr ⟨b, rfl⟩

theorem HasConst.hasType (h : t.HasConst ty (.type a)) : t.HasType a := by
  intro hs
  have hfits := h hs
  simp only [Value.fits, Bool.and_eq_true, decide_eq_true_eq] at hfits
  exact .inr hfits.2

end Tables

/-! ## Tables and layouts -/

namespace Analysis

variable {α : Type} {c : Context} {t : Tables} {ty : TypeId} {span : Span}

theorem intern_runs {k} (builds : t.types.Builds k) (parts : t.Sane → ∀ p ∈ k.parts, t.types.Knows p) :
    Runs (intern k) c t fun ty t' => t'.types.kind ty = k ∧ t'.types.Has ty :=
  .ofSound fun ht => .modifyGet (Tables.Update.intern builds parts).updates (ht.types.intern_spec k).symm

theorem ptrTo_runs (h : t.HasType ty) : Runs (ptrTo ty) c t fun ptr t' => t'.types.kind ptr = .ptr ty := by
  refine (intern_runs (k := .ptr ty) trivial fun hs p hp => ?_).imp fun _ _ _ hp => hp.1
  rw [List.mem_singleton.mp hp]
  exact h hs

theorem functionOf_runs {f} : Runs (functionOf f) c t fun func t' => t' = t ∧ t.code.fns.Has f ∧ func = t.code.function f := by
  refine .reads code_reads ?_
  split
  · next func hf =>
    have hh := Pool.has_of_get?_eq_some hf
    exact .pure ⟨rfl, hh, Option.some.inj (hf.symm.trans (Pool.get?_getD hh default))⟩
  · exact .throw rfl

theorem createScope_runs {kind parent} : Runs (createScope kind parent) c t fun _ _ => True :=
  .modifyGet Tables.Update.createScope.updates trivial

theorem insertSymbol_runs {s} (inner : s.Inner) (h : ∀ v, s.state = .resolved v → t.Sane → v.Sound t) :
    Runs (insertSymbol s) c t fun _ _ => True := by
  refine .modifyGet ?_ trivial
  split
  · next hi => exact (Tables.Update.insertSymbol hi inner h).updates
  · exact .refl t

theorem resolveSymbol_runs {id v} (h : t.Sane → v.Sound t) :
    Runs (resolveSymbol id v) c t fun _ t' =>
      t'.scopes.symbols.Has id → (t'.scopes.symbol id).state = .resolved v := by
  refine .modify (Tables.Update.resolveSymbol h).updates fun hid => ?_
  have hid : t.scopes.symbols.Has id := Pool.has_modify.mp hid
  simp only [Scopes.symbol, Scopes.resolve, Scopes.setState, Pool.getD_modify_self hid]

theorem declareSymbol_runs {s} (inner : s.Inner) (h : ∀ v, s.state = .resolved v → t.Sane → v.Sound t) :
    Runs (declareSymbol s) c t fun _ _ => True := by
  refine (insertSymbol_runs inner h).bind fun r t' _ _ => ?_
  split
  · exact .pure trivial
  · exact .reads scopes_reads (.throw rfl)

theorem mismatch_runs {expected found} {P : α → Tables → Prop} : Runs (mismatch span expected found) c t P :=
  .reads (quoted_reads _) (.reads (quoted_reads _) (.throw rfl))

theorem layoutHalt_runs {e} {P : α → Tables → Prop} (he : t.types.Admits e) : Runs (layoutHalt e span) c t P := by
  refine .reads get_reads ?_
  split
  · split
    · next hl => exact .throwing (.struct (he _ rfl) hl)
    · exact .throw rfl
  · exact .throw rfl
  · exact .reads (quoted_reads _) (.throw rfl)
  · exact .reads (quoted_reads _) (.throw rfl)

theorem orLayoutHalt_runs {r : Except LayoutError α} (hr : t.types.Candid r) :
    Runs (orLayoutHalt span r) c t fun a _ => r = .ok a := by
  cases r with
  | ok a => exact .pure rfl
  | error e => exact layoutHalt_runs (hr e rfl)

theorem layoutOf_runs : Runs (layoutOf ty span) c t fun _ _ => True :=
  .reads types_reads ((orLayoutHalt_runs (t.types.candid_layout ty)).imp fun _ _ _ _ => trivial)

theorem valueLayout_runs : Runs (valueLayout ty span) c t fun _ _ => True := by
  refine layoutOf_runs.bind fun layout t' _ _ => ?_
  refine .reads read_reads (.reads types_reads ?_)
  exact .ite (fun _ => .reads (quoted_reads _) (.thrown rfl)) fun _ => .pure trivial

theorem zeroValue_runs : Runs (zeroValue ty span) c t fun v t' => t'.HasConst ty v := by
  refine valueLayout_runs.bind fun _ t' s _ => ?_
  refine .reads types_reads ((orLayoutHalt_runs (t'.types.candid_zero ty)).imp fun v t'' s' hv => ?_)
  exact Tables.HasConst.later (fun _ => Value.fits_zeroAt s.sound'.types _ _ _ _ hv) s'

theorem checkStorage_runs {mutable} : Runs (checkStorage ty mutable span) c t fun _ _ => True := by
  refine .ite (fun _ => .reads (quoted_reads _) (.thrown rfl)) fun _ => ?_
  refine .ite (fun _ => .thrown rfl) fun _ => ?_
  exact valueLayout_runs.bind fun _ _ _ _ => .pure trivial

end Analysis

/-! ## Drafts -/

namespace Draft

theorem instrs_ready (d : Draft) : d.ready.func.instrs = d.func.instrs := by
  unfold ready
  split <;> rfl

private theorem ret_ready (d : Draft) : d.ready.func.ret = d.func.ret := by
  unfold ready
  split <;> rfl

theorem instrs_emit (d : Draft) (kind ty span) :
    (d.emit kind ty span).1.func.instrs = d.func.instrs.push ⟨kind, ty, span, d.ready.current⟩ := by
  rw [← d.instrs_ready]
  rfl

theorem ret_emit (d : Draft) (kind ty span) : (d.emit kind ty span).1.func.ret = d.func.ret := d.ret_ready

private theorem id_emit (d : Draft) (kind ty span) : (d.emit kind ty span).2 = d.func.instrs.nextId := by
  rw [← d.instrs_ready]
  rfl

theorem func_foldl_mark (d : Draft) (targets : List BlockId) : (targets.foldl mark d).func = d.func := by
  induction targets generalizing d with
  | nil => rfl
  | cons b targets ih =>
    rw [List.foldl_cons, ih, mark]
    split <;> rfl

variable {t : Tables} {d : Draft}

theorem sound_start {func} (instrs : func.instrs = .empty) (ret : t.HasType func.ret) :
    (start func).Sound t := ⟨.ofEmpty instrs, fun hs => ⟨.ofEmpty instrs, ret hs⟩⟩

theorem sound_temporary {name} {span} (ht : t.Sound) :
    (temporary name span).Sound t := sound_start rfl fun _ => ht.types.has_void.knows

theorem sound_scratch {span} (ht : t.Sound) : (scratch span).Sound t := sound_temporary ht

theorem Sound.emit {kind : InstrKind} {ty} (ht : t.Sound) (hd : d.Sound t) (span)
    (callee : ∀ g ∈ kind.callee?, t.code.fns.Has g) (h : t.Sane → kind.Typed t.types t.code d.func ty) :
    (d.emit kind ty span).1.Sound t := by
  refine ⟨hd.linked.push (d.instrs_emit ..) callee, fun hs => ?_⟩
  obtain ⟨htyped, hret⟩ := hd.typed hs
  refine ⟨htyped.push ht.types (d.ret_emit ..) (d.instrs_emit ..) (h hs), ?_⟩
  rw [ret_emit]
  exact hret

theorem emit_extends (d : Draft) (kind ty span) :
    d.func.Extends (d.emit kind ty span).1.func := .push (d.ret_emit ..) (d.instrs_emit ..)

private theorem emit_gives (d : Draft) (kind ty span) :
    (d.emit kind ty span).1.func.Gives (d.emit kind ty span).2 ty := by
  rw [id_emit]
  refine ⟨?_, ?_⟩
  · rw [instrs_emit]
    exact Pool.has_push_nextId _ _
  · rw [Function.typeOf, Function.instr, instrs_emit, Pool.getD_push, if_pos rfl]

end Draft

namespace Lower

variable {c : Context} {t : Tables} {d : Draft} {kind : InstrKind} {ty : TypeId} {span : Span}

theorem emitLinked_runs (callee : ∀ g ∈ kind.callee?, t.code.fns.Has g)
    (h : t.Sane → kind.Typed t.types t.code d.func ty) :
    Runs (emit kind ty span) c t d fun i t' d' => d'.Gives t' i ty :=
  .modifyGet (d.emit_extends kind ty span) (fun ht hd => hd.emit ht span callee h) fun _ => d.emit_gives kind ty span

theorem emit_runs (plain : kind.callee? = none) (h : t.Sane → kind.Typed t.types t.code d.func ty) :
    Runs (emit kind ty span) c t d fun i t' d' => d'.Gives t' i ty :=
  emitLinked_runs (by simp [plain]) h

theorem emitVoid_runs (plain : kind.callee? = none) (h : t.Sane → kind.Typed t.types t.code d.func .void) :
    Runs (emit kind .void span) c t d fun _ _ _ => True :=
  (emit_runs plain h).imp fun _ _ _ _ _ => trivial

theorem addBlock_runs {name} : Runs (addBlock name) c t d fun _ _ _ => True :=
  .modifyGet (.ofSameBody rfl rfl) (fun ht hd => hd.ofSameBody ht rfl rfl) trivial

theorem addSlot_runs {name} : Runs (addSlot name ty span) c t d fun _ _ _ => True :=
  .modifyGet (.ofSameBody rfl rfl) (fun ht hd => hd.ofSameBody ht rfl rfl) trivial

theorem moveTo_runs {b} : Runs (moveTo b) c t d fun _ _ _ => True :=
  .modify rfl rfl trivial

theorem emitExit_runs {targets} (plain : kind.callee? = none) (h : t.Sane → kind.Typed t.types t.code d.func .void) :
    Runs (modify fun d => d.emitExit kind targets span) c t d fun _ _ _ => True := by
  have hf := d.func_foldl_mark targets
  intro hd ht _
  have hd' : (targets.foldl Draft.mark d).Sound t := ⟨hf ▸ hd.linked, hf ▸ hd.typed⟩
  have e := (targets.foldl Draft.mark d).emit_extends kind .void span
  rw [hf] at e
  refine ⟨.refl t, e, hd'.emit ht span (by simp [plain]) fun hs => ?_, trivial⟩
  rw [hf]
  exact h hs

theorem jump_runs {target} : Runs (jump target span) c t d fun _ _ _ => True := by
  intro hd ht hr
  have he : Runs (modify fun d => d.emitExit (.jump target) [target] span) c t d fun _ _ _ => True :=
    emitExit_runs rfl fun _ => .jump
  show t.Updates t ∧ d.func.Extends (d.jump target span).func ∧ (d.jump target span).Sound t ∧ True
  unfold Draft.jump
  split
  · exact ⟨.refl t, .refl _, hd, trivial⟩
  · exact he hd ht hr

theorem branch_runs {cond yes no} (h : d.Gives t cond .bool) :
    Runs (branch cond yes no span) c t d fun _ _ _ => True :=
  emitExit_runs rfl fun hs => .branch (h hs)

theorem switch_runs {v cases otherwise} (h : d.Gives t v ty) (hi : t.Sane → (t.types.intInfo ty).isSome = true) :
    Runs (switch v cases otherwise span) c t d fun _ _ _ => True :=
  emitExit_runs rfl fun hs => .switch (h hs) (hi hs)

end Lower

end Comptime
