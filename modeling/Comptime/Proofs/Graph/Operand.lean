import Comptime.Proofs.Draft.Instruction
import Comptime.Proofs.Footprint.Table

/-!
# The graph of operands

The code of an operand keeps a draft in order. If it computes a value, then in a register that is written on
every way to the place where the code ends, and control comes there from the place where it began.

`Lower.Carries p o x d Q` says of a piece of analysis that it abides by the policy `p`, that it keeps the draft
`d` in order and defers nothing, and that `Q` holds of what it gives and of the draft after it. The draft may
also be one of which nothing is known (`Draft.Order`); then only the policy and `Q` matter.
-/

namespace Comptime

open Analysis (code_views folding_views quoted_views types_views)

/-! ## Pieces of code -/

namespace Draft

/-- Code has been written that control flows through, and nothing has been deferred. -/
structure Continues (owed : List BlockId) (d d' : Draft) : Prop extends d.Advances d', d.Plain d' where
  before : d.Regular owed
  after : d'.Regular owed
  opens : d.Open → d'.Open

/-- The register holds a value at the current place, which is open. -/
structure Computed (d : Draft) (i : InstrId) : Prop extends d.Open, d.Offers i

/-- What is known of a draft, if anything: it is in order, but for the blocks that are owed. -/
structure Order where
  known : Prop
  owed : List BlockId

def Order.strict (owed : List BlockId) : Order := ⟨True, owed⟩

def Order.loose : Order := ⟨False, []⟩

/-- Nothing has been deferred, and code has been written that control flows through. -/
structure Follows (o : Order) (d d' : Draft) : Prop extends d.Plain d' where
  continues : o.known → d.Continues o.owed d'

/-- The register holds a value at the current place. -/
def Supplies (o : Order) (d : Draft) (i : InstrId) : Prop := o.known → d.Computed i

theorem Continues.refl {owed} {d : Draft} (h : d.Regular owed) : d.Continues owed d :=
  ⟨.refl d, .refl d, h, h, id⟩

theorem Continues.trans {owed} {d d' d'' : Draft} (g : d.Continues owed d') (g' : d'.Continues owed d'') :
    d.Continues owed d'' :=
  ⟨g.toAdvances.trans g'.toAdvances g.after.orderly, g.toPlain.trans g'.toPlain, g.before, g'.after,
    fun h => g'.opens (g.opens h)⟩

end Draft

/-- The value, the place or the scope that the operand names can be used at the current place. It may take
another type only if it is a number, which is a constant if operators are computed during analysis. -/
structure Operand.Usable (p : Policy) (o : Draft.Order) (op : Operand) (d : Draft) : Prop where
  supplied : ∀ i, op.kind = .instr i ∨ op.kind = .place i → d.Supplies o i
  sees : ∀ scope, op.kind = .scope scope → p.Sees scope
  tame : p.Folds → op.literal = true → op.const?.isSome ∧ p.Counts op.ty

namespace Draft.Follows

variable {p : Policy} {o : Order} {d d' d'' : Draft}

protected theorem refl (h : o.known → d.Regular o.owed) : d.Follows o d := ⟨.refl d, fun known => .refl (h known)⟩

protected theorem trans (g : d.Follows o d') (g' : d'.Follows o d'') : d.Follows o d'' :=
  ⟨g.toPlain.trans g'.toPlain, fun known => (g.continues known).trans (g'.continues known)⟩

theorem supplies {i} (g : d.Follows o d') (h : d.Supplies o i) : d'.Supplies o i := fun known =>
  have g := g.continues known
  ⟨g.opens (h known).toOpen, (h known).toOffers.advances g.before g.toAdvances⟩

theorem usable {op : Operand} (g : d.Follows o d') (h : op.Usable p o d) : op.Usable p o d' :=
  ⟨fun i hi => g.supplies (h.supplied i hi), h.sees, h.tame⟩

end Draft.Follows

namespace Operand

variable {p : Policy} {o : Draft.Order} {d : Draft}

theorem usable_const {v ty span mutable literal} (h : p.Folds → literal = true → p.Counts ty) :
    Usable p o ⟨.const v, ty, span, mutable, literal⟩ d :=
  ⟨fun i hi => by cases hi <;> contradiction, fun _ => nofun, fun folds hlit => ⟨rfl, h folds hlit⟩⟩

theorem usable_value {v ty span mutable} : Usable p o ⟨.const v, ty, span, mutable, false⟩ d :=
  usable_const fun _ => nofun

theorem usable_instr {i ty span mutable literal} (h : d.Supplies o i) (hlit : p.Folds → literal = false) :
    Usable p o ⟨.instr i, ty, span, mutable, literal⟩ d := by
  refine ⟨?_, fun _ => nofun, fun folds => by simp [hlit folds]⟩
  rintro j (hj | hj) <;> cases hj
  exact h

theorem usable_place {i} (h : d.Supplies o i) (ty span) (mutable) : (place i ty span mutable).Usable p o d := by
  refine ⟨?_, fun _ => nofun, fun _ => nofun⟩
  rintro j (hj | hj) <;> cases hj
  exact h

theorem usable_group (members span) : (special (.group members) span).Usable p o d :=
  ⟨fun i hi => by cases hi <;> contradiction, fun _ => nofun, fun _ => nofun⟩

theorem usable_poly (recipe span) : (special (.poly recipe) span).Usable p o d :=
  ⟨fun i hi => by cases hi <;> contradiction, fun _ => nofun, fun _ => nofun⟩

theorem usable_scope {scope} (h : p.Sees scope) (span) : (special (.scope scope) span).Usable p o d := by
  refine ⟨fun i hi => by cases hi <;> contradiction, fun _ hs => ?_, fun _ => nofun⟩
  cases hs
  exact h

end Operand

namespace Lower

variable {α β : Type} {p : Policy} {o : Draft.Order} {d : Draft}

/-- The piece of analysis abides by the policy and keeps the draft in order, and `Q` holds of what it gives and
of the draft after it. -/
def Carries (p : Policy) (o : Draft.Order) (x : Lower α) (d : Draft) (Q : α → Draft → Prop) : Prop :=
  (o.known → d.Regular o.owed) → Gives p x d fun a d' => d.Follows o d' ∧ Q a d'

abbrev Provides (p : Policy) (o : Draft.Order) (x : Lower Operand) (d : Draft) : Prop :=
  Carries p o x d (Operand.Usable p o)

namespace Carries

variable {x y : Lower α} {k : α → Lower β} {P : α → Draft → Prop} {Q : β → Draft → Prop}

private theorem imp {P' : α → Draft → Prop} (h : Carries p o x d P) (hP : ∀ a d', P a d' → P' a d') :
    Carries p o x d P' := fun hd => (h hd).imp fun a d' ha => ⟨ha.1, hP a d' ha.2⟩

protected theorem pure {a : α} (h : P a d) : Carries p o (pure a) d P := fun hd => .pure ⟨.refl hd, h⟩

protected theorem throw {h} (guided : h.Guided) : Carries p o (throw h) d P := fun _ => .throw guided

theorem thrown {h} (guided : h.Guided) : Carries p o (throw h >>= k) d Q := fun _ => .thrown guided

protected theorem bind (h : Carries p o x d P) (h' : ∀ a d', d.Follows o d' → P a d' → Carries p o (k a) d' Q) :
    Carries p o (x >>= k) d Q := by
  intro hd
  refine (h hd).bind fun a d' ha => ?_
  refine (h' a d' ha.1 ha.2 fun known => (ha.1.continues known).after).imp fun b d'' hb => ?_
  exact ⟨ha.1.trans hb.1, hb.2⟩

protected theorem ite {q : Prop} [Decidable q] (h : q → Carries p o x d P) (h' : ¬ q → Carries p o y d P) :
    Carries p o (if q then x else y) d P := fun hd => .ite (fun hq => h hq hd) fun hq => h' hq hd

theorem lift {x} (h : Analysis.Gives p x fun a => P a d) : Carries p o (liftM x) d P :=
  fun hd => .lift (h.imp fun _ ha => ⟨.refl hd, ha⟩)

theorem liftBind {x} {R : α → Prop} (h : Analysis.Gives p x R) (h' : ∀ a, R a → Carries p o (k a) d Q) :
    Carries p o (liftM x >>= k) d Q := fun hd => .liftBind h fun a ha => h' a ha hd

theorem views {x} {v : Context → Tables → α} (hx : Analysis.Views x v)
    (h : ∀ c t g, p.Suits c → p.Holds t g → Carries p o (k (v c t)) d Q) : Carries p o (liftM x >>= k) d Q :=
  fun hd => .views hx fun c t g hc ht => h c t g hc ht hd

theorem reads {x} {v : Context → Tables → α} (hx : Analysis.Views x v) (h : ∀ a, Carries p o (k a) d Q) :
    Carries p o (liftM x >>= k) d Q := .views hx fun _ _ _ _ _ => h _

protected theorem scopes {k : Scopes → Lower β}
    (h : ∀ t g, p.Holds t g → k g.scopes = k t.scopes ∧ Carries p o (k t.scopes) d Q) :
    Carries p o (liftM Analysis.scopes >>= k) d Q :=
  fun hd => .scopes fun t g ht => ⟨(h t g ht).1, (h t g ht).2 hd⟩

protected theorem tryCatch {k : Halt → Lower α} (h : Carries p o x d P) (h' : ∀ e, Carries p o (k e) d P) :
    Carries p o (tryCatch x k) d P := fun hd => .tryCatch (h hd) fun e => h' e hd

protected theorem mapM {f : α → Lower β} {l : List α} (later : ∀ {b d d'}, d.Follows o d' → Q b d → Q b d')
    (h : ∀ a ∈ l, ∀ d', d.Follows o d' → Carries p o (f a) d' Q) :
    Carries p o (l.mapM f) d fun bs d' => ∀ b ∈ bs, Q b d' := by
  intro hd
  suffices hall : ∀ d', d.Follows o d' → Carries p o (l.mapM f) d' fun bs d' => ∀ b ∈ bs, Q b d' from
    hall d (.refl hd) hd
  induction l with
  | nil =>
    intro d' _
    rw [List.mapM_nil]
    exact .pure fun b hb => by cases hb
  | cons a l ih =>
    intro d' hd'
    rw [List.mapM_cons]
    refine (h a List.mem_cons_self d' hd').bind fun b d1 h1 hb => ?_
    refine (ih (fun a ha => h a (List.mem_cons_of_mem _ ha)) d1 (hd'.trans h1)).bind
      fun bs d2 h2 hbs => .pure fun b' hb' => ?_
    rcases List.mem_cons.mp hb' with rfl | hb'
    · exact later h2 hb
    · exact hbs b' hb'

/-- The piece of analysis in a draft that is in order. -/
theorem strictly {owed} (h : Carries p (.strict owed) x d P) (hd : d.Regular owed) :
    Gives p x d fun a d' => d.Continues owed d' ∧ P a d' :=
  (h fun _ => hd).imp fun _ _ h => ⟨h.1.continues trivial, h.2⟩

theorem run {owed} (h : Carries p (.strict owed) x d P) (hd : d.Regular owed) :
    Analysis.Gives p (x.run d) fun r => r.2.Regular owed ∧ P r.1 r.2 :=
  Analysis.Gives.imp (h.strictly hd) fun _ h => ⟨h.1.after, h.2⟩

/-- The piece of analysis in whatever draft. -/
theorem loosely (h : Carries p .loose x d P) : Gives p x d fun _ _ => True := (h nofun).imp fun _ _ _ => trivial

end Carries

/-! ## Writing -/

theorem emit_carries (kind) (goesOn : kind.isTerminator = false) (phi : kind.incoming? = none)
    (reads : ∀ r ∈ kind.reads none, d.Supplies o r) (ty span) :
    Carries p o (emit kind ty span) d fun i d' => d'.Supplies o i := by
  intro hd
  have hopen (known) := Draft.open_emit (hd known).here goesOn ty span
  refine .modifyGet ⟨⟨d.plain_emit kind ty span, fun known => ?_⟩, fun known =>
    ⟨hopen known, d.offers_emit kind ty span⟩⟩
  have targets : kind.targets = [] := by
    refine List.eq_nil_iff_forall_not_mem.mpr fun b hb => ?_
    rw [InstrKind.isTerminator_of_mem_targets hb] at goesOn
    cases goesOn
  have result : kind = .ret none → d.func.ret = .void := by
    rintro rfl
    cases goesOn
  have hoffers : ∀ r ∈ kind.reads none, d.Offers r := fun r hr => (reads r hr known).toOffers
  obtain ⟨hregular, hadvances⟩ := (hd known).emit (.refl d) hoffers targets phi result ty span
  exact ⟨hadvances, d.plain_emit kind ty span, hd known, hregular, fun _ => hopen known⟩

theorem addSlot_carries (name) (ty span) : Carries p o (addSlot name ty span) d fun _ _ => True := by
  refine fun hd => .modifyGet ⟨⟨⟨rfl, rfl⟩, fun known => ?_⟩, trivial⟩
  refine ⟨d.advances_addSlot name ty span, ⟨rfl, rfl⟩, hd known, (hd known).addSlot name ty span, fun h => ⟨?_, h.here⟩⟩
  exact h.goesOn

theorem orTrapAt_carries (span) {r} (h : Unblaming r) :
    Carries p o (Analysis.orTrapAt span r : Lower α) d fun _ _ => True := by
  cases r with
  | ok a => exact .pure trivial
  | error kind => exact .throw (h.isAstray rfl)

/-! ## Operands -/

variable {op : Operand} {i j : InstrId}

theorem supplies_one (h : d.Supplies o i) : ∀ r ∈ [i], d.Supplies o r := by
  simpa using h

theorem supplies_two (h : d.Supplies o i) (h' : d.Supplies o j) : ∀ r ∈ [i, j], d.Supplies o r := by
  simpa using ⟨h, h'⟩

theorem fnOperand_provides (f span) : Provides p o (Analysis.fnOperand f span) d :=
  .lift ((Analysis.functionOf_abides f).bind fun _ _ => .pure Operand.usable_value)

theorem mismatch_carries (span expected found) :
    Carries p o (Analysis.mismatch span expected found : Lower α) d fun _ _ => False :=
  .lift (.reads (quoted_views _) fun _ => .reads (quoted_views _) fun _ => .throw trivial)

section

variable (hop : op.Usable p o d)

include hop

theorem rvalue_provides : Provides p o (rvalue op) d := by
  unfold rvalue
  split
  · next ptr hk =>
    refine .bind (emit_carries (.load ptr) rfl rfl (supplies_one (hop.supplied ptr (.inr hk))) _ _)
      fun i d' _ hi => .pure ?_
    exact Operand.usable_instr hi fun _ => rfl
  · exact .pure hop

theorem materialize_carries : Carries p o (materialize op) d fun i d' => d'.Supplies o i := by
  refine (rvalue_provides hop).bind fun op d' _ hop => ?_
  split
  · exact emit_carries _ rfl rfl (fun r hr => by cases hr) _ _
  · next id hk => exact .pure (hop.supplied id (.inl hk))
  all_goals exact .throw trivial

theorem addressOf_carries : Carries p o (addressOf op) d fun r d' => d'.Supplies o r.1 := by
  unfold addressOf
  split
  · next ptr hk => exact .pure (hop.supplied ptr (.inr hk))
  · refine .liftBind (Analysis.layoutOf_abides _ _) fun _ _ => (materialize_carries hop).bind fun value d1 _ hvalue => ?_
    refine (addSlot_carries _ _ _).bind fun slot d2 h2 _ => .liftBind (Analysis.ptrTo_abides _) fun ty _ => ?_
    refine .bind (emit_carries _ rfl rfl (fun r hr => by cases hr) _ _) fun ptr d3 h3 hptr => ?_
    have hvalue := h3.supplies (h2.supplies hvalue)
    refine .bind (emit_carries (.store ptr value) rfl rfl (supplies_two hptr hvalue) _ _) fun _ d4 h4 _ => ?_
    exact .pure (h4.supplies hptr)

theorem adapt_carries (target) : Carries p o (adapt op target) d fun r d' => ∀ op ∈ r, op.Usable p o d' := by
  refine .views types_views fun _ t _ _ ht => .ite (fun _ => .pure fun _ h => by cases h) fun hnumeric => ?_
  have hcounts : p.Counts target := by
    refine p.numeric ht ?_
    simp only [TypeTable.plainInt, TypeTable.isNumeric] at hnumeric ⊢
    cases hint : t.types.isInt target <;> cases hreal : t.types.isReal target <;> simp_all
  split
  · refine .ite (fun _ => .pure ?_) fun _ => .reads (quoted_views _) fun _ => .throw trivial
    rintro _ ⟨rfl⟩
    exact Operand.usable_const fun _ _ => hcounts
  · split
    case h_4 => exact .pure fun _ h => by cases h
    all_goals
      refine (orTrapAt_carries _ (CastOp.unblaming_eval _ _ _ _)).bind fun v d' _ _ => .pure ?_
      rintro _ ⟨rfl⟩
      exact Operand.usable_const fun _ _ => hcounts
  · next id hk =>
    split
    · refine .bind (emit_carries (.cast _ id) rfl rfl (supplies_one (hop.supplied id (.inl hk))) _ _)
        fun i d' _ hi => .pure ?_
      rintro _ ⟨rfl⟩
      exact Operand.usable_instr hi fun _ => rfl
    · exact .pure fun _ h => by cases h
  · exact .pure fun _ h => by cases h

theorem convert_provides (cast target) : Provides p o (convert op cast target) d := by
  refine .reads folding_views fun _ => ?_
  split
  · refine .reads types_views fun t => ?_
    refine (orTrapAt_carries _ (CastOp.unblaming_eval _ _ _ _)).bind fun v d' _ _ => .pure ?_
    exact Operand.usable_value
  · refine (materialize_carries hop).bind fun i d1 _ hi => ?_
    refine .bind (emit_carries (.cast cast i) rfl rfl (supplies_one hi) _ _) fun j d2 _ hj => .pure ?_
    exact Operand.usable_instr hj fun _ => rfl

private theorem widen_provides (target) : Provides p o (widen op target) d := by
  refine .reads types_views fun t => ?_
  cases t.castOp op.ty target with
  | some cast =>
    exact .ite (fun _ => (mismatch_carries _ _ _).bind fun _ _ _ h => h.elim) fun _ => convert_provides hop cast target
  | none => exact .ite (fun _ => (mismatch_carries _ _ _).bind fun _ _ _ h => h.elim) fun _ => .throw trivial

private theorem coerceValue_provides (target) : Provides p o (coerceValue op target) d := by
  refine .ite (fun _ => .pure hop) fun _ => .ite (fun _ => ?_) fun _ => widen_provides hop target
  refine (adapt_carries hop target).bind fun r d' h' hr => ?_
  cases r with
  | some adapted => exact .pure (hr adapted rfl)
  | none => exact widen_provides (h'.usable hop) target

theorem coerce_provides (target) : Provides p o (coerce op target) d := by
  refine (rvalue_provides hop).bind fun op d' _ hop => ?_
  split
  · refine .reads code_views fun code => ?_
    split
    · exact .pure Operand.usable_value
    · exact .reads (quoted_views _) fun _ => .throw trivial
  · exact .throw trivial
  · exact .throw trivial
  · exact coerceValue_provides hop target

theorem castTo_provides (target span) : Provides p o (castTo op target span) d := by
  refine (rvalue_provides hop).bind fun op d' _ hop => .reads types_views fun t => ?_
  split
  · exact (convert_provides hop _ target).bind fun _ _ _ hop => .pure ⟨hop.supplied, hop.sees, hop.tame⟩
  · exact .reads (quoted_views _) fun _ => .reads (quoted_views _) fun _ => .throw trivial

end

/-! ## Operators -/

section

variable {lhs rhs : Operand}

private theorem unifyOperands_carries (op : BinaryOp) (hl : lhs.Usable p o d) (hr : rhs.Usable p o d) (span : Span) :
    Carries p o (unifyOperands op lhs rhs span) d fun r d' => r.1.Usable p o d' ∧ r.2.Usable p o d' := by
  have hleft : Carries p o (do return (← coerce lhs rhs.ty, rhs)) d fun r d' =>
      r.1.Usable p o d' ∧ r.2.Usable p o d' :=
    (coerce_provides hl _).bind fun _ _ h' hop => .pure ⟨hop, h'.usable hr⟩
  have hright : Carries p o (do return (lhs, ← coerce rhs lhs.ty)) d fun r d' =>
      r.1.Usable p o d' ∧ r.2.Usable p o d' :=
    (coerce_provides hr _).bind fun _ _ h' hop => .pure ⟨h'.usable hl, hop⟩
  unfold unifyOperands
  split
  · exact hleft
  · exact hright
  · refine .reads types_views fun t => ?_
    split
    · refine (coerce_provides hl _).bind fun _ d1 h1 hop => ?_
      exact (coerce_provides (h1.usable hr) _).bind fun _ _ h2 hop' => .pure ⟨h2.usable hop, hop'⟩
    · exact .ite (fun _ => .tryCatch hright fun _ => hleft) fun _ =>
        .reads (quoted_views _) fun _ => .reads (quoted_views _) fun _ => .throw trivial

theorem binary_provides (op : BinaryOp) (hl : lhs.Usable p o d) (hr : rhs.Usable p o d) (span : Span) :
    Provides p o (binary op lhs rhs span) d := by
  refine (unifyOperands_carries op hl hr span).bind fun r d1 _ hops => .reads types_views fun t => ?_
  refine .ite (fun _ => ?_) fun _ => .reads (quoted_views _) fun _ => .thrown trivial
  refine .views folding_views fun c _ _ hc _ => ?_
  split
  · refine (orTrapAt_carries _ (BinaryOp.unblaming_eval _ _ _ _ _)).bind fun v d' _ _ => .pure ?_
    refine Operand.usable_const fun folds hlit => ?_
    simp only [Bool.and_eq_true, Bool.not_eq_true'] at hlit
    simp only [hlit.2, Bool.false_eq_true, if_false, Operand.constant]
    exact (hops.1.tame folds hlit.1.1).2
  · next hconst =>
    refine (materialize_carries hops.1).bind fun a d2 h2 ha => ?_
    refine (materialize_carries (h2.usable hops.2)).bind fun b d3 h3 hb => ?_
    refine .bind (emit_carries (.binary op a b) rfl rfl (supplies_two (h3.supplies ha) hb) _ _)
      fun i d4 _ hi => .pure (Operand.usable_instr hi fun folds => Bool.eq_false_iff.mpr fun hlit => ?_)
    simp only [Bool.and_eq_true] at hlit
    obtain ⟨v, hv⟩ := Option.isSome_iff_exists.mp (hops.1.tame folds hlit.1.1).1
    obtain ⟨v', hv'⟩ := Option.isSome_iff_exists.mp (hops.2.tame folds hlit.1.2).1
    exact hconst v v' hv hv' (hc.folds folds)

end

theorem unary_provides (unary) (hop : op.Usable p o d) (span) : Provides p o (Lower.unary unary op span) d := by
  refine (rvalue_provides hop).bind fun op d1 _ hop => .reads types_views fun t => ?_
  refine .ite (fun _ => ?_) fun _ => .reads (quoted_views _) fun _ => .thrown trivial
  refine .views folding_views fun c _ _ hc _ => ?_
  split
  · refine (orTrapAt_carries _ (UnaryOp.unblaming_eval _ _ _ _)).bind fun v d' _ _ => .pure ?_
    exact Operand.usable_const fun folds hlit => (hop.tame folds hlit).2
  · next hconst =>
    refine (materialize_carries hop).bind fun a d2 h2 ha => ?_
    refine .bind (emit_carries (.unary unary a) rfl rfl (supplies_one ha) _ _) fun i d3 _ hi =>
      .pure (Operand.usable_instr hi fun folds => Bool.eq_false_iff.mpr fun hlit => ?_)
    obtain ⟨v, hv⟩ := Option.isSome_iff_exists.mp (hop.tame folds hlit).1
    exact hconst v hv (hc.folds folds)

/-! ## Names, members and elements -/

theorem symbolOperand_provides {found} (hf : p.Finds found.symbol) (span) :
    Provides p o (symbolOperand found span) d := by
  refine .scopes fun t g ht => ⟨by simp only [(p.symbol ht hf).1], ?_⟩
  dsimp only
  split
  · exact .throw trivial
  · exact .throw trivial
  · exact .throw trivial
  · next value hstate =>
    cases value with
    | const ty v => exact .pure Operand.usable_value
    | type ty => exact .pure Operand.usable_value
    | fn f => exact fnOperand_provides f span
    | group members => exact .pure (Operand.usable_group _ _)
    | poly recipe => exact .pure (Operand.usable_poly _ _)
    | scope inner => exact .pure (Operand.usable_scope ((p.symbol ht hf).2 inner hstate) _)
    | global id =>
      refine .reads code_views fun code => .liftBind (Analysis.ptrTo_abides _) fun ty _ => ?_
      refine .bind (emit_carries _ rfl rfl (fun r hr => by cases hr) _ _) fun i d' _ hi => .pure ?_
      exact Operand.usable_place hi _ _ _
    | slot slot ty =>
      refine .ite (fun _ => .thrown trivial) fun _ => .liftBind (Analysis.ptrTo_abides _) fun ty _ => ?_
      refine .bind (emit_carries _ rfl rfl (fun r hr => by cases hr) _ _) fun i d' _ hi => .pure ?_
      exact Operand.usable_place hi _ _ _

theorem ident_provides {scope} (hs : p.Sees scope) (name) (span) : Provides p o (ident scope name span) d := by
  refine .scopes fun t g ht => ⟨by simp only [(p.lookup ht hs name).1], ?_⟩
  cases hfound : t.scopes.lookup scope name with
  | some found => exact symbolOperand_provides ((p.lookup ht hs name).2 found hfound) span
  | none => exact .throw trivial

private theorem project_provides (hop : op.Usable p o d) (index : Nat) (ty span) :
    Provides p o (project op index ty span) d := by
  unfold project
  split
  · split
    · exact .pure Operand.usable_value
    · exact .throw trivial
  · refine (addressOf_carries hop).bind fun r d1 _ hr => .liftBind (Analysis.ptrTo_abides _) fun ty _ => ?_
    refine .bind (emit_carries (.memberPtr r.1 index) rfl rfl (supplies_one hr) _ _) fun i d2 _ hi => .pure ?_
    exact Operand.usable_place hi _ _ _

theorem enumVariant_provides (ty) (name) (span) : Provides p o (enumVariant ty name span) d := by
  refine .lift (.reads types_views fun t => ?_)
  split
  · dsimp only
    split
    · split
      · exact .pure Operand.usable_value
      · exact .throw trivial
    · exact .throw trivial
  · exact .reads (quoted_views _) fun _ => .throw trivial

theorem follow_provides (q : TypeKind → Bool) (hop : op.Usable p o d) (span) : Provides p o (follow q op span) d := by
  refine .reads types_views fun t => ?_
  split
  · refine .ite (fun _ => ?_) fun _ => .pure hop
    exact (materialize_carries hop).bind fun i d' _ hi => .pure (Operand.usable_place hi _ _ _)
  · exact .pure hop

theorem valueMember_provides (hop : op.Usable p o d) (name : String) (span) :
    Provides p o (valueMember op name span) d := by
  refine (follow_provides _ hop span).bind fun op d' _ hop => .reads types_views fun t => ?_
  split
  · split
    · split
      · exact project_provides hop _ _ span
      · exact .reads (quoted_views _) fun _ => .throw trivial
    · exact .lift (Analysis.layoutHalt_gives _ _)
  · refine .ite (fun _ => project_provides hop _ _ span) fun _ => .ite (fun _ => ?_) fun _ => .throw trivial
    exact .liftBind (Analysis.ptrTo_abides _) fun _ _ => project_provides hop _ _ span
  · split
    · exact .pure Operand.usable_value
    · exact .reads (quoted_views _) fun _ => .throw trivial

theorem elements_carries (op span) : Carries p o (elements op span) d fun _ _ => True := by
  refine .reads types_views fun t => ?_
  split
  · exact .pure trivial
  · exact .pure trivial
  · exact .pure trivial
  · exact .reads (quoted_views _) fun _ => .throw trivial

theorem foldIndex_carries (base index elem bound span) :
    Carries p o (foldIndex base index elem bound span) d fun r d' => ∀ op ∈ r, op.Usable p o d' := by
  refine .reads folding_views fun fold => ?_
  split
  · refine .ite (fun _ => .thrown rfl) fun _ => .pure ?_
    rintro _ ⟨rfl⟩
    exact Operand.usable_value
  · exact .pure fun _ h => by cases h

theorem elementBase_carries (hop : op.Usable p o d) (bound) :
    Carries p o (elementBase op bound) d fun r d' => d'.Supplies o r.1 := by
  cases bound with
  | unchecked => exact (materialize_carries hop).bind fun i d' _ hi => .pure hi
  | slice => exact (addressOf_carries hop).bind fun r d' _ hr => .pure hr
  | array len => exact addressOf_carries hop

theorem addressOfPlace_provides (hop : op.Usable p o d) (span) : Provides p o (addressOfPlace op span) d := by
  unfold addressOfPlace
  split
  · next ptr hk =>
    refine .liftBind (Analysis.ptrTo_abides _) fun ty _ => .pure ?_
    exact Operand.usable_instr (hop.supplied ptr (.inr hk)) fun _ => rfl
  · exact .throw trivial

theorem dereference_provides (hop : op.Usable p o d) (span) : Provides p o (dereference op span) d := by
  refine .reads types_views fun t => ?_
  split
  · exact (materialize_carries hop).bind fun i d' _ hi => .pure (Operand.usable_place hi _ _ _)
  · exact .reads (quoted_views _) fun _ => .throw trivial

/-! ## Lists of operands -/

section

variable {args : List Operand}

theorem coerceArgs_carries (params) (hargs : ∀ op ∈ args, op.Usable p o d) (span) :
    Carries p o (coerceArgs params args span) d fun ops d' => ∀ op ∈ ops, op.Usable p o d' := by
  refine .ite (fun _ => .thrown trivial) fun _ => .mapM (·.usable) fun a ha d' hd' => ?_
  exact coerce_provides (hd'.usable (hargs a.1 (List.of_mem_zip ha).1)) a.2

theorem materializeAll_carries (hargs : ∀ op ∈ args, op.Usable p o d) :
    Carries p o (args.mapM materialize) d fun ids d' => ∀ i ∈ ids, d'.Supplies o i :=
  .mapM (·.supplies) fun op hop _ hd' => materialize_carries (hd'.usable (hargs op hop))

theorem emitCall_provides {callee} (hcallee : ∀ i, callee = .indirect i → d.Supplies o i) (params ret)
    (hargs : ∀ op ∈ args, op.Usable p o d) (span) : Provides p o (emitCall callee params ret args span) d := by
  refine (coerceArgs_carries params hargs span).bind fun args d1 h1 hargs => ?_
  refine (materializeAll_carries hargs).bind fun ids d2 h2 hids => ?_
  have hreads : ∀ r ∈ (InstrKind.call callee ids).reads none, d2.Supplies o r := by
    cases callee with
    | direct f => exact hids
    | indirect v =>
      intro r hr
      rcases List.mem_cons.mp hr with rfl | hr
      · exact (h1.trans h2).supplies (hcallee r rfl)
      · exact hids r hr
  refine .bind (emit_carries (.call callee ids) rfl rfl hreads _ _) fun id d3 _ hid => .pure ?_
  exact Operand.usable_instr hid fun _ => rfl

theorem directCall_provides (f) (hargs : ∀ op ∈ args, op.Usable p o d) (span) :
    Provides p o (directCall f args span) d := by
  refine .liftBind (Analysis.functionOf_abides f) fun func _ => ?_
  split
  · exact emitCall_provides (fun i h => by cases h) _ _ hargs span
  · refine (coerceArgs_carries _ hargs span).bind fun args d1 _ _ => ?_
    refine .bind (P := fun _ _ => True) (.imp (.mapM (Q := fun _ _ => True) (fun _ h => h) fun op _ d' _ => ?_)
      fun _ _ _ => trivial) fun values d2 _ _ => ?_
    · split
      · exact .pure trivial
      · exact .throw trivial
    · exact .liftBind (Analysis.callNow_abides f values) fun v _ => .pure Operand.usable_value

theorem indirectCall_provides {callee : Operand} (hcallee : callee.Usable p o d)
    (hargs : ∀ op ∈ args, op.Usable p o d) (span : Span) : Provides p o (indirectCall callee args span) d := by
  refine (rvalue_provides hcallee).bind fun callee d1 h1 hcallee => .reads types_views fun t => ?_
  split
  · refine (materialize_carries hcallee).bind fun target d2 h2 htarget => ?_
    have hargs : ∀ op ∈ args, op.Usable p o d2 := fun op hop => (h1.trans h2).usable (hargs op hop)
    refine emitCall_provides (fun i hi => ?_) _ _ hargs span
    cases hi
    exact htarget
  · exact .reads (quoted_views _) fun _ => .throw trivial

theorem assemble_provides {ops} (hops : ∀ op ∈ ops, op.Usable p o d) (ty span) :
    Provides p o (assemble ops ty span) d := by
  unfold assemble
  split
  · exact .pure Operand.usable_value
  · refine (materializeAll_carries hops).bind fun ids d1 _ hids => ?_
    refine .bind (emit_carries (.compound ids) rfl rfl hids _ _) fun id d2 _ hid => .pure ?_
    exact Operand.usable_instr hid fun _ => rfl

theorem compoundTypes_carries (ty) (count : Nat) (span) :
    Carries p o (compoundTypes ty count span) d fun _ _ => True := by
  refine .reads types_views fun t => ?_
  split
  · split
    · exact .pure trivial
    · exact .lift (Analysis.layoutHalt_gives _ _)
  · exact .pure trivial
  · exact .liftBind (Analysis.ptrTo_abides _) fun _ _ => .pure trivial
  · exact .pure trivial

end

end Lower

/-! ## Walks -/

/-- Statements have been written. Some may have been deferred in the innermost block. -/
structure Draft.Proceeds (p : Policy) (owed : List BlockId) (d d' : Draft) : Prop extends d.Advances d', d.Defers d' where
  after : d'.Regular owed
  fresh : d'.Fresh p

/-- The piece of analysis abides by the policy and keeps the draft in order. It may defer statements. -/
def Lower.Maintains {α : Type} (p : Policy) (owed : List BlockId) (x : Lower α) (d : Draft) : Prop :=
  d.Regular owed → d.Fresh p → Lower.Gives p x d fun _ d' => d.Proceeds p owed d'

/-- The walk abides by the policy and keeps drafts in order. Statements do so if constants may be stored. -/
structure Walk.Abides (p : Policy) (w : Walk) : Prop where
  expr : ∀ {scope}, p.Sees scope → ∀ n {o d}, Lower.Provides p o (w.expr scope n) d
  typeExpr : ∀ {scope}, p.Sees scope → ∀ n, Analysis.Abides p (w.typeExpr scope n)
  stmt : p.Stores → ∀ {scope}, p.Enters scope → ∀ n {owed d}, Lower.Maintains p owed (w.stmt scope n) d

theorem Draft.Regular.returns {d : Draft} {i} (h : d.Regular []) (hi : d.Computed i) (ty span) {types}
    {func : Function} {e}
    (placed : { (d.emit (.ret (some i)) .void span).1.func with ret := ty, state := .analyzed }.layoutFrame
      types = (func, e)) : func.Formed := by
  have hreads : ∀ r ∈ (InstrKind.ret (some i)).reads none, d.Offers r := by simpa [InstrKind.reads] using hi.toOffers
  have hret := h.emit (.refl d) hreads rfl rfl (by simp) .void span
  have hended : (d.emit (.ret (some i)) .void span).1.isTerminated = true :=
    isTerminated_emit h.here rfl .void span
  have hblocks := Function.blocks_layoutFrame placed
  have hsame := Function.layoutFrame_same types
    { (d.emit (.ret (some i)) .void span).1.func with ret := ty, state := .analyzed }
  rw [placed] at hsame
  exact hret.1.formed hended hblocks hsame.1

end Comptime
