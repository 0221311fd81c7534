import Comptime.Proofs.Analysis.Operation
import Comptime.Proofs.Arithmetic.Lowering
import Comptime.Proofs.Draft.Growth
import Comptime.Proofs.Shortcut.Literal

/-!
# Runs side by side

Where code is written plays no part in what analysis finds out about an expression that consists of
literals and operators. `Lower.Parallel` says of two pieces of analysis that they halt for the same
reason or give results that are alike, whatever drafts they write into. It also says of the first
that it writes behind what is there: `Draft.Leads`.
-/

namespace Comptime

open Analysis (folding_reads node_reads quoted_reads types_reads)

/-! ## Drafts -/

namespace Draft

variable {d d' d'' : Draft}

/-- Code has been written at the current place, and it uses no variables. -/
structure Leads (d d' : Draft) : Prop extends d.Grows d' where
  header : { d'.func with instrs := d.func.instrs, blocks := d.func.blocks } = d.func

namespace Leads

protected theorem refl (d : Draft) : d.Leads d := ⟨.refl d, rfl⟩

protected theorem trans (h : d.Leads d') (h' : d'.Leads d'') : d.Leads d'' where
  toGrows := h.toGrows.trans h'.toGrows
  header := by
    have hsame := h.header
    rw [← h'.header] at hsame
    exact hsame

private theorem moveTo (h : d.Leads d') {b} (hnew : ¬ d.func.blocks.Has b) (hb : d'.func.blocks.Has b) :
    d.Leads { d' with current := b } :=
  ⟨h.toGrows.moveTo hnew hb, h.header⟩

end Leads

theorem leads_addBlock (d : Draft) (name) : d.Leads (d.addBlock name).1 :=
  ⟨d.grows_addBlock name, rfl⟩

theorem leads_emit (d : Draft) (kind ty span) : d.Leads (d.emit kind ty span).1 := by
  refine ⟨d.grows_emit kind ty span, ?_⟩
  unfold emit ready
  split <;> rfl

theorem leads_emitExit (d : Draft) (kind targets span) : d.Leads (d.emitExit kind targets span) := by
  obtain ⟨reachable, hmarks, -⟩ := marks_eq targets d
  refine ⟨d.grows_emitExit kind targets span, ?_⟩
  have hheader := (leads_emit (targets.foldl mark d) kind .void span).header
  rw [hmarks] at hheader
  rw [emitExit, hmarks]
  exact hheader

theorem leads_jump (d : Draft) (target span) : d.Leads (d.jump target span) := by
  unfold jump
  split
  · exact .refl d
  · exact d.leads_emitExit _ _ span

end Draft

/-! ## Operands -/

/-- The operands stand for the same constant, or for results of instructions that have the same type.
Where operators are folded there are constants only. -/
inductive Operand.Similar (fold : Bool) : Operand → Operand → Prop
  | const {op : Operand} {v : Value} {g : Ground} (kind : op.kind = .const v) (ty : op.ty = g.ty)
    (holds : g.Holds v) : Similar fold op op
  | instr {op : Operand} {i j : InstrId} {g : Ground} (ty : op.ty = g.ty) (executed : fold = false) :
    Similar fold { op with kind := .instr i } { op with kind := .instr j }

namespace Operand.Similar

variable {fold : Bool} {a b : Operand}

section

variable (h : a.Similar fold b)

include h

theorem ground : ∃ g : Ground, a.ty = g.ty := by
  cases h with
  | const _ ty => exact ⟨_, ty⟩
  | instr ty => exact ⟨_, ty⟩

theorem ty : b.ty = a.ty := by
  cases h <;> rfl

theorem literal : b.literal = a.literal := by
  cases h <;> rfl

private theorem span : b.span = a.span := by
  cases h <;> rfl

theorem const? :
    (∃ v, ∃ g : Ground, a.const? = some v ∧ b.const? = some v ∧ a.ty = g.ty ∧ g.Holds v) ∨
      a.const? = none ∧ b.const? = none ∧ fold = false := by
  cases h with
  | const kind ty holds =>
    refine .inl ⟨_, _, ?_, ?_, ty, holds⟩ <;> rw [Operand.const?, kind]
  | instr ty executed => exact .inr ⟨rfl, rfl, executed⟩

theorem withSpan (span) : Similar fold { a with span } { b with span } := by
  cases h with
  | const kind ty holds => exact .const kind ty holds
  | @instr op i j g ty executed => exact @Similar.instr _ { op with span } i j g ty executed

end

end Operand.Similar

/-! ## Parallel runs -/

namespace Lower

/-- The runs halt for the same reason, or both end and `R` holds of their results and of the draft of
the first. The tables stay as they are. A reason to halt is a trap only where operators are folded. -/
def Concur {α β : Type} (c : Context) (t t' : Tables) (R : α → β → Draft → Prop) :
    EStateM.Result Halt Tables (α × Draft) → EStateM.Result Halt Tables (β × Draft) → Prop
  | .ok (a, e) u, .ok (b, _) u' => (u = t ∧ u' = t') ∧ R a b e
  | .error h u, .error h' u' =>
    (u = t ∧ u' = t') ∧ h = h' ∧ (c.config.foldConstants = false → ∀ trap, h ≠ .trap trap)
  | _, _ => False

/-- Two pieces of analysis concur, wherever the second one writes. -/
def Parallel {α β : Type} (x : Lower α) (y : Lower β) (c : Context) (t t' : Tables) (d : Draft)
    (R : α → β → Draft → Prop) : Prop :=
  ∀ d', Concur c t t' R (x d c t) (y d' c t')

/-- Two pieces of analysis concur wherever they write, and `R` holds of what they give. The first writes
behind what is there. -/
def Matches {α β : Type} (c : Context) (t t' : Tables) (x : Lower α) (y : Lower β) (R : α → β → Prop) : Prop :=
  ∀ d, Parallel x y c t t' d fun a b e => d.Leads e ∧ R a b

theorem Concur.of_error {α β : Type} {c t t' u} {R : α → β → Draft → Prop} {h}
    {y : EStateM.Result Halt Tables (β × Draft)} (hy : Concur c t t' R (.error h u) y) : y = .error h t' := by
  cases y with
  | ok r u' => exact hy.elim
  | error h' u' =>
    obtain ⟨⟨-, rfl⟩, rfl, -⟩ := hy
    rfl

theorem Concur.of_ok {α β : Type} {c t t' u} {R : α → β → Draft → Prop} {a : α} {e}
    {y : EStateM.Result Halt Tables (β × Draft)} (hy : Concur c t t' R (.ok (a, e) u) y) :
    u = t ∧ ∃ b e', y = .ok (b, e') t' ∧ R a b e := by
  cases y with
  | ok r u' =>
    obtain ⟨⟨rfl, rfl⟩, hr⟩ := hy
    exact ⟨rfl, r.1, r.2, rfl, hr⟩
  | error h' u' => exact hy.elim

section

variable {α β γ δ : Type} {x : Lower α} {y : Lower β} {k : α → Lower γ} {k' : β → Lower δ}
  {c : Context} {t t' : Tables}

namespace Parallel

variable {d : Draft} {R : α → β → Draft → Prop} {S : γ → δ → Draft → Prop}

protected theorem bind (h : Parallel x y c t t' d R) (h' : ∀ a b e, R a b e → Parallel (k a) (k' b) c t t' e S) :
    Parallel (x >>= k) (y >>= k') c t t' d S := by
  intro d'
  have hd := h d'
  simp only [bind, StateT.bind, ReaderT.bind, EStateM.bind]
  unfold Concur at hd
  split at hd
  · next a e u b e' u' hx hy =>
    obtain ⟨⟨rfl, rfl⟩, hr⟩ := hd
    simp only [hx, hy]
    exact h' a b e hr e'
  · next hx hy =>
    simp only [hx, hy]
    exact hd
  · exact hd.elim

theorem imp {R' : α → β → Draft → Prop} (h : Parallel x y c t t' d R)
    (hR : ∀ a b e, R a b e → R' a b e) : Parallel x y c t t' d R' := by
  intro d'
  have hd := h d'
  unfold Concur at hd ⊢
  split at hd
  · exact ⟨hd.1, hR _ _ _ hd.2⟩
  · exact hd
  · exact hd

protected theorem get {k : Draft → Lower γ} {k' : Draft → Lower δ}
    (h : ∀ d', Parallel (k d) (k' d') c t t' d S) : Parallel (get >>= k) (get >>= k') c t t' d S :=
  fun d' => h d' d'

protected theorem modifyGet {f : Draft → α × Draft} {f' : Draft → β × Draft} (h : ∀ b, R (f d).1 b (f d).2) :
    Parallel (modifyGet f : Lower α) (modifyGet f' : Lower β) c t t' d R :=
  fun _ => ⟨⟨rfl, rfl⟩, h _⟩

end Parallel

namespace Matches

variable {R : α → β → Prop} {S : γ → δ → Prop}

protected theorem pure {a : α} {b : β} (h : R a b) : Matches c t t' (pure a) (pure b) R :=
  fun d _ => ⟨⟨rfl, rfl⟩, .refl d, h⟩

theorem thrown {h} {k k' : α → Lower γ} {S : γ → γ → Prop}
    (hh : c.config.foldConstants = false → ∀ trap, h ≠ .trap trap) :
    Matches c t t' (throw h >>= k) (throw h >>= k') S := fun _ _ => ⟨⟨rfl, rfl⟩, rfl, hh⟩

protected theorem typeError {span} {message} :
    Matches c t t' (Analysis.typeError span message : Lower α) (Analysis.typeError span message : Lower β) R :=
  fun _ _ => ⟨⟨rfl, rfl⟩, rfl, fun _ _ h => by cases h⟩

theorem imp {R' : α → β → Prop} (h : Matches c t t' x y R) (hR : ∀ a b, R a b → R' a b) :
    Matches c t t' x y R' := fun d => (h d).imp fun a b _ he => ⟨he.1, hR a b he.2⟩

protected theorem bind (h : Matches c t t' x y R) (h' : ∀ a b, R a b → Matches c t t' (k a) (k' b) S) :
    Matches c t t' (x >>= k) (y >>= k') S := fun d => (h d).bind fun a b e he =>
  (h' a b he.2 e).imp fun _ _ _ hf => ⟨he.1.trans hf.1, hf.2⟩

theorem reads {x} {k : α → Lower γ} {k' : α → Lower δ} {v : Context → Tables → α} (hx : Analysis.Reads x v)
    (hv : v c t' = v c t) (h : Matches c t t' (k (v c t)) (k' (v c t)) S) :
    Matches c t t' (liftM x >>= k) (liftM x >>= k') S := by
  intro d d'
  rw [reads_bind hx, reads_bind hx, hv]
  exact h d d'

theorem halts {x : Analysis α} {k : α → Lower γ} {k' : α → Lower δ} {h} (hx : x c t = .error h t)
    (hy : x c t' = .error h t') (hh : c.config.foldConstants = false → ∀ trap, h ≠ .trap trap) :
    Matches c t t' (liftM x >>= k) (liftM x >>= k') S := by
  intro d d'
  rw [bind_error (d := d) (by rw [lift_eq, hx]), bind_error (d := d') (by rw [lift_eq, hy])]
  exact ⟨⟨rfl, rfl⟩, rfl, hh⟩

protected theorem ite {p : Prop} [Decidable p] {x' y'} (h : p → Matches c t t' x y R)
    (h' : ¬ p → Matches c t t' x' y' R) : Matches c t t' (if p then x else x') (if p then y else y') R := by
  split
  · next hp => exact h hp
  · next hp => exact h' hp

protected theorem tryCatch {k : Halt → Lower α} {k' : Halt → Lower β} (h : Matches c t t' x y R)
    (h' : ∀ e, Matches c t t' (k e) (k' e) R) : Matches c t t' (tryCatch x k) (tryCatch y k') R := by
  intro d d'
  have hd := h d d'
  show Concur c t t' _ (EStateM.tryCatch (x d c) (fun e => k e d c) t)
    (EStateM.tryCatch (y d' c) (fun e => k' e d' c) t')
  unfold EStateM.tryCatch
  unfold Concur at hd
  split at hd
  · next hx hy =>
    simp only [hx, hy]
    exact hd
  · next hx hy =>
    obtain ⟨⟨rfl, rfl⟩, rfl, -⟩ := hd
    simp only [hx, hy]
    exact h' _ d d'
  · exact hd.elim

protected theorem aside {e e'} (h : Matches c t t' x y R) :
    Matches c t t' (liftM (Lower.aside e x)) (liftM (Lower.aside e' y)) R := by
  intro d d'
  have hd := h e e'
  rw [lift_eq, lift_eq, aside_eq, aside_eq]
  unfold Concur at hd
  split at hd
  · next hx hy =>
    simp only [hx, hy]
    exact ⟨hd.1, .refl d, hd.2.2⟩
  · next hx hy =>
    simp only [hx, hy]
    exact hd
  · exact hd.elim

protected theorem emit {kind kind' ty ty' span span'} :
    Matches c t t' (emit kind ty span) (emit kind' ty' span') fun _ _ => True :=
  fun d => .modifyGet fun _ => ⟨d.leads_emit kind ty span, trivial⟩

end Matches

end

/-! ## Conversions -/

section

variable {c : Context} {t t' : Tables} {a b : Operand}

theorem rvalue_of_similar {fold} (h : a.Similar fold b) : rvalue a = pure a ∧ rvalue b = pure b := by
  unfold rvalue
  cases h with
  | const kind =>
    rw [kind]
    exact ⟨rfl, rfl⟩
  | instr => exact ⟨rfl, rfl⟩

theorem materialize_matches (h : a.Similar c.config.foldConstants b) :
    Matches c t t' (materialize a) (materialize b) fun _ _ => True := by
  unfold materialize
  rw [(rvalue_of_similar h).1, (rvalue_of_similar h).2, pure_bind, pure_bind]
  cases h with
  | const kind =>
    rw [kind]
    exact .emit
  | instr => exact .pure trivial

/-- The operands are alike and have the type. -/
abbrev Operand.SimilarAt (c : Context) (ty : TypeId) (a b : Operand) : Prop :=
  a.Similar c.config.foldConstants b ∧ a.ty = ty

theorem instr_matches {f f' : InstrId → InstrKind} {ty : TypeId} {span : Span} {g : Ground}
    (h : a.Similar c.config.foldConstants b) (hty : ty = g.ty) (hfold : c.config.foldConstants = false)
    (literal : Bool) :
    Matches c t t' (do
        let i ← materialize a
        return { Operand.instr (← emit (f i) ty span) ty span with literal } : Lower Operand)
      (do
        let i ← materialize b
        return { Operand.instr (← emit (f' i) ty span) ty span with literal }) (Operand.SimilarAt c ty) := by
  refine (materialize_matches h).bind fun i j _ => Matches.emit.bind fun i j _ => .pure ⟨?_, rfl⟩
  exact @Operand.Similar.instr _ { Operand.instr i ty span with literal } i j g hty hfold

/-- The runs give an operand a type, or neither of them does. -/
def Suited (c : Context) (target : Ground) (r r' : Option Operand) : Prop :=
  (r = none ∧ r' = none) ∨ ∃ o o', r = some o ∧ r' = some o' ∧ Operand.SimilarAt c target.ty o o'

variable (ht : t.types.Grounded) (htypes : t'.types = t.types) {target : Ground}

include ht htypes

theorem adapt_matches (h : a.Similar c.config.foldConstants b) (hne : a.ty ≠ target.ty) :
    Matches c t t' (adapt a target.ty) (adapt b target.ty) (Suited c target) := by
  have hnone : Matches c t t' (pure none) (pure none) (Suited c target) := .pure (.inl ⟨rfl, rfl⟩)
  unfold adapt
  refine .reads types_reads htypes ?_
  dsimp only
  rw [h.ty, Ground.plainInt_ty (ht target), Ground.isReal_ty (ht target)]
  refine .ite (fun _ => hnone) fun hkind => ?_
  cases h with
  | @const op v g kind ty holds =>
    have hnumber {v : Value} (hv : target.Holds v) :
        Matches c t t' (pure (some (Operand.number v target.ty a.span)))
          (pure (some (Operand.number v target.ty a.span))) (Suited c target) :=
      .pure (.inr ⟨_, _, rfl, rfl, .const rfl rfl hv, rfl⟩)
    rw [kind]
    cases hinfo : target.info with
    | some p =>
      cases v with
      | int w =>
        refine .ite (fun _ => hnumber ?_) fun _ => ?_
        · exact Ground.holds_int (by rw [hinfo]; rfl) _
        · exact .reads (quoted_reads _) (by rw [htypes]) .typeError
      | _ => exact hnone
    | none =>
      -- the target is the type of the reals
      obtain rfl : target = .f64 := by
        rw [hinfo] at hkind
        cases target <;> first | rfl | simp [Ground.isReal] at hkind
      rw [ty]
      cases v with
      | int w =>
        obtain ⟨⟨bits, signed⟩, hg⟩ := Option.isSome_iff_exists.mp (Ground.info_of_holds holds)
        have hreal : g ≠ .f64 := fun heq => hne (ty.trans (congrArg _ heq))
        obtain ⟨cast, hcast, heval⟩ := Ground.castOp_ty (ht g) (ht .f64) hreal hg (.inr rfl)
        rw [hcast]
        dsimp only
        rw [heval w]
        exact hnumber trivial
      | f64 w =>
        obtain rfl : g = .f64 := by cases g <;> first | rfl | exact holds.elim
        exact absurd ty hne
      | f32 w => cases g <;> exact holds.elim
      | _ => exact hnone
  | @instr op i j g ty executed =>
    dsimp only
    cases t.types.castOp op.ty target.ty with
    | none => exact hnone
    | some cast =>
      refine Matches.emit.bind fun i j _ => .pure (.inr ⟨_, _, rfl, rfl, ?_, rfl⟩)
      exact @Operand.Similar.instr _ (Operand.instr i target.ty op.span) i j target rfl executed

theorem widen_matches (h : a.Similar c.config.foldConstants b) (hne : a.ty ≠ target.ty) :
    Matches c t t' (widen a target.ty) (widen b target.ty) (Operand.SimilarAt c target.ty) := by
  unfold widen
  refine .reads types_reads htypes ?_
  rw [h.ty, h.span]
  obtain ⟨g, hg⟩ := h.ground
  refine .ite (fun _ => ?_) fun hrank => ?_
  · have hmismatch {u : Tables} (hu : u.types = t.types) :
        (Analysis.mismatch a.span target.ty a.ty : Analysis PUnit) c u = .error (.error (.error .type
          ("expected " ++ ("`" ++ t.types.name target.ty ++ "`") ++ ", found " ++
            ("`" ++ t.types.name a.ty ++ "`")) a.span)) u := by
      rw [← hu]
      rfl
    exact .halts (hmismatch rfl) (hmismatch htypes) fun _ _ h => by cases h
  · rw [hg] at hrank hne
    obtain ⟨rfl, rfl⟩ := (Ground.conversionRank_ty (ht _) (ht target) fun heq => hne (congrArg _ heq)).mp
      (by simpa [Option.isSome_iff_ne_none] using hrank)
    obtain ⟨cast, hcast, heval⟩ := Ground.castOp_ty (ht .s32) (ht .s64) nofun rfl (.inl rfl)
    rw [hg, hcast]
    show Matches c t t' (convert a cast Ground.s64.ty) (convert b cast Ground.s64.ty) _
    unfold convert
    refine .reads folding_reads rfl ?_
    cases hfold : c.config.foldConstants with
    | false =>
      have hinstr := @instr_matches c t t' a b (.cast cast) (.cast cast) Ground.s64.ty a.span .s64 h
        rfl hfold false
      rw [h.span]
      cases h with
      | const kind =>
        rw [kind]
        exact hinstr
      | instr => exact hinstr
    | true =>
      rw [hfold] at h
      cases h with
      | @const op v g kind ty holds =>
        obtain rfl := Ground.ty_injective (ty.symm.trans hg)
        rw [kind]
        refine .reads types_reads htypes ?_
        cases v with
        | int w =>
          rw [heval]
          exact .pure ⟨.const (g := .s64) rfl rfl trivial, rfl⟩
        | _ => exact holds.elim
      | instr _ executed => cases executed

theorem coerce_matches (target : Ground) (h : a.Similar c.config.foldConstants b) :
    Matches c t t' (coerce a target.ty) (coerce b target.ty) (Operand.SimilarAt c target.ty) := by
  have hvalue : coerce a target.ty = coerceValue a target.ty ∧ coerce b target.ty = coerceValue b target.ty := by
    unfold coerce
    rw [(rvalue_of_similar h).1, (rvalue_of_similar h).2, pure_bind, pure_bind]
    cases h with
    | const kind =>
      rw [kind]
      exact ⟨rfl, rfl⟩
    | instr => exact ⟨rfl, rfl⟩
  rw [hvalue.1, hvalue.2, coerceValue, coerceValue, h.ty, h.literal]
  refine .ite (fun heq => .pure ⟨h, heq⟩) fun hne => ?_
  refine .ite (fun _ => ?_) fun _ => widen_matches ht htypes h hne
  refine (adapt_matches ht htypes h hne).bind ?_
  rintro r r' (⟨rfl, rfl⟩ | ⟨o, o', rfl, rfl, ho⟩)
  · exact widen_matches ht htypes h hne
  · exact .pure ho

end

/-! ## Operators -/

section

variable {c : Context} {t t' : Tables} {a a' b b' : Operand} (ht : t.types.Grounded)
  (htypes : t'.types = t.types) {op : BinaryOp}

include ht htypes

theorem unifyOperands_matches {span} (ha : a.Similar c.config.foldConstants a')
    (hb : b.Similar c.config.foldConstants b') :
    Matches c t t' (unifyOperands op a b span) (unifyOperands op a' b' span) fun r r' =>
      Operand.SimilarAt c r.2.ty r.1 r'.1 ∧ r.2.Similar c.config.foldConstants r'.2 := by
  obtain ⟨ga, hga⟩ := ha.ground
  obtain ⟨gb, hgb⟩ := hb.ground
  have hleft : Matches c t t' (do return (← coerce a b.ty, b)) (do return (← coerce a' b.ty, b')) fun r r' =>
      Operand.SimilarAt c r.2.ty r.1 r'.1 ∧ r.2.Similar c.config.foldConstants r'.2 := by
    rw [hgb]
    exact (coerce_matches ht htypes _ ha).bind fun _ _ hr => .pure ⟨⟨hr.1, hr.2.trans hgb.symm⟩, hb⟩
  have hright : Matches c t t' (do return (a, ← coerce b a.ty)) (do return (a', ← coerce b' a.ty)) fun r r' =>
      Operand.SimilarAt c r.2.ty r.1 r'.1 ∧ r.2.Similar c.config.foldConstants r'.2 := by
    rw [hga]
    exact (coerce_matches ht htypes _ hb).bind fun _ _ hr => .pure ⟨⟨ha, hga.trans hr.2.symm⟩, hr.1⟩
  have hmeet (t : TypeTable) : t.meetingType a' b' = t.meetingType a b := by
    unfold TypeTable.meetingType
    rw [ha.ty, hb.ty, ha.literal, hb.literal]
  unfold unifyOperands
  rw [ha.literal, hb.literal, ha.ty, hb.ty]
  split
  · exact hleft
  · exact hright
  · refine .reads types_reads htypes ?_
    rw [hmeet]
    cases hm : t.types.meetingType a b with
    | some ty =>
      obtain ⟨g, rfl⟩ : ∃ g : Ground, ty = g.ty := by
        rcases meetingType_cases hm with rfl | rfl | rfl
        · exact ⟨ga, hga⟩
        · exact ⟨gb, hgb⟩
        · exact ⟨.f64, rfl⟩
      refine (coerce_matches ht htypes _ ha).bind fun l l' hl => ?_
      exact (coerce_matches ht htypes _ hb).bind fun _ _ hr => .pure ⟨⟨hl.1, hl.2.trans hr.2.symm⟩, hr.1⟩
    | none =>
      refine .ite (fun _ => .tryCatch hright fun _ => hleft) fun _ => ?_
      refine .reads (quoted_reads _) (by rw [htypes]) ?_
      exact .reads (quoted_reads _) (by rw [htypes]) .typeError

/-- Two analyses of a node concur. -/
def Follows (c : Context) (t t' : Tables) (x y : Lower Operand) : Prop :=
  Matches c t t' x y (Operand.Similar c.config.foldConstants)

theorem binary_follows {span} (ha : a.Similar c.config.foldConstants a') (hb : b.Similar c.config.foldConstants b') :
    Follows c t t' (binary op a b span) (binary op a' b' span) := by
  unfold binary
  refine (unifyOperands_matches ht htypes ha hb).bind ?_
  rintro ⟨l, r⟩ ⟨l', r'⟩ ⟨⟨hl, hty⟩, hr⟩
  dsimp only at hl hr hty ⊢
  refine .reads types_reads htypes ?_
  rw [hl.ty, hl.literal, hr.literal]
  refine .ite (fun _ => ?_) fun _ =>
    .reads (quoted_reads _) (by rw [htypes]) (.thrown fun _ _ h => by cases h)
  refine .reads folding_reads rfl ?_
  obtain ⟨g, hg⟩ := hl.ground
  have hresult : (if op.isComparison then TypeId.bool else l.ty) =
      (if op.isComparison then Ground.bool else g).ty := by
    rw [hg]
    split <;> rfl
  have hexecuted (hfold : c.config.foldConstants = false) : Follows c t t' (do
        let i ← materialize l
        let j ← materialize r
        let ty := if op.isComparison then TypeId.bool else l.ty
        return { Operand.instr (← emit (.binary op i j) ty span) ty span with
          literal := l.literal && r.literal && !op.isComparison } : Lower Operand)
      (do
        let i ← materialize l'
        let j ← materialize r'
        let ty := if op.isComparison then TypeId.bool else l.ty
        return { Operand.instr (← emit (.binary op i j) ty span) ty span with
          literal := l.literal && r.literal && !op.isComparison }) := by
    refine (materialize_matches hl).bind fun i i' _ => ?_
    exact (instr_matches hr hresult hfold _).imp fun _ _ ho => ho.1
  obtain ⟨v, g1, hv, hv', hg1, holds⟩ | ⟨hv, hv', hfold⟩ := hl.const?
  · obtain ⟨w, g2, hw, hw', hg2, holds'⟩ | ⟨hw, hw', hfold⟩ := hr.const?
    · cases hfold : c.config.foldConstants with
      | false =>
        have hrun := hexecuted hfold
        rw [Follows, hfold] at hrun
        rw [hv, hv', hw, hw']
        exact hrun
      | true =>
        obtain rfl := Ground.ty_injective (hg1.symm.trans hg)
        obtain rfl := Ground.ty_injective (hg2.symm.trans (hty.symm.trans hg))
        rw [hv, hv', hw, hw']
        dsimp only
        cases heval : op.eval t.types l.ty v w with
        | error kind => exact .thrown fun h => by rw [hfold] at h; cases h
        | ok x =>
          exact .pure (.const rfl hresult (Ground.holds_binary holds holds' heval))
    · have hrun := hexecuted hfold
      rw [Follows, hfold] at hrun
      rw [hw, hw', hv, hv', hfold]
      exact hrun
  · rw [hv, hv']
    exact hexecuted hfold

omit ht in
theorem unary_follows {op span} (h : a.Similar c.config.foldConstants a') :
    Follows c t t' (unary op a span) (unary op a' span) := by
  unfold unary
  rw [(rvalue_of_similar h).1, (rvalue_of_similar h).2, pure_bind, pure_bind]
  refine .reads types_reads htypes ?_
  dsimp only
  rw [h.ty, h.literal]
  refine .ite (fun _ => ?_) fun _ =>
    .reads (quoted_reads _) (by rw [htypes]) (.thrown fun _ _ h => by cases h)
  refine .reads folding_reads rfl ?_
  obtain ⟨g, hg⟩ := h.ground
  have hexecuted (hfold : c.config.foldConstants = false) :=
    (@instr_matches c t t' a a' (.unary op) (.unary op) a.ty span g h hg hfold a.literal).imp
      fun _ _ hr => hr.1
  obtain ⟨v, g', hv, hv', hg', holds⟩ | ⟨hv, hv', hfold⟩ := h.const?
  · cases hfold : c.config.foldConstants with
    | false =>
      have hrun := hexecuted hfold
      rw [hfold] at hrun
      rw [hv, hv']
      exact hrun
    | true =>
      rw [hv, hv']
      dsimp only
      cases heval : op.eval t.types a.ty v with
      | error kind => exact .thrown fun h => by rw [hfold] at h; cases h
      | ok x => exact .pure (.const rfl hg' (Ground.holds_unary holds heval))
  · rw [hv, hv']
    exact hexecuted hfold

variable {w w' : Walk} {scope scope' : ScopeId} {l r : NodeId} {span : Span}

theorem boolean_matches (h : Follows c t t' (w.expr scope r) (w'.expr scope' r)) :
    Matches c t t' (boolean w scope r) (boolean w' scope' r) (Operand.SimilarAt c .bool) :=
  Matches.bind h fun _ _ hab => coerce_matches ht htypes .bool hab

theorem branchLogic_follows {decided : Bool}
    (ha : a.Similar c.config.foldConstants a') (hfold : c.config.foldConstants = false)
    (h : Follows c t t' (w.expr scope r) (w'.expr scope' r)) :
    Follows c t t' (branchLogic w scope decided a r span) (branchLogic w' scope' decided a' r span) := by
  intro d
  have hblock (name : String) (d : Draft) : Parallel (addBlock name) (addBlock name) c t t' d
      fun b _ e => ¬ d.func.blocks.Has b ∧ d.Leads e ∧ e.func.blocks.Has b :=
    .modifyGet fun _ => ⟨d.not_has_addBlock name, d.leads_addBlock name, d.has_addBlock name⟩
  unfold branchLogic
  refine (materialize_matches ha d).bind fun i i' e1 ⟨he1, _⟩ => .get fun _ => ?_
  refine (hblock _ e1).bind fun rhsBlock rhsBlock' e2 he2 => ?_
  refine (hblock _ e2).bind fun stop stop' e3 he3 => ?_
  have hd := he1.trans (he2.2.1.trans he3.2.1)
  have hrhs : ¬ d.func.blocks.Has rhsBlock := fun hb => he2.1 (he1.blocks hb)
  have hstop : ¬ d.func.blocks.Has stop := fun hb => he3.1 (he2.2.1.blocks (he1.blocks hb))
  have hjoin {e4 : Draft} (he34 : e3.Leads e4) {start start' : BlockId} : Parallel (do
        moveTo rhsBlock
        let rhs ← materialize (← boolean w scope r)
        let rhsEnd := (← get).current
        jump stop span
        moveTo stop
        let id ← emit (.phi [(start, i), (rhsEnd, rhs)]) .bool span
        return Operand.instr id .bool span : Lower Operand)
      (do
        moveTo rhsBlock'
        let rhs ← materialize (← boolean w' scope' r)
        let rhsEnd := (← get).current
        jump stop' span
        moveTo stop'
        let id ← emit (.phi [(start', i'), (rhsEnd, rhs)]) .bool span
        return Operand.instr id .bool span) c t t' e4 fun o o' e =>
      d.Leads e ∧ o.Similar c.config.foldConstants o' := by
    have hrhs4 := he34.blocks (he3.2.1.blocks he2.2.2)
    have hstop4 := he34.blocks he3.2.2
    refine Parallel.bind (R := fun _ _ e => d.Leads e ∧ e.func.blocks.Has stop)
      (.modifyGet fun _ => ⟨(hd.trans he34).moveTo hrhs hrhs4, hstop4⟩) fun _ _ e5 he5 => ?_
    refine (boolean_matches ht htypes h e5).bind fun o o' e6 ⟨he6, ho⟩ => ?_
    refine (materialize_matches ho.1 e6).bind fun j j' e7 ⟨he7, _⟩ => .get fun _ => ?_
    have he58 := he6.trans (he7.trans (e7.leads_jump stop span))
    refine Parallel.bind (R := fun _ _ e => d.Leads e ∧ e.func.blocks.Has stop)
      (.modifyGet fun _ => ⟨he5.1.trans he58, he58.blocks he5.2⟩) fun _ _ e8 he8 => ?_
    refine Parallel.bind (R := fun _ _ e => d.Leads e)
      (.modifyGet fun _ => he8.1.moveTo hstop he8.2) fun _ _ e9 he9 => ?_
    refine (Matches.emit e9).bind fun k k' e ⟨he, _⟩ _ => ⟨⟨rfl, rfl⟩, he9.trans he, ?_⟩
    exact @Operand.Similar.instr _ (Operand.instr k .bool span) k k' .bool rfl hfold
  split
  all_goals
    refine Parallel.bind (R := fun _ _ e => e3.Leads e)
      (.modifyGet fun _ => e3.leads_emitExit _ _ _) fun _ _ e4 he4 => hjoin he4

theorem logic_follows (hl : Follows c t t' (w.expr scope l) (w'.expr scope' l))
    (hr : Follows c t t' (w.expr scope r) (w'.expr scope' r)) :
    Follows c t t' (logic w scope op l r span) (logic w' scope' op l r span) := by
  unfold logic
  refine (boolean_matches ht htypes hl).bind fun a a' ⟨ha, hty⟩ => ?_
  refine .reads folding_reads rfl ?_
  obtain ⟨v, g, hv, hv', hg, holds⟩ | ⟨hv, hv', hfold⟩ := ha.const?
  · obtain rfl : g = .bool := Ground.ty_injective (hg.symm.trans hty)
    obtain ⟨x, rfl⟩ := Ground.holds_bool holds
    rw [hv, hv']
    cases hfold : c.config.foldConstants with
    | false =>
      have hrun := @branchLogic_follows c t t' a a' ht htypes w w' scope scope' r span (op == .logicOr) ha hfold hr
      rw [Follows, hfold] at hrun
      exact hrun
    | true =>
      refine .ite (fun _ => ?_) fun _ => ?_
      · refine (Matches.aside (boolean_matches ht htypes hr)).bind fun _ _ _ => .pure ?_
        exact .const (g := .bool) rfl rfl trivial
      · refine (boolean_matches ht htypes hr).bind fun o o' ho => .pure ?_
        rw [← hfold]
        exact ho.1.withSpan span
  · rw [hv, hv']
    exact branchLogic_follows ht htypes ha hfold hr

omit ht htypes in
private theorem intLiteral_similar (fold value) (span) :
    (intLiteral value span).Similar fold (intLiteral value span) := by
  have hty : ∃ g : Ground, (intLiteral value span).ty = g.ty ∧ g.Holds (.int value) := by
    unfold intLiteral Operand.number
    dsimp only
    split
    · exact ⟨.s32, rfl, trivial⟩
    · split
      · exact ⟨.s64, rfl, trivial⟩
      · exact ⟨.u64, rfl, trivial⟩
  obtain ⟨g, hg, holds⟩ := hty
  exact .const rfl hg holds

theorem walk_follows {n h depth depth'} (hn : c.ast.Literal n h) (hd : h ≤ depth) (hd' : h ≤ depth') :
    Follows c t t' ((Analysis.walk depth).expr scope n) ((Analysis.walk depth').expr scope' n) := by
  induction hn generalizing depth depth' with
  | @leaf n hnode =>
    rw [walk_expr hd, walk_expr hd']
    refine .reads (node_reads n) rfl ?_
    generalize c.ast.node n = node at hnode ⊢
    obtain ⟨kind, span⟩ := node
    cases kind with
    | intLit value => exact .pure (intLiteral_similar _ value span)
    | realLit bits => exact .pure (.const (g := .f64) rfl rfl trivial)
    | boolLit b => exact .pure (.const (g := .bool) rfl rfl trivial)
    | nullLit => exact .pure (.const (g := .null) rfl rfl trivial)
    | _ => cases hnode
  | @unary n m op span h hnode operand ih =>
    rw [walk_expr (by omega), walk_expr (by omega)]
    refine .reads (node_reads n) rfl ?_
    rw [hnode]
    exact Matches.bind (ih (by omega) (by omega)) fun _ _ ha => unary_follows htypes ha
  | @binary n i j op span h k hnode lhs rhs ihl ihr =>
    rw [walk_expr (by omega), walk_expr (by omega)]
    have hl := @ihl (depth - 1) (depth' - 1) (by omega) (by omega)
    have hr := @ihr (depth - 1) (depth' - 1) (by omega) (by omega)
    refine .reads (node_reads n) rfl ?_
    rw [hnode]
    refine .ite (fun _ => logic_follows ht htypes hl hr) fun _ => ?_
    have hvalue {m : NodeId} (hm : Follows c t t' ((Analysis.walk (depth - 1)).expr scope m)
        ((Analysis.walk (depth' - 1)).expr scope' m)) :
        Follows c t t' ((Analysis.walk (depth - 1)).value scope m) ((Analysis.walk (depth' - 1)).value scope' m) := by
      refine Matches.bind hm fun o o' ho => ?_
      rw [(rvalue_of_similar ho).1, (rvalue_of_similar ho).2]
      exact .pure ho
    exact Matches.bind (hvalue hl) fun _ _ ha => Matches.bind (hvalue hr) fun _ _ hb => binary_follows ht htypes ha hb

end

end Lower

end Comptime
