import Comptime.Proofs.Analysis.Call

/-!
# Structs, enums and type expressions

The types that analysis makes are built from types that can be named. If a struct that has got its
members has no layout with them, for another reason than a struct that is not complete, the run halts
with an error: that is the one place where a run may end with a refusal.
-/

namespace Comptime.Analysis

variable {w : Walk} {c : Context} {t : Tables}

/-! ## Declaring -/

theorem arrayLength_runs (hw : w.Sound) {scope n} : Runs (arrayLength w scope n) c t fun _ _ => True := by
  have hrefuse {t : Tables} : Runs (arrayLength.refuse n) c t fun _ _ => True :=
    .reads (spanOf_reads n) (.throw rfl)
  refine (comptimeValue_runs hw (by simp)).bind fun r t1 s1 _ => ?_
  obtain ⟨v, ty⟩ := r
  refine .reads types_reads ?_
  split
  · exact .ite (fun _ => hrefuse) fun _ => .pure trivial
  · exact hrefuse

theorem rememberNominal_runs {key ty} (h : t.HasType ty) :
    Runs (rememberNominal key ty) c t fun r t' => t'.HasType r := by
  have hu : t.Update { t with nominals := (key, ty) :: t.nominals } := .remember h
  exact (Runs.modify (P := fun _ t' => t'.HasType ty) hu.updates (h.grow hu.grows)).bind fun _ _ _ h => .pure h

theorem declareStruct_runs {key name span} : Runs (declareStruct key name span) c t fun ty t' => t'.HasType ty := by
  refine .reads read_reads (.ofRunning fun hr => .ofSound fun ht => ?_)
  refine (Runs.modifyGet (P := fun ty t' => t'.HasType ty) ?_ ?_).bind fun ty t1 _ hty => rememberNominal_runs hty
  · exact (Tables.Update.declareStruct hr).updates
  · intro _
    simp only [ht.types.declareStruct_eq name span]
    exact .inl (t.types.kinds.has_push_nextId _)

theorem declareEnum_runs (hw : w.Sound) {scope key base name span} :
    Runs (declareEnum w scope key base name span) c t fun ty t' => t'.HasType ty := by
  refine (hw.typeExpr? scope base c t).bind fun base t1 s1 _ => .reads types_reads ?_
  refine .ite (fun hint => .ofSound fun ht => ?_) fun _ => .reads (quoted_reads _) (.thrown rfl)
  refine (Runs.modifyGet (P := fun ty t' => t'.HasType ty) ?_ ?_).bind fun ty t1 _ hty => rememberNominal_runs hty
  · exact (Tables.Update.declareEnum hint).updates
  · intro _
    simp only [ht.types.declareEnum_eq name _ span]
    exact .inl (t1.types.kinds.has_push_nextId _)

/-! ## Completing structs -/

theorem structMembers_runs (hw : w.Sound) {scope known fields} (h : ∀ m ∈ known, t.HasType m.ty) :
    Runs (structMembers w scope known fields) c t fun ms t' => ∀ m ∈ ms, t'.HasType m.ty := by
  induction fields generalizing known t with
  | nil => exact .pure h
  | cons f rest ih =>
    refine .ite (fun _ => .thrown rfl) fun _ => ?_
    refine (hw.typeExpr scope f.ty c t).bind fun ty t1 s1 hty => ih fun m hm => ?_
    rcases List.mem_append.mp hm with hm | hm
    · exact (h m hm).later s1
    · rw [List.mem_singleton.mp hm]
      exact hty

theorem structMembers_frame (hw : w.Sound) {scope known fields} :
    Ensures (structMembers w scope known fields c t) (fun _ t' => t.Frame t') fun _ _ => True := by
  induction fields generalizing known t with
  | nil => exact .refl t
  | cons f rest ih =>
    unfold structMembers
    by_cases hdup : known.any (·.name == f.name) = true
    · rw [if_pos hdup]
      trivial
    · rw [if_neg hdup]
      exact (hw.frame scope f.ty c t).bind fun _ _ h => ih.imp (fun _ _ h' => h.trans h') fun _ _ _ => trivial

private theorem layoutHalt_final {α : Type} {e : LayoutError} {span} (he : e.isFinal = true) :
    ∃ d, (layoutHalt e span : Analysis α) c t = .error (.error d) t ∧ d.isError = true := by
  cases e with
  | incomplete id => cases he
  | recursive id => exact ⟨_, rfl, rfl⟩
  | tooLarge ty => exact ⟨_, rfl, rfl⟩
  | missing ty => exact ⟨_, rfl, rfl⟩

private theorem checkLayout_eq (ty span c) (t : Tables) :
    checkLayout ty span c t = (match t.types.layout ty with
      | .ok _ | .error (.incomplete _) => pure ()
      | .error e => layoutHalt e span : Analysis Unit) c t := rfl

private theorem checkLayout_cases (ty span c) (t : Tables) :
    (∃ e d, t.types.layout ty = .error e ∧ e.isFinal = true ∧
      checkLayout ty span c t = .error (.error d) t ∧ d.isError = true) ∨
    (∀ e, t.types.layout ty = .error e → e.isFinal = false) ∧ checkLayout ty span c t = .ok () t := by
  rw [checkLayout_eq]
  cases hl : t.types.layout ty with
  | ok l => exact .inr ⟨by simp, rfl⟩
  | error e =>
    have hhalt (he : e.isFinal = true) :
        ∃ d, (layoutHalt e span : Analysis Unit) c t = .error (.error d) t ∧ d.isError = true := layoutHalt_final he
    cases e with
    | incomplete id => exact .inr ⟨by rintro e ⟨rfl⟩; rfl, rfl⟩
    | recursive | tooLarge | missing =>
      obtain ⟨d, hd⟩ := hhalt rfl
      exact .inl ⟨_, d, rfl, rfl, hd⟩

private theorem enterMembers_eq (id ty members span c) (t : Tables) :
    enterMembers id ty members span c t = checkLayout ty span c (t.withMembers id members) := rfl

/-- The types of the members have been analysed since a time when there were no members. -/
private theorem enterMembers_ends {t0 : Tables} {id ty members span} (u : t0.Updates t)
    (hc : t0.Completes t id ty members) :
    Ensures (enterMembers id ty members span c t) (fun _ t' => t0.Updates t') t0.Halts := by
  rw [enterMembers_eq]
  rcases checkLayout_cases ty span c (t.withMembers id members) with ⟨e, d, he, hf, hx, hd⟩ | ⟨hp, hx⟩
  · rw [hx]
    exact ⟨.inr ⟨t0, d, .refl t0, .complete u hc he hf, rfl⟩, hd⟩
  · rw [hx]
    exact (Tables.Updates.refl t0).complete u hc hp

theorem completeStruct_runs (hw : w.Sound) {scope id ty members span} (hk : t.types.kind ty = .struct id)
    (unknown : (t.types.structDef id).members = none) :
    Runs (completeStruct w scope id ty members span) c t fun _ _ => True := by
  intro ht hr
  have hmembers : Ensures (structMembers w scope [] members c t)
      (fun ms t' => t.Updates t' ∧ ∀ m ∈ ms, t'.HasType m.ty) t.Halts := structMembers_runs hw (by simp) ht hr
  have hframe : Ensures (structMembers w scope [] members c t) (fun _ t' => t.Frame t') fun _ _ => True :=
    structMembers_frame hw
  show Ensures (EStateM.bind (structMembers w scope [] members c)
    (fun ms => enterMembers id ty ms span c) t) (fun _ t' => t.Updates t' ∧ True) t.Halts
  unfold EStateM.bind
  generalize structMembers w scope [] members c t = r at hmembers hframe
  cases r with
  | error e t' => exact hmembers
  | ok ms t' =>
    refine (enterMembers_ends hmembers.1 ⟨hk, unknown, hframe, hmembers.2⟩).imp ?_ fun _ _ h => h
    exact fun _ _ h => ⟨h, trivial⟩

/-! ## Completing enums -/

def Canonical (t : Tables) (base : TypeId) (w : UInt64) : Prop :=
  t.Sane → t.types.CanonicalAt base w

theorem Canonical.later {t : Tables} {t' base w} (h : Canonical t base w) (hb : t.types.Has base) (s : t.Later t') :
    Canonical t' base w := by
  intro hs
  exact s.grows.types.canonicalAt s.sound.types hb (h (s.grows.sane hs))

private theorem variantValue_runs (hw : w.Sound) {scope base next v} (hb : t.types.Has base)
    (hn : Canonical t base next) :
    Runs (variantValue w scope base next v) c t fun r t' => Canonical t' base r := by
  unfold variantValue
  split
  · next n _ =>
    refine (comptimeValue_runs hw (by rintro ty ⟨rfl⟩ -; exact hb.knows)).bind fun r t1 s1 hr => ?_
    obtain ⟨v, ty⟩ := r
    obtain ⟨hv, hty⟩ := hr
    have hty : ty = base := hty base rfl
    subst hty
    dsimp only at hv ⊢
    split
    · next raw =>
      refine .pure fun hs bits signed hi => ?_
      obtain ⟨w, hw, hc⟩ := (Value.fits_integer hi).mp (hv hs)
      cases hw
      exact hc
    · exact .throw rfl
  · exact .pure hn

private theorem enumVariants_runs (hw : w.Sound) {scope base known next variants} (hb : t.types.Has base)
    (hk : ∀ p ∈ known, Canonical t base p.2) (hn : Canonical t base next) :
    Runs (enumVariants w scope base known next variants) c t fun vs t' => ∀ p ∈ vs, Canonical t' base p.2 := by
  induction variants generalizing known next t with
  | nil => exact .pure hk
  | cons v rest ih =>
    refine .ite (fun _ => .thrown rfl) fun _ => ?_
    refine (variantValue_runs hw hb hn).bind fun value t1 s1 hv => .reads types_reads ?_
    refine ih (s1.grows.types.has hb) (fun p hp => ?_) fun hs bits signed hi => ?_
    · rcases List.mem_append.mp hp with hp | hp
      · exact (hk p hp).later hb s1
      · rw [List.mem_singleton.mp hp]
        exact hv
    · simp only [hi, Word.canonical_canonical]

theorem completeEnum_runs (hw : w.Sound) {scope id ty variants} (hk : t.types.kind ty = .enum id) :
    Runs (completeEnum w scope id variants) c t fun _ _ => True := by
  refine .ofSound fun ht => .reads types_reads ?_
  have hid := ht.types.has_enum hk
  refine (enumVariants_runs hw (ht.types.has_base hid) (by simp) fun _ bits signed _ => by simp).bind fun vs t1 s1 hvs => ?_
  refine .modify (Tables.Update.updates (.completeEnum fun hs v hv => ?_)) trivial
  rw [s1.grows.types.base hid]
  exact hvs v hv hs

/-! ## Type expressions -/

theorem bindStruct_runs {symbol ty} (h : t.HasType ty) : Runs (bindStruct symbol ty) c t fun _ _ => True := by
  refine .reads types_reads ?_
  split
  · exact (resolveSymbol_runs (v := .type ty) h).imp fun _ _ _ _ => trivial
  · exact .pure trivial

theorem polyType_runs {scope name span} : Runs (polyType scope name span) c t fun ty t' => t'.HasType ty := by
  refine .ofSound fun ht => .reads scopes_reads ?_
  split
  · next ty hl =>
    refine .pure fun hs => ?_
    obtain ⟨found, -, hv⟩ := Option.bind_eq_some_iff.mp hl
    unfold Symbol.value? at hv
    split at hv
    · next v hstate =>
      cases hv
      exact (ht.proper hs).symbols found.symbol _ hstate
    · cases hv
  · exact .throw rfl

variable (hw : w.Sound)

include hw

private theorem declaredNominal_runs {scope n name} :
    Runs (declaredNominal w scope n name) c t fun ty t' => t'.HasType ty := by
  refine .reads (node_reads n) ?_
  obtain ⟨kind, span⟩ := c.ast.node n
  refine .reads read_reads (.ofSound fun ht => .reads get_reads ?_)
  split
  · next ty hl => exact .pure fun hs => (ht.proper hs).notes.nominals _ (mem_of_lookup hl)
  · exact declareStruct_runs
  · exact declareEnum_runs hw
  · exact .throw rfl

private theorem completeNominal_runs {scope n ty} : Runs (completeNominal w scope n ty) c t fun _ _ => True := by
  refine .reads (node_reads n) ?_
  obtain ⟨kind, span⟩ := c.ast.node n
  refine .reads types_reads ?_
  split
  · next hk =>
    exact .ite (fun hn => completeStruct_runs hw hk (Option.isNone_iff_eq_none.mp hn)) fun _ => .pure trivial
  · next hk => exact .ite (fun _ => completeEnum_runs hw hk) fun _ => .pure trivial
  · exact .pure trivial

theorem nominalType_runs {scope n name symbol} :
    Runs (nominalType w scope n name symbol) c t fun ty t' => t'.HasType ty := by
  refine (declaredNominal_runs hw).bind fun ty t1 s1 hty => ?_
  refine (bindStruct_runs hty).bind fun _ t2 s2 _ => ?_
  refine (completeNominal_runs hw).bind fun _ t3 s3 _ => ?_
  exact .pure (hty.later (s2.trans s3))

private theorem fnType_runs {scope sig} : Runs (fnType w scope sig) c t fun ty t' => t'.HasType ty := by
  refine (Runs.mapM (R := fun _ ty t => t.HasType ty) (fun _ _ s h => h.later s)
    fun p _ t' _ => hw.typeExpr scope p.ty c t').bind fun params t1 s1 hparams => ?_
  refine (hw.typeExpr? scope sig.ret c t1).bind fun ret t2 s2 hret => ?_
  have hparts (hs : t2.Sane) : ∀ p ∈ (TypeKind.fn params (ret.getD .void)).parts, t2.types.Knows p := by
    refine List.forall_mem_cons.mpr ⟨?_, fun p hp => ?_⟩
    · cases ret with
      | none => exact s2.sound'.types.has_void.knows
      | some ret => exact hret ret rfl hs
    · obtain ⟨i, hi, rfl⟩ := List.getElem_of_mem hp
      exact Tables.HasType.later (hparams.get (hparams.length_eq ▸ hi) hi) s2 hs
  exact (intern_runs (k := .fn params (ret.getD .void)) trivial hparts).imp fun _ _ _ h _ => h.2.knows

theorem typeExpression_runs {scope n} : Runs (typeExpression w scope n) c t fun ty t' => t'.HasType ty := by
  refine .reads (node_reads n) ?_
  obtain ⟨kind, span⟩ := c.ast.node n
  dsimp only
  split
  · next inner =>
    refine (hw.typeExpr scope inner c t).bind fun ty t1 s1 hty => ?_
    exact (intern_runs (k := .ptr ty) trivial fun hs p hp => by rw [List.mem_singleton.mp hp]; exact hty hs).imp
      fun _ _ _ h _ => h.2.knows
  · next inner =>
    refine (hw.typeExpr scope inner c t).bind fun ty t1 s1 hty => ?_
    exact (intern_runs (k := .slice ty) trivial fun hs p hp => by rw [List.mem_singleton.mp hp]; exact hty hs).imp
      fun _ _ _ h _ => h.2.knows
  · next len elem =>
    refine (arrayLength_runs hw).bind fun len t1 s1 _ => ?_
    refine (hw.typeExpr scope elem c t1).bind fun ty t2 s2 hty => ?_
    exact (intern_runs (k := .array ty len) trivial fun hs p hp => by rw [List.mem_singleton.mp hp]; exact hty hs).imp
      fun _ _ _ h _ => h.2.knows
  · exact fnType_runs hw
  · exact nominalType_runs hw
  · exact nominalType_runs hw
  · exact polyType_runs
  · refine (comptimeValue_runs hw (by simp)).bind fun r t1 s1 hr => ?_
    split
    · exact .pure hr.1.hasType
    · exact .reads (quoted_reads _) (.throw rfl)

/-! ## Names for functions and types -/

private theorem boundTo_runs {scope name symbol init} :
    Runs (boundTo w scope name symbol init) c t fun r t' => ∀ v ∈ r, t'.Sane → v.Sound t' := by
  refine .reads (node_reads init) ?_
  split
  · refine (bindFnLiteral_runs hw).bind fun r t1 s1 _ => ?_
    split
    all_goals
      refine .pure ?_
      rintro v ⟨rfl⟩ -
      trivial
  · refine (fnGroup_runs hw).bind fun fns t1 s1 hfns => .pure ?_
    rintro v ⟨rfl⟩ hs f hf
    exact hfns f hf hs
  iterate 2
    refine (nominalType_runs hw).bind fun ty t1 s1 hty => .pure ?_
    rintro v ⟨rfl⟩
    exact hty
  exact .pure (by simp)

theorem directBinding_runs {scope d symbol} :
    Runs (directBinding w scope d symbol) c t fun r t' => ∀ v ∈ r, t'.Sane → v.Sound t' := by
  unfold directBinding
  split
  · next init _ =>
    refine (boundTo_runs hw).bind fun r t1 s1 hr => ?_
    exact .ite (fun _ => .reads (spanOf_reads init) (.thrown rfl)) fun _ => .pure hr
  · exact .pure (by simp)

end Comptime.Analysis
