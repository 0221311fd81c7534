import Comptime.Proofs.Graph.Operand

/-!
# The footprint of declarations

Expressions are evaluated in drafts of their own, which are in order when they start.

Functions, specializations, structs and enums are looked for before they are declared. Between the two
stands the analysis of what their heads hold: the types of the parameters, the type that an enum rests
on. So what such a declaration does is a matter of the tables in which the search was made, not only of
those in which it ends (`Policy.addLiteral`, `Policy.addSpecialization`, `Policy.declareEnum`).
-/

namespace Comptime

theorem Pool.modify_push {κ} {α : Type} (p : Pool κ α) (a : α) (f : α → α) :
    (p.push a).modify p.nextId f = p.push (f a) := by
  have hmodify : (p.items.push a).modify p.items.size f = p.items.push (f a) := by
    ext i hi hi'
    · simp
    · rw [Array.getElem_modify]
      grind
  exact congrArg Pool.mk hmodify

namespace Analysis

variable {p : Policy} {w : Walk} {scope : ScopeId}

theorem Gives.andThen {α β : Type} {x} {k : α → Analysis β} {P : α → Prop} {Q : β → Prop} (h : Gives p x P) {c t g}
    (hc : p.Suits c) (ht : p.Holds t g)
    (h' : ∀ a t1 g1, P a → p.Leads t g t1 g1 → p.Agree Q t g (k a c t1) (k a c (t1.beside g1))) :
    p.Agree Q t g ((x >>= k) c t) ((x >>= k) c (t.beside g)) := by
  have hx := h c t g hc ht
  simp only [bind, ReaderT.bind, EStateM.bind]
  generalize x c t = r, x c (t.beside g) = r' at hx ⊢
  cases hx with
  | ok leads gives => exact h' _ _ _ gives leads
  | error leads guided => exact .error leads guided

/-! ## Evaluation -/

private theorem runDraft_abides {d result} (hd : d.Regular []) (hresult : d.Computed result) (ty span) :
    Abides p (runDraft d result ty span) := by
  refine .reads types_views fun types => ?_
  split
  · exact layoutHalt_gives _ _
  · next func placed =>
    refine .views setting_views fun c t g _ ht => outcome_abides _ fun relies => ?_
    refine Machine.guided_runFn (Machine.callees_of_formed (p.formed relies ht)) (fun _ => ?_) [] _
    exact hd.returns hresult ty span placed

theorem comptimeValue_abides (hw : w.Abides p) (hs : p.Sees scope) (n expected) :
    Abides p (comptimeValue w scope n expected) := by
  refine .reads (spanOf_views n) fun span => (createScope_gives hs _).bind fun inner hinner => ?_
  have hstart : (Draft.temporary "<comptime>" span).Regular [] := Draft.regular_start rfl rfl
  refine Gives.bind (P := fun r : Operand × Draft => r.2.Regular [] ∧ r.1.Usable p (.strict []) r.2) ?_ fun r hr => ?_
  · refine Lower.Carries.run (P := Operand.Usable p (.strict [])) ?_ hstart
    refine (hw.expr (p.sees hinner) n).bind fun op d _ hop => ?_
    cases expected with
    | some ty => exact Lower.coerce_provides hop ty
    | none => exact Lower.rvalue_provides hop
  · dsimp only
    split
    · exact .pure trivial
    all_goals first
      | exact .throw trivial
      | refine ((Lower.materialize_carries hr.2).run hr.1).bind fun q hq => ?_
        exact (runDraft_abides hq.1 (hq.2 trivial) _ _).bind fun _ _ => .pure trivial

private theorem typeOf_abides (hw : w.Abides p) (hs : p.Sees scope) (n) : Abides p (Lower.typeOf w scope n) := by
  refine .reads (spanOf_views n) fun span => ?_
  refine ((hw.expr hs n).loosely.aside fun _ _ _ => trivial).bind fun op _ => ?_
  split
  · exact .pure trivial
  · exact .pure trivial

theorem layoutOfNode_abides (hw : w.Abides p) (hs : p.Sees scope) (n span) :
    Abides p (Lower.layoutOfNode w scope n span) :=
  (typeOf_abides hw hs n).bind fun _ _ => layoutOf_abides _ span

/-! ## Functions -/

theorem fnLiteral_abides (n) : Abides p (fnLiteral n) := by
  refine .reads (node_views n) fun _ => ?_
  split
  · exact .pure trivial
  · exact .throw trivial

theorem fnScope_gives (hs : p.Sees scope) (bindings) : Gives p (fnScope scope bindings) p.Enters := by
  refine (createScope_gives hs _).bind fun inner hinner => ?_
  refine Gives.bind (P := fun _ => True) (.forM (fun b => ?_) bindings) fun _ _ => .pure hinner
  refine (insertSymbol_gives hinner ?_).bind fun _ _ => .pure trivial
  rintro _ ⟨⟩
  trivial

private theorem paramTypes_abides (hw : w.Abides p) (hs : p.Sees scope) (params) :
    Abides p (paramTypes w scope params) := by
  refine .mapM (fun p => ?_) params
  exact (hw.typeExpr hs p.ty).bind fun _ _ => .ite (fun _ => .thrown trivial) fun _ => .pure trivial

theorem typeExpr?_abides (hw : w.Abides p) (hs : p.Sees scope) (n) : Abides p (w.typeExpr? scope n) := by
  cases n with
  | some n => exact (hw.typeExpr hs n).bind fun _ _ => .pure trivial
  | none => exact .pure trivial

theorem fnHead_gives (hw : w.Abides p) (hs : p.Sees scope) (n) (name) (bindings) :
    Gives p (fnHead w scope n name bindings) Function.Declared := by
  refine (fnLiteral_abides n).bind fun lit _ => .reads (spanOf_views n) fun span => ?_
  refine (fnScope_gives hs bindings).bind fun sigScope hsig => ?_
  refine (paramTypes_abides hw (p.sees hsig) _).bind fun params _ => ?_
  refine (typeExpr?_abides hw (p.sees hsig) _).bind fun ret _ => (intern_abides rfl).bind fun ty _ => ?_
  refine .ite (fun _ => .thrown trivial) fun _ => ?_
  dsimp only
  split
  · exact .pure ⟨⟨rfl, rfl, rfl, rfl⟩, nofun⟩
  · exact .pure ⟨⟨rfl, rfl, rfl, rfl⟩, fun _ => rfl⟩
  · exact .throw trivial

private theorem bindRecipe_abides (hs : p.Sees scope) (n) (name) : Abides p (bindRecipe scope n name) := by
  refine .reads read_views fun c' => ?_
  intro c t g hc ht
  cases hl : t.polyLiterals.lookup (n, c'.owner) with
  | some recipe =>
    rw [modifyGet_eq, modifyGet_eq]
    simp only [Tables.beside, hl]
    exact .ok (p.refl ht) trivial
  | none =>
    rw [modifyGet_eq, modifyGet_eq]
    simp only [Tables.beside, hl]
    exact .ok (p.addRecipe (r := ⟨name, n, scope⟩) ht hs hl) trivial

theorem bindFnLiteral_abides (hw : w.Abides p) (hs : p.Sees scope) (n) (name) :
    Abides p (bindFnLiteral w scope n name) := by
  refine (fnLiteral_abides n).bind fun lit _ => .reads read_views fun c => ?_
  refine .ite (fun _ => .ite (fun _ => ?_) fun _ => ?_) fun _ => ?_
  · exact .reads (spanOf_views n) fun _ => .thrown trivial
  · exact (bindRecipe_abides hs n name).bind fun _ _ => .pure trivial
  · refine .reads read_views fun c' => ?_
    intro c t g hc ht
    rw [reads_bind get_reads, reads_bind get_reads]
    cases hl : t.fnLiterals.lookup (n, c'.owner) with
    | some f =>
      simp only [Tables.beside, hl]
      exact .ok (p.refl ht) trivial
    | none =>
      simp only [Tables.beside, hl, declareFn, bind_assoc]
      refine (fnHead_gives hw hs n name []).andThen hc ht fun func t1 g1 hfunc leads => ?_
      exact .ok (p.addLiteral hl leads hfunc ⟨n, scope, []⟩ rfl) trivial

private theorem argsCost_beside (t : Tables) (g args params) :
    (t.beside g).argsCost args params = t.argsCost args params := by
  induction args generalizing params with
  | nil => cases params <;> rfl
  | cons arg args ih =>
    cases params with
    | nil => rfl
    | cons param params =>
      simp only [Tables.argsCost, ih]
      rfl

private theorem cheapest_beside (t : Tables) (g members args) :
    (t.beside g).cheapest members args = t.cheapest members args := by
  have hconsider : (t.beside g).consider args = t.consider args := by
    funext best f
    simp only [Tables.consider, argsCost_beside]
    rfl
  rw [Tables.cheapest, Tables.cheapest, hconsider]

theorem selectOverload_abides (members args span) : Abides p (selectOverload members args span) := by
  refine .get (fun t g _ => ?_) fun t _ _ => ?_
  · simp only [cheapest_beside]
    rfl
  dsimp only
  split
  · exact .pure trivial
  · exact .throw trivial
  · exact .throw trivial

private theorem addToGroup_abides (name) (span members fns) : Abides p (addToGroup name span members fns) := by
  induction fns generalizing members with
  | nil => exact .pure trivial
  | cons f rest ih =>
    refine (functionOf_abides f).bind fun func _ => .get (fun _ _ _ => rfl) fun t _ _ => ?_
    dsimp only
    split
    · exact .ite (fun _ => ih _) fun _ => .reads (quoted_views _) fun _ => .throw trivial
    · exact ih _

private theorem groupMember_abides (hw : w.Abides p) (hs : p.Sees scope) (name) (n) :
    Abides p (groupMember w scope name n) := by
  refine .reads (node_views n) fun node => ?_
  obtain ⟨kind, span⟩ := node
  dsimp only
  split
  · refine (bindFnLiteral_abides hw hs n name).bind fun r _ => ?_
    split
    · exact .pure trivial
    · exact .throw trivial
  · refine ((hw.expr hs n).loosely.aside fun _ _ _ => trivial).bind fun op _ => ?_
    split
    · exact .pure trivial
    · exact .pure trivial
    · exact .throw trivial

theorem fnGroup_abides (hw : w.Abides p) (hs : p.Sees scope) (n) (name) (members) :
    Abides p (fnGroup w scope n name members) := by
  refine Gives.bind (P := fun _ => True) (.foldlM (fun fns member => ?_) members []) fun fns _ => ?_
  · refine .reads (spanOf_views member) fun span => ?_
    exact (groupMember_abides hw hs name member).bind fun _ _ => addToGroup_abides _ _ _ _
  · refine .ite (fun _ => ?_) fun _ => .pure trivial
    exact .reads (spanOf_views n) fun _ => .thrown trivial

private theorem inferBindings_abides (params args) : Abides p (inferBindings params args) := by
  refine .reads read_views fun c => .reads types_views fun t => .foldlM (fun b p => ?_) _ []
  dsimp only
  split
  all_goals first
    | exact .ite (fun _ => .throw trivial) fun _ => .pure trivial
    | split
      · exact .pure trivial
      · exact .throw trivial

private theorem specialized_leads {t t1 g g1} {key : RecipeId × List TypeId}
    (unknown : t.specializations.lookup key = none)
    (signature : p.Leads t g t1 g1) {func} (declared : func.Declared) (source) (text) :
    p.Leads t g { t1.withFunction func source with
      code := (t1.withFunction func source).code.modifyFn t1.code.fns.nextId fun func =>
        { func with specialization := some text }
      specializations := (key, t1.code.fns.nextId) :: t1.specializations } (g1.declare func t1.code.fns.nextId) := by
  have hcode : (t1.withFunction func source).code.modifyFn t1.code.fns.nextId
      (fun func => { func with specialization := some text }) =
      (t1.withFunction { func with specialization := some text } source).code :=
    congrArg (fun fns => { t1.code with fns }) (Pool.modify_push _ _ _)
  rw [hcode]
  have hdeclared : Function.Declared { func with specialization := some text } :=
    ⟨⟨declared.paramSlots, declared.slots, declared.blocks, declared.instrs⟩, declared.pending⟩
  exact p.addSpecialization unknown signature hdeclared source

theorem specialize_abides (hw : w.Abides p) (recipe args span) : Abides p (specialize w recipe args span) := by
  refine .get (fun _ _ _ => rfl) fun t _ ht => ?_
  have hs := p.recipe ht recipe
  generalize t.recipes.getD recipe default = r at hs ⊢
  refine (fnLiteral_abides _).bind fun lit _ => .ite (fun _ => .thrown trivial) fun _ => ?_
  refine (inferBindings_abides _ _).bind fun bindings _ => ?_
  intro c t g hc ht
  rw [reads_bind get_reads, reads_bind get_reads]
  cases hl : t.specializations.lookup (recipe, bindings.map Prod.snd) with
  | some f =>
    simp only [Tables.beside, hl]
    exact .ok (p.refl ht) trivial
  | none =>
    simp only [Tables.beside, hl, declareFn, bind_assoc]
    rw [reads_bind types_reads, reads_bind types_reads]
    refine (fnHead_gives hw hs r.lit r.name bindings).andThen hc ht fun func t1 g1 hfunc leads => ?_
    exact .ok (specialized_leads hl leads hfunc _ _) trivial

/-! ## Types -/

theorem enterMembers_abides (id ty members span) : Abides p (enterMembers id ty members span) := by
  refine Gives.bind (P := fun _ => True) (.retype (fun _ _ => rfl) fun t => ?_) fun _ _ => ?_
  · exact ⟨_, t.strays, rfl, TypeTable.completeStruct_refines id members⟩
  · refine .reads types_views fun _ => ?_
    split
    · exact .pure trivial
    · exact .pure trivial
    · exact layoutHalt_gives _ _

theorem bindStruct_abides {symbol} (h : ∀ id ∈ symbol, p.Sets id) (ty) : Abides p (bindStruct symbol ty) := by
  refine .reads types_views fun _ => ?_
  split
  · exact resolveSymbol_abides (h _ rfl) trivial
  · exact .pure trivial

theorem polyType_abides (hs : p.Sees scope) (name) (span) : Abides p (polyType scope name span) := by
  refine .scopes fun t g ht => ⟨?_, ?_⟩
  · have hvalue : ((g.scopes.lookup scope name).bind fun found => (g.scopes.symbol found.symbol).value?) =
        (t.scopes.lookup scope name).bind fun found => (t.scopes.symbol found.symbol).value? := by
      have hlook := p.lookup ht hs name
      rw [hlook.1]
      cases hfound : t.scopes.lookup scope name with
      | none => rfl
      | some found =>
        exact congrArg Symbol.value? (p.symbol ht (hlook.2 found hfound)).1
    simp only [hvalue]
  · split
    · exact .pure trivial
    · exact .throw trivial

variable (hw : w.Abides p)

include hw

theorem arrayLength_abides (hs : p.Sees scope) (n) : Abides p (arrayLength w scope n) := by
  have hrefuse : Abides p (arrayLength.refuse n) := .reads (spanOf_views n) fun _ => .throw trivial
  refine (comptimeValue_abides hw hs n none).bind fun r _ => .reads types_views fun _ => ?_
  split
  · exact .ite (fun _ => hrefuse) fun _ => .pure trivial
  · exact hrefuse

private theorem structMembers_abides (hs : p.Sees scope) (known members) :
    Abides p (structMembers w scope known members) := by
  induction members generalizing known with
  | nil => exact .pure trivial
  | cons m rest ih =>
    refine .ite (fun _ => .thrown trivial) fun _ => ?_
    exact (hw.typeExpr hs m.ty).bind fun _ _ => ih _

theorem completeStruct_abides (hs : p.Sees scope) (id ty members span) :
    Abides p (completeStruct w scope id ty members span) :=
  (structMembers_abides hw hs [] members).bind fun _ _ => enterMembers_abides id ty _ span

private theorem variantValue_abides (hs : p.Sees scope) (base) (next) (v) :
    Abides p (variantValue w scope base next v) := by
  unfold variantValue
  split
  · refine (comptimeValue_abides hw hs _ _).bind fun r _ => ?_
    split
    · exact .pure trivial
    · exact .throw trivial
  · exact .pure trivial

private theorem enumVariants_abides (hs : p.Sees scope) (base known) (next) (variants) :
    Abides p (enumVariants w scope base known next variants) := by
  induction variants generalizing known next with
  | nil => exact .pure trivial
  | cons v rest ih =>
    refine .ite (fun _ => .thrown trivial) fun _ => ?_
    refine (variantValue_abides hw hs base next v).bind fun _ _ => ?_
    exact .reads types_views fun _ => ih _ _

theorem completeEnum_abides (hs : p.Sees scope) (id variants) : Abides p (completeEnum w scope id variants) := by
  refine .reads types_views fun t => (enumVariants_abides hw hs _ [] 0 variants).bind fun vs _ => ?_
  exact .retype (fun _ _ => rfl) fun t => ⟨_, t.strays, rfl, TypeTable.completeEnum_refines id vs⟩

private theorem declareEnum_agree (hs : p.Sees scope) {c t g} (hc : p.Suits c) (ht : p.Holds t g)
    {key base variants} (hkind : p.ast.kind key.1 = .enumType base variants) (hl : t.nominals.lookup key = none)
    (name) (span) :
    p.Agree (fun _ => True) t g (declareEnum w scope key base name span c t)
      (declareEnum w scope key base name span c (t.beside g)) := by
  refine (typeExpr?_abides hw hs base).andThen hc ht fun base t1 g1 _ leads => ?_
  rw [reads_bind types_reads, reads_bind types_reads]
  cases hint : t1.types.isInt (base.getD .s32) with
  | true =>
    simp only [Tables.beside, hint]
    exact .ok (p.declareEnum hkind hl leads name hint span) trivial
  | false =>
    simp only [Tables.beside, hint]
    exact .error leads fun _ => trivial

private theorem declaredNominal_abides (hs : p.Sees scope) (n) (name) : Abides p (declaredNominal w scope n name) := by
  intro c t g hc ht
  have hnode : p.ast.kind n = (c.ast.node n).kind := by rw [← hc.ast, Ast.kind]
  rw [declaredNominal, reads_bind (node_reads n), reads_bind (node_reads n)]
  generalize c.ast.node n = node at hnode ⊢
  obtain ⟨kind, span⟩ := node
  dsimp only
  rw [reads_bind read_reads, reads_bind read_reads, reads_bind get_reads, reads_bind get_reads]
  cases hl : t.nominals.lookup (n, c.owner) with
  | some ty =>
    simp only [Tables.beside, hl]
    exact .ok (p.refl ht) trivial
  | none =>
    simp only [Tables.beside, hl]
    cases kind with
    | structType members => exact .ok (p.declareStruct ht hnode hl name span c.task) trivial
    | enumType base variants => exact declareEnum_agree hw hs hc ht hnode hl name span
    | _ => exact .error (p.refl ht) fun _ => trivial

private theorem completeNominal_abides (hs : p.Sees scope) (n ty) : Abides p (completeNominal w scope n ty) := by
  refine .reads (node_views n) fun node => .reads types_views fun t => ?_
  split
  · exact .ite (fun _ => completeStruct_abides hw hs _ ty _ _) fun _ => .pure trivial
  · exact .ite (fun _ => completeEnum_abides hw hs _ _) fun _ => .pure trivial
  · exact .pure trivial

theorem nominalType_abides (hs : p.Sees scope) (n) (name) {symbol} (h : ∀ id ∈ symbol, p.Sets id) :
    Abides p (nominalType w scope n name symbol) :=
  (declaredNominal_abides hw hs n name).bind fun ty _ => (bindStruct_abides h ty).bind fun _ _ =>
    (completeNominal_abides hw hs n ty).bind fun _ _ => .pure trivial

private theorem fnType_abides (hs : p.Sees scope) (sig) : Abides p (fnType w scope sig) := by
  refine Gives.bind (.mapM (fun p => hw.typeExpr hs p.ty) sig.params) fun params _ => ?_
  exact (typeExpr?_abides hw hs sig.ret).bind fun _ _ => intern_abides rfl

theorem typeExpression_abides (hs : p.Sees scope) (n) : Abides p (typeExpression w scope n) := by
  refine .reads (node_views n) fun node => ?_
  obtain ⟨kind, span⟩ := node
  dsimp only
  split
  · exact (hw.typeExpr hs _).bind fun _ _ => intern_abides rfl
  · exact (hw.typeExpr hs _).bind fun _ _ => intern_abides rfl
  · refine (arrayLength_abides hw hs _).bind fun _ _ => ?_
    exact (hw.typeExpr hs _).bind fun _ _ => intern_abides rfl
  · exact fnType_abides hw hs _
  · exact nominalType_abides hw hs n _ (by simp)
  · exact nominalType_abides hw hs n _ (by simp)
  · exact polyType_abides hs _ span
  · refine (comptimeValue_abides hw hs n none).bind fun r _ => ?_
    split
    · exact .pure trivial
    · exact .reads (quoted_views _) fun _ => .throw trivial

/-! ## Names for functions and types -/

private theorem boundTo_gives (hs : p.Sees scope) (name) {symbol} (h : p.Sets symbol) (init) :
    Gives p (boundTo w scope name symbol init) fun bound => ∀ v ∈ bound, v.Bindable p.Sees p.Stores := by
  have hsymbol : ∀ id ∈ some symbol, p.Sets id := by
    rintro id ⟨rfl⟩
    exact h
  refine .reads (node_views init) fun node => ?_
  split
  · refine (bindFnLiteral_abides hw hs init name).bind fun r _ => ?_
    split
    · exact .pure (by simp [SymbolValue.Bindable])
    · exact .pure (by simp [SymbolValue.Bindable])
  · exact (fnGroup_abides hw hs init name _).bind fun _ _ => .pure (by simp [SymbolValue.Bindable])
  · exact (nominalType_abides hw hs init name hsymbol).bind fun _ _ => .pure (by simp [SymbolValue.Bindable])
  · exact (nominalType_abides hw hs init name hsymbol).bind fun _ _ => .pure (by simp [SymbolValue.Bindable])
  · exact .pure (by simp)

theorem directBinding_gives (hs : p.Sees scope) (d) {symbol} (h : p.Sets symbol) :
    Gives p (directBinding w scope d symbol) fun bound => ∀ v ∈ bound, v.Bindable p.Sees p.Stores := by
  unfold directBinding
  split
  · refine (boundTo_gives hw hs d.name h _).bind fun bound hbound => ?_
    exact .ite (fun _ => .reads (spanOf_views _) fun _ => .thrown trivial) fun _ => .pure hbound
  · exact .pure (by simp)

end Analysis

end Comptime
