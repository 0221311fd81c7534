import Comptime.Proofs.Graph.Statement

/-!
# What analysis adds to the tables

A run of analysis adds to the tables and leaves alone what it finds there: the functions and globals of
the code, and the notes on what has been declared. `Tables.Develops` says so in full.

The notes deserve a closer look. A function literal is noted under its node and the function in whose
body it is met, a specialization under its recipe and the types it binds, a struct or enum under its node
like a literal. No run adds a note under a key that was known when it began (`Records`). It may still add
two notes under one new key: the analysis of a signature comes between the look-up and the note, and may
itself come to the same literal.
-/

namespace Comptime

/-! ## Notes -/

section

variable {κ α : Type} [BEq κ] {l l' l'' : List (κ × α)} {key : κ} {a b : α}

def Records (l l' : List (κ × α)) : Prop := ∃ added, l' = added ++ l ∧ ∀ e ∈ added, l.lookup e.1 = none

namespace Records

protected theorem refl (l : List (κ × α)) : Records l l := ⟨[], rfl, nofun⟩

protected theorem trans (h : Records l l') (h' : Records l' l'') : Records l l'' := by
  obtain ⟨added, rfl, hnew⟩ := h
  obtain ⟨added', rfl, hnew'⟩ := h'
  refine ⟨added' ++ added, (List.append_assoc ..).symm, fun e he => ?_⟩
  rcases List.mem_append.mp he with he | he
  · have hnone := hnew' e he
    rw [List.lookup_append] at hnone
    exact (Option.or_eq_none_iff.mp hnone).2
  · exact hnew e he

theorem cons (h : Records l l') (unknown : l.lookup key = none) (a : α) : Records l ((key, a) :: l') := by
  obtain ⟨added, rfl, hnew⟩ := h
  refine ⟨(key, a) :: added, rfl, fun e he => ?_⟩
  rcases List.mem_cons.mp he with rfl | he
  · exact unknown
  · exact hnew e he

end Records

end

namespace Tables

/-- Every function of the code is noted once, as a literal or as a specialization, and the literals
under their nodes. -/
structure Noted (t : Tables) : Prop where
  ids : (t.fnLiterals.map Prod.snd ++ t.specializations.map Prod.snd).Perm t.code.fns.ids
  sources : t.sources.size = t.code.fns.size
  literals : ∀ e ∈ t.fnLiterals, ∃ source, t.sources.get? e.2 = some source ∧ source.lit = e.1.1

theorem Noted.ofSame {t t' : Tables} (h : t.Noted) (fns : t'.code.fns = t.code.fns)
    (sources : t'.sources = t.sources) (literals : t'.fnLiterals = t.fnLiterals)
    (specializations : t'.specializations = t.specializations) : t'.Noted := by
  refine ⟨?_, ?_, ?_⟩
  · rw [literals, specializations, fns]
    exact h.ids
  · rw [sources, fns]
    exact h.sources
  · rw [literals, sources]
    exact h.literals

/-- Every struct and every enum is noted once, at a node of such a type. A node of a struct stands for one
type in a function. -/
structure NominalNotes (ast : Ast) (t : Tables) : Prop where
  types : t.types.Proper
  ids : (t.nominals.map Prod.snd).Perm t.types.nominals
  kinds : ∀ e ∈ t.nominals, (∃ members, ast.kind e.1.1 = .structType members) ∨
    ∃ base variants, ast.kind e.1.1 = .enumType base variants
  structs : ∀ key ty ty', (∃ members, ast.kind key.1 = .structType members) →
    (key, ty) ∈ t.nominals → (key, ty') ∈ t.nominals → ty = ty'

theorem NominalNotes.ofSame {ast} {t t' : Tables} (h : NominalNotes ast t) (types : t.types.Refines t'.types)
    (nominals : t'.nominals = t.nominals) : NominalNotes ast t' := by
  refine ⟨types.proper h.types, ?_, ?_, ?_⟩
  · rw [nominals, types.nominals]
    exact h.ids
  · rw [nominals]
    exact h.kinds
  · rw [nominals]
    exact h.structs

/-- What a run of analysis makes of the tables. -/
structure Develops (ast : Ast) (t t' : Tables) : Prop where
  types : t.types.Enlarges t'.types
  function : ∀ {f}, t.code.fns.Has f → t'.code.fns.Has f ∧ t'.code.function f = t.code.function f
  fresh : ∀ {f}, t'.code.fns.Has f → ¬ t.code.fns.Has f → (t'.code.function f).Declared
  globals : t'.code.globals = t.code.globals
  sources : ∀ {f source}, t.sources.get? f = some source → t'.sources.get? f = some source
  literals : Records t.fnLiterals t'.fnLiterals
  specializations : Records t.specializations t'.specializations
  nominals : Records t.nominals t'.nominals
  noted : t.Noted → t'.Noted
  nominalNotes : NominalNotes ast t → NominalNotes ast t'

namespace Develops

variable {ast : Ast} {t t' t'' : Tables}

protected theorem refl (t : Tables) : Develops ast t t where
  types := ⟨.refl _, fun h => h⟩
  function hf := ⟨hf, rfl⟩
  fresh hf hn := absurd hf hn
  globals := rfl
  sources := id
  literals := .refl _
  specializations := .refl _
  nominals := .refl _
  noted := id
  nominalNotes := id

protected theorem trans (h : Develops ast t t') (h' : Develops ast t' t'') : Develops ast t t'' where
  types := h.types.trans h'.types
  function hf :=
    ⟨(h'.function (h.function hf).1).1, (h'.function (h.function hf).1).2.trans (h.function hf).2⟩
  fresh {f} hf hn := by
    by_cases hmid : t'.code.fns.Has f
    · rw [(h'.function hmid).2]
      exact h.fresh hmid hn
    · exact h'.fresh hf hmid
  globals := h'.globals.trans h.globals
  sources := h'.sources ∘ h.sources
  literals := h.literals.trans h'.literals
  specializations := h.specializations.trans h'.specializations
  nominals := h.nominals.trans h'.nominals
  noted := h'.noted ∘ h.noted
  nominalNotes := h'.nominalNotes ∘ h.nominalNotes

theorem ofSame (types : t.types.Refines t'.types) (code : t'.code = t.code)
    (sources : t'.sources = t.sources) (literals : t'.fnLiterals = t.fnLiterals)
    (specializations : t'.specializations = t.specializations) (nominals : t'.nominals = t.nominals) :
    Develops ast t t' where
  types := types.toEnlarges
  function hf := by
    rw [code]
    exact ⟨hf, rfl⟩
  fresh hf hn := by
    rw [code] at hf
    exact absurd hf hn
  globals := by rw [code]
  sources hs := sources ▸ hs
  literals := literals ▸ .refl _
  specializations := specializations ▸ .refl _
  nominals := nominals ▸ .refl _
  noted hn := hn.ofSame (by rw [code]) sources literals specializations
  nominalNotes hn := hn.ofSame types nominals

end Develops

theorem get?_push_of_some {κ} {α : Type} {p : Pool κ α} {i : Id κ} {a : α} (h : p.get? i = some a) (b : α) :
    (p.push b).get? i = some a := by
  rw [Pool.get?_push, if_neg (Pool.has_of_get?_eq_some h).ne_nextId]
  exact h

namespace Noted

variable {t : Tables} {func : Function} {source : Source}

theorem source_withFunction (h : t.Noted) (func source) {e : Occurrence × FnId} (he : e ∈ t.fnLiterals) :
    ∃ s, (t.withFunction func source).sources.get? e.2 = some s ∧ s.lit = e.1.1 := by
  obtain ⟨s, hs, hlit⟩ := h.literals e he
  exact ⟨s, get?_push_of_some hs source, hlit⟩

theorem sources_withFunction (h : t.Noted) (func source) :
    (t.withFunction func source).sources.size = (t.withFunction func source).code.fns.size := by
  have hsize : t.sources.items.size = t.code.fns.items.size := h.sources
  simp [withFunction, Pool.push, Pool.size, hsize]

theorem addLiteral (h : t.Noted) {key} (lit : source.lit = key.1) :
    Noted { t.withFunction func source with
      fnLiterals := (key, t.code.fns.nextId) :: t.fnLiterals } where
  ids := by
    show List.Perm _ (t.code.fns.push func).ids
    rw [Pool.ids_push]
    exact (h.ids.cons _).trans (List.perm_append_singleton _ _).symm
  sources := h.sources_withFunction func source
  literals e he := by
    rcases List.mem_cons.mp he with rfl | he
    · refine ⟨source, ?_, lit⟩
      show (t.sources.push source).get? t.code.fns.nextId = some source
      rw [Pool.get?_push, if_pos]
      exact congrArg Id.mk h.sources.symm
    · exact h.source_withFunction func source he

theorem addSpecialization (h : t.Noted) {key : RecipeId × List TypeId} :
    Noted { t.withFunction func source with
      specializations := (key, t.code.fns.nextId) :: t.specializations } where
  ids := by
    show List.Perm _ (t.code.fns.push func).ids
    rw [Pool.ids_push]
    exact List.perm_middle.trans ((h.ids.cons _).trans (List.perm_append_singleton _ _).symm)
  sources := h.sources_withFunction func source
  literals e he := h.source_withFunction func source he

end Noted

namespace Develops

variable {ast : Ast} {t t1 : Tables} {f : FnId} {func : Function}

theorem function_declared (h : Develops ast t t1) (func source) (hf : t.code.fns.Has f) :
    (t1.withFunction func source).code.fns.Has f ∧
      (t1.withFunction func source).code.function f = t.code.function f := by
  obtain ⟨hf, heq⟩ := h.function hf
  exact ⟨hf.push func, (Pool.getD_push_of_has hf func _).trans heq⟩

theorem fresh_declared (h : Develops ast t t1) (declared : func.Declared) (source)
    (hf : (t1.withFunction func source).code.fns.Has f) (hn : ¬ t.code.fns.Has f) :
    ((t1.withFunction func source).code.function f).Declared := by
  show ((t1.code.fns.push func).getD f default).Declared
  rcases Pool.has_push.mp hf with hmid | rfl
  · rw [Pool.getD_push_of_has hmid]
    exact h.fresh hmid hn
  · rw [Pool.getD_push, if_pos rfl]
    exact declared

private theorem addLiteral {key} (unknown : t.fnLiterals.lookup key = none) (signature : Develops ast t t1)
    (declared : func.Declared) {source} (lit : source.lit = key.1) :
    Develops ast t { t1.withFunction func source with
      fnLiterals := (key, t1.code.fns.nextId) :: t1.fnLiterals } :=
  { signature with
    function := signature.function_declared func source
    fresh := signature.fresh_declared declared source
    sources hs := get?_push_of_some (signature.sources hs) source
    literals := signature.literals.cons unknown _
    noted hn := (signature.noted hn).addLiteral lit
    nominalNotes hn := (signature.nominalNotes hn).ofSame (.refl _) rfl }

private theorem addSpecialization {key : RecipeId × List TypeId} (unknown : t.specializations.lookup key = none)
    (signature : Develops ast t t1) (declared : func.Declared) (source) :
    Develops ast t { t1.withFunction func source with
      specializations := (key, t1.code.fns.nextId) :: t1.specializations } :=
  { signature with
    function := signature.function_declared func source
    fresh := signature.fresh_declared declared source
    sources hs := get?_push_of_some (signature.sources hs) source
    specializations := signature.specializations.cons unknown _
    noted hn := (signature.noted hn).addSpecialization
    nominalNotes hn := (signature.nominalNotes hn).ofSame (.refl _) rfl }

end Develops

namespace NominalNotes

variable {ast : Ast} {t : Tables} {key : Occurrence}

private theorem declareStruct (h : NominalNotes ast t) {members : List Field}
    (kind : ast.kind key.1 = .structType members) (unknown : t.nominals.lookup key = none) (name : String)
    (span : Span) (task : TaskId) :
    NominalNotes ast { t with
      types := (t.types.declareStruct name span).1
      structTasks := ((t.types.declareStruct name span).2.1, task) :: t.structTasks
      nominals := (key, (t.types.declareStruct name span).2.2) :: t.nominals } := by
  have hnew {key' : Occurrence} {ty : TypeId} (hmem : (key', ty) ∈ t.nominals) : key' ≠ key := by
    rintro rfl
    simpa using List.lookup_eq_none_iff.mp unknown _ hmem
  refine ⟨h.types.declareStruct name span, ?_, fun e he => ?_, fun key' ty ty' hkind hty hty' => ?_⟩
  · show List.Perm (_ :: t.nominals.map Prod.snd) _
    rw [h.types.nominals_declareStruct]
    exact (h.ids.cons _).trans (List.perm_append_singleton _ _).symm
  · rcases List.mem_cons.mp he with rfl | he
    · exact .inl ⟨members, kind⟩
    · exact h.kinds e he
  · rcases List.mem_cons.mp hty with h1 | h1 <;> rcases List.mem_cons.mp hty' with h2 | h2
    · cases h1
      cases h2
      rfl
    · cases h1
      exact absurd rfl (hnew h2)
    · cases h2
      exact absurd rfl (hnew h1)
    · exact h.structs key' ty ty' hkind h1 h2

private theorem declareEnum (h : NominalNotes ast t) {base variants} (kind : ast.kind key.1 = .enumType base variants)
    (name : String) {ty : TypeId} (int : t.types.isInt ty = true) (span : Span) :
    NominalNotes ast { t with
      types := (t.types.declareEnum name ty span).1
      nominals := (key, (t.types.declareEnum name ty span).2.2) :: t.nominals } := by
  refine ⟨h.types.declareEnum name span int, ?_, fun e he => ?_, fun key' ty ty' hkind hty hty' => ?_⟩
  · show List.Perm (_ :: t.nominals.map Prod.snd) _
    rw [h.types.nominals_declareEnum]
    exact (h.ids.cons _).trans (List.perm_append_singleton _ _).symm
  · rcases List.mem_cons.mp he with rfl | he
    · exact .inr ⟨base, variants, kind⟩
    · exact h.kinds e he
  · have hne : key' ≠ key := by
      rintro rfl
      obtain ⟨members, hmembers⟩ := hkind
      rw [kind] at hmembers
      cases hmembers
    refine h.structs key' ty ty' hkind ?_ ?_
    · exact (List.mem_cons.mp hty).resolve_left fun h => hne (congrArg Prod.fst h)
    · exact (List.mem_cons.mp hty').resolve_left fun h => hne (congrArg Prod.fst h)

end NominalNotes

namespace Develops

variable {ast : Ast} {t t1 : Tables} {key : Occurrence}

private theorem declareStruct {members : List Field} (kind : ast.kind key.1 = .structType members)
    (unknown : t.nominals.lookup key = none) (name : String) (span : Span) (task : TaskId) :
    Develops ast t { t with
      types := (t.types.declareStruct name span).1
      structTasks := ((t.types.declareStruct name span).2.1, task) :: t.structTasks
      nominals := (key, (t.types.declareStruct name span).2.2) :: t.nominals } where
  types := TypeTable.declareStruct_enlarges name span
  function hf := ⟨hf, rfl⟩
  fresh hf hn := absurd hf hn
  globals := rfl
  sources := id
  literals := .refl _
  specializations := .refl _
  nominals := (Records.refl _).cons unknown _
  noted hn := hn.ofSame rfl rfl rfl rfl
  nominalNotes hn := hn.declareStruct kind unknown name span task

private theorem declareEnum {base variants} (kind : ast.kind key.1 = .enumType base variants)
    (unknown : t.nominals.lookup key = none) (based : Develops ast t t1) (name) {ty}
    (int : t1.types.isInt ty = true) (span) :
    Develops ast t { t1 with
      types := (t1.types.declareEnum name ty span).1
      nominals := (key, (t1.types.declareEnum name ty span).2.2) :: t1.nominals } :=
  { based with
    types := based.types.trans (TypeTable.declareEnum_enlarges name ty span)
    nominals := based.nominals.cons unknown _
    noted hn := (based.noted hn).ofSame rfl rfl rfl rfl
    nominalNotes hn := (based.nominalNotes hn).declareEnum kind name int span }

end Develops

theorem Develops.formed (h : Develops ast t t') (ht : t.code.Formed) : t'.code.Formed := by
  intro g hg
  by_cases hold : t.code.fns.Has g
  · rw [(h.function hold).2] at hg ⊢
    exact ht g hg
  · have hfresh := h.fresh (Code.has_of_analyzed hg) hold
    refine Function.formed_of_empty hfresh.blocks hfresh.instrs fun hn => ?_
    rw [hfresh.pending hn] at hg
    cases hg

end Tables

/-! ## The policy -/

/-- Such are the tables of a single run that adds to the tables `t0`: scopes and symbols are as they were, but for one
symbol of its own, and names have been bound to constants only if such are stored. -/
def Tables.Added (t0 : Tables) (own : Option SymbolId) (stores : Prop) (t : Tables) (g : Side) : Prop :=
  g = t.side ∧ Scopes.Extends own t0.scopes t.scopes ∧
    ∀ id ty v, (t.scopes.symbol id).state = .resolved (.const ty v) →
      stores ∨ (t0.scopes.symbol id).state = .resolved (.const ty v)

/-- A single run adds to the tables `t0`. It finds formed code if it began with such, and no new types of numbers. -/
def Policy.adding (c : Context) (t0 : Tables) (own : Option SymbolId) (stores : Prop) : Policy where
  ast := c.ast
  Holds t g := t0.Added own stores t g ∧ t0.Develops c.ast t
  Leads t _ t' g' := t0.Added own stores t' g' ∧ t0.Develops c.ast t ∧ t.Develops c.ast t'
  Sees _ := True
  Finds _ := True
  Enters scope := ¬ t0.scopes.scopes.Has scope
  Sets id := ¬ t0.scopes.symbols.Has id ∨ own = some id
  Stores := stores
  Relies := t0.code.Formed
  Folds := c.config.foldConstants = true
  Counts ty := t0.types.isNumeric ty = true ∨ ty ∈ TypeId.written
  refl h := ⟨h.1, h.2, .refl _⟩
  trans h h' := ⟨h'.1, h.2.1, h.2.2.trans h'.2.2⟩
  holds h := ⟨h.1, h.2.1.trans h.2.2⟩
  sees _ := trivial
  formed hr _ _ h := h.2.formed hr
  written := .inr
  numeric h _ hty := .inl (h.2.types.numeric hty)
  lookup h _ _ _ := ⟨by rw [h.1.1]; rfl, fun _ _ => trivial⟩
  lookupHere h _ _ _ := ⟨by rw [h.1.1]; rfl, fun _ _ => trivial⟩
  symbol h _ _ := ⟨by rw [h.1.1]; rfl, fun _ _ => trivial⟩
  recipe _ _ := trivial
  task h _ := by rw [h.1.1]; rfl
  retype h _ refines strays := ⟨h.1, h.2, .ofSame refines rfl rfl rfl rfl rfl⟩
  createScope := by
    rintro t _ ⟨⟨rfl, h, hc⟩, hd⟩ parent _ kind
    exact ⟨rfl, ⟨⟨rfl, h.create kind (some parent), hc⟩, hd, .ofSame (.refl _) rfl rfl rfl rfl rfl⟩,
      h.not_has_nextScope⟩
  insertSymbol := by
    rintro t _ g1 ⟨⟨rfl, h, hc⟩, hd⟩ s hs hv id hi
    refine ⟨g1, hi, ⟨⟨rfl, h.insert hs hi, fun j ty v hj => ?_⟩, hd, .ofSame (.refl _) rfl rfl rfl rfl rfl⟩, .inl ?_⟩
    · have hj : (g1.symbol j).state = _ := hj
      rw [Scopes.symbol_insert hi] at hj
      split at hj
      · exact .inl (hv _ hj)
      · exact hc j ty v hj
    · rw [(Scopes.insert_eq_ok hi).2.1]
      exact h.not_has_nextSymbol
  taken := by
    rintro t _ ⟨⟨rfl, h⟩, -⟩ s _ previous hi
    exact ⟨hi, trivial⟩
  resolveSymbol := by
    rintro t _ ⟨⟨rfl, h, hc⟩, hd⟩ id hid v hv
    refine ⟨⟨rfl, h.setState hid, fun j ty x hj => ?_⟩, hd, .ofSame (.refl _) rfl rfl rfl rfl rfl⟩
    have hj : ((t.scopes.resolve id v).symbol j).state = _ := hj
    by_cases hji : j = id
    · subst hji
      by_cases has : t.scopes.symbols.Has j
      · rw [Scopes.resolve, Scopes.symbol_setState_self has] at hj
        cases hj
        exact .inl hv
      · rw [Scopes.symbol, Scopes.resolve, Pool.getD_of_not_has (mt Scopes.has_setState.mp has)] at hj
        cases hj
    · rw [Scopes.resolve, Scopes.symbol_setState_of_ne hji] at hj
      exact hc j ty x hj
  addRecipe h _ _ _ _ := ⟨h.1, h.2, .ofSame (.refl _) rfl rfl rfl rfl rfl⟩
  addLiteral := by
    rintro t t1 g _ key unknown ⟨⟨rfl, h⟩, hd, d⟩ func declared source lit
    exact ⟨⟨rfl, h⟩, hd, .addLiteral unknown d declared lit⟩
  addSpecialization := by
    rintro t t1 g _ key unknown ⟨⟨rfl, h⟩, hd, d⟩ func declared source
    exact ⟨⟨rfl, h⟩, hd, .addSpecialization unknown d declared source⟩
  declareStruct h _ _ kind unknown name span task := ⟨h.1, h.2, .declareStruct kind unknown name span task⟩
  declareEnum kind unknown based name _ int span :=
    ⟨based.1, based.2.1, .declareEnum kind unknown based.2.2 name int span⟩

namespace Tables

variable {c : Context} {t t' : Tables} {own : Option SymbolId} {stores : Prop}

theorem holds_adding (c : Context) (t own stores) : (Policy.adding c t own stores).Holds t t.side :=
  ⟨⟨rfl, .refl _, fun _ _ _ => .inr⟩, .refl t⟩

/-- A run that stores no constants leaves constants, bodies and globals alone. So a struct whose members are analysed
is still to be completed with what was known of them before, even if another run has completed it in between. -/
theorem Added.frame {g} (h : t.Added none False t' g) (hd : t.Develops c.ast t') : t.Frame t' := by
  refine ⟨fun i ty v hv => (h.2.2 i ty v hv).resolve_left id, fun f => ?_, hd.globals⟩
  by_cases hf : t.code.fns.Has f
  · exact .inl ⟨hf, (hd.function hf).2⟩
  · refine .inr ?_
    by_cases hf' : t'.code.fns.Has f
    · exact (hd.fresh hf' hf).instrs
    · rw [Code.function, Pool.getD_of_not_has hf']
      rfl

end Tables

theorem Analysis.Abides.frame {α : Type} {x : Analysis α} {c : Context} {t : Tables}
    (h : Abides (.adding c t none False) x) : Ensures (x c t) (fun _ t' => t.Frame t') fun _ _ => True := by
  have hx := h c t t.side ⟨rfl, fun h => h⟩ (Tables.holds_adding ..)
  generalize x c t = r, x c (t.beside t.side) = r' at hx
  cases hx with
  | ok leads => exact leads.1.frame leads.2.2
  | error => trivial

end Comptime
