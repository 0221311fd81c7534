import Comptime.Proofs.Constant.Denotation
import Comptime.Proofs.Session.Schedule

/-!
# Constants in the tables of a session

The declarations of a program are entered one after another, each with a symbol and a task of the same
number. `Tables.Lists` says that this has been done and is kept by all that analysis does to the
tables. What changes is how far a declaration has come, in the scheduler and in the scopes at the same
time (`Progress`).
-/

namespace Comptime

open Analysis (globalScope)

/-! ## The global scope -/

namespace Scopes

variable {g : Scopes} {x : String} {σ : SymbolId}

/-- The symbol of a name in the global scope or around it. -/
def global? (g : Scopes) (x : String) : Option SymbolId :=
  (g.declared? globalScope x).or (g.declared? 0 x)

/-- The global scope stands inside that of the predefined types, and that one inside no other. -/
structure Framed (g : Scopes) : Prop where
  size : 2 ≤ g.scopes.size
  parent : (g.scope globalScope).parent = some 0
  outermost : (g.scope 0).parent = none

theorem Framed.create (h : g.Framed) (kind parent) : (g.create kind parent).1.Framed := by
  have hsame {id : ScopeId} (hid : id.index < 2) : (g.create kind parent).1.scope id = g.scope id :=
    Pool.getD_push_of_has (Nat.lt_of_lt_of_le hid h.size) _ _
  have hsize : (g.create kind parent).1.scopes.size = g.scopes.size + 1 := Pool.size_push ..
  refine ⟨?_, ?_, ?_⟩
  · have := h.size
    omega
  · rw [hsame (by decide), h.parent]
  · rw [hsame (by decide), h.outermost]

theorem Framed.insert {g' s} (h : g.Framed) (hi : g.insert s = .ok (g', σ)) : g'.Framed := by
  unfold Scopes.insert at hi
  split at hi
  · cases hi
  · cases hi
    have hparent (id : ScopeId) := Pool.view_modify Scope.parent
      (f := fun c => { c with entries := (s.name, g.symbols.nextId) :: c.entries }) (fun _ => rfl)
      g.scopes s.scope id default
    exact ⟨(Pool.size_modify ..).symm ▸ h.size, (hparent _).trans h.parent, (hparent _).trans h.outermost⟩

theorem global?_insert {g' s} (h : g.Framed) (hs : s.scope = globalScope) (hi : g.insert s = .ok (g', σ)) :
    g'.global? x = if x = s.name then some σ else g.global? x := by
  obtain ⟨-, -, -, hdeclared⟩ := insert_eq_ok hi
  have hhas : g.scopes.Has globalScope := h.size
  have houter : (0 : ScopeId) ≠ globalScope := by decide
  have hout : g'.declared? 0 x = g.declared? 0 x := by
    rw [hdeclared, hs, if_neg fun h => houter h.1]
  rw [global?, hout, hdeclared, hs]
  by_cases hx : x = s.name
  · rw [if_pos ⟨rfl, hhas, hx⟩, if_pos hx]
    rfl
  · rw [if_neg fun h => hx h.2.2, if_neg hx]
    rfl

theorem lookupAt_global (h : g.Framed) (fuel crossed) :
    (g.lookupAt x (fuel + 2) globalScope crossed).map Found.symbol = g.global? x := by
  rw [lookupAt, global?]
  cases g.declared? globalScope x with
  | some σ => rfl
  | none =>
    simp only [h.parent, Option.bind_eq_bind, Option.bind_some, Option.none_or]
    rw [lookupAt]
    cases g.declared? 0 x with
    | some σ => rfl
    | none => simp [h.outermost]

theorem lookup_global (h : g.Framed) : (g.lookup globalScope x).map Found.symbol = g.global? x := by
  obtain ⟨fuel, hfuel⟩ := Nat.exists_eq_add_of_le h.size
  rw [lookup, hfuel, Nat.add_comm]
  exact lookupAt_global h fuel false

theorem global?_create (kind parent) : (g.create kind parent).1.global? x = g.global? x := by
  rw [global?, global?, declared?_create, declared?_create]

/-- The name is that of the type for which the symbol stands. -/
def namesType (g : Scopes) (x : String) (σ : SymbolId) : Bool :=
  match (g.symbol σ).state with
  | .resolved (.type ty) => decide ((x, ty) ∈ TypeTable.builtinNames) &&
    decide (σ.index < TypeTable.builtinNames.length)
  | _ => false

theorem global?_predefined (inner : (g.scope globalScope).entries = [])
    (types : ((g.scope 0).entries.all fun p => g.namesType p.1 p.2) = true)
    (all : (TypeTable.builtinNames.all fun p => ((g.scope 0).entries.lookup p.1).isSome) = true) (x) :
    (∃ ty σ, (x, ty) ∈ TypeTable.builtinNames ∧ g.global? x = some σ ∧
      σ.index < TypeTable.builtinNames.length ∧ (g.symbol σ).state = .resolved (.type ty)) ∨
    g.global? x = none ∧ ∀ ty, (x, ty) ∉ TypeTable.builtinNames := by
  have hglobal : g.global? x = (g.scope 0).entries.lookup x := by
    rw [global?, declared?, inner]
    rfl
  rw [hglobal]
  cases hx : (g.scope 0).entries.lookup x with
  | some σ =>
    have htype := List.all_eq_true.mp types _ (mem_of_lookup hx)
    dsimp only [namesType] at htype
    split at htype
    · next ty hstate =>
      simp only [Bool.and_eq_true, decide_eq_true_eq] at htype
      exact .inl ⟨ty, σ, htype.1, rfl, htype.2, hstate⟩
    · cases htype
  | none =>
    refine .inr ⟨rfl, fun ty hty => ?_⟩
    have hsome := List.all_eq_true.mp all _ hty
    rw [hx] at hsome
    cases hsome

private theorem lookup_nested (h : g.Framed) (kind) :
    ((g.create kind (some globalScope)).1.lookup g.scopes.nextId x).map Found.symbol = g.global? x := by
  let g' := (g.create kind (some globalScope)).1
  have hsize : g'.scopes.size = g.scopes.size + 1 := Pool.size_push ..
  have hnew : g'.declared? g.scopes.nextId x = none := by
    rw [declared?_create, declared?, Scopes.scope, Pool.getD_of_not_has g.scopes.not_has_nextId]
    rfl
  have hparent : (g'.scope g.scopes.nextId).parent = some globalScope := by
    show Scope.parent ((Pool.push _ _).getD _ _) = _
    rw [Pool.getD_push, if_pos rfl]
  obtain ⟨fuel, hfuel⟩ := Nat.exists_eq_add_of_le h.size
  show (g'.lookup g.scopes.nextId x).map Found.symbol = _
  rw [lookup, hsize, hfuel, show 2 + fuel + 1 = (fuel + 2) + 1 by omega, lookupAt, hnew]
  simp only [hparent, Option.bind_eq_bind, Option.bind_some]
  rw [lookupAt_global (h.create kind _), global?_create]

/-- What is known of a name, as its symbol has it. -/
inductive Offers (g : Scopes) (x : String) : Standing → Prop
  | means {σ : SymbolId} {k : Constant} (symbol : g.global? x = some σ)
    (state : (g.symbol σ).state = .resolved k.symbolValue) : Offers g x (.means k)
  | awaits {σ : SymbolId} {task : TaskId} (symbol : g.global? x = some σ)
    (state : (g.symbol σ).state = .unresolved (some task)) : Offers g x (.awaits task)
  | lost {σ : SymbolId} (symbol : g.global? x = some σ) (state : (g.symbol σ).state = .failed) :
    Offers g x .lost
  | unknown (symbol : g.global? x = none) : Offers g x .unknown

theorem Offers.shows {standing} (h : g.Offers x standing) (hg : g.Framed) (kind) :
    (g.create kind (some globalScope)).1.Shows g.scopes.nextId x standing := by
  have hlook := @lookup_nested g x hg kind
  have hfound {σ : SymbolId} (hx : g.global? x = some σ) : ∃ found,
      (g.create kind (some globalScope)).1.lookup g.scopes.nextId x = some found ∧ found.symbol = σ := by
    rw [hx] at hlook
    exact Option.map_eq_some_iff.mp hlook
  cases h with
  | means symbol state =>
    obtain ⟨found, hfound, rfl⟩ := hfound symbol
    exact .means hfound state
  | awaits symbol state =>
    obtain ⟨found, hfound, rfl⟩ := hfound symbol
    exact .awaits hfound state
  | lost symbol state =>
    obtain ⟨found, hfound, rfl⟩ := hfound symbol
    exact .lost hfound state
  | unknown symbol =>
    rw [symbol, Option.map_eq_none_iff] at hlook
    exact .unknown hlook

end Scopes

/-! ## Declarations -/

/-- The node declares a constant. -/
def Ast.Defines (ast : Ast) (n : NodeId) (d : Definition) : Prop :=
  ∃ value span, ast.node n = ⟨.decl ⟨d.name, none, some value, false⟩, span⟩ ∧
    ast.Spells value d.init

def symbolAt (i : Nat) : SymbolId := ⟨TypeTable.builtinNames.length + i⟩

theorem symbolAt_inj {i j} : symbolAt i = symbolAt j ↔ i = j := by
  simp [symbolAt]

/-- How far a declaration has come: the state of its task, and that of its symbol. -/
inductive Progress (config : Config) (defs : List Definition) (d : Definition) (task : TaskId) :
    TaskState → SymbolState → Prop
  | queued : Progress config defs d task .queued (.unresolved (some task))
  /-- The declaration for which it waits is one that it mentions. -/
  | waiting {j : Nat} (bound : j < defs.length) (mentions : defs[j].name ∈ d.init.names) :
    Progress config defs d task (.waiting ⟨j⟩) (.unresolved (some task))
  | resolved {k : Constant} (denotes : Denotes config defs d.name k) :
    Progress config defs d task .resolved (.resolved k.symbolValue)
  | failed (undefined : ∀ k, ¬ Denotes config defs d.name k) :
    Progress config defs d task .failed .failed

namespace Tables

/-- The tables list declarations, each with its symbol and its task. -/
structure Lists (ast : Ast) (defs : List Definition) (t : Tables) : Prop where
  framed : t.scopes.Framed
  tasks : t.scheduler.tasks.size = defs.length
  symbols : t.scopes.symbols.size = TypeTable.builtinNames.length + defs.length
  kinds : ∀ i, i < defs.length → t.scheduler.kind ⟨i⟩ = .global (symbolAt i)
  nodes : ∀ i (h : i < defs.length), (t.scopes.symbol (symbolAt i)).scope = globalScope ∧
    ∃ n, (t.scopes.symbol (symbolAt i)).node = some n ∧ ast.Defines n defs[i]
  names : ∀ i (h : i < defs.length), t.scopes.global? defs[i].name = some (symbolAt i)
  /-- Any other name is that of a predefined type, or nothing is known of it. -/
  others : ∀ x, (∀ d ∈ defs, d.name ≠ x) →
    (∃ ty σ, (x, ty) ∈ TypeTable.builtinNames ∧ t.scopes.global? x = some σ ∧
      σ.index < TypeTable.builtinNames.length ∧ (t.scopes.symbol σ).state = .resolved (.type ty)) ∨
    t.scopes.global? x = none ∧ ∀ ty, (x, ty) ∉ TypeTable.builtinNames

namespace Lists

variable {ast : Ast} {defs : List Definition} {t t' : Tables} {i : Nat}

section

variable (h : t.Lists ast defs)

include h

theorem has_task : t.scheduler.Has ⟨i⟩ ↔ i < defs.length := by
  rw [← h.tasks]
  rfl

theorem has_symbol : t.scopes.symbols.Has (symbolAt i) ↔ i < defs.length := by
  show TypeTable.builtinNames.length + i < t.scopes.symbols.size ↔ _
  rw [h.symbols]
  omega

theorem same (scopes : t'.scopes = t.scopes) (scheduler : t'.scheduler = t.scheduler) : t'.Lists ast defs where
  framed := scopes ▸ h.framed
  tasks := scheduler ▸ h.tasks
  symbols := scopes ▸ h.symbols
  kinds := scheduler ▸ h.kinds
  nodes := scopes ▸ h.nodes
  names := scopes ▸ h.names
  others := scopes ▸ h.others

theorem reschedule {scheduler : Scheduler} (has : ∀ id, scheduler.Has id ↔ t.scheduler.Has id)
    (kind : ∀ id, scheduler.kind id = t.scheduler.kind id) :
    ({ t with scheduler } : Tables).Lists ast defs :=
  { h with
    tasks := (Scheduler.size_eq has).trans h.tasks
    kinds i hi := (kind ⟨i⟩).trans (h.kinds i hi) }

theorem nested : (t.nested globalScope).Lists ast defs :=
  { h with
    framed := h.framed.create _ _
    names i hi := (Scopes.global?_create ..).trans (h.names i hi)
    others x hx := by
      show (∃ ty σ, _ ∧ Scopes.global? _ x = some σ ∧ _) ∨ Scopes.global? _ x = none ∧ _
      rw [Tables.nested, Scopes.global?_create]
      exact h.others x hx }

theorem setState (i) (state) :
    ({ t with scopes := t.scopes.setState (symbolAt i) state } : Tables).Lists ast defs :=
  { h with
    framed := ⟨h.framed.size, h.framed.parent, h.framed.outermost⟩
    symbols := (Pool.size_modify ..).trans h.symbols
    nodes j hj := by
      by_cases hij : symbolAt j = symbolAt i
      · rw [← hij]
        show (Scopes.symbol _ (symbolAt j)).scope = _ ∧ _
        rw [Scopes.symbol_setState_self (h.has_symbol.mpr hj)]
        exact h.nodes j hj
      · show (Scopes.symbol _ (symbolAt j)).scope = _ ∧ _
        rw [Scopes.symbol_setState_of_ne hij]
        exact h.nodes j hj
    others x hx := by
      refine (h.others x hx).imp_left ?_
      rintro ⟨ty, σ, hty, hσ, hlow, hstate⟩
      refine ⟨ty, σ, hty, hσ, hlow, ?_⟩
      rwa [Scopes.symbol_setState_of_ne]
      rintro rfl
      exact absurd hlow (by simp [symbolAt]) }

private theorem declareGlobal {d n value span}
    (hn : ast.node n = ⟨.decl ⟨d.name, none, some value, false⟩, span⟩) (hvalue : ast.Spells value d.init)
    (hnew : ∀ d' ∈ defs, d'.name ≠ d.name) (hfresh : ∀ ty, (d.name, ty) ∉ TypeTable.builtinNames) :
    let t' := t.declareGlobal globalScope ⟨d.name, none, some value, false⟩ n span
    t'.Lists ast (defs ++ [d]) ∧ (∀ i, t'.scheduler.task ⟨i⟩ = if i = defs.length then
        ⟨.global (symbolAt i), .queued, 0, []⟩ else t.scheduler.task ⟨i⟩) ∧
      ∀ i, (t'.scopes.symbol (symbolAt i)).state = if i = defs.length then .unresolved (some ⟨i⟩)
        else (t.scopes.symbol (symbolAt i)).state := by
  let symbol : Symbol := ⟨d.name, .global, false, globalScope, some n, span, .unresolved none⟩
  have hfree : t.scopes.declared? globalScope d.name = none := by
    rcases h.others d.name hnew with ⟨ty, σ, hty, -⟩ | ⟨hnone, -⟩
    · exact absurd hty (hfresh ty)
    · exact (Option.or_eq_none_iff.mp hnone).1
  obtain ⟨g, σ, hi⟩ : ∃ g σ, t.scopes.insert symbol = .ok (g, σ) := by
    rw [Scopes.insert, show t.scopes.declared? symbol.scope symbol.name = none from hfree]
    exact ⟨_, _, rfl⟩
  have hσ : σ = symbolAt defs.length := by
    rw [(Scopes.insert_eq_ok hi).2.1]
    exact congrArg Id.mk h.symbols
  subst hσ
  have hfind : t.scheduler.find? (.global (symbolAt defs.length)) = none := by
    cases hf : t.scheduler.find? (.global (symbolAt defs.length)) with
    | none => rfl
    | some task =>
      obtain ⟨hhas, hkind⟩ := Scheduler.find?_eq_some hf
      have hlt := h.has_task.mp hhas
      rw [h.kinds _ hlt, TaskKind.global.injEq, symbolAt_inj] at hkind
      omega
  have hnext : t.scheduler.tasks.nextId = ⟨defs.length⟩ := congrArg Id.mk h.tasks
  have hdeclare : t.declareGlobal globalScope ⟨d.name, none, some value, false⟩ n span =
      { t with
        scheduler := { t.scheduler with
          tasks := t.scheduler.tasks.push ⟨.global (symbolAt defs.length), .queued, 0, []⟩
          fresh := t.scheduler.fresh ++ [⟨defs.length⟩] }
        scopes := g.setState (symbolAt defs.length) (.unresolved (some ⟨defs.length⟩)) } := by
    rw [Tables.declareGlobal, Tables.declare, hi]
    simp only [Scheduler.submit, hfind, hnext]
  have htask (i : Nat) : (t.scheduler.tasks.push
      ⟨.global (symbolAt defs.length), .queued, 0, []⟩).getD (⟨i⟩ : TaskId) default =
      if i = defs.length then ⟨.global (symbolAt i), .queued, 0, []⟩ else t.scheduler.task ⟨i⟩ := by
    rw [Pool.getD_push, hnext]
    by_cases he : i = defs.length
    · rw [he, if_pos rfl, if_pos rfl]
    · rw [if_neg he, if_neg fun h => he (congrArg Id.index h)]
      rfl
  have hhas : g.symbols.Has (symbolAt defs.length) := (Scopes.has_insert hi).mpr (.inr rfl)
  have hsymbol (i : Nat) : (g.setState (symbolAt defs.length)
      (.unresolved (some ⟨defs.length⟩))).symbol (symbolAt i) = if i = defs.length then
        { symbol with state := .unresolved (some ⟨i⟩) } else t.scopes.symbol (symbolAt i) := by
    by_cases hid : i = defs.length
    · rw [hid, Scopes.symbol_setState_self hhas, Scopes.symbol_insert hi, if_pos rfl, if_pos rfl]
    · have hne : symbolAt i ≠ symbolAt defs.length := fun he => hid (symbolAt_inj.mp he)
      rw [Scopes.symbol_setState_of_ne hne, Scopes.symbol_insert hi, if_neg hne, if_neg hid]
  have hglobal (x : String) : (g.setState (symbolAt defs.length) (.unresolved (some ⟨defs.length⟩))).global? x =
        if x = d.name then some (symbolAt defs.length) else t.scopes.global? x :=
    Scopes.global?_insert h.framed rfl hi
  rw [hdeclare]
  refine ⟨⟨?_, ?_, ?_, ?_, ?_, ?_, ?_⟩, ?_, ?_⟩
  · have hframed := h.framed.insert hi
    exact ⟨hframed.size, hframed.parent, hframed.outermost⟩
  · rw [Pool.size_push, h.tasks, List.length_append, List.length_singleton]
  · rw [show (g.setState _ _).symbols.size = g.symbols.size from Pool.size_modify ..,
      (Scopes.insert_eq_ok hi).2.2.1, Pool.size_push, h.symbols, List.length_append,
      List.length_singleton]
    omega
  · intro i hi'
    show Task.kind (Pool.getD _ _ _) = _
    rw [htask]
    split
    · rfl
    · exact h.kinds i (by rw [List.length_append, List.length_singleton] at hi'; omega)
  · intro i hi'
    rw [hsymbol]
    split
    · next he =>
      subst he
      refine ⟨rfl, n, rfl, value, span, ?_, ?_⟩ <;> simpa
    · have hlt : i < defs.length := by rw [List.length_append, List.length_singleton] at hi'; omega
      rw [List.getElem_append_left hlt]
      exact h.nodes i hlt
  · intro i hi'
    rw [hglobal]
    by_cases he : i = defs.length
    · subst he
      simp
    · have hlt : i < defs.length := by rw [List.length_append, List.length_singleton] at hi'; omega
      rw [List.getElem_append_left hlt, if_neg (hnew _ (List.getElem_mem hlt))]
      exact h.names i hlt
  · intro x hx
    have hne : x ≠ d.name := fun he => hx d (by simp) he.symm
    rw [hglobal, if_neg hne]
    refine (h.others x fun d' hd' => hx d' (List.mem_append_left _ hd')).imp_left ?_
    rintro ⟨ty, σ, hty, hσ, hlow, hstate⟩
    refine ⟨ty, σ, hty, hσ, hlow, ?_⟩
    have hne' : σ ≠ symbolAt defs.length := by
      rintro rfl
      exact absurd hlow (by simp [symbolAt])
    rwa [Scopes.symbol_setState_of_ne hne', Scopes.symbol_insert hi, if_neg hne']
  · exact htask
  · intro i
    rw [hsymbol]
    split <;> rfl

end

private theorem initial (ast) : Tables.initial.Lists ast [] where
  framed := ⟨by decide +kernel, by decide +kernel, by decide +kernel⟩
  tasks := rfl
  symbols := by decide +kernel
  kinds i hi := absurd hi (Nat.not_lt_zero i)
  nodes i hi := absurd hi (Nat.not_lt_zero i)
  names i hi := absurd hi (Nat.not_lt_zero i)
  others x _ := Scopes.global?_predefined (g := .initial) (by decide +kernel) (by decide +kernel)
    (by decide +kernel) x

end Lists

/-- Declarations are listed, and none has been looked at. -/
structure Fresh (ast : Ast) (defs : List Definition) (t : Tables) : Prop where
  lists : t.Lists ast defs
  tasks : ∀ i, i < defs.length → t.scheduler.task ⟨i⟩ = ⟨.global (symbolAt i), .queued, 0, []⟩
  unresolved : ∀ i, i < defs.length →
    (t.scopes.symbol (symbolAt i)).state = .unresolved (some ⟨i⟩)

theorem Fresh.declareGlobal {ast : Ast} {defs} {t : Tables} {d : Definition} {n value span} (h : t.Fresh ast defs)
    (hn : ast.node n = ⟨.decl ⟨d.name, none, some value, false⟩, span⟩) (hvalue : ast.Spells value d.init)
    (hd : Wellnamed (defs ++ [d])) :
    (t.declareGlobal globalScope ⟨d.name, none, some value, false⟩ n span).Fresh ast (defs ++ [d]) := by
  have hnew : ∀ d' ∈ defs, d'.name ≠ d.name := by
    have hnodup := hd.distinct
    rw [List.map_append, List.nodup_append] at hnodup
    intro d' hd'
    exact hnodup.2.2 d'.name (List.mem_map_of_mem hd') d.name (by simp)
  obtain ⟨hlists, htask, hsymbol⟩ := h.lists.declareGlobal hn hvalue hnew (hd.not_predefined (by simp))
  refine ⟨hlists, fun i hi => ?_, fun i hi => ?_⟩ <;> rw [List.length_append, List.length_singleton] at hi
  · rw [htask]
    split
    · rfl
    · exact h.tasks i (by omega)
  · rw [hsymbol]
    split
    · rfl
    · exact h.unresolved i (by omega)

theorem declareItems_fresh {ast : Ast} {items defs} (hitems : List.Forall₂ ast.Defines items defs)
    (hd : Wellnamed defs) (depth) :
    ∃ t, declareItems ast (depth + 1) globalScope items .initial = .ok () t ∧ t.Fresh ast defs := by
  suffices hmore : ∀ (before : List Definition) (t0 : Tables), t0.Fresh ast before →
      Wellnamed (before ++ defs) → ∃ t, declareItems ast (depth + 1) globalScope items t0 = .ok () t ∧
        t.Fresh ast (before ++ defs) by
    have hnone {P : Nat → Prop} (i : Nat) (hi : i < 0) : P i := absurd hi (Nat.not_lt_zero i)
    exact hmore [] .initial ⟨.initial ast, hnone, hnone⟩ hd
  clear hd
  induction hitems with
  | nil =>
    intro before t0 h0 _
    exact ⟨t0, rfl, by rwa [List.append_nil]⟩
  | @cons n d items defs hn _ ih =>
    intro before t0 h0 hd
    obtain ⟨value, span, hnode, hvalue⟩ := hn
    rw [List.append_cons] at hd ⊢
    have hfirst : Wellnamed (before ++ [d]) := by
      refine ⟨?_, fun d' hd' => hd.fresh d' (List.mem_append_left _ hd')⟩
      have hnodup := hd.distinct
      rw [List.map_append] at hnodup
      exact hnodup.of_append_left
    have hstep := h0.declareGlobal hnode hvalue hfirst
    obtain ⟨t, ht, hfresh⟩ := ih _ _ hstep hd
    refine ⟨t, ?_, hfresh⟩
    rw [← ht]
    simp only [declareItems, List.forM, hnode]
    rfl

end Tables

end Comptime
