import Comptime.Proofs.Footprint.Task
import Comptime.Proofs.Session.Owed

/-!
# What has been declared stays

Tasks are run again and again until they are done, and each run starts from the beginning. What a run has
declared is noted, so that the next one finds it. `Tables.Stable` says what that comes to: no note is ever
made under a key that has one, each function has its note, a struct its one type in a function, a global
the symbol that produced it; and no body is there unless its task is done.

`declarations_stable` says so of everything that happens to a session.
-/

namespace Comptime

/-! ## Tasks that are done -/

namespace Scheduler

variable {p p' : Phase} {s s' : Scheduler} {k : TaskKind} {a b : TaskId}

def Done (s : Scheduler) (k : TaskKind) : Prop := ∃ a, s.Has a ∧ s.kind a = k ∧ s.state a = .resolved

theorem Step.kind (hs : Step (p, s) (p', s')) (h : s.Has a) : s'.kind a = s.kind a := by
  cases hs with
  | submit k => exact (s.kind_submit k).2.2 a h
  | take => exact s.kind_next a
  | stop => exact s.kind_next a
  | resolve t => exact s.kind_resolve t a
  | fail t => exact s.kind_fail t a
  | park t => exact s.kind_park t a _
  | failMember m => exact s.kind_fail m a
  | again | cycle | broken => rfl

theorem kind_of_steps {x y : Phase × Scheduler} (h : Steps x y) (ha : x.2.Has a) : y.2.kind a = x.2.kind a := by
  induction h with
  | refl => rfl
  | tail hxy hs ih => exact (hs.kind (has_of_steps hxy ha)).trans ih

theorem Done.steps (hd : s.Done k) (h : Steps (p, s) (p', s')) (ha : Accounted p s) : s'.Done k := by
  obtain ⟨a, has, hk, hstate⟩ := hd
  obtain ⟨has', hstate'⟩ := ha.steps_final h has (not_open_iff.mpr (.inl hstate))
  exact ⟨a, has', (kind_of_steps h has).trans hk, hstate'.trans hstate⟩

theorem Done.fail (hd : s.Done k) (ha : Accounted p s) (hb : s.state b ≠ .resolved) : (s.fail b).1.Done k := by
  obtain ⟨a, has, hk, hstate⟩ := hd
  have hfinal := ha.fail_final hb (not_open_iff.mpr (.inl hstate))
  exact ⟨a, ((s.fail_fails b).has a).mpr has, (s.kind_fail b a).trans hk, hfinal.trans hstate⟩

theorem Distinct.not_done (h : s.Distinct) (ha : s.Has a) (hn : s.state a ≠ .resolved) : ¬ s.Done (s.kind a) := by
  rintro ⟨b, hb, hk, hr⟩
  obtain rfl := h b a hb ha hk
  exact hn hr

theorem Distinct.submits (h : s.Distinct) (hs : Scheduler.Submits s s') : s'.Distinct := by
  induction hs with
  | refl => exact h
  | tail _ hs ih =>
    obtain ⟨k, rfl⟩ := hs
    exact ih.submit k

end Scheduler

/-! ## Stable tables -/

/-- No scope has changed but the outermost one of the program. -/
def Scopes.Lasts (g g' : Scopes) : Prop := ∀ c, g.scopes.Has c →
  g'.scopes.Has c ∧ (c ≠ Analysis.globalScope → g'.scope c = g.scope c)

theorem Scopes.Lasts.refl (g : Scopes) : g.Lasts g := fun _ hc => ⟨hc, fun _ => rfl⟩

theorem Scopes.Lasts.trans {g g' : Scopes} {g''} (h : g.Lasts g') (h' : g'.Lasts g'') : g.Lasts g'' := by
  intro c hc
  obtain ⟨hc', he⟩ := h c hc
  obtain ⟨hc'', he'⟩ := h' c hc'
  exact ⟨hc'', fun hne => (he' hne).trans (he hne)⟩

/-- The symbol is bound to the global, which has been made from its declaration. -/
structure Symbol.Produces (ast : Ast) (s : Symbol) (id : GlobalId) (g : Global) : Prop where
  decl : ∃ n d, s.node = some n ∧ ast.node n = ⟨.decl d, g.span⟩ ∧ g.name = d.name ∧
    g.mutable = d.mutable
  bound : s.state = .resolved (if g.mutable then .global id else .const g.ty g.value)

namespace Tables

/-- Every global has been produced by a symbol of its own, whose task is done. -/
def Producers (ast : Ast) (done : TaskKind → Prop) (t : Tables) : Prop :=
  ∃ producer : GlobalId → SymbolId, ∀ g, t.code.globals.Has g →
    (t.scopes.symbol (producer g)).Produces ast g (t.code.globals.getD g default) ∧
    done (.global (producer g)) ∧ ∀ g', t.code.globals.Has g' → producer g' = producer g → g' = g

/-- No function that is to have a body has one before its task is done. -/
def BodiesDone (done : TaskKind → Prop) (c : Code) : Prop :=
  ∀ f, c.fns.Has f → (c.function f).native = none →
    (c.function f).Bodiless ∨ (c.function f).state = .analyzed ∧ done (.body f)

/-- The tables differ in their scopes, tasks and diagnostics at most. -/
def SameNotes (t t' : Tables) : Prop :=
  { t' with scopes := t.scopes, scheduler := t.scheduler, diagnostics := t.diagnostics } = t

/-- Tables that have come from others by runs of tasks. -/
structure Stable (t0 : Tables) (ast : Ast) (done : TaskKind → Prop) (t : Tables) : Prop where
  scopes : t0.scopes.Lasts t.scopes
  sources : ∀ f source, t0.sources.get? f = some source → t.sources.get? f = some source
  literals : Records t0.fnLiterals t.fnLiterals
  specializations : Records t0.specializations t.specializations
  nominals : Records t0.nominals t.nominals
  noted : t.Noted
  nominalNotes : NominalNotes ast t
  bodies : BodiesDone done t.code
  globals : t.Producers ast done

variable {t0 t t' : Tables} {ast ast' : Ast} {done done' : TaskKind → Prop} {f : FnId}
  {symbol : SymbolId}

/-! ### Globals -/

theorem Producers.keep (h : t.Producers ast done) (hdone : ∀ k, done k → done' k)
    (nodes : ∀ n d span, ast.node n = ⟨.decl d, span⟩ → ast'.node n = ⟨.decl d, span⟩)
    (globals : t'.code.globals = t.code.globals)
    (symbol : ∀ id, t.scopes.symbols.Has id → done (.global id) →
      t'.scopes.symbol id = t.scopes.symbol id) : t'.Producers ast' done' := by
  obtain ⟨producer, hp⟩ := h
  refine ⟨producer, fun g hg => ?_⟩
  rw [globals] at hg ⊢
  obtain ⟨hproduces, hd, hsole⟩ := hp g hg
  obtain ⟨n, d, hnode, hdecl, hname⟩ := hproduces.decl
  rw [symbol _ (Scopes.has_of_node hnode) hd]
  refine ⟨⟨?_, hproduces.bound⟩, hdone _ hd, hsole⟩
  exact ⟨n, d, hnode, nodes n d _ hdecl, hname⟩

theorem Producers.store (h : t.Producers ast done) (has : t.scopes.symbols.Has symbol)
    (hnew : ¬ done (.global symbol)) {g n d} (node : (t.scopes.symbol symbol).node = some n)
    (decl : ast.node n = ⟨.decl d, g.span⟩) (name : g.name = d.name) (mutable : g.mutable = d.mutable) :
    (t.storing symbol g).Producers ast fun k => done k ∨ k = .global symbol := by
  obtain ⟨producer, hp⟩ := h
  have hne {i : GlobalId} (hi : t.code.globals.Has i) : producer i ≠ symbol := by
    intro he
    have hd := (hp i hi).2.1
    rw [he] at hd
    exact hnew hd
  refine ⟨fun i => if i = t.code.globals.nextId then symbol else producer i, fun i hi => ?_⟩
  show ((t.scopes.setState symbol _).symbol _).Produces ast i ((t.code.globals.push g).getD i default) ∧ _
  beta_reduce
  rcases Pool.has_push.mp hi with hold | rfl
  · obtain ⟨hproduces, hd, hsole⟩ := hp i hold
    rw [if_neg hold.ne_nextId, Pool.getD_push_of_has hold, Scopes.symbol_setState_of_ne (hne hold)]
    refine ⟨hproduces, .inl hd, fun j hj he => ?_⟩
    rcases Pool.has_push.mp hj with hj | rfl
    · rw [if_neg hj.ne_nextId] at he
      exact hsole j hj he
    · rw [if_pos rfl] at he
      exact absurd he.symm (hne hold)
  · rw [if_pos rfl, Pool.getD_push, if_pos rfl, Scopes.symbol_setState_self has]
    refine ⟨⟨⟨n, d, node, decl, name, mutable⟩, rfl⟩, .inr rfl, fun j hj he => ?_⟩
    rcases Pool.has_push.mp hj with hj | rfl
    · rw [if_neg hj.ne_nextId] at he
      exact absurd he (hne hj)
    · rfl

/-! ### Bodies -/

theorem BodiesDone.mono {c} (h : BodiesDone done c) (hdone : ∀ k, done k → done' k) : BodiesDone done' c :=
  fun f hf hn => (h f hf hn).imp_right fun hd => ⟨hd.1, hdone _ hd.2⟩

theorem BodiesDone.develop (h : BodiesDone done t.code) (d : t.Develops ast t') : BodiesDone done t'.code := by
  intro f hf hn
  by_cases hold : t.code.fns.Has f
  · rw [(d.function hold).2] at hn ⊢
    exact h f hold hn
  · exact .inl (d.fresh hf hold).toBodiless

theorem BodiesDone.modify {c} {change : Function → Function} (h : BodiesDone done c)
    (native : ∀ func : Function, (change func).native = func.native)
    (changed : ∀ func : Function, func.Bodiless ∨ done (.body f) →
      (change func).Bodiless ∨ (change func).state = .analyzed ∧ done (.body f)) :
    BodiesDone done (c.modifyFn f change) := by
  intro i hi hn
  have hold : c.fns.Has i := Pool.has_modify.mp hi
  by_cases he : i = f
  · subst he
    rw [Code.function, Code.modifyFn, Pool.getD_modify_self hold] at hn ⊢
    rw [native] at hn
    exact changed _ ((h i hold hn).imp_right And.right)
  · rw [Code.function, Code.modifyFn, Pool.getD_modify_of_ne he] at hn ⊢
    exact h i hold hn

/-! ### Changes of the tables -/

namespace Stable

section

variable (h : Stable t0 ast done t)

include h

theorem mono (hdone : ∀ k, done k → done' k) : Stable t0 ast done' t :=
  { h with
    bodies := h.bodies.mono hdone
    globals := h.globals.keep hdone (fun _ _ _ hn => hn) rfl fun _ _ _ => rfl }

theorem restart : Stable t ast done t :=
  { h with
    scopes := .refl _
    sources := fun _ _ => id
    literals := .refl _
    specializations := .refl _
    nominals := .refl _ }

theorem announce (same : t.SameNotes t') (scopes : t.scopes.Lasts t'.scopes)
    (symbol : ∀ id, t.scopes.symbols.Has id → done (.global id) →
      t'.scopes.symbol id = t.scopes.symbol id) : Stable t0 ast done t' := by
  cases t
  cases t'
  cases same
  exact { h with
    scopes := h.scopes.trans scopes
    noted := h.noted.ofSame rfl rfl rfl rfl
    nominalNotes := h.nominalNotes.ofSame (.refl _) rfl
    globals := h.globals.keep (fun _ => id) (fun _ _ _ hn => hn) rfl symbol }

theorem adds {own} (a : t.Adds ast own t') (open' : ∀ s, own = some s → ¬ done (.global s)) :
    Stable t0 ast done t' where
  scopes := h.scopes.trans fun _ hc => ⟨a.scopes.hasScope hc, fun _ => a.scopes.scope hc⟩
  sources f source hs := a.develops.sources (h.sources f source hs)
  literals := h.literals.trans a.develops.literals
  specializations := h.specializations.trans a.develops.specializations
  nominals := h.nominals.trans a.develops.nominals
  noted := a.develops.noted h.noted
  nominalNotes := a.develops.nominalNotes h.nominalNotes
  bodies := h.bodies.develop a.develops
  globals := by
    refine h.globals.keep (fun _ => id) (fun _ _ _ hn => hn) a.develops.globals fun id hid hd => ?_
    exact a.scopes.symbol hid fun he => open' id he hd

theorem withFn {change : Function → Function}
    (bodies : BodiesDone done (t.code.modifyFn f change)) : Stable t0 ast done (t.withFn f change) :=
  { h with
    noted := by
      have hids : (t.code.fns.modify f change).ids = t.code.fns.ids := by
        simp [Pool.ids, Pool.modify]
      have hsize : (t.code.fns.modify f change).size = t.code.fns.size := by
        simp [Pool.size, Pool.modify]
      exact ⟨hids ▸ h.noted.ids, h.noted.sources.trans hsize.symm, h.noted.literals⟩
    nominalNotes := h.nominalNotes.ofSame (.refl _) rfl
    bodies
    globals := h.globals.keep (fun _ => id) (fun _ _ _ hn => hn) rfl fun _ _ _ => rfl }

theorem setBody (hf : ¬ done (.body f)) (state) :
    Stable t0 ast done (t.withFn f fun func => { func with state }) := by
  refine h.withFn (h.bodies.modify (fun _ => rfl) fun func hfunc => .inl ?_)
  have hb := hfunc.resolve_right hf
  exact ⟨hb.paramSlots, hb.slots, hb.blocks, hb.instrs⟩

private theorem install (hf : done (.body f)) (body) : Stable t0 ast done (t.installing f body) :=
  h.withFn (h.bodies.modify (fun _ => rfl) fun _ _ => .inr ⟨rfl, hf⟩)

theorem setSymbol (hs : ¬ done (.global symbol)) (state) :
    Stable t0 ast done (t.withScopes (t.scopes.setState symbol state)) := by
  refine h.announce rfl (.refl _) fun id _ hd => Scopes.symbol_setState_of_ne ?_
  rintro rfl
  exact hs hd

theorem works {k} (hk : ¬ done k) {finished} (w : t.Works ast k finished t') :
    Stable t0 ast (fun k' => done k' ∨ finished = true ∧ k' = k) t' := by
  have hmono {t1 : Tables} (h : Stable t0 ast done t1) :
      Stable t0 ast (fun k' => done k' ∨ finished = true ∧ k' = k) t1 := h.mono fun _ => .inl
  cases w with
  | adds a =>
    refine hmono (h.adds a fun s hs => ?_)
    cases k with
    | global symbol =>
      cases hs
      exact hk
    | body f => cases hs
    | eval n => cases hs
  | halted a => exact hmono ((h.setBody hk .analyzing).adds a nofun)
  | installed body a =>
    exact (hmono ((h.setBody hk .analyzing).adds a nofun)).install (.inr ⟨rfl, rfl⟩) body
  | @stored symbol n d span t1 a node decl ty v =>
    have has : t.scopes.symbols.Has symbol := Scopes.has_of_node node
    have h1 : Stable t0 ast done t1 := h.adds a fun s hs => by
      cases hs
      exact hk
    have hglobals := h1.globals.store (g := ⟨d.name, ty, v, d.mutable, span⟩)
      (a.scopes.hasSymbol has) hk ((a.scopes.node has).trans node) decl rfl rfl
    have hbodies : BodiesDone (fun k' => done k' ∨ true = true ∧ k' = .global symbol) t1.code :=
      h1.bodies.mono fun _ => .inl
    exact { h1 with
      noted := h1.noted.ofSame rfl rfl rfl rfl
      nominalNotes := h1.nominalNotes.ofSame (.refl _) rfl
      bodies := hbodies
      globals := hglobals.keep (fun k hk => hk.imp_right fun he => ⟨rfl, he⟩) (fun _ _ _ hn => hn) rfl
        fun _ _ _ => rfl }

end

/-! ### Ends of runs -/

open Scheduler (Accounted Phase)

variable {p : Phase} {task : TaskId}

theorem submitted {s k0} (h : Stable t0 ast (fun k => s.Done k ∨ false = true ∧ k = k0) t) (ha : Accounted p s)
    (hs : Scheduler.Submits s t.scheduler) : Stable t0 ast t.scheduler.Done t := by
  refine h.mono fun k hk => ?_
  rcases hk with hk | ⟨hf, -⟩
  · exact hk.steps (Scheduler.steps_submits hs) ha
  · cases hf

private theorem markFailed (h : Stable t0 ast done t) (hk : ¬ done (t.scheduler.kind task)) :
    Stable t0 ast done (t.markFailed task) := by
  unfold Tables.markFailed
  split
  · next symbol he =>
    rw [he] at hk
    exact h.setSymbol hk .failed
  · next f he =>
    rw [he] at hk
    exact h.setBody hk .failed
  · exact h

theorem fail (h : Stable t0 ast t.scheduler.Done t) (ha : Accounted p t.scheduler)
    (hd : t.scheduler.Distinct) (has : t.scheduler.Has task) (hn : t.scheduler.state task ≠ .resolved) :
    Stable t0 ast (t.fail task).scheduler.Done (t.fail task) := by
  have hopen : ∀ j ∈ task :: (t.scheduler.fail task).2, ¬ t.scheduler.Done ((t.scheduler.fail task).1.kind j) := by
    intro j hj
    rw [Scheduler.kind_fail]
    rcases (t.scheduler.mem_fail task j).mp hj with rfl | ⟨hbefore, hafter⟩
    · exact hd.not_done has hn
    · refine hd.not_done (Scheduler.has_of_state_ne hbefore) fun hr => ?_
      rw [ha.fail_final hn (Scheduler.not_open_iff.mpr (.inl hr)), hr] at hafter
      cases hafter
  have hfold (tasks : List TaskId) {t1 : Tables} (h1 : Stable t0 ast t.scheduler.Done t1)
      (hopen : ∀ j ∈ tasks, ¬ t.scheduler.Done (t1.scheduler.kind j)) :
      Stable t0 ast t.scheduler.Done (tasks.foldl Tables.markFailed t1) := by
    induction tasks generalizing t1 with
    | nil => exact h1
    | cons j tasks ih =>
      refine ih (h1.markFailed (hopen j List.mem_cons_self)) fun i hi => ?_
      rw [scheduler_markFailed]
      exact hopen i (List.mem_cons_of_mem j hi)
  have hstart : Stable t0 ast t.scheduler.Done { t with scheduler := (t.scheduler.fail task).1 } :=
    h.announce rfl (.refl _) fun _ _ _ => rfl
  refine Stable.mono (hfold _ hstart hopen) fun k hk => ?_
  rw [scheduler_fail]
  exact hk.fail ha hn

theorem postpone (h : Stable t0 ast t.scheduler.Done t) (ha : Accounted (.running task) t.scheduler)
    (hd : t.scheduler.Distinct) (blocker) :
    Stable t0 ast (t.postpone task blocker).scheduler.Done (t.postpone task blocker) := by
  have hr : t.scheduler.state task = .queued := ha.running task rfl
  have has : t.scheduler.Has task := Scheduler.has_of_state_ne (by simp [hr])
  have hn : t.scheduler.state task ≠ .resolved := by simp [hr]
  obtain ⟨t1, ht1, he⟩ := t.postpone_eq task blocker
  have hreset : t1.scheduler = t.scheduler ∧ Stable t0 ast t.scheduler.Done t1 := by
    rcases ht1 with rfl | ⟨f, hk, rfl⟩
    · exact ⟨rfl, h⟩
    · have hopen := hd.not_done has hn
      rw [hk] at hopen
      exact ⟨rfl, h.setBody hopen .pending⟩
  obtain ⟨same, h1⟩ := hreset
  rw [← same] at h1 ha hd has hn
  rw [he]
  split
  · exact h1.fail ha hd has hn
  · next hb =>
    have hparked : Stable t0 ast t1.scheduler.Done
        { t1 with scheduler := t1.scheduler.park task blocker } :=
      h1.announce rfl (.refl _) fun _ _ _ => rfl
    exact hparked.mono fun k hk =>
      hk.steps (.single (.park task (Scheduler.has_of_state_ne hb))) ha

private theorem breakCycle (h : Stable t0 ast t.scheduler.Done t) (ha : Accounted .stuck t.scheduler)
    (hd : t.scheduler.Distinct) {cycle} (found : t.scheduler.findCycle = some cycle) :
    Stable t0 ast (t.breakCycle ast cycle).scheduler.Done (t.breakCycle ast cycle) := by
  have hfold (members : List TaskId) {t : Tables} (h : Stable t0 ast t.scheduler.Done t)
      (ha : Accounted (.breaking members) t.scheduler) (hd : t.scheduler.Distinct) :
      Stable t0 ast (members.foldl Tables.fail t).scheduler.Done (members.foldl Tables.fail t) := by
    induction members generalizing t with
    | nil => exact h
    | cons m members ih =>
      obtain ⟨has, hstate⟩ := ha.breaking _ rfl m List.mem_cons_self
      have hn : t.scheduler.state m ≠ .resolved := by
        rcases hstate with hf | hc
        · simp [hf]
        · obtain ⟨b, hb, -⟩ := Scheduler.onCycle_iff.mp hc
          rw [hb]
          simp
      refine ih (h.fail ha hd has hn) ?_ ?_
      · rw [scheduler_fail]
        exact ha.step (.failMember m members)
      · rw [scheduler_fail]
        exact hd.same (t.scheduler.fail_fails m).has (t.scheduler.kind_fail m)
  have hreported : Stable t0 ast t.scheduler.Done (t.emit (t.cycleReport ast cycle)) :=
    h.announce rfl (.refl _) fun _ _ _ => rfl
  exact hfold cycle hreported (ha.step (.cycle found)) hd

end Stable

/-! ### Declarations -/

/-- Names are announced whose tasks are still to be run, in a scope and in new ones. -/
structure Announces (scope : ScopeId) (t t' : Tables) : Prop where
  scopes : ∀ c, t.scopes.scopes.Has c →
    t'.scopes.scopes.Has c ∧ (c ≠ scope → t'.scopes.scope c = t.scopes.scope c)
  symbol : ∀ id, t.scopes.symbols.Has id →
    t'.scopes.symbols.Has id ∧ t'.scopes.symbol id = t.scopes.symbol id
  same : t.SameNotes t'

namespace Announces

variable {t'' : Tables} {scope : ScopeId}

protected theorem refl (t) : Announces scope t t :=
  ⟨fun _ h => ⟨h, fun _ => rfl⟩, fun _ h => ⟨h, rfl⟩, rfl⟩

theorem inner {inner} (h : Announces scope t t') (new : ∀ c, t.scopes.scopes.Has c → c = inner → c = scope)
    (h' : Announces inner t' t'') : Announces scope t t'' where
  scopes c hc := by
    obtain ⟨hc', he⟩ := h.scopes c hc
    obtain ⟨hc'', he'⟩ := h'.scopes c hc'
    exact ⟨hc'', fun hs => (he' fun hi => hs (new c hc hi)).trans (he hs)⟩
  symbol id hid := by
    obtain ⟨has, he⟩ := h.symbol id hid
    exact ⟨(h'.symbol id has).1, (h'.symbol id has).2.trans he⟩
  same := by
    have hsame := h.same
    rw [SameNotes, ← h'.same] at hsame
    exact hsame

protected theorem trans (h : Announces scope t t') (h' : Announces scope t' t'') : Announces scope t t'' :=
  h.inner (fun _ _ he => he) h'

theorem enter {s scopes id} (h : t.scopes.insert s = .ok (scopes, id)) (state scheduler) :
    Announces s.scope t { t with scopes := scopes.setState id state, scheduler } := by
  obtain ⟨hsize, hscope⟩ := Scopes.scope_insert h
  refine ⟨fun c hc => ⟨?_, fun hne => ?_⟩,
    fun j hj => ⟨Scopes.has_setState.mpr ((Scopes.has_insert h).mpr (.inl hj)), ?_⟩,
    rfl⟩
  · show c.index < scopes.scopes.size
    rw [hsize]
    exact hc
  · exact (hscope c).trans (if_neg fun h => hne h.1)
  · have hne : j ≠ id := by
      rw [(Scopes.insert_eq_ok h).2.1]
      exact hj.ne_nextId
    show (scopes.setState id state).symbol j = t.scopes.symbol j
    rw [Scopes.symbol_setState_of_ne hne, Scopes.symbol_insert h, if_neg hne]

private theorem declareGlobal (t scope d node span) : Announces scope t (t.declareGlobal scope d node span) := by
  unfold Tables.declareGlobal declare
  cases hi : t.scopes.insert ⟨d.name, .global, d.mutable, scope, some node, span, .unresolved none⟩ with
  | ok r => exact enter hi _ _
  | error previous =>
    exact ⟨fun _ h => ⟨h, fun _ => rfl⟩, fun _ h => ⟨h, rfl⟩, rfl⟩

private theorem declareScope (t scope) (name) (node span) :
    Announces scope t (t.declareScope scope name node span).1 ∧
      ¬ t.scopes.scopes.Has (t.declareScope scope name node span).2 := by
  have hcreate : Announces scope t (t.withScopes (t.scopes.create .named (some scope)).1) := by
    refine ⟨fun c hc => ⟨hc.push _, fun _ => ?_⟩, fun _ h => ⟨h, rfl⟩, rfl⟩
    exact Pool.getD_push_of_has hc _ _
  unfold Tables.declareScope declare
  dsimp only
  cases hi : (t.scopes.create .named (some scope)).1.insert
    ⟨name, .global, false, scope, some node, span, .unresolved none⟩ with
  | ok r =>
    have hentered := enter (t := t.withScopes (t.scopes.create .named (some scope)).1) hi
      (.resolved (.scope (t.scopes.create .named (some scope)).2)) t.scheduler
    exact ⟨hcreate.trans hentered, t.scopes.scopes.not_has_nextId⟩
  | error previous =>
    refine ⟨hcreate.trans ?_, t.scopes.scopes.not_has_nextId⟩
    exact ⟨fun _ h => ⟨h, fun _ => rfl⟩, fun _ h => ⟨h, rfl⟩, rfl⟩

theorem declareItems (ast) (depth) (scope items t) :
    Announces scope t (stateAfter (declareItems ast depth scope items) t) := by
  induction depth generalizing scope items t with
  | zero => exact .refl t
  | succ depth ih =>
    refine stateAfter_forM .refl .trans (fun n t => ?_) items t
    dsimp only
    split
    · exact declareGlobal t scope _ n _
    · next name items span _ =>
      obtain ⟨hann, hnew⟩ := declareScope t scope name n span
      rw [stateAfter_bind_ok (show (modifyGet _ : EStateM Failure Tables ScopeId) t = .ok
        (t.declareScope scope name n span).2 (t.declareScope scope name n span).1 from rfl)]
      exact hann.inner (fun _ hc he => absurd (he ▸ hc) hnew) (ih _ items _)
    · exact .refl t

end Announces

end Tables

/-! ## Sessions -/

namespace Session

open Scheduler (Accounted)
open Analysis (Over)

variable {s s' : Session} {t0 : Tables} {task : TaskId}

def Stable (t0 : Tables) (s : Session) : Prop :=
  Tables.Stable t0 s.ast s.tables.scheduler.Done s.tables

theorem runTask_works (s : Session) (task) :
    Over s.code.Formed (s.tables.Works s.ast (s.tables.scheduler.kind task)) (s.runTask task) :=
  Analysis.runTask_works _ ⟨s.config, s.host, s.ast, task, none⟩ s.tables

theorem Stable.runTask (h : s.Stable t0) (hs : s.tables.Sound) (hr : s.tables.Running task)
    (hd : s.tables.scheduler.Distinct) : Over s.code.Formed (fun finished t =>
      Scheduler.Submits s.tables.scheduler t.scheduler ∧ Tables.Stable t0 s.ast
        (fun k => s.tables.scheduler.Done k ∨ finished = true ∧ k = s.tables.scheduler.kind task) t)
      (s.runTask task) := by
  have hopen : ¬ s.tables.scheduler.Done (s.tables.scheduler.kind task) :=
    hd.not_done hr.has (by rw [hr]; simp)
  have hworks := s.runTask_works task
  have hspec := runTask_spec task hs hr
  generalize s.runTask task = r at hworks hspec ⊢
  cases hworks with
  | ok w => exact .ok ⟨hspec.1.submits, h.works hopen w⟩
  | error w guided => exact .error ⟨hspec.submits, h.works hopen w⟩ guided

theorem Stable.settle (h : s.Stable t0) (hs : s.tables.Sound)
    (ha : Accounted (.running task) s.tables.scheduler) (hd : s.tables.scheduler.Distinct)
    (hsettle : settle task (s.runTask task) s = .ok () s') : s'.Stable t0 := by
  have hr : s.tables.Running task := ha.running task rfl
  have hrun := h.runTask hs hr hd
  obtain ⟨t', _, rfl, hends⟩ := ends_of_settle hsettle
  unfold Stable
  dsimp only
  generalize s.runTask task = r at hrun hends
  cases hrun with
  | @ok t ht =>
    cases hends
    obtain ⟨hsub, ht⟩ := ht
    have ha' := ha.steps (Scheduler.steps_submits hsub)
    have has := (hsub.keeps hr.has)
    have hresolved : Tables.Stable t0 s.ast (fun k => s.tables.scheduler.Done k ∨ true = true ∧
        k = s.tables.scheduler.kind task) { t with scheduler := t.scheduler.resolve task } :=
      ht.announce rfl (.refl _) fun _ _ _ => rfl
    refine hresolved.mono fun k hk => ?_
    rcases hk with hk | ⟨-, rfl⟩
    · exact hk.steps ((Scheduler.steps_submits hsub).tail (.resolve task)) ha
    · obtain ⟨hhas, -, hstate, -⟩ := Scheduler.resolve_spec has.1
      refine ⟨task, (hhas task).mpr has.1, ?_, ?_⟩
      · exact (t.scheduler.kind_resolve task task).trans has.2.2
      · rw [hstate, if_pos rfl]
  | @error e t ht =>
    obtain ⟨hsub, ht⟩ := ht
    have ha' := ha.steps (Scheduler.steps_submits hsub)
    have hd' := hd.submits hsub
    have has := (hsub.keeps hr.has)
    have ht' := ht.submitted ha hsub
    cases hends with
    | @parked blocker => exact ht'.postpone ha' hd' blocker
    | @failed _ _ diagnostics =>
      have hreported : Tables.Stable t0 s.ast t.scheduler.Done { t with diagnostics } :=
        ht'.announce rfl (.refl _) fun _ _ _ => rfl
      refine hreported.fail ha' hd' has.1 ?_
      show t.scheduler.state task ≠ .resolved
      rw [has.2.1, hr]
      simp

private theorem node_pushNodes (s : Session) (nodes) {n} (h : s.ast.Has n) :
    (s.pushNodes nodes).ast.node n = s.ast.node n := by
  have hfold (nodes : List Node) {ast : Ast} (h : ast.Has n) :
      Ast.node (nodes.foldl Pool.push ast) n = ast.node n := by
    induction nodes generalizing ast with
    | nil => rfl
    | cons node nodes ih => exact (ih (h.push node)).trans (Pool.getD_push_of_has h _ _)
  exact hfold nodes h

theorem Stable.pushNodes (h : s.Stable t0) (nodes) : (s.pushNodes nodes).Stable t0 := by
  have hnode (n : NodeId) (hn : s.ast.node n ≠ default) :
      (s.pushNodes nodes).ast.node n = s.ast.node n := by
    refine s.node_pushNodes nodes (Decidable.byContradiction fun hh => hn ?_)
    exact Pool.getD_of_not_has hh default
  have hkind (n : NodeId) (hn : s.ast.kind n ≠ (default : Node).kind) :
      (s.pushNodes nodes).ast.kind n = s.ast.kind n :=
    congrArg Node.kind (hnode n fun he => hn (congrArg Node.kind he))
  refine { h with
    nominalNotes := ⟨h.nominalNotes.types, h.nominalNotes.ids, fun e he => ?_, fun key ty ty' hk => ?_⟩
    globals := h.globals.keep (fun _ => id) (fun n d span hn => ?_) rfl fun _ _ _ => rfl }
  · rcases h.nominalNotes.kinds e he with ⟨members, hk⟩ | ⟨base, variants, hk⟩
    · exact .inl ⟨members, (hkind _ (by rw [hk]; nofun)).trans hk⟩
    · exact .inr ⟨base, variants, (hkind _ (by rw [hk]; nofun)).trans hk⟩
  · intro hty hty'
    refine h.nominalNotes.structs key ty ty' ?_ hty hty'
    obtain ⟨members, hk⟩ := hk
    rcases h.nominalNotes.kinds _ hty with hold | ⟨base, variants, hold⟩
    · exact hold
    · rw [(hkind _ (by rw [hold]; nofun)).trans hold] at hk
      cases hk
  · exact (hnode n (by rw [hn]; nofun)).trans hn

theorem Stable.started (h : s.Stable t0) : s.started.Stable t0 := by
  have hnext : Tables.Stable t0 s.ast s.tables.scheduler.Done s.tables.started :=
    Tables.Stable.announce h rfl (.refl _) fun _ _ _ => rfl
  refine hnext.mono fun k hk => ?_
  obtain ⟨a, has, hk, hstate⟩ := hk
  exact ⟨a, (s.tables.scheduler.has_next a).mpr has, (s.tables.scheduler.kind_next a).trans hk,
    (s.tables.scheduler.state_next a).trans hstate⟩

theorem Step.stable (hstep : Step s s') (live : s.Live) (h : s.Stable t0) : s'.Stable t0 := by
  have ha := live.reached.accounted
  have hd := live.owed.distinct
  cases hstep with
  | pushNodes nodes => exact h.pushNodes nodes
  | declare items =>
    rw [stateAfter_declare]
    have hsub := (Tables.declareItems_declares s.ast (s.ast.size + 1) Analysis.globalScope items s.tables).submits
    have hann := Tables.Announces.declareItems s.ast (s.ast.size + 1) Analysis.globalScope items s.tables
    have hannounced := Tables.Stable.announce h hann.same hann.scopes fun id hid _ => (hann.symbol id hid).2
    exact hannounced.mono fun k hk => hk.steps (Scheduler.steps_submits hsub) ha
  | submit n =>
    have hsub : Tables.Stable t0 s.ast s.tables.scheduler.Done (s.submit n).tables :=
      Tables.Stable.announce h rfl (.refl _) fun _ _ _ => rfl
    exact hsub.mono fun k hk => hk.steps (.single (.submit (.eval n))) ha
  | advance hadv =>
    have hstarted := h.started
    have hd' : s.started.tables.scheduler.Distinct :=
      hd.same s.tables.scheduler.has_next s.tables.scheduler.kind_next
    cases stepped_of_advance hadv with
    | ran next settled =>
      exact hstarted.settle (s.tables.started_moves.sound live.reachable.sound) (ha.step (.take next)) hd' settled
    | idle => exact hstarted
    | broke next found =>
      exact Tables.Stable.breakCycle hstarted (ha.step (.stop next)) hd' found

theorem Crash.stable (hcrash : Crash s s') (live : s.Live) (h : s.Stable t0) : s'.Stable t0 := by
  obtain ⟨e, hadv⟩ := hcrash
  have hstarted := h.started
  cases crashed_of_advance hadv with
  | overrun | stuck => exact hstarted
  | @fatal task e t next run =>
    have ha : Accounted (.running task) s.started.tables.scheduler := live.reached.accounted.step (.take next)
    have hrun := hstarted.runTask (s.tables.started_moves.sound live.reachable.sound)
      (ha.running task rfl) (live.owed.distinct.same s.tables.scheduler.has_next s.tables.scheduler.kind_next)
    rw [run] at hrun
    cases hrun with
    | error ht => exact ht.2.submitted ha ht.1

theorem Stable.initial (config : Config) (host : Host) (ast : Ast) :
    (create config host ast).Stable Tables.initial where
  scopes := .refl _
  sources _ _ := id
  literals := .refl _
  specializations := .refl _
  nominals := .refl _
  noted := ⟨.refl _, rfl, nofun⟩
  nominalNotes := ⟨.initial, TypeTable.nominals_initial ▸ .refl _, nofun, nofun⟩
  bodies _ hf := absurd hf (Nat.not_lt_zero _)
  globals := ⟨fun _ => 0, fun _ hg => absurd hg (Nat.not_lt_zero _)⟩

theorem Steps.stable (hsteps : Steps s s') (live : s.Live) (h : s.Stable t0) : s'.Stable t0 := by
  induction hsteps with
  | refl => exact h
  | tail hsteps hstep ih => exact hstep.stable (live.steps hsteps) ih

theorem Live.stable (h : s.Live) : s.Stable s.tables := by
  obtain ⟨config, host, ast, hsteps⟩ := h
  exact Tables.Stable.restart (hsteps.stable (.initial config host ast) (.initial config host ast))

/-! ## A literal that is declared twice -/

end Session

end Comptime
