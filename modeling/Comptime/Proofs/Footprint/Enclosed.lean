import Comptime.Proofs.Footprint.Task

/-!
# Scopes out of reach

A run of analysis sees the scopes that it starts in or creates, their parents, what names in them stand
for, and the scopes in which polymorphic functions were declared. A set of scopes that is closed under all
this (`Scopes.Encloses`) is all that it ever looks at. Of the tasks it sees which ones there are, but not how far
they have come. So whatever stands in other scopes, and whatever has become of the tasks, the run gives the same,
halts for the same reason and does the same to the tables (`Analysis.analyzeBody_enclosed`).
-/

namespace Comptime

namespace Scopes

/-- Nothing else is to be seen in the scopes of a set. -/
structure Matches (seen : ScopeId → Prop) (g g' : Scopes) : Prop where
  scopeCount : g'.scopes.size = g.scopes.size
  symbolCount : g'.symbols.size = g.symbols.size
  scope : ∀ c, seen c → g'.scope c = g.scope c
  symbol : ∀ c name id, seen c → g.declared? c name = some id → g'.symbol id = g.symbol id

def Seen (g0 : Scopes) (inside : ScopeId → Prop) (c : ScopeId) : Prop :=
  inside c ∨ ¬ g0.scopes.Has c

/-- The symbols that it finds there. -/
def FoundIn (g0 : Scopes) (inside : ScopeId → Prop) (id : SymbolId) : Prop :=
  ¬ g0.symbols.Has id ∨ ∃ c name, inside c ∧ g0.declared? c name = some id

/-- Two runs that found the scopes `g0` have come to scopes that look the same to them. -/
structure Abreast (g0 : Scopes) (inside : ScopeId → Prop) (g g' : Scopes) : Prop where
  kept : Extends none g0 g
  scopeCount : g'.scopes.size = g.scopes.size
  symbolCount : g'.symbols.size = g.symbols.size
  scope : ∀ c, g0.Seen inside c → g'.scope c = g.scope c
  parents : ∀ c parent, g0.Seen inside c → (g.scope c).parent = some parent → g0.Seen inside parent
  names : ∀ c name id, g0.Seen inside c → g.declared? c name = some id → g0.FoundIn inside id
  symbol : ∀ id, g0.FoundIn inside id → g'.symbol id = g.symbol id
  values : ∀ id inner, g0.FoundIn inside id → (g.symbol id).state = .resolved (.scope inner) →
    g0.Seen inside inner

namespace Abreast

variable {g0 g g' : Scopes} {inside : ScopeId → Prop} {c : ScopeId} {id : SymbolId}

variable (h : Abreast g0 inside g g')

include h

theorem declared? (hc : g0.Seen inside c) (name) : g'.declared? c name = g.declared? c name := by
  rw [Scopes.declared?, h.scope c hc]
  rfl

private theorem lookup (hc : g0.Seen inside c) (name) :
    g'.lookup c name = g.lookup c name ∧ ∀ found, g.lookup c name = some found → g0.FoundIn inside found.symbol := by
  have hat (fuel : Nat) (crossed : Bool) : g'.lookupAt name fuel c crossed =
      g.lookupAt name fuel c crossed ∧ ∀ found, g.lookupAt name fuel c crossed = some found →
        g0.FoundIn inside found.symbol := by
    induction fuel generalizing c crossed with
    | zero => exact ⟨rfl, fun found hfound => by cases hfound⟩
    | succ fuel ih =>
      rw [lookupAt, lookupAt, h.declared? hc, h.scope c hc]
      cases hd : g.declared? c name with
      | some id =>
        refine ⟨rfl, ?_⟩
        rintro found ⟨⟩
        exact h.names c name id hc hd
      | none =>
        cases hp : (g.scope c).parent with
        | none => exact ⟨rfl, fun found hfound => by cases hfound⟩
        | some parent => exact ih (h.parents c parent hc hp) _
  unfold Scopes.lookup
  rw [h.scopeCount]
  exact hat _ false

theorem has : g'.scopes.Has c ↔ g.scopes.Has c := by
  rw [Pool.Has, Pool.Has, h.scopeCount]

theorem hasSymbol : g'.symbols.Has id ↔ g.symbols.Has id := by
  rw [Pool.Has, Pool.Has, h.symbolCount]

theorem nextScope : g'.scopes.nextId = g.scopes.nextId :=
  congrArg Id.mk h.scopeCount

private theorem nextSymbol : g'.symbols.nextId = g.symbols.nextId :=
  congrArg Id.mk h.symbolCount

private theorem create (kind) {parent} (hp : g0.Seen inside parent) :
    Abreast g0 inside (g.create kind (some parent)).1 (g'.create kind (some parent)).1 :=
  { h with
    kept := h.kept.create kind (some parent)
    scopeCount := by
      have hcount : g'.scopes.items.size = g.scopes.items.size := h.scopeCount
      simp [Scopes.create, Pool.push, Pool.size, hcount]
    scope c hc := by
      simp only [Scopes.scope, Scopes.create, Pool.getD_push, h.nextScope]
      split
      · rfl
      · exact h.scope c hc
    parents c parent' hc hparent := by
      simp only [Scopes.scope, Scopes.create, Pool.getD_push] at hparent
      split at hparent
      · cases hparent
        exact hp
      · exact h.parents c parent' hc hparent
    names c name id hc hd := by
      rw [declared?_create] at hd
      exact h.names c name id hc hd }

private theorem insert {s} (hs : ¬ g0.scopes.Has s.scope)
    (hv : ∀ inner, s.state = .resolved (.scope inner) → g0.Seen inside inner) {g1} (hi : g.insert s = .ok (g1, id)) :
    ∃ g1', g'.insert s = .ok (g1', id) ∧ Abreast g0 inside g1 g1' := by
  obtain ⟨hfree, hid, hsymbols, hdeclared⟩ := insert_eq_ok hi
  have hfree' : g'.declared? s.scope s.name = none := (h.declared? (.inr hs) s.name).trans hfree
  have hi' : g'.insert s = .ok ({ g' with
      symbols := g'.symbols.push s
      scopes := g'.scopes.modify s.scope fun c => { c with entries := (s.name, id) :: c.entries } },
      id) := by
    rw [Scopes.insert, hfree', hid, ← h.nextSymbol]
  obtain ⟨hsize, hscope⟩ := scope_insert hi
  obtain ⟨hsize', hscope'⟩ := scope_insert hi'
  refine ⟨_, hi', h.kept.insert hs hi, ?_, ?_, fun c hc => ?_, fun c parent hc hp => ?_,
    fun c name j hc hd => ?_, fun j hj => ?_, fun j inner hj hstate => ?_⟩
  · exact hsize'.trans (h.scopeCount.trans hsize.symm)
  · have hcount : g'.symbols.items.size = g.symbols.items.size := h.symbolCount
    rw [hsymbols]
    simp [Pool.push, Pool.size, hcount]
  · rw [hscope, hscope', h.scope c hc]
    simp only [h.has]
  · rw [hscope] at hp
    split at hp
    · exact h.parents c parent hc hp
    · exact h.parents c parent hc hp
  · rw [hdeclared] at hd
    split at hd
    · cases hd
      refine .inl ?_
      rw [hid]
      exact h.kept.not_has_nextSymbol
    · exact h.names c name j hc hd
  · rw [symbol_insert hi, symbol_insert hi']
    split
    · rfl
    · exact h.symbol j hj
  · rw [symbol_insert hi] at hstate
    split at hstate
    · exact hv inner hstate
    · exact h.values j inner hj hstate

private theorem setState (hid : ¬ g0.symbols.Has id) {state}
    (hv : ∀ inner, state = .resolved (.scope inner) → g0.Seen inside inner) :
    Abreast g0 inside (g.setState id state) (g'.setState id state) := by
  refine ⟨h.kept.setState (.inl hid), h.scopeCount, ?_, h.scope, h.parents, h.names, fun j hj => ?_,
    fun j inner hj hstate => ?_⟩
  · simpa [Scopes.setState, Pool.modify, Pool.size] using h.symbolCount
  · by_cases he : j = id
    · subst he
      by_cases has : g.symbols.Has j
      · rw [symbol_setState_self has, symbol_setState_self (h.hasSymbol.mpr has), h.symbol j hj]
      · have has' : ¬ g'.symbols.Has j := mt h.hasSymbol.mp has
        rw [Scopes.symbol, Scopes.symbol, Pool.getD_of_not_has (mt has_setState.mp has),
          Pool.getD_of_not_has (mt has_setState.mp has')]
    · rw [symbol_setState_of_ne he, symbol_setState_of_ne he]
      exact h.symbol j hj
  · by_cases he : j = id
    · subst he
      by_cases has : g.symbols.Has j
      · rw [symbol_setState_self has] at hstate
        exact hv inner hstate
      · rw [Scopes.symbol, Pool.getD_of_not_has (mt has_setState.mp has)] at hstate
        cases hstate
    · rw [symbol_setState_of_ne he] at hstate
      exact h.values j inner hj hstate

end Abreast

end Scopes

/-! ## Tasks -/

namespace Scheduler

/-- The tasks are to do the same, however far they have come. -/
structure Alike (s s' : Scheduler) : Prop where
  size : s'.tasks.size = s.tasks.size
  kind : ∀ id, s'.kind id = s.kind id

namespace Alike

variable {s s' s'' : Scheduler}

theorem started (h : s.Alike s') : s.next.1.Alike s'.next.1 := by
  have hsize (s : Scheduler) : s.next.1.tasks.size = s.tasks.size := by
    unfold next start
    split
    · simp [Pool.modify, Pool.size]
    · split <;> simp [Pool.modify, Pool.size]
  refine ⟨(hsize s').trans (h.size.trans (hsize s).symm), fun id => ?_⟩
  rw [kind_next, kind_next, h.kind]

theorem find? (h : s.Alike s') (k) : s'.find? k = s.find? k := by
  have hkinds : s'.tasks.items.map Task.kind = s.tasks.items.map Task.kind := by
    have hsize : s'.tasks.items.size = s.tasks.items.size := h.size
    refine Array.ext (by simp [hsize]) fun i hi hi' => ?_
    have hkind := h.kind ⟨i⟩
    simp only [Array.size_map] at hi hi'
    simpa [Scheduler.kind, Scheduler.task, Pool.getD, Pool.get?, hi, hi'] using hkind
  have hfind (s : Scheduler) : s.find? k = ((s.tasks.items.map Task.kind).findIdx? (· == k)).map Id.mk := by
    rw [Array.findIdx?_map]
    rfl
  rw [hfind, hfind, hkinds]

theorem declare (h : s.Alike s') (func f) : (s.declare func f).Alike (s'.declare func f) := by
  unfold Scheduler.declare
  split
  · exact h
  · unfold submit
    rw [h.find?]
    split
    · exact h
    · have hnext : s'.tasks.nextId = s.tasks.nextId := congrArg Id.mk h.size
      refine ⟨?_, fun id => ?_⟩
      · simp [h.size]
      · simp only [Scheduler.kind, Scheduler.task, Pool.getD_push, hnext]
        split
        · rfl
        · exact h.kind id

end Alike

end Scheduler

/-! ## The policy -/

/-- Two sides on which a run comes to the same: nothing else is to be seen in the scopes of a set, and there are
the same tasks. -/
structure Side.Matches (seen : ScopeId → Prop) (g g' : Side) : Prop where
  scopes : g.scopes.Matches seen g'.scopes
  tasks : g.scheduler.Alike g'.scheduler

theorem Scopes.Abreast.same {g0 g g'} {inside : ScopeId → Prop} (h : Abreast g0 inside g g') :
    g.Matches (g0.Seen inside) g' :=
  ⟨h.scopeCount, h.symbolCount, h.scope, fun c name id hc hd => h.symbol id (h.names c name id hc hd)⟩

end Comptime
