import Comptime.Proofs.Pool
import Comptime.Scope

/-!
# Names in scopes

What the operations on scopes do to the names that are declared and to the symbols they stand for.
-/

namespace Comptime.Scopes

variable {g g' : Scopes} {scope : ScopeId} {name : String} {id j : SymbolId} {found : Found} {s : Symbol}
  {state : SymbolState}

/-! ## Look-ups -/

private theorem declared?_of_lookupAt {fuel crossed} (h : g.lookupAt name fuel scope crossed = some found) :
    ∃ scope, g.declared? scope name = some found.symbol := by
  induction fuel generalizing scope crossed with
  | zero => cases h
  | succ fuel ih =>
    rw [lookupAt] at h
    split at h
    · next hd =>
      cases h
      exact ⟨scope, hd⟩
    · obtain ⟨parent, -, h⟩ := Option.bind_eq_some_iff.mp h
      exact ih h

theorem declared?_of_lookup (h : g.lookup scope name = some found) :
    ∃ scope, g.declared? scope name = some found.symbol := declared?_of_lookupAt h

theorem declared?_of_lookupHere (h : g.lookupHere scope name = some found) :
    g.declared? scope name = some found.symbol := by
  obtain ⟨symbol, hd, rfl⟩ := Option.map_eq_some_iff.mp h
  exact hd

/-! ## Entering symbols -/

theorem declared?_create (kind parent) : (g.create kind parent).1.declared? scope name = g.declared? scope name := by
  simp only [declared?, Scopes.scope, create, Pool.getD_push]
  split
  · next h => rw [h, Pool.getD_of_not_has g.scopes.not_has_nextId]; rfl
  · rfl

section

variable (h : g.insert s = .ok (g', id))

include h

theorem insert_eq_ok :
    g.declared? s.scope s.name = none ∧ id = g.symbols.nextId ∧ g'.symbols = g.symbols.push s ∧
      ∀ scope name, g'.declared? scope name = if scope = s.scope ∧ g.scopes.Has scope ∧ name = s.name then some id
        else g.declared? scope name := by
  unfold insert at h
  split at h
  · cases h
  · next hfree =>
    cases h
    refine ⟨hfree, rfl, rfl, fun scope name => ?_⟩
    simp only [declared?, Scopes.scope]
    by_cases hs : scope = s.scope
    · subst hs
      by_cases hh : g.scopes.Has s.scope
      · rw [Pool.getD_modify_self hh, List.lookup_cons]
        by_cases hn : name = s.name
        · simp [hn, hh]
        · rw [beq_false_of_ne hn, if_neg fun h => hn h.2.2]
      · have hh' : ¬ (g.scopes.modify s.scope fun c =>
            { c with entries := (s.name, g.symbols.nextId) :: c.entries }).Has s.scope := by
          simpa using hh
        simp [Pool.getD_of_not_has hh', Pool.getD_of_not_has hh, hh]
    · rw [Pool.getD_modify_of_ne hs, if_neg fun h => hs h.1]

theorem scope_insert :
    g'.scopes.size = g.scopes.size ∧ ∀ c, g'.scope c = if c = s.scope ∧ g.scopes.Has c then
        { g.scope c with entries := (s.name, id) :: (g.scope c).entries }
      else g.scope c := by
  unfold insert at h
  split at h
  · cases h
  · cases h
    refine ⟨by simp [Pool.modify, Pool.size], fun c => ?_⟩
    simp only [Scopes.scope]
    by_cases hc : c = s.scope
    · subst hc
      by_cases hh : g.scopes.Has s.scope
      · rw [Pool.getD_modify_self hh, if_pos ⟨rfl, hh⟩]
      · rw [if_neg fun h => hh h.2, Pool.getD_of_not_has hh, Pool.getD_of_not_has]
        simpa using hh
    · rw [Pool.getD_modify_of_ne hc, if_neg fun h => hc h.1]

theorem symbol_insert : g'.symbol j = if j = id then s else g.symbol j := by
  obtain ⟨-, rfl, hsymbols, -⟩ := insert_eq_ok h
  rw [symbol, hsymbols, Pool.getD_push]
  rfl

theorem has_insert : g'.symbols.Has j ↔ g.symbols.Has j ∨ j = id := by
  obtain ⟨-, rfl, hsymbols, -⟩ := insert_eq_ok h
  rw [hsymbols]
  exact Pool.has_push

end

/-! ## States of symbols -/

theorem has_setState : (g.setState id state).symbols.Has j ↔ g.symbols.Has j :=
  Pool.has_modify

theorem has_of_node {n} (h : (g.symbol id).node = some n) : g.symbols.Has id := by
  apply Decidable.byContradiction
  intro hn
  rw [symbol, Pool.getD_of_not_has hn] at h
  cases h

theorem symbol_setState_self (h : g.symbols.Has id) :
    (g.setState id state).symbol id = { g.symbol id with state } := Pool.getD_modify_self h _ _

theorem symbol_setState_of_ne (h : j ≠ id) :
    (g.setState id state).symbol j = g.symbol j := Pool.getD_modify_of_ne h _ _

/-! ## Names that stand for something -/

def Closed (g : Scopes) : Prop :=
  ∀ scope name id, g.declared? scope name = some id → g.symbols.Has id

theorem Closed.create (h : g.Closed) (kind parent) : (g.create kind parent).1.Closed := by
  intro scope name id hd
  rw [declared?_create] at hd
  exact h scope name id hd

theorem Closed.insert (h : g.Closed) (hi : g.insert s = .ok (g', id)) : g'.Closed := by
  intro scope name i hd
  rw [has_insert hi]
  rw [(insert_eq_ok hi).2.2.2 scope name] at hd
  split at hd
  · exact .inr (Option.some.inj hd).symm
  · exact .inl (h scope name i hd)

theorem Closed.setState (h : g.Closed) : (g.setState id state).Closed :=
  fun scope name i hd => has_setState.mpr (h scope name i hd)

/-! ## Growing scopes -/

/-- Scopes and symbols have been added. Those that were there are as they were, but for one symbol that
may have been resolved. -/
structure Extends (own : Option SymbolId) (g g' : Scopes) : Prop where
  hasScope : ∀ {s}, g.scopes.Has s → g'.scopes.Has s
  scope : ∀ {s}, g.scopes.Has s → g'.scope s = g.scope s
  hasSymbol : ∀ {s}, g.symbols.Has s → g'.symbols.Has s
  symbol : ∀ {s}, g.symbols.Has s → own ≠ some s → g'.symbol s = g.symbol s
  node : ∀ {s}, g.symbols.Has s → (g'.symbol s).node = (g.symbol s).node

namespace Extends

variable {own : Option SymbolId}

protected theorem refl (g) : Extends own g g := ⟨id, fun _ => rfl, id, fun _ _ => rfl, fun _ => rfl⟩

section

variable (h : Extends own g g')

include h

protected theorem trans {g'' : Scopes} (h' : Extends own g' g'') : Extends own g g'' where
  hasScope hs := h'.hasScope (h.hasScope hs)
  scope hs := (h'.scope (h.hasScope hs)).trans (h.scope hs)
  hasSymbol hs := h'.hasSymbol (h.hasSymbol hs)
  symbol hs hne := (h'.symbol (h.hasSymbol hs) hne).trans (h.symbol hs hne)
  node hs := (h'.node (h.hasSymbol hs)).trans (h.node hs)

theorem not_has_nextScope : ¬ g.scopes.Has g'.scopes.nextId :=
  fun hs => g'.scopes.not_has_nextId (h.hasScope hs)

theorem not_has_nextSymbol : ¬ g.symbols.Has g'.symbols.nextId :=
  fun hs => g'.symbols.not_has_nextId (h.hasSymbol hs)

theorem create (kind : ScopeKind) (parent : Option ScopeId) : Extends own g (g'.create kind parent).1 where
  hasScope hs := (h.hasScope hs).push _
  scope hs := (Pool.getD_push_of_has (h.hasScope hs) _ _).trans (h.scope hs)
  hasSymbol hs := h.hasSymbol hs
  symbol hs := h.symbol hs
  node hs := h.node hs

theorem insert {g'' s} (hs : ¬ g.scopes.Has s.scope) (hi : g'.insert s = .ok (g'', id)) : Extends own g g'' := by
  unfold Scopes.insert at hi
  split at hi
  · cases hi
  · cases hi
    exact {
      hasScope := fun hh => Pool.has_modify.mpr (h.hasScope hh)
      scope := fun {c} hh => by
        have hne : c ≠ s.scope := fun heq => hs (heq ▸ hh)
        exact (Pool.getD_modify_of_ne hne _ _).trans (h.scope hh)
      hasSymbol := fun hh => (h.hasSymbol hh).push _
      symbol := fun hh hne =>
        (Pool.getD_push_of_has (h.hasSymbol hh) _ _).trans (h.symbol hh hne)
      node := fun hh =>
        (congrArg Symbol.node (Pool.getD_push_of_has (h.hasSymbol hh) _ _)).trans (h.node hh) }

theorem setState {state} (hid : ¬ g.symbols.Has id ∨ own = some id) : Extends own g (g'.setState id state) where
  hasScope hs := h.hasScope hs
  scope hs := h.scope hs
  hasSymbol hs := has_setState.mpr (h.hasSymbol hs)
  symbol {s} hs hown := by
    have hne : s ≠ id := by
      rintro rfl
      exact hid.elim (fun hn => hn hs) hown
    exact (symbol_setState_of_ne hne).trans (h.symbol hs hown)
  node {s} hs := by
    have hnode : ((g'.setState id state).symbol s).node = (g'.symbol s).node :=
      Pool.view_modify Symbol.node (f := fun s => { s with state }) (fun _ => rfl) g'.symbols id s default
    exact hnode.trans (h.node hs)

end

end Extends

end Comptime.Scopes
