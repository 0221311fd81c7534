import Comptime.Proofs.Scope

/-!
# Look-ups find the nearest declaration

`Scopes.Built` are the scopes that any sequence of edits leads to. In them a parent is older than what it
holds, so the way out of a scope ends (`Scopes.Chain`), and a name stands for the one symbol that was
entered under it.

Main result: `lookup_nearest`.
-/

namespace Comptime.Scopes

/-- What is done to scopes and symbols. -/
inductive Edit where
  | create (kind : ScopeKind) (parent : Option ScopeId)
  | insert (x : Symbol)
  | resolve (id : SymbolId) (value : SymbolValue)
  | fail (id : SymbolId)

/-- What the edit mentions is there. -/
def Edit.Allowed (g : Scopes) : Edit → Prop
  | create _ parent => ∀ p ∈ parent, g.scopes.Has p
  | insert x => g.scopes.Has x.scope
  | resolve id _ | fail id => g.symbols.Has id

/-- The scopes after an edit. A symbol whose name is taken is not entered. -/
def edit (g : Scopes) : Edit → Scopes
  | .create kind parent => (g.create kind parent).1
  | .insert x =>
    match g.insert x with
    | .ok (g', _) => g'
    | .error _ => g
  | .resolve id value => g.resolve id value
  | .fail id => g.fail id

/-- The scopes that edits lead to. -/
inductive Built : Scopes → Prop
  | empty : Built .empty
  | edit {g : Scopes} {e : Edit} (before : Built g) (allowed : e.Allowed g) : Built (g.edit e)

/-- The symbol was entered into the scope under the name. -/
def Declares (g : Scopes) (scope : ScopeId) (name : String) (id : SymbolId) : Prop :=
  ∃ x, g.symbols.get? id = some x ∧ x.scope = scope ∧ x.name = name

/-- The scopes from one outward. -/
inductive Chain (g : Scopes) : ScopeId → List ScopeId → Prop
  | last {s : ScopeId} (root : (g.scope s).parent = none) : Chain g s [s]
  | step {s p : ScopeId} {rest : List ScopeId} (inside : (g.scope s).parent = some p)
    (outer : Chain g p rest) : Chain g s (s :: rest)

variable {g g' : Scopes} {s scope : ScopeId} {name : String} {id : SymbolId} {x : Symbol}

/-! ## Scopes that were built -/

/-- Parents are older than what they hold, and the names of a scope are those of its symbols. -/
structure Kept (g : Scopes) : Prop where
  older : ∀ {s p}, g.scopes.Has s → (g.scope s).parent = some p → p.index < s.index
  placed : ∀ {scope name id}, g.Declares scope name id → g.scopes.Has scope
  declared : ∀ {scope name id}, g.declared? scope name = some id ↔ g.Declares scope name id

theorem declares_setState {j state} : (g.setState j state).Declares scope name id ↔ g.Declares scope name id := by
  unfold Declares setState
  rw [Pool.get?_modify]
  split
  · constructor
    · rintro ⟨_, hy, hplace⟩
      obtain ⟨x, hx, rfl⟩ := Option.map_eq_some_iff.mp hy
      exact ⟨x, hx, hplace⟩
    · rintro ⟨x, hx, hplace⟩
      exact ⟨_, Option.map_eq_some_iff.mpr ⟨x, hx, rfl⟩, hplace⟩
  · rfl

theorem declares_insert {j} (hi : g.insert x = .ok (g', id)) :
    g'.Declares scope name j ↔ g.Declares scope name j ∨ j = id ∧ x.scope = scope ∧ x.name = name := by
  obtain ⟨-, rfl, hsymbols, -⟩ := insert_eq_ok hi
  have hnew : g.symbols.get? g.symbols.nextId = none := Pool.get?_eq_none_iff.mpr g.symbols.not_has_nextId
  unfold Declares
  rw [hsymbols, Pool.get?_push]
  split
  · next hj => simp [hj, hnew]
  · next hj => simp [hj]

theorem insert_scope (hi : g.insert x = .ok (g', id)) (s) :
    (g'.scope s).parent = (g.scope s).parent ∧ (g'.scope s).kind = (g.scope s).kind ∧
      (g'.scopes.Has s ↔ g.scopes.Has s) := by
  obtain ⟨hsize, hscope⟩ := scope_insert hi
  have hhas : g'.scopes.Has s ↔ g.scopes.Has s := by
    unfold Pool.Has
    rw [hsize]
  rw [hscope]
  split
  · exact ⟨rfl, rfl, hhas⟩
  · exact ⟨rfl, rfl, hhas⟩

namespace Kept

theorem setState (h : g.Kept) (id state) : (g.setState id state).Kept where
  older := h.older
  placed hd := h.placed (declares_setState.mp hd)
  declared := h.declared.trans declares_setState.symm

private theorem create (h : g.Kept) (kind) {parent} (known : ∀ p ∈ parent, g.scopes.Has p) :
    (g.create kind parent).1.Kept where
  older {s p} hs hp := by
    rcases Pool.has_push.mp hs with hs | rfl
    · rw [Scopes.scope, Scopes.create, Pool.getD_push_of_has hs] at hp
      exact h.older hs hp
    · rw [Scopes.scope, Scopes.create, Pool.getD_push, if_pos rfl] at hp
      exact known p hp
  placed hd := (h.placed hd).push _
  declared {scope name id} := by
    rw [declared?_create]
    exact h.declared

private theorem insert (h : g.Kept) (known : g.scopes.Has x.scope) (hi : g.insert x = .ok (g', id)) : g'.Kept := by
  obtain ⟨hfree, -, -, hdeclared⟩ := insert_eq_ok hi
  constructor
  · intro s p hs hp
    obtain ⟨hparent, -, hhas⟩ := insert_scope hi s
    exact h.older (hhas.mp hs) (hparent ▸ hp)
  · intro scope name j hd
    obtain ⟨-, -, hhas⟩ := insert_scope hi scope
    rcases (declares_insert hi).mp hd with hold | ⟨-, rfl, -⟩
    · exact hhas.mpr (h.placed hold)
    · exact hhas.mpr known
  · intro scope name j
    rw [hdeclared, declares_insert hi, ← h.declared]
    split
    · next hnew =>
      obtain ⟨rfl, -, rfl⟩ := hnew
      simp [hfree, eq_comm]
    · next hnew =>
      refine ⟨.inl, fun hd => hd.resolve_right ?_⟩
      rintro ⟨-, rfl, rfl⟩
      exact hnew ⟨rfl, known, rfl⟩

private theorem edit (h : g.Kept) {e : Edit} (allowed : e.Allowed g) : (g.edit e).Kept := by
  cases e with
  | create kind parent => exact h.create kind allowed
  | insert x =>
    unfold Scopes.edit
    dsimp only
    split
    · next hi => exact h.insert allowed hi
    · exact h
  | resolve id value => exact h.setState id _
  | fail id => exact h.setState id _

/-- The way out of a scope leads to ever smaller ids. -/
private theorem chain (h : g.Kept) (hs : g.scopes.Has s) : ∃ way, g.Chain s way ∧ way.length ≤ g.scopes.size := by
  have hlength : ∃ way, g.Chain s way ∧ way.length ≤ s.index + 1 := by
    obtain ⟨n⟩ := s
    induction n using Nat.strongRecOn with
    | ind n ih =>
      cases hp : (g.scope ⟨n⟩).parent with
      | none => exact ⟨[⟨n⟩], .last hp, Nat.le_add_left 1 n⟩
      | some p =>
        have hlt : p.index < n := h.older hs hp
        obtain ⟨rest, hrest, hle⟩ := ih p.index hlt (Nat.lt_trans hlt hs)
        exact ⟨⟨n⟩ :: rest, .step hp hrest, Nat.succ_le_succ (Nat.le_trans hle hlt)⟩
  obtain ⟨way, hway, hle⟩ := hlength
  exact ⟨way, hway, Nat.le_trans hle hs⟩

end Kept

theorem Built.kept (h : g.Built) : g.Kept := by
  induction h with
  | empty =>
    refine ⟨fun hs => absurd hs (Nat.not_lt_zero _), ?_, ?_⟩
    · rintro _ _ _ ⟨_, hget, -⟩
      cases hget
    · exact ⟨fun hd => (nomatch hd), fun ⟨_, hget, _⟩ => (nomatch hget)⟩
  | edit _ allowed ih => exact ih.edit allowed

theorem Declares.edit (h : g.Declares scope name id) (e) : (g.edit e).Declares scope name id := by
  cases e with
  | create kind parent => exact h
  | insert x =>
    unfold Scopes.edit
    dsimp only
    split
    · next hi => exact (declares_insert hi).mpr (.inl h)
    · exact h
  | resolve id value => exact declares_setState.mpr h
  | fail id => exact declares_setState.mpr h

/-! ## Look-ups along a chain -/

section

variable {way : List ScopeId} {fuel : Nat} {crossed : Bool}

theorem Chain.head (h : g.Chain s way) : ∃ rest, way = s :: rest ∧
    ((g.scope s).parent = none ∧ rest = [] ∨ ∃ p, (g.scope s).parent = some p ∧ g.Chain p rest) := by
  cases h with
  | last root => exact ⟨[], rfl, .inl ⟨root, rfl⟩⟩
  | @step _ p rest inside outer => exact ⟨rest, rfl, .inr ⟨p, inside, outer⟩⟩

theorem Chain.lookupAt_spec (h : g.Chain s way) (hfuel : way.length ≤ fuel) :
    (∀ found, g.lookupAt name fuel s crossed = some found → ∃ before scope after,
      way = before ++ scope :: after ∧ (∀ b ∈ before, g.declared? b name = none) ∧
      g.declared? scope name = some found.symbol ∧
      (found.crossedFn = true ↔ crossed = true ∨ ∃ b ∈ before, (g.scope b).kind = .function)) ∧
    (g.lookupAt name fuel s crossed = none → ∀ scope ∈ way, g.declared? scope name = none) := by
  induction fuel generalizing s way crossed with
  | zero =>
    obtain ⟨rest, rfl, -⟩ := h.head
    cases hfuel
  | succ fuel ih =>
    obtain ⟨rest, rfl, hparent⟩ := h.head
    rw [lookupAt]
    cases hd : g.declared? s name with
    | some id =>
      dsimp only
      refine ⟨?_, fun h => by cases h⟩
      rintro _ ⟨rfl⟩
      exact ⟨[], s, rest, rfl, by simp, hd, by simp⟩
    | none =>
      obtain ⟨hparent, rfl⟩ | ⟨p, hparent, hchain⟩ := hparent
      · simp [hparent, hd]
      · simp only [hparent, Option.bind_eq_bind, Option.bind_some]
        obtain ⟨hsome, hnone⟩ := ih hchain (Nat.le_of_succ_le_succ hfuel)
        refine ⟨fun found hf => ?_, fun h => List.forall_mem_cons.mpr ⟨hd, hnone h⟩⟩
        obtain ⟨before, scope, after, rfl, hfree, hscope, hcrossed⟩ := hsome found hf
        refine ⟨s :: before, scope, after, rfl, List.forall_mem_cons.mpr ⟨hd, hfree⟩, hscope, ?_⟩
        rw [hcrossed]
        simp [or_assoc]

theorem Chain.lookupAt_insert (h : g.Chain s way) (hi : g.insert x = .ok (g', id)) :
    g'.lookupAt name fuel s crossed = g.lookupAt name fuel s crossed ∨
      name = x.name ∧ ∃ before after, way = before ++ x.scope :: after ∧ ∀ b ∈ before, g.declared? b name = none := by
  induction fuel generalizing s way crossed with
  | zero => exact .inl rfl
  | succ fuel ih =>
    obtain ⟨rest, rfl, hparent⟩ := h.head
    obtain ⟨hparent', hkind, -⟩ := insert_scope hi s
    by_cases hnew : s = x.scope ∧ g.scopes.Has s ∧ name = x.name
    · obtain ⟨rfl, -, rfl⟩ := hnew
      exact .inr ⟨rfl, [], rest, rfl, by simp⟩
    · rw [lookupAt, lookupAt, (insert_eq_ok hi).2.2.2, if_neg hnew, hparent', hkind]
      cases hd : g.declared? s name with
      | some id => exact .inl rfl
      | none =>
        obtain ⟨hparent, -⟩ | ⟨p, hparent, hchain⟩ := hparent
        · simp [hparent]
        · simp only [hparent, Option.bind_eq_bind, Option.bind_some]
          refine (ih hchain).imp_right ?_
          rintro ⟨rfl, before, after, rfl, hfree⟩
          exact ⟨rfl, s :: before, after, rfl, List.forall_mem_cons.mpr ⟨hd, hfree⟩⟩

theorem lookupAt_setState (id state) :
    (g.setState id state).lookupAt name fuel s crossed = g.lookupAt name fuel s crossed := by
  induction fuel generalizing s crossed with
  | zero => rfl
  | succ fuel ih =>
    rw [lookupAt, lookupAt]
    simp only [ih]
    rfl

end

/-- A look-up ends and finds the symbol of the nearest scope on the way out that declares the name; it has
crossed a function if one of the scopes before that is the scope of a function. A symbol whose name is taken
changes nothing, and the answer is the one symbol that was declared under the name, which stays. A symbol
that is entered is declared under its name by the id that is handed out, and nothing else is declared; it changes
look-ups of its name only, from scopes whose way out comes to its scope before another declaration of the name.
Resolving a symbol and giving it up change no look-up. -/
theorem lookup_nearest (built : g.Built) :
    (∀ s, g.scopes.Has s → ∃ way, g.Chain s way ∧ ∀ name,
      (∀ found, g.lookup s name = some found → ∃ before scope after, way = before ++ scope :: after ∧
        (∀ b ∈ before, ∀ id, ¬ g.Declares b name id) ∧ g.Declares scope name found.symbol ∧
        (found.crossedFn = true ↔ ∃ b ∈ before, (g.scope b).kind = .function)) ∧
      (g.lookup s name = none ↔ ∀ scope ∈ way, ∀ id, ¬ g.Declares scope name id)) ∧
    (∀ x first, (g.insert x = .error first ↔ g.Declares x.scope x.name first) ∧
      (g.insert x = .error first → g.edit (.insert x) = g)) ∧
    (∀ e scope name id, g.Declares scope name id → (g.edit e).Declares scope name id) ∧
    (∀ x g' id, g.insert x = .ok (g', id) →
      g'.Declares x.scope x.name id ∧
      (∀ scope name j, g'.Declares scope name j ↔
        g.Declares scope name j ∨ j = id ∧ scope = x.scope ∧ name = x.name) ∧
      ∀ s name, g.scopes.Has s → g'.lookup s name ≠ g.lookup s name →
        name = x.name ∧ ∃ before after, g.Chain s (before ++ x.scope :: after) ∧
          ∀ b ∈ before, ∀ id, ¬ g.Declares b name id) ∧
    ∀ id value s name, (g.resolve id value).lookup s name = g.lookup s name ∧
      (g.fail id).lookup s name = g.lookup s name := by
  have hkept := built.kept
  have hfree {scope : ScopeId} {name : String} :
      g.declared? scope name = none ↔ ∀ id, ¬ g.Declares scope name id := by
    simp only [Option.eq_none_iff_forall_ne_some, ne_eq, hkept.declared]
  refine ⟨fun s hs => ?_, fun x first => ⟨?_, fun hi => by rw [edit, hi]⟩, fun e scope name id hd => hd.edit e,
    fun x g' id hi => ⟨(declares_insert hi).mpr (.inr ⟨rfl, rfl, rfl⟩), fun scope name j => ?_,
      fun s name hs hne => ?_⟩, fun id value s name => ⟨lookupAt_setState id _, lookupAt_setState id _⟩⟩
  · obtain ⟨way, hway, hle⟩ := hkept.chain hs
    refine ⟨way, hway, fun name => ?_⟩
    obtain ⟨hsome, hnone⟩ := @Chain.lookupAt_spec g s name way _ false hway hle
    refine ⟨fun found hf => ?_, fun hn scope hscope => hfree.mp (hnone hn scope hscope), fun hall => ?_⟩
    · obtain ⟨before, scope, after, rfl, hbefore, hscope, hcrossed⟩ := hsome found hf
      exact ⟨before, scope, after, rfl, fun b hb => hfree.mp (hbefore b hb), hkept.declared.mp hscope,
        by simpa using hcrossed⟩
    · refine Option.eq_none_iff_forall_ne_some.mpr fun found hf => ?_
      obtain ⟨before, scope, after, rfl, -, hscope, -⟩ := hsome found hf
      exact hall scope (by simp) _ (hkept.declared.mp hscope)
  · rw [← hkept.declared, insert]
    split
    · next hd => simp [hd]
    · next hd => simp [hd]
  · rw [declares_insert hi, eq_comm (a := scope), eq_comm (a := name)]
  · obtain ⟨way, hway, -⟩ := hkept.chain hs
    rw [lookup, lookup, (scope_insert hi).1] at hne
    obtain ⟨hname, before, after, rfl, hbefore⟩ := (hway.lookupAt_insert hi).resolve_left hne
    exact ⟨hname, before, after, hway, fun b hb => hfree.mp (hbefore b hb)⟩

/-- A block in a function in the global scope, which declares a counter. -/
def nested : Scopes :=
  (((empty.edit (.create .global none)).edit (.create .function (some 0))).edit (.create .lexical (some 1))).edit
    (.insert ⟨"count", .global, true, 0, none, .dummy, .unresolved none⟩)

private theorem nested_built : nested.Built := by
  refine .edit (.edit (.edit (.edit .empty ?_) ?_) ?_) ?_
  · rintro _ ⟨⟩
  · rintro _ ⟨⟩
    decide
  · rintro _ ⟨⟩
    decide
  · exact Nat.zero_lt_succ 2

/-- On the way from the block to the counter a function is left. -/
theorem lookup_nearest_nested : ∃ before scope after, nested.Chain 2 (before ++ scope :: after) ∧
    nested.Declares scope "count" 0 ∧ ∃ b ∈ before, (nested.scope b).kind = .function := by
  obtain ⟨hlookup, -⟩ := lookup_nearest nested_built
  obtain ⟨way, hway, hname⟩ := hlookup 2 (by decide)
  have hfound : nested.lookup 2 "count" = some ⟨0, true⟩ := by decide
  obtain ⟨before, scope, after, rfl, -, hdeclares, hcrossed⟩ := (hname "count").1 _ hfound
  exact ⟨before, scope, after, hway, hdeclares, hcrossed.mp rfl⟩

end Comptime.Scopes
