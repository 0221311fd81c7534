import Comptime.Proofs.Footprint.Develop
import Comptime.Proofs.Graph.Body

/-!
# The footprint of tasks

The task of a body marks its function, writes the body and installs it; what it does in between abides
by every policy (`analyzeBody_analyzes`). The task of a global binds its symbol. It adds a global to the
code at most once, right before it does so.

`Tables.Works` says what a run of a task makes of the tables, whether it comes to its end or not. Where the
code is formed, no run halts because control leads nowhere.
-/

namespace Comptime

/-- The tables with a function whose body is being analysed. -/
def Tables.analyzing (t : Tables) (f : FnId) : Tables :=
  t.withFn f fun func => { func with state := .analyzing }

/-- The tables with a body that has been analysed. -/
def Tables.installing (t : Tables) (f : FnId) (body : Function) : Tables :=
  t.withFn f fun func => { func.install body with state := .analyzed }

namespace Tables

variable {t : Tables} {f : FnId}

theorem formed_withFn {g : Function → Function} (ht : t.code.Formed)
    (hg : ∀ func, (g func).state = .analyzed → (g func).Formed) : (t.withFn f g).code.Formed := by
  intro h ha
  have hfunction : (t.withFn f g).code.function h = (t.code.fns.modify f g).getD h default := rfl
  rw [hfunction] at ha ⊢
  by_cases hf : h = f
  · subst hf
    by_cases hhas : t.code.fns.Has h
    · rw [Pool.getD_modify_self hhas] at ha ⊢
      exact hg _ ha
    · rw [Pool.getD_of_not_has (by simpa using hhas)] at ha
      cases ha
  · rw [Pool.getD_modify_of_ne hf] at ha ⊢
    exact ht h ha

theorem formed_analyzing (ht : t.code.Formed) : (t.analyzing f).code.Formed :=
  formed_withFn ht fun _ ha => by cases ha

end Tables

/-! ## Bodies -/

namespace Analysis

variable {p : Policy} {w : Walk}

theorem writeBody_abides (hw : w.Abides p) (stores : p.Stores) (f) {source} (hs : p.Sees source.scope) (lit n) :
    Abides p (writeBody w f source lit n) := by
  refine .reads code_views fun code => ?_
  refine Gives.bind (Lower.Gives.run (Lower.body_gives hw stores hs lit n (Draft.regular_start rfl rfl) fun l hl => by cases hl))
    fun r _ => ?_
  refine .reads types_views fun types => ?_
  split
  · exact layoutHalt_gives _ _
  · exact .pure trivial

/-- Both runs of the task of a body end in the same way: before the function has been marked, or while its
body was written, or with a body that is installed. -/
inductive Analyzes (p : Policy) (f : FnId) (t : Tables) (g : Side) :
    EStateM.Result Halt Tables Unit → EStateM.Result Halt Tables Unit → Prop
  | unstarted {e : Halt} (guided : e.Guided) : Analyzes p f t g (.error e t) (.error e (t.beside g))
  | halted {e : Halt} {t' : Tables} {g' : Side} (leads : p.Leads (t.analyzing f) g t' g')
    (guided : p.Relies → e.Guided) : Analyzes p f t g (.error e t') (.error e (t'.beside g'))
  | installed {t' : Tables} {g' : Side} (body : Function)
    (leads : p.Leads (t.analyzing f) g t' g') :
    Analyzes p f t g (.ok () (t'.installing f body)) (.ok () ((t'.installing f body).beside g'))

section

variable {α β : Type} {f : FnId} {c : Context} {t : Tables} {g : Side} {x : Analysis α}
  {k : α → Analysis β}

/-- Both runs halt before the function has been marked, or abide by the policy from then on. -/
def Begins (p : Policy) (f : FnId) (c : Context) (t : Tables) (g : Side) (x : Analysis α) : Prop :=
  (∃ e, e.Guided ∧ x c t = .error e t ∧ x c (t.beside g) = .error e (t.beside g)) ∨
    p.Agree (fun _ => True) (t.analyzing f) g (x c t) (x c (t.beside g))

namespace Begins

protected theorem throw {e} (guided : e.Guided) : Begins p f c t g (throw e : Analysis α) :=
  .inl ⟨e, guided, rfl, rfl⟩

protected theorem get {k : Tables → Analysis β} (blind : k (t.beside g) = k t)
    (h : Begins p f c t g (k t)) : Begins p f c t g (get >>= k) := by
  unfold Begins
  rw [reads_bind get_reads, reads_bind get_reads, blind]
  exact h

private theorem reads {v : Context → Tables → α} (hx : Views x v)
    (h : Begins p f c t g (k (v c t))) : Begins p f c t g (x >>= k) := by
  unfold Begins
  rw [reads_bind hx.reads, reads_bind hx.reads, hx.blind]
  exact h

protected theorem fnLiteral {n} {k : FnLiteral → Analysis β} (h : ∀ lit, Begins p f c t g (k lit)) :
    Begins p f c t g (fnLiteral n >>= k) := by
  unfold Analysis.fnLiteral
  rw [bind_assoc]
  refine .reads (node_views n) ?_
  split
  · exact h _
  · exact .throw trivial

end Begins

theorem draftBody_begins (hw : w.Abides p) (stores : p.Stores) (hc : p.Suits c) (holds : p.Holds (t.analyzing f) g)
    (sees : ∀ source, t.sources.get? f = some source → p.Sees source.scope) :
    Begins p f c t g (draftBody w f) := by
  refine .get rfl ?_
  split
  · next source hsource =>
    refine .fnLiteral fun lit => ?_
    split
    · next n _ =>
      exact .inr (writeBody_abides hw stores f (sees source hsource) lit n c (t.analyzing f) g hc holds)
    · exact .throw trivial
  · exact .throw trivial

theorem analyzeBody_analyzes (hw : w.Abides p) (stores : p.Stores) (hc : p.Suits c) (holds : p.Holds (t.analyzing f) g)
    (sees : ∀ source, t.sources.get? f = some source → p.Sees source.scope) :
    Analyzes p f t g (analyzeBody w f c t) (analyzeBody w f c (t.beside g)) := by
  generalize hx : withReader (fun c : Context => { c with owner := some f }) (draftBody w f) = x
  have hdraft : Begins p f c t g x := by
    rw [← hx]
    exact draftBody_begins (c := { c with owner := some f }) hw stores ⟨hc.ast, hc.folds⟩ holds sees
  unfold analyzeBody
  rw [hx]
  unfold Begins at hdraft
  generalize hr : x c t = r, hr' : x c (t.beside g) = r' at hdraft
  rcases hdraft with ⟨e, guided, rfl, rfl⟩ | hagree
  · rw [bind_error hr, bind_error hr']
    exact .unstarted guided
  · cases hagree with
    | ok leads =>
      rw [bind_ok hr, bind_ok hr']
      exact .installed _ leads
    | error leads guided =>
      rw [bind_error hr, bind_error hr']
      exact .halted leads guided

end

/-! ## Globals -/

section

variable {scope : ScopeId}

theorem globalValue_abides (hw : w.Abides p) (hs : p.Sees scope) (n d span) :
    Abides p (globalValue w scope n d span) := by
  refine (typeExpr?_abides hw hs d.ty).bind fun declared _ => ?_
  split
  · exact comptimeValue_abides hw hs _ _
  · exact (zeroValue_abides _ span).bind fun _ _ => .pure trivial
  · exact .throw trivial

theorem checkFnType_abides (hw : w.Abides p) (hs : p.Sees scope) (d bound span) :
    Abides p (checkFnType w scope d bound span) := by
  unfold checkFnType
  split
  · refine (hw.typeExpr hs _).bind fun declared _ => .reads code_views fun code => ?_
    exact .ite (fun _ => .reads (quoted_views _) fun _ => .reads (quoted_views _) fun _ => .throw trivial)
      fun _ => .pure trivial
  · exact .pure trivial

end

/-! ## Single runs -/

end Analysis

namespace Tables

/-- The tables have been added to, and scopes and symbols have been left alone, but for a symbol that may
have been bound. -/
structure Adds (ast : Ast) (own : Option SymbolId) (t t' : Tables) : Prop where
  scopes : Scopes.Extends own t.scopes t'.scopes
  develops : Develops ast t t'

namespace Adds

variable {ast : Ast} {own : Option SymbolId} {t t' t'' : Tables}

protected theorem refl (t) : Adds ast own t t := ⟨.refl _, .refl t⟩

protected theorem trans (h : Adds ast own t t') (h' : Adds ast own t' t'') : Adds ast own t t'' :=
  ⟨h.scopes.trans h'.scopes, h.develops.trans h'.develops⟩

end Adds

/-- The tables with a new global, which the symbol is bound to. Constants are bound to their value. -/
def storing (t : Tables) (symbol : SymbolId) (g : Global) : Tables :=
  { t with
    code := { t.code with globals := t.code.globals.push g }
    scopes := t.scopes.resolve symbol
      (if g.mutable then .global t.code.globals.nextId else .const g.ty g.value) }

end Tables

/-- The symbol that a task is about. -/
def TaskKind.symbol? : TaskKind → Option SymbolId
  | .global symbol => some symbol
  | _ => none

/-- What a run of a task makes of the tables: one that is done, or one that is not. -/
inductive Tables.Works (ast : Ast) (t : Tables) : TaskKind → Bool → Tables → Prop
  | adds {k : TaskKind} {done : Bool} {t' : Tables} (adds : t.Adds ast k.symbol? t') :
    Works ast t k done t'
  | halted {f : FnId} {t' : Tables} (adds : (t.analyzing f).Adds ast none t') :
    Works ast t (.body f) false t'
  | installed {f : FnId} {t' : Tables} (body : Function) (adds : (t.analyzing f).Adds ast none t') :
    Works ast t (.body f) true (t'.installing f body)
  | stored {symbol : SymbolId} {n : NodeId} {d : Decl} {span : Span} {t' : Tables}
    (adds : t.Adds ast (some symbol) t') (node : (t.scopes.symbol symbol).node = some n)
    (decl : ast.node n = ⟨.decl d, span⟩) (ty : TypeId) (v : Value) :
    Works ast t (.global symbol) true (t'.storing symbol ⟨d.name, ty, v, d.mutable, span⟩)

namespace Analysis

variable {α : Type} {w : Walk} {c : Context} {t : Tables} {ast : Ast} {own : Option SymbolId} {relies : Prop}

theorem Gives.adds {x} {P : α → Prop} (h : Gives (.adding c t own True) x P) :
    (∃ a t', x c t = .ok a t' ∧ t.Adds c.ast own t' ∧ P a) ∨
      ∃ e t', x c t = .error e t' ∧ t.Adds c.ast own t' ∧ (t.code.Formed → e.Guided) := by
  have hx := h c t t.side ⟨rfl, id⟩ (Tables.holds_adding ..)
  generalize x c t = r, x c (t.beside t.side) = r' at hx
  cases hx with
  | ok leads gives => exact .inl ⟨_, _, rfl, ⟨leads.1.2.1, leads.2.2⟩, gives⟩
  | error leads guided => exact .inr ⟨_, _, rfl, ⟨leads.1.2.1, leads.2.2⟩, guided⟩

theorem Gives.of_ok {x} {P : α → Prop} (h : Gives (.adding c t own True) x P) {a t'}
    (hrun : x c t = .ok a t') : t.Adds c.ast own t' ∧ P a := by
  rcases h.adds with ⟨b, t1, hx, hadds, hb⟩ | ⟨e, t1, hx, -⟩
  · rw [hrun] at hx
    cases hx
    exact ⟨hadds, hb⟩
  · rw [hrun] at hx
    cases hx

theorem layoutHalt_ne_ok {e span} {a : α} {t'} : layoutHalt e span c t ≠ .ok a t' := by
  intro h
  have hnever : Gives (.adding c t none True) (layoutHalt e span) fun _ : α => False := layoutHalt_gives e span
  exact (hnever.of_ok h).2

/-- The run is over, and something holds of the tables then. If it relied on formed code and has halted, then
not because control led nowhere. -/
inductive Over (relies : Prop) (P : Bool → Tables → Prop) : EStateM.Result Halt Tables Unit → Prop
  | ok {t' : Tables} (h : P true t') : Over relies P (.ok () t')
  | error {e : Halt} {t' : Tables} (h : P false t') (guided : relies → e.Guided) : Over relies P (.error e t')

/-- Something holds of the tables after a run. -/
def Leaves (relies : Prop) (P : Bool → Tables → Prop) (c : Context) (t : Tables) (x : Analysis Unit) : Prop :=
  Over relies P (x c t)

namespace Leaves

variable {P : Bool → Tables → Prop}

protected theorem throw {e} (h : P false t) (guided : e.Guided) : Leaves relies P c t (throw e) :=
  .error h fun _ => guided

theorem reads {x} {k : α → Analysis Unit} {v : Context → Tables → α} (hx : Reads x v)
    (h : Leaves relies P c t (k (v c t))) : Leaves relies P c t (x >>= k) := by
  unfold Leaves
  rw [reads_bind hx]
  exact h

protected theorem bind {Q : α → Prop} {x} {k : α → Analysis Unit} (h : Gives (.adding c t own True) x Q)
    (formed : relies → t.code.Formed) (halted : ∀ t', t.Adds c.ast own t' → P false t')
    (goesOn : ∀ a t', t.Adds c.ast own t' → Q a → Leaves relies P c t' (k a)) : Leaves relies P c t (x >>= k) := by
  unfold Leaves
  rcases h.adds with ⟨a, t', hx, hadds, ha⟩ | ⟨e, t', hx, hadds, guided⟩
  · rw [bind_ok hx]
    exact goesOn a t' hadds ha
  · rw [bind_error hx]
    exact .error (halted t' hadds) fun hr => guided (formed hr)

end Leaves

theorem analyzeBody_works (hw : ∀ p, w.Abides p) (f c t) :
    Leaves t.code.Formed (t.Works c.ast (.body f)) c t (analyzeBody w f) := by
  unfold Leaves
  have hbody := analyzeBody_analyzes (hw (.adding c (t.analyzing f) none True)) trivial (f := f) (g := t.side)
    ⟨rfl, id⟩ (Tables.holds_adding ..) fun _ _ => trivial
  generalize analyzeBody w f c t = r, analyzeBody w f c (t.beside t.side) = r' at hbody
  cases hbody with
  | unstarted guided => exact .error (.adds (.refl t)) fun _ => guided
  | halted leads guided =>
    exact .error (.halted ⟨leads.1.2.1, leads.2.2⟩) fun hr => guided (Tables.formed_analyzing hr)
  | installed body leads => exact .ok (.installed body ⟨leads.1.2.1, leads.2.2⟩)

section

variable {symbol : SymbolId}

theorem resolveSymbol_works {t1} (first : t.Adds ast (some symbol) t1) (v) :
    Leaves relies (t.Works ast (.global symbol)) c t1 (resolveSymbol symbol v) := by
  have hadds : t.Adds ast (some symbol) (t1.withScopes (t1.scopes.resolve symbol v)) :=
    ⟨first.scopes.setState (.inr rfl), first.develops.trans (.ofSame (.refl _) rfl rfl rfl rfl rfl)⟩
  exact .ok (.adds hadds)

private theorem globalBinding_works {t1} (first : t.Adds c.ast (some symbol) t1) {n d span}
    (node : (t.scopes.symbol symbol).node = some n) (decl : c.ast.node n = ⟨.decl d, span⟩) (ty v) :
    Leaves t.code.Formed (t.Works c.ast (.global symbol)) c t1
      (globalBinding d v ty span >>= fun bound => resolveSymbol symbol bound) := by
  unfold globalBinding
  split
  · exact resolveSymbol_works first _
  · exact resolveSymbol_works first _
  · rw [bind_assoc]
    refine Leaves.bind (checkStorage_abides ty _ span) first.develops.formed (fun t2 h => .adds (first.trans h)) ?_
    intro _ t2 h _
    exact .ok (.stored (first.trans h) node decl ty _)

private theorem analyzeGlobal_works (hw : ∀ p, w.Abides p) (symbol c t) :
    Leaves t.code.Formed (t.Works c.ast (.global symbol)) c t (analyzeGlobal w symbol) := by
  have hadds {t1 t2 : Tables} (h : t.Adds c.ast (some symbol) t1)
      (h' : t1.Adds c.ast (some symbol) t2) : t.Works c.ast (.global symbol) false t2 :=
    .adds (h.trans h')
  refine .reads scopes_reads ?_
  dsimp only
  split
  · next n hn =>
    refine .reads (node_reads n) ?_
    split
    · next d hkind =>
      have hdecl : c.ast.node n = ⟨.decl d, (c.ast.node n).span⟩ := by rw [← hkind]
      refine Leaves.bind (directBinding_gives (hw _) trivial d (.inr rfl)) id
        (fun t1 h => hadds (.refl t) h) fun bound t1 h1 _ => ?_
      cases bound with
      | some v =>
        refine Leaves.bind (checkFnType_abides (hw _) trivial d v _) h1.develops.formed
          (fun t2 h => hadds h1 h) fun _ t2 h2 _ => ?_
        exact resolveSymbol_works (h1.trans h2) v
      | none =>
        refine Leaves.bind (globalValue_abides (hw _) trivial n d _) h1.develops.formed
          (fun t2 h => hadds h1 h) fun r t2 h2 _ => ?_
        exact globalBinding_works (h1.trans h2) hn hdecl r.2 r.1
    · exact .throw (.adds (.refl t)) trivial
  · exact .throw (.adds (.refl t)) trivial

theorem runTask_works (k c t) : Leaves t.code.Formed (t.Works c.ast k) c t (runTask k) := by
  have hw (p : Policy) : (walk (c.config.fuel + 8 * c.ast.size)).Abides p := walk_abides p _
  refine .reads read_reads ?_
  cases k with
  | global symbol => exact analyzeGlobal_works hw symbol c t
  | body f => exact analyzeBody_works hw f c t
  | eval n =>
    have hvalue : Abides (.adding c t none True)
        (comptimeValue (walk (c.config.fuel + 8 * c.ast.size)) globalScope n none) :=
      comptimeValue_abides (hw _) trivial n none
    refine Leaves.bind hvalue id (fun t1 h => .adds h) fun r t1 h1 _ => .ok (.adds (h1.trans ?_))
    exact ⟨.refl _, .ofSame (.refl _) rfl rfl rfl rfl rfl⟩

end

end Analysis

end Comptime
