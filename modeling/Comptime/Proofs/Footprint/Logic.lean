import Comptime.Proofs.Analysis.Equation
import Comptime.Proofs.Draft.Growth
import Comptime.Proofs.Machine.Control
import Comptime.Proofs.Scope

/-!
# The footprint of analysis

A `Policy` says what pieces of analysis may do to the tables. It is about two runs at once: both find
the same tables, but for their scopes and tasks, which are the `Side` of a run. A piece abides by the
policy if both runs give the same and halt for the same reason, and leave tables behind that differ,
again, in their sides at most. To say that a single run changes the tables only so and so, one takes the
same side for both runs.

Every piece of analysis abides by every policy. So a policy is all that is needed to show what analysis
leaves alone, and what it does not depend on.

`Analysis.Gives p x P` says that `x` abides by `p` and that `P` holds of what it gives. `Lower.Gives p x d
Q` says the same of a piece that writes code into the draft `d`; `Q` holds of what it gives and of the
draft after it.
-/

namespace Comptime

/-- The tasks after a function has been declared: its body is left to one of its own. -/
def Scheduler.declare (s : Scheduler) (func : Function) (f : FnId) : Scheduler :=
  if func.native.isSome then s else (s.submit (.body f)).1

/-- The scopes and tasks that a run finds. -/
structure Side where
  scopes : Scopes
  scheduler : Scheduler

namespace Side

def withScopes (g : Side) (scopes : Scopes) : Side := { g with scopes }

def declare (g : Side) (func : Function) (f : FnId) : Side := { g with scheduler := g.scheduler.declare func f }

end Side

namespace Tables

def side (t : Tables) : Side := ⟨t.scopes, t.scheduler⟩

/-- The tables with other scopes and tasks. -/
def beside (t : Tables) (g : Side) : Tables := { t with scopes := g.scopes, scheduler := g.scheduler }

def withScopes (t : Tables) (g : Scopes) : Tables := { t with scopes := g }

/-- The tables with a new function, whose body is left to a task of its own. -/
def withFunction (t : Tables) (func : Function) (source : Source) : Tables :=
  { t with
    code := { t.code with fns := t.code.fns.push func }
    sources := t.sources.push source
    scheduler := t.scheduler.declare func t.code.fns.nextId }

end Tables

/-- Nothing of a body is there. -/
structure Function.Bodiless (f : Function) : Prop where
  paramSlots : f.paramSlots = []
  slots : f.slots = .empty
  blocks : f.blocks = .empty
  instrs : f.instrs = .empty

/-- The function has been declared, and its body is still to come unless the host carries it out. -/
structure Function.Declared (f : Function) : Prop extends f.Bodiless where
  pending : f.native = none → f.state = .pending

/-- Halted for another reason than that control leads nowhere in some code. -/
def Halt.Guided : Halt → Prop
  | .trap t => t.kind.isAstray = false
  | .postpone _ | .error _ | .silent | .fatal _ => True

/-- What a symbol is bound to: a scope that may be looked into, a constant if such are stored, or something
else. -/
def SymbolValue.Bindable (sees : ScopeId → Prop) (stores : Prop) : SymbolValue → Prop
  | .scope inner => sees inner
  | .const .. => stores
  | _ => True

/-- The types of the numbers in a program, as they are written. -/
def TypeId.written : List TypeId := [.s32, .s64, .u64, .f64]

/-! ## Policies -/

/-- What pieces of analysis may do, in two runs that find the same tables with sides of their own. Names
are looked up in scopes that the policy `Sees`; it `Finds` symbols there. New symbols go into scopes that
it `Enters`, and it resolves the symbols that it `Sets`. Only statements bind names to constants, and only
if the policy `Stores` them. If it `Relies` on code that is formed, control leads nowhere in no code that is
executed. If it `Folds`, operators are computed during analysis. It `Counts` the types of numbers. -/
structure Policy where
  ast : Ast
  /-- The tables that a run may find, and the side that the other one finds. -/
  Holds : Tables → Side → Prop
  /-- What may become of them. -/
  Leads : Tables → Side → Tables → Side → Prop
  Sees : ScopeId → Prop
  Finds : SymbolId → Prop
  Enters : ScopeId → Prop
  Sets : SymbolId → Prop
  Stores : Prop
  Relies : Prop
  Folds : Prop
  Counts : TypeId → Prop
  refl {t : Tables} {g : Side} (h : Holds t g) : Leads t g t g
  trans {t t' t'' : Tables} {g g' g'' : Side} (h : Leads t g t' g') (h' : Leads t' g' t'' g'') :
    Leads t g t'' g''
  holds {t t' : Tables} {g g' : Side} (h : Leads t g t' g') : Holds t' g'
  sees {scope : ScopeId} (h : Enters scope) : Sees scope
  formed (relies : Relies) {t : Tables} {g : Side} (h : Holds t g) : t.code.Formed
  written {ty : TypeId} (h : ty ∈ TypeId.written) : Counts ty
  -- what is read
  numeric {t : Tables} {g : Side} (h : Holds t g) {ty : TypeId} (hty : t.types.isNumeric ty = true) : Counts ty
  lookup {t : Tables} {g : Side} (h : Holds t g) {scope : ScopeId} (hs : Sees scope)
    (name : String) : g.scopes.lookup scope name = t.scopes.lookup scope name ∧
      ∀ found, t.scopes.lookup scope name = some found → Finds found.symbol
  lookupHere {t : Tables} {g : Side} (h : Holds t g) {scope : ScopeId} (hs : Sees scope)
    (name : String) : g.scopes.lookupHere scope name = t.scopes.lookupHere scope name ∧
      ∀ found, t.scopes.lookupHere scope name = some found → Finds found.symbol
  symbol {t : Tables} {g : Side} (h : Holds t g) {id : SymbolId} (hf : Finds id) :
    g.scopes.symbol id = t.scopes.symbol id ∧
      ∀ inner, (t.scopes.symbol id).state = .resolved (.scope inner) → Sees inner
  recipe {t : Tables} {g : Side} (h : Holds t g) (r : RecipeId) :
    Sees (t.recipes.getD r default).scope
  task {t : Tables} {g : Side} (h : Holds t g) (k : TaskKind) :
    g.scheduler.find? k = t.scheduler.find? k
  -- what is changed
  retype {t : Tables} {g : Side} (h : Holds t g) {types : TypeTable}
    (refines : t.types.Refines types) (strays : List (TypeId × Value)) :
    Leads t g { t with types, strays } g
  createScope {t : Tables} {g : Side} (h : Holds t g) {parent : ScopeId} (hs : Sees parent)
    (kind : ScopeKind) :
    (g.scopes.create kind (some parent)).2 = (t.scopes.create kind (some parent)).2 ∧
      Leads t g (t.withScopes (t.scopes.create kind (some parent)).1)
        (g.withScopes (g.scopes.create kind (some parent)).1) ∧
      Enters (t.scopes.create kind (some parent)).2
  insertSymbol {t : Tables} {g : Side} {g1 : Scopes} (h : Holds t g) {s : Symbol}
    (hs : Enters s.scope) (hv : ∀ v, s.state = .resolved v → v.Bindable Sees Stores) {id : SymbolId}
    (hi : t.scopes.insert s = .ok (g1, id)) :
    ∃ g', g.scopes.insert s = .ok (g', id) ∧ Leads t g (t.withScopes g1) (g.withScopes g') ∧ Sets id
  taken {t : Tables} {g : Side} (h : Holds t g) {s : Symbol} (hs : Enters s.scope)
    {previous : SymbolId} (hi : t.scopes.insert s = .error previous) :
    g.scopes.insert s = .error previous ∧ Finds previous
  resolveSymbol {t : Tables} {g : Side} (h : Holds t g) {id : SymbolId} (hs : Sets id)
    {v : SymbolValue} (hv : v.Bindable Sees Stores) :
    Leads t g (t.withScopes (t.scopes.resolve id v)) (g.withScopes (g.scopes.resolve id v))
  addRecipe {t : Tables} {g : Side} (h : Holds t g) {r : Recipe} (hs : Sees r.scope)
    {key : Occurrence} (unknown : t.polyLiterals.lookup key = none) :
    Leads t g { t with
      recipes := t.recipes.push r
      polyLiterals := (key, t.recipes.nextId) :: t.polyLiterals } g
  -- a signature is analysed after the function turned out not to be known
  addLiteral {t t1 : Tables} {g g1 : Side} {key : Occurrence}
    (unknown : t.fnLiterals.lookup key = none) (signature : Leads t g t1 g1) {func : Function}
    (declared : func.Declared) (source : Source) (lit : source.lit = key.1) :
    Leads t g { t1.withFunction func source with
      fnLiterals := (key, t1.code.fns.nextId) :: t1.fnLiterals } (g1.declare func t1.code.fns.nextId)
  addSpecialization {t t1 : Tables} {g g1 : Side} {key : RecipeId × List TypeId}
    (unknown : t.specializations.lookup key = none) (signature : Leads t g t1 g1)
    {func : Function} (declared : func.Declared) (source : Source) :
    Leads t g { t1.withFunction func source with
      specializations := (key, t1.code.fns.nextId) :: t1.specializations } (g1.declare func t1.code.fns.nextId)
  declareStruct {t : Tables} {g : Side} (h : Holds t g) {key : Occurrence}
    {members : List Field} (kind : ast.kind key.1 = .structType members)
    (unknown : t.nominals.lookup key = none) (name : String) (span : Span) (task : TaskId) :
    Leads t g { t with
      types := (t.types.declareStruct name span).1
      structTasks := ((t.types.declareStruct name span).2.1, task) :: t.structTasks
      nominals := (key, (t.types.declareStruct name span).2.2) :: t.nominals } g
  declareEnum {t t1 : Tables} {g g1 : Side} {key : Occurrence} {base : Option NodeId}
    {variants : List Variant} (kind : ast.kind key.1 = .enumType base variants)
    (unknown : t.nominals.lookup key = none) (based : Leads t g t1 g1) (name : String)
    {ty : TypeId} (int : t1.types.isInt ty = true) (span : Span) :
    Leads t g { t1 with
      types := (t1.types.declareEnum name ty span).1
      nominals := (key, (t1.types.declareEnum name ty span).2.2) :: t1.nominals } g1

/-- The policy is about runs in this context. -/
structure Policy.Suits (p : Policy) (c : Context) : Prop where
  ast : c.ast = p.ast
  folds : p.Folds → c.config.foldConstants = true

/-- Both runs end in the same way. -/
inductive Policy.Agree {α : Type} (p : Policy) (P : α → Prop) (t : Tables) (g : Side) :
    EStateM.Result Halt Tables α → EStateM.Result Halt Tables α → Prop
  | ok {a : α} {t' : Tables} {g' : Side} (leads : p.Leads t g t' g') (gives : P a) :
    Agree p P t g (.ok a t') (.ok a (t'.beside g'))
  | error {e : Halt} {t' : Tables} {g' : Side} (leads : p.Leads t g t' g')
    (guided : p.Relies → e.Guided) : Agree p P t g (.error e t') (.error e (t'.beside g'))

namespace Policy.Agree

variable {α : Type} {p : Policy} {P Q : α → Prop} {t t' : Tables} {g g' : Side}
  {r r' : EStateM.Result Halt Tables α}

theorem imp (h : p.Agree P t g r r') (hP : ∀ a, P a → Q a) : p.Agree Q t g r r' := by
  cases h with
  | ok leads gives => exact .ok leads (hP _ gives)
  | error leads guided => exact .error leads guided

theorem after (h : p.Agree P t' g' r r') (first : p.Leads t g t' g') : p.Agree P t g r r' := by
  cases h with
  | ok leads gives => exact .ok (p.trans first leads) gives
  | error leads guided => exact .error (p.trans first leads) guided

end Policy.Agree

/-! ## Analysis -/

namespace Analysis

variable {α β : Type} {p : Policy} {x y : Analysis α} {k : α → Analysis β}

/-- The piece of analysis abides by the policy, and `P` holds of what it gives. -/
def Gives (p : Policy) (x : Analysis α) (P : α → Prop) : Prop :=
  ∀ c t g, p.Suits c → p.Holds t g → p.Agree P t g (x c t) (x c (t.beside g))

abbrev Abides (p : Policy) (x : Analysis α) : Prop := Gives p x fun _ => True

/-- The piece of analysis reads context and tables, but neither scopes nor tasks. -/
structure Views (x : Analysis α) (v : Context → Tables → α) : Prop where
  reads : Reads x v
  blind : ∀ c t g, v c (t.beside g) = v c t

theorem types_views : Views types fun _ t => t.types := ⟨types_reads, fun _ _ _ => rfl⟩

theorem code_views : Views code fun _ t => t.code := ⟨code_reads, fun _ _ _ => rfl⟩

theorem node_views (n) : Views (node n) fun c _ => c.ast.node n :=
  ⟨node_reads n, fun _ _ _ => rfl⟩

theorem spanOf_views (n) : Views (spanOf n) fun c _ => c.ast.span n :=
  ⟨spanOf_reads n, fun _ _ _ => rfl⟩

theorem folding_views : Views folding fun c _ => c.config.foldConstants :=
  ⟨folding_reads, fun _ _ _ => rfl⟩

theorem quoted_views (ty) : Views (quoted ty) fun _ t => "`" ++ t.types.name ty ++ "`" :=
  ⟨quoted_reads ty, fun _ _ _ => rfl⟩

theorem setting_views : Views setting fun c t => ⟨c.config.limits, t.types, t.code, c.host⟩ :=
  ⟨setting_reads, fun _ _ _ => rfl⟩

theorem read_views : Views read fun c _ => c := ⟨read_reads, fun _ _ _ => rfl⟩

namespace Gives

variable {P : α → Prop} {Q : β → Prop}

theorem imp {P' : α → Prop} (h : Gives p x P) (hP : ∀ a, P a → P' a) : Gives p x P' :=
  fun c t g hc ht => (h c t g hc ht).imp hP

protected theorem pure {a : α} (h : P a) : Gives p (pure a) P :=
  fun _ _ _ _ ht => .ok (p.refl ht) h

protected theorem throw {h} (guided : h.Guided) :
    Gives p (throw h) P := fun _ _ _ _ ht => .error (p.refl ht) fun _ => guided

theorem thrown {h} (guided : h.Guided) :
    Gives p (throw h >>= k) Q := fun _ _ _ _ ht => .error (p.refl ht) fun _ => guided

protected theorem bind (h : Gives p x P) (h' : ∀ a, P a → Gives p (k a) Q) : Gives p (x >>= k) Q := by
  intro c t g hc ht
  have hx := h c t g hc ht
  simp only [bind, ReaderT.bind, EStateM.bind]
  generalize x c t = r, x c (t.beside g) = r' at hx ⊢
  cases hx with
  | ok leads gives => exact (h' _ gives c _ _ hc (p.holds leads)).after leads
  | error leads guided => exact .error leads guided

theorem views {v : Context → Tables → α} (hx : Views x v)
    (h : ∀ c t g, p.Suits c → p.Holds t g → Gives p (k (v c t)) Q) : Gives p (x >>= k) Q := by
  intro c t g hc ht
  rw [reads_bind hx.reads, reads_bind hx.reads, hx.blind]
  exact h c t g hc ht c t g hc ht

theorem reads {v : Context → Tables → α} (hx : Views x v) (h : ∀ a, Gives p (k a) Q) :
    Gives p (x >>= k) Q := .views hx fun _ _ _ _ _ => h _

protected theorem get {k : Tables → Analysis β} (blind : ∀ t g, p.Holds t g → k (t.beside g) = k t)
    (h : ∀ t g, p.Holds t g → Gives p (k t) Q) : Gives p (get >>= k) Q := by
  intro c t g hc ht
  rw [reads_bind get_reads, reads_bind get_reads, blind t g ht]
  exact h t g ht c t g hc ht

protected theorem scopes {k : Scopes → Analysis β}
    (h : ∀ t g, p.Holds t g → k g.scopes = k t.scopes ∧ Gives p (k t.scopes) Q) :
    Gives p (scopes >>= k) Q := by
  intro c t g hc ht
  rw [reads_bind scopes_reads, reads_bind scopes_reads]
  show p.Agree Q t g _ (k g.scopes c (t.beside g))
  rw [(h t g ht).1]
  exact (h t g ht).2 c t g hc ht

protected theorem ite {q : Prop} [Decidable q] (h : q → Gives p x P) (h' : ¬ q → Gives p y P) :
    Gives p (if q then x else y) P := by
  split
  · next hq => exact h hq
  · next hq => exact h' hq

protected theorem map {f : α → β} (h : Gives p x fun a => Q (f a)) : Gives p (f <$> x) Q := by
  rw [map_eq_pure_bind]
  exact h.bind fun _ ha => .pure ha

theorem retype {f : Tables → α × Tables}
    (blind : ∀ t g, f (t.beside g) = ((f t).1, (f t).2.beside g))
    (change : ∀ t, ∃ types strays, (f t).2 = { t with types, strays } ∧ t.types.Refines types) :
    Abides p (modifyGet f) := by
  intro c t g hc ht
  obtain ⟨types, strays, heq, hrefines⟩ := change t
  show p.Agree _ t g (.ok (f t).1 (f t).2) (.ok (f (t.beside g)).1 (f (t.beside g)).2)
  rw [blind, heq]
  exact .ok (p.retype ht hrefines strays) trivial

protected theorem mapM {f : α → Analysis β} (h : ∀ a, Abides p (f a)) (l : List α) : Abides p (l.mapM f) := by
  induction l with
  | nil =>
    rw [List.mapM_nil]
    exact .pure trivial
  | cons a l ih =>
    rw [List.mapM_cons]
    exact (h a).bind fun _ _ => ih.bind fun _ _ => .pure trivial

theorem foldlM {f : β → α → Analysis β} (h : ∀ b a, Abides p (f b a)) (l : List α)
    (b : β) : Abides p (l.foldlM f b) := by
  induction l generalizing b with
  | nil => exact .pure trivial
  | cons a l ih =>
    rw [List.foldlM_cons]
    exact (h b a).bind fun b' _ => ih b'

protected theorem forM {f : α → Analysis PUnit} (h : ∀ a, Abides p (f a)) (l : List α) : Abides p (l.forM f) := by
  induction l with
  | nil => exact .pure trivial
  | cons a l ih =>
    show Abides p (f a >>= fun _ => l.forM f)
    exact (h a).bind fun _ _ => ih

end Gives

end Analysis

/-! ## Writing code -/

namespace Lower

variable {α β : Type} {p : Policy} {d : Draft} {x y : Lower α} {k : α → Lower β}

/-- The piece of analysis abides by the policy, and `Q` holds of what it gives and of the draft after
it. -/
def Gives (p : Policy) (x : Lower α) (d : Draft) (Q : α → Draft → Prop) : Prop :=
  Analysis.Gives p (x d) fun r => Q r.1 r.2

namespace Gives

variable {P : α → Draft → Prop} {Q : β → Draft → Prop}

theorem imp {P' : α → Draft → Prop} (h : Gives p x d P) (hP : ∀ a d', P a d' → P' a d') :
    Gives p x d P' := Analysis.Gives.imp h fun r => hP r.1 r.2

protected theorem pure {a : α} (h : P a d) : Gives p (pure a) d P :=
  fun _ _ _ _ ht => .ok (p.refl ht) h

protected theorem throw {h} (guided : h.Guided) :
    Gives p (throw h) d P := fun _ _ _ _ ht => .error (p.refl ht) fun _ => guided

theorem thrown {h} (guided : h.Guided) :
    Gives p (throw h >>= k) d Q := fun _ _ _ _ ht => .error (p.refl ht) fun _ => guided

protected theorem ite {q : Prop} [Decidable q] (h : q → Gives p x d P) (h' : ¬ q → Gives p y d P) :
    Gives p (if q then x else y) d P := by
  split
  · next hq => exact h hq
  · next hq => exact h' hq

protected theorem get {k : Draft → Lower β} (h : Gives p (k d) d Q) : Gives p (get >>= k) d Q := h

protected theorem read {k : Context → Lower β} (h : ∀ c, Gives p (k c) d Q) :
    Gives p (read >>= k) d Q := fun c t g hc ht => h c c t g hc ht

protected theorem modifyGet {f : Draft → α × Draft} (h : P (f d).1 (f d).2) :
    Gives p (modifyGet f) d P := fun _ _ _ _ ht => .ok (p.refl ht) h

protected theorem modify {f : Draft → Draft} {P : PUnit → Draft → Prop} (h : P ⟨⟩ (f d)) :
    Gives p (modify f) d P := fun _ _ _ _ ht => .ok (p.refl ht) h

theorem modifyBind {f : Draft → Draft} {k : PUnit → Lower β} (h : Gives p (k ⟨⟩) (f d) Q) :
    Gives p (modify f >>= k) d Q := h

theorem modifyGetBind {f : Draft → α × Draft} (h : Gives p (k (f d).1) (f d).2 Q) :
    Gives p (modifyGet f >>= k) d Q := h

protected theorem bind (h : Gives p x d P) (h' : ∀ a d', P a d' → Gives p (k a) d' Q) : Gives p (x >>= k) d Q :=
  Analysis.Gives.bind h fun r hr => h' r.1 r.2 hr

theorem lift {x} (h : Analysis.Gives p x fun a => P a d) : Gives p (liftM x) d P :=
  Analysis.Gives.map (f := fun a => (a, d)) h

theorem liftBind {x} {P : α → Prop} (h : Analysis.Gives p x P) (h' : ∀ a, P a → Gives p (k a) d Q) :
    Gives p (liftM x >>= k) d Q := by
  refine Gives.bind (P := fun a d' => d' = d ∧ P a) (.lift (h.imp fun _ ha => ⟨rfl, ha⟩)) ?_
  rintro a d' ⟨rfl, ha⟩
  exact h' a ha

theorem views {x} {v : Context → Tables → α} (hx : Analysis.Views x v)
    (h : ∀ c t g, p.Suits c → p.Holds t g → Gives p (k (v c t)) d Q) : Gives p (liftM x >>= k) d Q := by
  intro c t g hc ht
  rw [reads_bind hx.reads, reads_bind hx.reads, hx.blind]
  exact h c t g hc ht c t g hc ht

theorem reads {x} {v : Context → Tables → α} (hx : Analysis.Views x v) (h : ∀ a, Gives p (k a) d Q) :
    Gives p (liftM x >>= k) d Q := .views hx fun _ _ _ _ _ => h _

protected theorem scopes {k : Scopes → Lower β}
    (h : ∀ t g, p.Holds t g → k g.scopes = k t.scopes ∧ Gives p (k t.scopes) d Q) :
    Gives p (liftM Analysis.scopes >>= k) d Q := by
  intro c t g hc ht
  rw [reads_bind Analysis.scopes_reads, reads_bind Analysis.scopes_reads]
  show p.Agree _ t g _ (k g.scopes d c (t.beside g))
  rw [(h t g ht).1]
  exact (h t g ht).2 c t g hc ht

protected theorem tryCatch {k : Halt → Lower α} (h : Gives p x d P) (h' : ∀ e, Gives p (k e) d P) :
    Gives p (tryCatch x k) d P := by
  intro c t g hc ht
  have hx := h c t g hc ht
  show p.Agree _ t g (EStateM.tryCatch (x d c) (fun e => k e d c) t)
    (EStateM.tryCatch (x d c) (fun e => k e d c) (t.beside g))
  unfold EStateM.tryCatch
  generalize x d c t = r, x d c (t.beside g) = r' at hx ⊢
  cases hx with
  | ok leads gives => exact .ok leads gives
  | error leads _ => exact (h' _ c _ _ hc (p.holds leads)).after leads

theorem run (h : Gives p x d P) : Analysis.Gives p (x.run d) fun r => P r.1 r.2 := h

protected theorem aside (h : Gives p x d P) {P' : α → Prop} (hP : ∀ a d', P a d' → P' a) :
    Analysis.Gives p (Lower.aside d x) P' :=
  .map (f := Prod.fst) (Analysis.Gives.imp h fun r hr => hP r.1 r.2 hr)

end Gives

end Lower

/-! ### What is deferred -/

/-- Deferred statements are analysed in scopes of their own, which new symbols may go into. -/
def Draft.Fresh (p : Policy) (d : Draft) : Prop :=
  ∀ l ∈ d.defers, ∀ s ∈ l, p.Enters s.2

theorem Draft.Fresh.plain {p} {d d' : Draft} (h : d.Fresh p) (hplain : d.Plain d') : d'.Fresh p := by
  rw [Draft.Fresh, hplain.defers]
  exact h

/-- Something may have been deferred in the innermost block, unless all this is deferred itself. -/
structure Draft.Defers (d d' : Draft) : Prop where
  outer : d'.defers.tail = d.defers.tail
  inDefer : d'.inDefer = d.inDefer
  kept : d.inDefer = true → d'.defers = d.defers

namespace Draft

variable {d d' d'' : Draft}

theorem Plain.deferring (h : d.Plain d') : d.Defers d' := ⟨congrArg List.tail h.defers, h.inDefer, fun _ => h.defers⟩

theorem Defers.trans (h : d.Defers d') (h' : d'.Defers d'') : d.Defers d'' :=
  ⟨h'.outer.trans h.outer, h'.inDefer.trans h.inDefer, fun hd => (h'.kept (h.inDefer.trans hd)).trans (h.kept hd)⟩

end Draft

end Comptime
