import Comptime.Analysis.Task
import Comptime.Proofs.Analysis.Sound
import Comptime.Proofs.Machine.Incomplete
import Comptime.Proofs.Schedule.Kind
import Comptime.Proofs.Type.Containment
import Comptime.Proofs.Type.Incomplete

/-!
# Updates of the tables

All that a run of a task may do to the tables, one update at a time, with what holds of the tables
when the update is made. Every invariant of the analysis is kept by each of these, and so by every
run: the tables grow, they stay sound, tasks are submitted but never touched otherwise, and nothing
is reported.

A struct gets its members once their types have been analysed, which is a run of updates in itself. It
may have come to the node of the same struct and completed it. The members found there are replaced
then. So the tables do not grow from one update to the next, but they do grow from before the types of
the members were analysed, when the struct had no members. Nothing but types comes out of that analysis
(`Frame`), and types are what they are whatever the members of a struct.

One thing may happen beyond that, at the end of a run only: the members of a struct are entered, its
layout turns out to be impossible, and the run halts with an error (`Refusal`).

A run that halts has a reason to (`Explains`): it waits for a task that something in the tables
awaits, it reports an error, or something else has failed before.
-/

namespace Comptime

/-- The symbol belongs into a scope of a function, where it is resolved when it is entered or by the
run that has entered it. -/
structure Symbol.Inner (s : Symbol) : Prop where
  storage : s.storage ≠ .global
  state : s.state = .unresolved none ∨ ∃ v, s.state = .resolved v

/-- The halt reports an error itself. -/
def Halt.isPlain : Halt → Bool
  | .error d => d.isError
  | .trap _ | .fatal _ => true
  | .postpone _ | .silent => false

namespace Tables

def Running (t : Tables) (task : TaskId) : Prop := t.scheduler.state task = .queued

/-- The struct has got its members. -/
def withMembers (t : Tables) (id : StructId) (members : List Member) : Tables :=
  { t with types := t.types.completeStruct id members }

/-- The function has changed. -/
def withFn (t : Tables) (f : FnId) (change : Function → Function) : Tables :=
  { t with code := t.code.modifyFn f change }

/-- The analysis of types binds no name to a value, writes no code and adds no globals. -/
structure Frame (t t' : Tables) : Prop where
  constants : ∀ id ty v, (t'.scopes.symbol id).state = .resolved (.const ty v) →
    (t.scopes.symbol id).state = .resolved (.const ty v)
  bodies : ∀ f, t.code.fns.Has f ∧ t'.code.function f = t.code.function f ∨
    (t'.code.function f).instrs = .empty
  globals : t'.code.globals = t.code.globals

/-- The types of the members of a struct have been analysed, which had no members before. -/
structure Completes (t t' : Tables) (id : StructId) (ty : TypeId) (members : List Member) : Prop where
  kind : t.types.kind ty = .struct id
  unknown : (t.types.structDef id).members = none
  frame : t.Frame t'
  named : ∀ m ∈ members, t'.HasType m.ty

/-- One change of the tables. -/
inductive Update : Tables → Tables → Prop
  | intern {t : Tables} {k : TypeKind} (builds : t.types.Builds k)
    (parts : t.Sane → ∀ p ∈ k.parts, t.types.Knows p) :
    Update t { t with types := (t.types.intern k).1 }
  | createScope {t : Tables} {kind : ScopeKind} {parent : ScopeId} :
    Update t { t with scopes := (t.scopes.create kind (some parent)).1 }
  | insertSymbol {t : Tables} {s : Symbol} {scopes : Scopes} {id : SymbolId}
    (free : t.scopes.insert s = .ok (scopes, id)) (inner : s.Inner)
    (sound : ∀ v, s.state = .resolved v → t.Sane → v.Sound t) : Update t { t with scopes }
  | resolveSymbol {t : Tables} {id : SymbolId} {v : SymbolValue} (sound : t.Sane → v.Sound t) :
    Update t { t with scopes := t.scopes.resolve id v }
  | addFunction {t : Tables} {func : Function} {source : Source} {scheduler : Scheduler}
    (signature : t.types.kind func.ty = .fn func.params func.ret)
    (bare : func.instrs = .empty)
    (bindings : ∀ b ∈ source.bindings, t.HasType b.2)
    (unfailed : func.state ≠ .failed)
    (task : scheduler = if func.native.isSome then t.scheduler
      else (t.scheduler.submit (.body t.code.fns.nextId)).1) :
    Update t { t with
      code := { t.code with fns := t.code.fns.push func }
      sources := t.sources.push source
      scheduler }
  | addRecipe {t : Tables} {r : Recipe} {key : Occurrence} {id : RecipeId} :
    Update t { t with recipes := t.recipes.push r, polyLiterals := (key, id) :: t.polyLiterals }
  | addLiteral {t : Tables} {key : Occurrence} {f : FnId} (has : t.HasFn f) :
    Update t { t with fnLiterals := (key, f) :: t.fnLiterals }
  | addSpecialization {t : Tables} {key : RecipeId × List TypeId} {f : FnId} {text : String}
    (has : t.HasFn f) :
    Update t { t with
      code := t.code.modifyFn f fun func => { func with specialization := some text }
      specializations := (key, f) :: t.specializations }
  | declareStruct {t : Tables} {name : String} {span : Span} {id : StructId} {task : TaskId}
    (running : t.Running task) :
    Update t { t with
      types := (t.types.declareStruct name span).1
      structTasks := (id, task) :: t.structTasks }
  | declareEnum {t : Tables} {name : String} {base : TypeId} {span : Span}
    (int : t.types.isInt base = true) :
    Update t { t with types := (t.types.declareEnum name base span).1 }
  | remember {t : Tables} {key : Occurrence} {ty : TypeId} (has : t.HasType ty) :
    Update t { t with nominals := (key, ty) :: t.nominals }
  | completeEnum {t : Tables} {id : EnumId} {variants : List (String × UInt64)}
    (canonical : t.Sane → ∀ v ∈ variants, t.types.CanonicalAt (t.types.enumDef id).base v.2) :
    Update t { t with types := t.types.completeEnum id variants }
  | addGlobal {t : Tables} {g : Global} (value : t.HasConst g.ty g.value) :
    Update t { t with code := { t.code with globals := t.code.globals.push g } }
  | startBody {t : Tables} {f : FnId} {task : TaskId} (running : t.Running task)
    (kind : t.scheduler.kind task = .body f) :
    Update t (t.withFn f fun func => { func with state := .analyzing })
  | install {t : Tables} {f : FnId} {body : Function}
    (result : t.Sane → body.ret = (t.code.function f).ret)
    (linked : body.Linked t.code) (typed : t.Sane → body.Typed t.types t.code) :
    Update t (t.withFn f fun func => { func.install body with state := .analyzed })
  | result {t : Tables} {task : TaskId} {v : Value} (running : t.Running task) :
    Update t { t with results := (task, v) :: t.results }
  | stray {t : Tables} {ty : TypeId} {v : Value} :
    Update t { t with strays := (ty, v) :: t.strays }

/-- What a run makes of the tables. -/
inductive Updates : Tables → Tables → Prop
  | refl (t : Tables) : Updates t t
  | tail {t t1 t2 : Tables} (before : Updates t t1) (update : Update t1 t2) : Updates t t2
  | complete {t t1 t2 : Tables} {id : StructId} {ty : TypeId} {members : List Member}
    (before : Updates t t1) (analysis : Updates t1 t2) (completes : t1.Completes t2 id ty members)
    (possible : ∀ e, (t2.withMembers id members).types.layout ty = .error e → e.isFinal = false) :
    Updates t (t2.withMembers id members)

/-- A struct gets its members and has no layout with them. -/
inductive Refusal : Tables → Tables → Prop
  | complete {t t' : Tables} {id : StructId} {ty : TypeId} {members : List Member}
    (analysis : t.Updates t') (completes : t.Completes t' id ty members) {e : LayoutError}
    (impossible : (t'.withMembers id members).types.layout ty = .error e) (final : e.isFinal = true) :
    Refusal t (t'.withMembers id members)

/-- Something waits for a task to be done. -/
inductive Awaits (t : Tables) (task : TaskId) : Prop
  | symbol {id : SymbolId} (state : (t.scopes.symbol id).state = .unresolved (some task))
  | struct {id : StructId} (isOpen : t.types.IsOpen id)
    (declares : t.structTasks.lookup id = some task)
  | body {f : FnId} (unfinished : (t.code.function f).Unfinished)
    (found : t.scheduler.find? (.body f) = some task)

/-- Something that the program refers to has failed. -/
inductive Lost (t : Tables) : Prop
  | symbol {scope : ScopeId} {name : String} {id : SymbolId}
    (declared : t.scopes.declared? scope name = some id)
    (failed : (t.scopes.symbol id).state = .failed)
  | function {f : FnId} (has : t.code.fns.Has f) (failed : (t.code.function f).state = .failed)

/-- The reason to halt is a good one. -/
def Explains (t : Tables) : Halt → Prop
  | .postpone task => t.Awaits task
  | .error d => d.isError = true
  | .silent => t.Lost
  | .trap _ | .fatal _ => True

theorem explains_of_isPlain (t : Tables) {h : Halt} (plain : h.isPlain = true) : t.Explains h := by
  cases h with
  | error d => exact plain
  | trap | fatal => trivial
  | postpone | silent => cases plain

/-- What the tables have become when a run halts. -/
structure Halts (t : Tables) (h : Halt) (t' : Tables) : Prop where
  change : t.Updates t' ∨ ∃ t1 d, t.Updates t1 ∧ t1.Refusal t' ∧ h = .error d
  reason : t'.Explains h

theorem Updates.trans {t1 t2 : Tables} {t3} (h : t1.Updates t2) (h' : t2.Updates t3) :
    t1.Updates t3 := by
  induction h' with
  | refl => exact h
  | tail _ update ih => exact (ih h).tail update
  | complete _ analysis completes possible ih => exact (ih h).complete analysis completes possible

theorem Update.updates {t : Tables} {t'} (h : t.Update t') : t.Updates t' := (Updates.refl t).tail h

theorem Frame.refl (t : Tables) : t.Frame t := by
  refine ⟨fun _ _ _ h => h, fun f => ?_, rfl⟩
  by_cases hf : t.code.fns.Has f
  · exact .inl ⟨hf, rfl⟩
  · exact .inr (by rw [Code.function, Pool.getD_of_not_has hf]; rfl)

theorem Frame.trans {t1 t2 t3 : Tables} (h : t1.Frame t2) (h' : t2.Frame t3) : t1.Frame t3 := by
  refine ⟨fun id ty v hv => h.constants id ty v (h'.constants id ty v hv), fun f => ?_, h'.globals.trans h.globals⟩
  rcases h'.bodies f with ⟨-, heq⟩ | hempty
  · rw [heq]
    exact h.bodies f
  · exact .inr hempty

theorem Updates.halts {t t' : Tables} {t'' h} (u : t.Updates t') (h' : t'.Halts h t'') : t.Halts h t'' := by
  refine ⟨?_, h'.reason⟩
  rcases h'.change with u' | ⟨t1, d, u', h'⟩
  · exact .inl (u.trans u')
  · exact .inr ⟨t1, d, u.trans u', h'⟩

/-! ## Growth -/

section

variable {t t' : Tables}

theorem modifyFn_grows (c : Code) (f) {change : Function → Function} (type : ∀ g, (change g).ty = g.ty)
    (params : ∀ g, (change g).params = g.params) (ret : ∀ g, (change g).ret = g.ret) :
    c.Grows (c.modifyFn f change) where
  size := by simp [Code.modifyFn]
  has h := Pool.has_modify.mpr h
  type _ := Pool.view_modify Function.ty type c.fns f _ default
  params _ := Pool.view_modify Function.params params c.fns f _ default
  ret _ := Pool.view_modify Function.ret ret c.fns f _ default
  hasGlobal := id
  global _ := rfl

private theorem pushFn_grows (c : Code) (func : Function) : c.Grows { c with fns := c.fns.push func } where
  size := by simp
  has h := h.push func
  type h := by simp only [Code.function, Pool.getD_push_of_has h]
  params h := by simp only [Code.function, Pool.getD_push_of_has h]
  ret h := by simp only [Code.function, Pool.getD_push_of_has h]
  hasGlobal := id
  global _ := rfl

theorem pushGlobal_grows (c : Code) (g : Global) : c.Grows { c with globals := c.globals.push g } where
  size := Nat.le_refl _
  has := id
  type _ := rfl
  params _ := rfl
  ret _ := rfl
  hasGlobal h := h.push g
  global h := Pool.getD_push_of_has h _ _

theorem Grows.ofTypes {types} (h : t.types.Grows types) : t.Grows { t with types } := ⟨h, .refl _, id⟩

theorem Grows.ofCode {code} (h : t.code.Grows code) : t.Grows { t with code } :=
  ⟨.refl _, h, id⟩

theorem Grows.ofSame (types : t'.types = t.types) (code : t'.code = t.code)
    (strays : t'.strays = [] → t.strays = []) : t.Grows t' :=
  ⟨types ▸ .refl _, code ▸ .refl _, strays⟩

theorem Update.grows (h : t.Update t') : t.Grows t' := by
  cases h with
  | intern => exact .ofTypes (TypeTable.intern_grows _ _)
  | createScope => exact .ofSame rfl rfl id
  | insertSymbol => exact .ofSame rfl rfl id
  | resolveSymbol => exact .ofSame rfl rfl id
  | addFunction => exact ⟨.refl _, pushFn_grows _ _, id⟩
  | addRecipe => exact .ofSame rfl rfl id
  | addLiteral => exact .ofSame rfl rfl id
  | addSpecialization =>
    exact ⟨.refl _, modifyFn_grows _ _ (fun _ => rfl) (fun _ => rfl) (fun _ => rfl), id⟩
  | declareStruct => exact ⟨TypeTable.declareStruct_grows _ _, .refl _, id⟩
  | declareEnum => exact .ofTypes (TypeTable.declareEnum_grows _ _ _)
  | remember => exact .ofSame rfl rfl id
  | completeEnum => exact .ofTypes (TypeTable.completeEnum_grows _ _)
  | addGlobal => exact .ofCode (pushGlobal_grows _ _)
  | startBody =>
    exact .ofCode (modifyFn_grows _ _ (fun _ => rfl) (fun _ => rfl) (fun _ => rfl))
  | install =>
    exact .ofCode (modifyFn_grows _ _ (fun _ => rfl) (fun _ => rfl) (fun _ => rfl))
  | result => exact .ofSame rfl rfl id
  | stray => exact .ofSame rfl rfl (fun h => by cases h)

theorem Completes.grows {id ty members} (h : t.Completes t' id ty members) (g : t.Grows t') :
    t.Grows (t'.withMembers id members) := ⟨g.types.completeStruct h.unknown members, g.code, g.strays⟩

theorem Updates.grows (u : t.Updates t') : t.Grows t' := by
  induction u with
  | refl t => exact .refl t
  | tail _ h ih => exact ih.trans h.grows
  | complete _ _ completes _ ih ih' => exact ih.trans (completes.grows ih')

theorem Refusal.grows (h : t.Refusal t') : t.Grows t' := by
  cases h with
  | complete analysis completes => exact completes.grows analysis.grows

end

/-! ## Soundness -/

section

variable {t t' : Tables}

theorem Proper.ofSame (h : t.Proper) (hp : t.types.Proper) (types : t'.types = t.types) (scopes : t'.scopes = t.scopes)
    (code : t'.code = t.code) (strays : t'.strays = [] → t.strays = [])
    (notes : t.Grows t' → t'.NotesSound) : t'.Proper := by
  have g : t.Grows t' := .ofSame types code strays
  exact ⟨types ▸ h.named, h.symbols.grow hp g scopes, h.code.grow hp g code, notes g⟩

theorem Proper.ofTypes (h : t.Proper) (hp : t.types.Proper) {types} (g : t.types.Grows types) (hn : types.Named) :
    Proper { t with types } := by
  have g : t.Grows { t with types } := .ofTypes g
  exact ⟨hn, h.symbols.grow hp g rfl, h.code.grow hp g rfl, h.notes.grow g rfl rfl rfl rfl⟩

theorem Proper.ofScopes (h : t.Proper) (hp : t.types.Proper) {scopes}
    (symbols : ∀ id v, (scopes.symbol id).state = .resolved v → (t.scopes.symbol id).state = .resolved v ∨ v.Sound t) :
    Proper { t with scopes } := by
  have g : t.Grows { t with scopes } := .ofSame rfl rfl id
  refine ⟨h.named, fun id v hv => ?_, h.code.grow hp g rfl, h.notes.grow g rfl rfl rfl rfl⟩
  rcases symbols id v hv with hs | hs
  · exact (h.symbols id v hs).grow hp g
  · exact hs.grow hp g

theorem Proper.ofCode (h : t.Proper) (hp : t.types.Proper) {code} (g : t.code.Grows code) (hc : CodeSound { t with code }) :
    Proper { t with code } := by
  have g : t.Grows { t with code } := .ofCode g
  exact ⟨h.named, h.symbols.grow hp g rfl, hc, h.notes.grow g rfl rfl rfl rfl⟩

theorem Proper.insertSymbol (h : t.Proper) (hp : t.types.Proper) {s scopes id} (hi : t.scopes.insert s = .ok (scopes, id))
    (hs : ∀ v, s.state = .resolved v → v.Sound t) : Proper { t with scopes } := by
  unfold Scopes.insert at hi
  split at hi
  · cases hi
  · cases hi
    refine h.ofScopes hp fun j v hv => ?_
    simp only [Scopes.symbol, Pool.getD_push] at hv
    split at hv
    · exact .inr (hs v hv)
    · exact .inl hv

theorem Proper.setSymbol (h : t.Proper) (hp : t.types.Proper) {id state} (hs : ∀ v, state = .resolved v → v.Sound t) :
    Proper { t with scopes := t.scopes.setState id state } := by
  refine h.ofScopes hp fun j v hv => ?_
  by_cases hj : j = id
  · subst hj
    by_cases hh : t.scopes.symbols.Has j
    · simp only [Scopes.symbol, Scopes.setState, Pool.getD_modify_self hh] at hv
      exact .inr (hs v hv)
    · have hn : ¬ (t.scopes.setState j state).symbols.Has j := by simpa [Scopes.setState] using hh
      rw [Scopes.symbol, Pool.getD_of_not_has hn] at hv
      cases hv
  · simp only [Scopes.symbol, Scopes.setState, Pool.getD_modify_of_ne hj] at hv
    exact .inl hv

theorem CodeSound.pushFn (h : t.CodeSound) (hp : t.types.Proper) {func} (g : t.Grows t') (types : t'.types = t.types)
    (code : t'.code = { t.code with fns := t.code.fns.push func })
    (signature : t.types.kind func.ty = .fn func.params func.ret) (bare : func.instrs = .empty) : t'.CodeSound where
  signature f hf := by
    simp only [code, types, Code.function, Pool.has_push, Pool.getD_push] at hf ⊢
    split
    · exact signature
    · next hn => exact h.signature f (hf.resolve_right hn)
  bodies f hf ha := by
    have gc := g.code
    simp only [code, types, Code.function, Pool.has_push, Pool.getD_push] at hf ha gc ⊢
    split at ha
    · next he =>
      rw [if_pos he]
      exact .ofEmpty bare
    · next he =>
      rw [if_neg he]
      exact (h.bodies f (hf.resolve_right he) ha).grow hp (.refl _) gc
  globals i hi := by
    simp only [code, types] at hi ⊢
    exact h.globals i hi

theorem CodeSound.modifyFn (h : t.CodeSound) (hp : t.types.Proper) {f : FnId}
    {change : Function → Function} (g : t.Grows t') (types : t'.types = t.types)
    (code : t'.code = t.code.modifyFn f change)
    (body : t.code.fns.Has f → (change (t.code.function f)).state = .analyzed →
      (change (t.code.function f)).Typed t.types t.code) : t'.CodeSound where
  signature i hi := by
    have hi : t.code.fns.Has i := Pool.has_modify.mp (code ▸ hi)
    rw [types, g.code.type hi, g.code.params hi, g.code.ret hi]
    exact h.signature i hi
  bodies i hi ha := by
    have hi : t.code.fns.Has i := Pool.has_modify.mp (code ▸ hi)
    have gc := g.code
    rw [types]
    rw [code] at ha gc ⊢
    by_cases hf : i = f
    · subst hf
      simp only [Code.function, Code.modifyFn, Pool.getD_modify_self hi] at ha ⊢
      exact (body hi ha).grow hp (.refl _) gc
    · simp only [Code.function, Code.modifyFn, Pool.getD_modify_of_ne hf] at ha ⊢
      exact (h.bodies i hi ha).grow hp (.refl _) gc
  globals i hi := by
    rw [code] at hi
    rw [code, types]
    exact h.globals i hi

theorem CodeSound.pushGlobal (h : t.CodeSound) (hp : t.types.Proper) {v : Global} (value : v.value.fits t.types v.ty = true) :
    CodeSound { t with code := { t.code with globals := t.code.globals.push v } } := by
  have g : t.Grows { t with code := { t.code with globals := t.code.globals.push v } } :=
    .ofCode (pushGlobal_grows _ _)
  refine ⟨h.signature, fun f hf ha => ?_, fun i hi => ?_⟩
  · exact (h.bodies f hf ha).grow hp (.refl _) g.code
  · simp only [Code.global, Pool.has_push, Pool.getD_push] at hi ⊢
    split
    · exact value
    · next hn => exact h.globals i (hi.resolve_right hn)

theorem CodeSound.setState (h : t.CodeSound) (hp : t.types.Proper) {f state} (hs : state ≠ .analyzed) :
    (t.withFn f fun func => { func with state }).CodeSound := by
  have g : t.Grows (t.withFn f fun func => { func with state }) :=
    .ofCode (modifyFn_grows _ _ (fun _ => rfl) (fun _ => rfl) (fun _ => rfl))
  refine h.modifyFn hp g rfl rfl ?_
  intro _ ha
  exact absurd ha hs

theorem CodeSound.install (h : t.CodeSound) (hp : t.types.Proper) {f body} (hr : body.ret = (t.code.function f).ret)
    (hb : body.Typed t.types t.code) :
    (t.withFn f fun func => { func.install body with state := .analyzed }).CodeSound := by
  have g : t.Grows (t.withFn f fun func => { func.install body with state := .analyzed }) :=
    .ofCode (modifyFn_grows _ _ (fun _ => rfl) (fun _ => rfl) (fun _ => rfl))
  exact h.modifyFn hp g rfl rfl fun _ _ => hb.ofSameBody hp hr.symm rfl

theorem Update.properTypes (h : t.Update t') (hp : t.types.Proper) : t'.types.Proper := by
  cases h with
  | intern builds => exact hp.intern builds
  | declareStruct => exact hp.declareStruct _ _
  | declareEnum int => exact hp.declareEnum _ _ int
  | completeEnum => exact hp.completeEnum _ _
  | _ => exact hp

theorem linked_modifyFn (h : ∀ f, (t.code.function f).state = .analyzed → (t.code.function f).Linked t.code) {f : FnId}
    {change : Function → Function} (g : t.code.Grows (t.code.modifyFn f change))
    (body : (change (t.code.function f)).state = .analyzed → (change (t.code.function f)).Linked t.code) {i : FnId}
    (ha : ((t.code.modifyFn f change).function i).state = .analyzed) :
    ((t.code.modifyFn f change).function i).Linked (t.code.modifyFn f change) := by
  have hi : t.code.fns.Has i := Pool.has_modify.mp (Code.has_of_analyzed ha)
  by_cases hf : i = f
  · subst hf
    simp only [Code.function, Code.modifyFn, Pool.getD_modify_self hi] at ha ⊢
    exact (body ha).grow g
  · simp only [Code.function, Code.modifyFn, Pool.getD_modify_of_ne hf] at ha ⊢
    exact (h i ha).grow g

theorem Update.linked (h : t.Update t') (ht : ∀ f, (t.code.function f).state = .analyzed → (t.code.function f).Linked t.code)
    {f : FnId} (ha : (t'.code.function f).state = .analyzed) : (t'.code.function f).Linked t'.code := by
  have g := h.grows.code
  cases h with
  | addFunction _ bare =>
    simp only [Code.function, Pool.getD_push] at ha ⊢
    split at ha
    · next he =>
      rw [if_pos he]
      exact .ofEmpty bare
    · next he =>
      rw [if_neg he]
      exact (ht f ha).grow g
  | addSpecialization => exact linked_modifyFn ht g (fun ha => (ht _ ha).ofSameBody rfl) ha
  | startBody => exact linked_modifyFn ht g (fun ha => by cases ha) ha
  | install _ linked => exact linked_modifyFn ht g (fun _ => linked.ofSameBody rfl) ha
  | addGlobal => exact (ht f ha).grow g
  | _ => exact ht f ha

theorem Update.proper (h : t.Update t') (hs : t.Sane) (hp : t.types.Proper) (ht : t.Proper) : t'.Proper := by
  have g := h.grows
  cases h with
  | intern builds parts => exact ht.ofTypes hp g.types (ht.named.intern hp (parts hs))
  | createScope => exact ht.ofScopes hp fun _ _ hv => .inl hv
  | insertSymbol free inner sound => exact ht.insertSymbol hp free fun v hv => sound v hv hs
  | resolveSymbol sound =>
    refine ht.setSymbol hp ?_
    rintro v ⟨rfl⟩
    exact sound hs
  | addFunction signature bare bindings =>
    refine ⟨ht.named, ht.symbols.grow hp g rfl, ht.code.pushFn hp g rfl rfl signature bare, ?_⟩
    have hn := ht.notes
    refine ⟨fun p h => g.code.has (hn.literals p h), fun p h => g.code.has (hn.specializations p h),
      hn.nominals, fun f source hsrc b hb => ?_, ?_⟩
    · simp only [Pool.get?_push] at hsrc
      split at hsrc
      · cases hsrc
        exact bindings b hb hs
      · exact hn.sources f source hsrc b hb
    · simpa using hn.sourced
  | addRecipe => exact ht.ofSame hp rfl rfl rfl id fun g => ht.notes.grow g rfl rfl rfl rfl
  | addLiteral has =>
    refine ht.ofSame hp rfl rfl rfl id fun _ => { ht.notes with literals := fun p h => ?_ }
    rcases List.mem_cons.mp h with rfl | h
    · exact has hs
    · exact ht.notes.literals p h
  | addSpecialization has =>
    refine ⟨ht.named, ht.symbols.grow hp g rfl, ?_, ?_⟩
    · refine ht.code.modifyFn hp g rfl rfl fun hf ha => ?_
      exact (ht.code.bodies _ hf ha).ofSameBody hp rfl rfl
    · have hn := ht.notes
      refine ⟨fun p h => g.code.has (hn.literals p h), fun p h => ?_, hn.nominals, hn.sources,
        Nat.le_trans hn.sourced g.code.size⟩
      rcases List.mem_cons.mp h with rfl | h
      · exact g.code.has (has hs)
      · exact g.code.has (hn.specializations p h)
  | declareStruct =>
    exact ⟨ht.named.declareStruct hp _ _, ht.symbols.grow hp g rfl, ht.code.grow hp g rfl,
      ht.notes.grow g rfl rfl rfl rfl⟩
  | declareEnum int => exact ht.ofTypes hp g.types (ht.named.declareEnum hp _ _ int)
  | remember has =>
    refine ht.ofSame hp rfl rfl rfl id fun _ => { ht.notes with nominals := fun p h => ?_ }
    rcases List.mem_cons.mp h with rfl | h
    · exact has hs
    · exact ht.notes.nominals p h
  | completeEnum canonical => exact ht.ofTypes hp g.types (ht.named.completeEnum hp (canonical hs))
  | addGlobal value => exact ht.ofCode hp g.code (ht.code.pushGlobal hp (value hs))
  | startBody => exact ht.ofCode hp g.code (ht.code.setState hp (by simp))
  | install result _ typed => exact ht.ofCode hp g.code (ht.code.install hp (result hs) (typed hs))
  | result => exact ht.ofSame hp rfl rfl rfl id fun g => ht.notes.grow g rfl rfl rfl rfl
  | stray => exact ht.ofSame hp rfl rfl rfl (fun h => by cases h) fun g => ht.notes.grow g rfl rfl rfl rfl

/-- An update that is allowed keeps the tables sound. -/
theorem Update.sound (h : t.Update t') (ht : t.Sound) : t'.Sound := by
  refine ⟨h.properTypes ht.types, fun f ha => h.linked ht.linked ha, fun hs => ?_⟩
  have hs' := h.grows.sane hs
  exact h.proper hs' ht.types (ht.proper hs')

/-- What stands in the tables is typed by what was known before the types of the members were analysed. -/
theorem Completes.sound {id ty members} (h : t.Completes t' id ty members) (g : t.Grows t') (ht : t.Sound)
    (ht' : t'.Sound) : (t'.withMembers id members).Sound := by
  refine ⟨ht'.types.completeStruct id members, ht'.linked, fun hs => ?_⟩
  have hs : t'.Sane := ⟨hs.strays, hs.types, hs.fns⟩
  have hpast := ht.proper (g.sane hs)
  have hnow := ht'.proper hs
  have g' := h.grows g
  refine ⟨hnow.named.completeStruct ht'.types fun m hm => h.named m hm hs, fun j v hv => ?_, ⟨?_, ?_, ?_⟩, ?_⟩
  · cases v with
    | const ty v => exact (hpast.symbols j _ (h.frame.constants j ty v hv)).grow ht.types g'
    | _ => exact hnow.symbols j _ hv
  · exact hnow.code.signature
  · intro f hf ha
    rcases h.frame.bodies f with ⟨hf', heq⟩ | hempty
    · have ha' : (t.code.function f).state = .analyzed := heq ▸ ha
      show (t'.code.function f).Typed _ _
      rw [heq]
      exact (hpast.code.bodies f hf' ha').grow ht.types g'.types g'.code
    · exact .ofEmpty hempty
  · intro i hi
    have hi' : t.code.globals.Has i := h.frame.globals ▸ hi
    have heq : t'.code.global i = t.code.global i := by rw [Code.global, h.frame.globals, Code.global]
    show (t'.code.global i).value.fits _ (t'.code.global i).ty = true
    rw [heq]
    exact Value.fits_grow ht.types g'.types _ _ (hpast.code.globals i hi')
  · exact ⟨hnow.notes.literals, hnow.notes.specializations, hnow.notes.nominals, hnow.notes.sources, hnow.notes.sourced⟩

theorem Updates.sound (u : t.Updates t') (ht : t.Sound) : t'.Sound := by
  induction u with
  | refl => exact ht
  | tail _ h ih => exact h.sound (ih ht)
  | complete _ analysis completes _ ih ih' =>
    exact completes.sound analysis.grows (ih ht) (ih' (ih ht))

theorem Refusal.sound (h : t.Refusal t') (ht : t.Sound) : t'.Sound := by
  cases h with
  | complete analysis completes => exact completes.sound analysis.grows ht (analysis.sound ht)

end

/-! ## Tasks and reports -/

section

variable {t t' : Tables} {task : TaskId}

theorem Update.submits (h : t.Update t') : Scheduler.Submits t.scheduler t'.scheduler := by
  cases h with
  | addFunction _ _ _ _ task =>
    subst task
    dsimp only
    split
    · exact .refl
    · exact .single ⟨_, rfl⟩
  | _ => exact .refl

theorem Update.diagnostics (h : t.Update t') : t'.diagnostics = t.diagnostics := by
  cases h <;> rfl

theorem Updates.submits (u : t.Updates t') : Scheduler.Submits t.scheduler t'.scheduler := by
  induction u with
  | refl => exact .refl
  | tail _ h ih => exact ih.trans h.submits
  | complete _ _ _ _ ih ih' => exact ih.trans ih'

theorem Updates.diagnostics (u : t.Updates t') : t'.diagnostics = t.diagnostics := by
  induction u with
  | refl => rfl
  | tail _ h ih => exact h.diagnostics.trans ih
  | complete _ _ _ _ ih ih' => exact ih'.trans ih

theorem Running.has (h : t.Running task) : t.scheduler.Has task :=
  Scheduler.has_of_state_ne (by rw [h]; simp)

theorem Updates.running (u : t.Updates t') (h : t.Running task) :
    t'.Running task := (u.submits.keeps h.has).2.1.trans h

theorem Halts.submits {h} (hh : t.Halts h t') : Scheduler.Submits t.scheduler t'.scheduler := by
  rcases hh.change with u | ⟨t1, d, u, ⟨analysis, _, _, _⟩, -⟩
  · exact u.submits
  · exact u.submits.trans analysis.submits

end

end Tables

end Comptime
