import Comptime.Proofs.Code.Typing

/-!
# Sound tables

What analysis may rely on: symbols stand for what exists and for values of their types, functions
have function types, and the bodies that are finished are typed.

Typing does not survive a stray value, that is, a value from code executed at compile time that is no
value of its type. Nor can the code refer to more types or functions than a reference has numbers
for. So typing is claimed of sane tables only (`Tables.Sane`), and the notions that the later modules
pass around carry that condition inside. Tables are less sane the more they grow, which is what lets
such facts be carried along. That the type table is proper and that the functions exist which are
called by their names holds of all tables.

A value may name a type or a function that does not exist. All that is asked of a type is that a
reference can name it.
-/

namespace Comptime

namespace Tables

/-- Every value that came from code executed at compile time was one of its type, and references can count all
types and functions. -/
structure Sane (t : Tables) : Prop where
  strays : t.strays = []
  types : t.types.size ≤ referenceLimit
  fns : t.code.fns.size ≤ referenceLimit

instance (t : Tables) : Decidable t.Sane :=
  decidable_of_iff (t.strays.isEmpty = true ∧ t.types.size ≤ referenceLimit ∧ t.code.fns.size ≤ referenceLimit)
    ⟨fun h => ⟨List.isEmpty_iff.mp h.1, h.2.1, h.2.2⟩, fun h => ⟨List.isEmpty_iff.mpr h.1, h.2, h.3⟩⟩

/-- The tables have grown. -/
structure Grows (t t' : Tables) : Prop where
  types : t.types.Grows t'.types
  code : t.code.Grows t'.code
  strays : t'.strays = [] → t.strays = []

theorem Grows.refl (t : Tables) : t.Grows t := ⟨.refl _, .refl _, id⟩

theorem Grows.trans {t1 t2 : Tables} {t3} (h : t1.Grows t2) (h' : t2.Grows t3) : t1.Grows t3 :=
  ⟨h.types.trans h'.types, h.code.trans h'.code, fun hs => h.strays (h'.strays hs)⟩

theorem Grows.sane {t t' : Tables} (g : t.Grows t') (h : t'.Sane) : t.Sane :=
  ⟨g.strays h.strays, Nat.le_trans g.types.size h.types, Nat.le_trans g.code.size h.fns⟩

end Tables

/-! ## What the tables hold -/

/-- What a symbol stands for exists, or can at least be named. -/
def SymbolValue.Sound (t : Tables) : SymbolValue → Prop
  | .const ty v => v.fits t.types ty = true
  | .type ty => t.types.Knows ty
  | .group members => ∀ f ∈ members, t.code.fns.Has f
  | .global g => t.code.globals.Has g
  | .slot _ ty => t.types.Knows ty
  | .fn _ | .poly _ | .scope _ => True

namespace Tables

def SymbolsSound (t : Tables) : Prop :=
  ∀ id v, (t.scopes.symbol id).state = .resolved v → v.Sound t

/-- Functions have function types, finished bodies are typed, and globals hold values of their
types. -/
structure CodeSound (t : Tables) : Prop where
  signature : ∀ f, t.code.fns.Has f →
    t.types.kind (t.code.function f).ty = .fn (t.code.function f).params (t.code.function f).ret
  bodies : ∀ f, t.code.fns.Has f → (t.code.function f).state = .analyzed →
    (t.code.function f).Typed t.types t.code
  globals : ∀ g, t.code.globals.Has g → (t.code.global g).value.fits t.types (t.code.global g).ty = true

/-- What was made for the nodes of the program exists. -/
structure NotesSound (t : Tables) : Prop where
  literals : ∀ p ∈ t.fnLiterals, t.code.fns.Has p.2
  specializations : ∀ p ∈ t.specializations, t.code.fns.Has p.2
  nominals : ∀ p ∈ t.nominals, t.types.Knows p.2
  sources : ∀ f source, t.sources.get? f = some source → ∀ b ∈ source.bindings, t.types.Knows b.2
  sourced : t.sources.size ≤ t.code.fns.size

/-- All that the tables hold is in order. -/
structure Proper (t : Tables) : Prop where
  named : t.types.Named
  symbols : t.SymbolsSound
  code : t.CodeSound
  notes : t.NotesSound

structure Sound (t : Tables) : Prop where
  types : t.types.Proper
  linked : ∀ f, (t.code.function f).state = .analyzed → (t.code.function f).Linked t.code
  proper : t.Sane → t.Proper

/-! ## What is passed around -/

def HasType (t : Tables) (ty : TypeId) : Prop := t.Sane → t.types.Knows ty

def HasFn (t : Tables) (f : FnId) : Prop := t.Sane → t.code.fns.Has f

def HasConst (t : Tables) (ty : TypeId) (v : Value) : Prop := t.Sane → v.fits t.types ty = true

end Tables

/-- The draft is typed so far, and a reference can name the type of its result. -/
structure Draft.Sound (t : Tables) (d : Draft) : Prop where
  linked : d.func.Linked t.code
  typed : t.Sane → d.func.Typed t.types t.code ∧ t.types.Knows d.func.ret

def Draft.Gives (t : Tables) (d : Draft) (i : InstrId) (ty : TypeId) : Prop :=
  t.Sane → d.func.Gives i ty

/-- The register of an instruction of the draft has the type of pointers to a type. -/
def Draft.Points (t : Tables) (d : Draft) (i : InstrId) (ty : TypeId) : Prop :=
  t.Sane → ∃ pty, d.func.Gives i pty ∧ t.types.kind pty = .ptr ty

/-- The operand is what its type says. -/
def Operand.Sound (t : Tables) (d : Draft) (op : Operand) : Prop :=
  t.Sane → t.types.Knows op.ty ∧
    match op.kind with
    | .const v => v.fits t.types op.ty = true
    | .instr id => d.func.Gives id op.ty
    | .place ptr => ∃ pty, d.func.Gives ptr pty ∧ t.types.kind pty = .ptr op.ty
    | .group members => ∀ f ∈ members, t.code.fns.Has f
    | .poly _ | .scope _ => True

/-! ## Stability -/

theorem SymbolValue.Sound.grow {t : Tables} {t'} {v : SymbolValue} (h : v.Sound t) (hp : t.types.Proper)
    (g : t.Grows t') : v.Sound t' := by
  cases v with
  | const ty v => exact Value.fits_grow hp g.types ty v h
  | type ty => exact g.types.knows h
  | group members => exact fun f hf => g.code.has (h f hf)
  | global id => exact g.code.hasGlobal h
  | slot s ty => exact g.types.knows h
  | fn _ | poly _ | scope _ => trivial

namespace Tables

variable {t t' : Tables} {ty : TypeId}

theorem HasType.grow (h : t.HasType ty) (g : t.Grows t') : t'.HasType ty :=
  fun hs => g.types.knows (h (g.sane hs))

theorem HasFn.grow {f} (h : t.HasFn f) (g : t.Grows t') : t'.HasFn f :=
  fun hs => g.code.has (h (g.sane hs))

theorem HasConst.grow {v} (h : t.HasConst ty v) (ht : t.Sound) (g : t.Grows t') : t'.HasConst ty v :=
  fun hs => Value.fits_grow ht.types g.types ty v (h (g.sane hs))

theorem SymbolsSound.grow (h : t.SymbolsSound) (hp : t.types.Proper) (g : t.Grows t')
    (same : t'.scopes = t.scopes) : t'.SymbolsSound := by
  intro id v hv
  rw [same] at hv
  exact (h id v hv).grow hp g

theorem CodeSound.grow (h : t.CodeSound) (hp : t.types.Proper) (g : t.Grows t')
    (same : t'.code = t.code) : t'.CodeSound where
  signature f hf := by
    rw [same] at hf ⊢
    exact g.types.kind_of_ne (h.signature f hf) (by simp)
  bodies f hf ha := by
    have gc := g.code
    rw [same] at hf ha gc ⊢
    exact (h.bodies f hf ha).grow hp g.types gc
  globals i hi := by
    rw [same] at hi ⊢
    exact Value.fits_grow hp g.types _ _ (h.globals i hi)

theorem NotesSound.grow (h : t.NotesSound) (g : t.Grows t') (literals : t'.fnLiterals = t.fnLiterals)
    (specializations : t'.specializations = t.specializations)
    (nominals : t'.nominals = t.nominals) (sources : t'.sources = t.sources) : t'.NotesSound where
  literals p hp := g.code.has (h.literals p (literals ▸ hp))
  specializations p hp := g.code.has (h.specializations p (specializations ▸ hp))
  nominals p hp := g.types.knows (h.nominals p (nominals ▸ hp))
  sources f s hs b hb := g.types.knows (h.sources f s (sources ▸ hs) b hb)
  sourced := Nat.le_trans (sources ▸ h.sourced) g.code.size

end Tables

section

variable {t t' : Tables} {d d' : Draft}

theorem Draft.Sound.grow (h : d.Sound t) (ht : t.Sound) (g : t.Grows t') : d.Sound t' := by
  refine ⟨h.linked.grow g.code, fun hs => ?_⟩
  obtain ⟨htyped, hret⟩ := h.typed (g.sane hs)
  exact ⟨htyped.grow ht.types g.types g.code, g.types.knows hret⟩

theorem Draft.Sound.ofSameBody (h : d.Sound t) (ht : t.Sound) (ret : d'.func.ret = d.func.ret)
    (instrs : d'.func.instrs = d.func.instrs) : d'.Sound t := by
  refine ⟨h.linked.ofSameBody instrs, fun hs => ?_⟩
  obtain ⟨htyped, hret⟩ := h.typed hs
  exact ⟨htyped.ofSameBody ht.types ret instrs, ret ▸ hret⟩

theorem Draft.Gives.grow {i ty} (h : d.Gives t i ty) (g : t.Grows t') (e : d.func.Extends d'.func) : d'.Gives t' i ty :=
  fun hs => (h (g.sane hs)).extend e

theorem Draft.Points.grow {i ty} (h : d.Points t i ty) (g : t.Grows t') (e : d.func.Extends d'.func) :
    d'.Points t' i ty := by
  intro hs
  obtain ⟨pty, hg, hk⟩ := h (g.sane hs)
  exact ⟨pty, hg.extend e, g.types.kind_of_ne hk (by simp)⟩

theorem Operand.Sound.grow {op : Operand} (h : op.Sound t d) (ht : t.Sound) (g : t.Grows t')
    (e : d.func.Extends d'.func) : op.Sound t' d' := by
  intro hs
  obtain ⟨hty, hk⟩ := h (g.sane hs)
  refine ⟨g.types.knows hty, ?_⟩
  split <;> rename_i heq <;> simp only [heq] at hk
  · exact Value.fits_grow ht.types g.types _ _ hk
  · exact hk.extend e
  · obtain ⟨pty, hp, hk⟩ := hk
    exact ⟨pty, hp.extend e, g.types.kind_of_ne hk (by simp)⟩
  · exact fun f hf => g.code.has (hk f hf)
  · trivial
  · trivial

end

end Comptime
