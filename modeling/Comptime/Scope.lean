import Comptime.Span
import Comptime.Value.Basic

/-!
# Scopes

Names are looked up from a scope outward. A symbol is entered when its declaration is first seen
and resolved later, so a look-up may find a symbol whose value is not known yet.

The main law: a look-up gives the nearest declaration on the way to the outermost scope and tells
whether the way left a function.
-/

namespace Comptime

/-- What a scope belongs to. -/
inductive ScopeKind where
  /-- The predefined types, around every global scope. -/
  | builtin
  | global
  /-- A scope with a name, whose members are reached through it. -/
  | named
  /-- Parameters and body of a function. -/
  | function
  | lexical
deriving DecidableEq, Repr

/-- Where the value of a symbol lives. -/
inductive Storage where
  | global
  | slot
  | argument
deriving DecidableEq, Repr

/-- What a resolved symbol stands for. -/
inductive SymbolValue where
  | const (ty : TypeId) (value : Value)
  | type (ty : TypeId)
  | fn (id : FnId)
  /-- Functions of which a call chooses one. -/
  | group (members : List FnId)
  /-- A polymorphic function. -/
  | poly (recipe : RecipeId)
  /-- A mutable global variable. -/
  | global (id : GlobalId)
  /-- A local variable of the function at hand. -/
  | slot (id : SlotId) (ty : TypeId)
  | scope (id : ScopeId)
deriving Repr

/-- How much is known of a symbol. -/
inductive SymbolState where
  /-- Not analysed; the task, if known, resolves it. -/
  | unresolved (task : Option TaskId)
  | resolved (value : SymbolValue)
  | failed
deriving Repr

/-- A declared name. -/
structure Symbol where
  name : String
  storage : Storage
  mutable : Bool
  scope : ScopeId
  /-- The declaration, which predefined names lack. -/
  node : Option NodeId
  span : Span
  state : SymbolState
deriving Repr

instance : Inhabited Symbol := ⟨⟨"", .global, false, ⟨0⟩, none, .dummy, .failed⟩⟩

/-- What a symbol stands for, if it is resolved. -/
def Symbol.value? (s : Symbol) : Option SymbolValue :=
  match s.state with
  | .resolved v => some v
  | _ => none

/-- A set of names inside another scope. -/
structure Scope where
  kind : ScopeKind
  parent : Option ScopeId
  entries : List (String × SymbolId)
deriving Repr

instance : Inhabited Scope := ⟨⟨.lexical, none, []⟩⟩

/-- The result of a look-up. -/
structure Found where
  symbol : SymbolId
  /-- The way to the symbol left a function. -/
  crossedFn : Bool
deriving DecidableEq, Repr

/-- All scopes and symbols of a session. -/
structure Scopes where
  scopes : Pool .scope Scope
  symbols : Pool .symbol Symbol
deriving Inhabited

namespace Scopes

def empty : Scopes := ⟨.empty, .empty⟩

/-- A new scope inside another one. -/
def create (g : Scopes) (kind : ScopeKind) (parent : Option ScopeId) : Scopes × ScopeId :=
  ({ g with scopes := g.scopes.push ⟨kind, parent, []⟩ }, g.scopes.nextId)

def scope (g : Scopes) (id : ScopeId) : Scope := g.scopes.getD id default

def symbol (g : Scopes) (id : SymbolId) : Symbol := g.symbols.getD id default

def declared? (g : Scopes) (scope : ScopeId) (name : String) : Option SymbolId :=
  (g.scope scope).entries.lookup name

/-- Enter a symbol into its scope. Where the name is taken, the earlier symbol is the answer. -/
def insert (g : Scopes) (s : Symbol) : Except SymbolId (Scopes × SymbolId) :=
  match g.declared? s.scope s.name with
  | some previous => .error previous
  | none =>
    let id := g.symbols.nextId
    .ok ({ g with
      symbols := g.symbols.push s
      scopes := g.scopes.modify s.scope fun c => { c with entries := (s.name, id) :: c.entries } },
      id)

def setState (g : Scopes) (id : SymbolId) (state : SymbolState) : Scopes :=
  { g with symbols := g.symbols.modify id fun s => { s with state } }

def resolve (g : Scopes) (id : SymbolId) (value : SymbolValue) : Scopes :=
  g.setState id (.resolved value)

def fail (g : Scopes) (id : SymbolId) : Scopes := g.setState id .failed

/-- Look a name up in at most `fuel` scopes from `scope` outward. -/
def lookupAt (g : Scopes) (name : String) : Nat → ScopeId → Bool → Option Found
  | 0, _, _ => none
  | fuel + 1, scope, crossed =>
    match g.declared? scope name with
    | some symbol => some ⟨symbol, crossed⟩
    | none => do
      let parent ← (g.scope scope).parent
      g.lookupAt name fuel parent (crossed || (g.scope scope).kind == .function)

/-- Look a name up from a scope outward. The way out passes each scope at most once, so their number
bounds it. -/
def lookup (g : Scopes) (scope : ScopeId) (name : String) : Option Found :=
  g.lookupAt name g.scopes.size scope false

/-- Look a name up in one scope only. -/
def lookupHere (g : Scopes) (scope : ScopeId) (name : String) : Option Found :=
  (g.declared? scope name).map fun symbol => ⟨symbol, false⟩

end Scopes

end Comptime
