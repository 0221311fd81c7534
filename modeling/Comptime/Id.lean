/-!
# Ids and pools

Every entity of a session (a type, a function, an instruction, a task …) is named by a dense
number. The entities of one kind stand in a pool that only grows, so an id handed out once names
the same entity for good, and the order of creation can be read off the ids.

An id carries the kind of entity it names in its type: a block cannot be looked up among the
types.

Ids are numbers without a bound. A session stores them in 32 bits and so may hold 2^32 entities of a kind at the
most, which no pool here says of itself. It matters only for a reference that the executed program holds as a
number (`referenceLimit`), and is a hypothesis where such references are read back.
-/

namespace Comptime

/-- The kinds of entities that carry ids. -/
inductive Entity where
  | node | type | struct | enum | function | global | block | instr | slot | scope | symbol
  | recipe | task
deriving DecidableEq, Repr

/-- The word before the number in messages, as in `ty#4`. -/
def Entity.tag : Entity → String
  | node => "ast"
  | type => "ty"
  | struct => "struct"
  | enum => "enum"
  | function => "fn"
  | global => "global"
  | block => "bb"
  | instr => "instr"
  | slot => "local"
  | scope => "scope"
  | symbol => "sym"
  | recipe => "recipe"
  | task => "task"

/-- The word around the number in code listings, as in `TypeId(4)`. -/
def Entity.word : Entity → String
  | node => "AstId"
  | type => "TypeId"
  | struct => "StructId"
  | enum => "EnumId"
  | function => "FnId"
  | global => "GlobalId"
  | block => "BlockId"
  | instr => "InstrId"
  | slot => "LocalId"
  | scope => "ScopeId"
  | symbol => "SymbolId"
  | recipe => "RecipeId"
  | task => "TaskId"

/-- The name of an entity of kind `κ`: its position in the pool of that kind. -/
@[ext] structure Id (κ : Entity) where
  index : Nat
deriving DecidableEq, Repr, Inhabited

abbrev NodeId := Id .node
abbrev TypeId := Id .type
abbrev StructId := Id .struct
abbrev EnumId := Id .enum
abbrev FnId := Id .function
abbrev GlobalId := Id .global
abbrev BlockId := Id .block
abbrev InstrId := Id .instr
abbrev SlotId := Id .slot
abbrev ScopeId := Id .scope
abbrev SymbolId := Id .symbol
abbrev RecipeId := Id .recipe
abbrev TaskId := Id .task

namespace Id

variable {κ : Entity}

instance (n : Nat) : OfNat (Id κ) n := ⟨⟨n⟩⟩

/-- The form of messages: `ty#4`. -/
def text (i : Id κ) : String := κ.tag ++ "#" ++ toString i.index

/-- The form of code listings: `TypeId(4)`. -/
def listing (i : Id κ) : String := κ.word ++ "(" ++ toString i.index ++ ")"

end Id

/-- A growing sequence of entities of one kind, addressed by their ids. -/
structure Pool (κ : Entity) (α : Type) where
  items : Array α

namespace Pool

variable {κ : Entity} {α : Type}

def empty : Pool κ α := ⟨#[]⟩

instance : Inhabited (Pool κ α) := ⟨empty⟩

def size (p : Pool κ α) : Nat := p.items.size

def isEmpty (p : Pool κ α) : Bool := p.items.isEmpty

/-- The id that the next pushed entity gets. -/
def nextId (p : Pool κ α) : Id κ := ⟨p.items.size⟩

def push (p : Pool κ α) (a : α) : Pool κ α := ⟨p.items.push a⟩

def get? (p : Pool κ α) (i : Id κ) : Option α := p.items[i.index]?

/-- The entity at `i`, or `fallback` where the pool has none. -/
def getD (p : Pool κ α) (i : Id κ) (fallback : α) : α := (p.get? i).getD fallback

/-- Replace the entity at `i`; outside the pool nothing happens. -/
def set (p : Pool κ α) (i : Id κ) (a : α) : Pool κ α := ⟨p.items.setIfInBounds i.index a⟩

/-- Change the entity at `i` in place; outside the pool nothing happens. -/
def modify (p : Pool κ α) (i : Id κ) (f : α → α) : Pool κ α := ⟨p.items.modify i.index f⟩

/-- The ids in use, in order of creation. -/
def ids (p : Pool κ α) : List (Id κ) := (List.range p.items.size).map Id.mk

def toList (p : Pool κ α) : List α := p.items.toList

/-- The entities with their ids, in order of creation. -/
def entries (p : Pool κ α) : List (Id κ × α) := p.ids.zip p.toList

/-- The first entity that satisfies `q`. -/
def findId? (p : Pool κ α) (q : α → Bool) : Option (Id κ) := (p.items.findIdx? q).map Id.mk

@[simp] theorem size_push (p : Pool κ α) (a : α) : (p.push a).size = p.size + 1 := by
  simp [size, push]

@[simp] theorem size_modify (p : Pool κ α) (i : Id κ) (f : α → α) :
    (p.modify i f).size = p.size := by
  simp [size, modify]

end Pool

end Comptime
