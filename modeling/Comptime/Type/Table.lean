import Comptime.Id
import Comptime.Span

/-!
# Types

Types are interned: a descriptor stands at exactly one place of the table, so two types are equal
exactly when their ids are. Structs and enums are nominal. Their ids are given out when they are
declared and their members are filled in later, which lets a struct point to itself and lets other
declarations mention it before its members are known.

Descriptors are looked up in a cache, which is kept beside the descriptors themselves. The main law is
that the two agree, so that the table is a bijection between the ids in use and the descriptors seen, and
that it only grows.
-/

namespace Comptime

/-- The descriptor of a type. -/
inductive TypeKind where
  | void
  | bool
  | int (bits : Nat) (signed : Bool)
  | real (bits : Nat)
  | ptr (target : TypeId)
  | array (elem : TypeId) (len : UInt64)
  /-- A length and a pointer to the first element. -/
  | slice (elem : TypeId)
  | fn (params : List TypeId) (ret : TypeId)
  | struct (id : StructId)
  | enum (id : EnumId)
  /-- The type of types. -/
  | type
  /-- The type of the null literal. -/
  | null
  /-- What an id is read as that names no type. A number can be cast to a type by the executed program. -/
  | missing
deriving DecidableEq, Repr, Inhabited

/-- A named member of a struct. -/
structure Member where
  name : String
  ty : TypeId
deriving DecidableEq, Repr

/-- A declared struct; its members are unknown until the declaration has been analysed. -/
structure StructDef where
  name : String
  members : Option (List Member)
  span : Span
deriving Repr, Inhabited

/-- A declared enum over an integer type; its variants are unknown until analysed. -/
structure EnumDef where
  name : String
  base : TypeId
  variants : Option (List (String × UInt64))
  span : Span
deriving Repr, Inhabited

/-- Every type of a session. -/
structure TypeTable where
  kinds : Pool .type TypeKind
  /-- The ids of the descriptors. -/
  cache : List (TypeKind × TypeId)
  structs : Pool .struct StructDef
  enums : Pool .enum EnumDef

namespace TypeId

def void : TypeId := ⟨0⟩
def bool : TypeId := ⟨1⟩
def s8 : TypeId := ⟨2⟩
def s16 : TypeId := ⟨3⟩
def s32 : TypeId := ⟨4⟩
def s64 : TypeId := ⟨5⟩
def u8 : TypeId := ⟨6⟩
def u16 : TypeId := ⟨7⟩
def u32 : TypeId := ⟨8⟩
def u64 : TypeId := ⟨9⟩
def f32 : TypeId := ⟨10⟩
def f64 : TypeId := ⟨11⟩
def type : TypeId := ⟨12⟩
/-- The type of the null literal. -/
def null : TypeId := ⟨13⟩
/-- The type of sizes. -/
def usize : TypeId := u64

end TypeId

namespace TypeTable

/-- The descriptors of the predefined types, in the order of their ids. -/
def primitives : List TypeKind :=
  [.void, .bool, .int 8 true, .int 16 true, .int 32 true, .int 64 true,
    .int 8 false, .int 16 false, .int 32 false, .int 64 false, .real 32, .real 64, .type, .null]

/-- The names under which the predefined types are visible. -/
def builtinNames : List (String × TypeId) :=
  [("void", .void), ("bool", .bool), ("s8", .s8), ("s16", .s16), ("s32", .s32), ("s64", .s64),
    ("u8", .u8), ("u16", .u16), ("u32", .u32), ("u64", .u64), ("usize", .usize), ("f32", .f32),
    ("f64", .f64), ("type", .type)]

/-- The number of types. -/
def size (t : TypeTable) : Nat := t.kinds.size

/-- The descriptor of a type. -/
def kind (t : TypeTable) (ty : TypeId) : TypeKind := t.kinds.getD ty .missing

/-- The type that a descriptor names, if the table has it. -/
def find? (t : TypeTable) (k : TypeKind) : Option TypeId := t.cache.lookup k

/-- Enter a descriptor at the next id. -/
def add (t : TypeTable) (k : TypeKind) : TypeTable :=
  { t with
    kinds := t.kinds.push k
    cache := (k, t.kinds.nextId) :: t.cache }

/-- The type of a descriptor: the one that is there, or a new one at the next id. -/
def intern (t : TypeTable) (k : TypeKind) : TypeTable × TypeId :=
  match t.find? k with
  | some ty => (t, ty)
  | none => (t.add k, t.kinds.nextId)

def empty : TypeTable := ⟨.empty, [], .empty, .empty⟩

/-- The table that holds the predefined types only. -/
def initial : TypeTable := primitives.foldl (fun t k => (t.intern k).1) empty

instance : Inhabited TypeTable := ⟨initial⟩

def ptr (t : TypeTable) (target : TypeId) : TypeTable × TypeId := t.intern (.ptr target)

def slice (t : TypeTable) (elem : TypeId) : TypeTable × TypeId := t.intern (.slice elem)

def array (t : TypeTable) (elem : TypeId) (len : UInt64) : TypeTable × TypeId :=
  t.intern (.array elem len)

def function (t : TypeTable) (params : List TypeId) (ret : TypeId) : TypeTable × TypeId :=
  t.intern (.fn params ret)

/-! ## Nominal types -/

/-- A new struct without members. -/
def declareStruct (t : TypeTable) (name : String) (span : Span) :
    TypeTable × StructId × TypeId :=
  let id := t.structs.nextId
  let (t, ty) := { t with structs := t.structs.push ⟨name, none, span⟩ }.intern (.struct id)
  (t, id, ty)

def completeStruct (t : TypeTable) (id : StructId) (members : List Member) : TypeTable :=
  { t with structs := t.structs.modify id fun d => { d with members := some members } }

def structDef (t : TypeTable) (id : StructId) : StructDef := t.structs.getD id default

/-- A new enum over `base`, without variants. -/
def declareEnum (t : TypeTable) (name : String) (base : TypeId) (span : Span) :
    TypeTable × EnumId × TypeId :=
  let id := t.enums.nextId
  let (t, ty) := { t with enums := t.enums.push ⟨name, base, none, span⟩ }.intern (.enum id)
  (t, id, ty)

def completeEnum (t : TypeTable) (id : EnumId) (variants : List (String × UInt64)) : TypeTable :=
  { t with enums := t.enums.modify id fun d => { d with variants := some variants } }

def enumDef (t : TypeTable) (id : EnumId) : EnumDef := t.enums.getD id default

/-! ## Queries -/

/-- Width and signedness behind at most `fuel` enums. -/
def intInfoAt (t : TypeTable) : Nat → TypeId → Option (Nat × Bool)
  | 0, _ => none
  | fuel + 1, ty =>
    match t.kind ty with
    | .int bits signed => some (bits, signed)
    | .enum id => t.intInfoAt fuel (t.enumDef id).base
    | _ => none

/-- Width and signedness of an integer type; an enum answers for its base. -/
def intInfo (t : TypeTable) (ty : TypeId) : Option (Nat × Bool) := t.intInfoAt (t.size + 1) ty

def isInt (t : TypeTable) (ty : TypeId) : Bool :=
  match t.kind ty with
  | .int _ _ => true
  | _ => false

def isReal (t : TypeTable) (ty : TypeId) : Bool :=
  match t.kind ty with
  | .real _ => true
  | _ => false

def isNumeric (t : TypeTable) (ty : TypeId) : Bool := t.isInt ty || t.isReal ty

def isPtr (t : TypeTable) (ty : TypeId) : Bool :=
  match t.kind ty with
  | .ptr _ => true
  | _ => false

def pointee (t : TypeTable) (ty : TypeId) : Option TypeId :=
  match t.kind ty with
  | .ptr target => some target
  | _ => none

/-- Parameters and result of a function type. -/
def signature (t : TypeTable) (ty : TypeId) : Option (List TypeId × TypeId) :=
  match t.kind ty with
  | .fn params ret => some (params, ret)
  | _ => none

/-! ## Names -/

/-- The name of a type, at most `fuel` constructors deep. -/
def nameAt (t : TypeTable) : Nat → TypeId → String
  | 0, _ => "…"
  | fuel + 1, ty =>
    match t.kind ty with
    | .void => "void"
    | .bool => "bool"
    | .int bits signed => (if signed then "s" else "u") ++ toString bits
    | .real bits => "f" ++ toString bits
    | .ptr target => "*" ++ t.nameAt fuel target
    | .array elem len => "[" ++ toString len.toNat ++ "]" ++ t.nameAt fuel elem
    | .slice elem => "[]" ++ t.nameAt fuel elem
    | .fn params ret =>
      "fn(" ++ ", ".intercalate (params.map (t.nameAt fuel)) ++ ") " ++ t.nameAt fuel ret
    | .struct id => (t.structDef id).name
    | .enum id => (t.enumDef id).name
    | .type => "type"
    | .null => "null"
    | .missing => ty.text

/-- The name of a type in messages. Where no descriptor mentions itself, the number of types bounds
its depth. -/
def name (t : TypeTable) (ty : TypeId) : String := t.nameAt (t.size + 1) ty

end TypeTable

end Comptime
