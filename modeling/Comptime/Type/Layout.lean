import Comptime.Type.Table

/-!
# Layout

The size and alignment of a type follow from what it contains by value. `TypeTable.shape` spells
that out as a tree: pointers, functions and slices are leaves, arrays and structs hold the shapes
of their parts. It fails where a struct is not complete, where one contains itself, where a size
leaves the 64-bit address space, or where there is no type, at the first such place from left to right. Size, alignment and
member offsets are functions of the tree, computed on natural numbers.
-/

namespace Comptime

/-- Why a type has no layout. -/
inductive LayoutError where
  /-- The members of a struct are not known yet. -/
  | incomplete (id : StructId)
  /-- A struct contains itself by value. -/
  | recursive (id : StructId)
  /-- The size of a type does not fit the address space. -/
  | tooLarge (ty : TypeId)
  /-- The type does not exist. -/
  | missing (ty : TypeId)
deriving DecidableEq, Repr

/-- The listing form, as in `Incomplete(StructId(1))`. -/
def LayoutError.listing : LayoutError → String
  | .incomplete id => "Incomplete(" ++ id.listing ++ ")"
  | .recursive id => "Recursive(" ++ id.listing ++ ")"
  | .tooLarge ty => "TooLarge(" ++ ty.listing ++ ")"
  | .missing ty => "Missing(" ++ ty.listing ++ ")"

/-- Size and alignment in bytes. -/
structure Layout where
  size : Nat
  align : Nat
deriving DecidableEq, Repr

/-- The least multiple of `align` that is not below `value`. -/
def alignUp (value align : Nat) : Nat :=
  if align ≤ 1 then value else (value + align - 1) / align * align

/-- What a value of a type is made of. -/
inductive Shape where
  | void
  | bool
  | int (bits : Nat) (signed : Bool)
  | real (bits : Nat)
  | pointer
  | fn
  | type
  | slice
  /-- An enum over a type that is no integer; one over an integer has the shape of the integer. -/
  | enum (base : Shape)
  | array (elem : Shape) (len : Nat)
  | struct (members : List Shape)
deriving Repr, Inhabited

/-- The offset behind a member that is put behind the first `offset` bytes. -/
def Layout.place (offset : Nat) (l : Layout) : Nat := alignUp offset l.align + l.size

/-- The layout of a sequence of members, before the padding at the end. -/
def Layout.sequence (ls : List Layout) : Layout :=
  ⟨ls.foldl Layout.place 0, ls.foldl (fun a l => max a l.align) 1⟩

/-- The layout of a struct: the sequence of its members, padded to its alignment. -/
def Layout.struct (ls : List Layout) : Layout :=
  let s := Layout.sequence ls
  ⟨alignUp s.size s.align, s.align⟩

namespace Shape

mutual
/-- Size and alignment of a shape. -/
def layout : Shape → Layout
  | .void => ⟨0, 1⟩
  | .bool => ⟨1, 1⟩
  | .int bits _ => ⟨bits / 8, bits / 8⟩
  | .real bits => ⟨bits / 8, bits / 8⟩
  | .pointer | .fn | .type => ⟨8, 8⟩
  | .slice => ⟨16, 8⟩
  | .enum base => base.layout
  | .array elem len => ⟨elem.layout.size * len, elem.layout.align⟩
  | .struct members => Layout.struct (layouts members)

/-- Sizes and alignments of shapes. -/
def layouts : List Shape → List Layout
  | [] => []
  | s :: rest => s.layout :: layouts rest
end

def size (s : Shape) : Nat := s.layout.size

/-- The distance between neighbouring elements of this shape. -/
def stride (s : Shape) : Nat := alignUp s.layout.size s.layout.align

/-- The offsets of members that follow the first `offset` bytes. -/
def offsetsFrom (offset : Nat) : List Shape → List Nat
  | [] => []
  | s :: rest => alignUp offset s.layout.align :: offsetsFrom (s.layout.place offset) rest

/-- The offsets of the members of a struct. -/
def offsets (members : List Shape) : List Nat := offsetsFrom 0 members

end Shape

namespace TypeTable

/-- Addresses and sizes stay below this. -/
def addressSpace : Nat := 0x10000000000000000

def structType (t : TypeTable) (id : StructId) : TypeId := (t.find? (.struct id)).getD .void

/-- Collect the shapes of members behind the first `offset` bytes. -/
def memberShapes (shapeOf : TypeId → Except LayoutError Shape) :
    Nat → List Member → Except LayoutError (List Shape)
  | _, [] => .ok []
  | offset, m :: rest => do
    let s ← shapeOf m.ty
    if s.layout.place offset < addressSpace then
      return s :: (← memberShapes shapeOf (s.layout.place offset) rest)
    else throw (.tooLarge m.ty)

/-- The shapes of the members of a struct that stands inside the structs of `inside`. -/
def structShapes (t : TypeTable) (shapeOf : TypeId → Except LayoutError Shape)
    (inside : List StructId) (id : StructId) : Except LayoutError (List Shape) :=
  if inside.contains id then .error (.recursive id)
  else
    match (t.structDef id).members with
    | none => .error (.incomplete id)
    | some members => do
      let shapes ← memberShapes shapeOf 0 members
      if (Shape.layout (.struct shapes)).size < addressSpace then return shapes
      else throw (.tooLarge (t.structType id))

/-- The shape of a type, at most `fuel` steps deep, inside the structs of `inside`. -/
def shapeAt (t : TypeTable) : Nat → List StructId → TypeId → Except LayoutError Shape
  | 0, _, ty => .error (.tooLarge ty)
  | fuel + 1, inside, ty =>
    match t.kind ty with
    | .void => .ok .void
    | .bool => .ok .bool
    | .int bits signed => .ok (.int bits signed)
    | .real bits => .ok (.real bits)
    | .ptr _ | .null => .ok .pointer
    | .fn _ _ => .ok .fn
    | .type => .ok .type
    | .slice _ => .ok .slice
    | .enum id =>
      match t.intInfo ty with
      | some (bits, signed) => .ok (.int bits signed)
      | none => (t.shapeAt fuel inside (t.enumDef id).base).map .enum
    | .array elem len => do
      let s ← t.shapeAt fuel inside elem
      if s.layout.size * len.toNat < addressSpace then return .array s len.toNat
      else throw (.tooLarge ty)
    | .struct id => (t.structShapes (t.shapeAt fuel (id :: inside)) inside id).map .struct
    | .missing => .error (.missing ty)

/-- Along a walk that ends a struct is entered at most once, and between two structs each type at
most once, so this many steps suffice. -/
def shapeFuel (t : TypeTable) : Nat := (t.structs.size + 1) * (t.size + 1)

/-- What a value of the type is made of. -/
def shape (t : TypeTable) (ty : TypeId) : Except LayoutError Shape := t.shapeAt t.shapeFuel [] ty

/-- Size and alignment of a type. -/
def layout (t : TypeTable) (ty : TypeId) : Except LayoutError Layout :=
  (t.shape ty).map Shape.layout

def memberOffsets (t : TypeTable) (id : StructId) : Except LayoutError (List Nat) :=
  (t.structShapes (t.shapeAt t.shapeFuel [id]) [] id).map Shape.offsets

/-- The distance between neighbouring elements of an array or slice. -/
def elemStride (t : TypeTable) (elem : TypeId) : Except LayoutError Nat :=
  (t.shape elem).map Shape.stride

/-- The number of scalar cells, at most `fuel` steps deep. -/
def cellsAt (t : TypeTable) : Nat → TypeId → Nat
  | 0, _ => 0
  | fuel + 1, ty =>
    match t.kind ty with
    | .array elem len => min (len.toNat * t.cellsAt fuel elem) (addressSpace - 1)
    | .struct id =>
      match (t.structDef id).members with
      | none => 1
      | some members =>
        members.foldl (fun total m => min (total + t.cellsAt fuel m.ty) (addressSpace - 1)) 0
    | _ => 1

/-- The number of scalar cells of a value, as far as a word can count. -/
def cells (t : TypeTable) (ty : TypeId) : Nat := t.cellsAt t.shapeFuel ty

end TypeTable

end Comptime
