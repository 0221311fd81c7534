import Comptime.Type.Layout
import Comptime.Value.Basic

/-!
# Values and types in memory

A value fits a type when it has the type's form and its integers are canonical at the type's
width. In memory a value is laid out little endian by the shape of its type. The image of a value
leaves holes where it writes nothing (padding, and the parts of a value that does not fit), and
putting an image into memory keeps the old bytes there. Reading takes any bytes to a value.

The main laws: what is read fits its type; a fitting value that is written is read back; and the
zero value is what zeroed memory reads as.
-/

namespace Comptime

/-- References to functions and types are 32-bit numbers. -/
def referenceLimit : Nat := 0x100000000

namespace Value

mutual
/-- Whether a value has the form of a type. -/
def fits (t : TypeTable) (ty : TypeId) : Value → Bool
  | .void => t.kind ty == .void
  | .bool _ => t.kind ty == .bool
  | .int w =>
    match t.kind ty with
    | .int bits signed => Word.canonical w bits signed == w
    | .enum _ =>
      let (bits, signed) := (t.intInfo ty).getD (64, false)
      Word.canonical w bits signed == w
    | _ => false
  | .f32 _ => t.kind ty == .real 32
  | .f64 _ => t.kind ty == .real 64
  | .ptr a =>
    match t.kind ty with
    | .ptr _ | .null => true
    | .fn _ _ => a == 0
    | _ => false
  | .fn id =>
    match t.kind ty with
    | .fn _ _ => id.index < referenceLimit
    | _ => false
  | .type id => t.kind ty == .type && id.index < referenceLimit
  | .agg items =>
    match t.kind ty with
    | .slice _ =>
      match items with
      | [.int _, .ptr _] => true
      | _ => false
    | .array elem len => items.length == len.toNat && fitsEach t elem items
    | .struct id =>
      match (t.structDef id).members with
      | some members => fitsMembers t members items
      | none => false
    | _ => false

/-- Whether every item fits one type. -/
def fitsEach (t : TypeTable) (ty : TypeId) : List Value → Bool
  | [] => true
  | v :: rest => v.fits t ty && fitsEach t ty rest

/-- Whether the items fit the members, one by one. -/
def fitsMembers (t : TypeTable) : List Member → List Value → Bool
  | [], [] => true
  | m :: members, v :: items => v.fits t m.ty && fitsMembers t members items
  | _, _ => false
end

end Value

namespace Shape

/-! ## Writing -/

/-- Bytes to write; nothing is written at a hole. -/
abbrev Image := List (Option UInt8)

/-- An image that writes nothing. -/
def holes (n : Nat) : Image := List.replicate n none

/-- Cut or extend an image to `n` bytes. -/
def padTo (n : Nat) (image : Image) : Image := image.take n ++ holes (n - image.length)

/-- The `count` low bytes of a word. -/
def wordImage (w : UInt64) (count : Nat) : Image := (Word.bytes w count).map some

/-- A value that has not the form of the shape writes its word, or zeros if it has none, into the
first eight bytes. -/
def plainImage (size : Nat) (v : Value) : Image :=
  padTo size (wordImage (v.asBits.getD 0) (min size 8))

mutual
/-- What writing a value writes. The image is as long as the shape is large. -/
def image (s : Shape) (v : Value) : Image :=
  match s, v with
  | .void, _ => []
  | .bool, .bool b => [some (if b then 1 else 0)]
  | .real bits, .f32 w =>
    if bits = 32 then wordImage w.toUInt64 4 else plainImage (bits / 8) v
  | .real bits, .f64 w => padTo (bits / 8) (wordImage w 8)
  | .fn, .fn id => wordImage (UInt64.ofNat (id.index + 1)) 8
  | .type, .type id => wordImage (UInt64.ofNat id.index) 8
  | .slice, .agg items =>
    padTo 16 ((items.take 2).flatMap fun item => wordImage (item.asBits.getD 0) 8)
  | .array elem len, .agg items =>
    let stride := elem.stride
    padTo (elem.size * len) (items.flatMap fun item => padTo stride (elem.image item))
  | .struct members, .agg items =>
    padTo (Shape.struct members).size (imageFrom 0 members items)
  | s, v => plainImage s.size v

/-- What writing the members behind the first `offset` bytes writes, from there on. -/
def imageFrom (offset : Nat) : List Shape → List Value → Image
  | s :: members, v :: items =>
    holes (alignUp offset s.layout.align - offset) ++ s.image v ++
      imageFrom (s.layout.place offset) members items
  | _, _ => []
end

/-- Put an image into memory at `offset`. -/
def overlay (memory : Array UInt8) (offset : Nat) : Image → Array UInt8
  | [] => memory
  | none :: rest => overlay memory (offset + 1) rest
  | some b :: rest => overlay (memory.setIfInBounds offset b) (offset + 1) rest

/-! ## Reading -/

/-- The word in the first bytes of a window of `room` bytes at `offset`. -/
def wordAt (memory : Array UInt8) (offset room : Nat) : UInt64 :=
  Word.ofBytes ((List.range (min room 8)).map fun i => memory.getD (offset + i) 0)

mutual
/-- The value in a window of `room` bytes at `offset`. Words are taken from the whole window, the
parts of arrays and structs from windows of their own size. -/
def read (memory : Array UInt8) (offset room : Nat) : Shape → Value
  | .void => .void
  | .bool => .bool (memory.getD offset 0 != 0)
  | .int bits signed => .ofRaw (wordAt memory offset room) bits signed
  | .enum _ => .int (wordAt memory offset room)
  | .real bits =>
    if bits = 32 then .f32 (wordAt memory offset room).toUInt32
    else .f64 (wordAt memory offset room)
  | .pointer => .ptr (wordAt memory offset room)
  | .fn =>
    let w := wordAt memory offset room
    if w = 0 then .ptr 0 else .fn ⟨(w - 1).toNat % referenceLimit⟩
  | .type => .type ⟨(wordAt memory offset room).toNat % referenceLimit⟩
  | .slice => .agg [.int (wordAt memory offset 8), .ptr (wordAt memory (offset + 8) 8)]
  | .array elem len =>
    let stride := elem.stride
    let size := elem.size
    .agg ((List.range len).map fun i => read memory (offset + i * stride) size elem)
  | .struct members => .agg (readFrom memory offset 0 members)

/-- The members that lie behind the first `done` bytes of a struct at `offset`. -/
def readFrom (memory : Array UInt8) (offset done : Nat) : List Shape → List Value
  | [] => []
  | s :: rest =>
    read memory (offset + alignUp done s.layout.align) s.size s ::
      readFrom memory offset (s.layout.place done) rest
end

end Shape

namespace TypeTable

/-- The zero value of a type, at most `fuel` steps deep, inside the structs of `inside`. -/
def zeroAt (t : TypeTable) : Nat → List StructId → TypeId → Except LayoutError Value
  | 0, _, ty => .error (.tooLarge ty)
  | fuel + 1, inside, ty =>
    match t.kind ty with
    | .void => .ok .void
    | .bool => .ok (.bool false)
    | .int _ _ | .enum _ => .ok (.int 0)
    | .real bits => .ok (if bits = 32 then .f32 0 else .f64 0)
    | .ptr _ | .null | .fn _ _ => .ok (.ptr 0)
    | .type => .ok (.type .void)
    | .slice _ => .ok (.agg [.int 0, .ptr 0])
    | .array elem len => do
      let z ← t.zeroAt fuel inside elem
      return .agg (List.replicate len.toNat z)
    | .struct id =>
      if inside.contains id then .error (.recursive id)
      else
        match (t.structDef id).members with
        | none => .error (.incomplete id)
        | some members =>
          (members.mapM fun m => t.zeroAt fuel (id :: inside) m.ty).map .agg
    | .missing => .error (.missing ty)

/-- The zero value of a type. It needs every struct in it to be complete, and no sizes: the zero of
an enum is zero whatever it stands over. -/
def zero (t : TypeTable) (ty : TypeId) : Except LayoutError Value := t.zeroAt t.shapeFuel [] ty

/-- Write a value of a type over the first bytes of a buffer. -/
def encode (t : TypeTable) (ty : TypeId) (v : Value) (buffer : Array UInt8) :
    Except LayoutError (Array UInt8) :=
  (t.shape ty).map fun s => Shape.overlay buffer 0 (s.image v)

/-- Read a value of a type from a buffer. An enum by itself needs no layout: it is the word in the
buffer, whatever it stands over. -/
def decode (t : TypeTable) (ty : TypeId) (buffer : Array UInt8) : Except LayoutError Value :=
  match t.kind ty with
  | .enum _ =>
    let (bits, signed) := (t.intInfo ty).getD (64, false)
    .ok (.ofRaw (Shape.wordAt buffer 0 buffer.size) bits signed)
  | _ => (t.shape ty).map fun s => s.read buffer 0 buffer.size

end TypeTable

end Comptime
