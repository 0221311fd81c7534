import Comptime.Proofs.Pool
import Comptime.Proofs.Word
import Comptime.Type.Conversion
import Comptime.Value.Memory

/-!
# Proper type tables

A table is proper when it starts with the predefined types, holds no descriptor twice, knows them all in its
cache, and holds the structs and enums that its types name. Tables grow: types keep their descriptors, structs
their members once they are known, enums the types that they stand over.

A descriptor may mention an id that names no type, since types can be computed. Such an id is read as
`TypeKind.missing`, of which nothing holds that a proper table could lose while it grows.

The main results say that what a session does to its table keeps it proper and makes it grow, and
that in a proper table whatever is known of a type stays true while the table grows.
-/

namespace Comptime

/-- The types that a descriptor mentions. -/
def TypeKind.parts : TypeKind → List TypeId
  | .ptr ty | .array ty _ | .slice ty => [ty]
  | .fn params ret => ret :: params
  | _ => []

namespace TypeTable

def Has (t : TypeTable) (ty : TypeId) : Prop := t.kinds.Has ty

instance (t : TypeTable) (ty : TypeId) : Decidable (t.Has ty) :=
  inferInstanceAs (Decidable (t.kinds.Has ty))

/-- The descriptor is put together from others, or is that of a struct or enum of the table. -/
def Builds (t : TypeTable) : TypeKind → Prop
  | .ptr _ | .array _ _ | .slice _ | .fn _ _ => True
  | .struct id => t.structs.Has id
  | .enum id => t.enums.Has id
  | _ => False

/-- The value of a variant is canonical at the width of the type that its enum stands over. -/
def CanonicalAt (t : TypeTable) (ty : TypeId) (w : UInt64) : Prop :=
  ∀ bits signed, t.intInfo ty = some (bits, signed) → Word.canonical w bits signed = w

/-- A table that starts with the predefined types and holds no descriptor twice. -/
structure Interned (t : TypeTable) : Prop where
  primitive : ∀ i k, primitives[i]? = some k → t.kinds.get? ⟨i⟩ = some k
  distinct : ∀ a b, t.Has a → t.Has b → t.kind a = t.kind b → a = b

/-- A table whose cache has each descriptor, with the id at which it stands. -/
structure Indexed (t : TypeTable) : Prop extends t.Interned where
  cached : ∀ {k ty}, t.find? k = some ty ↔ t.kinds.get? ty = some k

/-- A table that holds the predefined types, no descriptor twice, and the structs and enums that it names. -/
structure Proper (t : TypeTable) : Prop extends t.Indexed where
  built : ∀ a, t.Has a → t.kind a ∈ primitives ∨ t.Builds (t.kind a)
  base : ∀ id, t.enums.Has id → t.isInt (t.enumDef id).base = true

/-- A reference can name the type, whether it exists or not. -/
def Knows (t : TypeTable) (ty : TypeId) : Prop := t.Has ty ∨ ty.index < referenceLimit

/-- What the descriptors and members mention can be named, and variants have values of the types that their
enums stand over. -/
structure Named (t : TypeTable) : Prop where
  parts : ∀ {a p}, p ∈ (t.kind a).parts → t.Knows p
  members : ∀ {id ms}, (t.structDef id).members = some ms → ∀ m ∈ ms, t.Knows m.ty
  variants : ∀ {id vs}, (t.enumDef id).variants = some vs → ∀ v ∈ vs, t.CanonicalAt (t.enumDef id).base v.2

/-- What the operators and the machine rely on: the predefined types stand where they should, and
reals have one of two widths. -/
structure Standard (t : TypeTable) : Prop where
  void : t.kind .void = .void
  bool : t.kind .bool = .bool
  s64 : t.kind .s64 = .int 64 true
  u64 : t.kind .u64 = .int 64 false
  real : ∀ ty bits, t.kind ty = .real bits → bits = 32 ∨ bits = 64

/-- The types of the first table stand in the second as they were. -/
structure Widens (t t' : TypeTable) : Prop where
  size : t.size ≤ t'.size
  has : ∀ {ty}, t.Has ty → t'.Has ty
  kind : ∀ {ty}, t.Has ty → t'.kind ty = t.kind ty
  structs : ∀ {id}, t.structs.Has id → t'.structs.Has id
  enums : ∀ {id}, t.enums.Has id → t'.enums.Has id
  base : ∀ {id}, t.enums.Has id → (t'.enumDef id).base = (t.enumDef id).base

/-- Nothing that is known of the first table is different in the second. -/
structure Grows (t t' : TypeTable) : Prop extends t.Widens t' where
  members : ∀ {id ms}, (t.structDef id).members = some ms → (t'.structDef id).members = some ms

theorem Widens.refl (t : TypeTable) : t.Widens t := ⟨Nat.le_refl _, id, fun _ => rfl, id, id, fun _ => rfl⟩

theorem Widens.trans {t1 t2 : TypeTable} {t3} (h : t1.Widens t2) (h' : t2.Widens t3) : t1.Widens t3 where
  size := Nat.le_trans h.size h'.size
  has ht := h'.has (h.has ht)
  kind ht := (h'.kind (h.has ht)).trans (h.kind ht)
  structs hs := h'.structs (h.structs hs)
  enums he := h'.enums (h.enums he)
  base he := (h'.base (h.enums he)).trans (h.base he)

theorem Grows.refl (t : TypeTable) : t.Grows t := ⟨.refl t, id⟩

theorem Grows.trans {t1 t2 : TypeTable} {t3} (h : t1.Grows t2) (h' : t2.Grows t3) : t1.Grows t3 :=
  ⟨h.toWidens.trans h'.toWidens, fun hm => h'.members (h.members hm)⟩

/-! ## Reading a table -/

section

variable {t : TypeTable} {ty : TypeId}

theorem has_of_kind_ne (h : t.kind ty ≠ .missing) : t.Has ty :=
  Decidable.byContradiction fun hn => h (Pool.getD_of_not_has hn _)

theorem get?_kind (h : t.Has ty) : t.kinds.get? ty = some (t.kind ty) := Pool.get?_getD h _

theorem Has.knows (h : t.Has ty) : t.Knows ty := .inl h

theorem has_of_members {id ms} (h : (t.structDef id).members = some ms) : t.structs.Has id := by
  refine Decidable.byContradiction fun hn => ?_
  rw [structDef, Pool.getD_of_not_has hn] at h
  cases h

theorem has_of_variants {id vs} (h : (t.enumDef id).variants = some vs) : t.enums.Has id := by
  refine Decidable.byContradiction fun hn => ?_
  rw [enumDef, Pool.getD_of_not_has hn] at h
  cases h

theorem isInt_iff : t.isInt ty = true ↔ ∃ bits signed, t.kind ty = .int bits signed := by
  unfold isInt
  split <;> simp_all

theorem isReal_iff : t.isReal ty = true ↔ ∃ bits, t.kind ty = .real bits := by
  unfold isReal
  split <;> simp_all

theorem pointee_eq_some {target} : t.pointee ty = some target ↔ t.kind ty = .ptr target := by
  unfold pointee
  split <;> simp_all

theorem signature_eq_some {params ret} : t.signature ty = some (params, ret) ↔ t.kind ty = .fn params ret := by
  unfold signature
  split <;> simp_all

theorem intInfo_int {bits signed} (hk : t.kind ty = .int bits signed) : t.intInfo ty = some (bits, signed) := by
  simp [intInfo, intInfoAt, hk]

theorem intInfo_eq_some {bits signed} (hi : t.intInfo ty = some (bits, signed)) :
    t.kind ty = .int bits signed ∨ ∃ id, t.kind ty = .enum id := by
  rw [intInfo, intInfoAt] at hi
  split at hi
  · next hk =>
    cases hi
    exact .inl hk
  · next id hk => exact .inr ⟨id, hk⟩
  · cases hi

end

theorem Interned.kind_primitive {t : TypeTable} (h : t.Interned) {i k} (hi : primitives[i]? = some k) :
    t.kind ⟨i⟩ = k := by
  rw [kind, Pool.getD, h.primitive i k hi]
  rfl

theorem Interned.has_primitive {t : TypeTable} (h : t.Interned) {i k} (hi : primitives[i]? = some k) : t.Has ⟨i⟩ :=
  Pool.has_of_get?_eq_some (h.primitive i k hi)

/-- Integers and reals have the widths of machine words. -/
structure Widths (t : TypeTable) : Prop where
  int : ∀ ty bits signed, t.kind ty = .int bits signed → bits ∈ [8, 16, 32, 64]
  real : ∀ ty bits, t.kind ty = .real bits → bits ∈ [32, 64]

theorem Widths.intInfoAt {t : TypeTable} {ty} (h : t.Widths) {fuel bits signed}
    (hi : t.intInfoAt fuel ty = some (bits, signed)) : bits ∈ [8, 16, 32, 64] := by
  induction fuel generalizing ty with
  | zero => cases hi
  | succ fuel ih =>
    rw [TypeTable.intInfoAt] at hi
    split at hi
    · next hk =>
      cases hi
      exact h.int ty bits signed hk
    · exact ih hi
    · cases hi

namespace Proper

variable {t : TypeTable} (h : t.Proper) {ty : TypeId} {id : EnumId}

include h

@[simp] theorem kind_void : t.kind .void = .void := h.kind_primitive rfl
@[simp] theorem kind_bool : t.kind .bool = .bool := h.kind_primitive rfl
@[simp] theorem kind_s32 : t.kind .s32 = .int 32 true := h.kind_primitive rfl
@[simp] theorem kind_s64 : t.kind .s64 = .int 64 true := h.kind_primitive rfl
@[simp] theorem kind_u64 : t.kind .u64 = .int 64 false := h.kind_primitive rfl
@[simp] theorem kind_f64 : t.kind .f64 = .real 64 := h.kind_primitive rfl
@[simp] theorem kind_type : t.kind .type = .type := h.kind_primitive rfl
@[simp] theorem kind_null : t.kind .null = .null := h.kind_primitive rfl

theorem has_void : t.Has .void := h.has_primitive rfl
theorem has_bool : t.Has .bool := h.has_primitive rfl
theorem has_s64 : t.Has .s64 := h.has_primitive rfl
theorem has_f64 : t.Has .f64 := h.has_primitive rfl
theorem eq_of_kind_eq {a b} (ha : t.Has a) (hab : t.kind b = t.kind a) (hne : t.kind b ≠ .missing) : b = a :=
  h.distinct b a (has_of_kind_ne hne) ha hab

theorem builds {k} (hk : t.kind ty = k) (hn : k ≠ .missing) : k ∈ primitives ∨ t.Builds k := by
  subst hk
  exact h.built ty (has_of_kind_ne hn)

theorem widths : t.Widths where
  int ty bits signed hk := by
    have hmem := (h.builds hk (by simp)).resolve_right fun hf => hf
    simp [primitives] at hmem
    simp
    omega
  real ty bits hk := by simpa [primitives] using (h.builds hk (by simp)).resolve_right fun hf => hf

theorem real_width {bits} (hk : t.kind ty = .real bits) : bits = 32 ∨ bits = 64 := by
  simpa using h.widths.real ty bits hk

theorem standard : t.Standard where
  void := h.kind_void
  bool := h.kind_bool
  s64 := h.kind_s64
  u64 := h.kind_u64
  real _ _ := h.real_width

theorem has_enum (hk : t.kind ty = .enum id) : t.enums.Has id :=
  (h.builds hk (by simp)).resolve_left (by simp [primitives])

theorem has_base (hid : t.enums.Has id) : t.Has (t.enumDef id).base := by
  obtain ⟨_, _, hk⟩ := isInt_iff.mp (h.base id hid)
  exact has_of_kind_ne (by simp [hk])

theorem two_le_size : 2 ≤ t.size := by
  have := h.has_bool
  simp only [Has, Pool.Has, TypeId.bool] at this
  exact this

theorem intInfo_enum (hk : t.kind ty = .enum id) :
    ∃ bits signed, t.kind (t.enumDef id).base = .int bits signed ∧ t.intInfo ty = some (bits, signed) := by
  obtain ⟨bits, signed, hb⟩ := isInt_iff.mp (h.base id (h.has_enum hk))
  obtain ⟨n, hn⟩ : ∃ n, t.size = n + 1 := ⟨t.size - 1, by have := h.two_le_size; omega⟩
  exact ⟨bits, signed, hb, by simp [intInfo, hn, intInfoAt, hk, hb]⟩

end Proper

namespace Named

variable {t : TypeTable} (h : t.Named) {ty : TypeId}

include h

theorem knows_pointee {target} (hk : t.kind ty = .ptr target) : t.Knows target := h.parts (a := ty) (by simp [hk, TypeKind.parts])

theorem knows_elem {elem len} (hk : t.kind ty = .array elem len) : t.Knows elem :=
  h.parts (a := ty) (by simp [hk, TypeKind.parts])

theorem knows_sliceElem {elem} (hk : t.kind ty = .slice elem) : t.Knows elem :=
  h.parts (a := ty) (by simp [hk, TypeKind.parts])

theorem knows_signature {params ret} (hk : t.kind ty = .fn params ret) : (∀ p ∈ params, t.Knows p) ∧ t.Knows ret :=
  ⟨fun p hp => h.parts (a := ty) (by simp [hk, TypeKind.parts, hp]), h.parts (a := ty) (by simp [hk, TypeKind.parts])⟩

end Named

end TypeTable

end Comptime
