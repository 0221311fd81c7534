import Comptime.Proofs.Value.Image
import Comptime.Proofs.Value.Read

/-!
# Memory keeps values

Writing a value of a type and reading it back gives the value, and every string of bytes of the size of
a type is read as a value of the type: values and bytes stand for each other, up to padding.

The one exception are enums over something that is no integer. Any word is a value of such an enum, while
in memory it has only the bytes of what the enum stands over. Sessions have no such enums.
-/

namespace Comptime

/-- Numbers of this kind take a whole number of bytes. -/
def TypeKind.bytewise : TypeKind → Bool
  | .int bits _ => bits ∈ [8, 16, 32, 64]
  | .real bits => bits ∈ [32, 64]
  | _ => true

namespace TypeTable

def Bytewise (t : TypeTable) : Prop := ∀ k ∈ t.kinds.toList, k.bytewise = true

instance (t : TypeTable) : Decidable t.Bytewise := inferInstanceAs (Decidable (∀ k ∈ _, _))

def EnumsOverIntegers (t : TypeTable) : Prop :=
  ∀ ty id, t.kind ty = .enum id → t.intInfo ty ≠ none

variable {t : TypeTable} {ty : TypeId}

namespace Bytewise

private theorem kind (ht : t.Bytewise) (ty) : (t.kind ty).bytewise = true := by
  by_cases h : t.Has ty
  · apply ht
    have hget := get?_kind h
    exact List.mem_of_getElem? (i := ty.index) (Array.getElem?_toList ▸ hget)
  · have hmissing : t.kind ty = .missing := Pool.getD_of_not_has h _
    rw [hmissing]
    rfl

theorem widths (ht : t.Bytewise) : t.Widths where
  int ty bits signed hk := by simpa [TypeKind.bytewise, hk] using ht.kind ty
  real ty bits hk := by simpa [TypeKind.bytewise, hk] using ht.kind ty

theorem real (ht : t.Bytewise) (ty) (bits : Nat) (hk : t.kind ty = .real bits) : bits = 32 ∨ bits = 64 := by
  simpa using ht.widths.real ty bits hk

end Bytewise

end TypeTable

namespace Shape

mutual
/-- Whether the bytes of a shape have room for every value: no enum in it stands over something small
that is no integer. -/
def faithful : Shape → Bool
  | .enum base => 8 ≤ base.size
  | .array elem _ => elem.faithful
  | .struct members => faithfulEach members
  | _ => true

def faithfulEach : List Shape → Bool
  | [] => true
  | s :: members => s.faithful && faithfulEach members
end

theorem faithfulEach_iff {members} : faithfulEach members = true ↔ ∀ s ∈ members, s.faithful = true := by
  induction members with
  | nil => simp [faithfulEach]
  | cons s members ih => simp [faithfulEach, ih]

variable {t : TypeTable} {ty : TypeId} {s : Shape} {v : Value}

theorem faithful_of_shape (henum : t.EnumsOverIntegers) (h : t.shape ty = .ok s) : s.faithful = true := by
  refine TypeTable.shape_induction (motive := fun _ s => s.faithful = true) (@fun _ ty s h => ?_) h
  cases h with
  | scalar hk => cases hkind : t.kind ty <;> rw [hkind] at hk <;> cases hk <;> rfl
  | integer => rfl
  | enum hk hi => exact absurd hi (henum ty _ hk)
  | array _ he =>
    rw [faithful]
    exact he
  | struct _ _ _ hall =>
    rw [faithful, faithfulEach_iff]
    exact TypeTable.forall_of_forall₂ hall

theorem holdsEach_of_forall₂ {R : Member → Shape → Prop} {P : Value → Member → Prop} {members shapes items}
    (hshapes : List.Forall₂ R members shapes) (hitems : List.Forall₂ P items members)
    (h : ∀ m s v, s ∈ shapes → R m s → P v m → s.Holds v) : HoldsEach shapes items := by
  induction hshapes generalizing items with
  | nil =>
    cases hitems
    rfl
  | @cons m s members shapes hm _ ih =>
    cases hitems with
    | @cons v _ rest _ hv hrest =>
      refine ⟨v, rest, rfl, h m s v List.mem_cons_self hm hv, ih hrest ?_⟩
      intro m' s' v' hmem
      exact h m' s' v' (List.mem_cons_of_mem s hmem)

theorem holds_of_fits (ht : t.Bytewise) (h : t.shape ty = .ok s) (he : s.faithful = true) (hv : v.fits t ty = true) :
    s.Holds v := by
  refine TypeTable.shape_induction (motive := fun ty s => s.faithful = true → ∀ v, v.fits t ty = true → s.Holds v)
    (@fun _ ty s h he v hv => ?_) h he v hv
  cases h with
  | scalar hk =>
    cases hkind : t.kind ty <;> rw [Value.fits_iff hkind] at hv <;> rw [hkind] at hk <;> cases hk
    case int.refl bits signed => exact ⟨ht.widths.int ty bits signed hkind, hv⟩
    all_goals exact hv
  | integer hk hi =>
    rw [Value.fits_iff hk] at hv
    obtain ⟨w, rfl, hw⟩ := hv
    exact ⟨ht.widths.intInfoAt hi, w, rfl, hw _ _ hi⟩
  | enum hk =>
    rw [Value.fits_iff hk] at hv
    obtain ⟨w, rfl, -⟩ := hv
    have hsize := of_decide_eq_true he
    refine ⟨w, rfl, ?_⟩
    rw [Nat.one_shiftLeft]
    exact Nat.lt_of_lt_of_le w.toNat_lt (Nat.pow_le_pow_right (by decide) (by omega))
  | array hk hs =>
    rw [Value.fits_iff hk] at hv
    obtain ⟨items, rfl, hlen, hitems⟩ := hv
    exact ⟨items, rfl, hlen, fun v hv => hs he v (hitems v hv)⟩
  | struct hk _ hm hall =>
    rw [Value.fits_iff hk] at hv
    obtain ⟨members', items, hm', rfl, hitems⟩ := hv
    cases hm.symm.trans hm'
    rw [faithful, faithfulEach_iff] at he
    refine ⟨items, rfl, holdsEach_of_forall₂ hall hitems ?_⟩
    intro m s item hmem hs hfit
    exact hs (he s hmem) item hfit

private theorem read_overlay {memory} {offset} (hv : s.Holds v) (hroom : offset + s.size ≤ memory.size) :
    s.read (overlay memory offset (s.image v)) offset s.size = v := by
  apply read_of_shows s v hv
  apply shows_overlay
  rw [length_image]
  exact hroom

end Shape

namespace TypeTable

variable {t : TypeTable} {ty : TypeId} {s : Shape}

/-- Memory encoding is exact. Every buffer of the size of a type holds a value of the type; every value
of the type that is written to a buffer of this size is read back from it, whatever the buffer held
before; so the values of the type are those that can be read from buffers of its size. The last two
need that no enum in the type stands over something small that is no integer. -/
theorem encoding_exact (ht : t.Bytewise) (hs : t.shape ty = .ok s) :
    (∀ buffer : Array UInt8, buffer.size = s.size →
      ∃ v, t.decode ty buffer = .ok v ∧ v.fits t ty = true) ∧
    (s.faithful = true →
      (∀ v, v.fits t ty = true → ∀ buffer : Array UInt8, buffer.size = s.size →
        ∃ written, t.encode ty v buffer = .ok written ∧ written.size = s.size ∧
          t.decode ty written = .ok v) ∧
      ∀ v, v.fits t ty = true ↔
        ∃ buffer : Array UInt8, buffer.size = s.size ∧ t.decode ty buffer = .ok v) ∧
    (t.EnumsOverIntegers → s.faithful = true) := by
  have hread : ∀ buffer : Array UInt8, buffer.size = s.size →
      ∃ v, t.decode ty buffer = .ok v ∧ v.fits t ty = true := by
    intro buffer _
    exact ⟨_, decode_eq hs buffer, Shape.fits_read ht.real hs buffer 0 buffer.size⟩
  refine ⟨hread, fun he => ?_, fun henum => Shape.faithful_of_shape henum hs⟩
  have hwrite : ∀ v, v.fits t ty = true → ∀ buffer : Array UInt8, buffer.size = s.size →
      ∃ written, t.encode ty v buffer = .ok written ∧ written.size = s.size ∧
        t.decode ty written = .ok v := by
    intro v hv buffer hsize
    have hwritten : (Shape.overlay buffer 0 (s.image v)).size = s.size :=
      Shape.size_overlay.trans hsize
    refine ⟨_, map_eq_ok.mpr ⟨s, hs, rfl⟩, hwritten, ?_⟩
    rw [decode_eq hs, hwritten,
      Shape.read_overlay (Shape.holds_of_fits ht hs he hv) (by omega)]
  refine ⟨hwrite, fun v => ⟨fun hv => ?_, ?_⟩⟩
  · obtain ⟨written, -, hsize, hback⟩ := hwrite v hv (Array.replicate s.size 0) (by simp)
    exact ⟨written, hsize, hback⟩
  · rintro ⟨buffer, hsize, hback⟩
    obtain ⟨w, hw, hfit⟩ := hread buffer hsize
    rw [hback] at hw
    cases hw
    exact hfit

/-- A table with a struct of a flag, an enum over `u8`, two `s16` and a function. -/
def packets : TypeTable :=
  let t := (initial.declareEnum "Kind" .u8 .dummy).1.completeEnum 0 [("data", 0), ("last", 200)]
  let t := ((t.array .s16 2).1.function [.s32] .bool).1
  (t.declareStruct "Packet" .dummy).1.completeStruct 0
    [⟨"urgent", .bool⟩, ⟨"kind", 14⟩, ⟨"ports", 15⟩, ⟨"check", 16⟩]

/-- A packet that is written over other bytes is read back: there is a gap behind the ports. -/
theorem encoding_exact_packet :
    packets.Bytewise ∧ packets.layout 17 = .ok ⟨16, 8⟩ ∧
      ∃ written, packets.encode 17
          (.agg [.bool true, .int 200, .agg [.int 80, .int 0xffffffffffffffff], .fn 4])
          (Array.replicate 16 0xaa) = .ok written ∧
        written.size = 16 ∧
        packets.decode 17 written =
          .ok (.agg [.bool true, .int 200, .agg [.int 80, .int 0xffffffffffffffff], .fn 4]) := by
  have ht : packets.Bytewise := by decide
  have hs : packets.shape 17 =
      .ok (.struct [.bool, .int 8 false, .array (.int 16 true) 2, .fn]) := rfl
  refine ⟨ht, rfl, ?_⟩
  exact ((encoding_exact ht hs).2.1 rfl).1 _ (by decide) _ (by decide)

/-- A table with an enum over `bool`. -/
def flags : TypeTable := (initial.declareEnum "Flag" .bool .dummy).1

/-- An enum over `bool` takes one byte, but 256 is a value of it: it is read back as zero. -/
theorem encoding_cuts_enum_over_bool :
    flags.Bytewise ∧ flags.layout 14 = .ok ⟨1, 1⟩ ∧ (Value.int 256).fits flags 14 = true ∧
      flags.encode 14 (.int 256) #[0xaa] = .ok #[0] ∧
      flags.decode 14 #[0] = .ok (.int 0) :=
  ⟨by decide, rfl, by decide, rfl, rfl⟩

end TypeTable

end Comptime
