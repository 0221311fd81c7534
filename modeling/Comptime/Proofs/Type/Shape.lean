import Comptime.Proofs.Except
import Comptime.Proofs.Type.Layout
import Mathlib.Data.List.Forall2

/-!
# The shape of a type

The shape of a type follows from the shapes of its parts (`TypeTable.Unfolds`), so what holds of shapes can be
proved by going from the parts to the whole (`TypeTable.shape_induction`). More fuel and fewer structs around a
type give the same shape.
-/

namespace Comptime

/-- The shape of a type that has no parts. -/
def TypeKind.shape? : TypeKind → Option Shape
  | .void => some .void
  | .bool => some .bool
  | .int bits signed => some (.int bits signed)
  | .real bits => some (.real bits)
  | .ptr _ | .null => some .pointer
  | .fn _ _ => some .fn
  | .type => some .type
  | .slice _ => some .slice
  | .enum _ | .array _ _ | .struct _ | .missing => none

theorem Shape.layouts_eq_map (members) : layouts members = members.map layout := by
  induction members with
  | nil => rfl
  | cons s members ih => rw [layouts, ih, List.map_cons]

namespace TypeTable

/-- The shape of a type, where `Of` gives the shapes of its parts. -/
inductive Unfolds (t : TypeTable) (Of : List StructId → TypeId → Shape → Prop) (inside : List StructId)
    (ty : TypeId) : Shape → Prop
  | scalar {s : Shape} (kind : (t.kind ty).shape? = some s) : Unfolds t Of inside ty s
  | integer {id : EnumId} {bits : Nat} {signed : Bool} (kind : t.kind ty = .enum id)
    (info : t.intInfo ty = some (bits, signed)) : Unfolds t Of inside ty (.int bits signed)
  | enum {id : EnumId} {s : Shape} (kind : t.kind ty = .enum id) (info : t.intInfo ty = none)
    (base : Of inside (t.enumDef id).base s) : Unfolds t Of inside ty (.enum s)
  | array {elem : TypeId} {len : UInt64} {s : Shape} (kind : t.kind ty = .array elem len)
    (elems : Of inside elem s) (room : s.layout.size * len.toNat < addressSpace) :
    Unfolds t Of inside ty (.array s len.toNat)
  | struct {id : StructId} {members : List Member} {shapes : List Shape} (kind : t.kind ty = .struct id)
    (outside : id ∉ inside) (known : (t.structDef id).members = some members)
    (each : List.Forall₂ (fun m s => Of (id :: inside) m.ty s) members shapes)
    (room : (Shape.struct shapes).layout.size < addressSpace) : Unfolds t Of inside ty (.struct shapes)

variable {t : TypeTable} {ty : TypeId} {s : Shape} {fuel : Nat} {inside inside' : List StructId} {id : StructId}
  {members : List Member} {shapes : List Shape} {shapeOf : TypeId → Except LayoutError Shape}
  {Of Of' : List StructId → TypeId → Shape → Prop}

theorem Unfolds.mono (h : t.Unfolds Of inside ty s) (hsub : inside' ⊆ inside)
    (hOf : ∀ {inner inner' ty s}, inner' ⊆ inner → Of inner ty s → Of' inner' ty s) : t.Unfolds Of' inside' ty s := by
  cases h with
  | scalar kind => exact .scalar kind
  | integer kind info => exact .integer kind info
  | enum kind info base => exact .enum kind info (hOf hsub base)
  | array kind elems room => exact .array kind (hOf hsub elems) room
  | @struct id members shapes kind outside known each room =>
    exact .struct kind (fun h => outside (hsub h)) known (each.imp fun _ _ => hOf (List.cons_subset_cons id hsub)) room

theorem forall_of_forall₂ {P : Shape → Prop} (h : List.Forall₂ (fun _ s => P s) members shapes) : ∀ s ∈ shapes, P s := by
  intro s hs
  obtain ⟨i, hi, rfl⟩ := List.getElem_of_mem hs
  exact h.get (h.length_eq ▸ hi) hi

theorem forall₂_of_memberShapes {offset} (h : memberShapes shapeOf offset members = .ok shapes) :
    List.Forall₂ (fun m s => shapeOf m.ty = .ok s) members shapes := by
  induction members generalizing offset shapes with
  | nil =>
    cases h
    exact .nil
  | cons m rest ih =>
    obtain ⟨s, hs, h⟩ := bind_eq_ok.mp h
    split at h
    · obtain ⟨shapes, hrest, h⟩ := bind_eq_ok.mp h
      cases h
      exact .cons hs (ih hrest)
    · cases h

private theorem memberShapes_eq_ok (hall : List.Forall₂ (fun m s => shapeOf m.ty = .ok s) members shapes) {offset}
    (hroom : (Shape.layouts shapes).foldl Layout.place offset < addressSpace) :
    memberShapes shapeOf offset members = .ok shapes := by
  induction hall generalizing offset with
  | nil => rfl
  | @cons m s members shapes hs _ ih =>
    have hle := Layout.le_foldl_place (Shape.layouts shapes) (s.layout.place offset)
    refine bind_eq_ok.mpr ⟨s, hs, ?_⟩
    rw [if_pos (Nat.lt_of_le_of_lt hle hroom)]
    exact bind_eq_ok.mpr ⟨shapes, ih hroom, rfl⟩

theorem structShapes_eq_ok : t.structShapes shapeOf inside id = .ok shapes ↔ id ∉ inside ∧
    ∃ members, (t.structDef id).members = some members ∧
      List.Forall₂ (fun m s => shapeOf m.ty = .ok s) members shapes ∧
      (Shape.struct shapes).layout.size < addressSpace := by
  unfold structShapes
  constructor
  · intro h
    split at h
    · cases h
    · next hin =>
      split at h
      · cases h
      · next members hm =>
        obtain ⟨shapes', hs, h⟩ := bind_eq_ok.mp h
        split at h
        · next hroom =>
          cases h
          exact ⟨by simpa using hin, members, hm, forall₂_of_memberShapes hs, hroom⟩
        · cases h
  · rintro ⟨hin, members, hm, hall, hroom⟩
    rw [if_neg (by simpa using hin), hm]
    refine bind_eq_ok.mpr ⟨shapes, memberShapes_eq_ok hall ?_, if_pos hroom⟩
    exact Nat.lt_of_le_of_lt (le_alignUp _ _) hroom

theorem shapeAt_eq_ok : t.shapeAt (fuel + 1) inside ty = .ok s ↔
    t.Unfolds (fun inside ty s => t.shapeAt fuel inside ty = .ok s) inside ty s := by
  rw [shapeAt]
  constructor
  · intro h
    cases hk : t.kind ty <;> rw [hk] at h <;> dsimp only at h
    case enum id =>
      split at h
      · next hi =>
        cases h
        exact .integer hk hi
      · next hi =>
        obtain ⟨base, hbase, rfl⟩ := map_eq_ok.mp h
        exact .enum hk hi hbase
    case array elem len =>
      obtain ⟨e, he, h⟩ := bind_eq_ok.mp h
      split at h
      · next hroom =>
        cases h
        exact .array hk he hroom
      · cases h
    case struct id =>
      obtain ⟨shapes, hs, rfl⟩ := map_eq_ok.mp h
      obtain ⟨hin, members, hm, hall, hroom⟩ := structShapes_eq_ok.mp hs
      exact .struct hk hin hm hall hroom
    case missing => cases h
    all_goals
      cases h
      exact .scalar (by rw [hk]; rfl)
  · intro h
    cases h with
    | scalar hk => cases hkind : t.kind ty <;> rw [hkind] at hk <;> cases hk <;> rfl
    | integer hk hi =>
      rw [hk]
      dsimp only
      rw [hi]
    | enum hk hi hbase =>
      rw [hk]
      dsimp only
      rw [hi]
      exact map_eq_ok.mpr ⟨_, hbase, rfl⟩
    | array hk he hroom =>
      rw [hk]
      exact bind_eq_ok.mpr ⟨_, he, if_pos hroom⟩
    | struct hk hin hm hall hroom =>
      rw [hk]
      exact map_eq_ok.mpr ⟨_, structShapes_eq_ok.mpr ⟨hin, _, hm, hall, hroom⟩, rfl⟩

/-- Induction from the parts of a type to the whole. -/
theorem shape_induction {motive : TypeId → Shape → Prop}
    (step : ∀ {inside ty s}, t.Unfolds (fun _ => motive) inside ty s → motive ty s)
    (h : t.shapeAt fuel inside ty = .ok s) : motive ty s := by
  induction fuel generalizing inside ty s with
  | zero => cases h
  | succ fuel ih => exact step ((shapeAt_eq_ok.mp h).mono (List.Subset.refl _) fun _ => ih)

theorem shapeAt_mono {fuel'} (hfuel : fuel ≤ fuel') (hsub : inside' ⊆ inside) (h : t.shapeAt fuel inside ty = .ok s) :
    t.shapeAt fuel' inside' ty = .ok s := by
  induction fuel generalizing fuel' inside inside' ty s with
  | zero => cases h
  | succ fuel ih =>
    cases fuel' with
    | zero => omega
    | succ fuel' => exact shapeAt_eq_ok.mpr ((shapeAt_eq_ok.mp h).mono hsub fun hsub => ih (by omega) hsub)

/-! ## Whole types -/

theorem shape_of_unfolds (h : ∀ fuel, t.Unfolds (fun inside ty s => t.shapeAt fuel inside ty = .ok s) [] ty s) :
    t.shape ty = .ok s := by
  obtain ⟨fuel, hfuel⟩ : ∃ fuel, t.shapeFuel = fuel + 1 :=
    Nat.exists_eq_add_one.mpr (Nat.mul_pos (Nat.succ_pos _) (Nat.succ_pos _))
  rw [shape, hfuel]
  exact shapeAt_eq_ok.mpr (h fuel)

theorem shape_unfolds (h : t.shape ty = .ok s) :
    t.Unfolds (fun inside ty s => t.shapeAt t.shapeFuel inside ty = .ok s) [] ty s :=
  shapeAt_eq_ok.mp (shapeAt_mono (Nat.le_succ _) (List.Subset.refl _) h)

theorem shape_struct (hk : t.kind ty = .struct id) (h : t.shape ty = .ok s) :
    ∃ members shapes, s = .struct shapes ∧ (t.structDef id).members = some members ∧
      t.memberOffsets id = .ok (Shape.offsets shapes) ∧
      List.Forall₂ (fun m s => t.shape m.ty = .ok s) members shapes := by
  cases shape_unfolds h with
  | struct hk' hin hm hall hroom =>
    cases hk.symm.trans hk'
    refine ⟨_, _, rfl, hm, map_eq_ok.mpr ⟨_, structShapes_eq_ok.mpr ⟨hin, _, hm, hall, hroom⟩, rfl⟩, ?_⟩
    exact hall.imp fun _ _ => shapeAt_mono (Nat.le_refl _) (List.nil_subset _)
  | scalar hk' =>
    rw [hk] at hk'
    cases hk'
  | integer hk' | enum hk' | array hk' => cases hk.symm.trans hk'

theorem shape_array {elem} {len : UInt64} (hk : t.kind ty = .array elem len) (h : t.shape ty = .ok s) :
    ∃ e, t.shape elem = .ok e ∧ s = .array e len.toNat := by
  cases shape_unfolds h with
  | array hk' he =>
    cases hk.symm.trans hk'
    exact ⟨_, he, rfl⟩
  | scalar hk' =>
    rw [hk] at hk'
    cases hk'
  | integer hk' | enum hk' | struct hk' => cases hk.symm.trans hk'

end TypeTable

end Comptime
