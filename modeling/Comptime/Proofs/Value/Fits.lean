import Comptime.Proofs.Except
import Comptime.Proofs.Type.Growth
import Comptime.Value.Memory

/-!
# Values that fit

`Value.Form` lists the values of each kind of type. From there on no proof opens `Value.fits`: the
other results build values that fit (zero values, values read from memory) or carry them into a
table that has grown.
-/

namespace Comptime

namespace TypeTable

/-- The zero of a kind of types that have no parts of their own. -/
def scalarZero? : TypeKind → Option Value
  | .void => some .void
  | .bool => some (.bool false)
  | .int _ _ | .enum _ => some (.int 0)
  | .real bits => some (if bits = 32 then .f32 0 else .f64 0)
  | .ptr _ | .null | .fn _ _ => some (.ptr 0)
  | .type => some (.type .void)
  | .slice _ => some (.agg [.int 0, .ptr 0])
  | .array _ _ | .struct _ | .missing => none

theorem zero_induction {t : TypeTable} {motive : TypeId → Value → Prop}
    (scalar : ∀ {ty z}, scalarZero? (t.kind ty) = some z → motive ty z)
    (array : ∀ {ty elem} {len : UInt64} {z}, t.kind ty = .array elem len → motive elem z →
      motive ty (.agg (List.replicate len.toNat z)))
    (struct : ∀ {ty id members zs}, t.kind ty = .struct id → (t.structDef id).members = some members →
      List.Forall₂ (fun m z => motive m.ty z) members zs → motive ty (.agg zs))
    {fuel} {inside ty z} (h : t.zeroAt fuel inside ty = .ok z) : motive ty z := by
  induction fuel generalizing inside ty z with
  | zero => cases h
  | succ fuel ih =>
    rw [zeroAt] at h
    cases hk : t.kind ty <;> rw [hk] at h <;> dsimp only at h
    case array elem len =>
      obtain ⟨z, hz, h⟩ := bind_eq_ok.mp h
      cases h
      exact array hk (ih hz)
    case struct id =>
      split at h
      · cases h
      · split at h
        · cases h
        · next members hm =>
          obtain ⟨zs, hzs, rfl⟩ := map_eq_ok.mp h
          exact struct hk hm ((forall₂_of_mapM_eq_ok hzs).imp fun _ _ => ih)
    case missing => cases h
    all_goals
      cases h
      exact scalar (congrArg scalarZero? hk)

end TypeTable

namespace Value

variable {t : TypeTable} {ty : TypeId} {items : List Value}

theorem fitsEach_iff : fitsEach t ty items = true ↔ ∀ v ∈ items, v.fits t ty = true := by
  induction items with
  | nil => simp [fitsEach]
  | cons v rest ih => simp [fitsEach, ih]

theorem fitsMembers_iff {members} :
    fitsMembers t members items = true ↔ List.Forall₂ (fun v m => v.fits t m.ty = true) items (members) := by
  induction members generalizing items with
  | nil => cases items <;> simp [fitsMembers]
  | cons m members ih => cases items <;> simp [fitsMembers, ih]

/-- The values of a type, by the descriptor of the type. -/
abbrev Form (t : TypeTable) (ty : TypeId) (v : Value) : TypeKind → Prop
  | .void => v = .void
  | .bool => ∃ b, v = .bool b
  | .int bits signed => ∃ w, v = .int w ∧ Word.canonical w bits signed = w
  | .enum _ => ∃ w, v = .int w ∧ t.CanonicalAt ty w
  | .real bits => bits = 32 ∧ (∃ w, v = .f32 w) ∨ bits = 64 ∧ ∃ w, v = .f64 w
  | .ptr _ | .null => ∃ a, v = .ptr a
  | .fn _ _ => v = .ptr 0 ∨ ∃ f, v = .fn f ∧ f.index < referenceLimit
  | .type => ∃ ty, v = .type ty ∧ ty.index < referenceLimit
  | .slice _ => ∃ len addr, v = .agg [.int len, .ptr addr]
  | .array elem len =>
    ∃ items, v = .agg items ∧ items.length = len.toNat ∧ ∀ i ∈ items, i.fits t elem = true
  | .struct id =>
    ∃ members items, (t.structDef id).members = some members ∧ v = .agg items ∧
      List.Forall₂ (fun v m => v.fits t m.ty = true) items members
  | .missing => False

private theorem canonicalAt_iff {w} : (let (bits, signed) := (t.intInfo ty).getD (64, false)
     Word.canonical w bits signed == w) = true ↔ t.CanonicalAt ty w := by
  cases hi : t.intInfo ty with
  | none => simp [hi, TypeTable.CanonicalAt]
  | some info =>
    obtain ⟨bits, signed⟩ := info
    simp [hi, TypeTable.CanonicalAt]

theorem fits_iff {v : Value} {kind} (hk : t.kind ty = kind) : v.fits t ty = true ↔ v.Form t ty kind := by
  cases v <;> cases kind <;> simp only [fits, hk, Form] <;> try simp
  case int.enum w id => simpa using canonicalAt_iff (w := w)
  case agg.slice items elem =>
    split
    · next len addr => simp
    · next hne =>
      simp only [Bool.false_eq_true, false_iff, not_exists]
      exact fun len addr hi => hne len addr hi
  case agg.array items elem len => simp [fitsEach_iff]
  case agg.struct items id =>
    cases (t.structDef id).members with
    | none => simp
    | some members => simp [fitsMembers_iff]

section

variable {t : TypeTable} {ty : TypeId} {v : Value}

theorem fits_integer {bits signed} (hi : t.intInfo ty = some (bits, signed)) :
    v.fits t ty = true ↔ ∃ w, v = .int w ∧ Word.canonical w bits signed = w := by
  rcases TypeTable.intInfo_eq_some hi with hk | ⟨id, hk⟩
  · exact fits_iff hk
  · rw [fits_iff hk]
    refine exists_congr fun w => and_congr_right fun _ => ?_
    simp [TypeTable.CanonicalAt, hi]

/-! ## Into a table that has grown -/

theorem has_of_fits (hv : v.fits t ty = true) : t.Has ty :=
  TypeTable.has_of_kind_ne fun hk => (fits_iff hk).mp hv

mutual
theorem fits_grow {t'} (hp : t.Proper) (g : t.Grows t') (ty) (v : Value) (hv : v.fits t ty = true) :
    v.fits t' ty = true := by
  have h := has_of_fits hv
  have hk := g.kind h
  match v with
  | .agg items =>
    simp only [fits] at hv ⊢
    rw [hk]
    split at hv <;> try exact hv
    · next elem len hty =>
      simp only [Bool.and_eq_true] at hv ⊢
      exact ⟨hv.1, fitsEach_grow hp g elem items hv.2⟩
    · next id hty =>
      cases hm : (t.structDef id).members with
      | none =>
        rw [hm] at hv
        cases hv
      | some members =>
        rw [hm] at hv
        rw [g.members hm]
        exact fitsMembers_grow hp g members items hv
  | .int w =>
    simp only [fits, hk, g.intInfo hp h] at hv ⊢
    exact hv
  | .void | .bool _ | .f32 _ | .f64 _ | .ptr _ | .fn _ | .type _ =>
    simp only [fits, hk] at hv ⊢
    exact hv

theorem fitsEach_grow {t'} (hp : t.Proper) (g : t.Grows t') (ty) (items) (hv : fitsEach t ty items = true) :
    fitsEach t' ty items = true := by
  match items with
  | [] => rfl
  | v :: rest =>
    simp only [fitsEach, Bool.and_eq_true] at hv ⊢
    exact ⟨fits_grow hp g ty v hv.1, fitsEach_grow hp g ty rest hv.2⟩

theorem fitsMembers_grow {t'} (hp : t.Proper) (g : t.Grows t') (members) (items)
    (hv : fitsMembers t members items = true) : fitsMembers t' members items = true := by
  match members, items with
  | [], [] => rfl
  | [], _ :: _ | _ :: _, [] => cases hv
  | m :: members, v :: rest =>
    simp only [fitsMembers, Bool.and_eq_true] at hv ⊢
    exact ⟨fits_grow hp g m.ty v hv.1, fitsMembers_grow hp g members rest hv.2⟩
end

end

/-! ## Zero -/

theorem fits_zeroAt (hp : t.Proper) (fuel inside ty) (v : Value) (h : t.zeroAt fuel inside ty = .ok v) :
    v.fits t ty = true := by
  refine TypeTable.zero_induction (motive := fun ty v => v.fits t ty = true) ?_ ?_ ?_ h
  · intro ty z hz
    cases hk : t.kind ty <;> rw [hk] at hz <;> cases hz <;> apply (fits_iff hk).mpr
    case void.refl => rfl
    case int.refl bits signed => exact ⟨0, rfl, by simp⟩
    case enum.refl id => exact ⟨0, rfl, fun bits signed _ => by simp⟩
    case real.refl bits =>
      rcases hp.real_width hk with rfl | rfl
      · exact .inl ⟨rfl, 0, rfl⟩
      · exact .inr ⟨rfl, 0, rfl⟩
    case fn.refl => exact .inl rfl
    case type.refl => exact ⟨_, rfl, by decide⟩
    case slice.refl => exact ⟨_, _, rfl⟩
    all_goals exact ⟨_, rfl⟩
  · intro ty elem len z hk hz
    refine (fits_iff hk).mpr ⟨_, rfl, List.length_replicate, fun i hi => ?_⟩
    rw [List.eq_of_mem_replicate hi]
    exact hz
  · intro ty id members zs hk hm hall
    exact (fits_iff hk).mpr ⟨members, zs, hm, rfl, hall.flip⟩

end Value

end Comptime
