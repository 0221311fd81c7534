import Comptime.Proofs.Type.Shape
import Comptime.Proofs.Value.Fits

/-!
# Values that are read from memory

Whatever the bytes are, what is read by the shape of a type is a value of the type. That is all that
the machine needs to know about its memory.
-/

namespace Comptime

namespace Shape

variable {t : TypeTable}

theorem forall₂_readFrom {P : Value → Member → Prop} {memory} {offset done} {members shapes}
    {R : Member → Shape → Prop} (h : List.Forall₂ R members shapes)
    (hread : ∀ m s, R m s → ∀ offset room, P (s.read memory offset room) m) :
    List.Forall₂ P (readFrom memory offset done shapes) members := by
  induction h generalizing done with
  | nil => exact .nil
  | cons hr _ ih => exact .cons (hread _ _ hr _ _) ih

theorem fits_read (hreal : ∀ ty bits, t.kind ty = .real bits → bits = 32 ∨ bits = 64) {fuel} {inside ty s}
    (h : t.shapeAt fuel inside ty = .ok s) (memory) (offset room) : (s.read memory offset room).fits t ty = true := by
  refine TypeTable.shape_induction (motive := fun ty s => ∀ offset room, (s.read memory offset room).fits t ty = true)
    (@fun _ ty s h offset room => ?_) h offset room
  cases h with
  | scalar hk =>
    cases hkind : t.kind ty <;> rw [hkind] at hk <;> cases hk <;> apply (Value.fits_iff hkind).mpr
    case int.refl bits signed => exact ⟨_, rfl, by simp⟩
    case real.refl bits =>
      rcases hreal ty bits hkind with rfl | rfl
      · exact .inl ⟨rfl, _, rfl⟩
      · exact .inr ⟨rfl, _, rfl⟩
    case fn.refl =>
      rw [read]
      split
      · exact .inl rfl
      · exact .inr ⟨_, rfl, Nat.mod_lt _ (by decide)⟩
    case type.refl => exact ⟨_, rfl, Nat.mod_lt _ (by decide)⟩
    all_goals simp [Value.Form, read]
  | integer hk hi =>
    rw [Value.fits_iff hk]
    refine ⟨_, rfl, fun bits' signed' hi' => ?_⟩
    cases hi.symm.trans hi'
    simp
  | enum hk hi =>
    rw [Value.fits_iff hk]
    exact ⟨_, rfl, fun bits signed hi' => by rw [hi] at hi'; cases hi'⟩
  | array hk he =>
    rw [Value.fits_iff hk]
    refine ⟨_, rfl, by simp, fun v hv => ?_⟩
    obtain ⟨i, -, rfl⟩ := List.mem_map.mp hv
    exact he _ _
  | struct hk _ hm hall =>
    rw [Value.fits_iff hk]
    exact ⟨_, _, hm, rfl, forall₂_readFrom hall fun m s hs => hs⟩

end Shape

theorem TypeTable.decode_eq {t : TypeTable} {ty s} (hs : t.shape ty = .ok s) (buffer) :
    t.decode ty buffer = .ok (s.read buffer 0 buffer.size) := by
  unfold decode
  split
  · next id hk =>
    cases shape_unfolds hs with
    | integer _ hi | enum _ hi =>
      rw [hi]
      rfl
    | scalar hk' =>
      rw [hk] at hk'
      cases hk'
    | array hk' | struct hk' => cases hk.symm.trans hk'
  · rw [hs]
    rfl

end Comptime
