import Comptime.Type.Layout

/-!
# The layout of shapes

The size of a shape is a multiple of its alignment, so elements of an array stand next to each other
without a gap. The members of a struct stand one behind the other, and all of them within its size.
-/

namespace Comptime

theorem le_alignUp (value align) : value ≤ alignUp value align := by
  unfold alignUp
  split
  · exact Nat.le_refl value
  · have hmod := Nat.mod_add_div (value + align - 1) align
    have hlt := Nat.mod_lt (value + align - 1) (show 0 < align by omega)
    rw [Nat.mul_comm align] at hmod
    omega

theorem dvd_alignUp {align} (h : 0 < align) (value) : align ∣ alignUp value align := by
  unfold alignUp
  split
  · obtain rfl : align = 1 := by omega
    exact Nat.one_dvd value
  · exact Nat.dvd_mul_left align _

private theorem alignUp_of_dvd {value align} (h : align ∣ value) : alignUp value align = value := by
  obtain ⟨k, rfl⟩ := h
  unfold alignUp
  split
  · rfl
  · have hdiv : (align * k + align - 1) / align = k := by
      rw [Nat.add_sub_assoc (by omega), Nat.mul_add_div (by omega), Nat.div_eq_of_lt (by omega), Nat.add_zero]
    rw [hdiv, Nat.mul_comm]

namespace Layout

theorem le_place (l : Layout) (offset) : offset ≤ l.place offset :=
  Nat.le_add_right_of_le (le_alignUp offset l.align)

theorem le_foldl_place (ls : List Layout) (offset) : offset ≤ ls.foldl place offset := by
  induction ls generalizing offset with
  | nil => exact Nat.le_refl offset
  | cons l ls ih => exact Nat.le_trans (l.le_place offset) (ih (l.place offset))

private theorem align_struct_pos (ls) : 0 < (Layout.struct ls).align := by
  have hfold : ∀ a, 0 < a → 0 < ls.foldl (fun a l => max a l.align) a := by
    induction ls with
    | nil => exact fun a ha => ha
    | cons l ls ih => exact fun a ha => ih _ (Nat.lt_of_lt_of_le ha (Nat.le_max_left a l.align))
  exact hfold 1 (by decide)

end Layout

namespace Shape

theorem align_dvd_size : (s : Shape) → s.layout.align ∣ s.size
  | .void | .bool | .pointer | .fn | .type | .slice => by simp [size, layout]
  | .int _ _ | .real _ => Nat.dvd_refl _
  | .enum base => align_dvd_size base
  | .array elem len => Nat.dvd_mul_right_of_dvd (align_dvd_size elem) len
  | .struct members => dvd_alignUp (Layout.align_struct_pos (layouts members)) _

theorem stride_eq_size (s : Shape) : s.stride = s.size := alignUp_of_dvd s.align_dvd_size

theorem length_offsetsFrom (members) (offset) : (offsetsFrom offset members).length = members.length := by
  induction members generalizing offset with
  | nil => rfl
  | cons s members ih => exact congrArg (· + 1) (ih _)

/-! ## Members

In each statement the members follow the first `offset` bytes, and the one at position `i` has the
shape `s` and the offset `o`.
-/

section

variable {members : List Shape} {offset i o : Nat} {s : Shape}

private theorem le_offset (ho : (offsetsFrom offset members)[i]? = some o) : offset ≤ o := by
  induction members generalizing offset i with
  | nil => cases ho
  | cons m members ih =>
    cases i with
    | zero =>
      cases ho
      exact le_alignUp offset m.layout.align
    | succ i =>
      have hrest : m.layout.place offset ≤ o := ih ho
      exact Nat.le_trans (m.layout.le_place offset) hrest

private theorem offset_add_size_le (hs : members[i]? = some s) (ho : (offsetsFrom offset members)[i]? = some o) :
    o + s.size ≤ (layouts members).foldl Layout.place offset := by
  induction members generalizing offset i with
  | nil => cases hs
  | cons m members ih =>
    cases i with
    | zero =>
      cases hs
      cases ho
      exact Layout.le_foldl_place (layouts members) (s.layout.place offset)
    | succ i => exact ih hs ho

theorem offset_add_size_le_offset {j p} (hs : members[i]? = some s) (ho : (offsetsFrom offset members)[i]? = some o)
    (hp : (offsetsFrom offset members)[j]? = some p) (hij : i < j) : o + s.size ≤ p := by
  induction members generalizing offset i j with
  | nil => cases hs
  | cons m members ih =>
    obtain ⟨j, rfl⟩ : ∃ k, j = k + 1 := ⟨j - 1, by omega⟩
    cases i with
    | zero =>
      cases hs
      cases ho
      exact @le_offset members (s.layout.place offset) j p hp
    | succ i => exact ih hs ho hp (by omega)

theorem offset_add_size_le_struct (hs : members[i]? = some s)
    (ho : (offsets members)[i]? = some o) : o + s.size ≤ (Shape.struct members).size :=
  Nat.le_trans (offset_add_size_le hs ho) (le_alignUp _ _)

end

end Shape

end Comptime
