import Comptime.Code.Basic
import Comptime.Proofs.Type.Proper
import Comptime.Proofs.Type.Shape

/-!
# Variables in a frame

The variables of a function stand one behind the other in its frame, each at a multiple of the
alignment of its type. No alignment exceeds eight bytes where integers and reals have the usual widths,
so a frame that starts at a multiple of sixteen keeps all of them aligned.
-/

namespace Comptime

/-! ## Alignment -/

private theorem max_dvd {a b n : Nat} (ha : a ∣ n) (hb : b ∣ n) : max a b ∣ n := by
  rcases Nat.le_total a b with h | h
  · rwa [Nat.max_eq_right h]
  · rwa [Nat.max_eq_left h]

theorem Layout.align_struct_dvd {ls} {n : Nat} (h : ∀ l ∈ ls, l.align ∣ n) : (Layout.struct ls).align ∣ n := by
  have hfold : ∀ a, a ∣ n → ls.foldl (fun a l => max a l.align) a ∣ n := by
    induction ls with
    | nil => exact fun a ha => ha
    | cons l ls ih =>
      intro a ha
      refine ih (fun l' hl' => h l' (List.mem_cons_of_mem l hl')) _ ?_
      exact max_dvd ha (h l List.mem_cons_self)
  exact hfold 1 (Nat.one_dvd n)

namespace TypeTable

variable {t : TypeTable} {ty : TypeId}

private theorem bytes_dvd {bits} (h : bits ∈ [8, 16, 32, 64]) : bits / 8 ∣ 8 := by
  simp only [List.mem_cons, List.not_mem_nil, or_false] at h
  rcases h with rfl | rfl | rfl | rfl <;> decide

theorem Widths.shape_align (h : t.Widths) {s} (hs : t.shape ty = .ok s) : s.layout.align ∣ 8 := by
  refine shape_induction (motive := fun _ s => s.layout.align ∣ 8) (@fun _ ty s hs => ?_) hs
  cases hs with
  | scalar hk =>
    cases hkind : t.kind ty <;> rw [hkind] at hk <;> cases hk
    case int.refl bits signed => exact bytes_dvd (h.int ty bits signed hkind)
    case real.refl bits =>
      have hbits := h.real ty bits hkind
      exact bytes_dvd (by simp only [List.mem_cons] at hbits ⊢; tauto)
    all_goals decide
  | integer _ hi => exact bytes_dvd (h.intInfoAt hi)
  | enum _ _ hbase => exact hbase
  | array _ he => exact he
  | struct _ _ _ hall =>
    refine Layout.align_struct_dvd fun l hl => ?_
    rw [Shape.layouts_eq_map] at hl
    obtain ⟨s, hs, rfl⟩ := List.mem_map.mp hl
    exact forall_of_forall₂ hall s hs

theorem Widths.align_dvd (h : t.Widths) {l} (hl : t.layout ty = .ok l) : l.align ∣ 8 := by
  obtain ⟨s, hs, rfl⟩ := map_eq_ok.mp hl
  exact h.shape_align hs

end TypeTable

/-! ## Slots -/

namespace Function

variable {t : TypeTable} {f : Function}

def LaidOut (t : TypeTable) (f : Function) : Prop := ∃ g : Function, g.layoutFrame t = (f, none)

/-- Slots one behind the other, from an offset to another. -/
inductive Placed (t : TypeTable) : Nat → List Slot → Nat → Prop
  | nil {offset : Nat} : Placed t offset [] offset
  | cons {offset stop : Nat} {s : Slot} {l : Layout} {slots : List Slot}
    (layout : t.layout s.ty = .ok l) (start : offset ≤ s.offset)
    (aligned : 0 < l.align → l.align ∣ s.offset)
    (rest : Placed t (s.offset + l.size) slots stop) : Placed t offset (s :: slots) stop

theorem placed_of_placeSlots {slots placed} {offset align stop a}
    (h : placeSlots t offset align slots = (placed, .ok (stop, a))) : Placed t offset placed stop := by
  induction slots generalizing offset align placed with
  | nil =>
    cases h
    exact .nil
  | cons s rest ih =>
    rw [placeSlots] at h
    split at h
    · cases h
    · next l hl =>
      dsimp only at h
      split at h
      · cases h
      · split at h
        · cases h
        · cases hrest : placeSlots t (alignUp offset l.align + l.size) (max align l.align) rest with
          | mk placed' result =>
            rw [hrest] at h
            cases h
            exact Placed.cons (s := { s with offset := alignUp offset l.align }) hl (le_alignUp ..)
              (fun hpos => dvd_alignUp hpos offset) (ih hrest)

namespace Placed

variable {offset stop i j : Nat} {slots : List Slot} {s s' : Slot} {l : Layout}

private theorem le (h : Placed t offset slots stop) : offset ≤ stop := by
  induction h with
  | nil => exact Nat.le_refl _
  | cons _ start _ _ ih => omega

theorem slot (h : Placed t offset slots stop) (hs : slots[i]? = some s) :
    ∃ l, t.layout s.ty = .ok l ∧ (0 < l.align → l.align ∣ s.offset) ∧ offset ≤ s.offset ∧
      s.offset + l.size ≤ stop := by
  induction h generalizing i with
  | nil => cases hs
  | @cons offset stop s0 l rest layout start aligned hrest ih =>
    cases i with
    | zero =>
      cases hs
      exact ⟨l, layout, aligned, start, hrest.le⟩
    | succ i =>
      obtain ⟨l', hl', haligned, hstart, hstop⟩ := ih hs
      exact ⟨l', hl', haligned, by omega, hstop⟩

theorem apart (h : Placed t offset slots stop) (hs : slots[i]? = some s) (hs' : slots[j]? = some s')
    (hij : i < j) (hl : t.layout s.ty = .ok l) : s.offset + l.size ≤ s'.offset := by
  induction h generalizing i j with
  | nil => cases hs
  | @cons offset stop s0 l0 rest layout start aligned hrest ih =>
    obtain ⟨j, rfl⟩ : ∃ k, j = k + 1 := ⟨j - 1, by omega⟩
    cases i with
    | zero =>
      cases hs
      rw [layout] at hl
      cases hl
      obtain ⟨-, -, -, hstart, -⟩ := hrest.slot hs'
      exact hstart
    | succ i => exact ih hs hs' (by omega)

end Placed

namespace LaidOut

theorem placed (h : f.LaidOut t) : ∃ stop, Placed t 0 f.slots.toList stop ∧ stop ≤ f.frameSize := by
  obtain ⟨g, hg⟩ := h
  unfold layoutFrame at hg
  split at hg
  · cases hg
  · next slots stop a hplace =>
    dsimp only at hg
    split at hg
    · cases hg
    · cases hg
      exact ⟨stop, placed_of_placeSlots hplace, le_alignUp stop a⟩

theorem getElem?_slots {i} (hi : f.slots.Has i) : f.slots.toList[i.index]? = some (f.slot i) := by
  have hget := Pool.get?_getD hi (default : Slot)
  simpa [Pool.toList, Pool.get?, Function.slot] using hget

theorem within (h : f.LaidOut t) {i} (hi : f.slots.Has i) :
    ∃ l, t.layout (f.slot i).ty = .ok l ∧ (0 < l.align → l.align ∣ (f.slot i).offset) ∧
      (f.slot i).offset + l.size ≤ f.frameSize := by
  obtain ⟨stop, hplaced, hstop⟩ := h.placed
  obtain ⟨l, hl, haligned, -, hend⟩ := hplaced.slot (getElem?_slots hi)
  exact ⟨l, hl, haligned, by omega⟩

theorem slot (h : f.LaidOut t) (ht : t.Widths) {i} (hi : f.slots.Has i) :
    ∃ l, t.layout (f.slot i).ty = .ok l ∧ l.align ∣ (f.slot i).offset ∧ (f.slot i).offset + l.size ≤ f.frameSize := by
  obtain ⟨l, hl, haligned, hend⟩ := h.within hi
  exact ⟨l, hl, haligned (Nat.pos_of_dvd_of_pos (ht.align_dvd hl) (by decide)), hend⟩

theorem apart (h : f.LaidOut t) {i j} (hi : f.slots.Has i) (hj : f.slots.Has j) (hij : i ≠ j) {l l'}
    (hl : t.layout (f.slot i).ty = .ok l) (hl' : t.layout (f.slot j).ty = .ok l') :
    (f.slot i).offset + l.size ≤ (f.slot j).offset ∨ (f.slot j).offset + l'.size ≤ (f.slot i).offset := by
  obtain ⟨stop, hplaced, -⟩ := h.placed
  rcases Nat.lt_trichotomy i.index j.index with hlt | heq | hlt
  · exact .inl (hplaced.apart (getElem?_slots hi) (getElem?_slots hj) hlt hl)
  · exact absurd (congrArg Id.mk heq) hij
  · exact .inr (hplaced.apart (getElem?_slots hj) (getElem?_slots hi) hlt hl')

end LaidOut

end Function

end Comptime
