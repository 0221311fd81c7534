import Comptime.Id

/-!
# Laws of pools

What a look-up finds after an entity was pushed or changed. `Pool.Has` says that an id is in use;
pools only grow, so it stays true.
-/

namespace Comptime.Pool

variable {κ : Entity} {α : Type}

def Has (p : Pool κ α) (i : Id κ) : Prop := i.index < p.size

instance (p : Pool κ α) (i : Id κ) : Decidable (p.Has i) := inferInstanceAs (Decidable (_ < _))

theorem get?_eq_none_iff {p : Pool κ α} {i : Id κ} : p.get? i = none ↔ ¬ p.Has i := by
  simp [get?, Has, size]

theorem has_of_get?_eq_some {p : Pool κ α} {i : Id κ} {a : α} (h : p.get? i = some a) : p.Has i := by
  refine Decidable.byContradiction fun hn => ?_
  rw [get?_eq_none_iff.mpr hn] at h
  cases h

theorem get?_getD {p : Pool κ α} {i : Id κ} (h : p.Has i) (a : α) : p.get? i = some (p.getD i a) := by
  cases hg : p.get? i with
  | none => exact absurd h (get?_eq_none_iff.mp hg)
  | some b => simp [getD, hg]

theorem getD_of_not_has {p : Pool κ α} {i : Id κ} (h : ¬ p.Has i) (a : α) : p.getD i a = a := by
  simp [getD, get?_eq_none_iff.mpr h]

theorem get?_push (p : Pool κ α) (a : α) (i : Id κ) :
    (p.push a).get? i = if i = p.nextId then some a else p.get? i := by
  cases i
  simp only [get?, push, nextId, Array.getElem?_push, Id.mk.injEq]

theorem getD_push (p : Pool κ α) (a b : α) (i : Id κ) :
    (p.push a).getD i b = if i = p.nextId then a else p.getD i b := by
  simp only [getD, get?_push]
  split <;> rfl

theorem view_of_push {β : Type} {p : Pool κ α} (g : α → Option β) {a d : α} {i : Id κ} {b : β} (hd : g d = none)
    (h : g ((p.push d).getD i a) = some b) : g (p.getD i a) = some b := by
  rw [getD_push] at h
  split at h
  · rw [hd] at h
    cases h
  · exact h

theorem get?_modify (p : Pool κ α) (i j : Id κ) (f : α → α) :
    (p.modify i f).get? j = if i = j then (p.get? j).map f else p.get? j := by
  cases i
  cases j
  simp only [get?, modify, Array.getElem?_modify, Id.mk.injEq]

theorem getD_modify_self {p : Pool κ α} {i : Id κ} (h : p.Has i) (f : α → α) (a : α) :
    (p.modify i f).getD i a = f (p.getD i a) := by
  rw [getD, get?_modify, if_pos rfl, get?_getD h a]
  rfl

theorem getD_modify_of_ne {p : Pool κ α} {i j : Id κ} (h : j ≠ i) (f : α → α) (a : α) :
    (p.modify i f).getD j a = p.getD j a := by
  simp [getD, get?_modify, Ne.symm h]

theorem view_modify {β : Type} (g : α → β) {f : α → α} (h : ∀ a, g (f a) = g a)
    (p : Pool κ α) (i j : Id κ) (a : α) : g ((p.modify i f).getD j a) = g (p.getD j a) := by
  by_cases hj : j = i
  · subst hj
    by_cases hh : p.Has j
    · rw [getD_modify_self hh, h]
    · rw [getD_of_not_has hh, getD_of_not_has (by simpa [Has] using hh)]
  · rw [getD_modify_of_ne hj]

theorem has_push {p : Pool κ α} {a : α} {i : Id κ} : (p.push a).Has i ↔ p.Has i ∨ i = p.nextId := by
  cases i
  simp only [Has, size_push, nextId, Id.mk.injEq]
  simp only [size]
  omega

@[simp] theorem has_modify {p : Pool κ α} {i j : Id κ} {f : α → α} : (p.modify i f).Has j ↔ p.Has j := by
  simp [Has]

theorem not_has_nextId (p : Pool κ α) : ¬ p.Has p.nextId := by
  simp [Has, nextId, size]

theorem has_push_nextId (p : Pool κ α) (a : α) : (p.push a).Has p.nextId :=
  has_push.mpr (.inr rfl)

theorem Has.push {p : Pool κ α} {i : Id κ} (h : p.Has i) (a : α) : (p.push a).Has i :=
  has_push.mpr (.inl h)

theorem Has.ne_nextId {p : Pool κ α} {i : Id κ} (h : p.Has i) : i ≠ p.nextId :=
  fun hi => p.not_has_nextId (hi ▸ h)

theorem getD_push_of_has {p : Pool κ α} {i : Id κ} (h : p.Has i) (a b : α) : (p.push a).getD i b = p.getD i b := by
  rw [getD_push, if_neg h.ne_nextId]

theorem mem_ids {p : Pool κ α} {i : Id κ} : i ∈ p.ids ↔ p.Has i := by
  cases i
  simp [ids, Has, size]

theorem ids_push (p : Pool κ α) (a : α) : (p.push a).ids = p.ids ++ [p.nextId] := by
  simp [ids, push, nextId, List.range_succ]

theorem has_of_findId? {p : Pool κ α} {q : α → Bool} {i : Id κ} (h : p.findId? q = some i) :
    p.Has i ∧ ∀ a, q (p.getD i a) = true := by
  simp only [findId?, Option.map_eq_some_iff] at h
  obtain ⟨k, hk, rfl⟩ := h
  obtain ⟨hlt, hq, _⟩ := Array.findIdx?_eq_some_iff_getElem.mp hk
  refine ⟨hlt, fun a => ?_⟩
  simpa [getD, get?, hlt] using hq

theorem of_findId?_eq_none {p : Pool κ α} {q : α → Bool} (h : p.findId? q = none) {i : Id κ}
    (hi : p.Has i) (a : α) : q (p.getD i a) = false := by
  simp only [findId?, Option.map_eq_none_iff, Array.findIdx?_eq_none_iff] at h
  have hlt : i.index < p.items.size := hi
  simpa [getD, get?, hlt] using h p.items[i.index] (Array.getElem_mem hlt)

end Comptime.Pool
