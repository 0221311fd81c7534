import Mathlib.Data.List.Forall2

/-!
# Computations that succeed

How a computation that may fail came to its result: each of its steps succeeded.
-/

namespace Comptime

variable {ε α β : Type}

theorem map_eq_ok {f : α → β} {x : Except ε α} {b : β} : x.map f = .ok b ↔ ∃ a, x = .ok a ∧ f a = b := by
  cases x <;> simp [Except.map]

theorem bind_eq_ok {x : Except ε α} {f : α → Except ε β} {b : β} :
    (x >>= f) = .ok b ↔ ∃ a, x = .ok a ∧ f a = .ok b := by
  cases x <;> simp [bind, Except.bind]

theorem forall₂_of_mapM_eq_ok {f : α → Except ε β} {l : List α} {r} (h : l.mapM f = .ok r) :
    List.Forall₂ (fun a b => f a = .ok b) l r := by
  induction l generalizing r with
  | nil =>
    cases h
    exact .nil
  | cons a l ih =>
    rw [List.mapM_cons] at h
    obtain ⟨b, hb, h⟩ := bind_eq_ok.mp h
    obtain ⟨bs, hbs, h⟩ := bind_eq_ok.mp h
    cases h
    exact .cons hb (ih hbs)

theorem of_foldlM_eq_ok {f : β → α → Except ε β} {P : β → Prop} {l : List α} {b r : β}
    (h : l.foldlM f b = .ok r) (hb : P b)
    (step : ∀ a ∈ l, ∀ b b', P b → f b a = .ok b' → P b') : P r := by
  induction l generalizing b with
  | nil =>
    cases h
    exact hb
  | cons a l ih =>
    rw [List.foldlM_cons] at h
    obtain ⟨b', hb', h⟩ := bind_eq_ok.mp h
    exact ih h (step a List.mem_cons_self b b' hb hb') fun a' ha' =>
      step a' (List.mem_cons_of_mem a ha')

end Comptime
