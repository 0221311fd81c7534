/-!
# Looking things up in lists
-/

namespace Comptime

variable {α β : Type}

theorem mem_of_lookup [BEq α] [LawfulBEq α] {l : List (α × β)} {a : α} {b : β}
    (h : l.lookup a = some b) : (a, b) ∈ l := by
  obtain ⟨before, after, rfl, -⟩ := List.lookup_eq_some_iff.mp h
  exact List.mem_append_right before List.mem_cons_self

theorem getElem?_of_findIdx? {p : α → Bool} {l : List α} {i} {a : α} (hi : l.findIdx? p = some i)
    (ha : l.find? p = some a) : l[i]? = some a := by
  obtain ⟨hlt, hp, hbefore⟩ := List.findIdx?_eq_some_iff_getElem.mp hi
  obtain ⟨hpa, j, hj, rfl, hfirst⟩ := List.find?_eq_some_iff_getElem.mp ha
  rcases Nat.lt_trichotomy i j with h | rfl | h
  · have := hfirst i h
    simp [hp] at this
  · exact List.getElem?_eq_getElem hj
  · exact absurd hpa (hbefore j h)

end Comptime
