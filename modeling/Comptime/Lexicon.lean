/-!
# Lexicon

A lexicon numbers names densely, in the order in which they are first seen: equal names get the
same number, and every number reads back as its name.
-/

namespace Comptime

/-- Names in order of first sight. -/
structure Lexicon where
  names : Array String

namespace Lexicon

def empty : Lexicon := ⟨#[]⟩

instance : Inhabited Lexicon := ⟨empty⟩

/-- The number of a name that was seen before. -/
def get? (l : Lexicon) (name : String) : Option Nat := l.names.findIdx? (· == name)

/-- The number of a name, which is new if it was not seen before. -/
def intern (l : Lexicon) (name : String) : Lexicon × Nat :=
  match l.get? name with
  | some i => (l, i)
  | none => (⟨l.names.push name⟩, l.names.size)

/-- The name with the given number. -/
def resolve (l : Lexicon) (i : Nat) : String := l.names.getD i "<unknown>"

/-- Every name that is interned reads back. -/
theorem resolve_intern (l : Lexicon) (name : String) :
    (l.intern name).1.resolve (l.intern name).2 = name := by
  unfold intern
  cases h : l.get? name with
  | none => simp [resolve]
  | some i =>
    obtain ⟨hi, hname, _⟩ := Array.findIdx?_eq_some_iff_getElem.mp h
    simpa [resolve, Array.getD, hi] using hname

end Lexicon

end Comptime
