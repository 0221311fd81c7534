/-!
# States of computations

A computation that fails leaves a state behind like one that succeeds. What holds between the states
before and after the parts of a computation holds for the whole.
-/

namespace Comptime

/-- The state in which a computation ends, whether it succeeds or fails. -/
def stateAfter {ε σ α : Type} (x : EStateM ε σ α) (s : σ) : σ :=
  match x s with
  | .ok _ s' => s'
  | .error _ s' => s'

/-- What a computation gives, without the state in which it ends. -/
def resultOf {ε σ α : Type} (x : EStateM ε σ α) (s : σ) : Except ε α :=
  match x s with
  | .ok a _ => .ok a
  | .error e _ => .error e

/-- The computation succeeds, and its value and the state after it pass a test. -/
def succeeds {ε σ α : Type} (x : EStateM ε σ α) (s : σ) (test : α → σ → Bool) : Bool :=
  match x s with
  | .ok a s' => test a s'
  | .error _ _ => false

section

variable {ε σ α β : Type} {R : σ → σ → Prop}

theorem of_succeeds {x : EStateM ε σ α} {s : σ} {test : α → σ → Bool}
    (h : succeeds x s test = true) : ∃ a s', x s = .ok a s' ∧ test a s' = true := by
  unfold succeeds at h
  cases hx : x s with
  | ok a s' =>
    rw [hx] at h
    exact ⟨a, s', rfl, h⟩
  | error e s' =>
    rw [hx] at h
    cases h

theorem stateAfter_ok {x : EStateM ε σ α} {s s' : σ} {a : α} (h : x s = .ok a s') : stateAfter x s = s' := by
  rw [stateAfter, h]

theorem stateAfter_error {x : EStateM ε σ α} {s s' : σ} {e : ε} (h : x s = .error e s') : stateAfter x s = s' := by
  rw [stateAfter, h]

theorem stateAfter_bind_ok {x : EStateM ε σ α} {k : α → EStateM ε σ β} {s s' : σ} {a : α}
    (h : x s = .ok a s') : stateAfter (x >>= k) s = stateAfter (k a) s' := by
  simp only [stateAfter, bind, EStateM.bind, h]

theorem stateAfter_bind_error {x : EStateM ε σ α} {k : α → EStateM ε σ β} {s s' : σ} {e : ε}
    (h : x s = .error e s') : stateAfter (x >>= k) s = s' := by
  simp only [stateAfter, bind, EStateM.bind, h]

theorem stateAfter_get {k : σ → EStateM ε σ β} {s : σ} : stateAfter (get >>= k) s = stateAfter (k s) s := rfl

theorem stateAfter_bind {x : EStateM ε σ α} {k : α → EStateM ε σ β} {s : σ}
    (trans : ∀ {a b c}, R a b → R b c → R a c) (h : R s (stateAfter x s))
    (hk : ∀ a s', R s' (stateAfter (k a) s')) : R s (stateAfter (x >>= k) s) := by
  simp only [stateAfter, bind, EStateM.bind] at h hk ⊢
  cases hx : x s with
  | ok a s' =>
    simp only [hx] at h ⊢
    exact trans h (hk a s')
  | error e s' =>
    simp only [hx] at h ⊢
    exact h

theorem stateAfter_forM {f : α → EStateM ε σ PUnit} (refl : ∀ s, R s s)
    (trans : ∀ {a b c}, R a b → R b c → R a c) (h : ∀ a s, R s (stateAfter (f a) s)) (l : List α)
    (s : σ) : R s (stateAfter (l.forM f) s) := by
  induction l generalizing s with
  | nil => exact refl s
  | cons a l ih => exact stateAfter_bind trans (h a s) fun _ s' => ih s'

end

/-! ## What holds in the end -/

/-- `Q` holds of what a computation gives and of the state after it, or `E` of the failure and of the state that
it leaves. -/
def Ensures {ε σ α : Type} (r : EStateM.Result ε σ α) (Q : α → σ → Prop) (E : ε → σ → Prop) : Prop :=
  match r with
  | .ok a s => Q a s
  | .error e s => E e s

namespace Ensures

variable {ε σ α β : Type} {x : EStateM ε σ α} {s : σ} {P : α → σ → Prop} {E : ε → σ → Prop}

theorem imp {r} {P' : α → σ → Prop} {E' : ε → σ → Prop} (h : Ensures r P E)
    (hP : ∀ a s, P a s → P' a s) (hE : ∀ e s, E e s → E' e s) : Ensures r P' E' := by
  cases r with
  | ok a s => exact hP a s h
  | error e s => exact hE e s h

protected theorem bind {k : α → EStateM ε σ β} {Q : β → σ → Prop} (h : Ensures (x s) P E)
    (h' : ∀ a s', P a s' → Ensures (k a s') Q E) : Ensures (EStateM.bind x k s) Q E := by
  unfold EStateM.bind
  generalize x s = r at h
  cases r with
  | ok a s' => exact h' a s' h
  | error e s' => exact h

protected theorem tryCatch {k : ε → EStateM ε σ α} {F : ε → σ → Prop} (h : Ensures (x s) P F)
    (h' : ∀ e s', F e s' → Ensures (k e s') P E) : Ensures (EStateM.tryCatch x k s) P E := by
  unfold EStateM.tryCatch
  generalize x s = r at h
  cases r with
  | ok a s' => exact h
  | error e s' => exact h' e s' h

end Ensures

end Comptime
