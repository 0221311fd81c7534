import Comptime.Proofs.Analysis.Logic

/-!
# Runs step by step

What a sequence of steps gives, in terms of what its parts give. Read from left to right these equations
carry a run out, read from right to left they take one that has ended apart.
-/

namespace Comptime

namespace Analysis

variable {α β : Type} {x : Analysis α} {k : α → Analysis β} {c : Context} {t t' : Tables}

theorem bind_eq_ok {b : β} : (x >>= k) c t = .ok b t' ↔ ∃ a t1, x c t = .ok a t1 ∧ k a c t1 = .ok b t' := by
  simp only [bind, ReaderT.bind, EStateM.bind]
  cases x c t with
  | ok a t1 => simp
  | error h t1 => simp

theorem bind_ok {a : α} (h : x c t = .ok a t') : (x >>= k) c t = k a c t' := by
  simp only [bind, ReaderT.bind, EStateM.bind, h]

theorem bind_error {e} (h : x c t = .error e t') : (x >>= k) c t = .error e t' := by
  simp only [bind, ReaderT.bind, EStateM.bind, h]

theorem modifyGet_eq (f : Tables → α × Tables) (c t) : (modifyGet f : Analysis α) c t = .ok (f t).1 (f t).2 := rfl

theorem reads_bind {v : Context → Tables → α} (hx : Reads x v) : (x >>= k) c t = k (v c t) c t :=
  bind_ok (hx c t)

end Analysis

namespace Lower

variable {α β : Type} {x : Lower α} {k : α → Lower β} {c : Context} {t t' : Tables} {d d' : Draft}
  {a : α}

theorem bind_ok (h : x d c t = .ok (a, d') t') : (x >>= k) d c t = k a d' c t' := by
  simp only [bind, StateT.bind, ReaderT.bind, EStateM.bind, h]

theorem bind_error {h} (hx : x d c t = .error h t') : (x >>= k) d c t = .error h t' := by
  simp only [bind, StateT.bind, ReaderT.bind, EStateM.bind, hx]

theorem bind_eq_ok {r : β × Draft} : (x >>= k) d c t = .ok r t' ↔
    ∃ a d1 t1, x d c t = .ok (a, d1) t1 ∧ k a d1 c t1 = .ok r t' := by
  simp only [bind, StateT.bind, ReaderT.bind, EStateM.bind]
  cases x d c t with
  | ok p t1 =>
    obtain ⟨a, d1⟩ := p
    simp
  | error h t1 => simp

theorem lift_eq (x : Analysis α) (d c t) : (liftM x : Lower α) d c t = match x c t with
    | .ok a t' => .ok (a, d) t'
    | .error h t' => .error h t' := by
  show ((fun a => (a, d)) <$> x) c t = _
  simp only [Functor.map, EStateM.map]
  cases x c t <;> rfl

theorem reads_bind {x : Analysis α} {v : Context → Tables → α} (hx : Analysis.Reads x v) :
    (liftM x >>= k) d c t = k (v c t) d c t := by
  refine bind_ok ?_
  rw [lift_eq, hx c t]

theorem aside_eq (x : Lower α) (d c t) : aside d x c t = match x d c t with
    | .ok (a, _) t' => .ok a t'
    | .error h t' => .error h t' := by
  show (Prod.fst <$> x d) c t = _
  simp only [Functor.map, EStateM.map]
  cases x d c t <;> rfl

/-! ### Writing -/

theorem get_eq (d c t) : (get : Lower Draft) d c t = .ok (d, d) t := rfl

theorem emit_eq (kind ty span d c t) :
    emit kind ty span d c t = .ok ((d.emit kind ty span).2, (d.emit kind ty span).1) t := rfl

theorem addBlock_eq (name) (d c t) : addBlock name d c t = .ok ((d.addBlock name).2, (d.addBlock name).1) t := rfl

theorem moveTo_eq (b d c t) : moveTo b d c t = .ok ((), { d with current := b }) t := rfl

theorem jump_eq (target span d c t) : jump target span d c t = .ok ((), d.jump target span) t := rfl

theorem branch_eq (cond yes no span d c t) :
    branch cond yes no span d c t = .ok ((), d.emitExit (.branch cond yes no) [yes, no] span) t := rfl

end Lower

end Comptime
