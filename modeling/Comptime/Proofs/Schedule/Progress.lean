import Mathlib.Data.Fintype.Pigeonhole
import Comptime.Proofs.Schedule.Discipline

/-!
# Ends are final, and waits without an end are circles

Once a task is resolved or has failed it stays so. And when nothing is ready, either every task is
done or some tasks wait in a circle: each open task waits for an open one, so the waits can be
followed for ever, and among finitely many tasks they come round.
-/

namespace Comptime.Scheduler

variable {p p' : Phase} {s s' : Scheduler}

/-! ## Ends are final -/

theorem Step.has (hs : Step (p, s) (p', s')) {a} (h : s.Has a) : s'.Has a := by
  cases hs with
  | submit k =>
    rcases submit_cases s k with ⟨-, he⟩ | ⟨t, -, -, has, -⟩
    · rwa [he]
    · exact (has a).mpr (.inl h)
  | take => exact (has_next s a).mpr h
  | stop => exact (has_next s a).mpr h
  | resolve t => exact has_resolve.mpr h
  | fail t => exact ((fail_fails s t).has a).mpr h
  | park t => exact has_park.mpr h
  | failMember m => exact ((fail_fails s m).has a).mpr h
  | again | cycle | broken => exact h

theorem has_of_steps {x y : Phase × Scheduler} (h : Steps x y) {a} (ha : x.2.Has a) : y.2.Has a := by
  induction h with
  | refl => exact ha
  | tail _ hs ih => exact hs.has ih

theorem Accounted.fail_final (h : Accounted p s) {t j} (ht : s.state t ≠ .resolved) (hj : ¬ s.Open j) :
    (s.fail t).1.state j = s.state j := by
  have hf := fail_fails s t
  by_cases hfail : (s.fail t).1.state j = .failed
  · rcases not_open_iff.mp hj with hr | hr
    · rcases hf.caused j (by simp [hr]) hfail with hm | ⟨b, hb, -⟩
      · obtain rfl : j = t := by simpa using hm
        exact absurd hr ht
      · have hw := h.listed b j hb
        rw [Waits, hr] at hw
        cases hw
    · rw [hfail, hr]
  · exact (hf.kept j hfail).1

/-- The state of a task changes when its run ends, and when it waits and the other task is resolved or the
task itself fails. -/
theorem Accounted.step_state (h : Accounted p s) (hs : Step (p, s) (p', s')) {j} (hhas : s.Has j) :
    s'.state j = s.state j ∨ p = .running j ∨
      ∃ b, s.Waits j b ∧ (s'.state b = .resolved ∨ s'.state j = .failed) := by
  have hfail {t : TaskId} (ht : p = .running t ∨ s.state t = .failed ∨ s.OnCycle t) :
      (s.fail t).1.state j = s.state j ∨ p = .running j ∨
        ∃ b, s.Waits j b ∧ ((s.fail t).1.state b = .resolved ∨ (s.fail t).1.state j = .failed) := by
    by_cases hold : s.state j = .failed
    · exact .inl (((s.fail_fails t).failed hold).trans hold.symm)
    by_cases hfailed : (s.fail t).1.state j = .failed
    · rcases (s.fail_fails t).caused j hold hfailed with hin | ⟨b, hin, -⟩
      · obtain rfl := List.mem_singleton.mp hin
        rcases ht with hr | hf | hc
        · exact .inr (.inl hr)
        · exact absurd hf hold
        · obtain ⟨b, hb, -⟩ := onCycle_iff.mp hc
          exact .inr (.inr ⟨b, hb, .inr hfailed⟩)
      · exact .inr (.inr ⟨b, h.listed b j hin, .inr hfailed⟩)
    · exact .inl ((s.fail_fails t).kept j hfailed).1
  cases hs with
  | submit k =>
    left
    rcases submit_cases s k with ⟨-, hs⟩ | ⟨t, hnew, -, -, hstate, -⟩
    · rw [hs]
    · rw [hstate, if_neg fun (e : j = t) => hnew (e ▸ hhas)]
  | take => exact .inl (state_next s j)
  | stop => exact .inl (state_next s j)
  | resolve t =>
    have ht : s.state t = .queued := h.running t rfl
    obtain ⟨-, -, hstate, -⟩ := resolve_spec (has_of_state_ne (by simp [ht]) : s.Has t)
    by_cases hj : j = t
    · exact .inr (.inl (hj ▸ rfl))
    · by_cases hw : j ∈ s.waiters t ∧ s.state j = .waiting t
      · exact .inr (.inr ⟨t, hw.2, .inl (by rw [hstate, if_pos rfl])⟩)
      · exact .inl (by rw [hstate, if_neg hj, if_neg hw])
  | fail t => exact hfail (.inl rfl)
  | @park _ t b hb =>
    have ht : s.state t = .queued := h.running t rfl
    by_cases hopen : s.Open b
    · obtain ⟨-, -, hstate, -⟩ := Scheduler.park_of_open (has_of_state_ne (by simp [ht]) : s.Has t) hopen
      by_cases hj : j = t
      · exact .inr (.inl (hj ▸ rfl))
      · exact .inl (by rw [hstate, if_neg hj])
    · rcases not_open_iff.mp hopen with hb | hb <;> rw [Scheduler.park, hb]
      · exact .inl rfl
      · exact hfail (.inl rfl)
  | failMember m ms => exact hfail (.inr (h.breaking _ rfl m List.mem_cons_self).2)
  | again | cycle | broken => exact .inl rfl

theorem Accounted.step_final (h : Accounted p s) (hs : Step (p, s) (p', s')) {j} (hhas : s.Has j) (hj : ¬ s.Open j) :
    s'.Has j ∧ s'.state j = s.state j := by
  refine ⟨hs.has hhas, (h.step_state hs hhas).resolve_right ?_⟩
  rintro (hr | ⟨b, hb, -⟩)
  · exact hj (open_iff.mpr (.inl (h.running j hr)))
  · exact hj (open_iff.mpr (.inr ⟨b, hb⟩))

theorem Accounted.steps_final {x y : Phase × Scheduler} (hx : Accounted x.1 x.2) (h : Steps x y) {j}
    (hhas : x.2.Has j) (hj : ¬ x.2.Open j) : y.2.Has j ∧ y.2.state j = x.2.state j := by
  induction h with
  | refl => exact ⟨hhas, rfl⟩
  | tail hxy hs ih =>
    obtain ⟨hh, he⟩ := ih
    obtain ⟨hh', he'⟩ := (hx.steps hxy).step_final hs hh (by rw [Open, he]; exact hj)
    exact ⟨hh', he'.trans he⟩

/-! ## Waits that come round -/

private theorem findCycle_isSome_of_chain {x : Nat → TaskId}
    (hx : ∀ n, s.state (x n) = .waiting (x (n + 1))) : s.findCycle.isSome := by
  have hhas (n : Nat) : s.Has (x n) := has_of_state_ne (by simp [hx])
  -- There are fewer tasks than places in the first stretch of the chain.
  let f (n : Fin (s.tasks.size + 1)) : Fin s.tasks.size := ⟨(x n).index, hhas n⟩
  obtain ⟨a, b, hab, hf⟩ := Fintype.exists_ne_map_eq_of_card_lt f (by simp)
  wlog hlt : a < b generalizing a b
  · exact this b a hab.symm hf.symm (by omega)
  have hround : x a = x b := by
    have := congrArg Fin.val hf
    cases ha : x a
    cases hb : x b
    simp_all [f]
  have hpath (k : Nat) : s.Depends (x (a + 1)) (x (a + 1 + k)) := by
    induction k with
    | zero => exact .refl
    | succ k ih => exact .tail ih (hx _)
  have hback := hpath (b - a - 1)
  rw [show a.val + 1 + (b - a - 1) = b by omega, ← hround] at hback
  exact isSome_findCycle_iff.mpr ⟨x a, onCycle_iff.mpr ⟨_, hx a, hback⟩⟩

theorem Accounted.idle_or_cycle (h : Accounted .ready s) (hn : s.next.2 = none) :
    s.next.1.isIdle = true ∨ s.next.1.findCycle.isSome := by
  have hstop := h.stop hn
  -- A task that is not done waits for one that is not done either.
  have hwaits (t : {t // s.next.1.Open t}) :
      ∃ b : {b // s.next.1.Open b}, s.next.1.state t = .waiting b := by
    rcases open_iff.mp t.2 with hq | ⟨b, hb⟩
    · rw [state_next] at hq
      exact absurd hq (h.not_queued hn t)
    · exact ⟨⟨b, (hstop.waiting t b hb).1⟩, hb⟩
  choose f hf using hwaits
  by_cases hopen : ∃ t, s.next.1.Open t
  · obtain ⟨t, ht⟩ := hopen
    right
    refine findCycle_isSome_of_chain (x := fun n => (f^[n] ⟨t, ht⟩).1) fun n => ?_
    rw [Function.iterate_succ_apply']
    exact hf _
  · left
    simp only [isIdle, Array.all_eq_true]
    intro i hi
    have hi' : ¬ s.next.1.Open ⟨i⟩ := fun ho => hopen ⟨_, ho⟩
    simpa [Open, state, task, Pool.getD, Pool.get?, hi] using hi'

end Comptime.Scheduler
