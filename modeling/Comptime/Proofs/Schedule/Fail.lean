import Comptime.Proofs.Schedule.Basic

/-!
# Failing, parking and resolving

Failing a task fails whatever waits for it, however indirectly. `Scheduler.Unwinds` is the loop over the
stack without a bound on its steps, and `Scheduler.Fails s stack s'` says what it comes to: the tasks of
the stack and the waiters of every task that failed have failed, nothing else has, and the tasks that did
not fail are as before.

The loop is given a number of steps. `Scheduler.load` counts the waits that are still listed; a
task that fails moves its waits from the list to the stack, so stack and load together shrink with
every step, and the loop comes to its end (`failAll_unwinds`).
-/

namespace Comptime.Scheduler

variable {s : Scheduler} {id t : TaskId}

def load (s : Scheduler) : Nat := s.tasks.toList.foldr (fun t n => t.waiters.length + n) 0

theorem failFuel_eq (s : Scheduler) : s.failFuel = 2 + s.load := by
  have h (l : List Task) (n : Nat) : l.foldl (fun n t => n + t.waiters.length) n =
      n + l.foldr (fun t n => t.waiters.length + n) 0 := by
    induction l generalizing n with
    | nil => rfl
    | cons t l ih =>
      rw [List.foldl_cons, ih, List.foldr_cons, Nat.add_assoc]
  exact h _ 2

private theorem foldr_modify (l : List Task) (f : Task → Task) (m : Task → Nat) (n t) (ht : l[n]? = some t) :
    (l.modify n f).foldr (fun t n => m t + n) 0 + m t = l.foldr (fun t n => m t + n) 0 + m (f t) := by
  induction l generalizing n with
  | nil => cases ht
  | cons a l ih =>
    cases n with
    | zero =>
      obtain rfl : a = t := by simpa using ht
      simp only [List.modify_zero_cons, List.foldr_cons]
      omega
    | succ n =>
      have := ih n (by simpa using ht)
      simp only [List.modify_succ_cons, List.foldr_cons]
      omega

theorem load_drop (h : s.Has id) : (s.drop id).load + (s.waiters id).length = s.load := by
  have ht : s.tasks.toList[id.index]? = some (s.task id) := by
    have := Pool.get?_getD h default
    simpa [Pool.toList, Pool.get?, task] using this
  have := foldr_modify s.tasks.toList
    (fun t => { t with state := .failed, waiters := [] }) (·.waiters.length) id.index _ ht
  simpa [load, drop, Pool.modify, Pool.toList, waiters] using this

/-- The tasks of `stack` have failed with all that wait for them, and nothing else happened. -/
structure Fails (s : Scheduler) (stack : List TaskId) (s' : Scheduler) : Prop where
  has : ∀ j, s'.Has j ↔ s.Has j
  resumed : s'.resumed = s.resumed
  fresh : s'.fresh = s.fresh
  /-- What has not failed is as it was. -/
  kept : ∀ j, s'.state j ≠ .failed → s'.state j = s.state j ∧ s'.waiters j = s.waiters j
  /-- What had failed before is as it was; what fails now loses its waiters. -/
  listed : ∀ j, s'.waiters j = if s.state j ≠ .failed ∧ s'.state j = .failed then [] else s.waiters j
  stacked : ∀ j ∈ stack, s'.state j = .failed
  closed : ∀ j w, s.state j ≠ .failed → s'.state j = .failed → w ∈ s.waiters j →
    s'.state w = .failed
  /-- A task fails only as one of the stack or as a waiter of one that fails. -/
  caused : ∀ j, s.state j ≠ .failed → s'.state j = .failed →
    j ∈ stack ∨ ∃ b, j ∈ s.waiters b ∧ s'.state b = .failed

theorem Fails.queue {s s' : Scheduler} {stack : List TaskId} (h : s.Fails stack s') : s'.queue = s.queue := by
  rw [Scheduler.queue, Scheduler.queue, h.resumed, h.fresh]

theorem Fails.nil (s : Scheduler) : s.Fails [] s where
  has _ := .rfl
  resumed := rfl
  fresh := rfl
  kept _ _ := ⟨rfl, rfl⟩
  listed _ := (if_neg fun h => h.1 h.2).symm
  stacked _ h := by cases h
  closed _ _ h h' := absurd h' h
  caused _ h h' := absurd h' h

theorem Fails.failed {s s' : Scheduler} {stack : List TaskId} (h : s.Fails stack s') {j : TaskId}
    (hj : s.state j = .failed) : s'.state j = .failed :=
  Decidable.byContradiction fun hn => hn ((h.kept j hn).1.trans hj)

theorem Fails.skip {s' : Scheduler} {stack : List TaskId} (hid : s.state id = .failed) (h : s.Fails stack s') :
    s.Fails (id :: stack) s' :=
  { h with
    stacked := List.forall_mem_cons.mpr ⟨h.failed hid, h.stacked⟩
    caused j hj hj' := (h.caused j hj hj').imp_left (List.mem_cons_of_mem _) }

theorem Fails.drop {s' : Scheduler} {stack : List TaskId} (hid : s.state id ≠ .failed)
    (h : (s.drop id).Fails ((s.waiters id).reverse ++ stack) s') : s.Fails (id :: stack) s' where
  has j := (h.has j).trans (has_drop ..)
  resumed := h.resumed
  fresh := h.fresh
  kept j hj := by
    have hne : j ≠ id := by
      rintro rfl
      exact hj (h.failed (by simp [state_drop]))
    simpa [state_drop, waiters_drop, hne] using h.kept j hj
  listed j := by
    have hfailed := h.failed (j := id) (by simp [state_drop])
    rw [h.listed, state_drop, waiters_drop]
    by_cases hj : j = id
    · simp [hj, hid, hfailed]
    · simp [hj]
  stacked := by
    refine List.forall_mem_cons.mpr ⟨h.failed (by simp [state_drop]), fun j hj => ?_⟩
    exact h.stacked j (List.mem_append_right _ hj)
  closed j w hj hj' hw := by
    by_cases hne : j = id
    · subst hne
      exact h.stacked w (List.mem_append_left _ (by simpa using hw))
    · exact h.closed j w (by simpa [state_drop, hne] using hj) hj' (by simpa [waiters_drop, hne] using hw)
  caused j hj hj' := by
    by_cases hne : j = id
    · exact .inl (by simp [hne])
    · rcases h.caused j (by simpa [state_drop, hne] using hj) hj' with hs | ⟨b, hb, hb'⟩
      · rcases List.mem_append.mp hs with hw | hs
        · exact .inr ⟨id, by simpa using hw, h.failed (by simp [state_drop])⟩
        · exact .inl (List.mem_cons_of_mem _ hs)
      · rw [waiters_drop] at hb
        split at hb
        · cases hb
        · exact .inr ⟨b, hb, hb'⟩

/-- The loop over a stack of tasks ends in `s'` and has failed the tasks `failed`, in order. -/
inductive Unwinds : Scheduler → List TaskId → Scheduler → List TaskId → Prop
  | done {s : Scheduler} : Unwinds s [] s []
  | skip {s s' : Scheduler} {id : TaskId} {stack failed : List TaskId} (isFailed : s.state id = .failed)
    (rest : Unwinds s stack s' failed) : Unwinds s (id :: stack) s' failed
  | drop {s s' : Scheduler} {id : TaskId} {stack failed : List TaskId} (notFailed : s.state id ≠ .failed)
    (rest : Unwinds (s.drop id) ((s.waiters id).reverse ++ stack) s' failed) :
    Unwinds s (id :: stack) s' (id :: failed)

theorem Unwinds.fails {s s' : Scheduler} {stack failed} (h : Unwinds s stack s' failed) : s.Fails stack s' := by
  induction h with
  | done => exact .nil _
  | skip isFailed _ ih => exact ih.skip isFailed
  | drop notFailed _ ih => exact ih.drop notFailed

/-- With enough fuel the loop comes to its end. -/
private theorem failAll_unwinds (fuel) (s : Scheduler) (stack : List TaskId) (hfuel : stack.length + s.load ≤ fuel) :
    Unwinds s stack (failAll fuel s stack).1 (failAll fuel s stack).2 := by
  induction fuel generalizing s stack with
  | zero =>
    obtain rfl : stack = [] := List.eq_nil_of_length_eq_zero (by omega)
    exact .done
  | succ fuel ih =>
    cases stack with
    | nil => exact .done
    | cons id stack =>
      rw [failAll]
      split
      · next hid => exact .skip hid (ih s stack (by simp only [List.length_cons] at hfuel; omega))
      · next hid =>
        refine .drop hid (ih _ _ ?_)
        have := load_drop (has_of_state_ne hid)
        simp only [List.length_cons, List.length_append, List.length_reverse] at hfuel ⊢
        change (s.waiters id).length + _ + _ ≤ _
        omega

theorem fail_unwinds (s : Scheduler) (id) : Unwinds s [id] (s.fail id).1 (failAll s.failFuel s [id]).2 :=
  failAll_unwinds _ _ _ (by rw [failFuel_eq]; simp only [List.length_singleton]; omega)

theorem fail_fails (s : Scheduler) (id) : s.Fails [id] (s.fail id).1 := (s.fail_unwinds id).fails

private theorem mem_failAll (fuel) (s stack j) :
    (s.state j = .failed → (failAll fuel s stack).1.state j = .failed) ∧ (j ∈ (failAll fuel s stack).2 ↔
        s.state j ≠ .failed ∧ (failAll fuel s stack).1.state j = .failed) := by
  have hnone (s : Scheduler) : (s.state j = .failed → s.state j = .failed) ∧
      (j ∈ ([] : List TaskId) ↔ s.state j ≠ .failed ∧ s.state j = .failed) := by simp
  induction fuel generalizing s stack with
  | zero => exact hnone s
  | succ fuel ih =>
    cases stack with
    | nil => exact hnone s
    | cons id stack =>
      rw [failAll]
      split
      · exact ih s stack
      · next hid =>
        obtain ⟨hkeeps, hmem⟩ := ih (s.drop id) ((s.task id).waiters.reverse ++ stack)
        rw [state_drop] at hkeeps hmem
        by_cases hj : j = id
        · subst hj
          have hfailed := hkeeps (if_pos rfl)
          exact ⟨fun _ => hfailed, fun _ => ⟨hid, hfailed⟩, fun _ => List.mem_cons_self⟩
        · rw [if_neg hj] at hkeeps hmem
          refine ⟨hkeeps, fun h => hmem.mp ?_, fun h => List.mem_cons_of_mem _ (hmem.mpr h)⟩
          exact (List.mem_cons.mp h).resolve_left hj

theorem mem_fail (s : Scheduler) (id j) : j ∈ id :: (s.fail id).2 ↔
    j = id ∨ s.state j ≠ .failed ∧ (s.fail id).1.state j = .failed := by
  have hmem := (mem_failAll s.failFuel s [id] j).2
  have hdependents : j ∈ (s.fail id).2 ↔ j ∈ (failAll s.failFuel s [id]).2 ∧ j ≠ id := by
    rw [fail, List.mem_filter, bne_iff_ne]
  rw [List.mem_cons, hdependents, hmem]
  by_cases hj : j = id
  · simp [hj]
  · simp only [hj, false_or, ne_eq, not_false_eq_true, and_true]
    rfl

/-! ## Parking -/

theorem park_of_open {b} (ht : s.Has t) (hb : s.Open b) :
    (∀ j, (s.park t b).Has j ↔ s.Has j) ∧ (s.park t b).queue = s.queue ∧
    (∀ j, (s.park t b).state j = if j = t then .waiting b else s.state j) ∧
    (∀ j, (s.park t b).waiters j = if j = b then s.waiters b ++ [t] else s.waiters j) := by
  have hp : s.park t b = { s.setState t (.waiting b) with
      tasks := (s.setState t (.waiting b)).tasks.modify b fun x =>
        { x with waiters := x.waiters ++ [t] } } := by
    unfold park
    rcases open_iff.mp hb with h | ⟨c, h⟩ <;> rw [h]
  rw [hp]
  refine ⟨fun j => Pool.has_modify.trans (has_setState ..), rfl, fun j => ?_, fun j => ?_⟩
  · rw [← state_setState _ _ ht]
    refine Pool.view_modify Task.state ?_ (s.setState t (.waiting b)).tasks b j default
    exact fun _ => rfl
  · by_cases hj : j = b
    · subst hj
      rw [if_pos rfl, waiters, task, Pool.getD_modify_self ((has_setState ..).mpr hb.has),
        ← waiters_setState t j (.waiting j)]
      rfl
    · rw [if_neg hj, waiters, task, Pool.getD_modify_of_ne hj, ← waiters_setState t j (.waiting b)]
      rfl

/-! ## Resolving -/

theorem foldl_wake (b) (ws : List TaskId) (s : Scheduler) :
    (∀ j, (ws.foldl (wake b) s).Has j ↔ s.Has j) ∧
    (∀ j, (ws.foldl (wake b) s).waiters j = s.waiters j) ∧
    (∀ j, (ws.foldl (wake b) s).state j = if j ∈ ws ∧ s.state j = .waiting b then .queued else s.state j) ∧
    (∀ j, (ws.foldl (wake b) s).queue.count j =
      s.queue.count j + if j ∈ ws ∧ s.state j = .waiting b then 1 else 0) := by
  induction ws generalizing s with
  | nil => simp
  | cons w ws ih =>
    rw [List.foldl_cons]
    obtain ⟨hhas, hwait, hstate, hqueue⟩ := ih (wake b s w)
    by_cases hw : s.state w = .waiting b
    · have hw' : s.Has w := has_of_state_ne (by simp [hw])
      have hwake : wake b s w = { s.setState w .queued with resumed := s.resumed ++ [w] } :=
        if_pos hw
      have hst (j) : (wake b s w).state j = if j = w then .queued else s.state j := by
        rw [hwake]
        exact state_setState j _ hw'
      refine ⟨fun j => ?_, fun j => ?_, fun j => ?_, fun j => ?_⟩
      · rw [hhas, hwake]
        exact has_setState ..
      · rw [hwait, hwake]
        exact waiters_setState ..
      · rw [hstate, hst]
        by_cases hj : j = w
        · simp [hj, hw]
        · simp [hj]
      · rw [hqueue, hst]
        have hq : (wake b s w).queue.count j = s.queue.count j + if j = w then 1 else 0 := by
          rw [hwake]
          simp only [queue, setState, List.count_append, List.count_singleton, beq_iff_eq]
          simp only [eq_comm (a := w)]
          omega
        rw [hq]
        by_cases hj : j = w
        · simp [hj, hw]
        · simp [hj]
    · have hwake : wake b s w = s := if_neg hw
      rw [hwake] at hhas hwait hstate hqueue ⊢
      refine ⟨hhas, hwait, fun j => ?_, fun j => ?_⟩
      · rw [hstate]
        by_cases hj : j = w
        · simp [hj, hw]
        · simp [hj]
      · rw [hqueue]
        by_cases hj : j = w
        · simp [hj, hw]
        · simp [hj]

theorem resolve_spec (ht : s.Has t) :
    (∀ j, (s.resolve t).Has j ↔ s.Has j) ∧
    (∀ j, (s.resolve t).waiters j = if j = t then [] else s.waiters j) ∧
    (∀ j, (s.resolve t).state j = if j = t then .resolved else
      if j ∈ s.waiters t ∧ s.state j = .waiting t then .queued else s.state j) ∧
    (∀ j, (s.resolve t).queue.count j = s.queue.count j +
      if j ≠ t ∧ j ∈ s.waiters t ∧ s.state j = .waiting t then 1 else 0) := by
  let s1 : Scheduler := { s with
    tasks := s.tasks.modify t fun x => { x with state := .resolved, waiters := [] } }
  have hstate1 (j) : s1.state j = if j = t then .resolved else s.state j := by
    by_cases hj : j = t
    · subst hj
      rw [if_pos rfl, state, task, Pool.getD_modify_self ht]
    · rw [if_neg hj, state, task, Pool.getD_modify_of_ne hj]
      rfl
  have hwait1 (j) : s1.waiters j = if j = t then [] else s.waiters j := by
    by_cases hj : j = t
    · subst hj
      rw [if_pos rfl, waiters, task, Pool.getD_modify_self ht]
    · rw [if_neg hj, waiters, task, Pool.getD_modify_of_ne hj]
      rfl
  obtain ⟨hhas, hwait, hstate, hqueue⟩ := foldl_wake t (s.waiters t) s1
  change (∀ j, ((s.waiters t).foldl (wake t) s1).Has j ↔ _) ∧ _
  refine ⟨fun j => (hhas j).trans Pool.has_modify, fun j => (hwait j).trans (hwait1 j),
    fun j => (hstate j).trans ?_, fun j => (hqueue j).trans ?_⟩
  · rw [hstate1]
    by_cases hj : j = t <;> simp [hj]
  · rw [hstate1]
    by_cases hj : j = t
    · simp only [hj, if_true, reduceCtorEq, and_false, if_false, ne_eq, not_true, false_and]
      rfl
    · simp only [hj, if_false, ne_eq, not_false_eq_true, true_and]
      rfl

/-! ## Tasks stay -/

@[simp] theorem has_resolve {j} : (s.resolve t).Has j ↔ s.Has j :=
  ((foldl_wake t _ _).1 j).trans Pool.has_modify

@[simp] theorem has_park {b j} : (s.park t b).Has j ↔ s.Has j := by
  unfold park
  split
  · rfl
  · exact (s.fail_fails t).has j
  · exact Pool.has_modify.trans (has_setState ..)

end Comptime.Scheduler
