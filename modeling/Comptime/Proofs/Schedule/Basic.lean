import Comptime.Proofs.Pool
import Comptime.Schedule

/-!
# What the scheduler's operations do

The state of a scheduler is read through four views: which tasks there are (`Scheduler.Has`), how
far each has come (`Scheduler.state`), who is parked on it (`Scheduler.waiters`), and who stands in
the queues (`Scheduler.queue`). The lemmas say what each operation does to each view, so that no
later proof opens the pool of tasks.

An id that names no task reads as failed and has no waiters.
-/

namespace Comptime.Scheduler

variable {s : Scheduler} {id : TaskId}

def Has (s : Scheduler) (id : TaskId) : Prop := s.tasks.Has id

instance (s : Scheduler) (id : TaskId) : Decidable (s.Has id) :=
  inferInstanceAs (Decidable (s.tasks.Has id))

def waiters (s : Scheduler) (id : TaskId) : List TaskId := (s.task id).waiters

def queue (s : Scheduler) : List TaskId := s.resumed ++ s.fresh

def Open (s : Scheduler) (id : TaskId) : Prop := (s.state id).isTerminal = false

instance (s : Scheduler) (id : TaskId) : Decidable (s.Open id) :=
  inferInstanceAs (Decidable ((s.state id).isTerminal = false))

theorem state_of_not_has (h : ¬ s.Has id) : s.state id = .failed := by
  rw [state, task, Pool.getD_of_not_has h]
  rfl

theorem waiters_of_not_has (h : ¬ s.Has id) : s.waiters id = [] := by
  rw [waiters, task, Pool.getD_of_not_has h]
  rfl

theorem has_of_state_ne (h : s.state id ≠ .failed) : s.Has id :=
  Decidable.byContradiction fun hn => h (state_of_not_has hn)

theorem size_eq {s' : Scheduler} (has : ∀ id, s'.Has id ↔ s.Has id) : s'.tasks.size = s.tasks.size := by
  have hhas (i : Nat) : i < s'.tasks.size ↔ i < s.tasks.size := has ⟨i⟩
  have hlow := hhas s.tasks.size
  have hhigh := hhas s'.tasks.size
  omega

theorem open_iff : s.Open id ↔ s.state id = .queued ∨ ∃ b, s.state id = .waiting b := by
  unfold Open
  cases s.state id <;> simp [TaskState.isTerminal]

theorem not_open_iff : ¬ s.Open id ↔ s.state id = .resolved ∨ s.state id = .failed := by
  unfold Open
  cases s.state id <;> simp [TaskState.isTerminal]

theorem Open.has (h : s.Open id) : s.Has id := by
  refine has_of_state_ne fun hf => ?_
  rw [Open, hf] at h
  cases h

theorem not_open_of_isIdle (h : s.isIdle = true) (id) : ¬ s.Open id := by
  intro ho
  have hlt : id.index < s.tasks.items.size := ho.has
  have ht := Array.all_eq_true.mp h id.index hlt
  have hs : s.state id = s.tasks.items[id.index].state := by
    simp [state, task, Pool.getD, Pool.get?, hlt]
  rw [Open, hs, ht] at ho
  cases ho

/-! ## Putting a task into a state -/

section

variable {s : Scheduler} (id j : TaskId) (st : TaskState)

@[simp] theorem has_setState : (s.setState id st).Has j ↔ s.Has j := Pool.has_modify

@[simp] theorem waiters_setState : (s.setState id st).waiters j = s.waiters j := by
  refine Pool.view_modify Task.waiters ?_ s.tasks id j default
  exact fun _ => rfl

variable {id} in
theorem state_setState (h : s.Has id) : (s.setState id st).state j = if j = id then st else s.state j := by
  by_cases hj : j = id
  · subst hj
    rw [if_pos rfl, state, task, setState, Pool.getD_modify_self h]
  · rw [if_neg hj, state, task, setState, Pool.getD_modify_of_ne hj]
    rfl

end

/-! ## Dropping a task -/

section

variable (s : Scheduler) (id j : TaskId)

@[simp] theorem has_drop : (s.drop id).Has j ↔ s.Has j := Pool.has_modify

theorem state_drop : (s.drop id).state j = if j = id then .failed else s.state j := by
  by_cases hj : j = id
  · subst hj
    rw [if_pos rfl]
    by_cases h : s.Has j
    · rw [state, task, drop, Pool.getD_modify_self h]
    · exact state_of_not_has (by simpa using h)
  · rw [if_neg hj, state, task, drop, Pool.getD_modify_of_ne hj]
    rfl

theorem waiters_drop : (s.drop id).waiters j = if j = id then [] else s.waiters j := by
  by_cases hj : j = id
  · subst hj
    rw [if_pos rfl]
    by_cases h : s.Has j
    · rw [waiters, task, drop, Pool.getD_modify_self h]
    · exact waiters_of_not_has (by simpa using h)
  · rw [if_neg hj, waiters, task, drop, Pool.getD_modify_of_ne hj]
    rfl

end

/-! ## Submitting a task -/

theorem submit_cases (s : Scheduler) (k) :
    s.Has (s.submit k).2 ∧ (s.submit k).1 = s ∨
    ∃ t, ¬ s.Has t ∧ (s.submit k).2 = t ∧ (∀ j, (s.submit k).1.Has j ↔ s.Has j ∨ j = t) ∧
      (∀ j, (s.submit k).1.state j = if j = t then .queued else s.state j) ∧
      (∀ j, (s.submit k).1.waiters j = s.waiters j) ∧ (s.submit k).1.queue = s.queue ++ [t] := by
  unfold submit
  cases hf : s.find? k with
  | some id => exact .inl ⟨(Pool.has_of_findId? hf).1, rfl⟩
  | none =>
    refine .inr ⟨s.tasks.nextId, s.tasks.not_has_nextId, rfl, fun j => Pool.has_push, fun j => ?_, fun j => ?_, ?_⟩
    · simp only [state, task, Pool.getD_push]
      split <;> rfl
    · simp only [waiters, task, Pool.getD_push]
      split
      · next hj =>
        subst hj
        rw [Pool.getD_of_not_has s.tasks.not_has_nextId]
        rfl
      · rfl
    · simp [queue]

/-! ## Taking the next task -/

@[simp] theorem has_start (s : Scheduler) (id j) : (s.start id).Has j ↔ s.Has j :=
  Pool.has_modify

@[simp] theorem state_start (s : Scheduler) (id j) : (s.start id).state j = s.state j := by
  refine Pool.view_modify Task.state ?_ s.tasks id j default
  exact fun _ => rfl

@[simp] theorem waiters_start (s : Scheduler) (id j) : (s.start id).waiters j = s.waiters j := by
  refine Pool.view_modify Task.waiters ?_ s.tasks id j default
  exact fun _ => rfl

theorem ready_eq_some {l rest t} (h : s.ready l = some (t, rest)) :
    s.state t = .queued ∧ ∃ stale, l = stale ++ t :: rest ∧ ∀ j ∈ stale, s.state j ≠ .queued := by
  induction l with
  | nil => cases h
  | cons id l ih =>
    rw [ready] at h
    split at h
    · next hq =>
      cases h
      exact ⟨hq, [], rfl, by simp⟩
    · next hq =>
      obtain ⟨ht, stale, rfl, hs⟩ := ih h
      exact ⟨ht, id :: stale, rfl, List.forall_mem_cons.mpr ⟨hq, hs⟩⟩

theorem ready_eq_none {l} (h : s.ready l = none) : ∀ j ∈ l, s.state j ≠ .queued := by
  induction l with
  | nil => simp
  | cons id l ih =>
    rw [ready] at h
    split at h
    · cases h
    · next hq => exact List.forall_mem_cons.mpr ⟨hq, ih h⟩

section

variable (s : Scheduler) (j : TaskId)

@[simp] theorem has_next : s.next.1.Has j ↔ s.Has j := by
  unfold next
  split
  · exact has_start ..
  · split
    · exact has_start ..
    · rfl

@[simp] theorem state_next : s.next.1.state j = s.state j := by
  unfold next
  split
  · exact state_start ..
  · split
    · exact state_start ..
    · rfl

@[simp] theorem waiters_next : s.next.1.waiters j = s.waiters j := by
  unfold next
  split
  · exact waiters_start ..
  · split
    · exact waiters_start ..
    · rfl

end

theorem next_eq_some {t} (h : s.next.2 = some t) :
    s.state t = .queued ∧ ∃ stale, s.queue = stale ++ t :: s.next.1.queue ∧ ∀ j ∈ stale, s.state j ≠ .queued := by
  unfold next at h ⊢
  split at h
  · next id rest hr =>
    cases h
    obtain ⟨ht, stale, hl, hs⟩ := ready_eq_some hr
    refine ⟨ht, stale, ?_, hs⟩
    simp [queue, hl, start]
  · next hr =>
    split at h
    · next id rest hf =>
      cases h
      obtain ⟨ht, stale, hl, hs⟩ := ready_eq_some hf
      refine ⟨ht, s.resumed ++ stale, ?_, ?_⟩
      · simp [queue, hl, start]
      · exact List.forall_mem_append.mpr ⟨ready_eq_none hr, hs⟩
    · cases h

theorem next_eq_none (h : s.next.2 = none) : (∀ j ∈ s.queue, s.state j ≠ .queued) ∧ s.next.1.queue = [] := by
  unfold next at h ⊢
  split at h
  · cases h
  · next hr =>
    split at h
    · cases h
    · next hf =>
      refine ⟨List.forall_mem_append.mpr ⟨ready_eq_none hr, ready_eq_none hf⟩, ?_⟩
      simp [queue]

end Comptime.Scheduler
