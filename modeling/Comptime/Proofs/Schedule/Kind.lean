import Comptime.Proofs.Schedule.Fail
import Mathlib.Logic.Relation

/-!
# What tasks are about

No operation of the scheduler changes what a task is about, and no two tasks are about the same. Only
taking a task off the queues counts as a start of it.
-/

namespace Comptime.Scheduler

variable (s : Scheduler) (id j : TaskId)

/-! ## Kinds stay -/

private theorem kind_modify {f : Task → Task} (h : ∀ t, (f t).kind = t.kind) :
    { s with tasks := s.tasks.modify id f }.kind j = s.kind j :=
  Pool.view_modify Task.kind h s.tasks id j default

@[simp] theorem kind_start : (s.start id).kind j = s.kind j := s.kind_modify id j fun _ => rfl

@[simp] theorem kind_next : s.next.1.kind j = s.kind j := by
  unfold next
  split
  · exact kind_start ..
  · split
    · exact kind_start ..
    · rfl

section

variable {β : Type} {g : Task → β} (hg : ∀ t state waiters, g { t with state, waiters } = g t)

include hg

private theorem view_failAll (fuel) (stack) : g ((failAll fuel s stack).1.task j) = g (s.task j) := by
  induction fuel generalizing s stack with
  | zero => rfl
  | succ fuel ih =>
    cases stack with
    | nil => rfl
    | cons id stack =>
      rw [failAll]
      split
      · exact ih s stack
      · exact (ih (s.drop id) _).trans (Pool.view_modify g (fun _ => hg ..) s.tasks id j default)

theorem view_fail : g ((s.fail id).1.task j) = g (s.task j) := view_failAll s j hg _ _

theorem view_park (b) : g ((s.park id b).task j) = g (s.task j) := by
  unfold park
  split
  · rfl
  · exact view_fail s id j hg
  · have hb := Pool.view_modify g (f := fun t => { t with waiters := t.waiters ++ [id] })
      (fun t => hg t t.state _) (s.setState id (.waiting b)).tasks b j default
    exact hb.trans (Pool.view_modify g (fun t => hg t _ t.waiters) s.tasks id j default)

private theorem view_foldl_wake (b) (ws : List TaskId) : g ((ws.foldl (wake b) s).task j) = g (s.task j) := by
  have hwake (s : Scheduler) (w : TaskId) : g ((wake b s w).task j) = g (s.task j) := by
    unfold wake
    split
    · exact Pool.view_modify g (fun t => hg t _ t.waiters) s.tasks w j default
    · rfl
  induction ws generalizing s with
  | nil => rfl
  | cons w ws ih => exact (ih (wake b s w)).trans (hwake s w)

theorem view_resolve : g ((s.resolve id).task j) = g (s.task j) :=
  (view_foldl_wake _ j hg id _).trans (Pool.view_modify g (fun _ => hg ..) s.tasks id j default)

end

@[simp] theorem kind_fail : (s.fail id).1.kind j = s.kind j :=
  s.view_fail id j (g := Task.kind) fun _ _ _ => rfl

@[simp] theorem kind_park (b) : (s.park id b).kind j = s.kind j :=
  s.view_park id j (g := Task.kind) (fun _ _ _ => rfl) b

@[simp] theorem kind_resolve : (s.resolve id).kind j = s.kind j :=
  s.view_resolve id j (g := Task.kind) fun _ _ _ => rfl

@[simp] theorem runs_fail : (s.fail id).1.runs j = s.runs j :=
  s.view_fail id j (g := Task.runs) fun _ _ _ => rfl

@[simp] theorem runs_park (b) : (s.park id b).runs j = s.runs j :=
  s.view_park id j (g := Task.runs) (fun _ _ _ => rfl) b

@[simp] theorem runs_resolve : (s.resolve id).runs j = s.runs j :=
  s.view_resolve id j (g := Task.runs) fun _ _ _ => rfl

variable {s j}

theorem runs_next {task} (h : s.next.2 = some task) (j) :
    s.next.1.runs j = if j = task then s.runs j + 1 else s.runs j := by
  have hstart (s : Scheduler) (ht : s.Has task) :
      (s.start task).runs j = if j = task then s.runs j + 1 else s.runs j := by
    by_cases hj : j = task
    · subst hj
      rw [if_pos rfl, runs, runs, Scheduler.task, Scheduler.task, start, Pool.getD_modify_self ht]
    · rw [if_neg hj, runs, runs, Scheduler.task, Scheduler.task, start, Pool.getD_modify_of_ne hj]
  have hhas : s.Has task := has_of_state_ne (by rw [(next_eq_some h).1]; simp)
  unfold next at h ⊢
  split at h
  · cases h
    exact hstart _ hhas
  · split at h
    · cases h
      exact hstart _ hhas
    · cases h

theorem runs_next_none (h : s.next.2 = none) (j) : s.next.1.runs j = s.runs j := by
  unfold next at h ⊢
  split at h
  · cases h
  · split at h
    · cases h
    · rfl

/-! ## Tasks that are submitted -/

theorem find?_eq_some {k i} (h : s.find? k = some i) : s.Has i ∧ s.kind i = k := by
  obtain ⟨hi, hk⟩ := Pool.has_of_findId? h
  exact ⟨hi, eq_of_beq (hk default)⟩

private theorem kind_ne_of_find?_eq_none {k} (h : s.find? k = none) (hj : s.Has j) : s.kind j ≠ k := by
  have hk := Pool.of_findId?_eq_none h hj default
  exact ne_of_beq_false hk

theorem kind_submit (k) :
    (s.submit k).1.Has (s.submit k).2 ∧ (s.submit k).1.kind (s.submit k).2 = k ∧
      ∀ j, s.Has j → (s.submit k).1.kind j = s.kind j := by
  unfold submit
  split
  · next i hf => exact ⟨(find?_eq_some hf).1, (find?_eq_some hf).2, fun _ _ => rfl⟩
  · refine ⟨Pool.has_push_nextId _ _, ?_, fun j hj => ?_⟩
    · rw [kind, task, Pool.getD_push, if_pos rfl]
    · rw [kind, task, Pool.getD_push_of_has hj]
      rfl

def Distinct (s : Scheduler) : Prop :=
  ∀ a b, s.Has a → s.Has b → s.kind a = s.kind b → a = b

theorem Distinct.same {s' : Scheduler} (h : s.Distinct) (has : ∀ j, s'.Has j ↔ s.Has j)
    (kind : ∀ j, s'.kind j = s.kind j) : s'.Distinct := by
  intro a b ha hb hk
  rw [kind, kind] at hk
  exact h a b ((has a).mp ha) ((has b).mp hb) hk

theorem Distinct.submit (h : s.Distinct) (k) : (s.submit k).1.Distinct := by
  obtain ⟨-, hnew, hold⟩ := s.kind_submit k
  rcases s.submit_cases k with ⟨-, he⟩ | ⟨t, ht, htask, has, -⟩
  · rwa [he]
  · rw [htask] at hnew
    have hfresh : ∀ j, s.Has j → s.kind j ≠ k := by
      intro j hj
      refine kind_ne_of_find?_eq_none ?_ hj
      cases hf : s.find? k with
      | none => rfl
      | some i =>
        refine absurd ?_ ht
        rw [← htask, Scheduler.submit, hf]
        exact (find?_eq_some hf).1
    intro a b ha hb hk
    rcases (has a).mp ha with ha | rfl <;> rcases (has b).mp hb with hb | rfl
    · rw [hold a ha, hold b hb] at hk
      exact h a b ha hb hk
    · rw [hold a ha, hnew] at hk
      exact absurd hk (hfresh a ha)
    · rw [hnew, hold b hb] at hk
      exact absurd hk.symm (hfresh b hb)
    · rfl

/-- Nothing happened but that tasks were submitted. -/
abbrev Submits : Scheduler → Scheduler → Prop := Relation.ReflTransGen fun s s' => ∃ k, s' = (s.submit k).1

theorem Submits.keeps {s s'} (h : Submits s s') {task} (ht : s.Has task) :
    s'.Has task ∧ s'.state task = s.state task ∧ s'.kind task = s.kind task := by
  induction h with
  | refl => exact ⟨ht, rfl, rfl⟩
  | @tail s1 s2 _ hs ih =>
    obtain ⟨k, rfl⟩ := hs
    obtain ⟨hhas, hstate, hkind⟩ := ih
    refine ⟨?_, ?_, ((s1.kind_submit k).2.2 task hhas).trans hkind⟩
    · rcases s1.submit_cases k with ⟨-, he⟩ | ⟨new, -, -, has, -⟩
      · rwa [he]
      · exact (has task).mpr (.inl hhas)
    · rcases s1.submit_cases k with ⟨-, he⟩ | ⟨new, hnew, -, -, state, -⟩
      · rwa [he]
      · rw [state, if_neg fun h : task = new => hnew (h ▸ hhas), hstate]

end Comptime.Scheduler
