import Comptime.Proofs.Schedule.Kind
import Comptime.Proofs.Schedule.Progress
import Mathlib.Algebra.Order.BigOperators.Group.Finset

/-!
# Effort is bounded

Tasks are submitted while others run, so that there is no telling beforehand how much is to be done.
But a task that is put off until another one is resolved is started again only when that has happened.
So no task is started more often than others are resolved (`Thrifty`).

`Scheduler.effort` counts starts and failures. Every step of the driver adds to it, and it is bounded by
the number of tasks (`Thrifty.effort_le`).
-/

namespace Comptime.Scheduler

variable {p p' : Phase} {s s' : Scheduler} {t a b : TaskId} {q q' : TaskState → Bool}

/-! ## Waits that end -/

theorem Accounted.step_waiting (h : Accounted p s) (hs : Step (p, s) (p', s')) (ha : s.state a = .waiting b) :
    s'.state a = .waiting b ∨ s'.state b = .resolved ∨ s'.state a = .failed := by
  rcases h.step_state hs (has_of_state_ne (by rw [ha]; simp)) with he | hr | ⟨b', hb', hend⟩
  · exact .inl (he.trans ha)
  · have hq := h.running a hr
    rw [ha] at hq
    cases hq
  · cases hb'.symm.trans ha
    exact .inr hend

theorem Accounted.steps_waiting {x y : Phase × Scheduler} (hx : Accounted x.1 x.2) (h : Steps x y)
    (ha : x.2.state a = .waiting b) :
    y.2.state a = .waiting b ∨ y.2.state b = .resolved ∨ y.2.state a = .failed := by
  have hhas : x.2.Has a := has_of_state_ne (by rw [ha]; simp)
  induction h with
  | refl => exact .inl ha
  | @tail y z hxy hs ih =>
    have hy := hx.steps hxy
    rcases ih with hw | hr | hf
    · exact hy.step_waiting hs hw
    · have hb : y.2.Has b := has_of_state_ne (by rw [hr]; simp)
      exact .inr (.inl ((hy.step_final hs hb (not_open_iff.mpr (.inl hr))).2.trans hr))
    · have hdone := hy.step_final hs (has_of_steps hxy hhas) (not_open_iff.mpr (.inr hf))
      exact .inr (.inr (hdone.2.trans hf))

theorem steps_submits (h : Submits s s') : Steps (p, s) (p, s') := by
  induction h with
  | refl => exact .refl
  | tail _ h ih =>
    obtain ⟨k, rfl⟩ := h
    exact ih.tail (.submit k)

theorem steps_foldl_fail (members : List TaskId) (s : Scheduler) :
    Steps (.breaking members, s) (.ready, members.foldl (fun s t => (s.fail t).1) s) := by
  induction members generalizing s with
  | nil => exact .single .broken
  | cons m members ih => exact .head (.failMember m members) (ih (s.fail m).1)

/-! ## Counts that grow -/

/-- The number of tasks in certain states. -/
def tally (s : Scheduler) (q : TaskState → Bool) : Nat :=
  ((Finset.range s.tasks.size).filter fun i => q (s.state ⟨i⟩)).card

theorem tally_le (s : Scheduler) (q : TaskState → Bool) : s.tally q ≤ s.tasks.size :=
  (Finset.card_filter_le ..).trans_eq (Finset.card_range _)

private theorem tally_grow (has : ∀ id, s.Has id → s'.Has id)
    (h : ∀ id, s.Has id → q (s.state id) = true → q (s'.state id) = true) :
    s.tally q ≤ s'.tally q := by
  refine Finset.card_le_card fun i hi => ?_
  obtain ⟨hi, hq⟩ := Finset.mem_filter.mp hi
  have hi : s.Has ⟨i⟩ := Finset.mem_range.mp hi
  exact Finset.mem_filter.mpr ⟨Finset.mem_range.mpr (has _ hi), h _ hi hq⟩

theorem tally_lt (has : ∀ id, s.Has id → s'.Has id)
    (h : ∀ id, s.Has id → q (s.state id) = true → q' (s'.state id) = true) (ht : s.Has t)
    (hq : q (s.state t) = false) (hq' : q' (s'.state t) = true) : s.tally q < s'.tally q' := by
  refine Finset.card_lt_card ⟨fun i hi => ?_, fun hsub => ?_⟩
  · obtain ⟨hi, hq⟩ := Finset.mem_filter.mp hi
    have hi : s.Has ⟨i⟩ := Finset.mem_range.mp hi
    exact Finset.mem_filter.mpr ⟨Finset.mem_range.mpr (has _ hi), h _ hi hq⟩
  · have hmem := hsub (Finset.mem_filter.mpr ⟨Finset.mem_range.mpr (has t ht), hq'⟩)
    have hold : q (s.state t) = true := (Finset.mem_filter.mp hmem).2
    rw [hq] at hold
    cases hold

theorem Accounted.state_steps (ha : Accounted p s) (h : Steps (p, s) (p', s')) (q) (terminal : q.isTerminal = true)
    (has : s.Has t) (hq : (s.state t == q) = true) : (s'.state t == q) = true := by
  have hq := beq_iff_eq.mp hq
  have hdone : ¬ s.Open t := by rw [Open, hq, terminal]; simp
  exact beq_iff_eq.mpr ((ha.steps_final h has hdone).2.trans hq)

theorem Accounted.tally_steps (ha : Accounted p s) (h : Steps (p, s) (p', s')) (q) (terminal : q.isTerminal = true) :
    s.tally (· == q) ≤ s'.tally (· == q) :=
  tally_grow (fun _ => has_of_steps h) fun _ => ha.state_steps h q terminal

def starts (s : Scheduler) : Nat := ∑ i ∈ Finset.range s.tasks.size, s.runs ⟨i⟩

theorem size_le (has : ∀ id, s.Has id → s'.Has id) : s.tasks.size ≤ s'.tasks.size := by
  by_contra hlt
  exact absurd (has ⟨s'.tasks.size⟩ (Nat.not_le.mp hlt)) (Nat.lt_irrefl _)

theorem starts_grow (has : ∀ id, s.Has id → s'.Has id)
    (h : ∀ id, s.Has id → s.runs id ≤ s'.runs id) : s.starts ≤ s'.starts := by
  calc s.starts
    _ ≤ ∑ i ∈ Finset.range s.tasks.size, s'.runs ⟨i⟩ :=
      Finset.sum_le_sum fun i hi => h ⟨i⟩ (Finset.mem_range.mp hi)
    _ ≤ s'.starts := Finset.sum_le_sum_of_subset (Finset.range_mono (size_le has))

theorem starts_lt (has : ∀ id, s.Has id → s'.Has id) (h : ∀ id, s.Has id → s.runs id ≤ s'.runs id)
    (ht : s.Has t) (hlt : s.runs t < s'.runs t) : s.starts < s'.starts := by
  calc s.starts
    _ < ∑ i ∈ Finset.range s.tasks.size, s'.runs ⟨i⟩ :=
      Finset.sum_lt_sum (fun i hi => h ⟨i⟩ (Finset.mem_range.mp hi)) ⟨t.index, Finset.mem_range.mpr ht, hlt⟩
    _ ≤ s'.starts := Finset.sum_le_sum_of_subset (Finset.range_mono (size_le has))

def effort (s : Scheduler) : Nat := s.starts + s.tally (· == .failed)

/-! ## Thrift -/

/-- No task was started without need: each start after the first one follows the end of another task.
The task that runs has been started once more. -/
structure Thrifty (p : Phase) (s : Scheduler) : Prop where
  queued : ∀ id, p ≠ .running id → s.state id = .queued → s.runs id ≤ s.tally (· == .resolved)
  runs : ∀ id, s.runs id ≤ s.tally (· == .resolved) + 1

theorem Thrifty.runs_le (h : Thrifty p s) (id) : s.runs id ≤ s.tasks.size + 1 :=
  (h.runs id).trans (Nat.succ_le_succ (s.tally_le _))

theorem Thrifty.runs_lt (h : Thrifty .ready s) (hq : s.state t = .queued) : s.runs t < s.tasks.size := by
  have ht : s.Has t := has_of_state_ne (by rw [hq]; simp)
  have hlt : s.tally (· == .resolved) < s.tally fun _ => true :=
    tally_lt (fun _ => id) (fun _ _ _ => rfl) ht (by rw [hq]; rfl) rfl
  exact (h.queued t (by simp) hq).trans_lt (hlt.trans_le (s.tally_le _))

/-- The number of tasks bounds the effort. -/
theorem Thrifty.effort_le (h : Thrifty p s) : s.effort ≤ s.tasks.size * (s.tasks.size + 2) := by
  have hstarts : s.starts ≤ s.tasks.size * (s.tasks.size + 1) :=
    calc s.starts
      _ ≤ ∑ i ∈ Finset.range s.tasks.size, (s.tasks.size + 1) :=
        Finset.sum_le_sum fun i _ => h.runs_le ⟨i⟩
      _ = s.tasks.size * (s.tasks.size + 1) := by
        rw [Finset.sum_const_nat fun _ _ => rfl, Finset.card_range]
  have hfailed := s.tally_le (· == .failed)
  rw [Nat.mul_add] at hstarts ⊢
  unfold effort
  omega

theorem runs_of_not_has (h : ¬ s.Has a) : s.runs a = 0 := by
  rw [runs, task, Pool.getD_of_not_has h]
  rfl

theorem Thrifty.empty : Thrifty p empty where
  queued id _ h := by rw [state_of_not_has (Nat.not_lt_zero _)] at h; cases h
  runs id := by
    rw [runs_of_not_has (Nat.not_lt_zero _)]
    exact Nat.zero_le _

-- a task gets into the queues as a new one, or because another one has been resolved
theorem Thrifty.idle (h : Thrifty p s) (ha : Accounted p s) (hs : Steps (p, s) (p', s'))
    (runs : ∀ id, s'.runs id = s.runs id)
    (queued : ∀ id, p' ≠ .running id → s'.state id = .queued →
      p ≠ .running id ∧ s.state id = .queued ∨ s.runs id = 0 ∨ s.tally (· == .resolved) < s'.tally (· == .resolved)) :
    Thrifty p' s' := by
  have hmore := ha.tally_steps hs .resolved rfl
  refine ⟨fun id hp hq => ?_, fun id => ?_⟩
  · rw [runs]
    rcases queued id hp hq with ⟨hp, hq⟩ | hnew | hlt
    · exact (h.queued id hp hq).trans hmore
    · rw [hnew]
      exact Nat.zero_le _
    · exact (h.runs id).trans hlt
  · rw [runs]
    exact (h.runs id).trans (Nat.succ_le_succ hmore)

theorem runs_submit (s : Scheduler) (k j) : (s.submit k).1.runs j = s.runs j := by
  unfold submit
  split
  · rfl
  · rw [runs, task, Pool.getD_push]
    split
    · next he => rw [he, runs_of_not_has s.tasks.not_has_nextId]
    · rfl

theorem Thrifty.submit (h : Thrifty p s) (ha : Accounted p s) (k) : Thrifty p (s.submit k).1 := by
  refine h.idle ha (.single (.submit k)) (s.runs_submit k) fun id hp hq => ?_
  rcases submit_cases s k with ⟨-, he⟩ | ⟨new, hnew, -, -, hstate, -⟩
  · exact .inl ⟨hp, he ▸ hq⟩
  · rw [hstate] at hq
    split at hq
    · next he => exact .inr (.inl (runs_of_not_has (he ▸ hnew)))
    · exact .inl ⟨hp, hq⟩

theorem Thrifty.submits (h : Thrifty p s) (ha : Accounted p s) (hs : Submits s s') :
    Thrifty p s' ∧ ∀ id, s'.runs id = s.runs id := by
  induction hs with
  | refl => exact ⟨h, fun _ => rfl⟩
  | tail hs hstep ih =>
    obtain ⟨k, rfl⟩ := hstep
    exact ⟨ih.1.submit (ha.steps (steps_submits hs)) k, fun id => (runs_submit _ k id).trans (ih.2 id)⟩

theorem Thrifty.next_none (h : Thrifty .ready s) (ha : Accounted .ready s) (hn : s.next.2 = none) :
    Thrifty .ready s.next.1 :=
  h.idle ha (.head (.stop hn) (.single .again)) (runs_next_none hn) fun id hp hq =>
    .inl ⟨hp, by rwa [state_next] at hq⟩

theorem Thrifty.take (h : Thrifty .ready s) (ha : Accounted .ready s) (hn : s.next.2 = some t) :
    Thrifty (.running t) s.next.1 := by
  have hmore := ha.tally_steps (.single (.take hn)) .resolved rfl
  have hq := (next_eq_some hn).1
  refine ⟨fun id hp hid => ?_, fun id => ?_⟩
  · rw [runs_next hn, if_neg fun (he : id = t) => hp (he ▸ rfl)]
    rw [state_next] at hid
    exact (h.queued id (by simp) hid).trans hmore
  · rw [runs_next hn]
    split
    · next he => exact Nat.succ_le_succ ((h.queued id (by simp) (he ▸ hq)).trans hmore)
    · exact (h.runs id).trans (Nat.succ_le_succ hmore)

/-! ## Steps of the driver -/

/-- How a run ends that is not put off for a task that is resolved. -/
inductive Ends (s : Scheduler) (t : TaskId) : Scheduler → Prop
  | resolved : Ends s t (s.resolve t)
  | parked {b : TaskId} (isOpen : s.Open b) : Ends s t (s.park t b)
  | failed : Ends s t (s.fail t).1

theorem Ends.step (h : s.Ends t s') : Step (.running t, s) (.ready, s') := by
  cases h with
  | resolved => exact .resolve t
  | parked isOpen => exact .park t isOpen.has
  | failed => exact .fail t

theorem Ends.runs_eq (h : s.Ends t s') (id) : s'.runs id = s.runs id := by
  cases h with
  | resolved => rw [runs_resolve]
  | parked => rw [runs_park]
  | failed => rw [runs_fail]

theorem Thrifty.ends (h : Thrifty (.running t) s) (ha : Accounted (.running t) s) (he : s.Ends t s') :
    Thrifty .ready s' := by
  refine h.idle ha (.single he.step) he.runs_eq fun id _ hid => ?_
  have hq : s.state t = .queued := ha.running t rfl
  have ht : s.Has t := has_of_state_ne (by rw [hq]; simp)
  have hother (hne : id ≠ t) : Phase.running t ≠ .running id := fun hr => by
    cases hr
    exact hne rfl
  have hstep := he.step
  cases he with
  | resolved =>
    obtain ⟨-, -, hstate, -⟩ := resolve_spec ht
    have hlt : s.tally (· == .resolved) < (s.resolve t).tally (· == .resolved) :=
      tally_lt (fun _ => hstep.has) (fun _ => ha.state_steps (.single hstep) .resolved rfl) ht (by rw [hq]; rfl)
        (by rw [hstate, if_pos rfl]; rfl)
    exact .inr (.inr hlt)
  | parked isOpen =>
    obtain ⟨-, -, hstate, -⟩ := park_of_open ht isOpen
    rw [hstate] at hid
    split at hid
    · cases hid
    · next hne => exact .inl ⟨hother hne, hid⟩
  | failed =>
    have hf := s.fail_fails t
    refine .inl ⟨hother fun he => ?_, (hf.kept id (by rw [hid]; simp)).1 ▸ hid⟩
    rw [he, hf.stacked t List.mem_cons_self] at hid
    cases hid

/-- What the driver does in one step, if it does anything. -/
inductive Advances (s : Scheduler) : Scheduler → Prop
  | ran {s1 s' : Scheduler} {t : TaskId} (next : s.next.2 = some t) (submits : Submits s.next.1 s1)
    (ends : s1.Ends t s') : Advances s s'
  | broke {cycle : List TaskId} (next : s.next.2 = none) (found : s.next.1.findCycle = some cycle) :
    Advances s (cycle.foldl (fun s t => (s.fail t).1) s.next.1)

theorem Advances.steps (h : s.Advances s') : Steps (.ready, s) (.ready, s') := by
  cases h with
  | ran next submits ends => exact .head (.take next) ((steps_submits submits).tail ends.step)
  | broke next found => exact .head (.stop next) (.head (.cycle found) (steps_foldl_fail _ _))

private theorem foldl_fail_cases (members : List TaskId) (s : Scheduler) (id) :
    let s' := members.foldl (fun s t => (s.fail t).1) s
    s'.runs id = s.runs id ∧ (s'.state id = .failed ∨ s'.state id = s.state id ∧ id ∉ members) := by
  induction members generalizing s with
  | nil => exact ⟨rfl, .inr ⟨rfl, by simp⟩⟩
  | cons m members ih =>
    obtain ⟨hruns, hstate⟩ := ih (s.fail m).1
    refine ⟨hruns.trans (runs_fail ..), ?_⟩
    have hf := s.fail_fails m
    rcases hstate with hfailed | ⟨hsame, hnot⟩
    · exact .inl hfailed
    · by_cases hfailed : (s.fail m).1.state id = .failed
      · exact .inl (hsame.trans hfailed)
      · refine .inr ⟨hsame.trans (hf.kept id hfailed).1, fun hmem => ?_⟩
        rcases List.mem_cons.mp hmem with rfl | hmem
        · exact hfailed (hf.stacked id List.mem_cons_self)
        · exact hnot hmem

theorem Advances.thrifty (h : s.Advances s') (ha : Accounted .ready s) (ht : Thrifty .ready s) :
    Thrifty .ready s' ∧ s.effort < s'.effort := by
  have hsteps := h.steps
  have hfailed := ha.tally_steps hsteps .failed rfl
  cases h with
  | @ran s1 _ t next submits ends =>
    obtain ⟨hbusy, hruns⟩ := (ht.take ha next).submits (ha.step (.take next)) submits
    have hrunning := ha.steps (.head (.take next) (steps_submits submits))
    have hcount (id : TaskId) : s'.runs id = if id = t then s.runs id + 1 else s.runs id := by
      rw [ends.runs_eq, hruns, runs_next next]
    refine ⟨hbusy.ends hrunning ends, Nat.add_lt_add_of_lt_of_le ?_ hfailed⟩
    refine starts_lt (fun _ => has_of_steps hsteps) (fun id _ => ?_)
      (has_of_state_ne (by rw [(next_eq_some next).1]; simp)) (t := t) ?_
    · rw [hcount]
      split
      · exact Nat.le_succ _
      · exact Nat.le_refl _
    · rw [hcount, if_pos rfl]
      exact Nat.lt_succ_self _
  | @broke cycle next found =>
    have hcases := foldl_fail_cases cycle s.next.1
    have hruns (id : TaskId) := (hcases id).1.trans (runs_next_none next id)
    have hthrifty := ht.idle ha hsteps hruns fun id hp hid => .inl ⟨hp, by
      rcases (hcases id).2 with hf | hsame
      · rw [hf] at hid
        cases hid
      · rw [← state_next, ← hsame.1, hid]⟩
    refine ⟨hthrifty, Nat.add_lt_add_of_le_of_lt ?_ ?_⟩
    · exact starts_grow (fun _ => has_of_steps hsteps) fun id _ => (hruns id).ge
    -- a member of the circle fails
    · obtain ⟨m, hm⟩ := List.exists_mem_of_ne_nil cycle (ne_nil_of_findCycle found)
      obtain ⟨b, -, hb⟩ := waits_of_mem_findCycle found hm
      have hhas : s.next.1.Has m := has_of_state_ne (by rw [hb]; simp)
      refine tally_lt (fun _ => has_of_steps hsteps) (fun _ => ha.state_steps hsteps .failed rfl)
        ((has_next s m).mp hhas) (by rw [← state_next, hb]; rfl) ?_
      exact beq_iff_eq.mpr ((hcases m).2.resolve_right fun hsame => hsame.2 hm)

end Comptime.Scheduler
