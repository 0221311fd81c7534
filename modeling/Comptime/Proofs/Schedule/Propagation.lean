import Comptime.Proofs.Schedule.Discipline
import Comptime.Proofs.Schedule.Kind

/-!
# How far a failure goes

A failure takes along all tasks that depend on the one that fails, and no others. That the loop reaches
exactly those rests on the lists of waiters: under the discipline of the driver every task in such a list
waits for its owner, and stands in it once (`Scheduler.Accounted`).
-/

namespace Comptime.Scheduler

variable {p p' : Phase} {s s' : Scheduler} {t a b w : TaskId}

/-! ## What fails -/

theorem Unwinds.depends {stack failed : List TaskId} (h : Unwinds s stack s' failed) {s0 : Scheduler}
    (hlisted : ∀ b w, w ∈ s.waiters b → s0.Waits w b) (hstack : ∀ j ∈ stack, s0.Depends j t) :
    ∀ j ∈ failed, s0.Depends j t := by
  induction h with
  | done => simp
  | skip _ _ ih => exact ih hlisted (List.forall_mem_cons.mp hstack).2
  | @drop s s' id stack failed _ _ ih =>
    obtain ⟨hid, hstack⟩ := List.forall_mem_cons.mp hstack
    refine List.forall_mem_cons.mpr ⟨hid, ih (fun b w hw => ?_) (List.forall_mem_append.mpr ⟨fun w hw => ?_, hstack⟩)⟩
    · rw [waiters_drop] at hw
      split at hw
      · cases hw
      · exact hlisted b w hw
    · exact .head (hlisted id w (List.mem_reverse.mp hw)) hid

theorem Unwinds.failed {stack failed : List TaskId} (h : Unwinds s stack s' failed) :
    failed.Nodup ∧ ∀ j, j ∈ failed ↔ s.state j ≠ .failed ∧ s'.state j = .failed := by
  induction h with
  | done => simp
  | skip _ _ ih => exact ih
  | @drop s s' id stack failed notFailed rest ih =>
    obtain ⟨hnodup, hmem⟩ := ih
    have hid : s'.state id = .failed := rest.fails.failed (by simp [state_drop])
    refine ⟨List.nodup_cons.mpr ⟨fun hin => ?_, hnodup⟩, fun j => ?_⟩
    · exact ((hmem id).mp hin).1 (by simp [state_drop])
    · rw [List.mem_cons, hmem, state_drop]
      by_cases hj : j = id
      · simp [hj, notFailed, hid]
      · simp [hj]

/-! ## The extent of a failure -/

/-- Failing a task that runs or is part of a circle comes to an end. It fails exactly the tasks that depend
on it, gives each of the others among them once, leaves all other tasks and the queues as they are, and
leaves no failed task in a list of waiters. -/
theorem fail_exact (h : Reached p s) (hopen : s.Open t) (ht : p = .running t ∨ s.OnCycle t) :
    (∃ failed, Unwinds s [t] (s.fail t).1 failed ∧ (s.fail t).2 = failed.filter (· != t)) ∧
      (∀ j, s.Depends j t → s.state j ≠ .failed ∧ (s.fail t).1.state j = .failed) ∧
      (∀ j, ¬ s.Depends j t → (s.fail t).1.state j = s.state j) ∧
      (s.fail t).2.Nodup ∧ (∀ j, j ∈ (s.fail t).2 ↔ j ≠ t ∧ s.Depends j t) ∧
      (s.fail t).1.resumed = s.resumed ∧ (s.fail t).1.fresh = s.fresh ∧
      (∀ j, (s.fail t).1.runs j = s.runs j) ∧
      ∀ b w, w ∈ (s.fail t).1.waiters b → (s.fail t).1.state w ≠ .failed := by
  have ha := h.accounted
  have hloop := s.fail_unwinds t
  obtain ⟨hnodup, hfailed⟩ := hloop.failed
  have hdepends := hloop.depends (t := t) ha.listed (by simp [Depends, Relation.ReflTransGen.refl])
  have hnew (j : TaskId) : s.state j ≠ .failed ∧ (s.fail t).1.state j = .failed ↔ s.Depends j t := by
    refine ⟨fun hj => hdepends j ((hfailed j).mpr hj), fun hj => ⟨?_, ?_⟩⟩
    · rcases hj.cases_head with rfl | ⟨b, hb, -⟩
      · exact fun he => by rw [Open, he] at hopen; cases hopen
      · rw [hb]
        simp
    · exact ha.failed_of_depends hj (hloop.fails.stacked t List.mem_cons_self)
  refine ⟨⟨_, hloop, rfl⟩, fun j => (hnew j).mpr, fun j hj => ?_, hnodup.filter _, fun j => ?_, hloop.fails.resumed,
    hloop.fails.fresh, fun j => runs_fail s t j, fun b w hw => ?_⟩
  · by_cases hj' : (s.fail t).1.state j = .failed
    · by_contra hne
      exact hj ((hnew j).mp ⟨fun he => hne (hj'.trans he.symm), hj'⟩)
    · exact (hloop.fails.kept j hj').1
  · rw [fail, List.mem_filter, bne_iff_ne, hfailed, and_comm]
    exact and_congr_right fun _ => hnew j
  · have hmay : s.state t = .queued ∨ s.state t = .failed ∨ s.OnCycle t := by
      rcases ht with rfl | hc
      · exact .inl (ha.running t rfl)
      · exact .inr (.inr hc)
    have hwb := ha.listed_fail hmay hw
    rw [hwb]
    simp

private theorem reached_knot : Reached .ready knot := by
  have hsubmit : Steps (.ready, empty) (.ready, (((empty.submit (.eval 0)).1.submit (.eval 1)).1.submit (.eval 2)).1) :=
    ((Relation.ReflTransGen.single (.submit _)).tail (.submit _)).tail (.submit _)
  have hfirst := (hsubmit.tail (.take (t := 0) (by decide +kernel))).tail (.park 0 (b := 1) (by decide +kernel))
  have hsecond := (hfirst.tail (.take (t := 1) (by decide +kernel))).tail (.park 1 (b := 0) (by decide +kernel))
  exact (hsecond.tail (.take (t := 2) (by decide +kernel))).tail (.park 2 (b := 0) (by decide +kernel))

/-- When the circle in the knot is broken, the task that waits for it fails too. -/
theorem fail_exact_knot : knot.Open 0 ∧ knot.OnCycle 0 ∧ 2 ∈ (knot.fail 0).2 ∧ (knot.fail 0).2.Nodup := by
  have hopen : knot.Open 0 := by decide +kernel
  have hwaits : knot.Waits 2 0 := by decide +kernel
  obtain ⟨-, -, -, hnodup, hmem, -⟩ := fail_exact reached_knot hopen (.inr onCycle_knot)
  exact ⟨hopen, onCycle_knot, (hmem 2).mpr ⟨by decide, .single hwaits⟩, hnodup⟩

end Comptime.Scheduler
