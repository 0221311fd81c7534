import Comptime.Proofs.Schedule.Effort
import Comptime.Proofs.Session.Reachable

/-!
# Sessions keep the discipline of the driver

Whatever happens to a live session, its scheduler takes only steps of the discipline. So no task gets
lost, and when nothing is ready the driver finds either that all is done or a circle to break.
-/

namespace Comptime

/-! ## The scheduler in the tables -/

namespace Tables

theorem scheduler_markFailed (t : Tables) (task) : (t.markFailed task).scheduler = t.scheduler := by
  unfold markFailed
  split <;> rfl

theorem scheduler_fail (t : Tables) (task) : (t.fail task).scheduler = (t.scheduler.fail task).1 := by
  have hfold (tasks : List TaskId) (t : Tables) :
      (tasks.foldl markFailed t).scheduler = t.scheduler := by
    induction tasks generalizing t with
    | nil => rfl
    | cons task tasks ih => rw [List.foldl_cons, ih, scheduler_markFailed]
  exact hfold _ _

theorem scheduler_postpone (t : Tables) (task blocker) :
    (t.postpone task blocker).scheduler = if t.scheduler.state blocker = .failed then (t.scheduler.fail task).1
      else t.scheduler.park task blocker := by
  obtain ⟨t1, ht1, he⟩ := t.postpone_eq task blocker
  have hsame : t1.scheduler = t.scheduler := by rcases ht1 with rfl | ⟨f, -, rfl⟩ <;> rfl
  rw [he, ← hsame]
  split
  · exact t1.scheduler_fail task
  · rfl

theorem scheduler_breakCycle (t : Tables) (ast) (cycle : List TaskId) :
    (t.breakCycle ast cycle).scheduler = cycle.foldl (fun s task => (s.fail task).1) t.scheduler := by
  have hfold (tasks : List TaskId) (t : Tables) : (tasks.foldl fail t).scheduler =
      tasks.foldl (fun s task => (s.fail task).1) t.scheduler := by
    induction tasks generalizing t with
    | nil => rfl
    | cons task tasks ih => rw [List.foldl_cons, ih, scheduler_fail, List.foldl_cons]
  exact hfold cycle (t.emit (t.cycleReport ast cycle))

end Tables

/-! ## Steps of the scheduler -/

namespace Tables

open Scheduler (Steps Reached)

variable {t t' : Tables}

theorem steps_breakCycle (ast) {cycle} (h : t.scheduler.findCycle = some cycle) :
    Steps (.stuck, t.scheduler) (.ready, (t.breakCycle ast cycle).scheduler) := by
  rw [scheduler_breakCycle]
  exact .head (.cycle h) (Scheduler.steps_foldl_fail ..)

end Tables

namespace Session

open Scheduler (Reached)

variable {s s' : Session}

private theorem steps_of_settle {task} (hs : s.tables.Sound) (hr : s.tables.Running task)
    (h : settle task (s.runTask task) s = .ok () s') :
    Scheduler.Steps (.running task, s.tables.scheduler) (.ready, s'.tables.scheduler) := by
  have hrun := runTask_spec task hs hr
  obtain ⟨t', _, rfl, hends⟩ := ends_of_settle h
  generalize s.runTask task = r at hrun hends
  cases hends with
  | resolved => exact (Scheduler.steps_submits hrun.1.submits).tail (.resolve task)
  | parked =>
    refine (Scheduler.steps_submits hrun.submits).tail ?_
    rw [Tables.scheduler_postpone]
    split
    · exact .fail task
    · next hb => exact .park task (Scheduler.has_of_state_ne hb)
  | failed =>
    rw [Tables.scheduler_fail]
    exact (Scheduler.steps_submits hrun.submits).tail (.fail task)

theorem Step.scheduler (h : Step s s') (hs : s.tables.Sound) :
    Scheduler.Steps (.ready, s.tables.scheduler) (.ready, s'.tables.scheduler) := by
  cases h with
  | pushNodes nodes => exact .refl
  | declare items =>
    rw [stateAfter_declare]
    exact Scheduler.steps_submits (Tables.declareItems_declares ..).submits
  | submit n => exact .single (.submit _)
  | advance h =>
    cases stepped_of_advance h with
    | ran next settled =>
      refine .head (.take next) (steps_of_settle (s := s.started) ?_ (s.tables.started_running next) settled)
      exact s.tables.started_moves.sound hs
    | idle next => exact .head (.stop next) (.single .again)
    | broke next found => exact .head (.stop next) (Tables.steps_breakCycle s.ast found)

theorem Live.reached (h : s.Live) : Reached .ready s.tables.scheduler := by
  obtain ⟨config, host, ast, h⟩ := h
  induction h with
  | refl => exact .refl
  | tail hsteps hstep ih =>
    have hlive : Live _ := ⟨config, host, ast, hsteps⟩
    exact ih.trans (hstep.scheduler hlive.reachable.sound)

theorem Live.advance_ok (h : s.Live) (hn : s.tables.scheduler.next.2 = none) :
    ∃ more s', advance s = .ok more s' := by
  cases ha : advance s with
  | ok more s' => exact ⟨more, s', rfl⟩
  | error e s' =>
    have hor := h.reached.accounted.idle_or_cycle hn
    cases crashed_of_advance ha with
    | overrun next | fatal next => cases hn.symm.trans next
    | stuck _ busy acyclic =>
      rw [show s.tables.scheduler.next.1.isIdle = _ from busy,
        show s.tables.scheduler.next.1.findCycle = _ from acyclic] at hor
      simp at hor

theorem Live.drive_error (h : s.Live) {fuel} {e} (hd : drive fuel s = .error e s') :
    e = .internal "analysis did not end" ∨ ∃ (s1 : Session) (task : TaskId), s1.Live ∧
      s1.tables.scheduler.next.2 = some task ∧ advance s1 = .error e s' := by
  have hspec := drive_spec fuel s
  rw [hd] at hspec
  obtain ⟨s1, hs1, ha | ⟨he, -⟩⟩ := hspec
  · have hlive := h.steps hs1
    cases hn : s1.tables.scheduler.next.2 with
    | some task => exact .inr ⟨s1, task, hlive, hn, ha⟩
    | none =>
      obtain ⟨more, s2, hok⟩ := hlive.advance_ok hn
      rw [ha] at hok
      cases hok
  · exact .inl he

end Session

/-! ## No task is lost -/

open Scheduler (Phase Reached Steps)

/-- In every state that the discipline reaches, a task that is not done is the one that runs, or stands
in the queues once, or waits for one that is not done either and knows it. What is done stays as it
is. So when nothing is ready, all is done or there is a circle; and the driver of a session never
finds tasks that wait for no reason: if it fails, then because of a task that it ran, or for lack of
fuel. -/
theorem no_task_lost :
    (∀ p s, Reached p s → ∀ t, s.Open t →
      p = .running t ∧ s.queue.count t = 0 ∨
      p ≠ .running t ∧ s.state t = .queued ∧ s.queue.count t = 1 ∨
      ∃ b, s.state t = .waiting b ∧ s.Open b ∧ t ∈ s.waiters b) ∧
    (∀ p s p' s', Reached p s → Steps (p, s) (p', s') → ∀ t, s.Has t → ¬ s.Open t →
      s'.state t = s.state t) ∧
    (∀ s, Reached .ready s → s.next.2 = none →
      s.next.1.isIdle = true ∨ s.next.1.findCycle.isSome = true) ∧
    (∀ s : Session, s.Live → s.tables.scheduler.next.2 = none →
      ∃ more s', s.advance = .ok more s') ∧
    ∀ (s s' : Session) (fuel : Nat) (e : Failure), s.Live → Session.drive fuel s = .error e s' →
      e = .internal "analysis did not end" ∨ ∃ (s1 : Session) (task : TaskId), s1.Live ∧
        s1.tables.scheduler.next.2 = some task ∧ s1.advance = .error e s' := by
  refine ⟨fun p s h t ht => ?_, fun p s p' s' h hsteps t hhas ht => ?_, fun s h hn => ?_,
    fun s h hn => h.advance_ok hn, fun s s' fuel e h hd => h.drive_error hd⟩
  · have ha := h.accounted
    have hcount := ha.queued t
    rcases Scheduler.open_iff.mp ht with hq | ⟨b, hb⟩
    · by_cases hp : p = .running t
      · rw [if_neg fun hn => hn.2 hp] at hcount
        exact .inl ⟨hp, hcount⟩
      · rw [if_pos ⟨hq, hp⟩] at hcount
        exact .inr (.inl ⟨hp, hq, hcount⟩)
    · exact .inr (.inr ⟨b, hb, ha.waiting t b hb⟩)
  · exact (h.accounted.steps_final hsteps hhas ht).2
  · exact h.accounted.idle_or_cycle hn

/-- Two globals, each of which is said to be the other. -/
def Session.twins : Session :=
  create .default .none ⟨#[
    ⟨.ident "b", ⟨0, 5, 6⟩⟩, ⟨.decl ⟨"a", none, some 0, false⟩, ⟨0, 0, 7⟩⟩,
    ⟨.ident "a", ⟨0, 13, 14⟩⟩, ⟨.decl ⟨"b", none, some 2, false⟩, ⟨0, 8, 15⟩⟩]⟩

/-- The twins are declared, and both are found to wait. -/
def Session.circular : Session :=
  stateAfter advance (stateAfter advance (stateAfter (declare [1, 3]) twins))

theorem Session.live_circular : circular.Live := by
  have hdeclare : Steps twins (stateAfter (declare [1, 3]) twins) := .single (.declare _ _)
  have hfirst := hdeclare.tail (.advanced (by decide +kernel))
  have hsecond := hfirst.tail (.advanced (by decide +kernel))
  exact ⟨_, _, _, hsecond⟩

def Scheduler.settled : Scheduler := (empty.submit (.eval 0)).1.next.1.resolve 0

theorem Scheduler.reached_settled : Reached .ready settled := by
  have hsubmit : Steps (.ready, empty) (.ready, (empty.submit (.eval 0)).1) := .single (.submit _)
  exact (hsubmit.tail (.take (by decide +kernel))).tail (.resolve 0)

/-- The first twin waits for the second, and the driver finds the circle. A settled task stays so when
another one comes. Without fuel the driver does not come far. -/
theorem no_task_lost_twins :
    (∃ b, Session.circular.tables.scheduler.state 0 = .waiting b ∧
      Session.circular.tables.scheduler.Open b ∧ 0 ∈ Session.circular.tables.scheduler.waiters b) ∧
    Session.circular.tables.scheduler.next.1.findCycle.isSome = true ∧
    (∃ more s', Session.circular.advance = .ok more s') ∧
    (Scheduler.settled.submit (.eval 1)).1.state 0 = .resolved ∧
    (Failure.internal "analysis did not end" = .internal "analysis did not end" ∨
      ∃ (s1 : Session) (task : TaskId), s1.Live ∧ s1.tables.scheduler.next.2 = some task ∧
        s1.advance = .error (.internal "analysis did not end") Session.circular) := by
  obtain ⟨hopen, hfinal, hidle, hadvance, hdrive⟩ := no_task_lost
  have hreached := Session.live_circular.reached
  have hnext : Session.circular.tables.scheduler.next.2 = none := by decide +kernel
  refine ⟨?_, ?_, hadvance _ Session.live_circular hnext, ?_, hdrive _ _ 0 _ Session.live_circular rfl⟩
  · have hstate : Session.circular.tables.scheduler.state 0 ≠ .queued := by decide +kernel
    rcases hopen _ _ hreached 0 (by decide +kernel) with ⟨h, -⟩ | ⟨-, h, -⟩ | h
    · cases h
    · exact absurd h hstate
    · exact h
  · have hbusy : Session.circular.tables.scheduler.next.1.isIdle = false := by decide +kernel
    rcases hidle _ hreached hnext with h | h
    · rw [hbusy] at h
      cases h
    · exact h
  · have hdone : Scheduler.settled.state 0 = .resolved := by decide +kernel
    rw [← hdone]
    exact hfinal _ _ _ _ Scheduler.reached_settled (.single (.submit _)) 0 (by decide +kernel)
      (by decide +kernel)

end Comptime
