import Comptime.Proofs.Schedule.Effort
import Comptime.Proofs.Schedule.Propagation

/-!
# The order of starts

A run of the driver leaves a history of what happened to its tasks (`Scheduler.History`). The history is
read off the states of the tasks, so it knows nothing of the queues and lists of the scheduler. From it
follows in which order tasks came in (`submissions`) and in which order they became ready again
(`readied`): when a task is resolved, those that were parked on it in the order in which they were parked.

The queues hold what has become ready and has not been started (`Scheduler.Ordered`). So tasks are started
for the first time in the order of their submission, and again in the order in which they became ready
again (`ready_order`).
-/

namespace Comptime.Scheduler

/-- What happens to a task. -/
inductive Event where
  | submitted (task : TaskId)
  | started (task : TaskId)
  /-- The run is put off until another task is done. -/
  | parked (task blocker : TaskId)
  /-- The run is to be repeated at once, as the other task is done already. -/
  | renewed (task : TaskId)
  | resolved (task : TaskId)
deriving DecidableEq

/-- What becomes of the task that is started or was running. -/
def turn (s : Scheduler) : Phase → Phase → List Event
  | .ready, .running t => [.started t]
  | .running t, .ready =>
    match s.state t with
    | .queued => [.renewed t]
    | .waiting b => [.parked t b]
    | .resolved => [.resolved t]
    | .failed => []
  | _, _ => []

/-- What happens in a step, as the states before and after it show. -/
def events (x y : Phase × Scheduler) : List Event :=
  if x.2.tasks.size < y.2.tasks.size then [.submitted x.2.tasks.nextId] else y.2.turn x.1 y.1

/-- The driver comes to a state, and this has happened on the way, the latest first. -/
inductive History : List Event → Phase × Scheduler → Prop
  | start : History [] (.ready, empty)
  | step {log : List Event} {x y : Phase × Scheduler} (before : History log x) (step : Step x y) :
    History (events x y ++ log) y

/-! ## What a history tells -/

/-- The tasks in the order of their submission. -/
def submissions : List Event → List TaskId
  | [] => []
  | .submitted t :: log => submissions log ++ [t]
  | _ :: log => submissions log

/-- The tasks in the order of their first starts. -/
def firstStarts : List Event → List TaskId
  | [] => []
  | .started t :: log => if .started t ∈ log then firstStarts log else firstStarts log ++ [t]
  | _ :: log => firstStarts log

/-- The tasks that were started again, in order. -/
def restarts : List Event → List TaskId
  | [] => []
  | .started t :: log => if .started t ∈ log then restarts log ++ [t] else restarts log
  | _ :: log => restarts log

/-- The tasks that were parked on a task, in order. -/
def parkedOn (b : TaskId) : List Event → List TaskId
  | [] => []
  | .parked t b' :: log => if b' = b then parkedOn b log ++ [t] else parkedOn b log
  | _ :: log => parkedOn b log

/-- The tasks that became ready again, in order. -/
def readied : List Event → List TaskId
  | [] => []
  | .renewed t :: log => readied log ++ [t]
  | .resolved b :: log => readied log ++ parkedOn b log
  | _ :: log => readied log

variable {p p' : Phase} {s s' : Scheduler} {t b : TaskId} {log : List Event}

theorem ids_eq (h : ∀ j, s'.Has j ↔ s.Has j) : s'.tasks.ids = s.tasks.ids :=
  congrArg (fun n => (List.range n).map Id.mk) (size_eq h)

theorem events_of_same (h : ∀ j, s'.Has j ↔ s.Has j) : events (p, s) (p', s') = s'.turn p p' :=
  if_neg (Nat.not_lt.mpr (size_eq h).le)

/-! ## What the queues hold -/

/-- The queues and lists of waiters hold what the history says. -/
structure Ordered (log : List Event) (s : Scheduler) : Prop where
  submitted : submissions log = s.tasks.ids
  fresh : firstStarts log ++ s.fresh = submissions log
  resumed : restarts log ++ s.resumed = readied log
  /-- What is done has no waiters any more. -/
  parked : ∀ b, (s.Has b → s.Open b) → s.waiters b = parkedOn b log
  started : ∀ t, .started t ∈ log ↔ 0 < s.runs t
  runs : ∀ t, s.Has t → (s.runs t = 0 ↔ t ∈ s.fresh)

theorem Ordered.empty : Ordered [] empty where
  submitted := rfl
  fresh := rfl
  resumed := rfl
  parked b _ := waiters_of_not_has (Nat.not_lt_zero _)
  started t := by
    rw [runs_of_not_has (Nat.not_lt_zero _)]
    simp
  runs t h := absurd h (Nat.not_lt_zero _)

theorem Ordered.same (h : Ordered log s) (has : ∀ j, s'.Has j ↔ s.Has j) (hfresh : s'.fresh = s.fresh)
    (hresumed : s'.resumed = s.resumed) (hruns : ∀ j, s'.runs j = s.runs j)
    (hparked : ∀ b, s'.Open b → s.Open b ∧ s'.waiters b = s.waiters b) : Ordered log s' where
  submitted := h.submitted.trans (ids_eq has).symm
  fresh := hfresh ▸ h.fresh
  resumed := hresumed ▸ h.resumed
  parked b hb := by
    by_cases hhas : s'.Has b
    · obtain ⟨hopen, hwait⟩ := hparked b (hb hhas)
      exact hwait.trans (h.parked b fun _ => hopen)
    · have hold : ¬ s.Has b := fun hold => hhas ((has b).mpr hold)
      rw [waiters_of_not_has hhas, ← h.parked b fun hb => absurd hb hold, waiters_of_not_has hold]
  started t := by rw [hruns, h.started]
  runs t ht := by rw [hruns, hfresh, h.runs t ((has t).mp ht)]

private theorem turn_self (s : Scheduler) (p) : s.turn p p = [] := by cases p <;> rfl

private theorem submit_of_new {k} (h : ¬ s.Has (s.submit k).2) :
    (s.submit k).2 = s.tasks.nextId ∧ (s.submit k).1.tasks.ids = s.tasks.ids ++ [s.tasks.nextId] ∧
      (s.submit k).1.fresh = s.fresh ++ [s.tasks.nextId] ∧ (s.submit k).1.resumed = s.resumed := by
  unfold Scheduler.submit at h ⊢
  split at h
  · next hf => exact absurd (find?_eq_some hf).1 h
  · refine ⟨rfl, ?_, rfl, rfl⟩
    simp [Pool.ids, Pool.push, Pool.nextId, List.range_succ]

theorem Ordered.submit (h : Ordered log s) (k) : Ordered (events (p, s) (p, (s.submit k).1) ++ log) (s.submit k).1 := by
  rcases submit_cases s k with ⟨-, he⟩ | ⟨t, hnew, ht, has, hstate, hwait, -⟩
  · rwa [he, events_of_same fun _ => .rfl, turn_self]
  obtain ⟨hid, hids, hfresh, hresumed⟩ := submit_of_new (ht ▸ hnew)
  obtain rfl : t = s.tasks.nextId := ht.symm.trans hid
  have hevents : events (p, s) (p, (s.submit k).1) = [.submitted s.tasks.nextId] := by
    have hlength := congrArg List.length hids
    simp only [Pool.ids, List.length_map, List.length_range, List.length_append, List.length_singleton] at hlength
    exact if_pos (show s.tasks.items.size < _ by simp only [Pool.size]; omega)
  rw [hevents]
  constructor
  · exact (congrArg (· ++ _) h.submitted).trans hids.symm
  · rw [hfresh, ← List.append_assoc]
    exact congrArg (· ++ _) h.fresh
  · exact hresumed ▸ h.resumed
  · intro b hb
    rw [hwait]
    refine h.parked b fun hold => ?_
    have hopen := hb ((has b).mpr (.inl hold))
    rwa [Open, hstate, if_neg hold.ne_nextId] at hopen
  · intro t
    rw [runs_submit]
    simpa using h.started t
  · intro t hhas
    rw [runs_submit, hfresh, List.mem_append, List.mem_singleton]
    rcases (has t).mp hhas with hold | rfl
    · rw [h.runs t hold, or_iff_left hold.ne_nextId]
    · simp [runs_of_not_has hnew]

/-! ## Starts -/

theorem Accounted.queued_of_mem (ha : Accounted p s) (ht : t ∈ s.queue) : s.state t = .queued := by
  have hcount := ha.queued t
  have hpos := List.count_pos_iff.mpr ht
  by_contra hq
  rw [if_neg fun h => hq h.1] at hcount
  omega

/-- No entry of the queues is stale, so the first one is taken. -/
theorem Accounted.take_cases (ha : Accounted p s) (h : s.next.2 = some t) :
    s.resumed = t :: s.next.1.resumed ∧ s.next.1.fresh = s.fresh ∨
      s.resumed = [] ∧ s.next.1.resumed = [] ∧ s.fresh = t :: s.next.1.fresh := by
  have hfirst {l : List TaskId} (hl : ∀ j ∈ l, j ∈ s.queue) : s.ready l = l.head?.map fun j => (j, l.tail) := by
    cases l with
    | nil => rfl
    | cons j l => exact if_pos (ha.queued_of_mem (hl j List.mem_cons_self))
  have hresumed := hfirst (l := s.resumed) fun j hj => List.mem_append_left _ hj
  have hfresh := hfirst (l := s.fresh) fun j hj => List.mem_append_right _ hj
  unfold next at h ⊢
  rw [hresumed, hfresh] at h ⊢
  cases hr : s.resumed with
  | cons j l =>
    rw [hr] at h
    cases h
    exact .inl ⟨rfl, rfl⟩
  | nil =>
    rw [hr] at h
    cases hf : s.fresh with
    | cons j l =>
      rw [hf] at h
      cases h
      exact .inr ⟨rfl, rfl, rfl⟩
    | nil =>
      rw [hf] at h
      cases h

theorem Accounted.stop_cases (ha : Accounted p s) (h : s.next.2 = none) :
    s.next.1.resumed = s.resumed ∧ s.next.1.fresh = s.fresh := by
  obtain ⟨hnone, hqueue⟩ := next_eq_none h
  have hempty : s.queue = [] := List.eq_nil_iff_forall_not_mem.mpr fun j hj => hnone j hj (ha.queued_of_mem hj)
  obtain ⟨hr, hf⟩ := List.append_eq_nil_iff.mp hempty
  obtain ⟨hr', hf'⟩ := List.append_eq_nil_iff.mp hqueue
  exact ⟨hr'.trans hr.symm, hf'.trans hf.symm⟩

theorem Accounted.not_mem_fresh (ha : Accounted p s) (ht : t ∈ s.resumed) : t ∉ s.fresh := by
  intro hf
  have hcount := ha.queued t
  rw [queue, List.count_append] at hcount
  have hr := List.count_pos_iff.mpr ht
  have hf := List.count_pos_iff.mpr hf
  split at hcount <;> omega

theorem Ordered.take (h : Ordered log s) (ha : Accounted .ready s) (ht : s.next.2 = some t) :
    Ordered (events (.ready, s) (.running t, s.next.1) ++ log) s.next.1 := by
  have hhas : s.Has t := has_of_state_ne (by rw [(next_eq_some ht).1]; simp)
  have hruns := runs_next ht
  rw [events_of_same (has_next s)]
  change Ordered (.started t :: log) s.next.1
  have hsubmitted : submissions (.started t :: log) = s.next.1.tasks.ids :=
    h.submitted.trans (ids_eq (has_next s)).symm
  have hparked (b : TaskId) (hb : s.next.1.Has b → s.next.1.Open b) : s.next.1.waiters b = parkedOn b (.started t :: log) := by
    rw [waiters_next]
    refine h.parked b fun hold => ?_
    have hopen := hb ((has_next s b).mpr hold)
    rwa [Open, state_next] at hopen
  have hstarted (j : TaskId) : .started j ∈ Event.started t :: log ↔ 0 < s.next.1.runs j := by
    rw [List.mem_cons, hruns, h.started]
    split
    · next he => simp [he]
    · next hne => simp [hne]
  rcases ha.take_cases ht with ⟨hresumed, hfresh⟩ | ⟨hnone, hresumed, hfresh⟩
  · -- the task was started before
    have hnot : t ∉ s.fresh := ha.not_mem_fresh (hresumed ▸ List.mem_cons_self)
    have hbefore : .started t ∈ log := by
      rw [h.started]
      exact Nat.pos_of_ne_zero fun he => hnot ((h.runs t hhas).mp he)
    refine ⟨hsubmitted, ?_, ?_, hparked, hstarted, fun j hj => ?_⟩
    · rw [firstStarts, if_pos hbefore, hfresh]
      exact h.fresh
    · rw [restarts, if_pos hbefore, List.append_assoc, List.singleton_append, ← hresumed]
      exact h.resumed
    · rw [hruns, hfresh, ← h.runs j ((has_next s j).mp hj)]
      split
      · next he =>
        subst he
        rw [h.runs j hhas]
        simp [hnot]
      · rfl
  · have hnew : .started t ∉ log := by
      rw [h.started, (h.runs t hhas).mpr (hfresh ▸ List.mem_cons_self)]
      simp
    refine ⟨hsubmitted, ?_, ?_, hparked, hstarted, fun j hj => ?_⟩
    · rw [firstStarts, if_neg hnew, List.append_assoc, List.singleton_append, ← hfresh]
      exact h.fresh
    · rw [restarts, if_neg hnew, hresumed, ← hnone]
      exact h.resumed
    · rw [hruns]
      split
      · next he =>
        subst he
        -- it stood in the queue once
        have hcount := ha.queued j
        rw [queue, hfresh, List.count_append, List.count_cons_self] at hcount
        have hzero : s.next.1.fresh.count j = 0 := by split at hcount <;> omega
        simp [List.count_eq_zero.mp hzero]
      · next hne =>
        rw [h.runs j ((has_next s j).mp hj), hfresh, List.mem_cons, or_iff_right hne]

/-! ## Ends of runs -/

private theorem foldl_wake_queues (ws : List TaskId) (s : Scheduler) (hnodup : ws.Nodup) (hws : ∀ w ∈ ws, s.Waits w b) :
    (ws.foldl (wake b) s).resumed = s.resumed ++ ws ∧ (ws.foldl (wake b) s).fresh = s.fresh := by
  induction ws generalizing s with
  | nil => simp
  | cons w ws ih =>
    obtain ⟨hw, hws⟩ := List.forall_mem_cons.mp hws
    obtain ⟨hnew, hnodup⟩ := List.nodup_cons.mp hnodup
    have hwake : wake b s w = { s.setState w .queued with resumed := s.resumed ++ [w] } := if_pos hw
    obtain ⟨hresumed, hfresh⟩ := ih (wake b s w) hnodup fun x hx => by
      rw [hwake]
      refine (state_setState x _ hw.has).trans ?_
      rw [if_neg fun (he : x = w) => hnew (he ▸ hx)]
      exact hws x hx
    rw [List.foldl_cons, hresumed, hfresh, hwake]
    simp [setState]

theorem Ordered.resolve (h : Ordered log s) (ha : Accounted (.running t) s) :
    Ordered (events (.running t, s) (.ready, s.resolve t) ++ log) (s.resolve t) := by
  have ht : s.state t = .queued := ha.running t rfl
  have hopen : s.Open t := open_iff.mpr (.inl ht)
  obtain ⟨has, hwait, hstate, -⟩ := resolve_spec hopen.has
  have hqueues : (s.resolve t).resumed = s.resumed ++ s.waiters t ∧ (s.resolve t).fresh = s.fresh := by
    refine foldl_wake_queues (s.waiters t) _ (ha.nodup t) fun w hw => ?_
    have hwaits := ha.listed t w hw
    rw [Waits, state, task, Pool.getD_modify_of_ne (ha.ne_of_waits hwaits)]
    exact hwaits
  rw [events_of_same has, turn, hstate, if_pos rfl]
  constructor
  · exact h.submitted.trans (ids_eq has).symm
  · exact hqueues.2 ▸ h.fresh
  · rw [hqueues.1, h.parked t fun _ => hopen, ← List.append_assoc]
    exact congrArg (· ++ _) h.resumed
  · intro b hb
    have hbt : b ≠ t := by
      rintro rfl
      have hb := hb ((has b).mpr hopen.has)
      rw [Open, hstate, if_pos rfl] at hb
      cases hb
    rw [hwait, if_neg hbt]
    refine h.parked b fun hold => ?_
    have hb := hb ((has b).mpr hold)
    rw [Open, hstate, if_neg hbt] at hb
    split at hb
    · next hw => exact open_iff.mpr (.inr ⟨t, hw.2⟩)
    · exact hb
  · intro j
    rw [runs_resolve]
    simpa using h.started j
  · intro j hj
    rw [runs_resolve, hqueues.2, h.runs j ((has j).mp hj)]

theorem Ordered.fail (h : Ordered log s) (t) : Ordered log (s.fail t).1 := by
  have hf := s.fail_fails t
  refine h.same hf.has hf.fresh hf.resumed (fun j => runs_fail s t j) fun b hb => ?_
  have hne : (s.fail t).1.state b ≠ .failed := fun he => by
    rw [Open, he] at hb
    cases hb
  obtain ⟨hstate, hwait⟩ := hf.kept b hne
  exact ⟨by rwa [Open, hstate] at hb, hwait⟩

theorem Ordered.park_of_open (h : Ordered log s) (ha : Accounted (.running t) s) (hb : s.Open b) :
    Ordered (events (.running t, s) (.ready, s.park t b) ++ log) (s.park t b) := by
  have ht : s.state t = .queued := ha.running t rfl
  have hqueues : (s.park t b).resumed = s.resumed ∧ (s.park t b).fresh = s.fresh := by
    unfold Scheduler.park
    rcases open_iff.mp hb with hb | ⟨c, hb⟩ <;> rw [hb] <;> exact ⟨rfl, rfl⟩
  obtain ⟨has, -, hstate, hwait⟩ := Scheduler.park_of_open (has_of_state_ne (by simp [ht]) : s.Has t) hb
  rw [events_of_same has, turn, hstate, if_pos rfl]
  constructor
  · exact h.submitted.trans (ids_eq has).symm
  · exact hqueues.2 ▸ h.fresh
  · exact hqueues.1 ▸ h.resumed
  · intro c hc
    have hold : s.Has c → s.Open c := fun hold => by
      have hc := hc ((has c).mpr hold)
      rw [Open, hstate] at hc
      split at hc
      · next he => exact open_iff.mpr (.inl (he ▸ ht))
      · exact hc
    rw [hwait, List.singleton_append, parkedOn]
    by_cases he : c = b
    · rw [if_pos he, if_pos he.symm, h.parked b fun _ => hb, he]
    · rw [if_neg he, if_neg (Ne.symm he), h.parked c hold]
  · intro j
    rw [runs_park]
    simpa using h.started j
  · intro j hj
    rw [runs_park, hqueues.2, h.runs j ((has j).mp hj)]

theorem Ordered.park (h : Ordered log s) (ha : Accounted (.running t) s) :
    Ordered (events (.running t, s) (.ready, s.park t b) ++ log) (s.park t b) := by
  have ht : s.state t = .queued := ha.running t rfl
  by_cases hopen : s.Open b
  · exact h.park_of_open ha hopen
  rw [events_of_same fun _ => has_park, turn]
  rcases not_open_iff.mp hopen with hb | hb <;> rw [Scheduler.park, hb]
  · rw [show ({ s with resumed := s.resumed ++ [t] } : Scheduler).state t = .queued from ht]
    refine ⟨h.submitted, h.fresh, ?_, h.parked, fun j => ?_, h.runs⟩
    · exact (List.append_assoc ..).symm.trans (congrArg (· ++ _) h.resumed)
    · rw [List.singleton_append, List.mem_cons, or_iff_right (by simp)]
      exact h.started j
  · rw [(s.fail_fails t).stacked t List.mem_cons_self]
    exact h.fail t

/-! ## Runs -/

theorem Ordered.step (h : Ordered log s) (ha : Accounted p s) (hs : Step (p, s) (p', s')) :
    Ordered (events (p, s) (p', s') ++ log) s' := by
  cases hs with
  | submit k => exact h.submit k
  | take ht => exact h.take ha ht
  | stop hn =>
    rw [events_of_same (has_next s)]
    obtain ⟨hresumed, hfresh⟩ := ha.stop_cases hn
    refine h.same (has_next s) hfresh hresumed (runs_next_none hn) fun b hb => ⟨?_, waiters_next s b⟩
    rwa [Open, state_next] at hb
  | resolve t => exact h.resolve ha
  | fail t =>
    rw [events_of_same (s.fail_fails t).has, turn, (s.fail_fails t).stacked t List.mem_cons_self]
    exact h.fail t
  | park t => exact h.park ha
  | failMember m ms =>
    rw [events_of_same (s.fail_fails m).has]
    exact h.fail m
  | again | cycle | broken =>
    rw [events_of_same fun _ => .rfl]
    exact h

theorem History.reached {y : Phase × Scheduler} (h : History log y) : Steps (.ready, empty) y := by
  induction h with
  | start => exact .refl
  | step _ hs ih => exact ih.tail hs

theorem History.ordered {y : Phase × Scheduler} (h : History log y) : Ordered log y.2 := by
  induction h with
  | start => exact .empty
  | step before hs ih => exact ih.step (Reached.accounted before.reached) hs

/-- Tasks are started for the first time in the order of their submission, which is the order of their
ids. A task is started for the first time only when none is ready that was started before. And tasks are
started again in the order in which they became ready again. -/
theorem ready_order (h : History log (p, s)) :
    (submissions log).Pairwise (fun a b => a.index < b.index) ∧ firstStarts log <+: submissions log ∧
      (p = .ready → ∀ t, s.next.2 = some t → s.runs t = 0 → ∀ j, s.state j = .queued → s.runs j = 0) ∧
      restarts log <+: readied log := by
  have ho := h.ordered
  have ha : Accounted p s := Reached.accounted h.reached
  refine ⟨?_, ⟨_, ho.fresh⟩, fun hp t ht hruns j hj => ?_, ⟨_, ho.resumed⟩⟩
  · rw [ho.submitted]
    rw [Pool.ids, List.pairwise_map]
    exact List.pairwise_lt_range
  · subst hp
    have hin : j ∈ s.queue := by
      have hcount := ha.queued j
      rw [if_pos ⟨hj, by simp⟩] at hcount
      exact List.count_pos_iff.mp (by omega)
    have hhas {i : TaskId} (hi : s.state i = .queued) : s.Has i := has_of_state_ne (by rw [hi]; simp)
    have hfresh := (ho.runs t (hhas (next_eq_some ht).1)).mp hruns
    rcases ha.take_cases ht with ⟨hresumed, -⟩ | ⟨hnone, -, -⟩
    · exact absurd hfresh (ha.not_mem_fresh (hresumed ▸ List.mem_cons_self))
    · rw [queue, hnone, List.nil_append] at hin
      exact (ho.runs j (hhas hj)).mpr hin

/-- Three tasks of which the first was parked on the second, which is resolved. -/
def relay : Scheduler :=
  let s := (((empty.submit (.eval 0)).1.submit (.eval 1)).1.submit (.eval 2)).1
  (s.next.1.park 0 1).next.1.resolve 1

private theorem history_relay : ∃ log, History log (.ready, relay) := by
  have hsubmit := ((History.start.step (.submit (.eval 0))).step (.submit (.eval 1))).step (.submit (.eval 2))
  have hfirst := (hsubmit.step (.take (t := 0) (by decide +kernel))).step (.park 0 (b := 1) (by decide +kernel))
  exact ⟨_, (hfirst.step (.take (t := 1) (by decide +kernel))).step (.resolve 1)⟩

/-- The first task is ready again, so the third is not started before it. -/
theorem ready_order_relay : ∃ log, History log (.ready, relay) ∧ firstStarts log <+: submissions log ∧
    restarts log <+: readied log ∧ relay.state 0 = .queued ∧ relay.next.2 ≠ some 2 := by
  obtain ⟨log, h⟩ := history_relay
  obtain ⟨-, hfirst, hnew, hagain⟩ := ready_order h
  have hready : relay.state 0 = .queued := by decide +kernel
  refine ⟨log, h, hfirst, hagain, hready, fun hnext => ?_⟩
  exact absurd (hnew rfl 2 hnext (by decide +kernel) 0 hready) (by decide +kernel)

end Comptime.Scheduler
