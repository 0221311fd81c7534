import Comptime.Proofs.Schedule.Cycle
import Comptime.Proofs.Schedule.Fail

/-!
# The discipline of the driver

The operations of the scheduler are not called in any order. The driver takes the next task only
when none is running, ends every run with exactly one of resolving, failing or parking the task, and
fails the members of a circle only after nothing was ready. `Scheduler.Step` is that discipline, as
steps between a scheduler with the driver's `Phase`. Tasks may be submitted at any time.

`Scheduler.Accounted` is what every step keeps: no task gets lost, and whoever stands in a list of waiters
waits for its owner. A task that waits fails only together with the one it waits for, since the driver
fails a waiting task only as part of a circle. `Reached.accounted` carries all this to every state that the
discipline reaches from the empty scheduler.
-/

namespace Comptime.Scheduler

/-- What the driver is about. -/
inductive Phase where
  /-- It may take the next task. -/
  | ready
  /-- It runs a task. -/
  | running (task : TaskId)
  /-- Nothing was ready. -/
  | stuck
  /-- It fails the tasks of a circle. -/
  | breaking (members : List TaskId)
deriving DecidableEq

/-- One step of the driver. -/
inductive Step : Phase × Scheduler → Phase × Scheduler → Prop
  | submit {p : Phase} {s : Scheduler} (k : TaskKind) : Step (p, s) (p, (s.submit k).1)
  | take {s : Scheduler} {t : TaskId} (h : s.next.2 = some t) :
    Step (.ready, s) (.running t, s.next.1)
  | stop {s : Scheduler} (h : s.next.2 = none) : Step (.ready, s) (.stuck, s.next.1)
  | resolve {s : Scheduler} (t : TaskId) : Step (.running t, s) (.ready, s.resolve t)
  | fail {s : Scheduler} (t : TaskId) : Step (.running t, s) (.ready, (s.fail t).1)
  | park {s : Scheduler} (t : TaskId) {b : TaskId} (h : s.Has b) :
    Step (.running t, s) (.ready, s.park t b)
  | again {s : Scheduler} : Step (.stuck, s) (.ready, s)
  | cycle {s : Scheduler} {ms : List TaskId} (h : s.findCycle = some ms) :
    Step (.stuck, s) (.breaking ms, s)
  | failMember {s : Scheduler} (m : TaskId) (ms : List TaskId) :
    Step (.breaking (m :: ms), s) (.breaking ms, (s.fail m).1)
  | broken {s : Scheduler} : Step (.breaking [], s) (.ready, s)

abbrev Steps : Phase × Scheduler → Phase × Scheduler → Prop := Relation.ReflTransGen Step

def Reached (p : Phase) (s : Scheduler) : Prop := Steps (.ready, empty) (p, s)

/-- Every task is accounted for. -/
structure Accounted (p : Phase) (s : Scheduler) : Prop where
  /-- A queued task stands in the queues once, or is the one that runs. -/
  queued : ∀ t, s.queue.count t = if s.state t = .queued ∧ p ≠ .running t then 1 else 0
  running : ∀ t, p = .running t → s.state t = .queued
  /-- A waiting task waits for an open one, which knows it. -/
  waiting : ∀ t b, s.state t = .waiting b → s.Open b ∧ t ∈ s.waiters b
  /-- Whoever stands in a list of waiters waits for its owner, and stands there once. -/
  listed : ∀ b w, w ∈ s.waiters b → s.Waits w b
  nodup : ∀ b, (s.waiters b).Nodup
  /-- A circle is broken as a whole: of its members either none has failed or all. -/
  breaking : ∀ ms, p = .breaking ms → ∀ m ∈ ms, s.Has m ∧ (s.state m = .failed ∨ s.OnCycle m)

theorem Accounted.empty : Accounted .ready empty where
  queued t := by
    have h : Scheduler.empty.state t = .failed := state_of_not_has (Nat.not_lt_zero _)
    rw [h, if_neg (by simp)]
    rfl
  running t h := by cases h
  waiting t b h := by
    rw [state_of_not_has (Nat.not_lt_zero _)] at h
    cases h
  listed b w h := by
    rw [waiters_of_not_has (Nat.not_lt_zero _)] at h
    cases h
  nodup b := by
    rw [waiters_of_not_has (Nat.not_lt_zero _)]
    exact List.nodup_nil
  breaking ms h := by cases h

section

variable {p p' : Phase} {s s' : Scheduler} {t a b : TaskId} {ms : List TaskId}

/-! ## What one step keeps -/

theorem OnCycle.same (h : s.OnCycle t) (hwaits : ∀ a b, s.Depends t a → s.Waits a b → s'.Waits a b) :
    s'.OnCycle t := by
  have hpath {j : TaskId} (hj : s.Depends t j) : s'.Depends t j := by
    induction hj with
    | refl => exact .refl
    | tail hx hxy ih => exact ih.tail (hwaits _ _ hx hxy)
  obtain ⟨c, htc, hct⟩ := Relation.TransGen.tail'_iff.mp h
  exact Relation.TransGen.tail'_iff.mpr ⟨c, hpath htc, hwaits c t htc hct⟩

theorem Accounted.same (h : Accounted p s) (hhas : ∀ j, s.Has j → s'.Has j)
    (hstate : ∀ j, s.Has j → s'.state j = s.state j) (hold : ∀ a b, s'.Waits a b → s.Has a)
    (hwait : ∀ j, s'.waiters j = s.waiters j)
    (hqueue : ∀ j, s'.queue.count j = if s'.state j = .queued ∧ p' ≠ .running j then 1 else 0)
    (hrun : ∀ t, p' = .running t → s.state t = .queued)
    (hbreak : ∀ ms, p' = .breaking ms → ∀ m ∈ ms, s.Has m ∧ (s.state m = .failed ∨ s.OnCycle m)) :
    Accounted p' s' := by
  have hwaits (a b : TaskId) (hab : s.Waits a b) : s'.Waits a b := (hstate a hab.has).trans hab
  refine ⟨hqueue, fun t ht => ?_, fun a b hab => ?_, fun b w hw => ?_, fun b => ?_, fun ms hms m hm => ?_⟩
  · have hq := hrun t ht
    rw [hstate t (has_of_state_ne (by simp [hq])), hq]
  · obtain ⟨hb, ha⟩ := h.waiting a b ((hstate a (hold a b hab)).symm.trans hab)
    rw [Open, hstate b hb.has, hwait]
    exact ⟨hb, ha⟩
  · rw [hwait] at hw
    exact hwaits w b (h.listed b w hw)
  · rw [hwait]
    exact h.nodup b
  · obtain ⟨hhas', hm⟩ := hbreak ms hms m hm
    rw [hstate m hhas']
    exact ⟨hhas m hhas', hm.imp_right fun hc => hc.same fun a b _ => hwaits a b⟩

theorem Accounted.submit (h : Accounted p s) (k) : Accounted p (s.submit k).1 := by
  rcases submit_cases s k with ⟨-, hs⟩ | ⟨t, hnew, -, hhas, hstate, hwait, hqueue⟩
  · rw [hs]
    exact h
  -- The new id named no task, so nothing that is known of the old tasks is about it.
  refine h.same (fun j hj => (hhas j).mpr (.inl hj)) (fun j hj => ?_) (fun a b hab => ?_) hwait (fun j => ?_) h.running
    h.breaking
  · rw [hstate, if_neg fun (e : j = t) => hnew (e ▸ hj)]
  · rw [Waits, hstate] at hab
    split at hab
    · cases hab
    · exact has_of_state_ne (by simp [hab])
  · rw [hqueue, List.count_append, h.queued, hstate, List.count_singleton]
    by_cases hj : j = t
    · subst hj
      have hrun : p ≠ .running j := fun hp => by
        have := h.running j hp
        rw [state_of_not_has hnew] at this
        cases this
      simp [state_of_not_has hnew, hrun]
    · simp [hj, Ne.symm hj]

theorem Accounted.ofNext (h : Accounted p s)
    (hqueue : ∀ j, s.next.1.queue.count j = if s.state j = .queued ∧ p' ≠ .running j then 1 else 0)
    (hrun : ∀ t, p' = .running t → s.state t = .queued) (hp' : ∀ ms, p' ≠ .breaking ms) : Accounted p' s.next.1 := by
  refine h.same (fun j => (has_next s j).mpr) (fun j _ => state_next s j) (fun a b hab => ?_) (waiters_next s)
    (fun j => by rw [hqueue, state_next]) hrun fun ms hms => absurd hms (hp' ms)
  rw [Waits, state_next] at hab
  exact has_of_state_ne (by simp [hab])

theorem Accounted.phase (h : Accounted p s) (hp : ∀ j, p ≠ .running j) (hp' : ∀ j, p' ≠ .running j)
    (hbreak : ∀ ms, p' = .breaking ms → ∀ m ∈ ms, s.Has m ∧ (s.state m = .failed ∨ s.OnCycle m)) : Accounted p' s :=
  ⟨fun j => by simpa [hp, hp'] using h.queued j, fun t ht => absurd ht (hp' t), h.waiting, h.listed, h.nodup, hbreak⟩

theorem Accounted.take (h : Accounted .ready s) (ht : s.next.2 = some t) : Accounted (.running t) s.next.1 := by
  obtain ⟨hq, stale, hqueue, hstale⟩ := next_eq_some ht
  refine h.ofNext (fun j => ?_) ?_ (by simp)
  · -- Nothing queued stood before the task, and the task stood in the queues once.
    have hcount := h.queued j
    simp only [hqueue, List.count_append, List.count_cons, beq_iff_eq, ne_eq, reduceCtorEq,
      not_false_eq_true, and_true] at hcount
    by_cases hs : s.state j = .queued
    · have hn : stale.count j = 0 := List.count_eq_zero.mpr fun hm => hstale j hm hs
      by_cases hj : t = j <;> simp [hs, hn, hj] at hcount ⊢ <;> omega
    · simp only [hs, false_and, if_false] at hcount ⊢
      omega
  · rintro j ⟨⟩
    exact hq

theorem Accounted.not_queued (h : Accounted .ready s) (hn : s.next.2 = none) (j) : s.state j ≠ .queued := by
  intro hs
  have hc := h.queued j
  rw [if_pos ⟨hs, by simp⟩] at hc
  exact (next_eq_none hn).1 j (List.count_pos_iff.mp (by omega)) hs

theorem Accounted.stop (h : Accounted .ready s) (hn : s.next.2 = none) : Accounted .stuck s.next.1 := by
  refine h.ofNext (fun j => ?_) (by simp) (by simp)
  rw [(next_eq_none hn).2, if_neg fun hj => h.not_queued hn j hj.1]
  rfl

section

variable (h : Accounted p s)

include h

theorem Accounted.not_failed_of_waits (hab : s.Waits a b) : s.state b ≠ .failed := by
  intro he
  have hb := (h.waiting a b hab).1
  rw [Open, he] at hb
  cases hb

theorem Accounted.failed_of_depends (hd : s.Depends a b) (hb : (s.fail t).1.state b = .failed) :
    (s.fail t).1.state a = .failed := by
  induction hd using Relation.ReflTransGen.head_induction_on with
  | refl => exact hb
  | @head x y hxy _ ih =>
    exact (s.fail_fails t).closed y x (h.not_failed_of_waits hxy) ih (h.waiting x y hxy).2

/-- Of the tasks that may fail none waits for a task that does not fail. -/
theorem Accounted.waits_fail (ht : s.state t = .queued ∨ s.state t = .failed ∨ s.OnCycle t)
    (hab : s.Waits a b) (hb : (s.fail t).1.state b ≠ .failed) : (s.fail t).1.Waits a b := by
  have hf := s.fail_fails t
  refine (hf.kept a fun hfailed => hb ?_).1.trans hab
  have hne : s.state a ≠ .failed := by rw [hab]; simp
  rcases hf.caused a hne hfailed with hin | ⟨b', hin, hb'⟩
  · obtain rfl := List.mem_singleton.mp hin
    rcases ht with hq | hq | hc
    · rw [hab] at hq
      cases hq
    · exact absurd hq hne
    · obtain ⟨b', hab', hback⟩ := onCycle_iff.mp hc
      exact h.failed_of_depends (hab.unique hab' ▸ hback) (hf.stacked a hin)
  · rwa [hab.unique (h.listed b' a hin)]

theorem Accounted.listed_fail (ht : s.state t = .queued ∨ s.state t = .failed ∨ s.OnCycle t) {w}
    (hw : w ∈ (s.fail t).1.waiters b) : (s.fail t).1.Waits w b := by
  rw [(s.fail_fails t).listed] at hw
  split at hw
  · cases hw
  · next hn =>
    have hwb := h.listed b w hw
    exact h.waits_fail ht hwb fun hb => hn ⟨h.not_failed_of_waits hwb, hb⟩

theorem Accounted.fail
    (ht : p = .running t ∨ (∀ j, p ≠ .running j) ∧ (s.state t = .failed ∨ s.OnCycle t)) (hp' : ∀ j, p' ≠ .running j)
    (hbreak : ∀ ms, p' = .breaking ms → ∀ m ∈ ms, s.Has m ∧ (s.state m = .failed ∨ s.OnCycle m)) :
    Accounted p' (s.fail t).1 := by
  have hf := s.fail_fails t
  have hmay : s.state t = .queued ∨ s.state t = .failed ∨ s.OnCycle t := ht.imp (h.running t) And.right
  -- what fails stood in no queue
  have hqueued {j : TaskId} (hq : s.state j = .queued) : (s.fail t).1.state j = .failed ↔ p = .running j := by
    refine ⟨fun hj => ?_, fun hr => ?_⟩
    · rcases hf.caused j (by simp [hq]) hj with hin | ⟨b, hin, -⟩
      · obtain rfl := List.mem_singleton.mp hin
        refine ht.resolve_right fun ⟨_, hfc⟩ => ?_
        rcases hfc with hfc | hc
        · rw [hq] at hfc
          cases hfc
        · obtain ⟨b, hb, -⟩ := onCycle_iff.mp hc
          rw [Waits, hq] at hb
          cases hb
      · have hw := h.listed b j hin
        rw [Waits, hq] at hw
        cases hw
    · rcases ht with ht | ⟨hn, -⟩
      · cases ht.symm.trans hr
        exact hf.stacked t List.mem_cons_self
      · exact absurd hr (hn j)
  constructor
  · intro j
    rw [hf.queue, h.queued]
    by_cases hj : (s.fail t).1.state j = .failed
    · rw [if_neg fun hq => hq.2 ((hqueued hq.1).mp hj), hj, if_neg (by simp)]
    · rw [(hf.kept j hj).1]
      refine if_congr (and_congr_right fun hq => ?_) rfl rfl
      exact iff_of_true (fun hr => hj ((hqueued hq).mpr hr)) (hp' j)
  · intro j hj
    exact absurd hj (hp' j)
  · intro j b hj
    have hne : (s.fail t).1.state j ≠ .failed := by simp [hj]
    have hjb : s.Waits j b := (hf.kept j hne).1.symm.trans hj
    obtain ⟨hb, hm⟩ := h.waiting j b hjb
    -- Had the blocker failed, so would the waiter that it knows.
    obtain ⟨hbs, hbw⟩ := hf.kept b fun hbf => hne (hf.closed b j (h.not_failed_of_waits hjb) hbf hm)
    rw [Open, hbs, hbw]
    exact ⟨hb, hm⟩
  · exact fun b w hw => h.listed_fail hmay hw
  · intro b
    rw [hf.listed]
    split
    · exact List.nodup_nil
    · exact h.nodup b
  · intro ms hms m hm
    obtain ⟨hhas, hm⟩ := hbreak ms hms m hm
    refine ⟨(hf.has m).mpr hhas, ?_⟩
    rcases hm with hfailed | hc
    · exact .inl (hf.failed hfailed)
    · by_cases hfailed : (s.fail t).1.state m = .failed
      · exact .inl hfailed
      · -- what fails takes along all that depend on it
        refine .inr (hc.same fun a b hma hab => h.waits_fail hmay hab fun hb => hfailed ?_)
        exact h.failed_of_depends (hma.tail hab) hb

end

theorem Accounted.ne_of_waits (h : Accounted (.running t) s) (hab : s.Waits a b) : a ≠ t := by
  rintro rfl
  have hq := h.running a rfl
  rw [hab] at hq
  cases hq

theorem Accounted.resolve (h : Accounted (.running t) s) : Accounted .ready (s.resolve t) := by
  have ht : s.state t = .queued := h.running t rfl
  obtain ⟨-, hwait, hstate, hqueue⟩ := resolve_spec (has_of_state_ne (by simp [ht]) : s.Has t)
  constructor
  · intro j
    rw [hqueue, h.queued, hstate]
    by_cases hj : j = t
    · simp [hj]
    · by_cases hw : j ∈ s.waiters t ∧ s.state j = .waiting t
      · simp [hj, hw]
      · simp [hj, hw, Ne.symm hj]
  · intro j hj
    cases hj
  · intro j b hj
    rw [hstate] at hj
    split at hj
    · cases hj
    · split at hj
      · cases hj
      · next hjt hw =>
        obtain ⟨hb, hm⟩ := h.waiting j b hj
        -- A task that waited for the resolved one would have been woken.
        have hbt : b ≠ t := by
          rintro rfl
          exact hw ⟨hm, hj⟩
        rw [Open, hstate, hwait, if_neg hbt, if_neg hbt]
        refine ⟨?_, hm⟩
        split
        · rfl
        · exact hb
  · intro b w hw
    rw [hwait] at hw
    split at hw
    · cases hw
    · next hbt =>
      have hwb := h.listed b w hw
      rw [Waits, hstate, if_neg (h.ne_of_waits hwb), if_neg, hwb]
      rintro ⟨-, hw⟩
      exact hbt (hwb.unique hw)
  · intro b
    rw [hwait]
    split
    · exact List.nodup_nil
    · exact h.nodup b
  · intro ms hms
    cases hms

theorem Accounted.park_of_open (h : Accounted (.running t) s) (hb : s.Open b) : Accounted .ready (s.park t b) := by
  have ht : s.state t = .queued := h.running t rfl
  obtain ⟨-, hqueue, hstate, hwait⟩ := Scheduler.park_of_open (has_of_state_ne (by simp [ht]) : s.Has t) hb
  -- the task that runs waits for nothing so far
  have hnew (b) : t ∉ s.waiters b := fun hin => h.ne_of_waits (h.listed b t hin) rfl
  have hopen {c : TaskId} (hc : s.Open c) : (s.park t b).Open c := by
    rw [Open, hstate]
    split
    · rfl
    · exact hc
  constructor
  · intro j
    rw [hqueue, h.queued, hstate]
    by_cases hj : j = t
    · simp [hj]
    · simp [hj, Ne.symm hj]
  · intro j hj
    cases hj
  · intro j c hj
    rw [hstate] at hj
    rw [hwait]
    split at hj
    · next hjt =>
      cases hj
      exact ⟨hopen hb, by simp [hjt]⟩
    · obtain ⟨hc, hm⟩ := h.waiting j c hj
      refine ⟨hopen hc, ?_⟩
      split
      · next hcb => exact List.mem_append_left _ (hcb ▸ hm)
      · exact hm
  · intro c w hw
    rw [hwait] at hw
    rw [Waits, hstate]
    split at hw
    · next hcb =>
      rcases List.mem_append.mp hw with hw | hw
      · rw [if_neg fun (he : w = t) => hnew b (he ▸ hw), hcb]
        exact h.listed b w hw
      · rw [if_pos (List.mem_singleton.mp hw), hcb]
    · rw [if_neg fun (he : w = t) => hnew c (he ▸ hw)]
      exact h.listed c w hw
  · intro c
    rw [hwait]
    split
    · refine List.nodup_append.mpr ⟨h.nodup b, by simp, fun x hx y hy he => hnew b ?_⟩
      rwa [← List.mem_singleton.mp hy, ← he]
    · exact h.nodup c
  · intro ms hms
    cases hms

theorem Accounted.park (h : Accounted (.running t) s) (b) : Accounted .ready (s.park t b) := by
  have ht : s.state t = .queued := h.running t rfl
  cases hb : s.state b with
  | resolved =>
    -- The task stands in the queues again.
    have hp : s.park t b = { s with resumed := s.resumed ++ [t] } := by rw [Scheduler.park, hb]
    rw [hp]
    refine ⟨fun j => ?_, by simp, h.waiting, h.listed, h.nodup, by simp⟩
    have hcount := h.queued j
    simp only [queue, List.count_append, List.count_singleton, beq_iff_eq] at hcount ⊢
    rw [show ({ s with resumed := s.resumed ++ [t] } : Scheduler).state j = s.state j from rfl]
    by_cases hj : t = j
    · subst hj
      simp [ht] at hcount ⊢
      omega
    · simp [hj] at hcount ⊢
      omega
  | failed =>
    have hp : s.park t b = (s.fail t).1 := by rw [Scheduler.park, hb]
    rw [hp]
    exact h.fail (.inl rfl) (by simp) (by simp)
  | queued => exact h.park_of_open (open_iff.mpr (.inl hb))
  | waiting c => exact h.park_of_open (open_iff.mpr (.inr ⟨c, hb⟩))

/-! ## Runs -/

theorem Accounted.step (h : Accounted p s) (hs : Step (p, s) (p', s')) : Accounted p' s' := by
  cases hs with
  | submit k => exact h.submit k
  | take ht => exact h.take ht
  | stop hn => exact h.stop hn
  | resolve t => exact h.resolve
  | fail t => exact h.fail (.inl rfl) (by simp) (by simp)
  | park t => exact h.park _
  | again => exact h.phase (by simp) (by simp) (by simp)
  | cycle hc =>
    refine h.phase (by simp) (by simp) ?_
    rintro ms ⟨⟩ m hm
    obtain ⟨b, -, hb⟩ := waits_of_mem_findCycle hc hm
    exact ⟨hb.has, .inr (onCycle_of_mem_findCycle hc hm)⟩
  | failMember m ms =>
    refine h.fail (.inr ⟨by simp, (h.breaking _ rfl m List.mem_cons_self).2⟩) (by simp) ?_
    rintro ms ⟨⟩ j hj
    exact h.breaking _ rfl j (List.mem_cons_of_mem _ hj)
  | broken => exact h.phase (by simp) (by simp) (by simp)

theorem Accounted.steps {x y : Phase × Scheduler} (hx : Accounted x.1 x.2) (h : Steps x y) : Accounted y.1 y.2 := by
  induction h with
  | refl => exact hx
  | tail _ hs ih => exact ih.step hs

/-- The driver loses no task. -/
theorem Reached.accounted (h : Reached p s) : Accounted p s := Accounted.empty.steps h

end

end Comptime.Scheduler
