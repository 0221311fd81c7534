import Comptime.Proofs.Session.Owed

/-!
# Runs that are put off

A run that needs what another task is to finish is put off until that task is resolved. Then it has what
it needs, so that it is not put off for that task again, and no task is started more often than there
are tasks.

There is one way for that to go wrong. A task may be resolved while a struct that it has declared has no
members, and who needs the struct is put off for that task over and over (`Tables.LeftOpen`). As long as
this does not happen, every analysis comes to an end.
-/

namespace Comptime

namespace Tables

def Tidy (t : Tables) : Prop := ∀ task, ¬ t.LeftOpen task

theorem LeftOpen.postpone {t : Tables} {blocker} (h : t.LeftOpen blocker) (task) :
    (t.postpone task blocker).LeftOpen blocker := by
  obtain ⟨hr, hopen⟩ := h
  obtain ⟨t1, ht1, he⟩ := t.postpone_eq task blocker
  have hleft : t1.LeftOpen blocker := by rcases ht1 with rfl | ⟨f, -, rfl⟩ <;> exact ⟨hr, hopen⟩
  rw [he, if_neg (by rw [hleft.1]; simp), Scheduler.park, hleft.1]
  exact hleft

end Tables

namespace Session

variable {s s' s1 s2 : Session} {task blocker : TaskId} {t t2 : Tables} {more : Bool}

/-- The driver runs the task next, and the run is put off until the other one is resolved. -/
structure Postpones (s : Session) (task blocker : TaskId) (t : Tables) : Prop where
  next : s.tables.scheduler.next.2 = some task
  halts : s.started.runTask task = .error (.postpone blocker) t

/-! ## What is waited for -/

theorem Live.started_sound (h : s.Live) : s.started.tables.Sound :=
  s.tables.started_moves.sound h.reachable.sound

theorem Live.postponed (h : s.Live) (hp : s.Postpones task blocker t) :
    s.started.tables.Updates t ∧ t.Awaits blocker := by
  have hrun := runTask_spec task h.started_sound (s.tables.started_running hp.next)
  rw [hp.halts] at hrun
  exact ⟨hrun.updates (by simp), hrun.reason⟩

theorem Live.blocker_left_open (h : s.Live) (hp : s.Postpones task blocker t) :
    t.scheduler.Has blocker ∧ (t.scheduler.state blocker = .resolved → t.LeftOpen blocker) := by
  obtain ⟨u, hawaits⟩ := h.postponed hp
  have howed : s.started.tables.Candid := Comptime.Owed.next h.owed
  exact (u.candid howed).awaited hawaits

theorem Live.scheduler_steps (h : s.Live) (hs : Steps s s') :
    Scheduler.Steps (.ready, s.tables.scheduler) (.ready, s'.tables.scheduler) := by
  induction hs with
  | refl => exact .refl
  | tail hs hstep ih => exact ih.trans (hstep.scheduler (h.steps hs).reachable.sound)

theorem tables_of_postpones (hp : s.Postpones task blocker t) (ha : advance s = .ok more s') :
    s'.tables = t.postpone task blocker := by
  cases stepped_of_advance ha with
  | @ran task' _ next settled =>
    obtain rfl : task' = task := Option.some.inj (next.symm.trans hp.next)
    obtain ⟨t', _, rfl, hends⟩ := ends_of_settle settled
    rw [hp.halts] at hends
    dsimp only
    cases hends with
    | parked => rfl
    | failed final => exact absurd rfl (final blocker)
  | idle next =>
    rw [hp.next] at next
    cases next
  | broke next =>
    rw [hp.next] at next
    cases next

theorem Live.resolved_of_postpones (h : s.Live) (hp : s.Postpones task blocker t) (ha : advance s = .ok more s1)
    (hs : Steps s1 s2) (hq : s2.tables.scheduler.state task = .queued) :
    s2.tables.scheduler.state blocker = .resolved := by
  have hlive : s1.Live := h.steps (.single (.advance ha))
  have hsteps := hlive.scheduler_steps hs
  have hacc := hlive.reached.accounted
  obtain ⟨u, -⟩ := h.postponed hp
  have hrunning := u.running (s.tables.started_running hp.next)
  have htables := tables_of_postpones hp ha
  have hscheduler := (congrArg Tables.scheduler htables).trans (t.scheduler_postpone task blocker)
  have hfinal {id : TaskId} (hid : s1.tables.scheduler.Has id)
      (hdone : ¬ s1.tables.scheduler.Open id) := (hacc.steps_final hsteps hid hdone).2
  by_cases hfailed : t.scheduler.state blocker = .failed
  · rw [if_pos hfailed] at hscheduler
    have hf := t.scheduler.fail_fails task
    have htask : s1.tables.scheduler.state task = .failed := by
      rw [hscheduler]
      exact hf.stacked task List.mem_cons_self
    have hhas : s1.tables.scheduler.Has task := by
      rw [hscheduler]
      exact (hf.has task).mpr hrunning.has
    have hkept := hfinal hhas (Scheduler.not_open_iff.mpr (.inr htask))
    rw [hq, htask] at hkept
    cases hkept
  · rw [if_neg hfailed] at hscheduler
    by_cases hopen : t.scheduler.Open blocker
    · obtain ⟨-, -, hstate, -⟩ := Scheduler.park_of_open hrunning.has hopen
      have hwaits : s1.tables.scheduler.state task = .waiting blocker := by
        rw [hscheduler, hstate, if_pos rfl]
      rcases hacc.steps_waiting hsteps hwaits with hw | hr | hf
      · rw [hq] at hw
        cases hw
      · exact hr
      · rw [hq] at hf
        cases hf
    · have hr := (Scheduler.not_open_iff.mp hopen).resolve_right hfailed
      have hr1 : s1.tables.scheduler.state blocker = .resolved := by
        rw [hscheduler, Scheduler.park, hr]
        exact hr
      have hhas := Scheduler.has_of_state_ne (s := s1.tables.scheduler) (by rw [hr1]; simp)
      exact (hfinal hhas (Scheduler.not_open_iff.mpr (.inl hr1))).trans hr1

theorem Live.postponed_again (h : s.Live) (hp : s.Postpones task blocker t) (ha : advance s = .ok more s1)
    (hs : Steps s1 s2) (hp2 : s2.Postpones task blocker t2) : t2.LeftOpen blocker := by
  have hlive : s2.Live := (h.steps (.single (.advance ha))).steps hs
  have hq : s2.tables.scheduler.state task = .queued := (Scheduler.next_eq_some hp2.next).1
  have hr := h.resolved_of_postpones hp ha hs hq
  refine (hlive.blocker_left_open hp2).2 ?_
  have hstarted : s2.started.tables.scheduler.state blocker = .resolved :=
    (Scheduler.state_next ..).trans hr
  obtain ⟨u, -⟩ := hlive.postponed hp2
  rw [(u.submits.keeps (Scheduler.has_of_state_ne (by rw [hstarted]; simp))).2.1, hstarted]

/-! ## Orderly sessions -/

/-- The session was made without a fatal error, and never has a task left a struct open. -/
def Orderly (s : Session) : Prop :=
  ∃ config host ast, Relation.ReflTransGen (fun s s' => Step s s' ∧ s'.tables.Tidy)
    (create config host ast) s

theorem Orderly.live (h : s.Orderly) : s.Live := by
  obtain ⟨config, host, ast, h⟩ := h
  exact ⟨config, host, ast, h.lift id fun _ _ => And.left⟩

theorem Orderly.step (h : s.Orderly) (hs : Step s s') (tidy : s'.tables.Tidy) : s'.Orderly := by
  obtain ⟨config, host, ast, h⟩ := h
  exact ⟨config, host, ast, h.tail ⟨hs, tidy⟩⟩

theorem Live.scheduler_advances (h : s.Live) (ha : advance s = .ok true s') (tidy : s'.tables.Tidy) :
    s.tables.scheduler.Advances s'.tables.scheduler := by
  cases stepped_of_advance ha with
  | @ran task _ next settled =>
    have hrun := runTask_spec task h.started_sound (s.tables.started_running next)
    obtain ⟨t', _, rfl, hends⟩ := ends_of_settle settled
    dsimp only at tidy ⊢
    cases hx : s.started.runTask task with
    | ok _ t =>
      rw [hx] at hrun hends
      cases hends
      exact .ran next hrun.1.submits .resolved
    | error halt t =>
      rw [hx] at hrun hends
      refine .ran next hrun.submits ?_
      cases hends with
      | @parked blocker =>
        have hnot : t.scheduler.state blocker ≠ .resolved := fun hr =>
          tidy blocker (((h.blocker_left_open ⟨next, hx⟩).2 hr).postpone task)
        rw [Tables.scheduler_postpone]
        split
        · exact .failed
        · next hb =>
          refine .parked (by_contra fun hopen => ?_)
          exact (Scheduler.not_open_iff.mp hopen).elim hnot hb
      | failed =>
        rw [Tables.scheduler_fail]
        exact .failed
  | @broke cycle next found =>
    dsimp only
    rw [s.tables.started.scheduler_breakCycle s.ast cycle]
    exact .broke next found

theorem Orderly.thrifty (h : s.Orderly) : s.tables.scheduler.Thrifty .ready := by
  obtain ⟨config, host, ast, h⟩ := h
  induction h with
  | refl => exact .empty
  | @tail s s' hs hstep ih =>
    have hlive : s.Live := Orderly.live ⟨config, host, ast, hs⟩
    have hacc := hlive.reached.accounted
    obtain ⟨hstep, tidy⟩ := hstep
    cases hstep with
    | pushNodes nodes => exact ih
    | declare items =>
      rw [stateAfter_declare]
      exact (ih.submits hacc (Tables.declareItems_declares ..).submits).1
    | submit n => exact ih.submit hacc _
    | @advance _ more ha =>
      cases more with
      | true => exact ((hlive.scheduler_advances ha tidy).thrifty hacc ih).1
      | false =>
        cases stepped_of_advance ha with
        | idle next => exact ih.next_none hacc next

/-! ## The driver comes to an end -/

abbrev Drives : Session → Session → Prop := Relation.ReflTransGen fun s s' => advance s = .ok true s'

private theorem config_of_advance (ha : advance s = .ok more s') : s'.config = s.config := by
  cases stepped_of_advance ha with
  | ran next settled =>
    obtain ⟨_, _, rfl, -⟩ := ends_of_settle settled
    rfl
  | idle => rfl
  | broke => rfl

private theorem drive_succ (fuel) (s) :
    drive (fuel + 1) s = (advance >>= fun more => if more then drive fuel else pure ()) s := rfl

theorem Orderly.drive_ends {fuel} (h : s.Orderly)
    (tidy : ∀ s', Drives s s' → s'.tables.Tidy ∧ s'.tables.scheduler.tasks.size ≤ s.config.maxTaskRuns)
    (hfuel : s.config.maxTaskRuns * (s.config.maxTaskRuns + 2) < fuel + s.tables.scheduler.effort) :
    (∃ s', drive fuel s = .ok () s') ∨
    ∃ s1 task e t, Drives s s1 ∧ s1.tables.scheduler.next.2 = some task ∧
      s1.started.runTask task = .error (.fatal e) t ∧
      drive fuel s = .error e { s1.started with tables := t } := by
  induction fuel generalizing s with
  | zero =>
    have hsize := (tidy s .refl).2
    have hmul : s.tables.scheduler.tasks.size * (s.tables.scheduler.tasks.size + 2) ≤
        s.config.maxTaskRuns * (s.config.maxTaskRuns + 2) :=
      Nat.mul_le_mul hsize (Nat.add_le_add_right hsize 2)
    have heffort := h.thrifty.effort_le
    omega
  | succ fuel ih =>
    -- one step, and the rest by induction
    have hrest {s' : Session} (ha : advance s = .ok true s') :
        (∃ s', drive (fuel + 1) s = .ok () s') ∨
        ∃ s1 task e t, Drives s s1 ∧ s1.tables.scheduler.next.2 = some task ∧
          s1.started.runTask task = .error (.fatal e) t ∧
          drive (fuel + 1) s = .error e { s1.started with tables := t } := by
      have hconfig := config_of_advance ha
      have htidy := (tidy s' (.single ha)).1
      have heffort := ((h.live.scheduler_advances ha htidy).thrifty h.live.reached.accounted h.thrifty).2
      have hdrive : drive (fuel + 1) s = drive fuel s' := by
        rw [drive_succ]
        simp only [bind, EStateM.bind, ha, if_true]
      rw [hdrive]
      rcases ih (h.step (.advance ha) htidy)
        (fun s1 hs1 => hconfig ▸ tidy s1 (.head ha hs1)) (by rw [hconfig]; omega) with hok | hfatal
      · exact .inl hok
      · obtain ⟨s1, task, e, t, hs1, hrun⟩ := hfatal
        exact .inr ⟨s1, task, e, t, .head ha hs1, hrun⟩
    cases hn : s.tables.scheduler.next.2 with
    | none =>
      obtain ⟨more, s', ha⟩ := h.live.advance_ok hn
      cases more with
      | true => exact hrest ha
      | false =>
        left
        refine ⟨s', ?_⟩
        rw [drive_succ]
        simp only [bind, EStateM.bind, ha]
        rfl
    | some task =>
      have hruns : s.tables.scheduler.runs task < s.config.maxTaskRuns :=
        (h.thrifty.runs_lt (Scheduler.next_eq_some hn).1).trans_le (tidy s .refl).2
      have ha := advance_of_next hn hruns
      simp only [bind, EStateM.bind] at ha
      cases hsettled : settle task (s.started.runTask task) s.started with
      | ok _ s' =>
        rw [hsettled] at ha
        exact hrest ha
      | error e s' =>
        right
        rw [hsettled] at ha
        obtain ⟨t, hrun, rfl⟩ := fatal_of_settle hsettled
        refine ⟨s, task, e, t, .refl, hn, hrun, ?_⟩
        rw [drive_succ]
        simp only [bind, EStateM.bind, ha]

end Session

/-! ## Sessions to see it in -/

namespace Tables

/-- Whether no task has been resolved and left a struct open. -/
def isTidy (t : Tables) : Bool :=
  t.structTasks.all fun p => (t.types.structDef p.1).members.isSome || t.scheduler.state p.2 != .resolved

theorem tidy_of_isTidy {t : Tables} (h : t.isTidy = true) : t.Tidy := by
  rintro task ⟨hr, id, hopen, hl⟩
  have hp := List.all_eq_true.mp h _ (mem_of_lookup hl)
  have hopen : (t.types.structDef id).members = none := hopen
  simp [hopen, hr] at hp

end Tables

namespace Session

/-- The task that runs next, if its run is put off, and what it is put off for. -/
def putOff? (s : Session) : Option (TaskId × TaskId × Tables) :=
  match s.tables.scheduler.next.2 with
  | some task =>
    match s.started.runTask task with
    | .error (.postpone blocker) t => some (task, blocker, t)
    | _ => none
  | none => none

theorem of_putOff? {s : Session} {test : TaskId × TaskId × Tables → Bool} (h : s.putOff?.any test = true) :
    ∃ task blocker t, s.Postpones task blocker t ∧ test (task, blocker, t) = true := by
  unfold putOff? at h
  split at h
  · next hn =>
    split at h
    · next hr => exact ⟨_, _, _, ⟨hn, hr⟩, h⟩
    · cases h
  · cases h

/-- Whether the driver comes to an end within so many steps, and on its way no task leaves a struct open
and there are not too many tasks. -/
def staysTidy (limit : Nat) : Nat → Session → Bool
  | 0, _ => false
  | n + 1, s => s.tables.isTidy && decide (s.tables.scheduler.tasks.size ≤ limit) &&
    match advance s with
    | .ok true s' => staysTidy limit n s'
    | .ok false _ | .error _ _ => true

theorem tidy_of_staysTidy {limit n} {s' : Session} {s} (h : staysTidy limit n s = true) (hd : Drives s s') :
    s'.tables.Tidy ∧ s'.tables.scheduler.tasks.size ≤ limit := by
  induction n generalizing s with
  | zero => cases h
  | succ n ih =>
    simp only [staysTidy, Bool.and_eq_true, decide_eq_true_eq] at h
    obtain ⟨⟨htidy, hsize⟩, hrest⟩ := h
    rcases hd.cases_head with rfl | ⟨s1, ha, hd⟩
    · exact ⟨Tables.tidy_of_isTidy htidy, hsize⟩
    · rw [ha] at hrest
      exact ih hrest hd

/-- `S :: struct { k: K }`, `X :: sizeof(S)` and `K :: s32`. The first waits for the last, and the second
for the first, whose struct it knows. -/
def forward : Session :=
  stateAfter (declare [3, 6, 7]) (create { Config.default with maxTaskRuns := 3 } .none ⟨#[
    ⟨.ident "s32", .dummy⟩, ⟨.ident "K", .dummy⟩, ⟨.structType [⟨"k", 1, .dummy⟩], .dummy⟩,
    ⟨.decl ⟨"S", none, some 2, false⟩, .dummy⟩,
    ⟨.ident "S", .dummy⟩, ⟨.sizeOf 4, .dummy⟩, ⟨.decl ⟨"X", none, some 5, false⟩, .dummy⟩,
    ⟨.decl ⟨"K", none, some 0, false⟩, .dummy⟩]⟩)

/-- In the first round of declarations
```
p :: fn(x: ?T, y: *struct { k: K }) -> s32 { return 1; }
f :: fn() -> s32 { return p(1, null); }
j :: fn() -> s32 { return 1; }
h :: fn() -> s32 { return 1; }
J :: j();
K :: [h()]s32;
g :: J + p(1, null);
```
the struct of `p` is declared by `g`, whose run is put off for `K` then, and once more by the body of `f`,
which waits for `K` as well and goes on before. From then on there is a `p` for these arguments, so that
`g` does not come across its struct again. The second round is a scope `M` of `R`, that struct, of
`X :: sizeof(R)` and of another `K :: [1]s32`. -/
def tangledAst : Ast := ⟨(List.map (⟨·, .dummy⟩) [
  .ident "s32", .intLit 1, .ret (some 1), .block [2],
  .ident "K", .structType [⟨"k", 4, .dummy⟩], .ptrType 5, .polyType "T",
  .fnLit ⟨⟨[⟨"x", 7, .dummy⟩, ⟨"y", 6, .dummy⟩], some 0⟩, some 3, none, false, false⟩,
  .decl ⟨"p", none, some 8, false⟩,
  .ident "p", .nullLit, .call 10 [1, 11], .ret (some 12), .block [13],
  .fnLit ⟨⟨[], some 0⟩, some 14, none, false, false⟩, .decl ⟨"f", none, some 15, false⟩,
  .fnLit ⟨⟨[], some 0⟩, some 3, none, false, false⟩,
  .fnLit ⟨⟨[], some 0⟩, some 3, none, false, false⟩,
  .decl ⟨"j", none, some 17, false⟩, .decl ⟨"h", none, some 18, false⟩,
  .ident "j", .call 21 [], .decl ⟨"J", none, some 22, false⟩,
  .ident "h", .call 24 [], .arrayType 25 0, .decl ⟨"K", none, some 26, false⟩,
  .ident "J", .binary .add 28 12, .decl ⟨"g", none, some 29, false⟩,
  .decl ⟨"R", none, some 5, false⟩, .ident "R", .sizeOf 32,
  .decl ⟨"X", none, some 33, false⟩, .arrayType 1 0, .decl ⟨"K", none, some 35, false⟩,
  .namedScope "M" [31, 34, 36]]).toArray⟩

/-- The first round has been declared. -/
def tangledDeclared : Session :=
  stateAfter (declare [9, 16, 19, 20, 23, 27, 30]) (create .default .none tangledAst)

def tangledAgain : Session := stateAfter (declare [37]) (stateAfter analyze tangledDeclared)

def tangled : Session := stateAfter advance tangledAgain

theorem tangled_runs :
    succeeds analyze tangledDeclared (fun _ _ => true) = true ∧
    succeeds advance tangledAgain (fun _ _ => true) = true ∧
    succeeds advance tangled (fun _ _ => true) = true ∧
    (tangled.putOff?.any fun p =>
      p.1 == 12 && p.2.1 == 6 && p.2.2.scheduler.state 6 == .resolved) = true ∧
    ((stateAfter advance tangled).putOff?.any fun p => p.1 == 12 && p.2.1 == 6) = true := by
  decide +kernel

theorem live_tangled : tangled.Live := by
  obtain ⟨hanalyze, hadvance, -⟩ := tangled_runs
  obtain ⟨_, s', ha, -⟩ := of_succeeds hanalyze
  have hdeclared : tangledDeclared.Live := (Live.initial ..).after_declare _
  have hanalysed : (stateAfter analyze tangledDeclared).Live := by
    rw [stateAfter_ok ha]
    exact hdeclared.steps (analyze_ok ha).1
  exact (hanalysed.after_declare _).after_advance hadvance

theorem tangled_postpones : ∃ s1 t t1, tangled.Postpones 12 6 t ∧
    t.scheduler.state 6 = .resolved ∧ advance tangled = .ok true s1 ∧ s1.Postpones 12 6 t1 := by
  obtain ⟨-, -, hadvance, hfirst, hsecond⟩ := tangled_runs
  obtain ⟨a, b, t, hp, htest⟩ := of_putOff? hfirst
  obtain ⟨a1, b1, t1, hp1, htest1⟩ := of_putOff? hsecond
  simp only [Bool.and_eq_true, beq_iff_eq] at htest htest1
  obtain ⟨⟨rfl, rfl⟩, hr⟩ := htest
  obtain ⟨rfl, rfl⟩ := htest1
  obtain ⟨more, s1, ha, -⟩ := of_succeeds hadvance
  rw [stateAfter_ok ha] at hp1
  cases stepped_of_advance ha with
  | ran => exact ⟨s1, t, t1, hp, hr, ha, hp1⟩
  | idle next | broke next =>
    rw [hp.next] at next
    cases next

theorem forward_runs : forward.tables.scheduler.tasks.size = 3 ∧ forward.config.maxTaskRuns = 3 ∧
    forward.staysTidy 3 6 = true ∧
    (forward.putOff?.any fun p => p.1 == 0 && p.2.1 == 2 && p.2.2.isTidy) = true := by
  decide +kernel

theorem orderly_forward : forward.Orderly := by
  obtain ⟨-, -, hstays, -⟩ := forward_runs
  exact ⟨_, _, _, .single ⟨.declare _ _, (tidy_of_staysTidy hstays .refl).1⟩⟩

end Session

/-- **Waits come to an end.** A task that is waited for is not resolved, unless it has left a struct open;
and only then is a task put off twice for the same one. In a session in which no task has left a struct
open, tasks are started at most once more than there are tasks. Its driver comes to an end if no task
does so later, whatever the tasks are that are submitted in the meantime, as long as there are not more
of them than a task may be run: either all is done, or a run ends fatally. -/
theorem waits_end {s : Session} (live : s.Live) :
    (∀ task blocker t, s.Postpones task blocker t →
      t.scheduler.state blocker = .resolved → t.LeftOpen blocker) ∧
    (∀ s1 s2 task blocker t t2 more, s.Postpones task blocker t → s.advance = .ok more s1 →
      Session.Steps s1 s2 → s2.Postpones task blocker t2 → t2.LeftOpen blocker) ∧
    (s.Orderly →
      (∀ task, s.tables.scheduler.runs task ≤ s.tables.scheduler.tasks.size + 1) ∧
      ((∀ s', s.Drives s' → s'.tables.Tidy ∧
          s'.tables.scheduler.tasks.size ≤ s.config.maxTaskRuns) →
        ∀ fuel, s.config.maxTaskRuns * (s.config.maxTaskRuns + 2) < fuel →
          (∃ s', s.drive fuel = .ok () s' ∧ s'.tables.scheduler.isIdle = true) ∨
          ∃ s1 task e t, s.Drives s1 ∧ s1.tables.scheduler.next.2 = some task ∧
            s1.started.runTask task = .error (.fatal e) t ∧
            s.drive fuel = .error e { s1.started with tables := t })) := by
  refine ⟨fun task blocker t hp => (live.blocker_left_open hp).2,
    fun s1 s2 task blocker t t2 more hp ha hs hp2 => live.postponed_again hp ha hs hp2,
    fun h => ⟨h.thrifty.runs_le, fun tidy fuel hfuel => ?_⟩⟩
  refine (h.drive_ends tidy (hfuel.trans_le (Nat.le_add_right ..))).imp_left ?_
  rintro ⟨s', hd⟩
  exact ⟨s', hd, Session.isIdle_of_drive hd⟩

/-- A struct waits for the type of its member, which is not resolved; the driver is done after some
steps. In the tangled session a task is put off twice for one that has left a struct open. -/
theorem waits_end_forward :
    (∃ t, Session.forward.Postpones 0 2 t ∧ t.scheduler.state 2 ≠ .resolved) ∧
    (∃ s1 t1, Session.tangled.advance = .ok true s1 ∧ s1.Postpones 12 6 t1 ∧ t1.LeftOpen 6) ∧
    Session.forward.tables.scheduler.runs 0 ≤ 4 ∧
    ((∃ s', Session.forward.drive 16 = .ok () s' ∧ s'.tables.scheduler.isIdle = true) ∨
      ∃ s1 task e t, Session.forward.Drives s1 ∧ s1.tables.scheduler.next.2 = some task ∧
        s1.started.runTask task = .error (.fatal e) t ∧
        Session.forward.drive 16 = .error e { s1.started with tables := t }) := by
  obtain ⟨hsize, hlimit, hstays, hput⟩ := Session.forward_runs
  obtain ⟨a, b, t, hp, htest⟩ := Session.of_putOff? hput
  simp only [Bool.and_eq_true, beq_iff_eq] at htest
  obtain ⟨⟨rfl, rfl⟩, htidy⟩ := htest
  obtain ⟨s1, t0, t1, hp0, -, ha, hp1⟩ := Session.tangled_postpones
  obtain ⟨hwaits, -, hends⟩ := waits_end Session.orderly_forward.live
  obtain ⟨hruns, hdrive⟩ := hends Session.orderly_forward
  rw [hsize] at hruns
  rw [hlimit] at hdrive
  refine ⟨⟨t, hp, fun hr => ?_⟩, ⟨s1, t1, ha, hp1, ?_⟩, hruns 0, ?_⟩
  · exact Tables.tidy_of_isTidy htidy _ (hwaits _ _ _ hp hr)
  · exact (waits_end Session.live_tangled).2.1 _ _ _ _ _ _ _ hp0 ha .refl hp1
  · exact hdrive (fun s' hs' => Session.tidy_of_staysTidy hstays hs') 16 (by decide)

/-- A task may be waited for that is resolved, over and over. -/
theorem tangled_waits_for_resolved : ∃ (s s1 : Session) (task blocker : TaskId) (t t1 : Tables),
    s.Live ∧ s.Postpones task blocker t ∧ t.scheduler.state blocker = .resolved ∧
    s.advance = .ok true s1 ∧ s1.Postpones task blocker t1 := by
  obtain ⟨s1, t, t1, h⟩ := Session.tangled_postpones
  exact ⟨Session.tangled, s1, 12, 6, t, t1, Session.live_tangled, h⟩

end Comptime
