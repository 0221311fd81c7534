import Comptime.Proofs.Session.Move

/-!
# Sessions that can be reached

`Session.Step` is what can happen to a session: nodes are added, items declared, evaluations
requested, and the driver takes a step of its own. A session is live if it was made by such steps and
no task ended in a fatal error; it is reachable if it was made by them in any case.

Main results: every reachable session has sound tables (`Reachable.sound`), and the driver's step does
one of few things to them (`Stepped`, `Crashed`).
-/

namespace Comptime

/-! ## The beginning -/

namespace Tables

private theorem proper_nameless : Proper { initial with scopes := (Scopes.empty.create .builtin none).1 } where
  named := .initial
  symbols id v h := by
    rw [Scopes.symbol, Pool.getD_of_not_has (Nat.not_lt_zero _)] at h
    cases h
  code := ⟨fun f h => absurd h (Nat.not_lt_zero _), fun f h => absurd h (Nat.not_lt_zero _),
    fun g h => absurd h (Nat.not_lt_zero _)⟩
  notes := by
    refine ⟨by simp [initial], by simp [initial], by simp [initial], fun f source h => ?_, Nat.le_refl _⟩
    exact absurd (Pool.has_of_get?_eq_some h) (Nat.not_lt_zero _)

theorem Proper.createScope {t : Tables} {scopes : Scopes} (h : Proper { t with scopes }) (hp : t.types.Proper)
    (kind : ScopeKind) (parent : Option ScopeId) :
    Proper { t with scopes := (scopes.create kind parent).1 } :=
  h.ofScopes hp fun _ _ hv => .inl hv

theorem Proper.nameTypes {t : Tables} {scopes : Scopes} (h : Proper { t with scopes }) (hp : t.types.Proper) (scope)
    {names} (hn : ∀ p ∈ names, t.types.Has p.2) : Proper { t with scopes := scopes.nameTypes scope names } := by
  unfold Scopes.nameTypes
  induction names generalizing scopes with
  | nil => exact h
  | cons p names ih =>
    rw [List.foldl_cons]
    refine ih ?_ fun q hq => hn q (List.mem_cons_of_mem p hq)
    dsimp only
    split
    · next hi =>
      refine h.insertSymbol hp hi ?_
      rintro v ⟨rfl⟩
      exact .inl (hn p List.mem_cons_self)
    · exact h

theorem sound_initial : initial.Sound := by
  refine ⟨.initial, fun f h => absurd (Code.has_of_analyzed h) (Nat.not_lt_zero _), fun _ => ?_⟩
  have hn : ∀ p ∈ TypeTable.builtinNames, TypeTable.initial.Has p.2 := by decide
  have hp := proper_nameless.nameTypes .initial (Scopes.empty.create .builtin none).2 hn
  delta initial Scopes.initial
  exact hp.createScope .initial .global _

end Tables

/-! ## Steps of the driver -/

namespace Scheduler

variable {s : Scheduler}

theorem isIdle_of_not_open (h : ∀ id, ¬ s.Open id) : s.isIdle = true := by
  rw [isIdle, Array.all_eq_true_iff_forall_mem]
  intro t ht
  obtain ⟨i, hi, rfl⟩ := Array.mem_iff_getElem.mp ht
  have hopen := h ⟨i⟩
  have hstate : s.state ⟨i⟩ = (s.tasks.items[i]).state := by
    simp [state, Scheduler.task, Pool.getD, Pool.get?, hi]
  rw [Open, hstate] at hopen
  exact Bool.not_eq_false _ |>.mp hopen

theorem isIdle_next_iff : s.next.1.isIdle = true ↔ s.isIdle = true := by
  refine ⟨fun h => isIdle_of_not_open fun id => ?_, fun h => isIdle_of_not_open fun id => ?_⟩
  all_goals
    have hopen := not_open_of_isIdle h id
    simpa only [Open, state_next] using hopen

theorem next_of_isIdle (h : s.isIdle = true) : s.next.2 = none := by
  cases hn : s.next.2 with
  | none => rfl
  | some id =>
    have hopen : s.Open id := open_iff.mpr (.inl (next_eq_some hn).1)
    exact absurd hopen (not_open_of_isIdle h id)

end Scheduler

namespace Tables

def started (t : Tables) : Tables := { t with scheduler := t.scheduler.next.1 }

theorem started_moves (t : Tables) : t.Moves t.started :=
  (Mark.schedule fun id => (t.scheduler.has_next id).mpr).moves

theorem started_running (t : Tables) {task} (h : t.scheduler.next.2 = some task) :
    t.started.Running task := (t.scheduler.state_next task).trans (Scheduler.next_eq_some h).1

end Tables

namespace Session

variable {s s' : Session} {task : TaskId}

theorem runTask_spec (task) (hs : s.tables.Sound) (hr : s.tables.Running task) :
    match s.runTask task with
    | .ok _ t => s.tables.Updates t ∧ t.Finished (t.scheduler.kind task)
    | .error h t => s.tables.Halts h t := by
  have h : Analysis.Runs (Analysis.runTask (s.tables.scheduler.kind task))
    ⟨s.config, s.host, s.ast, task, none⟩ s.tables
    fun _ t => t.Finished (s.tables.scheduler.kind task) := Analysis.runTask_runs rfl
  have h := h hs hr
  unfold Session.runTask
  simp only [ReaderT.run, EStateM.run]
  cases hx : Analysis.runTask (s.tables.scheduler.kind task) ⟨s.config, s.host, s.ast, task, none⟩ s.tables with
  | ok _ t =>
    rw [hx] at h
    refine ⟨h.1, ?_⟩
    rw [(h.1.submits.keeps hr.has).2.2]
    exact h.2
  | error halt t =>
    rw [hx] at h
    exact h

/-- What the end of a run makes of the tables that the run has left. -/
inductive Ends (task : TaskId) : EStateM.Result Halt Tables Unit → Tables → Prop
  | resolved {t : Tables} : Ends task (.ok () t) { t with scheduler := t.scheduler.resolve task }
  | parked {blocker : TaskId} {t : Tables} :
    Ends task (.error (.postpone blocker) t) (t.postpone task blocker)
  | failed {halt : Halt} {t : Tables} {diagnostics : Diagnostics} (final : ∀ b, halt ≠ .postpone b) :
    Ends task (.error halt t) (Tables.fail { t with diagnostics } task)

theorem ends_of_settle {result} (h : settle task result s = .ok () s') :
    ∃ t evalTraps, s' = { s with tables := t, evalTraps } ∧ Ends task result t := by
  unfold settle at h
  cases result with
  | ok _ t =>
    cases h
    exact ⟨_, _, rfl, .resolved⟩
  | error halt t =>
    cases halt with
    | postpone blocker =>
      cases h
      exact ⟨_, _, rfl, .parked⟩
    | fatal e => cases h
    | _ =>
      cases h
      exact ⟨_, _, rfl, .failed (by simp)⟩

theorem fatal_of_settle {result e} (h : settle task result s = .error e s') :
    ∃ t, result = .error (.fatal e) t ∧ s' = { s with tables := t } := by
  unfold settle at h
  split at h
  · cases h
  · split at h <;> cases h
    exact ⟨_, rfl, rfl⟩

theorem settle_moves (task) (hs : s.tables.Sound) (hr : s.tables.Running task) :
    s.tables.Moves (stateAfter (settle task (s.runTask task)) s).tables := by
  have h := runTask_spec task hs hr
  unfold stateAfter settle
  cases hx : s.runTask task with
  | ok _ t =>
    rw [hx] at h
    exact h.1.moves.trans (Tables.Mark.schedule fun _ => Scheduler.has_resolve.mpr).moves
  | error halt t =>
    rw [hx] at h
    cases halt with
    | postpone blocker => exact (h.updates (by simp)).moves.trans (t.postpone_marks task blocker).moves
    | error d => exact h.reported.trans (Tables.fail_marks _ task).moves
    | trap trap =>
      have u := (h.updates (by simp)).moves
      exact (u.trans (Tables.Mark.report _).moves).trans (Tables.fail_marks _ task).moves
    | silent => exact (h.updates (by simp)).moves.trans (t.fail_marks task).moves
    | fatal e => exact (h.updates (by simp)).moves

def started (s : Session) : Session := { s with tables := s.tables.started }

theorem get_request (s) : (get : Request Session) s = .ok s s := rfl

theorem set_request (s s') : (set s' : Request PUnit) s = .ok ⟨⟩ s' := rfl

theorem throw_request {α : Type} (e s) : (throw e : Request α) s = .error e s := rfl

theorem process_eq (h : s.tables.scheduler.runs task ≤ s.config.maxTaskRuns) :
    process task s = settle task (s.runTask task) s := by
  simp [process, Nat.not_lt.mpr h, bind, EStateM.bind, get_request]

theorem process_of_overrun (h : s.config.maxTaskRuns < s.tables.scheduler.runs task) :
    ∃ message, process task s = .error (.internal message) s := by
  simp [process, h, bind, EStateM.bind, get_request, throw_request]

theorem unblock_cases (s) :
    (s.tables.scheduler.isIdle = true ∧ unblock s = .ok false s) ∨
    (∃ cycle, s.tables.scheduler.findCycle = some cycle ∧
      unblock s = .ok true { s with tables := s.tables.breakCycle s.ast cycle }) ∨
    (s.tables.scheduler.isIdle = false ∧ s.tables.scheduler.findCycle = none ∧
      unblock s = .error (.internal (toString s.tables.scheduler.pendingCount ++
        " task(s) wait without a dependency cycle")) s) := by
  by_cases hi : s.tables.scheduler.isIdle = true
  · refine .inl ⟨hi, ?_⟩
    simp [unblock, bind, EStateM.bind, get_request, hi, pure, EStateM.pure]
  · cases hc : s.tables.scheduler.findCycle with
    | some cycle =>
      refine .inr (.inl ⟨cycle, rfl, ?_⟩)
      simp [unblock, bind, EStateM.bind, get_request, set_request, hi, hc, pure, EStateM.pure]
    | none =>
      refine .inr (.inr ⟨by simpa using hi, rfl, ?_⟩)
      simp [unblock, bind, EStateM.bind, get_request, throw_request, hi, hc]

theorem advance_eq (s) :
    advance s = (match s.tables.scheduler.next.2 with
      | some task => do
        process task
        return true
      | none => unblock : Request Bool) s.started := rfl

theorem advance_of_next (hn : s.tables.scheduler.next.2 = some task)
    (hruns : s.tables.scheduler.runs task < s.config.maxTaskRuns) :
    advance s = (settle task (s.started.runTask task) >>= fun _ => pure true) s.started := by
  have hstarted : s.started.tables.scheduler.runs task ≤ s.started.config.maxTaskRuns := by
    show s.tables.scheduler.next.1.runs task ≤ _
    rw [Scheduler.runs_next hn, if_pos rfl]
    exact hruns
  rw [advance_eq, hn]
  simp only [bind, EStateM.bind, process_eq hstarted]

theorem advance_of_isIdle (h : s.tables.scheduler.isIdle = true) : advance s = .ok false s.started := by
  rw [advance_eq, Scheduler.next_of_isIdle h]
  have hidle : s.started.tables.scheduler.isIdle = true := Scheduler.isIdle_next_iff.mpr h
  simp [unblock, bind, EStateM.bind, get_request, hidle, pure, EStateM.pure]

/-- All that a step of the driver can do. -/
inductive Stepped (s : Session) : Bool → Session → Prop
  | ran {task : TaskId} {s' : Session} (next : s.tables.scheduler.next.2 = some task)
    (settled : settle task (s.started.runTask task) s.started = .ok () s') : Stepped s true s'
  | idle (next : s.tables.scheduler.next.2 = none) (done : s.tables.scheduler.isIdle = true) :
    Stepped s false s.started
  | broke {cycle : List TaskId} (next : s.tables.scheduler.next.2 = none)
    (found : s.tables.started.scheduler.findCycle = some cycle) :
    Stepped s true { s with tables := s.tables.started.breakCycle s.ast cycle }

/-- All reasons for which a step of the driver can fail. -/
inductive Crashed (s : Session) : Failure → Session → Prop
  | overrun {task : TaskId} {message : String} (next : s.tables.scheduler.next.2 = some task)
    (runs : s.config.maxTaskRuns ≤ s.tables.scheduler.runs task) : Crashed s (.internal message) s.started
  | fatal {task : TaskId} {e : Failure} {t : Tables} (next : s.tables.scheduler.next.2 = some task)
    (run : s.started.runTask task = .error (.fatal e) t) : Crashed s e { s.started with tables := t }
  | stuck {message : String} (next : s.tables.scheduler.next.2 = none)
    (busy : s.tables.started.scheduler.isIdle = false)
    (acyclic : s.tables.started.scheduler.findCycle = none) : Crashed s (.internal message) s.started

theorem advance_cases (s : Session) :
    match advance s with
    | .ok more s' => s.Stepped more s'
    | .error e s' => s.Crashed e s' := by
  cases hn : s.tables.scheduler.next.2 with
  | some task =>
    by_cases hruns : s.tables.scheduler.runs task < s.config.maxTaskRuns
    · rw [advance_of_next hn hruns]
      simp only [bind, EStateM.bind]
      cases hx : settle task (s.started.runTask task) s.started with
      | ok _ s' => exact .ran hn hx
      | error e s' =>
        obtain ⟨t, hrun, rfl⟩ := fatal_of_settle hx
        exact .fatal hn hrun
    · have hstarted : s.started.config.maxTaskRuns < s.started.tables.scheduler.runs task := by
        show _ < s.tables.scheduler.next.1.runs task
        rw [Scheduler.runs_next hn, if_pos rfl]
        exact Nat.lt_succ_of_le (Nat.not_lt.mp hruns)
      obtain ⟨message, hp⟩ := process_of_overrun hstarted
      simp only [advance_eq, hn, bind, EStateM.bind, hp]
      exact .overrun hn (Nat.not_lt.mp hruns)
  | none =>
    simp only [advance_eq, hn]
    rcases s.started.unblock_cases with ⟨hi, h⟩ | ⟨cycle, hc, h⟩ | ⟨hi, hc, h⟩ <;> rw [h]
    · exact .idle hn (Scheduler.isIdle_next_iff.mp hi)
    · exact .broke hn hc
    · exact .stuck hn hi hc

theorem stepped_of_advance {more} (h : advance s = .ok more s') : s.Stepped more s' := by
  have hcases := s.advance_cases
  rwa [h] at hcases

theorem crashed_of_advance {e} (h : advance s = .error e s') : s.Crashed e s' := by
  have hcases := s.advance_cases
  rwa [h] at hcases

theorem isIdle_of_advance (h : advance s = .ok false s') : s'.tables.scheduler.isIdle = true := by
  cases stepped_of_advance h with
  | idle next done => exact Scheduler.isIdle_next_iff.mpr done

/-! ## Steps -/

/-- The evaluation of an expression is requested. -/
def submit (s : Session) (n : NodeId) : Session :=
  { s with tables :=
    { s.tables with scheduler := (s.tables.scheduler.submit (.eval n)).1 } }

/-- One thing that happens to a session. -/
inductive Step : Session → Session → Prop
  | pushNodes (s : Session) (nodes : List Node) : Step s (s.pushNodes nodes)
  | declare (s : Session) (items : List NodeId) : Step s (stateAfter (declare items) s)
  | submit (s : Session) (n : NodeId) : Step s (s.submit n)
  | advance {s s' : Session} {more : Bool} (h : advance s = .ok more s') : Step s s'

abbrev Steps : Session → Session → Prop := Relation.ReflTransGen Step

def Crash (s s' : Session) : Prop := ∃ e, advance s = .error e s'

def Live (s : Session) : Prop := ∃ config host ast, Steps (create config host ast) s

/-- The session was made somehow. -/
def Reachable (s : Session) : Prop :=
  ∃ config host ast, Relation.ReflTransGen (fun s s' => Step s s' ∨ Crash s s')
    (create config host ast) s

theorem Live.reachable (h : s.Live) : s.Reachable := by
  obtain ⟨config, host, ast, h⟩ := h
  exact ⟨config, host, ast, h.lift id fun _ _ => .inl⟩

theorem Live.steps (h : s.Live) (hs : Steps s s') : s'.Live := by
  obtain ⟨config, host, ast, h⟩ := h
  exact ⟨config, host, ast, h.trans hs⟩

theorem Step.advanced (h : succeeds Session.advance s (fun _ _ => true) = true) :
    Step s (stateAfter Session.advance s) := by
  obtain ⟨more, s', ha, -⟩ := of_succeeds h
  rw [stateAfter, ha]
  exact .advance ha

theorem Live.initial (config host ast) : (create config host ast).Live :=
  ⟨config, host, ast, .refl⟩

theorem Live.after_declare (h : s.Live) (items) : (stateAfter (declare items) s).Live :=
  h.steps (.single (.declare s items))

theorem Live.after_advance (h : s.Live) (ok : succeeds Session.advance s (fun _ _ => true) = true) :
    (stateAfter Session.advance s).Live := h.steps (.single (.advanced ok))

theorem stateAfter_declare (items s) :
    stateAfter (declare items) s = { s with
      tables := (stateAfter (Tables.declareItems s.ast (s.ast.size + 1) Analysis.globalScope items) s.tables) } := by
  unfold stateAfter declare
  simp only [EStateM.run]
  split <;> rename_i h <;> split at h <;> cases h <;> next h => rw [h]

theorem Step.moves (h : Step s s') (hs : s.tables.Sound) : s.tables.Moves s'.tables := by
  cases h with
  | pushNodes nodes => exact .refl _
  | declare items =>
    rw [stateAfter_declare]
    exact (Tables.declareItems_declares ..).moves
  | submit n => exact (s.tables.submit_declares _).moves
  | advance h =>
    cases stepped_of_advance h with
    | ran next settled =>
      have hsettle := settle_moves (s := s.started) _ (s.tables.started_moves.sound hs) (s.tables.started_running next)
      rw [show stateAfter _ s.started = _ from stateAfter_ok settled] at hsettle
      exact s.tables.started_moves.trans hsettle
    | idle => exact s.tables.started_moves
    | broke => exact s.tables.started_moves.trans (Tables.breakCycle_marks _ s.ast _).moves

theorem Crash.moves (h : Crash s s') (hs : s.tables.Sound) : s.tables.Moves s'.tables := by
  obtain ⟨e, h⟩ := h
  cases crashed_of_advance h with
  | overrun | stuck => exact s.tables.started_moves
  | @fatal task e t next run =>
    have hspec := runTask_spec (s := s.started) task (s.tables.started_moves.sound hs) (s.tables.started_running next)
    rw [run] at hspec
    exact s.tables.started_moves.trans (hspec.updates (by simp)).moves

theorem Reachable.induct {P : Tables → Prop} (h : s.Reachable) (initial : P .initial)
    (move : ∀ {t t' : Tables}, t.Move t' → P t → P t') : P s.tables := by
  obtain ⟨config, host, ast, h⟩ := h
  have hmoves {t t' : Tables} (m : t.Moves t') (ht : P t) : P t' := by
    induction m with
    | refl => exact ht
    | tail _ hm ih => exact move hm ih
  suffices hboth : s.tables.Sound ∧ P s.tables from hboth.2
  induction h with
  | refl => exact ⟨Tables.sound_initial, initial⟩
  | tail _ hstep ih =>
    obtain ⟨hs, hp⟩ := ih
    have hm := hstep.elim (·.moves hs) (·.moves hs)
    exact ⟨hm.sound hs, hmoves hm hp⟩

/-- Every session that can be reached has sound tables. -/
theorem Reachable.sound (h : s.Reachable) : s.tables.Sound :=
  h.induct Tables.sound_initial fun hm => hm.sound

/-! ## Requests -/

theorem drive_spec (fuel) (s) :
    match drive fuel s with
    | .ok _ s' => Steps s s'
    | .error e s' => ∃ s1, Steps s s1 ∧
      (advance s1 = .error e s' ∨ e = .internal "analysis did not end" ∧ s1 = s') := by
  induction fuel generalizing s with
  | zero => exact ⟨s, .refl, .inr ⟨rfl, rfl⟩⟩
  | succ fuel ih =>
    have hd : drive (fuel + 1) s = (advance >>= fun more =>
      if more then drive fuel else pure ()) s := rfl
    rw [hd]
    simp only [bind, EStateM.bind]
    cases ha : advance s with
    | error e s' => exact ⟨s, .refl, .inl ha⟩
    | ok more s1 =>
      have hstep : Steps s s1 := .single (.advance ha)
      cases more with
      | false => exact hstep
      | true =>
        have := ih s1
        dsimp only
        rw [if_pos rfl]
        split at this
        · exact hstep.trans this
        · obtain ⟨s2, hs2, hend⟩ := this
          exact ⟨s2, hstep.trans hs2, hend⟩

theorem isIdle_of_drive {fuel} (h : drive fuel s = .ok () s') : s'.tables.scheduler.isIdle = true := by
  induction fuel generalizing s with
  | zero => cases h
  | succ fuel ih =>
    have hd : drive (fuel + 1) s = (advance >>= fun more =>
      if more then drive fuel else pure ()) s := rfl
    rw [hd] at h
    simp only [bind, EStateM.bind] at h
    cases ha : advance s with
    | error e s1 => rw [ha] at h; cases h
    | ok more s1 =>
      rw [ha] at h
      cases more with
      | false =>
        cases h
        exact isIdle_of_advance ha
      | true => exact ih h

theorem analyze_eq (s) :
    analyze s = (drive s.config.fuel >>= fun _ => fun s =>
      if s.tables.diagnostics.hasErrors then .error (.rejected s.diagnostics) s else .ok () s) s := by
  simp only [analyze, settleAll, bind, EStateM.bind, get_request]
  cases drive s.config.fuel s with
  | error e s' => rfl
  | ok _ s' =>
    dsimp only
    split <;> rfl

theorem analyze_ok (h : analyze s = .ok () s') :
    Steps s s' ∧ s'.tables.scheduler.isIdle = true ∧ s'.tables.diagnostics.hasErrors = false := by
  have hd := drive_spec s.config.fuel s
  rw [analyze_eq] at h
  simp only [bind, EStateM.bind] at h
  cases hr : drive s.config.fuel s with
  | ok _ s1 =>
    rw [hr] at hd h
    dsimp only at h
    split at h
    · cases h
    · next he =>
      cases h
      exact ⟨hd, isIdle_of_drive hr, by simpa using he⟩
  | error e s1 =>
    rw [hr] at h
    cases h

theorem Reachable.create (config host ast) : (create config host ast).Reachable := ⟨config, host, ast, .refl⟩

theorem Reachable.tail (h : s.Reachable) (hs : Step s s' ∨ Crash s s') : s'.Reachable := by
  obtain ⟨config, host, ast, h⟩ := h
  exact ⟨config, host, ast, h.tail hs⟩

theorem Reachable.steps (h : s.Reachable) (hs : Steps s s') : s'.Reachable := by
  induction hs with
  | refl => exact h
  | tail _ hstep ih => exact ih.tail (.inl hstep)

theorem Reachable.analyze (h : s.Reachable) : (stateAfter analyze s).Reachable := by
  have hd := drive_spec s.config.fuel s
  unfold stateAfter
  rw [analyze_eq]
  simp only [bind, EStateM.bind]
  cases hr : drive s.config.fuel s with
  | ok _ s' =>
    rw [hr] at hd
    dsimp only
    split <;> rename_i he <;> split at he <;> cases he <;> exact h.steps hd
  | error e s' =>
    rw [hr] at hd
    obtain ⟨s1, hs1, ha | ⟨-, rfl⟩⟩ := hd
    · exact (h.steps hs1).tail (.inr ⟨e, ha⟩)
    · exact h.steps hs1

end Session

end Comptime
