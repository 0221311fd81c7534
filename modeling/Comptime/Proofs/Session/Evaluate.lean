import Comptime.Proofs.Arithmetic.Evaluation
import Comptime.Proofs.Session.Schedule

/-!
# Requests for the value of an expression

A session that has nothing left to do answers the request for an expression by running one task
(`Session.Asks.eval`). If the expression is one of numbers, the answer is what it means, and it does not
depend on whether operators are folded.
-/

namespace Comptime

/-! ## Schedulers with one task left -/

namespace Scheduler

variable {s : Scheduler} {task : TaskId}

theorem next_of_only (hqueue : task ∈ s.queue) (hq : s.state task = .queued)
    (honly : ∀ id, s.state id = .queued → id = task) : s.next.2 = some task := by
  cases hn : s.next.2 with
  | none => exact absurd hq ((next_eq_none hn).1 task hqueue)
  | some id => rw [honly id (next_eq_some hn).1]

theorem isIdle_resolve (ht : s.Has task) (honly : ∀ id, s.Open id → id = task) : (s.resolve task).isIdle = true := by
  obtain ⟨-, -, hstate, -⟩ := resolve_spec ht
  refine isIdle_of_not_open fun id hopen => ?_
  rw [Open, hstate] at hopen
  split at hopen
  · cases hopen
  · next hne =>
    split at hopen
    · next hw => exact hne (honly id (open_iff.mpr (.inr ⟨_, hw.2⟩)))
    · exact hne (honly id hopen)

theorem isIdle_fail (honly : ∀ id, s.Open id → id = task) : (s.fail task).1.isIdle = true := by
  have hfails := s.fail_fails task
  refine isIdle_of_not_open fun id hopen => ?_
  have hne : (s.fail task).1.state id ≠ .failed := fun h => by
    rw [Open, h] at hopen
    cases hopen
  rw [Open, (hfails.kept id hne).1] at hopen
  have hid := honly id hopen
  subst hid
  exact hne (hfails.stacked id List.mem_cons_self)

end Scheduler

/-! ## Answers belong to tasks -/

namespace Tables

variable {t t' : Tables}

def Recorded (t : Tables) : Prop := ∀ p ∈ t.results, t.scheduler.Has p.1

theorem Updates.recorded (u : t.Updates t') (ht : t.Recorded) : t'.Recorded := by
  induction u with
  | refl => exact ht
  | tail _ h ih =>
    have ht := ih ht
    have hs := h.submits
    cases h with
    | result running =>
      intro p hp
      rcases List.mem_cons.mp hp with rfl | hp
      · exact Scheduler.has_of_state_ne (by rw [running]; simp)
      · exact ht p hp
    | _ => exact fun p hp => (hs.keeps (ht p hp)).1
  | complete _ _ _ _ ih ih' => exact ih' (ih ht)

theorem Move.recorded (h : t.Move t') (ht : t.Recorded) : t'.Recorded := by
  cases h with
  | run h => exact h.recorded ht
  | mark h =>
    cases h with
    | schedule keeps => exact fun p hp => keeps p.1 (ht p hp)
    | _ => exact ht
  | refuse h =>
    cases h with
    | complete analysis => exact analysis.recorded ht
  | _ => exact ht

theorem Marks.results (h : t.Marks t') : t'.results = t.results := by
  induction h with
  | refl => rfl
  | tail _ h ih => cases h <;> exact ih

end Tables

namespace Session

variable {s s' : Session}

theorem Reachable.recorded (h : s.Reachable) : s.tables.Recorded := h.induct nofun Tables.Move.recorded

/-! ## Types of numbers -/

theorem Reachable.types_grow (h : s.Reachable) : TypeTable.initial.Grows s.tables.types := by
  have hinitial : TypeTable.initial.Grows Tables.initial.types := TypeTable.Grows.refl TypeTable.initial
  refine h.induct (P := fun t => TypeTable.initial.Grows t.types) hinitial ?_
  intro t t' hm hg
  cases hm with
  | run h => exact hg.trans h.grows.types
  | refuse h => exact hg.trans h.grows.types
  | mark h => cases h <;> exact hg
  | enter | setSymbol => exact hg

theorem Reachable.numbers (h : s.Reachable) : s.tables.types.Numbers := by
  have hgrows := h.types_grow
  refine ⟨fun scalar => ?_, ?_⟩
  · rw [hgrows.kind (by cases scalar <;> decide)]
    cases scalar <;> rfl
  · rw [hgrows.kind (by decide)]
    rfl

/-! ## Requests -/

theorem modifyGet_request {α : Type} (f : Session → α × Session) (s) :
    (modifyGet f : Request α) s = .ok (f s).1 (f s).2 := rfl

/-- A session that has nothing left to do is asked for an expression for the first time. -/
structure Asks (s : Session) (n : NodeId) : Prop where
  live : s.Live
  idle : s.tables.scheduler.isIdle = true
  new : s.tables.scheduler.find? (.eval n) = none
  runs : 0 < s.config.maxTaskRuns
  fuel : 1 < s.config.fuel

def nextTask (s : Session) : TaskId := s.tables.scheduler.tasks.nextId

def asked (s : Session) (n : NodeId) : Session := (s.submit n).started

/-- How the evaluation ends that answers a request. -/
def answer (s : Session) (n : NodeId) : EStateM.Result Halt Tables (Value × TypeId) :=
  Analysis.comptimeValue (Analysis.walk (s.config.fuel + 8 * s.ast.size)) Analysis.globalScope n none
    ⟨s.config, s.host, s.ast, s.nextTask, none⟩ (s.asked n).tables

namespace Asks

variable {n : NodeId}

variable (h : s.Asks n)

include h

theorem submitted : s.tables.scheduler.submit (.eval n) = ((s.submit n).tables.scheduler, s.nextTask) := by
  have hsubmit : (s.submit n).tables.scheduler = (s.tables.scheduler.submit (.eval n)).1 := rfl
  rw [hsubmit, Scheduler.submit, h.new]
  rfl

theorem submit_spec : let scheduler := (s.submit n).tables.scheduler
    ¬ s.tables.scheduler.Has s.nextTask ∧ scheduler.kind s.nextTask = .eval n ∧
      (∀ id, scheduler.Open id ↔ id = s.nextTask) ∧ scheduler.next.2 = some s.nextTask ∧
      scheduler.runs s.nextTask = 0 := by
  have hkind := s.tables.scheduler.kind_submit (.eval n)
  have hcases := s.tables.scheduler.submit_cases (.eval n)
  rw [h.submitted] at hkind hcases
  obtain ⟨hhas, -⟩ | ⟨task, hnew, rfl, hhas, hstate, -, hqueue⟩ := hcases
  · exact absurd hhas s.tables.scheduler.tasks.not_has_nextId
  · have hopen (id : TaskId) : (s.submit n).tables.scheduler.Open id ↔ id = s.nextTask := by
      rw [Scheduler.Open, hstate]
      split
      · next heq => simpa [TaskState.isTerminal] using heq
      · next hne =>
        exact ⟨fun ho => absurd ho (Scheduler.not_open_of_isIdle h.idle id), fun he => absurd he hne⟩
    refine ⟨hnew, hkind.2.1, hopen, ?_, ?_⟩
    · refine Scheduler.next_of_only (by simp [hqueue]) (by simp [hstate]) fun id hid => ?_
      exact (hopen id).mp (Scheduler.open_iff.mpr (.inl hid))
    · have hsubmit : (s.submit n).tables.scheduler = (s.tables.scheduler.submit (.eval n)).1 := rfl
      rw [hsubmit, Scheduler.submit, h.new]
      exact congrArg Task.runs ((Pool.getD_push ..).trans (if_pos rfl))

/-- The evaluation leaves the tasks and the answers to others alone. -/
def Quiet (s : Session) (n : NodeId) : Prop :=
  match s.answer n with
  | .ok _ t | .error _ t =>
    t.scheduler = (s.asked n).tables.scheduler ∧ t.results = (s.asked n).tables.results

private theorem settleAll_eq (hs : settle s.nextTask ((s.asked n).runTask s.nextTask) (s.asked n) = .ok () s')
    (hidle : s'.tables.scheduler.isIdle = true) : settleAll (s.submit n) = .ok () s'.started := by
  obtain ⟨-, -, -, hnext, hruns⟩ := h.submit_spec
  obtain ⟨k, hk⟩ : ∃ k, (s.submit n).config.fuel = k + 2 :=
    ⟨s.config.fuel - 2, by have := h.fuel; show s.config.fuel = _; omega⟩
  have hfirst : advance (s.submit n) = .ok true s' := by
    rw [advance_of_next hnext (by rw [hruns]; exact h.runs)]
    simp only [bind, EStateM.bind]
    rw [show (s.submit n).started = s.asked n from rfl, hs]
    rfl
  simp only [settleAll, bind, EStateM.bind, get_request, hk, drive, hfirst, if_true, advance_of_isIdle hidle]
  rfl

theorem runTask_eq : (s.asked n).runTask s.nextTask = match s.answer n with
    | .ok (v, _) t => .ok () { t with results := (s.nextTask, v) :: t.results }
    | .error halt t => .error halt t := by
  have hkind : (s.asked n).tables.scheduler.kind s.nextTask = .eval n :=
    (Scheduler.kind_next ..).trans h.submit_spec.2.1
  unfold runTask answer
  rw [hkind]
  show (Analysis.comptimeValue (Analysis.walk (s.config.fuel + 8 * s.ast.size)) Analysis.globalScope n
    none >>= fun r => modify fun t => { t with results := (s.nextTask, r.1) :: t.results })
    ⟨s.config, s.host, s.ast, s.nextTask, none⟩ (s.asked n).tables = _
  simp only [bind, ReaderT.bind, EStateM.bind]
  cases Analysis.comptimeValue (Analysis.walk (s.config.fuel + 8 * s.ast.size)) Analysis.globalScope n
    none ⟨s.config, s.host, s.ast, s.nextTask, none⟩ (s.asked n).tables <;> rfl

theorem eval_eq (hs : settle s.nextTask ((s.asked n).runTask s.nextTask) (s.asked n) = .ok () s')
    (hidle : s'.tables.scheduler.isIdle = true) :
    (∀ v, s'.tables.results.lookup s.nextTask = some v → s.eval n = .ok v s'.started) ∧
    ∀ trap, s'.tables.results.lookup s.nextTask = none →
      s'.evalTraps.lookup s.nextTask = some trap → s.eval n = .error (.trapped trap) s'.started := by
  have hsettle : settleAll { s with tables :=
      { s.tables with scheduler := (s.submit n).tables.scheduler } } = .ok () s'.started :=
    h.settleAll_eq hs hidle
  have hresults : s'.started.tables.results = s'.tables.results := rfl
  have htraps : s'.started.evalTraps = s'.evalTraps := rfl
  constructor
  · intro v hv
    simp only [Session.eval, bind, EStateM.bind, modifyGet_request, h.submitted, hsettle, get_request, hresults, hv]
    rfl
  · intro trap hnone htrap
    simp only [Session.eval, bind, EStateM.bind, modifyGet_request, h.submitted, hsettle, get_request,
      hresults, htraps, hnone, htrap]
    rfl

theorem eval_ok (hq : Quiet s n) {v ty t} (ha : s.answer n = .ok (v, ty) t) : ∃ s', s.eval n = .ok v s' := by
  obtain ⟨-, -, hopen, -, -⟩ := h.submit_spec
  have hrun := h.runTask_eq
  rw [Quiet, ha] at hq
  rw [ha] at hrun
  have hidle : (t.scheduler.resolve s.nextTask).isIdle = true := by
    rw [hq.1]
    refine Scheduler.isIdle_resolve ((Scheduler.has_next ..).mpr ((hopen s.nextTask).mpr rfl).has)
      fun id ho => (hopen id).mp ?_
    rwa [Scheduler.Open, show (s.asked n).tables.scheduler.state id = _ from Scheduler.state_next ..] at ho
  have hsettle : settle s.nextTask ((s.asked n).runTask s.nextTask) (s.asked n) = .ok ()
      { s.asked n with tables := { t with
        results := (s.nextTask, v) :: t.results
        scheduler := t.scheduler.resolve s.nextTask } } := by rw [hrun, settle]
  exact ⟨_, (h.eval_eq hsettle hidle).1 v (by simp)⟩

theorem eval_trapped (hq : Quiet s n) {trap t} (ha : s.answer n = .error (.trap trap) t) :
    ∃ s', s.eval n = .error (.trapped trap) s' := by
  obtain ⟨hnew, hkind, hopen, -, -⟩ := h.submit_spec
  have hrun := h.runTask_eq
  rw [Quiet, ha] at hq
  rw [ha] at hrun
  let d := Diagnostic.error (.trap trap.kind) trap.kind.message trap.span
  have hidle : ((t.emit d).fail s.nextTask).scheduler.isIdle = true := by
    rw [Tables.scheduler_fail]
    show (t.scheduler.fail s.nextTask).1.isIdle = true
    rw [hq.1]
    refine Scheduler.isIdle_fail fun id ho => (hopen id).mp ?_
    rwa [Scheduler.Open, show (s.asked n).tables.scheduler.state id = _ from Scheduler.state_next ..] at ho
  have hnone : ((t.emit d).fail s.nextTask).results.lookup s.nextTask = none := by
    rw [(Tables.fail_marks _ _).results]
    refine List.lookup_eq_none_iff.mpr fun p hp => ?_
    rw [show (t.emit d).results = _ from hq.2] at hp
    have hne : s.nextTask ≠ p.1 := fun heq => hnew (heq ▸ h.live.reachable.recorded p hp)
    simpa using hne
  have hkind' : t.scheduler.kind s.nextTask = .eval n := by
    rw [hq.1]
    exact (Scheduler.kind_next ..).trans hkind
  have hsettle : settle s.nextTask ((s.asked n).runTask s.nextTask) (s.asked n) = .ok ()
      { s.asked n with
        tables := (t.emit d).fail s.nextTask
        evalTraps := (s.nextTask, trap) :: (s.asked n).evalTraps } := by
    rw [hrun]
    simp only [settle, hkind']
    rfl
  exact ⟨_, (h.eval_eq hsettle hidle).2 trap hnone (by simp)⟩

end Asks

/-! ## Numbers -/

/-- What a session can do is enough for an expression, which stands in its program. -/
structure Affords (s : Session) (n : NodeId) (e : Arith) : Prop where
  spelled : s.ast.Spells n e
  frames : s.config.foldConstants = false → 0 < s.config.limits.maxFrames
  steps : 7 * e.size < s.config.limits.maxSteps

theorem Asks.eval_typed {n e} (h : s.Asks n) (ha : s.Affords n e) (he : e.isTyped = true)
    (hc : s.config.foldConstants = true ∨ e.clashes = false) :
    match e.word with
    | .ok w => ∃ s', s.eval n = .ok (e.scalar.value w) s'
    | .error trap => ∃ s', s.eval n = .error (.trapped trap) s' := by
  have hdepth : e.height ≤ s.config.fuel + 8 * s.ast.size := by
    have := ha.spelled.height_le
    omega
  have hvalue := @Analysis.comptimeValue_typed ⟨s.config, s.host, s.ast, s.nextTask, none⟩
    (s.asked n).tables e n Analysis.globalScope _ h.live.reachable.numbers ha.spelled hdepth ha.steps
    ha.frames he hc
  cases hw : e.word with
  | ok w =>
    rw [hw] at hvalue
    obtain ⟨strays, hvalue⟩ := hvalue
    have hanswer : s.answer n = .ok (e.scalar.value w, e.scalar.ty) _ := hvalue
    refine h.eval_ok ?_ hanswer
    rw [Asks.Quiet, hanswer]
    exact ⟨rfl, rfl⟩
  | error trap =>
    rw [hw] at hvalue
    have hanswer : s.answer n = .error (.trap trap) _ := hvalue
    refine h.eval_trapped ?_ hanswer
    rw [Asks.Quiet, hanswer]
    exact ⟨rfl, rfl⟩

end Session

theorem Arith.trap_of_isInteger {e : Arith} (h : e.isInteger = true) {trap : Trap}
    (ht : e.word = .error trap) : trap.kind = .divideByZero := by
  exact eval_regular (eval_folded (isTyped_of_isInteger h).1 fun _ => none) trap ht

/-- Two sessions give an integer expression the same value, or find it dividing by zero at the same
place, whether they fold operators or execute them. -/
theorem folding_matches_execution {s1 s2 : Session} {n1 n2 : NodeId} {e : Arith}
    (asks1 : s1.Asks n1) (asks2 : s2.Asks n2) (affords1 : s1.Affords n1 e)
    (affords2 : s2.Affords n2 e) (integer : e.isInteger = true) :
    (∃ v s s', s1.eval n1 = .ok v s ∧ s2.eval n2 = .ok v s') ∨
      ∃ span s s', s1.eval n1 = .error (.trapped ⟨.divideByZero, span⟩) s ∧
        s2.eval n2 = .error (.trapped ⟨.divideByZero, span⟩) s' := by
  obtain ⟨htyped, -, hclash⟩ := Arith.isTyped_of_isInteger integer
  have h1 := asks1.eval_typed affords1 htyped (.inr hclash)
  have h2 := asks2.eval_typed affords2 htyped (.inr hclash)
  cases hw : e.word with
  | ok w =>
    rw [hw] at h1 h2
    obtain ⟨s, hs⟩ := h1
    obtain ⟨s', hs'⟩ := h2
    exact .inl ⟨_, s, s', hs, hs'⟩
  | error trap =>
    have hkind := Arith.trap_of_isInteger integer hw
    obtain ⟨kind, span⟩ := trap
    subst hkind
    rw [hw] at h1 h2
    obtain ⟨s, hs⟩ := h1
    obtain ⟨s', hs'⟩ := h2
    exact .inr ⟨span, s, s', hs, hs'⟩

/-- `(5000000000 >> 3) - 7 / (~2 + 3)`, in which the divisor is zero and the types differ. -/
def quotientAst : Ast := ⟨#[
  ⟨.intLit 5000000000, ⟨0, 1, 11⟩⟩, ⟨.intLit 3, ⟨0, 15, 16⟩⟩,
  ⟨.binary .shr 0 1, ⟨0, 1, 16⟩⟩,
  ⟨.intLit 2, ⟨0, 26, 27⟩⟩, ⟨.unary .bitNot 3, ⟨0, 25, 27⟩⟩, ⟨.intLit 3, ⟨0, 30, 31⟩⟩,
  ⟨.binary .add 4 5, ⟨0, 25, 31⟩⟩,
  ⟨.intLit 7, ⟨0, 20, 21⟩⟩, ⟨.binary .div 7 6, ⟨0, 20, 32⟩⟩,
  ⟨.binary .sub 2 8, ⟨0, 0, 32⟩⟩]⟩

/-- The tree of the expression. -/
def quotient : Arith :=
  .binary .sub
    (.binary .shr (.lit 5000000000 ⟨0, 1, 11⟩ (by decide)) (.lit 3 ⟨0, 15, 16⟩ (by decide))
      ⟨0, 1, 16⟩ rfl)
    (.binary .div (.lit 7 ⟨0, 20, 21⟩ (by decide))
      (.binary .add (.unary .bitNot (.lit 2 ⟨0, 26, 27⟩ (by decide)) ⟨0, 25, 27⟩)
        (.lit 3 ⟨0, 30, 31⟩ (by decide)) ⟨0, 25, 31⟩ rfl) ⟨0, 20, 32⟩ rfl)
    ⟨0, 0, 32⟩ rfl

private theorem quotientAst_spells : quotientAst.Spells 9 quotient :=
  .binary rfl (.binary rfl (.lit rfl) (.lit rfl))
    (.binary rfl (.lit rfl) (.binary rfl (.unary rfl (.lit rfl)) (.lit rfl)))

/-- A session that folds the quotient, or one that executes it. -/
def Session.quotient (fold : Bool) : Session :=
  create { Config.default with foldConstants := fold } .none quotientAst

theorem Session.quotient_asks (fold) : (quotient fold).Asks 9 :=
  ⟨.initial _ _ _, by cases fold <;> decide +kernel, by cases fold <;> decide +kernel, by cases fold <;> decide,
    by cases fold <;> decide⟩

theorem Session.quotient_affords (fold) : (quotient fold).Affords 9 Comptime.quotient :=
  ⟨quotientAst_spells, fun _ => by cases fold <;> decide, by cases fold <;> decide⟩

/-- One session folds the quotient and the other executes it. -/
theorem folding_matches_execution_quotient :
    (Session.quotient true).config.foldConstants = true ∧
    (Session.quotient false).config.foldConstants = false ∧
    ((∃ v s s', (Session.quotient true).eval 9 = .ok v s ∧
        (Session.quotient false).eval 9 = .ok v s') ∨
      ∃ span s s', (Session.quotient true).eval 9 = .error (.trapped ⟨.divideByZero, span⟩) s ∧
        (Session.quotient false).eval 9 = .error (.trapped ⟨.divideByZero, span⟩) s') :=
  ⟨rfl, rfl, folding_matches_execution (Session.quotient_asks true) (Session.quotient_asks false)
    (Session.quotient_affords true) (Session.quotient_affords false) rfl⟩

end Comptime
