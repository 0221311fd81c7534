import Comptime.Program
import Comptime.Proofs.Session.Owed
import Comptime.Proofs.Session.Typed

/-!
# No failure is silent

A task that fails reports an error, or it fails because of something that has failed before. So in
every live session an error has been reported or nothing has failed at all. A program that is accepted
has therefore no loose ends: all tasks are resolved, all globals bound, all bodies analysed.
-/

namespace Comptime

namespace Session

variable {s s' : Session}

theorem finish_eq_ok {p} (h : finish s = .ok p s') :
    analyze s = .ok () s' ∧ p.code = s'.code ∧ p.types = s'.types := by
  simp only [finish, bind, EStateM.bind] at h
  cases ha : analyze s with
  | ok _ s1 =>
    rw [ha] at h
    cases h
    exact ⟨rfl, rfl, rfl⟩
  | error e s1 =>
    rw [ha] at h
    cases h

end Session

theorem Owed.complete {g s} {fns : Pool .function Function} {structTasks} (h : Owed False g s fns structTasks)
    (idle : s.isIdle = true) :
    (∀ task, s.Has task → s.state task = .resolved) ∧
    (∀ id, g.symbols.Has id → (g.symbol id).storage = .global → ∃ v, (g.symbol id).state = .resolved v) ∧
    ∀ f, fns.Has f → (fns.getD f default).native = none → (fns.getD f default).state = .analyzed := by
  have hdone (task : TaskId) (ht : s.Has task) : s.state task = .resolved :=
    (Scheduler.not_open_iff.mp (Scheduler.not_open_of_isIdle idle task)).resolve_right (h.tasks task ht)
  refine ⟨hdone, fun id hid hg => ?_, fun f hf hn => ?_⟩
  · have ho := h.symbols id hid
    cases hs : (g.symbol id).state with
    | resolved v => exact ⟨v, rfl⟩
    | failed => exact (ho.failed hs).elim
    | unresolved task =>
      cases task with
      | none => exact absurd hg (ho.inner hs)
      | some a =>
        obtain ⟨ha, -, hne⟩ := ho.owed a hs
        exact absurd (hdone a ha) hne
  · have ho := h.bodies f hf
    have hunfinished (hu : (fns.getD f default).Unfinished) : False := by
      obtain ⟨a, ha, -, hne⟩ := ho.owed hu
      exact hne (hdone a ha)
    cases hs : (fns.getD f default).state with
    | analyzed => rfl
    | failed => exact (ho.failed hs).elim
    | pending => exact (hunfinished ⟨hn, .inl hs⟩).elim
    | analyzing => exact (hunfinished ⟨hn, .inr hs⟩).elim

/-- If anything has failed, then an error has been reported. So a program is accepted only if every
task is resolved, every global stands for something and every body has been analysed. -/
theorem failure_reported {s : Session} (h : s.Live) :
    ((∃ task, s.tables.scheduler.Has task ∧ s.tables.scheduler.state task = .failed) ∨
      (∃ id, s.tables.scopes.symbols.Has id ∧ (s.tables.scopes.symbol id).state = .failed) ∨
      (∃ f, s.code.fns.Has f ∧ (s.code.function f).state = .failed) →
      s.tables.diagnostics.hasErrors = true) ∧
    ∀ (p : Program) (s' : Session), s.finish = .ok p s' →
      (∀ task, s'.tables.scheduler.Has task → s'.tables.scheduler.state task = .resolved) ∧
      (∀ id, s'.tables.scopes.symbols.Has id → (s'.tables.scopes.symbol id).storage = .global →
        ∃ v, (s'.tables.scopes.symbol id).state = .resolved v) ∧
      ∀ f, p.code.fns.Has f → (p.code.function f).native = none →
        (p.code.function f).state = .analyzed := by
  refine ⟨fun hf => ?_, fun p s' hp => ?_⟩
  · have ht := h.owed
    rcases hf with ⟨task, has, hf⟩ | ⟨id, has, hf⟩ | ⟨f, has, hf⟩
    · exact ht.tasks task has hf
    · exact (ht.symbols id has).failed hf
    · exact (ht.bodies f has).failed hf
  · obtain ⟨ha, hcode, -⟩ := Session.finish_eq_ok hp
    obtain ⟨hsteps, hidle, herrors⟩ := Session.analyze_ok ha
    have ht : s'.tables.Owed False := (h.steps hsteps).owed.mono (by rw [herrors]; simp)
    rw [hcode]
    exact Owed.complete ht hidle

/-- Two globals `a :: c` and `b :: a`. The first has been found to be no name for anything, and the
second has failed because of it. -/
def Session.orphans : Session :=
  stateAfter advance (stateAfter advance (stateAfter (declare [1, 3]) (create .default .none ⟨#[
    ⟨.ident "c", ⟨0, 5, 6⟩⟩, ⟨.decl ⟨"a", none, some 0, false⟩, ⟨0, 0, 7⟩⟩,
    ⟨.ident "a", ⟨0, 13, 14⟩⟩, ⟨.decl ⟨"b", none, some 2, false⟩, ⟨0, 8, 15⟩⟩]⟩)))

theorem Session.live_orphans : orphans.Live :=
  (((Live.initial ..).after_declare _).after_advance (by decide +kernel)).after_advance (by decide +kernel)

/-- The factorial has been declared. -/
def Session.factorialDeclared : Session :=
  stateAfter (declare [14, 17]) (create .default .none factorialAst)

theorem Session.live_factorialDeclared : factorialDeclared.Live := (Live.initial ..).after_declare _

/-- The second orphan has failed silently, but something was reported. The program of the factorial is
accepted, so its three tasks are resolved. -/
theorem failure_reported_orphans :
    Session.orphans.tables.scheduler.state 1 = .failed ∧
    Session.orphans.tables.diagnostics.hasErrors = true ∧
    ∃ p s', Session.factorialDeclared.finish = .ok p s' ∧ s'.tables.scheduler.Has 2 ∧
      s'.tables.scheduler.state 2 = .resolved ∧ (p.code.function 0).state = .analyzed := by
  have hfailed : Session.orphans.tables.scheduler.Has 1 ∧
      Session.orphans.tables.scheduler.state 1 = .failed := by decide +kernel
  refine ⟨hfailed.2, (failure_reported Session.live_orphans).1 (.inl ⟨1, hfailed⟩), ?_⟩
  have hok : succeeds Session.finish Session.factorialDeclared (fun p s' =>
      s'.tables.scheduler.tasks.size == 3 && p.code.fns.size == 1 &&
        (p.code.function 0).native.isNone) = true := by decide +kernel
  obtain ⟨p, s', hp, htest⟩ := of_succeeds hok
  simp only [Bool.and_eq_true, beq_iff_eq, Option.isNone_iff_eq_none] at htest
  obtain ⟨⟨htasks, hfns⟩, hnative⟩ := htest
  obtain ⟨htask, -, hbody⟩ := (failure_reported Session.live_factorialDeclared).2 p s' hp
  have hhas : s'.tables.scheduler.Has 2 := by
    show 2 < s'.tables.scheduler.tasks.size
    omega
  have hfn : p.code.fns.Has 0 := by
    show 0 < p.code.fns.size
    omega
  exact ⟨p, s', hp, hhas, htask _ hhas, hbody _ hfn hnative⟩

end Comptime
