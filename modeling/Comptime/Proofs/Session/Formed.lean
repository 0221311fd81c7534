import Comptime.Proofs.Graph.Task
import Comptime.Proofs.Session.Stable
import Comptime.Proofs.Session.Typed

/-!
# Analysed functions are formed

In every session that can be reached the graphs of all functions that have been analysed are well formed, so
control never leads nowhere, neither in the finished program nor in what is executed during analysis.
-/

namespace Comptime

/-! ## Tables -/

namespace Tables

variable {t : Tables}

theorem Marks.formed {t'} (h : t.Marks t') (ht : t.code.Formed) : t'.code.Formed := by
  induction h with
  | refl => exact ht
  | tail _ h ih =>
    cases h with
    | setBody unfinished => exact formed_withFn ih fun _ hstate => absurd hstate unfinished
    | _ => exact ih

end Tables

/-! ## Sessions -/

namespace Session

open Analysis (Over)

variable {s s' : Session} {task : TaskId}

theorem runTask_formed (h : s.code.Formed) (task) : Over True (fun _ t => t.code.Formed) (s.runTask task) :=
  Analysis.runTask_formed _ ⟨s.config, s.host, s.ast, task, none⟩ s.tables h

private theorem formed_settle (h : s.code.Formed) (hsettle : settle task (s.runTask task) s = .ok () s') :
    s'.code.Formed := by
  have hrun := runTask_formed h task
  obtain ⟨t', _, rfl, hends⟩ := ends_of_settle hsettle
  show t'.code.Formed
  generalize s.runTask task = r at hends hrun
  cases hends with
  | resolved =>
    cases hrun with
    | ok formed => exact formed
  | parked =>
    cases hrun with
    | error formed => exact (Tables.postpone_marks ..).formed formed
  | @failed _ t diagnostics =>
    cases hrun with
    | error formed => exact (Tables.fail_marks { t with diagnostics } task).formed formed

theorem Step.formed (hstep : Step s s') (h : s.code.Formed) : s'.code.Formed := by
  cases hstep with
  | pushNodes nodes => exact h
  | declare items =>
    rw [stateAfter_declare]
    have hann := Tables.Announces.declareItems s.ast (s.ast.size + 1) Analysis.globalScope items s.tables
    show Code.Formed (Tables.code _)
    rw [congrArg Tables.code hann.same]
    exact h
  | submit n => exact h
  | advance hadv =>
    cases stepped_of_advance hadv with
    | ran next settled => exact formed_settle (s := s.started) h settled
    | idle => exact h
    | broke next found => exact (s.tables.started.breakCycle_marks ..).formed h

theorem Crash.formed (hcrash : Crash s s') (h : s.code.Formed) : s'.code.Formed := by
  obtain ⟨e, hadv⟩ := hcrash
  cases crashed_of_advance hadv with
  | overrun | stuck => exact h
  | @fatal task e t next run =>
    have hrun := runTask_formed (s := s.started) h task
    rw [run] at hrun
    cases hrun with
    | error formed => exact formed

theorem Reachable.formed (h : s.Reachable) : s.code.Formed := by
  obtain ⟨config, host, ast, hsteps⟩ := h
  induction hsteps with
  | refl =>
    intro f hf
    exact absurd (Code.has_of_analyzed hf) (Nat.not_lt_zero _)
  | tail _ hstep ih =>
    rcases hstep with hstep | hcrash
    · exact hstep.formed ih
    · exact hcrash.formed ih

/-- **Control-flow graphs are well formed.** This holds of every function that has been analysed in a session
that was made somehow: see `Function.Orderly` and `Function.Formed` for what it means. So no run of the
machine on the code of the session ends because a block has no terminator or a phi no matching predecessor,
and none of those that are started during analysis does. -/
theorem graphs_formed (h : s.Reachable) :
    (∀ f, (s.code.function f).state = .analyzed → (s.code.function f).Formed) ∧
      (∀ env : Setting, env.code = s.code → ∀ f args m trap, (Machine.run env f args m).1 = .trapped trap →
        trap.kind ≠ .invalidOperation "block without terminator" ∧
          trap.kind ≠ .invalidOperation "phi without matching predecessor") ∧
      ∀ task trap t', s.runTask task = .error (.trap trap) t' →
        trap.kind ≠ .invalidOperation "block without terminator" ∧
          trap.kind ≠ .invalidOperation "phi without matching predecessor" := by
  have hne {kind : TrapKind} (hk : kind.isAstray = false) :
      kind ≠ .invalidOperation "block without terminator" ∧
        kind ≠ .invalidOperation "phi without matching predecessor" := by
    refine ⟨?_, ?_⟩ <;> rintro rfl <;> cases hk
  refine ⟨h.formed, fun env hcode f args m trap hrun => ?_, fun task trap t' hrun => ?_⟩
  · have hguided := Machine.guided_run (Machine.callees_of_formed (hcode ▸ h.formed)) f args m
    rw [hrun] at hguided
    exact hne hguided
  · have hrunTask := runTask_formed h.formed task
    rw [hrun] at hrunTask
    cases hrunTask with
    | error _ guided => exact hne (guided trivial)

/-- The body of the factorial is formed, and so is all that is executed for the constant. -/
theorem graphs_formed_factorial :
    (factorial.code.function 0).state = .analyzed ∧ (factorial.code.function 0).blocks.size = 3 ∧
      (factorial.code.function 0).Formed := by
  have h : (factorial.code.function 0).state = .analyzed ∧
      (factorial.code.function 0).blocks.size = 3 := by decide +kernel
  exact ⟨h.1, h.2, (graphs_formed reachable_factorial).1 _ h.1⟩

end Session

end Comptime
