import Comptime.Proofs.Analysis.Task
import Comptime.Proofs.State
import Comptime.Session.Analyze
import Comptime.Session.Declare

/-!
# What a session does to its tables

A session changes its tables by what the tasks do, and beyond that it schedules tasks and reports
errors (`Tables.Mark`). `Tables.Move` lists these changes. Each request is a sequence of them, so that an
invariant of sessions is shown for one move at a time.
-/

namespace Comptime

namespace Tables

/-- One change that the driver makes on its own. -/
inductive Mark : Tables → Tables → Prop
  | schedule {t : Tables} {scheduler : Scheduler} (keeps : ∀ id, t.scheduler.Has id → scheduler.Has id) :
    Mark t { t with scheduler }
  | report {t : Tables} (d : Diagnostic) : Mark t (t.emit d)
  | failSymbol {t : Tables} (id : SymbolId) : Mark t { t with scopes := t.scopes.setState id .failed }
  /-- The analysis of a body is put off or has failed. -/
  | setBody {t : Tables} {f : FnId} {state : FnState} (unfinished : state ≠ .analyzed) :
    Mark t (t.withFn f fun func => { func with state })

abbrev Marks : Tables → Tables → Prop := Relation.ReflTransGen Mark

/-- One change of the tables of a session. -/
inductive Move : Tables → Tables → Prop
  /-- What a run makes of the tables. -/
  | run {t t' : Tables} (h : t.Updates t') : Move t t'
  | mark {t t' : Tables} (h : t.Mark t') : Move t t'
  /-- A refusal is reported at once. -/
  | refuse {t t' : Tables} (h : t.Refusal t') {d : Diagnostic} (error : d.isError = true) :
    Move t (t'.emit d)
  /-- The name of a declaration is entered. -/
  | enter {t : Tables} {s : Symbol} {scopes : Scopes} {id : SymbolId}
    (free : t.scopes.insert s = .ok (scopes, id)) (unknown : ∀ v, s.state ≠ .resolved v) :
    Move t { t with scopes }
  | setSymbol {t : Tables} {id : SymbolId} {state : SymbolState}
    (sound : ∀ v, state = .resolved v → t.Sane → v.Sound t) :
    Move t { t with scopes := t.scopes.setState id state }

def Moves : Tables → Tables → Prop := Relation.ReflTransGen Move

section

variable {t t' t'' : Tables}

theorem Moves.refl (t : Tables) : t.Moves t := Relation.ReflTransGen.refl

theorem Moves.trans (h : t.Moves t') (h' : t'.Moves t'') : t.Moves t'' :=
  Relation.ReflTransGen.trans h h'

theorem Move.moves (h : t.Move t') : t.Moves t' := Relation.ReflTransGen.single h

theorem Updates.moves (u : t.Updates t') : t.Moves t' := (Move.run u).moves

theorem Mark.moves (h : t.Mark t') : t.Moves t' := (Move.mark h).moves

theorem Marks.moves (h : t.Marks t') : t.Moves t' := h.lift id fun _ _ => .mark

theorem Marks.foldl {α : Type} {f : Tables → α → Tables} (h : ∀ t a, Marks t (f t a)) (l : List α)
    (t : Tables) : t.Marks (l.foldl f t) := by
  induction l generalizing t with
  | nil => exact .refl
  | cons a l ih => exact (h t a).trans (ih (f t a))

/-! ## Soundness -/

theorem Sound.ofSame (h : t.Sound) (scheduler diagnostics) : Sound { t with scheduler, diagnostics } := by
  refine ⟨h.types, h.linked, fun hs => ?_⟩
  have hp := h.proper ⟨hs.strays, hs.types, hs.fns⟩
  exact hp.ofSame h.types rfl rfl rfl id fun g => hp.notes.grow g rfl rfl rfl rfl

theorem Sound.setSymbol (h : t.Sound) {id state} (hs : ∀ v, state = .resolved v → t.Sane → v.Sound t) :
    Sound { t with scopes := t.scopes.setState id state } := by
  refine ⟨h.types, h.linked, fun hsane => ?_⟩
  have hsane : t.Sane := ⟨hsane.strays, hsane.types, hsane.fns⟩
  exact (h.proper hsane).setSymbol h.types fun v hv => hs v hv hsane

theorem Mark.sound (h : t.Mark t') (ht : t.Sound) : t'.Sound := by
  cases h with
  | @schedule scheduler => exact ht.ofSame scheduler t.diagnostics
  | report d => exact ht.ofSame t.scheduler _
  | failSymbol id => exact ht.setSymbol (by simp)
  | @setBody f state unfinished =>
    have g : t.code.Grows (t.code.modifyFn f fun func => { func with state }) :=
      modifyFn_grows _ _ (fun _ => rfl) (fun _ => rfl) (fun _ => rfl)
    refine ⟨ht.types, fun i => linked_modifyFn ht.linked g fun ha => absurd ha unfinished, fun hs => ?_⟩
    have hp := ht.proper ((Grows.ofCode g).sane hs)
    exact hp.ofCode ht.types g (hp.code.setState ht.types unfinished)

theorem Move.sound (h : t.Move t') (ht : t.Sound) : t'.Sound := by
  cases h with
  | run h => exact h.sound ht
  | mark h => exact h.sound ht
  | refuse h => exact (h.sound ht).ofSame _ _
  | enter free unknown =>
    refine ⟨ht.types, ht.linked, fun hs => ?_⟩
    have hp := ht.proper ⟨hs.strays, hs.types, hs.fns⟩
    exact hp.insertSymbol ht.types free fun v hv => absurd hv (unknown v)
  | setSymbol sound => exact ht.setSymbol sound

/-- What a session does keeps its tables sound. -/
theorem Moves.sound (h : t.Moves t') (ht : t.Sound) : t'.Sound := by
  induction h with
  | refl => exact ht
  | tail _ h ih => exact h.sound ih

/-! ## Ends of runs -/

private theorem markFailed_marks (t : Tables) (task) : t.Marks (t.markFailed task) := by
  unfold markFailed
  split
  · exact .single (.failSymbol _)
  · exact .single (.setBody (by simp))
  · exact .refl

theorem fail_marks (t : Tables) (task) : t.Marks (t.fail task) :=
  .head (.schedule fun id => ((t.scheduler.fail_fails task).has id).mpr) (Marks.foldl markFailed_marks _ _)

/-- A body is put back before its task is parked or fails. -/
theorem postpone_eq (t : Tables) (task blocker) :
    ∃ t1, (t1 = t ∨ ∃ f, t.scheduler.kind task = .body f ∧
        t1 = t.withFn f fun func => { func with state := .pending }) ∧
      t.postpone task blocker = if t1.scheduler.state blocker = .failed then t1.fail task
        else { t1 with scheduler := t1.scheduler.park task blocker } := by
  unfold postpone
  cases hk : t.scheduler.kind task with
  | body f => exact ⟨_, .inr ⟨f, rfl, rfl⟩, rfl⟩
  | global id => exact ⟨t, .inl rfl, rfl⟩
  | eval n => exact ⟨t, .inl rfl, rfl⟩

theorem postpone_marks (t : Tables) (task blocker) : t.Marks (t.postpone task blocker) := by
  obtain ⟨t1, ht1, he⟩ := t.postpone_eq task blocker
  have hmarks : t.Marks t1 := by
    rcases ht1 with rfl | ⟨f, -, rfl⟩
    · exact .refl
    · exact .single (.setBody (by simp))
  rw [he]
  split
  · exact hmarks.trans (t1.fail_marks task)
  · exact hmarks.tail (.schedule fun _ => Scheduler.has_park.mpr)

theorem breakCycle_marks (t : Tables) (ast cycle) : t.Marks (t.breakCycle ast cycle) :=
  .head (.report _) (Marks.foldl fail_marks _ _)

theorem Halts.updates {h} (hh : t.Halts h t') (hn : ∀ d, h ≠ .error d) : t.Updates t' := by
  rcases hh.change with u | ⟨t1, d, -, -, he⟩
  · exact u
  · exact absurd he (hn d)

theorem Halts.reported {d} (hh : t.Halts (.error d) t') : t.Moves (t'.emit d) := by
  rcases hh.change with u | ⟨t1, _, u, r, ⟨rfl⟩⟩
  · exact u.moves.trans (Mark.report d).moves
  · exact u.moves.trans (Move.refuse r hh.reason).moves

/-! ## Errors -/

theorem Move.hasErrors (h : t.Move t') (he : t.diagnostics.hasErrors = true) : t'.diagnostics.hasErrors = true := by
  cases h with
  | run h => rw [h.diagnostics, he]
  | mark h =>
    cases h with
    | report d => simp [emit, he]
    | _ => exact he
  | refuse h =>
    cases h with
    | complete analysis => simp [emit, withMembers, analysis.diagnostics, he]
  | _ => exact he

theorem Moves.hasErrors (h : t.Moves t') (he : t.diagnostics.hasErrors = true) : t'.diagnostics.hasErrors = true := by
  induction h with
  | refl => exact he
  | tail _ h ih => exact h.hasErrors ih

end

/-! ## Declarations -/

/-- What declarations do: tasks are submitted, but not run. -/
structure Declares (t t' : Tables) : Prop where
  moves : t.Moves t'
  submits : Scheduler.Submits t.scheduler t'.scheduler

section

variable {t t' t'' : Tables}

theorem Declares.refl (t : Tables) : t.Declares t := ⟨.refl t, .refl⟩

theorem Declares.trans (h : t.Declares t') (h' : t'.Declares t'') : t.Declares t'' :=
  ⟨h.moves.trans h'.moves, h.submits.trans h'.submits⟩

theorem Updates.declares (u : t.Updates t') : t.Declares t' := ⟨u.moves, u.submits⟩

theorem Move.declares (h : t.Move t') (same : t'.scheduler = t.scheduler) : t.Declares t' :=
  ⟨h.moves, same ▸ .refl⟩

private theorem emit_declares (t : Tables) (d) : t.Declares (t.emit d) :=
  ⟨(Mark.report d).moves, .refl⟩

theorem submit_declares (t : Tables) (k) : t.Declares { t with scheduler := (t.scheduler.submit k).1 } :=
  have hsub : Scheduler.Submits t.scheduler (t.scheduler.submit k).1 := .single ⟨k, rfl⟩
  ⟨(Mark.schedule fun _ hid => (hsub.keeps hid).1).moves, hsub⟩

theorem declare_declares (t : Tables) (scope name mutable node span) :
    t.Declares (t.declare scope name mutable node span).1 := by
  unfold declare
  split
  · next hi => exact Move.declares (.enter hi (by simp)) rfl
  · exact t.emit_declares _

theorem declareGlobal_declares (t : Tables) (scope d node span) : t.Declares (t.declareGlobal scope d node span) := by
  have hd := t.declare_declares scope d.name d.mutable node span
  unfold declareGlobal
  split
  · next t' symbol he =>
    rw [he] at hd
    refine hd.trans ((t'.submit_declares (.global symbol)).trans ?_)
    exact Move.declares (.setSymbol (by simp)) rfl
  · next he =>
    rw [he] at hd
    exact hd

private theorem declareScope_declares (t : Tables) (scope name node span) :
    t.Declares (t.declareScope scope name node span).1 := by
  have hc : t.Declares { t with scopes := (t.scopes.create .named (some scope)).1 } :=
    Update.createScope.updates.declares
  have hd := hc.trans (declare_declares _ scope name false node span)
  unfold declareScope
  dsimp only
  split
  · next he =>
    rw [he] at hd
    refine hd.trans (Move.declares (.setSymbol ?_) rfl)
    rintro v ⟨rfl⟩ -
    trivial
  · next he =>
    rw [he] at hd
    exact hd

end

end Tables

namespace Tables

theorem declareItems_related {R : Tables → Tables → Prop} (refl : ∀ t, R t t)
    (trans : ∀ {t1 t2 t3}, R t1 t2 → R t2 t3 → R t1 t3)
    (global : ∀ t scope decl n span, R t (t.declareGlobal scope decl n span))
    (named : ∀ t scope name n span, R t (t.declareScope scope name n span).1) (ast depth scope items) (t : Tables) :
    R t (stateAfter (declareItems ast depth scope items) t) := by
  induction depth generalizing scope items t with
  | zero => exact refl t
  | succ depth ih =>
    refine stateAfter_forM refl trans (fun n t => ?_) items t
    dsimp only
    split
    · exact global t scope _ n _
    · exact stateAfter_bind trans (named t scope _ n _) fun inner t' => ih inner _ t'
    · exact refl t

theorem declareItems_declares (ast depth scope items) (t : Tables) :
    t.Declares (stateAfter (declareItems ast depth scope items) t) :=
  declareItems_related .refl .trans declareGlobal_declares declareScope_declares ast depth scope items t

end Tables

end Comptime
