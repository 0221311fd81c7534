import Comptime.Proofs.Session.Schedule

/-!
# What is owed

Names, bodies and structs that are not finished are owed by the tasks that are to finish them. A task
that is resolved owes no name and no body (`Live.owed`). It may owe a struct: one that it has declared in
a run that was put off, and did not come across again. Hence a task is waited for only while it is not
resolved, or for a struct that it has left open (`Owed.awaited`).

The second half of the invariant is that failures have a cause `d`: no task, no symbol and no function has
failed unless `d`. Every update of a run keeps both halves (`Update.owed`). For the tables of a live session
the cause is that an error has been reported.
-/

namespace Comptime

/-- The symbol has failed for a reason, or is resolved, or something will resolve it: the run that has
entered it, or a task. -/
structure SymbolOwed (d : Prop) (s : Scheduler) (id : SymbolId) (symbol : Symbol) : Prop where
  failed : symbol.state = .failed → d
  inner : symbol.state = .unresolved none → symbol.storage ≠ .global
  owed : ∀ a, symbol.state = .unresolved (some a) → s.Has a ∧ s.kind a = .global id ∧ s.state a ≠ .resolved

/-- The function has failed for a reason, or it needs no body, or has one, or a task will write it. -/
structure BodyOwed (d : Prop) (s : Scheduler) (f : FnId) (func : Function) : Prop where
  failed : func.state = .failed → d
  owed : func.Unfinished → ∃ a, s.Has a ∧ s.kind a = .body f ∧ s.state a ≠ .resolved

theorem SymbolOwed.resolved {d s id} {symbol : Symbol} {v} (h : symbol.state = .resolved v) :
    SymbolOwed d s id symbol := ⟨by simp [h], by simp [h], by simp [h]⟩

theorem SymbolOwed.lost {d : Prop} (hd : d) {s id} {symbol : Symbol} (h : symbol.state = .failed) :
    SymbolOwed d s id symbol := ⟨fun _ => hd, by simp [h], by simp [h]⟩

theorem BodyOwed.settled {d s f} {func : Function} (failed : func.state = .failed → d)
    (h : func.native.isSome = true ∨ func.state = .analyzed ∨ func.state = .failed) : BodyOwed d s f func := by
  refine ⟨failed, fun hu => ?_⟩
  rcases h with h | h
  · rw [hu.native] at h
    cases h
  · rcases h with h | h <;> rcases hu.state with hs | hs <;> rw [h] at hs <;> cases hs

/-- What a task is about exists. -/
def SubjectExists (g : Scopes) (fns : Pool .function Function) : TaskKind → Prop
  | .global id => g.symbols.Has id
  | .body f => fns.Has f
  | .eval _ => True

theorem SubjectExists.mono {g g' : Scopes} {fns fns' : Pool .function Function} {k} (h : SubjectExists g fns k)
    (symbols : ∀ j, g.symbols.Has j → g'.symbols.Has j) (functions : ∀ f, fns.Has f → fns'.Has f) :
    SubjectExists g' fns' k := by
  cases k with
  | global id => exact symbols id h
  | body f => exact functions f h
  | eval n => trivial

/-- What is not finished is still to be done, and whatever has failed did so because of `d`. -/
structure Owed (d : Prop) (g : Scopes) (s : Scheduler) (fns : Pool .function Function)
    (structTasks : List (StructId × TaskId)) : Prop where
  names : g.Closed
  distinct : s.Distinct
  tasks : ∀ a, s.Has a → s.state a = .failed → d
  subjects : ∀ a, s.Has a → SubjectExists g fns (s.kind a)
  structs : ∀ p ∈ structTasks, s.Has p.2
  symbols : ∀ id, g.symbols.Has id → SymbolOwed d s id (g.symbol id)
  bodies : ∀ f, fns.Has f → BodyOwed d s f (fns.getD f default)

namespace Owed

variable {d : Prop} {g g' : Scopes} {s s' : Scheduler} {fns fns' : Pool .function Function}
  {structTasks : List (StructId × TaskId)}

theorem mono {d' : Prop} (h : Owed d g s fns structTasks) (hd : d → d') : Owed d' g s fns structTasks :=
  { h with
    tasks := fun a ha hf => hd (h.tasks a ha hf)
    symbols := fun id hid => { h.symbols id hid with failed := fun hf => hd ((h.symbols id hid).failed hf) }
    bodies := fun f hf => { h.bodies f hf with failed := fun he => hd ((h.bodies f hf).failed he) } }

/-! ## Changes of the schedule -/

/-- What a task is about has been analysed. -/
def Done (g : Scopes) (fns : Pool .function Function) : TaskKind → Prop
  | .global id => ∃ v, (g.symbol id).state = .resolved v
  | .body f => (fns.getD f default).state = .analyzed
  | .eval _ => True

/-- The tasks of one schedule are in another one, and those that have been resolved on the way were so after
what they are about was analysed. -/
structure Follows (g : Scopes) (fns : Pool .function Function) (s s' : Scheduler) : Prop where
  keeps : ∀ a, s.Has a → s'.Has a ∧ s'.kind a = s.kind a
  ends : ∀ a, s.Has a → s'.state a = .resolved → s.state a = .resolved ∨ Done g fns (s.kind a)

theorem Follows.symbol (h : Follows g fns s s') {id : SymbolId}
    (hs : SymbolOwed d s id (g.symbol id)) : SymbolOwed d s' id (g.symbol id) := by
  refine { hs with owed := fun a state => ?_ }
  obtain ⟨ha, hk, hne⟩ := hs.owed a state
  obtain ⟨ha', hk'⟩ := h.keeps a ha
  refine ⟨ha', hk'.trans hk, fun hr => (h.ends a ha hr).elim hne fun hd => ?_⟩
  rw [hk] at hd
  obtain ⟨v, hv⟩ := hd
  rw [hv] at state
  cases state

theorem Follows.body (h : Follows g fns s s') {f : FnId}
    (hf : BodyOwed d s f (fns.getD f default)) : BodyOwed d s' f (fns.getD f default) := by
  refine { hf with owed := fun hu => ?_ }
  obtain ⟨a, ha, hk, hne⟩ := hf.owed hu
  obtain ⟨ha', hk'⟩ := h.keeps a ha
  refine ⟨a, ha', hk'.trans hk, fun hr => (h.ends a ha hr).elim hne fun hd => ?_⟩
  rw [hk] at hd
  have hd : (fns.getD f default).state = .analyzed := hd
  rcases hu.state with hu | hu <;> rw [hd] at hu <;> cases hu

theorem reschedule (h : Owed d g s fns structTasks) (distinct : s'.Distinct)
    (tasks : ∀ a, s'.Has a → s'.state a = .failed → d)
    (subjects : ∀ a, s'.Has a → SubjectExists g fns (s'.kind a))
    (follows : Follows g fns s s') : Owed d g s' fns structTasks where
  names := h.names
  distinct := distinct
  tasks := tasks
  subjects := subjects
  structs p hp := (follows.keeps p.2 (h.structs p hp)).1
  symbols id hid := follows.symbol (h.symbols id hid)
  bodies f hf := follows.body (h.bodies f hf)

theorem rescheduleSame (h : Owed d g s fns structTasks) (has : ∀ a, s'.Has a ↔ s.Has a)
    (kind : ∀ a, s'.kind a = s.kind a) (tasks : ∀ a, s'.Has a → s'.state a = .failed → d)
    (ends : ∀ a, s'.state a = .resolved → s.state a = .resolved ∨ Done g fns (s.kind a)) :
    Owed d g s' fns structTasks := by
  refine h.reschedule (h.distinct.same has kind) tasks (fun a ha => ?_)
    ⟨fun a ha => ⟨(has a).mpr ha, kind a⟩, fun a _ => ends a⟩
  rw [kind]
  exact h.subjects a ((has a).mp ha)

theorem follows_submit (g : Scopes) (fns : Pool .function Function) (s : Scheduler) (k : TaskKind) :
    Follows g fns s (s.submit k).1 := by
  have hkeeps (a : TaskId) (ha : s.Has a) := Scheduler.Submits.keeps (.single ⟨k, rfl⟩) ha
  exact ⟨fun a ha => ⟨(hkeeps a ha).1, (hkeeps a ha).2.2⟩, fun a ha hr => .inl ((hkeeps a ha).2.1.symm.trans hr)⟩

theorem tasks_submit (h : ∀ a, s.Has a → s.state a = .failed → d) (k a) (ha : (s.submit k).1.Has a)
    (hf : (s.submit k).1.state a = .failed) : d := by
  rcases s.submit_cases k with ⟨-, he⟩ | ⟨t, -, -, has, hstate, -⟩
  · rw [he] at ha hf
    exact h a ha hf
  · rw [hstate] at hf
    split at hf
    · cases hf
    · next hne => exact h a (((has a).mp ha).resolve_right hne) hf

theorem subjects_submit (h : ∀ a, s.Has a → SubjectExists g fns (s.kind a)) {k} (hk : SubjectExists g fns k) (a)
    (ha : (s.submit k).1.Has a) : SubjectExists g fns ((s.submit k).1.kind a) := by
  obtain ⟨-, hnew, hold⟩ := s.kind_submit k
  rcases s.submit_cases k with ⟨-, he⟩ | ⟨t, -, htask, has, -⟩
  · rw [he] at ha ⊢
    exact h a ha
  · rcases (has a).mp ha with ha | rfl
    · rw [hold a ha]
      exact h a ha
    · rw [← htask, hnew]
      exact hk

private theorem submit (h : Owed d g s fns structTasks) {k} (hk : SubjectExists g fns k) :
    Owed d g (s.submit k).1 fns structTasks :=
  h.reschedule (h.distinct.submit k) (tasks_submit h.tasks k) (subjects_submit h.subjects hk)
    (follows_submit g fns s k)

theorem state_submit {k} (hk : ∀ a, s.Has a → s.kind a ≠ k) : (s.submit k).1.state (s.submit k).2 ≠ .resolved := by
  rcases s.submit_cases k with ⟨hs, he⟩ | ⟨t, -, htask, -, hstate, -⟩
  · have hkind := (s.kind_submit k).2.1
    rw [he] at hkind
    exact absurd hkind (hk _ hs)
  · rw [hstate, htask, if_pos rfl]
    simp

variable (h : Owed d g s fns structTasks)

include h

theorem next : Owed d g s.next.1 fns structTasks := by
  refine h.rescheduleSame s.has_next s.kind_next (fun a ha hf => ?_) fun a ha => .inl (s.state_next a ▸ ha)
  exact h.tasks a ((s.has_next a).mp ha) (s.state_next a ▸ hf)

private theorem resolve {task} (ht : s.Has task) (hd : Done g fns (s.kind task)) :
    Owed d g (s.resolve task) fns structTasks := by
  obtain ⟨has, -, hstate, -⟩ := Scheduler.resolve_spec ht
  refine h.rescheduleSame has (s.kind_resolve task) (fun a ha hf => ?_) fun a ha => ?_
  · rw [hstate] at hf
    split at hf
    · cases hf
    · split at hf
      · cases hf
      · exact h.tasks a ((has a).mp ha) hf
  · rw [hstate] at ha
    split at ha
    · next he => exact .inr (he ▸ hd)
    · split at ha
      · cases ha
      · exact .inl ha

theorem fail (hd : d) (task) : Owed d g (s.fail task).1 fns structTasks := by
  have hf := s.fail_fails task
  refine h.rescheduleSame hf.has (s.kind_fail task) (fun _ _ _ => hd) fun a ha => .inl ?_
  rw [← (hf.kept a (by rw [ha]; simp)).1, ha]

private theorem park {task blocker} (ht : s.Has task)
    (hb : s.state blocker = .failed → d) : Owed d g (s.park task blocker) fns structTasks := by
  by_cases ho : s.Open blocker
  · obtain ⟨has, -, hstate, -⟩ := Scheduler.park_of_open ht ho
    refine h.rescheduleSame has (fun a => s.kind_park task a blocker) (fun a ha hf => ?_) fun a ha => .inl ?_
    · rw [hstate] at hf
      split at hf
      · cases hf
      · exact h.tasks a ((has a).mp ha) hf
    · rw [hstate] at ha
      split at ha
      · cases ha
      · exact ha
  · rcases Scheduler.not_open_iff.mp ho with hr | hr <;> rw [Scheduler.park, hr]
    · exact h.rescheduleSame (fun _ => Iff.rfl) (fun _ => rfl) h.tasks fun _ => .inl
    · exact h.fail (hb hr) task

/-! ## Changes of symbols and functions -/

theorem createScope (kind parent) : Owed d (g.create kind parent).1 s fns structTasks :=
  ⟨h.names.create kind parent, h.distinct, h.tasks, h.subjects, h.structs, h.symbols, h.bodies⟩

theorem insert {symbol : Symbol} {id : SymbolId}
    (hi : g.insert symbol = .ok (g', id)) (hs : SymbolOwed d s id symbol) :
    Owed d g' s fns structTasks :=
  { h with
    names := h.names.insert hi
    subjects a ha :=
      (h.subjects a ha).mono (fun _ hj => (Scopes.has_insert hi).mpr (.inl hj)) fun _ hf => hf
    symbols j hj := by
      rw [Scopes.symbol_insert hi]
      split
      · next he => exact he ▸ hs
      · next hne => exact h.symbols j (((Scopes.has_insert hi).mp hj).resolve_right hne) }

theorem enter (follows : Follows g fns s s') (distinct : s'.Distinct)
    (tasks : ∀ a, s'.Has a → s'.state a = .failed → d) {symbol : Symbol} {id : SymbolId}
    (hi : g.insert symbol = .ok (g', id)) {state : SymbolState}
    (subjects : ∀ a, s'.Has a → SubjectExists (g'.setState id state) fns (s'.kind a))
    (hs : SymbolOwed d s' id { symbol with state }) :
    Owed d (g'.setState id state) s' fns structTasks where
  names := (h.names.insert hi).setState
  distinct := distinct
  tasks := tasks
  subjects := subjects
  structs p hp := (follows.keeps p.2 (h.structs p hp)).1
  symbols j hj := by
    have hold : g'.symbols.Has j := Scopes.has_setState.mp hj
    by_cases he : j = id
    · subst he
      rw [Scopes.symbol_setState_self hold, Scopes.symbol_insert hi, if_pos rfl]
      exact hs
    · rw [Scopes.symbol_setState_of_ne he, Scopes.symbol_insert hi, if_neg he]
      exact follows.symbol (h.symbols j (((Scopes.has_insert hi).mp hold).resolve_right he))
  bodies f hf := follows.body (h.bodies f hf)

theorem subjects_enter {symbol id} (hi : g.insert symbol = .ok (g', id)) (state a)
    (ha : s.Has a) : SubjectExists (g'.setState id state) fns (s.kind a) :=
  (h.subjects a ha).mono (fun _ hj => Scopes.has_setState.mpr ((Scopes.has_insert hi).mpr (.inl hj))) fun _ hf => hf

theorem enterResolved {symbol id} (hi : g.insert symbol = .ok (g', id)) (v) :
    Owed d (g'.resolve id v) s fns structTasks :=
  h.enter ⟨fun _ ha => ⟨ha, rfl⟩, fun _ _ ha => .inl ha⟩ h.distinct h.tasks hi (h.subjects_enter hi _) (.resolved rfl)

theorem enterGlobal {symbol id} (hi : g.insert symbol = .ok (g', id)) :
    Owed d (g'.setState id (.unresolved (some (s.submit (.global id)).2)))
      (s.submit (.global id)).1 fns structTasks := by
  have hnew : ∀ a, s.Has a → s.kind a ≠ .global id := by
    intro a ha hk
    have hsub := h.subjects a ha
    rw [hk, (Scopes.insert_eq_ok hi).2.1] at hsub
    exact g.symbols.not_has_nextId hsub
  refine h.enter (follows_submit g fns s _) (h.distinct.submit _) (tasks_submit h.tasks _) hi
    (subjects_submit (h.subjects_enter hi _) ?_)
    ⟨by simp, by simp, ?_⟩
  · exact Scopes.has_setState.mpr ((Scopes.has_insert hi).mpr (.inr rfl))
  · rintro _ ⟨⟩
    exact ⟨(s.kind_submit _).1, (s.kind_submit _).2.1, state_submit hnew⟩

private theorem nameTypes (scope names) : Owed d (g.nameTypes scope names) s fns structTasks := by
  unfold Scopes.nameTypes
  induction names generalizing g with
  | nil => exact h
  | cons p names ih =>
    rw [List.foldl_cons]
    refine ih ?_
    dsimp only
    split
    · next hi => exact h.insert hi (.resolved rfl)
    · exact h

theorem setSymbol {id : SymbolId} {state : SymbolState}
    (hs : g.symbols.Has id → SymbolOwed d s id { g.symbol id with state }) :
    Owed d (g.setState id state) s fns structTasks :=
  { h with
    names := h.names.setState
    subjects a ha := (h.subjects a ha).mono (fun _ => Scopes.has_setState.mpr) fun _ hf => hf
    symbols j hj := by
      have hold : g.symbols.Has j := Scopes.has_setState.mp hj
      by_cases he : j = id
      · subst he
        rw [Scopes.symbol_setState_self hold]
        exact hs hold
      · rw [Scopes.symbol_setState_of_ne he]
        exact h.symbols j hold }

theorem modifyFn {f : FnId} {change : Function → Function}
    (hf : fns.Has f → BodyOwed d s f (change (fns.getD f default))) :
    Owed d g s (fns.modify f change) structTasks :=
  { h with
    subjects a ha := (h.subjects a ha).mono (fun _ => id) fun _ => Pool.has_modify.mpr
    bodies i hi := by
      have hold : fns.Has i := Pool.has_modify.mp hi
      by_cases he : i = f
      · subst he
        rw [Pool.getD_modify_self hold]
        exact hf hold
      · rw [Pool.getD_modify_of_ne he]
        exact h.bodies i hold }

theorem pushFn {func} (hf : BodyOwed d s fns.nextId func) : Owed d g s (fns.push func) structTasks :=
  { h with
    subjects a ha := (h.subjects a ha).mono (fun _ => id) fun _ hf => hf.push func
    bodies i hi := by
      rw [Pool.getD_push]
      split
      · next he => exact he ▸ hf
      · next he => exact h.bodies i ((Pool.has_push.mp hi).resolve_right he) }

theorem addFn {func : Function} (unfailed : func.state ≠ .failed) :
    Owed d g (s.submit (.body fns.nextId)).1 (fns.push func) structTasks := by
  have follows := follows_submit g fns s (.body fns.nextId)
  have hnew : ∀ a, s.Has a → s.kind a ≠ .body fns.nextId := by
    intro a ha hk
    have hsub := h.subjects a ha
    rw [hk] at hsub
    exact fns.not_has_nextId hsub
  refine ⟨h.names, h.distinct.submit _, tasks_submit h.tasks _, subjects_submit ?_ ?_,
    fun p hp => (follows.keeps p.2 (h.structs p hp)).1, fun id hid => follows.symbol (h.symbols id hid),
    fun f hf => ?_⟩
  · exact fun a ha => (h.subjects a ha).mono (fun _ => id) fun _ hf => hf.push func
  · exact fns.has_push_nextId func
  · rw [Pool.getD_push]
    split
    · next he =>
      subst he
      exact ⟨fun hf => absurd hf unfailed, fun _ =>
        ⟨_, (s.kind_submit _).1, (s.kind_submit _).2.1, state_submit hnew⟩⟩
    · next he => exact follows.body (h.bodies f ((Pool.has_push.mp hf).resolve_right he))

end Owed

/-! ## Updates -/

namespace Tables

variable {t t' : Tables} {d : Prop}

def Owed (d : Prop) (t : Tables) : Prop := Comptime.Owed d t.scopes t.scheduler t.code.fns t.structTasks

/-- The task is resolved, and a struct that it has declared has no members. -/
def LeftOpen (t : Tables) (task : TaskId) : Prop :=
  t.scheduler.state task = .resolved ∧
    ∃ id, t.types.IsOpen id ∧ t.structTasks.lookup id = some task

theorem Finished.done {k} (h : t.Finished k) (exist : SubjectExists t.scopes t.code.fns k) :
    Owed.Done t.scopes t.code.fns k := by
  cases k with
  | global id => exact h exist
  | body f => exact h exist
  | eval n => trivial

/-- Only an open task is waited for, or one that has left a struct open. -/
theorem Owed.awaited (ht : t.Owed d) {task} (h : t.Awaits task) :
    t.scheduler.Has task ∧ (t.scheduler.state task = .resolved → t.LeftOpen task) := by
  cases h with
  | @symbol id state =>
    have hid : t.scopes.symbols.Has id := by
      refine Decidable.byContradiction fun hn => ?_
      rw [Scopes.symbol, Pool.getD_of_not_has hn] at state
      cases state
    obtain ⟨has, -, hne⟩ := (ht.symbols id hid).owed task state
    exact ⟨has, fun hr => absurd hr hne⟩
  | @struct id isOpen declares =>
    exact ⟨ht.structs _ (mem_of_lookup declares), fun hr => ⟨hr, id, isOpen, declares⟩⟩
  | @body f unfinished found =>
    obtain ⟨has, hk⟩ := Scheduler.find?_eq_some found
    have hf : t.code.fns.Has f := by
      have hsub := ht.subjects task has
      rwa [hk] at hsub
    obtain ⟨a, ha, hka, hne⟩ := (ht.bodies f hf).owed unfinished
    obtain rfl := ht.distinct a task ha has (hka.trans hk.symm)
    exact ⟨has, fun hr => absurd hr hne⟩

theorem Owed.cause (ht : t.Owed d) (h : t.Lost) : d := by
  cases h with
  | symbol declared failed => exact (ht.symbols _ (ht.names _ _ _ declared)).failed failed
  | function has failed => exact (ht.bodies _ has).failed failed

theorem Owed.setBody (ht : t.Owed d) {task f} (hr : t.Running task) (hk : t.scheduler.kind task = .body f) {state}
    (unfailed : state ≠ .failed) : (t.withFn f fun func => { func with state }).Owed d := by
  refine ht.modifyFn fun _ => ⟨fun hf => absurd hf unfailed, fun _ => ⟨task, hr.has, hk, ?_⟩⟩
  rw [hr]
  simp

theorem Update.owed (h : t.Update t') (ht : t.Owed d) : t'.Owed d := by
  cases h with
  | createScope => exact ht.createScope _ _
  | insertSymbol free inner =>
    refine ht.insert free ?_
    rcases inner.state with hs | ⟨v, hs⟩
    · exact ⟨by simp [hs], fun _ => inner.storage, by simp [hs]⟩
    · exact .resolved hs
  | resolveSymbol => exact ht.setSymbol fun _ => .resolved rfl
  | @addFunction func source scheduler _ _ _ unfailed task =>
    subst task
    show Comptime.Owed d t.scopes (if func.native.isSome = true then _ else _) _ t.structTasks
    split
    · next hn => exact ht.pushFn (.settled (fun hf => absurd hf unfailed) (.inl hn))
    · exact ht.addFn unfailed
  | addSpecialization =>
    exact ht.modifyFn fun hf => ⟨(ht.bodies _ hf).failed, fun hu => (ht.bodies _ hf).owed ⟨hu.native, hu.state⟩⟩
  | declareStruct running =>
    refine { ht with structs := fun p hp => ?_ }
    rcases List.mem_cons.mp hp with rfl | hp
    · exact running.has
    · exact ht.structs p hp
  | startBody running kind => exact ht.setBody running kind (by simp)
  | install => exact ht.modifyFn fun _ => .settled (by simp) (.inr (.inl rfl))
  | _ => exact ht

theorem Updates.owed (u : t.Updates t') (ht : t.Owed d) : t'.Owed d := by
  induction u with
  | refl => exact ht
  | tail _ h ih => exact h.owed (ih ht)
  | complete _ _ _ _ ih ih' => exact ih' (ih ht)

/-! ## Ends of runs -/

theorem Owed.markFailed (ht : t.Owed d) (hd : d) (task) : (t.markFailed task).Owed d := by
  unfold Tables.markFailed
  split
  · exact ht.setSymbol fun _ => .lost hd rfl
  · exact ht.modifyFn fun _ => .settled (fun _ => hd) (.inr (.inr rfl))
  · exact ht

theorem Owed.fail (ht : t.Owed d) (hd : d) (task) : (t.fail task).Owed d := by
  have hfailed := Comptime.Owed.fail ht hd task
  exact List.foldlRecOn (motive := fun t : Tables => t.Owed d) _ _ hfailed fun t ht j _ => ht.markFailed hd j

theorem Owed.postpone (ht : t.Owed d) {task blocker} (hr : t.Running task) (hb : t.scheduler.state blocker = .failed → d) :
    (t.postpone task blocker).Owed d := by
  obtain ⟨t1, ht1, he⟩ := t.postpone_eq task blocker
  have howed : t1.Owed d ∧ t1.Running task ∧ (t1.scheduler.state blocker = .failed → d) := by
    rcases ht1 with rfl | ⟨f, hk, rfl⟩
    · exact ⟨ht, hr, hb⟩
    · exact ⟨ht.setBody hr hk (by simp), hr, hb⟩
  obtain ⟨ht, hr, hb⟩ := howed
  rw [he]
  split
  · next hf => exact ht.fail (hb hf) task
  · exact Comptime.Owed.park ht hr.has hb

theorem Owed.foldl_fail (ht : t.Owed d) (hd : d) (tasks : List TaskId) : (tasks.foldl Tables.fail t).Owed d :=
  List.foldlRecOn (motive := fun t : Tables => t.Owed d) _ _ ht fun _ ht j _ => ht.fail hd j

/-! ## Declarations -/

theorem Owed.declareGlobal (ht : t.Owed d) (scope decl node span) : (t.declareGlobal scope decl node span).Owed d := by
  unfold Tables.declareGlobal declare
  cases hi : t.scopes.insert ⟨decl.name, .global, decl.mutable, scope, some node, span, .unresolved none⟩ with
  | ok r => exact Comptime.Owed.enterGlobal ht hi
  | error previous => exact ht

theorem Owed.declareScope (ht : t.Owed d) (scope) (name) (node span) :
    (t.declareScope scope name node span).1.Owed d := by
  have hc := Comptime.Owed.createScope ht .named (some scope)
  unfold Tables.declareScope declare
  dsimp only
  cases hi : (t.scopes.create .named (some scope)).1.insert
    ⟨name, .global, false, scope, some node, span, .unresolved none⟩ with
  | ok r => exact hc.enterResolved hi _
  | error previous => exact hc

theorem Owed.declareItems (ast) (depth) (scope items t) (ht : t.Owed d) :
    (stateAfter (declareItems ast depth scope items) t).Owed d :=
  declareItems_related (R := fun t t' => t.Owed d → t'.Owed d) (fun _ => id) (fun h h' => h' ∘ h)
    (fun _ scope decl n span ht => ht.declareGlobal scope decl n span)
    (fun _ scope name n span ht => ht.declareScope scope name n span) ast depth scope items t ht

theorem Owed.initial : Tables.initial.Owed d := by
  have hnone {κ : Entity} {α : Type} (i : Id κ) : ¬ (Pool.empty : Pool κ α).Has i := Nat.not_lt_zero _
  have hempty : Comptime.Owed d Scopes.empty .empty .empty [] :=
    { names := fun scope name id h => by cases h
      distinct := fun a _ ha => absurd ha (hnone a)
      tasks := fun a ha => absurd ha (hnone a)
      subjects := fun a ha => absurd ha (hnone a)
      structs := by simp
      symbols := fun id hid => absurd hid (hnone id)
      bodies := fun f hf => absurd hf (hnone f) }
  have hnames := (hempty.createScope .builtin none).nameTypes
    (Scopes.empty.create .builtin none).2 TypeTable.builtinNames
  exact hnames.createScope .global _

/-! ## Errors -/

/-- What has failed has failed because of an error that was reported. -/
def Candid (t : Tables) : Prop := t.Owed (t.diagnostics.hasErrors = true)

theorem Candid.emit (ht : t.Candid) (e) : (t.emit e).Candid := ht.mono (Move.mark (.report e)).hasErrors

theorem Candid.fail (ht : t.Candid) (he : t.diagnostics.hasErrors = true) (task) : (t.fail task).Candid :=
  (Owed.fail ht he task).mono (t.fail_marks task).moves.hasErrors

private theorem isError_cycleReport (t : Tables) (ast cycle) : (t.cycleReport ast cycle).isError = true :=
  (Diagnostic.isError_foldl_withNote (fun p : String × Span => p.1 ++ " is part of the cycle")
    (fun p => some p.2) (cycle.map (t.label ast)) _).trans rfl

theorem Candid.breakCycle (ht : t.Candid) (ast cycle) : (t.breakCycle ast cycle).Candid := by
  have he : (t.emit (t.cycleReport ast cycle)).diagnostics.hasErrors = true := by
    simp [Tables.emit, isError_cycleReport]
  exact (Owed.foldl_fail (ht.emit _) he cycle).mono (Marks.foldl fail_marks cycle _).moves.hasErrors

theorem Updates.candid (u : t.Updates t') (ht : t.Candid) : t'.Candid := (u.owed ht).mono u.moves.hasErrors

theorem Halts.candid {h} (hh : t.Halts h t') (ht : t.Candid) : t'.Candid := by
  rcases hh.change with u | ⟨t1, d, u, r, -⟩
  · exact u.candid ht
  · cases r with
    | complete analysis => exact (u.trans analysis).candid ht

end Tables

/-! ## Sessions -/

namespace Session

variable {s s' : Session} {task : TaskId}

theorem settle_candid (hs : s.tables.Sound) (hr : s.tables.Running task) (ht : s.tables.Candid)
    (h : settle task (s.runTask task) s = .ok () s') : s'.tables.Candid := by
  have hrun := runTask_spec task hs hr
  unfold settle at h
  cases hx : s.runTask task with
  | ok _ t =>
    rw [hx] at hrun h
    cases h
    have ht1 := hrun.1.candid ht
    have has := (hrun.1.running hr).has
    exact Comptime.Owed.resolve ht1 has (hrun.2.done (ht1.subjects task has))
  | error halt t =>
    rw [hx] at hrun h
    have ht1 := hrun.candid ht
    cases halt with
    | postpone blocker =>
      cases h
      have hb := (ht1.awaited hrun.reason).1
      have hpost := ht1.postpone ((hrun.updates (by simp)).running hr) (ht1.tasks _ hb)
      exact hpost.mono (Tables.postpone_marks ..).moves.hasErrors
    | error d =>
      cases h
      have hd : d.isError = true := hrun.reason
      exact (ht1.emit d).fail (by simp [Tables.emit, hd]) task
    | trap trap =>
      cases h
      exact (ht1.emit _).fail (by simp [Tables.emit, Diagnostic.error, Diagnostic.isError]) task
    | silent =>
      cases h
      exact ht1.fail (ht1.cause hrun.reason) task
    | fatal e => cases h

theorem Step.candid (h : Step s s') (hs : s.tables.Sound) (ht : s.tables.Candid) : s'.tables.Candid := by
  cases h with
  | pushNodes nodes => exact ht
  | declare items =>
    rw [stateAfter_declare]
    exact (Tables.Owed.declareItems _ _ _ _ _ ht).mono (Tables.declareItems_declares ..).moves.hasErrors
  | submit n => exact Comptime.Owed.submit ht trivial
  | advance h =>
    have hstarted : s.started.tables.Candid := Comptime.Owed.next ht
    cases stepped_of_advance h with
    | ran next settled =>
      have hsound : s.started.tables.Sound := s.tables.started_moves.sound hs
      exact settle_candid hsound (s.tables.started_running next) hstarted settled
    | idle => exact hstarted
    | @broke cycle next found => exact hstarted.breakCycle s.ast cycle

/-- In a live session tasks owe all that is not finished. -/
theorem Live.owed (h : s.Live) : s.tables.Candid := by
  obtain ⟨config, host, ast, h⟩ := h
  induction h with
  | refl => exact Tables.Owed.initial
  | tail hsteps hstep ih =>
    have hlive : Live _ := ⟨config, host, ast, hsteps⟩
    exact hstep.candid hlive.reachable.sound ih

end Session

end Comptime
