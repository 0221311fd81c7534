import Comptime.Proofs.Constant.Task

/-!
# Constants under analysis

`Tables.Tracks` says that the tables are right about declarations: a name that is resolved stands for
what it denotes, one that has failed denotes nothing, and a task waits only for a declaration that its
own one mentions. Every way in which the run of a task can end keeps this, and so does the breaking of
a circle: its members mention each other, so none of them denotes anything.
-/

namespace Comptime

open Analysis (globalScope)

namespace Tables

/-- The tables are right about declarations. -/
structure Tracks (config : Config) (ast : Ast) (defs : List Definition) (t : Tables) : Prop where
  lists : t.Lists ast defs
  progress : ∀ i (h : i < defs.length), Progress config defs defs[i] ⟨i⟩ (t.scheduler.state ⟨i⟩)
    (t.scopes.symbol (symbolAt i)).state

/-- What is known of a name is right. -/
inductive Right (config : Config) (defs : List Definition) (s : Scheduler) (x : String) :
    Standing → Prop
  | means {k : Constant} (denotes : Denotes config defs x k) : Right config defs s x (.means k)
  | awaits {j : Nat} (bound : j < defs.length) (name : defs[j].name = x) (isOpen : s.Open ⟨j⟩) :
    Right config defs s x (.awaits ⟨j⟩)
  | lost (undefined : ∀ k, ¬ Denotes config defs x k) : Right config defs s x .lost
  | unknown (undefined : ∀ k, ¬ Denotes config defs x k) : Right config defs s x .unknown

variable {config : Config} {ast : Ast} {defs : List Definition} {t t' : Tables} {i j : Nat}
  {k : Constant}

theorem Fresh.tracks (h : t.Fresh ast defs) : t.Tracks config ast defs := by
  refine ⟨h.lists, fun i hi => ?_⟩
  rw [Scheduler.state, h.tasks i hi, h.unresolved i hi]
  exact .queued

namespace Tracks

section

variable (h : t.Tracks config ast defs)

include h

theorem offers (x) : ∃ standing, t.scopes.Offers x standing ∧ Right config defs t.scheduler x standing := by
  by_cases hx : ∃ i, ∃ hi : i < defs.length, defs[i].name = x
  · obtain ⟨i, hi, rfl⟩ := hx
    have hsymbol := h.lists.names i hi
    have hprogress := h.progress i hi
    generalize htask : t.scheduler.state ⟨i⟩ = state at hprogress
    generalize hstate : (t.scopes.symbol (symbolAt i)).state = known at hprogress
    cases hprogress with
    | queued => exact ⟨_, .awaits hsymbol hstate, .awaits hi rfl (Scheduler.open_iff.mpr (.inl htask))⟩
    | waiting =>
      exact ⟨_, .awaits hsymbol hstate, .awaits hi rfl (Scheduler.open_iff.mpr (.inr ⟨_, htask⟩))⟩
    | resolved denotes => exact ⟨_, .means hsymbol hstate, .means denotes⟩
    | failed undefined => exact ⟨_, .lost hsymbol hstate, .lost undefined⟩
  · have hother : ∀ d ∈ defs, d.name ≠ x := by
      intro d hd he
      obtain ⟨i, hi, rfl⟩ := List.mem_iff_getElem.mp hd
      exact hx ⟨i, hi, he⟩
    rcases h.lists.others x hother with ⟨ty, σ, hty, hσ, -, hstate⟩ | ⟨hnone, hty⟩
    · exact ⟨.means (.type ty), .means hσ hstate, .means (.type hty)⟩
    · refine ⟨_, .unknown hnone, .unknown fun k hk => ?_⟩
      rcases hk.isDeclared with ⟨d, hd, he⟩ | ⟨ty, he⟩
      · exact hother d hd he
      · exact hty ty he

theorem same (scopes : t'.scopes = t.scopes) (scheduler : t'.scheduler = t.scheduler) : t'.Tracks config ast defs :=
  ⟨h.lists.same scopes scheduler, scopes ▸ scheduler ▸ h.progress⟩

theorem nested : (t.nested globalScope).Tracks config ast defs :=
  ⟨h.lists.nested, h.progress⟩

theorem started : t.started.Tracks config ast defs := by
  refine ⟨h.lists.reschedule (fun id => t.scheduler.has_next id) t.scheduler.kind_next, fun i hi => ?_⟩
  show Progress config defs defs[i] ⟨i⟩ (t.scheduler.next.1.state ⟨i⟩) _
  rw [t.scheduler.state_next]
  exact h.progress i hi

theorem resolve (hi : i < defs.length) (hk : Denotes config defs defs[i].name k) :
    Tracks config ast defs { t with
      scheduler := t.scheduler.resolve ⟨i⟩
      scopes := t.scopes.setState (symbolAt i) (.resolved k.symbolValue) } := by
  obtain ⟨has, -, hstate, -⟩ := Scheduler.resolve_spec (h.lists.has_task.mpr hi)
  refine ⟨(h.lists.setState i _).reschedule has fun id => Scheduler.kind_resolve _ _ _, fun j hj => ?_⟩
  rw [hstate]
  by_cases hij : j = i
  · subst hij
    rw [if_pos rfl, Scopes.symbol_setState_self (h.lists.has_symbol.mpr hj)]
    exact .resolved hk
  · have hne : symbolAt j ≠ symbolAt i := fun he => hij (symbolAt_inj.mp he)
    have hne' : (⟨j⟩ : TaskId) ≠ ⟨i⟩ := fun he => hij (congrArg Id.index he)
    rw [if_neg hne', Scopes.symbol_setState_of_ne hne]
    have hprogress := h.progress j hj
    split
    · next hw =>
      -- it waited, so its symbol was not resolved
      rw [hw.2] at hprogress
      generalize (t.scopes.symbol (symbolAt j)).state = known at hprogress
      cases hprogress
      exact .queued
    · exact hprogress

theorem park (hi : i < defs.length)
    (hq : t.scheduler.state ⟨i⟩ = .queued) (hj : j < defs.length) (hopen : t.scheduler.Open ⟨j⟩)
    (hm : defs[j].name ∈ defs[i].init.names) : (t.postpone ⟨i⟩ ⟨j⟩).Tracks config ast defs := by
  have hpostpone : t.postpone ⟨i⟩ ⟨j⟩ = { t with scheduler := t.scheduler.park ⟨i⟩ ⟨j⟩ } := by
    have hne : t.scheduler.state ⟨j⟩ ≠ .failed := fun hf => by
      rw [Scheduler.Open, hf] at hopen
      cases hopen
    rw [postpone, h.lists.kinds i hi]
    exact if_neg hne
  obtain ⟨has, -, hstate, -⟩ := Scheduler.park_of_open (h.lists.has_task.mpr hi) hopen
  rw [hpostpone]
  refine ⟨h.lists.reschedule has fun id => Scheduler.kind_park _ _ _ _, fun m hm' => ?_⟩
  rw [hstate]
  have hprogress := h.progress m hm'
  split
  · next he =>
    cases he
    rw [hq] at hprogress
    generalize (t.scopes.symbol (symbolAt i)).state = known at hprogress
    cases hprogress
    exact .waiting hj hm
  · exact hprogress

end

end Tracks

/-! ## Failures -/

theorem Lists.markFailed (h : t.Lists ast defs) (hi : i < defs.length) :
    t.markFailed ⟨i⟩ = { t with scopes := t.scopes.setState (symbolAt i) .failed } := by
  rw [Tables.markFailed, h.kinds i hi]
  rfl

theorem Lists.foldl_markFailed (h : t.Lists ast defs) (tasks : List TaskId)
    (hmem : ∀ task ∈ tasks, task.index < defs.length) :
    (tasks.foldl Tables.markFailed t).Lists ast defs ∧ ∀ j, j < defs.length →
      ((tasks.foldl Tables.markFailed t).scopes.symbol (symbolAt j)).state =
        if ⟨j⟩ ∈ tasks then .failed else (t.scopes.symbol (symbolAt j)).state := by
  induction tasks generalizing t with
  | nil => exact ⟨h, fun j hj => by simp⟩
  | cons task tasks ih =>
    obtain ⟨i⟩ := task
    obtain ⟨hi, hmem⟩ := List.forall_mem_cons.mp hmem
    rw [List.foldl_cons, h.markFailed hi]
    obtain ⟨hlists, hstate⟩ := ih (h.setState i .failed) hmem
    refine ⟨hlists, fun j hj => ?_⟩
    rw [hstate j hj]
    by_cases hij : j = i
    · subst hij
      rw [if_pos List.mem_cons_self, Scopes.symbol_setState_self (h.has_symbol.mpr hj), ite_self]
    · have hne : symbolAt j ≠ symbolAt i := fun he => hij (symbolAt_inj.mp he)
      rw [Scopes.symbol_setState_of_ne hne]
      simp [hij]

namespace Tracks

variable {p : Scheduler.Phase}

theorem not_of_denotes (h : t.Tracks config ast defs) (hd : Wellnamed defs) {S : TaskId → Prop}
    (closed : ∀ j (hj : j < defs.length), S ⟨j⟩ → (∀ k, ¬ Denotes config defs defs[j].name k) ∨
      ∃ b, t.scheduler.state ⟨j⟩ = .waiting b ∧ S b) {x} (hx : Denotes config defs x k) (hj : j < defs.length)
    (hname : defs[j].name = x) : ¬ S ⟨j⟩ := by
  induction hx generalizing j with
  | type predefined => exact absurd (hname ▸ predefined) (hd.not_predefined (List.getElem_mem hj) _)
  | @const d env k declared names value ih =>
    have hdef : defs[j] = d := hd.eq_of_name (List.getElem_mem hj) declared hname
    intro hs
    rcases closed j hj hs with hu | ⟨b, hwaits, hb⟩
    · exact hu k (hdef ▸ .const declared names value)
    · -- the declaration that it waits for is one that it mentions
      have hprogress := h.progress j hj
      rw [hwaits] at hprogress
      generalize (t.scopes.symbol (symbolAt j)).state = known at hprogress
      cases hprogress with
      | @waiting m hm mentions =>
        rw [hdef] at mentions
        obtain ⟨k', hk'⟩ := Config.isSome_of_define value mentions
        exact ih _ mentions k' hk' hm rfl hb

theorem fail (h : t.Tracks config ast defs) (hd : Wellnamed defs)
    (ha : Scheduler.Accounted p t.scheduler) (hi : i < defs.length)
    (hu : ∀ k, ¬ Denotes config defs defs[i].name k) : (t.fail ⟨i⟩).Tracks config ast defs := by
  have hfails := t.scheduler.fail_fails ⟨i⟩
  have hmem (task : TaskId) (htask : task ∈ ⟨i⟩ :: (t.scheduler.fail ⟨i⟩).2) :
      task.index < defs.length := by
    rcases (t.scheduler.mem_fail ⟨i⟩ task).mp htask with rfl | ⟨hne, -⟩
    · exact hi
    · exact h.lists.has_task.mp (Scheduler.has_of_state_ne hne)
  have hlists : ({ t with scheduler := (t.scheduler.fail ⟨i⟩).1 } : Tables).Lists ast defs :=
    h.lists.reschedule hfails.has fun id => Scheduler.kind_fail _ _ _
  obtain ⟨hlists, hstate⟩ := hlists.foldl_markFailed _ hmem
  refine ⟨hlists, fun j hj => ?_⟩
  have hscheduler : (t.fail ⟨i⟩).scheduler = (t.scheduler.fail ⟨i⟩).1 := t.scheduler_fail ⟨i⟩
  have hsymbol : ((t.fail ⟨i⟩).scopes.symbol (symbolAt j)).state = _ := hstate j hj
  have hlisted := t.scheduler.mem_fail ⟨i⟩ ⟨j⟩
  rw [hscheduler, hsymbol]
  have hprogress := h.progress j hj
  by_cases hfailed : (t.scheduler.fail ⟨i⟩).1.state ⟨j⟩ = .failed
  · rw [hfailed]
    by_cases hbefore : t.scheduler.state ⟨j⟩ = .failed
    · rw [hbefore] at hprogress
      generalize (t.scopes.symbol (symbolAt j)).state = known at hprogress
      cases hprogress with
      | failed undefined =>
        rw [ite_self]
        exact .failed undefined
    · rw [if_pos (hlisted.mpr (.inr ⟨hbefore, hfailed⟩))]
      refine .failed fun k hk => h.not_of_denotes hd (S := fun a => t.scheduler.state a ≠ .failed ∧
        (t.scheduler.fail ⟨i⟩).1.state a = .failed) ?_ hk hj rfl ⟨hbefore, hfailed⟩
      rintro j' hj' ⟨hne, hf⟩
      rcases hfails.caused ⟨j'⟩ hne hf with hstack | ⟨b, hb, hbf⟩
      · obtain rfl : j' = i := by simpa using hstack
        exact .inl hu
      · have hwaits : t.scheduler.state ⟨j'⟩ = .waiting b := ha.listed b ⟨j'⟩ hb
        have hopen := (ha.waiting ⟨j'⟩ b hwaits).1
        refine .inr ⟨b, hwaits, fun hb' => ?_, hbf⟩
        rw [Scheduler.Open, hb'] at hopen
        cases hopen
  · have hne : ⟨j⟩ ∉ ⟨i⟩ :: (t.scheduler.fail ⟨i⟩).2 := by
      rw [hlisted]
      rintro (he | ⟨-, hf⟩)
      · exact hfailed (he ▸ hfails.stacked _ List.mem_cons_self)
      · exact hfailed hf
    rw [if_neg hne, (hfails.kept ⟨j⟩ hfailed).1]
    exact hprogress

theorem breakCycle (h : t.Tracks config ast defs) (hd : Wellnamed defs) (ha : Scheduler.Accounted .stuck t.scheduler)
    {cycle} (hc : t.scheduler.findCycle = some cycle) : (t.breakCycle ast cycle).Tracks config ast defs := by
  have hundefined (j : Nat) (hj : j < defs.length) (hmem : ⟨j⟩ ∈ cycle) :
      ∀ k, ¬ Denotes config defs defs[j].name k := by
    refine fun k hk => h.not_of_denotes hd (S := (· ∈ cycle)) (fun j _ hm => ?_) hk hj rfl hmem
    obtain ⟨b, hb, hwaits⟩ := Scheduler.waits_of_mem_findCycle hc hm
    exact .inr ⟨b, hwaits, hb⟩
  have hfold (members : List TaskId) (t : Tables) (h : t.Tracks config ast defs)
      (ha : Scheduler.Accounted (.breaking members) t.scheduler) (hsub : ∀ m ∈ members, m ∈ cycle) :
      (members.foldl Tables.fail t).Tracks config ast defs := by
    induction members generalizing t with
    | nil => exact h
    | cons m members ih =>
      obtain ⟨hm, hsub⟩ := List.forall_mem_cons.mp hsub
      have hi : m.index < defs.length := h.lists.has_task.mp (ha.breaking _ rfl m (by simp)).1
      refine ih _ (h.fail hd ha hi (hundefined m.index hi hm)) ?_ hsub
      rw [Tables.scheduler_fail]
      exact ha.step (.failMember m members)
  exact hfold cycle _ (h.same rfl rfl) (ha.step (.cycle hc)) fun _ hm => hm

end Tracks

end Tables

end Comptime
