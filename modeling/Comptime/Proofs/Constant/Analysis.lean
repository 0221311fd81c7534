import Comptime.Proofs.Constant.Progress
import Comptime.Proofs.Session.Evaluate
import Mathlib.Data.String.Basic

/-!
# Constants mean the same in every order

A program of constants is declared and analysed. Whatever the order in which the tasks of the
declarations run, wait for each other and fail, the names stand for what they denote when all is done.
-/

namespace Comptime

open Analysis (globalScope)

variable {config : Config} {defs : List Definition} {d : Definition} {x : String}

/-- A path without a dot has one part. -/
theorem splitOn_of_no_dot {x : String} (h : '.' ∉ x.toList) : x.splitOn "." = [x] := by
  have haux (before after : List Char) (hafter : '.' ∉ after) :
      (String.ofList (before ++ after)).splitOnAux "." 0 ⟨String.utf8Len before⟩ 0 [] =
        [String.ofList (before ++ after)] := by
    induction after generalizing before with
    | nil =>
      rw [String.splitOnAux, if_pos ((String.atEnd_of_valid before []).mpr rfl)]
      simpa using String.extract_of_valid [] before []
    | cons c after ih =>
      have hc : (c == '.') = false := by
        rw [beq_eq_false_iff_ne]
        rintro rfl
        exact hafter List.mem_cons_self
      have hrest := ih (before ++ [c]) fun hmem => hafter (List.mem_cons_of_mem c hmem)
      have hend : ¬ String.Pos.Raw.atEnd (String.ofList (before ++ c :: after)) ⟨String.utf8Len before⟩ = true :=
        fun h => List.cons_ne_nil _ _ ((String.atEnd_of_valid before (c :: after)).mp h)
      rw [String.splitOnAux, if_neg hend, String.get_of_valid,
        show String.Pos.Raw.get "." 0 = '.' by decide, if_neg (by simpa using hc),
        show (⟨String.utf8Len before⟩ : String.Pos.Raw).unoffsetBy 0 = ⟨String.utf8Len before⟩ from rfl,
        String.next_of_valid]
      simpa using hrest
  rw [String.splitOn, if_neg (by decide)]
  simpa using haux [] x.toList h

theorem Wellnamed.undefined_of_name (hd : Wellnamed defs) (hmem : d ∈ defs) (hx : x ∈ d.init.names)
    (hu : ∀ k, ¬ Denotes config defs x k) (k) : ¬ Denotes config defs d.name k := by
  intro hk
  obtain ⟨k', hk'⟩ := hk.of_refers hd ⟨d, hmem, rfl, hx⟩
  exact hu k' hk'

namespace Session

variable {s s' : Session}

/-- The machine can do enough steps for each declaration. -/
def Endures (config : Config) (defs : List Definition) : Prop :=
  ∀ d ∈ defs, 7 * d.init.size < config.limits.maxSteps

/-- What a run of the task of a declaration comes to. -/
inductive Verdict (s : Session) (defs : List Definition) (i : Nat) (h : i < defs.length) :
    EStateM.Result Halt Tables Unit → Prop
  | value {t : Tables} {k : Constant} (denotes : Denotes s.config defs defs[i].name k)
    (scheduler : t.scheduler = s.tables.scheduler)
    (scopes : t.scopes =
      (s.tables.nested globalScope).scopes.setState (symbolAt i) (.resolved k.symbolValue)) :
    Verdict s defs i h (.ok () t)
  | waits {t : Tables} {j : Nat} (bound : j < defs.length) (mentions : defs[j].name ∈ defs[i].init.names)
    (isOpen : s.tables.scheduler.Open ⟨j⟩) (scheduler : t.scheduler = s.tables.scheduler)
    (scopes : t.scopes = (s.tables.nested globalScope).scopes) :
    Verdict s defs i h (.error (.postpone ⟨j⟩) t)
  | nothing {t : Tables} {halt : Halt} (undefined : ∀ k, ¬ Denotes s.config defs defs[i].name k)
    (reason : halt = .silent ∨ halt.Reported ∨ ∃ trap, halt = .trap trap)
    (scheduler : t.scheduler = s.tables.scheduler)
    (scopes : t.scopes = (s.tables.nested globalScope).scopes) : Verdict s defs i h (.error halt t)

theorem runTask_verdict (h : s.tables.Tracks s.config s.ast defs) (hd : Wellnamed defs) (hn : s.tables.types.Numbers)
    (hsteps : Endures s.config defs) {i} (hi : i < defs.length) : s.Verdict defs i hi (s.runTask ⟨i⟩) := by
  choose view hoffers hright using h.offers
  have hagrees : Lower.Agrees view (meaning s.config defs) := by
    intro x k hk
    have hr := hright x
    generalize view x = standing at hk hr
    cases hr with
    | means denotes =>
      cases hk
      exact (meaning_eq_some hd).mpr denotes
    | awaits | lost | unknown => cases hk
  have hrun : s.runTask ⟨i⟩ = Analysis.analyzeGlobal (Analysis.walk (s.config.fuel + 8 * s.ast.size)) (symbolAt i)
      ⟨s.config, s.host, s.ast, ⟨i⟩, none⟩ s.tables := by
    unfold runTask
    rw [h.lists.kinds i hi]
    rfl
  have hspec := @Tables.Lists.analyzeGlobal_spec ⟨s.config, s.host, s.ast, ⟨i⟩, none⟩ s.tables defs
    h.lists hn i hi (s.config.fuel + 8 * s.ast.size) (by show s.ast.size ≤ _; omega)
    (hsteps _ (List.getElem_mem hi)) view fun x _ => hoffers x
  rw [hrun]
  generalize Analysis.analyzeGlobal _ _ _ _ = result at hspec ⊢
  cases result with
  | ok u t =>
    obtain ⟨hscheduler, k, hk, hscopes⟩ := hspec
    refine .value (.const (List.getElem_mem hi) (fun x _ k hk => ?_) hk) hscheduler hscopes
    exact (meaning_eq_some hd).mp (hagrees x k hk)
  | error halt t =>
    obtain ⟨hscheduler, hscopes, ⟨x, hx, hstops⟩ | ⟨hreason, hnone⟩⟩ := hspec
    · have hr := hright x
      generalize view x = standing at hstops hr
      have hundefined (hu : ∀ k, ¬ Denotes s.config defs x k) :=
        hd.undefined_of_name (List.getElem_mem hi) hx hu
      cases hr with
      | means => exact hstops.elim
      | awaits bound name isOpen =>
        subst name
        cases hstops
        exact .waits bound hx isOpen hscheduler hscopes
      | lost undefined => exact .nothing (hundefined undefined) (.inl hstops) hscheduler hscopes
      | unknown undefined =>
        exact .nothing (hundefined undefined) (.inr (.inl hstops)) hscheduler hscopes
    · refine .nothing (fun k hk => ?_) (.inr hreason) hscheduler hscopes
      have hvalue := (denotes_iff_define hd (List.getElem_mem hi)).mp hk
      rw [hnone _ hagrees] at hvalue
      cases hvalue

theorem settle_tracks (h : s.tables.Tracks s.config s.ast defs) (hd : Wellnamed defs)
    (hn : s.tables.types.Numbers) (hsteps : Endures s.config defs) {i : Nat} (hi : i < defs.length)
    (hq : s.tables.scheduler.state ⟨i⟩ = .queued)
    (ha : Scheduler.Accounted (.running ⟨i⟩) s.tables.scheduler) :
    ∃ s', settle ⟨i⟩ (s.runTask ⟨i⟩) s = .ok () s' ∧ s'.config = s.config ∧ s'.ast = s.ast ∧
      s'.tables.Tracks s.config s.ast defs ∧
      s.tables.scheduler.Ends ⟨i⟩ s'.tables.scheduler := by
  have hverdict := runTask_verdict h hd hn hsteps hi
  generalize s.runTask ⟨i⟩ = result at hverdict ⊢
  cases hverdict with
  | @value t k denotes scheduler scopes =>
    have hends : t.scheduler.resolve ⟨i⟩ = s.tables.scheduler.resolve ⟨i⟩ := by rw [scheduler]
    refine ⟨_, rfl, rfl, rfl, (h.nested.resolve hi denotes).same scopes hends, ?_⟩
    exact hends ▸ .resolved
  | @waits t j bound mentions isOpen scheduler scopes =>
    have ht : t.Tracks s.config s.ast defs := h.nested.same scopes scheduler
    have hends : (t.postpone ⟨i⟩ ⟨j⟩).scheduler = s.tables.scheduler.park ⟨i⟩ ⟨j⟩ := by
      have hne : s.tables.scheduler.state ⟨j⟩ ≠ .failed := fun hf => by
        rw [Scheduler.Open, hf] at isOpen
        cases isOpen
      rw [Tables.scheduler_postpone, scheduler, if_neg hne]
    refine ⟨_, rfl, rfl, rfl, ht.park hi (scheduler ▸ hq) bound (scheduler ▸ isOpen) mentions, ?_⟩
    exact hends ▸ .parked isOpen
  | @nothing t halt undefined reason scheduler scopes =>
    have hfail (t' : Tables) (hscopes : t'.scopes = t.scopes) (hscheduler : t'.scheduler = t.scheduler) :
        (t'.fail ⟨i⟩).Tracks s.config s.ast defs ∧ s.tables.scheduler.Ends ⟨i⟩ (t'.fail ⟨i⟩).scheduler := by
      have ht : t'.Tracks s.config s.ast defs :=
        h.nested.same (hscopes.trans scopes) (hscheduler.trans scheduler)
      have hends : (t'.fail ⟨i⟩).scheduler = (s.tables.scheduler.fail ⟨i⟩).1 := by
        rw [Tables.scheduler_fail, hscheduler, scheduler]
      have ha' : Scheduler.Accounted (.running ⟨i⟩) t'.scheduler := by rwa [hscheduler, scheduler]
      exact ⟨ht.fail hd ha' hi undefined, hends ▸ .failed⟩
    rcases reason with rfl | ⟨d, rfl⟩ | ⟨trap, rfl⟩
    · exact ⟨_, rfl, rfl, rfl, hfail t rfl rfl⟩
    · exact ⟨_, rfl, rfl, rfl, hfail (t.emit d) rfl rfl⟩
    · exact ⟨_, rfl, rfl, rfl, hfail (t.emit _) rfl rfl⟩

theorem advance_tracks {more} (hlive : s.Live) (h : s.tables.Tracks s.config s.ast defs) (hd : Wellnamed defs)
    (hsteps : Endures s.config defs) (ha : advance s = .ok more s') :
    s'.config = s.config ∧ s'.ast = s.ast ∧ s'.tables.Tracks s.config s.ast defs ∧
      (more = true → s.tables.scheduler.Advances s'.tables.scheduler) := by
  have haccounted := hlive.reached.accounted
  cases stepped_of_advance ha with
  | @ran task _ next settled =>
    have hq := (Scheduler.next_eq_some next).1
    have hi : task.index < defs.length :=
      h.lists.has_task.mp (Scheduler.has_of_state_ne (by rw [hq]; simp))
    obtain ⟨s1, hs1, hconfig, hast, htracks, hends⟩ := @settle_tracks defs s.started h.started hd
      hlive.reachable.numbers hsteps task.index hi (s.tables.started_running next)
      (haccounted.step (.take next))
    rw [hs1] at settled
    cases settled
    exact ⟨hconfig, hast, htracks, fun _ => .ran next .refl hends⟩
  | idle => exact ⟨rfl, rfl, h.started, fun h => by cases h⟩
  | @broke cycle next found =>
    refine ⟨rfl, rfl, h.started.breakCycle hd (haccounted.step (.stop next)) found, fun _ => ?_⟩
    have hscheduler := s.tables.started.scheduler_breakCycle s.ast cycle
    dsimp only
    rw [hscheduler]
    exact .broke next found

theorem advance_error {e} (hlive : s.Live) (h : s.tables.Tracks s.config s.ast defs) (hd : Wellnamed defs)
    (hsteps : Endures s.config defs) (ha : advance s = .error e s') :
    ∃ i, i < defs.length ∧ s.tables.scheduler.state ⟨i⟩ = .queued ∧
      s.config.maxTaskRuns ≤ s.tables.scheduler.runs ⟨i⟩ ∧ ∃ message, e = .internal message := by
  have hqueued {task} (hn : s.tables.scheduler.next.2 = some task) :
      task.index < defs.length ∧ s.tables.scheduler.state task = .queued := by
    have hq := (Scheduler.next_eq_some hn).1
    exact ⟨h.lists.has_task.mp (Scheduler.has_of_state_ne (by rw [hq]; simp)), hq⟩
  cases crashed_of_advance ha with
  | @overrun task message next runs =>
    exact ⟨task.index, (hqueued next).1, (hqueued next).2, runs, message, rfl⟩
  | @fatal task e t next run =>
    obtain ⟨s1, hs1, -⟩ := @settle_tracks defs s.started h.started hd hlive.reachable.numbers hsteps
      task.index (hqueued next).1 (s.tables.started_running next) (hlive.reached.accounted.step (.take next))
    rw [show s.started.runTask ⟨task.index⟩ = _ from run] at hs1
    cases hs1
  | stuck next =>
    obtain ⟨more, s1, hok⟩ := hlive.advance_ok next
    rw [ha] at hok
    cases hok

theorem drive_tracks {fuel : Nat} (hlive : s.Live) (h : s.tables.Tracks s.config s.ast defs)
    (hd : Wellnamed defs) (hsteps : Endures s.config defs) :
    match drive fuel s with
    | .ok _ s' => s'.tables.Tracks s.config s.ast defs ∧ s'.tables.scheduler.isIdle = true
    | .error e _ => (∃ message, e = .internal message) ∧
      ¬ (s.tables.scheduler.Thrifty .ready ∧ defs.length * (defs.length + 2) < fuel + s.tables.scheduler.effort ∧
        defs.length ≤ s.config.maxTaskRuns) := by
  induction fuel generalizing s with
  | zero =>
    refine ⟨⟨_, rfl⟩, fun hall => ?_⟩
    have heffort := hall.1.effort_le
    rw [h.lists.tasks] at heffort
    omega
  | succ fuel ih =>
    have hdrive : drive (fuel + 1) s = (advance >>= fun more =>
      if more then drive fuel else pure ()) s := rfl
    rw [hdrive]
    simp only [bind, EStateM.bind]
    cases ha : advance s with
    | error e s1 =>
      obtain ⟨i, hi, hq, hruns, he⟩ := advance_error hlive h hd hsteps ha
      refine ⟨he, fun hall => ?_⟩
      have hlt := hall.1.runs_lt hq
      rw [h.lists.tasks] at hlt
      omega
    | ok more s1 =>
      obtain ⟨hconfig, hast, htracks, hadvances⟩ := advance_tracks hlive h hd hsteps ha
      cases more with
      | false => exact ⟨htracks, isIdle_of_advance ha⟩
      | true =>
        have hrest := @ih s1 (hlive.steps (.single (.advance ha))) (hconfig ▸ hast ▸ htracks) (hconfig ▸ hsteps)
        rw [hconfig, hast] at hrest
        dsimp only
        rw [if_pos rfl]
        split at hrest
        · exact hrest
        · refine ⟨hrest.1, fun hall => hrest.2 ?_⟩
          obtain ⟨hthrifty, heffort⟩ := (hadvances rfl).thrifty hlive.reached.accounted hall.1
          exact ⟨hthrifty, by omega, hall.2.2⟩

private theorem symbolValue_eq (h : s.tables.scopes.Framed) (hx : x.splitOn "." = [x]) :
    s.symbolValue x = (s.tables.scopes.global? x).bind fun σ => (s.tables.scopes.symbol σ).value? := by
  rw [← Scopes.lookup_global h, symbolValue, hx, Scopes.valueAt]
  cases s.tables.scopes.lookup globalScope x with
  | none => rfl
  | some found =>
    simp only [Option.map_some, Option.bind_eq_bind, Option.bind_some]
    cases (s.tables.scopes.symbol found.symbol).value? <;> rfl

theorem symbolValue_of_tracks {ast} (h : s.tables.Tracks config ast defs) (hd : Wellnamed defs)
    (hidle : s.tables.scheduler.isIdle = true) (hx : x.splitOn "." = [x]) :
    s.symbolValue x = (meaning config defs x).map Constant.symbolValue := by
  obtain ⟨standing, hoffers, hright⟩ := h.offers x
  have hnone (hu : ∀ k, ¬ Denotes config defs x k) : meaning config defs x = none :=
    Option.eq_none_iff_forall_ne_some.mpr fun k hk => hu k ((meaning_eq_some hd).mp hk)
  rw [symbolValue_eq h.lists.framed hx]
  cases hright with
  | means denotes =>
    rw [(meaning_eq_some hd).mpr denotes]
    cases hoffers with
    | means symbol state => simp [symbol, Symbol.value?, state]
  | awaits bound name isOpen => exact absurd isOpen (Scheduler.not_open_of_isIdle hidle _)
  | lost undefined =>
    rw [hnone undefined]
    cases hoffers with
    | lost symbol state => simp [symbol, Symbol.value?, state]
  | unknown undefined =>
    rw [hnone undefined]
    cases hoffers with
    | unknown symbol => simp [symbol]

/-- A session has declared and analysed constants. The analysis was not given up. -/
structure Analyzed (config : Config) (defs : List Definition) (s : Session) : Prop where
  wellnamed : Wellnamed defs
  endures : Endures config defs
  analyzed : ∃ host ast items s0, List.Forall₂ ast.Defines items defs ∧
    declare items (create config host ast) = .ok () s0 ∧
    (analyze s0 = .ok () s ∨ ∃ diagnostics, analyze s0 = .error (.rejected diagnostics) s)

theorem declare_tracks {host ast items} (hd : Wellnamed defs) (hitems : List.Forall₂ ast.Defines items defs) :
    ∃ s, declare items (create config host ast) = .ok () s ∧ s.config = config ∧ s.ast = ast ∧
      s.Live ∧ s.tables.Fresh ast defs := by
  obtain ⟨t, ht, hfresh⟩ := Tables.declareItems_fresh hitems hd ast.size
  have hdeclare : declare items (create config host ast) = .ok () { create config host ast with tables := t } := by
    have ht' : (Tables.declareItems (create config host ast).ast
        ((create config host ast).ast.size + 1) globalScope items).run
        (create config host ast).tables = .ok () t := ht
    rw [declare, ht']
  refine ⟨_, hdeclare, rfl, rfl, ?_, hfresh⟩
  have hlive := (Live.initial config host ast).after_declare items
  rwa [stateAfter, hdeclare] at hlive

theorem analyze_tracks (hlive : s.Live) (h : s.tables.Tracks s.config s.ast defs) (hd : Wellnamed defs)
    (hsteps : Endures s.config defs) :
    (∃ s', s'.tables.Tracks s.config s.ast defs ∧ s'.tables.scheduler.isIdle = true ∧
      (analyze s = .ok () s' ∨ ∃ diagnostics, analyze s = .error (.rejected diagnostics) s')) ∨
    (∃ message s', analyze s = .error (.internal message) s') ∧
      ¬ (s.tables.scheduler.Thrifty .ready ∧
        defs.length * (defs.length + 2) < s.config.fuel + s.tables.scheduler.effort ∧
        defs.length ≤ s.config.maxTaskRuns) := by
  have hdrive := @drive_tracks defs s s.config.fuel hlive h hd hsteps
  simp only [analyze_eq, bind, EStateM.bind]
  cases hr : drive s.config.fuel s with
  | ok u s' =>
    rw [hr] at hdrive
    refine .inl ⟨s', hdrive.1, hdrive.2, ?_⟩
    dsimp only
    split
    · exact .inr ⟨_, rfl⟩
    · exact .inl rfl
  | error e s' =>
    rw [hr] at hdrive
    obtain ⟨⟨message, rfl⟩, hall⟩ := hdrive
    exact .inr ⟨⟨message, s', rfl⟩, hall⟩

theorem Analyzed.symbolValue (h : s.Analyzed config defs) (hx : x.splitOn "." = [x]) :
    s.symbolValue x = (meaning config defs x).map Constant.symbolValue := by
  obtain ⟨host, ast, items, s0, hitems, hdeclare, hanalyze⟩ := h.analyzed
  obtain ⟨s1, hdeclare', hconfig, hast, hlive, hfresh⟩ :=
    @declare_tracks config defs host ast items h.wellnamed hitems
  rw [hdeclare] at hdeclare'
  cases hdeclare'
  subst hconfig hast
  rcases analyze_tracks hlive hfresh.tracks h.wellnamed h.endures with
    ⟨s1, htracks, hidle, hend⟩ | ⟨⟨message, s1, hend⟩, -⟩
  · obtain rfl : s1 = s := by
      rcases hanalyze with ha | ⟨_, ha⟩ <;> rcases hend with he | ⟨_, he⟩ <;> rw [ha] at he <;> cases he <;> rfl
    exact symbolValue_of_tracks htracks h.wellnamed hidle hx
  · rcases hanalyze with ha | ⟨_, ha⟩ <;> rw [ha] at hend <;> cases hend

theorem exists_analyzed {host ast items} (hd : Wellnamed defs) (hsteps : Endures config defs)
    (hitems : List.Forall₂ ast.Defines items defs) (hruns : defs.length ≤ config.maxTaskRuns)
    (hfuel : defs.length * (defs.length + 2) < config.fuel) :
    ∃ s0 s, declare items (create config host ast) = .ok () s0 ∧
      (analyze s0 = .ok () s ∨ ∃ diagnostics, analyze s0 = .error (.rejected diagnostics) s) := by
  obtain ⟨s0, hdeclare, rfl, rfl, hlive, hfresh⟩ :=
    @declare_tracks config defs host ast items hd hitems
  rcases analyze_tracks hlive hfresh.tracks hd hsteps with ⟨s, -, -, hend⟩ | ⟨-, hall⟩
  · exact ⟨s0, s, hdeclare, hend⟩
  · have hstarts (id : TaskId) : s0.tables.scheduler.runs id = 0 := by
      by_cases hid : s0.tables.scheduler.Has id
      · rw [Scheduler.runs, hfresh.tasks id.index (hfresh.lists.has_task.mp hid)]
      · exact Scheduler.runs_of_not_has hid
    refine absurd ⟨⟨fun id _ _ => ?_, fun id => ?_⟩, hfuel.trans_le (Nat.le_add_right ..), hruns⟩ hall
    all_goals
      rw [hstarts]
      exact Nat.zero_le _

end Session

end Comptime
