import Comptime.Proofs.Machine.Alike
import Comptime.Proofs.Machine.Control
import Comptime.Proofs.Session.Report

/-!
# The functions that calls invoke

In a program that is accepted, every call by name is a call of a function that exists. A call through a value
need not be: in memory a function is a plain word, which can be written through a pointer of another type. The
host does not survive the lookup of such a function (`Stop.missing`), and there is nothing else in the program that
could bring it down in this way.
-/

namespace Comptime

namespace Machine

variable {env : Setting} {m : Machine} {i v : InstrId} {g : FnId} {span : Span}

private theorem callable_of_missing (h : ¬ env.code.fns.Has g) : callable env g span = throw (.missing g) := by
  simp only [callable, Pool.get?_eq_none_iff.mpr h]

private theorem call_of_missing {f rest args} (hm : m.frames = f :: rest) (hv : f.reg v = .fn g)
    (h : ¬ env.code.fns.Has g) :
    call env i (.indirect v) args span m = .error (.missing g) m := by
  have hreg : reg v m = .ok (.fn g) m := by
    show EStateM.Result.ok ((m.frames.headD default).reg v) m = _
    rw [hm, List.headD_cons, hv]
  unfold call
  dsimp only
  rw [bind_of_ok hreg]
  simp only [pure_bind, callable_of_missing h]
  rfl

theorem step_of_missing {args} (hi : m.next? = some i)
    (hk : (m.innermost.func.instr i).kind = .call (.indirect v) args) (hv : m.innermost.reg v = .fn g)
    (h : ¬ env.code.fns.Has g) : ∃ m', step env m = .error (.missing g) m' ∧ m'.memory = m.memory := by
  obtain ⟨memory, top, globals, frames, state⟩ := m
  cases frames with
  | nil => cases hi
  | cons f rest =>
    refine ⟨⟨memory, top, globals, { f with pos := f.pos + 1 } :: rest, state⟩, ?_, rfl⟩
    rw [step_of_at? (f := f) hi]
    unfold execute
    simp only [show (f.func.instr i).kind = _ from hk]
    exact bind_of_error (call_of_missing rfl hv h)

/-! ## Lookups that fail -/

/-- The piece of a step looks up no function that is missing, unless it has the property. -/
abbrev Misses {α : Type} (P : FnId → Prop) (x : Exec α) (m : Machine) : Prop :=
  Exec.Meets (fun stop => ∀ g, stop = .missing g → P g) x m fun _ _ => True

section

variable {P : FnId → Prop}

/-- What is fair whatever the code is looks up no function. -/
theorem misses_of_fair {α : Type} {x : Exec α} (h : ∀ c, Exec.Fair c x) : Misses P x m := by
  show Ensures (x m) _ _
  cases hx : x m with
  | ok a m' => trivial
  | error stop m' =>
    rintro g rfl
    have has : (⟨Array.replicate (g.index + 1) default⟩ : Pool .function Function).Has g := by
      show g.index < (Array.replicate (g.index + 1) (default : Function)).size
      simp
    exact absurd has ((h ⟨_, .empty⟩ m).of_error hx)

private theorem call_misses {callee args} (hcallee : ∀ g, callee = .direct g → P g)
    (hvalue : ∀ v g, callee = .indirect v → m.innermost.reg v = .fn g → P g) :
    Misses P (call env i callee args span) m := by
  unfold call
  extract_lets goOn
  have htarget {f : FnId} {m : Machine} (hf : P f) : Misses P (goOn f) m := by
    dsimp only [goOn]
    rcases callable_cases env f span with ⟨hc, -⟩ | ⟨stop, hc, hstop⟩ <;> rw [hc]
    · rw [pure_bind]
      refine misses_of_fair fun c => (fair.mapM (fun _ => fair.reg) _).bind fun _ => ?_
      split
      · exact fair.callHost.bind fun _ => modifyFrame_fair
      · exact pushFrame_fair
    · rintro g rfl
      cases hstop
      exact hf
  cases callee with
  | direct f => exact htarget (hcallee f rfl)
  | indirect v =>
    refine Exec.Meets.bind (P := fun value m' => value = m.innermost.reg v) rfl ?_
    rintro _ m' rfl
    split
    · next hv => exact htarget (hvalue v _ rfl hv)
    · exact fun _ h => by cases h
    · exact fun _ h => by cases h

private theorem execute_misses {func} (h : ∀ g ∈ func.target? m.innermost.reg i, P g) :
    Misses P (execute env func i) m := by
  cases hk : (func.instr i).kind
  case call callee args =>
    simp only [execute, hk]
    refine (call_misses ?_ ?_).bind fun _ _ _ => trivial
    · rintro g rfl
      exact h g (by rw [Function.target?, hk]; rfl)
    · rintro v g rfl hv
      refine h g ?_
      rw [Function.target?, hk]
      dsimp only
      rw [hv]
      rfl
  all_goals exact misses_of_fair fun c => fair_accesses.execute (by simp [hk])

end

private theorem step_eq_missing {m' : Machine} (h : step env m = .error (.missing g) m') :
    ∃ i ∈ m.next?, g ∈ m.innermost.func.target? m.innermost.reg i := by
  suffices hmisses : Misses (fun g => ∃ i ∈ m.next?, g ∈ m.innermost.func.target? m.innermost.reg i) (step env) m from
    hmisses.of_error h g rfl
  refine Exec.Meets.bind (P := fun f m' => f = m.innermost ∧ m = m') ⟨rfl, rfl⟩ ?_
  rintro _ _ ⟨rfl, rfl⟩
  dsimp only
  split
  · next i hi =>
    refine Exec.Meets.bind (P := fun _ m' => m'.innermost.reg = m.innermost.reg) ?_ fun _ m' hm' => ?_
    · exact advance_reg rfl
    · exact execute_misses fun g hg => ⟨i, hi, hm' ▸ hg⟩
  · exact fun _ h => by cases h

end Machine

namespace Session

variable {s s' : Session} {p : Program}

/-- In a program that is accepted all calls in progress are of functions that exist. The host is brought down only
where a function is called that does not exist, which is a call through a value. -/
theorem callee_exists_unless_forged (h : s.Reachable) (hp : s.finish = .ok p s') {f args m m'}
    (analyzed : (p.code.function f).state = .analyzed)
    (states : Machine.States p.setting (p.code.function f) args m m') :
    (∀ call ∈ m'.frames, ∃ g, p.code.fns.Has g ∧ (p.code.function g).state = .analyzed ∧
        call.func = p.code.function g) ∧
      (∀ i ∈ m'.next?, ∀ g ∈ m'.innermost.func.target? m'.innermost.reg i, ¬ p.code.fns.Has g →
        (∃ v args, (m'.innermost.func.instr i).kind = .call (.indirect v) args ∧ m'.innermost.reg v = .fn g) ∧
          ∃ stopped, Machine.step p.setting m' = .error (.missing g) stopped ∧ stopped.memory = m'.memory) ∧
      ∀ g stopped, Machine.step p.setting m' = .error (.missing g) stopped →
        ¬ p.code.fns.Has g ∧ ∃ i ∈ m'.next?, g ∈ m'.innermost.func.target? m'.innermost.reg i := by
  obtain ⟨ha, hcode, -⟩ := finish_eq_ok hp
  have hlinked := (h.steps (analyze_ok ha).1).sound.linked
  -- the calls in progress are of functions whose bodies are finished
  have halong := states.along (P := fun func => ∃ g, (p.code.function g).state = .analyzed ∧ func = p.code.function g)
    (fun g _ hg => ⟨g, hg, rfl⟩) ⟨f, analyzed, rfl⟩
  refine ⟨fun call hcall => ?_, fun i hi g hg hmissing => ?_, fun g stopped hstep => ⟨?_, Machine.step_eq_missing hstep⟩⟩
  · obtain ⟨⟨g, hstate, hfunc⟩, -⟩ := halong.frame hcall
    exact ⟨g, Code.has_of_analyzed hstate, hstate, hfunc⟩
  · have hinnermost : m'.innermost ∈ m'.frames := by
      obtain ⟨memory, top, globals, frames, state⟩ := m'
      cases frames with
      | nil => cases hi
      | cons f rest => exact List.mem_cons_self
    obtain ⟨⟨caller, hstate, hfunc⟩, -⟩ := halong.frame hinnermost
    rw [hcode] at hstate hfunc
    have hlinked := hfunc ▸ hlinked caller hstate
    unfold Function.target? at hg
    split at hg
    · next g' args hk =>
      cases hg
      have hhas : m'.innermost.func.instrs.Has i := by
        refine Decidable.byContradiction fun hn => ?_
        rw [Function.instr, Pool.getD_of_not_has hn] at hk
        cases hk
      exact absurd (hcode ▸ hlinked i hhas g (by rw [hk]; rfl)) hmissing
    · next v args hk =>
      split at hg
      · next hv =>
        cases hg
        exact ⟨⟨v, args, hk, hv⟩, Machine.step_of_missing hi hk hv hmissing⟩
      · cases hg
    · cases hg
  · exact (Machine.fair_laws.step m').of_error hstep

/-- A word is called: `f :: () { x: s64 = 1000; (*cast(*fn(), &x))(); }`. -/
def forgedAst : Ast :=
  ⟨#[⟨.ident "s64", .dummy⟩,
    ⟨.intLit 1000, .dummy⟩,
    ⟨.decl ⟨"x", some 0, some 1, true⟩, .dummy⟩,
    ⟨.fnType ⟨[], none⟩, .dummy⟩,
    ⟨.ptrType 3, .dummy⟩,
    ⟨.ident "x", .dummy⟩,
    ⟨.addrOf 5, .dummy⟩,
    ⟨.cast 4 6, .dummy⟩,
    ⟨.deref 7, .dummy⟩,
    ⟨.call 8 [], .dummy⟩,
    ⟨.block [2, 9], .dummy⟩,
    ⟨.fnLit ⟨⟨[], none⟩, some 10, none, false, false⟩, .dummy⟩,
    ⟨.decl ⟨"f", none, some 11, false⟩, .dummy⟩]⟩

def forged : Session := stateAfter (declare [12]) (create .default .none forgedAst)

theorem forged_accepted :
    ∃ p s' m', forged.finish = .ok p s' ∧ (p.code.function 0).state = .analyzed ∧
      Machine.States p.setting (p.code.function 0) [] .fresh m' ∧ m'.next? = some 6 ∧
      m'.innermost.func.target? m'.innermost.reg 6 = some 999 ∧ ¬ p.code.fns.Has 999 := by
  have hok : succeeds finish forged (fun p s' =>
      (p.code.function 0).state = .analyzed && !decide (p.code.fns.Has 999) &&
      ((Machine.stateAt p.setting (p.code.function 0) [] .fresh 6).map fun m =>
        (m.next?, m.innermost.func.target? m.innermost.reg 6)) = some (some 6, some 999)) = true := by
    decide +kernel
  obtain ⟨p, s', hp, htest⟩ := of_succeeds hok
  simp only [Bool.and_eq_true, Bool.not_eq_true', decide_eq_true_eq, decide_eq_false_iff_not] at htest
  obtain ⟨⟨hstate, hmissing⟩, hrun⟩ := htest
  obtain ⟨m', hm', hnext⟩ := Option.map_eq_some_iff.mp hrun
  obtain ⟨hi, hg⟩ := Prod.mk.inj hnext
  exact ⟨p, s', m', hp, hstate, Machine.states_of_stateAt hm', hi, hg, hmissing⟩

/-- A program is accepted in which a call invokes a function that does not exist. -/
theorem missing_callee_reached :
    ∃ p s' m', forged.finish = .ok p s' ∧ Machine.States p.setting (p.code.function 0) [] .fresh m' ∧
      ∃ i ∈ m'.next?, ∃ g ∈ m'.innermost.func.target? m'.innermost.reg i, ¬ p.code.fns.Has g := by
  obtain ⟨p, s', m', hp, -, hstates, hi, hg, hmissing⟩ := forged_accepted
  exact ⟨p, s', m', hp, hstates, 6, hi, 999, hg, hmissing⟩

/-- The host is brought down there, at a call through a value. -/
theorem callee_exists_unless_forged_word :
    ∃ p s' m' v args stopped, forged.finish = .ok p s' ∧
      (m'.innermost.func.instr 6).kind = .call (.indirect v) args ∧ m'.innermost.reg v = .fn 999 ∧
      Machine.step p.setting m' = .error (.missing 999) stopped := by
  obtain ⟨p, s', m', hp, hstate, hstates, hi, hg, hmissing⟩ := forged_accepted
  have hreach : forged.Reachable := (Reachable.create .default .none forgedAst).tail (.inl (.declare _ _))
  obtain ⟨⟨v, args, hk, hv⟩, stopped, hstep, -⟩ :=
    (callee_exists_unless_forged hreach hp hstate hstates).2.1 6 hi 999 hg hmissing
  exact ⟨p, s', m', v, args, stopped, hp, hk, hv, hstep⟩

end Session

end Comptime
