import Comptime.Proofs.Machine.Alike

/-!
# Runs one after the other on one machine

A run begins with no calls, but the bytes that earlier runs have left on the stack stay there, and an
address counts as valid if it lies in the stack as it has grown so far. So what a run gives may depend
on the runs before it. It does not, if each access to the stack lies in the frame of a call that the
run itself has made: a frame is cleared when it is opened, and what lies outside of all frames is then
never seen (`Machine.run_isolated`).
-/

namespace Comptime

/-- There is no data as long as no global has a place. -/
def MemoryMap.Tidy (a : MemoryMap) : Prop := a.globals = [] → a.data = 0

theorem MemoryMap.Changes.tidy {env} {Framed} {a b : MemoryMap} (h : Changes env Framed a b) (ha : a.Tidy) : b.Tidy := by
  induction h with
  | refl => exact ha
  | tail _ hc ih =>
    cases hc with
    | global => exact nofun
    | _ => exact ih

namespace Machine

open Exec (Twin)

variable {R : Machine → Machine → Prop} {env : Setting} {m u : Machine} {opened : List Extent} {func : Function}
  {args : List Value}

/-! ## Globals that are not touched -/

/-- A machine between two runs. -/
inductive Used (env : Setting) : Machine → Prop
  | fresh : Used env .fresh
  | run {m : Machine} (before : Used env m) (f : FnId) (args : List Value) :
    Used env (run env f args m).2
  | runFn {m : Machine} (before : Used env m) (func : Function) (args : List Value) :
    Used env (runFn env func args m).2

theorem Used.tidy (used : Used env u) : u.map.Tidy := by
  have hrunFn {m : Machine} {func : Function} {args : List Value} (h : m.map.Tidy) :
      (Machine.runFn env func args m).2.map.Tidy := by
    obtain ⟨o, ho⟩ := conclude_state { m with state := .running, frames := [], top := 0 } (enter env func args)
    have hlaws : Exec.Laws env (Exec.Maps env fun _ => True) := maps_laws fun _ _ _ => trivial
    have hmaps : Exec.Maps env (fun _ => True) (enter env func args) := hlaws.enter (pushFrame_maps trivial)
    rw [Machine.runFn, ho]
    exact (hmaps _).tidy h
  induction used with
  | fresh => exact fun _ => rfl
  | runFn _ func args ih => exact hrunFn ih
  | @run m _ f args ih =>
    unfold Machine.run
    cases hc : (callable env f (env.code.function f).span).run m with
    | ok func m' =>
      obtain rfl : m' = m := (stateAfter_ok hc).symm.trans (callable_state f _ m)
      exact hrunFn ih
    | error stop m' =>
      obtain rfl : m' = m := (stateAfter_error hc).symm.trans (callable_state f _ m)
      cases stop <;> exact ih

theorem Used.rests (used : Used env u) : u.frames = [] ∧ u.top = 0 := by
  have hconclude {m : Machine} {x : Exec Value} :
      (conclude m x).2.frames = [] ∧ (conclude m x).2.top = 0 := by
    obtain ⟨o, ho⟩ := conclude_state m x
    rw [ho]
    exact ⟨rfl, rfl⟩
  cases used with
  | fresh => exact ⟨rfl, rfl⟩
  | runFn _ func args => exact hconclude
  | @run m _ f args =>
    unfold Machine.run
    cases hc : (callable env f (env.code.function f).span).run m with
    | ok func m' => exact hconclude
    | error stop m' => cases stop <;> exact ⟨rfl, rfl⟩

theorem Used.alike (used : Used env u) (untouched : u.globals = []) : Alike [] .fresh u where
  top := used.rests.2
  globals := untouched
  frames := used.rests.1
  data := Array.eq_empty_of_size_eq_zero (used.tidy untouched)
  live _ he := nomatch he
  here _ he := nomatch he
  there _ he := nomatch he
  bytes _ he := nomatch he

/-! ## Runs -/

/-- The states of a run of a function on a machine that has not run before, with the frames of the
calls that have been made so far. -/
inductive Course (env : Setting) (func : Function) (args : List Value) :
    Machine → List Extent → Prop
  | start {m : Machine}
    (pushed : pushFrame env func args none func.span { fresh with state := .running } = .ok ⟨⟩ m) :
    Course env func args m m.map.frames
  | step {m m' : Machine} {opened : List Extent} (before : Course env func args m opened)
    (stepped : step env m = .ok none m') : Course env func args m' (m'.map.frames ++ opened)

/-- Whenever a run of the function on a machine that has not run before accesses the stack, it does so
within the frame of a call that it has made. This goes for the arguments of calls too. -/
structure Confined (env : Setting) (func : Function) (args : List Value) : Prop where
  arguments : func.native = none → func.TakesInside env.types
  course : ∀ m opened, Course env func args m opened → ∀ i ∈ m.next?,
    Obeys env opened m.innermost.func m.innermost.reg i

private theorem loop_twin (confined : Confined env func args) (hm : Course env func args m opened)
    (h : Alike opened m u)
    (fuel) : Twin (fun _ _ => True) (loop env fuel m) (loop env fuel u) := by
  induction fuel generalizing m u opened with
  | zero => exact .error
  | succ fuel ih =>
    refine (step_twin h (confined.course m opened hm)).bind fun r m' u' hr h' => ?_
    cases r with
    | none => exact ih (.step hm hr) h'
    | some v => exact .ok trivial

private theorem enter_twin (confined : Confined env func args) (h : Alike [] { fresh with state := .running } u) :
    Twin (fun _ _ => True) (enter env func args { fresh with state := .running }) (enter env func args u) := by
  refine (blind.checkArgs _ _ _ h).bind fun _ m' u' hc h' => ?_
  obtain rfl := (stateAfter_ok hc).symm.trans (idle.checkArgs _)
  cases hn : func.native with
  | some name => exact (blind.callHost _ _ _ h').imp fun _ _ _ _ _ => trivial
  | none =>
    refine (pushFrame_twin h' (confined.arguments hn)).bind fun _ m u hp h => ?_
    rw [List.append_nil] at h
    exact loop_twin confined (.start hp) h _

private theorem conclude_twin {x} (h : Twin R (x m) (x u)) : (conclude u x).1 = (conclude m x).1 := by
  unfold conclude EStateM.run
  generalize x m = r, x u = r' at h
  cases h with
  | ok => rfl
  | @error stop => cases stop <;> rfl

private theorem runFn_isolated (confined : Confined env func args) (h : Alike [] .fresh u) :
    (runFn env func args u).1 = (runFn env func args .fresh).1 := by
  apply conclude_twin
  apply enter_twin confined
  exact { h with top := rfl, frames := rfl }

/-- **Runs do not depend on earlier runs.** A machine that has touched no global gives for a function
what a machine that has not run gives, whatever it has been used for and however that has ended, if
there the function accesses the stack only within the frames of the calls that it makes. -/
theorem run_isolated {env : Setting} {u : Machine} (used : Used env u) (untouched : u.globals = [])
    {f : FnId} {args : List Value} (confined : Confined env (env.code.function f) args) :
    (run env f args u).1 = (run env f args .fresh).1 := by
  have halike := used.alike untouched
  have hcallable := @callable_blind env (env.code.function f).span f _ _ _ halike
  unfold run EStateM.run
  cases hc : callable env f (env.code.function f).span fresh with
  | error stop m' =>
    rw [hc] at hcallable
    generalize callable env f (env.code.function f).span u = r at hcallable
    cases hcallable
    cases stop <;> rfl
  | ok func m' =>
    obtain ⟨rfl, rfl, -⟩ := callable_eq_ok hc
    rw [hc] at hcallable
    generalize hu : callable env f (env.code.function f).span u = r at hcallable
    cases hcallable with
    | ok =>
      obtain ⟨rfl, -, -⟩ := callable_eq_ok hu
      exact runFn_isolated confined halike

/-- The next steps of a run keep within the frames, and the run ends with them. -/
def obeysFor (env : Setting) : Nat → List Extent → Machine → Bool
  | 0, _, _ => false
  | fuel + 1, opened, m =>
    decide (∀ i ∈ m.next?, Obeys env opened m.innermost.func m.innermost.reg i) &&
      match step env m with
      | .ok none m' => obeysFor env fuel (m'.map.frames ++ opened) m'
      | _ => true

theorem confined_of_obeysFor (hargs : func.native = none → func.TakesInside env.types) (fuel)
    (h : succeeds (pushFrame env func args none func.span) { fresh with state := .running }
      (fun _ m => obeysFor env fuel m.map.frames m) = true) : Confined env func args := by
  have hcourse {m : Machine} {opened : List Extent} (hm : Course env func args m opened) :
      ∃ fuel, obeysFor env fuel opened m = true := by
    induction hm with
    | start pushed =>
      obtain ⟨_, m', hm', hobeys⟩ := of_succeeds h
      cases pushed.symm.trans hm'
      exact ⟨fuel, hobeys⟩
    | step _ stepped ih =>
      obtain ⟨_ | fuel, hobeys⟩ := ih
      · cases hobeys
      · have hrest := (Bool.and_eq_true_iff.mp hobeys).2
        rw [stepped] at hrest
        exact ⟨fuel, hrest⟩
  refine ⟨hargs, fun m opened hm => ?_⟩
  obtain ⟨_ | fuel, hobeys⟩ := hcourse hm
  · cases hobeys
  · exact of_decide_eq_true (Bool.and_eq_true_iff.mp hobeys).1

end Machine

namespace Leftover

open Factorial (instr)

/-- Leaves a number on the stack. -/
def keep : Function :=
  { Function.declare "keep" .void [] .void .dummy with
    slots := ⟨#[⟨"x", .s64, 0, .dummy⟩]⟩
    frameSize := 8
    state := .analyzed
    blocks := ⟨#[⟨"entry", #[0, 1, 2, 3]⟩]⟩
    instrs := ⟨#[
      instr (.slotPtr 0) 14 0,
      instr (.const (.int 42)) .s64 0,
      instr (.store 0 1) .void 0,
      instr (.ret none) .void 0]⟩ }

/-- Reads the first number on the stack, although it has no variable there. -/
def peek : Function :=
  { Function.declare "peek" .void [] .s64 .dummy with
    state := .analyzed
    blocks := ⟨#[⟨"entry", #[0, 1, 2]⟩]⟩
    instrs := ⟨#[
      instr (.const (.ptr 0x1000)) 14 0,
      instr (.load 0) .s64 0,
      instr (.ret (some 1)) .void 0]⟩ }

def setting : Setting :=
  ⟨.default, Factorial.setting.types, ⟨⟨#[Factorial.function, keep, peek]⟩, .empty⟩, .none⟩

/-- Whether the outcome is that number. -/
def isNumber (w : UInt64) : Outcome → Bool
  | .returned (.int v) => v == w
  | _ => false

theorem eq_of_isNumber {w} {o} (h : isNumber w o = true) : o = .returned (.int w) := by
  unfold isNumber at h
  split at h
  · rw [eq_of_beq h]
  · cases h

/-- Whether the outcome is that trap. -/
def isTrap (trap : Trap) : Outcome → Bool
  | .trapped trap' => decide (trap' = trap)
  | _ => false

private theorem eq_of_isTrap {trap o} (h : isTrap trap o = true) : o = .trapped trap := by
  unfold isTrap at h
  split at h
  · rw [of_decide_eq_true h]
  · cases h

def used : Machine := (Machine.run setting 1 [] .fresh).2

end Leftover

/-- The factorial of five is the same, whether a number has been left on the stack or not. -/
theorem Machine.run_isolated_factorial :
    Used Leftover.setting Leftover.used ∧ Leftover.used.globals = [] ∧
    Confined Leftover.setting Factorial.function [.int 5] ∧
    (run Leftover.setting 0 [.int 5] Leftover.used).1 =
      (run Leftover.setting 0 [.int 5] .fresh).1 := by
  have hused : Used Leftover.setting Leftover.used := .run .fresh 1 []
  have huntouched : Leftover.used.globals = [] := by decide +kernel
  have hconfined : Confined Leftover.setting Factorial.function [.int 5] := by
    apply confined_of_obeysFor _ 100
    · decide +kernel
    · intro
      decide +kernel
  exact ⟨hused, huntouched, hconfined, run_isolated hused huntouched hconfined⟩

/-- What has been left on the stack is found by a function that looks for it. -/
theorem Machine.run_of_leftover :
    Used Leftover.setting Leftover.used ∧ Leftover.used.globals = [] ∧
    (run Leftover.setting 2 [] Leftover.used).1 = .returned (.int 42) ∧
    (run Leftover.setting 2 [] .fresh).1 = .trapped ⟨.invalidAddress 0x1000, .dummy⟩ := by
  refine ⟨.run .fresh 1 [], by decide +kernel, ?_, ?_⟩
  · apply Leftover.eq_of_isNumber
    decide +kernel
  · apply Leftover.eq_of_isTrap
    decide +kernel

end Comptime
