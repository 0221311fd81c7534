import Comptime.Proofs.Machine.Execute

/-!
# Well-typed code runs safely

The calls in progress form a sound stack: each is sound, and each but the innermost waits for the one
above to return a value of the type of its call instruction. A step keeps the stack sound and is never
invalid, and so is a whole run, however deep its calls are nested and however long it takes.

What a call has executed cannot be read off the machine, so `Machine.During` keeps account of it next
to the states of a run.
-/

namespace Comptime

/-- How a run of a function may end: with a value of its type, or for a reason that has nothing to do with
types. Only the function itself may be missing. -/
def Outcome.Sound (env : Setting) (f : FnId) : Outcome → Prop
  | .returned v => v.fits env.types (env.code.function f).ret = true
  | .trapped t => t.kind.isInvalid = false
  | .missing g => g = f ∧ ¬ env.code.fns.Has f
  | .postponed _ | .exhausted => True

namespace Machine

open Exec (Meets Runs)

variable {all : List (List InstrId)} {args : List Value}

/-- The calls that wait for the result of another call, which has a type and goes to a register; the
outermost result is that of the run. -/
inductive Suspended (env : Setting) (ret : TypeId) :
    Option InstrId → TypeId → List Frame → List (List InstrId) → Prop
  | bottom : Suspended env ret none ret [] []
  | caller {f : Frame} {i : InstrId} {passed : List InstrId} {rest : List Frame}
    {below : List (List InstrId)} (executing : f.Executing env i passed)
    (goesOn : (f.func.instr i).kind.isTerminator = false)
    (callers : Suspended env ret f.result f.func.ret rest below) :
    Suspended env ret (some i) (f.func.typeOf i) (f :: rest) (passed :: below)

/-- The calls in progress between two instructions, each with what it has executed. -/
inductive Stack (env : Setting) (ret : TypeId) : List Frame → List (List InstrId) → Prop
  | calls {f : Frame} {passed : List InstrId} {rest : List Frame} {below : List (List InstrId)}
    (sound : f.Sound env passed) (path : f.func.Path f.block f.pos f.prev passed)
    (callers : Suspended env ret f.result f.func.ret rest below) :
    Stack env ret (f :: rest) (passed :: below)

/-- What each call in progress has executed after one more instruction. A call instruction counts as
executed when it has returned. -/
def record (before after : List Frame) : List (List InstrId) → List (List InstrId)
  | passed :: below =>
    if before.length < after.length then [] :: passed :: below
    else if after.length < before.length then
      match below with
      | caller :: below => ((before.head?.bind Frame.result).toList ++ caller) :: below
      | [] => []
    else ((before.head?.bind fun f => f.func.at? f.block f.pos).toList ++ passed) :: below
  | [] => []

/-- The states of a run of a function, with what each call in progress has executed. -/
inductive During (env : Setting) (f : FnId) (args : List Value) (m : Machine) :
    Machine → List (List InstrId) → Prop
  | start {m1 : Machine} (native : (env.code.function f).native = none)
    (analyzed : (env.code.function f).state = .analyzed)
    (pushed : pushFrame env (env.code.function f) args none (env.code.function f).span
      { m with state := .running, frames := [], top := 0 } = .ok ⟨⟩ m1) :
    During env f args m m1 [[]]
  | step {m1 m2 : Machine} {passed : List (List InstrId)} (before : During env f args m m1 passed)
    (stepped : step env m1 = .ok none m2) :
    During env f args m m2 (record m1.frames m2.frames passed)

variable {env : Setting} {m : Machine} {f : Frame} {i : InstrId} {ret : TypeId}
  {passed : List InstrId} {rest : List Frame} {below : List (List InstrId)} {span : Span}

/-! ## Steps -/

theorem Suspended.result_eq_none {result ty} (h : Suspended env ret result ty rest below) : result = none ↔ rest = [] := by
  cases h with
  | bottom => exact iff_of_true rfl rfl
  | caller => exact iff_of_false (by simp) (by simp)

theorem Suspended.values {result ty} (h : Suspended env ret result ty rest below) :
    List.Forall₂ (fun f passed => ∀ i ∈ passed, (f.reg i).fits env.types (f.func.typeOf i) = true) rest below := by
  induction h with
  | bottom => exact .nil
  | caller he _ _ ih => exact .cons he.values ih

theorem Stack.values {frames} (h : Stack env ret frames all) :
    List.Forall₂ (fun f passed => ∀ i ∈ passed, (f.reg i).fits env.types (f.func.typeOf i) = true) frames all := by
  obtain ⟨hs, -, hc⟩ := h
  exact .cons hs.values hc.values

theorem Stack.push {callee g result} (hf : callee.Fresh g result) (hg : g.WellTyped env.types env.code)
    (hc : Suspended env ret result g.ret rest below) : Stack env ret (callee :: rest) ([] :: below) := by
  refine .calls (hf.sound hg) ?_ ?_
  · rw [hf.func, hf.block, hf.pos, hf.prev]
    exact .start
  · rw [hf.func, hf.result]
    exact hc

/-- After an instruction the stack is still sound, or the run has given its result. -/
def Continues (env : Setting) (ret : TypeId) (before : List Frame) (all : List (List InstrId))
    (r : Option Value) (after : List Frame) : Prop :=
  match r with
  | none => Stack env ret after (record before after all)
  | some v => v.fits env.types ret = true

theorem Continues.goOn {f'} (hat : f.func.at? f.block f.pos = some i)
    (h : Stack env ret (f' :: rest) ((i :: passed) :: below)) :
    Continues env ret (f :: rest) (passed :: below) none (f' :: rest) := by
  simpa [Continues, record, hat] using h

theorem Continues.goBack {f' caller passed'} (hres : f.result = some i)
    (h : Stack env ret (f' :: rest) ((i :: passed') :: below)) :
    Continues env ret (f :: caller :: rest) (passed :: passed' :: below) none (f' :: rest) := by
  have hn : ¬ rest.length + 1 < rest.length := by omega
  simpa [Continues, record, hn, hres] using h

theorem Effect.continues {r after} (hw : env.WellTyped) (hat : f.func.at? f.block f.pos = some i)
    (hs : f.Sound env passed) (hpath : f.func.Path f.block f.pos f.prev passed)
    (hc : Suspended env ret f.result f.func.ret rest below)
    (h : Effect env { f with pos := f.pos + 1 } i rest r after) :
    Continues env ret (f :: rest) (passed :: below) r after := by
  have he := hs.executing hpath hat
  cases h with
  | writes hv hn => exact .goOn hat (.calls (he.write he.has hv) (hpath.next hat hn) hc)
  | skips hty hn => exact .goOn hat (.calls (he.skip hw he.has hty) (hpath.next hat hn) hc)
  | jumps ht =>
    have hs' := he.skip hw he.has (he.typed.eq_void ht)
    exact .goOn hat (.calls ⟨hs'.function, hs'.size, hs'.regs, hs'.values⟩ (hpath.jump hat ht) hc)
  | calls hg hfresh hret hn =>
    have hwaits := Suspended.caller he hn hc
    rw [← hret] at hwaits
    simpa [Continues, record] using Stack.push hfresh hg hwaits
  | ends hv hrest =>
    subst hrest
    generalize hres : f.result = result at hc
    generalize hret : f.func.ret = ty at hc
    cases hc
    exact hret ▸ hv
  | returns hv hres hbelow =>
    subst hbelow
    generalize hret : f.func.ret = ty at hc
    rw [show f.result = some _ from hres] at hc
    cases hc with
    | caller he' hn hc' =>
      obtain ⟨pos, hpos, hpath', hat'⟩ := he'.path
      have hpath' := hpos ▸ hpath'.next hat' hn
      exact .goBack hres (.calls (he'.write he'.has (hret ▸ hv)) hpath' hc')

theorem step_runs (hw : env.WellTyped) (h : Stack env ret m.frames all) :
    Runs (step env) m fun r m' => Continues env ret m.frames all r m'.frames := by
  generalize hm : m.frames = frames at h
  cases h with
  | @calls f passed rest below hs hpath hc =>
    obtain ⟨i, hat⟩ := hs.function.path_at? hpath
    refine frame_bind hm ?_
    dsimp only
    rw [show (f.func.block f.block).instrs[f.pos]? = some i from hat]
    refine (modifyFrame_runs (P := fun _ m' => m'.frames = _) hm fun m' hm' => hm').bind ?_
    intro _ m' hm'
    have he := hs.executing hpath hat
    refine (execute_runs hw he hm' hc.result_eq_none).imp fun r m'' heffect => ?_
    exact heffect.continues hw hat hs hpath hc

/-! ## Runs -/

private theorem loop_runs (hw : env.WellTyped) (fuel) (h : Stack env ret m.frames all) :
    Runs (loop env fuel) m fun v _ => v.fits env.types ret = true := by
  induction fuel generalizing m all with
  | zero => exact trivial
  | succ fuel ih =>
    refine (step_runs hw h).bind fun r m' hr => ?_
    cases r with
    | none => exact ih hr
    | some v => exact hr

private theorem checkArgs_runs {func} (ha : List.Forall₂ (fun v ty => v.fits env.types ty = true) args func.params) :
    Runs (checkArgs env func args) m fun _ m' => m' = m := by
  unfold checkArgs
  rw [if_neg (not_not_intro ha.length_eq)]
  refine Meets.forM rfl fun ⟨⟨v, ty⟩, n⟩ hp m' hm' => ?_
  have hv := (List.forall₂_iff_zip.mp ha).2 (List.fst_mem_of_mem_zipIdx hp)
  dsimp only
  rw [if_pos hv]
  exact hm'

private theorem enter_runs {func} (hw : env.WellTyped) (hfunc : func.native = none → func.WellTyped env.types env.code)
    (ha : List.Forall₂ (fun v ty => v.fits env.types ty = true) args func.params) (hm : m.frames = []) :
    Runs (enter env func args) m fun v _ => v.fits env.types func.ret = true := by
  refine (checkArgs_runs ha).bind ?_
  rintro _ _ rfl
  cases hn : func.native with
  | some name => exact callHost_runs.imp fun _ _ hv => hv.2
  | none =>
    refine (pushFrame_runs hw (hfunc hn).params).bind ?_
    rintro _ m' ⟨f, hfresh, hm'⟩
    have hstack := Stack.push hfresh (hfunc hn) .bottom
    rw [← hm, ← hm'] at hstack
    exact loop_runs hw _ hstack

theorem run_sound {f} (hw : env.WellTyped)
    (ha : List.Forall₂ (fun v ty => v.fits env.types ty = true) args (env.code.function f).params) :
    (run env f args m).1.Sound env f := by
  unfold run
  rcases callable_cases env f (env.code.function f).span with ⟨h, hstate⟩ | ⟨stop, h, hstop⟩ <;> rw [h]
  · have henter : Runs (enter env (env.code.function f) args) { m with state := .running, frames := [], top := 0 } _ :=
      enter_runs hw (fun hn => hw.function f hn (hstate hn)) ha rfl
    show (conclude _ _).1.Sound env f
    unfold conclude
    cases hx : (enter env (env.code.function f) args).run { m with state := .running, frames := [], top := 0 } with
    | ok v m' => exact henter.of_ok hx
    | error stop m' =>
      have hstop := henter.of_error hx
      cases stop with
      | trap t => exact hstop
      | missing g => exact hstop.elim
      | postponed | exhausted => trivial
  · cases hstop with
    | missing hn => exact ⟨rfl, hn⟩
    | unfinished => trivial
    | failed => rfl

theorem During.stack {f m'} (hw : env.WellTyped) (h : During env f args m m' all) :
    Stack env (env.code.function f).ret m'.frames all := by
  induction h with
  | start hn hstate hpushed =>
    have hfunction := hw.function f hn hstate
    obtain ⟨callee, hfresh, hframes⟩ := (pushFrame_runs hw hfunction.params).of_ok hpushed
    rw [hframes]
    exact .push hfresh hfunction .bottom
  | step _ hstep ih => exact (step_runs hw ih).of_ok hstep

/-- **Well-typed code runs safely.** A run ends with a value of the result type of the function, or
for a reason that has nothing to do with types. In every state of the run, what an instruction has
written to its register is a value of the type of the instruction, and the next step is not
invalid and calls no function that is missing. -/
theorem run_safe {env : Setting} (hw : env.WellTyped) (f : FnId) {args : List Value}
    (ha : List.Forall₂ (fun v ty => v.fits env.types ty = true) args (env.code.function f).params)
    (m : Machine) :
    (run env f args m).1.Sound env f ∧
      ∀ m1 all, During env f args m m1 all →
        List.Forall₂ (fun frame passed => ∀ i ∈ passed,
          (frame.reg i).fits env.types (frame.func.typeOf i) = true) m1.frames all ∧
        ∀ stop m2, step env m1 = .error stop m2 → stop.Legitimate := by
  refine ⟨run_sound hw ha, fun m1 all h => ?_⟩
  have hstack := h.stack hw
  exact ⟨hstack.values, fun stop m2 hstop => (step_runs hw hstack).of_error hstop⟩

end Machine

/-! ## A recursive function -/

namespace Factorial

def instr (kind : InstrKind) (ty : TypeId) (block : Nat) : Instr := ⟨kind, ty, .dummy, ⟨block⟩⟩

/-- The factorial of a number, by recursion. -/
def function : Function :=
  { Function.declare "factorial" .void [.s64] .s64 .dummy with
    paramSlots := [0]
    slots := ⟨#[⟨"n", .s64, 0, .dummy⟩]⟩
    frameSize := 8
    state := .analyzed
    blocks := ⟨#[⟨"entry", #[0, 1, 2, 3, 4]⟩, ⟨"zero", #[5, 6]⟩,
      ⟨"more", #[7, 8, 9, 10, 11]⟩, ⟨"end", #[12, 13]⟩]⟩
    instrs := ⟨#[
      instr (.slotPtr 0) 14 0,
      instr (.load 0) .s64 0,
      instr (.const (.int 0)) .s64 0,
      instr (.binary .eq 1 2) .bool 0,
      instr (.branch 3 1 2) .void 0,
      instr (.const (.int 1)) .s64 1,
      instr (.jump 3) .void 1,
      instr (.const (.int 1)) .s64 2,
      instr (.binary .sub 1 7) .s64 2,
      instr (.call (.direct 0) [8]) .s64 2,
      instr (.binary .mul 1 9) .s64 2,
      instr (.jump 3) .void 2,
      instr (.phi [(1, 5), (2, 10)]) .s64 3,
      instr (.ret (some 12)) .void 3]⟩ }

def setting : Setting :=
  ⟨.default, (TypeTable.initial.ptr .s64).1, ⟨⟨#[function]⟩, .empty⟩, .none⟩

private theorem typed : function.Typed setting.types setting.code where
  instrs
  | 0, _ => .slotPtr (show setting.types.kind 14 = .ptr .s64 by decide +kernel)
  | 1, _ => .load ⟨by decide, rfl⟩ (by decide +kernel)
  | 2, _ | 5, _ | 7, _ => .const (by decide +kernel)
  | 3, _ | 8, _ | 10, _ => .binary ⟨by decide, rfl⟩ ⟨by decide, rfl⟩ (by decide +kernel)
  | 4, _ => .branch ⟨by decide, rfl⟩
  | 6, _ | 11, _ => .jump
  | 9, _ => .callDirect (by decide) (.cons ⟨by decide, rfl⟩ .nil)
  | 12, _ => .phi (by simpa using ⟨⟨by decide, rfl⟩, ⟨by decide, rfl⟩⟩)
  | 13, _ => .giveBack (by decide) ⟨by decide, rfl⟩
  | ⟨n + 14⟩, hn => absurd hn (by simp [Pool.Has, Pool.size, function])

private theorem available : function.Available fun b => if b = Function.entry then [] else [0, 1, 2, 3, 4] where
  entry := rfl
  edge := Function.forall_instr (by decide)
  reads := Function.forall_block (by decide)
  incoming := Function.forall_instr (by decide)

private theorem wellTyped : function.WellTyped setting.types setting.code :=
  have terminated := Function.forall_block (f := function) (P := function.Terminated) (by decide)
  { typed with
    params := by decide +kernel
    direct := Function.forall_instr (by decide)
    has_entry := by decide
    has_instr := Function.forall_instr (by decide)
    has_target := Function.forall_instr (by decide)
    terminated
    written := fun _ _ _ _ _ => available.written terminated
    phi := Function.forall_instr (by decide)
    entry_phi := by decide }

private theorem setting_wellTyped : setting.WellTyped where
  standard :=
    (TypeTable.Proper.initial.intern (k := .ptr .s64) trivial).standard
  pointee {ty target} hk := by
    have hall : ∀ n < setting.types.size, ∀ target ∈ setting.types.pointee ⟨n⟩, setting.types.Has target := by
      decide +kernel
    have hty : setting.types.Has ty := TypeTable.has_of_kind_ne (by simp [hk])
    exact hall ty.index hty target (by simp [TypeTable.pointee, hk])
  layout ty hty := by
    have h : ∀ n < setting.types.size, (setting.types.layout ⟨n⟩).isOk = true := by decide +kernel
    cases hl : setting.types.layout ty with
    | ok l => exact ⟨l, rfl⟩
    | error e =>
      have hok := h ty.index hty
      rw [hl] at hok
      cases hok
  function f hn hstate := by
    by_cases hf : setting.code.fns.Has f
    · obtain ⟨_ | n⟩ := f
      · exact wellTyped
      · exact absurd hf (by simp [Pool.Has, Pool.size, setting])
    · rw [Code.function, Pool.getD_of_not_has hf] at hstate
      cases hstate

private theorem five_fits :
    List.Forall₂ (fun (v : Value) ty => v.fits setting.types ty = true) [.int 5] (setting.code.function 0).params :=
  .cons (by decide +kernel) .nil

end Factorial

/-- The factorial of five is computed safely. -/
theorem Machine.run_safe_factorial :
    Factorial.setting.WellTyped ∧
      (run Factorial.setting 0 [.int 5] .fresh).1.Sound Factorial.setting 0 ∧
      ∀ m1 all, During Factorial.setting 0 [.int 5] .fresh m1 all →
        List.Forall₂ (fun frame passed => ∀ i ∈ passed,
          (frame.reg i).fits Factorial.setting.types (frame.func.typeOf i) = true) m1.frames all ∧
        ∀ stop m2, step Factorial.setting m1 = .error stop m2 → stop.Legitimate :=
  ⟨Factorial.setting_wellTyped,
    Machine.run_safe Factorial.setting_wellTyped 0 Factorial.five_fits .fresh⟩

example : (match (Machine.run Factorial.setting 0 [.int 5] .fresh).1 with
    | .returned (.int w) => some w
    | _ => none) = some 120 := by
  decide +kernel

end Comptime
