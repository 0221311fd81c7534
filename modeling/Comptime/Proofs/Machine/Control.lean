import Comptime.Proofs.Code.Graph
import Comptime.Proofs.Machine.Logic

/-!
# Where control goes

A step changes the place of at most one call: it goes on, jumps to one of the blocks that its instruction
leads to, waits for a new call, or is left (`Machine.Shift`). So whatever the code is, each call in progress
stands on a way through its function (`Machine.OnPath`), and a machine whose functions are all formed is never
led nowhere (`guided_run`, `guided_runFn`).
-/

namespace Comptime

/-- Stopped for a reason other than that control leads nowhere. -/
def Outcome.Guided : Outcome → Prop
  | .trapped t => t.kind.isAstray = false
  | .returned _ | .postponed _ | .exhausted | .missing _ => True

def Stop.Guided (stop : Stop) : Prop := stop.outcome.Guided

/-- Where a call stands. -/
structure Position where
  func : Function
  block : BlockId
  pos : Nat
  prev : Option BlockId

def Frame.position (f : Frame) : Position := ⟨f.func, f.block, f.pos, f.prev⟩

def Machine.positions (m : Machine) : List Position := m.frames.map Frame.position

/-! ## Pieces of steps -/

namespace Exec

/-- The piece of a step succeeds with `Q`, or stops for another reason than that control leads nowhere. -/
abbrev Guides {α : Type} (x : Exec α) (m : Machine) (Q : α → Machine → Prop) : Prop := Meets Stop.Guided x m Q

def Stays {α : Type} (x : Exec α) : Prop := ∀ m, Guides x m fun _ m' => m'.positions = m.positions

variable {α β : Type} {x : Exec α} {k : α → Exec β} {m : Machine} {Q : β → Machine → Prop}

namespace Stays

theorem andThen (h : Stays x) (h' : ∀ a m', m'.positions = m.positions → Guides (k a) m' Q) :
    Guides (x >>= k) m Q := (h m).bind h'

protected theorem pure {a : α} : Stays (pure a) := fun _ => rfl

protected theorem trap {kind span} (h : kind.isAstray = false) : Stays (Machine.trap kind span : Exec α) := fun _ => h

theorem trapped {kind span} (h : kind.isAstray = false) : Stays (Machine.trap kind span >>= k) := fun _ => h

protected theorem bind (h : Stays x) (h' : ∀ a, Stays (k a)) : Stays (x >>= k) :=
  fun _ => h.andThen fun a m' hm' => (h' a m').imp fun _ _ hm'' => hm''.trans hm'

protected theorem get : Stays (get : Exec Machine) := fun _ => rfl

protected theorem modify {f : Machine → Machine} (h : ∀ m, (f m).positions = m.positions) : Stays (modify f) := h

end Stays

end Exec

namespace Machine

open Exec (Guides Meets Stays)

variable {i base : InstrId} {ty : TypeId} {func : Function} {args : List Value} {r : Option Value} {m' m : Machine}
  {α : Type} {env : Setting} {span : Span}

theorem frame_stays : Stays frame := fun _ => rfl

theorem setReg_stays {v} : Stays (setReg i v) := by
  rintro ⟨memory, top, globals, frames, state⟩
  cases frames <;> rfl

theorem stays : Exec.Rules Stays where
  pure := .pure
  bind := .bind
  trap h := .trap (Bool.or_eq_false_iff.mp h).2
  frame := frame_stays

theorem load_stays {addr : UInt64} : Stays (load env addr ty span) :=
  stays.orNoLayout.bind fun _ => Stays.get.bind fun _ => stays.orTrap (Memory.unblaming_load ..)

theorem store_stays {addr : UInt64} {v} : Stays (store env addr ty v span) :=
  stays.orNoLayout.bind fun _ => Stays.get.bind fun _ =>
    (stays.orTrap (Memory.unblaming_place ..)).bind fun _ => .modify fun _ => rfl

theorem globalAddress_stays {g} : Stays (globalAddress env g span) := by
  refine Stays.get.bind fun m => ?_
  split
  · exact .pure
  · refine stays.orNoLayout.bind fun _ => Stays.get.bind fun _ => ?_
    refine stays.ite (.bind (.modify fun _ => rfl) fun _ => store_stays.bind fun _ => ?_) (.trapped rfl)
    exact .bind (.modify fun _ => rfl) fun _ => .pure

/-! ## Calls -/

theorem callable_guides (g) : Guides (callable env g span) m fun func m' =>
    m' = m ∧ func = env.code.function g ∧ (func.native = none → func.state = .analyzed) := by
  rcases callable_cases env g span with ⟨h, hstate⟩ | ⟨stop, h, hstop⟩ <;> rw [h]
  · exact ⟨rfl, rfl, hstate⟩
  · cases hstop with
    | missing | unfinished => trivial
    | failed => rfl

theorem pushFrame_guides (func args result) :
    Guides (pushFrame env func args result span) m fun _ m' =>
      m'.positions = ⟨func, Function.entry, 0, none⟩ :: m.positions := by
  refine Stays.get.andThen fun _ m1 hm1 => Stays.get.andThen fun _ m2 hm2 => ?_
  rw [← hm1, ← hm2]
  dsimp only
  split
  · exact rfl
  · split
    · refine Stays.andThen (.modify fun _ => rfl) fun _ m3 hm3 => ?_
      refine Stays.andThen (stays.forM (fun _ => store_stays) _) fun _ m4 hm4 => ?_
      exact congrArg _ (hm4.trans hm3)
    · exact rfl

theorem leave_guides (v) : Guides (leave v) m fun r m' =>
    m'.positions = m.positions.tail ∧ (r = none → m'.positions ≠ []) := by
  obtain ⟨memory, top, globals, frames, state⟩ := m
  unfold leave
  cases frames with
  | nil => exact ⟨rfl, fun h => by cases h⟩
  | cons f rest =>
    cases rest with
    | nil => exact ⟨rfl, fun h => by cases h⟩
    | cons caller rest =>
      obtain ⟨func, block, pos, prev, regs, base, savedTop, result⟩ := f
      cases result with
      | none => exact ⟨rfl, fun h => by cases h⟩
      | some i => exact ⟨rfl, fun _ => List.cons_ne_nil _ _⟩

/-! ## Instructions -/

/-- What an instruction may do to the places of the calls, of which the innermost has gone on behind it. If
it gives no result of the whole run, there is a call to go on with. -/
inductive Shift (env : Setting) (f : Function) (i : InstrId) (p : Position) (rest : List Position)
    (r : Option Value) : List Position → Prop
  | goesOn (goesOn : (f.instr i).kind.isTerminator = false) : Shift env f i p rest r (p :: rest)
  | jumps {target : BlockId} (leads : target ∈ (f.instr i).kind.targets) :
    Shift env f i p rest r ({ p with prev := some p.block, block := target, pos := 0 } :: rest)
  | calls (g : FnId) (native : (env.code.function g).native = none)
    (analyzed : (env.code.function g).state = .analyzed)
    (goesOn : (f.instr i).kind.isTerminator = false) :
    Shift env f i p rest r (⟨env.code.function g, Function.entry, 0, none⟩ :: p :: rest)
  | leaves (below : r = none → rest ≠ []) : Shift env f i p rest r rest

section

variable {f : Function} {i : InstrId} {p : Position} {rest : List Position}

theorem stays_shift {x} (hx : Stays x) (hm : m.positions = p :: rest) (goesOn : (f.instr i).kind.isTerminator = false) :
    Guides x m fun r m' => Shift env f i p rest r m'.positions := by
  refine (hx m).imp fun _ m' hm' => ?_
  rw [hm', hm]
  exact .goesOn goesOn

section

variable (hm : m.positions = p :: rest)

include hm

theorem jump_shift {target} (leads : target ∈ (f.instr i).kind.targets) :
    Guides (do jump target; return none : Exec (Option Value)) m fun r m' => Shift env f i p rest r m'.positions := by
  obtain ⟨memory, top, globals, frames, state⟩ := m
  cases frames with
  | nil => cases hm
  | cons frame frames =>
    obtain ⟨rfl, rfl⟩ := List.cons.inj hm
    exact Shift.jumps leads

theorem leave_shift {v} : Guides (leave v) m fun r m' => Shift env f i p rest r m'.positions := by
  refine (leave_guides v).imp fun r m' ⟨hm', hbelow⟩ => ?_
  rw [hm'] at hbelow ⊢
  rw [hm] at hbelow ⊢
  exact .leaves hbelow

theorem call_shift {callee args} (goesOn : (f.instr i).kind.isTerminator = false) :
    Guides (call env i callee args span) m fun _ m' => Shift env f i p rest none m'.positions := by
  unfold call
  extract_lets goOn
  have htarget (g : FnId) {m : Machine} (hm : m.positions = p :: rest) :
      Guides (goOn g) m fun _ m' => Shift env f i p rest none m'.positions := by
    refine (callable_guides g).bind ?_
    rintro _ _ ⟨rfl, rfl, hstate⟩
    refine Stays.andThen (stays.mapM (fun _ => stays.reg) _) fun args m1 hm1 => ?_
    cases hn : (env.code.function g).native with
    | some name =>
      refine (stays.callHost.bind fun _ => setReg_stays) m1 |>.imp fun _ m2 hm2 => ?_
      rw [hm2, hm1, hm]
      exact .goesOn goesOn
    | none =>
      refine (pushFrame_guides _ _ _).imp fun _ m2 hm2 => ?_
      rw [hm2, hm1, hm]
      exact .calls g hn (hstate hn) goesOn
  cases callee with
  | direct g => exact htarget g hm
  | indirect v =>
    refine stays.reg.andThen fun v m1 hm1 => ?_
    split
    · exact htarget _ (hm1.trans hm)
    · exact rfl
    · exact TrapKind.isAstray_append (by decide) (by decide) _

theorem execute_shift
    (hphi : ∀ l ∈ (f.instr i).kind.incoming?, (p.prev.bind fun b => l.lookup b).isSome = true) :
    Guides (execute env f i) m fun r m' => Shift env f i p rest r m'.positions := by
  have hset {v : Value} : Stays (do setReg i v; return none : Exec (Option Value)) :=
    setReg_stays.bind fun _ => .pure
  unfold execute
  dsimp only
  split
  case h_1 hk => exact stays_shift hset hm (by rw [hk]; rfl)
  case h_2 hk => exact stays_shift (frame_stays.bind fun _ => hset) hm (by rw [hk]; rfl)
  case h_3 hk => exact stays_shift (globalAddress_stays.bind fun _ => hset) hm (by rw [hk]; rfl)
  case h_4 hk =>
    exact stays_shift (stays.address.bind fun _ => load_stays.bind fun _ => hset) hm (by rw [hk]; rfl)
  case h_5 hk =>
    exact stays_shift (stays.address.bind fun _ => stays.reg.bind fun _ => store_stays.bind fun _ => .pure) hm
      (by rw [hk]; rfl)
  case h_6 hk => exact stays_shift ((stays.elemAddress load_stays).bind fun _ => hset) hm (by rw [hk]; rfl)
  case h_7 hk => exact stays_shift (stays.memberAddress.bind fun _ => hset) hm (by rw [hk]; rfl)
  case h_8 hk =>
    refine stays_shift (stays.reg.bind fun _ => stays.reg.bind fun _ => ?_) hm (by rw [hk]; rfl)
    exact (stays.orTrap (BinaryOp.unblaming_eval ..)).bind fun _ => hset
  case h_9 hk =>
    refine stays_shift (stays.reg.bind fun _ => ?_) hm (by rw [hk]; rfl)
    exact (stays.orTrap (UnaryOp.unblaming_eval ..)).bind fun _ => hset
  case h_10 hk =>
    refine stays_shift (stays.reg.bind fun _ => ?_) hm (by rw [hk]; rfl)
    exact (stays.orTrap (CastOp.unblaming_eval ..)).bind fun _ => hset
  case h_11 hk =>
    exact stays_shift ((stays.mapM (fun _ => stays.reg) _).bind fun _ => hset) hm (by rw [hk]; rfl)
  case h_12 hk => exact (call_shift hm (by rw [hk]; rfl)).bind fun _ _ h => .pure h
  case h_13 hk => exact jump_shift hm (by rw [hk]; exact List.mem_singleton_self _)
  case h_14 hk =>
    refine stays.reg.andThen fun v m1 hm1 => ?_
    split
    · exact jump_shift (hm1.trans hm) (by rw [hk]; exact List.mem_cons_self)
    · exact jump_shift (hm1.trans hm) (by rw [hk]; exact List.mem_cons_of_mem _ List.mem_cons_self)
    · exact TrapKind.isAstray_append (by decide) (by decide) _
  case h_15 hk =>
    refine stays.reg.andThen fun v m1 hm1 => ?_
    split
    · exact jump_shift (hm1.trans hm) (by rw [hk]; exact InstrKind.mem_targets_switch _)
    · exact TrapKind.isAstray_append (by decide) (by decide) _
  case h_16 incoming hk =>
    have hfound := hphi incoming (by rw [hk]; rfl)
    obtain ⟨memory, top, globals, frames, state⟩ := m
    cases frames with
    | nil => cases hm
    | cons frame frames =>
      obtain ⟨rfl, rfl⟩ := List.cons.inj hm
      obtain ⟨r, hr⟩ := Option.isSome_iff_exists.mp hfound
      have hr : (frame.prev.bind fun b => incoming.lookup b) = some r := hr
      have hread : Stays (do setReg i (← reg r); return none : Exec (Option Value)) :=
        stays.reg.bind fun _ => hset
      refine Meets.bind (P := fun a m' => a = frame ∧ m' = ⟨memory, top, globals, frame :: frames, state⟩)
        ⟨rfl, rfl⟩ ?_
      rintro _ _ ⟨rfl, rfl⟩
      rw [hr]
      exact stays_shift hread rfl (by rw [hk]; rfl)
  case h_17 =>
    split
    · exact stays.reg.andThen fun v m1 hm1 => leave_shift (hm1.trans hm)
    · exact leave_shift hm
  case h_18 => exact rfl
  case h_19 hk =>
    refine stays_shift (stays.reg.bind fun v => ?_) hm (by rw [hk]; rfl)
    split
    · exact .pure
    · exact .trap rfl

end

end

section

variable {memory : Memory} {top : Nat} {globals : List (GlobalId × UInt64)} {f : Frame} {rest : List Frame}
  {state : MachineState} {i : InstrId}

theorem frame_bind_cons (k : Frame → Exec α) :
    (frame >>= k) ⟨memory, top, globals, f :: rest, state⟩ = k f ⟨memory, top, globals, f :: rest, state⟩ := rfl

theorem step_of_at? (hat : (f.func.block f.block).instrs[f.pos]? = some i) :
    step env ⟨memory, top, globals, f :: rest, state⟩ =
      execute env f.func i ⟨memory, top, globals, { f with pos := f.pos + 1 } :: rest, state⟩ := by
  rw [step, frame_bind_cons]
  simp only [hat]
  rfl

theorem step_of_end (hat : (f.func.block f.block).instrs[f.pos]? = none) :
    step env ⟨memory, top, globals, f :: rest, state⟩ =
      .error (.trap ⟨.invalidOperation "block without terminator", f.func.span⟩)
        ⟨memory, top, globals, f :: rest, state⟩ := by
  rw [step, frame_bind_cons]
  simp only [hat]
  rfl

theorem execute_of_lost {func incoming} (hk : (func.instr i).kind = .phi incoming)
    (hlost : (f.prev.bind fun b => incoming.lookup b) = none) :
    execute env func i ⟨memory, top, globals, f :: rest, state⟩ =
      .error (.trap ⟨.invalidOperation "phi without matching predecessor", (func.instr i).span⟩)
        ⟨memory, top, globals, f :: rest, state⟩ := by
  unfold execute
  simp only [hk]
  rw [frame_bind_cons]
  simp only [hlost]
  rfl

end

theorem step_shift {f rest} (hm : m.frames = f :: rest) (hat : f.func.at? f.block f.pos = some i)
    (hphi : ∀ l ∈ (f.func.instr i).kind.incoming?, (f.prev.bind fun b => l.lookup b).isSome = true) :
    Guides (step env) m fun r m' => Shift env f.func i { f.position with pos := f.pos + 1 }
      (rest.map Frame.position) r m'.positions := by
  obtain ⟨memory, top, globals, frames, state⟩ := m
  obtain rfl : frames = f :: rest := hm
  have hexecute : Guides (execute env f.func i)
      ⟨memory, top, globals, { f with pos := f.pos + 1 } :: rest, state⟩ fun r m' =>
        Shift env f.func i { f.position with pos := f.pos + 1 } (rest.map Frame.position) r m'.positions :=
    execute_shift rfl hphi
  unfold Guides Meets at hexecute ⊢
  rw [step_of_at? hat]
  exact hexecute

theorem led_of_step (h : step env m = .ok r m') :
    ∃ f rest i, m.frames = f :: rest ∧ f.func.at? f.block f.pos = some i ∧
      ∀ l ∈ (f.func.instr i).kind.incoming?, (f.prev.bind fun b => l.lookup b).isSome = true := by
  obtain ⟨memory, top, globals, frames, state⟩ := m
  cases frames with
  | nil => cases h
  | cons f rest =>
    cases hat : (f.func.block f.block).instrs[f.pos]? with
    | none =>
      rw [step_of_end hat] at h
      cases h
    | some i =>
      refine ⟨f, rest, i, rfl, hat, fun l hl => ?_⟩
      rw [step_of_at? hat] at h
      cases hk : (f.func.instr i).kind with
      | phi incoming =>
        rw [hk] at hl
        obtain rfl : incoming = l := Option.some.inj hl
        cases hfound : f.prev.bind fun b => incoming.lookup b with
        | some v => rfl
        | none =>
          rw [execute_of_lost (f := { f with pos := f.pos + 1 }) hk hfound] at h
          cases h
      | _ =>
        rw [hk] at hl
        cases hl

/-! ## Runs -/

/-- All calls in progress are on a way through their functions, of which `P` holds. -/
def Along (P : Function → Prop) (m : Machine) : Prop :=
  ∀ p ∈ m.positions, P p.func ∧ ∃ passed, p.func.Path p.block p.pos p.prev passed

/-- `P` holds of all functions that can be called. -/
def Callees (env : Setting) (P : Function → Prop) : Prop := ∀ g, (env.code.function g).native = none →
  (env.code.function g).state = .analyzed → P (env.code.function g)

variable {P : Function → Prop}

theorem Along.frame {f} (h : m.Along P) (hf : f ∈ m.frames) :
    P f.func ∧ ∃ passed, f.func.Path f.block f.pos f.prev passed :=
  h f.position (List.mem_map_of_mem hf)

theorem Shift.along {f rest} (hcode : Callees env P) (h : m.Along P) (hm : m.frames = f :: rest)
    (hat : f.func.at? f.block f.pos = some i)
    (hs : Shift env f.func i { f.position with pos := f.pos + 1 } (rest.map Frame.position) r m'.positions) :
    m'.Along P := by
  obtain ⟨hfunc, passed, hpath⟩ := h.frame (hm ▸ List.mem_cons_self)
  have hrest : ∀ p ∈ rest.map Frame.position, P p.func ∧ ∃ passed, p.func.Path p.block p.pos p.prev passed := by
    intro p hp
    obtain ⟨g, hg, rfl⟩ := List.mem_map.mp hp
    exact h.frame (hm ▸ List.mem_cons_of_mem f hg)
  unfold Along
  generalize m'.positions = after at hs
  cases hs with
  | goesOn hgoes => exact List.forall_mem_cons.mpr ⟨⟨hfunc, _, hpath.next hat hgoes⟩, hrest⟩
  | jumps hleads => exact List.forall_mem_cons.mpr ⟨⟨hfunc, _, hpath.jump hat hleads⟩, hrest⟩
  | calls g hn hs hgoes =>
    refine List.forall_mem_cons.mpr ⟨⟨hcode g hn hs, [], .start⟩, ?_⟩
    exact List.forall_mem_cons.mpr ⟨⟨hfunc, _, hpath.next hat hgoes⟩, hrest⟩
  | leaves => exact hrest

theorem Shift.ne_nil {f p rest after} (h : Shift env f i p rest none after) : after ≠ [] := by
  cases h with
  | goesOn | jumps | calls => exact List.cons_ne_nil _ _
  | leaves below => exact below rfl

theorem Along.step (hcode : Callees env P) (h : m.Along P) (hstep : step env m = .ok r m') : m'.Along P := by
  obtain ⟨f, rest, i, hm, hat, hphi⟩ := led_of_step hstep
  exact ((step_shift hm hat hphi).of_ok hstep).along hcode h hm hat

/-- The states of a run of a function, which need not be part of the code. -/
inductive States (env : Setting) (func : Function) (args : List Value) (m : Machine) : Machine → Prop
  | start {m1 : Machine} (pushed : pushFrame env func args none func.span
      { m with state := .running, frames := [], top := 0 } = .ok ⟨⟩ m1) : States env func args m m1
  | step {m1 m2 : Machine} (before : States env func args m m1) (stepped : step env m1 = .ok none m2) :
    States env func args m m2

theorem along_of_pushFrame {m1 : Machine} (hfunc : P func) (pushed : m1.positions = ⟨func, Function.entry, 0, none⟩ ::
      positions { m with state := .running, frames := [], top := 0 }) : m1.Along P := by
  intro p hp
  rw [pushed] at hp
  obtain rfl := List.mem_singleton.mp hp
  exact ⟨hfunc, [], .start⟩

theorem States.along (hcode : Callees env P) (hfunc : P func) (h : States env func args m m') : m'.Along P := by
  induction h with
  | start pushed => exact along_of_pushFrame hfunc ((pushFrame_guides func args none).of_ok pushed)
  | step _ stepped ih => exact ih.step hcode stepped

/-- The state of a run after some steps, if it comes so far. -/
def stateAt (env : Setting) (func : Function) (args : List Value) (m : Machine) : Nat → Option Machine
  | 0 =>
    match pushFrame env func args none func.span { m with state := .running, frames := [], top := 0 } with
    | .ok _ m1 => some m1
    | .error _ _ => none
  | n + 1 =>
    (stateAt env func args m n).bind fun m1 =>
      match step env m1 with
      | .ok none m2 => some m2
      | _ => none

theorem states_of_stateAt {n} (h : stateAt env func args m n = some m') : States env func args m m' := by
  induction n generalizing m' with
  | zero =>
    unfold stateAt at h
    split at h
    · next pushed =>
      cases h
      exact .start pushed
    · cases h
  | succ n ih =>
    obtain ⟨m1, hm1, hstep⟩ := Option.bind_eq_some_iff.mp h
    split at hstep
    · next stepped =>
      cases hstep
      exact .step (ih hm1) stepped
    · cases hstep

/-! ## Formed code -/

/-- The function is formed and carried out by the machine. -/
structure Executable (f : Function) : Prop where
  formed : f.Formed
  native : f.native = none

theorem callees_of_formed (h : env.code.Formed) :
    Callees env Executable := fun g native analyzed => ⟨h g analyzed, native⟩

variable (hcode : Callees env Executable)

include hcode

private theorem step_guides (h : m.Along Executable) (hne : m.frames ≠ []) :
    Guides (step env) m fun r m' => m'.Along Executable ∧ (r = none → m'.frames ≠ []) := by
  obtain ⟨f, rest, hm⟩ := List.exists_cons_of_ne_nil hne
  obtain ⟨⟨hformed, hnative⟩, passed, hpath⟩ := h.frame (hm ▸ List.mem_cons_self)
  obtain ⟨i, hat⟩ := hformed.path_at? hnative hpath
  refine (step_shift hm hat (hformed.phi_isSome hpath hat)).imp fun r m' hs => ⟨hs.along hcode h hm hat, ?_⟩
  rintro rfl hnil
  refine hs.ne_nil ?_
  rw [positions, hnil]
  rfl

private theorem loop_guides (h : m.Along Executable) (hne : m.frames ≠ []) (fuel) :
    Guides (loop env fuel) m fun _ _ => True := by
  induction fuel generalizing m with
  | zero => trivial
  | succ fuel ih =>
    refine (step_guides hcode h hne).bind fun r m' ⟨hm', hne'⟩ => ?_
    cases r with
    | some v => trivial
    | none => exact ih hm' (hne' rfl)

theorem guided_runFn (hfunc : func.native = none → func.Formed) (args m) : (runFn env func args m).1.Guided := by
  have henter : Guides (enter env func args) { m with state := .running, frames := [], top := 0 }
      fun _ _ => True := by
    refine stays.checkArgs.andThen fun _ m1 hm1 => ?_
    cases hn : func.native with
    | some name => exact (stays.callHost m1).imp fun _ _ _ => trivial
    | none =>
      refine (pushFrame_guides func args none).bind fun _ m2 hm2 => ?_
      rw [hm1] at hm2
      refine loop_guides hcode (along_of_pushFrame ⟨hfunc hn, hn⟩ hm2) (fun hnil => ?_) _
      rw [positions, hnil] at hm2
      cases hm2
  unfold runFn conclude EStateM.run
  cases hx : enter env func args { m with state := .running, frames := [], top := 0 } with
  | ok v m' => trivial
  | error stop m' => exact henter.of_error hx

/-- Where the code is formed no run is led astray. -/
theorem guided_run (f args m) : (run env f args m).1.Guided := by
  have hcallable : Guides (callable env f (env.code.function f).span) m _ := callable_guides f
  unfold run EStateM.run
  cases hx : callable env f (env.code.function f).span m with
  | ok func m' =>
    obtain ⟨rfl, rfl, hstate⟩ := hcallable.of_ok hx
    exact guided_runFn hcode (fun hn => (hcode f hn (hstate hn)).formed) args m'
  | error stop m' => exact hcallable.of_error hx

end Machine

end Comptime
