import Comptime.Proofs.Code.WellTyped
import Comptime.Proofs.Machine.Incomplete

/-!
# Reasoning about steps of the machine

`Exec.Runs x m Q` says of a piece of a step that `Q` holds of what it gives and of the machine after
it, and that it never stops because the code is not well formed. It may stop for any other reason.

Memory, globals and the end of the stack play no part: what is read from memory is a value of its type
whatever the bytes are. So most statements are about the calls in progress only.
-/

namespace Comptime

/-- The trap of code that is not well formed. -/
def TrapKind.isInvalid : TrapKind → Bool
  | invalidOperation _ => true
  | _ => false

/-- Stopped for a reason other than code that is not well formed. -/
def Stop.Legitimate : Stop → Prop
  | .trap t => t.kind.isInvalid = false
  | .postponed _ | .exhausted => True
  | .missing _ => False

namespace Exec

/-- The piece of a step succeeds with `Q`, or stops for a legitimate reason. -/
abbrev Runs {α : Type} (x : Exec α) (m : Machine) (Q : α → Machine → Prop) : Prop := Meets Stop.Legitimate x m Q

end Exec

def Frame.reg (f : Frame) (i : InstrId) : Value := f.regs.getD i.index .void

/-- A call of a function that has just begun. -/
structure Frame.Fresh (f : Frame) (g : Function) (result : Option InstrId) : Prop where
  func : f.func = g
  result : f.result = result
  block : f.block = Function.entry
  pos : f.pos = 0
  prev : f.prev = none
  regs : f.regs = Array.replicate g.instrs.size .void

theorem Memory.place_error {memory : Memory} {addr len} {kind : TrapKind} (h : memory.place addr len = .error kind) :
    kind.isInvalid = false := by
  unfold Memory.place at h
  dsimp only at h
  split at h
  · cases h
    rfl
  · split at h
    all_goals split at h
    all_goals cases h
    all_goals rfl

namespace Machine

open Exec (Meets Runs)

variable {α β : Type} {i : InstrId} {env : Setting} {m : Machine} {f : Frame} {rest : List Frame} {span : Span}
  {Q : β → Machine → Prop}

theorem bind_of_ok {x} {k : α → Exec β} {m'} {a : α} (h : x m = .ok a m') : (x >>= k) m = k a m' := by
  simp only [bind, EStateM.bind, h]

theorem bind_of_error {x} {k : α → Exec β} {m' stop} (h : x m = .error stop m') : (x >>= k) m = .error stop m' := by
  simp only [bind, EStateM.bind, h]

theorem orTrap_bind {k : α → Exec β} {r} (hok : ∀ a, r = .ok a → Runs (k a) m Q)
    (herror : ∀ kind, r = .error kind → kind.isInvalid = false) : Runs (orTrap span r >>= k) m Q := by
  cases r with
  | ok a => exact hok a rfl
  | error kind => exact herror kind rfl

theorem orNoLayout_bind {k : α → Exec β} {r} {a : α} (hr : r = .ok a) (h : Runs (k a) m Q) :
    Runs (orNoLayout span r >>= k) m Q := by
  rw [hr]
  exact h

/-! ## Registers and control -/

section

variable (hm : m.frames = f :: rest)

include hm

theorem frame_bind {k : Frame → Exec β} (h : Runs (k f) m Q) : Runs (frame >>= k) m Q := by
  show Runs (k (m.frames.headD default)) m Q
  rw [hm]
  exact h

theorem reg_bind {k : Value → Exec β} (h : Runs (k (f.reg i)) m Q) : Runs (reg i >>= k) m Q := by
  show Runs (k ((m.frames.headD default).reg i)) m Q
  rw [hm]
  exact h

theorem mapM_reg_bind {k : List Value → Exec β} {regs : List InstrId}
    (h : Runs (k (regs.map f.reg)) m Q) : Runs (regs.mapM reg >>= k) m Q := by
  induction regs generalizing k with
  | nil => exact h
  | cons i regs ih =>
    rw [List.mapM_cons, bind_assoc]
    refine reg_bind hm ?_
    rw [bind_assoc]
    exact ih h

theorem modifyFrame_runs {g : Frame → Frame} {P : PUnit → Machine → Prop}
    (h : ∀ m', m'.frames = g f :: rest → P ⟨⟩ m') :
    Runs (modifyFrame g) m P := by
  obtain ⟨memory, top, globals, frames, state⟩ := m
  obtain rfl : frames = f :: rest := hm
  exact h _ rfl

theorem address_bind {k : UInt64 → Exec β} (hv : ∃ a, f.reg i = .ptr a)
    (h : ∀ a, Runs (k a) m Q) : Runs (address i span >>= k) m Q := by
  obtain ⟨a, ha⟩ := hv
  rw [address, bind_assoc]
  refine reg_bind hm ?_
  rw [ha]
  exact h a

theorem indexValue_bind {k : Int64 → Exec β} (hv : ∃ w, f.reg i = .int w)
    (h : ∀ n, Runs (k n) m Q) : Runs (indexValue i span >>= k) m Q := by
  obtain ⟨w, hw⟩ := hv
  rw [indexValue, bind_assoc]
  refine reg_bind hm ?_
  rw [hw]
  exact h _

end

/-! ## Memory -/

theorem load_bind {k : Value → Exec β} {addr ty} (hw : env.WellTyped) (hty : env.types.Has ty)
    (h : ∀ v, v.fits env.types ty = true → Runs (k v) m Q) : Runs (load env addr ty span >>= k) m Q := by
  obtain ⟨s, hs⟩ := hw.shape hty
  rw [load, bind_assoc]
  refine orNoLayout_bind hs ?_
  rw [bind_assoc]
  refine Meets.get (orTrap_bind (fun v hv => h v ?_) fun kind hk => ?_)
  all_goals simp only [Memory.load] at *
  · split at hv
    · cases hv
      exact Shape.fits_read hw.standard.real hs _ _ _
    · cases hv
      exact Shape.fits_read hw.standard.real hs _ _ _
    · cases hv
  · split at hk
    · cases hk
    · cases hk
    · next hplace =>
      cases hk
      exact Memory.place_error hplace

theorem store_runs {addr ty v} (hw : env.WellTyped) (hty : env.types.Has ty) :
    Runs (store env addr ty v span) m fun _ m' => m'.frames = m.frames := by
  obtain ⟨s, hs⟩ := hw.shape hty
  refine orNoLayout_bind hs (Meets.get ?_)
  exact orTrap_bind (fun place _ => rfl) fun kind hk => Memory.place_error hk

theorem globalAddress_runs {g} (hw : env.WellTyped) (hty : env.types.Has (env.code.global g).ty) :
    Runs (globalAddress env g span) m fun _ m' => m'.frames = m.frames := by
  refine Meets.get ?_
  split
  · exact rfl
  · obtain ⟨s, hs⟩ := hw.shape hty
    refine orNoLayout_bind (map_eq_ok.mpr ⟨s, hs, rfl⟩) (Meets.get ?_)
    dsimp only
    split
    · refine Meets.bind (P := fun _ m' => m'.frames = m.frames) rfl fun _ m' hm' => ?_
      exact (store_runs hw hty).bind fun _ m'' hm'' => hm''.trans hm'
    · exact rfl

/-! ## Calls -/

theorem pushFrame_runs {func args result} (hw : env.WellTyped)
    (hparams : ∀ s ∈ func.paramSlots, env.types.Has (func.slot s).ty) :
    Runs (pushFrame env func args result span) m fun _ m' =>
      ∃ f : Frame, f.Fresh func result ∧ m'.frames = f :: m.frames := by
  refine Meets.get (Meets.get ?_)
  dsimp only
  split
  · exact rfl
  · split
    · refine Meets.bind (P := fun _ m' => m'.frames = m.frames) rfl fun _ m' hm' => ?_
      refine (Meets.forM (I := fun m' => m'.frames = m.frames) hm' ?_).bind ?_
      · intro p hp m'' hm''
        exact (store_runs hw (hparams p.1 (List.of_mem_zip hp).1)).imp fun _ _ h => h.trans hm''
      · intro _ m'' hm''
        exact ⟨_, ⟨rfl, rfl, rfl, rfl, rfl, rfl⟩, congrArg _ hm''⟩
    · exact rfl

theorem callable_runs {g} (hg : env.code.fns.Has g) :
    Runs (callable env g span) m fun func m' => m' = m ∧ func = env.code.function g ∧
      (func.native = none → func.state = .analyzed) := by
  rcases callable_cases env g span with ⟨h, hstate⟩ | ⟨stop, h, hstop⟩ <;> rw [h]
  · exact ⟨rfl, rfl, hstate⟩
  · cases hstop with
    | missing hn => exact hn hg
    | unfinished => trivial
    | failed => rfl

theorem callHost_runs {func} {name} {args} :
    Runs (callHost env func name args span) m fun v m' => m' = m ∧ v.fits env.types func.ret = true := by
  unfold callHost
  refine orTrap_bind (fun v _ => ?_) fun kind hk => ?_
  · split
    · next hv => exact ⟨rfl, hv⟩
    · exact rfl
  · cases hc : env.host.call name args with
    | ok v =>
      rw [hc] at hk
      cases hk
    | error e =>
      rw [hc] at hk
      cases hk
      rfl

end Machine

end Comptime
