import Comptime.Proofs.Machine.Map
import Comptime.Proofs.Machine.Safety

/-!
# Frames and globals do not overlap

In every state that a machine can be in, between two instructions, after a trap and after any number of
runs, the frames of the calls in progress stand one behind the other on the stack, the variables of a
call have their own bytes in its frame, and each global has its own bytes in the data segment, for good.

Main result: `Machine.memory_mapped`.
-/

namespace Comptime

namespace MemoryMap

variable {globals : List (GlobalId × UInt64)}

/-- Frames that end at `top`, each of which begins behind the end of the stack that it has saved. -/
inductive Stacked : Nat → List Extent → Prop
  | nil {top : Nat} : Stacked top []
  | cons {top : Nat} {e : Extent} {rest : List Extent}
    (base : e.base = Memory.stackBase + alignUp e.savedTop Memory.frameAlign)
    (stop : e.base + e.func.frameSize = Memory.stackBase + top) (below : Stacked e.savedTop rest) :
    Stacked top (e :: rest)

/-- Globals within the first `stop` bytes of the data segment, each behind the ones before it. -/
inductive Lined (env : Setting) : Nat → List (GlobalId × UInt64) → Prop
  | nil {stop : Nat} : Lined env stop []
  | cons {stop start : Nat} {g : GlobalId} {addr : UInt64} {l : Layout}
    {rest : List (GlobalId × UInt64)} (layout : env.types.layout (env.code.global g).ty = .ok l)
    (aligned : l.align ∣ start) (place : addr.toNat = Memory.dataBase + start)
    (fits : start + l.size ≤ stop) (new : rest.lookup g = none) (before : Lined env start rest) :
    Lined env stop ((g, addr) :: rest)

/-- What holds of every memory map that a machine can have. -/
structure Sound (env : Setting) (a : MemoryMap) : Prop where
  depth : a.frames.length ≤ env.limits.maxFrames
  laid : ∀ e ∈ a.frames, e.func.LaidOut env.types
  stacked : Stacked a.top a.frames
  top : a.top ≤ a.stack
  stack : a.stack ≤ env.limits.stackSize
  data : a.data ≤ env.limits.maxDataSize
  addressable : Memory.dataBase + a.data < TypeTable.addressSpace
  lined : Lined env a.data a.globals

variable {env : Setting} {a b : MemoryMap}

theorem Lined.mono {stop stop'} (h : Lined env stop globals) (hle : stop ≤ stop') : Lined env stop' globals := by
  cases h with
  | nil => exact .nil
  | cons layout aligned place fits new before =>
    exact .cons layout aligned place (Nat.le_trans fits hle) new before

theorem Stacked.savedTop_le {top} {e rest} (h : Stacked top (e :: rest)) : e.savedTop ≤ top := by
  cases h with
  | cons base stop below =>
    have := le_alignUp e.savedTop Memory.frameAlign
    omega

theorem Change.sound (ht : env.types.Widths) (h : Change env (·.LaidOut env.types) a b) (ha : a.Sound env) : b.Sound env := by
  cases h with
  | clear =>
    exact { ha with
      depth := Nat.zero_le _
      laid := fun e he => by cases he
      stacked := .nil
      top := Nat.zero_le _ }
  | stack fits =>
    exact { ha with
      top := Nat.le_trans ha.top (Nat.le_max_left ..)
      stack := Nat.max_le.mpr ⟨ha.stack, fits⟩ }
  | @push func start laid room above fits =>
    exact { ha with
      depth := room
      laid := fun e he => by
        rcases List.mem_cons.mp he with rfl | he
        · exact laid
        · exact ha.laid e he
      stacked := .cons (above ▸ rfl) (Nat.add_assoc ..) ha.stacked
      top := Nat.le_max_right ..
      stack := Nat.max_le.mpr ⟨ha.stack, fits⟩ }
  | @pop e rest innermost =>
    have hstacked := ha.stacked
    have hdepth := ha.depth
    have hlaid := ha.laid
    rw [innermost] at hstacked hdepth hlaid
    exact { ha with
      depth := Nat.le_of_succ_le hdepth
      laid := fun e' he' => hlaid e' (List.mem_cons_of_mem e he')
      stacked := by
        cases hstacked with
        | cons base stop below => exact below
      top := Nat.le_trans hstacked.savedTop_le ha.top }
  | @global g l start new layout behind fits addressable =>
    have hpos : 0 < l.align := Nat.pos_of_dvd_of_pos (ht.align_dvd layout) (by decide)
    have hbehind : a.data ≤ start := behind ▸ le_alignUp ..
    have haddr : (UInt64.ofNat (Memory.dataBase + start)).toNat = Memory.dataBase + start :=
      UInt64.toNat_ofNat_of_lt' (show _ < TypeTable.addressSpace by omega)
    exact { ha with
      data := fits
      addressable
      lined := .cons layout (behind ▸ dvd_alignUp hpos _) haddr (Nat.le_refl _) new (ha.lined.mono hbehind) }

theorem Change.lookup {Framed} (h : Change env Framed a b) {g} {addr} (hg : a.globals.lookup g = some addr) :
    b.globals.lookup g = some addr := by
  cases h with
  | @global g' l start new =>
    have hne : g ≠ g' := by
      rintro rfl
      rw [new] at hg
      cases hg
    show List.lookup g ((g', _) :: a.globals) = _
    rw [List.lookup_cons, beq_eq_false_iff_ne.mpr hne]
    exact hg
  | _ => exact hg

/-- Changes keep the map of the memory sound. -/
theorem Changes.sound (ht : env.types.Widths) (h : Changes env (·.LaidOut env.types) a b) (ha : a.Sound env) :
    b.Sound env := by
  induction h with
  | refl => exact ha
  | tail _ hc ih => exact hc.sound ht ih

theorem Changes.lookup {Framed} (h : Changes env Framed a b) {g} {addr} (hg : a.globals.lookup g = some addr) :
    b.globals.lookup g = some addr := by
  induction h with
  | refl => exact hg
  | tail _ hc ih => exact hc.lookup ih

/-! ## Frames -/

theorem Stacked.frame {top} {frames} (h : Stacked top frames) {e} (he : e ∈ frames) :
    Memory.stackBase ≤ e.base ∧ Memory.frameAlign ∣ e.base ∧ e.base + e.func.frameSize ≤ Memory.stackBase + top := by
  induction h with
  | nil => cases he
  | @cons top e' rest base stop below ih =>
    rcases List.mem_cons.mp he with rfl | he
    · refine ⟨by omega, ?_, by omega⟩
      rw [base]
      exact Nat.dvd_add (by decide) (dvd_alignUp (by decide) _)
    · obtain ⟨hbase, haligned, hstop⟩ := ih he
      have := (Stacked.cons base stop below).savedTop_le
      exact ⟨hbase, haligned, by omega⟩

theorem Stacked.ascending {top} {frames} (h : Stacked top frames) :
    frames.Pairwise fun inner outer => outer.base + outer.func.frameSize ≤ inner.base := by
  induction h with
  | nil => exact .nil
  | @cons top e rest base stop below ih =>
    refine .cons (fun outer houter => ?_) ih
    have := (below.frame houter).2.2
    have := le_alignUp e.savedTop Memory.frameAlign
    omega

/-! ## Globals -/

variable {g g' : GlobalId} {addr addr' : UInt64} {l l' : Layout}

theorem Lined.global (ht : env.types.Widths) {stop : Nat} {globals} (h : Lined env stop globals)
    (hg : globals.lookup g = some addr) :
    ∃ l, env.types.layout (env.code.global g).ty = .ok l ∧ l.align ∣ addr.toNat ∧
      Memory.dataBase ≤ addr.toNat ∧ addr.toNat + l.size ≤ Memory.dataBase + stop := by
  induction h with
  | nil => cases hg
  | @cons stop start g' addr' l rest layout aligned place fits new before ih =>
    rw [List.lookup_cons] at hg
    split at hg
    · next heq =>
      obtain rfl := eq_of_beq heq
      cases hg
      refine ⟨l, layout, ?_, by omega, by omega⟩
      rw [place]
      exact Nat.dvd_add (Nat.dvd_trans (ht.align_dvd layout) (by decide)) aligned
    · obtain ⟨l', hl', haligned, hbase, hstop⟩ := ih hg
      exact ⟨l', hl', haligned, hbase, by omega⟩

theorem Lined.apart (ht : env.types.Widths) {stop} (h : Lined env stop globals) (hne : g ≠ g')
    (hg : globals.lookup g = some addr) (hg' : globals.lookup g' = some addr')
    (hl : env.types.layout (env.code.global g).ty = .ok l) (hl' : env.types.layout (env.code.global g').ty = .ok l') :
    addr.toNat + l.size ≤ addr'.toNat ∨ addr'.toNat + l'.size ≤ addr.toNat := by
  -- of two globals the one that has been placed later stands behind the other
  have hbefore {start : Nat} {rest : List (GlobalId × UInt64)} {h : GlobalId} {a b : UInt64}
      {k : Layout} (before : Lined env start rest) (hh : rest.lookup h = some b)
      (hk : env.types.layout (env.code.global h).ty = .ok k)
      (place : a.toNat = Memory.dataBase + start) : b.toNat + k.size ≤ a.toNat := by
    obtain ⟨k', hk', -, -, hstop⟩ := before.global ht hh
    rw [hk] at hk'
    cases hk'
    omega
  induction h with
  | nil => cases hg
  | @cons stop start g0 addr0 l0 rest layout aligned place fits new before ih =>
    cases hb : g == g0 with
    | true =>
      have hb' : (g' == g0) = false := beq_eq_false_iff_ne.mpr fun h => hne (h ▸ eq_of_beq hb)
      simp only [List.lookup_cons, hb, hb', Option.some.injEq] at hg hg'
      exact .inr (hbefore before hg' hl' (hg ▸ place))
    | false =>
      cases hb' : g' == g0 with
      | true =>
        simp only [List.lookup_cons, hb, hb', Option.some.injEq] at hg hg'
        exact .inl (hbefore before hg hl (hg' ▸ place))
      | false =>
        simp only [List.lookup_cons, hb, hb'] at hg hg'
        exact ih hg hg'

end MemoryMap

/-! ## Machines -/

namespace Machine

open Exec (Keeps Maps)

/-- The memory of a machine is in order. -/
structure Mapped (env : Setting) (m : Machine) : Prop where
  depth : m.frames.length ≤ env.limits.maxFrames
  top : m.top ≤ m.memory.stack.size
  stack : m.memory.stack.size ≤ env.limits.stackSize
  data : m.memory.data.size ≤ env.limits.maxDataSize
  /-- Frames are aligned and end within the stack in use. -/
  frame : ∀ f ∈ m.frames, Memory.stackBase ≤ f.base ∧ Memory.frameAlign ∣ f.base ∧
    f.base + f.func.frameSize ≤ Memory.stackBase + m.top
  /-- The frame of a call is above those of its callers. -/
  ascending : m.frames.Pairwise fun inner outer => outer.base + outer.func.frameSize ≤ inner.base
  /-- Variables are aligned and lie within their frame. -/
  slot : ∀ f ∈ m.frames, ∀ i, f.func.slots.Has i →
    ∃ l, env.types.layout (f.func.slot i).ty = .ok l ∧ l.align ∣ f.base + (f.func.slot i).offset ∧
      (f.func.slot i).offset + l.size ≤ f.func.frameSize
  /-- Two variables of a call have no byte in common. -/
  slots : ∀ f ∈ m.frames, ∀ i j l l', f.func.slots.Has i → f.func.slots.Has j → i ≠ j →
    env.types.layout (f.func.slot i).ty = .ok l → env.types.layout (f.func.slot j).ty = .ok l' →
    (f.func.slot i).offset + l.size ≤ (f.func.slot j).offset ∨
      (f.func.slot j).offset + l'.size ≤ (f.func.slot i).offset
  /-- Globals are aligned and lie within the data segment. -/
  global : ∀ g addr, m.globals.lookup g = some addr →
    ∃ l, env.types.layout (env.code.global g).ty = .ok l ∧ l.align ∣ addr.toNat ∧
      Memory.dataBase ≤ addr.toNat ∧ addr.toNat + l.size ≤ Memory.dataBase + m.memory.data.size
  /-- Two globals have no byte in common. -/
  globals : ∀ g g' addr addr' l l', g ≠ g' → m.globals.lookup g = some addr →
    m.globals.lookup g' = some addr' → env.types.layout (env.code.global g).ty = .ok l →
    env.types.layout (env.code.global g').ty = .ok l' →
    addr.toNat + l.size ≤ addr'.toNat ∨ addr'.toNat + l'.size ≤ addr.toNat
  /-- The stack ends before the data segment begins. -/
  separate : Memory.stackBase + m.memory.stack.size ≤ Memory.dataBase
  addressable : Memory.dataBase + m.memory.data.size < TypeTable.addressSpace

variable {env : Setting} {m m' : Machine}

theorem mapped_of_sound (ht : env.types.Widths)
    (hstack : env.limits.stackSize ≤ Memory.dataBase - Memory.stackBase) (h : m.map.Sound env) :
    m.Mapped env :=
  { h with
    depth := by simpa [map] using h.depth
    frame f hf := h.stacked.frame (List.mem_map_of_mem hf)
    ascending := List.pairwise_map.mp h.stacked.ascending
    slot f hf i hi := by
      obtain ⟨l, hl, haligned, hstop⟩ := (h.laid _ (List.mem_map_of_mem hf)).slot ht hi
      refine ⟨l, hl, Nat.dvd_add ?_ haligned, hstop⟩
      have hframe := (h.stacked.frame (List.mem_map_of_mem hf)).2.1
      exact Nat.dvd_trans (Nat.dvd_trans (ht.align_dvd hl) (by decide)) hframe
    slots f hf i j l l' hi hj hij hl hl' :=
      (h.laid _ (List.mem_map_of_mem hf)).apart hi hj hij hl hl'
    global g addr hg := h.lined.global ht hg
    globals g g' addr addr' l l' hne hg hg' hl hl' := h.lined.apart ht hne hg hg' hl hl'
    separate := by
      have : m.memory.stack.size ≤ env.limits.stackSize := h.stack
      simp only [Memory.stackBase, Memory.dataBase] at hstack ⊢
      omega }

/-! ## Runs -/

/-- What happens to a machine: a run begins, an instruction is executed, a run ends. What begins may
stop halfway. -/
inductive Move (env : Setting) (m : Machine) : Machine → Prop
  | start {func : Function} {args : List Value} (laid : func.LaidOut env.types) :
    Move env m (stateAfter (pushFrame env func args none func.span)
      { m with state := .running, frames := [], top := 0 })
  | step : Move env m (stateAfter (step env) m)
  | finish (o : Outcome) : Move env m (finish m o).2

abbrev Visits (env : Setting) : Machine → Machine → Prop := Relation.ReflTransGen (Move env)

theorem Move.changes (hcode : env.LaidOut) (h : Move env m m') :
    MemoryMap.Changes env (·.LaidOut env.types) m.map m'.map := by
  cases h with
  | @start func args laid =>
    have hpushed : Maps env _ (pushFrame env func args none func.span) := pushFrame_maps laid
    exact .head .clear (hpushed { m with state := .running, frames := [], top := 0 })
  | step => exact (maps_laws hcode).step m
  | finish o => exact .single .clear

theorem Visits.changes (hcode : env.LaidOut) (h : Visits env m m') :
    MemoryMap.Changes env (·.LaidOut env.types) m.map m'.map := by
  induction h with
  | refl => exact .refl
  | tail _ hm ih => exact ih.trans (hm.changes hcode)

theorem loop_visits (fuel) (m) : Visits env m (stateAfter (loop env fuel) m) := by
  induction fuel generalizing m with
  | zero => exact .refl
  | succ fuel ih =>
    refine stateAfter_bind (R := Visits env) .trans (.single .step) fun r m' => ?_
    cases r with
    | none => exact ih m'
    | some v => exact .refl

theorem idle : Exec.Rules fun x => ∀ m, stateAfter x m = m where
  pure _ := rfl
  bind hx hk m := stateAfter_bind (R := fun m m' : Machine => m' = m) (fun h h' => h'.trans h) (hx m) hk
  trap _ _ := rfl
  frame _ := rfl

theorem callable_state (f span m) : stateAfter (callable env f span) m = m := by
  rcases callable_cases env f span with ⟨h, -⟩ | ⟨stop, h, -⟩ <;> rw [h] <;> rfl

theorem callable_eq_ok {f span func} {m m' : Machine} (h : callable env f span m = .ok func m') :
    m' = m ∧ func = env.code.function f ∧ (func.native = none → func.state = .analyzed) := by
  rcases callable_cases env f span with ⟨hc, hstate⟩ | ⟨stop, hc, -⟩ <;> rw [hc] at h <;> cases h
  exact ⟨rfl, rfl, hstate⟩

theorem conclude_state (m x) : ∃ o, (conclude m x).2 = (finish (stateAfter x m) o).2 := by
  unfold conclude stateAfter EStateM.run
  cases x m with
  | ok v m' => exact ⟨_, rfl⟩
  | error stop m' => cases stop <;> exact ⟨_, rfl⟩

theorem runFn_visits {func} (laid : func.native = none → func.LaidOut env.types) (args m) :
    Visits env m (runFn env func args m).2 := by
  let cleared : Machine := { m with state := .running, frames := [], top := 0 }
  obtain ⟨o, ho⟩ := conclude_state cleared (enter env func args)
  have hcleared : Visits env m (finish cleared o).2 := .single (.finish o)
  have hargs : stateAfter (checkArgs env func args) cleared = cleared := idle.checkArgs _
  rw [show runFn env func args m = conclude cleared (enter env func args) from rfl, ho, enter]
  cases hc : checkArgs env func args cleared with
  | error stop m' =>
    rw [stateAfter_error hc] at hargs
    rw [stateAfter_bind_error hc, hargs]
    exact hcleared
  | ok _ m' =>
    rw [stateAfter_ok hc] at hargs
    rw [stateAfter_bind_ok hc, hargs]
    cases hn : func.native with
    | some name =>
      dsimp only
      rw [idle.callHost]
      exact hcleared
    | none =>
      have hstart : Move env m (stateAfter (pushFrame env func args none func.span) cleared) :=
        .start (laid hn)
      dsimp only
      cases hp : pushFrame env func args none func.span cleared with
      | error stop m1 =>
        rw [stateAfter_error hp] at hstart
        rw [stateAfter_bind_error hp]
        exact (Relation.ReflTransGen.single hstart).tail (.finish o)
      | ok _ m1 =>
        rw [stateAfter_ok hp] at hstart
        rw [stateAfter_bind_ok hp]
        exact (Relation.ReflTransGen.head hstart (loop_visits _ m1)).tail (.finish o)

private theorem run_visits (hcode : env.LaidOut) (f args m) : Visits env m (run env f args m).2 := by
  unfold run
  cases hc : (callable env f (env.code.function f).span).run m with
  | ok func m' =>
    obtain ⟨rfl, rfl, hstate⟩ := callable_eq_ok hc
    exact runFn_visits (fun hn => hcode f hn (hstate hn)) args m'
  | error stop m' =>
    obtain rfl : m' = m := (stateAfter_error hc).symm.trans (callable_state f _ m)
    cases stop <;> exact .single (.finish _)

/-- **The memory map.** However a machine has been used, its frames, the variables in them and its
globals have bytes of their own where they should be, and its globals stay where they are. Runs of
functions lead from such a state to another. -/
theorem memory_mapped {env : Setting} (stackSize : env.limits.stackSize ≤ 0x10000000000 - 0x1000)
    (widths : env.types.Widths) (laidOut : env.LaidOut) {m : Machine} (visited : Visits env .fresh m) :
    m.Mapped env ∧
      (∀ m', Visits env m m' → ∀ g addr, m.globals.lookup g = some addr →
        m'.globals.lookup g = some addr) ∧
      (∀ f args, Visits env m (run env f args m).2) ∧
      ∀ func args, (func.native = none → func.LaidOut env.types) →
        Visits env m (runFn env func args m).2 := by
  have hfresh : (map fresh).Sound env :=
    ⟨Nat.zero_le _, fun e he => (by cases he), .nil, Nat.le_refl _, Nat.zero_le _, Nat.zero_le _,
      (by decide), .nil⟩
  have hsound := (visited.changes laidOut).sound widths hfresh
  refine ⟨mapped_of_sound widths stackSize hsound, ?_, fun f args => run_visits laidOut f args m, ?_⟩
  · exact fun m' h g addr hg => (h.changes laidOut).lookup hg
  · exact fun func args laid => runFn_visits laid args m

end Machine

namespace Factorial

private theorem widths : setting.types.Widths :=
  (TypeTable.Proper.initial.intern (k := .ptr .s64) trivial).widths

theorem function_laidOut : function.LaidOut setting.types := by
  have hlayout : setting.types.layout .s64 = .ok ⟨8, 8⟩ := by decide +kernel
  have hplace : Function.placeSlots setting.types 0 1 function.slots.toList =
      (function.slots.toList, .ok (8, 8)) := by
    show Function.placeSlots setting.types 0 1 [⟨"n", .s64, 0, .dummy⟩] = _
    rw [Function.placeSlots, hlayout]
    rfl
  refine ⟨function, ?_⟩
  rw [Function.layoutFrame, hplace]
  rfl

private theorem laidOut : setting.LaidOut := by
  intro f hn hstate
  by_cases hf : setting.code.fns.Has f
  · obtain ⟨_ | n⟩ := f
    · exact function_laidOut
    · exact absurd hf (by simp [Pool.Has, Pool.size, setting])
  · rw [Code.function, Pool.getD_of_not_has hf] at hstate
    cases hstate

/-- The machine after a number of instructions of the factorial of five. -/
def after : Nat → Machine
  | 0 => stateAfter (Machine.pushFrame setting function [.int 5] none function.span)
    { Machine.fresh with state := .running, frames := [], top := 0 }
  | n + 1 => stateAfter (Machine.step setting) (after n)

private theorem visits_after (n) : Machine.Visits setting .fresh (after n) := by
  induction n with
  | zero => exact .single (.start function_laidOut)
  | succ n ih => exact ih.tail .step

end Factorial

/-- While the third of the nested calls is going on. -/
theorem Machine.memory_mapped_factorial : (Factorial.after 20).frames.length = 3 ∧
    (Factorial.after 20).Mapped Factorial.setting ∧
    (∀ m', Visits Factorial.setting (Factorial.after 20) m' → ∀ g addr,
      (Factorial.after 20).globals.lookup g = some addr → m'.globals.lookup g = some addr) ∧
    (∀ f args, Visits Factorial.setting (Factorial.after 20)
      (run Factorial.setting f args (Factorial.after 20)).2) ∧
    ∀ func args, (func.native = none → func.LaidOut Factorial.setting.types) →
      Visits Factorial.setting (Factorial.after 20)
        (runFn Factorial.setting func args (Factorial.after 20)).2 :=
  ⟨by decide +kernel, memory_mapped (by decide) Factorial.widths Factorial.laidOut
    (Factorial.visits_after 20)⟩

end Comptime
