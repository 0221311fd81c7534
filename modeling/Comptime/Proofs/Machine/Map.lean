import Comptime.Proofs.Code.Frame
import Comptime.Proofs.Machine.Parts
import Comptime.Proofs.State
import Mathlib.Logic.Relation

/-!
# The memory map of a machine

Where a machine has its frames and its globals, whatever the bytes are. `MemoryMap.Change` lists what
can happen to the map: a frame is opened on top of the others or given up, a global gets a place behind
the data. Everything that a machine does is a sequence of such changes, also where it stops halfway
through an instruction.
-/

namespace Comptime

/-- The bytes that a call has for its variables. -/
structure Extent where
  func : Function
  base : Nat
  savedTop : Nat

def Frame.extent (f : Frame) : Extent := ⟨f.func, f.base, f.savedTop⟩

/-- Where the frames and the globals of a machine are. -/
structure MemoryMap where
  /-- The calls in progress, the innermost first. -/
  frames : List Extent
  top : Nat
  /-- The size of the stack. -/
  stack : Nat
  /-- The size of the data segment. -/
  data : Nat
  globals : List (GlobalId × UInt64)

def Machine.map (m : Machine) : MemoryMap :=
  ⟨m.frames.map Frame.extent, m.top, m.memory.stack.size, m.memory.data.size, m.globals⟩

namespace MemoryMap

/-- One change of the memory map. The functions that are called are `Framed`. -/
inductive Change (env : Setting) (Framed : Function → Prop) (a : MemoryMap) : MemoryMap → Prop
  | clear : Change env Framed a { a with frames := [], top := 0 }
  /-- The stack has been extended for a frame that is not opened after all. -/
  | stack {stop : Nat} (fits : stop ≤ env.limits.stackSize) :
    Change env Framed a { a with stack := max a.stack stop }
  | push {func : Function} {start : Nat} (framed : Framed func)
    (room : a.frames.length < env.limits.maxFrames) (above : start = alignUp a.top Memory.frameAlign)
    (fits : start + func.frameSize ≤ env.limits.stackSize) :
    Change env Framed a { a with
      frames := ⟨func, Memory.stackBase + start, a.top⟩ :: a.frames
      top := start + func.frameSize
      stack := max a.stack (start + func.frameSize) }
  | pop {e : Extent} {rest : List Extent} (innermost : a.frames = e :: rest) :
    Change env Framed a { a with frames := rest, top := e.savedTop }
  | global {g : GlobalId} {l : Layout} {start : Nat} (new : a.globals.lookup g = none)
    (layout : env.types.layout (env.code.global g).ty = .ok l) (behind : start = alignUp a.data l.align)
    (fits : start + l.size ≤ env.limits.maxDataSize)
    (addressable : Memory.dataBase + (start + l.size) < TypeTable.addressSpace) :
    Change env Framed a { a with
      data := start + l.size
      globals := (g, UInt64.ofNat (Memory.dataBase + start)) :: a.globals }

abbrev Changes (env : Setting) (Framed : Function → Prop) : MemoryMap → MemoryMap → Prop :=
  Relation.ReflTransGen (Change env Framed)

end MemoryMap

/-! ## Sizes -/

namespace Memory

variable {m : Memory}

theorem size_extend (bytes) (size) : (extend bytes size).size = max bytes.size size := by
  simp only [extend, Array.size_append, Array.size_replicate]
  omega

private theorem size_clear (bytes) {start stop} (h : start ≤ bytes.size) :
    (clear bytes start stop).size = max bytes.size stop := by
  unfold clear
  generalize hn : stop - start = n
  induction n generalizing bytes start with
  | zero =>
    simp only [List.range'_zero, List.foldl_nil]
    omega
  | succ n ih =>
    rw [List.range'_succ, List.foldl_cons, ih _ _ (by omega)]
    · split
      · rw [Array.size_setIfInBounds]
      · rw [Array.size_push]
        omega
    · split
      · rw [Array.size_setIfInBounds]
        omega
      · rw [Array.size_push]
        omega

theorem stack_openFrame {start stop} (h : start ≤ stop) :
    (m.openFrame start stop).stack.size = max m.stack.size stop := by
  show (clear (extend m.stack start) start stop).size = _
  rw [size_clear _ (by rw [size_extend]; omega), size_extend]
  omega

theorem data_openFrame (start stop) : (m.openFrame start stop).data = m.data := rfl

theorem place_data {start n} (hroom : start + n ≤ m.data.size) (hspace : dataBase + start < TypeTable.addressSpace) :
    m.place (UInt64.ofNat (dataBase + start)) n = .ok (.data start) := by
  have haddr : (UInt64.ofNat (dataBase + start)).toNat = dataBase + start := by
    rw [UInt64.toNat_ofNat']
    exact Nat.mod_eq_of_lt hspace
  have hbases : stackBase < dataBase := by decide
  unfold place
  dsimp only
  rw [haddr, if_neg (by omega), if_pos (Nat.le_add_right ..), Nat.add_sub_cancel_left, if_pos hroom]

end Memory

/-! ## Steps that keep the map -/

namespace Exec

def Keeps {α : Type} (x : Exec α) : Prop := ∀ m, (stateAfter x m).map = m.map

/-- What happens to the map is a sequence of changes. -/
def Maps (env : Setting) (Framed : Function → Prop) {α : Type} (x : Exec α) : Prop :=
  ∀ m, MemoryMap.Changes env Framed m.map (stateAfter x m).map

variable {α β : Type} {env : Setting} {x : Exec α} {k : α → Exec β}

namespace Keeps

theorem maps {Framed} (h : Keeps x) : Maps env Framed x := fun m => h m ▸ .refl

theorem of_ok {m m'} {a : α} (h : Keeps x) (hx : x m = .ok a m') : m'.map = m.map := by
  rw [← h m, stateAfter_ok hx]

theorem of_error {m m' stop} (h : Keeps x) (hx : x m = .error stop m') : m'.map = m.map := by
  rw [← h m, stateAfter_error hx]

protected theorem pure {a : α} : Keeps (pure a : Exec α) := fun _ => rfl

protected theorem throw {stop} : Keeps (throw stop : Exec α) := fun _ => rfl

protected theorem bind (h : Keeps x) (hk : ∀ a, Keeps (k a)) : Keeps (x >>= k) := fun m =>
  stateAfter_bind (R := fun m m' : Machine => m'.map = m.map) (fun h h' => h'.trans h) (h m) fun a => hk a

protected theorem get : Keeps (get : Exec Machine) := fun _ => rfl

protected theorem modify {f : Machine → Machine} (h : ∀ m, (f m).map = m.map) : Keeps (modify f) := h

end Keeps

end Exec

/-- The functions that can be executed have got their frames. -/
def Setting.LaidOut (env : Setting) : Prop := ∀ f, (env.code.function f).native = none →
  (env.code.function f).state = .analyzed → (env.code.function f).LaidOut env.types

namespace Machine

open Exec (Keeps Maps)

variable {i base : InstrId} {ty : TypeId} {α : Type} {env : Setting} {span : Span} {Framed : Function → Prop}

theorem modifyFrame_keeps {g : Frame → Frame} (h : ∀ f, (g f).extent = f.extent) : Keeps (modifyFrame g) := by
  refine .modify fun m => ?_
  obtain ⟨memory, top, globals, frames, state⟩ := m
  cases frames with
  | nil => rfl
  | cons f rest => simp only [map, List.map_cons, h]

theorem keeping : Exec.Rules Keeps where
  pure := .pure
  bind := .bind
  trap _ := .throw
  frame _ := rfl

theorem setReg_keeps {v} : Keeps (setReg i v) := modifyFrame_keeps fun _ => rfl

theorem advance_keeps : Keeps advance := modifyFrame_keeps fun _ => rfl

theorem jump_keeps {target} : Keeps (jump target) := modifyFrame_keeps fun _ => rfl

theorem load_keeps {addr : UInt64} : Keeps (load env addr ty span) :=
  keeping.orNoLayout.bind fun _ => Keeps.get.bind fun _ => keeping.orTrap (Memory.unblaming_load ..)

theorem store_keeps {addr : UInt64} {v} : Keeps (store env addr ty v span) := by
  refine keeping.orNoLayout.bind fun _ => Keeps.get.bind fun _ => ?_
  refine (keeping.orTrap (Memory.unblaming_place ..)).bind fun _ => .modify fun m => ?_
  simp only [map, Memory.stack_put, Memory.data_put]

/-! ## Steps that change the map -/

theorem leave_maps {v} : Maps env Framed (leave v) := by
  intro m
  obtain ⟨memory, top, globals, frames, state⟩ := m
  match frames with
  | [] => exact .refl
  | [f] =>
    exact .single (@MemoryMap.Change.pop env Framed (map ⟨memory, top, globals, [f], state⟩) f.extent [] rfl)
  | f :: caller :: rest =>
    have hpop := @MemoryMap.Change.pop env Framed (map ⟨memory, top, globals, f :: caller :: rest, state⟩)
      f.extent ((caller :: rest).map Frame.extent) rfl
    have hmap : (stateAfter (leave v) ⟨memory, top, globals, f :: caller :: rest, state⟩).map =
        { map ⟨memory, top, globals, f :: caller :: rest, state⟩ with
          frames := (caller :: rest).map Frame.extent
          top := f.extent.savedTop } := by
      obtain ⟨func, block, pos, prev, regs, base, savedTop, result⟩ := f
      cases result <;> rfl
    rw [hmap]
    exact .single hpop

theorem globalAddress_maps {g} : Maps env Framed (globalAddress env g span) := by
  intro m
  rw [globalAddress, stateAfter_get]
  cases hg : m.globals.lookup g with
  | some addr => exact .refl
  | none =>
    dsimp only
    cases hl : env.types.layout (env.code.global g).ty with
    | error e => exact .refl
    | ok l =>
      obtain ⟨s, hs, rfl⟩ := map_eq_ok.mp hl
      rw [stateAfter_bind_ok (show orNoLayout span (.ok s.layout) m = .ok s.layout m from rfl), stateAfter_get]
      split
      · next hfits =>
        obtain ⟨haddressable, hsize⟩ := Bool.and_eq_true_iff.mp hfits
        have haddressable := of_decide_eq_true haddressable
        have hsize := of_decide_eq_true hsize
        have hle := le_alignUp m.memory.data.size s.layout.align
        generalize hstart : alignUp m.memory.data.size s.layout.align = start at haddressable hsize hle
        -- once the data segment is large enough, the global has a place in it
        let extended : Machine := m.withMemory (m.memory.extendData (start + s.size))
        have hdata : extended.memory.data.size = start + s.size :=
          (Memory.size_extend ..).trans (Nat.max_eq_right (Nat.le_add_right_of_le hle))
        have hplace : extended.memory.place (UInt64.ofNat (Memory.dataBase + start)) s.size = .ok (.data start) :=
          Memory.place_data (Nat.le_of_eq hdata.symm) (by omega)
        rw [stateAfter_bind_ok (show modifyMemory (·.extendData (start + s.layout.size)) m =
          .ok ⟨⟩ extended from rfl), stateAfter_bind_ok (store_eq hs hplace)]
        show MemoryMap.Changes env Framed m.map { m.map with
          data := (extended.memory.put s (env.code.global g).value (.data start)).data.size
          globals := (g, UInt64.ofNat (Memory.dataBase + start)) :: m.map.globals }
        rw [Memory.data_put, hdata]
        exact .single (.global hg hl hstart.symm hsize haddressable)
      · exact .refl

theorem pushFrame_maps {func args result} (framed : Framed func) :
    Maps env Framed (pushFrame env func args result span) := by
  intro m
  rw [pushFrame, stateAfter_get, stateAfter_get]
  split
  · exact .refl
  · next hroom =>
    dsimp only
    split
    · next hfits =>
      have hfits := of_decide_eq_true (Bool.and_eq_true_iff.mp hfits).2
      generalize hstart : alignUp m.top Memory.frameAlign = start at hfits
      let opened : Machine := { m with memory := m.memory.openFrame start (start + func.frameSize) }
      have hopened : opened.map = { m.map with stack := max m.map.stack (start + func.frameSize) } := by
        simp only [opened, map, Memory.stack_openFrame (Nat.le_add_right start func.frameSize), Memory.data_openFrame]
      rw [stateAfter_bind_ok (show modifyMemory (·.openFrame start (start + func.frameSize)) m =
        .ok ⟨⟩ opened from rfl)]
      have hargs : Keeps ((func.paramSlots.zip args).forM fun p =>
          store env (UInt64.ofNat (Memory.stackBase + start + (func.slot p.1).offset))
            (func.slot p.1).ty p.2 span) := keeping.forM (fun _ => store_keeps) _
      cases hstore : (func.paramSlots.zip args).forM (fun p =>
          store env (UInt64.ofNat (Memory.stackBase + start + (func.slot p.1).offset))
            (func.slot p.1).ty p.2 span) opened with
      | error stop m' =>
        rw [stateAfter_bind_error hstore, hargs.of_error hstore, hopened]
        exact .single (.stack hfits)
      | ok _ m' =>
        rw [stateAfter_bind_ok hstore]
        show MemoryMap.Changes env Framed m.map { m'.map with
          frames := ⟨func, Memory.stackBase + start, m.top⟩ :: m'.map.frames
          top := start + func.frameSize }
        rw [hargs.of_ok hstore, hopened]
        refine .single (.push framed ?_ hstart.symm hfits)
        simpa [map] using hroom
    · exact .refl

/-! ## Steps -/

theorem maps_laws (hcode : ∀ f, (env.code.function f).native = none → (env.code.function f).state = .analyzed →
    Framed (env.code.function f)) : Exec.Laws env (Maps env Framed) where
  pure _ := .refl
  bind hx hk m :=
    stateAfter_bind (R := fun m m' : Machine => MemoryMap.Changes env Framed m.map m'.map) .trans (hx m) hk
  trap _ _ := .refl
  frame _ := .refl
  invalid _ := .refl
  setReg := setReg_keeps.maps
  throw _ _ := .refl
  advance := advance_keeps.maps
  jump := jump_keeps.maps
  load := load_keeps.maps
  store := store_keeps.maps
  global := globalAddress_maps
  push native analyzed := pushFrame_maps (hcode _ native analyzed)
  leave := leave_maps

end Machine

end Comptime
