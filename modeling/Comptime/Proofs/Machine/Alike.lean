import Comptime.Proofs.Machine.Access
import Comptime.Proofs.Machine.Disjoint

/-!
# Machines that differ outside of frames

Two machines are alike if they differ in bytes of the stack only that lie outside of some frames
(`Machine.Alike`). A piece of a step that accesses the stack in these frames only gives the same on
both and leaves both alike (`Exec.Twin`); a new frame is cleared on both. So it is with a whole step
(`Machine.step_twin`).
-/

namespace Comptime

/-! ## Bytes -/

namespace Shape

variable {memory memory' : Array UInt8}

theorem getD_overlay_congr {offset j} {image} (hj : j < memory.size) (hj' : j < memory'.size)
    (h : memory.getD j 0 = memory'.getD j 0) :
    (overlay memory offset image).getD j 0 = (overlay memory' offset image).getD j 0 := by
  induction image generalizing memory memory' offset with
  | nil => exact h
  | cons b image ih =>
    cases b with
    | none => exact ih hj hj' h
    | some b =>
      apply ih
      · rw [Array.size_setIfInBounds]
        exact hj
      · rw [Array.size_setIfInBounds]
        exact hj'
      · by_cases hoffset : offset = j
        · subst hoffset
          simp [Array.getD_eq_getD_getElem?, hj, hj']
        · simpa [Array.getD_eq_getD_getElem?, hoffset] using h

end Shape

namespace Memory

theorem getD_extend (bytes) (size j) : (extend bytes size).getD j 0 = bytes.getD j 0 := by
  unfold extend
  by_cases hj : j < bytes.size
  · simp [Array.getD_eq_getD_getElem?, Array.getElem?_append_left hj]
  · rw [Array.getD_eq_getD_getElem?, Array.getD_eq_getD_getElem?,
      Array.getElem?_append_right (by omega), Array.getElem?_eq_none (by omega : bytes.size ≤ j),
      Array.getElem?_replicate]
    split <;> rfl

private theorem getD_clear (bytes) {start stop} (h : start ≤ bytes.size) (j) :
    (clear bytes start stop).getD j 0 = if start ≤ j ∧ j < stop then 0 else bytes.getD j 0 := by
  unfold clear
  generalize hn : stop - start = n
  induction n generalizing bytes start with
  | zero =>
    rw [List.range'_zero, List.foldl_nil, if_neg (by omega)]
  | succ n ih =>
    rw [List.range'_succ, List.foldl_cons]
    split
    · next hlt =>
      rw [ih _ (by rw [Array.size_setIfInBounds]; omega) (by omega)]
      by_cases hj : start = j
      · subst hj
        rw [if_neg (by omega), if_pos (by omega)]
        simp [Array.getD_eq_getD_getElem?, hlt]
      · have hsame : (bytes.setIfInBounds start 0).getD j 0 = bytes.getD j 0 := by
          simp [Array.getD_eq_getD_getElem?, hj]
        rw [hsame]
        exact if_congr (by omega) rfl rfl
    · next hge =>
      rw [ih _ (by rw [Array.size_push]; omega) (by omega)]
      have hsame : (bytes.push 0).getD j 0 = bytes.getD j 0 := by
        rw [Array.getD_eq_getD_getElem?, Array.getD_eq_getD_getElem?, Array.getElem?_push]
        split
        · next hj => rw [Array.getElem?_eq_none (by omega)]; rfl
        · rfl
      rw [hsame]
      by_cases hj : start = j
      · subst hj
        rw [if_neg (by omega), if_pos (by omega), Array.getD_eq_getD_getElem?, Array.getElem?_eq_none (by omega)]
        rfl
      · exact if_congr (by omega) rfl rfl

theorem getD_openFrame (m : Memory) {start stop} (j) :
    (m.openFrame start stop).stack.getD j 0 = if start ≤ j ∧ j < stop then 0 else m.stack.getD j 0 := by
  show (clear (extend m.stack start) start stop).getD j 0 = _
  rw [getD_clear _ (by rw [size_extend]; omega), getD_extend]

end Memory

/-! ## Two machines -/

/-- What two pieces of a step give is the same, and the machines after them are related. -/
inductive Exec.Twin {α : Type} (R : Machine → Machine → Prop) :
    EStateM.Result Stop Machine α → EStateM.Result Stop Machine α → Prop
  | ok {a : α} {m u : Machine} (related : R m u) : Twin R (.ok a m) (.ok a u)
  | error {stop : Stop} {m u : Machine} : Twin R (.error stop m) (.error stop u)

namespace Exec.Twin

variable {α β : Type} {R S : Machine → Machine → Prop} {x : Exec α} {k : α → Exec β} {m u : Machine}

theorem bind (h : Twin R (x m) (x u)) (hk : ∀ a m' u', x m = .ok a m' → R m' u' → Twin S (k a m') (k a u')) :
    Twin S ((x >>= k) m) ((x >>= k) u) := by
  simp only [Bind.bind, EStateM.bind]
  generalize hm : x m = r, x u = r' at h
  cases h with
  | ok related => exact hk _ _ _ hm related
  | error => exact .error

theorem imp (h : Twin R (x m) (x u)) (himp : ∀ a m' u', x m = .ok a m' → R m' u' → S m' u') : Twin S (x m) (x u) := by
  generalize hm : x m = r, x u = r' at h
  cases h with
  | ok related => exact .ok (himp _ _ _ hm related)
  | error => exact .error

theorem get {k : Machine → Exec β} (h : Twin R (k m m) (k u u)) :
    Twin R ((MonadState.get >>= k : Exec β) m) ((MonadState.get >>= k : Exec β) u) := h

theorem forM {f : α → Exec PUnit} {l : List α} (hm : R m u)
    (h : ∀ a ∈ l, ∀ m u, R m u → Twin R (f a m) (f a u)) : Twin R (l.forM f m) (l.forM f u) := by
  induction l generalizing m u with
  | nil => exact .ok hm
  | cons a l ih =>
    refine (h a (.head l) m u hm).bind fun _ m' u' _ hm' => ?_
    exact ih hm' fun b hb => h b (.tail a hb)

end Exec.Twin

/-- The stack is large enough for the frame. -/
def Memory.HasFrame (m : Memory) (e : Extent) : Prop :=
  stackBase ≤ e.base ∧ e.base + e.func.frameSize ≤ stackBase + m.stack.size

theorem Memory.HasFrame.put {m : Memory} {e} (h : m.HasFrame e) (s v p) : (m.put s v p).HasFrame e := by
  unfold HasFrame
  rw [stack_put]
  exact h

/-- The range of addresses lies outside of the stack or within one of the frames. -/
def Covered (opened : List Extent) (a n : Nat) : Prop :=
  a < Memory.stackBase ∨ Memory.dataBase ≤ a ∨
    ∃ e ∈ opened, e.base ≤ a ∧ a + n ≤ e.base + e.func.frameSize

instance (opened : List Extent) (a n : Nat) : Decidable (Covered opened a n) :=
  inferInstanceAs (Decidable (a < Memory.stackBase ∨ Memory.dataBase ≤ a ∨
    ∃ e ∈ opened, e.base ≤ a ∧ a + n ≤ e.base + e.func.frameSize))

/-- The bytes of a value of a type at the address that a value is. -/
def Setting.range (env : Setting) (ty : TypeId) : Value → List (UInt64 × Nat)
  | .ptr addr =>
    match env.types.shape ty with
    | .ok s => [(addr, s.size)]
    | .error _ => []
  | _ => []

/-- Where an instruction that is executed with some register contents reads or writes, and how many
bytes. -/
def Function.accesses (env : Setting) (func : Function) (reg : InstrId → Value) (i : InstrId) :
    List (UInt64 × Nat) :=
  match (func.instr i).kind with
  | .load p => env.range (func.typeOf i) (reg p)
  | .store p v => env.range (func.typeOf v) (reg p)
  | .elemPtr base _ .slice =>
    match reg base with
    -- the length of the slice and the address of its elements
    | .ptr slice => env.range .u64 (.ptr slice) ++ env.range .u64 (.ptr (slice + 8))
    | _ => []
  | _ => []

/-- The function that an instruction calls which is executed with some register contents. -/
def Function.target? (func : Function) (reg : InstrId → Value) (i : InstrId) : Option FnId :=
  match (func.instr i).kind with
  | .call (.direct f) _ => some f
  | .call (.indirect v) _ =>
    match reg v with
    | .fn f => some f
    | _ => none
  | _ => none

/-- The parameters have room in the frame of the function. -/
def Function.TakesInside (t : TypeTable) (func : Function) : Prop :=
  ∀ i ∈ func.paramSlots, ∀ s ∈ (t.shape (func.slot i).ty).toOption,
    (func.slot i).offset + s.size ≤ func.frameSize

instance (t : TypeTable) (func : Function) : Decidable (func.TakesInside t) :=
  inferInstanceAs (Decidable (∀ i ∈ func.paramSlots, ∀ s ∈ (t.shape (func.slot i).ty).toOption,
    (func.slot i).offset + s.size ≤ func.frameSize))

namespace Machine

open Exec (Twin)

variable {i base : InstrId} {v : Value} {func : Function} {addr : UInt64} {ty : TypeId} {m' : Machine}

def innermost (m : Machine) : Frame := m.frames.headD default

/-- Two machines that are the same but for the bytes of the stack outside of some frames, to which the
frames of the calls in progress belong. -/
structure Alike (opened : List Extent) (m u : Machine) : Prop where
  top : u.top = m.top
  globals : u.globals = m.globals
  frames : u.frames = m.frames
  data : u.memory.data = m.memory.data
  live : ∀ e ∈ m.map.frames, e ∈ opened
  here : ∀ e ∈ opened, m.memory.HasFrame e
  there : ∀ e ∈ opened, u.memory.HasFrame e
  bytes : ∀ e ∈ opened, Shape.Agree m.memory.stack u.memory.stack (e.base - Memory.stackBase)
    e.func.frameSize

variable {env : Setting} {opened opened' : List Extent} {m u : Machine} {span : Span} {α β : Type}

theorem Alike.of_subset (h : Alike opened m u) (hsub : ∀ e ∈ opened', e ∈ opened)
    (hlive : ∀ e ∈ m.map.frames, e ∈ opened') : Alike opened' m u :=
  { h with
    live := hlive
    here := fun e he => h.here e (hsub e he)
    there := fun e he => h.there e (hsub e he)
    bytes := fun e he => h.bytes e (hsub e he) }

def Blind (x : Exec α) : Prop :=
  ∀ opened m u, Alike opened m u → Twin (Alike opened) (x m) (x u)

namespace Blind

variable {x : Exec α} {k : α → Exec β}

protected theorem pure {a : α} : Blind (pure a) := fun _ _ _ h => .ok h

protected theorem throw {stop} : Blind (throw stop : Exec α) := fun _ _ _ _ => .error

protected theorem bind (h : Blind x) (hk : ∀ a, Blind (k a)) : Blind (x >>= k) := by
  intro opened m u hm
  exact (h _ _ _ hm).bind fun a _ _ _ hm' => hk a _ _ _ hm'

theorem within (h : Blind x) (opened m u) (hm : Alike opened m u) :
    Twin (fun m u => Alike (m.map.frames ++ opened) m u) (x m) (x u) := by
  refine (h opened m u hm).imp fun _ m' u' _ h' => ?_
  apply h'.of_subset
  · intro e he
    exact (List.mem_append.mp he).elim (h'.live e) id
  · exact fun e he => List.mem_append_left opened he

end Blind

theorem trap_blind {kind} : Blind (trap kind span : Exec α) := .throw

theorem frame_blind : Blind frame := by
  intro opened m u h
  show Twin _ (.ok (m.frames.headD default) m) (.ok (u.frames.headD default) u)
  rw [h.frames]
  exact .ok h

theorem modifyFrame_blind {g : Frame → Frame} (hg : ∀ f, (g f).extent = f.extent) : Blind (modifyFrame g) := by
  intro opened m u h
  obtain ⟨memory, top, globals, frames, state⟩ := m
  obtain ⟨memory', top', globals', frames', state'⟩ := u
  obtain rfl : frames' = frames := h.frames
  cases frames' with
  | nil => exact .ok h
  | cons f rest =>
    apply Twin.ok
    refine { h with live := ?_, frames := rfl }
    intro e he
    apply h.live
    simpa only [map, List.map_cons, hg] using he

theorem blind : Exec.Rules Blind where
  pure := .pure
  bind := .bind
  trap _ := trap_blind
  frame := frame_blind

theorem setReg_blind : Blind (setReg i v) := modifyFrame_blind fun _ => rfl

theorem advance_blind : Blind advance := modifyFrame_blind fun _ => rfl

theorem jump_blind {target} : Blind (jump target) := modifyFrame_blind fun _ => rfl

theorem callable_blind {f} : Blind (callable env f span) := by
  rcases callable_cases env f span with ⟨h, -⟩ | ⟨stop, h, -⟩ <;> rw [h]
  · exact .pure
  · exact .throw

theorem leave_blind : Blind (leave v) := by
  intro opened m u h
  obtain ⟨memory, top, globals, frames, state⟩ := m
  obtain ⟨memory', top', globals', frames', state'⟩ := u
  obtain rfl : frames' = frames := h.frames
  obtain rfl : top' = top := h.top
  match frames' with
  | [] => exact .ok { h with frames := rfl, top := rfl, live := fun e he => nomatch he }
  | [f] => exact .ok { h with frames := rfl, top := rfl, live := fun e he => nomatch he }
  | f :: caller :: rest =>
    have hlive : ∀ e ∈ (caller :: rest).map Frame.extent, e ∈ opened := fun e he =>
      h.live e (List.mem_cons_of_mem _ he)
    obtain ⟨func, block, pos, prev, regs, base, savedTop, result⟩ := f
    cases result with
    | none => exact .ok { h with frames := rfl, top := rfl, live := hlive }
    | some i => exact .ok { h with frames := rfl, top := rfl, live := hlive }

/-! ## Memory -/

namespace Alike

variable {addr : UInt64} {n : Nat} {s : Shape}

theorem place_eq (h : Alike opened m u) (hc : Covered opened addr.toNat n) :
    u.memory.place addr n = m.memory.place addr n := by
  unfold Memory.place
  dsimp only
  by_cases hnull : addr.toNat < Memory.stackBase
  · rw [if_pos hnull, if_pos hnull]
  · rw [if_neg hnull, if_neg hnull]
    by_cases hdata : Memory.dataBase ≤ addr.toNat
    · rw [if_pos hdata, if_pos hdata, h.data]
    · obtain ⟨e, he, hlow, hhigh⟩ := (hc.resolve_left hnull).resolve_left hdata
      have hroom := (h.here e he).2
      have hroom' := (h.there e he).2
      rw [if_neg hdata, if_neg hdata, if_pos (by omega), if_pos (by omega)]

private theorem load_eq (h : Alike opened m u) (hc : Covered opened addr.toNat s.size) :
    u.memory.load addr s = m.memory.load addr s := by
  have hplace := h.place_eq hc
  cases hp : m.memory.place addr s.size with
  | error e => rw [Memory.load, Memory.load, hplace, hp]
  | ok p =>
    rw [Memory.load_eq hp, Memory.load_eq (hplace.trans hp)]
    apply congrArg Except.ok
    obtain ⟨hnull, -, ⟨-, rfl⟩ | ⟨hlow, rfl⟩⟩ := Memory.place_eq_ok hp
    · rw [Memory.segment_data, Memory.segment_data, h.data]
    · obtain ⟨e, he, hstart, hstop⟩ :=
        (hc.resolve_left (Nat.not_lt.mpr hnull)).resolve_left (Nat.not_le.mpr hlow)
      have hbase := (h.here e he).1
      apply Shape.read_congr
      intro j hj hj'
      rw [Memory.Place.offset_stack] at hj hj'
      exact (h.bytes e he j (by omega) (by omega)).symm

private theorem put (h : Alike opened m u) (s : Shape) (v : Value) (p : Memory.Place) :
    Alike opened (m.withMemory (m.memory.put s v p)) (u.withMemory (u.memory.put s v p)) :=
  { h with
    data := by
      cases p with
      | stack offset => exact h.data
      | data offset => exact congrArg (Shape.overlay · offset (s.image v)) h.data
    here e he := (h.here e he).put s v p
    there e he := (h.there e he).put s v p
    bytes e he j hlow hhigh := by
      have hbyte := h.bytes e he j hlow hhigh
      obtain ⟨hbase, hroom⟩ := h.here e he
      obtain ⟨-, hroom'⟩ := h.there e he
      have hj : j < m.memory.stack.size := by omega
      have hj' : j < u.memory.stack.size := by omega
      cases p with
      | stack offset => exact Shape.getD_overlay_congr hj hj' hbyte
      | data offset => exact hbyte }

private theorem openFrame (h : Alike opened m u) {e : Extent} {start : Nat}
    (hbase : e.base = Memory.stackBase + start) :
    Alike (e :: opened) (m.withMemory (m.memory.openFrame start (start + e.func.frameSize)))
      (u.withMemory (u.memory.openFrame start (start + e.func.frameSize))) := by
  have hle : start ≤ start + e.func.frameSize := Nat.le_add_right ..
  have hsize {m : Machine} : m.memory.stack.size ≤ (m.memory.openFrame start (start + e.func.frameSize)).stack.size ∧
      start + e.func.frameSize ≤ (m.memory.openFrame start (start + e.func.frameSize)).stack.size := by
    rw [Memory.stack_openFrame hle]
    omega
  have hframe {m : Machine} (hm : ∀ e ∈ opened, m.memory.HasFrame e) : ∀ e' ∈ e :: opened,
      (m.memory.openFrame start (start + e.func.frameSize)).HasFrame e' := by
    have := @hsize m
    rintro e' (_ | ⟨_, he'⟩)
    · exact ⟨by omega, by omega⟩
    · obtain ⟨hlow, hhigh⟩ := hm e' he'
      exact ⟨hlow, by omega⟩
  refine ⟨h.top, h.globals, h.frames, h.data, fun e' he' => .tail _ (h.live e' he'), hframe h.here,
    hframe h.there, ?_⟩
  intro e' he' j hlow hhigh
  show (m.memory.openFrame _ _).stack.getD j 0 = (u.memory.openFrame _ _).stack.getD j 0
  rw [Memory.getD_openFrame, Memory.getD_openFrame]
  split
  · rfl
  · next houtside =>
    cases he' with
    | head => exact absurd ⟨by omega, by omega⟩ houtside
    | tail _ he' => exact h.bytes e' he' j hlow hhigh

theorem push {f} (h : Alike (f.extent :: opened) m u) (top : Nat) :
    Alike (f.extent :: (m.map.frames ++ opened)) { m with frames := f :: m.frames, top := top }
      { u with frames := f :: u.frames, top := top } := by
  have hsub : ∀ e ∈ f.extent :: (m.map.frames ++ opened), e ∈ f.extent :: opened := by
    rintro e (_ | ⟨_, he⟩)
    · exact .head _
    · exact (List.mem_append.mp he).elim (h.live e) (.tail _)
  have hpushed : Alike (f.extent :: opened) { m with frames := f :: m.frames, top := top }
      { u with frames := f :: u.frames, top := top } := by
    refine { h with top := rfl, frames := congrArg (f :: ·) h.frames, live := ?_ }
    rintro e (_ | ⟨_, he⟩)
    · exact .head _
    · exact h.live e he
  exact hpushed.of_subset hsub fun e he => List.mem_append_left opened he

end Alike

theorem load_twin (h : Alike opened m u) (hc : ∀ s, env.types.shape ty = .ok s → Covered opened addr.toNat s.size) :
    Twin (Alike opened) (load env addr ty span m) (load env addr ty span u) := by
  cases hs : env.types.shape ty with
  | error e =>
    unfold load
    rw [hs]
    exact .error
  | ok s =>
    rw [load_eq_orTrap hs, load_eq_orTrap hs, h.load_eq (hc s hs)]
    exact blind.orTrap (Memory.unblaming_load ..) _ _ _ h

theorem store_twin (h : Alike opened m u) (hc : ∀ s, env.types.shape ty = .ok s → Covered opened addr.toNat s.size) :
    Twin (Alike opened) (store env addr ty v span m) (store env addr ty v span u) := by
  cases hs : env.types.shape ty with
  | error e =>
    unfold store
    rw [hs]
    exact .error
  | ok s =>
    have hplace := h.place_eq (hc s hs)
    cases hp : m.memory.place addr s.size with
    | error kind =>
      rw [store_error hs hp, store_error hs (hplace.trans hp)]
      exact .error
    | ok p =>
      rw [store_eq hs hp, store_eq hs (hplace.trans hp)]
      exact .ok (h.put s v p)

theorem globalAddress_twin (h : Alike opened m u) {g} :
    Twin (Alike opened) (globalAddress env g span m) (globalAddress env g span u) := by
  apply Twin.get
  rw [h.globals]
  cases m.globals.lookup g with
  | some addr => exact .ok h
  | none =>
    refine (blind.orNoLayout _ _ _ h).bind fun l m u _ h => ?_
    apply Twin.get
    rw [h.data]
    split
    · next hfits =>
      have hfits := of_decide_eq_true (Bool.and_eq_true_iff.mp hfits).1
      generalize alignUp m.memory.data.size l.align = start at hfits
      have haddr : (UInt64.ofNat (Memory.dataBase + start)).toNat = Memory.dataBase + start := by
        rw [UInt64.toNat_ofNat']
        exact Nat.mod_eq_of_lt (by simp only [TypeTable.addressSpace] at hfits; omega)
      have hextended : Alike opened (m.withMemory (m.memory.extendData (start + l.size)))
          (u.withMemory (u.memory.extendData (start + l.size))) :=
        { h with data := congrArg (Memory.extend · (start + l.size)) h.data }
      refine Twin.bind (.ok hextended) fun _ m u _ h => ?_
      refine (store_twin h fun s _ => .inr (.inl ?_)).bind fun _ m u _ h => ?_
      · rw [haddr]
        exact Nat.le_add_right ..
      · exact .ok { h with globals := congrArg ((g, UInt64.ofNat (Memory.dataBase + start)) :: ·) h.globals }
    · exact .error

private theorem covered_argument {start savedTop offset n} (hinside : offset + n ≤ func.frameSize)
    (hstop : start + func.frameSize < TypeTable.addressSpace) :
    Covered (⟨func, Memory.stackBase + start, savedTop⟩ :: opened)
      (UInt64.ofNat (Memory.stackBase + start + offset)).toNat n := by
  rw [UInt64.toNat_ofNat']
  simp only [TypeTable.addressSpace] at hstop
  by_cases hwraps : Memory.stackBase + start + offset < 2 ^ 64
  · rw [Nat.mod_eq_of_lt hwraps]
    exact .inr (.inr ⟨_, .head _, by dsimp only; omega, by dsimp only; omega⟩)
  · rw [Nat.mod_eq_sub_mod (by omega), Nat.mod_eq_of_lt (by simp only [Memory.stackBase] at *; omega)]
    exact .inl (by omega)

theorem pushFrame_twin (h : Alike opened m u) {args result} (hargs : func.TakesInside env.types) :
    Twin (fun m u => Alike (m.map.frames ++ opened) m u) (pushFrame env func args result span m)
      (pushFrame env func args result span u) := by
  apply Twin.get
  rw [h.top]
  apply Twin.get
  rw [h.frames]
  split
  · exact .error
  · dsimp only
    split
    · next hfits =>
      have hfits := of_decide_eq_true (Bool.and_eq_true_iff.mp hfits).1
      generalize alignUp m.top Memory.frameAlign = start at hfits
      generalize hsaved : m.top = savedTop
      let e : Extent := ⟨func, Memory.stackBase + start, savedTop⟩
      have hopened := @Alike.openFrame opened m u h e start rfl
      refine Twin.bind (.ok hopened) fun _ m u _ h => ?_
      have hstores : ∀ p ∈ func.paramSlots.zip args, ∀ m u, Alike (e :: opened) m u → Twin (Alike (e :: opened))
            (store env (UInt64.ofNat (Memory.stackBase + start + (func.slot p.1).offset))
              (func.slot p.1).ty p.2 span m)
            (store env (UInt64.ofNat (Memory.stackBase + start + (func.slot p.1).offset))
              (func.slot p.1).ty p.2 span u) := by
        intro p hp m u h
        apply store_twin h
        intro s hs
        have hshape : s ∈ (env.types.shape (func.slot p.1).ty).toOption := by rw [hs]; rfl
        exact covered_argument (hargs p.1 (List.of_mem_zip hp).1 s hshape) hfits
      refine (Twin.forM h hstores).bind fun _ m u _ h => ?_
      exact .ok (@Alike.push opened m u ⟨func, Function.entry, 0, none,
        Array.replicate func.instrs.size .void, Memory.stackBase + start, savedTop, result⟩ h _)
    · exact .error

/-! ## Instructions -/

theorem reg_eq_ok (h : reg i m = .ok v m') : m' = m ∧ m.innermost.reg i = v := by
  cases h
  exact ⟨rfl, rfl⟩

theorem address_eq_ok (h : address i span m = .ok addr m') : m' = m ∧ m.innermost.reg i = .ptr addr := by
  have hreg : reg i m = .ok (m.innermost.reg i) m := rfl
  unfold address at h
  rw [bind_of_ok hreg] at h
  cases hv : m.innermost.reg i
  case ptr a =>
    rw [hv] at h
    cases h
    exact ⟨rfl, rfl⟩
  all_goals
    rw [hv] at h
    cases h

theorem indexValue_eq_ok {n} (h : indexValue i span m = .ok n m') : m' = m := by
  have hreg : reg i m = .ok (m.innermost.reg i) m := rfl
  unfold indexValue at h
  rw [bind_of_ok hreg] at h
  cases hv : (m.innermost.reg i).asSigned with
  | none =>
    rw [hv] at h
    cases h
  | some n =>
    rw [hv] at h
    cases h
    rfl

/-- What is read of a slice is covered. -/
def SliceCovered (env : Setting) (opened : List Extent) (m : Machine) (base : InstrId)
    (bound : Bound) : Prop :=
  ∀ addr s, bound = .slice → m.innermost.reg base = .ptr addr → env.types.shape .u64 = .ok s →
    Covered opened addr.toNat s.size ∧ Covered opened (addr + 8).toNat s.size

private theorem elements_twin (h : Alike opened m u) {bound} (hc : SliceCovered env opened m base bound) :
    Twin (Alike opened) (elements env base bound span m) (elements env base bound span u) := by
  cases bound with
  | array len => exact (blind.address.bind fun _ => .pure) _ _ _ h
  | unchecked => exact (blind.address.bind fun _ => .pure) _ _ _ h
  | slice =>
    refine (blind.address _ _ _ h).bind fun addr m' u' haddr h' => ?_
    obtain ⟨rfl, hptr⟩ := address_eq_ok haddr
    refine (load_twin h' fun s hs => (hc addr s rfl hptr hs).1).bind fun _ _ _ _ h' => ?_
    refine (load_twin h' fun s hs => (hc addr s rfl hptr hs).2).bind fun _ _ _ _ h' => ?_
    exact .ok h'

theorem elemAddress_twin (h : Alike opened m u) {index bound} (hc : SliceCovered env opened m base bound) :
    Twin (Alike opened) (elemAddress env ty base index bound span m) (elemAddress env ty base index bound span u) := by
  unfold elemAddress
  cases env.types.pointee ty with
  | none => exact .error
  | some elem =>
    dsimp only
    cases env.types.elemStride elem with
    | error e => exact .error
    | ok stride =>
      refine Twin.bind (x := indexValue index span) (blind.indexValue _ _ _ h) fun i m' u' hi h' => ?_
      obtain rfl := indexValue_eq_ok hi
      refine (elements_twin h' hc).bind fun p _ _ _ h' => ?_
      obtain ⟨start, len⟩ := p
      have hblind : Blind (behind start (i.toUInt64 * UInt64.ofNat stride) span) := blind.behind
      cases len with
      | none => exact hblind _ _ _ h'
      | some len =>
        exact blind.ite (trap_blind.bind fun _ => hblind) hblind _ _ _ h'

theorem blind_local : Exec.Local Blind where
  toRules := blind
  invalid := .throw
  setReg := setReg_blind
  jump := jump_blind
  leave := leave_blind

private theorem callFunction_twin (h : Alike opened m u) {id target} {args : List InstrId}
    (hc : (env.code.function target).native = none → (env.code.function target).state = .analyzed →
      (env.code.function target).TakesInside env.types) :
    Twin (fun m u => Alike (m.map.frames ++ opened) m u) (call env id (.direct target) args span m)
      (call env id (.direct target) args span u) := by
  refine (callable_blind _ _ _ h).bind fun func m' u' hcall h' => ?_
  obtain ⟨rfl, rfl, hstate⟩ := callable_eq_ok hcall
  refine (blind.mapM (fun _ => blind.reg) args _ _ _ h').bind fun args m' u' _ h' => ?_
  cases hn : (env.code.function target).native with
  | some name => exact (blind.callHost.bind fun _ => setReg_blind).within _ _ _ h'
  | none => exact pushFrame_twin h' (hc hn (hstate hn))

theorem call_twin (h : Alike opened m u) {id callee args}
    (hc : ∀ f, callee = .direct f ∨ (∃ v, callee = .indirect v ∧ m.innermost.reg v = .fn f) →
      (env.code.function f).native = none → (env.code.function f).state = .analyzed →
      (env.code.function f).TakesInside env.types) :
    Twin (fun m u => Alike (m.map.frames ++ opened) m u) (call env id callee args span m)
      (call env id callee args span u) := by
  cases callee with
  | direct f => exact callFunction_twin h (hc f (.inl rfl))
  | indirect v =>
    refine (blind.reg _ _ _ h).bind fun w m' u' hreg h' => ?_
    obtain ⟨rfl, hw⟩ := reg_eq_ok hreg
    split
    · next f => exact callFunction_twin h' (hc f (.inr ⟨v, rfl, hw⟩))
    · exact .error
    · exact .error

/-- What an instruction that is executed in the innermost call accesses is covered, and the function
that it calls has room for its arguments. -/
structure Obeys (env : Setting) (opened : List Extent) (func : Function) (reg : InstrId → Value)
    (i : InstrId) : Prop where
  access : ∀ p ∈ func.accesses env reg i, Covered opened p.1.toNat p.2
  call : ∀ f ∈ func.target? reg i, (env.code.function f).native = none →
    (env.code.function f).state = .analyzed → (env.code.function f).TakesInside env.types

instance (env : Setting) (opened : List Extent) (func : Function) (reg : InstrId → Value)
    (i : InstrId) : Decidable (Obeys env opened func reg i) :=
  decidable_of_iff ((∀ p ∈ func.accesses env reg i, Covered opened p.1.toNat p.2) ∧
    ∀ f ∈ func.target? reg i, (env.code.function f).native = none →
      (env.code.function f).state = .analyzed → (env.code.function f).TakesInside env.types)
    ⟨fun h => ⟨h.1, h.2⟩, fun h => ⟨h.access, h.call⟩⟩

theorem Obeys.covered {reg : InstrId → Value} {s} (h : Obeys env opened func reg i)
    (hsub : ∀ p ∈ env.range ty v, p ∈ func.accesses env reg i) (hv : v = .ptr addr) (hs : env.types.shape ty = .ok s) :
    Covered opened addr.toNat s.size := by
  apply h.access (addr, s.size)
  apply hsub
  rw [hv, Setting.range, hs]
  exact .head _

theorem execute_twin (h : Alike opened m u) (hobeys : Obeys env opened func m.innermost.reg i) :
    Twin (fun m u => Alike (m.map.frames ++ opened) m u) (execute env func i m) (execute env func i u) := by
  cases hkind : (func.instr i).kind
  case globalPtr g =>
    simp only [execute, hkind]
    exact (globalAddress_twin h).bind fun _ _ _ _ h' => blind_local.set.within _ _ _ h'
  case load p =>
    simp only [execute, hkind]
    refine (blind.address _ _ _ h).bind fun addr m' u' haddr h' => ?_
    obtain ⟨rfl, hptr⟩ := address_eq_ok haddr
    have hc : ∀ s, env.types.shape (func.typeOf i) = .ok s → Covered opened addr.toNat s.size :=
      fun s => hobeys.covered (fun p hp => by rw [Function.accesses, hkind]; exact hp) hptr
    refine (load_twin h' hc).bind fun _ _ _ _ h' => ?_
    exact blind_local.set.within _ _ _ h'
  case store p v =>
    simp only [execute, hkind]
    refine (blind.address _ _ _ h).bind fun addr m' u' haddr h' => ?_
    obtain ⟨rfl, hptr⟩ := address_eq_ok haddr
    refine (blind.reg _ _ _ h').bind fun w m'' u'' _ h' => ?_
    have hc : ∀ s, env.types.shape (func.typeOf v) = .ok s → Covered opened addr.toNat s.size :=
      fun s => hobeys.covered (fun p hp => by rw [Function.accesses, hkind]; exact hp) hptr
    refine (store_twin h' hc).bind fun _ _ _ _ h' => ?_
    exact Blind.pure.within _ _ _ h'
  case elemPtr base index bound =>
    simp only [execute, hkind]
    have hc : SliceCovered env opened m base bound := by
      rintro addr s rfl hptr hs
      have hsub : ∀ p ∈ env.range .u64 (.ptr addr) ++ env.range .u64 (.ptr (addr + 8)),
          p ∈ func.accesses env m.innermost.reg i := by
        intro p hp
        rw [Function.accesses, hkind]
        dsimp only
        rw [hptr]
        exact hp
      exact ⟨hobeys.covered (fun p hp => hsub p (List.mem_append_left _ hp)) rfl hs,
        hobeys.covered (fun p hp => hsub p (List.mem_append_right _ hp)) rfl hs⟩
    exact (elemAddress_twin h hc).bind fun _ _ _ _ h' => blind_local.set.within _ _ _ h'
  case call callee args =>
    simp only [execute, hkind]
    refine (call_twin h fun f hf hn hs => ?_).bind fun _ _ _ _ h' => .ok h'
    apply hobeys.call f _ hn hs
    rcases hf with rfl | ⟨v, rfl, hv⟩
    · rw [Function.target?, hkind]
      rfl
    · rw [Function.target?, hkind]
      dsimp only
      rw [hv]
      rfl
  all_goals exact (blind_local.execute (by rw [hkind]; rfl)).within _ _ _ h

theorem advance_reg (h : advance m = .ok ⟨⟩ m') : m'.innermost.reg = m.innermost.reg := by
  obtain ⟨memory, top, globals, frames, state⟩ := m
  cases frames with
  | nil =>
    cases h
    rfl
  | cons f rest =>
    cases h
    rfl

def next? (m : Machine) : Option InstrId := m.innermost.func.at? m.innermost.block m.innermost.pos

/-- A step that obeys keeps machines alike. -/
theorem step_twin (h : Alike opened m u)
    (hobeys : ∀ i ∈ m.next?, Obeys env opened m.innermost.func m.innermost.reg i) :
    Twin (fun m u => Alike (m.map.frames ++ opened) m u) (step env m) (step env u) := by
  refine (frame_blind _ _ _ h).bind fun f m' u' hf h' => ?_
  obtain ⟨rfl, rfl⟩ : f = m.innermost ∧ m' = m := by
    cases hf
    exact ⟨rfl, rfl⟩
  cases hnext : (m'.innermost.func.block m'.innermost.block).instrs[m'.innermost.pos]? with
  | none => exact .error
  | some i =>
    refine (advance_blind _ _ _ h').bind fun _ m'' u'' hadvance h'' => ?_
    apply execute_twin h''
    rw [advance_reg hadvance]
    exact hobeys i hnext

end Machine

end Comptime
