import Comptime.Proofs.Machine.Logic

/-!
# Code without branches

A list of instructions that compute from constants and earlier results needs no machine: `Code.trace`
computes the registers one after the other. `Draft.straight` is the draft into which such a list has
been written.

Main result: the machine that runs the draft returns what the trace gives for the result, or stops with
the trap at which the trace ends (`Machine.runFn_straight`).
-/

namespace Comptime

abbrev Registers := List (TypeId × Value)

namespace Registers

variable {regs : Registers} {l : List Instr}

def typeOf (regs : Registers) (i : InstrId) : TypeId := ((regs[i.index]?).map Prod.fst).getD .void

def value (regs : Registers) (i : InstrId) : Value := ((regs[i.index]?).map Prod.snd).getD .void

/-- The registers of a frame of which the first ones have been computed. -/
def file (regs : Registers) (count : Nat) : Array Value :=
  (regs.map Prod.snd ++ List.replicate (count - regs.length) Value.void).toArray

theorem file_nil (count) : file [] count = Array.replicate count .void := by
  simp [file]

theorem getD_file (regs : Registers) (count) (i : InstrId) : (regs.file count).getD i.index .void = regs.value i := by
  rw [file, Array.getD_eq_getD_getElem?, List.getElem?_toArray, List.getElem?_append, value]
  split
  · rw [List.getElem?_map]
  · next h =>
    rw [List.getElem?_eq_none (l := regs) (by simpa using h), List.getElem?_replicate]
    split <;> rfl

theorem file_concat {count} (h : regs.length < count) (ty v) :
    (regs.file count).setIfInBounds regs.length v = file (regs ++ [(ty, v)]) count := by
  obtain ⟨n, hn⟩ : ∃ n, count - regs.length = n + 1 := ⟨count - regs.length - 1, by omega⟩
  have hn' : count - (regs ++ [(ty, v)]).length = n := by
    rw [List.length_append, List.length_singleton]
    omega
  rw [file, file, hn, hn', List.replicate_succ]
  simp

def Match (regs : Registers) (l : List Instr) : Prop := regs.map Prod.fst <+: l.map Instr.ty

theorem Match.typeOf (h : regs.Match l) {i} (hi : i.index < regs.length) :
    ∃ instr, l[i.index]? = some instr ∧ instr.ty = regs.typeOf i := by
  have hty : (l.map Instr.ty)[i.index]? = (regs.map Prod.fst)[i.index]? := by
    rw [List.prefix_iff_eq_take.mp h, List.getElem?_take_of_lt (by simpa using hi)]
  rw [List.getElem?_map, List.getElem?_map, List.getElem?_eq_getElem hi] at hty
  obtain ⟨instr, hinstr, hty⟩ := Option.map_eq_some_iff.mp hty
  refine ⟨instr, hinstr, ?_⟩
  rw [hty, Registers.typeOf, List.getElem?_eq_getElem hi]
  rfl

theorem Match.concat {i} (h : regs.Match l) (hi : l[regs.length]? = some i) (v) :
    Registers.Match (regs ++ [(i.ty, v)]) l := by
  obtain ⟨tail, htail⟩ := h
  have hhead : tail[0]? = some i.ty := by
    have hget : (l.map Instr.ty)[regs.length]? = some i.ty := by rw [List.getElem?_map, hi]; rfl
    rwa [← htail, List.getElem?_append_right (by simp), List.length_map, Nat.sub_self] at hget
  cases tail with
  | nil => cases hhead
  | cons ty tail =>
    cases hhead
    exact ⟨tail, by simpa using htail⟩

theorem Match.append (h : regs.Match l) (l') : regs.Match (l ++ l') := by
  unfold Match
  rw [List.map_append]
  exact h.trans (List.prefix_append _ _)

end Registers

/-- The instruction computes from a constant or from the first `k` registers. -/
def InstrKind.isPlain (k : Nat) : InstrKind → Bool
  | const _ => true
  | unary _ a | cast _ a => a.index < k
  | binary _ a b => a.index < k && b.index < k
  | _ => false

def Plain (l : List Instr) : Prop := ∀ k (i : Instr), l[k]? = some i → i.kind.isPlain k = true

/-- What an instruction computes from the registers. -/
def Instr.compute (t : TypeTable) (regs : Registers) (i : Instr) : Except Trap Value :=
  match i.kind with
  | .const v => .ok v
  | .unary op a => (op.eval t (regs.typeOf a) (regs.value a)).mapError fun kind => ⟨kind, i.span⟩
  | .binary op a b =>
    (op.eval t (regs.typeOf a) (regs.value a) (regs.value b)).mapError fun kind => ⟨kind, i.span⟩
  | .cast op a => (op.eval t i.ty (regs.value a)).mapError fun kind => ⟨kind, i.span⟩
  | _ => .ok .void

/-- The registers after the instructions, or the trap of the first one that has no result. -/
def traceFrom (t : TypeTable) : Registers → List Instr → Except Trap Registers
  | regs, [] => .ok regs
  | regs, i :: rest => do
    let v ← i.compute t regs
    traceFrom t (regs ++ [(i.ty, v)]) rest

def trace (t : TypeTable) (l : List Instr) : Except Trap Registers := traceFrom t [] l

section

variable {t : TypeTable} {l l' : List Instr} {regs regs' : Registers} {i : Instr}

theorem traceFrom_append (t regs l l') :
    traceFrom t regs (l ++ l') = (traceFrom t regs l).bind fun regs => traceFrom t regs l' := by
  induction l generalizing regs with
  | nil => rfl
  | cons i rest ih =>
    simp only [List.cons_append, traceFrom, bind]
    cases i.compute t regs with
    | error trap => rfl
    | ok v => exact ih _

theorem trace_concat (t l i) :
    trace t (l ++ [i]) = (trace t l).bind fun regs => (i.compute t regs).map fun v => regs ++ [(i.ty, v)] := by
  unfold trace
  rw [traceFrom_append]
  rfl

theorem of_traceFrom (h : traceFrom t regs l = .ok regs') :
    regs <+: regs' ∧ regs'.map Prod.fst = regs.map Prod.fst ++ l.map Instr.ty := by
  induction l generalizing regs with
  | nil =>
    cases h
    exact ⟨List.prefix_rfl, by simp⟩
  | cons i rest ih =>
    simp only [traceFrom, bind] at h
    cases hv : i.compute t regs with
    | error trap =>
      rw [hv] at h
      cases h
    | ok v =>
      rw [hv] at h
      obtain ⟨hbegins, htypes⟩ := ih h
      refine ⟨(List.prefix_append _ _).trans hbegins, ?_⟩
      rw [htypes]
      simp

theorem length_of_trace (h : trace t l = .ok regs) : regs.length = l.length := by
  have htypes := (of_traceFrom h).2
  simpa using congrArg List.length htypes

end

/-! ## Drafts -/

namespace Draft

def firstIds (count : Nat) : Array InstrId := ((List.range count).map Id.mk).toArray

/-- The draft of a function without a name into which instructions have been written. -/
def straight (name : String) (span : Span) (l : List Instr) : Draft :=
  let d := temporary name span
  { d with func := { d.func with
    instrs := ⟨l.toArray⟩
    blocks := ⟨#[⟨"entry", firstIds l.length⟩]⟩ } }

variable {name : String} {span : Span} {l : List Instr}

theorem firstIds_succ (count) : firstIds (count + 1) = (firstIds count).push ⟨count⟩ := by
  simp [firstIds, List.range_succ]

theorem firstIds_getElem? (count k) : (firstIds count)[k]? = if k < count then some ⟨k⟩ else none := by
  simp only [firstIds, List.getElem?_toArray, List.getElem?_map]
  split
  · next h => rw [List.getElem?_range h]; rfl
  · next h => rw [List.getElem?_eq_none (by simpa using h)]; rfl

private theorem append_straight (name) (span l) {i} (hi : i.block = Function.entry) :
    (straight name span l).func.append i = (straight name span (l ++ [i])).func := by
  simp [straight, Function.append, Pool.push, Pool.modify, Pool.nextId, hi, Function.entry,
    temporary, start, firstIds_succ]

def Unended (l : List Instr) : Prop := ∀ i ∈ l, i.kind.isTerminator = false

private theorem isTerminated_straight (h : Unended l) : (straight name span l).isTerminated = false := by
  unfold isTerminated Function.terminator?
  have hblock : ((straight name span l).func.block (straight name span l).current).instrs = firstIds l.length := rfl
  rw [hblock]
  cases hl : l.length with
  | zero => rfl
  | succ n =>
    have hlast : (firstIds (n + 1)).back? = some ⟨n⟩ := by rw [firstIds_succ]; simp
    obtain ⟨i, hi⟩ : ∃ i, l[n]? = some i := ⟨l[n], List.getElem?_eq_getElem (by omega)⟩
    have hget : (straight name span l).func.instrs.get? ⟨n⟩ = some i := by
      simpa [straight, Pool.get?] using hi
    have hkind := h i (List.mem_of_getElem? hi)
    simp [hlast, hget, hkind]

theorem emit_straight (h : Unended l) (kind ty place) :
    (straight name span l).emit kind ty place =
      (straight name span (l ++ [⟨kind, ty, place, Function.entry⟩]), ⟨l.length⟩) := by
  have hready : (straight name span l).ready = straight name span l := by
    rw [ready, isTerminated_straight h]
    rfl
  have happend := append_straight name span l (i := ⟨kind, ty, place, Function.entry⟩) rfl
  unfold emit
  rw [hready]
  refine Prod.ext ?_ ?_
  · show { straight name span l with
      func := (straight name span l).func.append ⟨kind, ty, place, Function.entry⟩ } = _
    rw [happend]
    rfl
  · simp [straight, Pool.nextId]

end Draft

/-! ## The machine -/

namespace Machine

variable {env : Setting} {func : Function} {memory : Memory} {base : Nat} {regs : Registers}
  {l : List Instr}

/-- The machine in the one call of a function, before the instruction at `pos`. -/
def inside (func : Function) (memory : Memory) (base : Nat) (regs : Registers) (pos : Nat) : Machine :=
  ⟨memory, 0, [], [{
    func, block := Function.entry, pos, prev := none, base, savedTop := 0, result := none
    regs := regs.file func.instrs.size }], .running⟩

theorem reg_inside (i pos) : reg i (inside func memory base regs pos) =
    .ok (regs.value i) (inside func memory base regs pos) := by
  rw [← regs.getD_file func.instrs.size i]
  rfl

theorem setReg_inside {pos} (h : regs.length < func.instrs.size) (ty v) :
    setReg ⟨regs.length⟩ v (inside func memory base regs pos) =
      .ok () (inside func memory base (regs ++ [(ty, v)]) pos) := by
  unfold inside
  rw [← regs.file_concat h ty v]
  rfl

/-- The code of a function is a list of instructions. -/
structure Holds (func : Function) (l : List Instr) : Prop where
  instrs : func.instrs = ⟨l.toArray⟩
  block : (func.block Function.entry).instrs = Draft.firstIds l.length

theorem Holds.instr (h : Holds func l) {k : Nat} {i} (hi : l[k]? = some i) : func.instr ⟨k⟩ = i := by
  simp [Function.instr, Pool.getD, Pool.get?, h.instrs, hi]

theorem Holds.typeOf (h : Holds func l) (hm : regs.Match l) {i} (hi : i.index < regs.length) :
    func.typeOf i = regs.typeOf i := by
  obtain ⟨instr, hinstr, hty⟩ := hm.typeOf hi
  rw [← hty, Function.typeOf]
  exact congrArg Instr.ty (h.instr hinstr)

theorem step_eq (env m) : step env m =
    (match ((m.frames.headD default).func.block (m.frames.headD default).block).instrs[
        (m.frames.headD default).pos]? with
      | some id => do
        advance
        execute env (m.frames.headD default).func id
      | none => invalid "block without terminator" (m.frames.headD default).func.span :
        Exec (Option Value)) m := rfl

theorem step_execute (h : Holds func l) (hlt : regs.length < l.length) :
    step env (inside func memory base regs regs.length) =
      execute env func ⟨regs.length⟩ (inside func memory base regs (regs.length + 1)) := by
  have hnext : (func.block Function.entry).instrs[regs.length]? = some ⟨regs.length⟩ := by
    rw [h.block, Draft.firstIds_getElem?, if_pos hlt]
  rw [step_eq]
  simp only [inside, List.headD_cons, hnext]
  rfl

private theorem finish_inside (hsize : regs.length < func.instrs.size) (ty span) (r : Except TrapKind Value) :
    match r.mapError fun kind => (⟨kind, span⟩ : Trap) with
    | .ok v => (do setReg ⟨regs.length⟩ (← orTrap span r); return none : Exec (Option Value))
        (inside func memory base regs (regs.length + 1)) =
      .ok none (inside func memory base (regs ++ [(ty, v)]) (regs.length + 1))
    | .error trap => ∃ m, (do setReg ⟨regs.length⟩ (← orTrap span r); return none :
        Exec (Option Value)) (inside func memory base regs (regs.length + 1)) =
      .error (.trap trap) m := by
  cases r with
  | error kind => exact ⟨_, rfl⟩
  | ok v =>
    dsimp only [Except.mapError]
    exact bind_of_ok (k := fun _ => pure none) (setReg_inside hsize ty v)

theorem step_inside (h : Holds func l) (hm : regs.Match l) {i : Instr}
    (hi : l[regs.length]? = some i) (hplain : i.kind.isPlain regs.length = true) :
    match i.compute env.types regs with
    | .ok v => step env (inside func memory base regs regs.length) =
      .ok none (inside func memory base (regs ++ [(i.ty, v)]) (regs.length + 1))
    | .error trap => ∃ m, step env (inside func memory base regs regs.length) =
      .error (.trap trap) m := by
  have hlt : regs.length < l.length := (List.getElem?_eq_some_iff.mp hi).1
  have hsize : regs.length < func.instrs.size := by
    rw [h.instrs]
    simpa [Pool.size] using hlt
  rw [step_execute h hlt, execute, h.instr hi]
  obtain ⟨kind, ty, span, block⟩ := i
  have hread (a : InstrId) : reg a (inside func memory base regs (regs.length + 1)) =
      .ok (regs.value a) (inside func memory base regs (regs.length + 1)) := reg_inside a _
  cases kind with
  | const v => exact bind_of_ok (setReg_inside hsize ty v)
  | unary op a =>
    simp only [InstrKind.isPlain, decide_eq_true_eq] at hplain
    dsimp only [Instr.compute]
    rw [bind_of_ok (hread a), h.typeOf hm hplain]
    exact finish_inside hsize ty span _
  | cast op a =>
    dsimp only [Instr.compute]
    rw [bind_of_ok (hread a)]
    exact finish_inside hsize ty span _
  | binary op a b =>
    simp only [InstrKind.isPlain, Bool.and_eq_true, decide_eq_true_eq] at hplain
    dsimp only [Instr.compute]
    rw [bind_of_ok (hread a), bind_of_ok (hread b), h.typeOf hm hplain.1]
    exact finish_inside hsize ty span _
  | _ => cases hplain

theorem loop_inside {body rest result ret} {fuel : Nat} (h : Holds func (body ++ [ret]))
    (hret : ret.kind = .ret (some result)) (hplain : Plain body) (hrest : body.drop regs.length = rest)
    (hle : regs.length ≤ body.length) (hm : regs.Match body) (hfuel : rest.length < fuel) :
    match traceFrom env.types regs rest with
    | .ok regs' => ∃ m, loop env fuel (inside func memory base regs regs.length) =
      .ok (regs'.value result) m
    | .error trap => ∃ m, loop env fuel (inside func memory base regs regs.length) =
      .error (.trap trap) m := by
  induction rest generalizing regs fuel with
  | nil =>
    obtain ⟨fuel, rfl⟩ : ∃ n, fuel = n + 1 := ⟨fuel - 1, by omega⟩
    have hlen : regs.length = body.length := by
      have := List.drop_eq_nil_iff.mp hrest
      omega
    have hlast : (body ++ [ret])[regs.length]? = some ret := by simp [hlen]
    have hstep : step env (inside func memory base regs regs.length) =
        leave (regs.value result) (inside func memory base regs (regs.length + 1)) := by
      rw [step_execute h (by simp [hlen]), execute, h.instr hlast, hret]
      exact bind_of_ok (reg_inside result _)
    refine ⟨⟨memory, 0, [], [], .running⟩, ?_⟩
    rw [loop, bind_of_ok (hstep.trans rfl)]
    rfl
  | cons i rest ih =>
    obtain ⟨fuel, rfl⟩ : ∃ n, fuel = n + 1 := ⟨fuel - 1, by omega⟩
    have hi : body[regs.length]? = some i := by
      rw [← List.head?_drop, hrest]
      rfl
    have hlt : regs.length < body.length := (List.getElem?_eq_some_iff.mp hi).1
    have hi' : (body ++ [ret])[regs.length]? = some i := by
      rw [List.getElem?_append_left hlt, hi]
    have hstep := @step_inside env func memory base regs _ h (hm.append _) i hi' (hplain _ _ hi)
    simp only [traceFrom, bind]
    cases hv : i.compute env.types regs with
    | error trap =>
      rw [hv] at hstep
      obtain ⟨m, hstep⟩ := hstep
      exact ⟨m, by rw [loop, bind_of_error hstep]⟩
    | ok v =>
      rw [hv] at hstep
      have hnext : (regs ++ [(i.ty, v)]).length = regs.length + 1 := by simp
      rw [loop, bind_of_ok hstep, ← hnext]
      apply ih
      · rw [hnext, ← List.drop_drop, hrest]
        rfl
      · omega
      · exact hm.concat hi v
      · simp only [List.length_cons] at hfuel
        omega

/-- A function that has neither parameters nor variables. -/
def bare (name : String) (span : Span) (instrs : Pool .instr Instr) (blocks : Pool .block Block)
    (ret : TypeId) : Function :=
  { (Draft.temporary name span).func with instrs, blocks, ret, state := .analyzed }

/-- A function that has only instructions in its frame. -/
def straight (name : String) (span : Span) (body : List Instr) (result : InstrId) (place : Span)
    (ret : TypeId) : Function :=
  { (Draft.straight name span (body ++ [⟨.ret (some result), .void, place, Function.entry⟩])).func with
    ret, state := .analyzed }

section

variable {name : String} {span : Span} {instrs : Pool .instr Instr} {blocks : Pool .block Block}
  {ret : TypeId}

theorem pushFrame_bare (hframes : 0 < env.limits.maxFrames) :
    ∃ memory base, pushFrame env (bare name span instrs blocks ret) [] none span
      { fresh with state := .running, frames := [], top := 0 } =
      .ok () (inside (bare name span instrs blocks ret) memory base [] 0) := by
  have hroom : ¬ env.limits.maxFrames ≤ 0 := by omega
  have hfits : (decide (0 < TypeTable.addressSpace) && decide (0 ≤ env.limits.stackSize)) = true := by
    simp [TypeTable.addressSpace]
  refine ⟨fresh.memory.openFrame 0 0, Memory.stackBase, ?_⟩
  show (ite (env.limits.maxFrames ≤ 0) _ _ : Exec Unit) _ = _
  rw [if_neg hroom]
  show (ite ((decide (0 < TypeTable.addressSpace) && decide (0 ≤ env.limits.stackSize)) = true) _ _ :
    Exec Unit) _ = _
  rw [if_pos hfits, inside, Registers.file_nil]
  rfl

theorem enter_bare (env m) : enter env (bare name span instrs blocks ret) [] m = (do
      pushFrame env (bare name span instrs blocks ret) [] none span
      loop env env.limits.maxSteps) m := rfl

theorem layoutFrame_bare (t) : (bare name span instrs blocks ret).layoutFrame t =
    (bare name span instrs blocks ret, none) := rfl

end

theorem straight_eq {name} {span place body result ret} : straight name span body result place ret =
      bare name span (straight name span body result place ret).instrs
        (straight name span body result place ret).blocks ret := rfl

/-- Running straight code is tracing it. -/
theorem runFn_straight {name : String} {span place body result ret} (hframes : 0 < env.limits.maxFrames)
    (hsteps : body.length < env.limits.maxSteps) (hplain : Plain body) :
    match trace env.types body with
    | .ok regs => (fresh.runFn env (straight name span body result place ret) []).1 =
      .returned (regs.value result)
    | .error trap => (fresh.runFn env (straight name span body result place ret) []).1 =
      .trapped trap := by
  have hholds : Holds (straight name span body result place ret)
    (body ++ [⟨.ret (some result), .void, place, Function.entry⟩]) := ⟨rfl, rfl⟩
  rw [straight_eq] at hholds ⊢
  obtain ⟨memory, base, hpush⟩ := pushFrame_bare hframes
  have hloop := @loop_inside env _ memory base [] body body result _ env.limits.maxSteps hholds rfl
    hplain rfl (Nat.zero_le _) List.nil_prefix hsteps
  rw [List.length_nil] at hloop
  rw [runFn, conclude, EStateM.run, enter_bare, bind_of_ok hpush]
  unfold trace
  cases htrace : traceFrom env.types [] body with
  | ok regs =>
    rw [htrace] at hloop
    obtain ⟨m, hm⟩ := hloop
    rw [hm]
    rfl
  | error trap =>
    rw [htrace] at hloop
    obtain ⟨m, hm⟩ := hloop
    rw [hm]
    rfl

theorem runFn_overflow {name : String} {span place body result ret} (hframes : env.limits.maxFrames = 0) :
    (fresh.runFn env (straight name span body result place ret) []).1 = .trapped ⟨.stackOverflow, span⟩ := by
  have hfull : env.limits.maxFrames ≤ 0 := by omega
  have hpush (func : Function) : pushFrame env func [] none span
      { fresh with state := .running, frames := [], top := 0 } =
      .error (.trap ⟨.stackOverflow, span⟩) { fresh with state := .running, frames := [], top := 0 } := by
    show (ite (env.limits.maxFrames ≤ 0) _ _ : Exec Unit) _ = _
    rw [if_pos hfull]
    rfl
  rw [straight_eq, runFn, conclude, EStateM.run, enter_bare, bind_of_error (hpush _)]
  rfl

end Machine

end Comptime
