import Comptime.Proofs.Shortcut.Parallel

/-!
# Code that skips an operand

The code of `false && e` and of `true || e` branches to the block behind the code of `e`. Whatever
that code is, the machine does not get to it (`Machine.runFn_skips`).
-/

namespace Comptime

/-! ## Drafts -/

namespace Draft

variable {d d' : Draft}

theorem emit_emit (hempty : (d.func.block d.current).instrs = #[]) (hb : d.func.blocks.Has d.current) (first second)
    (hfirst : first.isTerminator = false) (ty ty' span span') : let e := d.emit first ty span
    let e' := e.1.emit second ty' span'
    d.Leads e'.1 ∧ (e'.1.func.block d.current).instrs = #[e.2, e'.2] ∧
      e.2.index < e'.1.func.instrs.size ∧ (e'.1.func.instr e.2).kind = first ∧
      (e'.1.func.instr e'.2).kind = second := by
  intro e e'
  have hopen := isTerminated_of_empty hempty
  obtain ⟨hcur, hhas, hinstrs, hinstr⟩ := emit_open hopen hb first ty span
  have hid : e.2 = d.func.instrs.nextId := congrArg Prod.snd (emit_of_open hopen ..)
  have hopen' : e.1.isTerminated = false := by
    refine isTerminated_of_back ?_ hinstr hfirst
    rw [hcur, hinstrs]
    simp
  obtain ⟨-, -, hinstrs', hinstr'⟩ := emit_open hopen' hhas second ty' span'
  have hid' : e'.2 = e.1.func.instrs.nextId := congrArg Prod.snd (emit_of_open hopen' ..)
  have hlead' : e.1.Leads e'.1 := e.1.leads_emit ..
  have hin := Pool.has_of_get?_eq_some hinstr
  refine ⟨(d.leads_emit ..).trans hlead', ?_, hid ▸ hlead'.func.has hin, ?_, ?_⟩
  · rw [hcur] at hinstrs'
    rw [hinstrs', hinstrs, hempty, hid, hid']
    rfl
  · rw [hid, hlead'.func.instr hin, Function.instr, Pool.getD, hinstr]
    rfl
  · rw [hid', Function.instr, Pool.getD, hinstr']
    rfl

/-- Instructions in the first of three blocks. -/
def forked (name : String) (start : Span) (l : List Instr) : Draft :=
  let d := straight name start l
  { d with func := { d.func with
    blocks := ⟨#[⟨"entry", firstIds l.length⟩, ⟨"logic.rhs", #[]⟩, ⟨"logic.end", #[]⟩]⟩ } }

/-- The draft of a function that branches on a constant, in the block to which the constant does not
lead. -/
def opened (name : String) (start place span : Span) (decided : Bool) (reachable : List BlockId) :
    Draft :=
  { forked name start [⟨.const (.bool decided), .bool, place, Function.entry⟩,
      ⟨if decided then .branch 0 2 1 else .branch 0 1 2, .void, span, Function.entry⟩] with
    current := 1, reachable }

private theorem append_forked (name) (start l) {i} (hi : i.block = Function.entry) :
    (forked name start l).func.append i = (forked name start (l ++ [i])).func := by
  simp [forked, straight, Function.append, Pool.push, Pool.modify, Pool.nextId, hi, Function.entry, firstIds_succ]

theorem forked_branch (name) (start place span) (decided) (targets) : ∃ reachable,
      { (forked name start [⟨.const (.bool decided), .bool, place, Function.entry⟩]).emitExit
        (if decided then .branch 0 2 1 else .branch 0 1 2) targets span with
        current := 1 } = opened name start place span decided reachable := by
  have hopen : (forked name start
      [⟨.const (.bool decided), .bool, place, Function.entry⟩]).isTerminated = false := rfl
  obtain ⟨reachable, hexit⟩ := emitExit_of_open hopen
    (if decided then .branch 0 2 1 else .branch 0 1 2) targets span
  refine ⟨reachable, ?_⟩
  rw [hexit]
  dsimp only
  rw [append_forked _ _ _ (by rfl)]
  rfl

end Draft

theorem Function.header_trans {f f' f'' : Function} (h : { f' with instrs := f.instrs, blocks := f.blocks } = f)
    (h' : { f'' with instrs := f'.instrs, blocks := f'.blocks } = f') :
    { f'' with instrs := f.instrs, blocks := f.blocks } = f := by
  rw [← h'] at h
  exact h

theorem Function.eq_bare {f : Function} {name span ty} {instrs : Pool .instr Instr} {blocks : Pool .block Block}
    (h : { f with instrs, blocks } = { (Draft.temporary name span).func with instrs, blocks }) :
    { f with ret := ty, state := .analyzed } = Machine.bare name span f.instrs f.blocks ty :=
  congrArg (fun g : Function =>
    { g with instrs := f.instrs, blocks := f.blocks, ret := ty, state := .analyzed }) h

/-- The code branches on a constant to a block that gives the constant back. -/
structure Function.Skips (func : Function) (decided : Bool) (join last : InstrId)
    (other : BlockId × InstrId) : Prop where
  entry : (func.block Function.entry).instrs = #[0, 1]
  const : (func.instr 0).kind = .const (.bool decided)
  branch : (func.instr 1).kind =
    if decided then .branch 0 2 1 else .branch 0 1 2
  stop : (func.block 2).instrs = #[join, last]
  phi : (func.instr join).kind = .phi [(Function.entry, 0), other]
  ret : (func.instr last).kind = .ret (some join)
  size : join.index < func.instrs.size

theorem Function.Skips.bare {func : Function} {decided join last} {other : BlockId × InstrId}
    (h : func.Skips decided join last other) (name span ty) :
    (Machine.bare name span func.instrs func.blocks ty).Skips decided join last other :=
  ⟨h.entry, h.const, h.branch, h.stop, h.phi, h.ret, h.size⟩

/-- A draft that branches on a constant and goes on in the block to which the constant does not
lead. -/
structure Draft.Forks (d : Draft) (name : String) (start : Span) (decided : Bool) : Prop where
  current : d.current = 1
  blocks : d.func.blocks.size = 3
  entry : (d.func.block Function.entry).instrs = #[0, 1]
  stop : (d.func.block 2).instrs = #[]
  instrs : d.func.instrs.size = 2
  const : (d.func.instr 0).kind = .const (.bool decided)
  branch : (d.func.instr 1).kind =
    if decided then .branch 0 2 1 else .branch 0 1 2
  header : { (Draft.temporary name start).func with
    instrs := d.func.instrs, blocks := d.func.blocks } = d.func

theorem Draft.opened_forks (name) (start place span) (decided) (reachable) :
    (Draft.opened name start place span decided reachable).Forks name start decided :=
  ⟨rfl, rfl, rfl, rfl, rfl, rfl, rfl, rfl⟩

theorem Draft.Forks.skips {name : String} {start span : Span} {decided : Bool} {d g : Draft}
    (hd : d.Forks name start decided) (h : d.Leads g) (other : BlockId × InstrId) (ty : TypeId)
    (stop : Span) :
    let joined := { g with current := 2 }.emit (.phi [(Function.entry, 0), other]) .bool span
    let func := (joined.1.emit (.ret (some joined.2)) .void stop).1.func
    { func with ret := ty, state := .analyzed } = Machine.bare name start func.instrs func.blocks ty ∧ ∃ last,
        (Machine.bare name start func.instrs func.blocks ty).Skips decided joined.2 last other := by
  intro joined func
  have hhas {b : BlockId} (hb : b.index < 3) : d.func.blocks.Has b := by rwa [Pool.Has, hd.blocks]
  have hblock {b : BlockId} (hb : b.index < 3) (hne : b ≠ 1) : g.func.block b = d.func.block b :=
    h.block (hhas hb) (hd.current ▸ hne)
  have hempty : (g.func.block 2).instrs = #[] := by
    rw [hblock (by decide) (by decide), hd.stop]
  obtain ⟨hlead, hstop, hsize, hphi, hret⟩ := Draft.emit_emit (d := { g with current := 2 }) hempty
    (h.blocks (hhas (show 2 < 3 by decide))) (.phi [(Function.entry, 0), other])
    (.ret (some joined.2)) rfl .bool .void span stop
  have hinstr {i : InstrId} (hi : i.index < 2) : func.instr i = d.func.instr i :=
    (h.func.trans hlead.func).instr (by rwa [Pool.Has, hd.instrs])
  have hentry : func.block Function.entry = d.func.block Function.entry := by
    rw [← hblock (by decide) (by decide)]
    exact hlead.block (h.blocks (hhas (by decide))) (show (0 : BlockId) ≠ 2 by decide)
  have hskips : func.Skips decided joined.2 (joined.1.emit (.ret (some joined.2)) .void stop).2
      other := {
    entry := (congrArg Block.instrs hentry).trans hd.entry
    const := (congrArg Instr.kind (hinstr (by decide))).trans hd.const
    branch := (congrArg Instr.kind (hinstr (by decide))).trans hd.branch
    stop := hstop
    phi := hphi
    ret := hret
    size := hsize }
  exact ⟨Function.eq_bare ((Function.header_trans h.header hlead.header).trans hd.header.symm), _,
    hskips.bare name start ty⟩

/-! ## The machine -/

namespace Machine

variable {env : Setting} {func : Function} {decided : Bool} {join last : InstrId}
  {other : BlockId × InstrId}

/-- The machine in the one call of a function, before the instruction at `pos` of a block. -/
def within (func : Function) (memory : Memory) (base : Nat) (regs : Array Value) (block : BlockId)
    (prev : Option BlockId) (pos : Nat) : Machine :=
  ⟨memory, 0, [], [{ func, block, pos, prev, base, savedTop := 0, result := none, regs }], .running⟩

section

variable {memory : Memory} {base pos : Nat} {regs : Array Value} {block : BlockId} {prev : Option BlockId}
  {id i : InstrId} {v : Value}

theorem step_within (h : (func.block block).instrs[pos]? = some id) :
    step env (within func memory base regs block prev pos) =
      execute env func id (within func memory base regs block prev (pos + 1)) := by
  rw [step_eq]
  simp only [within, List.headD_cons, h]
  rfl

theorem reg_within (h : regs[i.index]? = some v) :
    reg i (within func memory base regs block prev pos) = .ok v (within func memory base regs block prev pos) := by
  have hv : regs.getD i.index .void = v := by rw [Array.getD_eq_getD_getElem?, h]; rfl
  rw [← hv]
  rfl

theorem execute_const (h : (func.instr id).kind = .const v) :
    execute env func id (within func memory base regs block prev pos) =
      .ok none (within func memory base (regs.setIfInBounds id.index v) block prev pos) := by
  rw [execute]
  simp only [h]
  rfl

theorem execute_ret (h : (func.instr id).kind = .ret (some i)) (hv : regs[i.index]? = some v) :
    execute env func id (within func memory base regs block prev pos) =
      .ok (some v) ⟨memory, 0, [], [], .running⟩ := by
  rw [execute]
  simp only [h]
  rw [bind_of_ok (reg_within hv)]
  rfl

theorem execute_phi {incoming source} (h : (func.instr id).kind = .phi incoming)
    (hi : incoming.lookup source = some i) (hv : regs[i.index]? = some v) :
    execute env func id (within func memory base regs block (some source) pos) =
      .ok none (within func memory base (regs.setIfInBounds id.index v) block (some source) pos) := by
  have hframe : frame (within func memory base regs block (some source) pos) =
      .ok _ (within func memory base regs block (some source) pos) := rfl
  rw [execute]
  simp only [h]
  rw [bind_of_ok hframe]
  dsimp only [List.headD_cons, within, Option.bind_some]
  rw [hi]
  exact bind_of_ok (reg_within hv)

private theorem execute_branch {yes no} {b} (h : (func.instr id).kind = .branch i yes no)
    (hv : regs[i.index]? = some (.bool b)) :
    execute env func id (within func memory base regs block prev pos) =
      .ok none (within func memory base regs (if b then yes else no) (some block) 0) := by
  rw [execute]
  simp only [h]
  rw [bind_of_ok (reg_within hv)]
  cases b <;> rfl

end

theorem loop_skips (h : func.Skips decided join last other) {memory} {base fuel : Nat} (hfuel : 4 ≤ fuel) :
    ∃ m, loop env fuel (inside func memory base [] 0) = .ok (.bool decided) m := by
  obtain ⟨fuel, rfl⟩ : ∃ k, fuel = k + 4 := ⟨fuel - 4, by omega⟩
  have hzero : 0 < func.instrs.size := by
    have := h.size
    omega
  let regs := (Registers.file [] func.instrs.size).setIfInBounds 0 (.bool decided)
  have hsize : regs.size = func.instrs.size := by simp [regs, Registers.file_nil]
  have hcond : regs[0]? = some (.bool decided) := by
    simp [regs, Registers.file_nil, hzero]
  have hjoin : (regs.setIfInBounds join.index (.bool decided))[join.index]? =
      some (.bool decided) := by simp [hsize, h.size]
  have hconst : step env (inside func memory base [] 0) =
      .ok none (within func memory base regs Function.entry none 1) :=
    (step_within (by rw [h.entry]; rfl)).trans (execute_const h.const)
  have hbranch : step env (within func memory base regs Function.entry none 1) =
      .ok none (within func memory base regs 2 (some Function.entry) 0) := by
    have hnext : (func.block Function.entry).instrs[1]? = some 1 := by
      rw [h.entry]
      rfl
    rw [step_within hnext]
    cases decided with
    | false => exact execute_branch h.branch hcond
    | true => exact execute_branch h.branch hcond
  have hphi : step env (within func memory base regs 2 (some Function.entry) 0) =
      .ok none (within func memory base (regs.setIfInBounds join.index (.bool decided)) 2
        (some Function.entry) 1) :=
    (step_within (by rw [h.stop]; rfl)).trans (execute_phi h.phi rfl hcond)
  have hret : step env (within func memory base (regs.setIfInBounds join.index (.bool decided)) 2
      (some Function.entry) 1) = .ok (some (.bool decided)) ⟨memory, 0, [], [], .running⟩ :=
    (step_within (by rw [h.stop]; rfl)).trans (execute_ret h.ret hjoin)
  refine ⟨⟨memory, 0, [], [], .running⟩, ?_⟩
  rw [loop, bind_of_ok hconst]
  dsimp only
  rw [loop, bind_of_ok hbranch]
  dsimp only
  rw [loop, bind_of_ok hphi]
  dsimp only
  rw [loop, bind_of_ok hret]
  rfl

/-- The machine skips the operand. -/
theorem runFn_skips {name : String} {span} {instrs : Pool .instr Instr} {blocks : Pool .block Block} {ret}
    (h : (bare name span instrs blocks ret).Skips decided join last other) (hframes : 0 < env.limits.maxFrames)
    (hsteps : 4 ≤ env.limits.maxSteps) :
    (fresh.runFn env (bare name span instrs blocks ret) []).1 = .returned (.bool decided) := by
  obtain ⟨memory, base, hpush⟩ := @pushFrame_bare env name span instrs blocks ret hframes
  obtain ⟨m, hm⟩ := @loop_skips env _ decided join last other h memory base _ hsteps
  rw [runFn, conclude, EStateM.run, enter_bare, bind_of_ok hpush, hm]
  rfl

end Machine

end Comptime
