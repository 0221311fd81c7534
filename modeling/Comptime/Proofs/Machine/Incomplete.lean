import Comptime.Machine.Step
import Comptime.Proofs.Pool
import Comptime.Proofs.State

/-!
# Functions that cannot be executed

A run stops at a function whose analysis has failed, and only there does it blame an incomplete
function: neither operators nor memory nor the host do so. Hence such a stop tells of a failure in
the code. In the same way it waits only for functions that are to get a body and have none, and misses
only functions that do not exist (`fair_run`, `fair_runFn`).

`Exec.Rules`, `Exec.Local` and `Exec.Laws` go through the pieces of a step once, for this and for other
properties of steps.
-/

namespace Comptime

/-- The trap of a function that cannot be executed. -/
def TrapKind.isIncomplete : TrapKind → Bool
  | incompleteFunction _ => true
  | _ => false

/-- The trap of code in which control leads nowhere. -/
def TrapKind.isAstray : TrapKind → Bool
  | invalidOperation message =>
    message == "block without terminator" || message == "phi without matching predecessor"
  | _ => false

def TrapKind.blamesCode (k : TrapKind) : Bool := k.isIncomplete || k.isAstray

def Code.Broken (c : Code) : Prop := ∃ f, c.fns.Has f ∧ (c.function f).state = .failed

/-- The function is to get a body and has none yet. -/
structure Function.Unfinished (f : Function) : Prop where
  native : f.native = none
  state : f.state = .pending ∨ f.state = .analyzing

/-- Only a function that has failed is blamed as incomplete, only one that is to be analysed is waited
for, and only one that does not exist is missed. -/
def Outcome.Fair (c : Code) : Outcome → Prop
  | .trapped t => t.kind.isIncomplete = true → c.Broken
  | .postponed f => (c.function f).Unfinished
  | .missing f => ¬ c.fns.Has f
  | .returned _ | .exhausted => True

def Stop.Fair (c : Code) (stop : Stop) : Prop := stop.outcome.Fair c

/-! ## Operators and memory -/

/-- The computation does not fail through a fault of the code. -/
structure Unblaming {α : Type} (r : Except TrapKind α) : Prop where
  kind : ∀ k, r = .error k → k.blamesCode = false

namespace Unblaming

variable {α β : Type}

protected theorem ok (a : α) : Unblaming (.ok a : Except TrapKind α) := ⟨by simp⟩

protected theorem error {k} (h : k.blamesCode = false) : Unblaming (.error k : Except TrapKind α) := by
  refine ⟨?_⟩
  rintro _ ⟨rfl⟩
  exact h

theorem isAstray {r : Except TrapKind α} (h : Unblaming r) {k} (hk : r = .error k) :
    k.isAstray = false := (Bool.or_eq_false_iff.mp (h.kind k hk)).2

protected theorem map {r : Except TrapKind α} (h : Unblaming r) (f : α → β) : Unblaming (r.map f) := by
  cases r with
  | ok a => exact .ok _
  | error k => exact .error (h.kind k rfl)

end Unblaming

theorem BinaryOp.unblaming_onWords (op : BinaryOp) (bits signed a b) : Unblaming (op.onWords bits signed a b) := by
  unfold onWords
  cases op with
  | div | mod =>
    dsimp only
    split
    · exact .error rfl
    · exact .ok _
  | logicAnd | logicOr | eq | neq | less | lessEq | greater | greaterEq => exact .error rfl
  | _ => exact .ok _

theorem BinaryOp.unblaming_onOrdering (op : BinaryOp) (o) : Unblaming (op.onOrdering o) := by
  unfold onOrdering
  split <;> first | exact .ok _ | exact .error rfl

theorem BinaryOp.unblaming_onReferences (op : BinaryOp) (same) : Unblaming (op.onReferences same) := by
  unfold onReferences
  split <;> first | exact .ok _ | exact .error rfl

theorem BinaryOp.unblaming_compare (t) (op : BinaryOp) (ty a b) : Unblaming (op.compare t ty a b) := by
  have hpartial (o : Option Ordering) : Unblaming (compare.ofPartial op o) := by
    cases o with
    | some o => exact op.unblaming_onOrdering o
    | none => exact .ok _
  unfold compare
  split
  all_goals first
    | exact op.unblaming_onOrdering _
    | exact hpartial _
    | exact op.unblaming_onReferences _
    | exact .error rfl

theorem BinaryOp.unblaming_eval (t) (op : BinaryOp) (ty a b) : Unblaming (op.eval t ty a b) := by
  have hbools (a b : Bool) : Unblaming (op.onBools a b) := by
    unfold onBools
    split <;> first | exact .ok _ | exact .error rfl
  have hreals (f : Binary.Format) (a b : Nat) : Unblaming (op.onReals f a b) := by
    unfold onReals
    split <;> first | exact .ok _ | exact .error rfl
  unfold eval
  split
  · exact (unblaming_compare ..).map _
  · split
    · exact (hbools _ _).map _
    · split
      · exact (unblaming_onWords ..).map _
      · exact .error rfl
    · exact (hreals ..).map _
    · exact (hreals ..).map _
    · exact .error rfl

theorem UnaryOp.unblaming_eval (t) (op : UnaryOp) (ty v) : Unblaming (op.eval t ty v) := by
  have hword (raw : UInt64) : Unblaming (eval.onWord t ty raw) := by
    unfold eval.onWord
    split
    · exact .ok _
    · exact .error rfl
  unfold eval
  split
  all_goals first | exact .ok _ | exact hword _ | exact .error rfl

theorem CastOp.unblaming_ofReal (t : TypeTable) (target) (r : Nat × Nat) :
    Unblaming (match t.kind target with
      | .real 32 => pure (.f32 (UInt32.ofNat r.1))
      | .real _ => pure (.f64 (UInt64.ofNat r.2))
      | _ => .error (.invalidOperation "float conversion to non-float type") :
        Except TrapKind Value) := by
  split <;> first | exact .ok _ | exact .error rfl

theorem CastOp.unblaming_eval (t) (op : CastOp) (target v) : Unblaming (op.eval t target v) := by
  have hword : Unblaming (eval.word t target v) := by
    unfold eval.word toInteger
    repeat' split
    all_goals first | exact .ok _ | exact .error rfl
  have hreal : Unblaming (op.toReal t target v) := by
    unfold toReal
    dsimp only
    split
    · exact unblaming_ofReal t target (_, _)
    · exact unblaming_ofReal t target (_, _)
    · exact .error rfl
  unfold eval
  repeat' split
  all_goals first | exact .ok _ | exact hword | exact hreal | exact .error rfl

theorem Memory.unblaming_place (m : Memory) (addr len) : Unblaming (m.place addr len) := by
  unfold place
  dsimp only
  repeat' split
  all_goals first | exact .ok _ | exact .error rfl

theorem Memory.unblaming_load (m : Memory) (addr s) : Unblaming (m.load addr s) := by
  have hp := m.unblaming_place addr s.size
  unfold load
  split
  · exact .ok _
  · exact .ok _
  · next k hk => exact .error (hp.kind k hk)

/-! ## Pieces of steps -/

theorem TrapKind.isAstray_append {head : String} (h : ¬ head.toList <+: "block without terminator".toList)
    (h' : ¬ head.toList <+: "phi without matching predecessor".toList) (rest) :
    isAstray (.invalidOperation (head ++ rest)) = false := by
  have hne {message : String} (hm : ¬ head.toList <+: message.toList) : head ++ rest ≠ message := by
    rintro rfl
    rw [String.toList_append] at hm
    exact hm (List.prefix_append _ _)
  simp [isAstray, hne h, hne h']

theorem TrapKind.blamesCode_append {head : String} (h : ¬ head.toList <+: "block without terminator".toList)
    (h' : ¬ head.toList <+: "phi without matching predecessor".toList) (rest) :
    blamesCode (.invalidOperation (head ++ rest)) = false := isAstray_append h h' rest

namespace Exec

/-- The piece of a step succeeds with `Q`, or stops for a reason of which `S` holds. -/
def Meets {α : Type} (S : Stop → Prop) (x : Exec α) (m : Machine) (Q : α → Machine → Prop) : Prop :=
  Ensures (x m) Q fun stop _ => S stop

namespace Meets

variable {α β : Type} {x : Exec α} {k : α → Exec β} {m m' : Machine} {P : α → Machine → Prop}
  {Q : β → Machine → Prop} {S : Stop → Prop} {stop : Stop}

theorem of_ok {a : α} (h : Meets S x m P) (hx : x m = .ok a m') : P a m' := by
  unfold Meets at h
  rw [hx] at h
  exact h

theorem of_error (h : Meets S x m P) (hx : x m = .error stop m') : S stop := by
  unfold Meets at h
  rw [hx] at h
  exact h

protected theorem pure {a : α} (h : P a m) : Meets S (pure a) m P := h

protected theorem bind (h : Meets S x m P) (h' : ∀ a m', P a m' → Meets S (k a) m' Q) : Meets S (x >>= k) m Q :=
  Ensures.bind h h'

theorem imp {P' : α → Machine → Prop} (h : Meets S x m P) (h' : ∀ a m', P a m' → P' a m') :
    Meets S x m P' := Ensures.imp h h' fun _ _ hs => hs

protected theorem get {k : Machine → Exec β} (h : Meets S (k m) m Q) : Meets S (get >>= k) m Q := h

protected theorem modifyGet {f : Machine → α × Machine} (h : P (f m).1 (f m).2) : Meets S (modifyGet f) m P := h

protected theorem forM {f : α → Exec PUnit} {l : List α} {I : Machine → Prop} (hm : I m)
    (h : ∀ a ∈ l, ∀ m', I m' → Meets S (f a) m' fun _ => I) : Meets S (l.forM f) m fun _ => I := by
  induction l generalizing m with
  | nil => exact hm
  | cons a l ih =>
    refine Meets.bind (h a List.mem_cons_self m hm) fun _ m' hm' => ih hm' ?_
    exact fun a' ha' => h a' (List.mem_cons_of_mem a ha')

end Meets

/-- A property that a piece of a step has if its parts have it, provided that they change nothing and do not
blame the code. -/
structure Rules (Q : ∀ {α : Type}, Exec α → Prop) : Prop where
  pure : ∀ {α : Type} {a : α}, Q (pure a)
  bind : ∀ {α β : Type} {x : Exec α} {k : α → Exec β}, Q x → (∀ a, Q (k a)) → Q (x >>= k)
  trap : ∀ {α : Type} {kind : TrapKind} {span : Span}, kind.blamesCode = false →
    Q (Machine.trap kind span : Exec α)
  frame : Q Machine.frame

namespace Rules

variable {Q : ∀ {α : Type}, Exec α → Prop} {α β : Type} {env : Setting} {span : Span} {i base : InstrId}
  {func : Function} {args : List Value}

theorem ite (_ : Rules Q) {p : Prop} [Decidable p] {x y : Exec α} (h : Q x) (h' : Q y) : Q (if p then x else y) := by
  split
  · exact h
  · exact h'

section

variable (rules : Rules Q)

include rules

theorem mapM {f : α → Exec β} (h : ∀ a, Q (f a)) (l : List α) : Q (l.mapM f) := by
  induction l with
  | nil => exact rules.pure
  | cons a l ih =>
    rw [List.mapM_cons]
    exact rules.bind (h a) fun _ => rules.bind ih fun _ => rules.pure

theorem forM {f : α → Exec PUnit} (h : ∀ a, Q (f a)) (l : List α) : Q (l.forM f) := by
  induction l with
  | nil => exact rules.pure
  | cons a l ih => exact rules.bind (h a) fun _ => ih

theorem orTrap {r : Except TrapKind α} (h : Unblaming r) : Q (Machine.orTrap span r) := by
  cases r with
  | ok a => exact rules.pure
  | error k => exact rules.trap (h.kind k rfl)

theorem orNoLayout {r : Except LayoutError α} : Q (Machine.orNoLayout span r) := by
  cases r with
  | ok a => exact rules.pure
  | error e => exact rules.trap (TrapKind.blamesCode_append (by decide) (by decide) _)

theorem reg : Q (Machine.reg i) := rules.bind rules.frame fun _ => rules.pure

theorem address : Q (Machine.address i span) := by
  refine rules.bind rules.reg fun v => ?_
  split
  · exact rules.pure
  · exact rules.trap (TrapKind.blamesCode_append (by decide) (by decide) _)

theorem indexValue : Q (Machine.indexValue i span) := by
  refine rules.bind rules.reg fun v => ?_
  split
  · exact rules.pure
  · exact rules.trap rfl

theorem callHost {name : String} : Q (Machine.callHost env func name args span) := by
  have hcall : Unblaming ((env.host.call name args).mapError TrapKind.native) := by
    cases env.host.call name args with
    | ok v => exact .ok _
    | error e => exact .error rfl
  exact rules.bind (rules.orTrap hcall) fun _ => rules.ite rules.pure (rules.trap rfl)

theorem behind {start offset : UInt64} : Q (Machine.behind start offset span) :=
  rules.ite (rules.bind (rules.trap rfl) fun _ => rules.pure) rules.pure

theorem elemAddress (hload : ∀ {addr ty}, Q (Machine.load env addr ty span)) {ty index bound} :
    Q (Machine.elemAddress env ty base index bound span) := by
  have helements : Q (Machine.elements env base bound span) := by
    unfold Machine.elements
    split
    · exact rules.bind rules.address fun _ => rules.pure
    · exact rules.bind rules.address fun _ => rules.bind hload fun _ => rules.bind hload fun _ => rules.pure
    · exact rules.bind rules.address fun _ => rules.pure
  unfold Machine.elemAddress
  split
  · refine rules.bind rules.orNoLayout fun _ => rules.bind rules.indexValue fun _ => rules.bind helements fun r => ?_
    dsimp only
    split
    · exact rules.ite (rules.bind (rules.trap rfl) fun _ => rules.behind) rules.behind
    · exact rules.behind
  · exact rules.trap rfl

theorem memberAddress {index : Nat} : Q (Machine.memberAddress env func base index span) := by
  have hoffset : Q (Machine.memberOffset env (func.typeOf base) index span) := by
    unfold Machine.memberOffset
    split
    · exact rules.bind rules.orNoLayout fun _ => rules.pure
    · exact rules.pure
    · exact rules.trap rfl
  exact rules.bind hoffset fun _ => rules.bind rules.address fun _ => rules.behind

theorem checkArgs : Q (Machine.checkArgs env func args) := by
  refine rules.ite (rules.bind (rules.trap ?_) fun _ =>
    rules.forM (fun p => rules.ite rules.pure (rules.trap ?_)) _)
    (rules.forM (fun p => rules.ite rules.pure (rules.trap ?_)) _)
  all_goals
    simp only [String.append_assoc]
    exact TrapKind.blamesCode_append (by decide) (by decide) _

end

end Rules

end Exec

/-! ## Steps -/

/-- Why a function that is called can not be executed. -/
inductive Machine.Refuses (env : Setting) (f : FnId) (span : Span) : Stop → Prop
  | missing (h : ¬ env.code.fns.Has f) : Refuses env f span (.missing f)
  | unfinished (h : (env.code.function f).Unfinished) : Refuses env f span (.postponed f)
  | failed (has : env.code.fns.Has f) (h : (env.code.function f).state = .failed) :
    Refuses env f span (.trap ⟨.incompleteFunction (env.code.function f).name, span⟩)

theorem Machine.Refuses.fair {env f span} {stop : Stop} (h : Refuses env f span stop) : stop.Fair env.code := by
  cases h with
  | missing h => exact h
  | unfinished h => exact h
  | failed has h => exact fun _ => ⟨f, has, h⟩

theorem Machine.callable_cases (env : Setting) (f span) :
    callable env f span = pure (env.code.function f) ∧
        ((env.code.function f).native = none → (env.code.function f).state = .analyzed) ∨
      ∃ stop, callable env f span = throw stop ∧ Refuses env f span stop := by
  by_cases hf : env.code.fns.Has f
  · have hget : env.code.fns.get? f = some (env.code.function f) := Pool.get?_getD hf _
    simp only [callable, hget]
    split
    next hn => exact .inl ⟨rfl, fun hnone => by rw [hnone] at hn; cases hn⟩
    next hn =>
    have hnative : (env.code.function f).native = none := by simpa using hn
    split
    · next hs => exact .inl ⟨rfl, fun _ => hs⟩
    · next hs => exact .inr ⟨_, rfl, .unfinished ⟨hnative, .inl hs⟩⟩
    · next hs => exact .inr ⟨_, rfl, .unfinished ⟨hnative, .inr hs⟩⟩
    · next hs => exact .inr ⟨_, rfl, .failed hf hs⟩
  · have hget : env.code.fns.get? f = none := Pool.get?_eq_none_iff.mpr hf
    simp only [callable, hget]
    exact .inr ⟨_, rfl, .missing hf⟩

/-- Whether the instruction neither accesses memory nor calls. -/
def InstrKind.isLocal : InstrKind → Bool
  | globalPtr _ | load _ | store _ _ | elemPtr _ _ _ | call _ _ => false
  | _ => true

namespace Exec

/-- A property that an instruction has which neither accesses memory nor calls. -/
structure Local (Q : ∀ {α : Type}, Exec α → Prop) : Prop extends Rules Q where
  invalid : ∀ {α : Type} {message : String} {span : Span}, Q (Machine.invalid message span : Exec α)
  setReg : ∀ {i : InstrId} {v : Value}, Q (Machine.setReg i v)
  jump : ∀ {target : BlockId}, Q (Machine.jump target)
  leave : ∀ {v : Value}, Q (Machine.leave v)

/-- A property that an instruction has which does not call. -/
structure Accesses (env : Setting) (Q : ∀ {α : Type}, Exec α → Prop) : Prop extends Local Q where
  load : ∀ {addr : UInt64} {ty : TypeId} {span : Span}, Q (Machine.load env addr ty span)
  store : ∀ {addr : UInt64} {ty : TypeId} {v : Value} {span : Span}, Q (Machine.store env addr ty v span)
  global : ∀ {g : GlobalId} {span : Span}, Q (Machine.globalAddress env g span)

/-- A property that a step has, since all its pieces have it. -/
structure Laws (env : Setting) (Q : ∀ {α : Type}, Exec α → Prop) : Prop extends Accesses env Q where
  throw : ∀ {α : Type} {stop : Stop}, stop.Fair env.code → Q (throw stop : Exec α)
  advance : Q Machine.advance
  push : ∀ {f : FnId} {args : List Value} {result : Option InstrId} {span : Span},
    (env.code.function f).native = none → (env.code.function f).state = .analyzed →
      Q (Machine.pushFrame env (env.code.function f) args result span)

variable {Q : ∀ {α : Type}, Exec α → Prop} {α β : Type} {env : Setting} {span : Span} {id : InstrId}
  {func : Function}

theorem Local.set (h : Local Q) {v : Value} : Q (do Machine.setReg id v; return none : Exec (Option Value)) :=
  h.bind h.setReg fun _ => h.pure

theorem Local.execute (h : Local Q) (isLocal : (func.instr id).kind.isLocal = true) :
    Q (Machine.execute env func id) := by
  have hjump {b : BlockId} : Q (do Machine.jump b; return none : Exec (Option Value)) :=
    h.bind h.jump fun _ => h.pure
  unfold Machine.execute
  dsimp only
  split
  case h_3 hk | h_4 hk | h_5 hk | h_6 hk | h_12 hk =>
    rw [hk] at isLocal
    cases isLocal
  case h_1 => exact h.set
  case h_2 => exact h.bind h.frame fun _ => h.set
  case h_7 => exact h.bind h.memberAddress fun _ => h.set
  case h_8 =>
    exact h.bind h.reg fun _ => h.bind h.reg fun _ =>
      h.bind (h.orTrap (BinaryOp.unblaming_eval ..)) fun _ => h.set
  case h_9 => exact h.bind h.reg fun _ => h.bind (h.orTrap (UnaryOp.unblaming_eval ..)) fun _ => h.set
  case h_10 => exact h.bind h.reg fun _ => h.bind (h.orTrap (CastOp.unblaming_eval ..)) fun _ => h.set
  case h_11 => exact h.bind (h.mapM (fun _ => h.reg) _) fun _ => h.set
  case h_13 => exact hjump
  case h_14 =>
    refine h.bind h.reg fun v => ?_
    split
    · exact hjump
    · exact hjump
    · exact h.invalid
  case h_15 =>
    refine h.bind h.reg fun v => ?_
    split
    · exact hjump
    · exact h.invalid
  case h_16 =>
    refine h.bind h.frame fun f => ?_
    split
    · exact h.bind h.reg fun _ => h.set
    · exact h.invalid
  case h_17 =>
    split
    · exact h.bind h.reg fun _ => h.leave
    · exact h.leave
  case h_18 => exact h.trap rfl
  case h_19 =>
    refine h.bind h.reg fun v => ?_
    split
    · exact h.pure
    · exact h.trap rfl

theorem Accesses.execute (h : Accesses env Q) (noCall : ∀ callee args, (func.instr id).kind ≠ .call callee args) :
    Q (Machine.execute env func id) := by
  cases hk : (func.instr id).kind
  case globalPtr =>
    simp only [Machine.execute, hk]
    exact h.bind h.global fun _ => h.set
  case load =>
    simp only [Machine.execute, hk]
    exact h.bind h.address fun _ => h.bind h.load fun _ => h.set
  case store =>
    simp only [Machine.execute, hk]
    exact h.bind h.address fun _ => h.bind h.reg fun _ => h.bind h.store fun _ => h.pure
  case elemPtr =>
    simp only [Machine.execute, hk]
    exact h.bind (h.elemAddress h.load) fun _ => h.set
  case call => exact absurd hk (noCall _ _)
  all_goals exact h.toLocal.execute (by rw [hk]; rfl)

namespace Laws

private theorem call (laws : Laws env Q) {callee : Callee} {args : List InstrId} :
    Q (Machine.call env id callee args span) := by
  unfold Machine.call
  extract_lets goOn
  have htarget (g : FnId) : Q (goOn g) := by
    dsimp only [goOn]
    rcases Machine.callable_cases env g span with ⟨h, hstate⟩ | ⟨stop, h, hstop⟩ <;> rw [h]
    · rw [pure_bind]
      refine laws.bind (laws.mapM (fun _ => laws.reg) args) fun args => ?_
      cases hn : (env.code.function g).native with
      | some name => exact laws.bind laws.callHost fun _ => laws.setReg
      | none => exact laws.push hn (hstate hn)
    · exact laws.throw hstop.fair
  cases callee with
  | direct g => exact htarget g
  | indirect v =>
    refine laws.bind laws.reg fun v => ?_
    split
    · exact htarget _
    · exact laws.bind (laws.trap rfl) fun g => htarget g
    · exact laws.invalid

private theorem execute (laws : Laws env Q) : Q (Machine.execute env func id) := by
  cases hk : (func.instr id).kind
  case call =>
    simp only [Machine.execute, hk]
    exact laws.bind laws.call fun _ => laws.pure
  all_goals exact laws.toAccesses.execute (by simp [hk])

theorem step (laws : Laws env Q) : Q (Machine.step env) := by
  refine laws.bind laws.frame fun f => ?_
  dsimp only
  split
  · exact laws.bind laws.advance fun _ => laws.execute
  · exact laws.invalid

private theorem loop (laws : Laws env Q) (fuel) : Q (Machine.loop env fuel) := by
  induction fuel with
  | zero => exact laws.throw trivial
  | succ fuel ih =>
    refine laws.bind laws.step fun r => ?_
    split
    · exact laws.pure
    · exact ih

theorem enter (laws : Laws env Q) {args} (push : Q (Machine.pushFrame env func args none func.span)) :
    Q (Machine.enter env func args) := by
  refine laws.bind laws.checkArgs fun _ => ?_
  split
  · exact laws.callHost
  · exact laws.bind push fun _ => laws.loop _

end Laws

def Fair {α : Type} (c : Code) (x : Exec α) : Prop := ∀ m, Meets (Stop.Fair c) x m fun _ _ => True

namespace Fair

variable {α β : Type} {c : Code} {x : Exec α} {k : α → Exec β}

protected theorem pure {a : α} : Fair c (pure a) := fun _ => trivial

protected theorem throw {stop} (h : stop.Fair c) : Fair c (throw stop : Exec α) := fun _ => h

protected theorem trap {kind span} (h : kind.isIncomplete = false) : Fair c (Machine.trap kind span : Exec α) :=
  .throw fun hk => by simp [h] at hk

protected theorem bind (h : Fair c x) (h' : ∀ a, Fair c (k a)) : Fair c (x >>= k) :=
  fun m => (h m).bind fun a m' _ => h' a m'

theorem trapped {kind span} {k : α → Exec β} (h : kind.isIncomplete = false) :
    Fair c (Machine.trap kind span >>= k) := fun _ hk => by simp [h] at hk

protected theorem get : Fair c (get : Exec Machine) := fun _ => trivial

protected theorem modifyGet {f : Machine → α × Machine} : Fair c (modifyGet f) := fun _ => trivial

protected theorem modify {f : Machine → Machine} : Fair c (modify f) := .modifyGet

end Fair

end Exec

namespace Machine

open Exec (Fair)

variable {ty : TypeId} {func : Function} {args : List Value} {α : Type} {env : Setting} {c : Code} {span : Span}

private theorem frame_fair : Fair c frame := Fair.get.bind fun _ => .pure

theorem modifyFrame_fair {f : Frame → Frame} : Fair c (modifyFrame f) := .modify

theorem fair : Exec.Rules (Fair c) where
  pure := .pure
  bind := .bind
  trap h := .trap (Bool.or_eq_false_iff.mp h).1
  frame := frame_fair

private theorem load_fair {addr : UInt64} : Fair c (load env addr ty span) :=
  fair.orNoLayout.bind fun _ => Fair.get.bind fun _ => fair.orTrap (Memory.unblaming_load ..)

theorem store_fair {addr : UInt64} {v : Value} : Fair c (store env addr ty v span) :=
  fair.orNoLayout.bind fun _ => Fair.get.bind fun _ =>
    (fair.orTrap (Memory.unblaming_place ..)).bind fun _ => .modify

private theorem globalAddress_fair {g} : Fair c (globalAddress env g span) := by
  refine Fair.get.bind fun m => ?_
  split
  · exact .pure
  · refine fair.orNoLayout.bind fun _ => Fair.get.bind fun _ => ?_
    have hrest (addr : UInt64) : Fair c (do
        store env addr (env.code.global g).ty (env.code.global g).value span
        modify fun m => { m with globals := (g, addr) :: m.globals }
        return addr) := store_fair.bind fun _ => Fair.modify.bind fun _ => .pure
    exact fair.ite (Fair.modify.bind fun _ => hrest _) (.trapped rfl)

theorem pushFrame_fair {result} : Fair c (pushFrame env func args result span) := by
  refine Fair.get.bind fun _ => Fair.get.bind fun _ => ?_
  refine fair.ite (.trapped rfl) (fair.ite ?_ (.trapped rfl))
  refine Fair.modify.bind fun _ => (fair.forM (fun _ => ?_) _).bind fun _ => .modify
  exact store_fair

theorem fair_accesses : Exec.Accesses env (Fair c) where
  toRules := fair
  invalid := .trap rfl
  setReg := modifyFrame_fair
  jump := modifyFrame_fair
  load := load_fair
  store := store_fair
  global := globalAddress_fair
  leave := .modifyGet

theorem fair_laws : Exec.Laws env (Fair env.code) where
  toAccesses := fair_accesses
  throw := .throw
  advance := modifyFrame_fair
  push _ _ := pushFrame_fair

/-! ## Runs -/

private theorem fair_conclude {x} (h : Fair c x) (m) : (conclude m x).1.Fair c := by
  unfold conclude
  split
  · trivial
  · next hx => exact (h m).of_error hx

theorem fair_runFn (func args m) : (runFn env func args m).1.Fair env.code :=
  fair_conclude (fair_laws.enter pushFrame_fair) _

/-- A run blames nobody without cause. -/
theorem fair_run (f args m) : (run env f args m).1.Fair env.code := by
  have hfair : Fair env.code (callable env f (env.code.function f).span) := by
    rcases callable_cases env f (env.code.function f).span with ⟨h, -⟩ | ⟨stop, h, hstop⟩ <;> rw [h]
    · exact .pure
    · exact .throw hstop.fair
  unfold run
  split
  · exact fair_runFn ..
  · next hx => exact (hfair m).of_error hx

end Machine

end Comptime
