import Comptime.Proofs.Code.Typing
import Comptime.Proofs.List
import Comptime.Proofs.Value.Read

/-!
# Well-typed code

A function is well typed when its instructions are, every block ends in its only terminator, every
register is written before it is read, and phis know all the ways into their block.

What has been written is said by paths. `Function.Path` follows the blocks from the entry and collects
the instructions that it passes, which is what the machine does when it executes the function.
-/

namespace Comptime

namespace InstrKind

variable {k : InstrKind}

/-- The blocks that an instruction leads to. -/
def targets : InstrKind → List BlockId
  | jump target => [target]
  | branch _ yes no => [yes, no]
  | switch _ cases otherwise => otherwise :: cases.map Prod.snd
  | _ => []

/-- The entries of a phi. -/
def incoming? : InstrKind → Option (List (BlockId × InstrId))
  | phi incoming => some incoming
  | _ => none

/-- Whether the instruction calls no function through a value. -/
def isDirect : InstrKind → Bool
  | call (.indirect _) _ => false
  | _ => true

/-- The registers that an instruction reads. A phi reads the one of the block before. -/
def reads (prev : Option BlockId) : InstrKind → List InstrId
  | const _ | slotPtr _ | globalPtr _ | jump _ | unreachable => []
  | load a | memberPtr a _ | unary _ a | cast _ a | branch a _ _ | switch a _ _ | assert a _ => [a]
  | store a b | elemPtr a b _ | binary _ a b => [a, b]
  | compound values => values
  | call (.direct _) args => args
  | call (.indirect v) args => v :: args
  | phi incoming => (prev.bind fun b => incoming.lookup b).toList
  | ret v => v.toList

theorem mem_reads {prev r} (h : r ∈ k.reads prev) :
    r ∈ k.reads none ∨ ∃ incoming ∈ k.incoming?, ∃ b, prev = some b ∧ (b, r) ∈ incoming := by
  cases k with
  | phi incoming =>
    obtain ⟨b, hb, hl⟩ := Option.bind_eq_some_iff.mp (Option.mem_toList.mp h)
    exact .inr ⟨incoming, rfl, b, hb, mem_of_lookup hl⟩
  | call callee args => cases callee <;> exact .inl h
  | _ => exact .inl h

theorem isTerminator_of_mem_targets {b} (h : b ∈ k.targets) : k.isTerminator = true := by
  cases k <;> first | rfl | cases h

theorem Typed.eq_void {t c f ty b} (h : k.Typed t c f ty) (hb : b ∈ k.targets) : ty = .void := by
  cases h <;> first | rfl | cases hb

theorem mem_targets_switch {v cases otherwise} (w) :
    (cases.lookup w).getD otherwise ∈ (InstrKind.switch v cases otherwise).targets := by
  cases hl : cases.lookup w with
  | none => exact List.mem_cons_self
  | some b =>
    exact List.mem_cons_of_mem otherwise (List.mem_map.mpr ⟨(w, b), mem_of_lookup hl, rfl⟩)

end InstrKind

namespace Function

def at? (f : Function) (b : BlockId) (pos : Nat) : Option InstrId := (f.block b).instrs[pos]?

/-- A way through a function from its entry to a place in a block: the block from which that block
was entered, and the instructions on the way, the last one first. -/
inductive Path (f : Function) : BlockId → Nat → Option BlockId → List InstrId → Prop
  | start : Path f entry 0 none []
  | next {b : BlockId} {pos : Nat} {prev : Option BlockId} {passed : List InstrId} {i : InstrId}
    (path : Path f b pos prev passed) (instr : f.at? b pos = some i)
    (goesOn : (f.instr i).kind.isTerminator = false) : Path f b (pos + 1) prev (i :: passed)
  | jump {b target : BlockId} {pos : Nat} {prev : Option BlockId} {passed : List InstrId}
    {i : InstrId} (path : Path f b pos prev passed) (instr : f.at? b pos = some i)
    (leads : target ∈ (f.instr i).kind.targets) : Path f target 0 (some b) (i :: passed)

/-- A block ends in its only terminator. -/
def Terminated (f : Function) (b : BlockId) : Prop :=
  (∃ last ∈ (f.block b).instrs.toList.getLast?, (f.instr last).kind.isTerminator = true) ∧
    ∀ i ∈ (f.block b).instrs.toList.dropLast, (f.instr i).kind.isTerminator = false

instance (f : Function) (b : BlockId) : Decidable (f.Terminated b) :=
  inferInstanceAs (Decidable (_ ∧ _))

/-- What the machine may rely on in a function. -/
structure WellTyped (t : TypeTable) (c : Code) (f : Function) : Prop extends f.Typed t c where
  /-- The parameters are of types that exist. -/
  params : ∀ s ∈ f.paramSlots, t.Has (f.slot s).ty
  /-- No function is called through a value. -/
  direct : ∀ b, ∀ i ∈ (f.block b).instrs, (f.instr i).kind.isDirect = true
  has_entry : f.blocks.Has entry
  has_instr : ∀ b, ∀ i ∈ (f.block b).instrs, f.instrs.Has i
  has_target : ∀ b, ∀ i ∈ (f.block b).instrs, ∀ target ∈ (f.instr i).kind.targets,
    f.blocks.Has target
  terminated : ∀ b, f.blocks.Has b → f.Terminated b
  /-- Every operand is written on every path before it is read. -/
  written : ∀ b pos prev passed i, f.Path b pos prev passed → f.at? b pos = some i →
    ∀ r ∈ (f.instr i).kind.reads prev, r ∈ passed
  /-- A phi lists all predecessors of its block. -/
  phi : ∀ b, ∀ i ∈ (f.block b).instrs, ∀ target ∈ (f.instr i).kind.targets,
    ∀ j ∈ (f.block target).instrs, ∀ incoming ∈ (f.instr j).kind.incoming?,
      (incoming.lookup b).isSome = true
  /-- The entry is also entered from outside, which no phi can list. -/
  entry_phi : ∀ i ∈ (f.block entry).instrs, (f.instr i).kind.incoming? = none

/-! ## Paths -/

section

variable {t : TypeTable} {c : Code} {f : Function} {b : BlockId} {pos : Nat}
  {prev : Option BlockId} {passed : List InstrId} {i : InstrId}

theorem mem_of_at? (h : f.at? b pos = some i) : i ∈ (f.block b).instrs :=
  Array.mem_of_getElem? h

theorem has_of_mem (h : i ∈ (f.block b).instrs) : f.blocks.Has b := by
  refine Decidable.byContradiction fun hn => ?_
  rw [block, Pool.getD_of_not_has hn] at h
  exact absurd h (Array.not_mem_empty i)

theorem Terminated.at?_zero (h : f.Terminated b) : ∃ i, f.at? b 0 = some i := by
  obtain ⟨⟨last, hlast, -⟩, -⟩ := h
  have hmem : last ∈ (f.block b).instrs := Array.mem_toList_iff.mp (List.mem_of_getLast? hlast)
  exact ⟨_, Array.getElem?_eq_getElem (Array.size_pos_of_mem hmem)⟩

theorem Terminated.split (h : f.Terminated b) (hi : f.at? b pos = some i) :
    ((f.instr i).kind.isTerminator = false ∧ ∃ j, f.at? b (pos + 1) = some j) ∨
      ((f.instr i).kind.isTerminator = true ∧
        (f.block b).instrs.toList = (f.block b).instrs.toList.take pos ++ [i]) := by
  obtain ⟨⟨last, hlast, hterm⟩, hbefore⟩ := h
  have hinstrs := List.dropLast_append_getLast? last hlast
  generalize (f.block b).instrs.toList.dropLast = before at hinstrs hbefore
  simp only [at?, ← Array.getElem?_toList, ← hinstrs] at hi ⊢
  rcases Nat.lt_trichotomy pos before.length with hlt | rfl | hgt
  · rw [List.getElem?_append_left hlt] at hi
    refine .inl ⟨hbefore i (List.mem_of_getElem? hi), _, List.getElem?_eq_getElem ?_⟩
    rw [List.length_append, List.length_singleton]
    omega
  · rw [List.getElem?_concat_length] at hi
    cases hi
    exact .inr ⟨hterm, by simp⟩
  · rw [List.getElem?_eq_none (by rw [List.length_append, List.length_singleton]; omega)] at hi
    cases hi

theorem Path.at? (h : f.Path b pos prev passed) (hentry : f.blocks.Has entry)
    (htarget : ∀ b, ∀ i ∈ (f.block b).instrs, ∀ target ∈ (f.instr i).kind.targets, f.blocks.Has target)
    (hterm : ∀ b, f.blocks.Has b → f.Terminated b) : ∃ i, f.at? b pos = some i := by
  induction h with
  | start => exact (hterm entry hentry).at?_zero
  | @next b pos _ _ i _ hi hn _ =>
    rcases (hterm b (has_of_mem (mem_of_at? hi))).split hi with ⟨-, hnext⟩ | ⟨hlast, -⟩
    · exact hnext
    · rw [hlast] at hn
      cases hn
  | jump _ hi ht _ => exact (hterm _ (htarget _ _ (mem_of_at? hi) _ ht)).at?_zero

theorem WellTyped.path_at? (hf : f.WellTyped t c) (h : f.Path b pos prev passed) :
    ∃ i, f.at? b pos = some i := h.at? hf.has_entry hf.has_target hf.terminated

theorem Path.entered (h : f.Path b pos prev passed) :
    prev = none ∧ b = entry ∨ ∃ before j, prev = some before ∧ j ∈ (f.block before).instrs ∧
      b ∈ (f.instr j).kind.targets := by
  induction h with
  | start => exact .inl ⟨rfl, rfl⟩
  | next _ _ _ ih => exact ih
  | jump _ hi ht _ => exact .inr ⟨_, _, rfl, mem_of_at? hi, ht⟩

theorem WellTyped.phi_isSome (hf : f.WellTyped t c) (h : f.Path b pos prev passed) (hi : f.at? b pos = some i)
    {incoming} (hk : (f.instr i).kind = .phi incoming) : ∃ v, (prev.bind fun b => incoming.lookup b) = some v := by
  have hincoming : (f.instr i).kind.incoming? = some incoming := by rw [hk]; rfl
  rcases h.entered with ⟨rfl, rfl⟩ | ⟨before, j, rfl, hj, ht⟩
  · rw [hf.entry_phi i (mem_of_at? hi)] at hincoming
    cases hincoming
  · have hsome := hf.phi before j hj b ht i (mem_of_at? hi) incoming hincoming
    exact Option.isSome_iff_exists.mp hsome

/-! ## Certificates -/

/-- What has been executed whenever a block is entered, as far as it is needed. -/
structure Available (f : Function) (available : BlockId → List InstrId) : Prop where
  entry : available entry = []
  edge : ∀ b, ∀ i ∈ (f.block b).instrs, ∀ target ∈ (f.instr i).kind.targets,
    available target ⊆ (f.block b).instrs.toList ++ available b
  reads : ∀ b, f.blocks.Has b → ∀ p ∈ (f.block b).instrs.toList.zipIdx,
    ∀ r ∈ (f.instr p.1).kind.reads none, r ∈ (f.block b).instrs.toList.take p.2 ++ available b
  incoming : ∀ b, ∀ i ∈ (f.block b).instrs, ∀ incoming ∈ (f.instr i).kind.incoming?,
    ∀ p ∈ incoming, p.2 ∈ (f.block p.1).instrs.toList ++ available p.1

theorem Path.available {available : BlockId → List InstrId} (ha : f.Available available)
    (hterm : ∀ b, f.blocks.Has b → f.Terminated b) (h : f.Path b pos prev passed) :
    (f.block b).instrs.toList.take pos ++ available b ⊆ passed ∧
      ∀ p, prev = some p → (f.block p).instrs.toList ++ available p ⊆ passed := by
  -- the instruction that is passed stands behind those that were passed before
  have hpass {l before passed : List InstrId} {i : InstrId} (h : before ++ l ⊆ passed) :
      (before ++ [i]) ++ l ⊆ i :: passed := by
    intro r hr
    have hr : r = i ∨ r ∈ before ++ l := by
      simp only [List.mem_append, List.mem_singleton] at hr ⊢
      tauto
    exact hr.elim (fun hr => hr ▸ List.mem_cons_self) fun hr => List.mem_cons_of_mem _ (h hr)
  induction h with
  | start => simp [ha.entry]
  | @next b pos prev passed i _ hi _ ih =>
    refine ⟨?_, fun p hp => List.Subset.trans (ih.2 p hp) (List.subset_cons_self i passed)⟩
    have hat : (f.block b).instrs.toList[pos]? = some i := Array.getElem?_toList.trans hi
    rw [List.take_add_one, hat]
    exact hpass ih.1
  | @jump b target pos prev passed i _ hi ht ih =>
    have hall : (f.block b).instrs.toList ++ available b ⊆ i :: passed := by
      rcases (hterm b (has_of_mem (mem_of_at? hi))).split hi with ⟨hn, -⟩ | ⟨-, hlast⟩
      · rw [InstrKind.isTerminator_of_mem_targets ht] at hn
        cases hn
      · rw [hlast]
        exact hpass ih.1
    refine ⟨?_, fun p hp => Option.some.inj hp ▸ hall⟩
    rw [List.take_zero, List.nil_append]
    exact List.Subset.trans (ha.edge b i (mem_of_at? hi) target ht) hall

theorem Available.written {available : BlockId → List InstrId} (ha : f.Available available)
    (hterm : ∀ b, f.blocks.Has b → f.Terminated b) (h : f.Path b pos prev passed) (hi : f.at? b pos = some i) (r)
    (hr : r ∈ (f.instr i).kind.reads prev) : r ∈ passed := by
  obtain ⟨hbefore, hprev⟩ := h.available ha hterm
  rcases InstrKind.mem_reads hr with hr | ⟨incoming, hincoming, p, hp, hr⟩
  · have hat : (f.block b).instrs.toList[pos]? = some i := Array.getElem?_toList.trans hi
    have hb := has_of_mem (mem_of_at? hi)
    exact hbefore (ha.reads b hb (i, pos) (List.mk_mem_zipIdx_iff_getElem?.mpr hat) r hr)
  · exact hprev p hp (ha.incoming b i (mem_of_at? hi) incoming hincoming _ hr)

theorem forall_block {P : BlockId → Prop} (h : ∀ n < f.blocks.size, P ⟨n⟩) (b) (hb : f.blocks.Has b) : P b :=
  h b.index hb

theorem forall_instr {P : BlockId → InstrId → Prop} (h : ∀ n < f.blocks.size, ∀ i ∈ (f.block ⟨n⟩).instrs, P ⟨n⟩ i) (b) :
    ∀ i ∈ (f.block b).instrs, P b i :=
  fun i hi => h b.index (has_of_mem hi) i hi

end

end Function

/-- What the machine may rely on in its setting. -/
structure Setting.WellTyped (env : Setting) : Prop where
  standard : env.types.Standard
  /-- Pointers lead to types that exist. -/
  pointee : ∀ {ty target}, env.types.kind ty = .ptr target → env.types.Has target
  /-- Every type has a layout. -/
  layout : ∀ ty, env.types.Has ty → ∃ l, env.types.layout ty = .ok l
  /-- Every function that can be executed is well typed. -/
  function : ∀ f, (env.code.function f).native = none → (env.code.function f).state = .analyzed →
    (env.code.function f).WellTyped env.types env.code

theorem Setting.WellTyped.shape {env : Setting} (h : env.WellTyped) {ty} (hty : env.types.Has ty) :
    ∃ s, env.types.shape ty = .ok s := by
  obtain ⟨l, hl⟩ := h.layout ty hty
  obtain ⟨s, hs, -⟩ := map_eq_ok.mp hl
  exact ⟨s, hs⟩

end Comptime
