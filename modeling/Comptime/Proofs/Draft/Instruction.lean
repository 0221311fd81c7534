import Comptime.Proofs.Draft.Graph

/-!
# Writing instructions into a graph

An instruction may be written if its operands have been computed and the blocks that it leads to are new or
lie behind (`Draft.Admits`). Then the draft stays in order. Main results: `Regular.emit` for instructions
that lead nowhere, `Regular.emitExit` and `Regular.jump` for those that lead to other blocks, and
`Regular.emitPhi` for the places where ways meet.
-/

namespace Comptime.Draft

variable {d d' d0 : Draft} {a b : BlockId} {i : InstrId} {owed reachable : List BlockId} {kind : InstrKind}
  {ty : TypeId} {span : Span} {func : Function}

/-- The draft with one more instruction in its current block and with other marks. -/
def write (d : Draft) (kind : InstrKind) (ty : TypeId) (span : Span) (reachable : List BlockId) : Draft :=
  { d with func := d.func.append ⟨kind, ty, span, d.current⟩, reachable }

/-! ## One more instruction -/

theorem has_write : (d.write kind ty span reachable).func.instrs.Has i ↔
    d.func.instrs.Has i ∨ i = d.func.instrs.nextId := Pool.has_push

theorem instr_write (h : d.func.instrs.Has i) :
    (d.write kind ty span reachable).func.instr i = d.func.instr i := Pool.getD_push_of_has h _ _

theorem instr_write_new : (d.write kind ty span reachable).func.instr d.func.instrs.nextId =
    ⟨kind, ty, span, d.current⟩ := (Pool.getD_push ..).trans (if_pos rfl)

theorem block_write_of_ne (h : b ≠ d.current) :
    (d.write kind ty span reachable).func.block b = d.func.block b := Pool.getD_modify_of_ne h _ _

theorem block_write (h : d.func.blocks.Has d.current) :
    ((d.write kind ty span reachable).func.block d.current).instrs =
      (d.func.block d.current).instrs.push d.func.instrs.nextId :=
  congrArg Block.instrs (Pool.getD_modify_self h _ _)

theorem mem_write (h : d.func.blocks.Has d.current) :
    i ∈ ((d.write kind ty span reachable).func.block b).instrs ↔
      i ∈ (d.func.block b).instrs ∨ b = d.current ∧ i = d.func.instrs.nextId := by
  by_cases hb : b = d.current
  · subst hb
    rw [block_write h, Array.mem_push]
    simp
  · rw [block_write_of_ne hb]
    simp [hb]

theorem edge_write (h : d.Regular owed) : (d.write kind ty span reachable).func.Edge a b ↔
    d.func.Edge a b ∨ a = d.current ∧ b ∈ kind.targets := by
  constructor
  · rintro ⟨i, hi, ht⟩
    rcases (mem_write h.here).mp hi with hold | ⟨rfl, rfl⟩
    · rw [instr_write (h.orderly.listed i hold).1] at ht
      exact .inl ⟨i, hold, ht⟩
    · rw [instr_write_new] at ht
      exact .inr ⟨rfl, ht⟩
  · rintro (⟨i, hi, ht⟩ | ⟨rfl, ht⟩)
    · refine ⟨i, (mem_write h.here).mpr (.inl hi), ?_⟩
      rw [instr_write (h.orderly.listed i hi).1]
      exact ht
    · refine ⟨_, (mem_write h.here).mpr (.inr ⟨rfl, rfl⟩), ?_⟩
      rw [instr_write_new]
      exact ht

theorem grows_write (h : d.isTerminated = false) (marks : ∀ b ∈ d.reachable, b ∈ reachable) :
    d.Grows (d.write kind ty span reachable) :=
  { grows_append h kind ty span with reachable := fun hb => marks _ hb }

theorem goesOn_of_open (hd : d.func.Orderly) (h : d.isTerminated = false) :
    ∀ i ∈ (d.func.block d.current).instrs.toList, (d.func.instr i).kind.isTerminator = false := by
  intro i hi
  have hne : (d.func.block d.current).instrs.toList ≠ [] := List.ne_nil_of_mem hi
  rw [← List.dropLast_append_getLast hne] at hi
  rcases List.mem_append.mp hi with hbefore | hlast
  · exact hd.goesOn _ i hbefore
  · obtain rfl := List.mem_singleton.mp hlast
    have hmem := List.getLast_mem hne
    generalize hj : (d.func.block d.current).instrs.toList.getLast hne = j at hmem ⊢
    have hback : (d.func.block d.current).instrs.back? = some j := by
      rw [← Array.getLast?_toList, List.getLast?_eq_some_getLast hne, hj]
    have hhas := (hd.listed j (Array.mem_toList_iff.mp hmem)).1
    rw [isTerminated, Function.terminator?, hback, Option.bind_eq_bind, Option.bind_some,
      Pool.get?_getD hhas default, Option.bind_eq_bind, Option.bind_some] at h
    by_contra hterm
    have hterm : (d.func.instrs.getD j default).kind.isTerminator = true := eq_true_of_ne_false hterm
    rw [hterm, if_pos rfl] at h
    cases h

/-! ## What an instruction needs -/

/-- The instruction may be written at the current place. -/
structure Admits (d : Draft) (kind : InstrKind) : Prop where
  reads : ∀ r ∈ kind.reads none, d.Offers r
  target : ∀ {b}, b ∈ kind.targets → d.Reserves b ∨ d.Heads b
  incoming : ∀ l ∈ kind.incoming?, d.current ≠ Function.entry ∧
    (∀ a, d.func.Edge a d.current ↔ a ∈ l.map Prod.fst) ∧
    ∀ p ∈ l, d.func.instrs.Has p.2 ∧ d.func.Dominates (d.func.instr p.2).block p.1
  result : kind = .ret none → d.func.ret = .void

theorem Admits.branches (ha : d.Admits kind) (h : d.Regular owed) :
    d.func.Branches (d.write kind ty span reachable).func d.current kind.targets d.Reserves where
  edge hedge := (edge_write h).mp hedge
  target hb := (ha.target hb).imp_right Heads.dominates
  unwritten {a b} hwaits hedge := by
    rcases (edge_write h).mp hedge with ⟨i, hi, -⟩ | ⟨rfl, -⟩
    · rw [hwaits.empty] at hi
      exact Array.not_mem_empty i hi
    · exact hwaits.waits rfl

theorem Admits.preserves (ha : d.Admits kind) (h : d.Regular owed) : d.Preserves (d.write kind ty span reachable) :=
  fun hb hx => (ha.branches h).dominates hx fun hr => not_stands_of_reserves hr hb

theorem stands_of_mem (h : i ∈ (d.func.block b).instrs) : d.Stands b := by
  refine ⟨Function.has_of_mem h, .inr fun hempty => ?_⟩
  rw [hempty] at h
  exact Array.not_mem_empty i h

theorem stands_of_edge (h : d.func.Edge a b) : d.Stands a := by
  obtain ⟨i, hi, -⟩ := h
  exact stands_of_mem hi

theorem Admits.orderly (ha : d.Admits kind) (h : d.Regular owed) (hopen : d.isTerminated = false) :
    (d.write kind ty span reachable).func.Orderly := by
  have hp : d.Preserves (d.write kind ty span reachable) := ha.preserves h
  have hless {i : InstrId} (hi : d.func.instrs.Has i) : i.index < d.func.instrs.nextId.index := hi
  have hof {i j : InstrId} (hij : i.index < j.index) (hj : d.func.instrs.Has j) : d.func.instrs.Has i :=
    Nat.lt_trans hij hj
  constructor
  case listed =>
    intro b i hi
    rcases (mem_write h.here).mp hi with hold | ⟨rfl, rfl⟩
    · obtain ⟨hhas, hblock⟩ := h.orderly.listed i hold
      rw [instr_write hhas]
      exact ⟨has_write.mpr (.inl hhas), hblock⟩
    · rw [instr_write_new]
      exact ⟨has_write.mpr (.inr rfl), rfl⟩
  case filed =>
    intro i hi
    rcases has_write.mp hi with hold | rfl
    · rw [instr_write hold]
      exact (mem_write h.here).mpr (.inl (h.orderly.filed hold))
    · rw [instr_write_new]
      exact (mem_write h.here).mpr (.inr ⟨rfl, rfl⟩)
  case ascending =>
    intro b
    by_cases hb : b = d.current
    · subst hb
      rw [block_write h.here, Array.toList_push, List.pairwise_append]
      refine ⟨h.orderly.ascending _, List.pairwise_singleton _ _, fun i hi j hj => ?_⟩
      obtain rfl := List.mem_singleton.mp hj
      exact hless (h.orderly.listed i (Array.mem_toList_iff.mp hi)).1
    · rw [block_write_of_ne hb]
      exact h.orderly.ascending b
  case goesOn =>
    intro b i hi
    by_cases hb : b = d.current
    · subst hb
      rw [block_write h.here, Array.toList_push, List.dropLast_concat] at hi
      rw [instr_write (h.orderly.listed i (Array.mem_toList_iff.mp hi)).1]
      exact goesOn_of_open h.orderly hopen i hi
    · rw [block_write_of_ne hb] at hi
      have hmem := Array.mem_toList_iff.mp (List.dropLast_subset _ hi)
      rw [instr_write (h.orderly.listed i hmem).1]
      exact h.orderly.goesOn b i hi
  case target =>
    intro a b hedge
    refine Pool.has_modify.mpr ?_
    rcases (edge_write h).mp hedge with hold | ⟨-, ht⟩
    · exact h.orderly.target hold
    · exact (ha.target ht).elim Reserves.has Heads.has
  case operand =>
    intro i hi r hr
    rcases has_write.mp hi with hold | rfl
    · rw [instr_write hold] at hr ⊢
      obtain ⟨hlt, hdom⟩ := h.orderly.operand hold r hr
      rw [instr_write (hof hlt hold)]
      exact ⟨hlt, hp (stands_of_mem (h.orderly.filed hold)) hdom⟩
    · rw [instr_write_new] at hr ⊢
      have hoffer := ha.reads r hr
      rw [instr_write hoffer.has]
      exact ⟨hless hoffer.has, hp h.stands hoffer.dominates⟩
  case incoming =>
    intro i hi l hl p hmem
    rcases has_write.mp hi with hold | rfl
    · rw [instr_write hold] at hl
      obtain ⟨hlt, hdom⟩ := h.orderly.incoming hold l hl p hmem
      have hedge := ((h.orderly.merges hold l hl).2 p.1).mpr (List.mem_map_of_mem hmem)
      rw [instr_write (hof hlt hold)]
      exact ⟨hlt, hp (stands_of_edge hedge) hdom⟩
    · rw [instr_write_new] at hl
      obtain ⟨-, hedges, hvalues⟩ := ha.incoming l hl
      obtain ⟨hhas, hdom⟩ := hvalues p hmem
      rw [instr_write hhas]
      exact ⟨hless hhas, hp (stands_of_edge ((hedges p.1).mpr (List.mem_map_of_mem hmem))) hdom⟩
  case merges =>
    intro i hi l hl
    rcases has_write.mp hi with hold | rfl
    · rw [instr_write hold] at hl ⊢
      obtain ⟨hentry, hedges⟩ := h.orderly.merges hold l hl
      refine ⟨hentry, fun a => ?_⟩
      rw [edge_write h, ← hedges a]
      -- no edge leads to where a phi is
      refine ⟨fun hedge => hedge.resolve_right ?_, .inl⟩
      rintro ⟨-, ht⟩
      have hfiled := h.orderly.filed hold
      rcases ha.target ht with hwaits | hhead
      · rw [hwaits.empty] at hfiled
        exact Array.not_mem_empty i hfiled
      · rw [hhead.noPhi i hfiled] at hl
        cases hl
    · rw [instr_write_new] at hl ⊢
      obtain ⟨hentry, hedges, -⟩ := ha.incoming l hl
      refine ⟨hentry, fun a => ?_⟩
      rw [edge_write h, ← hedges a]
      refine ⟨fun hedge => hedge.resolve_right ?_, .inl⟩
      rintro ⟨-, ht⟩
      cases kind <;> first | cases ht | cases hl

theorem Regular.write (h : d.Regular owed) (ha : d.Admits kind) (hopen : d.isTerminated = false)
    (marks : ∀ b ∈ d.reachable, b ∈ reachable)
    (marked : d.func.Reached d.current → ∀ b ∈ kind.targets, b ∈ reachable) :
    (d.write kind ty span reachable).Regular owed := by
  have g : d.Grows (d.write kind ty span reachable) := grows_write hopen marks
  exact {
    orderly := ha.orderly h hopen
    entry := g.blocks h.entry
    here := g.here h.here
    marked := fun hb => by
      rcases (ha.branches h).reached hb with hold | ⟨ht, hcur⟩
      · exact marks _ (h.marked hold)
      · exact marked hcur _ ht
    ended := fun {b} hb hne hn => by
      refine g.func.terminator? (block_write_of_ne hne) (h.ended ?_ hne hn)
      exact Pool.has_modify.mp hb
    next := fun l hl => (h.next l hl).grows h g (ha.preserves h)
    stop := fun l hl => (h.stop l hl).grows g
    result := fun hi hk => by
      rcases has_write.mp hi with hold | rfl
      · rw [instr_write hold] at hk
        exact h.result hold hk
      · rw [instr_write_new] at hk
        exact ha.result hk }

theorem Advances.write (g : d0.Advances d) (h : d.Regular owed) (ha : d.Admits kind)
    (hopen : d.isTerminated = false) (marks : ∀ b ∈ d.reachable, b ∈ reachable)
    (ahead : ∀ b ∈ kind.targets, ¬ d0.func.blocks.Has b ∨ d0.Exits b)
    (phi : kind.incoming? ≠ none → ¬ d0.func.blocks.Has d.current) :
    d0.Advances (d.write kind ty span reachable) where
  toGrows := g.toGrows.trans (grows_write hopen marks)
  left := by
    rcases g.left with heq | hne
    · exact .inl heq
    · exact .inr ((grows_write hopen marks).nonempty hne)
  dominates hb hx := ha.preserves h (g.stands hb) (g.dominates hb hx)
  edge hedge := by
    rcases (edge_write h).mp hedge with hold | ⟨-, ht⟩
    · exact g.edge hold
    · exact .inr (ahead _ ht)
  phi {b i} hb hi := by
    rcases (mem_write h.here).mp hi with hold | ⟨rfl, rfl⟩
    · rw [instr_write (h.orderly.listed i hold).1]
      exact g.phi hb hold
    · rw [instr_write_new]
      exact .inr (Decidable.byContradiction fun hn => phi hn hb)

/-! ## Instructions that lead nowhere -/

theorem emit_ready (d : Draft) (kind ty span) : d.emit kind ty span = d.ready.emit kind ty span := by
  rw [emit_of_open d.isTerminated_ready]
  rfl

/-- Writing an instruction that leads nowhere. -/
theorem Regular.emit (h : d.Regular owed) (g : d0.Advances d) (reads : ∀ r ∈ kind.reads none, d.Offers r)
    (targets : kind.targets = []) (phi : kind.incoming? = none) (result : kind = .ret none → d.func.ret = .void)
    (ty span) : (d.emit kind ty span).1.Regular owed ∧ d0.Advances (d.emit kind ty span).1 := by
  obtain ⟨hready, hadvances⟩ := h.ready
  have hadmits : d.ready.Admits kind := by
    refine ⟨fun r hr => (reads r hr).advances h hadvances, fun {b} hb => ?_, fun l hl => ?_, fun hk => ?_⟩
    · rw [targets] at hb
      cases hb
    · rw [phi] at hl
      cases hl
    · rw [hadvances.func.ret]
      exact result hk
  have hnone {P : BlockId → Prop} : ∀ b ∈ kind.targets, P b := by
    rw [targets]
    exact fun b hb => by cases hb
  refine ⟨hready.write hadmits d.isTerminated_ready (fun _ hb => hb) fun _ => hnone, ?_⟩
  exact (g.trans hadvances h.orderly).write hready hadmits d.isTerminated_ready (fun _ hb => hb) hnone
    fun hn => absurd phi hn

theorem offers_emit (d : Draft) (kind ty span) : (d.emit kind ty span).1.Offers (d.emit kind ty span).2 := by
  refine ⟨d.ready.func.instrs.has_push_nextId _, ?_⟩
  have hinstr : (d.emit kind ty span).1.func.instr (d.emit kind ty span).2 =
      ⟨kind, ty, span, d.ready.current⟩ := instr_write_new
  rw [hinstr]
  exact .refl _ _

theorem open_emit (here : d.func.blocks.Has d.current) (goesOn : kind.isTerminator = false) (ty span) :
    (d.emit kind ty span).1.Open := by
  rw [emit_ready]
  exact Open.emit ⟨d.isTerminated_ready, d.grows_ready.here here⟩ goesOn ty span

theorem isTerminated_emit (here : d.func.blocks.Has d.current) (ends : kind.isTerminator = true) (ty span) :
    (d.emit kind ty span).1.isTerminated = true := by
  obtain ⟨hcur, -, hpush, hinstr⟩ :=
    emit_open d.isTerminated_ready (d.grows_ready.here here) kind ty span
  rw [emit_ready, isTerminated, Function.terminator?, hcur, hpush, Array.back?_push, Option.bind_eq_bind,
    Option.bind_some, hinstr, Option.bind_eq_bind, Option.bind_some, if_pos ends]
  rfl

/-! ## Instructions that lead to other blocks -/

theorem mem_marks {targets : List BlockId} (hopen : d.isTerminated = false)
    (here : d.current ∈ d.reachable) : ∀ b ∈ targets, b ∈ (targets.foldl mark d).reachable := by
  induction targets generalizing d with
  | nil => exact fun b hb => by cases hb
  | cons target targets ih =>
    have hmark : d.mark target = { d with reachable := target :: d.reachable } := by
      simp [mark, isReachable, hopen, here]
    rw [List.foldl_cons, hmark]
    intro b hb
    rcases List.mem_cons.mp hb with rfl | hb
    · obtain ⟨reachable, hmarks, hmem⟩ := marks_eq targets { d with reachable := b :: d.reachable }
      rw [hmarks]
      exact hmem b List.mem_cons_self
    · exact ih (d := { d with reachable := target :: d.reachable }) hopen (List.mem_cons_of_mem target here) b hb

private theorem marks_of_ended (h : d.isTerminated = true) (targets : List BlockId) : targets.foldl mark d = d := by
  induction targets with
  | nil => rfl
  | cons target targets ih =>
    have hmark : d.mark target = d := by simp [mark, h]
    rw [List.foldl_cons, hmark, ih]

/-- Writing an exit to new blocks or loops around it. -/
theorem Regular.emitExit (h : d.Regular owed) (g : d0.Advances d) (reads : ∀ r ∈ kind.reads none, d.Offers r)
    {targets} (marks : ∀ b ∈ kind.targets, b ∈ targets) (target : ∀ b ∈ kind.targets, d.Reserves b ∨ d.Heads b)
    (ahead : ∀ b ∈ kind.targets, ¬ d0.func.blocks.Has b ∨ d0.Exits b) (phi : kind.incoming? = none)
    (result : kind ≠ .ret none) (span) :
    (d.emitExit kind targets span).Regular owed ∧ d0.Advances (d.emitExit kind targets span) ∧
      d.Preserves (d.emitExit kind targets span) := by
  have hphi {d : Draft} (hn : kind.incoming? ≠ none) : ¬ d0.func.blocks.Has d.current := absurd phi hn
  have hincoming {d : Draft} : ∀ l ∈ kind.incoming?, d.current ≠ Function.entry ∧
      (∀ a, d.func.Edge a d.current ↔ a ∈ l.map Prod.fst) ∧
      ∀ p ∈ l, d.func.instrs.Has p.2 ∧ d.func.Dominates (d.func.instr p.2).block p.1 := by
    rw [phi]
    exact fun l hl => by cases hl
  cases hended : d.isTerminated with
  | false =>
    obtain ⟨reachable, hmarks, hmem⟩ := marks_eq targets d
    have hwrite : d.emitExit kind targets span = d.write kind .void span reachable := by
      have hopen : { d with reachable }.isTerminated = false := hended
      rw [Draft.emitExit, hmarks, emit_of_open hopen]
      rfl
    have hadmits : d.Admits kind := ⟨reads, fun hb => target _ hb, hincoming, fun hk => absurd hk result⟩
    rw [hwrite]
    refine ⟨h.write hadmits hended hmem fun hcur b hb => ?_,
      g.write h hadmits hended hmem ahead hphi, hadmits.preserves h⟩
    have hmark := mem_marks hended (h.marked hcur) b (marks b hb)
    rw [hmarks] at hmark
    exact hmark
  | true =>
    obtain ⟨hready, hadvances⟩ := h.ready
    have hwrite : d.emitExit kind targets span = d.ready.write kind .void span d.ready.reachable := by
      rw [Draft.emitExit, marks_of_ended hended]
      rfl
    have hadmits : d.ready.Admits kind := by
      refine ⟨fun r hr => (reads r hr).advances h hadvances, fun hb => ?_, hincoming, fun hk => absurd hk result⟩
      exact (target _ hb).imp (·.grows hadvances.toGrows) (·.grows h hadvances.toGrows hadvances.dominates)
    rw [hwrite]
    refine ⟨hready.write hadmits d.isTerminated_ready (fun _ hb => hb) fun hcur => ?_, ?_, fun hb hx => ?_⟩
    · exact absurd hcur (h.unentered_ready hended).not_reached
    · exact (g.trans hadvances h.orderly).write hready hadmits d.isTerminated_ready (fun _ hb => hb) ahead hphi
    · exact hadmits.preserves hready (hadvances.stands hb) (hadvances.dominates hb hx)

theorem edge_emitExit (h : d.Regular owed) (hopen : d.isTerminated = false) (targets span) :
    (d.emitExit kind targets span).func.Edge a b ↔ d.func.Edge a b ∨ a = d.current ∧ b ∈ kind.targets := by
  obtain ⟨reachable, hwrite⟩ := emitExit_of_open hopen kind targets span
  rw [hwrite]
  exact edge_write h

theorem isTerminated_emitExit (here : d.func.blocks.Has d.current) (ends : kind.isTerminator = true) (targets span) :
    (d.emitExit kind targets span).isTerminated = true := by
  obtain ⟨reachable, hmarks, -⟩ := marks_eq targets d
  rw [emitExit, hmarks]
  exact isTerminated_emit (d := { d with reachable }) here ends .void span

/-- Writing a jump to a block that waits or begins a loop. -/
theorem Regular.jump (h : d.Regular owed) (g : d0.Advances d) (target : d.Reserves b ∨ d.Heads b)
    (ahead : ¬ d0.func.blocks.Has b ∨ d0.Exits b) (span) :
    (d.jump b span).Regular owed ∧ d0.Advances (d.jump b span) ∧ d.Preserves (d.jump b span) := by
  unfold Draft.jump
  split
  · exact ⟨h, g, fun _ hx => hx⟩
  · have htargets {P : BlockId → Prop} (hb : P b) : ∀ x ∈ (InstrKind.jump b).targets, P x := by
      intro x hx
      rw [List.mem_singleton.mp hx]
      exact hb
    exact h.emitExit g (fun r hr => by cases hr) (fun x hx => hx) (htargets target) (htargets ahead) rfl
      (by simp) span

theorem isTerminated_jump (here : d.func.blocks.Has d.current) (b span) : (d.jump b span).isTerminated = true := by
  unfold Draft.jump
  split
  · next hended => exact hended
  · exact isTerminated_emitExit here rfl _ span

/-! ## Where ways meet -/

/-- Writing a choice where ways meet. -/
theorem Regular.emitPhi (h : d.Regular owed) (g : d0.Advances d) (hopen : d.isTerminated = false) {incoming}
    (edges : ∀ a, d.func.Edge a d.current ↔ a ∈ incoming.map Prod.fst)
    (values : ∀ p ∈ incoming, d.func.instrs.Has p.2 ∧ d.func.Dominates (d.func.instr p.2).block p.1)
    (h0 : d0.Regular owed) (hnew : ¬ d0.func.blocks.Has d.current) (ty span) :
    (d.emit (.phi incoming) ty span).1.Regular owed ∧ d0.Advances (d.emit (.phi incoming) ty span).1 := by
  have hadmits : d.Admits (.phi incoming) := by
    constructor
    case reads => exact fun r hr => by cases hr
    case target => exact fun hb => by cases hb
    case incoming =>
      rintro l ⟨rfl⟩
      exact ⟨(h0.unentered hnew).ne_entry, edges, values⟩
    case result => exact fun hk => by cases hk
  have hnone {P : BlockId → Prop} : ∀ b ∈ (InstrKind.phi incoming).targets, P b := fun b hb => by cases hb
  have hwrite : (d.emit (.phi incoming) ty span).1 = d.write (.phi incoming) ty span d.reachable := by
    rw [emit_of_open hopen]
    rfl
  rw [hwrite]
  exact ⟨h.write hadmits hopen (fun _ hb => hb) fun _ => hnone,
    g.write h hadmits hopen (fun _ hb => hb) hnone fun _ => hnew⟩

section

variable {cond rhs : InstrId} {decided : Bool}

theorem Regular.divide (h0 : d0.Regular owed) (g : d0.Advances d) {owed' owed''} (h : d.Regular owed')
    (howed : ∀ x ∈ owed', x = b ∨ x ∈ owed'') (reads : ∀ r ∈ kind.reads none, d.Offers r) {targets}
    (marks : ∀ b ∈ kind.targets, b ∈ targets) (waits : ∀ b ∈ kind.targets, d.Reserves b)
    (new : ∀ b ∈ kind.targets, ¬ d0.func.blocks.Has b) (ends : kind.isTerminator = true) (result : kind ≠ .ret none)
    (hb : b ∈ kind.targets) (span) :
    Regular owed'' { d.emitExit kind targets span with current := b } ∧
      d0.Advances { d.emitExit kind targets span with current := b } := by
  have phi : kind.incoming? = none := by cases kind <;> first | rfl | cases hb
  obtain ⟨hexit, hexits, -⟩ := h.emitExit g reads marks (fun b hb => .inl (waits b hb))
    (fun b hb => .inl (new b hb)) phi result span
  have hended := isTerminated_emitExit h.here ends targets span
  have hhas := (d.grows_emitExit kind targets span).blocks (waits b hb).has
  exact ⟨hexit.goOn h0 hexits hended (new b hb) hhas howed, hexits.moveTo hended (new b hb) hhas⟩

private theorem fork_marks (d : Draft) (decided cond span) :
    ∃ kind targets, kind = .branch cond (if decided then (d.fork decided cond span).2 else d.func.blocks.nextId)
        (if decided then d.func.blocks.nextId else (d.fork decided cond span).2) ∧
      (∀ b ∈ kind.targets, b ∈ targets) ∧
      (d.fork decided cond span).1 =
        { d.forkBlocks.emitExit kind targets span with current := d.func.blocks.nextId } := by
  cases decided <;> exact ⟨_, _, rfl, fun b hb => hb, rfl⟩

theorem Regular.forkBlocks (h : d.Regular owed) (decided) (cond span) :
    d.forkBlocks.Regular ((d.fork decided cond span).2 :: d.func.blocks.nextId :: owed) ∧ d.Advances d.forkBlocks :=
  ⟨(h.addBlock "logic.rhs").addBlock "logic.end", (d.advances_addBlock "logic.rhs").trans
    ((d.addBlock "logic.rhs").1.advances_addBlock "logic.end") (h.addBlock "logic.rhs").orderly⟩

private theorem unentered_forkBlocks (h : d.Regular owed) (decided) (cond span a) :
    ¬ d.forkBlocks.func.Edge a (d.fork decided cond span).2 := by
  intro hedge
  have hedge := (((d.addBlock "logic.rhs").1.sameCode_addBlock "logic.end").edge _ _).mp hedge
  have hedge := ((d.sameCode_addBlock "logic.rhs").edge _ _).mp hedge
  exact (h.unentered (d.not_has_fork decided cond span)).edge a hedge

theorem Regular.fork (h : d.Regular owed) (hopen : d.Open) (hcond : d.Offers cond) (decided : Bool) (span : Span) :
    (d.fork decided cond span).1.Regular ((d.fork decided cond span).2 :: owed) ∧
      d.Advances (d.fork decided cond span).1 ∧
      ∀ a, (d.fork decided cond span).1.func.Edge a (d.fork decided cond span).2 ↔ a = d.current := by
  obtain ⟨hblocks, hadvances⟩ := h.forkBlocks decided cond span
  have hrhs : d.forkBlocks.Reserves d.func.blocks.nextId := reserves_forkBlocks h.here
  have hstop : d.forkBlocks.Reserves (d.fork decided cond span).2 :=
    reserves_addBlock ((d.grows_addBlock "logic.rhs").here h.here) "logic.end"
  have hnew := d.not_has_fork decided cond span
  have hunentered := unentered_forkBlocks h decided cond span
  obtain ⟨kind, targets, hkind, hmarks, hfork⟩ := d.fork_marks decided cond span
  have htargets (b : BlockId) : b ∈ kind.targets ↔ b = d.func.blocks.nextId ∨ b = (d.fork decided cond span).2 := by
    rw [hkind]
    cases decided <;> simp [InstrKind.targets, or_comm]
  have hreads : ∀ r ∈ kind.reads none, d.forkBlocks.Offers r := by
    rw [hkind]
    intro r hr
    rw [List.mem_singleton.mp hr]
    exact hcond.advances h hadvances
  generalize (d.fork decided cond span).2 = stop at *
  have howed : ∀ x ∈ stop :: d.func.blocks.nextId :: owed, x = d.func.blocks.nextId ∨ x ∈ stop :: owed := by
    intro x hx
    simp only [List.mem_cons] at hx ⊢
    tauto
  have hdivide := h.divide hadvances hblocks howed hreads hmarks (fun b hb => ?_) (fun b hb => ?_)
    (by rw [hkind]; rfl) (by rw [hkind]; simp) ((htargets _).mpr (.inl rfl)) span
  · rw [hfork]
    refine ⟨hdivide.1, hdivide.2, fun a => ?_⟩
    refine (edge_emitExit hblocks hopen.forkBlocks.goesOn targets span).trans ?_
    refine ⟨fun hedge => (hedge.resolve_left (hunentered a)).1, fun ha => .inr ⟨ha, ?_⟩⟩
    exact (htargets stop).mpr (.inr rfl)
  · rcases (htargets b).mp hb with rfl | rfl
    · exact hrhs
    · exact hstop
  · rcases (htargets b).mp hb with rfl | rfl
    · exact d.func.blocks.not_has_nextId
    · exact hnew

theorem Regular.join (h : d.Regular owed) (hopen : d.Open) (hcond : d.Offers cond)
    (h' : d'.Regular ((d.fork decided cond span).2 :: owed)) (g : (d.fork decided cond span).1.Advances d')
    (hopen' : d'.Open) (hrhs : d'.Offers rhs) (ty) : let e := ((d'.join (d.fork decided cond span).2 span).emit
      (.phi [(d.current, cond), (d'.current, rhs)]) ty span).1
    e.Regular owed ∧ d.Advances e := by
  obtain ⟨hfork, hadvances, hedges⟩ := h.fork hopen hcond decided span
  have hnew := d.not_has_fork decided cond span
  have hwaits := (reserves_fork h.here decided cond span).grows g.toGrows
  have hexits : ¬ (d.fork decided cond span).1.Exits (d.fork decided cond span).2 :=
    fun hexit => hnew (h.has_of_exits (hadvances.exits.mp hexit))
  have hhas := d.has_fork decided cond span
  generalize (d.fork decided cond span).2 = stop at *
  obtain ⟨hjump, hjumps, hpreserves⟩ :=
    h'.jump (hadvances.trans g hfork.orderly) (.inl hwaits) (.inl hnew) span
  have hended := isTerminated_jump h'.here stop span
  have hstop := hwaits.grows (d'.grows_jump stop span)
  have hjoin : (d'.join stop span).Regular owed :=
    hjump.goOn h hjumps hended hnew hstop.has fun x hx => List.mem_cons.mp hx
  refine hjoin.emitPhi (hjumps.moveTo hended hnew hstop.has) hstop.goesOn (fun a => ?_) (fun p hp => ?_) h
    hnew ty span
  · have hbefore : d'.func.Edge a stop ↔ a = d.current := by
      rw [← hedges]
      refine ⟨fun hedge => ?_, g.toGrows.edge hfork.orderly⟩
      exact (g.edge hedge).resolve_right fun hor => hor.elim (fun hn => hn hhas) hexits
    have hafter : (d'.jump stop span).func.Edge a stop ↔ d'.func.Edge a stop ∨ a = d'.current := by
      rw [Draft.jump, if_neg (by simp [hopen'.goesOn]), edge_emitExit h' hopen'.goesOn]
      simp [InstrKind.targets]
    show (d'.jump stop span).func.Edge a stop ↔ _
    rw [hafter, hbefore]
    simp
  · have hgrows := d'.grows_jump stop span
    rcases List.mem_cons.mp hp with rfl | hp
    · refine ⟨hjumps.func.has hcond.has, ?_⟩
      show (d'.jump stop span).func.Dominates ((d'.jump stop span).func.instr cond).block _
      rw [hjumps.instr hcond.has]
      exact hjumps.dominates h.stands hcond.dominates
    · obtain rfl := List.mem_singleton.mp hp
      refine ⟨hgrows.func.has hrhs.has, ?_⟩
      show (d'.jump stop span).func.Dominates ((d'.jump stop span).func.instr rhs).block _
      rw [hgrows.instr hrhs.has]
      exact hpreserves h'.stands hrhs.dominates

end

/-! ## The first draft and the last -/

theorem regular_start (blocks : func.blocks = .empty) (instrs : func.instrs = .empty) : (start func).Regular [] := by
  have hhas {b : BlockId} : (start func).func.blocks.Has b ↔ b = Function.entry := by
    refine Pool.has_push.trans ?_
    rw [blocks]
    exact or_iff_right (Nat.not_lt_zero _)
  have hcurrent : (start func).current = Function.entry := by
    show func.blocks.nextId = _
    rw [blocks]
    rfl
  have hempty (b : BlockId) : ((start func).func.block b).instrs = #[] := by
    show ((func.blocks.push ⟨"entry", #[]⟩).getD b default).instrs = #[]
    rw [Pool.getD_push]
    split
    · rfl
    · rw [blocks]
      rfl
  constructor
  case orderly => exact Function.orderly_of_empty hempty instrs
  case entry => exact hhas.mpr rfl
  case here => exact hhas.mpr hcurrent
  case marked =>
    intro b hb
    cases hb with
    | entry => exact List.mem_singleton.mpr hcurrent.symm
    | edge _ edge => exact absurd edge (Function.not_edge_of_empty hempty)
  case ended =>
    intro b hb hne
    rw [hcurrent] at hne
    exact absurd (hhas.mp hb) hne
  case next => exact fun l hl => by cases hl
  case stop => exact fun l hl => by cases hl
  case result =>
    intro i hi
    have hi : func.instrs.Has i := hi
    rw [instrs] at hi
    exact absurd hi (Nat.not_lt_zero _)

theorem Regular.formed (h : d.Regular []) (ended : d.isTerminated = true) (blocks : func.blocks = d.func.blocks)
    (instrs : func.instrs = d.func.instrs) : func.Formed := by
  have same : d.func.SameCode func := .ofSameBody blocks instrs
  constructor
  case toOrderly => exact h.orderly.ofSameCode same fun hb => blocks ▸ hb
  case has_entry => exact fun _ => blocks ▸ h.entry
  case ended =>
    intro b hb
    apply Function.last_of_terminator?
    rw [same.terminator?]
    by_cases hcurrent : b = d.current
    · rw [hcurrent]
      exact ended
    · exact h.ended (blocks ▸ hb) hcurrent List.not_mem_nil

theorem Regular.ofSameBody (h : d.Regular owed) (blocks : func.blocks = d.func.blocks)
    (instrs : func.instrs = d.func.instrs) (ret : func.ret = d.func.ret) : Regular owed { d with func } := by
  have hblock (b : BlockId) : func.block b = d.func.block b := by rw [Function.block, blocks, Function.block]
  have hgrows : d.Grows { d with func } := { Grows.refl d with
    func := .ofSameBody ret instrs
    blocks := fun hb => blocks ▸ hb
    block := fun _ _ => hblock _
    behind := (congrArg (·.instrs.toList) (hblock d.current)) ▸ List.prefix_rfl
    ended := fun _ => hblock _
    here := fun hb => blocks ▸ hb }
  exact h.ofSameCode hgrows (.ofSameBody blocks instrs) rfl (fun hb => .inl (blocks ▸ hb)) fun _ => id

end Comptime.Draft
