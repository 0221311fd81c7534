import Comptime.Proofs.Code.Typing

/-!
# Growing drafts

Code is written at the end of the current block. Blocks that are not current stay as they are, and
so does a block that has come to its end; what follows goes to blocks that are new. `Draft.Grows`
says this of a piece of analysis as a whole, whatever blocks it has been to.

The code that a draft holds is part of the function that is made of it (`Draft.Within`).
-/

namespace Comptime

namespace Function

variable {f f' : Function} {b : BlockId}

theorem Extends.terminator? (h : f.Extends f') (same : f'.block b = f.block b)
    (ended : (f.terminator? b).isSome = true) : (f'.terminator? b).isSome = true := by
  unfold Function.terminator? at ended ⊢
  rw [same]
  cases hlast : (f.block b).instrs.back? with
  | none =>
    rw [hlast] at ended
    exact ended
  | some i =>
    rw [hlast] at ended
    simp only [Option.bind_eq_bind, Option.bind_some] at ended ⊢
    cases hi : f.instrs.get? i with
    | none =>
      rw [hi] at ended
      cases ended
    | some instr =>
      have has := Pool.has_of_get?_eq_some hi
      have hget : f'.instrs.get? i = some instr := by
        rw [Pool.get?_getD (h.has has) default, ← hi, Pool.get?_getD has default]
        exact congrArg some (h.instr has)
      rw [hget]
      rw [hi] at ended
      exact ended

end Function

namespace Draft

variable {d d' d'' : Draft} {b : BlockId}

/-! ## Open blocks -/

theorem emit_of_open (h : d.isTerminated = false) (kind ty span) :
    d.emit kind ty span = ({ d with func := d.func.append ⟨kind, ty, span, d.current⟩ }, d.func.instrs.nextId) := by
  have hready : d.ready = d := by
    rw [ready, h]
    rfl
  rw [emit, hready]

theorem emit_open (h : d.isTerminated = false) (hb : d.func.blocks.Has d.current) (kind ty span) :
    let e := (d.emit kind ty span).1
    e.current = d.current ∧ e.func.blocks.Has e.current ∧
      (e.func.block d.current).instrs = (d.func.block d.current).instrs.push d.func.instrs.nextId ∧
      e.func.instrs.get? d.func.instrs.nextId = some ⟨kind, ty, span, d.current⟩ := by
  rw [emit_of_open h]
  refine ⟨rfl, Pool.has_modify.mpr hb, ?_, ?_⟩
  · exact congrArg Block.instrs (Pool.getD_modify_self hb _ default)
  · exact (Pool.get?_push ..).trans (if_pos rfl)

theorem isTerminated_of_back {i instr} (hback : (d.func.block d.current).instrs.back? = some i)
    (hinstr : d.func.instrs.get? i = some instr) (hkind : instr.kind.isTerminator = false) :
    d.isTerminated = false := by
  rw [isTerminated, Function.terminator?, hback, Option.bind_eq_bind, Option.bind_some, hinstr]
  simp [hkind]

theorem isTerminated_of_empty (h : (d.func.block d.current).instrs = #[]) : d.isTerminated = false := by
  rw [isTerminated, Function.terminator?, h]
  rfl

theorem has_of_isTerminated (h : d.isTerminated = true) : d.func.blocks.Has d.current := by
  refine Decidable.byContradiction fun hn => ?_
  have hempty : (d.func.block d.current).instrs = #[] := by
    rw [Function.block, Pool.getD_of_not_has hn]
    rfl
  rw [isTerminated_of_empty hempty] at h
  cases h

theorem marks_eq (targets : List BlockId) (d : Draft) :
    ∃ reachable, targets.foldl mark d = { d with reachable } ∧ ∀ b ∈ d.reachable, b ∈ reachable := by
  induction targets generalizing d with
  | nil => exact ⟨_, rfl, fun _ hb => hb⟩
  | cons target targets ih =>
    have hmark : ∃ reachable, d.mark target = { d with reachable } ∧ ∀ b ∈ d.reachable, b ∈ reachable := by
      unfold mark
      split
      · exact ⟨_, rfl, fun _ hb => List.mem_cons_of_mem target hb⟩
      · exact ⟨_, rfl, fun _ hb => hb⟩
    obtain ⟨reachable, hmark, hmem⟩ := hmark
    rw [List.foldl_cons, hmark]
    obtain ⟨reachable', hmarks, hmem'⟩ := ih { d with reachable }
    exact ⟨reachable', hmarks, fun b hb => hmem' b (hmem b hb)⟩

theorem emitExit_of_open (h : d.isTerminated = false) (kind targets span) :
    ∃ reachable, d.emitExit kind targets span = { d with
      func := d.func.append ⟨kind, .void, span, d.current⟩
      reachable } := by
  obtain ⟨reachable, hmarks, -⟩ := marks_eq targets d
  refine ⟨reachable, ?_⟩
  have hopen : { d with reachable }.isTerminated = false := h
  rw [emitExit, hmarks, emit_of_open hopen]

/-! ## Growth -/

/-- Code has been written at the current place: no other block that was there has changed, and the loops
around the place are the same. -/
structure Grows (d d' : Draft) : Prop where
  func : d.func.Extends d'.func
  blocks : ∀ {b}, d.func.blocks.Has b → d'.func.blocks.Has b
  block : ∀ {b}, d.func.blocks.Has b → b ≠ d.current → d'.func.block b = d.func.block b
  behind : (d.func.block d.current).instrs.toList <+: (d'.func.block d.current).instrs.toList
  ended : d.isTerminated = true → d'.func.block d.current = d.func.block d.current
  current : d'.current = d.current ∨ ¬ d.func.blocks.Has d'.current
  here : d.func.blocks.Has d.current → d'.func.blocks.Has d'.current
  reachable : ∀ {b}, b ∈ d.reachable → b ∈ d'.reachable
  loops : d'.loops = d.loops

namespace Grows

protected theorem refl (d : Draft) : d.Grows d :=
  ⟨.refl _, id, fun _ _ => rfl, List.prefix_rfl, fun _ => rfl, .inl rfl, id, id, rfl⟩

theorem block_of_left (h : d.Grows d') (hb : d.func.blocks.Has b) (hne : b ≠ d.current) : b ≠ d'.current := by
  rintro rfl
  rcases h.current with heq | hnew
  · exact hne heq
  · exact hnew hb

protected theorem trans (h : d.Grows d') (h' : d'.Grows d'') : d.Grows d'' where
  func := h.func.trans h'.func
  blocks hb := h'.blocks (h.blocks hb)
  block hb hne := by rw [h'.block (h.blocks hb) (h.block_of_left hb hne), h.block hb hne]
  behind := by
    by_cases hb : d.func.blocks.Has d.current
    · by_cases hcur : d.current = d'.current
      · refine h.behind.trans ?_
        rw [hcur]
        exact h'.behind
      · rw [h'.block (h.blocks hb) hcur]
        exact h.behind
    · rw [Function.block, Pool.getD_of_not_has hb]
      exact List.nil_prefix
  ended hended := by
    have hb := has_of_isTerminated hended
    by_cases hcur : d.current = d'.current
    · have hsame := h.ended hended
      have hended' : d'.isTerminated = true := by
        rw [isTerminated, ← hcur]
        exact h.func.terminator? hsame hended
      rw [hcur, h'.ended hended', ← hcur, hsame]
    · rw [h'.block (h.blocks hb) hcur, h.ended hended]
  current := by
    rcases h'.current with heq | hnew
    · rw [heq]
      exact h.current
    · exact .inr fun hb => hnew (h.blocks hb)
  here hb := h'.here (h.here hb)
  reachable hb := h'.reachable (h.reachable hb)
  loops := h'.loops.trans h.loops

theorem moveTo (h : d.Grows d') (hnew : ¬ d.func.blocks.Has b) (hb : d'.func.blocks.Has b) :
    d.Grows { d' with current := b } :=
  { h with current := .inr hnew, here := fun _ => hb }

end Grows

theorem grows_addBlock (d : Draft) (name : String) : d.Grows (d.addBlock name).1 where
  func := .ofSameBody rfl rfl
  blocks hb := hb.push _
  block hb _ := Pool.getD_push_of_has hb _ _
  behind := by
    by_cases hb : d.func.blocks.Has d.current
    · have hsame : (d.addBlock name).1.func.block d.current = d.func.block d.current :=
        Pool.getD_push_of_has hb _ _
      exact hsame ▸ List.prefix_rfl
    · rw [Function.block, Pool.getD_of_not_has hb]
      exact List.nil_prefix
  ended h := Pool.getD_push_of_has (has_of_isTerminated h) _ _
  current := .inl rfl
  here hb := hb.push _
  reachable hb := hb
  loops := rfl

theorem not_has_addBlock (d : Draft) (name) : ¬ d.func.blocks.Has (d.addBlock name).2 := d.func.blocks.not_has_nextId

theorem has_addBlock (d : Draft) (name) :
    (d.addBlock name).1.func.blocks.Has (d.addBlock name).2 := d.func.blocks.has_push_nextId _

theorem block_addBlock (d : Draft) (name) : ((d.addBlock name).1.func.block (d.addBlock name).2).instrs = #[] := by
  have hnew : (d.addBlock name).1.func.block (d.addBlock name).2 = ⟨name, #[]⟩ :=
    (Pool.getD_push ..).trans (if_pos rfl)
  rw [hnew]

/-! ## Blocks for later -/

/-- The block is empty and not the current one: code will be written into it later. -/
structure Reserves (d : Draft) (b : BlockId) : Prop where
  has : d.func.blocks.Has b
  waits : b ≠ d.current
  empty : (d.func.block b).instrs = #[]

theorem Reserves.grows (h : d.Reserves b) (g : d.Grows d') : d'.Reserves b :=
  ⟨g.blocks h.has, g.block_of_left h.has h.waits, by rw [g.block h.has h.waits, h.empty]⟩

theorem Reserves.moveTo (h : d.Reserves b) {c} (hne : b ≠ c) :
    Reserves { d with current := c } b := ⟨h.has, hne, h.empty⟩

theorem reserves_addBlock (here : d.func.blocks.Has d.current) (name : String) :
    (d.addBlock name).1.Reserves (d.addBlock name).2 where
  has := d.has_addBlock name
  waits heq := d.not_has_addBlock name (heq ▸ here)
  empty := d.block_addBlock name

theorem Reserves.goesOn (h : d.Reserves b) : { d with current := b }.isTerminated = false :=
  isTerminated_of_empty h.empty

/-! ## Steps of writing -/

theorem grows_ready (d : Draft) : d.Grows d.ready := by
  unfold ready
  split
  · exact (d.grows_addBlock "dead").moveTo (d.not_has_addBlock "dead") (d.has_addBlock "dead")
  · exact .refl d

theorem isTerminated_ready (d : Draft) : d.ready.isTerminated = false := by
  unfold ready
  split
  · exact isTerminated_of_empty (d.block_addBlock "dead")
  · next h => simpa using h

theorem grows_append (h : d.isTerminated = false) (kind : InstrKind) (ty : TypeId) (span : Span) :
    d.Grows { d with func := d.func.append ⟨kind, ty, span, d.current⟩ } where
  func := .push rfl rfl
  blocks hb := Pool.has_modify.mpr hb
  block _ hne := Pool.getD_modify_of_ne hne _ _
  behind := by
    by_cases hb : d.func.blocks.Has d.current
    · have hpush := (emit_open h hb kind ty span).2.2.1
      rw [emit_of_open h] at hpush
      rw [hpush, Array.toList_push]
      exact List.prefix_append _ _
    · rw [Function.block, Pool.getD_of_not_has hb]
      exact List.nil_prefix
  ended hended := by rw [h] at hended; cases hended
  current := .inl rfl
  here hb := Pool.has_modify.mpr hb
  reachable hb := hb
  loops := rfl

theorem grows_emit (d : Draft) (kind ty span) : d.Grows (d.emit kind ty span).1 :=
  d.grows_ready.trans (grows_append d.isTerminated_ready kind ty span)

theorem grows_emitExit (d : Draft) (kind targets span) : d.Grows (d.emitExit kind targets span) := by
  obtain ⟨reachable, hmarks, hmem⟩ := marks_eq targets d
  have hmarked : d.Grows (targets.foldl mark d) := by
    rw [hmarks]
    exact { Grows.refl d with reachable := fun hb => hmem _ hb }
  exact hmarked.trans (grows_emit _ kind .void span)

theorem grows_jump (d : Draft) (target span) : d.Grows (d.jump target span) := by
  unfold jump
  split
  · exact .refl d
  · exact d.grows_emitExit _ _ span

theorem grows_addSlot (d : Draft) (name ty span) : d.Grows (d.addSlot name ty span).1 :=
  { Grows.refl d with func := .ofSameBody rfl rfl }

/-! Writing does not touch the deferred statements. -/

/-- Nothing has been deferred. -/
structure Plain (d d' : Draft) : Prop where
  defers : d'.defers = d.defers
  inDefer : d'.inDefer = d.inDefer

theorem Plain.refl (d : Draft) : d.Plain d := ⟨rfl, rfl⟩

theorem Plain.trans (h : d.Plain d') (h' : d'.Plain d'') : d.Plain d'' :=
  ⟨h'.defers.trans h.defers, h'.inDefer.trans h.inDefer⟩

theorem plain_emit (d : Draft) (kind ty span) : d.Plain (d.emit kind ty span).1 := by
  unfold emit ready
  split <;> exact ⟨rfl, rfl⟩

theorem plain_emitExit (d : Draft) (kind targets span) : d.Plain (d.emitExit kind targets span) := by
  obtain ⟨reachable, hmarks, -⟩ := marks_eq targets d
  have hemit := plain_emit { d with reachable } kind .void span
  rw [emitExit, hmarks]
  exact ⟨hemit.defers, hemit.inDefer⟩

theorem plain_jump (d : Draft) (target span) : d.Plain (d.jump target span) := by
  unfold jump
  split
  · exact .refl d
  · exact d.plain_emitExit _ _ span

/-! ## Parts of functions -/

end Draft

end Comptime
