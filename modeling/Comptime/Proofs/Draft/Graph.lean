import Comptime.Proofs.Code.Graph
import Comptime.Proofs.Draft.Flow

/-!
# The graph of a draft

While a body is written, blocks wait that nothing has been written into, and the current block is open. What
the finished function needs is kept step by step: `Draft.Regular` says that the code so far is in order, that
all blocks have come to their end but the current one and those that are `owed`, and that control can only
come to blocks that are marked.

`Draft.Advances` says how the graph of a draft changes: a block that has been written to stays behind the
blocks through which control comes to it. So what has been computed can still be used (`Offers.advances`).
-/

namespace Comptime.Draft

variable {d d' d'' d0 : Draft} {b x : BlockId} {i : InstrId} {owed owed' : List BlockId}

/-! ## Places -/

/-- The block is the current one, or has been written to. -/
def Stands (d : Draft) (b : BlockId) : Prop :=
  d.func.blocks.Has b ∧ (b = d.current ∨ (d.func.block b).instrs ≠ #[])

/-- Control has come through the block, and may go back to its start. -/
structure Heads (d : Draft) (b : BlockId) : Prop where
  has : d.func.blocks.Has b
  left : b ≠ d.current
  dominates : d.func.Dominates b d.current
  noPhi : ∀ i ∈ (d.func.block b).instrs, (d.func.instr i).kind.incoming? = none

/-- The instruction has been executed when control comes to the current place. -/
structure Offers (d : Draft) (i : InstrId) : Prop where
  has : d.func.instrs.Has i
  dominates : d.func.Dominates (d.func.instr i).block d.current

def Exits (d : Draft) (b : BlockId) : Prop := ∃ l ∈ d.loops, b = l.next ∨ b = l.stop

def Preserves (d d' : Draft) : Prop :=
  ∀ {x b}, d.Stands b → d.func.Dominates x b → d'.func.Dominates x b

/-- All that has been written is in order. -/
structure Regular (owed : List BlockId) (d : Draft) : Prop where
  orderly : d.func.Orderly
  entry : d.func.blocks.Has Function.entry
  here : d.func.blocks.Has d.current
  marked : ∀ {b}, d.func.Reached b → b ∈ d.reachable
  ended : ∀ {b}, d.func.blocks.Has b → b ≠ d.current → b ∉ owed → (d.func.terminator? b).isSome = true
  next : ∀ l ∈ d.loops, d.Heads l.next
  stop : ∀ l ∈ d.loops, d.Reserves l.stop
  result : ∀ {i}, d.func.instrs.Has i → (d.func.instr i).kind = .ret none → d.func.ret = .void

/-- Code has been written at the current place, with edges to new blocks and out of the loops around. -/
structure Advances (d d' : Draft) : Prop extends d.Grows d' where
  left : d'.current = d.current ∨ (d'.func.block d.current).instrs ≠ #[]
  dominates : d.Preserves d'
  edge : ∀ {a b}, d'.func.Edge a b → d.func.Edge a b ∨ ¬ d.func.blocks.Has b ∨ d.Exits b
  phi : ∀ {b i}, d.func.blocks.Has b → i ∈ (d'.func.block b).instrs →
    i ∈ (d.func.block b).instrs ∨ (d'.func.instr i).kind.incoming? = none

/-! ## Growth -/

theorem not_stands_of_reserves (h : d.Reserves b) : ¬ d.Stands b := by
  rintro ⟨-, rfl | hne⟩
  · exact h.waits rfl
  · exact hne h.empty

theorem Regular.stands (h : d.Regular owed) : d.Stands d.current := ⟨h.here, .inl rfl⟩

theorem Regular.unentered (h : d.Regular owed) (hb : ¬ d.func.blocks.Has b) : d.func.Unentered b where
  ne_entry := by
    rintro rfl
    exact hb h.entry
  edge _ hedge := hb (h.orderly.target hedge)

namespace Grows

section

variable (g : d.Grows d')

include g

theorem nonempty (h : (d.func.block b).instrs ≠ #[]) : (d'.func.block b).instrs ≠ #[] := by
  by_cases hb : b = d.current
  · subst hb
    intro hempty
    have hprefix := g.behind
    rw [hempty, Array.toList_empty, List.prefix_nil] at hprefix
    exact h (Array.toList_eq_nil_iff.mp hprefix)
  · have hhas : d.func.blocks.Has b := by
      refine Decidable.byContradiction fun hn => h ?_
      rw [Function.block, Pool.getD_of_not_has hn]
      rfl
    rw [g.block hhas hb]
    exact h

private theorem mem (h : i ∈ (d.func.block b).instrs) : i ∈ (d'.func.block b).instrs := by
  by_cases hb : b = d.current
  · subst hb
    exact Array.mem_toList_iff.mp (g.behind.subset (Array.mem_toList_iff.mpr h))
  · rw [g.block (Function.has_of_mem h) hb]
    exact h

theorem instr (h : d.func.instrs.Has i) : d'.func.instr i = d.func.instr i :=
  g.func.instr h

theorem edge (hd : d.func.Orderly) {a} (h : d.func.Edge a b) : d'.func.Edge a b := by
  obtain ⟨i, hi, ht⟩ := h
  refine ⟨i, g.mem hi, ?_⟩
  rw [g.instr (hd.listed i hi).1]
  exact ht

private theorem edge_back (hd : d.func.Orderly) {a} (ha : d.func.blocks.Has a) (hne : a ≠ d.current)
    (h : d'.func.Edge a b) : d.func.Edge a b := by
  obtain ⟨i, hi, ht⟩ := h
  rw [g.block ha hne] at hi
  rw [g.instr (hd.listed i hi).1] at ht
  exact ⟨i, hi, ht⟩

theorem dominates_unentered (hd : d.Regular owed) (hb : d.func.Unentered b) : d'.func.Dominates d.current b := by
  intro hway
  induction hway with
  | entry ne => exact hb.ne_entry rfl
  | @edge a b before edge ne ih =>
    have ha : d.func.blocks.Has a := by
      refine Decidable.byContradiction fun hn => ?_
      exact ih (hd.unentered hn)
    exact hb.edge a (g.edge_back hd.orderly ha before.ne edge)

theorem dominates_current (hd : d.Regular owed) : d'.func.Dominates d.current d'.current := by
  rcases g.current with heq | hnew
  · rw [heq]
    exact .refl _ _
  · exact g.dominates_unentered hd (hd.unentered hnew)

end

end Grows

theorem Regular.has_of_exits (h : d.Regular owed) (hb : d.Exits b) : d.func.blocks.Has b := by
  obtain ⟨l, hl, rfl | rfl⟩ := hb
  · exact (h.next l hl).has
  · exact (h.stop l hl).has

theorem Offers.grows (h : d.Offers i) (hd : d.Regular owed) (g : d.Grows d') (hp : d.Preserves d') : d'.Offers i := by
  refine ⟨g.func.has h.has, ?_⟩
  rw [g.instr h.has]
  exact (hp hd.stands h.dominates).trans (g.dominates_current hd)

theorem Heads.grows (h : d.Heads b) (hd : d.Regular owed) (g : d.Grows d') (hp : d.Preserves d') : d'.Heads b where
  has := g.blocks h.has
  left := g.block_of_left h.has h.left
  dominates := (hp hd.stands h.dominates).trans (g.dominates_current hd)
  noPhi i hi := by
    rw [g.block h.has h.left] at hi
    rw [g.instr (hd.orderly.listed i hi).1]
    exact h.noPhi i hi

namespace Advances

protected theorem refl (d : Draft) : d.Advances d where
  toGrows := .refl d
  left := .inl rfl
  dominates _ h := h
  edge h := .inl h
  phi _ h := .inl h

theorem stands (g : d.Advances d') (h : d.Stands b) : d'.Stands b := by
  obtain ⟨hb, rfl | hne⟩ := h
  · refine ⟨g.blocks hb, ?_⟩
    rcases g.left with heq | hne
    · exact .inl heq.symm
    · exact .inr hne
  · exact ⟨g.blocks hb, .inr (g.nonempty hne)⟩

theorem exits (g : d.Advances d') : d'.Exits b ↔ d.Exits b := by
  rw [Exits, g.loops, Exits]

protected theorem trans (g : d.Advances d') (g' : d'.Advances d'') (hd' : d'.func.Orderly) : d.Advances d'' where
  toGrows := g.toGrows.trans g'.toGrows
  left := by
    rcases g.left with heq | hne
    · rw [← heq]
      exact g'.left
    · exact .inr (g'.nonempty hne)
  dominates hb h := g'.dominates (g.stands hb) (g.dominates hb h)
  edge h := by
    rcases g'.edge h with hold | hnew | hexit
    · exact g.edge hold
    · exact .inr (.inl fun hb => hnew (g.blocks hb))
    · exact .inr (.inr (g.exits.mp hexit))
  phi hb hi := by
    rcases g'.phi (g.blocks hb) hi with hold | hnone
    · rw [g'.instr (hd'.listed _ hold).1]
      exact g.phi hb hold
    · exact .inr hnone

end Advances

theorem Offers.advances (h : d.Offers i) (hd : d.Regular owed) (g : d.Advances d') : d'.Offers i :=
  h.grows hd g.toGrows g.dominates

/-! ## New blocks -/

theorem sameCode_addBlock (d : Draft) (name : String) : d.func.SameCode (d.addBlock name).1.func where
  instrs := rfl
  block b := by
    show ((d.func.blocks.push ⟨name, #[]⟩).getD b default).instrs = _
    rw [Pool.getD_push]
    split
    · next hb =>
      rw [hb, Function.block, Pool.getD_of_not_has d.func.blocks.not_has_nextId]
      rfl
    · rfl

theorem Advances.ofSameCode (g : d.Grows d') (same : d.func.SameCode d'.func)
    (current : d'.current = d.current) : d.Advances d' where
  toGrows := g
  left := .inl current
  dominates _ h := (same.dominates _ _).mpr h
  edge h := .inl ((same.edge _ _).mp h)
  phi _ hi := by
    rw [same.block] at hi
    exact .inl hi

theorem advances_addBlock (d : Draft) (name) : d.Advances (d.addBlock name).1 :=
  .ofSameCode (d.grows_addBlock name) (d.sameCode_addBlock name) rfl

theorem Regular.ofSameCode (h : d.Regular owed) (g : d.Grows d') (same : d.func.SameCode d'.func)
    (current : d'.current = d.current)
    (new : ∀ {b}, d'.func.blocks.Has b → d.func.blocks.Has b ∨ b ∈ owed') (kept : ∀ b ∈ owed, b ∈ owed') :
    d'.Regular owed' where
  orderly := h.orderly.ofSameCode same g.blocks
  entry := g.blocks h.entry
  here := g.here h.here
  marked hb := g.reachable (h.marked (same.reached hb))
  ended hb hne hn := by
    rw [same.terminator?]
    rw [current] at hne
    exact h.ended ((new hb).resolve_right hn) hne fun ho => hn (kept _ ho)
  next l hl := (h.next l (g.loops ▸ hl)).grows h g (Advances.ofSameCode g same current).dominates
  stop l hl := (h.stop l (g.loops ▸ hl)).grows g
  result hi hk := by
    rw [same.instrs] at hi
    rw [same.instr] at hk
    rw [g.func.ret]
    exact h.result hi hk

theorem Regular.addBlock (h : d.Regular owed) (name) : (d.addBlock name).1.Regular ((d.addBlock name).2 :: owed) := by
  refine h.ofSameCode (d.grows_addBlock name) (d.sameCode_addBlock name) rfl (fun hb => ?_)
    fun b hb => List.mem_cons_of_mem _ hb
  rcases Pool.has_push.mp hb with hold | rfl
  · exact .inl hold
  · exact .inr List.mem_cons_self

theorem Regular.addSlot (h : d.Regular owed) (name) (ty span) : (d.addSlot name ty span).1.Regular owed :=
  h.ofSameCode (d.grows_addSlot name ty span) (.ofSameBody rfl rfl) rfl .inl fun _ hb => hb

theorem advances_addSlot (d : Draft) (name ty span) : d.Advances (d.addSlot name ty span).1 :=
  .ofSameCode (d.grows_addSlot name ty span) (.ofSameBody rfl rfl) rfl

/-! ## Going on elsewhere -/

theorem Regular.moveTo (h : d.Regular owed') (ended : d.isTerminated = true) (hb : d.func.blocks.Has b)
    (howed : ∀ x ∈ owed', x = b ∨ x ∈ owed) (next : ∀ l ∈ d.loops, Heads { d with current := b } l.next)
    (stop : ∀ l ∈ d.loops, Reserves { d with current := b } l.stop) : Regular owed { d with current := b } :=
  { h with
    here := hb
    ended {x} hx hne hn := by
      by_cases hcur : x = d.current
      · rw [hcur]
        exact ended
      · exact h.ended hx hcur fun ho => (howed x ho).elim hne hn
    next := next
    stop := stop }

private theorem nonempty_of_isTerminated (h : d.isTerminated = true) : (d.func.block d.current).instrs ≠ #[] := by
  intro hempty
  rw [isTerminated_of_empty hempty] at h
  cases h

theorem Advances.moveTo (g : d0.Advances d) (ended : d.isTerminated = true) (hnew : ¬ d0.func.blocks.Has b)
    (hb : d.func.blocks.Has b) : d0.Advances { d with current := b } :=
  { g with
    toGrows := g.toGrows.moveTo hnew hb
    left := by
      rcases g.left with heq | hne
      · rw [← heq]
        exact .inr (nonempty_of_isTerminated ended)
      · exact .inr hne }

theorem Regular.goOn (h : d.Regular owed') (h0 : d0.Regular owed) (g : d0.Advances d) (ended : d.isTerminated = true)
    (hnew : ¬ d0.func.blocks.Has b) (hb : d.func.blocks.Has b) {owed''} (howed : ∀ x ∈ owed', x = b ∨ x ∈ owed'') :
    Regular owed'' { d with current := b } := by
  have g' := g.moveTo ended hnew hb
  refine h.moveTo ended hb howed (fun l hl => ?_) fun l hl => ?_
  · exact (h0.next l (g.loops ▸ hl)).grows h0 g'.toGrows g'.dominates
  · exact (h0.stop l (g.loops ▸ hl)).grows g'.toGrows

theorem Regular.ready (h : d.Regular owed) : d.ready.Regular owed ∧ d.Advances d.ready := by
  unfold Draft.ready
  split
  · next hended =>
    have hadvances := d.advances_addBlock "dead"
    have hterm : (d.addBlock "dead").1.isTerminated = true := by
      rw [isTerminated, (d.sameCode_addBlock "dead").terminator?]
      exact hended
    refine ⟨?_, hadvances.moveTo hterm (d.not_has_addBlock "dead") (d.has_addBlock "dead")⟩
    exact (h.addBlock "dead").goOn h hadvances hterm (d.not_has_addBlock "dead") (d.has_addBlock "dead")
      fun x hx => List.mem_cons.mp hx
  · exact ⟨h, .refl d⟩

theorem Regular.unentered_ready (h : d.Regular owed) (ended : d.isTerminated = true) :
    d.ready.func.Unentered d.ready.current := by
  rw [Draft.ready, if_pos ended]
  exact (d.sameCode_addBlock "dead").unentered (h.unentered (d.not_has_addBlock "dead"))

end Comptime.Draft
