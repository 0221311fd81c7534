import Comptime.Proofs.Draft.Growth

/-!
# Code that control flows through

The code of an expression has one way in and one way out. Control enters at the place where the
code begins and comes to the place where it ends, unless the machine stops on the way. Such code
consists of instructions that end no block; the only ones that do are written for `&&` and `||`,
where the way divides and meets again.
-/

namespace Comptime.Draft

/-- The current block has not come to its end. -/
structure Open (d : Draft) : Prop where
  goesOn : d.isTerminated = false
  here : d.func.blocks.Has d.current

/-- Divide the way: a truth value leads to a new block unless it is `decided`. The second result is
the block where the ways meet. -/
def fork (d : Draft) (decided : Bool) (cond : InstrId) (span : Span) : Draft × BlockId :=
  let (d, rhs) := d.addBlock "logic.rhs"
  let (d, stop) := d.addBlock "logic.end"
  let d :=
    if decided then d.emitExit (.branch cond stop rhs) [stop, rhs] span
    else d.emitExit (.branch cond rhs stop) [rhs, stop] span
  ({ d with current := rhs }, stop)

def join (d : Draft) (stop : BlockId) (span : Span) : Draft :=
  { d.jump stop span with current := stop }

variable {d d' d'' : Draft} {decided : Bool} {cond : InstrId} {span : Span}

theorem Open.emit (h : d.Open) {kind} (goesOn : kind.isTerminator = false) (ty span) : (d.emit kind ty span).1.Open := by
  obtain ⟨hcur, hhere, hpush, hinstr⟩ := emit_open h.goesOn h.here kind ty span
  refine ⟨isTerminated_of_back ?_ hinstr goesOn, hhere⟩
  rw [hcur, hpush, Array.back?_push]

/-! ## Dividing and meeting -/

def forkBlocks (d : Draft) : Draft := ((d.addBlock "logic.rhs").1.addBlock "logic.end").1

theorem fork_eq (d : Draft) (decided cond span) :
    ∃ kind targets, (d.fork decided cond span).1 =
      { d.forkBlocks.emitExit kind targets span with current := d.func.blocks.nextId } := by
  cases decided <;> exact ⟨_, _, rfl⟩

theorem not_has_fork (d : Draft) (decided cond span) : ¬ d.func.blocks.Has (d.fork decided cond span).2 := fun hb =>
  (d.addBlock "logic.rhs").1.not_has_addBlock "logic.end" ((d.grows_addBlock "logic.rhs").blocks hb)

theorem has_fork (d : Draft) (decided cond span) :
    (d.fork decided cond span).1.func.blocks.Has (d.fork decided cond span).2 := by
  obtain ⟨kind, targets, hfork⟩ := d.fork_eq decided cond span
  rw [hfork]
  exact (d.forkBlocks.grows_emitExit kind targets span).blocks ((d.addBlock "logic.rhs").1.has_addBlock "logic.end")

theorem reserves_fork (here : d.func.blocks.Has d.current) (decided cond span) :
    (d.fork decided cond span).1.Reserves (d.fork decided cond span).2 := by
  obtain ⟨kind, targets, hfork⟩ := d.fork_eq decided cond span
  have hstop : d.forkBlocks.Reserves (d.fork decided cond span).2 :=
    reserves_addBlock ((d.grows_addBlock "logic.rhs").here here) "logic.end"
  rw [hfork]
  refine (hstop.grows (d.forkBlocks.grows_emitExit kind targets span)).moveTo fun heq => ?_
  exact (d.addBlock "logic.rhs").1.not_has_addBlock "logic.end" (heq ▸ d.has_addBlock "logic.rhs")

theorem Open.addBlock (h : d.Open) (name) : (d.addBlock name).1.Open := by
  refine ⟨?_, (d.grows_addBlock name).here h.here⟩
  have hsame : (d.addBlock name).1.func.block d.current = d.func.block d.current :=
    Pool.getD_push_of_has h.here _ _
  have hgoesOn := h.goesOn
  rw [isTerminated, Function.terminator?] at hgoesOn ⊢
  rw [show (d.addBlock name).1.current = d.current from rfl, hsame]
  exact hgoesOn

theorem Open.forkBlocks (h : d.Open) : d.forkBlocks.Open := (h.addBlock "logic.rhs").addBlock "logic.end"

theorem reserves_forkBlocks (here : d.func.blocks.Has d.current) : d.forkBlocks.Reserves d.func.blocks.nextId :=
  (reserves_addBlock here "logic.rhs").grows ((d.addBlock "logic.rhs").1.grows_addBlock "logic.end")

end Comptime.Draft
