import Comptime.Proofs.Code.WellTyped

/-!
# Graphs of blocks

Control goes from block to block along edges. A block dominates another one if control has to come through
it on every way from the entry; a block that control cannot come to is dominated by all.

Code is written piece by piece, and edges are added while it is. `Function.Branches` says which edges do no
harm to what is known of the blocks before: those to blocks that nothing has been written into yet, and
those back to a block that dominates the place where the edge begins.

A function is formed (`Function.Formed`) if its blocks end where control goes elsewhere and its operands are
computed before they are used.
-/

namespace Comptime

namespace Function

def Edge (f : Function) (a b : BlockId) : Prop :=
  ∃ i ∈ (f.block a).instrs, b ∈ (f.instr i).kind.targets

/-- Control may come to the block. -/
inductive Reached (f : Function) : BlockId → Prop
  | entry : Reached f entry
  | edge {a b : BlockId} (before : Reached f a) (edge : f.Edge a b) : Reached f b

/-- Control may come to a block without having been in the block `x`. -/
inductive Bypasses (f : Function) (x : BlockId) : BlockId → Prop
  | entry (ne : entry ≠ x) : Bypasses f x entry
  | edge {a b : BlockId} (before : Bypasses f x a) (edge : f.Edge a b) (ne : b ≠ x) : Bypasses f x b

def Dominates (f : Function) (x b : BlockId) : Prop := ¬ f.Bypasses x b

variable {f f' : Function} {a b c x y : BlockId}

/-! ## Dominance -/

theorem Bypasses.ne (h : f.Bypasses x b) : b ≠ x := by
  cases h with
  | entry ne => exact ne
  | edge _ _ ne => exact ne

theorem Bypasses.mono (hedge : ∀ {a b}, f.Edge a b → f'.Edge a b) (h : f.Bypasses x b) : f'.Bypasses x b := by
  induction h with
  | entry ne => exact .entry ne
  | edge _ edge ne ih => exact .edge ih (hedge edge) ne

theorem Dominates.refl (f : Function) (b) : f.Dominates b b := fun h => h.ne rfl

theorem Bypasses.cut (h : f.Bypasses x b) (y) : f.Bypasses y b ∨ f.Bypasses x y := by
  induction h with
  | entry ne =>
    by_cases hy : Function.entry = y
    · exact .inr (hy ▸ .entry ne)
    · exact .inl (.entry hy)
  | @edge a b before edge ne ih =>
    rcases ih with ih | ih
    · by_cases hy : b = y
      · exact .inr (hy ▸ .edge before edge ne)
      · exact .inl (.edge ih edge hy)
    · exact .inr ih

theorem Dominates.trans (h : f.Dominates x y) (h' : f.Dominates y b) : f.Dominates x b :=
  fun hb => (hb.cut y).elim h' h

theorem Dominates.reached (h : f.Dominates x b) (hb : f.Reached b) : f.Reached x := by
  have hway {b : BlockId} (hb : f.Reached b) : f.Bypasses x b ∨ f.Reached x := by
    induction hb with
    | entry =>
      by_cases hx : Function.entry = x
      · exact .inr (hx ▸ .entry)
      · exact .inl (.entry hx)
    | @edge a b before edge ih =>
      rcases ih with ih | ih
      · by_cases hx : b = x
        · exact .inr (hx ▸ .edge before edge)
        · exact .inl (.edge ih edge hx)
      · exact .inr ih
  exact (hway hb).resolve_left h

/-- No edge leads to the block, nor does control start there. -/
structure Unentered (f : Function) (b : BlockId) : Prop where
  ne_entry : b ≠ entry
  edge : ∀ a, ¬ f.Edge a b

theorem Unentered.not_reached (h : f.Unentered b) : ¬ f.Reached b := by
  intro hb
  cases hb with
  | entry => exact h.ne_entry rfl
  | edge _ edge => exact h.edge _ edge

/-! ## More edges -/

/-- The edges of a function and maybe more, which lead from the block `c` to `targets`: to blocks where it
does not go on yet, and back to blocks through which control has come to `c`. -/
structure Branches (f f' : Function) (c : BlockId) (targets : List BlockId) (unwritten : BlockId → Prop) :
    Prop where
  edge : ∀ {a b}, f'.Edge a b → f.Edge a b ∨ a = c ∧ b ∈ targets
  target : ∀ {b}, b ∈ targets → unwritten b ∨ f.Dominates b c
  unwritten : ∀ {a b}, unwritten a → ¬ f'.Edge a b

namespace Branches

variable {targets : List BlockId} {unwritten : BlockId → Prop}

private theorem bypasses (h : f.Branches f' c targets unwritten) (hb : f'.Bypasses x b) :
    f.Bypasses x b ∨ unwritten b := by
  induction hb with
  | entry ne => exact .inl (.entry ne)
  | @edge a b _ edge ne ih =>
    have hbefore := ih.resolve_right fun ha => h.unwritten ha edge
    rcases h.edge edge with hold | ⟨rfl, hb⟩
    · exact .inl (.edge hbefore hold ne)
    · rcases h.target hb with hnew | hback
      · exact .inr hnew
      · exact .inl ((hbefore.cut b).resolve_left hback)

theorem dominates (h : f.Branches f' c targets unwritten) (hb : f.Dominates x b) (hn : ¬ unwritten b) :
    f'.Dominates x b := fun hway => (h.bypasses hway).elim hb hn

theorem reached (h : f.Branches f' c targets unwritten) (hb : f'.Reached b) :
    f.Reached b ∨ b ∈ targets ∧ f.Reached c := by
  suffices hboth : f.Reached b ∨ unwritten b ∧ b ∈ targets ∧ f.Reached c from hboth.imp_right And.right
  induction hb with
  | entry => exact .inl .entry
  | @edge a b _ edge ih =>
    have hbefore := ih.resolve_right fun ha => h.unwritten ha.1 edge
    rcases h.edge edge with hold | ⟨rfl, hb⟩
    · exact .inl (.edge hbefore hold)
    · rcases h.target hb with hnew | hback
      · exact .inr ⟨hnew, hb, hbefore⟩
      · exact .inl (hback.reached hbefore)

end Branches

/-! ## Formed functions -/

/-- Each instruction stands in its block, once and in order, and nothing comes behind one that leads
elsewhere. Operands are computed by instructions before, in blocks through which control comes. A phi has an
entry for each block from which control comes to its own, and for no other. -/
structure Orderly (f : Function) : Prop where
  listed : ∀ {b}, ∀ i ∈ (f.block b).instrs, f.instrs.Has i ∧ (f.instr i).block = b
  filed : ∀ {i}, f.instrs.Has i → i ∈ (f.block (f.instr i).block).instrs
  ascending : ∀ b, (f.block b).instrs.toList.Pairwise fun i j => i.index < j.index
  goesOn : ∀ b, ∀ i ∈ (f.block b).instrs.toList.dropLast, (f.instr i).kind.isTerminator = false
  target : ∀ {a b}, f.Edge a b → f.blocks.Has b
  operand : ∀ {i}, f.instrs.Has i → ∀ r ∈ (f.instr i).kind.reads none,
    r.index < i.index ∧ f.Dominates (f.instr r).block (f.instr i).block
  incoming : ∀ {i}, f.instrs.Has i → ∀ l ∈ (f.instr i).kind.incoming?, ∀ p ∈ l,
    p.2.index < i.index ∧ f.Dominates (f.instr p.2).block p.1
  merges : ∀ {i}, f.instrs.Has i → ∀ l ∈ (f.instr i).kind.incoming?,
    (f.instr i).block ≠ entry ∧ ∀ a, f.Edge a (f.instr i).block ↔ a ∈ l.map Prod.fst

/-- The function is orderly, and every block ends in an instruction that leads elsewhere. -/
structure Formed (f : Function) : Prop extends f.Orderly where
  has_entry : f.native = none → f.blocks.Has entry
  ended : ∀ b, f.blocks.Has b → ∃ last ∈ (f.block b).instrs.toList.getLast?,
    (f.instr last).kind.isTerminator = true

theorem not_edge_of_empty (blocks : ∀ b, (f.block b).instrs = #[]) : ¬ f.Edge a b := by
  rintro ⟨i, hi, -⟩
  rw [blocks] at hi
  exact Array.not_mem_empty i hi

theorem orderly_of_empty (blocks : ∀ b, (f.block b).instrs = #[]) (instrs : f.instrs = .empty) : f.Orderly := by
  have hinstr {i : InstrId} : ¬ f.instrs.Has i := by
    rw [instrs]
    exact Nat.not_lt_zero _
  refine {
    listed := fun {b} i hi => ?_
    filed := fun hi => absurd hi hinstr
    ascending := fun b => by simp [blocks]
    goesOn := fun b => by simp [blocks]
    target := fun h => absurd h (not_edge_of_empty blocks)
    operand := fun hi => absurd hi hinstr
    incoming := fun hi => absurd hi hinstr
    merges := fun hi => absurd hi hinstr }
  rw [blocks] at hi
  exact absurd hi (Array.not_mem_empty i)

theorem formed_of_empty (blocks : f.blocks = .empty) (instrs : f.instrs = .empty)
    (external : f.native ≠ none) : f.Formed where
  toOrderly := by
    refine orderly_of_empty (fun b => ?_) instrs
    rw [Function.block, blocks]
    rfl
  has_entry h := absurd h external
  ended b hb := by
    rw [blocks] at hb
    exact absurd hb (Nat.not_lt_zero _)

/-- The functions have the same instructions in the same blocks; one may have more blocks that are empty. -/
structure SameCode (f f' : Function) : Prop where
  instrs : f'.instrs = f.instrs
  block : ∀ b, (f'.block b).instrs = (f.block b).instrs

namespace SameCode

theorem ofSameBody (blocks : f'.blocks = f.blocks) (instrs : f'.instrs = f.instrs) : f.SameCode f' :=
  ⟨instrs, fun b => by rw [Function.block, blocks, Function.block]⟩

section

variable (h : f.SameCode f')

include h

theorem instr (i) : f'.instr i = f.instr i := by
  rw [Function.instr, h.instrs, Function.instr]

theorem edge (a b) : f'.Edge a b ↔ f.Edge a b := by
  simp only [Edge, h.block, h.instr]

theorem dominates (x b) : f'.Dominates x b ↔ f.Dominates x b :=
  not_congr ⟨.mono (h.edge _ _).mp, .mono (h.edge _ _).mpr⟩

theorem reached (hb : f'.Reached b) : f.Reached b := by
  induction hb with
  | entry => exact .entry
  | edge _ edge ih => exact .edge ih ((h.edge _ _).mp edge)

theorem unentered (hb : f.Unentered b) : f'.Unentered b :=
  ⟨hb.ne_entry, fun a hedge => hb.edge a ((h.edge _ _).mp hedge)⟩

theorem terminator? (b) : f'.terminator? b = f.terminator? b := by
  rw [Function.terminator?, Function.terminator?, h.block, h.instrs]

end

end SameCode

theorem Orderly.ofSameCode (h : f.Orderly) (same : f.SameCode f')
    (blocks : ∀ {b}, f.blocks.Has b → f'.blocks.Has b) : f'.Orderly := by
  constructor
  all_goals simp only [same.block, same.instr, same.edge, same.dominates, same.instrs]
  · exact h.listed
  · exact h.filed
  · exact h.ascending
  · exact h.goesOn
  · exact fun hedge => blocks (h.target hedge)
  · exact h.operand
  · exact h.incoming
  · exact h.merges

theorem Path.reached {pos} {prev passed} (h : f.Path b pos prev passed) : f.Reached b := by
  induction h with
  | start => exact .entry
  | next _ _ _ ih => exact ih
  | jump _ instr leads ih => exact .edge ih ⟨_, mem_of_at? instr, leads⟩

namespace Formed

variable {pos : Nat} {prev : Option BlockId} {passed : List InstrId} {i : InstrId}

private theorem terminated (h : f.Formed) (hb : f.blocks.Has b) : f.Terminated b := ⟨h.ended b hb, h.goesOn b⟩

theorem path_at? (h : f.Formed) (internal : f.native = none) (hp : f.Path b pos prev passed) :
    ∃ i, f.at? b pos = some i :=
  hp.at? (h.has_entry internal) (fun _ i hi _ ht => h.target ⟨i, hi, ht⟩) fun _ => h.terminated

theorem phi_isSome (h : f.Formed) (hp : f.Path b pos prev passed) (hi : f.at? b pos = some i) :
    ∀ l ∈ (f.instr i).kind.incoming?, (prev.bind fun b => l.lookup b).isSome = true := by
  intro l hl
  obtain ⟨hhas, hblock⟩ := h.listed i (mem_of_at? hi)
  obtain ⟨hentry, hedges⟩ := h.merges hhas l hl
  rw [hblock] at hentry hedges
  rcases hp.entered with ⟨-, rfl⟩ | ⟨before, j, rfl, hj, ht⟩
  · exact absurd rfl hentry
  · obtain ⟨p, hmem, rfl⟩ := List.mem_map.mp ((hedges before).mp ⟨j, hj, ht⟩)
    rw [Option.bind_some]
    refine Option.isSome_iff_ne_none.mpr fun hnone => ?_
    have hne := List.lookup_eq_none_iff.mp hnone p hmem
    simp at hne

end Formed

theorem last_of_terminator? (h : (f.terminator? b).isSome = true) :
    ∃ last ∈ (f.block b).instrs.toList.getLast?, (f.instr last).kind.isTerminator = true := by
  obtain ⟨kind, hkind⟩ := Option.isSome_iff_exists.mp h
  obtain ⟨last, hlast, hrest⟩ := Option.bind_eq_some_iff.mp hkind
  obtain ⟨instr, hinstr, hends⟩ := Option.bind_eq_some_iff.mp hrest
  refine ⟨last, ?_, ?_⟩
  · rw [Array.getLast?_toList]
    exact hlast
  · rw [Function.instr, Pool.getD, hinstr, Option.getD_some]
    by_contra hn
    rw [if_neg hn] at hends
    cases hends

theorem blocks_layoutFrame {types e} (h : f.layoutFrame types = (f', e)) : f'.blocks = f.blocks := by
  have hsame : (f.layoutFrame types).1.blocks = f.blocks := by
    unfold layoutFrame
    split
    · rfl
    · dsimp only
      split <;> rfl
  rw [h] at hsame
  exact hsame

end Function

def Code.Formed (code : Code) : Prop := ∀ f, (code.function f).state = .analyzed → (code.function f).Formed

end Comptime
