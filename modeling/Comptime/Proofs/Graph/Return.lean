import Comptime.Proofs.Graph.Task
import Comptime.Proofs.Session.Typed

/-!
# Whether control comes to the end of a body

Analysis marks the blocks to which it has written a branch from a marked block. It relies on these marks at
the end of a body: where there is none, the end needs no value to return. Every block that control enters
has been marked when the body is finished, so this is sound.
-/

namespace Comptime

/-- The function `f` has the body of `func` and the result that it had before. -/
structure Tables.Installed (t t' : Tables) (f : FnId) (func : Function) : Prop where
  blocks : (t'.code.function f).blocks = func.blocks
  instrs : (t'.code.function f).instrs = func.instrs
  ret : (t'.code.function f).ret = (t.code.function f).ret

theorem Tables.Develops.installed {ast} {t t1 : Tables} {f} (h : (t.analyzing f).Develops ast t1)
    (has : t.code.fns.Has f) (func) : t.Installed (t1.installing f func) f func := by
  obtain ⟨has1, hsame⟩ := h.function (f := f) (Pool.has_modify.mpr has)
  have hfunction : (t1.installing f func).code.function f =
      { (t1.code.function f).install func with state := .analyzed } := Pool.getD_modify_self has1 _ _
  have hret := congrArg Function.ret (Analysis.header_analyzing t f).1
  constructor
  · rw [hfunction]
    rfl
  · rw [hfunction]
    rfl
  · rw [hfunction]
    exact (congrArg Function.ret hsame).trans hret

namespace Analysis

variable {w : Walk} {f : FnId} {c : Context} {t t' : Tables} {d before : Draft} {func : Function}

theorem Finished.entered (h : Finished w f c t before d t') (hw : ∀ p, w.Abides p) (blocks : func.blocks = d.func.blocks)
    (instrs : func.instrs = d.func.instrs) (ret : func.ret = (t.code.function f).ret) {b} {pos} (hb : func.Reached b) :
    b ∈ d.reachable ∧ ∀ i, func.at? b pos = some i → ((func.instr i).kind = .unreachable → before.func.instrs.Has i) ∧
        (func.ret ≠ .void → (func.instr i).kind ≠ .ret none) := by
  obtain ⟨hcloses, hret⟩ := h.closes hw
  have same : d.func.SameCode func := .ofSameBody blocks instrs
  have hmarked := hcloses.regular.marked (same.reached hb)
  refine ⟨hmarked, fun i hi => ?_⟩
  have hlisted : i ∈ (d.func.block b).instrs := same.block b ▸ Function.mem_of_at? hi
  obtain ⟨hhas, hblock⟩ := hcloses.regular.orderly.listed i hlisted
  rw [same.instr]
  refine ⟨fun hk => ?_, fun hne hk => hne ?_⟩
  · refine Decidable.byContradiction fun hn => hcloses.added hhas hn hk ?_
    rw [hblock, ← hcloses.reachable]
    exact hmarked
  · rw [ret, ← hret, ← hcloses.ret]
    exact hcloses.regular.result hhas hk

/-- **The must-return analysis is sound.** In every run of the machine, a call of a function whose body has
been finished is in a block that was marked then. So it does not come to an `unreachable` that was put at the
end of the body, and if the function returns a value, it does not come to a return without one. -/
theorem entered_blocks_marked {depth : Nat} (has : t.code.fns.Has f)
    (h : analyzeBody (walk depth) f c t = .ok ⟨⟩ t') :
    ∃ before after t1, Finished (walk depth) f { c with owner := some f } t before after t1 ∧
      t' = t1.installing f after.func ∧
      ∀ env func args m m', Machine.States env func args m m' → ∀ call ∈ m'.frames,
        call.func = t'.code.function f → call.block ∈ after.reachable ∧
          ∀ i, call.func.at? call.block call.pos = some i →
            ((call.func.instr i).kind = .unreachable → before.func.instrs.Has i) ∧
              (call.func.ret ≠ .void → (call.func.instr i).kind ≠ .ret none) := by
  obtain ⟨before, after, t1, hfinished, rfl, hdevelops⟩ := finished_of_analyzeBody (fun p => walk_abides p depth) h
  refine ⟨before, after, t1, hfinished, rfl, fun env func args m m' hstates call hcall heq => ?_⟩
  have hinstalled := hdevelops.installed has after.func
  obtain ⟨-, passed, hpath⟩ := (hstates.along (P := fun _ => True) (fun _ _ _ => trivial) trivial).frame hcall
  rw [heq] at hpath ⊢
  exact hfinished.entered (fun p => walk_abides p depth) hinstalled.blocks hinstalled.instrs hinstalled.ret hpath.reached

end Analysis

/-! ## The factorial -/

namespace Session

/-- The factorial is declared, and its body is still to be analysed. -/
def bareFactorial : Session :=
  stateAfter advance (stateAfter (declare [14, 17]) (create .default .none factorialAst))

/-- A run of the factorial that has come to the call of itself: the caller has left the block of the branch. -/
theorem entered_blocks_marked_factorial :
    ∃ t' before after t1 m' call,
      Analysis.analyzeBody (Analysis.walk 64) ⟨0⟩ ⟨.default, .none, factorialAst, ⟨0⟩, none⟩
        bareFactorial.tables = .ok ⟨⟩ t' ∧
      Analysis.Finished (Analysis.walk 64) ⟨0⟩ ⟨.default, .none, factorialAst, ⟨0⟩, some ⟨0⟩⟩ bareFactorial.tables
        before after t1 ∧
      Machine.States ⟨Config.default.limits, t'.types, t'.code, .none⟩ (t'.code.function ⟨0⟩) [.int 3] .fresh m' ∧
      m'.frames.length = 2 ∧ call ∈ m'.frames ∧ call.block = ⟨2⟩ ∧ call.block ∈ after.reachable := by
  have hrun : succeeds (Analysis.analyzeBody (Analysis.walk 64) ⟨0⟩ ⟨.default, .none, factorialAst, ⟨0⟩, none⟩)
      bareFactorial.tables (fun _ t' => bareFactorial.tables.code.fns.size == 1 && t'.code.fns.size == 1 &&
        ((Machine.stateAt ⟨Config.default.limits, t'.types, t'.code, .none⟩ (t'.code.function ⟨0⟩) [.int 3]
          .fresh 12).map fun m => m.frames.map (·.block)) == some [⟨0⟩, ⟨2⟩]) = true := by decide +kernel
  obtain ⟨⟨⟩, t', hbody, htest⟩ := of_succeeds hrun
  simp only [Bool.and_eq_true, beq_iff_eq] at htest
  obtain ⟨⟨hbare, hsize⟩, hframes⟩ := htest
  obtain ⟨m', hm', hblocks⟩ := Option.map_eq_some_iff.mp hframes
  have hstates := Machine.states_of_stateAt hm'
  obtain ⟨callee, call, hcalls⟩ := List.length_eq_two.mp ((List.length_map ..).symm.trans (congrArg _ hblocks))
  have hcall : call ∈ m'.frames := hcalls ▸ List.mem_cons_of_mem _ List.mem_cons_self
  have hblock : call.block = ⟨2⟩ := by
    rw [hcalls] at hblocks
    exact (List.cons.inj (List.cons.inj hblocks).2).1
  have hcallees : Machine.Callees ⟨Config.default.limits, t'.types, t'.code, .none⟩
      fun func => func = t'.code.function ⟨0⟩ := by
    intro g _ hg
    have hlt : g.index < t'.code.fns.size := Code.has_of_analyzed hg
    have hg : g = ⟨0⟩ := congrArg Id.mk (by omega)
    rw [hg]
  have hfunc := ((hstates.along hcallees rfl).frame hcall).1
  have has : bareFactorial.tables.code.fns.Has ⟨0⟩ := by
    rw [Pool.Has, hbare]
    exact Nat.zero_lt_one
  obtain ⟨before, after, t1, hfinished, -, hmarked⟩ := Analysis.entered_blocks_marked has hbody
  exact ⟨t', before, after, t1, m', call, hbody, hfinished, hstates, by rw [hcalls]; rfl, hcall, hblock,
    (hmarked _ _ _ _ _ hstates call hcall hfunc).1⟩

end Session

end Comptime
