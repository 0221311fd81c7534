import Comptime.Proofs.Footprint.Declaration

/-!
# The graph of expressions

The code of an expression keeps a draft in order, and no statement is deferred. The operators `&&` and `||`
divide the way: their right side is written into a block of its own, which the way may lead around.
-/

namespace Comptime

open Analysis (folding_views node_views quoted_views types_views)

theorem Draft.plain_fork (d : Draft) (decided cond span) : d.Plain (d.fork decided cond span).1 := by
  obtain ⟨kind, targets, hfork⟩ := d.fork_eq decided cond span
  have hexit := d.forkBlocks.plain_emitExit kind targets span
  rw [hfork]
  exact ⟨hexit.defers, hexit.inDefer⟩

namespace Lower

variable {p : Policy} {o : Draft.Order} {d : Draft} {w : Walk} {scope : ScopeId}

section

variable (hw : w.Abides p) (hs : p.Sees scope)

include hw hs

theorem value_provides (n) : Provides p o (w.value scope n) d :=
  (hw.expr hs n).bind fun _ _ _ hop => rvalue_provides hop

theorem boolean_provides (n) : Provides p o (boolean w scope n) d :=
  (hw.expr hs n).bind fun _ _ _ hop => coerce_provides hop _

/-! ## Operators that divide the way -/

theorem branchLogic_provides (decided) {lhs} (hlhs : lhs.Usable p o d) (rhs span) :
    Provides p o (branchLogic w scope decided lhs rhs span) d := by
  refine (materialize_carries hlhs).bind fun cond d _ hcond => fun hd => .get ?_
  have hfork (known : o.known) := ((hd known).fork (hcond known).toOpen (hcond known).toOffers decided span).1
  have hrhs : Gives p (do
      moveTo (d.addBlock "logic.rhs").2
      let rhs ← materialize (← boolean w scope rhs)
      let rhsEnd := (← get).current
      jump (d.fork decided cond span).2 span
      moveTo (d.fork decided cond span).2
      let id ← emit (.phi [(d.current, cond), (rhsEnd, rhs)]) .bool span
      return Operand.instr id .bool span : Lower Operand)
      (if decided then d.forkBlocks.emitExit (.branch cond (d.fork decided cond span).2
          (d.addBlock "logic.rhs").2) [(d.fork decided cond span).2, (d.addBlock "logic.rhs").2] span
        else d.forkBlocks.emitExit (.branch cond (d.addBlock "logic.rhs").2
          (d.fork decided cond span).2) [(d.addBlock "logic.rhs").2, (d.fork decided cond span).2] span)
      fun op d' => d.Follows o d' ∧ op.Usable p o d' := by
    refine Gives.bind (P := fun _ d' => d' = (d.fork decided cond span).1) (.modify rfl) ?_
    rintro _ _ rfl
    -- the block where the ways meet is owed as long as the right side is written
    let inner : Draft.Order := ⟨o.known, (d.fork decided cond span).2 :: o.owed⟩
    refine Gives.bind (boolean_provides (o := inner) hw hs rhs hfork) fun op d1 ⟨h1, hop⟩ => ?_
    refine Gives.bind (materialize_carries hop fun known => (h1.continues known).after)
      fun rhs d2 ⟨h2, hcomputed⟩ => .get ?_
    refine .modifyBind (.modifyBind (.modifyGetBind (.pure ?_)))
    have hwhole := h1.trans h2
    have hopen (known : o.known) : Draft.Open (((d2.join (d.fork decided cond span).2 span).emit
        (.phi [(d.current, cond), (d2.current, rhs)]) .bool span).1) := by
      refine Draft.open_emit ?_ rfl _ _
      exact (((hwhole.continues known).toGrows).trans (d2.grows_jump _ span)).blocks (d.has_fork decided cond span)
    have hplain : d.Plain (((d2.join (d.fork decided cond span).2 span).emit
        (.phi [(d.current, cond), (d2.current, rhs)]) .bool span).1) := by
      have hjump := d2.plain_jump (d.fork decided cond span).2 span
      have hjoin : d2.Plain (d2.join (d.fork decided cond span).2 span) := ⟨hjump.defers, hjump.inDefer⟩
      exact ((d.plain_fork decided cond span).trans hwhole.toPlain).trans (hjoin.trans (Draft.plain_emit _ _ _ _))
    refine ⟨⟨hplain, fun known => ?_⟩, ?_⟩
    · have hwhole := hwhole.continues known
      have hjoin := (hd known).join (hcond known).toOpen (hcond known).toOffers hwhole.after hwhole.toAdvances
        (hcomputed known).toOpen (hcomputed known).toOffers .bool
      exact ⟨hjoin.2, hplain, hd known, hjoin.1, fun _ => hopen known⟩
    · exact Operand.usable_instr (fun known => ⟨hopen known, Draft.offers_emit _ _ _ _⟩) fun _ => rfl
  cases decided <;> exact hrhs

theorem logic_provides (op lhs rhs span) : Provides p o (logic w scope op lhs rhs span) d := by
  refine (boolean_provides hw hs lhs).bind fun lhs d1 _ hlhs => .reads folding_views fun fold => ?_
  split
  · refine .ite (fun _ => ?_) fun _ => ?_
    · refine .liftBind ((boolean_provides hw hs rhs).loosely.aside fun _ _ _ => trivial) fun _ _ => .pure ?_
      exact Operand.usable_value
    · exact (boolean_provides hw hs rhs).bind fun _ _ _ hop => .pure ⟨hop.supplied, hop.sees, hop.tame⟩
  · exact branchLogic_provides hw hs _ hlhs rhs span

/-! ## Members, elements and calls -/

theorem member_provides (base) (name : String) (span) : Provides p o (member w scope base name span) d := by
  refine (hw.expr hs base).bind fun op d1 _ hop => ?_
  split
  · next inner hkind =>
    refine .scopes fun t g ht => ?_
    have hlook := p.lookupHere ht (hop.sees inner hkind) name
    refine ⟨by simp only [hlook.1], ?_⟩
    cases hfound : t.scopes.lookupHere inner name with
    | some found => exact symbolOperand_provides (hlook.2 found hfound) span
    | none => exact .throw trivial
  · exact enumVariant_provides _ name span
  · exact valueMember_provides hop name span

theorem index_provides (base index : NodeId) (span : Span) : Provides p o (Lower.index w scope base index span) d := by
  refine (hw.expr hs base).bind fun base d1 _ hbase => ?_
  refine (value_provides hw hs index).bind fun index d2 h2 hindex => .reads types_views fun t => ?_
  refine .ite (fun _ => ?_) fun _ => .reads (quoted_views _) fun _ => .thrown trivial
  refine (follow_provides _ (h2.usable hbase) span).bind fun base d3 h3 hbase => ?_
  refine (elements_carries base span).bind fun r d4 h4 _ => ?_
  refine (foldIndex_carries base index r.1 r.2 span).bind fun folded d5 h5 hfolded => ?_
  have hlater := (h3.trans h4).trans h5
  cases folded with
  | some op => exact .pure (hfolded op rfl)
  | none =>
    refine (elementBase_carries ((h4.trans h5).usable hbase) r.2).bind fun r' d6 h6 hptr => ?_
    refine (materialize_carries ((hlater.trans h6).usable hindex)).bind fun i d7 h7 hi => ?_
    refine .liftBind (Analysis.ptrTo_abides _) fun ty _ => ?_
    refine .bind (emit_carries (.elemPtr r'.1 i r.2) rfl rfl (supplies_two (h7.supplies hptr) hi) _ _)
      fun id d8 _ hid => .pure ?_
    exact Operand.usable_place hid _ _ _

theorem call_provides (callee : NodeId) (args : List NodeId) (span : Span) :
    Provides p o (call w scope callee args span) d := by
  refine (hw.expr hs callee).bind fun callee d1 _ hcallee => ?_
  refine .bind (.mapM (Q := Operand.Usable p o) (·.usable) fun n _ d' _ => value_provides hw hs n)
    fun ops d2 h2 hops => ?_
  split
  · exact .liftBind (Analysis.selectOverload_abides _ _ _) fun f _ => directCall_provides f hops span
  · exact .liftBind (Analysis.specialize_abides hw _ _ _) fun f _ => directCall_provides f hops span
  · exact directCall_provides _ hops span
  · exact .throw trivial
  · exact indirectCall_provides (h2.usable hcallee) hops span

private theorem compound_provides (ty : NodeId) (values : List NodeId) (span : Span) :
    Provides p o (compound w scope ty values span) d := by
  refine .liftBind (hw.typeExpr hs ty) fun ty _ => .ite (fun _ => ?_) fun _ => ?_
  · exact .liftBind (Analysis.zeroValue_abides ty span) fun v _ => .pure Operand.usable_value
  refine (compoundTypes_carries ty _ span).bind fun types d1 _ _ => ?_
  split
  · refine .ite (fun _ => .reads (quoted_views _) fun _ => .thrown trivial) fun _ => ?_
    refine .liftBind (Analysis.valueLayout_abides ty span) fun _ _ => ?_
    refine .bind (.mapM (Q := Operand.Usable p o) (·.usable) fun a _ d' _ => ?_) fun ops d2 _ hops =>
      assemble_provides hops ty span
    exact (hw.expr hs a.1).bind fun _ _ _ hop => coerce_provides hop a.2
  · refine (hw.expr hs _).bind fun _ d2 _ hop => ?_
    exact (coerce_provides hop ty).bind fun _ _ _ hop => .pure ⟨hop.supplied, hop.sees, hop.tame⟩
  · exact .reads (quoted_views _) fun _ => .throw trivial

/-! ## All expressions -/

theorem expression_provides (n : NodeId) : Provides p o (expression w scope n) d := by
  refine .reads (node_views n) fun node => ?_
  dsimp only
  split
  · exact .pure (Operand.usable_const fun _ _ => p.written (by split <;> [decide; split <;> decide]))
  · exact .pure (Operand.usable_const fun _ _ => p.written (by decide))
  · exact .pure Operand.usable_value
  · exact .pure Operand.usable_value
  · exact ident_provides hs _ _
  · refine .ite (fun _ => logic_provides hw hs _ _ _ _) fun _ => ?_
    refine (value_provides hw hs _).bind fun lhs d1 _ hlhs => ?_
    exact (value_provides hw hs _).bind fun rhs d2 h2 hrhs => binary_provides _ (h2.usable hlhs) hrhs _
  · exact (hw.expr hs _).bind fun _ _ _ hop => unary_provides _ hop _
  · exact .liftBind (hw.typeExpr hs _) fun target _ => (hw.expr hs _).bind fun _ _ _ hop => castTo_provides hop target _
  · exact call_provides hw hs _ _ _
  · exact member_provides hw hs _ _ _
  · exact index_provides hw hs _ _ _
  · exact (hw.expr hs _).bind fun _ _ _ hop => addressOfPlace_provides hop _
  · exact (value_provides hw hs _).bind fun _ _ _ hop => dereference_provides hop _
  · exact compound_provides hw hs _ _ _
  iterate 2
    refine .liftBind (Analysis.layoutOfNode_abides hw hs _ _) fun _ _ => .pure (Operand.usable_const fun _ _ => ?_)
    exact p.written (by decide)
  · refine .liftBind (Analysis.bindFnLiteral_abides hw hs n _) fun r _ => ?_
    split
    · exact fnOperand_provides _ _
    · exact .pure (Operand.usable_poly _ _)
  · exact .liftBind (Analysis.fnGroup_abides hw hs n _ _) fun _ _ => .pure (Operand.usable_group _ _)
  · exact .liftBind (Analysis.comptimeValue_abides hw hs _ none) fun _ _ => .pure Operand.usable_value
  all_goals first
    | exact .liftBind (hw.typeExpr hs n) fun _ _ => .pure Operand.usable_value
    | exact .throw trivial

end

end Lower

end Comptime
