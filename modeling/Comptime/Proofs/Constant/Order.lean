import Comptime.Proofs.Constant.Analysis

/-!
# Constants mean the same in every order

What the names of a program of constants stand for after analysis is what they denote, so neither the
order of the declarations matters nor a declaration that no other one mentions.
-/

namespace Comptime

namespace Session

variable {config : Config} {defs : List Definition} {s : Session} {x : String}

theorem Analyzed.constValue (h : s.Analyzed config defs) (hx : x.splitOn "." = [x]) :
    s.constValue x = (meaning config defs x).map Constant.value := by
  rw [Session.constValue, h.symbolValue hx]
  cases meaning config defs x with
  | none => rfl
  | some k => cases k <;> rfl

theorem Analyzed.constValue_congr {defs'} {s' : Session} (h : s.Analyzed config defs) (h' : s'.Analyzed config defs')
    (hx : x.splitOn "." = [x]) (hsame : ∀ k, Denotes config defs x k ↔ Denotes config defs' x k) :
    s.constValue x = s'.constValue x := by
  have hmeaning : meaning config defs x = meaning config defs' x := by
    refine Option.ext fun k => ?_
    rw [meaning_eq_some h.wellnamed, meaning_eq_some h'.wellnamed, hsame]
  rw [h.constValue hx, h'.constValue hx, hmeaning]

end Session

/-- After the analysis of constants a name has a value if and only if everything that it depends on is
declared, nothing of that depends on itself, and there are constants for the names below it such that
each declaration comes to its constant when the constants are put in for the names; the value is then
that of the name. So the order of the declarations does not matter, nor do declarations that no other
one mentions. The analysis is given up only if a task is started more often than it may be, and that
does not happen where each may be started as often as there are declarations. -/
theorem constants_independent_of_order :
    (∀ (config : Config) (defs : List Definition) (s : Session), s.Analyzed config defs →
      ∀ x, x.splitOn "." = [x] → ∀ v, s.constValue x = some v ↔
        (∀ y, DependsOn defs x y → IsDeclared defs y) ∧
        (∀ y, DependsOn defs x y → ¬ Relation.TransGen (Refers defs) y y) ∧
        ∃ env, Explains config defs env x ∧ ∃ k, env x = some k ∧ k.value = v) ∧
    (∀ (config : Config) (defs defs' : List Definition) (s s' : Session), s.Analyzed config defs →
      s'.Analyzed config defs' → defs.Perm defs' →
      ∀ x, x.splitOn "." = [x] → s.constValue x = s'.constValue x) ∧
    (∀ (config : Config) (defs defs' : List Definition) (d : Definition) (s s' : Session),
      s.Analyzed config (defs ++ defs') → s'.Analyzed config (defs ++ d :: defs') →
      (∀ e ∈ defs ++ defs', d.name ∉ e.init.names) →
      ∀ x, x.splitOn "." = [x] → x ≠ d.name → s.constValue x = s'.constValue x) ∧
    ∀ (config : Config) (host : Host) (ast : Ast) (items : List NodeId) (defs : List Definition),
      Wellnamed defs → Session.Endures config defs → List.Forall₂ ast.Defines items defs →
      defs.length ≤ config.maxTaskRuns → defs.length * (defs.length + 2) < config.fuel →
      ∃ s0 s, Session.declare items (.create config host ast) = .ok () s0 ∧
        (s0.analyze = .ok () s ∨ ∃ diagnostics, s0.analyze = .error (.rejected diagnostics) s) := by
  refine ⟨fun config defs s h x hx v => ?_, fun config defs defs' s s' h h' hperm x hx => ?_,
    fun config defs defs' d s s' h h' hunused x hx hne => ?_,
    fun config host ast items defs hd hsteps hitems hruns hfuel =>
      Session.exists_analyzed hd hsteps hitems hruns hfuel⟩
  · rw [h.constValue hx, Option.map_eq_some_iff]
    constructor
    · rintro ⟨k, hk, hv⟩
      obtain ⟨hdeclared, hacyclic, env, henv, hx⟩ :=
        (denotes_iff h.wellnamed).mp ((meaning_eq_some h.wellnamed).mp hk)
      exact ⟨hdeclared, hacyclic, env, henv, k, hx, hv⟩
    · rintro ⟨hdeclared, hacyclic, env, henv, k, hx, hv⟩
      refine ⟨k, (meaning_eq_some h.wellnamed).mpr ?_, hv⟩
      exact (denotes_iff h.wellnamed).mpr ⟨hdeclared, hacyclic, env, henv, hx⟩
  · refine h.constValue_congr h' hx fun k => ⟨fun hk => ?_, fun hk => ?_⟩
    · exact hk.mono fun d => hperm.mem_iff.mp
    · exact hk.mono fun d => hperm.mem_iff.mpr
  · refine h.constValue_congr h' hx fun k => ⟨fun hk => ?_, fun hk => ?_⟩
    · refine hk.mono fun e he => ?_
      rcases List.mem_append.mp he with he | he
      · exact List.mem_append_left _ he
      · exact List.mem_append_right _ (List.mem_cons_of_mem _ he)
    · -- no way leads from another name to that of the declaration
      refine hk.restrict (fun y => y ≠ d.name) hne fun e he hname => ?_
      have hmem : e ∈ defs ++ defs' := by
        rcases List.mem_append.mp he with he | he
        · exact List.mem_append_left _ he
        · rcases List.mem_cons.mp he with rfl | he
          · exact absurd rfl hname
          · exact List.mem_append_right _ he
      refine ⟨hmem, fun y hy he => ?_⟩
      subst he
      exact hunused e hmem hy

/-! ## A program of constants -/

/-- The constants `area :: width * height`, `height :: width + 9`, `width :: 40`, two that are said to be
each other, and `spare :: width / (width - 40)`. -/
def roomsAst : Ast := ⟨#[
  ⟨.ident "width", ⟨0, 8, 13⟩⟩, ⟨.ident "height", ⟨0, 16, 22⟩⟩, ⟨.binary .mul 0 1, ⟨0, 8, 22⟩⟩,
  ⟨.decl ⟨"area", none, some 2, false⟩, ⟨0, 0, 22⟩⟩,
  ⟨.ident "width", ⟨0, 33, 38⟩⟩, ⟨.intLit 9, ⟨0, 41, 42⟩⟩, ⟨.binary .add 4 5, ⟨0, 33, 42⟩⟩,
  ⟨.decl ⟨"height", none, some 6, false⟩, ⟨0, 23, 42⟩⟩,
  ⟨.intLit 40, ⟨0, 52, 54⟩⟩, ⟨.decl ⟨"width", none, some 8, false⟩, ⟨0, 43, 54⟩⟩,
  ⟨.ident "odd", ⟨0, 63, 66⟩⟩, ⟨.decl ⟨"even", none, some 10, false⟩, ⟨0, 55, 66⟩⟩,
  ⟨.ident "even", ⟨0, 74, 78⟩⟩, ⟨.decl ⟨"odd", none, some 12, false⟩, ⟨0, 67, 78⟩⟩,
  ⟨.ident "width", ⟨0, 88, 93⟩⟩, ⟨.ident "width", ⟨0, 97, 102⟩⟩, ⟨.intLit 40, ⟨0, 105, 107⟩⟩,
  ⟨.binary .sub 15 16, ⟨0, 96, 108⟩⟩, ⟨.binary .div 14 17, ⟨0, 88, 108⟩⟩,
  ⟨.decl ⟨"spare", none, some 18, false⟩, ⟨0, 79, 108⟩⟩]⟩

/-- The first two declarations. -/
def products : List Definition := [
  ⟨"area", .binary .mul (.name "width" ⟨0, 8, 13⟩) (.name "height" ⟨0, 16, 22⟩) ⟨0, 8, 22⟩
    BinaryOp.isArithmetic_mul⟩,
  ⟨"height", .binary .add (.name "width" ⟨0, 33, 38⟩) (.lit 9 ⟨0, 41, 42⟩ (by decide)) ⟨0, 33, 42⟩
    BinaryOp.isArithmetic_add⟩]

/-- The three that follow. -/
def measures : List Definition := [
  ⟨"width", .lit 40 ⟨0, 52, 54⟩ (by decide)⟩,
  ⟨"even", .name "odd" ⟨0, 63, 66⟩⟩,
  ⟨"odd", .name "even" ⟨0, 74, 78⟩⟩]

/-- The last one, which no other one mentions. -/
def spare : Definition :=
  ⟨"spare", .binary .div (.name "width" ⟨0, 88, 93⟩)
    (.binary .sub (.name "width" ⟨0, 97, 102⟩) (.lit 40 ⟨0, 105, 107⟩ (by decide)) ⟨0, 96, 108⟩
      BinaryOp.isArithmetic_sub)
    ⟨0, 88, 108⟩ BinaryOp.isArithmetic_div⟩

theorem roomsAst_products : List.Forall₂ roomsAst.Defines [3, 7] products :=
  .cons ⟨_, _, rfl, .binary rfl (.name rfl) (.name rfl)⟩ (.cons ⟨_, _, rfl, .binary rfl (.name rfl) (.lit rfl)⟩ .nil)

theorem roomsAst_measures : List.Forall₂ roomsAst.Defines [9, 11, 13] measures :=
  .cons ⟨_, _, rfl, .lit rfl⟩ (.cons ⟨_, _, rfl, .name rfl⟩ (.cons ⟨_, _, rfl, .name rfl⟩ .nil))

theorem roomsAst_spare : roomsAst.Defines 19 spare :=
  ⟨_, _, rfl, .binary rfl (.name rfl) (.binary rfl (.name rfl) (.lit rfl))⟩

theorem denotes_area : Denotes .default (products ++ measures) "area" (.number .s32 1960) := by
  let env (x : String) : Option Constant :=
    if x = "width" then some (.number .s32 40)
    else if x = "height" then some (.number .s32 49) else none
  have hwidth : Denotes .default (products ++ measures) "width" (.number .s32 40) :=
    @Denotes.const _ _ measures[0] env _ (by simp [measures]) (by simp [measures, Arith.names]) (by decide)
  have hheight : Denotes .default (products ++ measures) "height" (.number .s32 49) := by
    refine @Denotes.const _ _ products[1] env _ (by simp [products]) ?_ (by decide)
    intro x hx k hk
    obtain rfl : x = "width" := by simpa [products, Arith.names] using hx
    cases hk
    exact hwidth
  refine @Denotes.const _ _ products[0] env _ (by simp [products]) ?_ (by decide)
  intro x hx k hk
  obtain rfl | rfl : x = "width" ∨ x = "height" := by simpa [products, Arith.names] using hx
  · cases hk
    exact hwidth
  · cases hk
    exact hheight

/-- Three sessions that have analysed the program agree: one takes the declarations in their order, one
in another order, and one also has the last declaration. -/
theorem constants_independent_of_order_rooms :
    ∃ s1 s2 s3 : Session, s1.Analyzed .default (products ++ measures) ∧
      s2.Analyzed .default (measures ++ products) ∧
      s3.Analyzed .default (products ++ spare :: measures) ∧
      s1.constValue "area" = some (.int 1960) ∧ s1.constValue "even" = none ∧
      s2.constValue "area" = s1.constValue "area" ∧ s3.constValue "area" = s1.constValue "area" := by
  obtain ⟨value, reorder, extend, ends⟩ := constants_independent_of_order
  have hsession {items : List NodeId} {defs : List Definition} (hd : Wellnamed defs)
      (hsteps : Session.Endures .default defs) (hitems : List.Forall₂ roomsAst.Defines items defs)
      (hlength : defs.length ≤ 6) : ∃ s : Session, s.Analyzed .default defs := by
    have hfuel : defs.length * (defs.length + 2) < Config.default.fuel := by
      calc defs.length * (defs.length + 2) ≤ 6 * 8 := Nat.mul_le_mul hlength (by omega)
        _ < Config.default.fuel := by decide
    obtain ⟨s0, s, hdeclare, hanalyze⟩ := ends .default .none roomsAst items defs hd hsteps hitems
      (hlength.trans (by decide)) hfuel
    exact ⟨s, hd, hsteps, .none, roomsAst, items, s0, hitems, hdeclare, hanalyze⟩
  have hnames : Wellnamed (products ++ measures) := ⟨by decide, by decide⟩
  obtain ⟨s1, h1⟩ := hsession hnames (by unfold Session.Endures; decide)
    (List.rel_append roomsAst_products roomsAst_measures) (by decide)
  obtain ⟨s2, h2⟩ := hsession ⟨by decide, by decide⟩ (by unfold Session.Endures; decide)
    (List.rel_append roomsAst_measures roomsAst_products) (by decide)
  obtain ⟨s3, h3⟩ := hsession ⟨by decide, by decide⟩ (by unfold Session.Endures; decide)
    (List.rel_append roomsAst_products (.cons roomsAst_spare roomsAst_measures)) (by decide)
  have harea : "area".splitOn "." = ["area"] := splitOn_of_no_dot (by decide)
  refine ⟨s1, s2, s3, h1, h2, h3, ?_, ?_, ?_, ?_⟩
  · obtain ⟨declared, acyclic, env, henv, hk⟩ := (denotes_iff hnames).mp denotes_area
    exact (value _ _ _ h1 _ harea _).mpr ⟨declared, acyclic, env, henv, _, hk, rfl⟩
  · refine Option.eq_none_iff_forall_ne_some.mpr fun v hv => ?_
    obtain ⟨-, acyclic, -⟩ := (value _ _ _ h1 "even" (splitOn_of_no_dot (by decide)) v).mp hv
    have heven : Refers (products ++ measures) "even" "odd" :=
      ⟨measures[1], by simp [measures], rfl, List.mem_singleton_self _⟩
    have hodd : Refers (products ++ measures) "odd" "even" :=
      ⟨measures[2], by simp [measures], rfl, List.mem_singleton_self _⟩
    exact acyclic "even" .refl (.head heven (.single hodd))
  · exact reorder _ _ _ _ _ h2 h1 List.perm_append_comm _ harea
  · exact (extend _ _ _ _ _ _ h1 h3 (by decide) _ harea (by decide)).symm

end Comptime
