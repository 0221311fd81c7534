import Comptime.Proofs.Constant.Table

/-!
# The analysis of a constant

The task of a declaration evaluates its expression and binds its name to the value. What the run
changes of the scopes and of the scheduler is said here, and why it halts if it does
(`Tables.Lists.analyzeGlobal_spec`).
-/

namespace Comptime

open Analysis (globalScope)

namespace TypeTable.Numbers

variable {t : TypeTable} (h : t.Numbers)

include h

private theorem layout (s : Scalar) : t.layout s.ty = .ok ⟨s.bits / 8, s.bits / 8⟩ := by
  obtain ⟨fuel, hfuel⟩ : ∃ fuel, t.shapeFuel = fuel + 1 :=
    Nat.exists_eq_succ_of_ne_zero (by simp [TypeTable.shapeFuel])
  rw [TypeTable.layout, TypeTable.shape, hfuel, TypeTable.shapeAt, h.scalar s]
  cases s <;> rfl

private theorem cells (s : Scalar) : t.cells s.ty = 1 := by
  obtain ⟨fuel, hfuel⟩ : ∃ fuel, t.shapeFuel = fuel + 1 :=
    Nat.exists_eq_succ_of_ne_zero (by simp [TypeTable.shapeFuel])
  rw [TypeTable.cells, hfuel, TypeTable.cellsAt, h.scalar s]
  cases s <;> rfl

end TypeTable.Numbers
namespace Analysis

variable {c : Context} {t : Tables} {span : Span} {w : Walk}

private theorem valueLayout_scalar (ht : t.types.Numbers) (s : Scalar) :
    if s.bits / 8 ≤ c.config.maxValueSize then ∃ layout, valueLayout s.ty span c t = .ok layout t
    else ∃ h, valueLayout s.ty span c t = .error h t ∧ h.Reported := by
  have hlayout : layoutOf s.ty span c t = .ok ⟨s.bits / 8, s.bits / 8⟩ t := by
    rw [layoutOf, bind_ok (types_reads c t), ht.layout s]
    rfl
  rw [valueLayout, bind_ok hlayout, bind_ok (read_reads c t), bind_ok (types_reads c t), ht.cells s]
  by_cases hfits : s.bits / 8 ≤ c.config.maxValueSize
  · have hsize : (decide (c.config.maxValueSize < s.bits / 8) || decide (c.config.maxValueSize < 1)) = false := by
      have : 4 ≤ s.bits / 8 := by cases s <;> decide
      simp only [Bool.or_eq_false_iff, decide_eq_false_iff_not]
      omega
    rw [if_pos hfits]
    dsimp only
    rw [if_neg (by simpa using hsize)]
    exact ⟨_, rfl⟩
  · rw [if_neg hfits, if_pos (by simp; omega)]
    exact ⟨_, rfl, _, rfl⟩

private theorem checkStorage_scalar (ht : t.types.Numbers) (s : Scalar) :
    if s.bits / 8 ≤ c.config.maxValueSize then checkStorage s.ty false span c t = .ok () t
    else ∃ h, checkStorage s.ty false span c t = .error h t ∧ h.Reported := by
  have hty : (s.ty = .void || s.ty = .null) = false := by cases s <;> decide
  have hcheck : checkStorage s.ty false span c t = (valueLayout s.ty span >>= fun _ => pure ()) c t := by
    rw [checkStorage, hty]
    rfl
  have hlayout := @valueLayout_scalar c t span ht s
  rw [hcheck]
  split at hlayout
  · next hfits =>
    obtain ⟨layout, hlayout⟩ := hlayout
    rw [if_pos hfits, bind_ok hlayout]
    rfl
  · next hfits =>
    obtain ⟨h, hlayout, hreported⟩ := hlayout
    rw [if_neg hfits, bind_error hlayout]
    exact ⟨h, rfl, hreported⟩

theorem globalBinding_constant (ht : t.types.Numbers) (name : String) (init : NodeId) (k : Constant) :
    if c.config.stores k then ∃ code, globalBinding ⟨name, none, some init, false⟩ k.value k.ty span c t =
        .ok k.symbolValue { t with code }
    else ∃ h, globalBinding ⟨name, none, some init, false⟩ k.value k.ty span c t = .error h t ∧ h.Reported := by
  cases k with
  | type ty => exact ⟨t.code, rfl⟩
  | number s word =>
    have hcheck := @checkStorage_scalar c t span ht s
    have hbinding : globalBinding ⟨name, none, some init, false⟩ (s.value word) s.ty span c t =
        (checkStorage s.ty false span >>= fun _ =>
          addGlobal ⟨name, s.ty, s.value word, false, span⟩ >>= fun _ =>
            pure (.const s.ty (s.value word))) c t := by
      cases s <;> rfl
    simp only [Config.stores, decide_eq_true_eq, Constant.value, Constant.ty, hbinding]
    split at hcheck
    · next hfits =>
      rw [if_pos hfits, bind_ok hcheck]
      exact ⟨_, rfl⟩
    · next hfits =>
      obtain ⟨h, hcheck, hreported⟩ := hcheck
      rw [if_neg hfits, bind_error hcheck]
      exact ⟨h, rfl, hreported⟩

private theorem directBinding_spells {value e} (he : c.ast.Spells value e) (scope) (name) (symbol) :
    directBinding w scope ⟨name, none, some value, false⟩ symbol c t = .ok none t := by
  have hbound : boundTo w scope name symbol value c t = .ok none t := by
    rw [boundTo, bind_ok (node_reads value c t)]
    dsimp only
    cases he <;> next node => rw [node]; rfl
  rw [directBinding]
  dsimp only
  rw [bind_ok hbound]
  rfl

private theorem analyzeGlobal_eq {symbol n value} {d : Definition}
    (hscope : (t.scopes.symbol symbol).scope = globalScope)
    (hnode : (t.scopes.symbol symbol).node = some n)
    (hn : c.ast.node n = ⟨.decl ⟨d.name, none, some value, false⟩, span⟩) (he : c.ast.Spells value d.init) :
    analyzeGlobal w symbol c t = (comptimeValue w globalScope value none >>= fun r =>
      globalBinding ⟨d.name, none, some value, false⟩ r.1 r.2 span >>= resolveSymbol symbol) c t := by
  rw [analyzeGlobal, bind_ok (scopes_reads c t)]
  dsimp only
  rw [hnode, hscope]
  dsimp only
  rw [bind_ok (node_reads n c t)]
  dsimp only
  rw [hn]
  dsimp only
  rw [bind_ok (directBinding_spells he globalScope d.name symbol)]
  rfl

end Analysis

namespace Tables

variable {c : Context} {t : Tables} {defs : List Definition}

theorem Lists.analyzeGlobal_spec (h : t.Lists c.ast defs) (ht : t.types.Numbers) {i : Nat}
    (hi : i < defs.length) {depth : Nat} (hdepth : c.ast.size ≤ depth)
    (hsteps : 7 * defs[i].init.size < c.config.limits.maxSteps) {view : String → Standing}
    (hview : ∀ x ∈ defs[i].init.names, t.scopes.Offers x (view x)) :
    match Analysis.analyzeGlobal (Analysis.walk depth) (symbolAt i) c t with
    | .ok _ t' => t'.scheduler = t.scheduler ∧
      ∃ k, c.config.define (fun x => (view x).constant?) defs[i].init = some k ∧
        t'.scopes = (t.nested globalScope).scopes.setState (symbolAt i) (.resolved k.symbolValue)
    | .error h t' => t'.scheduler = t.scheduler ∧ t'.scopes = (t.nested globalScope).scopes ∧
      ((∃ x ∈ defs[i].init.names, (view x).Stops h) ∨ (h.Reported ∨ ∃ trap, h = .trap trap) ∧
          ∀ env, Lower.Agrees view env → c.config.define env defs[i].init = none) := by
  obtain ⟨hscope, n, hnode, value, span, hn, he⟩ := h.nodes i hi
  rw [Analysis.analyzeGlobal_eq hscope hnode hn he]
  have hvalue := @Analysis.comptimeValue_spec c t defs[i].init value globalScope view depth ht he
    (he.height_le.trans hdepth) hsteps fun x hx => (hview x hx).shows h.framed .function
  split at hvalue
  · next v ty t' hres =>
    obtain ⟨⟨strays, rfl⟩, k, hk, rfl, rfl⟩ := hvalue
    rw [Analysis.bind_ok hres]
    have hbind := @Analysis.globalBinding_constant c { t.nested globalScope with strays } span ht defs[i].name value k
    split at hbind
    · next hstores =>
      obtain ⟨code, hbind⟩ := hbind
      rw [Analysis.bind_ok hbind]
      refine ⟨rfl, k, ?_, rfl⟩
      rw [Config.define, hk]
      exact Option.filter_some_pos hstores
    · next hstores =>
      obtain ⟨halt, hbind, hreported⟩ := hbind
      rw [Analysis.bind_error hbind]
      refine ⟨rfl, rfl, .inr ⟨.inl hreported, fun env henv => ?_⟩⟩
      rw [Config.define, Config.evaluate_mono henv hk]
      exact Option.filter_some_neg (by simpa using hstores)
  · next halt t' hres =>
    obtain ⟨rfl, hu⟩ := hvalue
    rw [Analysis.bind_error hres]
    refine ⟨rfl, rfl, hu.cases.imp_right ?_⟩
    rintro ⟨hwhy, hnone⟩
    exact ⟨hwhy, fun env henv => Config.define_of_evaluate (hnone env henv)⟩

end Tables

end Comptime
