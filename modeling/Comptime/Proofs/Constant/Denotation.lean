import Comptime.Proofs.Arithmetic.Evaluation
import Mathlib.Data.Set.Finite.List
import Mathlib.Order.WellFounded

/-!
# The meaning of global constants

A program may declare constants in any order, each by an expression in which the others occur. What a
name then stands for is said here without the order in which declarations are analysed: a name denotes
a constant if there is a derivation of it, name by name, from expressions whose names denote constants
(`Denotes`).

Main result: a name denotes something if and only if all it depends on is declared, nothing it depends
on depends on itself, and every declaration below it evaluates (`denotes_iff`).
-/

namespace Comptime

variable {env : String → Option Constant}

/-- The declaration of a constant. -/
structure Definition where
  name : String
  init : Arith

namespace Config

variable {config : Config} {env env' : String → Option Constant} {e : Arith} {k : Constant}

/-- A constant of the size may be declared. Types are not stored. -/
def stores (config : Config) : Constant → Bool
  | .number scalar _ => scalar.bits / 8 ≤ config.maxValueSize
  | .type _ => true

/-- The constant that is declared by an expression, if it has a value of an admissible type. -/
def define (config : Config) (env : String → Option Constant) (e : Arith) : Option Constant :=
  (config.evaluate env e).filter config.stores

theorem define_congr (h : ∀ x ∈ e.names, env x = env' x) : config.define env e = config.define env' e := by
  rw [define, define, evaluate, evaluate, Arith.eval_congr h]

theorem evaluate_mono (h : ∀ x k, env x = some k → env' x = some k)
    (he : config.evaluate env e = some k) : config.evaluate env' e = some k := by
  obtain ⟨q, hq, hk⟩ := Option.bind_eq_some_iff.mp he
  rw [evaluate, Arith.eval_mono h hq]
  exact hk

theorem define_of_evaluate (h : config.evaluate env e = none) : config.define env e = none := by
  rw [define, h]
  rfl

end Config

theorem Arith.isSome_of_eval {fold} {e : Arith} {q} (h : e.eval fold env = some q) {x} (hx : x ∈ e.names) :
    ∃ k, env x = some k := by
  induction e generalizing q with
  | lit | real => cases hx
  | name y span =>
    obtain rfl : x = y := by simpa [names] using hx
    obtain ⟨k, hk, -⟩ := Option.map_eq_some_iff.mp h
    exact ⟨k, hk⟩
  | unary op e span ih =>
    obtain ⟨n, m, hn, -⟩ := eval_unary_eq_some.mp h
    exact ih hn hx
  | binary op l r span hop ihl ihr =>
    obtain ⟨a, b, n, ha, hb, -⟩ := eval_binary_eq_some.mp h
    rcases List.mem_append.mp hx with hx | hx
    · exact ihl ha hx
    · exact ihr hb hx

theorem Config.isSome_of_define {config : Config} {e : Arith} {k} (h : config.define env e = some k) {x}
    (hx : x ∈ e.names) : ∃ k, env x = some k := by
  obtain ⟨q, hq, -⟩ := Option.bind_eq_some_iff.mp (Option.filter_eq_some_iff.mp h).1
  exact Arith.isSome_of_eval hq hx

/-! ## Names and what they stand for -/

/-- The names are those of the predefined types, or different from them and from each other. -/
structure Wellnamed (defs : List Definition) : Prop where
  distinct : (defs.map Definition.name).Nodup
  fresh : ∀ d ∈ defs, d.name ∉ TypeTable.builtinNames.map Prod.fst

def Refers (defs : List Definition) (x y : String) : Prop := ∃ d ∈ defs, d.name = x ∧ y ∈ d.init.names

abbrev DependsOn (defs : List Definition) : String → String → Prop :=
  Relation.ReflTransGen (Refers defs)

/-- The name is declared, or that of a predefined type. -/
def IsDeclared (defs : List Definition) (x : String) : Prop :=
  (∃ d ∈ defs, d.name = x) ∨ ∃ ty, (x, ty) ∈ TypeTable.builtinNames

/-- The name stands for a constant. -/
inductive Denotes (config : Config) (defs : List Definition) : String → Constant → Prop
  | type {x : String} {ty : TypeId} (predefined : (x, ty) ∈ TypeTable.builtinNames) :
    Denotes config defs x (.type ty)
  | const {d : Definition} {env : String → Option Constant} {k : Constant} (declared : d ∈ defs)
    (names : ∀ x ∈ d.init.names, ∀ k, env x = some k → Denotes config defs x k)
    (value : config.define env d.init = some k) : Denotes config defs d.name k

variable {config : Config} {defs defs' : List Definition} {x y : String} {k k' : Constant}
  {d : Definition}

theorem Wellnamed.eq_of_name (h : Wellnamed defs) {d'} (hd : d ∈ defs) (hd' : d' ∈ defs) (hn : d.name = d'.name) :
    d = d' := List.inj_on_of_nodup_map h.distinct hd hd' hn

theorem Wellnamed.not_predefined (h : Wellnamed defs) (hd : d ∈ defs) (ty) : (d.name, ty) ∉ TypeTable.builtinNames :=
  fun hty => h.fresh d hd (List.mem_map.mpr ⟨_, hty, rfl⟩)

private theorem builtinNames_unique {ty ty'} (h : (x, ty) ∈ TypeTable.builtinNames)
    (h' : (x, ty') ∈ TypeTable.builtinNames) :
    ty = ty' := by
  have hnodup : (TypeTable.builtinNames.map Prod.fst).Nodup := by decide
  exact congrArg Prod.snd (List.inj_on_of_nodup_map hnodup h h' rfl)

namespace Denotes

theorem isDeclared (h : Denotes config defs x k) : IsDeclared defs x := by
  cases h with
  | type predefined => exact .inr ⟨_, predefined⟩
  | const declared => exact .inl ⟨_, declared, rfl⟩

theorem unique (hd : Wellnamed defs) (h : Denotes config defs x k) (h' : Denotes config defs x k') : k = k' := by
  induction h generalizing k' with
  | type predefined =>
    cases h' with
    | type predefined' => rw [builtinNames_unique predefined predefined']
    | const declared => exact absurd predefined (hd.not_predefined declared _)
  | @const d env k declared names value ih =>
    generalize hx : d.name = x at h'
    cases h' with
    | type predefined => exact absurd (hx ▸ predefined) (hd.not_predefined declared _)
    | @const d' env' _ declared' names' value' =>
      obtain rfl := hd.eq_of_name declared declared' hx
      have henv : ∀ y ∈ d.init.names, env y = env' y := by
        intro y hy
        obtain ⟨a, ha⟩ := Config.isSome_of_define value hy
        obtain ⟨b, hb⟩ := Config.isSome_of_define value' hy
        rw [ha, hb, ih y hy a ha (names' y hy b hb)]
      rw [Config.define_congr henv, value'] at value
      exact (Option.some.inj value).symm

theorem of_refers (hd : Wellnamed defs) (h : Denotes config defs x k) (hr : Refers defs x y) :
    ∃ k, Denotes config defs y k := by
  obtain ⟨d', hd', rfl, hy⟩ := hr
  generalize hx : d'.name = x at h
  cases h with
  | type predefined => exact absurd (hx ▸ predefined) (hd.not_predefined hd' _)
  | const declared names value =>
    obtain rfl := hd.eq_of_name hd' declared hx
    obtain ⟨k, hk⟩ := Config.isSome_of_define value hy
    exact ⟨k, names y hy k hk⟩

theorem of_dependsOn (hd : Wellnamed defs) (h : Denotes config defs x k) (hr : DependsOn defs x y) :
    ∃ k, Denotes config defs y k := by
  induction hr with
  | refl => exact ⟨k, h⟩
  | tail _ hr ih =>
    obtain ⟨k, hk⟩ := ih
    exact hk.of_refers hd hr

theorem not_cyclic (hd : Wellnamed defs) (h : Denotes config defs x k) : ¬ Relation.TransGen (Refers defs) x x := by
  have hacc : Acc (fun y x => Relation.TransGen (Refers defs) x y) x := by
    have hone : Acc (fun y x => Refers defs x y) x := by
      induction h with
      | type predefined =>
        refine ⟨_, fun y hy => ?_⟩
        obtain ⟨d, hmem, rfl, -⟩ := hy
        exact absurd predefined (hd.not_predefined hmem _)
      | @const d env k declared names value ih =>
        refine ⟨_, fun y hy => ?_⟩
        obtain ⟨d', hmem, hname, hy⟩ := hy
        obtain rfl := hd.eq_of_name hmem declared hname
        obtain ⟨k, hk⟩ := Config.isSome_of_define value hy
        exact ih y hy k hk
    have htrans := Acc.transGen hone
    refine Subrelation.accessible (fun {a b} hab => ?_) htrans
    exact Relation.transGen_swap.mp hab
  intro hcycle
  clear h
  induction hacc with
  | intro x _ ih => exact ih x hcycle hcycle

theorem restrict (within : String → Prop) (h : Denotes config defs' x k) (hx : within x)
    (hw : ∀ d ∈ defs', within d.name → d ∈ defs ∧ ∀ y ∈ d.init.names, within y) :
    Denotes config defs x k := by
  induction h with
  | type predefined => exact .type predefined
  | @const d env k declared names value ih =>
    obtain ⟨hmem, hnames⟩ := hw d declared hx
    exact .const hmem (fun y hy k hk => ih y hy k hk (hnames y hy)) value

theorem mono (h : Denotes config defs x k) (hsub : ∀ d ∈ defs, d ∈ defs') : Denotes config defs' x k :=
  h.restrict (fun _ => True) trivial fun d hd _ => ⟨hsub d hd, fun _ _ => trivial⟩

end Denotes

/-! ## The environment of a program -/

open Classical in
/-- What the names of a program stand for. -/
noncomputable def meaning (config : Config) (defs : List Definition) (x : String) : Option Constant :=
  if h : ∃ k, Denotes config defs x k then some h.choose else none

theorem meaning_eq_some (hd : Wellnamed defs) : meaning config defs x = some k ↔ Denotes config defs x k := by
  unfold meaning
  split
  · next h =>
    rw [Option.some.injEq]
    exact ⟨fun he => he ▸ h.choose_spec, fun hk => h.choose_spec.unique hd hk⟩
  · next h =>
    refine ⟨fun he => ?_, fun hk => absurd ⟨k, hk⟩ h⟩
    cases he

theorem denotes_iff_define (hd : Wellnamed defs) (hmem : d ∈ defs) :
    Denotes config defs d.name k ↔ config.define (meaning config defs) d.init = some k := by
  constructor
  · intro h
    generalize hx : d.name = x at h
    cases h with
    | type predefined => exact absurd (hx ▸ predefined) (hd.not_predefined hmem _)
    | @const d' env _ declared names value =>
      obtain rfl := hd.eq_of_name hmem declared hx
      rw [← value]
      refine Config.define_congr fun y hy => ?_
      obtain ⟨k, hk⟩ := Config.isSome_of_define value hy
      rw [hk, meaning_eq_some hd]
      exact names y hy k hk
  · intro h
    exact .const hmem (fun y _ k hk => (meaning_eq_some hd).mp hk) h

/-- An environment is right about a name and all that it depends on: predefined types are themselves,
and each constant is what its declaration comes to in the environment. -/
structure Explains (config : Config) (defs : List Definition) (env : String → Option Constant)
    (x : String) : Prop where
  types : ∀ y ty, DependsOn defs x y → (y, ty) ∈ TypeTable.builtinNames → env y = some (.type ty)
  constants : ∀ d ∈ defs, DependsOn defs x d.name →
    ∃ k, env d.name = some k ∧ config.define env d.init = some k

theorem Explains.of_denotes (hd : Wellnamed defs) (h : Denotes config defs x k) :
    Explains config defs (meaning config defs) x where
  types y ty _ hy := (meaning_eq_some hd).mpr (.type hy)
  constants d hmem hdep := by
    obtain ⟨k, hk⟩ := h.of_dependsOn hd hdep
    exact ⟨k, (meaning_eq_some hd).mpr hk, (denotes_iff_define hd hmem).mp hk⟩

theorem Explains.denotes (h : Explains config defs env x) (declared : ∀ y, DependsOn defs x y → IsDeclared defs y)
    (acyclic : ∀ y, DependsOn defs x y → ¬ Relation.TransGen (Refers defs) y y) (hk : env x = some k) :
    Denotes config defs x k := by
  -- the names below `x` are finitely many, so their order is well-founded
  let below := {y : String // DependsOn defs x y}
  let before (a b : below) : Prop := Relation.TransGen (Refers defs) b.1 a.1
  have hfinite : Finite below := by
    refine Set.Finite.subset (List.finite_toSet
      (defs.map Definition.name ++ TypeTable.builtinNames.map Prod.fst)) fun y hy => ?_
    rcases declared y hy with ⟨d, hmem, rfl⟩ | ⟨ty, hty⟩
    · exact List.mem_append_left _ (List.mem_map_of_mem hmem)
    · exact List.mem_append_right _ (List.mem_map.mpr ⟨_, hty, rfl⟩)
  have htrans : IsTrans below before := ⟨fun a b c hab hbc => hbc.trans hab⟩
  have hirrefl : Std.Irrefl before := ⟨fun a => acyclic a.1 a.2⟩
  have hwf : WellFounded before := Finite.wellFounded_of_trans_of_irrefl before
  suffices hall : ∀ (a : below) (k : Constant), env a.1 = some k → Denotes config defs a.1 k from hall ⟨x, .refl⟩ k hk
  intro a
  induction a using hwf.induction with
  | _ a ih =>
    obtain ⟨y, hy⟩ := a
    intro k hk
    rcases declared y hy with ⟨d, hmem, rfl⟩ | ⟨ty, hty⟩
    · obtain ⟨k', hk', hvalue⟩ := h.constants d hmem hy
      rw [hk] at hk'
      cases hk'
      refine .const hmem (fun z hz c hc => ?_) hvalue
      have hrefers : Refers defs d.name z := ⟨d, hmem, rfl, hz⟩
      exact ih ⟨z, hy.tail hrefers⟩ (.single hrefers) c hc
    · rw [h.types y ty hy hty] at hk
      cases hk
      exact .type hty

theorem denotes_iff (hd : Wellnamed defs) : Denotes config defs x k ↔ (∀ y, DependsOn defs x y → IsDeclared defs y) ∧
      (∀ y, DependsOn defs x y → ¬ Relation.TransGen (Refers defs) y y) ∧
      ∃ env, Explains config defs env x ∧ env x = some k := by
  constructor
  · intro h
    refine ⟨fun y hy => ?_, fun y hy => ?_, _, .of_denotes hd h, (meaning_eq_some hd).mpr h⟩
    · obtain ⟨k, hk⟩ := h.of_dependsOn hd hy
      exact hk.isDeclared
    · obtain ⟨k, hk⟩ := h.of_dependsOn hd hy
      exact hk.not_cyclic hd
  · rintro ⟨declared, acyclic, env, henv, hk⟩
    exact henv.denotes declared acyclic hk

end Comptime
