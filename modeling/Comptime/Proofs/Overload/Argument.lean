import Comptime.Proofs.Footprint.Task
import Comptime.Proofs.Overload.Coercion
import Comptime.Proofs.Overload.Selection
import Comptime.Proofs.State
import Comptime.Session.Analyze
import Comptime.Session.Declare

/-!
# The arguments of calls

Only a number and what is computed from numbers may still take another type. If operators are computed
during analysis, that is a constant (`Lower.values_tame`), since the policy of a single run counts the types
of numbers. Hence a member of a group takes the arguments of a call exactly if they can be converted to the
types of its parameters.

Executed code that calls a function through a pointer of another type may give a constant that is no value of
its type. Such an argument can have a rank at a type and still not be converted to it
(`Lower.rank_without_conversion`).
-/

namespace Comptime.Lower

variable {α : Type} {c : Context} {t : Tables} {d : Draft} {args : List Operand}

theorem values_tame {scope} {nodes : List NodeId} {depth} {d'} {t' : Tables} (fold : c.config.foldConstants = true)
    (hrun : nodes.mapM ((Analysis.walk depth).value scope) d c t = .ok (args, d') t') :
    t.types.Widens t'.types ∧ ∀ arg ∈ args, arg.Tame t'.types := by
  have hcarries : Carries (.adding c t none True) .loose (nodes.mapM ((Analysis.walk depth).value scope)) d
      fun ops d' => ∀ op ∈ ops, op.Usable (.adding c t none True) .loose d' :=
    .mapM (·.usable) fun n _ _ _ => value_provides (Analysis.walk_abides _ depth) trivial n
  obtain ⟨hadds, -, husable⟩ := Analysis.Gives.of_ok (hcarries nofun) hrun
  have hwidens := hadds.develops.types.toWidens
  refine ⟨hwidens, fun arg harg hlit => ?_⟩
  obtain ⟨hconst, hcounts⟩ := (husable arg harg).tame fold hlit
  refine ⟨?_, hcounts.imp_left fun hnumeric => ?_⟩
  · obtain ⟨kind, ty, span, mutable, literal⟩ := arg
    cases kind <;> first | exact ⟨_, rfl⟩ | cases hconst
  · have hhas : t.types.Has arg.ty := by
      apply TypeTable.has_of_kind_ne
      intro hmissing
      simp [TypeTable.isNumeric, TypeTable.isInt, TypeTable.isReal, hmissing] at hnumeric
    rwa [TypeTable.isNumeric, hwidens.isInt hhas, hwidens.isReal hhas]

/-! ## Calls -/

theorem decides_iff {x : Lower α} {ok : Bool} (h : Decides x c t d ok) : ok = true ↔ ∃ r, x d c t = .ok r t := by
  unfold Decides Yields at h
  generalize x d c t = r at h
  cases r with
  | ok a t' => exact ⟨fun _ => ⟨a, by rw [h.1]⟩, fun _ => h.2⟩
  | error e t' => simp [h.2]

private theorem convertEach_decides (predefined : TypeTable.initial.Widens t.types)
    (hargs : ∀ arg ∈ args, arg.Tame t.types ∧ arg.Genuine t.types) (params) (hlen : params.length = args.length) :
    Decides ((args.zip params).mapM fun (arg, param) => coerce arg param) c t d (t.argsCost args params).isSome := by
  induction args generalizing params d with
  | nil =>
    obtain rfl : params = [] := List.length_eq_zero_iff.mp hlen
    exact .pure rfl
  | cons arg args ih =>
    obtain ⟨param, params, rfl⟩ := List.exists_cons_of_length_eq_add_one hlen
    obtain ⟨htame, hgenuine⟩ := hargs arg List.mem_cons_self
    have hcost : (t.argsCost (arg :: args) (param :: params)).isSome =
        ((t.argRank arg param).isSome && (t.argsCost args params).isSome) := by
      simp only [Tables.argsCost]
      cases t.argRank arg param <;> cases t.argsCost args params <;> rfl
    rw [List.zip_cons_cons, List.mapM_cons, hcost]
    refine Yields.bind ((coerce_decides predefined htame hgenuine).imp (fun _ _ h => h) fun _ h => by rw [h]; rfl)
      fun op d1 hop => ?_
    rw [hop, Bool.true_and]
    have hrest := ih (d := d1) (fun a ha => hargs a (List.mem_cons_of_mem _ ha)) params (by simpa using hlen)
    exact hrest.bind fun _ _ h => .pure h

private theorem coerceArgs_decides (predefined : TypeTable.initial.Widens t.types)
    (hargs : ∀ arg ∈ args, arg.Tame t.types ∧ arg.Genuine t.types) (params span) :
    Decides (coerceArgs params args span) c t d (t.argsCost args params).isSome := by
  unfold coerceArgs
  by_cases hlen : params.length = args.length
  · simp only [ne_eq, hlen, not_true_eq_false, if_false]
    exact convertEach_decides predefined hargs params hlen
  · have hcost : t.argsCost args params = none := by
      rw [← Option.not_isSome_iff_eq_none, Option.isSome_iff_exists]
      rintro ⟨cost, hcost⟩
      exact hlen (Tables.argsCost_eq_some.mp hcost).1.symm
    simp only [ne_eq, hlen, not_false_eq_true, if_true, hcost]
    exact .typeError fun _ => rfl

/-- **Ranks and conversions agree.** If operators are computed during analysis, then an argument of a call that is no
constant, or a value of its type, has a rank at a type exactly if it can be converted to it. Functions take the
arguments exactly if these can be converted to the types of the parameters, so the conversion of the arguments does not
fail once a member of a group has been selected. -/
theorem isSome_argRank_iff_coerce {scope : ScopeId} {nodes : List NodeId} {depth : Nat} {d' : Draft} {t' : Tables}
    (fold : c.config.foldConstants = true) (predefined : TypeTable.initial.Widens t.types)
    (analysed : nodes.mapM ((Analysis.walk depth).value scope) d c t = .ok (args, d') t')
    (genuine : ∀ arg ∈ args, arg.Genuine t'.types) :
    (∀ arg ∈ args, ∀ param d1, (t'.argRank arg param).isSome = true ↔ ∃ r, coerce arg param d1 c t' = .ok r t') ∧
    (∀ params span d1, (t'.argsCost args params).isSome = true ↔
      ∃ r, coerceArgs params args span d1 c t' = .ok r t') ∧
    ∀ members span f, Analysis.selectOverload members args span c t' = .ok f t' →
      ∀ d1, ∃ r, coerceArgs (t'.code.function f).params args span d1 c t' = .ok r t' := by
  obtain ⟨hgrows, htame⟩ := values_tame fold analysed
  have hpre := predefined.trans hgrows
  have hall : ∀ params span d1, (t'.argsCost args params).isSome = true ↔
      ∃ r, coerceArgs params args span d1 c t' = .ok r t' := fun params span d1 =>
    decides_iff (coerceArgs_decides hpre (fun arg harg => ⟨htame arg harg, genuine arg harg⟩) params span)
  refine ⟨fun arg harg param d1 => decides_iff (coerce_decides hpre (htame arg harg) (genuine arg harg)), hall, ?_⟩
  intro members span f hf d1
  obtain ⟨-, hf⟩ := Analysis.selectOverload_eq_ok.mp hf
  obtain ⟨-, cost, htakes, -⟩ := Tables.mem_cheapest.mp (hf ▸ List.mem_singleton_self f)
  apply (hall _ span d1).mp
  rw [Tables.argsCost_eq_some.mpr htakes]
  rfl

/-- The program consists of the number 300, which has a rank at `f32` and none at `u8`. -/
theorem isSome_argRank_iff_coerce_number :
    (∃ r, coerce (.number (.int 300) .s32 .dummy) .f32 (.scratch .dummy)
      ⟨.default, .none, ⟨#[⟨.intLit 300, .dummy⟩]⟩, 0, none⟩ .initial = .ok r .initial) ∧
    ¬ ∃ r, coerce (.number (.int 300) .s32 .dummy) .u8 (.scratch .dummy)
      ⟨.default, .none, ⟨#[⟨.intLit 300, .dummy⟩]⟩, 0, none⟩ .initial = .ok r .initial := by
  have h := (@isSome_argRank_iff_coerce ⟨.default, .none, ⟨#[⟨.intLit 300, .dummy⟩]⟩, 0, none⟩ .initial
    (.scratch .dummy) [.number (.int 300) .s32 .dummy] 0 [0] 1 (.scratch .dummy) .initial rfl (.refl _) (by rfl)
    (by
      intro arg harg v hv
      obtain rfl := List.mem_singleton.mp harg
      cases hv
      decide)).1 _ (List.mem_singleton_self _)
  exact ⟨(h .f32 _).mp (by decide), fun hr => absurd ((h .u8 _).mpr hr) (by decide)⟩

/-- The program
```
half :: fn() -> f64 { return 0.5; }
forge :: fn() -> s32 { p: fn() -> f64 = half; return (*cast(*fn() -> s32) &p)(); }
```
and the argument `comptime forge()`. It is the constant 0.5 of type `s32`. -/
def forgingAst : Ast := ⟨(List.map (⟨·, .dummy⟩) [
  .ident "f64", .realLit 0x3fe0000000000000, .ret (some 1), .block [2],
  .fnLit ⟨⟨[], some 0⟩, some 3, none, false, false⟩, .decl ⟨"half", none, some 4, false⟩,
  .fnType ⟨[], some 0⟩, .ident "half", .decl ⟨"p", some 6, some 7, true⟩,
  .ident "s32", .fnType ⟨[], some 9⟩, .ptrType 10, .ident "p", .addrOf 12, .cast 11 13,
  .deref 14, .call 15 [], .ret (some 16), .block [8, 17],
  .fnLit ⟨⟨[], some 9⟩, some 18, none, false, false⟩, .decl ⟨"forge", none, some 19, false⟩,
  .ident "forge", .call 21 [], .comptime 22]).toArray⟩

/-- The functions have been analysed. -/
def forging : Session :=
  stateAfter Session.analyze (stateAfter (Session.declare [5, 20]) (.create .default .none forgingAst))

def forgingContext : Context := ⟨forging.config, forging.host, forging.ast, 0, none⟩

/-- The argument has the rank of a widening at `s64`, and its conversion to `s64` fails. -/
theorem rank_without_conversion :
    forgingContext.config.foldConstants = true ∧ ∃ arg d' t',
      (Analysis.walk 9).value Analysis.globalScope 23 (.scratch .dummy) forgingContext forging.tables =
        .ok (arg, d') t' ∧
      t'.argRank arg .s64 = some .widening ∧ ∀ r t'', coerce arg .s64 d' forgingContext t' ≠ .ok r t'' := by
  have hruns : forgingContext.config.foldConstants = true ∧
      succeeds ((Analysis.walk 9).value Analysis.globalScope 23 (.scratch .dummy) forgingContext) forging.tables
        (fun r t' => t'.argRank r.1 .s64 = some .widening ∧
          succeeds (coerce r.1 .s64 r.2 forgingContext) t' (fun _ _ => true) = false) = true := by
    decide +kernel
  obtain ⟨⟨arg, d'⟩, t', hrun, htest⟩ := of_succeeds hruns.2
  obtain ⟨hrank, hfails⟩ := of_decide_eq_true htest
  refine ⟨hruns.1, arg, d', t', hrun, hrank, fun r t'' hok => ?_⟩
  rw [succeeds, hok] at hfails
  cases hfails

end Comptime.Lower
