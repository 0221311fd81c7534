import Comptime.Proofs.Arithmetic.Operand
import Comptime.Proofs.Conversion
import Comptime.Proofs.Footprint.Logic

/-!
# Ranks and conversions agree

An argument has a rank at a parameter exactly if it can be converted to the type of the parameter.
-/

namespace Comptime

/-- If the operand may still take another type, then it is a constant of a numeric type. -/
def Operand.Tame (t : TypeTable) (op : Operand) : Prop :=
  op.literal = true → (∃ v, op.kind = .const v) ∧ (t.isNumeric op.ty = true ∨ op.ty ∈ TypeId.written)

def Operand.Genuine (t : TypeTable) (op : Operand) : Prop := ∀ v, op.kind = .const v → v.fits t op.ty = true

namespace Lower

variable {α β : Type} {x : Lower α} {k : α → Lower β} {c : Context} {t : Tables} {d : Draft} {ok : Bool}
  {op : Operand} {target : TypeId} {v : Value} {cast : CastOp}

/-- The piece of analysis ends if `ok` holds and halts if it does not. -/
abbrev Decides (x : Lower α) (c : Context) (t : Tables) (d : Draft) (ok : Bool) : Prop :=
  Yields x c t d (fun _ _ => ok = true) fun _ => ok = false

theorem Yields.written {kind ty span} {k : InstrId → Lower β} {Q : β → Draft → Prop} {E : Halt → Prop}
    (h : ∀ id d', Yields (k id) c t d' Q E) : Yields (Lower.emit kind ty span >>= k) c t d Q E :=
  Yields.bind (P := fun _ _ => True) ⟨rfl, trivial⟩ fun id d' _ => h id d'

theorem orTrapAt_ok {span r} (h : r = .ok v) : (Analysis.orTrapAt span r : Lower Value) = pure v := by
  subst h
  rfl

private theorem convert_decides (hk : (∃ v r, op.kind = .const v ∧ cast.eval t.types target v = .ok r) ∨
    ∃ id, op.kind = .instr id) : Decides (convert op cast target) c t d true := by
  unfold convert
  refine .reads Analysis.folding_reads ?_
  rcases hk with ⟨v, r, hk, hr⟩ | ⟨id, hk⟩
  · cases c.config.foldConstants with
    | true =>
      rw [hk]
      refine .reads Analysis.types_reads ?_
      rw [orTrapAt_ok hr]
      exact .pure rfl
    | false =>
      simp only [hk, materialize, rvalue, pure_bind]
      exact .written fun _ _ => .written fun _ _ => .pure trivial
  · simp only [hk, materialize, rvalue, pure_bind]
    exact .written fun _ _ => .pure trivial

theorem widen_decides (fits : op.Genuine t.types) (hk : (∃ v, op.kind = .const v) ∨ ∃ id, op.kind = .instr id) :
    Decides (widen op target) c t d (t.types.conversionRank op.ty target).isSome := by
  unfold widen
  refine .reads Analysis.types_reads ?_
  cases hrank : t.types.conversionRank op.ty target with
  | none => exact .halts rfl rfl
  | some rank =>
    obtain ⟨cast, hcast, heval⟩ := (TypeTable.isSome_conversionRank.mp (by rw [hrank]; rfl)).cast
    rw [hcast]
    refine convert_decides (hk.imp_left ?_)
    rintro ⟨v, hv⟩
    obtain ⟨r, hr, -⟩ := heval v (fits v hv)
    exact ⟨v, r, hv, hr⟩

/-- A number takes the type of the parameter if it has a rank there. Where it is left as it is, its rank is that of a
conversion. -/
abbrev Adapts (op : Operand) (target : TypeId) (c : Context) (t : Tables) (d : Draft) : Prop :=
  Yields (adapt op target) c t d
    (fun r _ => (t.argRank op target).isSome = (r.isSome || (t.types.conversionRank op.ty target).isSome))
    fun _ => (t.argRank op target).isSome = false

theorem adapt_adapts_int {sb ss w} (hk : op.kind = .const (.int w)) (hlit : op.literal = true)
    (hty : t.types.kind op.ty = .int sb ss) (hne : op.ty ≠ target) : Adapts op target c t d := by
  have hint : t.types.isInt op.ty = true := TypeTable.isInt_iff.mpr ⟨sb, ss, hty⟩
  unfold Adapts adapt Tables.argRank
  refine .reads Analysis.types_reads ?_
  simp only [hk, hlit, hne, if_false]
  cases hreal : t.types.isReal target with
  | true =>
    obtain ⟨tb, htarget⟩ := TypeTable.isReal_iff.mp hreal
    have hplain : t.types.plainInt target = none := by simp [TypeTable.plainInt, TypeTable.isInt, htarget]
    have hcast : t.types.castOp op.ty target = some (if ss then .siToFp else .uiToFp) := by
      simp [TypeTable.castOp, hne, TypeTable.intInfo, TypeTable.intInfoAt, htarget, hty]
    have hword : ((if ss then CastOp.siToFp else .uiToFp).integerOperand (.int w)).isSome := by cases ss <;> rfl
    obtain ⟨r, hr⟩ : ∃ r, (if ss then CastOp.siToFp else .uiToFp).eval t.types target (.int w) = .ok r := by
      cases ss <;> exact CastOp.toReal_ok htarget (.inl hword)
    rw [hplain, if_neg (by simp)]
    dsimp only
    rw [hcast]
    dsimp only
    rw [orTrapAt_ok hr]
    exact .pure rfl
  | false =>
    cases hplain : t.types.plainInt target with
    | none =>
      rw [if_pos (by simp)]
      have hrank : t.types.conversionRank op.ty target = none := by
        rw [← Option.not_isSome_iff_eq_none, TypeTable.isSome_conversionRank]
        intro h
        cases h with
        | same heq => exact hne heq
        | integer _ htarget => simp [TypeTable.plainInt, TypeTable.isInt, htarget, TypeTable.intInfo_int htarget] at hplain
        | _ => simp_all
      exact .pure (by simp [hrank])
    | some info =>
      rw [if_neg (by simp [hint])]
      dsimp only
      split
      · exact .pure (by simp)
      · exact .reads (Analysis.quoted_reads _) (.typeError fun _ => rfl)

theorem adapt_adapts_real {sb} (hk : op.kind = .const v) (hlit : op.literal = true)
    (hty : t.types.kind op.ty = .real sb) (hv : (∃ w, v = .f32 w) ∨ ∃ w, v = .f64 w) (hne : op.ty ≠ target) :
    Adapts op target c t d := by
  have hreal : t.types.isReal op.ty = true := TypeTable.isReal_iff.mpr ⟨sb, hty⟩
  have hint : t.types.isInt op.ty = false := by simp [TypeTable.isInt, hty]
  have hrank : t.argRank op target = if t.types.isReal target then some .widening
      else t.types.conversionRank op.ty target := by
    rcases hv with ⟨w, rfl⟩ | ⟨w, rfl⟩ <;> simp [Tables.argRank, Tables.argRank.ranked, hk, hlit, hne, hreal]
  unfold Adapts adapt
  refine .reads Analysis.types_reads ?_
  rw [hrank]
  cases htarget : t.types.isReal target with
  | true =>
    obtain ⟨tb, htb⟩ := TypeTable.isReal_iff.mp htarget
    have hplain : t.types.plainInt target = none := by simp [TypeTable.plainInt, TypeTable.isInt, htb]
    have hcast : t.types.castOp op.ty target = some (if sb < tb then .fpExt else .fpTrunc) := by
      simp [TypeTable.castOp, hne, TypeTable.intInfo, TypeTable.intInfoAt, htb, hty]
    have hasReal : v.asReal.isSome := by rcases hv with ⟨w, rfl⟩ | ⟨w, rfl⟩ <;> rfl
    obtain ⟨r, hr⟩ : ∃ r, (if sb < tb then CastOp.fpExt else .fpTrunc).eval t.types target v = .ok r := by
      split <;> exact CastOp.toReal_ok htb (.inr hasReal)
    rw [hplain, if_neg (by simp), hk]
    rcases hv with ⟨w, rfl⟩ | ⟨w, rfl⟩
    all_goals
      dsimp only
      rw [hcast]
      dsimp only
      rw [orTrapAt_ok hr]
      exact .pure rfl
  | false =>
    rw [if_pos (by cases h : t.types.plainInt target <;> simp [hint])]
    exact .pure (by simp)

theorem coerceValue_decides (predefined : TypeTable.initial.Widens t.types) (hop : op.Tame t.types)
    (fits : op.Genuine t.types) (hk : (∃ v, op.kind = .const v) ∨ ∃ id, op.kind = .instr id) :
    Decides (coerceValue op target) c t d (t.argRank op target).isSome := by
  have hwiden (d : Draft) : Decides (widen op target) c t d (t.types.conversionRank op.ty target).isSome :=
    widen_decides fits hk
  unfold coerceValue
  by_cases heq : op.ty = target
  · rw [if_pos heq]
    have hrank : t.argRank op target = some .identity := by
      rcases hk with ⟨v, hk⟩ | ⟨id, hk⟩ <;> simp [Tables.argRank, hk, heq]
    rw [hrank]
    exact .pure rfl
  rw [if_neg heq]
  cases hlit : op.literal with
  | false =>
    have hrank : t.argRank op target = t.types.conversionRank op.ty target := by
      rcases hk with ⟨v, hk⟩ | ⟨id, hk⟩
      · cases v <;> simp [Tables.argRank, Tables.argRank.ranked, hk, heq, hlit]
      · simp [Tables.argRank, Tables.argRank.ranked, hk, heq, hlit]
    rw [hrank]
    exact hwiden d
  | true =>
    obtain ⟨⟨v, hv⟩, hnumeric⟩ := hop hlit
    have hnumeric : t.types.isNumeric op.ty = true := by
      rcases hnumeric with hnumeric | hwritten
      · exact hnumeric
      · rw [TypeTable.isNumeric, TypeTable.isInt, TypeTable.isReal]
        simp only [TypeId.written, List.mem_cons, List.not_mem_nil, or_false] at hwritten
        rcases hwritten with h | h | h | h <;> rw [h, predefined.kind (by decide)] <;> rfl
    have hadapts : Adapts op target c t d := by
      rw [TypeTable.isNumeric, Bool.or_eq_true, TypeTable.isInt_iff, TypeTable.isReal_iff] at hnumeric
      rcases hnumeric with ⟨sb, ss, hty⟩ | ⟨sb, hty⟩
      · obtain ⟨w, rfl, -⟩ := (Value.fits_iff hty).mp (fits v hv)
        exact adapt_adapts_int hv hlit hty heq
      · exact adapt_adapts_real hv hlit hty (((Value.fits_iff hty).mp (fits v hv)).imp And.right And.right) heq
    refine Yields.bind hadapts fun r d' hr => ?_
    cases r with
    | some adapted => exact .pure hr
    | none =>
      rw [hr, Option.isSome_none, Bool.false_or]
      exact hwiden d'

theorem coerce_decides (predefined : TypeTable.initial.Widens t.types) (hop : op.Tame t.types) (fits : op.Genuine t.types) :
    Decides (coerce op target) c t d (t.argRank op target).isSome := by
  unfold coerce rvalue
  cases hk : op.kind with
  | const v =>
    rw [pure_bind, hk]
    exact coerceValue_decides predefined hop fits (.inl ⟨v, hk⟩)
  | instr id =>
    rw [pure_bind, hk]
    exact coerceValue_decides predefined hop fits (.inr ⟨id, hk⟩)
  | place ptr =>
    have hlit : op.literal = false := by
      by_contra hlit
      obtain ⟨⟨v, hv⟩, -⟩ := hop (by simpa using hlit)
      rw [hk] at hv
      cases hv
    rw [bind_assoc]
    refine .written fun id d' => ?_
    have hrank : t.argRank op target = t.argRank (.instr id op.ty op.span) target := by
      simp [Tables.argRank, Tables.argRank.ranked, hk, hlit, Operand.instr]
    rw [pure_bind, hrank]
    exact coerceValue_decides predefined nofun nofun (.inr ⟨id, rfl⟩)
  | group members =>
    rw [pure_bind, hk]
    refine .reads Analysis.code_reads ?_
    have hrank : (t.argRank op target).isSome = (members.find? fun f => (t.code.function f).ty = target).isSome := by
      simp only [Tables.argRank, hk]
      split <;> simp_all
    rw [hrank]
    split
    · next f hf => exact ⟨rfl, by rw [hf]; rfl⟩
    · next hf => exact .reads (Analysis.quoted_reads _) (.typeError fun _ => by rw [hf]; rfl)
  | poly recipe =>
    rw [pure_bind, hk]
    exact .typeError fun _ => by simp [Tables.argRank, hk]
  | scope id =>
    rw [pure_bind, hk]
    exact .typeError fun _ => by simp [Tables.argRank, hk]

end Lower

end Comptime
