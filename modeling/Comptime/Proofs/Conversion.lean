import Comptime.Proofs.Analysis.Equation
import Comptime.Proofs.Code.Frame
import Comptime.Proofs.Operator.Exact

/-!
# Casts and implicit conversions

Every cast that two types name takes the values of the one to values of the other, and between integer types
it wraps the integer around at the width of the target (`CastOp.eval_total`).

An implicit conversion keeps what a value stands for (`Value.meaning`), so it makes no difference whether a value
is converted at once or by way of a type in between. The types are partially ordered by these conversions
(`TypeTable.conversions_ordered`).
-/

namespace Comptime

namespace TypeTable

variable {t : TypeTable} {ty : TypeId}

theorem Widths.bounds {bits signed} (h : t.Widths) (hi : t.intInfo ty = some (bits, signed)) :
    0 < bits ∧ bits ≤ 64 := by
  have hbits := h.intInfoAt hi
  simp only [List.mem_cons, List.not_mem_nil, or_false] at hbits
  omega

end TypeTable

/-! ## Casts of integers -/

theorem Word.holds_recast (w ss) {bits} (hb : 0 < bits) (hle : bits ≤ 64) (ts) :
    Word.Holds (Word.canonical w bits ts) (Word.toInt w ss) bits ts := by
  apply Word.holds_canonical hb hle
  have hfull := Word.toInt_emod w ss
  rw [← hfull, Int.emod_emod_of_dvd]
  exact Int.natCast_dvd_natCast.mpr (Nat.pow_dvd_pow 2 hle)

theorem Word.wrap_emod (n : Int) (bits signed) :
    Word.wrap n bits signed % (2 ^ bits : Nat) = n % (2 ^ bits : Nat) := by
  cases signed with
  | false => exact Int.emod_emod_of_dvd n (Int.dvd_refl _)
  | true => exact Int.bmod_emod

theorem Word.toInt_injective {w w' signed} (h : Word.toInt w signed = Word.toInt w' signed) : w = w' := by
  apply UInt64.toNat_inj.mp
  have hnat := congrArg (· % ((2 ^ 64 : Nat) : Int)) h
  simpa only [Word.toInt_emod, Nat.cast_inj] using hnat

namespace CastOp

open Value (fits_integer)

variable {t : TypeTable} {source target : TypeId} {op : CastOp} {v : Value}

theorem eval_integer {sb tb ss ts} (hs : t.intInfo source = some (sb, ss)) (ht : t.intInfo target = some (tb, ts))
    (ho : t.castOp source target = some op) {w} (hw : Word.canonical w sb ss = w) :
    op.eval t target (.int w) = .ok (.ofRaw w tb ts) := by
  have hword : eval.word t target (.int w) = .ok (.ofRaw w tb ts) := by simp [eval.word, Value.asBits, toInteger, ht]
  have hptr : t.isPtr target = false := by
    rcases TypeTable.intInfo_eq_some ht with hk | ⟨id, hk⟩ <;> simp [TypeTable.isPtr, hk]
  rw [TypeTable.castOp] at ho
  split at ho
  · next heq =>
    subst heq
    cases ho
    rw [hs] at ht
    cases ht
    rw [Value.ofRaw, hw]
    rfl
  · simp only [hs, ht] at ho
    split at ho
    · cases ho
      cases ss <;> exact hword
    · split at ho <;> cases ho
      · exact hword
      · simpa [eval, hptr] using hword

theorem toReal_ok {bits} (hk : t.kind target = .real bits) (hv : (op.integerOperand v).isSome ∨ v.asReal.isSome) :
    ∃ r, op.toReal t target v = .ok r := by
  unfold toReal
  rw [hk]
  cases hi : op.integerOperand v with
  | some n =>
    dsimp only [bind, Except.bind]
    split <;> first | exact ⟨_, rfl⟩ | simp_all
  | none =>
    obtain ⟨w, hw⟩ := Option.isSome_iff_exists.mp (hv.resolve_left (by simp [hi]))
    rw [hw]
    dsimp only [bind, Except.bind]
    split <;> first | exact ⟨_, rfl⟩ | simp_all

/-- A cast that two types name gives a value of the target for every value of the source. Between integer types it
keeps the integer modulo the width of the target, and keeps it altogether if the target has a value for it. -/
theorem eval_total (hw : t.Widths) (ho : t.castOp source target = some op) (hv : v.fits t source = true) :
    ∃ r, op.eval t target v = .ok r ∧ r.fits t target = true ∧
      ∀ sb ss tb ts, t.intInfo source = some (sb, ss) → t.intInfo target = some (tb, ts) →
        ∃ w w', v = .int w ∧ r = .int w' ∧
          Word.toInt w' ts % (2 ^ tb : Nat) = Word.toInt w ss % (2 ^ tb : Nat) ∧
          ((∃ u, (Value.int u).fits t target = true ∧ Word.toInt u ts = Word.toInt w ss) →
            Word.toInt w' ts = Word.toInt w ss) := by
  obtain ⟨r, hr, hfits⟩ := eval_fits (by simpa using hw.real) ho hv
  refine ⟨r, hr, hfits, fun sb ss tb ts hs ht => ?_⟩
  obtain ⟨w, rfl, hcanonical⟩ := (fits_integer hs).mp hv
  rw [eval_integer hs ht ho hcanonical] at hr
  cases hr
  obtain ⟨hb, hle⟩ := hw.bounds ht
  have hholds := Word.holds_recast w ss hb hle ts
  refine ⟨w, _, rfl, rfl, ?_, ?_⟩
  · rw [hholds.value]
    exact Word.wrap_emod ..
  · rintro ⟨u, hu, hsame⟩
    obtain ⟨_, ⟨rfl⟩, hform⟩ := (fits_integer ht).mp hu
    rw [hholds.value, ← hsame]
    exact (Word.holds_self hb hle hform).value.symm

/-- A number of 64 bits is cut down to a byte. -/
theorem eval_total_byte : TypeTable.initial.castOp .s64 .u8 = some .trunc ∧
    ∃ r, CastOp.trunc.eval .initial .u8 (.int 300) = .ok r ∧ r.fits .initial .u8 = true := by
  have ho : TypeTable.initial.castOp .s64 .u8 = some .trunc := by decide
  obtain ⟨r, hr, hfits, -⟩ := eval_total TypeTable.Proper.initial.widths ho (v := .int 300) (by decide)
  exact ⟨ho, r, hr, hfits⟩

end CastOp

/-! ## Implicit conversions -/

/-- What a value stands for, whatever its type: an integer, an address, a real by its pattern at 64 bits, or
nothing but itself. -/
inductive Meaning where
  | integer (n : Int)
  | address (a : UInt64)
  | real (pattern : UInt64)
  | other (v : Value)

def Value.meaning (t : TypeTable) (ty : TypeId) : Value → Meaning
  | .int w => .integer (t.exact ty w)
  | .ptr a => .address a
  | .f32 bits => .real (widen bits)
  | .f64 bits => .real bits
  | v => .other v

namespace TypeTable

variable {t : TypeTable} {a b c : TypeId}

/-- A value of the first type is taken for one of the second. -/
inductive Converts (t : TypeTable) (a b : TypeId) : Prop where
  | same (heq : a = b)
  | integer {sb tb : Nat} {ss ts : Bool} (source : t.kind a = .int sb ss) (target : t.kind b = .int tb ts)
    (wider : sb < tb) (sign : ss = ts ∨ ss = false ∧ ts = true)
  | real (source : t.kind a = .real 32) (target : t.kind b = .real 64)
  | null {inner : TypeId} (source : t.kind a = .null) (target : t.kind b = .ptr inner)
  | bytes {inner : TypeId} (source : t.kind a = .ptr inner) (target : t.kind b = .ptr .u8)

theorem isSome_conversionRank : (t.conversionRank a b).isSome ↔ t.Converts a b := by
  constructor
  · intro h
    unfold conversionRank at h
    split at h
    · next heq => exact .same heq
    · split at h
      · next source target =>
        split at h
        · next hw => exact .integer source target hw.1 hw.2
        · cases h
      · next source target =>
        split at h
        · next hw =>
          obtain ⟨rfl, rfl⟩ := hw
          exact .real source target
        · cases h
      · next source target => exact .null source target
      · next source target =>
        split at h
        · next hu =>
          subst hu
          exact .bytes source target
        · cases h
      · cases h
  · intro h
    unfold conversionRank
    split
    · rfl
    · next hne =>
      cases h with
      | same heq => exact absurd heq hne
      | integer source target wider sign => simp [source, target, wider, sign]
      | real source target => simp [source, target]
      | null source target => simp [source, target]
      | bytes source target => simp [source, target]

namespace Converts

theorem antisymm (distinct : ∀ a b, t.Has a → t.Has b → t.kind a = t.kind b → a = b) (h : t.Converts a b)
    (h' : t.Converts b a) : a = b := by
  cases h with
  | same heq => exact heq
  | integer source target wider sign =>
    cases h' with
    | same heq => exact heq.symm
    | integer source' target' wider' sign' =>
      rw [source] at target'
      rw [target] at source'
      cases target'
      cases source'
      omega
    | _ => simp_all
  | real source target => cases h' <;> simp_all
  | null source target => cases h' <;> simp_all
  | bytes source target =>
    cases h' with
    | same heq => exact heq.symm
    | bytes source' target' =>
      apply distinct a b
      · exact has_of_kind_ne (by simp [source])
      · exact has_of_kind_ne (by simp [target])
      · rw [target', target]
    | _ => simp_all

theorem trans (h : t.Converts a b) (h' : t.Converts b c) : t.Converts a c := by
  cases h with
  | same heq => exact heq ▸ h'
  | integer source target wider sign =>
    cases h' with
    | same heq => exact heq ▸ .integer source target wider sign
    | integer source' target' wider' sign' =>
      rw [target] at source'
      cases source'
      refine .integer source target' (Nat.lt_trans wider wider') ?_
      rcases sign with rfl | ⟨rfl, rfl⟩
      · exact sign'
      · rcases sign' with rfl | ⟨hfalse, -⟩
        · exact .inr ⟨rfl, rfl⟩
        · cases hfalse
    | _ => simp_all
  | real source target =>
    cases h' with
    | same heq => exact heq ▸ .real source target
    | _ => simp_all
  | null source target =>
    cases h' with
    | same heq => exact heq ▸ .null source target
    | bytes source' target' => exact .null source target'
    | _ => simp_all
  | bytes source target =>
    cases h' with
    | same heq => exact heq ▸ .bytes source target
    | bytes source' target' => exact .bytes source target'
    | _ => simp_all

end Converts

end TypeTable

theorem Word.wrap_wider {w sb tb ss ts} (hb : 0 < sb) (hle : sb ≤ 64) (hw : Word.canonical w sb ss = w)
    (wider : sb < tb) (sign : ss = ts ∨ ss = false ∧ ts = true) :
    Word.wrap (Word.toInt w ss) tb ts = Word.toInt w ss := by
  have hin := (Word.holds_self hb hle hw).bounds hb
  have hpow {m n : Nat} (h : m ≤ n) : ((2 ^ m : Nat) : Int) ≤ (2 ^ n : Nat) :=
    Int.ofNat_le.mpr (Nat.pow_le_pow_right Nat.two_pos h)
  have hhalf := hpow (Nat.sub_le_sub_right (Nat.le_of_lt wider) 1)
  have hfull := hpow (Nat.le_of_lt wider)
  have hsign := hpow (Nat.le_sub_one_of_lt wider)
  refine Word.wrap_of_within (Nat.zero_lt_of_lt wider) ?_
  rcases sign with rfl | ⟨rfl, rfl⟩
  · cases ss <;> simp only [Word.Within, if_true, Bool.false_eq_true, if_false] at hin ⊢ <;> omega
  · simp only [Word.Within, if_true, Bool.false_eq_true, if_false] at hin ⊢
    omega

namespace TypeTable

variable {t : TypeTable} {a b c : TypeId}

open Value (fits_iff)

theorem Converts.cast (h : t.Converts a b) : ∃ op, t.castOp a b = some op ∧ ∀ v, v.fits t a = true →
    ∃ r, op.eval t b v = .ok r ∧ r.fits t b = true ∧ (t.Widths → r.meaning t b = v.meaning t a) := by
  by_cases heq : a = b
  · subst heq
    exact ⟨.keep, if_pos rfl, fun v hv => ⟨v, rfl, hv, fun _ => rfl⟩⟩
  have hptr {inner : TypeId} (target : t.kind b = .ptr inner) (addr : UInt64) :
      CastOp.bitcast.eval t b (.ptr addr) = .ok (.ptr addr) := by simp [CastOp.eval, isPtr, target, Value.asBits]
  cases h with
  | same h => exact absurd h heq
  | @integer sb tb ss ts source target wider sign =>
    have hs := intInfo_int source
    have ht := intInfo_int target
    have ho : t.castOp a b = some (if ss then .sext else .zext) := by
      simp only [castOp, heq, hs, ht, wider, if_true, if_false]
    refine ⟨_, ho, fun v hv => ?_⟩
    obtain ⟨w, rfl, hw⟩ := (fits_iff source).mp hv
    refine ⟨_, CastOp.eval_integer hs ht ho hw, (fits_iff target).mpr ⟨_, rfl, by simp⟩, fun widths => ?_⟩
    obtain ⟨hb, hle⟩ := widths.bounds hs
    obtain ⟨hb', hle'⟩ := widths.bounds ht
    simp only [Value.ofRaw, Value.meaning, exact, hs, ht, Option.map_some, Option.getD_some]
    rw [(Word.holds_recast w ss hb' hle' ts).value, Word.wrap_wider hb hle hw wider sign]
  | real source target =>
    refine ⟨.fpExt, ?_, fun v hv => ?_⟩
    · simp [castOp, heq, intInfo, intInfoAt, source, target]
    · obtain ⟨w, rfl⟩ : ∃ w, v = .f32 w := by simpa [Value.Form] using (fits_iff source).mp hv
      refine ⟨.f64 (Value.widen w), ?_, (fits_iff target).mpr (.inr ⟨rfl, _, rfl⟩), fun _ => rfl⟩
      simp [CastOp.eval, CastOp.toReal, CastOp.integerOperand, Value.asReal, target]
  | null source target =>
    refine ⟨.bitcast, ?_, fun v hv => ?_⟩
    · simp [castOp, heq, intInfo, intInfoAt, source, target]
    · obtain ⟨addr, rfl⟩ := (fits_iff source).mp hv
      exact ⟨_, hptr target addr, (fits_iff target).mpr ⟨_, rfl⟩, fun _ => rfl⟩
  | bytes source target =>
    refine ⟨.bitcast, ?_, fun v hv => ?_⟩
    · simp [castOp, heq, intInfo, intInfoAt, source, target]
    · obtain ⟨addr, rfl⟩ := (fits_iff source).mp hv
      exact ⟨_, hptr target addr, (fits_iff target).mpr ⟨_, rfl⟩, fun _ => rfl⟩

theorem Converts.eq_of_meaning {r r' : Value} (h : t.Converts b c) (hne : b ≠ c) (hr : r.fits t c = true)
    (hr' : r'.fits t c = true) (hm : r.meaning t c = r'.meaning t c) : r = r' := by
  have hptr {inner : TypeId} (target : t.kind c = .ptr inner) : r = r' := by
    obtain ⟨addr, rfl⟩ := (fits_iff target).mp hr
    obtain ⟨addr', rfl⟩ := (fits_iff target).mp hr'
    cases hm
    rfl
  cases h with
  | same heq => exact absurd heq hne
  | integer source target wider sign =>
    obtain ⟨w, rfl, -⟩ := (fits_iff target).mp hr
    obtain ⟨w', rfl, -⟩ := (fits_iff target).mp hr'
    simp only [Value.meaning, exact, Meaning.integer.injEq] at hm
    rw [Word.toInt_injective hm]
  | real source target =>
    obtain ⟨w, rfl⟩ : ∃ w, r = .f64 w := by simpa [Value.Form] using (fits_iff target).mp hr
    obtain ⟨w', rfl⟩ : ∃ w, r' = .f64 w := by simpa [Value.Form] using (fits_iff target).mp hr'
    cases hm
    rfl
  | null source target => exact hptr target
  | bytes source target => exact hptr target

theorem Converts.eval_trans (hw : t.Widths) (h : t.Converts a b) (h' : t.Converts b c) {f g k : CastOp}
    (hf : t.castOp a b = some f) (hg : t.castOp b c = some g) (hk : t.castOp a c = some k) {v : Value}
    (hv : v.fits t a = true) : (f.eval t b v).bind (g.eval t c) = k.eval t c v := by
  obtain ⟨_, hf', hfirst⟩ := h.cast
  obtain ⟨_, hg', hsecond⟩ := h'.cast
  obtain ⟨_, hk', hwhole⟩ := (h.trans h').cast
  cases hf.symm.trans hf'
  cases hg.symm.trans hg'
  cases hk.symm.trans hk'
  obtain ⟨r, hr, hfits, hmeaning⟩ := hfirst v hv
  obtain ⟨r', hr', hfits', hmeaning'⟩ := hsecond r hfits
  obtain ⟨s, hs, hfitsS, hmeaningS⟩ := hwhole v hv
  rw [hr, hs]
  show g.eval t c r = .ok s
  rw [hr']
  by_cases hbc : b = c
  · subst hbc
    rw [castOp, if_pos rfl] at hg
    cases hg
    cases hr'
    cases hf.symm.trans hk
    exact hr.symm.trans hs
  · have hsame : r'.meaning t c = s.meaning t c := by rw [hmeaning' hw, hmeaning hw, hmeaningS hw]
    rw [h'.eq_of_meaning hbc hfits' hfitsS hsame]

theorem commonType_comm (distinct : ∀ a b, t.Has a → t.Has b → t.kind a = t.kind b → a = b) :
    t.commonType a b = t.commonType b a := by
  by_cases heq : a = b
  · rw [heq]
  · have hnot : ¬ ((t.conversionRank a b).isSome ∧ (t.conversionRank b a).isSome) := by
      rintro ⟨hab, hba⟩
      exact heq ((isSome_conversionRank.mp hab).antisymm distinct (isSome_conversionRank.mp hba))
    unfold commonType
    rw [if_neg heq, if_neg (Ne.symm heq)]
    split
    · next hab =>
      rw [if_neg fun hba => hnot ⟨hab, hba⟩]
    · rfl

end TypeTable

/-- Convert a value where no value can be lost, and do something else if there is no cast for that. -/
def Lower.widenOr (otherwise : Lower Operand) (op : Operand) (target : TypeId) : Lower Operand := do
  let t ← Analysis.types
  if (t.conversionRank op.ty target).isNone then Analysis.mismatch op.span target op.ty
  match t.castOp op.ty target with
  | some cast => convert op cast target
  | none => otherwise

theorem Lower.widen_eq (op target otherwise) : widen op target = widenOr otherwise op target := by
  funext d c t
  rw [widen, widenOr, reads_bind Analysis.types_reads, reads_bind Analysis.types_reads]
  cases hrank : t.types.conversionRank op.ty target with
  | none => rfl
  | some rank =>
    obtain ⟨cast, hcast, -⟩ := (TypeTable.isSome_conversionRank.mp (by rw [hrank]; rfl)).cast
    rw [hcast]

/-- Implicit conversions. There is a cast for each of them, so nothing depends on what is done where there is
none; it keeps what a value stands for. They order the types partially, a conversion in two steps is one in a single
step, and the type in which two types meet does not depend on their order. -/
theorem TypeTable.conversions_ordered {t : TypeTable} (hw : t.Widths)
    (distinct : ∀ a b, t.Has a → t.Has b → t.kind a = t.kind b → a = b) (a b c : TypeId) :
    ((t.conversionRank a b).isSome → ∃ op, t.castOp a b = some op ∧ ∀ v, v.fits t a = true →
      ∃ r, op.eval t b v = .ok r ∧ r.fits t b = true ∧ r.meaning t b = v.meaning t a) ∧
    (∀ op target otherwise, Lower.widen op target = Lower.widenOr otherwise op target) ∧
    ((t.conversionRank a b).isSome → (t.conversionRank b a).isSome → a = b) ∧
    ((t.conversionRank a b).isSome → (t.conversionRank b c).isSome → (t.conversionRank a c).isSome ∧
      ∀ f g k, t.castOp a b = some f → t.castOp b c = some g → t.castOp a c = some k →
        ∀ v, v.fits t a = true → (f.eval t b v).bind (g.eval t c) = k.eval t c v) ∧
    t.commonType a b = t.commonType b a := by
  simp only [isSome_conversionRank]
  refine ⟨fun h => ?_, Lower.widen_eq, fun h h' => h.antisymm distinct h', fun h h' => ⟨h.trans h', ?_⟩,
    commonType_comm distinct⟩
  · obtain ⟨op, ho, hcast⟩ := h.cast
    refine ⟨op, ho, fun v hv => ?_⟩
    obtain ⟨r, hr, hfits, hmeaning⟩ := hcast v hv
    exact ⟨r, hr, hfits, hmeaning hw⟩
  · intro f g k hf hg hk v hv
    exact h.eval_trans hw h' hf hg hk hv

/-- A byte becomes a number of 16 bits and then one of 64 bits. -/
theorem TypeTable.conversions_ordered_byte : (TypeTable.initial.conversionRank .u8 .s16).isSome ∧
    (TypeTable.initial.conversionRank .s16 .s64).isSome ∧ (TypeTable.initial.conversionRank .u8 .s64).isSome := by
  have h := conversions_ordered Proper.initial.widths Proper.initial.distinct .u8 .s16 .s64
  exact ⟨by decide, by decide, (h.2.2.2.1 (by decide) (by decide)).1⟩

end Comptime
