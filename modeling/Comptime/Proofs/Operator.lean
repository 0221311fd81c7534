import Comptime.Analysis.Operation
import Comptime.Proofs.Value.Fits

/-!
# Operators on values that fit

On operands of a type that allows it, an operator gives a value of its result type, and the only
thing that can go wrong is a division by zero. A cast that the types name gives a value of its
target and cannot go wrong at all. Analysis relies on this when it folds constants, the machine when
it executes code.
-/

namespace Comptime

open Value

variable {t : TypeTable}

/-! ## Two operands -/

def BinaryOp.resultType (op : BinaryOp) (ty : TypeId) : TypeId :=
  if op.isComparison then .bool else ty

namespace BinaryOp

variable {op : BinaryOp} {ty : TypeId} {a b : Value}

private theorem onOrdering_ok (hc : op.isComparison = true) (o) : ∃ r, op.onOrdering o = .ok r := by
  cases op <;> simp [isComparison] at hc <;> simp [onOrdering]

private theorem eq_or_neq_of_allows (hc : op.isComparison = true) (ho : t.allowsBinary op ty = true)
    (hk : t.isNumeric ty = false ∧ t.isPtr ty = false ∧ t.intInfo ty = none) :
    (op = .eq ∨ op = .neq) ∧ (match t.kind ty with
        | .bool | .null | .fn _ _ | .type => true
        | _ => false) = true := by
  obtain ⟨hn, hptr, hi⟩ := hk
  cases op <;> simp [isComparison] at hc <;>
    simp only [TypeTable.allowsBinary, hn, hptr, hi, Option.isSome_none, Bool.or_false,
      Bool.false_or, Bool.false_eq_true] at ho
  · exact ⟨.inl rfl, ho⟩
  · exact ⟨.inr rfl, ho⟩

theorem compare_ok (hc : op.isComparison = true) (ho : t.allowsBinary op ty = true)
    (ha : a.fits t ty = true) (hb : b.fits t ty = true) : ∃ r, op.compare t ty a b = .ok r := by
  have hord := onOrdering_ok hc
  have hpartial (o : Option Ordering) : ∃ r, compare.ofPartial op o = .ok r := by
    cases o with
    | none => exact ⟨_, rfl⟩
    | some o => exact hord o
  have hrare (hk : t.isNumeric ty = false ∧ t.isPtr ty = false ∧ t.intInfo ty = none) (same : Bool) :
      ∃ r, op.onReferences same = .ok r := by
    rcases (eq_or_neq_of_allows hc ho hk).1 with rfl | rfl <;> exact ⟨_, rfl⟩
  cases hk : t.kind ty
  case bool =>
    obtain ⟨x, rfl⟩ := (fits_iff hk).mp ha
    obtain ⟨y, rfl⟩ := (fits_iff hk).mp hb
    exact hord _
  case int =>
    obtain ⟨x, rfl, -⟩ := (fits_iff hk).mp ha
    obtain ⟨y, rfl, -⟩ := (fits_iff hk).mp hb
    exact hord _
  case enum =>
    obtain ⟨x, rfl, -⟩ := (fits_iff hk).mp ha
    obtain ⟨y, rfl, -⟩ := (fits_iff hk).mp hb
    exact hord _
  case real =>
    rcases (fits_iff hk).mp ha with ⟨rfl, x, rfl⟩ | ⟨rfl, x, rfl⟩ <;>
      rcases (fits_iff hk).mp hb with ⟨h, y, rfl⟩ | ⟨h, y, rfl⟩ <;>
      first | exact hpartial _ | cases h
  case ptr =>
    obtain ⟨x, rfl⟩ := (fits_iff hk).mp ha
    obtain ⟨y, rfl⟩ := (fits_iff hk).mp hb
    exact hord _
  case null =>
    obtain ⟨x, rfl⟩ := (fits_iff hk).mp ha
    obtain ⟨y, rfl⟩ := (fits_iff hk).mp hb
    exact hord _
  case fn =>
    have href := hrare (by simp [TypeTable.isNumeric, TypeTable.isInt, TypeTable.isReal,
      TypeTable.isPtr, TypeTable.intInfo, TypeTable.intInfoAt, hk])
    rcases (fits_iff hk).mp ha with rfl | ⟨x, rfl, -⟩ <;> rcases (fits_iff hk).mp hb with rfl | ⟨y, rfl, -⟩
    · exact hord _
    all_goals exact href _
  case type =>
    obtain ⟨x, rfl, -⟩ := (fits_iff hk).mp ha
    obtain ⟨y, rfl, -⟩ := (fits_iff hk).mp hb
    exact hrare (by simp [TypeTable.isNumeric, TypeTable.isInt, TypeTable.isReal, TypeTable.isPtr,
      TypeTable.intInfo, TypeTable.intInfoAt, hk]) _
  all_goals
    have hno := (eq_or_neq_of_allows hc ho (by simp [TypeTable.isNumeric, TypeTable.isInt,
      TypeTable.isReal, TypeTable.isPtr, TypeTable.intInfo, TypeTable.intInfoAt, hk])).2
    simp [hk] at hno

theorem onWords_cases (hc : op.isComparison = false) (hl : op.isLogic = false) (bits signed x y) :
    (∃ raw, op.onWords bits signed x y = .ok (Word.canonical raw bits signed)) ∨
      op.onWords bits signed x y = .error .divideByZero ∧ (op = .div ∨ op = .mod) ∧ y = 0 := by
  unfold onWords
  cases op <;> simp [isComparison, isLogic] at hc hl <;> first
    | exact .inl ⟨_, rfl⟩
    | by_cases hy : y = 0 <;> simp only [hy, if_true, if_false]
      · exact .inr (by simp)
      · exact .inl ⟨_, rfl⟩

private theorem kinds_of_allows (hc : op.isComparison = false) (ho : t.allowsBinary op ty = true) :
    (∃ bits signed, t.kind ty = .int bits signed ∧ op.isLogic = false) ∨
    (∃ bits, t.kind ty = .real bits ∧ ∀ f x y, ∃ w, op.onReals f x y = .ok w) ∨
    (ty = .bool ∧ ∀ x y, ∃ r, op.onBools x y = .ok r) := by
  have hint (h : t.isInt ty = true) (hl : op.isLogic = false) :
      ∃ bits signed, t.kind ty = .int bits signed ∧ op.isLogic = false := by
    obtain ⟨bits, signed, hk⟩ := TypeTable.isInt_iff.mp h
    exact ⟨bits, signed, hk, hl⟩
  cases op <;> simp only [isComparison, Bool.true_eq_false] at hc <;>
    simp only [TypeTable.allowsBinary, TypeTable.isNumeric, Bool.or_eq_true, decide_eq_true_eq] at ho
  case add | sub | mul | div | mod =>
    refine ho.imp (hint · rfl) fun h => .inl ?_
    obtain ⟨bits, hk⟩ := TypeTable.isReal_iff.mp h
    exact ⟨bits, hk, fun _ _ _ => ⟨_, rfl⟩⟩
  case bitAnd | bitOr | xor =>
    exact ho.imp (hint · rfl) fun h => .inr ⟨h, fun _ _ => ⟨_, rfl⟩⟩
  case shl | shr => exact .inl (hint ho rfl)
  case logicAnd | logicOr => exact .inr (.inr ⟨ho, fun _ _ => ⟨_, rfl⟩⟩)

theorem eval_fits (hst : t.Standard) (ho : t.allowsBinary op ty = true) (ha : a.fits t ty = true)
    (hb : b.fits t ty = true) :
    (∃ v, op.eval t ty a b = .ok v ∧ v.fits t (op.resultType ty) = true) ∨
      op.eval t ty a b = .error .divideByZero ∧ t.isInt ty = true ∧ (op = .div ∨ op = .mod) ∧ b = .int 0 := by
  unfold eval resultType
  by_cases hc : op.isComparison = true
  · obtain ⟨r, hr⟩ := compare_ok hc ho ha hb
    refine .inl ⟨.bool r, by simp [hc, hr, Except.map], ?_⟩
    rw [if_pos hc, fits_iff hst.bool]
    exact ⟨r, rfl⟩
  · rw [Bool.not_eq_true] at hc
    simp only [hc, Bool.false_eq_true, if_false]
    rcases kinds_of_allows hc ho with ⟨bits, signed, hk, hl⟩ | ⟨bits, hk, hop⟩ | ⟨rfl, hop⟩
    · obtain ⟨x, rfl, -⟩ := (fits_iff hk).mp ha
      obtain ⟨y, rfl, -⟩ := (fits_iff hk).mp hb
      simp only [TypeTable.intInfo_int hk]
      rcases onWords_cases hc hl bits signed x y with ⟨raw, hr⟩ | ⟨hr, hop, rfl⟩
      · refine .inl ⟨.int (Word.canonical raw bits signed), by rw [hr]; rfl, ?_⟩
        rw [fits_iff hk]
        exact ⟨_, rfl, by simp⟩
      · exact .inr ⟨by rw [hr]; rfl, TypeTable.isInt_iff.mpr ⟨bits, signed, hk⟩, hop, rfl⟩
    · left
      rcases (fits_iff hk).mp ha with ⟨rfl, x, rfl⟩ | ⟨rfl, x, rfl⟩ <;>
        rcases (fits_iff hk).mp hb with ⟨h, y, rfl⟩ | ⟨h, y, rfl⟩ <;> try cases h
      · obtain ⟨w, hw⟩ := hop Binary.single x.toNat y.toNat
        exact ⟨_, by simp only [hw]; rfl, (fits_iff hk).mpr (.inl ⟨rfl, _, rfl⟩)⟩
      · obtain ⟨w, hw⟩ := hop Binary.double x.toNat y.toNat
        exact ⟨_, by simp only [hw]; rfl, (fits_iff hk).mpr (.inr ⟨rfl, _, rfl⟩)⟩
    · obtain ⟨x, rfl⟩ := (fits_iff hst.bool).mp ha
      obtain ⟨y, rfl⟩ := (fits_iff hst.bool).mp hb
      obtain ⟨r, hr⟩ := hop x y
      exact .inl ⟨_, by simp only [hr]; rfl, (fits_iff hst.bool).mpr ⟨r, rfl⟩⟩

end BinaryOp

/-! ## One operand -/

theorem UnaryOp.eval_fits (hst : t.Standard) {op ty a} (ho : t.allowsUnary op ty = true) (ha : a.fits t ty = true) :
    ∃ v, op.eval t ty a = .ok v ∧ v.fits t ty = true := by
  have hword {bits : Nat} {signed : Bool} (hk : t.kind ty = .int bits signed) (raw : UInt64) :
      ∃ v, UnaryOp.eval.onWord t ty raw = .ok v ∧ v.fits t ty = true := by
    refine ⟨.ofRaw raw bits signed, by simp [eval.onWord, TypeTable.intInfo_int hk], ?_⟩
    exact (fits_iff hk).mpr ⟨_, rfl, by simp⟩
  cases op <;> simp only [TypeTable.allowsUnary, TypeTable.isNumeric, Bool.or_eq_true,
    TypeTable.isInt_iff, TypeTable.isReal_iff, decide_eq_true_eq] at ho
  case neg =>
    rcases ho with ⟨bits, signed, hk⟩ | ⟨bits, hk⟩
    · obtain ⟨x, rfl, -⟩ := (fits_iff hk).mp ha
      exact hword hk _
    · rcases (fits_iff hk).mp ha with ⟨rfl, x, rfl⟩ | ⟨rfl, x, rfl⟩
      · exact ⟨_, rfl, (fits_iff hk).mpr (.inl ⟨rfl, _, rfl⟩)⟩
      · exact ⟨_, rfl, (fits_iff hk).mpr (.inr ⟨rfl, _, rfl⟩)⟩
  case pos => exact ⟨a, by cases a <;> rfl, ha⟩
  case not =>
    subst ho
    obtain ⟨x, rfl⟩ := (fits_iff hst.bool).mp ha
    exact ⟨_, rfl, (fits_iff hst.bool).mpr ⟨_, rfl⟩⟩
  case bitNot =>
    obtain ⟨bits, signed, hk⟩ := ho
    obtain ⟨x, rfl, -⟩ := (fits_iff hk).mp ha
    exact hword hk _

/-! ## Casts -/

namespace CastOp

variable {source target : TypeId} {v : Value}

private theorem toInteger_fits {bits signed} (hi : t.intInfo target = some (bits, signed)) (raw) :
    ∃ r, toInteger t target raw = .ok r ∧ r.fits t target = true :=
  ⟨.ofRaw raw bits signed, by simp [toInteger, hi], (fits_integer hi).mpr ⟨_, rfl, by simp⟩⟩

private theorem word_fits {bits signed} (hi : t.intInfo target = some (bits, signed)) {raw} (hv : v.asBits = some raw) :
    ∃ r, eval.word t target v = .ok r ∧ r.fits t target = true := by
  simp only [eval.word, hv]
  exact toInteger_fits hi raw

theorem toReal_fits (hreal : ∀ ty bits, t.kind ty = .real bits → bits = 32 ∨ bits = 64) (op : CastOp) (v : Value)
    {bits} (hk : t.kind target = .real bits) (hv : (op.integerOperand v).isSome ∨ v.asReal.isSome) :
    ∃ r, op.toReal t target v = .ok r ∧ r.fits t target = true := by
  unfold toReal
  rw [hk]
  cases hi : op.integerOperand v with
  | some n =>
    rcases hreal _ _ hk with rfl | rfl
    · exact ⟨_, rfl, (fits_iff hk).mpr (.inl ⟨rfl, _, rfl⟩)⟩
    · exact ⟨_, rfl, (fits_iff hk).mpr (.inr ⟨rfl, _, rfl⟩)⟩
  | none =>
    obtain ⟨w, hw⟩ := Option.isSome_iff_exists.mp (hv.resolve_left (by simp [hi]))
    rw [hw]
    rcases hreal _ _ hk with rfl | rfl
    · exact ⟨_, rfl, (fits_iff hk).mpr (.inl ⟨rfl, _, rfl⟩)⟩
    · exact ⟨_, rfl, (fits_iff hk).mpr (.inr ⟨rfl, _, rfl⟩)⟩

theorem eval_fits (hreal : ∀ ty bits, t.kind ty = .real bits → bits = 32 ∨ bits = 64) {op : CastOp}
    (ho : t.castOp source target = some op) (hv : v.fits t source = true) :
    ∃ r, op.eval t target v = .ok r ∧ r.fits t target = true := by
  unfold TypeTable.castOp at ho
  split at ho
  · next h =>
    cases ho
    subst h
    exact ⟨v, rfl, hv⟩
  · split at ho
    · next sb ss tb ts hs ht =>
      obtain ⟨w, rfl, -⟩ := (fits_integer hs).mp hv
      have hw := word_fits (v := .int w) ht rfl
      have hptr : t.isPtr target = false := by
        rcases TypeTable.intInfo_eq_some ht with hk | ⟨id, hk⟩ <;> simp [TypeTable.isPtr, hk]
      split at ho
      · cases ho
        cases ss <;> exact hw
      · split at ho <;> cases ho
        · exact hw
        · simpa [eval, hptr] using hw
    · split at ho <;> cases ho
      -- a truth value becomes an integer
      · rename_i hs ht
        obtain ⟨b, rfl⟩ := (fits_iff hs).mp hv
        exact word_fits (v := .bool b) ht rfl
      -- an integer becomes a truth value
      · rename_i ht hs _
        exact ⟨_, rfl, (fits_iff ht).mpr ⟨_, rfl⟩⟩
      -- between reals
      · rename_i hs ht
        have hr : v.asReal.isSome := by
          rcases (fits_iff hs).mp hv with ⟨-, w, rfl⟩ | ⟨-, w, rfl⟩ <;> rfl
        split
        · exact toReal_fits hreal .fpExt v ht (.inr hr)
        · exact toReal_fits hreal .fpTrunc v ht (.inr hr)
      -- a real becomes an integer
      · rename_i bits ts hs ht _ _
        obtain ⟨w, hw⟩ : ∃ w, v.asReal = some w := by
          rcases (fits_iff hs).mp hv with ⟨-, w, rfl⟩ | ⟨-, w, rfl⟩ <;> exact ⟨_, rfl⟩
        have hfit (raw : UInt64) : (Value.ofRaw raw bits ts).fits t target = true :=
          (fits_integer ht).mpr ⟨_, rfl, by simp⟩
        cases ts <;> simp only [eval, hw, ht] <;> exact ⟨_, rfl, hfit _⟩
      -- an integer becomes a real
      · rename_i ss ht hs _ _
        obtain ⟨w, rfl, -⟩ := (fits_integer hs).mp hv
        cases ss
        · exact toReal_fits hreal .uiToFp (.int w) ht (.inl rfl)
        · exact toReal_fits hreal .siToFp (.int w) ht (.inl rfl)
      -- between pointers
      · rename_i hs ht
        simp only [eval, TypeTable.isPtr, ht, if_true]
        exact ⟨_, rfl, (fits_iff ht).mpr ⟨_, rfl⟩⟩
      -- null becomes a pointer
      · rename_i hs ht
        simp only [eval, TypeTable.isPtr, ht, if_true]
        exact ⟨_, rfl, (fits_iff ht).mpr ⟨_, rfl⟩⟩
      -- a pointer becomes a truth value
      · rename_i hs ht _
        exact ⟨_, rfl, (fits_iff ht).mpr ⟨_, rfl⟩⟩
      -- a pointer becomes an integer
      · rename_i hs ht _ _ _ _
        obtain ⟨addr, rfl⟩ := (fits_iff hs).mp hv
        exact word_fits (v := .ptr addr) ht rfl
      -- an integer becomes a pointer
      · rename_i ht hs _ _ _ _
        exact ⟨_, rfl, (fits_iff ht).mpr ⟨_, rfl⟩⟩

end CastOp

end Comptime
