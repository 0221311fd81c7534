import Comptime.Proofs.Operator
import Mathlib

/-!
# Integer operators are exact

All words have 64 bits; a word of an integer type of fewer bits is cut to its width only after an operator
has been computed. The result is the same as if the operator had been applied to the integers themselves
and the result wrapped around at the width: `BinaryOp.exact` and `UnaryOp.exact` are the operators on
integers, and `Word.wrap` is the integer of a width that takes the place of any other.

The reason is that a word and the integer that it stands for are congruent modulo `2 ^ 64`, and cutting a
word to its width depends on nothing but its residue (`Word.toInt_canonical`).
-/

namespace Comptime

namespace Word

variable {bits : Nat} {signed : Bool} {n : Int}

/-- The integer of a width that is congruent to `n`. -/
def wrap (n : Int) (bits : Nat) (signed : Bool) : Int :=
  if signed then n.bmod (2 ^ bits) else n % (2 ^ bits : Nat)

/-- The word is the canonical form of the integer that `n` becomes at a width. -/
structure Holds (w : UInt64) (n : Int) (bits : Nat) (signed : Bool) : Prop where
  form : canonical w bits signed = w
  value : toInt w signed = wrap n bits signed

/-- The integer is one of those of a width. -/
def Within (n : Int) (bits : Nat) (signed : Bool) : Prop :=
  (if signed then -((2 ^ (bits - 1) : Nat) : Int) else 0) ≤ n ∧
    n < if signed then ((2 ^ (bits - 1) : Nat) : Int) else (2 ^ bits : Nat)

instance : Decidable (Within n bits signed) := inferInstanceAs (Decidable (_ ∧ _))

theorem wrap_congr {m : Int} (h : m % (2 ^ bits : Nat) = n % (2 ^ bits : Nat)) (signed) :
    wrap m bits signed = wrap n bits signed := by
  cases signed with
  | false => exact h
  | true =>
    show m.bmod (2 ^ bits) = n.bmod (2 ^ bits)
    rw [← Int.emod_bmod, h, Int.emod_bmod]

theorem toInt_emod (w : UInt64) (signed) : toInt w signed % (2 ^ 64 : Nat) = w.toNat := by
  have hlt : (w.toNat : Int) < (2 ^ 64 : Nat) := Int.ofNat_lt.mpr w.toNat_lt
  have hself : (w.toNat : Int) % (2 ^ 64 : Nat) = w.toNat := Int.emod_eq_of_lt (Int.natCast_nonneg _) hlt
  cases signed with
  | false => exact hself
  | true =>
    show w.toBitVec.toInt % (2 ^ 64 : Nat) = _
    rw [BitVec.toInt_eq_toNat_bmod, Int.bmod_emod]
    exact hself

theorem bmod_mul_two_pow (n : Int) {shift} (hb : 0 < bits) :
    (n * (2 ^ shift : Nat)).bmod (2 ^ (bits + shift)) = n.bmod (2 ^ bits) * (2 ^ shift : Nat) := by
  obtain ⟨k, rfl⟩ : ∃ k, bits = k + 1 := ⟨bits - 1, by omega⟩
  have hpos : (0 : Int) < (2 ^ shift : Nat) := Int.ofNat_lt.mpr (Nat.two_pow_pos shift)
  have hmod : n * (2 ^ shift : Nat) % (2 ^ (k + 1 + shift) : Nat) = n % (2 ^ (k + 1) : Nat) * (2 ^ shift : Nat) := by
    rw [Nat.pow_add 2 (k + 1), Int.natCast_mul, Int.mul_comm n, Int.mul_comm (2 ^ (k + 1) : Nat),
      Int.mul_emod_mul_of_pos _ _ hpos, Int.mul_comm]
  have hhalf (m : Nat) : (((2 ^ (m + 1) : Nat) : Int) + 1) / 2 = (2 ^ m : Nat) := by
    rw [Nat.pow_succ]
    omega
  have hadd : k + 1 + shift = k + shift + 1 := by omega
  have hless : n % (2 ^ (k + 1) : Nat) * (2 ^ shift : Nat) < (2 ^ (k + shift) : Nat) ↔
      n % (2 ^ (k + 1) : Nat) < (2 ^ k : Nat) := by
    rw [Nat.pow_add 2 k shift, Int.natCast_mul]
    exact Int.mul_lt_mul_right hpos
  rw [Int.bmod_def, Int.bmod_def, hmod, hadd, hhalf, hhalf]
  simp only [hless]
  split
  · rfl
  · rw [Int.sub_mul, ← Int.natCast_mul, ← Nat.pow_add, hadd]

theorem toInt_canonical (raw : UInt64) (hb : 0 < bits) (hle : bits ≤ 64) (signed) :
    toInt (canonical raw bits signed) signed = wrap raw.toNat bits signed := by
  by_cases hfull : 64 ≤ bits
  · obtain rfl : bits = 64 := Nat.le_antisymm hle hfull
    rw [canonical_full]
    cases signed with
    | false =>
      have hself := toInt_emod raw false
      rw [toInt, if_neg nofun] at hself
      rw [toInt, wrap, if_neg nofun, if_neg nofun]
      exact hself.symm
    | true =>
      rw [toInt, wrap, if_pos rfl, if_pos rfl]
      exact BitVec.toInt_eq_toNat_bmod raw.toBitVec
  · have hamount : (UInt64.ofNat (64 - bits)).toNat % 64 = 64 - bits := by
      rw [UInt64.toNat_ofNat', Nat.mod_eq_of_lt (a := 64 - bits) (by omega)]
      omega
    have hsum : 64 = bits + (64 - bits) := by omega
    unfold canonical
    rw [if_neg hfull]
    cases signed with
    | false =>
      show (((raw <<< UInt64.ofNat (64 - bits)) >>> UInt64.ofNat (64 - bits)).toNat : Int) =
        raw.toNat % (2 ^ bits : Nat)
      have hpow : 2 ^ 64 = 2 ^ bits * 2 ^ (64 - bits) := by rw [← Nat.pow_add, ← hsum]
      rw [UInt64.toNat_shiftRight, UInt64.toNat_shiftLeft, hamount, Nat.shiftLeft_eq,
        Nat.shiftRight_eq_div_pow, hpow, Nat.mul_mod_mul_right,
        Nat.mul_div_cancel _ (Nat.two_pow_pos _)]
      rfl
    | true =>
      have hshift : ((UInt64.ofNat (64 - bits)).toBitVec % 64).toNat = 64 - bits := hamount
      show ((raw <<< UInt64.ofNat (64 - bits)).toInt64 >>>
        (UInt64.ofNat (64 - bits)).toInt64).toBitVec.toInt = (raw.toNat : Int).bmod (2 ^ bits)
      rw [Int64.toBitVec_shiftRight, UInt64.toBitVec_toInt64, UInt64.toBitVec_toInt64,
        smod_shift _ (Nat.sub_le 64 bits), UInt64.toBitVec_shiftLeft, BitVec.shiftLeft_eq',
        BitVec.sshiftRight_eq', hshift, BitVec.toInt_sshiftRight, BitVec.toInt_shiftLeft]
      show ((raw.toNat <<< (64 - bits) : Nat) : Int).bmod (2 ^ 64) >>> (64 - bits) = _
      have hpow : 2 ^ 64 = 2 ^ (bits + (64 - bits)) := by rw [← hsum]
      rw [Nat.shiftLeft_eq, Int.natCast_mul, hpow, bmod_mul_two_pow _ hb, Int.shiftRight_eq_div_pow]
      exact Int.mul_ediv_cancel _ (Int.ofNat_ne_zero.mpr (Nat.ne_of_gt (Nat.two_pow_pos _)))

theorem holds_canonical {raw : UInt64} (hb : 0 < bits) (hle : bits ≤ 64)
    (h : (raw.toNat : Int) % (2 ^ bits : Nat) = n % (2 ^ bits : Nat)) (signed) :
    Holds (canonical raw bits signed) n bits signed :=
  ⟨canonical_canonical .., (toInt_canonical raw hb hle signed).trans (wrap_congr h signed)⟩

theorem holds_self {w} (hb : 0 < bits) (hle : bits ≤ 64) (h : canonical w bits signed = w) :
    Holds w (toInt w signed) bits signed := by
  have hdvd : ((2 ^ bits : Nat) : Int) ∣ (2 ^ 64 : Nat) := Int.natCast_dvd_natCast.mpr (Nat.pow_dvd_pow 2 hle)
  have hself : Holds (canonical w bits signed) (toInt w signed) bits signed := by
    apply holds_canonical hb hle
    rw [← toInt_emod w signed, Int.emod_emod_of_dvd _ hdvd]
  rwa [h] at hself

theorem Holds.bounds {w} (h : Holds w n bits signed) (hb : 0 < bits) : Within (toInt w signed) bits signed := by
  obtain ⟨k, rfl⟩ : ∃ k, bits = k + 1 := ⟨bits - 1, by omega⟩
  have hpos : 0 < 2 ^ (k + 1) := Nat.two_pow_pos _
  rw [h.value, wrap, Within]
  cases signed with
  | false =>
    have hlow := Int.emod_nonneg n (Int.ofNat_ne_zero.mpr (Nat.ne_of_gt hpos))
    have hhigh := Int.emod_lt_of_pos n (Int.ofNat_lt.mpr hpos)
    exact ⟨hlow, hhigh⟩
  | true =>
    have hlow := Int.le_bmod (x := n) hpos
    have hhigh := Int.bmod_lt (x := n) hpos
    simp only [if_true, Nat.add_sub_cancel]
    rw [Nat.pow_succ] at hlow hhigh ⊢
    constructor <;> omega

theorem wrap_of_within (hb : 0 < bits) (h : Within n bits signed) : wrap n bits signed = n := by
  obtain ⟨k, rfl⟩ : ∃ k, bits = k + 1 := ⟨bits - 1, by omega⟩
  obtain ⟨hlow, hhigh⟩ := h
  cases signed with
  | false => exact Int.emod_eq_of_lt hlow hhigh
  | true =>
    simp only [if_true, Nat.add_sub_cancel] at hlow hhigh
    show n.bmod (2 ^ (k + 1)) = n
    rw [Nat.pow_succ]
    exact Int.bmod_eq_of_le (by omega) (by omega)

/-! ## Results modulo a width -/

theorem emod_of_full {m : Int} (hle : bits ≤ 64) (h : m % (2 ^ 64 : Nat) = n % (2 ^ 64 : Nat)) :
    m % (2 ^ bits : Nat) = n % (2 ^ bits : Nat) := by
  have hdvd : ((2 ^ bits : Nat) : Int) ∣ (2 ^ 64 : Nat) := Int.natCast_dvd_natCast.mpr (Nat.pow_dvd_pow 2 hle)
  rw [← Int.emod_emod_of_dvd m hdvd, h, Int.emod_emod_of_dvd n hdvd]

theorem toNat_toUInt64 (n : Int64) : (n.toUInt64.toNat : Int) = n.toInt % (2 ^ 64 : Nat) :=
  (toInt_emod n.toUInt64 true).symm

theorem ofInt_toInt_eq (w : UInt64) (hle : bits ≤ 64) (signed) :
    BitVec.ofInt bits (toInt w signed) = w.toBitVec.setWidth bits := by
  apply BitVec.eq_of_toNat_eq
  have hword := emod_of_full (n := toInt w signed) (m := w.toNat) hle
    (by rw [← toInt_emod w signed, Int.emod_emod_of_dvd _ (Int.dvd_refl _)])
  rw [BitVec.toNat_ofInt, BitVec.toNat_setWidth, ← hword]
  rfl

theorem toNat_emod (p : BitVec 64) :
    (p.toNat : Int) % (2 ^ bits : Nat) = (p.setWidth bits).toInt % (2 ^ bits : Nat) := by
  rw [BitVec.toInt_eq_toNat_bmod, Int.bmod_emod, BitVec.toNat_setWidth, Int.natCast_emod,
    Int.emod_emod_of_dvd _ (Int.dvd_refl _)]

theorem shiftAmount (w) (hb : 0 < bits) (hle : bits ≤ 64) (hdvd : bits ∣ 2 ^ 64) (signed) :
    w % UInt64.ofNat bits = UInt64.ofNat (toInt w signed % bits).toNat ∧ (toInt w signed % bits).toNat < bits := by
  have hpos : (0 : Int) < bits := Int.ofNat_lt.mpr hb
  have hmod : (toInt w signed % bits).toNat = w.toNat % bits := by
    rw [← Int.emod_emod_of_dvd _ (Int.natCast_dvd_natCast.mpr hdvd), toInt_emod]
    rfl
  have hlt := Nat.mod_lt w.toNat hb
  refine ⟨UInt64.toNat_inj.mp ?_, hmod ▸ hlt⟩
  rw [hmod, UInt64.toNat_mod, UInt64.toNat_ofNat', UInt64.toNat_ofNat',
    Nat.mod_eq_of_lt (a := bits) (by omega), Nat.mod_eq_of_lt (a := w.toNat % bits) (by omega)]

end Word

/-! ## Operators on integers -/

/-- What an operator gives for two integers, before the result wraps around at a width. The bitwise
operators work on patterns of the width; a shift goes by the residue of the right operand modulo the width,
and one to the right rounds down, so that the sign stays. -/
def BinaryOp.exact (bits : Nat) (op : BinaryOp) (x y : Int) : Int :=
  match op with
  | add => x + y
  | sub => x - y
  | mul => x * y
  | div => x.tdiv y
  | mod => x.tmod y
  | bitAnd => (BitVec.ofInt bits x &&& BitVec.ofInt bits y).toInt
  | bitOr => (BitVec.ofInt bits x ||| BitVec.ofInt bits y).toInt
  | xor => (BitVec.ofInt bits x ^^^ BitVec.ofInt bits y).toInt
  | shl => x * 2 ^ (y % bits).toNat
  | shr => x / 2 ^ (y % bits).toNat
  | _ => 0

/-- Whether a comparison holds of two integers. -/
def BinaryOp.holds (op : BinaryOp) (x y : Int) : Bool :=
  match op with
  | eq => x = y
  | neq => x ≠ y
  | less => x < y
  | lessEq => x ≤ y
  | greater => y < x
  | greaterEq => y ≤ x
  | _ => false

/-- What an operator gives for an integer, before the result wraps around at a width. -/
def UnaryOp.exact (bits : Nat) (op : UnaryOp) (x : Int) : Int :=
  match op with
  | neg => -x
  | bitNot => (~~~BitVec.ofInt bits x).toInt
  | pos | not => x

def BinaryOp.DividesByZero (op : BinaryOp) (b : UInt64) : Prop := (op = div ∨ op = mod) ∧ b = 0

namespace BinaryOp

variable {op : BinaryOp} {bits : Nat} {signed : Bool} {a b : UInt64}

open Word

theorem onWords_holds (hb : 0 < bits) (hle : bits ≤ 64) (hdvd : bits ∣ 2 ^ 64)
    (hc : op.isComparison = false) (hl : op.isLogic = false) (hz : ¬ op.DividesByZero b) :
    ∃ r, op.onWords bits signed a b = .ok r ∧
      Holds r (op.exact bits (toInt a signed) (toInt b signed)) bits signed := by
  have hx := toInt_emod a signed
  have hy := toInt_emod b signed
  -- a result that is right modulo `2 ^ 64` will do
  have hfull {raw : UInt64} {n : Int} (h : (raw.toNat : Int) % (2 ^ 64 : Nat) = n % (2 ^ 64 : Nat)) :
      Holds (canonical raw bits signed) n bits signed :=
    holds_canonical hb hle (emod_of_full hle h) signed
  have hsigned {raw : Int64} {n : Int} (h : raw.toInt % (2 ^ 64 : Nat) = n % (2 ^ 64 : Nat)) :
      Holds (canonical raw.toUInt64 bits signed) n bits signed := by
    refine hfull ?_
    rw [toNat_toUInt64, Int.emod_emod_of_dvd _ (Int.dvd_refl _), h]
  have hpattern {raw : UInt64} {p : BitVec bits} (h : raw.toBitVec.setWidth bits = p) :
      Holds (canonical raw bits signed) p.toInt bits signed := by
    refine holds_canonical hb hle ?_ signed
    rw [← h]
    exact toNat_emod raw.toBitVec
  obtain ⟨hamount, hless⟩ := shiftAmount b hb hle hdvd signed
  cases op with
  | add =>
    refine ⟨_, rfl, hfull ?_⟩
    rw [UInt64.toNat_add]
    simp only [exact]
    omega
  | sub =>
    refine ⟨_, rfl, hfull ?_⟩
    rw [UInt64.toNat_sub]
    simp only [exact]
    omega
  | mul =>
    refine ⟨_, rfl, hfull ?_⟩
    rw [UInt64.toNat_mul, Int.natCast_emod, Int.natCast_mul, ← hx, ← hy, ← Int.mul_emod,
      Int.emod_emod_of_dvd _ (Int.dvd_refl _), exact]
  | div =>
    have hne : ¬ b = 0 := fun h => hz ⟨.inl rfl, h⟩
    cases signed with
    | false =>
      refine ⟨_, by simp [onWords, hne]; rfl, hfull ?_⟩
      rw [UInt64.toNat_div]
      exact congrArg (· % _) (Int.ofNat_tdiv ..)
    | true =>
      refine ⟨_, by simp [onWords, hne]; rfl, hsigned ?_⟩
      rw [Int64.toInt_div, Int.bmod_emod]
      rfl
  | mod =>
    have hne : ¬ b = 0 := fun h => hz ⟨.inr rfl, h⟩
    cases signed with
    | false =>
      refine ⟨_, by simp [onWords, hne]; rfl, hfull ?_⟩
      rw [UInt64.toNat_mod]
      exact congrArg (· % _) (Int.ofNat_tmod ..)
    | true =>
      refine ⟨_, by simp [onWords, hne]; rfl, hsigned ?_⟩
      rw [Int64.toInt_mod]
      rfl
  | bitAnd =>
    refine ⟨_, rfl, hpattern ?_⟩
    rw [ofInt_toInt_eq a hle, ofInt_toInt_eq b hle, UInt64.toBitVec_and, BitVec.setWidth_and]
  | bitOr =>
    refine ⟨_, rfl, hpattern ?_⟩
    rw [ofInt_toInt_eq a hle, ofInt_toInt_eq b hle, UInt64.toBitVec_or, BitVec.setWidth_or]
  | xor =>
    refine ⟨_, rfl, hpattern ?_⟩
    rw [ofInt_toInt_eq a hle, ofInt_toInt_eq b hle, UInt64.toBitVec_xor, BitVec.setWidth_xor]
  | shl =>
    refine ⟨_, rfl, hfull ?_⟩
    rw [hamount, UInt64.toNat_shiftLeft, UInt64.toNat_ofNat', Nat.shiftLeft_eq, exact]
    generalize (toInt b signed % bits).toNat = k at *
    rw [Nat.mod_eq_of_lt (a := k) (by omega), Nat.mod_eq_of_lt (a := k) (by omega), Int.natCast_emod,
      Int.natCast_mul, ← hx, Int.emod_emod_of_dvd _ (Int.dvd_refl _), Int.mul_emod,
      Int.emod_emod_of_dvd _ (Int.dvd_refl _), ← Int.mul_emod, Int.natCast_pow]
    rfl
  | shr =>
    cases signed with
    | false =>
      refine ⟨_, rfl, hfull ?_⟩
      show (((a >>> (b % UInt64.ofNat bits)).toNat : Nat) : Int) % _ = _
      rw [hamount, UInt64.toNat_shiftRight, UInt64.toNat_ofNat', Nat.shiftRight_eq_div_pow, exact]
      generalize (toInt b false % bits).toNat = k at *
      rw [Nat.mod_eq_of_lt (a := k) (by omega), Nat.mod_eq_of_lt (a := k) (by omega), Int.natCast_ediv,
        Int.natCast_pow]
      rfl
    | true =>
      refine ⟨_, rfl, hsigned ?_⟩
      show (a.toInt64 >>> (b % UInt64.ofNat bits).toInt64).toBitVec.toInt % _ = _
      rw [hamount, exact]
      generalize (toInt b true % bits).toNat = k at *
      have hk : ((UInt64.ofNat k).toBitVec % 64).toNat = k := by
        simp
        omega
      rw [Int64.toBitVec_shiftRight, UInt64.toBitVec_toInt64, UInt64.toBitVec_toInt64,
        smod_shift k (by omega), BitVec.sshiftRight_eq', hk, BitVec.toInt_sshiftRight,
        Int.shiftRight_eq_div_pow, Int.natCast_pow]
      rfl
  | _ => simp [isComparison, isLogic] at hc hl

theorem onWords_of_dividesByZero (h : op.DividesByZero b) : op.onWords bits signed a b = .error .divideByZero := by
  obtain ⟨rfl | rfl, rfl⟩ := h <;> rfl

theorem onOrdering_compare (hc : op.isComparison = true) (x y : Int) :
    op.onOrdering (Ord.compare x y) = .ok (op.holds x y) := by
  rcases Int.lt_trichotomy x y with h | rfl | h
  · have hne : x ≠ y := Int.ne_of_lt h
    rw [Int.compare_eq_lt.mpr h]
    cases op <;> cases hc <;>
      simp [onOrdering, holds, h, hne, Int.le_of_lt h, Int.not_lt.mpr (Int.le_of_lt h), Int.not_le.mpr h]
  · rw [Int.compare_eq_eq.mpr rfl]
    cases op <;> cases hc <;> simp [onOrdering, holds]
  · have hne : x ≠ y := Int.ne_of_gt h
    rw [Int.compare_eq_gt.mpr h]
    cases op <;> cases hc <;>
      simp [onOrdering, holds, h, hne, Int.le_of_lt h, Int.not_lt.mpr (Int.le_of_lt h), Int.not_le.mpr h]

end BinaryOp

/-! ## Division -/

section

variable {bits : Nat} {signed : Bool} {x y : Int}

theorem wrap_tmod (hb : 0 < bits) (h : Word.Within x bits signed) : Word.wrap (x.tmod y) bits signed = x.tmod y := by
  have habs : (x.tmod y).natAbs ≤ x.natAbs := by
    rw [Int.natAbs_tmod]
    exact Nat.mod_le ..
  -- the remainder has the sign of the dividend
  have hpos : 0 ≤ x → 0 ≤ x.tmod y := Int.tmod_nonneg y
  have hneg : x ≤ 0 → x.tmod y ≤ 0 := by
    intro h
    have := Int.tmod_nonneg y (Int.neg_nonneg_of_nonpos h)
    rw [Int.neg_tmod] at this
    omega
  refine Word.wrap_of_within hb ?_
  cases signed <;> simp only [Word.Within, if_true, Bool.false_eq_true, if_false] at h ⊢ <;> omega

theorem wrap_tdiv (hb : 0 < bits) (h : Word.Within x bits signed) (hy : Word.Within y bits signed)
    (hmin : ¬ (signed = true ∧ x = -((2 ^ (bits - 1) : Nat) : Int) ∧ y = -1)) :
    Word.wrap (x.tdiv y) bits signed = x.tdiv y := by
  have habs : (x.tdiv y).natAbs ≤ x.natAbs := by
    rw [Int.natAbs_tdiv]
    exact Nat.div_le_self ..
  cases signed with
  | false =>
    simp only [Word.Within, Bool.false_eq_true, if_false] at h hy
    have hpos := Int.tdiv_nonneg h.1 hy.1
    refine Word.wrap_of_within hb ?_
    simp only [Word.Within, Bool.false_eq_true, if_false]
    omega
  | true =>
    simp only [Word.Within, if_true] at h hy
    -- only the least integer divided by -1 is too great
    have hless : x.tdiv y < ((2 ^ (bits - 1) : Nat) : Int) := by
      refine Decidable.byContradiction fun hge => ?_
      have hx : x = -((2 ^ (bits - 1) : Nat) : Int) := by omega
      have hx0 : x.natAbs ≠ 0 := by
        have := Nat.two_pow_pos (bits - 1)
        omega
      have hq : (x.tdiv y).natAbs = x.natAbs := by omega
      have hq : x.natAbs / y.natAbs = x.natAbs := (Int.natAbs_tdiv x y).symm.trans hq
      have hy1 : y.natAbs = 1 := by
        rcases Nat.lt_or_ge 1 y.natAbs with h | h
        · have := Nat.div_lt_self (Nat.pos_of_ne_zero hx0) h
          omega
        · have h0 : y.natAbs ≠ 0 := by
            intro h0
            rw [h0, Nat.div_zero] at hq
            omega
          omega
      rcases Int.natAbs_eq_iff.mp hy1 with rfl | rfl
      · rw [show ((1 : Nat) : Int) = 1 from rfl, Int.tdiv_one] at hge
        omega
      · exact hmin ⟨rfl, hx, rfl⟩
    refine Word.wrap_of_within hb ?_
    simp only [Word.Within, if_true]
    omega

end

/-! ## All operators -/

section

variable {t : TypeTable} {ty : TypeId} {bits : Nat} {signed : Bool} {a b : UInt64}

open Word

theorem BinaryOp.eval_int (hi : t.intInfo ty = some (bits, signed)) {op : BinaryOp} (hc : op.isComparison = false) :
    op.eval t ty (.int a) (.int b) = (op.onWords bits signed a b).map .int := by
  simp only [eval, hc, Bool.false_eq_true, if_false, hi]

theorem UnaryOp.eval_holds (hb : 0 < bits) (hle : bits ≤ 64) (hi : t.intInfo ty = some (bits, signed))
    (ha : canonical a bits signed = a) {op : UnaryOp} (hop : op ≠ .not) :
    ∃ r, op.eval t ty (.int a) = .ok (.int r) ∧ Holds r (op.exact bits (toInt a signed)) bits signed := by
  have hword (raw : UInt64) :
      UnaryOp.eval.onWord t ty raw = .ok (.int (canonical raw bits signed)) := by
    simp only [eval.onWord, hi, Value.ofRaw]
  have hx := toInt_emod a signed
  cases op with
  | neg =>
    refine ⟨_, hword (-a), holds_canonical hb hle (emod_of_full hle ?_) signed⟩
    rw [UInt64.toNat_neg, UInt64.size]
    simp only [exact]
    omega
  | pos => exact ⟨a, rfl, holds_self hb hle ha⟩
  | not => exact absurd rfl hop
  | bitNot =>
    refine ⟨_, hword (~~~a), holds_canonical hb hle ?_ signed⟩
    simp only [exact]
    rw [ofInt_toInt_eq a hle, ← BitVec.setWidth_not hle]
    exact toNat_emod (~~~a).toBitVec

/-- Operators on integers of 8, 16, 32 or 64 bits. The result is the canonical form of what the operator
gives for the integers that the operands stand for; the only error is a division by zero. A quotient is
rounded toward zero and a remainder has the sign of the dividend: both are integers of the width, except
for the least integer divided by -1, which gives itself. Comparisons go by the order of the integers. -/
theorem integer_operators_exact (hw : bits = 8 ∨ bits = 16 ∨ bits = 32 ∨ bits = 64)
    (hi : t.intInfo ty = some (bits, signed)) (ha : canonical a bits signed = a)
    (hb : canonical b bits signed = b) :
    (∀ op : BinaryOp, op.isComparison = false → op.isLogic = false →
      (op.DividesByZero b → op.eval t ty (.int a) (.int b) = .error .divideByZero) ∧
      (¬ op.DividesByZero b → ∃ r, op.eval t ty (.int a) (.int b) = .ok (.int r) ∧
        Holds r (op.exact bits (toInt a signed) (toInt b signed)) bits signed)) ∧
    (b ≠ 0 → ∃ r, BinaryOp.mod.eval t ty (.int a) (.int b) = .ok (.int r) ∧
      toInt r signed = (toInt a signed).tmod (toInt b signed)) ∧
    (b ≠ 0 → ¬ (signed = true ∧ toInt a signed = -((2 ^ (bits - 1) : Nat) : Int) ∧ toInt b signed = -1) →
      ∃ r, BinaryOp.div.eval t ty (.int a) (.int b) = .ok (.int r) ∧
        toInt r signed = (toInt a signed).tdiv (toInt b signed)) ∧
    (signed = true → toInt a signed = -((2 ^ (bits - 1) : Nat) : Int) → toInt b signed = -1 →
      BinaryOp.div.eval t ty (.int a) (.int b) = .ok (.int a) ∧
        BinaryOp.mod.eval t ty (.int a) (.int b) = .ok (.int 0)) ∧
    (∀ op : BinaryOp, op.isComparison = true →
      op.eval t ty (.int a) (.int b) = .ok (.bool (op.holds (toInt a signed) (toInt b signed)))) ∧
    ∀ op : UnaryOp, op ≠ .not → ∃ r, op.eval t ty (.int a) = .ok (.int r) ∧
      Holds r (op.exact bits (toInt a signed)) bits signed := by
  have hpos : 0 < bits := by omega
  have hle : bits ≤ 64 := by omega
  have hdvd : bits ∣ 2 ^ 64 := by rcases hw with rfl | rfl | rfl | rfl <;> decide
  have hbinary (op : BinaryOp) (hc : op.isComparison = false) (hl : op.isLogic = false)
      (hz : ¬ op.DividesByZero b) : ∃ r, op.eval t ty (.int a) (.int b) = .ok (.int r) ∧
        Holds r (op.exact bits (toInt a signed) (toInt b signed)) bits signed := by
    have hwords : ∃ r, op.onWords bits signed a b = .ok r ∧
        Holds r (op.exact bits (toInt a signed) (toInt b signed)) bits signed :=
      BinaryOp.onWords_holds hpos hle hdvd hc hl hz
    obtain ⟨r, hr, hholds⟩ := hwords
    refine ⟨r, ?_, hholds⟩
    rw [BinaryOp.eval_int hi hc, hr]
    rfl
  have hmod (hne : b ≠ 0) := hbinary .mod rfl rfl fun hz => hne hz.2
  have hdiv (hne : b ≠ 0) := hbinary .div rfl rfl fun hz => hne hz.2
  have hx := (holds_self hpos hle ha).bounds hpos
  have hy := (holds_self hpos hle hb).bounds hpos
  refine ⟨fun op hc hl => ⟨fun hz => ?_, hbinary op hc hl⟩, fun hne => ?_, fun hne hmin => ?_, ?_, ?_, ?_⟩
  · rw [BinaryOp.eval_int hi hc, BinaryOp.onWords_of_dividesByZero hz]
    rfl
  · obtain ⟨r, hr, hholds⟩ := hmod hne
    exact ⟨r, hr, hholds.value.trans (wrap_tmod hpos hx)⟩
  · obtain ⟨r, hr, hholds⟩ := hdiv hne
    exact ⟨r, hr, hholds.value.trans (wrap_tdiv hpos hx hy hmin)⟩
  · rintro rfl hmin hy1
    have hne : b ≠ 0 := by
      rintro rfl
      cases hy1
    obtain ⟨k, rfl⟩ : ∃ k, bits = k + 1 := ⟨bits - 1, by omega⟩
    obtain ⟨q, hq, hquotient⟩ := hdiv hne
    obtain ⟨r, hr, hremainder⟩ := hmod hne
    have hback {v w : UInt64} (h : toInt v true = toInt w true) : v = w := by
      rw [← ofInt_toInt v, h, ofInt_toInt]
    constructor
    · rw [hq, hback (v := q) (w := a)]
      have hhalf : ((2 ^ k : Nat) : Int) % ((2 ^ k * 2 : Nat) : Int) = (2 ^ k : Nat) :=
        Int.emod_eq_of_lt (Int.natCast_nonneg _) (by have := Nat.two_pow_pos k; omega)
      rw [hquotient.value, wrap, if_pos rfl, BinaryOp.exact, hy1, hmin, Nat.add_sub_cancel, Int.tdiv_neg,
        Int.tdiv_one, Int.neg_neg, Nat.pow_succ, Int.bmod_def, hhalf]
      omega
    · rw [hr, hback (v := r) (w := 0)]
      rw [hremainder.value, wrap, if_pos rfl, BinaryOp.exact, hy1, Int.tmod_neg, Int.tmod_one,
        Int.zero_bmod]
      rfl
  · intro op hc
    have hcompare : op.compare t ty (.int a) (.int b) =
        op.onOrdering (Ord.compare (toInt a signed) (toInt b signed)) := by
      simp only [BinaryOp.compare, hi, Option.map_some, Option.getD_some]
    simp only [BinaryOp.eval, hc, if_true, hcompare, BinaryOp.onOrdering_compare hc]
    rfl
  · intro op hop
    exact UnaryOp.eval_holds hpos hle hi ha hop

/-- The least integer of 8 bits divided by -1 gives itself, and shifted by -1, which counts as 7, it
gives -1. -/
theorem integer_operators_exact_least :
    BinaryOp.div.eval .initial .s8 (.int 0xffffffffffffff80) (.int 0xffffffffffffffff) =
      .ok (.int 0xffffffffffffff80) ∧
    ∃ r, BinaryOp.shr.eval .initial .s8 (.int 0xffffffffffffff80) (.int 0xffffffffffffffff) = .ok (.int r) ∧
      toInt r true = -1 := by
  have hi : TypeTable.initial.intInfo .s8 = some (8, true) := by decide
  obtain ⟨hbinary, -, -, hleast, -⟩ := integer_operators_exact (a := 0xffffffffffffff80)
    (b := 0xffffffffffffffff) (.inl rfl) hi (by decide) (by decide)
  obtain ⟨r, hr, hholds⟩ := (hbinary .shr rfl rfl).2 fun hz => by
    obtain ⟨h | h, -⟩ := hz <;> cases h
  exact ⟨(hleast rfl (by decide) (by decide)).1, r, hr, hholds.value.trans (by decide)⟩

end

/-! ## Operators that types allow -/

section

variable {t : TypeTable} {ty : TypeId} {a b : Value}

/-- Operators that a type allows never go wrong. For values of the type they give a value of the type, or a
truth value if they compare; nothing but the division of integers by zero is an error. -/
theorem allowed_operators_sound (hst : t.Standard) (ty : TypeId) :
    (∀ (op : BinaryOp) (a b : Value), t.allowsBinary op ty = true → a.fits t ty = true →
      b.fits t ty = true →
        (∃ v, op.eval t ty a b = .ok v ∧ v.fits t (if op.isComparison then .bool else ty) = true) ∨
        op.eval t ty a b = .error .divideByZero ∧ t.isInt ty = true ∧ (op = .div ∨ op = .mod) ∧
          b = .int 0) ∧
    ∀ (op : UnaryOp) (a : Value), t.allowsUnary op ty = true → a.fits t ty = true →
      ∃ v, op.eval t ty a = .ok v ∧ v.fits t ty = true := by
  exact ⟨fun op a b => BinaryOp.eval_fits hst, fun op a => UnaryOp.eval_fits hst⟩

def callbacks : TypeTable := (TypeTable.initial.intern (.fn [.s32] .bool)).1

/-- A function may be compared with null, and a byte may be divided by zero. -/
theorem allowed_operators_sound_callbacks :
    (∃ v, BinaryOp.eq.eval callbacks 14 (.fn 4) (.ptr 0) = .ok v ∧ v.fits callbacks .bool = true) ∧
    (∃ v, UnaryOp.neg.eval callbacks .u8 (.int 200) = .ok v ∧ v.fits callbacks .u8 = true) ∧
    BinaryOp.div.eval callbacks .u8 (.int 200) (.int 0) = .error .divideByZero := by
  have hst : callbacks.Standard :=
    have hk : TypeTable.initial.Builds (.fn [.s32] .bool) := trivial
    (TypeTable.Proper.initial.intern hk).standard
  have hu8 : callbacks.intInfo .u8 = some (8, false) := by decide +kernel
  have hdiv : BinaryOp.div.eval callbacks .u8 (.int 200) (.int 0) = .error .divideByZero := by
    rw [BinaryOp.eval_int hu8 rfl]
    rfl
  refine ⟨?_, ?_, ?_⟩
  · rcases (allowed_operators_sound hst 14).1 .eq (.fn 4) (.ptr 0) (by decide +kernel)
      (by decide +kernel) (by decide +kernel) with h | ⟨-, -, h | h, -⟩
    · exact h
    · cases h
    · cases h
  · exact (allowed_operators_sound hst .u8).2 .neg (.int 200) (by decide +kernel)
      (by decide +kernel)
  · rcases (allowed_operators_sound hst .u8).1 .div (.int 200) (.int 0) (by decide +kernel)
      (by decide +kernel) (by decide +kernel) with ⟨v, h, -⟩ | ⟨h, -⟩
    · rw [hdiv] at h
      cases h
    · exact h

end

end Comptime
