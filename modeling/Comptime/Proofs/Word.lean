import Comptime.Word

/-!
# Canonical words

Bringing a word into canonical form twice is the same as doing it once. Both forms shift the word up
and down again by the same amount, and a word that was shifted up has nothing in its low bits that
the way down and up could lose.

A word is made up of its bytes again, and its canonical form depends on the bytes of its width only.
-/

namespace Comptime.Word

theorem shl_ushr_shl (x : BitVec 64) (s : Nat) : ((x <<< s) >>> s) <<< s = x <<< s := by
  ext i hi
  simp
  grind

theorem shl_sshr_shl (x : BitVec 64) (s : Nat) : ((x <<< s).sshiftRight s) <<< s = x <<< s := by
  ext i hi
  simp [BitVec.getElem_sshiftRight]
  grind

theorem shl_sshr {x : BitVec 64} {s} (hs : s < 64) (h : ∀ i, 64 - s - 1 ≤ i → x.getLsbD i = false) :
    (x <<< s).sshiftRight s = x := by
  have hm : (x <<< s).msb = false := by
    have := h (64 - 1 - s) (by omega)
    rw [BitVec.msb_eq_getLsbD_last, BitVec.getLsbD_shiftLeft]
    simp [this]
  ext i hi
  simp only [BitVec.getElem_sshiftRight, BitVec.getElem_shiftLeft]
  split
  · have e : s + i - s = i := by omega
    simp [e]
  · rw [hm, ← BitVec.getLsbD_eq_getElem]
    exact (h i (by omega)).symm

theorem smod_shift (n) (h : n ≤ 64) : (UInt64.ofNat n).toBitVec.smod 64 = (UInt64.ofNat n).toBitVec % 64 := by
  have hmsb : (UInt64.ofNat n).toBitVec.msb = false := by
    rw [BitVec.msb_eq_false_iff_two_mul_lt]
    simp
    omega
  rw [BitVec.smod_eq, hmsb]
  rfl

@[simp] theorem canonical_canonical (raw : UInt64) (bits : Nat) (signed : Bool) :
    canonical (canonical raw bits signed) bits signed = canonical raw bits signed := by
  unfold canonical
  split
  · rfl
  · cases signed
    · simp only [Bool.false_eq_true, if_false]
      apply UInt64.toBitVec_inj.1
      simp only [UInt64.toBitVec_shiftLeft, UInt64.toBitVec_shiftRight, BitVec.shiftLeft_eq',
        BitVec.ushiftRight_eq', shl_ushr_shl]
    · simp only [if_true]
      apply UInt64.toBitVec_inj.1
      simp only [UInt64.toBitVec_shiftLeft, Int64.toBitVec_toUInt64, Int64.toBitVec_shiftRight,
        UInt64.toBitVec_toInt64, BitVec.shiftLeft_eq', BitVec.sshiftRight_eq',
        smod_shift _ (Nat.sub_le 64 bits), shl_sshr_shl]

theorem canonical_of_lt {raw : UInt64} {bits} (hb : 0 < bits) (h : raw.toNat < 1 <<< (bits - 1)) :
    canonical raw bits true = raw := by
  unfold canonical
  split
  · rfl
  · have hamount : ((UInt64.ofNat (64 - bits)).toBitVec % 64).toNat = 64 - bits := by
      simp
      omega
    simp only [if_true]
    apply UInt64.toBitVec_inj.1
    simp only [UInt64.toBitVec_shiftLeft, Int64.toBitVec_toUInt64, Int64.toBitVec_shiftRight,
      UInt64.toBitVec_toInt64, BitVec.shiftLeft_eq', BitVec.sshiftRight_eq',
      smod_shift _ (Nat.sub_le 64 bits), hamount]
    rw [Nat.one_shiftLeft] at h
    refine shl_sshr (by omega) fun i hi => Nat.testBit_lt_two_pow ?_
    exact Nat.lt_of_lt_of_le h (Nat.pow_le_pow_right (by decide) (by omega))

@[simp] theorem canonical_full (raw signed) : canonical raw 64 signed = raw := rfl

@[simp] theorem canonical_zero (bits signed) : canonical 0 bits signed = 0 := by
  unfold canonical
  split
  · rfl
  · cases signed
    · simp
    · simp only [if_true]
      apply UInt64.toBitVec_inj.1
      simp

theorem ofInt_toInt (w) : ofInt (toInt w true) = w := by
  have hlt : (w.toNat : Int) < 0x10000000000000000 := Int.ofNat_lt.mpr w.toBitVec.isLt
  have hmod : toInt w true % 0x10000000000000000 = w.toNat := by
    show w.toBitVec.toInt % 0x10000000000000000 = _
    rw [BitVec.toInt_eq_toNat_bmod]
    exact (Int.bmod_emod ..).trans (Int.emod_eq_of_lt (Int.natCast_nonneg _) hlt)
  rw [ofInt, hmod]
  simp

/-! ## Bytes -/

private theorem bytes_succ (w : UInt64) (n) : bytes w (n + 1) = UInt8.ofNat w.toNat :: bytes (w >>> 8) n := by
  simp only [bytes, List.range_succ_eq_map, List.map_cons, List.map_map, Nat.mul_zero,
    Nat.shiftRight_zero, List.cons.injEq, true_and]
  apply List.map_congr_left
  intro i _
  have hshift : (w >>> 8).toNat = w.toNat >>> 8 := by simp
  simp only [Function.comp, hshift, ← Nat.shiftRight_add]
  congr 2
  omega

theorem toNat_ofBytes_bytes (w : UInt64) {n} (hn : n ≤ 8) :
    (ofBytes (bytes w n)).toNat = w.toNat % (1 <<< (8 * n)) := by
  induction n generalizing w with
  | zero => simp [bytes, ofBytes, Nat.mod_one]
  | succ n ih =>
    have hrest := ih (w >>> 8) (Nat.le_of_succ_le hn)
    have hdiv : (w >>> 8).toNat = w.toNat / 256 := by
      simp [Nat.shiftRight_eq_div_pow]
    rw [hdiv, Nat.one_shiftLeft] at hrest
    have hlt : w.toNat / 256 % 2 ^ (8 * n) < 2 ^ (8 * n) := Nat.mod_lt _ (Nat.two_pow_pos _)
    have hpow : 2 ^ (8 * n) ≤ 2 ^ 56 := Nat.pow_le_pow_right (by decide) (by omega)
    have hsplit : w.toNat % (1 <<< (8 * (n + 1))) = w.toNat % 256 + 256 * (w.toNat / 256 % 2 ^ (8 * n)) := by
      rw [Nat.one_shiftLeft, show 8 * (n + 1) = 8 + 8 * n by omega, Nat.pow_add, Nat.mod_mul]
    rw [hsplit, bytes_succ, ofBytes, UInt64.toNat_add, UInt64.toNat_mul, hrest]
    simp only [UInt8.toNat_ofNat', UInt64.toNat_ofNat', UInt64.reduceToNat]
    omega

theorem canonical_congr {a b : UInt64} {bits} (signed) (hb : 0 < bits)
    (h : a.toNat % (1 <<< bits) = b.toNat % (1 <<< bits)) : canonical a bits signed = canonical b bits signed := by
  rw [Nat.one_shiftLeft] at h
  by_cases hle : 64 ≤ bits
  · have hpow : 2 ^ 64 ≤ 2 ^ bits := Nat.pow_le_pow_right (by decide) hle
    rw [Nat.mod_eq_of_lt (Nat.lt_of_lt_of_le a.toNat_lt hpow),
      Nat.mod_eq_of_lt (Nat.lt_of_lt_of_le b.toNat_lt hpow)] at h
    rw [UInt64.toNat_inj.mp h]
  · have hshift : a <<< UInt64.ofNat (64 - bits) = b <<< UInt64.ofNat (64 - bits) := by
      apply UInt64.toBitVec_inj.1
      have hamount : ((UInt64.ofNat (64 - bits)).toBitVec % 64).toNat = 64 - bits := by
        simp
        omega
      simp only [UInt64.toBitVec_shiftLeft, BitVec.shiftLeft_eq', hamount]
      ext i hi
      have hbit := congrArg (fun x => x.testBit (i - (64 - bits))) h
      have hlow : i - (64 - bits) < bits := by omega
      simp only [Nat.testBit_mod_two_pow, hlow, decide_true, Bool.true_and] at hbit
      rw [BitVec.getElem_shiftLeft, BitVec.getElem_shiftLeft, BitVec.getElem_eq_testBit_toNat,
        BitVec.getElem_eq_testBit_toNat]
      exact congrArg _ hbit
    simp only [canonical, hle, if_false, hshift]

end Comptime.Word
