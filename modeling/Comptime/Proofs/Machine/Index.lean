import Comptime.Proofs.Machine.Alike
import Comptime.Proofs.Operator.Exact

/-!
# Checked indices

An instruction that computes the address of an element checks its index. What it yields lies in the object
that is indexed, and any index outside of it traps (`Machine.index_checked`). But the length of a slice is
declared as a signed integer and checked as an unsigned one, so a slice with a negative length has elements
(`Machine.index_of_negative_length`).
-/

namespace Comptime

theorem Memory.load_word (m : Memory) (addr) :
    (∃ w, (∀ signed, m.load addr (.int 64 signed) = .ok (.int w)) ∧ m.load addr .pointer = .ok (.ptr w)) ∨
      ∃ e, (∀ signed, m.load addr (.int 64 signed) = .error e) ∧ m.load addr .pointer = .error e := by
  cases hp : m.place addr 8 with
  | ok p => exact .inl ⟨_, fun _ => load_eq hp, load_eq hp⟩
  | error e =>
    have hload (s : Shape) (hs : s.size = 8) : m.load addr s = .error e := by rw [load, hs, hp]
    exact .inr ⟨e, fun _ => hload _ rfl, hload _ rfl⟩

namespace Machine

/-- Where the elements of the object start that an instruction indexes, and how many there are. A slice is
a length, which is a signed integer, and a pointer. -/
def indexed? (m : Machine) (base : InstrId) (bound : Bound) : Option (UInt64 × Int) :=
  match bound, m.innermost.reg base with
  | .array len, .ptr start => some (start, len.toNat)
  | .slice, .ptr slice =>
    match m.memory.load slice (.int 64 true), m.memory.load (slice + 8) .pointer with
    | .ok (.int len), .ok (.ptr start) => some (start, Word.toInt len true)
    | _, _ => none
  | _, _ => none

variable {env : Setting} {m m' : Machine} {base index id : InstrId} {bound : Bound} {func : Function}
  {span : Span}

private theorem address_of_reg {addr} (h : m.innermost.reg base = .ptr addr) : address base span m = .ok addr m := by
  have hreg : reg base m = .ok (m.innermost.reg base) m := rfl
  rw [address, bind_of_ok hreg, h]
  rfl

private theorem address_error (h : ∀ addr, m.innermost.reg base ≠ .ptr addr) :
    ∃ stop, address base span m = .error stop m := by
  have hreg : reg base m = .ok (m.innermost.reg base) m := rfl
  rw [address, bind_of_ok hreg]
  cases hv : m.innermost.reg base with
  | ptr addr => exact absurd hv (h addr)
  | _ => exact ⟨_, rfl⟩

theorem elements_cases (predefined : env.types.kind .u64 = .int 64 false) (checked : bound ≠ .unchecked) :
    (∃ start len n, m.indexed? base bound = some (start, len) ∧
        elements env base bound span m = .ok (start, some n) m ∧ (0 ≤ len → (n.toNat : Int) = len)) ∨
      m.indexed? base bound = none ∧ ∃ stop, elements env base bound span m = .error stop m := by
  by_cases hptr : ∃ addr, m.innermost.reg base = .ptr addr
  case neg =>
    have hnone : m.indexed? base bound = none := by
      unfold indexed?
      cases bound <;> cases hv : m.innermost.reg base <;> first | rfl | exact absurd ⟨_, hv⟩ hptr
    obtain ⟨stop, hstop⟩ : ∃ stop, address base span m = .error stop m :=
      address_error fun addr h => hptr ⟨addr, h⟩
    refine .inr ⟨hnone, stop, ?_⟩
    cases bound <;> exact bind_of_error hstop
  case pos =>
    obtain ⟨addr, hreg⟩ := hptr
    cases bound with
    | unchecked => exact absurd rfl checked
    | array n =>
      refine .inl ⟨addr, n.toNat, n, ?_, ?_, fun _ => rfl⟩
      · simp only [indexed?, hreg]
      · rw [elements, bind_of_ok (address_of_reg hreg)]
        rfl
    | slice =>
      have hshape : env.types.shape .u64 = .ok (.int 64 false) :=
        TypeTable.shape_of_unfolds fun _ => .scalar (by rw [predefined]; rfl)
      simp only [indexed?, hreg]
      rw [elements, bind_of_ok (address_of_reg hreg)]
      have hload (a : UInt64) : load env a .u64 span m = orTrap span (m.memory.load a (.int 64 false)) m :=
        load_eq_orTrap hshape
      rcases m.memory.load_word addr with ⟨len, hlen, -⟩ | ⟨e, he, -⟩
      · rw [hlen, bind_of_ok (by rw [hload, hlen]; rfl)]
        rcases m.memory.load_word (addr + 8) with ⟨start, hstart, hpointer⟩ | ⟨e, he, hpointer⟩
        · rw [hpointer, bind_of_ok (by rw [hload, hstart]; rfl)]
          refine .inl ⟨start, Word.toInt len true, len, rfl, rfl, fun hnonneg => ?_⟩
          rw [← Word.toInt_emod len true]
          have hlt : Word.toInt len true < 2 ^ 63 := len.toInt64.toInt_lt
          exact Int.emod_eq_of_lt hnonneg (by omega)
        · rw [hpointer, bind_of_error (by rw [hload, he]; rfl)]
          exact .inr ⟨rfl, _, rfl⟩
      · rw [he, bind_of_error (by rw [hload, he]; rfl)]
        exact .inr ⟨rfl, _, rfl⟩

theorem outside_iff {i : Int64} {n : UInt64} {len : Int} (h : (n.toNat : Int) = len) :
    (i < 0 || decide (n ≤ i.toUInt64)) = true ↔ ¬ (0 ≤ i.toInt ∧ i.toInt < len) := by
  have hword : (i.toUInt64.toNat : Int) = i.toInt % (2 ^ 64 : Nat) := Word.toNat_toUInt64 i
  have hlow := i.le_toInt
  have hhigh := i.toInt_lt
  rw [Bool.or_eq_true, decide_eq_true_eq, decide_eq_true_eq, Int64.lt_iff_toInt_lt, UInt64.le_iff_toNat_le]
  show i.toInt < 0 ∨ _ ↔ _
  omega

theorem toNat_element {start : UInt64} {i : Int64} {len : Int} {stride} (hlow : 0 ≤ i.toInt) (hhigh : i.toInt < len)
    (hfits : start.toNat + len.toNat * stride ≤ TypeTable.addressSpace) :
    (start + i.toUInt64 * UInt64.ofNat stride).toNat = start.toNat + i.toInt.toNat * stride := by
  have hword : (i.toUInt64.toNat : Int) = i.toInt % (2 ^ 64 : Nat) := Word.toNat_toUInt64 i
  have hi : i.toUInt64.toNat = i.toInt.toNat := by
    have := i.toInt_lt
    omega
  have hlast : i.toInt.toNat * stride + stride ≤ len.toNat * stride := by
    rw [← Nat.succ_mul]
    exact Nat.mul_le_mul_right stride (by omega)
  have hstart := start.toNat_lt
  have hroom : start.toNat + i.toInt.toNat * stride < 2 ^ 64 := by
    rcases Nat.eq_zero_or_pos stride with rfl | hpos
    · exact hstart
    · simp only [TypeTable.addressSpace] at hfits
      omega
  rw [UInt64.toNat_add, UInt64.toNat_mul, UInt64.toNat_ofNat', hi, Nat.mul_mod_mod, Nat.add_mod_mod,
    Nat.mod_eq_of_lt hroom]

/-- What an instruction needs to compute the address of an element: an object, an index and the distance of
neighbouring elements. -/
structure Indexing (env : Setting) (func : Function) (m : Machine) (id base index : InstrId) (bound : Bound)
    (start : UInt64) (len : Int) (i : Int64) (stride : Nat) : Prop where
  object : m.indexed? base bound = some (start, len)
  index : (m.innermost.reg index).asSigned = some i
  stride : ∃ elem, env.types.pointee (func.instr id).ty = some elem ∧ env.types.elemStride elem = .ok stride

theorem elemAddress_of_indexing {start} {len : Int} {i} {stride} {n : UInt64}
    (h : Indexing env func m id base index bound start len i stride)
    (helements : elements env base bound span m = .ok (start, some n) m) :
    elemAddress env (func.instr id).ty base index bound span m =
      if (i < 0 || decide (n ≤ i.toUInt64)) = true then .error (.trap ⟨.outOfBounds i.toInt n.toNat, span⟩) m
      else behind start (i.toUInt64 * UInt64.ofNat stride) span m := by
  obtain ⟨elem, helem, hstride⟩ := h.stride
  have hindex : indexValue index span m = .ok i m := by
    have hreg : reg index m = .ok (m.innermost.reg index) m := rfl
    rw [indexValue, bind_of_ok hreg, h.index]
    rfl
  unfold elemAddress
  rw [helem]
  dsimp only
  rw [hstride]
  show (indexValue index span >>= _) m = _
  rw [bind_of_ok hindex, bind_of_ok helements]
  dsimp only
  split <;> rfl

theorem exists_indexing (predefined : env.types.kind .u64 = .int 64 false) (checked : bound ≠ .unchecked) {addr}
    (h : elemAddress env (func.instr id).ty base index bound span m = .ok addr m') :
    ∃ start len i stride, Indexing env func m id base index bound start len i stride := by
  unfold elemAddress at h
  cases helem : env.types.pointee (func.instr id).ty with
  | none =>
    rw [helem] at h
    cases h
  | some elem =>
    rw [helem] at h
    dsimp only at h
    cases hstride : env.types.elemStride elem with
    | error e =>
      rw [hstride] at h
      cases h
    | ok stride =>
      rw [hstride] at h
      replace h : (indexValue index span >>= _) m = _ := h
      have hreg : reg index m = .ok (m.innermost.reg index) m := rfl
      rw [indexValue, bind_assoc, bind_of_ok hreg] at h
      cases hindex : (m.innermost.reg index).asSigned with
      | none =>
        rw [hindex] at h
        cases h
      | some i =>
        rw [hindex, pure_bind] at h
        rcases @elements_cases env m base bound span predefined checked with
          ⟨start, len, n, hobject, -, -⟩ | ⟨-, stop, hstop⟩
        · exact ⟨start, len, i, stride, hobject, hindex, elem, helem, hstride⟩
        · rw [bind_of_error hstop] at h
          cases h

/-- The object has elements only if its length, as it is declared, is not negative. An index that yields an
address is below the length, and the address is that of the element; any other index traps and is named by
the trap. -/
theorem index_checked (predefined : env.types.kind .u64 = .int 64 false)
    (kind : (func.instr id).kind = .elemPtr base index bound) (checked : bound ≠ .unchecked)
    (declared : ∀ start len, m.indexed? base bound = some (start, len) → 0 ≤ len) :
    (∀ r m', execute env func id m = .ok r m' →
      ∃ start len i stride addr, Indexing env func m id base index bound start len i stride ∧
        0 ≤ i.toInt ∧ i.toInt < len ∧ setReg id (.ptr addr) m = .ok () m' ∧
        addr = start + i.toUInt64 * UInt64.ofNat stride ∧
        (start.toNat + len.toNat * stride ≤ TypeTable.addressSpace →
          addr.toNat = start.toNat + i.toInt.toNat * stride)) ∧
    ∀ start len i stride, Indexing env func m id base index bound start len i stride →
      ¬ (0 ≤ i.toInt ∧ i.toInt < len) →
      ∃ n, execute env func id m = .error (.trap ⟨.outOfBounds i.toInt n, (func.instr id).span⟩) m := by
  have hexecute : execute env func id m =
      (elemAddress env (func.instr id).ty base index bound (func.instr id).span >>= fun addr =>
        setReg id (.ptr addr) >>= fun _ => pure none) m := by
    rw [execute, kind]
  have helements {start : UInt64} {len : Int} {i : Int64} {stride : Nat}
      (h : Indexing env func m id base index bound start len i stride) : ∃ n : UInt64, (n.toNat : Int) = len ∧
        elements env base bound (func.instr id).span m = .ok (start, some n) m := by
    rcases @elements_cases env m base bound (func.instr id).span predefined checked with
      ⟨start', len', n, hobject, hn, hlen⟩ | ⟨hnone, -⟩
    · obtain ⟨rfl, rfl⟩ := Prod.mk.inj (Option.some.inj (hobject.symm.trans h.object))
      exact ⟨n, hlen (declared _ _ hobject), hn⟩
    · rw [h.object] at hnone
      cases hnone
  constructor
  · intro r m' hrun
    rw [hexecute] at hrun
    cases haddr : elemAddress env (func.instr id).ty base index bound (func.instr id).span m with
    | error stop m1 =>
      rw [bind_of_error haddr] at hrun
      cases hrun
    | ok addr m1 =>
      have hset : setReg id (.ptr addr) m1 = .ok () m' := by
        rw [bind_of_ok haddr] at hrun
        cases hrun
        rfl
      obtain ⟨start, len, i, stride, h⟩ := exists_indexing predefined checked haddr
      obtain ⟨n, hn, hfound⟩ := helements h
      rw [elemAddress_of_indexing h hfound] at haddr
      split at haddr
      · cases haddr
      · next hinside =>
        obtain ⟨hlow, hhigh⟩ := not_not.mp ((outside_iff hn).not.mp hinside)
        unfold behind at haddr
        split at haddr
        · cases haddr
        · cases haddr
          exact ⟨start, len, i, stride, _, h, hlow, hhigh, hset, rfl, toNat_element hlow hhigh⟩
  · intro start len i stride h houtside
    obtain ⟨n, hn, hfound⟩ := helements h
    refine ⟨n.toNat, ?_⟩
    rw [hexecute]
    apply bind_of_error
    rw [elemAddress_of_indexing h hfound, if_pos ((outside_iff hn).mpr houtside)]

/-! ## Slices of bytes -/

namespace Slicing

def setting : Setting := ⟨.default, (TypeTable.initial.ptr .u8).1, ⟨.empty, .empty⟩, .none⟩

/-- A function that takes an element of a slice. -/
def function : Function :=
  { Function.declare "at" .void [] .void .dummy with
    instrs := ⟨#[⟨.elemPtr 0 1 .slice, 14, .dummy, Function.entry⟩]⟩ }

/-- A machine with a slice of a length at the bottom of its stack, and an index. -/
def machine (len : UInt64) (index : UInt64) : Machine :=
  { Machine.fresh with
    memory := ⟨(Word.bytes len 8 ++ Word.bytes 0x1000 8).toArray, #[]⟩
    frames := [{ (default : Frame) with regs := #[.ptr 0x1000, .int index] }] }

end Slicing

open Slicing

/-- A slice of two bytes has no element with the index two. -/
theorem index_checked_slice :
    ∃ n, execute setting function 0 (machine 2 2) = .error (.trap ⟨.outOfBounds 2 n, .dummy⟩) (machine 2 2) := by
  have hobject : (machine 2 2).indexed? 0 .slice = some (0x1000, 2) := by decide +kernel
  have hpredefined : setting.types.kind .u64 = .int 64 false := by decide +kernel
  have hstride : setting.types.elemStride .u8 = .ok 1 := by decide +kernel
  have hindexing : Indexing setting function (machine 2 2) 0 0 1 .slice 0x1000 2 2 1 :=
    ⟨hobject, rfl, .u8, by decide +kernel, hstride⟩
  have hdeclared : ∀ start len, (machine 2 2).indexed? 0 .slice = some (start, len) → 0 ≤ len := by
    intro start len h
    rw [hobject] at h
    cases h
    decide
  have hkind : (function.instr 0).kind = .elemPtr 0 1 .slice := rfl
  have hchecked : Bound.slice ≠ .unchecked := nofun
  exact (index_checked hpredefined hkind hchecked hdeclared).2 _ _ _ _ hindexing (by decide)

/-- A slice whose length is minus one has an element with the index five. -/
theorem index_of_negative_length :
    (machine 0xffffffffffffffff 5).indexed? 0 .slice = some (0x1000, -1) ∧
      ∃ r m', execute setting function 0 (machine 0xffffffffffffffff 5) = .ok r m' ∧
        (m'.innermost.reg 0).asBits = some 0x1005 := by
  have hruns : succeeds (execute setting function 0) (machine 0xffffffffffffffff 5)
      (fun _ m' => (m'.innermost.reg 0).asBits = some 0x1005) = true := by
    decide +kernel
  obtain ⟨r, m', hrun, htest⟩ := of_succeeds hruns
  exact ⟨by decide +kernel, r, m', hrun, of_decide_eq_true htest⟩

end Machine

end Comptime
