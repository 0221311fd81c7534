import Comptime.Analysis.Access
import Comptime.Proofs.Machine.Logic
import Comptime.Proofs.Value.Parts

/-!
# Parts of values in the memory of the machine

A struct or array that is stored in memory is there part by part: what is loaded from the address of a
member or an element is the item of the value, and what is stored there replaces this item and no other.
Analysis takes an item out of a constant directly. Code that stores the constant, goes to the part by
`memberPtr` or `elemPtr` and loads from there comes to the same value.
-/

namespace Comptime

namespace Memory

def Place.offset : Place → Nat
  | stack offset | data offset => offset

/-- A place some bytes further on in the same segment. -/
def Place.shift (n : Nat) : Place → Place
  | stack offset => stack (offset + n)
  | data offset => data (offset + n)

/-- The addresses of the segment end before this one. -/
def Place.limit : Place → Nat
  | stack _ => dataBase
  | data _ => TypeTable.addressSpace

/-- The segment of a place. -/
def segment (m : Memory) : Place → Array UInt8
  | .stack _ => m.stack
  | .data _ => m.data

@[simp] theorem Place.offset_stack (n : Nat) : (Place.stack n).offset = n := rfl

@[simp] theorem Place.offset_data (n : Nat) : (Place.data n).offset = n := rfl

@[simp] theorem Place.shift_stack (n k : Nat) : (Place.stack n).shift k = .stack (n + k) := rfl

@[simp] theorem Place.shift_data (n k : Nat) : (Place.data n).shift k = .data (n + k) := rfl

@[simp] theorem Place.limit_stack (n : Nat) : (Place.stack n).limit = dataBase := rfl

@[simp] theorem Place.limit_data (n : Nat) : (Place.data n).limit = TypeTable.addressSpace := rfl

@[simp] theorem segment_stack (m : Memory) (n : Nat) : m.segment (.stack n) = m.stack := rfl

@[simp] theorem segment_data (m : Memory) (n : Nat) : m.segment (.data n) = m.data := rfl

/-- There are `len` bytes at an address, and the addresses of all of them belong to the segment in
which the first one lies. -/
structure Fits (m : Memory) (addr : UInt64) (len : Nat) (p : Place) : Prop where
  place : m.place addr len = .ok p
  limit : addr.toNat + len ≤ p.limit

section

variable {m : Memory} {addr : UInt64} {len : Nat} {p : Place} {s : Shape} {v : Value}

-- The differences are variables here: in the definition they are taken from large numbers, and
-- opening it in one piece would make the kernel count down from them.
private theorem place_of_ite {kind kind' kind''} {null data : Prop} [Decidable null] [Decidable data]
    {inStack inData : Nat}
    (h : (if null then .error kind
      else if data then if inData + len ≤ m.data.size then .ok (.data inData) else .error kind'
      else if inStack + len ≤ m.stack.size then .ok (.stack inStack) else .error kind'') =
        (Except.ok p : Except TrapKind Place)) :
    ¬ null ∧ p.offset + len ≤ (m.segment p).size ∧ (data ∧ p = .data inData ∨ ¬ data ∧ p = .stack inStack) := by
  split at h
  · cases h
  · next hnull =>
    refine ⟨hnull, ?_⟩
    split at h
    all_goals
      next hdata =>
      split at h
      · next hroom =>
        cases h
        exact ⟨hroom, by simp [hdata]⟩
      · cases h

theorem place_eq_ok (h : m.place addr len = .ok p) :
    stackBase ≤ addr.toNat ∧ p.offset + len ≤ (m.segment p).size ∧
      ((dataBase ≤ addr.toNat ∧ p = .data (addr.toNat - dataBase)) ∨
        (addr.toNat < dataBase ∧ p = .stack (addr.toNat - stackBase))) := by
  obtain ⟨hnull, hroom, hcase⟩ := place_of_ite h
  refine ⟨Nat.le_of_not_lt hnull, hroom, ?_⟩
  rw [Nat.not_le] at hcase
  exact hcase
theorem room_of_place (h : m.place addr len = .ok p) : p.offset + len ≤ (m.segment p).size :=
  (place_eq_ok h).2.1

theorem Fits.part (h : m.Fits addr len p) {o n : Nat} (hin : o + n ≤ len) (hstart : addr.toNat + o < p.limit) :
    (addr + UInt64.ofNat o).toNat = addr.toNat + o ∧ m.place (addr + UInt64.ofNat o) n = .ok (p.shift o) := by
  obtain ⟨hnull, hroom, hcase⟩ := place_eq_ok h.place
  have hspace : addr.toNat + o < TypeTable.addressSpace := by
    rcases hcase with ⟨-, rfl⟩ | ⟨-, rfl⟩
    · simpa using hstart
    · have hbases : dataBase < TypeTable.addressSpace := by decide
      rw [Place.limit_stack] at hstart
      omega
  have haddr : (addr + UInt64.ofNat o).toNat = addr.toNat + o := by
    unfold TypeTable.addressSpace at hspace
    rw [UInt64.toNat_add, UInt64.toNat_ofNat_of_lt' (by show o < 2 ^ 64; omega)]
    exact Nat.mod_eq_of_lt (by omega)
  refine ⟨haddr, ?_⟩
  unfold Memory.place
  dsimp only
  rw [haddr, if_neg (by omega)]
  rcases hcase with ⟨hdata, rfl⟩ | ⟨hstack, rfl⟩
  · rw [Place.offset_data, segment_data] at hroom
    rw [if_pos (by omega), if_pos (by omega), Nat.sub_add_comm hdata, Place.shift_data]
  · rw [Place.offset_stack, segment_stack] at hroom
    rw [Place.limit_stack] at hstart
    rw [if_neg (by omega), if_pos (by omega), Nat.sub_add_comm hnull, Place.shift_stack]

theorem load_eq (h : m.place addr s.size = .ok p) : m.load addr s = .ok (s.read (m.segment p) p.offset s.size) := by
  unfold load
  rw [h]
  cases p <;> rfl

theorem segment_put : (m.put s v p).segment p = Shape.overlay (m.segment p) p.offset (s.image v) := by
  cases p <;> rfl

theorem segment_shift {n : Nat} : m.segment (p.shift n) = m.segment p := by
  cases p <;> rfl

theorem offset_shift {n : Nat} : (p.shift n).offset = p.offset + n := by
  cases p <;> rfl

theorem stack_put (s v p) : (m.put s v p).stack.size = m.stack.size := by
  cases p with
  | stack offset => exact Shape.size_overlay
  | data offset => rfl

theorem data_put (s v p) : (m.put s v p).data.size = m.data.size := by
  cases p with
  | stack offset => rfl
  | data offset => exact Shape.size_overlay

theorem place_put (addr : UInt64) (len : Nat) : (m.put s v p).place addr len = m.place addr len := by
  unfold place
  rw [stack_put, data_put]

end

end Memory

namespace Machine

def withMemory (m : Machine) (memory : Memory) : Machine := { m with memory }

section

variable {env : Setting} {m : Machine} {addr : UInt64} {ty : TypeId} {s : Shape} {v : Value}
  {p : Memory.Place} {span : Span}

theorem store_eq (hs : env.types.shape ty = .ok s) (hp : m.memory.place addr s.size = .ok p) :
    store env addr ty v span m = .ok ⟨⟩ (m.withMemory (m.memory.put s v p)) := by
  unfold store
  rw [hs]
  show (orTrap span (m.memory.place addr s.size) >>= fun place => _) m = _
  rw [hp]
  rfl

theorem load_eq (hs : env.types.shape ty = .ok s) (hp : m.memory.place addr s.size = .ok p) :
    load env addr ty span m = .ok (s.read (m.memory.segment p) p.offset s.size) m := by
  unfold load
  rw [hs]
  show orTrap span (m.memory.load addr s) m = _
  rw [Memory.load_eq hp]
  rfl

end

end Machine

/-! ## Storing and loading parts -/

theorem Shape.faithful_part {s e : Shape} {i o : Nat} (hs : s.faithful = true)
    (h : s.part? i = some (o, e)) : e.faithful = true := by
  cases s with
  | struct members =>
    rw [Shape.faithful, Shape.faithfulEach_iff] at hs
    exact hs e (List.mem_of_getElem? (Shape.part?_struct.mp h).2)
  | array elem len =>
    obtain ⟨-, -, rfl⟩ := Shape.part?_array.mp h
    rwa [Shape.faithful] at hs
  | _ => cases h

namespace Memory

variable {m : Memory} {addr : UInt64} {p : Place} {s e : Shape} {i o : Nat} {items : List Value}

def Shows (m : Memory) (p : Place) (image : Shape.Image) : Prop :=
  Shape.Shows (m.segment p) p.offset image

theorem load_of_shows {v} (hp : m.place addr s.size = .ok p) (hv : s.Holds v) (h : m.Shows p (s.image v)) :
    m.load addr s = .ok v := by
  rw [load_eq hp, Shape.read_of_shows s v hv h]

theorem shows_put {v} (hp : m.place addr s.size = .ok p) : (m.put s v p).Shows p (s.image v) := by
  unfold Shows
  rw [segment_put]
  apply Shape.shows_overlay
  rw [Shape.length_image]
  exact room_of_place hp

theorem Shows.part (h : m.Shows p (s.image (.agg items))) (hpart : s.part? i = some (o, e)) (hitems : s.Matches items)
    {v} (hv : items[i]? = some v) : m.Shows (p.shift o) (e.image v) := by
  unfold Shows at h ⊢
  rw [Shape.shows_agg hpart hitems] at h
  rw [segment_shift, offset_shift]
  exact h i o e v hpart hv

theorem Shows.put_part (h : m.Shows p (s.image (.agg items))) (hp : m.place addr s.size = .ok p)
    (hpart : s.part? i = some (o, e)) (hitems : s.Matches items) (w) :
    (m.put e w (p.shift o)).Shows p (s.image (.agg (items.set i w))) := by
  have hwrite := Shape.shows_set hpart hitems (room_of_place hp) h w
  unfold Shows
  rw [← @segment_shift _ p o, segment_put, segment_shift, offset_shift]
  exact hwrite

end Memory

/-! ## Code that goes to a part -/

/-- An instruction that goes from the pointer to a whole in register `base` to its part at a position. -/
inductive Frame.Access (t : TypeTable) (f : Frame) (ty : TypeId) (i : Nat) (e : TypeId)
    (base access : InstrId) : Prop
  | member {id : StructId} (kind : t.kind ty = .struct id)
      (code : (f.func.instr access).kind = .memberPtr base i)
      (pointer : t.pointee (f.func.typeOf base) = some ty)
  | element {len w : UInt64} {index : InstrId} (kind : t.kind ty = .array e len)
      (code : (f.func.instr access).kind = .elemPtr base index (.array len))
      (pointer : t.pointee (f.func.typeOf access) = some e)
      (value : f.reg index = .int w) (position : w.toInt64.toInt = i)

/-- Three instructions of a call: `store` puts the value of register `whole` to the address in register
`base`, `access` goes to the part at a position, and `load` loads it. -/
structure Frame.Spill (t : TypeTable) (f : Frame) (ty : TypeId) (i : Nat) (e : TypeId)
    (base whole store access load : InstrId) : Prop where
  stores : (f.func.instr store).kind = .store base whole
  type : f.func.typeOf whole = ty
  accesses : f.Access t ty i e base access
  loads : (f.func.instr load).kind = .load access
  result : f.func.typeOf load = e
  room : access.index < f.regs.size ∧ load.index < f.regs.size

namespace Machine

variable {env : Setting} {m : Machine} {f : Frame} {rest : List Frame} {span : Span} {i : Nat} {addr : UInt64}
  {ty : TypeId} {base : InstrId}

/-- The machine after a register of the innermost call has been set. -/
def withReg (m : Machine) (f : Frame) (rest : List Frame) (i : InstrId) (v : Value) : Machine :=
  { m with frames := { f with regs := f.regs.setIfInBounds i.index v } :: rest }

theorem setReg_eq (hm : m.frames = f :: rest) (i v) : setReg i v m = .ok ⟨⟩ (m.withReg f rest i v) := by
  obtain ⟨memory, top, globals, frames, state⟩ := m
  obtain rfl : frames = f :: rest := hm
  rfl

theorem reg_eq (hm : m.frames = f :: rest) (i) : reg i m = .ok (f.reg i) m := by
  show EStateM.Result.ok ((m.frames.headD default).regs.getD i.index .void) m = _
  rw [hm]
  rfl

theorem address_eq (hm : m.frames = f :: rest) {i} (hi : f.reg i = .ptr addr) : address i span m = .ok addr m := by
  unfold address
  rw [bind_of_ok (reg_eq hm i), hi]
  rfl

theorem behind_eq {start : UInt64} (hstart : start ≠ 0) (offset : UInt64) :
    behind start offset span m = .ok (start + offset) m := by
  unfold behind
  rw [if_neg hstart]
  rfl

theorem toNat_of_toInt {w : UInt64} (h : w.toInt64.toInt = i) : w.toNat = i := by
  have hw : w.toBitVec.toInt = i := h
  rw [BitVec.toInt_eq_toNat_cond] at hw
  have hlt := w.toNat_lt
  split at hw
  · exact Int.ofNat_inj.mp hw
  · have : w.toBitVec.toNat = w.toNat := rfl
    omega

theorem inside_of_toInt {len w : UInt64} (hi : w.toInt64.toInt = i) (hlen : i < len.toNat) :
    (decide (w.toInt64 < 0) || decide (len ≤ w.toInt64.toUInt64)) = false := by
  have hneg : ¬ w.toInt64 < 0 := by
    rw [Int64.lt_iff_toInt_lt, hi]
    simp
  have hle : ¬ len ≤ w.toInt64.toUInt64 := by
    have hw := toNat_of_toInt hi
    rw [UInt64.le_iff_toNat_le, UInt64.toUInt64_toInt64]
    omega
  rw [decide_eq_false hneg, decide_eq_false hle]
  rfl

theorem memberAddress_eq {id offsets} {o : Nat} (hm : m.frames = f :: rest) (hbase : f.reg base = .ptr addr)
    (hnull : addr ≠ 0) (hpointer : env.types.pointee (f.func.typeOf base) = some ty)
    (hk : env.types.kind ty = .struct id) (hl : env.types.memberOffsets id = .ok offsets) (ho : offsets[i]? = some o) :
    memberAddress env f.func base i span m = .ok (addr + UInt64.ofNat o) m := by
  have hoffset : memberOffset env (f.func.typeOf base) i span m = .ok o m := by
    unfold memberOffset
    rw [hpointer, Option.map_some, hk]
    dsimp only
    rw [hl]
    show EStateM.Result.ok (offsets.getD i 0) m = _
    rw [List.getD_eq_getElem?_getD, ho]
    rfl
  unfold memberAddress
  rw [bind_of_ok hoffset, bind_of_ok (address_eq hm hbase)]
  exact behind_eq hnull _

theorem elemAddress_eq {ty e} {len w : UInt64} {i stride : Nat} {base index} {addr : UInt64}
    (hm : m.frames = f :: rest) (hbase : f.reg base = .ptr addr) (hnull : addr ≠ 0)
    (hpointer : env.types.pointee ty = some e) (hl : env.types.elemStride e = .ok stride)
    (hindex : f.reg index = .int w) (hi : w.toInt64.toInt = i) (hlen : i < len.toNat) :
    elemAddress env ty base index (.array len) span m = .ok (addr + UInt64.ofNat (i * stride)) m := by
  have hw := toNat_of_toInt hi
  have hvalue : indexValue index span m = .ok w.toInt64 m := by
    unfold indexValue
    rw [bind_of_ok (reg_eq hm index), hindex]
    rfl
  have helements : elements env base (.array len) span m = .ok (addr, some len) m := by
    unfold elements
    dsimp only
    rw [bind_of_ok (address_eq hm hbase)]
    rfl
  have hinside := inside_of_toInt hi hlen
  have hoffset : w.toInt64.toUInt64 * UInt64.ofNat stride = UInt64.ofNat (i * stride) := by
    rw [UInt64.ofNat_mul, ← hw, UInt64.ofNat_toNat, UInt64.toUInt64_toInt64]
  have hstride : orNoLayout span (env.types.elemStride e) m = .ok stride m := by
    rw [hl]
    rfl
  unfold elemAddress
  rw [hpointer]
  refine (bind_of_ok hstride).trans ((bind_of_ok hvalue).trans ((bind_of_ok helements).trans ?_))
  rw [← hoffset]
  simp only [hinside]
  exact behind_eq hnull _

section

variable {func : Function} {id base index p q : InstrId} {i : Nat} {bound : Bound}

private theorem execute_memberPtr (h : (func.instr id).kind = .memberPtr base i) :
    execute env func id = (do
      setReg id (.ptr (← memberAddress env func base i (func.instr id).span))
      return none) := by
  simp only [execute, h]

theorem execute_elemPtr (h : (func.instr id).kind = .elemPtr base index bound) :
    execute env func id = (do
      setReg id (.ptr (← elemAddress env (func.typeOf id) base index bound (func.instr id).span))
      return none) := by
  simp only [execute, h, Function.typeOf]

theorem execute_store (h : (func.instr id).kind = .store p q) :
    execute env func id = (do
      let addr ← address p (func.instr id).span
      store env addr (func.typeOf q) (← reg q) (func.instr id).span
      return none) := by
  simp only [execute, h]

theorem execute_load (h : (func.instr id).kind = .load p) :
    execute env func id = (do
      let addr ← address p (func.instr id).span
      setReg id (← load env addr (func.typeOf id) (func.instr id).span)
      return none) := by
  simp only [execute, h, Function.typeOf]

end

theorem execute_access {e} {o : Nat} {access} (hm : m.frames = f :: rest)
    (hacc : f.Access env.types ty i e base access) (hpart : env.types.Part ty i o e) (hbase : f.reg base = .ptr addr)
    (hnull : addr ≠ 0) :
    execute env f.func access m = .ok none (m.withReg f rest access (.ptr (addr + UInt64.ofNat o))) := by
  cases hacc with
  | member hk hcode hpointer =>
    cases hpart with
    | member hk' hmembers hi hl ho =>
      rw [hk] at hk'
      cases hk'
      rw [execute_memberPtr hcode, bind_of_ok (memberAddress_eq hm hbase hnull hpointer hk hl ho),
        bind_of_ok (setReg_eq hm _ _)]
      rfl
    | element hk' => exact nomatch hk.symm.trans hk'
  | element hk hcode hpointer hvalue hposition =>
    cases hpart with
    | member hk' => exact nomatch hk.symm.trans hk'
    | element hk' hi hl =>
      rw [hk] at hk'
      cases hk'
      have haddr := @elemAddress_eq _ _ _ _ (f.func.instr access).span _ _ _ _ _ _ _ _ _ hm hbase
        hnull hpointer hl hvalue hposition hi
      rw [execute_elemPtr hcode, bind_of_ok haddr, bind_of_ok (setReg_eq hm _ _)]
      rfl

private theorem reg_set_self {i} (h : i.index < f.regs.size) (v) :
    ({ f with regs := f.regs.setIfInBounds i.index v } : Frame).reg i = v := by
  simp [Frame.reg, Array.getD_eq_getD_getElem?, h]

theorem run_spill {e} {o : Nat} {whole storeId access loadId memory item} (hm : m.frames = f :: rest)
    (hspill : f.Spill env.types ty i e base whole storeId access loadId) (hpart : env.types.Part ty i o e)
    (hbase : f.reg base = .ptr addr) (hnull : addr ≠ 0)
    (hstore : ∀ span, store env addr ty (f.reg whole) span m = .ok ⟨⟩ (m.withMemory memory))
    (hload : ∀ (m' : Machine) span, m'.memory = memory → load env (addr + UInt64.ofNat o) e span m' = .ok item m') :
    ∃ m' f', (do
        let _ ← execute env f.func storeId
        let _ ← execute env f.func access
        execute env f.func loadId) m = .ok none m' ∧
      m'.frames = f' :: rest ∧ f'.reg loadId = item := by
  have hfirst : execute env f.func storeId m = .ok none (m.withMemory memory) := by
    rw [execute_store hspill.stores, bind_of_ok (address_eq hm hbase), bind_of_ok (reg_eq hm whole),
      hspill.type, bind_of_ok (hstore _)]
    rfl
  have hstored : (m.withMemory memory).frames = f :: rest := hm
  have hsecond := execute_access hstored hspill.accesses hpart hbase hnull
  -- the call after the access, and after the load
  let there : Frame :=
    { f with regs := f.regs.setIfInBounds access.index (.ptr (addr + UInt64.ofNat o)) }
  let done : Frame := { there with regs := there.regs.setIfInBounds loadId.index item }
  have hreg : there.reg access = .ptr (addr + UInt64.ofNat o) := reg_set_self hspill.room.1 _
  have hthird : execute env f.func loadId
      ((m.withMemory memory).withReg f rest access (.ptr (addr + UInt64.ofNat o))) =
      .ok none { m.withMemory memory with frames := done :: rest } := by
    rw [execute_load hspill.loads, bind_of_ok (address_eq rfl hreg), hspill.result,
      bind_of_ok (hload _ _ rfl), bind_of_ok (setReg_eq rfl loadId item)]
    rfl
  refine ⟨{ m.withMemory memory with frames := done :: rest }, done, ?_, rfl, reg_set_self ?_ item⟩
  · rw [bind_of_ok hfirst, bind_of_ok hsecond, hthird]
  · rw [Array.size_setIfInBounds]
    exact hspill.room.2

end Machine

/-! ## Taking an item out of a constant -/

namespace Lower

private theorem liftM_bind_of_ok {α β : Type} {x : Analysis α} {k : α → Lower β} {c t t' d} {a : α}
    (h : x c t = .ok a t') :
    (liftM x >>= k : Lower β) d c t = k a d c t' := by
  show EStateM.bind (EStateM.bind (x c) fun a => EStateM.pure (a, d)) (fun p => k p.1 p.2 c) t = _
  simp only [EStateM.bind, h]
  rfl

theorem foldIndex_eq {items ty e span place index} {len w : UInt64} {i : Nat} {item c t d}
    (hfold : c.config.foldConstants = true) (hindex : index.kind = .const (.int w)) (hi : w.toInt64.toInt = i)
    (hlen : i < len.toNat) (hitem : items[i]? = some item) :
    foldIndex (.constant (.agg items) ty span) index e (.array len) place d c t =
      .ok (some (.constant item e place), d) t := by
  have hvalue : index.const?.bind Value.asSigned = some w.toInt64 := by
    simp only [Operand.const?, hindex]
    rfl
  have hfolding : (Analysis.folding : Analysis Bool) c t = .ok true t := by
    show EStateM.Result.ok c.config.foldConstants t = _
    rw [hfold]
  have hget : items.getD w.toInt64.toInt.toNat .void = item := by
    rw [hi, Int.toNat_natCast, List.getD_eq_getElem?_getD, hitem]
    rfl
  unfold foldIndex
  simp only [Operand.constant, hvalue]
  rw [liftM_bind_of_ok hfolding]
  dsimp only
  rw [Machine.inside_of_toInt hi hlen, hget]
  rfl

end Lower

namespace Machine

variable {env : Setting} {m : Machine}

/-- A struct or array in memory is there part by part. A value that is stored is loaded part by part;
storing a value over a part replaces this item of the whole; and code that stores a constant, goes to a
part and loads it gets the item that analysis takes out of the constant. A part without bytes has to start
before the end of the segment. -/
theorem part_access {ty e : TypeId} {s : Shape} {items : List Value} {addr : UInt64}
    {p : Memory.Place} {i o : Nat} (ht : env.types.Bytewise) (hs : env.types.shape ty = .ok s)
    (hfaithful : s.faithful = true) (hv : (Value.agg items).fits env.types ty = true)
    (hroom : m.memory.Fits addr s.size p) (hpart : env.types.Part ty i o e)
    (hstart : addr.toNat + o < p.limit) (span : Span) :
    ∃ stored item, store env addr ty (.agg items) span m = .ok ⟨⟩ stored ∧
      items[i]? = some item ∧
      load env (addr + UInt64.ofNat o) e span stored = .ok item stored ∧
      (∀ w, w.fits env.types e = true →
        ∃ changed, store env (addr + UInt64.ofNat o) e w span stored = .ok ⟨⟩ changed ∧
          load env addr ty span changed = .ok (.agg (items.set i w)) changed) ∧
      (∀ (c : Context) (t : Tables) (d : Draft) (place : Span),
        Lower.project (.constant (.agg items) ty span) i e place d c t =
          .ok (.constant item e place, d) t) ∧
      (∀ (c : Context) (t : Tables) (d : Draft) (place : Span) (len w : UInt64) (index : Operand),
        env.types.kind ty = .array e len → c.config.foldConstants = true →
        index.kind = .const (.int w) → w.toInt64.toInt = i →
        Lower.foldIndex (.constant (.agg items) ty span) index e (.array len) place d c t =
          .ok (some (.constant item e place), d) t) ∧
      (∀ (f : Frame) rest base whole storeId access loadId, m.frames = f :: rest →
        f.Spill env.types ty i e base whole storeId access loadId →
        f.reg base = .ptr addr → f.reg whole = .agg items →
        ∃ m' f', (do
            let _ ← execute env f.func storeId
            let _ ← execute env f.func access
            execute env f.func loadId) m = .ok none m' ∧
          m'.frames = f' :: rest ∧ f'.reg loadId = item) := by
  obtain ⟨es, hes, hposition⟩ := hpart.shape hs
  have hholds := Shape.holds_of_fits ht hs hfaithful hv
  have hitems := ((Shape.holds_agg hposition).mp hholds).1
  obtain ⟨item, hitem⟩ := hitems.item hposition
  have hitemHolds := ((Shape.holds_agg hposition).mp hholds).2 i o es item hposition hitem
  -- the memory after the store, and what it shows
  let memory := m.memory.put s (.agg items) p
  have hshown : memory.Shows p (s.image (.agg items)) := Memory.shows_put hroom.place
  have hplaces : ∀ a n, memory.place a n = m.memory.place a n := Memory.place_put
  obtain ⟨-, hthere⟩ := hroom.part (Shape.part_within hposition) hstart
  have hload : ∀ (m' : Machine) span, m'.memory = memory →
      load env (addr + UInt64.ofNat o) e span m' = .ok item m' := by
    intro m' span hm'
    have hplace : m'.memory.place (addr + UInt64.ofNat o) es.size = .ok (p.shift o) := by
      rw [hm', hplaces, hthere]
    rw [load_eq hes hplace, hm']
    exact congrArg (EStateM.Result.ok · m') (Shape.read_of_shows es item hitemHolds
      (hshown.part hposition hitems hitem))
  refine ⟨m.withMemory memory, item, store_eq hs hroom.place, hitem, hload _ span rfl, ?_, ?_, ?_, ?_⟩
  · intro w hw
    have hwHolds := Shape.holds_of_fits ht hes (Shape.faithful_part hfaithful hposition) hw
    have hplace : memory.place (addr + UInt64.ofNat o) es.size = .ok (p.shift o) :=
      (hplaces _ _).trans hthere
    have hwhole : (memory.put es w (p.shift o)).place addr s.size = .ok p :=
      (Memory.place_put _ _).trans ((hplaces _ _).trans hroom.place)
    refine ⟨m.withMemory (memory.put es w (p.shift o)), store_eq hes hplace, ?_⟩
    rw [load_eq hs hwhole]
    exact congrArg (EStateM.Result.ok · _) (Shape.read_of_shows s _
      (Shape.holds_set hposition hholds hwHolds)
      (hshown.put_part ((hplaces _ _).trans hroom.place) hposition hitems w))
  · intro c t d place
    simp only [Lower.project, Operand.constant, hitem]
    rfl
  · intro c t d place len w index hk hfold hindex hi
    have hlen : i < len.toNat := by
      cases hpart with
      | member hk' => exact nomatch hk.symm.trans hk'
      | element hk' hlt =>
        rw [hk] at hk'
        cases hk'
        exact hlt
    exact Lower.foldIndex_eq hfold hindex hi hlen hitem
  · intro f rest base whole storeId access loadId hm hspill hbase hwhole
    have hnull : addr ≠ 0 := by
      rintro rfl
      have hbelow := (Memory.place_eq_ok hroom.place).1
      exact absurd hbelow (by decide)
    apply run_spill hm hspill hpart hbase hnull _ hload
    intro span
    rw [hwhole]
    exact store_eq hs hroom.place

def packetSetting : Setting := ⟨.default, .packets, .empty, .none⟩

def packetMachine : Machine := ⟨⟨Array.replicate 32 0xaa, #[]⟩, 0, [], [], .ready⟩

/-- The ports of a packet stand two bytes behind its start, and may be replaced there. -/
theorem part_access_ports :
    ∃ stored item,
      store packetSetting 0x1008 17
        (.agg [.bool true, .int 200, .agg [.int 80, .int 443], .fn 4]) .dummy packetMachine =
          .ok ⟨⟩ stored ∧
      [Value.bool true, .int 200, .agg [.int 80, .int 443], .fn 4][2]? = some item ∧
      load packetSetting (0x1008 + UInt64.ofNat 2) 15 .dummy stored = .ok item stored ∧
      ∃ changed,
        store packetSetting (0x1008 + UInt64.ofNat 2) 15 (.agg [.int 1, .int 2]) .dummy stored =
          .ok ⟨⟩ changed ∧
        load packetSetting 0x1008 17 .dummy changed =
          .ok (.agg [.bool true, .int 200, .agg [.int 1, .int 2], .fn 4]) changed := by
  have ht : packetSetting.types.Bytewise := by decide
  have hs : packetSetting.types.shape 17 =
      .ok (.struct [.bool, .int 8 false, .array (.int 16 true) 2, .fn]) := rfl
  have hroom : packetMachine.memory.Fits 0x1008 16 (.stack 8) := by
    constructor
    · simp [Memory.place, packetMachine, Memory.stackBase, Memory.dataBase]
    · decide
  have hpart : packetSetting.types.Part 17 2 2 15 :=
    @TypeTable.Part.member _ _ _ 0 _ ⟨"ports", 15⟩ _ 2 rfl rfl rfl rfl rfl
  have hv : (Value.agg [.bool true, .int 200, .agg [.int 80, .int 443], .fn 4]).fits
      packetSetting.types 17 = true := by decide
  obtain ⟨stored, item, hstore, hitem, hload, hset, -⟩ :=
    part_access ht hs rfl hv hroom hpart (by decide) .dummy
  exact ⟨stored, item, hstore, hitem, hload, hset _ (by decide)⟩

/-- Code about a struct with an enum over `bool` in it. -/
def flagSetting : Setting :=
  { limits := .default
    types := (TypeTable.flags.declareStruct "Flags" .dummy).1.completeStruct 0 [⟨"first", 14⟩]
    code := .empty
    host := .none }

/-- A value of such a struct is not what is loaded from its member: the member has one byte. -/
theorem part_of_enum_over_bool :
    flagSetting.types.Bytewise ∧ flagSetting.types.shape 15 = .ok (.struct [.enum .bool]) ∧
      (Value.agg [.int 256]).fits flagSetting.types 15 = true ∧
      packetMachine.memory.Fits 0x1008 1 (.stack 8) ∧
      flagSetting.types.Part 15 0 0 14 ∧
      ∃ stored, store flagSetting 0x1008 15 (.agg [.int 256]) .dummy packetMachine =
          .ok ⟨⟩ stored ∧
        load flagSetting (0x1008 + UInt64.ofNat 0) 14 .dummy stored = .ok (.int 0) stored := by
  have hs : flagSetting.types.shape 15 = .ok (.struct [.enum .bool]) := rfl
  have hroom : packetMachine.memory.Fits 0x1008 1 (.stack 8) := by
    constructor
    · simp [Memory.place, packetMachine, Memory.stackBase, Memory.dataBase]
    · decide
  let memory := packetMachine.memory.put (.struct [.enum .bool]) (.agg [.int 256]) (.stack 8)
  have hthere : memory.place (0x1008 + UInt64.ofNat 0) (Shape.enum .bool).size = .ok (.stack 8) :=
    (Memory.place_put _ _).trans hroom.place
  refine ⟨by decide, hs, by decide, hroom,
    @TypeTable.Part.member _ _ _ 0 _ ⟨"first", 14⟩ _ 0 rfl rfl rfl rfl rfl,
    packetMachine.withMemory memory, store_eq hs hroom.place, ?_⟩
  rw [@load_eq flagSetting (packetMachine.withMemory memory) _ 14 (.enum .bool) _ .dummy rfl
    hthere]
  rfl

end Machine

end Comptime
