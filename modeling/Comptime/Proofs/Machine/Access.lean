import Comptime.Proofs.Machine.Parts
import Comptime.Proofs.State

/-!
# Loads and stores

A load or a store succeeds exactly when its whole range lies inside one of the two segments. One that
fails changes nothing. A store changes the bytes of its range only, so it is seen by a load from the same
range, as the value that was stored, and by no load from a range apart from it.
-/

namespace Comptime

namespace Shape

/-! ## What is read depends on the bytes of its range only -/

/-- Two memories have the same bytes in a window. -/
def Agree (memory memory' : Array UInt8) (offset room : Nat) : Prop :=
  ∀ j, offset ≤ j → j < offset + room → memory.getD j 0 = memory'.getD j 0

section

variable {memory memory' : Array UInt8} {offset room : Nat}

theorem Agree.window (h : Agree memory memory' offset room) {o n} (hin : o + n ≤ room) :
    Agree memory memory' (offset + o) n := by
  intro j hlow hhigh
  exact h j (by omega) (by omega)

theorem Agree.wordAt (h : Agree memory memory' offset room) :
    wordAt memory offset room = wordAt memory' offset room := by
  unfold Shape.wordAt
  congr 1
  apply List.map_congr_left
  intro i hi
  have hlt : i < min room 8 := List.mem_range.mp hi
  exact h (offset + i) (by omega) (by omega)

mutual
theorem read_congr {offset} : (s : Shape) → Agree memory memory' offset s.size →
    s.read memory offset s.size = s.read memory' offset s.size
  | .void, _ => rfl
  | .bool, h => by
    have hbyte := h offset (Nat.le_refl offset) (Nat.lt_succ_self offset)
    rw [read, read, hbyte]
  | .int bits signed, h => by rw [read, read, h.wordAt]
  | .enum base, h => by rw [read, read, h.wordAt]
  | .real bits, h => by rw [read, read, h.wordAt]
  | .pointer, h => by rw [read, read, h.wordAt]
  | .fn, h => by rw [read, read, h.wordAt]
  | .type, h => by rw [read, read, h.wordAt]
  | .slice, h => by
    have hlen : Agree memory memory' offset 8 := by
      intro j hlow hhigh
      exact h j hlow (Nat.lt_trans hhigh (by simp [size, layout]))
    have hptr : Agree memory memory' (offset + 8) 8 := h.window (Nat.le_refl 16)
    rw [read, read, hlen.wordAt, hptr.wordAt]
  | .array elem len, h => by
    rw [read, read]
    apply congrArg Value.agg
    apply List.map_congr_left
    intro i hi
    have hpart : (Shape.array elem len).part? i = some (i * elem.stride, elem) :=
      part?_array.mpr ⟨List.mem_range.mp hi, rfl, rfl⟩
    exact read_congr elem (h.window (part_within hpart))
  | .struct members, h => by
    rw [read, read]
    exact congrArg Value.agg (readFrom_congr members 0 h (le_alignUp _ _))

theorem readFrom_congr {offset room} : (members : List Shape) → (done : Nat) →
    Agree memory memory' offset room → (layouts members).foldl Layout.place done ≤ room →
    readFrom memory offset done members = readFrom memory' offset done members
  | [], _, _, _ => rfl
  | s :: members, done, h, hroom => by
    have hrest : (layouts members).foldl Layout.place (s.layout.place done) ≤ room := hroom
    have hend := Layout.le_foldl_place (layouts members) (s.layout.place done)
    have hhead := read_congr s (h.window (Nat.le_trans hend hrest))
    rw [readFrom, readFrom, hhead, readFrom_congr members _ h hrest]
end

theorem getElem?_overlay_of_outside {image} {j} (h : j < offset ∨ offset + image.length ≤ j) :
    (overlay memory offset image)[j]? = memory[j]? := by
  have hbyte := @getD_overlay_of_outside memory offset image j h
  have hsize := @size_overlay memory offset image
  rw [Array.getD_eq_getD_getElem?, Array.getD_eq_getD_getElem?] at hbyte
  by_cases hj : j < memory.size
  · have hj' : j < (overlay memory offset image).size := hsize ▸ hj
    rw [Array.getElem?_eq_getElem hj, Array.getElem?_eq_getElem hj'] at hbyte ⊢
    exact congrArg some hbyte
  · rw [Array.getElem?_eq_none (by omega), Array.getElem?_eq_none (by omega)]

end

end Shape

/-! ## Ranges of addresses -/

namespace Memory

/-- The byte at an address, if it belongs to a segment. -/
def byte? (m : Memory) (a : Nat) : Option UInt8 :=
  if a < stackBase then none
  else if dataBase ≤ a then m.data[a - dataBase]?
  else m.stack[a - stackBase]?

/-- The `n` addresses from `a` on are addresses of the stack, or all of them of the data segment. -/
def Inside (m : Memory) (a n : Nat) : Prop :=
  stackBase ≤ a ∧ a + n ≤ stackBase + m.stack.size ∨ dataBase ≤ a ∧ a + n ≤ dataBase + m.data.size

variable {m : Memory} {addr : UInt64} {n : Nat} {p : Place} {s : Shape} {v : Value}

theorem place_ok_iff (hstack : stackBase + m.stack.size ≤ dataBase) :
    (∃ p, m.place addr n = .ok p) ↔ m.Inside addr.toNat n := by
  constructor
  · rintro ⟨p, hp⟩
    obtain ⟨hnull, hroom, ⟨hdata, rfl⟩ | ⟨hlow, rfl⟩⟩ := place_eq_ok hp
    · rw [Place.offset_data, segment_data] at hroom
      exact .inr ⟨hdata, by omega⟩
    · rw [Place.offset_stack, segment_stack] at hroom
      exact .inl ⟨hnull, by omega⟩
  · have hbases : stackBase < dataBase := by decide
    intro h
    unfold Memory.place
    dsimp only
    by_cases hdata : dataBase ≤ addr.toNat
    · have hroom : addr.toNat - dataBase + n ≤ m.data.size := by
        rcases h with ⟨-, hend⟩ | ⟨-, hend⟩ <;> omega
      rw [if_neg (by omega), if_pos hdata, if_pos hroom]
      exact ⟨_, rfl⟩
    · obtain ⟨hnull, hend⟩ := h.resolve_right fun h => hdata h.1
      rw [if_neg (by omega), if_neg hdata, if_pos (by omega)]
      exact ⟨_, rfl⟩

theorem Inside.segment (hstack : stackBase + m.stack.size ≤ dataBase) {a} (h : m.Inside a n) :
    (a + n ≤ dataBase ∨ dataBase ≤ a) ∧
      (dataBase + m.data.size ≤ TypeTable.addressSpace → a + n ≤ TypeTable.addressSpace) := by
  have hbases : dataBase ≤ TypeTable.addressSpace := by decide
  rcases h with ⟨-, hend⟩ | ⟨hdata, hend⟩
  · exact ⟨.inl (by omega), fun _ => by omega⟩
  · exact ⟨.inr hdata, fun hspace => by omega⟩

theorem byte?_put (hp : m.place addr s.size = .ok p) {a} (h : a < addr.toNat ∨ addr.toNat + s.size ≤ a) :
    (m.put s v p).byte? a = m.byte? a := by
  obtain ⟨hnull, -, hcase⟩ := place_eq_ok hp
  have hlength := Shape.length_image s v
  unfold byte?
  by_cases hlow : a < stackBase
  · rw [if_pos hlow, if_pos hlow]
  · rw [if_neg hlow, if_neg hlow]
    by_cases ha : dataBase ≤ a
    · rw [if_pos ha, if_pos ha]
      rcases hcase with ⟨hdata, rfl⟩ | ⟨-, rfl⟩
      · apply Shape.getElem?_overlay_of_outside
        omega
      · rfl
    · rw [if_neg ha, if_neg ha]
      rcases hcase with ⟨-, rfl⟩ | ⟨hstack, rfl⟩
      · rfl
      · apply Shape.getElem?_overlay_of_outside
        omega

theorem load_put (hp : m.place addr s.size = .ok p) {addr' : UInt64} {s'}
    (h : addr'.toNat + s'.size ≤ addr.toNat ∨ addr.toNat + s.size ≤ addr'.toNat) :
    (m.put s v p).load addr' s' = m.load addr' s' := by
  have hsame : (m.put s v p).place addr' s'.size = m.place addr' s'.size := place_put _ _
  cases hp' : m.place addr' s'.size with
  | error e =>
    unfold load
    rw [hsame, hp']
  | ok q =>
    rw [load_eq (hsame.trans hp'), load_eq hp']
    apply congrArg Except.ok
    apply Shape.read_congr
    intro j hlow hhigh
    obtain ⟨hnull, -, hcase⟩ := place_eq_ok hp
    obtain ⟨hnull', -, hcase'⟩ := place_eq_ok hp'
    have hlength := Shape.length_image s v
    -- in the other segment nothing changes, in the same one the store is elsewhere
    rcases hcase with ⟨hd, rfl⟩ | ⟨hd, rfl⟩ <;> rcases hcase' with ⟨hd', rfl⟩ | ⟨hd', rfl⟩
    · rw [Place.offset_data] at hlow hhigh
      apply Shape.getD_overlay_of_outside
      omega
    · rfl
    · rfl
    · rw [Place.offset_stack] at hlow hhigh
      apply Shape.getD_overlay_of_outside
      omega

end Memory

/-! ## The laws -/

namespace Machine

variable {env : Setting} {m : Machine} {ty : TypeId} {s : Shape} {addr : UInt64} {span : Span}

theorem load_eq_orTrap (hs : env.types.shape ty = .ok s) :
    load env addr ty span m = orTrap span (m.memory.load addr s) m := by
  unfold load
  rw [hs]
  rfl

theorem resultOf_load (hs : env.types.shape ty = .ok s) :
    resultOf (load env addr ty span) m = (m.memory.load addr s).mapError fun kind => .trap ⟨kind, span⟩ := by
  rw [resultOf, load_eq_orTrap hs]
  cases m.memory.load addr s <;> rfl

theorem store_error (hs : env.types.shape ty = .ok s) {kind} (hp : m.memory.place addr s.size = .error kind) (v) :
    store env addr ty v span m = .error (.trap ⟨kind, span⟩) m := by
  unfold store
  rw [hs]
  show (orTrap span (m.memory.place addr s.size) >>= fun place => _) m = _
  rw [hp]
  rfl

/-- Loads and stores of values of a type, at any address. Both succeed exactly if their whole range lies
inside one segment, which then neither reaches into the other one nor wraps around. A store that fails
changes nothing. A store that succeeds changes the bytes of its range only; what it stored is loaded from
there, unless an enum in the type stands over something small that is no integer; and loads from ranges
apart from it give what they gave before. -/
theorem load_store_laws {v : Value} (ht : env.types.Bytewise) (hs : env.types.shape ty = .ok s)
    (hv : v.fits env.types ty = true)
    (hstack : Memory.stackBase + m.memory.stack.size ≤ Memory.dataBase) (addr : UInt64)
    (span : Span) :
    ((∃ w, load env addr ty span m = .ok w m) ↔ m.memory.Inside addr.toNat s.size) ∧
    ((∃ stored, store env addr ty v span m = .ok ⟨⟩ stored) ↔
      m.memory.Inside addr.toNat s.size) ∧
    (m.memory.Inside addr.toNat s.size →
      (addr.toNat + s.size ≤ Memory.dataBase ∨ Memory.dataBase ≤ addr.toNat) ∧
      (Memory.dataBase + m.memory.data.size ≤ TypeTable.addressSpace →
        addr.toNat + s.size ≤ TypeTable.addressSpace)) ∧
    (∀ stop after, store env addr ty v span m = .error stop after → after = m) ∧
    (∀ stored, store env addr ty v span m = .ok ⟨⟩ stored →
      stored = m.withMemory stored.memory ∧
      (∀ a, a < addr.toNat ∨ addr.toNat + s.size ≤ a →
        stored.memory.byte? a = m.memory.byte? a) ∧
      (s.faithful = true → load env addr ty span stored = .ok v stored) ∧
      ∀ addr' ty' s' span', env.types.shape ty' = .ok s' →
        addr'.toNat + s'.size ≤ addr.toNat ∨ addr.toNat + s.size ≤ addr'.toNat →
        resultOf (load env addr' ty' span') stored = resultOf (load env addr' ty' span') m) ∧
    (env.types.EnumsOverIntegers → s.faithful = true) := by
  have hplace := @Memory.place_ok_iff m.memory addr s.size hstack
  refine ⟨?_, ?_, fun h => h.segment hstack, ?_, ?_, fun henum => Shape.faithful_of_shape henum hs⟩
  · rw [← hplace]
    constructor
    · rintro ⟨w, hw⟩
      cases hp : m.memory.place addr s.size with
      | ok p => exact ⟨p, rfl⟩
      | error kind =>
        rw [load_eq_orTrap hs, Memory.load, hp] at hw
        cases hw
    · rintro ⟨p, hp⟩
      exact ⟨_, load_eq hs hp⟩
  · rw [← hplace]
    constructor
    · rintro ⟨stored, hstored⟩
      cases hp : m.memory.place addr s.size with
      | ok p => exact ⟨p, rfl⟩
      | error kind =>
        rw [store_error hs hp] at hstored
        cases hstored
    · rintro ⟨p, hp⟩
      exact ⟨_, store_eq hs hp⟩
  · intro stop after hstore
    cases hp : m.memory.place addr s.size with
    | ok p =>
      rw [store_eq hs hp] at hstore
      cases hstore
    | error kind =>
      rw [store_error hs hp] at hstore
      cases hstore
      rfl
  · intro stored hstore
    cases hp : m.memory.place addr s.size with
    | error kind =>
      rw [store_error hs hp] at hstore
      cases hstore
    | ok p =>
      rw [store_eq hs hp] at hstore
      cases hstore
      refine ⟨rfl, fun a ha => Memory.byte?_put hp ha, fun hfaithful => ?_, ?_⟩
      · have hholds := Shape.holds_of_fits ht hs hfaithful hv
        have hloaded : (m.memory.put s v p).load addr s = .ok v :=
          Memory.load_of_shows ((Memory.place_put addr s.size).trans hp) hholds (Memory.shows_put hp)
        rw [load_eq_orTrap hs]
        show orTrap span ((m.memory.put s v p).load addr s) _ = _
        rw [hloaded]
        rfl
      · intro addr' ty' s' span' hs' hapart
        have hsame := @Memory.load_put m.memory addr p s v hp addr' s' hapart
        rw [resultOf_load hs', resultOf_load hs']
        exact congrArg (Except.mapError _) hsame

/-- A packet that is stored in the middle of the stack is loaded again, the byte before it stays, and
eight bytes further on there is no room for another one. -/
theorem load_store_laws_packet :
    ∃ stored,
      store packetSetting 0x1008 17
        (.agg [.bool true, .int 200, .agg [.int 80, .int 443], .fn 4]) .dummy packetMachine =
          .ok ⟨⟩ stored ∧
      load packetSetting 0x1008 17 .dummy stored =
        .ok (.agg [.bool true, .int 200, .agg [.int 80, .int 443], .fn 4]) stored ∧
      stored.memory.byte? 0x1007 = some 0xaa ∧
      resultOf (load packetSetting 0x1000 .u64 .dummy) stored = .ok (.int 0xaaaaaaaaaaaaaaaa) ∧
      ¬ ∃ w, load packetSetting 0x1018 17 .dummy packetMachine = .ok w packetMachine := by
  have ht : packetSetting.types.Bytewise := by decide
  have hs : packetSetting.types.shape 17 =
      .ok (.struct [.bool, .int 8 false, .array (.int 16 true) 2, .fn]) := rfl
  have hv : (Value.agg [.bool true, .int 200, .agg [.int 80, .int 443], .fn 4]).fits
      packetSetting.types 17 = true := by decide
  have hstack : Memory.stackBase + packetMachine.memory.stack.size ≤ Memory.dataBase := by decide
  have hinside : packetMachine.memory.Inside 0x1008 16 := .inl (by decide)
  have houtside : ¬ packetMachine.memory.Inside 0x1018 16 := by
    unfold Memory.Inside
    decide
  obtain ⟨-, hstores, -, -, hlaws, -⟩ := load_store_laws ht hs hv hstack 0x1008 .dummy
  obtain ⟨hloads, -⟩ := load_store_laws ht hs hv hstack 0x1018 .dummy
  obtain ⟨stored, hstored⟩ := hstores.mpr hinside
  obtain ⟨-, hbytes, hback, hapart⟩ := hlaws stored hstored
  refine ⟨stored, hstored, hback rfl, (hbytes 0x1007 (.inl (by decide))).trans rfl, ?_,
    fun h => houtside (hloads.mp h)⟩
  exact (hapart 0x1000 .u64 (.int 64 false) .dummy rfl (.inl (by decide))).trans rfl

/-- An enum over `bool` takes one byte, but 256 is a value of it: once stored it is loaded as zero. -/
theorem load_of_enum_over_bool :
    flagSetting.types.Bytewise ∧ flagSetting.types.layout 14 = .ok ⟨1, 1⟩ ∧
      (Value.int 256).fits flagSetting.types 14 = true ∧
      Memory.stackBase + packetMachine.memory.stack.size ≤ Memory.dataBase ∧
      ∃ stored, store flagSetting 0x1008 14 (.int 256) .dummy packetMachine = .ok ⟨⟩ stored ∧
        load flagSetting 0x1008 14 .dummy stored = .ok (.int 0) stored := by
  have hs : flagSetting.types.shape 14 = .ok (.enum .bool) := rfl
  have hplace : packetMachine.memory.place 0x1008 (Shape.enum .bool).size = .ok (.stack 8) := by
    simp [Memory.place, packetMachine, Memory.stackBase, Memory.dataBase, Shape.size, Shape.layout]
  let memory := packetMachine.memory.put (.enum .bool) (.int 256) (.stack 8)
  have hthere : memory.place 0x1008 (Shape.enum .bool).size = .ok (.stack 8) :=
    (Memory.place_put _ _).trans hplace
  refine ⟨by decide, rfl, by decide, by decide, packetMachine.withMemory memory,
    store_eq hs hplace, ?_⟩
  rw [@load_eq flagSetting (packetMachine.withMemory memory) _ 14 (.enum .bool) _ .dummy hs hthere]
  rfl

end Machine

end Comptime
