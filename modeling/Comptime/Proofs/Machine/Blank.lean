import Comptime.Proofs.Machine.Access
import Comptime.Proofs.Machine.Alike
import Comptime.Proofs.Value.Zero

/-!
# Zero values and zeroed memory

What is read from zeros is the zero value of the type, and writing the zero value over zeros changes
nothing. So a variable that is never initialized, in a frame that has just been opened, is the same as one
that is initialized to zero.

Main result: `zero_blank`.
-/

namespace Comptime

namespace Shape

variable {memory : Array UInt8} {offset room : Nat} {image : Image}

/-! ## Reading zeros

The memory without bytes stands for zeros everywhere. -/

theorem shows_wordImage_zero {count} : Shows #[] offset (wordImage 0 count) := by
  intro i b hi
  rw [wordImage, Word.bytes, List.getElem?_map, List.getElem?_map] at hi
  cases hr : (List.range count)[i]? with
  | none =>
    rw [hr] at hi
    cases hi
  | some k =>
    rw [hr] at hi
    simp at hi
    exact hi

private theorem wordAt_empty : wordAt #[] offset room = 0 := by
  apply UInt64.toNat_inj.mp
  rw [toNat_wordAt rfl shows_wordImage_zero]
  exact Nat.zero_mod _

mutual
theorem read_empty {offset room} : (s : Shape) → s.read #[] offset room = s.zero
  | .void | .bool => rfl
  | .int bits signed => by rw [read, wordAt_empty, Value.ofRaw, Word.canonical_zero, zero]
  | .enum _ | .pointer => by rw [read, wordAt_empty, zero]
  | .real bits => by
    rw [read, wordAt_empty, zero]
    rfl
  | .fn | .type => by
    rw [read, wordAt_empty, zero]
    rfl
  | .slice => by rw [read, wordAt_empty, wordAt_empty, zero]
  | .array elem len => by
    rw [read, zero]
    simp only [read_empty elem, List.map_const', List.length_range]
  | .struct members => by rw [read, zero, readFrom_empty members]

theorem readFrom_empty {offset done} : (members : List Shape) → readFrom #[] offset done members = zeros members
  | [] => rfl
  | s :: members => by rw [readFrom, zeros, read_empty s, readFrom_empty members]
end

theorem agree_replicate {n} : Agree (Array.replicate n 0) #[] offset room := by
  intro j _ _
  rw [Array.getD_eq_getD_getElem?, Array.getElem?_replicate]
  split <;> rfl

theorem read_zeros {s : Shape} (h : Agree memory #[] offset s.size) : s.read memory offset s.size = s.zero :=
  (read_congr s h).trans (read_empty s)

/-! ## Writing zeros -/

theorem Shows.padTo (h : Shows memory offset image) {n} : Shows memory offset (padTo n image) := by
  refine shows_append.mpr ⟨fun i b hi => ?_, Shows.holes⟩
  rw [List.getElem?_take] at hi
  split at hi
  · exact h i b hi
  · cases hi

mutual
private theorem shows_zero {offset} : (s : Shape) → Shows #[] offset (s.image s.zero)
  | .void => .nil
  | .bool => by
    intro i b hi
    cases i with
    | zero =>
      cases hi
      rfl
    | succ i => cases hi
  | .int _ _ | .enum _ | .pointer | .fn => by
    rw [zero, image]
    · exact shows_plainImage.mpr shows_wordImage_zero
    all_goals simp
  | .real bits => by
    rw [zero]
    split
    · next hbits =>
      rw [image, if_pos hbits]
      exact shows_wordImage_zero
    · rw [image]
      exact shows_wordImage_zero.padTo
  | .type => by
    show Shows #[] offset (wordImage (UInt64.ofNat 0) 8)
    exact shows_wordImage_zero
  | .slice => by
    rw [zero, image_slice]
    exact Shows.padTo (shows_append.mpr ⟨shows_wordImage_zero, shows_wordImage_zero⟩)
  | .array elem len => by
    rw [zero, shows_array List.length_replicate]
    intro i v hv
    rw [(List.mem_replicate.mp (List.mem_of_getElem? hv)).2]
    exact shows_zero elem
  | .struct members => by
    rw [zero, shows_struct]
    intro i s v p hs hv _
    rw [getElem?_zeros hs hv]
    exact shows_zeros members hs

theorem shows_zeros {offset i : Nat} {s : Shape} : (members : List Shape) → members[i]? = some s →
    Shows #[] offset (s.image s.zero)
  | [], h => by cases h
  | m :: members, h => by
    cases i with
    | zero =>
      obtain rfl : m = s := Option.some.inj h
      exact shows_zero m
    | succ i => exact shows_zeros members h
end

private theorem overlay_of_shows (h : Shows memory offset image) : overlay memory offset image = memory := by
  induction image generalizing offset with
  | nil => rfl
  | cons b image ih =>
    have hrest : Shows memory (offset + 1) image := by
      intro i c hi
      rw [Nat.add_assoc, Nat.add_comm 1]
      exact h (i + 1) c hi
    cases b with
    | none => exact ih hrest
    | some b =>
      have hsame : memory.setIfInBounds offset b = memory := by
        have hbyte : memory.getD offset 0 = b := h 0 b rfl
        by_cases hlt : offset < memory.size
        · rw [← hbyte, Array.getD, dif_pos hlt, Array.setIfInBounds, dif_pos hlt]
          exact Array.set_getElem_self hlt
        · rw [Array.setIfInBounds, dif_neg hlt]
      rw [overlay, hsame]
      exact ih hrest

theorem overlay_zero {s : Shape} (h : Agree memory #[] offset s.size) : overlay memory offset (s.image s.zero) = memory := by
  apply overlay_of_shows
  intro i b hi
  have hlt := (List.getElem?_eq_some_iff.mp hi).1
  rw [length_image] at hlt
  rw [h (offset + i) (by omega) (by omega)]
  exact shows_zero s i b hi

end Shape

/-! ## Types -/

namespace TypeTable

variable {t : TypeTable} {ty : TypeId} {s : Shape}

/-- The zero values of types, by a recursion that nothing guards. -/
inductive Zeroes (t : TypeTable) : TypeId → Value → Prop
  | scalar {ty : TypeId} {z : Value} (kind : scalarZero? (t.kind ty) = some z) : Zeroes t ty z
  | array {ty elem : TypeId} {len : UInt64} {z : Value} (kind : t.kind ty = .array elem len)
      (element : Zeroes t elem z) : Zeroes t ty (.agg (List.replicate len.toNat z))
  | struct {ty : TypeId} {id : StructId} {members : List Member} {zs : List Value}
      (kind : t.kind ty = .struct id) (known : (t.structDef id).members = some members)
      (each : List.Forall₂ (fun m z => Zeroes t m.ty z) members zs) : Zeroes t ty (.agg zs)

theorem zeroes_of_zeroAt {fuel} {inside} {z} (h : t.zeroAt fuel inside ty = .ok z) : t.Zeroes ty z :=
  zero_induction .scalar .array .struct h

theorem decode_zeros (h : t.shape ty = .ok s) : t.decode ty (Array.replicate s.size 0) = .ok s.zero := by
  rw [decode_eq h, Array.size_replicate]
  exact congrArg Except.ok (Shape.read_zeros Shape.agree_replicate)

theorem encode_zero (h : t.shape ty = .ok s) :
    t.encode ty s.zero (Array.replicate s.size 0) = .ok (Array.replicate s.size 0) := by
  rw [encode, h]
  exact congrArg Except.ok (Shape.overlay_zero Shape.agree_replicate)

end TypeTable

/-! ## Frames -/

namespace Memory

variable {m : Memory} {offset n start stop : Nat}

/-- The stack has zeros in a window. -/
structure Blank (m : Memory) (offset n : Nat) : Prop where
  within : offset + n ≤ m.stack.size
  zeros : Shape.Agree m.stack #[] offset n

theorem blank_openFrame (hstart : start ≤ offset) (hstop : offset + n ≤ stop) :
    (m.openFrame start stop).Blank offset n where
  within := by
    rw [stack_openFrame (by omega)]
    omega
  zeros j hlow hhigh := by
    rw [getD_openFrame, if_pos (by omega)]
    rfl

theorem Blank.put (h : m.Blank offset n) {s : Shape} {v p}
    (hapart : ∀ o, p = .stack o → offset + n ≤ o ∨ o + s.size ≤ offset) : (m.put s v p).Blank offset n where
  within := by
    rw [stack_put]
    exact h.within
  zeros j hlow hhigh := by
    rw [← h.zeros j hlow hhigh]
    cases p with
    | data o => rfl
    | stack o =>
      apply Shape.getD_overlay_of_outside
      rw [Shape.length_image]
      have := hapart o rfl
      omega

theorem toNat_stack (hend : stackBase + offset ≤ dataBase) :
    (UInt64.ofNat (stackBase + offset)).toNat = stackBase + offset :=
  UInt64.toNat_ofNat_of_lt' (Nat.lt_of_le_of_lt hend (by decide))

theorem Blank.place (h : m.Blank offset n) (hend : stackBase + offset + n ≤ dataBase) :
    ∃ p, m.place (UInt64.ofNat (stackBase + offset)) n = .ok p ∧ Shape.Agree (m.segment p) #[] p.offset n := by
  have hroom := h.within
  rw [Memory.place, toNat_stack (by omega), if_neg (by omega)]
  split
  · -- nothing is left of the stack, so the window is empty
    obtain rfl : n = 0 := by omega
    rw [if_pos (by omega)]
    refine ⟨_, rfl, fun j hlow hhigh => ?_⟩
    omega
  · rw [Nat.add_sub_cancel_left, if_pos hroom]
    exact ⟨_, rfl, h.zeros⟩

theorem put_zero {s : Shape} {p} (h : Shape.Agree (m.segment p) #[] p.offset s.size) : m.put s s.zero p = m := by
  cases p with
  | stack o => exact congrArg (Memory.mk · m.data) (Shape.overlay_zero h)
  | data o => exact congrArg (Memory.mk m.stack) (Shape.overlay_zero h)

end Memory

namespace Machine

open Exec (Meets)

variable {env : Setting} {m m' : Machine} {t : TypeTable} {ty : TypeId} {span : Span}

theorem store_blank {s : Shape} {o : Nat} {v} (hs : env.types.shape ty = .ok s)
    (hend : Memory.stackBase + o + s.size ≤ Memory.dataBase) :
    Meets (fun _ => True) (store env (UInt64.ofNat (Memory.stackBase + o)) ty v span) m fun _ m' =>
      m'.frames = m.frames ∧ ∀ offset n, m.memory.Blank offset n →
        (offset + n ≤ o ∨ o + s.size ≤ offset) → m'.memory.Blank offset n := by
  unfold Meets
  cases hp : m.memory.place (UInt64.ofNat (Memory.stackBase + o)) s.size with
  | error kind =>
    rw [store_error hs hp]
    trivial
  | ok p =>
    rw [store_eq hs hp]
    refine ⟨rfl, fun offset n h hapart => h.put fun o' ho' => ?_⟩
    subst ho'
    obtain ⟨-, -, ⟨-, hdata⟩ | ⟨-, hstack⟩⟩ := Memory.place_eq_ok hp
    · cases hdata
    · rw [Memory.toNat_stack (by omega), Nat.add_sub_cancel_left] at hstack
      cases hstack
      exact hapart

/-- A frame that has just been opened has zeros at all of its variables that are no parameters. -/
theorem pushFrame_blank {func : Function} {args result} (laid : func.LaidOut env.types)
    (hstack : Memory.stackBase + env.limits.stackSize ≤ Memory.dataBase)
    (hparams : ∀ i ∈ func.paramSlots, func.slots.Has i) :
    Meets (fun _ => True) (pushFrame env func args result span) m fun _ m' =>
      ∃ frame start, m'.frames = frame :: m.frames ∧ frame.base = Memory.stackBase + start ∧
        start + func.frameSize ≤ env.limits.stackSize ∧
        ∀ i l, func.slots.Has i → i ∉ func.paramSlots → env.types.layout (func.slot i).ty = .ok l →
          m'.memory.Blank (start + (func.slot i).offset) l.size := by
  refine Meets.get (Meets.get ?_)
  split
  · trivial
  · dsimp only
    split
    · next hfits =>
      have hfits := of_decide_eq_true (Bool.and_eq_true_iff.mp hfits).2
      generalize alignUp m.top Memory.frameAlign = start at hfits
      let Opened (m' : Machine) := m'.frames = m.frames ∧
        ∀ i l, func.slots.Has i → i ∉ func.paramSlots → env.types.layout (func.slot i).ty = .ok l →
          m'.memory.Blank (start + (func.slot i).offset) l.size
      refine Meets.bind (P := fun _ => Opened) ?_ fun _ m1 h1 => Meets.bind (P := fun _ => Opened) ?_ ?_
      · refine Meets.modifyGet ⟨rfl, fun i l hi _ hl => ?_⟩
        obtain ⟨l', hl', -, hend⟩ := laid.within hi
        cases hl.symm.trans hl'
        exact Memory.blank_openFrame (by omega) (by omega)
      · refine Meets.forM h1 fun p hp m2 h2 => ?_
        -- the store of an argument goes to the slot of the parameter
        have hparam := (List.of_mem_zip hp).1
        obtain ⟨l, hl, -, hend⟩ := laid.within (hparams _ hparam)
        obtain ⟨s, hs, rfl⟩ := map_eq_ok.mp hl
        have hsize : s.layout.size = s.size := rfl
        rw [Nat.add_assoc]
        refine (store_blank hs (by omega)).imp fun _ m3 h3 => ⟨h3.1.trans h2.1, fun i l hi hn hl' => ?_⟩
        refine h3.2 _ _ (h2.2 i l hi hn hl') ?_
        have hne : i ≠ p.1 := fun h => hn (h ▸ hparam)
        have := laid.apart hi (hparams _ hparam) hne hl' hl
        omega
      · exact fun _ m2 h2 => ⟨_, start, congrArg _ h2.1, rfl, hfits, h2.2⟩
    · trivial

/-- Zero values agree with zeroed memory. -/
theorem zero_blank {l : Layout} (ht : t.Bytewise) (layout : t.layout ty = .ok l) :
    ∃ z, t.zero ty = .ok z ∧ t.Zeroes ty z ∧ z.fits t ty = true ∧
      t.decode ty (Array.replicate l.size 0) = .ok z ∧
      t.encode ty z (Array.replicate l.size 0) = .ok (Array.replicate l.size 0) ∧
      ∀ env func args result span m m', env.types = t → func.LaidOut t →
        Memory.stackBase + env.limits.stackSize ≤ Memory.dataBase →
        (∀ i ∈ func.paramSlots, func.slots.Has i) →
        pushFrame env func args result span m = .ok ⟨⟩ m' →
        ∃ frame, m'.frames = frame :: m.frames ∧
          ∀ i span, func.slots.Has i → i ∉ func.paramSlots → (func.slot i).ty = ty →
            let addr := UInt64.ofNat (frame.base + (func.slot i).offset)
            load env addr ty span m' = .ok z m' ∧ store env addr ty z span m' = .ok ⟨⟩ m' := by
  obtain ⟨s, hs, rfl⟩ := map_eq_ok.mp layout
  have hzero : t.zero ty = .ok s.zero := TypeTable.zeroAt_eq_ok hs
  have hfits := Shape.fits_read ht.real hs #[] 0 s.size
  rw [Shape.read_empty] at hfits
  refine ⟨s.zero, hzero, TypeTable.zeroes_of_zeroAt hzero, hfits, TypeTable.decode_zeros hs,
    TypeTable.encode_zero hs, ?_⟩
  rintro env func args result span m m' rfl laid hstack hparams hpushed
  obtain ⟨frame, start, hframes, hbase, hend, hblank⟩ := (pushFrame_blank laid hstack hparams).of_ok hpushed
  refine ⟨frame, hframes, fun i span hi hn hty => ?_⟩
  subst hty
  obtain ⟨l, hl, -, hwithin⟩ := laid.within hi
  cases layout.symm.trans hl
  have hlast : Memory.stackBase + (start + (func.slot i).offset) + s.size ≤ Memory.dataBase := by
    have hsize : s.layout.size = s.size := rfl
    omega
  obtain ⟨p, hp, hagree⟩ := (hblank i _ hi hn layout).place hlast
  rw [hbase, Nat.add_assoc]
  constructor
  · rw [load_eq hs hp, Shape.read_zeros hagree]
  · rw [store_eq hs hp, Memory.put_zero hagree]
    rfl

/-- A function with a number for a parameter and a packet for a variable. -/
def announce : Function :=
  ({ (default : Function) with
      slots := ⟨#[⟨"n", .s16, 0, .dummy⟩, ⟨"packet", 17, 0, .dummy⟩]⟩
      paramSlots := [0] }.layoutFrame .packets).1

theorem zero_blank_packet :
    ∃ z m' frame, TypeTable.packets.zero 17 = .ok z ∧ z.fits .packets 17 = true ∧
      pushFrame packetSetting announce [.int 7] none .dummy packetMachine = .ok ⟨⟩ m' ∧ m'.frames = [frame] ∧
      let addr := UInt64.ofNat (frame.base + (announce.slot 1).offset)
      load packetSetting addr 17 .dummy m' = .ok z m' ∧ store packetSetting addr 17 z .dummy m' = .ok ⟨⟩ m' := by
  have hlaid : announce.LaidOut .packets := ⟨_, Prod.ext rfl (by decide +kernel)⟩
  have hpushed : succeeds (pushFrame packetSetting announce [.int 7] none .dummy) packetMachine (fun _ _ => true) = true := by
    decide +kernel
  obtain ⟨_, m', hpushed, -⟩ := of_succeeds hpushed
  obtain ⟨z, hz, -, hfits, -, -, hframe⟩ :=
    @zero_blank .packets 17 ⟨16, 8⟩ (by decide) (by rfl)
  obtain ⟨frame, hframes, hlocal⟩ := hframe packetSetting announce _ _ _ _ m' rfl hlaid (by decide) (by decide +kernel) hpushed
  refine ⟨z, m', frame, hz, hfits, hpushed, hframes, hlocal 1 .dummy ?_ ?_ ?_⟩
  all_goals decide +kernel

end Machine

end Comptime
