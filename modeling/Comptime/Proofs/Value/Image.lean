import Comptime.Proofs.Type.Layout
import Comptime.Proofs.Word
import Comptime.Value.Memory

/-!
# Values that are written and read back

`Shape.Shows` says that a memory has the bytes of an image at some place, whatever it has in the holes.
Putting an image into memory makes the memory show it there and changes nothing elsewhere. A memory
shows the image of a struct or an array exactly when it shows the images of its items, each at its own
place. So all about writing and reading follows from what is read where an image is shown:
`Shape.read_of_shows`, for the values that a shape holds.
-/

namespace Comptime.Shape

/-! ## Images in memory -/

/-- The memory has the bytes of the image at `offset`. -/
def Shows (memory : Array UInt8) (offset : Nat) (image : Image) : Prop :=
  ∀ i b, image[i]? = some (some b) → memory.getD (offset + i) 0 = b

section

variable {memory : Array UInt8} {offset : Nat} {image : Image}

theorem Shows.nil : Shows memory offset [] := by
  intro i b hi
  cases hi

theorem Shows.holes {n} : Shows memory offset (holes n) := by
  intro i b hi
  have hmem := List.mem_of_getElem? hi
  exact nomatch List.eq_of_mem_replicate hmem

theorem shows_append {front back} :
    Shows memory offset (front ++ back) ↔ Shows memory offset front ∧ Shows memory (offset + front.length) back := by
  constructor
  · intro h
    constructor
    · intro i b hi
      apply h i b
      rw [List.getElem?_append_left (List.getElem?_eq_some_iff.mp hi).1]
      exact hi
    · intro i b hi
      rw [Nat.add_assoc]
      apply h (front.length + i) b
      rw [List.getElem?_append_right (Nat.le_add_right _ _), Nat.add_sub_cancel_left]
      exact hi
  · rintro ⟨hfront, hback⟩ i b hi
    rcases Nat.lt_or_ge i front.length with hlt | hge
    · rw [List.getElem?_append_left hlt] at hi
      exact hfront i b hi
    · rw [List.getElem?_append_right hge] at hi
      have hbyte := hback (i - front.length) b hi
      rwa [Nat.add_assoc, Nat.add_sub_cancel' hge] at hbyte

theorem length_padTo (n) (image) : (padTo n image).length = n := by
  simp only [padTo, Shape.holes, List.length_append, List.length_take, List.length_replicate]
  omega

theorem shows_padTo {n} (hn : image.length ≤ n) :
    Shows memory offset (padTo n image) ↔ Shows memory offset image := by
  rw [padTo, List.take_of_length_le hn, shows_append]
  exact and_iff_left Shows.holes

theorem size_overlay : (overlay memory offset image).size = memory.size := by
  induction image generalizing memory offset with
  | nil => rfl
  | cons b image ih =>
    cases b with
    | none => exact ih
    | some b =>
      rw [overlay, ih]
      exact Array.size_setIfInBounds ..

theorem getD_overlay_of_outside {j : Nat} (h : j < offset ∨ offset + image.length ≤ j) :
    (overlay memory offset image).getD j 0 = memory.getD j 0 := by
  induction image generalizing memory offset with
  | nil => rfl
  | cons b image ih =>
    rw [List.length_cons] at h
    cases b with
    | none => exact ih (by omega)
    | some b =>
      rw [overlay, ih (by omega)]
      have hne : offset ≠ j := by omega
      simp [Array.getD_eq_getD_getElem?, hne]

theorem shows_overlay (h : offset + image.length ≤ memory.size) :
    Shows (overlay memory offset image) offset image := by
  induction image generalizing memory offset with
  | nil => exact Shows.nil
  | cons b image ih =>
    rw [List.length_cons] at h
    intro i c hi
    cases i with
    | zero =>
      cases hi
      have hlt : offset < memory.size := by omega
      rw [overlay, getD_overlay_of_outside (by omega)]
      simp [Array.getD_eq_getD_getElem?, hlt]
    | succ i =>
      rw [show offset + (i + 1) = offset + 1 + i by omega]
      cases b with
      | none => exact ih (by omega) i c hi
      | some b => exact ih (by rw [Array.size_setIfInBounds]; omega) i c hi

theorem Shows.overlay_apart (h : Shows memory offset image) {other} {place}
    (hapart : offset + image.length ≤ place ∨ place + other.length ≤ offset) :
    Shows (overlay memory place other) offset image := by
  intro i b hi
  have hlt := (List.getElem?_eq_some_iff.mp hi).1
  rw [getD_overlay_of_outside (by omega)]
  exact h i b hi

end

/-! ## The images of values -/

theorem length_wordImage (w count) : (wordImage w count).length = count := by
  simp [wordImage, Word.bytes]

theorem image_slice (len addr) :
    Shape.slice.image (.agg [.int len, .ptr addr]) = padTo 16 (wordImage len 8 ++ wordImage addr 8) := rfl

theorem length_image (s : Shape) (v) : (s.image v).length = s.size := by
  cases s with
  | void => rfl
  | array elem len => cases v <;> exact length_padTo _ _
  | struct members => cases v <;> exact length_padTo _ _
  | slice => cases v <;> exact length_padTo _ _
  | real bits =>
    cases v with
    | f32 w =>
      rw [image]
      split
      · next h => rw [length_wordImage, h]; rfl
      · exact length_padTo _ _
    | _ => exact length_padTo _ _
  | bool =>
    cases v with
    | bool b => rfl
    | _ => exact length_padTo _ _
  | fn =>
    cases v with
    | fn id => exact length_wordImage _ _
    | _ => exact length_padTo _ _
  | type =>
    cases v with
    | type id => exact length_wordImage _ _
    | _ => exact length_padTo _ _
  | _ => exact length_padTo _ _

section

variable {memory : Array UInt8} {offset : Nat} {items : List Value}

theorem length_imageFrom (members items done) :
    done + (imageFrom done members items).length ≤ (layouts members).foldl Layout.place done := by
  induction members generalizing items done with
  | nil => exact Nat.le_refl done
  | cons s members ih =>
    cases items with
    | nil => exact Layout.le_foldl_place (layouts (s :: members)) done
    | cons v items =>
      have hrest := ih items (s.layout.place done)
      have hplace : alignUp done s.layout.align + s.size = s.layout.place done := rfl
      have halign := le_alignUp done s.layout.align
      simp only [imageFrom, Shape.holes, List.length_append, List.length_replicate, length_image]
      show _ ≤ (layouts members).foldl Layout.place (s.layout.place done)
      omega

theorem shows_imageFrom {members done} :
    Shows memory (offset + done) (imageFrom done members items) ↔
      ∀ (i : Nat) s v p, members[i]? = some s → items[i]? = some v →
        (offsetsFrom done members)[i]? = some p → Shows memory (offset + p) (s.image v) := by
  induction members generalizing items done with
  | nil => exact iff_of_true Shows.nil nofun
  | cons m members ih =>
    cases items with
    | nil => exact iff_of_true Shows.nil nofun
    | cons item items =>
      have halign := le_alignUp done m.layout.align
      have hfirst : offset + done + (Shape.holes (alignUp done m.layout.align - done)).length =
          offset + alignUp done m.layout.align := by
        rw [Shape.holes, List.length_replicate]
        omega
      have hrest : offset + done + (Shape.holes (alignUp done m.layout.align - done) ++ m.image item).length =
            offset + m.layout.place done := by
        rw [List.length_append, ← Nat.add_assoc, hfirst, length_image, Nat.add_assoc]
        rfl
      rw [imageFrom, shows_append, shows_append, hfirst, hrest, ih]
      constructor
      · rintro ⟨⟨-, hhead⟩, htail⟩ i s v p hs hv hp
        cases i with
        | zero =>
          cases hs
          cases hv
          cases hp
          exact hhead
        | succ i => exact htail i s v p hs hv hp
      · intro h
        refine ⟨⟨Shows.holes, h 0 m item _ rfl rfl rfl⟩, ?_⟩
        intro i s v p hs hv hp
        exact h (i + 1) s v p hs hv hp

theorem shows_struct {members} :
    Shows memory offset ((Shape.struct members).image (.agg items)) ↔
      ∀ (i : Nat) s v p, members[i]? = some s → items[i]? = some v →
        (offsets members)[i]? = some p → Shows memory (offset + p) (s.image v) := by
  have hlen : (imageFrom 0 members items).length ≤ (Shape.struct members).size := by
    have hmembers := length_imageFrom members items 0
    rw [Nat.zero_add] at hmembers
    exact Nat.le_trans hmembers (le_alignUp _ _)
  rw [image, shows_padTo hlen, offsets, ← shows_imageFrom, Nat.add_zero]

private theorem shows_flatMap {f : Value → Image} {n} (hn : ∀ v, (f v).length = n) :
    Shows memory offset (items.flatMap f) ↔
      ∀ (i : Nat) v, items[i]? = some v → Shows memory (offset + i * n) (f v) := by
  induction items generalizing offset with
  | nil => exact iff_of_true Shows.nil nofun
  | cons item items ih =>
    rw [List.flatMap_cons, shows_append, hn, ih]
    constructor
    · rintro ⟨hhead, htail⟩ i v hv
      cases i with
      | zero =>
        cases hv
        rwa [Nat.zero_mul]
      | succ i =>
        rw [Nat.succ_mul, Nat.add_comm (i * n), ← Nat.add_assoc]
        exact htail i v hv
    · intro h
      constructor
      · have hhead := h 0 item rfl
        rwa [Nat.zero_mul] at hhead
      · intro i v hv
        have htail := h (i + 1) v hv
        rwa [Nat.succ_mul, Nat.add_comm (i * n), ← Nat.add_assoc] at htail

theorem shows_array {elem : Shape} {len} (hlen : items.length = len) :
    Shows memory offset ((Shape.array elem len).image (.agg items)) ↔ ∀ (i : Nat) v, items[i]? = some v →
        Shows memory (offset + i * elem.stride) (elem.image v) := by
  have hsize : ∀ v, (padTo elem.stride (elem.image v)).length = elem.stride :=
    fun v => length_padTo _ _
  have htotal : (items.flatMap fun v => padTo elem.stride (elem.image v)).length = elem.size * len := by
    rw [List.length_flatMap, List.map_congr_left fun v _ => hsize v, List.map_const',
      List.sum_replicate_nat, hlen, stride_eq_size, Nat.mul_comm]
  rw [image, shows_padTo (Nat.le_of_eq htotal), shows_flatMap hsize]
  refine forall_congr' fun i => forall_congr' fun v => imp_congr_right fun _ => ?_
  rw [shows_padTo (Nat.le_of_eq _)]
  rw [length_image, stride_eq_size]

end

/-! ## Reading what is shown -/

mutual
/-- The values that survive in the bytes of a shape. -/
def Holds : Shape → Value → Prop
  | .void, v => v = .void
  | .bool, v => ∃ b, v = .bool b
  | .int bits signed, v =>
    bits ∈ [8, 16, 32, 64] ∧ ∃ w, v = .int w ∧ Word.canonical w bits signed = w
  | .real bits, v => bits = 32 ∧ (∃ w, v = .f32 w) ∨ bits = 64 ∧ ∃ w, v = .f64 w
  | .pointer, v => ∃ a, v = .ptr a
  | .fn, v => v = .ptr 0 ∨ ∃ f, v = .fn f ∧ f.index < referenceLimit
  | .type, v => ∃ ty, v = .type ty ∧ ty.index < referenceLimit
  | .slice, v => ∃ len addr, v = .agg [.int len, .ptr addr]
  -- All there is to such an enum is its size: a word is cut to it.
  | .enum base, v => ∃ w, v = .int w ∧ w.toNat < 1 <<< (8 * base.size)
  | .array elem len, v => ∃ items, v = .agg items ∧ items.length = len ∧ ∀ i ∈ items, elem.Holds i
  | .struct members, v => ∃ items, v = .agg items ∧ HoldsEach members items

/-- The items survive in the bytes of the shapes, one by one. -/
def HoldsEach : List Shape → List Value → Prop
  | [], items => items = []
  | s :: members, items => ∃ v rest, items = v :: rest ∧ s.Holds v ∧ HoldsEach members rest
end

section

variable {memory : Array UInt8} {offset : Nat} {w : UInt64}

theorem toNat_wordAt {room count} (hcount : min room 8 = count) (h : Shows memory offset (wordImage w count)) :
    (wordAt memory offset room).toNat = w.toNat % (1 <<< (8 * count)) := by
  have hbytes : (List.range (min room 8)).map (fun i => memory.getD (offset + i) 0) = Word.bytes w count := by
    rw [hcount]
    apply List.ext_getElem?
    intro i
    rcases Nat.lt_or_ge i count with hi | hi
    · have hbyte : (wordImage w count)[i]? = some (some (UInt8.ofNat (w.toNat >>> (8 * i)))) := by
        simp [wordImage, Word.bytes, hi]
      rw [List.getElem?_map, List.getElem?_range hi, Option.map_some, h i _ hbyte]
      simp [Word.bytes, hi]
    · simp [Word.bytes, hi]
  rw [wordAt, hbytes]
  exact Word.toNat_ofBytes_bytes w (by omega)

theorem wordAt_of_lt {room} (hw : w.toNat < 1 <<< (8 * room)) (h : Shows memory offset (wordImage w (min room 8))) :
    wordAt memory offset room = w := by
  have hlt : w.toNat < 1 <<< (8 * min room 8) := by
    rcases Nat.le_total room 8 with hle | hle
    · rwa [Nat.min_eq_left hle]
    · rw [Nat.min_eq_right hle]
      exact w.toNat_lt
  apply UInt64.toNat_inj.mp
  rw [toNat_wordAt rfl h, Nat.mod_eq_of_lt hlt]

theorem wordAt_eq (h : Shows memory offset (wordImage w 8)) : wordAt memory offset 8 = w := wordAt_of_lt w.toNat_lt h

theorem shows_plainImage {size} {v} :
    Shows memory offset (plainImage size v) ↔ Shows memory offset (wordImage (v.asBits.getD 0) (min size 8)) := by
  rw [plainImage, shows_padTo]
  rw [length_wordImage]
  exact Nat.min_le_left size 8

theorem canonical_wordAt {bits signed} (hb : bits ∈ [8, 16, 32, 64]) (hw : Word.canonical w bits signed = w)
    (h : Shows memory offset (wordImage w (min (bits / 8) 8))) :
    Word.canonical (wordAt memory offset (bits / 8)) bits signed = w := by
  have hwidth : 0 < bits ∧ 1 <<< (8 * min (bits / 8) 8) = 1 <<< bits := by
    simp only [List.mem_cons, List.not_mem_nil, or_false] at hb
    rcases hb with rfl | rfl | rfl | rfl <;> decide
  calc Word.canonical (wordAt memory offset (bits / 8)) bits signed = Word.canonical w bits signed := by
        apply Word.canonical_congr signed hwidth.1
        rw [toNat_wordAt rfl h, hwidth.2, Nat.mod_mod]
    _ = w := hw

theorem read_fn {f} (hf : f.index < referenceLimit)
    (h : Shows memory offset (wordImage (UInt64.ofNat (f.index + 1)) 8)) : Shape.fn.read memory offset 8 = .fn f := by
  have hlimit : f.index + 1 < 2 ^ 64 := by
    unfold referenceLimit at hf
    omega
  have hword : (UInt64.ofNat (f.index + 1)).toNat = f.index + 1 :=
    UInt64.toNat_ofNat_of_lt' hlimit
  have hne : UInt64.ofNat (f.index + 1) ≠ 0 := by
    intro hzero
    rw [hzero] at hword
    cases hword
  have hpred : (UInt64.ofNat (f.index + 1) - 1).toNat = f.index := by
    rw [UInt64.toNat_sub_of_le]
    · rw [hword]
      rfl
    · rw [UInt64.le_iff_toNat_le, hword]
      exact Nat.le_add_left 1 f.index
  rw [read, wordAt_eq h, if_neg hne, hpred, Nat.mod_eq_of_lt hf]

theorem read_type {ty} (hty : ty.index < referenceLimit)
    (h : Shows memory offset (wordImage (UInt64.ofNat ty.index) 8)) : Shape.type.read memory offset 8 = .type ty := by
  have hword : (UInt64.ofNat ty.index).toNat = ty.index := by
    have hlimit : ty.index < 2 ^ 64 := by
      unfold referenceLimit at hty
      omega
    exact UInt64.toNat_ofNat_of_lt' hlimit
  rw [read, wordAt_eq h, hword, Nat.mod_eq_of_lt hty]

mutual
/-- Where the image of a value is shown, that value is read. -/
theorem read_of_shows {offset} : (s : Shape) → (v : Value) → s.Holds v →
    Shows memory offset (s.image v) → s.read memory offset s.size = v
  | .void, v, hv, _ => hv.symm
  | .bool, v, hv, h => by
    obtain ⟨b, rfl⟩ := hv
    have hbyte := h 0 (if b then 1 else 0) rfl
    rw [Nat.add_zero] at hbyte
    rw [read, hbyte]
    cases b <;> rfl
  | .int bits signed, v, hv, h => by
    obtain ⟨hb, w, rfl, hw⟩ := hv
    have h := shows_plainImage.mp h
    rw [read]
    exact congrArg Value.int (canonical_wordAt hb hw h)
  | .real bits, v, hv, h => by
    obtain ⟨rfl, w, rfl⟩ | ⟨rfl, w, rfl⟩ := hv
    · rw [image, if_pos rfl] at h
      have hword : wordAt memory offset 4 = w.toUInt64 := by
        apply wordAt_of_lt _ h
        rw [UInt32.toNat_toUInt64]
        exact w.toNat_lt
      rw [read, if_pos rfl]
      show Value.f32 (wordAt memory offset 4).toUInt32 = .f32 w
      rw [hword, UInt32.toUInt32_toUInt64]
    · rw [image, shows_padTo (Nat.le_of_eq (length_wordImage w 8))] at h
      rw [read, if_neg (by decide)]
      exact congrArg Value.f64 (wordAt_eq h)
  | .pointer, v, hv, h => by
    obtain ⟨a, rfl⟩ := hv
    have h := shows_plainImage.mp h
    rw [read]
    exact congrArg Value.ptr (wordAt_eq h)
  | .fn, v, hv, h => by
    obtain rfl | ⟨f, rfl, hf⟩ := hv
    · have h := shows_plainImage.mp h
      have hword : wordAt memory offset Shape.fn.size = 0 := wordAt_eq h
      rw [read, hword]
      rfl
    · exact read_fn hf h
  | .type, v, hv, h => by
    obtain ⟨ty, rfl, hty⟩ := hv
    exact read_type hty h
  | .slice, v, hv, h => by
    obtain ⟨len, addr, rfl⟩ := hv
    have hlen : (wordImage len 8 ++ wordImage addr 8).length = 16 := by
      rw [List.length_append, length_wordImage, length_wordImage]
    rw [image_slice, shows_padTo (Nat.le_of_eq hlen), shows_append, length_wordImage] at h
    rw [read, wordAt_eq h.1, wordAt_eq h.2]
  | .enum base, v, hv, h => by
    obtain ⟨w, rfl, hw⟩ := hv
    have h := shows_plainImage.mp h
    rw [read]
    exact congrArg Value.int (wordAt_of_lt hw h)
  | .array elem len, v, hv, h => by
    obtain ⟨items, rfl, hlen, hitems⟩ := hv
    rw [shows_array hlen] at h
    rw [read]
    apply congrArg Value.agg
    apply List.ext_getElem?
    intro i
    rcases Nat.lt_or_ge i len with hi | hi
    · have hget : items[i]? = some items[i] := List.getElem?_eq_getElem (hlen ▸ hi)
      rw [List.getElem?_map, List.getElem?_range hi, hget]
      exact congrArg some (read_of_shows elem _ (hitems _ (List.getElem_mem _)) (h i _ hget))
    · simp [hi, hlen]
  | .struct members, v, hv, h => by
    obtain ⟨items, rfl, hitems⟩ := hv
    rw [shows_struct] at h
    rw [read]
    exact congrArg Value.agg (readFrom_of_shows members items 0 hitems h)

theorem readFrom_of_shows {offset} : (members : List Shape) → (items : List Value) →
    (done : Nat) → HoldsEach members items →
    (∀ (i : Nat) s v p, members[i]? = some s → items[i]? = some v →
      (offsetsFrom done members)[i]? = some p → Shows memory (offset + p) (s.image v)) →
    readFrom memory offset done members = items
  | [], items, done, hitems, _ => by
    rw [HoldsEach] at hitems
    rw [hitems, readFrom]
  | s :: members, items, done, hitems, h => by
    obtain ⟨v, rest, rfl, hv, hrest⟩ := hitems
    have hhead := read_of_shows s v hv (h 0 s v _ rfl rfl rfl)
    have htail := readFrom_of_shows members rest (s.layout.place done) hrest
      fun i s' v' p hs hv' hp => h (i + 1) s' v' p hs hv' hp
    rw [readFrom, hhead, htail]
end

end

end Comptime.Shape
