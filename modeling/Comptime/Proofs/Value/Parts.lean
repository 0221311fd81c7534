import Comptime.Proofs.Value.RoundTrip

/-!
# Parts of structs and arrays

A struct and an array are both made of parts: the part at a position has an offset and a shape of its
own. The parts lie within the whole and apart from each other, and a memory shows the image of the whole
where it shows the images of the parts. So writing one part changes this one item of the whole.
-/

namespace Comptime

namespace Shape

variable {members : List Shape} {items : List Value}

/-- The offset and the shape of the part at a position. -/
def part? : Shape → Nat → Option (Nat × Shape)
  | .struct members, i => ((offsets members).zip members)[i]?
  | .array elem len, i => if i < len then some (i * elem.stride, elem) else none
  | _, _ => none

theorem part?_struct {i o} {e} :
    (Shape.struct members).part? i = some (o, e) ↔ (offsets members)[i]? = some o ∧ members[i]? = some e :=
  List.getElem?_zip_eq_some

theorem part?_array {elem e} {len i o} :
    (Shape.array elem len).part? i = some (o, e) ↔ i < len ∧ i * elem.stride = o ∧ elem = e := by
  simp [part?]

section

variable {s e e' : Shape} {i j o o' : Nat}

theorem part_within (h : s.part? i = some (o, e)) : o + e.size ≤ s.size := by
  cases s with
  | struct members =>
    obtain ⟨ho, he⟩ := part?_struct.mp h
    exact offset_add_size_le_struct he ho
  | array elem len =>
    obtain ⟨hi, rfl, rfl⟩ := part?_array.mp h
    calc i * elem.stride + elem.size = elem.size * (i + 1) := by
          rw [stride_eq_size, Nat.mul_succ, Nat.mul_comm]
      _ ≤ elem.size * len := Nat.mul_le_mul_left elem.size hi
  | _ => cases h

theorem part_apart (h : s.part? i = some (o, e)) (h' : s.part? j = some (o', e')) (hij : i ≠ j) :
    o + e.size ≤ o' ∨ o' + e'.size ≤ o := by
  cases s with
  | struct members =>
    obtain ⟨ho, he⟩ := part?_struct.mp h
    obtain ⟨ho', he'⟩ := part?_struct.mp h'
    rcases Nat.lt_or_gt_of_ne hij with hlt | hlt
    · exact .inl (offset_add_size_le_offset he ho ho' hlt)
    · exact .inr (offset_add_size_le_offset he' ho' ho hlt)
  | array elem len =>
    obtain ⟨-, rfl, rfl⟩ := part?_array.mp h
    obtain ⟨-, rfl, rfl⟩ := part?_array.mp h'
    have hstep : ∀ {i j : Nat}, i < j → i * elem.stride + elem.size ≤ j * elem.stride := by
      intro i j hlt
      calc i * elem.stride + elem.size = (i + 1) * elem.stride := by
            rw [Nat.succ_mul, stride_eq_size]
        _ ≤ j * elem.stride := Nat.mul_le_mul_right elem.stride hlt
    rcases Nat.lt_or_gt_of_ne hij with hlt | hlt
    · exact .inl (hstep hlt)
    · exact .inr (hstep hlt)
  | _ => cases h

end

/-! ## Items -/

def Matches (s : Shape) (items : List Value) : Prop :=
  ∀ i, (s.part? i).isSome = true ↔ i < items.length

theorem matches_iff {s : Shape} {n} (hpart : ∀ i, (s.part? i).isSome = true ↔ i < n) :
    s.Matches items ↔ items.length = n := by
  constructor
  · intro h
    have hle := (hpart items.length).symm.trans (h items.length)
    have hge := (hpart n).symm.trans (h n)
    omega
  · intro h i
    rw [h]
    exact hpart i

private theorem matches_struct : (Shape.struct members).Matches items ↔ items.length = members.length :=
  matches_iff fun i => by simp [part?, offsets, length_offsetsFrom]

theorem matches_array {elem} {len} : (Shape.array elem len).Matches items ↔ items.length = len :=
  matches_iff fun i => by simp [part?]

private theorem holdsEach_iff :
    HoldsEach members items ↔ items.length = members.length ∧
      ∀ (i : Nat) s v, members[i]? = some s → items[i]? = some v → s.Holds v := by
  induction members generalizing items with
  | nil => simp [HoldsEach]
  | cons m members ih =>
    rw [HoldsEach]
    constructor
    · rintro ⟨v, rest, rfl, hv, hrest⟩
      obtain ⟨hlen, hall⟩ := ih.mp hrest
      refine ⟨congrArg (· + 1) hlen, ?_⟩
      rintro (_ | i) s w hs hw
      · cases hs
        cases hw
        exact hv
      · exact hall i s w hs hw
    · rintro ⟨hlen, hall⟩
      cases items with
      | nil => cases hlen
      | cons v rest =>
        refine ⟨v, rest, rfl, hall 0 m v rfl rfl, ih.mpr ⟨Nat.succ.inj hlen, ?_⟩⟩
        intro i s w hs hw
        exact hall (i + 1) s w hs hw

section

variable {s e : Shape} {i o : Nat} {items : List Value}

theorem holds_agg (h : s.part? i = some (o, e)) :
    s.Holds (.agg items) ↔ s.Matches items ∧ ∀ j p e v, s.part? j = some (p, e) → items[j]? = some v → e.Holds v := by
  cases s with
  | struct members =>
    rw [matches_struct, Holds]
    simp only [Value.agg.injEq, exists_eq_left', holdsEach_iff]
    refine and_congr_right fun hlen => ⟨fun hall j p e v hp hv => ?_, fun hall j e v he hv => ?_⟩
    · exact hall j e v (part?_struct.mp hp).2 hv
    · have hj : j < (offsets members).length := by
        rw [offsets, length_offsetsFrom]
        exact (List.getElem?_eq_some_iff.mp he).1
      exact hall j _ e v (part?_struct.mpr ⟨List.getElem?_eq_getElem hj, he⟩) hv
  | array elem len =>
    rw [matches_array, Holds]
    simp only [Value.agg.injEq, exists_eq_left']
    refine and_congr_right fun hlen => ⟨fun hall j p e v hp hv => ?_, fun hall v hv => ?_⟩
    · obtain ⟨-, -, rfl⟩ := part?_array.mp hp
      exact hall v (List.mem_of_getElem? hv)
    · obtain ⟨j, hj, rfl⟩ := List.getElem_of_mem hv
      exact hall j _ elem _ (part?_array.mpr ⟨hlen ▸ hj, rfl, rfl⟩) (List.getElem?_eq_getElem hj)
  | _ => cases h

theorem shows_agg {memory} {offset} (h : s.part? i = some (o, e)) (hitems : s.Matches items) :
    Shows memory offset (s.image (.agg items)) ↔ ∀ j p e v, s.part? j = some (p, e) → items[j]? = some v →
        Shows memory (offset + p) (e.image v) := by
  cases s with
  | struct members =>
    rw [shows_struct]
    constructor
    · intro hall j p e v hp hv
      obtain ⟨ho, he⟩ := part?_struct.mp hp
      exact hall j e v p he hv ho
    · intro hall j e v p he hv ho
      exact hall j p e v (part?_struct.mpr ⟨ho, he⟩) hv
  | array elem len =>
    have hlen := matches_array.mp hitems
    rw [shows_array hlen]
    constructor
    · intro hall j p e v hp hv
      obtain ⟨-, rfl, rfl⟩ := part?_array.mp hp
      exact hall j v hv
    · intro hall j v hv
      have hj : j < len := hlen ▸ (List.getElem?_eq_some_iff.mp hv).1
      exact hall j _ elem v (part?_array.mpr ⟨hj, rfl, rfl⟩) hv
  | _ => cases h

theorem Matches.set (h : s.Matches items) (w) : s.Matches (items.set i w) := by
  intro j
  rw [List.length_set]
  exact h j

theorem Matches.item (h : s.Matches items) (hp : s.part? i = some (o, e)) : ∃ v, items[i]? = some v := by
  have hi : i < items.length := (h i).mp (by rw [hp]; rfl)
  exact ⟨items[i], List.getElem?_eq_getElem hi⟩

theorem getElem?_set_cases {j} {v w} (h : (items.set i w)[j]? = some v) :
    i = j ∧ w = v ∨ i ≠ j ∧ items[j]? = some v := by
  by_cases hij : i = j
  · subst hij
    have hi := (List.getElem?_eq_some_iff.mp h).1
    rw [List.length_set] at hi
    rw [List.getElem?_set_self hi] at h
    exact .inl ⟨rfl, Option.some.inj h⟩
  · rw [List.getElem?_set_ne hij] at h
    exact .inr ⟨hij, h⟩

theorem holds_set (h : s.part? i = some (o, e)) (hitems : s.Holds (.agg items)) {w} (hw : e.Holds w) :
    s.Holds (.agg (items.set i w)) := by
  rw [holds_agg h] at hitems ⊢
  refine ⟨hitems.1.set w, fun j p e' v hp hv => ?_⟩
  rcases getElem?_set_cases hv with ⟨rfl, rfl⟩ | ⟨-, hold⟩
  · obtain ⟨rfl, rfl⟩ := Prod.mk.inj (Option.some.inj (h.symm.trans hp))
    exact hw
  · exact hitems.2 j p e' v hp hold

theorem shows_set {memory} {offset} (h : s.part? i = some (o, e)) (hitems : s.Matches items)
    (hroom : offset + s.size ≤ memory.size) (hm : Shows memory offset (s.image (.agg items))) (w) :
    Shows (overlay memory (offset + o) (e.image w)) offset (s.image (.agg (items.set i w))) := by
  rw [shows_agg h hitems] at hm
  rw [shows_agg h (hitems.set w)]
  intro j p e' v hp hv
  rcases getElem?_set_cases hv with ⟨rfl, rfl⟩ | ⟨hij, hold⟩
  · obtain ⟨rfl, rfl⟩ := Prod.mk.inj (Option.some.inj (h.symm.trans hp))
    apply shows_overlay
    have hin := part_within h
    rw [length_image]
    omega
  · apply (hm j p e' v hp hold).overlay_apart
    have hapart := part_apart h hp hij
    rw [length_image, length_image]
    omega

end

end Shape

/-! ## Parts of types -/

namespace TypeTable

variable {t : TypeTable}

/-- The member of a struct or the element of an array at a position: its offset and its type. -/
inductive Part (t : TypeTable) (ty : TypeId) (i : Nat) : Nat → TypeId → Prop
  | member {id : StructId} {members : List Member} {m : Member} {offsets : List Nat} {o : Nat}
      (kind : t.kind ty = .struct id) (known : (t.structDef id).members = some members)
      (position : members[i]? = some m) (layout : t.memberOffsets id = .ok offsets)
      (offset : offsets[i]? = some o) : Part t ty i o m.ty
  | element {elem : TypeId} {len : UInt64} {stride : Nat} (kind : t.kind ty = .array elem len)
      (position : i < len.toNat) (layout : t.elemStride elem = .ok stride) :
      Part t ty i (i * stride) elem

theorem Part.shape {ty e} {i o} {s} (hp : t.Part ty i o e) (hs : t.shape ty = .ok s) :
    ∃ es, t.shape e = .ok es ∧ s.part? i = some (o, es) := by
  cases hp with
  | member hk hm hi hl ho =>
    obtain ⟨members, shapes, rfl, hm', hl', hall⟩ := shape_struct hk hs
    cases hm.symm.trans hm'
    cases hl.symm.trans hl'
    obtain ⟨hlt, rfl⟩ := List.getElem?_eq_some_iff.mp hi
    have hlt' : i < shapes.length := hall.length_eq ▸ hlt
    exact ⟨shapes[i], hall.get hlt hlt', Shape.part?_struct.mpr ⟨ho, List.getElem?_eq_getElem hlt'⟩⟩
  | element hk hi hl =>
    obtain ⟨es, hes, rfl⟩ := shape_array hk hs
    obtain ⟨es', hes', rfl⟩ := map_eq_ok.mp hl
    cases hes.symm.trans hes'
    exact ⟨es, hes, Shape.part?_array.mpr ⟨hi, rfl, rfl⟩⟩

end TypeTable

end Comptime
