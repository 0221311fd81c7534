import Comptime.Proofs.Code.Frame
import Comptime.Proofs.Layout.Descent
import Comptime.Proofs.Type.Incomplete
import Mathlib.Logic.Relation

/-!
# Layout is total and exact

`TypeTable.Measures` gives size, alignment and member offsets of a type as numbers without a bound, by
one rule for each kind of type. The layout of a type in a table that was built comes to exactly these
numbers, and there is one exactly where there should be (`layout_exact`): where no type that is
contained by value contains itself, every struct among them is complete, and no number reaches the end
of the address space. The error names one of these three; which one depends on the order of members.
-/

namespace Comptime

/-- Size and alignment of what contains nothing by value. -/
def TypeKind.scalar? : TypeKind → Option Layout
  | .void => some ⟨0, 1⟩
  | .bool => some ⟨1, 1⟩
  | .int bits _ | .real bits => some ⟨bits / 8, bits / 8⟩
  | .ptr _ | .fn _ _ | .null | .type => some ⟨8, 8⟩
  | .slice _ => some ⟨16, 8⟩
  | .array _ _ | .enum _ | .struct _ | .missing => none

/-- The offsets of members that follow the first `offset` bytes. -/
def Layout.offsetsFrom (offset : Nat) : List Layout → List Nat
  | [] => []
  | l :: rest => alignUp offset l.align :: offsetsFrom (l.place offset) rest

namespace TypeTable

/-- Values of the first type contain values of the second. -/
inductive Contains (t : TypeTable) : TypeId → TypeId → Prop
  | elem {ty elem : TypeId} {len : UInt64} (kind : t.kind ty = .array elem len) : Contains t ty elem
  | base {ty : TypeId} {id : EnumId} (kind : t.kind ty = .enum id) :
      Contains t ty (t.enumDef id).base
  | member {ty : TypeId} {id : StructId} {members : List Member} {m : Member}
      (kind : t.kind ty = .struct id) (known : (t.structDef id).members = some members)
      (mem : m ∈ members) : Contains t ty m.ty

def Below (t : TypeTable) : TypeId → TypeId → Prop := Relation.ReflTransGen t.Contains

/-- Size, alignment and member offsets of a type. -/
inductive Measures (t : TypeTable) : TypeId → Layout → List Nat → Prop
  | scalar {ty : TypeId} {l : Layout} (kind : (t.kind ty).scalar? = some l) : Measures t ty l []
  | enum {ty : TypeId} {id : EnumId} {l : Layout} {offsets : List Nat} (kind : t.kind ty = .enum id)
      (base : Measures t (t.enumDef id).base l offsets) : Measures t ty l []
  | array {ty elem : TypeId} {len : UInt64} {l : Layout} {offsets : List Nat}
      (kind : t.kind ty = .array elem len) (elems : Measures t elem l offsets) :
      Measures t ty ⟨l.size * len.toNat, l.align⟩ []
  | struct {ty : TypeId} {id : StructId} {members : List Member} {ls : List Layout}
      {inner : Nat → List Nat} (kind : t.kind ty = .struct id)
      (known : (t.structDef id).members = some members) (length : ls.length = members.length)
      (each : ∀ (i : Nat) m l, members[i]? = some m → ls[i]? = some l → Measures t m.ty l (inner i)) :
      Measures t ty (Layout.struct ls) (Layout.offsetsFrom 0 ls)

/-- Nothing contained in the type contains itself. -/
def Acyclic (t : TypeTable) (ty : TypeId) : Prop :=
  ∀ part, t.Below ty part → ¬ Relation.TransGen t.Contains part part

/-- The members of all structs in the type are known. -/
def Complete (t : TypeTable) (ty : TypeId) : Prop :=
  ∀ part id, t.Below ty part → t.kind part = .struct id → ¬ t.IsOpen id

/-- No size and no offset in the type reaches the end of the address space. -/
def Bounded (t : TypeTable) (ty : TypeId) : Prop :=
  ∀ part l offsets, t.Below ty part → t.Measures part l offsets →
    l.size < addressSpace ∧ ∀ o ∈ offsets, o < addressSpace

variable {t : TypeTable} {ty : TypeId} {l : Layout} {offsets : List Nat}

/-! ## Measures -/

namespace Measures

theorem unique (h : t.Measures ty l offsets) {l' offsets'} (h' : t.Measures ty l' offsets') :
    l = l' ∧ offsets = offsets' := by
  induction h generalizing l' offsets' with
  | scalar kind =>
    cases h' with
    | scalar kind' => exact ⟨Option.some.inj (kind.symm.trans kind'), rfl⟩
    | enum kind' | array kind' | struct kind' =>
      rw [kind'] at kind
      cases kind
  | enum kind _ ih =>
    cases h' with
    | scalar kind' =>
      rw [kind] at kind'
      cases kind'
    | enum kind' base' =>
      cases kind.symm.trans kind'
      exact ⟨(ih base').1, rfl⟩
    | array kind' | struct kind' => cases kind.symm.trans kind'
  | array kind _ ih =>
    cases h' with
    | scalar kind' =>
      rw [kind] at kind'
      cases kind'
    | array kind' elems' =>
      cases kind.symm.trans kind'
      obtain ⟨rfl, -⟩ := ih elems'
      exact ⟨rfl, rfl⟩
    | enum kind' | struct kind' => cases kind.symm.trans kind'
  | @struct ty id members ls inner kind known length each ih =>
    cases h' with
    | scalar kind' =>
      rw [kind] at kind'
      cases kind'
    | @struct _ id' members' ls' inner' kind' known' length' each' =>
      cases kind.symm.trans kind'
      cases known.symm.trans known'
      -- the members have the same layouts, one by one
      have hsame : ls = ls' := by
        apply List.ext_getElem (length.trans length'.symm)
        intro i hi hi'
        have hlt : i < members.length := length ▸ hi
        have hm : members[i]? = some members[i] := List.getElem?_eq_getElem hlt
        have hfirst : ls[i]? = some ls[i] := List.getElem?_eq_getElem hi
        have hsecond : ls'[i]? = some ls'[i] := List.getElem?_eq_getElem hi'
        exact (ih i _ _ hm hfirst (each' i _ _ hm hsecond)).1
      subst hsame
      exact ⟨rfl, rfl⟩
    | enum kind' | array kind' => cases kind.symm.trans kind'

theorem parts (h : t.Measures ty l offsets) : ∀ part, t.Contains ty part →
    Acc (fun inner outer => t.Contains outer inner) part ∧ ∃ l' offsets', t.Measures part l' offsets' := by
  induction h with
  | scalar kind =>
    intro part hc
    cases hc with
    | elem kind' | base kind' | member kind' =>
      rw [kind'] at kind
      cases kind
  | enum kind base ih =>
    intro part hc
    cases hc with
    | base kind' =>
      cases kind.symm.trans kind'
      exact ⟨⟨_, fun p hp => (ih p hp).1⟩, _, _, base⟩
    | elem kind' | member kind' => cases kind.symm.trans kind'
  | array kind elems ih =>
    intro part hc
    cases hc with
    | elem kind' =>
      cases kind.symm.trans kind'
      exact ⟨⟨_, fun p hp => (ih p hp).1⟩, _, _, elems⟩
    | base kind' | member kind' => cases kind.symm.trans kind'
  | @struct ty id members ls inner kind known length each ih =>
    intro part hc
    cases hc with
    | member kind' known' mem =>
      cases kind.symm.trans kind'
      cases known.symm.trans known'
      obtain ⟨i, hi, rfl⟩ := List.getElem_of_mem mem
      have hm : members[i]? = some members[i] := List.getElem?_eq_getElem hi
      have hlt : i < ls.length := length ▸ hi
      have hl : ls[i]? = some ls[i] := List.getElem?_eq_getElem hlt
      exact ⟨⟨_, fun p hp => (ih i _ _ hm hl p hp).1⟩, _, _, each i _ _ hm hl⟩
    | elem kind' | base kind' => cases kind.symm.trans kind'

theorem of_below (h : t.Measures ty l offsets) {part} (hb : t.Below ty part) :
    ∃ l' offsets', t.Measures part l' offsets' := by
  induction hb with
  | refl => exact ⟨l, offsets, h⟩
  | tail _ hc ih =>
    obtain ⟨l', offsets', h'⟩ := ih
    exact (h'.parts _ hc).2

end Measures

private theorem not_rel_self_of_acc {α : Type} {r : α → α → Prop} {a : α} (h : Acc r a) : ¬ r a a := by
  induction h with
  | intro x _ ih => exact fun hx => ih x hx hx

theorem Measures.acyclic (h : t.Measures ty l offsets) : t.Acyclic ty := by
  intro part hb
  obtain ⟨l', offsets', h'⟩ := h.of_below hb
  have hacc : Acc (fun inner outer => t.Contains outer inner) part :=
    ⟨_, fun p hp => (h'.parts p hp).1⟩
  intro hc
  exact not_rel_self_of_acc (acc_transGen_iff.mpr hacc) (Relation.transGen_swap.mpr hc)

theorem Measures.complete (h : t.Measures ty l offsets) : t.Complete ty := by
  intro part id hb hk hopen
  obtain ⟨l', offsets', h'⟩ := h.of_below hb
  cases h' with
  | scalar kind =>
    rw [hk] at kind
    cases kind
  | enum kind | array kind => cases hk.symm.trans kind
  | struct kind known =>
    cases hk.symm.trans kind
    rw [IsOpen, known] at hopen
    cases hopen

end TypeTable

/-! ## Shapes

The layout of a shape is what the rules say, and its members are put one behind the other as close as
their alignments allow.
-/

theorem alignUp_lt {align} (h : 0 < align) (value) : alignUp value align < value + align := by
  unfold alignUp
  split
  · omega
  · have hmod := Nat.mod_add_div (value + align - 1) align
    rw [Nat.mul_comm align] at hmod
    omega

namespace Shape

/-- The offsets of the members of a struct, and none for anything else. -/
def memberOffsets : Shape → List Nat
  | .struct members => offsets members
  | _ => []

theorem offsetsFrom_eq (members) (offset) :
    offsetsFrom offset members = Layout.offsetsFrom offset (layouts members) := by
  induction members generalizing offset with
  | nil => rfl
  | cons s members ih =>
    rw [offsetsFrom, ih]
    rfl

section

variable {members : List Shape} {offset i o p : Nat} {s s' : Shape}

theorem align_dvd_offset (hpos : 0 < s.layout.align) (hs : members[i]? = some s)
    (ho : (offsetsFrom offset members)[i]? = some o) : s.layout.align ∣ o := by
  induction members generalizing offset i with
  | nil => cases hs
  | cons m members ih =>
    cases i with
    | zero =>
      cases hs
      cases ho
      exact dvd_alignUp hpos offset
    | succ i => exact ih hs ho

theorem first_offset_lt (hpos : 0 < s.layout.align) (hs : members[0]? = some s)
    (ho : (offsetsFrom offset members)[0]? = some o) : o < offset + s.layout.align := by
  cases members with
  | nil => cases hs
  | cons m members =>
    cases hs
    cases ho
    exact alignUp_lt hpos offset

theorem next_offset_lt (hpos : 0 < s'.layout.align) (hs : members[i]? = some s)
    (hs' : members[i + 1]? = some s') (ho : (offsetsFrom offset members)[i]? = some o)
    (hp : (offsetsFrom offset members)[i + 1]? = some p) : p < o + s.size + s'.layout.align := by
  induction members generalizing offset i with
  | nil => cases hs
  | cons m members ih =>
    cases i with
    | zero =>
      cases hs
      cases ho
      exact first_offset_lt hpos hs' hp
    | succ i => exact ih hs hs' ho hp

end

theorem le_size_of_mem_memberOffsets {s : Shape} {o} (h : o ∈ s.memberOffsets) : o ≤ s.size := by
  cases s with
  | struct members =>
    obtain ⟨i, hi, rfl⟩ := List.getElem_of_mem h
    have hlt : i < members.length := (length_offsetsFrom members 0) ▸ hi
    have hwithin := offset_add_size_le_struct (List.getElem?_eq_getElem hlt) (List.getElem?_eq_getElem hi)
    exact Nat.le_of_add_right_le hwithin
  | _ => cases h

end Shape

namespace TypeTable

variable {t : TypeTable} {fuel : Nat} {inside : List StructId} {ty : TypeId} {s : Shape} {id : StructId}
  {shapes : List Shape} {shapeOf : TypeId → Except LayoutError Shape}

private theorem measures_of_intInfoAt {bits signed} (h : t.intInfoAt fuel ty = some (bits, signed)) :
    t.Measures ty ⟨bits / 8, bits / 8⟩ [] := by
  induction fuel generalizing ty with
  | zero => cases h
  | succ fuel ih =>
    rw [intInfoAt] at h
    split at h
    · next hk =>
      cases h
      exact .scalar (by rw [hk]; rfl)
    · next hk => exact .enum hk (ih h)
    · cases h

theorem measures_struct {members} (hk : t.kind ty = .struct id) (hm : (t.structDef id).members = some members)
    (hall : List.Forall₂ (fun m s => t.Measures m.ty s.layout s.memberOffsets) members shapes) :
    t.Measures ty (Shape.struct shapes).layout (Shape.struct shapes).memberOffsets := by
  have hlength : (Shape.layouts shapes).length = members.length := by
    rw [Shape.layouts_eq_map, List.length_map, hall.length_eq]
  have heach : ∀ (i : Nat) m l, members[i]? = some m → (Shape.layouts shapes)[i]? = some l →
      t.Measures m.ty l (shapes[i]?.getD .void).memberOffsets := by
    intro i m l hi hl
    rw [Shape.layouts_eq_map, List.getElem?_map, Option.map_eq_some_iff] at hl
    obtain ⟨s, hs, rfl⟩ := hl
    rw [hs]
    obtain ⟨hlt, rfl⟩ := List.getElem?_eq_some_iff.mp hi
    obtain ⟨hlt', rfl⟩ := List.getElem?_eq_some_iff.mp hs
    exact hall.get hlt hlt'
  rw [Shape.memberOffsets, Shape.offsets, Shape.offsetsFrom_eq, Shape.layout]
  exact .struct hk hm hlength heach

theorem measures_of_shapeAt (h : t.shapeAt fuel inside ty = .ok s) : t.Measures ty s.layout s.memberOffsets := by
  refine shape_induction (motive := fun ty s => t.Measures ty s.layout s.memberOffsets) (@fun _ ty s h => ?_) h
  cases h with
  | scalar hk =>
    cases hkind : t.kind ty <;> rw [hkind] at hk <;> cases hk
    all_goals exact .scalar (by rw [hkind]; rfl)
  | integer _ hi => exact measures_of_intInfoAt hi
  | enum hk _ hbase =>
    rw [Shape.layout]
    exact .enum hk hbase
  | array hk he => exact .array hk he
  | struct hk _ hm hall => exact measures_struct hk hm hall

theorem size_lt_of_shape (ht : t.Bytewise) (h : t.shape ty = .ok s) : s.size < addressSpace := by
  have hbytes {bits : Nat} (hb : bits ∈ [8, 16, 32, 64]) : bits / 8 < addressSpace := by
    have hle : bits / 8 ≤ 8 := by
      simp only [List.mem_cons, List.not_mem_nil, or_false] at hb
      omega
    exact Nat.lt_of_le_of_lt hle (by decide)
  refine shape_induction (motive := fun _ s => s.size < addressSpace) (@fun _ ty s h => ?_) h
  cases h with
  | scalar hk =>
    cases hkind : t.kind ty <;> rw [hkind] at hk <;> cases hk
    case int.refl bits signed => exact hbytes (ht.widths.int ty bits signed hkind)
    case real.refl bits =>
      apply hbytes
      rcases ht.real ty bits hkind with rfl | rfl <;> decide
    all_goals decide
  | integer _ hi => exact hbytes (ht.widths.intInfoAt hi)
  | enum _ _ hbase =>
    rw [Shape.size, Shape.layout]
    exact hbase
  | array _ _ hroom | struct _ _ _ _ hroom => exact hroom

private theorem intInfoAt_succ {x : Nat × Bool} (h : t.intInfoAt fuel ty = some x) :
    t.intInfoAt (fuel + 1) ty = some x := by
  induction fuel generalizing ty with
  | zero => cases h
  | succ fuel ih =>
    rw [intInfoAt] at h ⊢
    cases hk : t.kind ty <;> rw [hk] at h <;> dsimp only at h ⊢
    case enum id => exact ih h
    all_goals exact h

private theorem shape_part (h : t.shape ty = .ok s) {part} (hc : t.Contains ty part) : ∃ s', t.shape part = .ok s' := by
  cases hc with
  | elem hk =>
    obtain ⟨e, he, -⟩ := shape_array hk h
    exact ⟨e, he⟩
  | @base id hk =>
    cases shape_unfolds h with
    | integer _ hi =>
      -- the walk stops here, but would go on to an integer
      rw [intInfo, intInfoAt, hk] at hi
      have hbase : t.intInfo (t.enumDef id).base = some (_, _) := intInfoAt_succ hi
      rcases intInfo_eq_some hbase with hint | ⟨id', henum⟩
      · exact ⟨_, shape_of_unfolds fun _ => .scalar (by rw [hint]; rfl)⟩
      · exact ⟨_, shape_of_unfolds fun _ => .integer henum hbase⟩
    | enum hk' _ hbase =>
      cases hk.symm.trans hk'
      exact ⟨_, hbase⟩
    | scalar hk' =>
      rw [hk] at hk'
      cases hk'
    | array hk' | struct hk' => cases hk.symm.trans hk'
  | member hk known mem =>
    obtain ⟨members, shapes, -, hm, -, hall⟩ := shape_struct hk h
    cases hm.symm.trans known
    obtain ⟨i, hi, rfl⟩ := List.getElem_of_mem mem
    exact ⟨_, hall.get hi (hall.length_eq ▸ hi)⟩

theorem bounded_of_shape (ht : t.Bytewise) (h : t.shape ty = .ok s) : t.Bounded ty := by
  intro part l offsets hb hm
  obtain ⟨s', h'⟩ : ∃ s', t.shape part = .ok s' := by
    clear hm
    induction hb with
    | refl => exact ⟨s, h⟩
    | tail _ hc ih =>
      obtain ⟨_, h'⟩ := ih
      exact shape_part h' hc
  obtain ⟨rfl, rfl⟩ := hm.unique (measures_of_shapeAt h')
  have hsize := size_lt_of_shape ht h'
  refine ⟨hsize, fun o ho => ?_⟩
  exact Nat.lt_of_le_of_lt (Shape.le_size_of_mem_memberOffsets ho) hsize

/-! ## Where there is a layout -/

theorem exists_memberShapes {members : List Member} (h : ∀ m ∈ members, ∃ s, shapeOf m.ty = .ok s) :
    ∃ shapes, List.Forall₂ (fun m s => shapeOf m.ty = .ok s) members shapes := by
  induction members with
  | nil => exact ⟨[], .nil⟩
  | cons m members ih =>
    obtain ⟨s, hs⟩ := h m List.mem_cons_self
    obtain ⟨shapes, hshapes⟩ := ih fun m' hm' => h m' (List.mem_cons_of_mem m hm')
    exact ⟨s :: shapes, .cons hs hshapes⟩

theorem Ranked.has_part (hr : t.Ranked) {part} (hc : t.Contains ty part) : t.Has part := by
  cases hc with
  | elem kind => exact Nat.lt_trans (hr.elem kind) (has_of_kind_ne (by simp [kind]))
  | base kind => exact hr.bases (hr.enums kind)
  | member _ known mem => exact hr.members known _ mem

theorem Ranked.shapeAt_ok (hr : t.Ranked) {root : TypeId} (hacyclic : t.Acyclic root)
    (hcomplete : t.Complete root) (hbounded : t.Bounded root) (hfuel : t.rank (inside, ty) < fuel)
    (hty : t.Has ty) (hroot : t.Below root ty)
    (hinside : ∀ id ∈ inside, ∃ outer, t.kind outer = .struct id ∧ Relation.TransGen t.Contains outer ty) :
    ∃ s, t.shapeAt fuel inside ty = .ok s := by
  induction fuel generalizing inside ty with
  | zero => omega
  | succ fuel ih =>
    have hdeeper {part : TypeId} (hd : t.Descends (inside, part) (inside, ty))
        (hc : t.Contains ty part) : ∃ s, t.shapeAt fuel inside part = .ok s := by
      apply ih
      · have hlt := hr.rank_lt hd
        omega
      · exact hr.has_part hc
      · exact hroot.tail hc
      · intro id hid
        obtain ⟨outer, hk, hpath⟩ := hinside id hid
        exact ⟨outer, hk, hpath.tail hc⟩
    cases hk : t.kind ty with
    | enum id =>
      cases hi : t.intInfo ty with
      | some info => exact ⟨_, shapeAt_eq_ok.mpr (.integer hk hi)⟩
      | none =>
        obtain ⟨s, hs⟩ := hdeeper (.base hk) (.base hk)
        exact ⟨_, shapeAt_eq_ok.mpr (.enum hk hi hs)⟩
    | array elem len =>
      obtain ⟨s, hs⟩ := hdeeper (.elem hk) (.elem hk)
      have hroom := (hbounded ty _ _ hroot (.array hk (measures_of_shapeAt hs))).1
      exact ⟨_, shapeAt_eq_ok.mpr (.array hk hs hroom)⟩
    | struct id =>
      -- coming back to a struct would close a circle through its members
      have hnew : id ∉ inside := by
        intro hid
        obtain ⟨outer, hk', hpath⟩ := hinside id hid
        obtain ⟨part, hfirst, hrest⟩ := Relation.TransGen.head'_iff.mp hpath
        cases hfirst with
        | member hk'' known mem =>
          cases hk'.symm.trans hk''
          exact hacyclic ty hroot (.head' (.member hk known mem) hrest)
        | elem hk'' | base hk'' => cases hk'.symm.trans hk''
      obtain ⟨members, hm⟩ := Option.ne_none_iff_exists'.mp (hcomplete ty id hroot hk)
      have heach : ∀ m ∈ members, ∃ s, t.shapeAt fuel (id :: inside) m.ty = .ok s := by
        intro m hmem
        have hc : t.Contains ty m.ty := .member hk hm hmem
        apply ih
        · have hlt := hr.rank_lt (.member hk hnew hm hmem)
          omega
        · exact hr.has_part hc
        · exact hroot.tail hc
        · intro id' hid'
          rcases List.mem_cons.mp hid' with rfl | hid'
          · exact ⟨ty, hk, .single hc⟩
          · obtain ⟨outer, hk', hpath⟩ := hinside id' hid'
            exact ⟨outer, hk', hpath.tail hc⟩
      obtain ⟨shapes, hall⟩ := exists_memberShapes heach
      have hmeasures := measures_struct hk hm (hall.imp fun _ _ => measures_of_shapeAt)
      have hroom := (hbounded ty _ _ hroot hmeasures).1
      exact ⟨_, shapeAt_eq_ok.mpr (.struct hk hnew hm hall hroom)⟩
    | missing => exact absurd hk (hr.present hty)
    | _ => exact ⟨_, shapeAt_eq_ok.mpr (.scalar (by rw [hk]; rfl))⟩

theorem Ranked.layout_ok_iff (hr : t.Ranked) (hty : t.Has ty) :
    (∃ l, t.layout ty = .ok l) ↔ t.Acyclic ty ∧ t.Complete ty ∧ t.Bounded ty := by
  constructor
  · rintro ⟨l, hl⟩
    obtain ⟨s, hs, rfl⟩ := map_eq_ok.mp hl
    have hmeasures := measures_of_shapeAt hs
    exact ⟨hmeasures.acyclic, hmeasures.complete, bounded_of_shape hr.bytewise hs⟩
  · rintro ⟨hacyclic, hcomplete, hbounded⟩
    obtain ⟨s, hs⟩ := hr.shapeAt_ok hacyclic hcomplete hbounded (rank_lt_shapeFuel hty []) hty .refl
      (fun id hid => nomatch hid)
    exact ⟨s.layout, map_eq_ok.mpr ⟨s, hs, rfl⟩⟩

/-! ## What a layout looks like -/

/-- The member at a position stands at an offset and has a layout. -/
def Places (t : TypeTable) (members : List Member) (offsets : List Nat) (i o : Nat) (l : Layout) :
    Prop :=
  ∃ m, members[i]? = some m ∧ offsets[i]? = some o ∧ t.layout m.ty = .ok l

/-- The members of a struct stand in order and apart, each at a multiple of its alignment, behind less
padding than that, and all of them within the struct. -/
structure Arranges (t : TypeTable) (members : List Member) (offsets : List Nat) (whole : Layout) :
    Prop where
  every : ∀ i < members.length, ∃ o l, t.Places members offsets i o l
  aligned : ∀ {i o l}, t.Places members offsets i o l → l.align ∣ o
  within : ∀ {i o l}, t.Places members offsets i o l → o + l.size ≤ whole.size
  ordered : ∀ {i j o p l l'}, t.Places members offsets i o l → t.Places members offsets j p l' →
    i < j → o + l.size ≤ p
  first : ∀ {o l}, t.Places members offsets 0 o l → o < l.align
  tight : ∀ {i o p l l'}, t.Places members offsets i o l → t.Places members offsets (i + 1) p l' →
    p < o + l.size + l'.align

theorem arranges_of_shapes (ht : t.Bytewise) {members}
    (hall : List.Forall₂ (fun m s => t.shape m.ty = .ok s) members shapes) :
    t.Arranges members (Shape.offsets shapes) (Shape.struct shapes).layout := by
  -- a member is its shape
  have hshape {i o : Nat} {l : Layout} (h : t.Places members (Shape.offsets shapes) i o l) :
      ∃ s, shapes[i]? = some s ∧ (Shape.offsets shapes)[i]? = some o ∧ s.layout = l ∧ 0 < s.layout.align := by
    obtain ⟨m, hm, ho, hl⟩ := h
    obtain ⟨hlt, rfl⟩ := List.getElem?_eq_some_iff.mp hm
    have hlt' : i < shapes.length := hall.length_eq ▸ hlt
    have hs := hall.get hlt hlt'
    obtain ⟨s, hs', rfl⟩ := map_eq_ok.mp hl
    cases hs.symm.trans hs'
    have hdvd := ht.widths.shape_align hs
    exact ⟨_, List.getElem?_eq_getElem hlt', ho, rfl, Nat.pos_of_dvd_of_pos hdvd (by decide)⟩
  constructor
  · intro i hi
    have hi' : i < shapes.length := hall.length_eq ▸ hi
    have ho : i < (Shape.offsets shapes).length := by
      rw [Shape.offsets, Shape.length_offsetsFrom]
      exact hi'
    exact ⟨_, _, members[i], List.getElem?_eq_getElem hi, List.getElem?_eq_getElem ho,
      map_eq_ok.mpr ⟨_, hall.get hi hi', rfl⟩⟩
  · intro i o l h
    obtain ⟨s, hs, ho, rfl, hpos⟩ := hshape h
    exact Shape.align_dvd_offset hpos hs ho
  · intro i o l h
    obtain ⟨s, hs, ho, rfl, -⟩ := hshape h
    exact Shape.offset_add_size_le_struct hs ho
  · intro i j o p l l' h h' hij
    obtain ⟨s, hs, ho, rfl, -⟩ := hshape h
    obtain ⟨s', -, hp, -⟩ := hshape h'
    exact Shape.offset_add_size_le_offset hs ho hp hij
  · intro o l h
    obtain ⟨s, hs, ho, rfl, hpos⟩ := hshape h
    have hlt := Shape.first_offset_lt hpos hs ho
    omega
  · intro i o p l l' h h'
    obtain ⟨s, hs, ho, rfl, -⟩ := hshape h
    obtain ⟨s', hs', hp, rfl, hpos⟩ := hshape h'
    exact Shape.next_offset_lt hpos hs hs' ho hp

/-- The layout of a type in a table that was built. The walk over the type ends, whatever fuel is given
beyond what it has. It finds a layout exactly if no part of the type contains itself, all structs in it
are complete, and no size or offset reaches the end of the address space. A layout that is found has the
measures of the type; its alignment is 1, 2, 4 or 8 and divides the size, so that elements next to each
other fill an array; and the members of a struct are arranged within it. -/
theorem layout_exact (hb : t.Built) (hty : t.Has ty) :
    Acc t.Descends ([], ty) ∧
    (∀ more, t.shapeAt (t.shapeFuel + more) [] ty = t.shape ty) ∧
    ((∃ l, t.layout ty = .ok l) ↔ t.Acyclic ty ∧ t.Complete ty ∧ t.Bounded ty) ∧
    ∀ l, t.layout ty = .ok l →
      (∃ offsets, t.Measures ty l offsets) ∧
      (l.align = 1 ∨ l.align = 2 ∨ l.align = 4 ∨ l.align = 8) ∧ l.align ∣ l.size ∧
      t.elemStride ty = .ok l.size ∧
      (∀ elem len, t.kind ty = .array elem len → ∃ e, t.layout elem = .ok e ∧
        t.elemStride elem = .ok e.size ∧ l = ⟨e.size * len.toNat, e.align⟩) ∧
      ∀ id members, t.kind ty = .struct id → (t.structDef id).members = some members →
        ∃ offsets, t.memberOffsets id = .ok offsets ∧ t.Arranges members offsets l := by
  have hr := hb.ranked
  refine ⟨hr.wellFounded.apply _, hr.shapeAt_add (rank_lt_shapeFuel hty []), hr.layout_ok_iff hty, ?_⟩
  intro l hl
  obtain ⟨s, hs, rfl⟩ := map_eq_ok.mp hl
  have hstride {ty : TypeId} {s : Shape} (hs : t.shape ty = .ok s) : t.elemStride ty = .ok s.size :=
    map_eq_ok.mpr ⟨s, hs, s.stride_eq_size⟩
  refine ⟨⟨_, measures_of_shapeAt hs⟩, ?_, s.align_dvd_size, hstride hs, ?_, ?_⟩
  · have hdvd := hr.bytewise.widths.shape_align hs
    have hdivisors : ∀ n ≤ 8, n ∣ 8 → n = 1 ∨ n = 2 ∨ n = 4 ∨ n = 8 := by decide
    exact hdivisors _ (Nat.le_of_dvd (by decide) hdvd) hdvd
  · intro elem len hk
    obtain ⟨e, he, rfl⟩ := shape_array hk hs
    exact ⟨e.layout, map_eq_ok.mpr ⟨e, he, rfl⟩, hstride he, by rw [Shape.layout]⟩
  · intro id members hk hm
    obtain ⟨members', shapes, rfl, hm', hoffsets, hall⟩ := shape_struct hk hs
    cases hm.symm.trans hm'
    exact ⟨_, hoffsets, arranges_of_shapes hr.bytewise hall⟩

def rowMembers : List Member :=
  [⟨"kind", .u8⟩, ⟨"cells", 14⟩, ⟨"count", .s32⟩, ⟨"next", 16⟩]

/-- A table with a struct of a byte, three `s16`, an `s32` and a pointer to such a struct. -/
def rows : TypeTable :=
  let t := (TypeTable.initial.intern (.array .s16 3)).1
  let t := (t.declareStruct "Row" .dummy).1
  let t := (t.intern (.ptr 15)).1
  t.completeStruct 0 rowMembers

private theorem rows_built : rows.Built := by
  refine .completeStruct (.intern (.declareStruct (.intern .initial ?_) _ _) ?_) ?_ ?_
  · exact .inr ⟨trivial, by decide +kernel⟩
  · exact .inr ⟨trivial, by decide +kernel⟩
  · decide +kernel
  · decide +kernel

/-- The members of a row stand at 0, 2, 8 and 16. -/
theorem layout_exact_rows :
    rows.layout 15 = .ok ⟨24, 8⟩ ∧ rows.Acyclic 15 ∧
      rows.memberOffsets 0 = .ok [0, 2, 8, 16] ∧
      rows.Arranges rowMembers [0, 2, 8, 16] ⟨24, 8⟩ := by
  have hlayout : rows.layout 15 = .ok ⟨24, 8⟩ := by decide +kernel
  have hnumbers : rows.memberOffsets 0 = .ok [0, 2, 8, 16] := by decide +kernel
  obtain ⟨-, -, hiff, hall⟩ := layout_exact rows_built (show rows.Has 15 by decide +kernel)
  obtain ⟨-, -, -, -, -, hstruct⟩ := hall _ hlayout
  obtain ⟨offsets, hoffsets, harranges⟩ :=
    hstruct 0 rowMembers (by decide +kernel) (by decide +kernel)
  cases hoffsets.symm.trans hnumbers
  exact ⟨hlayout, (hiff.mp ⟨_, hlayout⟩).1, hnumbers, harranges⟩

end TypeTable

end Comptime
