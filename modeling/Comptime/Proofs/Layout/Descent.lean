import Comptime.Proofs.Value.Parts
import Mathlib.Data.List.Count

/-!
# The walk over a type ends

The layout of a type is found by a walk over what it contains by value. Descriptors mention only what was
there before them, so such a walk can go on for ever only through structs, whose members are filled in
later; and a struct is entered only if the walk is not inside it already.

`TypeTable.Built` are the tables that can be put together from outside, `TypeTable.Descends` is one step
of a walk. In a table that was built every walk ends (`Ranked.wellFounded`), before its fuel does
(`Ranked.shapeAt_add`), so fuel plays no part in its result.
-/

namespace Comptime.TypeTable

/-- The tables that are built by interning descriptors and by declaring and completing structs and enums,
each time from what the table holds. A struct may be completed again, and an enum may stand over any
type. -/
inductive Built : TypeTable → Prop
  | initial : Built .initial
  | intern {t : TypeTable} {k : TypeKind} (before : Built t)
      (known : k ∈ primitives ∨ t.Builds k ∧ ∀ p ∈ k.parts, t.Has p) : Built (t.intern k).1
  | declareStruct {t : TypeTable} (before : Built t) (name : String) (span : Span) :
      Built (t.declareStruct name span).1
  | declareEnum {t : TypeTable} {base : TypeId} (before : Built t) (known : t.Has base) (name : String)
      (span : Span) : Built (t.declareEnum name base span).1
  | completeStruct {t : TypeTable} {id : StructId} {members : List Member} (before : Built t)
      (declared : t.structs.Has id) (known : ∀ m ∈ members, t.Has m.ty) :
      Built (t.completeStruct id members)
  | completeEnum {t : TypeTable} {id : EnumId} (before : Built t) (declared : t.enums.Has id)
      (variants : List (String × UInt64)) : Built (t.completeEnum id variants)

/-- Arrays and enums come after what they stand over, and all that is mentioned is there. -/
structure Ranked (t : TypeTable) : Prop where
  bytewise : t.Bytewise
  present : ∀ {ty}, t.Has ty → t.kind ty ≠ .missing
  elem : ∀ {ty elem len}, t.kind ty = .array elem len → elem.index < ty.index
  base : ∀ {ty id}, t.kind ty = .enum id → (t.enumDef id).base.index < ty.index
  bases : ∀ {id}, t.enums.Has id → t.Has (t.enumDef id).base
  enums : ∀ {ty id}, t.kind ty = .enum id → t.enums.Has id
  structs : ∀ {ty id}, t.kind ty = .struct id → t.structs.Has id
  members : ∀ {id ms}, (t.structDef id).members = some ms → ∀ m ∈ ms, t.Has m.ty

private theorem kind_initial {ty} (h : TypeTable.initial.Has ty) : TypeTable.initial.kind ty ∈ primitives := by
  refine List.mem_of_getElem? (i := ty.index) ?_
  rw [← get?_initial, get?_kind h]

private theorem bytewise_of_builds {t : TypeTable} {k : TypeKind} (h : k ∈ primitives ∨ t.Builds k) :
    k.bytewise = true := by
  rcases h with h | h
  · have hall : ∀ k ∈ primitives, k.bytewise = true := by decide
    exact hall k h
  · cases k with
    | int bits signed => exact h.elim
    | real bits => exact h.elim
    | _ => rfl

namespace Ranked

variable {t : TypeTable}

private theorem initial : TypeTable.initial.Ranked := by
  have hmissing : TypeKind.missing ∉ primitives := by decide
  have hprimitive {ty : TypeId} {k : TypeKind} (hk : TypeTable.initial.kind ty = k) (hn : k ≠ .missing) :
      k ∈ primitives := hk ▸ kind_initial (has_of_kind_ne (hk ▸ hn))
  refine ⟨by decide, fun hty hk => hmissing (hk ▸ kind_initial hty), fun hk => ?_, fun hk => ?_, fun hid => absurd hid (Nat.not_lt_zero _),
    fun hk => ?_, fun hk => ?_, fun hm => by cases hm⟩
  all_goals
    have hmem := hprimitive hk (by simp)
    simp [primitives] at hmem

private theorem add (hr : t.Ranked) {k : TypeKind} (hk : k ∈ primitives ∨ t.Builds k ∧ ∀ p ∈ k.parts, t.Has p) :
    (t.add k).Ranked := by
  -- what holds of the descriptors that were there and of the new one holds of all
  have hcases {a : TypeId} {k' : TypeKind} (h : (t.add k).kind a = k') :
      a = t.kinds.nextId ∧ k = k' ∨ t.kind a = k' := by
    rw [kind_add] at h
    split at h
    · next ha => exact .inl ⟨ha, h⟩
    · exact .inr h
  have hbuilds {k' : TypeKind} (hn : k' ∉ primitives) (h : k = k') : t.Builds k' ∧ ∀ p ∈ k'.parts, t.Has p :=
    h ▸ hk.resolve_left (h ▸ hn)
  refine ⟨?_, ?_, ?_, ?_, fun hid => (hr.bases hid).push k, ?_, ?_, fun hm m hmem => (hr.members hm m hmem).push k⟩
  · intro k' hk'
    simp only [TypeTable.add, Pool.toList, Pool.push, Array.toList_push, List.mem_append, List.mem_singleton] at hk'
    rcases hk' with hk' | rfl
    · exact hr.bytewise k' hk'
    · exact bytewise_of_builds (hk.imp_right And.left)
  · intro ty hty h
    rcases Pool.has_push.mp hty with hold | rfl
    · rw [kind_add, if_neg hold.ne_nextId] at h
      exact hr.present hold h
    · rw [kind_add, if_pos rfl] at h
      exact (hbuilds (by decide) h).1
  · intro ty elem len h
    rcases hcases h with ⟨rfl, hnew⟩ | hold
    · exact (hbuilds (by simp [primitives]) hnew).2 elem (by simp [TypeKind.parts])
    · exact hr.elem hold
  · intro ty id h
    rcases hcases h with ⟨rfl, hnew⟩ | hold
    · have hid : t.enums.Has id := (hbuilds (by simp [primitives]) hnew).1
      exact hr.bases hid
    · exact hr.base hold
  · intro ty id h
    rcases hcases h with ⟨-, hnew⟩ | hold
    · exact (hbuilds (by simp [primitives]) hnew).1
    · exact hr.enums hold
  · intro ty id h
    rcases hcases h with ⟨-, hnew⟩ | hold
    · exact (hbuilds (by simp [primitives]) hnew).1
    · exact hr.structs hold

theorem intern (hr : t.Ranked) {k} (hk : k ∈ primitives ∨ t.Builds k ∧ ∀ p ∈ k.parts, t.Has p) :
    (t.intern k).1.Ranked := by
  unfold TypeTable.intern
  split
  · exact hr
  · exact hr.add hk

theorem declareStruct (hr : t.Ranked) (name : String) (span) : (t.declareStruct name span).1.Ranked := by
  have hs : Ranked { t with structs := t.structs.push ⟨name, none, span⟩ } := by
    refine ⟨hr.bytewise, hr.present, hr.elem, hr.base, hr.bases, hr.enums, fun hk => (hr.structs hk).push _, ?_⟩
    intro id ms hms
    simp only [structDef, Pool.getD_push] at hms
    split at hms
    · cases hms
    · exact hr.members hms
  exact hs.intern (.inr ⟨t.structs.has_push_nextId _, by simp [TypeKind.parts]⟩)

private theorem declareEnum (hr : t.Ranked) {base} (hb : t.Has base) (name) (span) :
    (t.declareEnum name base span).1.Ranked := by
  have hdef (id : EnumId) :
      (enumDef { t with enums := t.enums.push ⟨name, base, none, span⟩ } id).base =
        if id = t.enums.nextId then base else (t.enumDef id).base := by
    simp only [enumDef, Pool.getD_push]
    split <;> rfl
  have hs : Ranked { t with enums := t.enums.push ⟨name, base, none, span⟩ } := by
    refine ⟨hr.bytewise, hr.present, hr.elem, fun {ty id} hk => ?_, fun {id} hid => ?_,
      fun hk => (hr.enums hk).push _, hr.structs, hr.members⟩
    · rw [hdef, if_neg (hr.enums hk).ne_nextId]
      exact hr.base hk
    · rw [hdef]
      split
      · exact hb
      · next hne => exact hr.bases ((Pool.has_push.mp hid).resolve_right hne)
  exact hs.intern (.inr ⟨t.enums.has_push_nextId _, by simp [TypeKind.parts]⟩)

private theorem completeStruct (hr : t.Ranked) {id members} (hm : ∀ m ∈ members, t.Has m.ty) :
    (t.completeStruct id members).Ranked := by
  refine ⟨hr.bytewise, hr.present, hr.elem, hr.base, hr.bases, hr.enums,
    fun hk => Pool.has_modify.mpr (hr.structs hk), fun hms => ?_⟩
  rcases members_completeStruct hms with ⟨-, rfl⟩ | ⟨-, hms⟩
  · exact hm
  · exact hr.members hms

private theorem completeEnum (hr : t.Ranked) (id variants) : (t.completeEnum id variants).Ranked := by
  refine ⟨hr.bytewise, hr.present, hr.elem, fun hk => ?_, fun hid => ?_,
    fun hk => Pool.has_modify.mpr (hr.enums hk), hr.structs, hr.members⟩
  · rw [base_completeEnum]
    exact hr.base hk
  · rw [base_completeEnum]
    exact hr.bases (Pool.has_modify.mp hid)

end Ranked

theorem Built.ranked {t : TypeTable} (h : t.Built) : t.Ranked := by
  induction h with
  | initial => exact .initial
  | intern _ known ih => exact ih.intern known
  | declareStruct _ name span ih => exact ih.declareStruct name span
  | declareEnum _ known name span ih => exact ih.declareEnum known name span
  | completeStruct _ _ known ih => exact ih.completeStruct known
  | completeEnum _ _ variants ih => exact ih.completeEnum _ variants

/-! ## Walks -/

/-- A walk that has come to a type inside some structs goes on with the first type, inside the structs
that stand before it. -/
inductive Descends (t : TypeTable) : List StructId × TypeId → List StructId × TypeId → Prop
  | elem {inside : List StructId} {ty elem : TypeId} {len : UInt64} (kind : t.kind ty = .array elem len) :
      Descends t (inside, elem) (inside, ty)
  | base {inside : List StructId} {ty : TypeId} {id : EnumId} (kind : t.kind ty = .enum id) :
      Descends t (inside, (t.enumDef id).base) (inside, ty)
  | member {inside : List StructId} {ty : TypeId} {id : StructId} {members : List Member} {m : Member}
      (kind : t.kind ty = .struct id) (new : id ∉ inside)
      (known : (t.structDef id).members = some members) (mem : m ∈ members) :
      Descends t (id :: inside, m.ty) (inside, ty)

def unvisited (t : TypeTable) (inside : List StructId) : Nat := t.structs.ids.countP (· ∉ inside)

/-- A bound on the number of steps that are left: the types before this one, and all of them again for
each struct that may be entered. -/
def rank (t : TypeTable) (w : List StructId × TypeId) : Nat :=
  t.unvisited w.1 * (t.size + 1) + w.2.index

variable {t : TypeTable} {inside : List StructId} {ty : TypeId}

private theorem unvisited_cons {id : StructId} (hid : t.structs.Has id) (hnew : id ∉ inside) :
    t.unvisited (id :: inside) < t.unvisited inside := by
  have hmem : id ∈ t.structs.ids := Pool.mem_ids.mpr hid
  obtain ⟨before, after, hsplit⟩ := List.append_of_mem hmem
  have hle (l : List StructId) :
      l.countP (fun i => i ∉ id :: inside) ≤ l.countP (fun i => i ∉ inside) := by
    apply List.countP_mono_left
    intro i _ hi
    simp only [List.mem_cons, not_or, decide_eq_true_eq] at hi ⊢
    exact hi.2
  have hgone : (id :: after).countP (fun i => i ∉ id :: inside) =
      after.countP (fun i => i ∉ id :: inside) := List.countP_cons_of_neg (by simp)
  have hcounted : (id :: after).countP (fun i => i ∉ inside) =
      after.countP (fun i => i ∉ inside) + 1 := List.countP_cons_of_pos (by simpa using hnew)
  have hbefore := hle before
  have hafter := hle after
  rw [unvisited, unvisited, hsplit, List.countP_append, List.countP_append, hgone, hcounted]
  omega

namespace Ranked

theorem rank_lt (hr : t.Ranked) {next current : List StructId × TypeId}
    (h : t.Descends next current) : t.rank next < t.rank current := by
  cases h with
  | elem kind => exact Nat.add_lt_add_left (hr.elem kind) _
  | base kind => exact Nat.add_lt_add_left (hr.base kind) _
  | @member inside ty id members m kind new known mem =>
    have hfewer := unvisited_cons (hr.structs kind) new
    have hlt : m.ty.index < t.size := hr.members known m mem
    have hmul := Nat.mul_le_mul_right (t.size + 1) hfewer
    rw [Nat.succ_mul] at hmul
    show t.unvisited (id :: inside) * (t.size + 1) + m.ty.index < t.unvisited inside * (t.size + 1) + ty.index
    omega

/-- The way down into a type ends. -/
theorem wellFounded (hr : t.Ranked) : WellFounded t.Descends :=
  Subrelation.wf hr.rank_lt (measure t.rank).wf

end Ranked

/-! ## Fuel -/

theorem memberShapes_congr {shapeOf shapeOf' : TypeId → Except LayoutError Shape} {members}
    (h : ∀ m ∈ members, shapeOf m.ty = shapeOf' m.ty) (offset) :
    memberShapes shapeOf offset members = memberShapes shapeOf' offset members := by
  induction members generalizing offset with
  | nil => rfl
  | cons m rest ih =>
    have hrest := ih fun m' hm' => h m' (List.mem_cons_of_mem m hm')
    simp only [memberShapes, h m List.mem_cons_self, hrest]

namespace Ranked

private theorem shapeAt_succ (hr : t.Ranked) {fuel} (hfuel : t.rank (inside, ty) < fuel) :
    t.shapeAt (fuel + 1) inside ty = t.shapeAt fuel inside ty := by
  induction fuel generalizing inside ty with
  | zero => omega
  | succ fuel ih =>
    have hstep {inside' : List StructId} {part : TypeId} (h : t.Descends (inside', part) (inside, ty)) :
        t.shapeAt (fuel + 1) inside' part = t.shapeAt fuel inside' part := by
      apply ih
      have hlt := hr.rank_lt h
      omega
    rw [shapeAt, shapeAt]
    cases hk : t.kind ty with
    | enum id =>
      dsimp only
      rw [hstep (.base hk)]
    | array elem len =>
      dsimp only
      rw [hstep (.elem hk)]
    | struct id =>
      dsimp only
      unfold structShapes
      split
      · rfl
      · next hin =>
        cases hm : (t.structDef id).members with
        | none => rfl
        | some members =>
          have hnew : id ∉ inside := by simpa using hin
          have hsame : ∀ m ∈ members, t.shapeAt (fuel + 1) (id :: inside) m.ty = t.shapeAt fuel (id :: inside) m.ty :=
            fun m hmem => hstep (.member hk hnew hm hmem)
          dsimp only
          rw [memberShapes_congr hsame]
    | _ => rfl

theorem shapeAt_add (hr : t.Ranked) {fuel} (hfuel : t.rank (inside, ty) < fuel) (more) :
    t.shapeAt (fuel + more) inside ty = t.shapeAt fuel inside ty := by
  induction more with
  | zero => rfl
  | succ more ih =>
    rw [← Nat.add_assoc, hr.shapeAt_succ (by omega), ih]

end Ranked

theorem rank_lt_shapeFuel (hty : t.Has ty) (inside) : t.rank (inside, ty) < t.shapeFuel := by
  have hcount : t.unvisited inside ≤ t.structs.size := by
    have hle := List.countP_le_length (p := fun i => decide (i ∉ inside)) (l := t.structs.ids)
    simpa [unvisited, Pool.ids, Pool.size] using hle
  have hlt : ty.index < t.size := hty
  have hmul := Nat.mul_le_mul_right (t.size + 1) hcount
  show t.unvisited inside * (t.size + 1) + ty.index < (t.structs.size + 1) * (t.size + 1)
  rw [Nat.succ_mul]
  omega

end Comptime.TypeTable
