import Comptime.Proofs.Type.Proper

/-!
# Growing type tables

What is found out about a type of a proper table stays true while the table grows: whether it is an
integer, what converts into it and by which cast. The second half goes through all that a session
does to its table and shows that it grows and stays proper.
-/

namespace Comptime

/-- Whether every declaration makes a type of its own. -/
def TypeKind.isNominal : TypeKind → Bool
  | .struct _ | .enum _ => true
  | _ => false

/-- Whether the type is known by the types that it is made of. -/
def TypeKind.isDerived : TypeKind → Bool
  | .ptr _ | .array .. | .slice _ | .fn .. => true
  | _ => false

namespace TypeTable

/-! ## What stays true -/

namespace Widens

variable {t t' : TypeTable} (g : t.Widens t') {ty : TypeId}

include g

theorem kind_of_ne {k} (hk : t.kind ty = k) (hn : k ≠ .missing) : t'.kind ty = k := by
  subst hk
  exact g.kind (has_of_kind_ne hn)

theorem knows (h : t.Knows ty) : t'.Knows ty := h.imp_left g.has

theorem builds {k} (hk : t.Builds k) : t'.Builds k := by
  cases k with
  | ptr | array | slice | fn => trivial
  | struct id => exact g.structs hk
  | enum id => exact g.enums hk
  | _ => exact hk.elim

theorem intInfo (hp : t.Proper) (h : t.Has ty) : t'.intInfo ty = t.intInfo ty := by
  obtain ⟨n, hn⟩ : ∃ n, t'.size = n + 1 :=
    ⟨t'.size - 1, by have := g.size; have := hp.two_le_size; omega⟩
  have hk := g.kind h
  cases hty : t.kind ty
  case enum id =>
    -- the walk goes on at the type that the enum stands over, and ends there
    rw [hty] at hk
    obtain ⟨bits, signed, hb, hi⟩ := hp.intInfo_enum hty
    have hbase := g.base (hp.has_enum hty)
    have hb' := g.kind_of_ne hb (by simp)
    rw [hi]
    simp [TypeTable.intInfo, hn, intInfoAt, hk, hbase, hb']
  all_goals
    rw [hty] at hk
    simp only [TypeTable.intInfo, intInfoAt, hty, hk]

theorem isInt (h : t.Has ty) : t'.isInt ty = t.isInt ty := by
  simp only [TypeTable.isInt, g.kind h]

theorem isReal (h : t.Has ty) : t'.isReal ty = t.isReal ty := by
  simp only [TypeTable.isReal, g.kind h]

theorem isPtr (h : t.Has ty) : t'.isPtr ty = t.isPtr ty := by
  simp only [TypeTable.isPtr, g.kind h]

theorem intInfo_eq_some (hp : t.Proper) {i} (hi : t.intInfo ty = some i) : t'.intInfo ty = some i := by
  have hty : t.Has ty := by
    apply has_of_kind_ne
    rcases TypeTable.intInfo_eq_some hi with hk | ⟨id, hk⟩ <;> simp [hk]
  rw [g.intInfo hp hty, hi]

theorem castOp (hp : t.Proper) {a b op} (h : t.castOp a b = some op) : t'.castOp a b = some op := by
  by_cases hab : a = b
  · simpa [TypeTable.castOp, hab] using h
  -- a type that is missing is cast into itself only
  have hinfo {c : TypeId} (hc : t.kind c = .missing) : t.intInfo c = none := by
    simp [TypeTable.intInfo, intInfoAt, hc]
  have ha : t.Has a := has_of_kind_ne fun hk => by simp [TypeTable.castOp, hab, hk, hinfo hk] at h
  have hb : t.Has b := has_of_kind_ne fun hk => by simp [TypeTable.castOp, hab, hk, hinfo hk] at h
  rw [← h]
  simp only [TypeTable.castOp, g.intInfo hp ha, g.intInfo hp hb, g.kind ha, g.kind hb]

theorem canonicalAt (hp : t.Proper) {w} (h : t.Has ty) (hw : t.CanonicalAt ty w) : t'.CanonicalAt ty w := by
  intro bits signed hi
  exact hw bits signed (g.intInfo hp h ▸ hi)

end Widens

/-! ## Interning -/

section

variable (t : TypeTable) (k : TypeKind)

private theorem add_grows : t.Grows (t.add k) where
  size := by simp [size, add]
  has h := h.push k
  kind h := Pool.getD_push_of_has h k _
  structs h := h
  members h := h
  enums h := h
  base _ := rfl

theorem intern_grows : t.Grows (t.intern k).1 := by
  unfold intern
  split
  · exact .refl t
  · exact t.add_grows k

variable {t k}

theorem kind_add (a) : (t.add k).kind a = if a = t.kinds.nextId then k else t.kind a := Pool.getD_push ..

theorem Indexed.find?_eq_some (h : t.Indexed) {ty} : t.find? k = some ty ↔ t.Has ty ∧ t.kind ty = k := by
  rw [h.cached]
  constructor
  · intro hget
    exact ⟨Pool.has_of_get?_eq_some hget, by rw [kind, Pool.getD, hget]; rfl⟩
  · rintro ⟨hty, rfl⟩
    exact get?_kind hty

theorem Indexed.kind_ne (h : t.Indexed) (hf : t.find? k = none) {a} (ha : t.Has a) : t.kind a ≠ k := by
  intro hk
  rw [h.find?_eq_some.mpr ⟨ha, hk⟩] at hf
  cases hf

theorem Indexed.intern_spec (h : t.Indexed) (k) : (t.intern k).1.Has (t.intern k).2 ∧ (t.intern k).1.kind (t.intern k).2 = k := by
  unfold TypeTable.intern
  split
  · next ty hf => exact h.find?_eq_some.mp hf
  · exact ⟨t.kinds.has_push_nextId k, by rw [kind_add, if_pos rfl]⟩

theorem Interned.ofSameKinds {t' : TypeTable} (h : t.Interned) (hk : t'.kinds = t.kinds) : t'.Interned := by
  obtain ⟨kinds, cache, structs, enums⟩ := t'
  cases hk
  exact ⟨h.primitive, h.distinct⟩

theorem Indexed.ofSameKinds {t' : TypeTable} (h : t.Indexed) (hk : t'.kinds = t.kinds) (hc : t'.cache = t.cache) :
    t'.Indexed :=
  ⟨h.toInterned.ofSameKinds hk, fun {k ty} => by rw [find?, hk, hc]; exact h.cached⟩

/-- The descriptor that is entered is found at its new id, and nothing else is found elsewhere than before. -/
theorem cached_add (h : ∀ {k ty}, t.find? k = some ty ↔ t.kinds.get? ty = some k) (hf : t.find? k = none) {k' ty} :
    (t.add k).find? k' = some ty ↔ (t.add k).kinds.get? ty = some k' := by
  have hnew : t.kinds.get? t.kinds.nextId = none := Pool.get?_eq_none_iff.mpr t.kinds.not_has_nextId
  have hget : (t.add k).kinds.get? ty = if ty = t.kinds.nextId then some k else t.kinds.get? ty := Pool.get?_push ..
  rw [hget]
  by_cases hk : k' = k
  · subst hk
    have hfind : (t.add k').find? k' = some t.kinds.nextId := by simp [find?, add]
    rw [hfind]
    split
    · next hty => simp [hty]
    · next hty => simp [← h, hf, Ne.symm hty]
  · have hfind : (t.add k).find? k' = t.find? k' := by simp [find?, add, List.lookup_cons, beq_false_of_ne hk]
    rw [hfind]
    split
    · next hty => simp [h, hty, hnew, Ne.symm hk]
    · exact h

theorem Indexed.add (h : t.Indexed) (hf : t.find? k = none) : (t.add k).Indexed := by
  refine ⟨⟨fun i k' hi => ?_, fun a b ha hb hab => ?_⟩, cached_add h.cached hf⟩
  · have hold := h.primitive i k' hi
    have hne : (⟨i⟩ : TypeId) ≠ t.kinds.nextId := Pool.Has.ne_nextId (Pool.has_of_get?_eq_some hold)
    change (t.kinds.push k).get? ⟨i⟩ = _
    rw [Pool.get?_push, if_neg hne, hold]
  · rw [kind_add, kind_add] at hab
    rcases Pool.has_push.mp ha with ha | rfl <;> rcases Pool.has_push.mp hb with hb | rfl
    · rw [if_neg ha.ne_nextId, if_neg hb.ne_nextId] at hab
      exact h.distinct a b ha hb hab
    · rw [if_neg ha.ne_nextId, if_pos rfl] at hab
      exact absurd hab (h.kind_ne hf ha)
    · rw [if_pos rfl, if_neg hb.ne_nextId] at hab
      exact absurd hab.symm (h.kind_ne hf hb)
    · rfl

theorem Indexed.intern (h : t.Indexed) (k) : (t.intern k).1.Indexed := by
  unfold TypeTable.intern
  split
  · exact h
  · next hf => exact h.add hf

theorem Proper.intern (hp : t.Proper) (hk : t.Builds k) : (t.intern k).1.Proper := by
  have hindexed := hp.toIndexed.intern k
  have g := intern_grows t k
  unfold TypeTable.intern at g hindexed ⊢
  cases hf : t.find? k with
  | some ty => exact hp
  | none =>
    simp only [hf] at g hindexed ⊢
    refine ⟨hindexed, fun a ha => ?_, fun id hid => (g.isInt (hp.has_base hid)).trans (hp.base id hid)⟩
    rw [kind_add]
    rcases Pool.has_push.mp ha with ha | rfl
    · rw [if_neg ha.ne_nextId]
      exact (hp.built a ha).imp_right g.builds
    · rw [if_pos rfl]
      exact .inr (g.builds hk)

theorem Named.intern (h : t.Named) (hp : t.Proper) (hk : ∀ p ∈ k.parts, t.Knows p) : (t.intern k).1.Named := by
  have g := (intern_grows t k).toWidens
  unfold TypeTable.intern at g ⊢
  cases hf : t.find? k with
  | some ty => exact h
  | none =>
    simp only [hf] at g ⊢
    refine ⟨fun {a p} hm => ?_, fun hms m hm => g.knows (h.members hms m hm), fun {id vs} hvs v hv => ?_⟩
    · rw [kind_add] at hm
      split at hm
      · exact g.knows (hk p hm)
      · exact g.knows (h.parts hm)
    · exact g.canonicalAt hp (hp.has_base (has_of_variants hvs)) (h.variants hvs v hv)

end

/-! ## Structs and enums

Declaring and completing structs and enums leaves the descriptors alone, but for the one of the new
type, which is interned last. -/

section

variable {t t' : TypeTable} {id : StructId}

theorem Proper.ofSameKinds (hp : t.Proper) (g : t.Widens t') (hk : t'.kinds = t.kinds) (hc : t'.cache = t.cache)
    (base : ∀ id, t'.enums.Has id → t.isInt (t'.enumDef id).base = true) : t'.Proper := by
  have hkind (a : TypeId) : t'.kind a = t.kind a := by rw [kind, hk, kind]
  refine ⟨hp.toIndexed.ofSameKinds hk hc, fun a ha => ?_, fun id hid => ?_⟩
  · rw [Has, hk] at ha
    rw [hkind]
    exact (hp.built a ha).imp_right g.builds
  · rw [isInt, hkind]
    exact base id hid

theorem Named.ofSameKinds (h : t.Named) (hp : t.Proper) (g : t.Widens t') (hk : t'.kinds = t.kinds)
    (members : ∀ {id ms}, (t'.structDef id).members = some ms →
      (t.structDef id).members = some ms ∨ ∀ m ∈ ms, t.Knows m.ty)
    (variants : ∀ {id vs}, (t'.enumDef id).variants = some vs → (t.enumDef id).variants = some vs ∨
      ∀ v ∈ vs, t.CanonicalAt (t.enumDef id).base v.2)
    (old : ∀ {id vs}, (t'.enumDef id).variants = some vs → t.enums.Has id) : t'.Named where
  parts {a p} hp := by
    rw [kind, hk] at hp
    exact g.knows (h.parts hp)
  members {id ms} hms m hm := by
    rcases members hms with hold | hnew
    · exact g.knows (h.members hold m hm)
    · exact g.knows (hnew m hm)
  variants {id vs} hvs v hv := by
    have hid := old hvs
    rw [g.base hid]
    refine g.canonicalAt hp (hp.has_base hid) ?_
    rcases variants hvs with hold | hnew
    · exact h.variants hold v hv
    · exact hnew v hv

theorem Proper.find?_eq_none (hp : t.Proper) {k} (hm : k ≠ .missing) (hk : k ∉ primitives) (hb : ¬ t.Builds k) :
    t.find? k = none := by
  refine Option.eq_none_iff_forall_ne_some.mpr fun ty hty => hb ?_
  exact (hp.builds (hp.find?_eq_some.mp hty).2 hm).resolve_left hk

theorem pushStruct_grows (d : StructDef) : t.Grows { t with structs := t.structs.push d } where
  size := Nat.le_refl _
  has := id
  kind := fun _ => rfl
  structs := fun h => h.push d
  members := fun {id ms} h => by
    have hid : t.structs.Has id := has_of_members h
    exact (congrArg StructDef.members (Pool.getD_push_of_has hid d _)).trans h
  enums := id
  base := fun _ => rfl

theorem declareStruct_grows (name) (span) : t.Grows (t.declareStruct name span).1 :=
  (pushStruct_grows ⟨name, none, span⟩).trans (intern_grows ..)

/-- The type of a new struct is new. -/
theorem Proper.declareStruct_eq (hp : t.Proper) (name : String) (span) : t.declareStruct name span =
    (TypeTable.add { t with structs := t.structs.push ⟨name, none, span⟩ } (.struct t.structs.nextId), t.structs.nextId,
      t.kinds.nextId) := by
  have hfind : TypeTable.find? { t with structs := t.structs.push ⟨name, none, span⟩ } (.struct t.structs.nextId) = none :=
    hp.find?_eq_none (by simp) (by simp [primitives]) (Nat.lt_irrefl _)
  simp only [TypeTable.declareStruct, TypeTable.intern, hfind]

theorem Proper.declareStruct (hp : t.Proper) (name : String) (span) : (t.declareStruct name span).1.Proper :=
  have hs : TypeTable.Proper { t with structs := t.structs.push ⟨name, none, span⟩ } :=
    hp.ofSameKinds (pushStruct_grows _).toWidens rfl rfl hp.base
  hs.intern (t.structs.has_push_nextId _)

theorem Named.declareStruct (h : t.Named) (hp : t.Proper) (name : String) (span) :
    (t.declareStruct name span).1.Named := by
  have hs : TypeTable.Named { t with structs := t.structs.push ⟨name, none, span⟩ } :=
    h.ofSameKinds hp (pushStruct_grows _).toWidens rfl (fun hms => .inl (Pool.view_of_push StructDef.members rfl hms)) .inl has_of_variants
  refine hs.intern ?_ (fun p hm => by cases hm)
  exact hp.ofSameKinds (pushStruct_grows _).toWidens rfl rfl hp.base

theorem completeStruct_widens (id : StructId) (members : List Member) : t.Widens (t.completeStruct id members) where
  size := Nat.le_refl _
  has := fun h => h
  kind := fun _ => rfl
  structs := Pool.has_modify.mpr
  enums := fun h => h
  base := fun _ => rfl

theorem Grows.completeStruct (g : t.Grows t') (hn : (t.structDef id).members = none) (members : List Member) :
    t.Grows (t'.completeStruct id members) where
  toWidens := g.toWidens.trans (completeStruct_widens id members)
  members := fun {j ms} h => by
    have hj : j ≠ id := by
      rintro rfl
      rw [hn] at h
      cases h
    exact (congrArg StructDef.members (Pool.getD_modify_of_ne hj _ _)).trans (g.members h)

theorem members_completeStruct {members j ms} (h : ((t.completeStruct id members).structDef j).members = some ms) :
    j = id ∧ ms = members ∨ j ≠ id ∧ (t.structDef j).members = some ms := by
  have hh : t.structs.Has j := Pool.has_modify.mp (has_of_members h)
  by_cases hj : j = id
  · subst hj
    simp only [structDef, completeStruct, Pool.getD_modify_self hh] at h
    cases h
    exact .inl ⟨rfl, rfl⟩
  · simp only [structDef, completeStruct, Pool.getD_modify_of_ne hj] at h
    exact .inr ⟨hj, h⟩

theorem Proper.completeStruct (hp : t.Proper) (id members) : (t.completeStruct id members).Proper :=
  hp.ofSameKinds (completeStruct_widens id members) rfl rfl hp.base

theorem Named.completeStruct (h : t.Named) (hp : t.Proper) {id members} (hm : ∀ m ∈ members, t.Knows m.ty) :
    (t.completeStruct id members).Named := by
  refine h.ofSameKinds hp (completeStruct_widens id members) rfl (fun hms => ?_) .inl has_of_variants
  rcases members_completeStruct hms with ⟨-, rfl⟩ | ⟨-, hms⟩
  · exact .inr hm
  · exact .inl hms

theorem pushEnum_grows (d : EnumDef) : t.Grows { t with enums := t.enums.push d } where
  size := Nat.le_refl _
  has := id
  kind := fun _ => rfl
  structs := id
  members := id
  enums := fun h => h.push d
  base := fun h => congrArg EnumDef.base (Pool.getD_push_of_has h d _)

theorem declareEnum_grows (name) (base span) : t.Grows (t.declareEnum name base span).1 :=
  (pushEnum_grows ⟨name, base, none, span⟩).trans (intern_grows ..)

theorem Proper.pushEnum (hp : t.Proper) {d : EnumDef} (hb : t.isInt d.base = true) :
    TypeTable.Proper { t with enums := t.enums.push d } := by
  refine hp.ofSameKinds (pushEnum_grows _).toWidens rfl rfl fun id hid => ?_
  simp only [enumDef, Pool.getD_push]
  split
  · exact hb
  · next hne => exact hp.base id ((Pool.has_push.mp hid).resolve_right hne)

theorem Proper.declareEnum_eq (hp : t.Proper) (name : String) (base span) : t.declareEnum name base span =
    (TypeTable.add { t with enums := t.enums.push ⟨name, base, none, span⟩ } (.enum t.enums.nextId), t.enums.nextId,
      t.kinds.nextId) := by
  have hfind : TypeTable.find? { t with enums := t.enums.push ⟨name, base, none, span⟩ } (.enum t.enums.nextId) = none :=
    hp.find?_eq_none (by simp) (by simp [primitives]) (Nat.lt_irrefl _)
  simp only [TypeTable.declareEnum, TypeTable.intern, hfind]

theorem Proper.declareEnum (hp : t.Proper) (name) {base} (span) (hb : t.isInt base = true) :
    (t.declareEnum name base span).1.Proper :=
  (hp.pushEnum (d := ⟨name, base, none, span⟩) hb).intern (t.enums.has_push_nextId _)

theorem Named.declareEnum (h : t.Named) (hp : t.Proper) (name) {base} (span) (hb : t.isInt base = true) :
    (t.declareEnum name base span).1.Named := by
  have hs : TypeTable.Named { t with enums := t.enums.push ⟨name, base, none, span⟩ } :=
    h.ofSameKinds hp (pushEnum_grows _).toWidens rfl .inl (fun hvs => .inl (Pool.view_of_push EnumDef.variants rfl hvs))
      fun hvs => has_of_variants (Pool.view_of_push EnumDef.variants rfl hvs)
  exact hs.intern (hp.pushEnum hb) fun p hm => by cases hm

theorem base_completeEnum (id variants j) : ((t.completeEnum id variants).enumDef j).base = (t.enumDef j).base := by
  refine Pool.view_modify EnumDef.base ?_ t.enums id j default
  exact fun _ => rfl

theorem completeEnum_grows (id : EnumId) (variants : List (String × UInt64)) :
    t.Grows (t.completeEnum id variants) where
  size := Nat.le_refl _
  has := fun h => h
  kind := fun _ => rfl
  structs := fun h => h
  members := fun h => h
  enums := Pool.has_modify.mpr
  base := fun {j} _ => base_completeEnum id variants j

theorem Proper.completeEnum (hp : t.Proper) (id variants) : (t.completeEnum id variants).Proper := by
  refine hp.ofSameKinds (completeEnum_grows id variants).toWidens rfl rfl fun j hj => ?_
  rw [base_completeEnum]
  exact hp.base j (Pool.has_modify.mp hj)

theorem Named.completeEnum (h : t.Named) (hp : t.Proper) {id variants}
    (hv : ∀ v ∈ variants, t.CanonicalAt (t.enumDef id).base v.2) : (t.completeEnum id variants).Named := by
  have hold {j vs} (hvs : ((t.completeEnum id variants).enumDef j).variants = some vs) : t.enums.Has j :=
    Pool.has_modify.mp (has_of_variants hvs)
  refine h.ofSameKinds hp (completeEnum_grows id variants).toWidens rfl .inl (fun {j vs} hvs => ?_) hold
  have hh := hold hvs
  by_cases hj : j = id
  · subst hj
    simp only [enumDef, TypeTable.completeEnum, Pool.getD_modify_self hh] at hvs
    cases hvs
    exact .inr hv
  · simp only [enumDef, TypeTable.completeEnum, Pool.getD_modify_of_ne hj] at hvs
    exact .inl hvs

end

/-! ## Types that are declared

Every declaration of a struct or an enum makes a new type. The descriptors of other types are interned. -/

/-- The types that have been declared. -/
def nominals (t : TypeTable) : List TypeId := t.kinds.ids.filter fun ty => (t.kind ty).isNominal

/-- Types have been added, but none of numbers. -/
structure Enlarges (t t' : TypeTable) : Prop extends t.Widens t' where
  numeric {ty : TypeId} : t'.isNumeric ty = true → t.isNumeric ty = true

/-- Types have been added, but none has been declared. -/
structure Refines (t t' : TypeTable) : Prop extends t.Enlarges t' where
  proper : t.Proper → t'.Proper
  nominals : t'.nominals = t.nominals

theorem Enlarges.trans {t t' t'' : TypeTable} (h : t.Enlarges t') (h' : t'.Enlarges t'') : t.Enlarges t'' :=
  ⟨h.toWidens.trans h'.toWidens, fun hty => h.numeric (h'.numeric hty)⟩

theorem Refines.refl (t : TypeTable) : t.Refines t := ⟨⟨.refl t, id⟩, id, rfl⟩

section

variable {t : TypeTable} {k : TypeKind}

theorem intern_enlarges (hk : k.isDerived = true ∨ k.isNominal = true) : t.Enlarges (t.intern k).1 := by
  refine ⟨(intern_grows t k).toWidens, fun {ty} h => ?_⟩
  unfold TypeTable.intern at h
  split at h
  · exact h
  · by_cases hty : ty = t.kinds.nextId
    · rw [isNumeric, isInt, isReal, kind_add, if_pos hty] at h
      cases k <;> first | simp [TypeKind.isDerived, TypeKind.isNominal] at hk; done | cases h
    · rwa [isNumeric, isInt, isReal, kind_add, if_neg hty] at h

theorem declareStruct_enlarges (name) (span) : t.Enlarges (t.declareStruct name span).1 :=
  .trans ⟨(pushStruct_grows ⟨name, none, span⟩).toWidens, id⟩ (intern_enlarges (.inr rfl))

theorem declareEnum_enlarges (name) (base span) : t.Enlarges (t.declareEnum name base span).1 :=
  .trans ⟨(pushEnum_grows ⟨name, base, none, span⟩).toWidens, id⟩ (intern_enlarges (.inr rfl))

theorem nominals_add : (t.add k).nominals = t.nominals ++ if k.isNominal then [t.kinds.nextId] else [] := by
  have hold : t.kinds.ids.filter (fun ty => ((t.add k).kind ty).isNominal) = t.nominals := by
    refine List.filter_congr fun ty hty => ?_
    rw [kind_add, if_neg (Pool.mem_ids.mp hty).ne_nextId]
  have hnew : (t.add k).kind t.kinds.nextId = k := by rw [kind_add, if_pos rfl]
  show (t.kinds.push k).ids.filter _ = _
  rw [Pool.ids_push, List.filter_append, hold, List.filter_cons, hnew, List.filter_nil]

theorem intern_refines (hk : k.isDerived = true) : t.Refines (t.intern k).1 := by
  refine ⟨intern_enlarges (.inl hk), fun hp => hp.intern ?_, ?_⟩
  · cases k with
    | ptr | array | slice | fn => trivial
    | _ => cases hk
  · unfold TypeTable.intern
    split
    · rfl
    · rw [nominals_add]
      cases k with
      | ptr | array | slice | fn => exact List.append_nil _
      | _ => cases hk

theorem completeStruct_refines (id members) : t.Refines (t.completeStruct id members) :=
  ⟨⟨completeStruct_widens id members, fun h => h⟩, fun hp => hp.completeStruct id members, rfl⟩

theorem completeEnum_refines (id variants) : t.Refines (t.completeEnum id variants) :=
  ⟨⟨(completeEnum_grows id variants).toWidens, fun h => h⟩, fun hp => hp.completeEnum id variants, rfl⟩

theorem Proper.nominals_declareStruct (hp : t.Proper) (name : String) (span) :
    (t.declareStruct name span).1.nominals = t.nominals ++ [(t.declareStruct name span).2.2] := by
  rw [hp.declareStruct_eq name span]
  exact nominals_add

theorem Proper.nominals_declareEnum (hp : t.Proper) (name : String) (base span) :
    (t.declareEnum name base span).1.nominals = t.nominals ++ [(t.declareEnum name base span).2.2] := by
  rw [hp.declareEnum_eq name base span]
  exact nominals_add

end

/-! ## The first table -/

/-- The descriptors that are entered into the empty table stand there in order. -/
private theorem foldl_intern {t : TypeTable} {ks : List TypeKind} (hnodup : (t.kinds.toList ++ ks).Nodup)
    (hc : ∀ {k ty}, t.find? k = some ty ↔ t.kinds.get? ty = some k) :
    let t' := ks.foldl (fun t k => (t.intern k).1) t
    t'.kinds.toList = t.kinds.toList ++ ks ∧ (∀ {k ty}, t'.find? k = some ty ↔ t'.kinds.get? ty = some k) ∧
      t'.structs = t.structs ∧ t'.enums = t.enums := by
  induction ks generalizing t with
  | nil => exact ⟨by simp, hc, rfl, rfl⟩
  | cons k ks ih =>
    have hf : t.find? k = none := by
      refine Option.eq_none_iff_forall_ne_some.mpr fun ty hty => ?_
      have hmem : k ∈ t.kinds.toList := by
        simpa [Pool.toList] using Array.mem_of_getElem? (hc.mp hty)
      exact (List.nodup_append.mp hnodup).2.2 k hmem k List.mem_cons_self rfl
    have hadd : (t.intern k).1 = t.add k := by rw [TypeTable.intern, hf]
    have hkinds : (t.add k).kinds.toList = t.kinds.toList ++ [k] := by simp [add, Pool.toList, Pool.push]
    rw [List.foldl_cons, hadd]
    obtain ⟨hlist, hcached, hstructs, henums⟩ := ih (by rw [hkinds]; simpa using hnodup) (cached_add hc hf)
    exact ⟨by rw [hlist, hkinds]; simp, hcached, hstructs, henums⟩

theorem initial_spec : initial.kinds.toList = primitives ∧
    (∀ {k ty}, initial.find? k = some ty ↔ initial.kinds.get? ty = some k) ∧ initial.structs = .empty ∧
      initial.enums = .empty := by
  have hnodup : (empty.kinds.toList ++ primitives).Nodup := by decide
  obtain ⟨hkinds, hrest⟩ := foldl_intern hnodup (by simp [find?, empty, Pool.get?, Pool.empty])
  exact ⟨hkinds.trans (List.nil_append _), hrest⟩

theorem get?_initial (ty : TypeId) : initial.kinds.get? ty = primitives[ty.index]? := by
  rw [← initial_spec.1, Pool.get?, Pool.toList, Array.getElem?_toList]

theorem nominals_initial : initial.nominals = [] := by
  refine List.filter_eq_nil_iff.mpr fun ty hty => ?_
  have hnone : ∀ k ∈ primitives, k.isNominal = false := by decide
  have hmem : initial.kind ty ∈ primitives :=
    List.mem_of_getElem? (i := ty.index) (by rw [← get?_initial, get?_kind (Pool.mem_ids.mp hty)])
  simp [hnone _ hmem]

theorem Proper.initial : TypeTable.initial.Proper where
  primitive i k hi := by rw [get?_initial, hi]
  distinct a b ha hb hab := by
    have hnodup : primitives.Nodup := by decide
    have hget {c : TypeId} (hc : TypeTable.initial.Has c) :
        primitives[c.index]? = some (TypeTable.initial.kind c) := by
      rw [← get?_initial, get?_kind hc]
    have hlt : a.index < primitives.length := (List.getElem?_eq_some_iff.mp (hget ha)).1
    exact Id.ext ((List.getElem?_inj hlt hnodup).mp ((hget ha).trans (hab ▸ (hget hb).symm)))
  cached := initial_spec.2.1
  built a ha := by
    refine .inl (List.mem_of_getElem? (i := a.index) ?_)
    rw [← get?_initial, get?_kind ha]
  base id h := by
    rw [initial_spec.2.2.2] at h
    exact absurd h (Nat.not_lt_zero _)

theorem Named.initial : TypeTable.initial.Named where
  parts {a p} hp := by
    have hnone : ∀ k ∈ primitives, k.parts = [] := by decide
    by_cases ha : TypeTable.initial.Has a
    · have hmem : TypeTable.initial.kind a ∈ primitives :=
        List.mem_of_getElem? (i := a.index) (by rw [← get?_initial, get?_kind ha])
      rw [hnone _ hmem] at hp
      cases hp
    · rw [kind, Pool.getD_of_not_has ha] at hp
      cases hp
  members {id ms} h := by
    rw [structDef, initial_spec.2.2.1] at h
    cases h
  variants {id vs} h := by
    rw [enumDef, initial_spec.2.2.2] at h
    cases h

end TypeTable

end Comptime
