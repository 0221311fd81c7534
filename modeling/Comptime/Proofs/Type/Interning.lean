import Comptime.Proofs.Type.Growth

/-!
# Interning

`TypeTable.Call` are the calls that create types or fill them in, with any arguments. Whatever calls a
table has seen, its ids and its descriptors correspond one to one, and they keep doing so.

Main result: `interning_bijective`.
-/

namespace Comptime.TypeTable

/-- A call that creates a type, or tells the members of a struct or the variants of an enum. -/
inductive Call where
  | intern (k : TypeKind)
  | ptr (target : TypeId)
  | slice (elem : TypeId)
  | array (elem : TypeId) (len : UInt64)
  | function (params : List TypeId) (ret : TypeId)
  | declareStruct (name : String) (span : Span)
  | completeStruct (id : StructId) (members : List Member)
  | declareEnum (name : String) (base : TypeId) (span : Span)
  | completeEnum (id : EnumId) (variants : List (String × UInt64))

namespace Call

/-- The table after a call and the type that is handed out. -/
def run (t : TypeTable) : Call → TypeTable × Option TypeId
  | intern k => (t.intern k).map id some
  | ptr target => (t.ptr target).map id some
  | slice elem => (t.slice elem).map id some
  | array elem len => (t.array elem len).map id some
  | function params ret => (t.function params ret).map id some
  | declareStruct name span => (t.declareStruct name span).map id fun r => some r.2
  | completeStruct id members => (t.completeStruct id members, none)
  | declareEnum name base span => (t.declareEnum name base span).map id fun r => some r.2
  | completeEnum id variants => (t.completeEnum id variants, none)

/-- The descriptor of the type that is handed out. -/
def descriptor? (t : TypeTable) : Call → Option TypeKind
  | intern k => some k
  | ptr target => some (.ptr target)
  | slice elem => some (.slice elem)
  | array elem len => some (.array elem len)
  | function params ret => some (.fn params ret)
  | declareStruct _ _ => some (.struct t.structs.nextId)
  | declareEnum _ _ _ => some (.enum t.enums.nextId)
  | completeStruct _ _ | completeEnum _ _ => none

end Call

/-- The table after some calls. -/
def runs (t : TypeTable) (calls : List Call) : TypeTable := calls.foldl (fun t c => (c.run t).1) t

/-- The predefined types. -/
def predefined : List (TypeKind × TypeId) :=
  [(.void, .void), (.bool, .bool), (.int 8 true, .s8), (.int 16 true, .s16), (.int 32 true, .s32),
    (.int 64 true, .s64), (.int 8 false, .u8), (.int 16 false, .u16), (.int 32 false, .u32),
    (.int 64 false, .u64), (.real 32, .f32), (.real 64, .f64), (.type, .type), (.null, .null)]

variable {t t' : TypeTable} {k : TypeKind} {ty : TypeId}

/-! ## One call -/

theorem intern_of_find? (hf : t.find? k = some ty) : t.intern k = (t, ty) := by
  rw [intern, hf]

theorem intern_of_unknown (hf : t.find? k = none) : t.intern k = (t.add k, t.kinds.nextId) := by
  rw [intern, hf]

/-- Interning looks at the cache and the descriptors only. -/
private theorem intern_congr (t : TypeTable) (k structs enums) :
    (TypeTable.intern ⟨t.kinds, t.cache, structs, enums⟩ k).1.kinds = (t.intern k).1.kinds ∧
      (TypeTable.intern ⟨t.kinds, t.cache, structs, enums⟩ k).1.cache = (t.intern k).1.cache ∧
      (TypeTable.intern ⟨t.kinds, t.cache, structs, enums⟩ k).2 = (t.intern k).2 := by
  cases hf : t.find? k with
  | some ty =>
    rw [intern_of_find? hf, intern_of_find? (t := ⟨t.kinds, t.cache, structs, enums⟩) hf]
    exact ⟨rfl, rfl, rfl⟩
  | none =>
    rw [intern_of_unknown hf, intern_of_unknown (t := ⟨t.kinds, t.cache, structs, enums⟩) hf]
    exact ⟨rfl, rfl, rfl⟩

namespace Call

variable (c : Call)

/-- A call that hands out a type interns its descriptor, and the others leave descriptors and cache alone. -/
theorem run_spec :
    (c.descriptor? t = none ∧ (c.run t).1.kinds = t.kinds ∧ (c.run t).1.cache = t.cache ∧ (c.run t).2 = none) ∨
    ∃ k, c.descriptor? t = some k ∧ (c.run t).1.kinds = (t.intern k).1.kinds ∧
      (c.run t).1.cache = (t.intern k).1.cache ∧ (c.run t).2 = some (t.intern k).2 := by
  cases c with
  | completeStruct | completeEnum => exact .inl ⟨rfl, rfl, rfl, rfl⟩
  | declareStruct | declareEnum =>
    -- the definition is registered first, and the interning does not look at it
    obtain ⟨hkinds, hcache, hid⟩ := intern_congr t _ _ _
    exact .inr ⟨_, rfl, hkinds, hcache, congrArg some hid⟩
  | _ => exact .inr ⟨_, rfl, rfl, rfl, rfl⟩

private theorem indexed_run (h : t.Indexed) : (c.run t).1.Indexed := by
  rcases c.run_spec (t := t) with ⟨-, hkinds, hcache, -⟩ | ⟨k, -, hkinds, hcache, -⟩
  · exact h.ofSameKinds hkinds hcache
  · exact (h.intern k).ofSameKinds hkinds hcache

private theorem run_keeps (h : t.Has ty) : (c.run t).1.Has ty ∧ (c.run t).1.kind ty = t.kind ty := by
  rcases c.run_spec (t := t) with ⟨-, hkinds, -⟩ | ⟨k, -, hkinds, -⟩
  · rw [Has, kind, hkinds]
    exact ⟨h, rfl⟩
  · rw [Has, kind, hkinds]
    have g := intern_grows t k
    exact ⟨g.has h, g.kind h⟩

end Call

/-! ## Any number of calls -/

theorem Indexed.runs (h : t.Indexed) (calls : List Call) : (t.runs calls).Indexed := by
  induction calls generalizing t with
  | nil => exact h
  | cons c calls ih => exact ih (c.indexed_run h)

private theorem runs_keeps (h : t.Has ty) (calls : List Call) :
    (t.runs calls).Has ty ∧ (t.runs calls).kind ty = t.kind ty := by
  induction calls generalizing t with
  | nil => exact ⟨h, rfl⟩
  | cons c calls ih =>
    obtain ⟨hhas, hkind⟩ := c.run_keeps h
    obtain ⟨hhas', hkind'⟩ := ih hhas
    exact ⟨hhas', hkind'.trans hkind⟩

theorem Interned.kind_predefined (h : t.Interned) {p} (hp : p ∈ predefined) : t.Has p.2 ∧ t.kind p.2 = p.1 := by
  have hprim : ∀ p ∈ predefined, primitives[p.2.index]? = some p.1 := by decide
  exact ⟨h.has_primitive (hprim p hp), h.kind_primitive (hprim p hp)⟩

/-- Ids and descriptors correspond one to one in every table that calls lead to: a descriptor gets a type
that has it, the cache maps a descriptor to a type exactly if the type has it, and calls leave the types alone
that are there. A descriptor that the cache does not know gets the next id, for one that it knows nothing is
created. -/
theorem interning_bijective (calls : List Call) :
    let t := initial.runs calls
    (∀ k, (t.intern k).1.Has (t.intern k).2 ∧ (t.intern k).1.kind (t.intern k).2 = k) ∧
    (∀ a b, t.Has a → t.Has b → (a = b ↔ t.kind a = t.kind b)) ∧
    (∀ k ty, t.cache.lookup k = some ty ↔ t.Has ty ∧ t.kind ty = k) ∧
    (∀ more ty, t.Has ty → (t.runs more).Has ty ∧ (t.runs more).kind ty = t.kind ty) ∧
    (∀ p ∈ predefined, t.intern p.1 = (t, p.2) ∧ t.Has p.2 ∧ t.kind p.2 = p.1) ∧
    (∀ c k, Call.descriptor? t c = some k → ∃ ty, (c.run t).2 = some ty ∧
      (c.run t).1.Has ty ∧ (c.run t).1.kind ty = k ∧
      ((∀ a, t.Has a → t.kind a ≠ k) → ty = t.kinds.nextId ∧ (c.run t).1.kinds = t.kinds.push k ∧
        (c.run t).1.cache = (k, ty) :: t.cache) ∧
      ∀ known, t.Has known → t.kind known = k →
        ty = known ∧ (c.run t).1.kinds = t.kinds ∧ (c.run t).1.cache = t.cache) ∧
    (∀ c, Call.descriptor? t c = none →
      (c.run t).2 = none ∧ (c.run t).1.kinds = t.kinds ∧ (c.run t).1.cache = t.cache) := by
  intro t
  have h : t.Indexed := Proper.initial.toIndexed.runs calls
  refine ⟨h.intern_spec, fun a b ha hb => ?_, fun k ty => h.find?_eq_some,
    fun more ty hty => runs_keeps hty more, fun p hp => ?_, fun c k hc => ?_, fun c hc => ?_⟩
  · exact ⟨congrArg t.kind, h.distinct a b ha hb⟩
  · have hkind := h.kind_predefined hp
    exact ⟨intern_of_find? (h.find?_eq_some.mpr hkind), hkind⟩
  · rcases c.run_spec (t := t) with ⟨hnone, -⟩ | ⟨k', hk', hkinds, hcache, hid⟩
    · cases hnone.symm.trans hc
    · cases hk'.symm.trans hc
      obtain ⟨hhas, hkind⟩ := h.intern_spec k
      refine ⟨_, hid, ?_⟩
      rw [Has, kind, hkinds, hcache]
      refine ⟨hhas, hkind, fun hnew => ?_, fun known hknown hk => ?_⟩
      · have hf : t.find? k = none := by
          refine Option.eq_none_iff_forall_ne_some.mpr fun ty hty => ?_
          obtain ⟨hty, hk⟩ := h.find?_eq_some.mp hty
          exact hnew ty hty hk
        rw [intern_of_unknown hf]
        exact ⟨rfl, rfl, rfl⟩
      · rw [intern_of_find? (h.find?_eq_some.mpr ⟨hknown, hk⟩)]
        exact ⟨rfl, rfl, rfl⟩
  · rcases c.run_spec (t := t) with ⟨-, hkinds, hcache, hid⟩ | ⟨k, hk, -⟩
    · exact ⟨hid, hkinds, hcache⟩
    · cases hc.symm.trans hk

end Comptime.TypeTable
