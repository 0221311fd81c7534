import Comptime.Proofs.Operator

/-!
# Typed code

`InstrKind.Typed` says what the machine relies on when it executes an instruction: which types the
registers have that it reads, and which type the register has that it writes. A function is typed
when all its instructions are.

Typing is stable: it survives that the type table grows, that functions and globals are added to the
code, and that instructions are appended to the function.
-/

namespace Comptime

variable {ty : TypeId} {f f' : Function}

/-- The register of an instruction has a type. -/
structure Function.Gives (f : Function) (i : InstrId) (ty : TypeId) : Prop where
  has : f.instrs.Has i
  type : f.typeOf i = ty

namespace TypeTable

/-- A pointer of type `base` leads to elements of type `elem`, as far as `bound` knows. -/
def Elements (t : TypeTable) (base elem : TypeId) : Bound → Prop
  | .array len => ∃ a, t.kind base = .ptr a ∧ t.kind a = .array elem len
  | .slice => ∃ s, t.kind base = .ptr s ∧ t.kind s = .slice elem
  | .unchecked => t.kind base = .ptr elem

/-- The member of a struct or slice at a position has a type. -/
inductive MemberAt (t : TypeTable) : TypeId → Nat → TypeId → Prop
  | struct {ty : TypeId} {id : StructId} {members : List Member} {index : Nat} {m : Member}
    (kind : t.kind ty = .struct id) (known : (t.structDef id).members = some members)
    (member : members[index]? = some m) : MemberAt t ty index m.ty
  | length {ty elem : TypeId} (kind : t.kind ty = .slice elem) : MemberAt t ty 0 .s64
  | pointer {ty elem ptr : TypeId} (kind : t.kind ty = .slice elem)
    (target : t.kind ptr = .ptr elem) : MemberAt t ty 1 ptr

/-- A value of a type is put together from values of the given types. -/
inductive Parts (t : TypeTable) : TypeId → List TypeId → Prop
  | struct {ty : TypeId} {id : StructId} {members : List Member}
    (kind : t.kind ty = .struct id) (known : (t.structDef id).members = some members) :
    Parts t ty (members.map Member.ty)
  | array {ty elem : TypeId} {len : UInt64} (kind : t.kind ty = .array elem len) :
    Parts t ty (List.replicate len.toNat elem)
  | slice {ty elem ptr : TypeId} (kind : t.kind ty = .slice elem)
    (target : t.kind ptr = .ptr elem) : Parts t ty [.s64, ptr]

end TypeTable

theorem TypeTable.Parts.fits {t} (hst : t.Standard) {types items} (hparts : t.Parts ty types)
    (h : List.Forall₂ (fun v ty => v.fits t ty = true) items types) : (Value.agg items).fits t ty = true := by
  cases hparts with
  | struct hk hm =>
    exact (Value.fits_iff hk).mpr ⟨_, items, hm, rfl, List.forall₂_map_right_iff.mp h⟩
  | array hk =>
    refine (Value.fits_iff hk).mpr ⟨items, rfl, ?_, fun v hv => ?_⟩
    · rw [h.length_eq, List.length_replicate]
    · obtain ⟨i, hi, rfl⟩ := List.getElem_of_mem hv
      have hfit := h.get hi (h.length_eq ▸ hi)
      simpa only [List.get_eq_getElem, List.getElem_replicate] using hfit
  | slice hk htarget =>
    cases h with
    | cons hlen h =>
      cases h with
      | cons haddr h =>
        cases h
        obtain ⟨len, rfl, -⟩ := (Value.fits_iff hst.s64).mp hlen
        obtain ⟨addr, rfl⟩ := (Value.fits_iff htarget).mp haddr
        exact (Value.fits_iff hk).mpr ⟨len, addr, rfl⟩

/-- An instruction of `f` whose operands have the types that it needs, and whose result has the type
`ty`. -/
inductive InstrKind.Typed (t : TypeTable) (c : Code) (f : Function) : InstrKind → TypeId → Prop
  | const {v : Value} {ty : TypeId} (fits : v.fits t ty = true) : Typed t c f (.const v) ty
  | slotPtr {s : SlotId} {ty target : TypeId} (ptr : t.kind ty = .ptr target) :
    Typed t c f (.slotPtr s) ty
  | globalPtr {g : GlobalId} {ty : TypeId} (has : c.globals.Has g)
    (ptr : t.kind ty = .ptr (c.global g).ty) : Typed t c f (.globalPtr g) ty
  | load {p : InstrId} {pty ty : TypeId} (ptr : f.Gives p pty) (target : t.kind pty = .ptr ty) :
    Typed t c f (.load p) ty
  | store {p v : InstrId} {pty vty : TypeId} (ptr : f.Gives p pty) (value : f.Gives v vty)
    (target : t.kind pty = .ptr vty) : Typed t c f (.store p v) .void
  | elemPtr {base index : InstrId} {bound : Bound} {bty ity elem ty : TypeId}
    (ptr : f.Gives base bty) (int : f.Gives index ity) (isInt : t.isInt ity = true)
    (elements : t.Elements bty elem bound) (result : t.kind ty = .ptr elem) :
    Typed t c f (.elemPtr base index bound) ty
  | memberPtr {base : InstrId} {index : Nat} {bty whole m ty : TypeId} (ptr : f.Gives base bty)
    (target : t.kind bty = .ptr whole) (member : t.MemberAt whole index m)
    (result : t.kind ty = .ptr m) : Typed t c f (.memberPtr base index) ty
  | binary {op : BinaryOp} {a b : InstrId} {ty : TypeId} (lhs : f.Gives a ty) (rhs : f.Gives b ty)
    (allowed : t.allowsBinary op ty = true) : Typed t c f (.binary op a b) (op.resultType ty)
  | unary {op : UnaryOp} {a : InstrId} {ty : TypeId} (operand : f.Gives a ty)
    (allowed : t.allowsUnary op ty = true) : Typed t c f (.unary op a) ty
  | cast {op : CastOp} {a : InstrId} {aty ty : TypeId} (operand : f.Gives a aty)
    (named : t.castOp aty ty = some op) : Typed t c f (.cast op a) ty
  | compound {values : List InstrId} {ty : TypeId} {types : List TypeId} (parts : t.Parts ty types)
    (given : List.Forall₂ f.Gives values types) : Typed t c f (.compound values) ty
  | callDirect {g : FnId} {args : List InstrId} (has : c.fns.Has g)
    (given : List.Forall₂ f.Gives args (c.function g).params) :
    Typed t c f (.call (.direct g) args) (c.function g).ret
  | callIndirect {v : InstrId} {vty ret : TypeId} {params : List TypeId} {args : List InstrId}
    (callee : f.Gives v vty) (signature : t.kind vty = .fn params ret)
    (given : List.Forall₂ f.Gives args params) : Typed t c f (.call (.indirect v) args) ret
  | jump {target : BlockId} : Typed t c f (.jump target) .void
  | branch {cond : InstrId} {yes no : BlockId} (bool : f.Gives cond .bool) :
    Typed t c f (.branch cond yes no) .void
  | switch {v : InstrId} {vty : TypeId} {cases : List (UInt64 × BlockId)} {otherwise : BlockId}
    (value : f.Gives v vty) (integer : (t.intInfo vty).isSome = true) :
    Typed t c f (.switch v cases otherwise) .void
  | phi {incoming : List (BlockId × InstrId)} {ty : TypeId}
    (values : ∀ p ∈ incoming, f.Gives p.2 ty) : Typed t c f (.phi incoming) ty
  | giveBack {v : InstrId} (result : f.ret ≠ .void) (value : f.Gives v f.ret) :
    Typed t c f (.ret (some v)) .void
  | giveNothing (result : f.ret = .void) : Typed t c f (.ret none) .void
  | unreachable : Typed t c f .unreachable .void
  | assert {cond : InstrId} {message : String} (bool : f.Gives cond .bool) :
    Typed t c f (.assert cond message) .void

/-- A function whose instructions are all typed. -/
structure Function.Typed (t : TypeTable) (c : Code) (f : Function) : Prop where
  instrs : ∀ i, f.instrs.Has i → (f.instr i).kind.Typed t c f (f.instr i).ty

/-! ## Growing code -/

theorem Code.has_of_analyzed {code : Code} {f} (h : (code.function f).state = .analyzed) : code.fns.Has f := by
  refine Decidable.byContradiction fun hn => ?_
  rw [Code.function, Pool.getD_of_not_has hn] at h
  cases h

/-- Functions keep their signatures and globals their types. -/
structure Code.Grows (c c' : Code) : Prop where
  size : c.fns.size ≤ c'.fns.size
  has : ∀ {f}, c.fns.Has f → c'.fns.Has f
  type : ∀ {f}, c.fns.Has f → (c'.function f).ty = (c.function f).ty
  params : ∀ {f}, c.fns.Has f → (c'.function f).params = (c.function f).params
  ret : ∀ {f}, c.fns.Has f → (c'.function f).ret = (c.function f).ret
  hasGlobal : ∀ {g}, c.globals.Has g → c'.globals.Has g
  global : ∀ {g}, c.globals.Has g → c'.global g = c.global g

theorem Code.Grows.refl (c : Code) : c.Grows c :=
  ⟨Nat.le_refl _, id, fun _ => rfl, fun _ => rfl, fun _ => rfl, id, fun _ => rfl⟩

theorem Code.Grows.trans {c1 c2 : Code} {c3} (h : c1.Grows c2) (h' : c2.Grows c3) : c1.Grows c3 where
  size := Nat.le_trans h.size h'.size
  has hf := h'.has (h.has hf)
  type hf := (h'.type (h.has hf)).trans (h.type hf)
  params hf := (h'.params (h.has hf)).trans (h.params hf)
  ret hf := (h'.ret (h.has hf)).trans (h.ret hf)
  hasGlobal hg := h'.hasGlobal (h.hasGlobal hg)
  global hg := (h'.global (h.hasGlobal hg)).trans (h.global hg)

/-- Instructions are appended; those that are there stay. -/
structure Function.Extends (f f' : Function) : Prop where
  ret : f'.ret = f.ret
  has : ∀ {i}, f.instrs.Has i → f'.instrs.Has i
  instr : ∀ {i}, f.instrs.Has i → f'.instr i = f.instr i

theorem Function.Extends.refl (f : Function) : f.Extends f := ⟨rfl, id, fun _ => rfl⟩

theorem Function.Extends.trans {f1 f2 f3 : Function} (h : f1.Extends f2) (h' : f2.Extends f3) : f1.Extends f3 where
  ret := h'.ret.trans h.ret
  has hi := h'.has (h.has hi)
  instr hi := (h'.instr (h.has hi)).trans (h.instr hi)

theorem Function.Gives.extend {i} (h : f.Gives i ty) (e : f.Extends f') : f'.Gives i ty :=
  ⟨e.has h.has, by rw [Function.typeOf, e.instr h.has]; exact h.type⟩

theorem Function.Extends.ofSameBody (ret : f'.ret = f.ret) (instrs : f'.instrs = f.instrs) : f.Extends f' := by
  refine ⟨ret, fun hi => instrs ▸ hi, fun _ => ?_⟩
  rw [Function.instr, Function.instr, instrs]

theorem Function.Extends.push {f f' : Function} {i : Instr} (ret : f'.ret = f.ret)
    (instrs : f'.instrs = f.instrs.push i) : f.Extends f' := by
  refine ⟨ret, fun hi => instrs ▸ hi.push i, fun hi => ?_⟩
  rw [Function.instr, Function.instr, instrs, Pool.getD_push_of_has hi]

/-! ## Stability -/

namespace TypeTable.Grows

variable {t t' : TypeTable} (g : t.Grows t') {ty : TypeId}

include g

theorem elements {base elem bound} (h : t.Elements base elem bound) : t'.Elements base elem bound := by
  cases bound with
  | array len =>
    obtain ⟨a, hb, ha⟩ := h
    exact ⟨a, g.kind_of_ne hb (by simp), g.kind_of_ne ha (by simp)⟩
  | slice =>
    obtain ⟨s, hb, hs⟩ := h
    exact ⟨s, g.kind_of_ne hb (by simp), g.kind_of_ne hs (by simp)⟩
  | unchecked => exact g.kind_of_ne h (by simp)

theorem memberAt {m} {index} (h : t.MemberAt ty index m) : t'.MemberAt ty index m := by
  cases h with
  | struct hk hm hi => exact .struct (g.kind_of_ne hk (by simp)) (g.members hm) hi
  | length hk => exact .length (g.kind_of_ne hk (by simp))
  | pointer hk ht => exact .pointer (g.kind_of_ne hk (by simp)) (g.kind_of_ne ht (by simp))

theorem parts {types} (h : t.Parts ty types) : t'.Parts ty types := by
  cases h with
  | struct hk hm => exact .struct (g.kind_of_ne hk (by simp)) (g.members hm)
  | array hk => exact .array (g.kind_of_ne hk (by simp))
  | slice hk ht => exact .slice (g.kind_of_ne hk (by simp)) (g.kind_of_ne ht (by simp))

theorem allowsBinary (hp : t.Proper) {op} (ho : t.allowsBinary op ty = true) : t'.allowsBinary op ty = true := by
  have h : t.Has ty := by
    refine Decidable.byContradiction fun hn => ?_
    have hk : t.kind ty = .missing := Pool.getD_of_not_has hn _
    have hbool : ty ≠ .bool := fun he => hn (he ▸ hp.has_bool)
    have hinfo : t.intInfo ty = none := by simp [TypeTable.intInfo, intInfoAt, hk]
    cases op <;> simp [TypeTable.allowsBinary, isNumeric, TypeTable.isInt, TypeTable.isReal, TypeTable.isPtr, hk, hbool, hinfo] at ho
  rw [← ho]
  simp only [TypeTable.allowsBinary, isNumeric, g.isInt h, g.isReal h, g.isPtr h, g.intInfo hp h, g.kind h]

theorem isInt_of_isInt (h : t.isInt ty = true) : t'.isInt ty = true := by
  obtain ⟨bits, signed, hk⟩ := isInt_iff.mp h
  exact isInt_iff.mpr ⟨bits, signed, g.kind_of_ne hk (by simp)⟩

theorem allowsUnary (hp : t.Proper) {op} (ho : t.allowsUnary op ty = true) : t'.allowsUnary op ty = true := by
  have h : t.Has ty := by
    refine Decidable.byContradiction fun hn => ?_
    have hk : t.kind ty = .missing := Pool.getD_of_not_has hn _
    have hbool : ty ≠ .bool := fun he => hn (he ▸ hp.has_bool)
    cases op <;> simp [TypeTable.allowsUnary, isNumeric, TypeTable.isInt, TypeTable.isReal, hk, hbool] at ho
  rw [← ho]
  simp only [TypeTable.allowsUnary, isNumeric, g.isInt h, g.isReal h]

end TypeTable.Grows

theorem InstrKind.Typed.grow {t : TypeTable} {t'} {c : Code} {c'} {k : InstrKind} (hp : t.Proper) (g : t.Grows t')
    (gc : c.Grows c') (e : f.Extends f') (h : k.Typed t c f ty) : k.Typed t' c' f' ty := by
  have hall {is : List InstrId} {tys : List TypeId} (h : List.Forall₂ f.Gives is tys) :
      List.Forall₂ f'.Gives is tys := h.imp fun _ _ hg => hg.extend e
  cases h with
  | const hv => exact .const (Value.fits_grow hp g ty _ hv)
  | slotPtr hk => exact .slotPtr (g.kind_of_ne hk (by simp))
  | globalPtr hg hk =>
    exact .globalPtr (gc.hasGlobal hg) (g.kind_of_ne (gc.global hg ▸ hk) (by simp))
  | load hptr hk => exact .load (hptr.extend e) (g.kind_of_ne hk (by simp))
  | store hptr hv hk => exact .store (hptr.extend e) (hv.extend e) (g.kind_of_ne hk (by simp))
  | elemPtr hptr hi hint he hk =>
    exact .elemPtr (hptr.extend e) (hi.extend e) (g.isInt_of_isInt hint) (g.elements he)
      (g.kind_of_ne hk (by simp))
  | memberPtr hptr hk hm hr =>
    exact .memberPtr (hptr.extend e) (g.kind_of_ne hk (by simp)) (g.memberAt hm) (g.kind_of_ne hr (by simp))
  | binary ha hb ho =>
    exact .binary (ha.extend e) (hb.extend e) (g.allowsBinary hp ho)
  | unary ha ho => exact .unary (ha.extend e) (g.allowsUnary hp ho)
  | cast ha ho => exact .cast (ha.extend e) (g.castOp hp ho)
  | compound hparts hv => exact .compound (g.parts hparts) (hall hv)
  | callDirect hf hargs =>
    rw [← gc.ret hf]
    exact .callDirect (gc.has hf) ((gc.params hf).symm ▸ hall hargs)
  | callIndirect hv hk hargs =>
    exact .callIndirect (hv.extend e) (g.kind_of_ne hk (by simp)) (hall hargs)
  | jump => exact .jump
  | branch hc => exact .branch (hc.extend e)
  | switch hv hi =>
    obtain ⟨i, hi⟩ := Option.isSome_iff_exists.mp hi
    exact .switch (hv.extend e) (Option.isSome_iff_exists.mpr ⟨i, g.intInfo_eq_some hp hi⟩)
  | phi hv => exact .phi fun p hm => (hv p hm).extend e
  | giveBack hr hv => exact .giveBack (e.ret ▸ hr) (e.ret ▸ hv.extend e)
  | giveNothing hr => exact .giveNothing (e.ret ▸ hr)
  | unreachable => exact .unreachable
  | assert hc => exact .assert (hc.extend e)

namespace Function.Typed

variable {t t' : TypeTable} {c c' : Code} {f : Function}

theorem grow (h : f.Typed t c) (hp : t.Proper) (g : t.Grows t') (gc : c.Grows c') : f.Typed t' c' where
  instrs i hi := (h.instrs i hi).grow hp g gc (.refl f)

theorem ofEmpty (h : f.instrs = .empty) : f.Typed t c := by
  have hn (i : InstrId) : ¬ f.instrs.Has i := h ▸ Nat.not_lt_zero _
  exact ⟨fun i hi => absurd hi (hn i)⟩

theorem ofSameBody {f' : Function} (h : f.Typed t c) (hp : t.Proper) (ret : f'.ret = f.ret)
    (instrs : f'.instrs = f.instrs) : f'.Typed t c := by
  have e : f.Extends f' := .ofSameBody ret instrs
  refine ⟨fun i hi => ?_⟩
  rw [instrs] at hi
  rw [e.instr hi]
  exact (h.instrs i hi).grow hp (.refl t) (.refl c) e

theorem push {f' : Function} {i : Instr} (h : f.Typed t c) (hp : t.Proper) (ret : f'.ret = f.ret)
    (instrs : f'.instrs = f.instrs.push i) (hk : i.kind.Typed t c f i.ty) : f'.Typed t c := by
  have e : f.Extends f' := .push ret instrs
  have hnew : f'.instr f.instrs.nextId = i := by
    rw [Function.instr, instrs, Pool.getD_push, if_pos rfl]
  refine ⟨fun j hj => ?_⟩
  rcases Pool.has_push.mp (instrs ▸ hj) with hj | rfl
  · rw [e.instr hj]
    exact (h.instrs j hj).grow hp (.refl t) (.refl c) e
  · rw [hnew]
    exact hk.grow hp (.refl t) (.refl c) e

end Function.Typed

/-! ## Callees -/

/-- The function that an instruction calls by its name. -/
def InstrKind.callee? : InstrKind → Option FnId
  | .call (.direct f) _ => some f
  | _ => none

/-- The functions that are called by their names exist. -/
def Function.Linked (c : Code) (f : Function) : Prop :=
  ∀ i, f.instrs.Has i → ∀ g ∈ (f.instr i).kind.callee?, c.fns.Has g

namespace Function.Linked

variable {c c' : Code} {f f' : Function}

theorem grow (h : f.Linked c) (gc : c.Grows c') : f.Linked c' := fun i hi g hg => gc.has (h i hi g hg)

theorem ofEmpty (h : f.instrs = .empty) : f.Linked c := fun _ hi => absurd (h ▸ hi) (Nat.not_lt_zero _)

theorem ofSameBody (h : f.Linked c) (instrs : f'.instrs = f.instrs) : f'.Linked c := by
  intro i hi
  rw [instrs] at hi
  rw [Function.instr, instrs]
  exact h i hi

theorem push {i : Instr} (h : f.Linked c) (instrs : f'.instrs = f.instrs.push i)
    (callee : ∀ g ∈ i.kind.callee?, c.fns.Has g) : f'.Linked c := by
  intro j hj
  rw [instrs] at hj
  rw [Function.instr, instrs, Pool.getD_push]
  split
  · exact callee
  · next hne => exact h j ((Pool.has_push.mp hj).resolve_right hne)

end Function.Linked

theorem Function.layoutFrame_same (types) (f : Function) :
    (f.layoutFrame types).1.instrs = f.instrs ∧ (f.layoutFrame types).1.ret = f.ret := by
  unfold Function.layoutFrame
  split
  · exact ⟨rfl, rfl⟩
  · dsimp only
    split <;> exact ⟨rfl, rfl⟩

end Comptime
