import Comptime.Proofs.Analysis.Equation
import Comptime.Proofs.Arithmetic.Meaning
import Comptime.Proofs.Arithmetic.Straight

/-!
# Operands that carry numbers

Analysis turns a numeric expression into an operand: a constant, or the result of an instruction that
it has written. `Operand.Carries` says that an operand stands for a number, `Continues` what running
the instructions that were written for it amounts to.

Main result: converting an operand is converting the number it carries (`Lower.coerce_yields`).
-/

namespace Comptime

variable {l : List Instr}

/-! ## Pieces of analysis that leave the tables alone -/

namespace Lower

/-- The tables stay as they are. `P` holds of what the piece of analysis gives, and `E` of the reason
for which it halts. -/
def Yields {α : Type} (x : Lower α) (c : Context) (t : Tables) (d : Draft)
    (P : α → Draft → Prop) (E : Halt → Prop) : Prop :=
  Ensures (x d c t) (fun r t' => t' = t ∧ P r.1 r.2) fun h t' => t' = t ∧ E h

namespace Yields

variable {α β : Type} {x : Lower α} {k : α → Lower β} {c : Context} {t : Tables} {d : Draft}
  {P : α → Draft → Prop} {Q : β → Draft → Prop} {E : Halt → Prop}

protected theorem pure {a : α} (h : P a d) : Yields (pure a) c t d P E := ⟨rfl, h⟩

protected theorem throw {h} (reason : E h) : Yields (throw h) c t d P E := ⟨rfl, reason⟩

protected theorem bind (h : Yields x c t d P E) (h' : ∀ a d', P a d' → Yields (k a) c t d' Q E) :
    Yields (x >>= k) c t d Q E := by
  refine Ensures.bind h ?_
  rintro r t' ⟨rfl, hr⟩
  exact h' r.1 r.2 hr

theorem reads {x} {v : Context → Tables → α} (hx : Analysis.Reads x v) (h : Yields (k (v c t)) c t d Q E) :
    Yields (liftM x >>= k) c t d Q E := by
  unfold Yields
  rw [reads_bind hx]
  exact h

theorem halts {x : Analysis α} {h} (hx : x c t = .error h t) (reason : E h) :
    Yields (liftM x >>= k) c t d Q E := by
  unfold Yields
  rw [bind_error (by rw [lift_eq, hx])]
  exact ⟨rfl, reason⟩

theorem imp {P' : α → Draft → Prop} {E' : Halt → Prop} (h : Yields x c t d P E)
    (hP : ∀ a d', P a d' → P' a d') (hE : ∀ e, E e → E' e) : Yields x c t d P' E' :=
  Ensures.imp h (fun r _ hr => ⟨hr.1, hP r.1 r.2 hr.2⟩) fun e _ he => ⟨he.1, hE e he.2⟩

protected theorem typeError {span} {message} (h : ∀ d, E (.error d)) :
    Yields (Analysis.typeError span message) c t d P E := .throw (h _)

end Yields

end Lower

/-! ## The types of numbers -/

/-- The kind of a type of numbers. -/
def Scalar.kind (s : Scalar) : TypeKind := s.ground.kind

theorem Scalar.ty_ne_type (s : Scalar) : s.ty ≠ .type := by cases s <;> decide

theorem Scalar.ty_injective {a b : Scalar} (h : a.ty = b.ty) : a = b := by
  cases a <;> cases b <;> first | rfl | exact absurd h (by decide)

namespace TypeTable

/-- The table has the types of numeric expressions. -/
structure Numbers (t : TypeTable) : Prop where
  scalar (s : Scalar) : t.kind s.ty = s.kind
  type : t.kind .type = .type

namespace Numbers

variable {t : TypeTable} (h : t.Numbers)

include h

theorem isInt (s : Scalar) : t.isInt s.ty = !s.isReal := by
  refine (Ground.isInt_ty (h.scalar s)).trans ?_
  cases s <;> rfl

theorem isReal (s : Scalar) : t.isReal s.ty = s.isReal := by
  refine (Ground.isReal_ty (h.scalar s)).trans ?_
  cases s <;> rfl

theorem isNumeric (s : Scalar) : t.isNumeric s.ty = true := by
  rw [TypeTable.isNumeric, h.isInt s, h.isReal s, Bool.not_or_self]

theorem intInfo_int {s : Scalar} (hs : s.isReal = false) : t.intInfo s.ty = some (s.bits, true) := by
  refine (Ground.intInfo_ty (h.scalar s)).trans ?_
  cases s <;> first | rfl | cases hs

theorem plainInt_int {s : Scalar} (hs : s.isReal = false) : t.plainInt s.ty = some (s.bits, true) := by
  refine (Ground.plainInt_ty (h.scalar s)).trans ?_
  cases s <;> first | rfl | cases hs

theorem plainInt_real : t.plainInt Scalar.f64.ty = none := Ground.plainInt_ty (h.scalar .f64)

theorem castOp {a b : Scalar} (hne : a ≠ b) (ha : a.isReal = false) :
    ∃ cast, t.castOp a.ty b.ty = some cast ∧ ∀ w, cast.eval t b.ty (.int w) = .ok (b.value (b.cast w)) := by
  have hsigned : a.ground.info = some (a.bits, true) := by cases a <;> first | rfl | cases ha
  have hnumber : b.ground.info.isSome ∨ b.ground = .f64 := by cases b <;> simp [Scalar.ground, Ground.info]
  obtain ⟨cast, hcast, heval⟩ := Ground.castOp_ty (h.scalar a) (h.scalar b)
    (fun heq => hne (Scalar.ty_injective (congrArg Ground.ty heq))) hsigned hnumber
  refine ⟨cast, hcast, fun w => (heval w).trans ?_⟩
  cases b <;> rfl

theorem rank_isSome {a b : Scalar} (hne : a ≠ b) :
    (t.conversionRank a.ty b.ty).isSome ↔ a = .s32 ∧ b = .s64 := by
  refine (Ground.conversionRank_ty (h.scalar a) (h.scalar b)
    fun heq => hne (Scalar.ty_injective (congrArg Ground.ty heq))).trans ?_
  cases a <;> cases b <;> simp [Scalar.ground]

theorem commonType (a b : Scalar) : t.commonType a.ty b.ty = (a.common b).map Scalar.ty := by
  by_cases hab : a = b
  · subst hab
    rw [TypeTable.commonType, if_pos rfl]
    cases a <;> rfl
  · rw [TypeTable.commonType, if_neg fun heq => hab (Scalar.ty_injective heq)]
    simp only [h.rank_isSome hab, h.rank_isSome (Ne.symm hab)]
    cases a <;> cases b <;> first | rfl | exact absurd rfl hab

theorem rank_type (s : Scalar) : t.conversionRank s.ty .type = none ∧ t.conversionRank .type s.ty = none := by
  constructor
  · rw [conversionRank, if_neg (s.ty_ne_type), h.scalar, h.type]
    cases s <;> rfl
  · rw [conversionRank, if_neg (Ne.symm (s.ty_ne_type)), h.scalar, h.type]

theorem allowsBinary {op : BinaryOp} (hop : op.isArithmetic = true) (s : Scalar) :
    t.allowsBinary op s.ty = s.allowsBinary op := by
  have hbool : s.ty ≠ .bool := by cases s <;> decide
  cases op with
  | add | sub | mul | div | mod =>
    refine (h.isNumeric s).trans ?_
    cases s <;> rfl
  | bitAnd | bitOr | xor =>
    simp only [TypeTable.allowsBinary, h.isInt s, hbool, decide_false, Bool.or_false]
    cases s <;> rfl
  | shl | shr =>
    refine (h.isInt s).trans ?_
    cases s <;> rfl
  | eq | neq | greater | less | greaterEq | lessEq | logicAnd | logicOr => cases hop

theorem allowsUnary (op) (s : Scalar) : t.allowsUnary op s.ty = s.allowsUnary op := by
  cases op with
  | neg | pos =>
    refine (h.isNumeric s).trans ?_
    cases s <;> rfl
  | bitNot =>
    refine (h.isInt s).trans ?_
    cases s <;> rfl
  | not => cases s <;> rfl

theorem not_isInt_type : t.isInt .type = false := by rw [TypeTable.isInt, h.type]

theorem not_isReal_type : t.isReal .type = false := by rw [TypeTable.isReal, h.type]

theorem not_allowsBinary_type {op} (hop : op.isArithmetic = true) : t.allowsBinary op .type = false := by
  have hnumeric : t.isNumeric .type = false := by
    rw [TypeTable.isNumeric, h.not_isInt_type, h.not_isReal_type, Bool.or_self]
  cases op with
  | add | sub | mul | div | mod => exact hnumeric
  | bitAnd | bitOr | xor =>
    rw [TypeTable.allowsBinary, h.not_isInt_type]
    rfl
  | shl | shr => exact h.not_isInt_type
  | eq | neq | greater | less | greaterEq | lessEq | logicAnd | logicOr => cases hop

theorem not_allowsUnary_type (op) : t.allowsUnary op .type = false := by
  cases op with
  | neg | pos =>
    simp [TypeTable.allowsUnary, TypeTable.isNumeric, h.not_isInt_type, h.not_isReal_type]
  | bitNot => exact h.not_isInt_type
  | not => rfl

theorem binary_eval {op : BinaryOp} (hop : op.isArithmetic = true) (s : Scalar) (a b) :
    op.eval t s.ty (s.value a) (s.value b) = (s.combine op a b).map s.value := by
  have hcmp : op.isComparison = false := by cases op <;> first | rfl | cases hop
  have hword (hs : s.isReal = false) :
      op.eval t s.ty (.int a) (.int b) = (op.onWords s.bits true a b).map .int := by
    rw [BinaryOp.eval, if_neg (by simp [hcmp]), h.intInfo_int hs]
  cases s with
  | s32 | s64 => exact hword rfl
  | f64 =>
    show (if op.isComparison then _ else _) = _
    rw [if_neg (by simp [hcmp])]
    show (op.onReals Binary.double a.toNat b.toNat).map _ = ((op.onReals _ _ _).map _).map _
    cases op.onReals Binary.double a.toNat b.toNat <;> rfl

theorem unary_eval {op : UnaryOp} {s : Scalar} (hop : s.allowsUnary op = true) (a) :
    op.eval t s.ty (s.value a) = .ok (s.value (Scalar.change op s a)) := by
  have hword (hs : s.isReal = false) (raw : UInt64) :
      UnaryOp.eval.onWord t s.ty raw = .ok (.int (Word.canonical raw s.bits true)) := by
    rw [UnaryOp.eval.onWord, h.intInfo_int hs]
    rfl
  cases op with
  | neg =>
    cases s with
    | s32 | s64 => exact hword rfl _
    | f64 => rfl
  | bitNot =>
    cases s with
    | s32 | s64 => exact hword rfl _
    | f64 => cases hop
  | pos => cases s <;> rfl
  | not => cases s <;> cases hop

end Numbers

end TypeTable

/-! ## Code -/

theorem Plain.unended (h : Plain l) : Draft.Unended l := by
  intro i hi
  obtain ⟨k, hk⟩ := List.getElem?_of_mem hi
  have hplain := h k i hk
  cases hkind : i.kind <;> simp_all [InstrKind.isPlain, InstrKind.isTerminator]

theorem Plain.concat (h : Plain l) {i} (hi : i.kind.isPlain l.length = true) : Plain (l ++ [i]) := by
  intro k j hj
  rw [List.getElem?_append] at hj
  split at hj
  · exact h k j hj
  · next hk =>
    obtain ⟨hk', rfl⟩ : k - l.length = 0 ∧ i = j := by
      simpa [List.getElem?_singleton] using hj
    have hlen : k = l.length := by omega
    rwa [hlen]

def status (t : TypeTable) (l : List Instr) : Except Trap Unit := (trace t l).map fun _ => ()

/-- The code `l'` begins with `l`; after `l` has run, the rest of it ends as `r` says. -/
structure Continues (t : TypeTable) (l l' : List Instr) (r : Except Trap Unit) (count : Nat) :
    Prop where
  begins : l <+: l'
  plain : Plain l'
  status : status t l' = (status t l).bind fun _ => r
  length : l'.length ≤ l.length + count

namespace Continues

variable {t : TypeTable} {l l' l'' : List Instr} {r r' : Except Trap Unit} {k k' : Nat}

protected theorem refl (h : Plain l) (t) : Continues t l l (.ok ()) k := by
  refine ⟨List.prefix_rfl, h, ?_, Nat.le_add_right ..⟩
  cases Comptime.status t l <;> rfl

protected theorem trans (h : Continues t l l' r k) (h' : Continues t l' l'' r' k') :
    Continues t l l'' (r.bind fun _ => r') (k + k') := by
  refine ⟨h.begins.trans h'.begins, h'.plain, ?_, ?_⟩
  · rw [h'.status, h.status]
    cases Comptime.status t l <;> rfl
  · have hlen := h.length
    have hlen' := h'.length
    omega

protected theorem mono (h : Continues t l l' r k) (hk : k ≤ k') : Continues t l l' r k' :=
  ⟨h.begins, h.plain, h.status, h.length.trans (Nat.add_le_add_left hk _)⟩

protected theorem congr (h : Continues t l l' r k) (hr : ∀ regs, trace t l = .ok regs → r = r') :
    Continues t l l' r' k := by
  refine ⟨h.begins, h.plain, ?_, h.length⟩
  rw [h.status, Comptime.status]
  cases htrace : trace t l with
  | error trap => rfl
  | ok regs => exact hr regs htrace

end Continues

/-! ## Results -/

def Number.status (n : Number) : Except Trap Unit := n.word.map fun _ => ()

/-- An instruction computes the word of a number, if the code runs to its end. -/
structure Delivers (t : TypeTable) (l : List Instr) (id : InstrId) (n : Number) : Prop where
  typed : ∃ i, l[id.index]? = some i ∧ i.ty = n.scalar.ty
  word : ∀ regs, trace t l = .ok regs → ∃ w, n.word = .ok w ∧ regs.value id = n.scalar.value w

namespace Delivers

variable {t : TypeTable} {l l' : List Instr} {id : InstrId} {n : Number}

theorem lt (h : Delivers t l id n) : id.index < l.length := by
  obtain ⟨i, hi, -⟩ := h.typed
  exact (List.getElem?_eq_some_iff.mp hi).1

theorem typeOf (h : Delivers t l id n) {regs} (hr : trace t l = .ok regs) : regs.typeOf id = n.scalar.ty := by
  obtain ⟨i, hi, hty⟩ := h.typed
  have htypes : regs.map Prod.fst = l.map Instr.ty := by simpa using (of_traceFrom hr).2
  have hget : (regs[id.index]?).map Prod.fst = some i.ty := by
    rw [← List.getElem?_map, htypes, List.getElem?_map, hi]
    rfl
  rw [Registers.typeOf, hget, ← hty]
  rfl

theorem mono (h : Delivers t l id n) (hl : l <+: l') : Delivers t l' id n := by
  obtain ⟨rest, rfl⟩ := hl
  have hlt := h.lt
  refine ⟨?_, fun regs' hr' => ?_⟩
  · obtain ⟨i, hi, hty⟩ := h.typed
    exact ⟨i, by rw [List.getElem?_append_left hlt, hi], hty⟩
  · unfold trace at hr'
    rw [traceFrom_append] at hr'
    cases hr : traceFrom t [] l with
    | error trap =>
      rw [hr] at hr'
      cases hr'
    | ok regs =>
      rw [hr] at hr'
      obtain ⟨w, hw, hval⟩ := h.word regs hr
      obtain ⟨rest', rfl⟩ := (of_traceFrom hr').1
      refine ⟨w, hw, ?_⟩
      have hlen : id.index < regs.length := by rwa [length_of_trace hr]
      rw [← hval, Registers.value, Registers.value, List.getElem?_append_left hlen]

end Delivers

theorem delivers_concat {t i n} (hl : Plain l) (hi : i.kind.isPlain l.length = true) (hty : i.ty = n.scalar.ty)
    (hv : ∀ regs, trace t l = .ok regs → i.compute t regs = n.word.map n.scalar.value) :
    Continues t l (l ++ [i]) n.status 1 ∧ Delivers t (l ++ [i]) ⟨l.length⟩ n := by
  refine ⟨⟨List.prefix_append _ _, hl.concat hi, ?_, by simp⟩, ⟨⟨i, by simp, hty⟩, fun regs' hr' => ?_⟩⟩
  · unfold status
    rw [trace_concat]
    cases hr : trace t l with
    | error trap => rfl
    | ok regs =>
      simp only [Except.bind, hv regs hr, Except.map, Number.status]
      cases n.word <;> rfl
  · rw [trace_concat] at hr'
    cases hr : trace t l with
    | error trap =>
      rw [hr] at hr'
      cases hr'
    | ok regs =>
      rw [hr] at hr'
      simp only [Except.bind, hv regs hr] at hr'
      cases hw : n.word with
      | error trap =>
        rw [hw] at hr'
        cases hr'
      | ok w =>
        rw [hw] at hr'
        cases hr'
        refine ⟨w, rfl, ?_⟩
        rw [Registers.value, ← length_of_trace hr]
        simp

namespace Operand

/-- The operand stands for a number, after the code has run. -/
structure Carries (t : TypeTable) (l : List Instr) (op : Operand) (n : Number) : Prop where
  ty : op.ty = n.scalar.ty
  literal : op.literal = n.literal
  known : n.known = true → ∃ w, op.kind = .const (n.scalar.value w) ∧ n.word = .ok w
  computed : n.known = false → ∃ id, op.kind = .instr id ∧ Delivers t l id n

namespace Carries

variable {t : TypeTable} {l l' : List Instr} {op : Operand} {n : Number}

theorem mono (h : op.Carries t l n) (hl : l <+: l') : op.Carries t l' n := by
  refine ⟨h.ty, h.literal, h.known, fun hk => ?_⟩
  obtain ⟨id, hid, hd⟩ := h.computed hk
  exact ⟨id, hid, hd.mono hl⟩

theorem cases (h : op.Carries t l n) :
    (∃ w, n.known = true ∧ op.kind = .const (n.scalar.value w) ∧ n.word = .ok w) ∨
      ∃ id, n.known = false ∧ op.kind = .instr id ∧ Delivers t l id n := by
  cases hk : n.known with
  | true =>
    obtain ⟨w, hw⟩ := h.known hk
    exact .inl ⟨w, rfl, hw⟩
  | false =>
    obtain ⟨id, hid⟩ := h.computed hk
    exact .inr ⟨id, rfl, hid⟩

theorem const?_known (h : op.Carries t l n) (hk : n.known = true) :
    ∃ w, op.const? = some (n.scalar.value w) ∧ n.word = .ok w := by
  obtain ⟨w, hkind, hw⟩ := h.known hk
  exact ⟨w, by rw [const?, hkind], hw⟩

theorem const?_computed (h : op.Carries t l n) (hk : n.known = false) : op.const? = none := by
  obtain ⟨id, hkind, -⟩ := h.computed hk
  rw [const?, hkind]

theorem const {w : UInt64} {scalar} {literal : Bool} (t l span) :
    Carries t l { Operand.constant (scalar.value w) scalar.ty span with literal } ⟨scalar, literal, true, .ok w⟩ :=
  ⟨rfl, rfl, fun _ => ⟨w, rfl, rfl⟩, fun h => by cases h⟩

theorem instr {id} (h : Delivers t l id n) (hk : n.known = false) (span) :
    Carries t l { Operand.instr id n.scalar.ty span with literal := n.literal } n :=
  ⟨rfl, rfl, fun hknown => absurd hknown (by simp [hk]), fun _ => ⟨id, rfl, h⟩⟩

end Carries

end Operand

/-! ## Conversions -/

def Halt.Reported (h : Halt) : Prop := ∃ d, h = .error d

namespace Lower

variable {c : Context} {t : Tables} {name : String} {span place : Span} {l : List Instr} {op : Operand}
  {n n' : Number} {E : Halt → Prop} {cast : CastOp} {target : Scalar}

theorem rvalue_of_carries (hop : op.Carries t.types l n) : rvalue op = pure op := by
  unfold rvalue
  obtain ⟨w, -, hkind, -⟩ | ⟨id, -, hkind, -⟩ := hop.cases <;> rw [hkind]

/-- Instructions have been written of which `P` holds. -/
def Extended (t : Tables) (name : String) (span : Span) (l : List Instr) (r : Except Trap Unit) (count : Nat)
    (P : List Instr → Prop) (d : Draft) : Prop :=
  ∃ l', d = .straight name span l' ∧ Continues t.types l l' r count ∧ P l'

theorem emit_yields {kind ty} (hl : Plain l) (hplain : kind.isPlain l.length = true) (hty : ty = n.scalar.ty)
    (hv : ∀ regs, trace t.types l = .ok regs →
      Instr.compute t.types regs ⟨kind, ty, place, Function.entry⟩ = n.word.map n.scalar.value) :
    Yields (emit kind ty place) c t (.straight name span l)
      (fun id => Extended t name span l n.status 1 fun l' => Delivers t.types l' id n) E := by
  obtain ⟨hcont, hd⟩ := delivers_concat hl hplain hty hv
  show t = t ∧ Extended t name span l n.status 1
    (Delivers t.types · ((Draft.straight name span l).emit kind ty place).2 n) ((Draft.straight ..).emit kind ty place).1
  rw [Draft.emit_straight hl.unended]
  exact ⟨rfl, _, rfl, hcont, hd⟩

theorem materialize_yields (hl : Plain l) (hop : op.Carries t.types l n) :
    Yields (materialize op) c t (.straight name span l)
      (fun id => Extended t name span l (.ok ()) 1 fun l' => Delivers t.types l' id n) E := by
  unfold materialize
  rw [rvalue_of_carries hop, pure_bind]
  obtain ⟨w, -, hkind, hw⟩ | ⟨id, -, hkind, hd⟩ := hop.cases
  · have hstatus : n.status = .ok () := by rw [Number.status, hw]; rfl
    rw [hkind, ← hstatus]
    exact emit_yields hl rfl hop.ty fun _ _ => by rw [hw]; rfl
  · rw [hkind]
    exact .pure ⟨l, rfl, .refl hl _, hd⟩

theorem emitCast_yields {id r} {f : UInt64 → UInt64} (hl : Plain l) (hd : Delivers t.types l id n)
    (hw : r.word = n.word.map f)
    (hcast : ∀ w, cast.eval t.types r.scalar.ty (n.scalar.value w) = .ok (r.scalar.value (f w))) :
    Yields (emit (.cast cast id) r.scalar.ty place) c t (.straight name span l)
      (fun id' => Extended t name span l (.ok ()) 1 fun l' => Delivers t.types l' id' r) E := by
  refine (emit_yields hl (by exact decide_eq_true hd.lt) rfl fun regs hr => ?_).imp ?_ fun _ h => h
  · obtain ⟨w, hword, hval⟩ := hd.word regs hr
    rw [hw, hword]
    show (cast.eval t.types r.scalar.ty (regs.value id)).mapError _ = _
    rw [hval, hcast]
    rfl
  · rintro id' _ ⟨l', rfl, hcont, hd'⟩
    refine ⟨l', rfl, hcont.congr fun regs hr => ?_, hd'⟩
    obtain ⟨w, hword, -⟩ := hd.word regs hr
    rw [Number.status, hw, hword]
    rfl

/-- The cast makes a number of a type out of every word of another. -/
def Casts (t : TypeTable) (cast : CastOp) (source target : Scalar) : Prop :=
  ∀ w, cast.eval t target.ty (source.value w) = .ok (target.value (target.cast w))

private theorem computeCast_yields (hl : Plain l) (hop : op.Carries t.types l n)
    (hcast : Casts t.types cast n.scalar target) :
    Yields (do
        let operand ← materialize op
        return Operand.instr (← emit (.cast cast operand) target.ty op.span) target.ty op.span) c t
      (.straight name span l) (fun op' => Extended t name span l (.ok ()) 2 fun l' =>
        Operand.Carries t.types l' op' (n.cast target false false)) E := by
  refine (materialize_yields hl hop).bind ?_
  rintro id _ ⟨l1, rfl, hcont, hd⟩
  refine (emitCast_yields (r := n.cast target false false) hcont.plain hd rfl hcast).bind ?_
  rintro id' _ ⟨l2, rfl, hcont', hd'⟩
  exact .pure ⟨l2, rfl, hcont.trans hcont', .instr hd' rfl op.span⟩

theorem convert_yields (hl : Plain l) (hop : op.Carries t.types l n) (hcast : Casts t.types cast n.scalar target) :
    Yields (convert op cast target.ty) c t (.straight name span l)
      (fun op' => Extended t name span l (.ok ()) 2 fun l' => Operand.Carries t.types l' op'
        (n.cast target false (n.known && c.config.foldConstants))) E := by
  unfold convert
  refine .reads Analysis.folding_reads ?_
  obtain ⟨w, hk, hkind, hw⟩ | ⟨id, hk, hkind, hd⟩ := hop.cases
  · rw [hkind, hk, Bool.true_and]
    cases c.config.foldConstants with
    | false => exact computeCast_yields hl hop hcast
    | true =>
      refine .reads Analysis.types_reads ?_
      rw [hcast w]
      refine .pure ⟨l, rfl, .refl hl _, ?_⟩
      rw [Number.cast, hw]
      exact .const t.types l op.span
  · rw [hkind, hk, Bool.false_and]
    exact computeCast_yields hl hop hcast

/-- What becomes of a number that was written, where another type is expected. -/
def Adapted (t : Tables) (name : String) (span : Span) (l : List Instr) (n : Number)
    (target : Scalar) (r : Option Operand) : Draft → Prop :=
  Extended t name span l (.ok ()) 2 fun l' =>
    match r with
    | some op' => n.fits target = true ∧
      Operand.Carries t.types l' op' (n.cast target n.known n.known)
    | none => n.scalar.isReal = true ∧ n.fits target = false

theorem adapt_yields_int (ht : t.types.Numbers) (hl : Plain l) (hop : op.Carries t.types l n)
    (hne : n.scalar ≠ target) (hint : n.scalar.isReal = false) :
    Yields (adapt op target.ty) c t (.straight name span l) (Adapted t name span l n target)
      (fun h => h.Reported ∧ n.fits target = false) := by
  have hvalue (w : UInt64) : n.scalar.value w = .int w := by
    cases hs : n.scalar <;> first | rfl | simp [hs, Scalar.isReal] at hint
  have hexact (w : UInt64) : t.types.exact op.ty w = Word.toInt w true := by
    rw [TypeTable.exact, hop.ty, ht.intInfo_int hint]
    rfl
  obtain ⟨cast, hcast, hword⟩ := ht.castOp hne hint
  have hcasts : Casts t.types cast n.scalar target := fun w => by rw [hvalue, hword]
  have hisInt : t.types.isInt op.ty = true := by rw [hop.ty, ht.isInt, hint]; rfl
  unfold adapt
  refine .reads Analysis.types_reads ?_
  obtain ⟨w, hk, hkind, hw⟩ | ⟨id, hk, hkind, hd⟩ := hop.cases
  · cases hreal : target.isReal with
    | false =>
      have hfits : n.fits target = Word.inRange (Word.toInt w true) target.bits true := by
        simp [Number.fits, hk, hw, hint, hreal]
      rw [ht.plainInt_int hreal, if_neg (by simp [hisInt]), hkind, hvalue]
      dsimp only
      rw [hexact, ← hfits]
      cases hin : n.fits target with
      | true =>
        refine .pure ⟨l, rfl, .refl hl _, hin, ?_⟩
        have hcanonical : Value.ofRaw w target.bits true = target.value (target.cast w) := by
          cases target <;> first | rfl | cases hreal
        rw [Number.cast, hw, hk, Word.ofInt_toInt, hcanonical]
        exact .const t.types l op.span
      | false => exact .reads (Analysis.quoted_reads _) (.typeError fun d => ⟨⟨d, rfl⟩, rfl⟩)
    | true =>
      cases target <;> cases hreal
      rw [ht.plainInt_real, if_neg (by simp [ht.isReal, Scalar.isReal]), hkind, hvalue]
      dsimp only
      rw [hop.ty, hcast]
      dsimp only
      rw [hword]
      refine .pure ⟨l, rfl, .refl hl _, rfl, ?_⟩
      rw [Number.cast, hw, hk]
      exact .const t.types l op.span
  · have hfits : n.fits target = true := by simp [Number.fits, hk, hint]
    rw [if_neg]
    swap
    · cases hreal : target.isReal with
      | false => simp [ht.plainInt_int hreal, hisInt]
      | true => simp [ht.isReal, hreal, hisInt]
    rw [hkind]
    dsimp only
    rw [hop.ty, hcast]
    refine (emitCast_yields (r := n.cast target false false) hl hd rfl hcasts).bind ?_
    rintro id' _ ⟨l', rfl, hcont, hd'⟩
    refine .pure ⟨l', rfl, hcont.mono (by decide), hfits, ?_⟩
    rw [hk]
    exact .instr hd' rfl op.span

theorem adapt_yields (ht : t.types.Numbers) (hl : Plain l) (hop : op.Carries t.types l n) (hne : n.scalar ≠ target) :
    Yields (adapt op target.ty) c t (.straight name span l) (Adapted t name span l n target)
      (fun h => h.Reported ∧ n.fits target = false) := by
  cases hreal : n.scalar.isReal with
  | false => exact adapt_yields_int ht hl hop hne hreal
  | true =>
    have htarget : target.isReal = false := by
      cases hn : n.scalar <;> cases target <;> simp_all [Scalar.isReal]
    unfold adapt
    refine .reads Analysis.types_reads ?_
    rw [ht.plainInt_int htarget, if_pos (by simp [hop.ty, ht.isInt, hreal])]
    refine .pure ⟨l, rfl, .refl hl _, hreal, ?_⟩
    rw [Number.fits, htarget, hreal]
    rfl

theorem widen_yields (ht : t.types.Numbers) (hl : Plain l) (hop : op.Carries t.types l n) (hne : n.scalar ≠ target) :
    Yields (widen op target.ty) c t (.straight name span l)
      (fun op' => Extended t name span l (.ok ()) 2 fun l' => (n.scalar = .s32 ∧ target = .s64) ∧
        Operand.Carries t.types l' op' (n.cast target false (n.known && c.config.foldConstants)))
      (fun h => h.Reported ∧ ¬ (n.scalar = .s32 ∧ target = .s64)) := by
  unfold widen
  refine .reads Analysis.types_reads ?_
  rw [hop.ty]
  by_cases hw : n.scalar = .s32 ∧ target = .s64
  · obtain ⟨cast, hcast, hword⟩ := ht.castOp hne (by rw [hw.1]; rfl)
    have hcasts : Casts t.types cast n.scalar target := fun w => by rw [hw.1]; exact hword w
    obtain ⟨rank, hrank⟩ := Option.isSome_iff_exists.mp ((ht.rank_isSome hne).mpr hw)
    rw [hcast, hrank]
    refine (convert_yields hl hop hcasts).imp ?_ fun _ h => h
    rintro op' _ ⟨l', rfl, hcont, hop'⟩
    exact ⟨l', rfl, hcont, hw, hop'⟩
  · rw [Option.not_isSome_iff_eq_none.mp (mt (ht.rank_isSome hne).mp hw)]
    exact .halts rfl ⟨⟨_, rfl⟩, hw⟩

/-- Converting an operand converts the number it carries. -/
theorem coerce_yields (ht : t.types.Numbers) (target : Scalar) (hl : Plain l) (hop : op.Carries t.types l n) :
    Yields (coerce op target.ty) c t (.straight name span l) (fun op' => Extended t name span l (.ok ()) 2 fun l' => ∃ n',
        n.convert c.config.foldConstants target = some n' ∧ Operand.Carries t.types l' op' n')
      (fun h => h.Reported ∧ n.convert c.config.foldConstants target = none) := by
  have hvalue : coerce op target.ty = coerceValue op target.ty := by
    unfold coerce
    rw [rvalue_of_carries hop, pure_bind]
    obtain ⟨w, -, hkind, -⟩ | ⟨id, -, hkind, -⟩ := hop.cases <;> rw [hkind]
  rw [hvalue, coerceValue]
  by_cases heq : n.scalar = target
  · subst heq
    rw [if_pos hop.ty]
    exact .pure ⟨l, rfl, .refl hl _, n, n.convert_scalar _, hop⟩
  · have hty : op.ty ≠ target.ty := fun h => heq (Scalar.ty_injective (hop.ty ▸ h))
    rw [if_neg hty, hop.literal, Number.convert, if_neg heq]
    cases n.literal with
    | true =>
      refine ((adapt_yields ht hl hop heq).imp (fun _ _ h => h) ?_).bind ?_
      · rintro h ⟨hr, hf⟩
        exact ⟨hr, by simp [hf]⟩
      · rintro r _ ⟨l', rfl, hcont, hr⟩
        cases r with
        | some op' => exact .pure ⟨l', rfl, hcont, _, by simp [hr.1], hr.2⟩
        | none =>
          -- only a real is left over, and no real is widened
          obtain ⟨hreal, hf⟩ := hr
          refine (widen_yields ht hcont.plain (hop.mono hcont.begins) heq).imp ?_ ?_
          · rintro op' _ ⟨_, -, -, ⟨hs, -⟩, -⟩
            rw [hs] at hreal
            cases hreal
          · rintro h ⟨hr, -⟩
            exact ⟨hr, by simp [hf]⟩
    | false =>
      refine (widen_yields ht hl hop heq).imp ?_ ?_
      · rintro op' _ ⟨l', rfl, hcont, htarget, hop'⟩
        exact ⟨l', rfl, hcont, _, by simp [htarget], hop'⟩
      · rintro h ⟨hr, htarget⟩
        exact ⟨hr, by simp [htarget]⟩

end Lower

end Comptime
