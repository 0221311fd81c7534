import Comptime.Proofs.Arithmetic.Operand

/-!
# From expressions to code

The analysis of a numeric expression follows its meaning: it gives an operand that stands for the
quantity of the expression, together with code that traps as the quantity does, or it halts, because
a name has no value yet or because the expression breaks a rule.

Main result: `Lower.expression_yields`, by induction on the expression.
-/

namespace Comptime

open Analysis (types_reads quoted_reads folding_reads scopes_reads node_reads)

/-- The operand stands for a quantity, after the code has run. -/
inductive Operand.Represents (t : TypeTable) (l : List Instr) (op : Operand) : Quantity → Prop
  | number {n : Number} (carries : op.Carries t l n) : Represents t l op (.number n)
  | type {ty : TypeId} (kind : op.kind = .const (.type ty)) (typed : op.ty = .type)
    (literal : op.literal = false) : Represents t l op (.type ty)

/-- Whether the code for a quantity runs to its end. -/
def Quantity.status : Quantity → Except Trap Unit
  | number n => n.status
  | type _ => .ok ()

namespace Number

theorem status_unary {n m : Number} {fold op} (h : n.unary fold op = some m) :
    (n.status.bind fun _ => m.status) = m.status := by
  obtain ⟨-, rfl⟩ := unary_eq_some.mp h
  unfold status
  cases n.word <;> rfl

theorem status_binary {fold} {op l r n span} (h : binary fold op l r span = some n) :
    ((l.status.bind fun _ => r.status).bind fun _ => n.status) = n.status := by
  obtain ⟨s, f, g, -, hn⟩ := word_of_binary h
  unfold status
  rw [hn]
  cases l.word with
  | error => rfl
  | ok => cases r.word <;> rfl

end Number

namespace Operand.Represents

variable {t : TypeTable} {l l' : List Instr} {op : Operand} {q : Quantity}

private theorem mono (h : op.Represents t l q) (hl : l <+: l') : op.Represents t l' q := by
  cases h with
  | number carries => exact .number (carries.mono hl)
  | type kind typed literal => exact .type kind typed literal

theorem rvalue (h : op.Represents t l q) : Lower.rvalue op = pure op := by
  unfold Lower.rvalue
  cases h with
  | type kind => rw [kind]
  | number carries =>
    obtain ⟨w, -, hkind, -⟩ | ⟨id, -, hkind, -⟩ := carries.cases <;> rw [hkind]

theorem coerce (h : op.Represents t l q) (ty) : Lower.coerce op ty = Lower.coerceValue op ty := by
  unfold Lower.coerce
  rw [h.rvalue, pure_bind]
  cases h with
  | type kind => rw [kind]
  | number carries =>
    obtain ⟨w, -, hkind, -⟩ | ⟨id, -, hkind, -⟩ := carries.cases <;> rw [hkind]

theorem coerce_self (h : op.Represents t l q) {ty} (hty : op.ty = ty) : Lower.coerce op ty = pure op := by
  rw [h.coerce, Lower.coerceValue, if_pos hty]

end Operand.Represents

namespace Lower

variable {c : Context} {t : Tables} {name : String} {span place : Span} {l : List Instr} {a b : Operand}
  {m n : Number} {literal : Bool}

/-! ## Operators with two operands -/

/-- Two operands have been given one type. -/
def Unified (c : Context) (t : Tables) (name : String) (span : Span) (l : List Instr)
    (m n : Number) (s : Scalar) (r : Operand × Operand) : Draft → Prop :=
  Extended t name span l (.ok ()) 4 fun l' => ∃ m' n', m.convert c.config.foldConstants s = some m' ∧
    n.convert c.config.foldConstants s = some n' ∧ r.1.Carries t.types l' m' ∧ r.2.Carries t.types l' n'

/-- One of two numbers cannot be given a type. -/
def Clash (c : Context) (m n : Number) (s : Scalar) (h : Halt) : Prop :=
  h.Reported ∧ (m.convert c.config.foldConstants s = none ∨ n.convert c.config.foldConstants s = none)

section

variable (ht : t.types.Numbers)

include ht

private theorem coerceBoth_yields (s) (hl : Plain l) (ha : a.Carries t.types l m)
    (hb : b.Carries t.types l n) :
    Yields (do
        let lhs ← coerce a s.ty
        return (lhs, ← coerce b s.ty)) c t (.straight name span l)
      (Unified c t name span l m n s) (Clash c m n s) := by
  refine ((coerce_yields ht s hl ha).imp (fun _ _ h => h) fun _ h => ⟨h.1, .inl h.2⟩).bind ?_
  rintro a' _ ⟨l1, rfl, hcont, m', hm, ha'⟩
  refine ((coerce_yields ht s hcont.plain (hb.mono hcont.begins)).imp (fun _ _ h => h)
    fun _ h => ⟨h.1, .inr h.2⟩).bind ?_
  rintro b' _ ⟨l2, rfl, hcont', n', hn, hb'⟩
  exact .pure ⟨l2, rfl, hcont.trans hcont', m', n', hm, hn, ha'.mono hcont'.begins, hb'⟩

private theorem meetingType_eq (ha : a.Carries t.types l m)
    (hb : b.Carries t.types l n) (hliteral : m.literal = n.literal) :
    t.types.meetingType a b = (m.meet n).map Scalar.ty := by
  rw [TypeTable.meetingType, ha.ty, hb.ty, ht.commonType, ha.literal, hb.literal, ht.isReal,
    ht.isReal, Number.meet, hliteral]
  cases n.literal with
  | true => cases m.scalar <;> cases n.scalar <;> rfl
  | false => cases m.scalar.common n.scalar <;> rfl

theorem unifyOperands_yields (op) (hl : Plain l) (ha : a.Carries t.types l m)
    (hb : b.Carries t.types l n) :
    Yields (unifyOperands op a b place) c t (.straight name span l)
      (fun r d => ∃ s, m.meet n = some s ∧ Unified c t name span l m n s r d)
      (fun h => h.Reported ∧ ∀ s, m.meet n = some s → Clash c m n s h) := by
  have htogether (s : Scalar) (hs : m.meet n = some s) : Yields (do
        let lhs ← coerce a s.ty
        return (lhs, ← coerce b s.ty)) c t (.straight name span l)
      (fun r d => ∃ s, m.meet n = some s ∧ Unified c t name span l m n s r d)
      (fun h => h.Reported ∧ ∀ s, m.meet n = some s → Clash c m n s h) := by
    refine (coerceBoth_yields ht s hl ha hb).imp (fun _ _ h => ⟨s, hs, h⟩) fun h hc => ?_
    refine ⟨hc.1, fun s' hs' => ?_⟩
    rw [hs] at hs'
    cases hs'
    exact hc
  unfold unifyOperands
  rw [ha.literal, hb.literal]
  cases hml : m.literal <;> cases hnl : n.literal
  · refine .reads types_reads ?_
    rw [meetingType_eq ht ha hb (by rw [hml, hnl])]
    cases hmeet : m.meet n with
    | some s =>
      rw [hmeet] at htogether
      exact htogether s rfl
    | none =>
      refine .reads (quoted_reads _) (.reads (quoted_reads _) ?_)
      exact .typeError fun d => ⟨⟨d, rfl⟩, nofun⟩
  · have hmeet : m.meet n = some m.scalar := by rw [Number.meet, hml, hnl]
    rw [ha.ty, hmeet]
    refine ((coerce_yields ht m.scalar hl hb).imp (fun _ _ h => h) ?_).bind ?_
    · rintro h ⟨hr, hnone⟩
      refine ⟨hr, fun s hs => ?_⟩
      cases hs
      exact ⟨hr, .inr hnone⟩
    · rintro b' _ ⟨l', rfl, hcont, n', hn, hb'⟩
      exact .pure ⟨_, rfl, l', rfl, hcont.mono (by decide), m, n', m.convert_scalar _, hn, ha.mono hcont.begins, hb'⟩
  · have hmeet : m.meet n = some n.scalar := by rw [Number.meet, hml, hnl]
    rw [hb.ty, hmeet]
    refine ((coerce_yields ht n.scalar hl ha).imp (fun _ _ h => h) ?_).bind ?_
    · rintro h ⟨hr, hnone⟩
      refine ⟨hr, fun s hs => ?_⟩
      cases hs
      exact ⟨hr, .inl hnone⟩
    · rintro a' _ ⟨l', rfl, hcont, m', hm, ha'⟩
      exact .pure ⟨_, rfl, l', rfl, hcont.mono (by decide), m', n, hm, n.convert_scalar _, ha', hb.mono hcont.begins⟩
  · obtain ⟨s, hs⟩ : ∃ s, m.meet n = some s := ⟨_, by rw [Number.meet, hml, hnl]⟩
    refine .reads types_reads ?_
    rw [meetingType_eq ht ha hb (by rw [hml, hnl]), hs]
    rw [hs] at htogether
    exact htogether s rfl

/-- An operand has been found, and code been written, that stand for a quantity. -/
def Lowered (t : Tables) (name : String) (span : Span) (l : List Instr) (count : Nat) (q : Quantity)
    (op : Operand) : Draft → Prop :=
  Extended t name span l q.status count fun l' => op.Represents t.types l' q

/-- An operator is refused, or folding it traps. -/
def Refusal (c : Context) (r : Option Quantity) (h : Halt) : Prop :=
  (h.Reported ∧ r = none) ∨ ∃ n trap, r = some (.number n) ∧ n.word = .error trap ∧ h = .trap trap ∧
    c.config.foldConstants = true

theorem computeBinary_yields {op} (hop : op.isArithmetic = true) {s} (hl : Plain l)
    (ha : a.Carries t.types l m) (hb : b.Carries t.types l n) (hm : m.scalar = s) (hn : n.scalar = s)
    (E : Halt → Prop) :
    Yields (do
        let i ← materialize a
        let j ← materialize b
        return { Operand.instr (← emit (.binary op i j) s.ty place) s.ty place with literal })
      c t (.straight name span l) (Lowered t name span l 3
        (.number ⟨s, literal, false, Number.combine op s place m.word n.word⟩)) E := by
  refine (materialize_yields hl ha).bind ?_
  rintro i _ ⟨l1, rfl, hcont1, hi⟩
  refine (materialize_yields hcont1.plain (hb.mono hcont1.begins)).bind ?_
  rintro j _ ⟨l2, rfl, hcont2, hj⟩
  have hi := hi.mono hcont2.begins
  refine (emit_yields (n := ⟨s, literal, false, Number.combine op s place m.word n.word⟩) hcont2.plain
    (by simp [InstrKind.isPlain, hi.lt, hj.lt]) rfl fun regs hr => ?_).bind ?_
  · obtain ⟨x, hx, hix⟩ := hi.word regs hr
    obtain ⟨y, hy, hjy⟩ := hj.word regs hr
    show (op.eval t.types (regs.typeOf i) (regs.value i) (regs.value j)).mapError _ = _
    rw [hi.typeOf hr, hix, hjy, hm, hn, ht.binary_eval hop, hx, hy]
    show _ = ((s.combine op x y).mapError _).map _
    cases s.combine op x y <;> rfl
  · rintro id _ ⟨l3, rfl, hcont3, hd⟩
    exact .pure ⟨l3, rfl, (hcont1.trans hcont2).trans hcont3, .number (.instr hd rfl place)⟩

theorem applyBinary_yields {op} (hop : op.isArithmetic = true) {s} (hl : Plain l)
    (ha : a.Carries t.types l m) (hb : b.Carries t.types l n) (hm : m.scalar = s) (hn : n.scalar = s) :
    Yields (do
        match a.const?, b.const?, ← Analysis.folding with
        | some x, some y, true =>
          let v ← Analysis.orTrapAt place (op.eval t.types s.ty x y)
          return { Operand.constant v s.ty place with literal }
        | _, _, _ =>
          let i ← materialize a
          let j ← materialize b
          return { Operand.instr (← emit (.binary op i j) s.ty place) s.ty place with literal }) c t
      (.straight name span l) (Lowered t name span l 3 (.number ⟨s, literal,
        c.config.foldConstants && m.known && n.known, Number.combine op s place m.word n.word⟩))
      (fun h => ∃ trap, Number.combine op s place m.word n.word = .error trap ∧ h = .trap trap ∧
        c.config.foldConstants = true) := by
  refine .reads folding_reads ?_
  cases hmk : m.known with
  | false =>
    rw [ha.const?_computed hmk, Bool.and_false, Bool.false_and]
    exact computeBinary_yields ht hop hl ha hb hm hn _
  | true =>
    obtain ⟨x, hx, hmx⟩ := ha.const?_known hmk
    cases hnk : n.known with
    | false =>
      rw [hx, hb.const?_computed hnk, Bool.and_false]
      exact computeBinary_yields ht hop hl ha hb hm hn _
    | true =>
      obtain ⟨y, hy, hny⟩ := hb.const?_known hnk
      rw [hx, hy]
      cases hfold : c.config.foldConstants with
      | false => exact computeBinary_yields ht hop hl ha hb hm hn _
      | true =>
        have hcombine : Number.combine op s place m.word n.word =
            (s.combine op x y).mapError fun kind => ⟨kind, place⟩ := by
          rw [hmx, hny]
          rfl
        dsimp only
        rw [hcombine, hm, hn, ht.binary_eval hop]
        cases hv : s.combine op x y with
        | ok v =>
          exact .pure ⟨l, rfl, .refl hl _, .number (.const t.types l place)⟩
        | error kind => exact .throw ⟨⟨kind, place⟩, rfl, rfl, rfl⟩

theorem binary_yields {op} (hop : op.isArithmetic = true) (hl : Plain l)
    (ha : a.Carries t.types l m) (hb : b.Carries t.types l n) :
    Yields (binary op a b place) c t (.straight name span l)
      (fun o d => ∃ r, Number.binary c.config.foldConstants op m n place = some r ∧
        Lowered t name span l 7 (.number r) o d)
      (Refusal c ((Number.binary c.config.foldConstants op m n place).map .number)) := by
  have hcmp : op.isComparison = false := by
    cases h : op.isComparison
    · rfl
    · simp [BinaryOp.isArithmetic, h] at hop
  have hrefused {h : Halt} (hr : h.Reported) (hnone : Number.binary c.config.foldConstants op m n place = none) :
      Refusal c ((Number.binary c.config.foldConstants op m n place).map .number) h :=
    .inl ⟨hr, by rw [hnone]; rfl⟩
  unfold binary
  refine ((unifyOperands_yields ht op hl ha hb).imp (fun _ _ h => h) ?_).bind ?_
  · rintro h ⟨hr, hclash⟩
    refine hrefused hr (Option.eq_none_iff_forall_ne_some.mpr fun r hsome => ?_)
    obtain ⟨s, m', n', hs, hm, hn, -⟩ := Number.binary_eq_some.mp hsome
    rcases (hclash s hs).2 with hnone | hnone
    · simp [hnone] at hm
    · simp [hnone] at hn
  · rintro ⟨a', b'⟩ _ ⟨s, hs, l', rfl, hcont, m', n', hm, hn, ha', hb'⟩
    have hms : m'.scalar = s := Number.scalar_of_convert hm
    have hns : n'.scalar = s := Number.scalar_of_convert hn
    refine .reads types_reads ?_
    dsimp only
    rw [ha'.ty, hms, ht.allowsBinary hop, hcmp, ha'.literal, hb'.literal]
    simp only [Bool.not_false, Bool.and_true]
    cases hallowed : s.allowsBinary op with
    | false =>
      refine .reads (quoted_reads _) (.typeError fun d => hrefused ⟨d, rfl⟩ ?_)
      refine Option.eq_none_iff_forall_ne_some.mpr fun r hsome => ?_
      obtain ⟨s', -, -, hs', -, -, hallowed', -⟩ := Number.binary_eq_some.mp hsome
      rw [hs] at hs'
      cases hs'
      simp [hallowed] at hallowed'
    | true =>
      have hbinary : Number.binary c.config.foldConstants op m n place = some _ :=
        Number.binary_eq_some.mpr ⟨s, m', n', hs, hm, hn, hallowed, rfl⟩
      refine (applyBinary_yields (c := c) ht hop hcont.plain ha' hb' hms hns).imp ?_ ?_
      · rintro o _ ⟨l'', rfl, hcont', ho⟩
        exact ⟨_, hbinary, l'', rfl, hcont.trans hcont', ho⟩
      · rintro h ⟨trap, hword, rfl, hfold⟩
        exact .inr ⟨_, trap, by rw [hbinary]; rfl, hword, rfl, hfold⟩

end

/-- The piece of analysis halts with an error. -/
abbrev Fails {α : Type} (x : Lower α) (c : Context) (t : Tables) (d : Draft) : Prop :=
  Yields x c t d (fun _ _ => False) Halt.Reported

theorem Fails.bind {α β : Type} {x : Lower α} {k : α → Lower β} {d} (h : Fails x c t d) : Fails (x >>= k) c t d :=
  Yields.bind h fun _ _ h => h.elim

theorem coerceType_fails (ht : t.types.Numbers) (ha : a.Carries t.types l m) :
    Fails (coerce a .type) c t (.straight name span l) := by
  have hwiden : Fails (widen a .type) c t (.straight name span l) := by
    unfold widen
    refine .reads types_reads ?_
    rw [ha.ty, (ht.rank_type m.scalar).1]
    exact .halts rfl ⟨_, rfl⟩
  have hplain : t.types.plainInt .type = none := by
    rw [TypeTable.plainInt, ht.not_isInt_type]
    rfl
  have hadapt : Yields (adapt a .type) c t (.straight name span l)
      (fun r d => r = none ∧ d = .straight name span l) Halt.Reported := by
    unfold adapt
    refine .reads types_reads ?_
    rw [hplain, ht.not_isReal_type]
    exact .pure ⟨rfl, rfl⟩
  rw [(Operand.Represents.number ha).coerce, coerceValue, if_neg (ha.ty ▸ m.scalar.ty_ne_type)]
  cases a.literal with
  | false => exact hwiden
  | true =>
    refine hadapt.bind ?_
    rintro _ _ ⟨rfl, rfl⟩
    exact hwiden

private theorem unify_fails (op) {d} (hmeeting : t.types.meetingType a b = none) (ha : a.literal = false)
    (hb : b.literal = false) : Fails (unifyOperands op a b place) c t d := by
  unfold unifyOperands
  rw [ha, hb]
  refine .reads types_reads ?_
  rw [hmeeting]
  exact .reads (quoted_reads _) (.reads (quoted_reads _) (.typeError fun d => ⟨d, rfl⟩))

private theorem unifyType_fails (ht : t.types.Numbers) (op) {ty}
    (hab : (a.Carries t.types l m ∧ b.Represents t.types l (.type ty)) ∨
      (b.Carries t.types l m ∧ a.Represents t.types l (.type ty))) :
    Fails (unifyOperands op a b place) c t (.straight name span l) := by
  obtain ⟨hrank, hrank'⟩ := ht.rank_type m.scalar
  have hne : m.scalar.ty ≠ .type := m.scalar.ty_ne_type
  rcases hab with ⟨ha, _ | ⟨-, typed, literal⟩⟩ | ⟨hb, _ | ⟨-, typed, literal⟩⟩
  · have hmeeting : t.types.meetingType a b = none := by
      rw [TypeTable.meetingType, TypeTable.commonType, ha.ty, typed, if_neg hne, hrank, hrank']
      simp [literal]
    cases hlit : a.literal with
    | true =>
      rw [unifyOperands, hlit, literal, typed]
      exact (coerceType_fails ht ha).bind
    | false => exact unify_fails op hmeeting hlit literal
  · have hmeeting : t.types.meetingType a b = none := by
      rw [TypeTable.meetingType, TypeTable.commonType, hb.ty, typed, if_neg hne.symm, hrank, hrank']
      simp [literal]
    cases hlit : b.literal with
    | true =>
      rw [unifyOperands, hlit, literal, typed]
      exact (coerceType_fails ht hb).bind
    | false => exact unify_fails op hmeeting literal hlit

theorem binaryType_fails (ht : t.types.Numbers) {op} (hop : op.isArithmetic = true) {p q}
    (ha : a.Represents t.types l p) (hb : b.Represents t.types l q)
    (htype : (∃ ty, p = .type ty) ∨ ∃ ty, q = .type ty) :
    Fails (binary op a b place) c t (.straight name span l) := by
  unfold binary
  cases ha with
  | number carries =>
    obtain ⟨_, ⟨⟩⟩ | ⟨ty, rfl⟩ := htype
    exact (unifyType_fails ht op (.inl ⟨carries, hb⟩)).bind
  | type kind typed literal =>
    cases hb with
    | number carries =>
      exact (unifyType_fails ht op (.inr ⟨carries, .type kind typed literal⟩)).bind
    | type kind' typed' literal' =>
      have hmeeting : t.types.meetingType a b = some .type := by
        rw [TypeTable.meetingType, TypeTable.commonType, typed, typed', if_pos rfl]
      have ha := Operand.Represents.type (t := t.types) (l := l) kind typed literal
      have hb := Operand.Represents.type (t := t.types) (l := l) kind' typed' literal'
      refine Yields.bind (P := fun r d => r.1.ty = .type ∧ d = .straight name span l) ?_ ?_
      · unfold unifyOperands
        rw [literal, literal']
        refine .reads types_reads ?_
        rw [hmeeting]
        dsimp only
        rw [ha.coerce_self typed, hb.coerce_self typed']
        exact .pure ⟨typed, rfl⟩
      · rintro ⟨a', b'⟩ _ ⟨htyped, rfl⟩
        refine .reads types_reads ?_
        dsimp only at htyped ⊢
        rw [htyped, ht.not_allowsBinary_type hop]
        exact .reads (quoted_reads _) (.typeError fun d => ⟨d, rfl⟩)

/-! ## Operators with one operand -/

private theorem computeUnary_yields (ht : t.types.Numbers) {op} (hl : Plain l) (ha : a.Carries t.types l m)
    (hn : m.unary false op = some n) (E : Halt → Prop) :
    Yields (do
        let i ← materialize a
        return { Operand.instr (← emit (.unary op i) m.scalar.ty place) m.scalar.ty place with
          literal := m.literal }) c t (.straight name span l)
      (Lowered t name span l 2 (.number n)) E := by
  obtain ⟨hop, rfl⟩ := Number.unary_eq_some.mp hn
  refine (materialize_yields hl ha).bind ?_
  rintro i _ ⟨l1, rfl, hcont, hi⟩
  refine (emit_yields (n := ⟨m.scalar, m.literal, false && m.known, m.word.map (Scalar.change op m.scalar)⟩)
    hcont.plain (by exact decide_eq_true hi.lt) rfl fun regs hr => ?_).bind ?_
  · obtain ⟨x, hx, hix⟩ := hi.word regs hr
    show (op.eval t.types (regs.typeOf i) (regs.value i)).mapError _ = _
    rw [hi.typeOf hr, hix, ht.unary_eval hop, hx]
    rfl
  · rintro id _ ⟨l2, rfl, hcont', hd⟩
    exact .pure ⟨l2, rfl, hcont.trans hcont', .number (.instr hd rfl place)⟩

theorem unary_yields (ht : t.types.Numbers) {op} (hl : Plain l) (ha : a.Carries t.types l m)
    (hn : m.unary c.config.foldConstants op = some n) (E : Halt → Prop) :
    Yields (unary op a place) c t (.straight name span l) (Lowered t name span l 2 (.number n)) E := by
  obtain ⟨hop, hvalue⟩ := Number.unary_eq_some.mp hn
  unfold unary
  rw [rvalue_of_carries ha, pure_bind]
  refine .reads types_reads ?_
  dsimp only
  rw [ha.ty, ha.literal, ht.allowsUnary, hop]
  refine .reads folding_reads ?_
  cases hm : m.known with
  | false =>
    have hunary : m.unary false op = some n := by
      rw [← hn, Number.unary, Number.unary, hm, Bool.and_false, Bool.and_false]
    rw [ha.const?_computed hm]
    exact computeUnary_yields ht hl ha hunary E
  | true =>
    obtain ⟨x, hx, hmx⟩ := ha.const?_known hm
    rw [hx]
    cases hfold : c.config.foldConstants with
    | false =>
      rw [hfold] at hn
      exact computeUnary_yields ht hl ha hn E
    | true =>
      rw [hfold, hm, hmx] at hvalue
      subst hvalue
      dsimp only
      rw [ht.unary_eval hop]
      exact .pure ⟨l, rfl, .refl hl _, .number (.const t.types l place)⟩

theorem unary_fails {op q} (ha : a.Represents t.types l q) (hrefused : t.types.allowsUnary op a.ty = false) :
    Fails (unary op a place) c t (.straight name span l) := by
  unfold unary
  rw [ha.rvalue, pure_bind]
  refine .reads types_reads ?_
  dsimp only
  rw [hrefused]
  exact .reads (quoted_reads _) (.typeError fun d => ⟨d, rfl⟩)

end Lower

/-! ## Names -/

/-- What the name of a constant is bound to. -/
def Constant.symbolValue : Constant → SymbolValue
  | number scalar word => .const scalar.ty (scalar.value word)
  | type ty => .type ty

/-- What is known of a name. -/
inductive Standing where
  | means (value : Constant)
  /-- The task will find out. -/
  | awaits (task : TaskId)
  | lost
  | unknown

namespace Standing

def constant? : Standing → Option Constant
  | means value => some value
  | _ => none

/-- Analysis halts at the name for this reason. -/
def Stops : Standing → Halt → Prop
  | means _, _ => False
  | awaits task, h => h = .postpone task
  | lost, h => h = .silent
  | unknown, h => h.Reported

end Standing

/-- What is known of a name in a scope. -/
inductive Scopes.Shows (g : Scopes) (scope : ScopeId) (x : String) : Standing → Prop
  | means {found : Found} {value : Constant} (look : g.lookup scope x = some found)
    (state : (g.symbol found.symbol).state = .resolved value.symbolValue) :
    Shows g scope x (.means value)
  | awaits {found : Found} {task : TaskId} (look : g.lookup scope x = some found)
    (state : (g.symbol found.symbol).state = .unresolved (some task)) : Shows g scope x (.awaits task)
  | lost {found : Found} (look : g.lookup scope x = some found)
    (state : (g.symbol found.symbol).state = .failed) : Shows g scope x .lost
  | unknown (look : g.lookup scope x = none) : Shows g scope x .unknown

namespace Lower

variable {c : Context} {t : Tables} {name : String} {span place : Span} {l : List Instr} {scope : ScopeId}

theorem ident_yields {x} {standing} (hl : Plain l) (hx : t.scopes.Shows scope x standing) :
    Yields (ident scope x place) c t (.straight name span l)
      (fun o d => ∃ k, standing = .means k ∧ Lowered t name span l 0 (.ofConstant k) o d)
      standing.Stops := by
  unfold ident
  refine .reads scopes_reads ?_
  cases hx with
  | unknown look =>
    rw [look]
    exact .throw ⟨_, rfl⟩
  | lost look state | awaits look state =>
    rw [look]
    refine .reads scopes_reads ?_
    dsimp only
    rw [state]
    exact .throw rfl
  | @means found value look state =>
    rw [look]
    refine .reads scopes_reads ?_
    dsimp only
    rw [state]
    cases value with
    | number scalar word =>
      exact .pure ⟨_, rfl, l, rfl, .refl hl _, .number (.const t.types l place)⟩
    | type ty => exact .pure ⟨_, rfl, l, rfl, .refl hl _, .type rfl rfl rfl⟩

/-! ## Expressions -/

/-- The names that have a value have the same one in the environment. -/
def Agrees (view : String → Standing) (env : String → Option Constant) : Prop :=
  ∀ x k, (view x).constant? = some k → env x = some k

/-- Why the analysis of an expression halts. What is said of the meaning holds whatever the names
stand for that have no value yet. -/
inductive Hindered (c : Context) (view : String → Standing) (e : Arith) (h : Halt) : Prop
  | name {x : String} (mem : x ∈ e.names) (stops : (view x).Stops h)
  | refused (reported : h.Reported)
    (meaningless : ∀ env, Agrees view env → ∀ q, e.eval c.config.foldConstants env ≠ some q)
  | trapped {trap : Trap} (fold : c.config.foldConstants = true) (halt : h = .trap trap)
    (traps : ∀ env, Agrees view env → ∀ q, e.eval c.config.foldConstants env = some q →
      ∃ n, q = .number n ∧ n.word = .error trap)

namespace Hindered

variable {view : String → Standing} {e e1 e2 : Arith} {h : Halt}

-- what hinders a part hinders the whole, if the whole traps wherever the part does
theorem ofPart {e'} (hh : Hindered c view e h) (names : e.names ⊆ e'.names)
    (part : ∀ env, Agrees view env → ∀ q, e'.eval c.config.foldConstants env = some q →
      ∃ m n, e.eval c.config.foldConstants env = some (.number m) ∧ q = .number n ∧
        (c.config.foldConstants = true → ∀ trap, m.word = .error trap → n.word = .error trap)) :
    Hindered c view e' h := by
  cases hh with
  | name mem stops => exact .name (names mem) stops
  | refused reported meaningless =>
    refine .refused reported fun env henv q hq => ?_
    obtain ⟨m, -, hm, -⟩ := part env henv q hq
    exact meaningless env henv _ hm
  | trapped fold halt traps =>
    refine .trapped fold halt fun env henv q hq => ?_
    obtain ⟨m, n, hm, rfl, hword⟩ := part env henv q hq
    obtain ⟨_, ⟨rfl⟩, hw⟩ := traps env henv _ hm
    exact ⟨n, rfl, hword fold _ hw⟩

theorem unary {op} (hh : Hindered c view e h) : Hindered c view (.unary op e place) h := by
  refine hh.ofPart (List.Subset.refl _) fun env henv q hq => ?_
  obtain ⟨n, m, hn, hm, rfl⟩ := Arith.eval_unary_eq_some.mp hq
  obtain ⟨-, rfl⟩ := Number.unary_eq_some.mp hm
  exact ⟨n, _, hn, rfl, fun _ _ hw => by rw [hw]; rfl⟩

private theorem left {op} {hop : op.isArithmetic = true} (hh : Hindered c view e1 h) :
    Hindered c view (.binary op e1 e2 place hop) h := by
  refine hh.ofPart (List.subset_append_left _ _) fun env henv q hq => ?_
  obtain ⟨a, b, n, ha, hb, hn, rfl⟩ := Arith.eval_binary_eq_some.mp hq
  obtain ⟨s, f, g, -, hword⟩ := Number.word_of_binary hn
  exact ⟨a, n, ha, rfl, fun _ _ hw => by rw [hword, hw]; rfl⟩

theorem right {op : BinaryOp} {hop : op.isArithmetic = true} {a : Operand} {p}
    (ha : e1.eval c.config.foldConstants (fun x => (view x).constant?) = some p) (hrep : a.Represents t.types l p)
    (hh : Hindered c view e2 h) : Hindered c view (.binary op e1 e2 place hop) h := by
  refine hh.ofPart (List.subset_append_right _ _) fun env henv q hq => ?_
  obtain ⟨m, n, r, hm, hn, hr, rfl⟩ := Arith.eval_binary_eq_some.mp hq
  refine ⟨n, r, hn, rfl, fun fold trap hw => ?_⟩
  -- the left operand is a constant, so it does not trap
  rw [Arith.eval_mono henv ha] at hm
  cases hm
  cases hrep with
  | number carries =>
    rw [fold] at ha
    obtain ⟨x, -, hx⟩ := carries.known (Arith.known_of_eval ha)
    obtain ⟨s, f, g, -, hword⟩ := Number.word_of_binary hr
    rw [hword, hx, hw]
    rfl

theorem ofRefusal {op} {hop : op.isArithmetic = true} {m n}
    (hm : e1.eval c.config.foldConstants (fun x => (view x).constant?) = some (.number m))
    (hn : e2.eval c.config.foldConstants (fun x => (view x).constant?) = some (.number n))
    (hr : Refusal c ((Number.binary c.config.foldConstants op m n place).map .number) h) :
    Hindered c view (.binary op e1 e2 place hop) h := by
  have hinv (env : String → Option Constant) (henv : Agrees view env) (q : Quantity)
      (hq : (Arith.binary op e1 e2 place hop).eval c.config.foldConstants env = some q) :
      (Number.binary c.config.foldConstants op m n place).map .number = some q := by
    obtain ⟨m', n', r, hm', hn', hr, rfl⟩ := Arith.eval_binary_eq_some.mp hq
    rw [Arith.eval_mono henv hm] at hm'
    rw [Arith.eval_mono henv hn] at hn'
    cases hm'
    cases hn'
    rw [hr, Option.map_some]
  rcases hr with ⟨hreported, hnone⟩ | ⟨r, trap, hsome, hword, rfl, hfold⟩
  · refine .refused hreported fun env henv q hq => ?_
    rw [hinv env henv q hq] at hnone
    cases hnone
  · refine .trapped hfold rfl fun env henv q hq => ?_
    rw [hinv env henv q hq] at hsome
    exact ⟨r, Option.some.inj hsome, hword⟩

theorem ofType {op} {hop : op.isArithmetic = true} {p q}
    (hp : e1.eval c.config.foldConstants (fun x => (view x).constant?) = some p)
    (hq : e2.eval c.config.foldConstants (fun x => (view x).constant?) = some q)
    (htype : (∃ ty, p = .type ty) ∨ ∃ ty, q = .type ty) (hr : h.Reported) :
    Hindered c view (.binary op e1 e2 place hop) h := by
  refine .refused hr fun env henv r hr => ?_
  obtain ⟨m, n, -, hm, hn, -⟩ := Arith.eval_binary_eq_some.mp hr
  rw [Arith.eval_mono henv hp] at hm
  rw [Arith.eval_mono henv hq] at hn
  obtain ⟨ty, rfl⟩ | ⟨ty, rfl⟩ := htype
  · cases hm
  · cases hn

end Hindered

theorem walk_expr {depth} (h : 0 < depth) (scope node) :
    (Analysis.walk depth).expr scope node = expression (Analysis.walk (depth - 1)) scope node := by
  cases depth with
  | zero => cases h
  | succ depth => rfl

private theorem intLiteral_represents {value : UInt64} (small : value.toNat < 0x8000000000000000) :
    (intLiteral value place).Represents t.types l (.number (.written value)) := by
  have hty : (intLiteral value place).ty = (Number.written value).scalar.ty := by
    simp only [intLiteral, Operand.number, Number.written, if_pos small]
    split <;> rfl
  have hvalue : (Number.written value).scalar.value value = .int value := by
    simp only [Number.written]
    split <;> rfl
  exact .number ⟨hty, rfl, fun _ => ⟨value, by rw [hvalue]; rfl, rfl⟩, fun h => by cases h⟩

theorem value_yields {w : Walk} {node} {e : Arith} {env : String → Option Constant} {count} {E : Halt → Prop}
    (h : Yields (w.expr scope node) c t (.straight name span l)
      (fun o d => ∃ q, e.eval c.config.foldConstants env = some q ∧ Lowered t name span l count q o d) E) :
    Yields (w.value scope node) c t (.straight name span l)
      (fun o d => ∃ q, e.eval c.config.foldConstants env = some q ∧ Lowered t name span l count q o d) E := by
  refine Yields.bind h ?_
  rintro o _ ⟨q, hq, l', rfl, hcont, ho⟩
  rw [ho.rvalue]
  exact .pure ⟨q, hq, l', rfl, hcont, ho⟩

/-- Analysis makes of an expression what it means. -/
theorem expression_yields {e : Arith} {node} {view : String → Standing} {depth} (ht : t.types.Numbers)
    (he : c.ast.Spells node e) (hdepth : e.height ≤ depth) (hview : ∀ x ∈ e.names, t.scopes.Shows scope x (view x))
    (hl : Plain l) :
    Yields ((Analysis.walk depth).expr scope node) c t (.straight name span l)
      (fun o d => ∃ q, e.eval c.config.foldConstants (fun x => (view x).constant?) = some q ∧
        Lowered t name span l (7 * e.size) q o d) (Hindered c view e) := by
  induction he generalizing depth l with
  | @lit node value place small hnode =>
    rw [walk_expr hdepth]
    refine .reads (node_reads node) ?_
    rw [hnode]
    exact .pure ⟨_, rfl, l, rfl, .refl hl _, intLiteral_represents small⟩
  | @real node bits place hnode =>
    rw [walk_expr hdepth]
    refine .reads (node_reads node) ?_
    rw [hnode]
    exact .pure ⟨_, rfl, l, rfl, .refl hl _, .number (@Operand.Carries.const bits .f64 true t.types l place)⟩
  | @name node x place hnode =>
    rw [walk_expr hdepth]
    refine .reads (node_reads node) ?_
    rw [hnode]
    refine (ident_yields hl (hview x (by simp [Arith.names]))).imp ?_ ?_
    · rintro o d ⟨k, hk, l', rfl, hcont, ho⟩
      exact ⟨_, by simp [Arith.eval, hk, Standing.constant?], l', rfl, hcont.mono (Nat.zero_le _), ho⟩
    · intro h hstops
      exact .name (by simp [Arith.names]) hstops
  | @unary node i op e place hnode operand ih =>
    simp only [Arith.height] at hdepth
    rw [walk_expr (by omega)]
    refine .reads (node_reads node) ?_
    rw [hnode]
    refine ((ih (by omega) hview hl).imp (fun _ _ h => h) fun _ h => h.unary).bind ?_
    rintro o _ ⟨q, hq, l', rfl, hcont, ho⟩
    have hrefused (hnone : ∀ n m, q = .number n → n.unary c.config.foldConstants op ≠ some m)
        (h : Halt) (hr : h.Reported) : Hindered c view (.unary op e place) h := by
      refine .refused hr fun env henv q' hq' => ?_
      obtain ⟨n, m, hn, hm, -⟩ := Arith.eval_unary_eq_some.mp hq'
      rw [Arith.eval_mono henv hq] at hn
      exact hnone n m (Option.some.inj hn) hm
    cases ho with
    | type kind typed literal =>
      refine (unary_fails (.type kind typed literal) ?_).imp (fun _ _ h => h.elim)
        (hrefused fun _ _ h => by cases h)
      rw [typed, ht.not_allowsUnary_type]
    | @number n carries =>
      cases hn : n.unary c.config.foldConstants op with
      | none =>
        refine (unary_fails (.number carries) ?_).imp (fun _ _ h => h.elim)
          (hrefused fun _ m h hm => by cases h; rw [hn] at hm; cases hm)
        rw [carries.ty, ht.allowsUnary]
        by_contra hallowed
        simp [Number.unary, hallowed] at hn
      | some m =>
        refine (unary_yields ht hcont.plain carries hn _).imp ?_ fun _ h => h
        rintro o' _ ⟨l'', rfl, hcont', ho'⟩
        refine ⟨_, Arith.eval_unary_eq_some.mpr ⟨n, m, hq, hn, rfl⟩, l'', rfl, ?_, ho'⟩
        have hboth := hcont.trans hcont'
        rw [Quantity.status, Quantity.status, Number.status_unary hn] at hboth
        exact hboth.mono (by simp only [Arith.size]; omega)
  | @binary node i j op e1 e2 place hop hnode lhs rhs ihl ihr =>
    simp only [Arith.height] at hdepth
    rw [walk_expr (by omega)]
    have hlogic : op.isLogic = false := by
      cases h : op.isLogic
      · rfl
      · simp [BinaryOp.isArithmetic, h] at hop
    refine .reads (node_reads node) ?_
    rw [hnode]
    dsimp only
    rw [hlogic]
    refine (value_yields ((ihl (by omega) (fun x hx => hview x (List.mem_append_left _ hx)) hl).imp
      (fun _ _ h => h) fun _ h => h.left)).bind ?_
    rintro a _ ⟨p, hp, l1, rfl, hcont1, ha⟩
    refine (value_yields ((ihr (by omega) (fun x hx => hview x (List.mem_append_right _ hx))
      hcont1.plain).imp (fun _ _ h => h) fun _ h => h.right hp ha)).bind ?_
    rintro b _ ⟨q, hq, l2, rfl, hcont2, hb⟩
    have ha2 := ha.mono hcont2.begins
    by_cases htype : (∃ ty, p = .type ty) ∨ ∃ ty, q = .type ty
    · exact (binaryType_fails ht hop ha2 hb htype).imp (fun _ _ h => h.elim) fun _ hr => .ofType hp hq htype hr
    · cases ha2 with
      | type => exact absurd (.inl ⟨_, rfl⟩) htype
      | @number m hm =>
        cases hb with
        | type => exact absurd (.inr ⟨_, rfl⟩) htype
        | @number n hn =>
          refine (binary_yields ht hop hcont2.plain hm hn).imp ?_ fun _ hr => .ofRefusal hp hq hr
          rintro o _ ⟨r, hr, l3, rfl, hcont3, ho⟩
          refine ⟨_, Arith.eval_binary_eq_some.mpr ⟨m, n, r, hp, hq, hr, rfl⟩, l3, rfl, ?_, ho⟩
          have hall := (hcont1.trans hcont2).trans hcont3
          simp only [Quantity.status, Number.status_binary hr] at hall
          exact hall.mono (by simp only [Arith.size]; omega)

end Lower

end Comptime
