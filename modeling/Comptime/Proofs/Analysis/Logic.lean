import Comptime.Proofs.Analysis.Update
import Comptime.Proofs.State

/-!
# Reasoning about runs

`Analysis.Runs x c t Q` says of a piece of analysis that it only makes the updates that are allowed,
whether it ends or halts, and that `Q` holds of what it gives and of the tables after it.
`Lower.Runs` says the same of a piece that writes code, and that the draft is extended and stays
typed.

Facts about the tables and the draft are carried along a run by `Tables.Later` and `Lower.Later`.
-/

namespace Comptime

/-! ## Later states -/

/-- The tables at two moments of a run. -/
structure Tables.Later (t t' : Tables) : Prop where
  sound : t.Sound
  updates : t.Updates t'

/-- Tables and draft at two moments of a run. -/
structure Lower.Later (t : Tables) (d : Draft) (t' : Tables) (d' : Draft) : Prop
    extends t.Later t' where
  extended : d.func.Extends d'.func

section

variable {t t' t'' : Tables} {d d' d'' : Draft} {ty : TypeId}

theorem Tables.Later.refl (h : t.Sound) : t.Later t := ⟨h, .refl t⟩

theorem Tables.Later.trans (s : t.Later t') (s' : t'.Later t'') : t.Later t'' :=
  ⟨s.sound, s.updates.trans s'.updates⟩

theorem Tables.Later.grows (s : t.Later t') : t.Grows t' := s.updates.grows

theorem Tables.Later.sound' (s : t.Later t') : t'.Sound := s.updates.sound s.sound

theorem Lower.Later.refl (h : t.Sound) (d) : Lower.Later t d t d := ⟨.refl h, .refl _⟩

theorem Lower.Later.trans (s : Lower.Later t d t' d') (s' : Lower.Later t' d' t'' d'') :
    Lower.Later t d t'' d'' := ⟨s.toLater.trans s'.toLater, s.extended.trans s'.extended⟩

theorem Tables.Later.keep (s : t.Later t') (d) : Lower.Later t d t' d := ⟨s, .refl _⟩

theorem Tables.HasType.later (h : t.HasType ty) (s : t.Later t') : t'.HasType ty :=
  h.grow s.grows

theorem Tables.HasFn.later {f} (h : t.HasFn f) (s : t.Later t') : t'.HasFn f :=
  h.grow s.grows

theorem Tables.HasConst.later {v} (h : t.HasConst ty v) (s : t.Later t') : t'.HasConst ty v := h.grow s.sound s.grows

theorem Draft.Gives.later {i} (h : d.Gives t i ty) (s : Lower.Later t d t' d') : d'.Gives t' i ty := h.grow s.grows s.extended

theorem Draft.Points.later {i} (h : d.Points t i ty) (s : Lower.Later t d t' d') : d'.Points t' i ty := h.grow s.grows s.extended

theorem Operand.Sound.later {op : Operand} (h : op.Sound t d) (s : Lower.Later t d t' d') :
    op.Sound t' d' := h.grow s.sound s.grows s.extended

theorem Tables.Later.kind {k} (s : t.Later t') (hk : t.types.kind ty = k) (hn : k ≠ .missing) :
    t'.types.kind ty = k := s.grows.types.kind_of_ne hk hn

end

/-! ## Analysis -/

namespace Analysis

/-- The piece of analysis makes allowed updates only, and `Q` holds of its result. -/
def Runs {α : Type} (x : Analysis α) (c : Context) (t : Tables) (Q : α → Tables → Prop) : Prop :=
  t.Sound → t.Running c.task → Ensures (x c t) (fun a t' => t.Updates t' ∧ Q a t') t.Halts

def Reads {α : Type} (x : Analysis α) (v : Context → Tables → α) : Prop :=
  ∀ c t, x c t = .ok (v c t) t

theorem types_reads : Reads types fun _ t => t.types := fun _ _ => rfl

theorem code_reads : Reads code fun _ t => t.code := fun _ _ => rfl

theorem scopes_reads : Reads scopes fun _ t => t.scopes := fun _ _ => rfl

theorem node_reads (n) : Reads (node n) fun c _ => c.ast.node n := fun _ _ => rfl

theorem spanOf_reads (n) : Reads (spanOf n) fun c _ => c.ast.span n := fun _ _ => rfl

theorem folding_reads : Reads folding fun c _ => c.config.foldConstants := fun _ _ => rfl

theorem quoted_reads (ty) : Reads (quoted ty) fun _ t => "`" ++ t.types.name ty ++ "`" :=
  fun _ _ => rfl

theorem setting_reads : Reads setting fun c t => ⟨c.config.limits, t.types, t.code, c.host⟩ := fun _ _ => rfl

theorem get_reads : Reads get fun _ t => t := fun _ _ => rfl

theorem read_reads : Reads read fun c _ => c := fun _ _ => rfl

namespace Runs

variable {α β : Type} {x : Analysis α} {k : α → Analysis β} {c : Context} {t : Tables}
  {P : α → Tables → Prop} {Q : β → Tables → Prop}

theorem ofSound (h : t.Sound → Runs x c t P) : Runs x c t P := fun ht => h ht ht

theorem ofRunning (h : t.Running c.task → Runs x c t P) : Runs x c t P := fun ht hr => h hr ht hr

protected theorem pure {a : α} (h : P a t) : Runs (pure a) c t P := fun _ _ => ⟨.refl t, h⟩

theorem throwing {h} (reason : t.Explains h) : Runs (throw h) c t P :=
  fun _ _ => ⟨.inl (.refl t), reason⟩

protected theorem throw {h} (plain : h.isPlain = true) : Runs (throw h) c t P :=
  .throwing (t.explains_of_isPlain plain)

protected theorem bind (h : Runs x c t P) (h' : ∀ a t', t.Later t' → P a t' → Runs (k a) c t' Q) :
    Runs (x >>= k) c t Q := by
  intro ht hr
  refine (h ht hr).bind fun a t' ⟨hu, ha⟩ => ?_
  exact (h' a t' ⟨ht, hu⟩ ha (hu.sound ht) (hu.running hr)).imp
    (fun _ _ hb => ⟨hu.trans hb.1, hb.2⟩) fun _ _ => hu.halts

theorem ofReads {v : Context → Tables → α} (hx : Reads x v) : Runs x c t fun a t' => a = v c t ∧ t' = t := by
  intro _ _
  rw [hx c t]
  exact ⟨.refl t, rfl, rfl⟩

theorem reads {v : Context → Tables → α} (hx : Reads x v) (h : Runs (k (v c t)) c t Q) :
    Runs (x >>= k) c t Q := by
  refine (ofReads hx).bind ?_
  rintro a t' - ⟨rfl, rfl⟩
  exact h

theorem thrown {h} (plain : h.isPlain = true) : Runs (throw h >>= k) c t Q :=
  Runs.bind (P := fun _ _ => False) (.throw plain) fun _ _ _ h => h.elim

protected theorem ite {p : Prop} [Decidable p] {y} (h : p → Runs x c t P) (h' : ¬ p → Runs y c t P) :
    Runs (if p then x else y) c t P := by
  split
  · next hp => exact h hp
  · next hp => exact h' hp

theorem imp {P' : α → Tables → Prop} (h : Runs x c t P)
    (h' : ∀ a t', t.Later t' → P a t' → P' a t') : Runs x c t P' := fun ht hr =>
  (h ht hr).imp (fun a t' ⟨hu, ha⟩ => ⟨hu, h' a t' ⟨ht, hu⟩ ha⟩) fun _ _ he => he

protected theorem modifyGet {f : Tables → α × Tables} (hu : t.Updates (f t).2)
    (h : P (f t).1 (f t).2) : Runs (modifyGet f) c t P := fun _ _ => ⟨hu, h⟩

protected theorem modify {f : Tables → Tables} {P : PUnit → Tables → Prop} (hu : t.Updates (f t))
    (h : P ⟨⟩ (f t)) : Runs (modify f) c t P := fun _ _ => ⟨hu, h⟩

protected theorem withReader {f : Context → Context} (task : (f c).task = c.task)
    (h : Runs x (f c) t P) : Runs (withReader f x) c t P := by
  intro ht hr
  exact h ht (task ▸ hr)

protected theorem map {f : α → β} (h : Runs x c t fun a t' => Q (f a) t') : Runs (f <$> x) c t Q := by
  rw [map_eq_pure_bind]
  exact h.bind fun a t' _ ha => .pure ha

protected theorem mapM {f : α → Analysis β} {R : α → β → Tables → Prop} {l : List α}
    (stable : ∀ {t t'} a b, Tables.Later t t' → R a b t → R a b t')
    (h : ∀ a ∈ l, ∀ t', t.Later t' → Runs (f a) c t' (R a)) :
    Runs (l.mapM f) c t fun bs t' => List.Forall₂ (R · · t') l bs := by
  induction l generalizing t with
  | nil =>
    rw [List.mapM_nil]
    exact .pure .nil
  | cons a l ih =>
    rw [List.mapM_cons]
    refine .ofSound fun ht => ?_
    refine (h a List.mem_cons_self t (.refl ht)).bind fun b t1 s1 hb => ?_
    refine (ih fun a' ha' t' s' => ?_).bind fun bs t2 s2 hbs => ?_
    · exact h a' (List.mem_cons_of_mem a ha') t' (s1.trans s')
    · exact .pure (.cons (stable a b s2 hb) hbs)

theorem foldlM {f : β → α → Analysis β} {l : List α} {b : β}
    (hb : Q b t) (h : ∀ a ∈ l, ∀ b t', t.Later t' → Q b t' → Runs (f b a) c t' Q) :
    Runs (l.foldlM f b) c t Q := by
  induction l generalizing t b with
  | nil => exact .pure hb
  | cons a l ih =>
    rw [List.foldlM_cons]
    refine .ofSound fun ht => ?_
    refine (h a List.mem_cons_self b t (.refl ht) hb).bind fun b' t' s hb' => ?_
    exact ih hb' fun a' ha' b' t'' s' => h a' (List.mem_cons_of_mem a ha') b' t'' (s.trans s')

protected theorem forM {f : α → Analysis PUnit} {l : List α} {Q : PUnit → Tables → Prop}
    (hq : Q ⟨⟩ t) (h : ∀ a ∈ l, ∀ t', t.Later t' → Q ⟨⟩ t' → Runs (f a) c t' Q) :
    Runs (l.forM f) c t Q := by
  induction l generalizing t with
  | nil => exact .pure hq
  | cons a l ih =>
    show Runs (f a >>= fun _ => l.forM f) c t Q
    refine .ofSound fun ht => ?_
    refine (h a List.mem_cons_self t (.refl ht) hq).bind fun _ t' s hq' => ?_
    exact ih hq' fun a' ha' t'' s' => h a' (List.mem_cons_of_mem a ha') t'' (s.trans s')

end Runs

end Analysis

/-! ## Writing code -/

namespace Lower

/-- The piece of analysis makes allowed updates only, extends the draft and keeps it typed, and `Q`
holds of its result. -/
def Runs {α : Type} (x : Lower α) (c : Context) (t : Tables) (d : Draft)
    (Q : α → Tables → Draft → Prop) : Prop :=
  d.Sound t → Analysis.Runs (x d) c t fun r t' => d.func.Extends r.2.func ∧ r.2.Sound t' ∧ Q r.1 t' r.2

namespace Runs

variable {α β : Type} {x : Lower α} {k : α → Lower β} {c : Context} {t : Tables} {d : Draft}
  {P : α → Tables → Draft → Prop} {Q : β → Tables → Draft → Prop}

theorem ofSound (h : t.Sound → Runs x c t d P) : Runs x c t d P := fun hd ht => h ht hd ht

theorem ofDraft (h : d.Sound t → Runs x c t d P) : Runs x c t d P := fun hd => h hd hd

protected theorem pure {a : α} (h : P a t d) : Runs (pure a) c t d P := fun hd => .pure ⟨.refl _, hd, h⟩

theorem throwing {h} (reason : t.Explains h) : Runs (throw h) c t d P := fun _ => .throwing reason

protected theorem throw {h} (plain : h.isPlain = true) : Runs (throw h) c t d P :=
  .throwing (t.explains_of_isPlain plain)

protected theorem bind (h : Runs x c t d P) (h' : ∀ a t' d', Later t d t' d' → P a t' d' → Runs (k a) c t' d' Q) :
    Runs (x >>= k) c t d Q := fun hd => (h hd).bind fun r t' s hr =>
  (h' r.1 t' r.2 ⟨s, hr.1⟩ hr.2.2 hr.2.1).imp fun _ _ _ hb => ⟨hr.1.trans hb.1, hb.2⟩

theorem thrown {h} (plain : h.isPlain = true) : Runs (throw h >>= k) c t d Q :=
  Runs.bind (P := fun _ _ _ => False) (.throw plain) fun _ _ _ _ h => h.elim

protected theorem ite {p : Prop} [Decidable p] {y} (h : p → Runs x c t d P) (h' : ¬ p → Runs y c t d P) :
    Runs (if p then x else y) c t d P := by
  split
  · next hp => exact h hp
  · next hp => exact h' hp

theorem imp {P' : α → Tables → Draft → Prop} (h : Runs x c t d P)
    (h' : ∀ a t' d', Later t d t' d' → P a t' d' → P' a t' d') : Runs x c t d P' := fun hd =>
  (h hd).imp fun _ _ s hr => ⟨hr.1, hr.2.1, h' _ _ _ ⟨s, hr.1⟩ hr.2.2⟩

theorem lift {x} (h : Analysis.Runs x c t fun a t' => P a t' d) : Runs (liftM x) c t d P := fun hd =>
  .ofSound fun ht => .map (f := fun a => (a, d)) (h.imp fun _ _ s ha => ⟨.refl _, hd.grow ht s.grows, ha⟩)

theorem liftBind {x} {P : α → Tables → Prop} (h : Analysis.Runs x c t P)
    (h' : ∀ a t', t.Later t' → P a t' → Runs (k a) c t' d Q) : Runs (liftM x >>= k) c t d Q := by
  refine Runs.bind (P := fun a t' d' => d' = d ∧ P a t') (.lift (h.imp fun _ _ _ ha => ⟨rfl, ha⟩)) ?_
  rintro a t' d' s ⟨rfl, ha⟩
  exact h' a t' s.toLater ha

theorem reads {x} {v : Context → Tables → α} (hx : Analysis.Reads x v) (h : Runs (k (v c t)) c t d Q) :
    Runs (liftM x >>= k) c t d Q := by
  refine .liftBind (.ofReads hx) ?_
  rintro a t' - ⟨rfl, rfl⟩
  exact h

protected theorem get {k : Draft → Lower β} (h : Runs (k d) c t d Q) : Runs (get >>= k) c t d Q := h

protected theorem read {k : Context → Lower β} (h : Runs (k c) c t d Q) : Runs (read >>= k) c t d Q := h

protected theorem modifyGet {f : Draft → α × Draft} (e : d.func.Extends (f d).2.func)
    (hd : t.Sound → d.Sound t → (f d).2.Sound t) (h : P (f d).1 t (f d).2) :
    Runs (modifyGet f) c t d P := fun hs ht _ => ⟨.refl t, e, hd ht hs, h⟩

protected theorem modify {f : Draft → Draft} {P : PUnit → Tables → Draft → Prop}
    (instrs : (f d).func.instrs = d.func.instrs) (ret : (f d).func.ret = d.func.ret)
    (h : P ⟨⟩ t (f d)) : Runs (modify f) c t d P := fun hd ht _ =>
  ⟨.refl t, .ofSameBody ret instrs, hd.ofSameBody ht ret instrs, h⟩

theorem modifyBind {f : Draft → Draft} {k : PUnit → Lower β}
    (instrs : (f d).func.instrs = d.func.instrs) (ret : (f d).func.ret = d.func.ret)
    (h : Runs (k ⟨⟩) c t (f d) Q) : Runs (modify f >>= k) c t d Q := by
  refine Runs.bind (P := fun _ t' d' => t' = t ∧ d' = f d) (.modify instrs ret ⟨rfl, rfl⟩) ?_
  rintro _ _ _ - ⟨rfl, rfl⟩
  exact h

protected theorem mapM {f : α → Lower β} {R : α → β → Tables → Draft → Prop} {l : List α}
    (stable : ∀ {t d t' d'} a b, Later t d t' d' → R a b t d → R a b t' d')
    (h : ∀ a ∈ l, ∀ t' d', Later t d t' d' → Runs (f a) c t' d' (R a)) :
    Runs (l.mapM f) c t d fun bs t' d' => List.Forall₂ (R · · t' d') l bs := by
  induction l generalizing t d with
  | nil =>
    rw [List.mapM_nil]
    exact .pure .nil
  | cons a l ih =>
    rw [List.mapM_cons]
    refine .ofSound fun ht => ?_
    refine (h a List.mem_cons_self t d (.refl ht d)).bind fun b t1 d1 s1 hb => ?_
    refine (ih fun a' ha' t' d' s' => ?_).bind fun bs t2 d2 s2 hbs => ?_
    · exact h a' (List.mem_cons_of_mem a ha') t' d' (s1.trans s')
    · exact .pure (.cons (stable a b s2 hb) hbs)

theorem foldlM {f : β → α → Lower β} {l : List α} {b : β} (hb : Q b t d)
    (h : ∀ a ∈ l, ∀ b t' d', Later t d t' d' → Q b t' d' → Runs (f b a) c t' d' Q) :
    Runs (l.foldlM f b) c t d Q := by
  induction l generalizing t d b with
  | nil => exact .pure hb
  | cons a l ih =>
    rw [List.foldlM_cons]
    refine .ofSound fun ht => ?_
    refine (h a List.mem_cons_self b t d (.refl ht d) hb).bind fun b' t' d' s hb' => ?_
    exact ih hb' fun a' ha' b' t'' d'' s' =>
      h a' (List.mem_cons_of_mem a ha') b' t'' d'' (s.trans s')

protected theorem forM {f : α → Lower PUnit} {l : List α}
    (h : ∀ a ∈ l, ∀ t' d', Later t d t' d' → Runs (f a) c t' d' fun _ _ _ => True) :
    Runs (l.forM f) c t d fun _ _ _ => True := by
  induction l generalizing t d with
  | nil => exact .pure trivial
  | cons a l ih =>
    show Runs (f a >>= fun _ => l.forM f) c t d _
    refine .ofSound fun ht => ?_
    refine (h a List.mem_cons_self t d (.refl ht d)).bind fun _ t' d' s _ => ?_
    exact ih fun a' ha' t'' d'' s' => h a' (List.mem_cons_of_mem a ha') t'' d'' (s.trans s')

theorem run (h : Runs x c t d P) (hd : t.Sound → d.Sound t) :
    Analysis.Runs (x.run d) c t fun r t' =>
      d.func.Extends r.2.func ∧ r.2.Sound t' ∧ P r.1 t' r.2 := .ofSound fun ht => h (hd ht)

protected theorem aside {P : α → Tables → Prop} (h : Runs x c t d fun a t' _ => P a t')
    (hd : t.Sound → d.Sound t) : Analysis.Runs (Lower.aside d x) c t P := by
  refine Analysis.Runs.map ((h.run hd).imp ?_)
  intro r t' _ hr
  exact hr.2.2

end Runs

/-! ## Pieces that keep the tables -/

/-- Whether it ends or halts, the tables are the same after it. -/
def Keeps {α : Type} (x : Lower α) : Prop :=
  ∀ d c t, Ensures (x d c t) (fun _ t' => t' = t) fun _ t' => t' = t

namespace Keeps

variable {α β : Type} {x : Lower α} {k : α → Lower β}

protected theorem pure {a : α} : Keeps (pure a) := fun _ _ _ => rfl

protected theorem throw {h} : Keeps (throw h : Lower α) := fun _ _ _ => rfl

protected theorem bind (h : Keeps x) (h' : ∀ a, Keeps (k a)) : Keeps (x >>= k) := by
  refine fun d c t => (h d c t).bind fun r t' ht => ?_
  subst ht
  exact h' r.1 r.2 c t'

theorem reads {x} {v : Context → Tables → α} (hx : Analysis.Reads x v) (h : ∀ a, Keeps (k a)) :
    Keeps (liftM x >>= k) := by
  refine Keeps.bind (fun d c t => ?_) h
  show Ensures (((fun a => (a, d)) <$> x) c t) _ _
  simp only [Functor.map, EStateM.map, hx c t]
  rfl

protected theorem modifyGet {f : Draft → α × Draft} : Keeps (modifyGet f : Lower α) :=
  fun _ _ _ => rfl

protected theorem ite {p : Prop} [Decidable p] {y} (h : Keeps x) (h' : Keeps y) : Keeps (if p then x else y) := by
  split
  · exact h
  · exact h'

end Keeps

theorem Runs.tryCatch {α : Type} {x} {k : Halt → Lower α} {c t d} {P : α → Tables → Draft → Prop}
    (hk : Keeps x) (h : Runs x c t d P) (h' : ∀ e, Runs (k e) c t d P) : Runs (tryCatch x k) c t d P := by
  intro hd ht hr
  have hends := h hd ht hr
  have hkeeps := hk d c t
  refine Ensures.tryCatch (F := fun _ t' => t' = t) ?_ fun e t' he => he ▸ h' e hd ht hr
  generalize x d c t = r at hends hkeeps
  cases r with
  | ok r t' => exact hends
  | error e t' => exact hkeeps

end Lower

end Comptime
