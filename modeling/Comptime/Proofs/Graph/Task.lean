import Comptime.Proofs.Footprint.Task

/-!
# The code that tasks leave and execute

Tasks execute code while they are carried out: functions that have been analysed before, and functions that
are made up for the value of an expression. All of it is formed, so no run of a task halts because control
leads nowhere, and it leaves formed code behind (`Analysis.runTask_formed`).

`Analysis.Finished` tells apart the instructions that the statements of a body have become and the one that
may have been added at its end.
-/

namespace Comptime

/-- What the draft of a body begins with. -/
def Function.header (f : Function) : Function :=
  { declare f.name f.ty f.params f.ret f.span with flavor := f.flavor }

namespace Analysis

variable {w : Walk} {f : FnId} {c : Context} {t t' : Tables} {d before : Draft}

/-- The body of a function has been written. Its statements end in the draft `before`. -/
inductive Finished (w : Walk) (f : FnId) (c : Context) (t : Tables) (before : Draft) :
    Draft → Tables → Prop
  | mk {source : Source} {lit : FnLiteral} {n : NodeId} {closed : Draft} {func : Function} {t1 t2 : Tables}
    (found : t.sources.get? f = some source) (literal : fnLiteral source.lit c t = .ok lit t)
    (body : lit.body = some n)
    (written : Lower.statements w source lit n (.start (t.code.function f).header) c (t.analyzing f) =
      .ok (⟨⟩, before) t1)
    (ended : Lower.closeBody (t.code.function f).span before c t1 = .ok (⟨⟩, closed) t2)
    (placed : closed.func.layoutFrame t2.types = (func, none)) :
    Finished w f c t before { closed with func } t2

theorem header_analyzing (t : Tables) (f) :
    ((t.analyzing f).code.function f).header = (t.code.function f).header ∧
      ((t.analyzing f).code.function f).span = (t.code.function f).span := by
  have hmodify : ∀ {β : Type} (g : Function → β), (∀ func, g { func with state := .analyzing } = g func) →
      g ((t.analyzing f).code.function f) = g (t.code.function f) := by
    intro β g hg
    exact Pool.view_modify g hg _ _ _ _
  exact ⟨hmodify Function.header fun _ => rfl, hmodify Function.span fun _ => rfl⟩

/-- If the piece of analysis ends, `Q` holds of what it gives and of the tables after it. -/
def Does {α : Type} (c : Context) (x : Analysis α) (t : Tables) (Q : α → Tables → Prop) : Prop :=
  ∀ a t', x c t = .ok a t' → Q a t'

namespace Does

variable {α β : Type} {x y : Analysis α} {k : α → Analysis β} {P : α → Tables → Prop}
  {Q : β → Tables → Prop}

protected theorem pure {a : α} (h : P a t) : Does c (pure a) t P := by
  rintro _ _ ⟨rfl, rfl⟩
  exact h

protected theorem throw {h} : Does c (throw h) t P := by
  intro a t' hx
  cases hx

protected theorem self : Does c x t fun a t' => x c t = .ok a t' := fun _ _ h => h

protected theorem bind (h : Does c x t P) (h' : ∀ a t', P a t' → Does c (k a) t' Q) : Does c (x >>= k) t Q := by
  intro b t' hx
  obtain ⟨a, t1, hfirst, hrest⟩ := bind_eq_ok.mp hx
  exact h' a t1 (h a t1 hfirst) b t' hrest

theorem reads {v : Context → Tables → α} (hx : Reads x v) (h : Does c (k (v c t)) t Q) :
    Does c (x >>= k) t Q := by
  intro b t' hrun
  rw [reads_bind hx] at hrun
  exact h b t' hrun

private theorem modifyBind {g : Tables → Tables} {k : PUnit → Analysis β} (h : Does c (k ⟨⟩) (g t) Q) :
    Does c (modify g >>= k) t Q := h

end Does

private theorem fnLiteral_does (n) : Does c (fnLiteral n) t fun lit t' => t' = t ∧ fnLiteral n c t = .ok lit t := by
  have hsame : Does c (fnLiteral n) t fun _ t' => t' = t := by
    refine .reads (node_reads n) ?_
    split
    · exact .pure rfl
    · exact .throw
  intro lit t' h
  obtain rfl := hsame lit t' h
  exact ⟨rfl, h⟩

theorem draftBody_does (w f) : Does c (draftBody w f) t fun d t' => ∃ before, Finished w f c t before d t' := by
  refine .reads get_reads ?_
  split
  · next source found =>
    refine (fnLiteral_does source.lit).bind ?_
    intro lit t1 ⟨hsame, literal⟩
    rw [hsame]
    split
    · next n body =>
      refine .modifyBind (.reads code_reads (Does.self.bind fun r t2 hbody => .reads types_reads ?_))
      obtain ⟨_, closed⟩ := r
      have hheader := header_analyzing t f
      have hbody : Lower.body w source lit n (.start ((t.analyzing f).code.function f).header) c
        (t.analyzing f) = .ok (⟨⟩, closed) t2 := hbody
      rw [Lower.body_eq, hheader.1] at hbody
      obtain ⟨_, before, t1, written, ended⟩ := Lower.bind_eq_ok.mp hbody
      split
      · exact fun _ _ hhalt => absurd hhalt layoutHalt_ne_ok
      · next func placed => exact .pure ⟨before, .mk found literal body written ended placed⟩
    · exact .throw
  · exact .throw

theorem Finished.closes (h : Finished w f c t before d t') (hw : ∀ p, w.Abides p) :
    before.Closes d ∧ before.func.ret = (t.code.function f).ret := by
  obtain @⟨source, lit, n, closed, func, t1, _, -, -, -, written, ended, placed⟩ := h
  have hstart : (Draft.start (t.code.function f).header).Regular [] := Draft.regular_start rfl rfl
  have hfresh {p : Policy} : (Draft.start (t.code.function f).header).Fresh p := fun l hl => by cases hl
  have hbefore := (Gives.of_ok (Lower.statements_gives (hw (.adding c (t.analyzing f) none True)) trivial trivial
    lit n hstart hfresh) written).2
  have hcloses := (Gives.of_ok (Lower.closeBody_gives (p := .adding c t1 none True) hbefore.1
    (t.code.function f).span) ended).2
  have hblocks := Function.blocks_layoutFrame placed
  have hsame := closed.func.layoutFrame_same t'.types
  rw [placed] at hsame
  have same : closed.func.SameCode func := .ofSameBody hblocks hsame.1
  refine ⟨⟨hcloses.regular.ofSameBody hblocks hsame.1 hsame.2, ?_, hcloses.reachable, hsame.2.trans hcloses.ret, ?_⟩,
    hbefore.2⟩
  · show (func.terminator? closed.current).isSome = true
    rw [same.terminator?]
    exact hcloses.ended
  · intro i hi hn hk
    have hi : func.instrs.Has i := hi
    have hk : (func.instr i).kind = .unreachable := hk
    show (func.instr i).block ∉ _
    rw [hsame.1] at hi
    rw [same.instr] at hk ⊢
    exact hcloses.added hi hn hk

theorem finished_of_analyzeBody (hw : ∀ p, w.Abides p) (h : analyzeBody w f c t = .ok ⟨⟩ t') :
    ∃ before d t1, Finished w f { c with owner := some f } t before d t1 ∧
      t' = t1.installing f d.func ∧ (t.analyzing f).Develops c.ast t1 := by
  obtain ⟨d, t1, hdraft, hinstall⟩ := bind_eq_ok.mp h
  cases hinstall
  obtain ⟨before, hfinished⟩ := draftBody_does w f d t1 hdraft
  refine ⟨before, d, t1, hfinished, rfl, ?_⟩
  have hbegins := draftBody_begins (c := { c with owner := some f }) (f := f) (t := t) (g := t.side)
    (hw (.adding c (t.analyzing f) none True)) trivial ⟨rfl, id⟩ (Tables.holds_adding ..) fun _ _ => trivial
  have hdraft : draftBody w f { c with owner := some f } t = .ok d t1 := hdraft
  unfold Begins at hbegins
  rw [hdraft] at hbegins
  rcases hbegins with ⟨e, -, herror, -⟩ | hagree
  · cases herror
  · generalize draftBody w f { c with owner := some f } (t.beside t.side) = r' at hagree
    cases hagree with
    | ok leads => exact leads.2.2

private theorem formed_of_analyzeBody (hw : ∀ p, w.Abides p) (h : analyzeBody w f c t = .ok ⟨⟩ t')
    (ht : t.code.Formed) : t'.code.Formed := by
  obtain ⟨before, d, t1, hfinished, rfl, hdevelops⟩ := finished_of_analyzeBody hw h
  have hcloses := (hfinished.closes hw).1
  refine Tables.formed_withFn (hdevelops.formed (Tables.formed_analyzing ht)) fun func _ => ?_
  exact hcloses.regular.formed hcloses.ended rfl rfl

end Analysis

theorem Tables.Works.formed {t t' : Tables} {ast k done} (w : t.Works ast k done t') (ht : t.code.Formed)
    (body : ∀ f, k = .body f → done = true → t'.code.Formed) : t'.code.Formed := by
  cases w with
  | adds a => exact a.develops.formed ht
  | halted a => exact a.develops.formed (formed_analyzing ht)
  | installed => exact body _ rfl rfl
  | stored a => exact a.develops.formed ht

theorem Analysis.runTask_formed (k c t) (ht : t.code.Formed) :
    Over True (fun _ t' => t'.code.Formed) (runTask k c t) := by
  have hworks := runTask_works k c t
  unfold Leaves at hworks
  generalize hr : runTask k c t = r at hworks
  cases hworks with
  | error w guided => exact .error (w.formed ht nofun) fun _ => guided ht
  | ok w =>
    refine .ok (w.formed ht ?_)
    rintro f rfl -
    have hw (p : Policy) : (walk (c.config.fuel + 8 * c.ast.size)).Abides p := walk_abides p _
    exact formed_of_analyzeBody hw hr ht

end Comptime
