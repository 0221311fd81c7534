import Comptime.Proofs.Graph.Expression

/-!
# The graph of statements

Statements keep a draft in order. `Draft.Builds p owed d0 ahead d` follows the code of one statement: it began
at the draft `d0`, has come to the draft `d`, and has still to fill the blocks `ahead`. The body of a loop is
written with one more way out; around the loop nothing is seen of it (`Builds.ofLoop`).

A statement may be deferred to the end of the innermost block. It is analysed there in the scope where it
stands, so that scopes with deferred statements are scopes which new symbols may go into (`Draft.Fresh`).

So every piece of analysis abides by every policy and keeps drafts in order (`Analysis.walk_abides`).
-/

namespace Comptime

open Analysis (node_views quoted_views spanOf_views types_views)

namespace Draft

variable {p : Policy} {d d' d'' d0 e e' : Draft} {b : BlockId} {i : InstrId} {owed ahead : List BlockId}

/-! ## What plays no part -/

theorem Regular.congr (h : d.Regular owed) (func : e.func = d.func) (current : e.current = d.current)
    (reachable : e.reachable = d.reachable) (loops : ∀ l ∈ e.loops, l ∈ d.loops) : e.Regular owed := by
  obtain ⟨f, c, r, l, s, i⟩ := e
  subst func current reachable
  exact ⟨h.orderly, h.entry, h.here, h.marked, h.ended,
    fun l hl => have hl := h.next l (loops l hl); ⟨hl.has, hl.left, hl.dominates, hl.noPhi⟩,
    fun l hl => have hl := h.stop l (loops l hl); ⟨hl.has, hl.waits, hl.empty⟩, h.result⟩

theorem Advances.congr (g : d.Advances d') (g' : e.Grows e') (func : e.func = d.func)
    (current : e.current = d.current) (loops : e.loops = d.loops) (func' : e'.func = d'.func)
    (current' : e'.current = d'.current) : e.Advances e' := by
  obtain ⟨f, c, r, l, s, i⟩ := e
  obtain ⟨f', c', r', l', s', i'⟩ := e'
  subst func current loops func' current'
  exact ⟨g', g.left, g.dominates, g.edge, g.phi⟩

theorem Regular.mono (h : d.Regular owed) {owed'} (hsub : ∀ b ∈ owed, b ∈ owed') : d.Regular owed' :=
  { h with ended := fun hb hne hn => h.ended hb hne fun ho => hn (hsub _ ho) }

/-! ## Code of one statement -/

/-- Code has been written since `d0`; the blocks in `ahead` have been added and wait. -/
structure Builds (p : Policy) (owed : List BlockId) (d0 : Draft) (ahead : List BlockId) (d : Draft) : Prop
    extends d0.Advances d, d0.Defers d where
  before : d0.Regular owed
  after : d.Regular (ahead ++ owed)
  fresh : d.Fresh p
  new : ∀ b ∈ ahead, ¬ d0.func.blocks.Has b
  waits : ∀ b ∈ ahead, d.Reserves b
  nodup : ahead.Nodup

theorem Continues.proceeds (g : d.Continues owed d') (hf : d.Fresh p) : d.Proceeds p owed d' :=
  ⟨g.toAdvances, g.toPlain.deferring, g.after, hf.plain g.toPlain⟩

theorem Continues.builds (g : d.Continues owed d') (hf : d.Fresh p) : Builds p owed d [] d' :=
  { g with
    toDefers := g.toPlain.deferring
    fresh := hf.plain g.toPlain
    new _ hb := by cases hb
    waits _ hb := by cases hb
    nodup := .nil }

theorem Proceeds.trans (h : d.Proceeds p owed d') (h' : d'.Proceeds p owed d'') : d.Proceeds p owed d'' :=
  ⟨h.toAdvances.trans h'.toAdvances h.after.orderly, h.toDefers.trans h'.toDefers, h'.after, h'.fresh⟩

namespace Builds

protected theorem refl (h : d.Regular owed) (hf : d.Fresh p) : Builds p owed d [] d := (Continues.refl h).builds hf

theorem proceeds (h : Builds p owed d0 [] d) : d0.Proceeds p owed d := ⟨h.toAdvances, h.toDefers, h.after, h.fresh⟩

section

variable (h : Builds p owed d0 ahead d)

include h

theorem perm {ahead' : List BlockId} (hp : ahead.Perm ahead') : Builds p owed d0 ahead' d :=
  { h with
    after := h.after.mono fun _ hb => (hp.append_right owed).subset hb
    new _ hb := h.new _ (hp.symm.subset hb)
    waits _ hb := h.waits _ (hp.symm.subset hb)
    nodup := hp.nodup h.nodup }

theorem step (g : d.Proceeds p (ahead ++ owed) d') : Builds p owed d0 ahead d' :=
  { h with
    toAdvances := h.toAdvances.trans g.toAdvances h.after.orderly
    toDefers := h.toDefers.trans g.toDefers
    after := g.after
    fresh := g.fresh
    waits b hb := (h.waits b hb).grows g.toGrows }

private theorem addBlock (name) : Builds p owed d0 (ahead ++ [(d.addBlock name).2]) (d.addBlock name).1 where
  toAdvances := h.toAdvances.trans (d.advances_addBlock name) h.after.orderly
  toDefers := h.toDefers.trans (Plain.deferring ⟨rfl, rfl⟩)
  before := h.before
  fresh := h.fresh
  after := (h.after.addBlock name).mono fun b hb => by
    simp only [List.mem_cons, List.mem_append] at hb ⊢
    tauto
  new b hb := by
    rcases List.mem_append.mp hb with hb | hb
    · exact h.new b hb
    · obtain rfl := List.mem_singleton.mp hb
      exact fun hn => d.not_has_addBlock name (h.blocks hn)
  waits b hb := by
    rcases List.mem_append.mp hb with hb | hb
    · exact (h.waits b hb).grows (d.grows_addBlock name)
    · obtain rfl := List.mem_singleton.mp hb
      exact reserves_addBlock h.after.here name
  nodup := by
    refine List.nodup_append.mpr ⟨h.nodup, List.pairwise_singleton _ _, fun a ha b hb => ?_⟩
    obtain rfl := List.mem_singleton.mp hb
    rintro rfl
    exact d.not_has_addBlock name (h.waits _ ha).has

theorem emitExit {kind} (reads : ∀ r ∈ kind.reads none, d.Offers r) {targets}
    (marks : ∀ b ∈ kind.targets, b ∈ targets) (target : ∀ b ∈ kind.targets, b ∈ ahead) (phi : kind.incoming? = none)
    (result : kind ≠ .ret none) (span) : Builds p owed d0 ahead (d.emitExit kind targets span) := by
  obtain ⟨hafter, hadvances, -⟩ := h.after.emitExit h.toAdvances reads marks
    (fun b hb => .inl (h.waits b (target b hb))) (fun b hb => .inl (h.new b (target b hb))) phi result span
  have hplain := d.plain_emitExit kind targets span
  exact { h with
    toAdvances := hadvances
    toDefers := h.toDefers.trans hplain.deferring
    after := hafter
    fresh := h.fresh.plain hplain
    waits b hb := (h.waits b hb).grows (d.grows_emitExit kind targets span) }

theorem branch {cond} (hcond : d.Offers cond) {yes no} (hyes : yes ∈ ahead) (hno : no ∈ ahead) (span) :
    Builds p owed d0 ahead (d.emitExit (.branch cond yes no) [yes, no] span) ∧
      (d.emitExit (.branch cond yes no) [yes, no] span).isTerminated = true := by
  refine ⟨h.emitExit (fun r hr => ?_) (fun _ hb => hb) (fun b hb => ?_) rfl (by simp) span,
    isTerminated_emitExit h.after.here rfl _ span⟩
  · rw [List.mem_singleton.mp hr]
    exact hcond
  · rcases List.mem_cons.mp hb with rfl | hb
    · exact hyes
    · rw [List.mem_singleton.mp hb]
      exact hno

theorem jump (target : d.Reserves b ∨ d.Heads b)
    (out : ¬ d0.func.blocks.Has b ∨ d0.Exits b) (span) : Builds p owed d0 ahead (d.jump b span) := by
  obtain ⟨hafter, hadvances, -⟩ := h.after.jump h.toAdvances target out span
  have hplain := d.plain_jump b span
  exact { h with
    toAdvances := hadvances
    toDefers := h.toDefers.trans hplain.deferring
    after := hafter
    fresh := h.fresh.plain hplain
    waits b hb := (h.waits b hb).grows (d.grows_jump _ span) }

theorem jumpAhead (hb : b ∈ ahead) (span) :
    Builds p owed d0 ahead (d.jump b span) ∧ (d.jump b span).isTerminated = true :=
  ⟨h.jump (.inl (h.waits b hb)) (.inl (h.new b hb)) span, isTerminated_jump h.after.here b span⟩

end

theorem moveTo (h : Builds p owed d0 (b :: ahead) d) (ended : d.isTerminated = true) :
    Builds p owed d0 ahead { d with current := b } := by
  have hb : b ∈ b :: ahead := List.mem_cons_self
  have hne : ∀ x ∈ ahead, x ≠ b := by
    rintro x hx rfl
    exact (List.nodup_cons.mp h.nodup).1 hx
  exact {
    toAdvances := h.toAdvances.moveTo ended (h.new b hb) (h.waits b hb).has
    toDefers := ⟨h.outer, h.inDefer, h.kept⟩
    before := h.before
    fresh := h.fresh
    after := h.after.goOn h.before h.toAdvances ended (h.new b hb) (h.waits b hb).has fun x hx => List.mem_cons.mp hx
    new := fun x hx => h.new x (List.mem_cons_of_mem b hx)
    waits := fun x hx => (h.waits x (List.mem_cons_of_mem b hx)).moveTo (hne x hx)
    nodup := (List.nodup_cons.mp h.nodup).2 }

end Builds

/-! ## Loops -/

def inLoop (d : Draft) (l : LoopTargets) : Draft := { d with loops := l :: d.loops }

theorem Regular.inLoop (h : d.Regular owed) {l} (next : d.Heads l.next) (stop : d.Reserves l.stop) :
    (d.inLoop l).Regular owed :=
  { h with
    next l' hl := by
      rcases List.mem_cons.mp hl with rfl | hl
      · exact ⟨next.has, next.left, next.dominates, next.noPhi⟩
      · have hl := h.next l' hl
        exact ⟨hl.has, hl.left, hl.dominates, hl.noPhi⟩
    stop l' hl := by
      rcases List.mem_cons.mp hl with rfl | hl
      · exact ⟨stop.has, stop.waits, stop.empty⟩
      · have hl := h.stop l' hl
        exact ⟨hl.has, hl.waits, hl.empty⟩ }

theorem Builds.ofLoop (h : Builds p owed d0 ahead d) {l} (next : ¬ d0.func.blocks.Has l.next)
    (stop : ¬ d0.func.blocks.Has l.stop) (g : (d.inLoop l).Proceeds p (ahead ++ owed) d') :
    Builds p owed d0 ahead { d' with loops := d'.loops.tail } := by
  have hloops : d'.loops.tail = d.loops := congrArg List.tail g.loops
  have hgrows : d.Grows { d' with loops := d'.loops.tail } := { g.toGrows with loops := hloops }
  have hafter : Regular (ahead ++ owed) { d' with loops := d'.loops.tail } :=
    g.after.congr rfl rfl rfl fun x hx => List.mem_of_mem_tail hx
  refine { h with
    toGrows := h.toGrows.trans hgrows
    left := ?_
    dominates := fun hb hx => ?_
    edge := fun hedge => ?_
    phi := fun hb hi => ?_
    toDefers := h.toDefers.trans ⟨g.outer, g.inDefer, g.kept⟩
    after := hafter
    fresh := g.fresh
    waits := fun b hb => (h.waits b hb).grows hgrows }
  · rcases h.left with heq | hne
    · rw [← heq]
      exact g.left
    · exact .inr (hgrows.nonempty hne)
  · exact g.dominates (h.stands hb) (h.dominates hb hx)
  · rcases g.edge hedge with hold | hnew | ⟨x, hx, hexit⟩
    · exact h.edge hold
    · exact .inr (.inl fun hb => hnew (h.blocks hb))
    · rcases List.mem_cons.mp hx with rfl | hx
      · rcases hexit with rfl | rfl
        · exact .inr (.inl next)
        · exact .inr (.inl stop)
      · exact .inr (.inr (h.exits.mp ⟨x, hx, hexit⟩))
  · rcases g.phi (h.blocks hb) hi with hold | hnone
    · have hhas := (h.after.orderly.listed _ hold).1
      rw [show ({ d' with loops := d'.loops.tail } : Draft).func.instr _ = d.func.instr _ from g.instr hhas]
      exact h.phi hb hold
    · exact .inr hnone

theorem unentered_jump (h : d.Regular owed) {b'} (hb : d.func.Unentered b) (hne : b ≠ b') (span) :
    (d.jump b' span).func.Unentered b := by
  unfold Draft.jump
  split
  · exact hb
  · next hopen =>
    refine ⟨hb.ne_entry, fun a hedge => ?_⟩
    rcases (edge_emitExit h (by simpa using hopen) _ span).mp hedge with hold | ⟨-, ht⟩
    · exact hb.edge a hold
    · exact hne (List.mem_singleton.mp ht)

theorem noPhi_emitExit (h : d.Regular owed) (hopen : d.isTerminated = false) {kind} (phi : kind.incoming? = none)
    (hb : ∀ i ∈ (d.func.block b).instrs, (d.func.instr i).kind.incoming? = none) (targets span) :
    ∀ i ∈ ((d.emitExit kind targets span).func.block b).instrs,
      ((d.emitExit kind targets span).func.instr i).kind.incoming? = none := by
  obtain ⟨reachable, hwrite⟩ := emitExit_of_open hopen kind targets span
  have hwrite : d.emitExit kind targets span = d.write kind .void span reachable := hwrite
  rw [hwrite]
  intro i hi
  rcases (mem_write h.here).mp hi with hold | ⟨rfl, rfl⟩
  · rw [instr_write (h.orderly.listed i hold).1]
    exact hb i hold
  · rw [instr_write_new]
    exact phi

end Draft

namespace Lower

variable {α β : Type} {p : Policy} {w : Walk} {owed ahead : List BlockId} {d d0 : Draft} {scope : ScopeId}
  {b stop : BlockId} {table : SwitchTable}

/-! ## Pieces -/

namespace Maintains

variable {x : Lower α} {k : α → Lower β}

protected theorem throw {h} (guided : h.Guided) : Maintains p owed (throw h : Lower α) d := fun _ _ => .throw guided

private theorem reads {x} {v : Context → Tables → α} (hx : Analysis.Views x v) (h : ∀ a, Maintains p owed (k a) d) :
    Maintains p owed (liftM x >>= k) d := fun hd hf => .reads hx fun a => h a hd hf

protected theorem forM {f : α → Lower PUnit} {l : List α} (h : ∀ a ∈ l, ∀ d, Maintains p owed (f a) d) :
    Maintains p owed (l.forM f) d := by
  induction l generalizing d with
  | nil => exact fun hd hf => .pure (Draft.Builds.refl hd hf).proceeds
  | cons a l ih =>
    intro hd hf
    show Gives p (f a >>= fun _ => l.forM f) d _
    refine (h a List.mem_cons_self d hd hf).bind fun _ d1 h1 => ?_
    exact (ih (fun a ha => h a (List.mem_cons_of_mem _ ha)) h1.after h1.fresh).imp fun _ d2 h2 => h1.trans h2

theorem builds {x : Lower α} (h : Draft.Builds p owed d0 ahead d) (hx : Maintains p (ahead ++ owed) x d) :
    Gives p x d fun _ d' => Draft.Builds p owed d0 ahead d' ∧ d.Advances d' :=
  (hx h.after h.fresh).imp fun _ _ h' => ⟨h.step h', h'.toAdvances⟩

end Maintains

theorem Carries.maintains {x} {P : α → Draft → Prop} (h : Carries p (.strict owed) x d P) :
    Maintains p owed x d := fun hd hf => (h.strictly hd).imp fun _ _ h => h.1.proceeds hf

theorem Carries.builds {x} {P : α → Draft → Prop} (h : Draft.Builds p owed d0 ahead d)
    (hx : Carries p (.strict (ahead ++ owed)) x d P) :
    Gives p x d fun a d' => (Draft.Builds p owed d0 ahead d' ∧ d.Advances d') ∧ P a d' :=
  (hx.strictly h.after).imp fun _ _ h' => ⟨⟨h.step (h'.1.proceeds h.fresh), h'.1.toAdvances⟩, h'.2⟩

/-! ## Blocks and deferred statements -/

theorem runDeferred_gives (hw : w.Abides p) (stores : p.Stores) {stmts} (hstmts : ∀ s ∈ stmts, p.Enters s.2) (hd : d.Regular owed)
    (hf : d.Fresh p) : Gives p (runDeferred w stmts) d fun _ d' => d'.Regular owed ∧ d.Advances d' ∧ d.Plain d' := by
  refine .get (.modifyBind ?_)
  have hinside : Draft.Regular owed { d with inDefer := true } := hd.congr rfl rfl rfl fun _ hl => hl
  refine (Maintains.forM (fun s hs _ => hw.stmt stores (hstmts s hs) s.1) hinside hf).bind fun _ d1 h1 => .modify ?_
  exact ⟨h1.after.congr rfl rfl rfl fun _ hl => hl, h1.toAdvances.congr { h1.toGrows with } rfl rfl rfl rfl rfl,
    h1.kept rfl, rfl⟩

theorem runPending_maintains (hw : w.Abides p) (stores : p.Stores) (depth) : Maintains p owed (runDeferred w (d.pending depth)) d := by
  intro hd hf
  have hpending : ∀ s ∈ d.pending depth, p.Enters s.2 := by
    intro s hs
    obtain ⟨l, hl, hs⟩ := List.mem_flatten.mp hs
    exact hf l (List.mem_of_mem_take hl) s hs
  exact (runDeferred_gives hw stores hpending hd hf).imp fun _ _ h => ⟨h.2.1, h.2.2.deferring, h.1, hf.plain h.2.2⟩

theorem block_maintains (hw : w.Abides p) (stores : p.Stores) (hs : p.Sees scope) (stmts) : Maintains p owed (block w scope stmts) d := by
  refine fun hd hf => .liftBind (Analysis.createScope_gives hs _) fun inner hinner => .modifyBind ?_
  have hinside : Draft.Regular owed { d with defers := [] :: d.defers } := hd.congr rfl rfl rfl fun _ hl => hl
  have hfresh : Draft.Fresh p { d with defers := [] :: d.defers } := by
    intro l hl
    rcases List.mem_cons.mp hl with rfl | hl
    · exact fun s hs => by cases hs
    · exact hf l hl
  refine (Maintains.forM (fun n _ _ => hw.stmt stores hinner n) hinside hfresh).bind fun _ d1 h1 => .modifyGetBind (.get ?_)
  have hclosed : Draft.Regular owed { d1 with defers := d1.defers.tail } :=
    h1.after.congr rfl rfl rfl fun _ hl => hl
  have hadvances : d.Advances { d1 with defers := d1.defers.tail } :=
    h1.toAdvances.congr { h1.toGrows with } rfl rfl rfl rfl rfl
  have hplain : d.Plain { d1 with defers := d1.defers.tail } := ⟨h1.outer, h1.inDefer⟩
  have hdeferred : ∀ s ∈ d1.defers.headD [], p.Enters s.2 := by
    intro s hs
    cases hl : d1.defers with
    | nil =>
      rw [hl] at hs
      cases hs
    | cons l rest =>
      rw [hl] at hs
      exact h1.fresh l (hl ▸ List.mem_cons_self) s hs
  refine .ite (fun _ => .pure ⟨hadvances, hplain.deferring, hclosed, hf.plain hplain⟩) fun _ => ?_
  refine (runDeferred_gives hw stores hdeferred hclosed (hf.plain hplain)).imp fun _ d2 h2 => ?_
  have hplain := hplain.trans h2.2.2
  exact ⟨hadvances.trans h2.2.1 hclosed.orderly, hplain.deferring, h2.1, hf.plain hplain⟩

theorem defer_maintains (he : p.Enters scope) (inner span) : Maintains p owed (defer scope inner span) d := by
  intro hd hf
  refine .get (.ite (fun _ => .thrown trivial) fun hdefer => .reads (node_views inner) fun node => ?_)
  split
  · exact .thrown trivial
  · refine .get ?_
    split
    · exact .throw trivial
    · next stmts outer heq =>
      have hadvances : d.Advances { d with defers := ((inner, scope) :: stmts) :: outer } :=
        (Draft.Advances.refl d).congr { Draft.Grows.refl d with } rfl rfl rfl rfl rfl
      refine .modify ⟨hadvances, ⟨?_, rfl, fun h => absurd h hdefer⟩, hd.congr rfl rfl rfl fun _ hl => hl, ?_⟩
      · rw [heq]
        rfl
      · intro l hl s hs
        rcases List.mem_cons.mp hl with rfl | hl
        · rcases List.mem_cons.mp hs with rfl | hs
          · exact he
          · exact hf stmts (heq ▸ List.mem_cons_self) s hs
        · exact hf l (heq ▸ List.mem_cons_of_mem stmts hl) s hs

/-! ## Control -/

theorem condition_carries {o} (hw : w.Abides p) (hs : p.Sees scope) (n) :
    Carries p o (condition w scope n) d fun i d' => d'.Supplies o i :=
  (boolean_provides hw hs n).bind fun _ _ _ hop => materialize_carries hop

theorem addBlock_builds (h : Draft.Builds p owed d0 ahead d) (name) :
    Gives p (addBlock name) d fun b d' => (Draft.Builds p owed d0 (ahead ++ [b]) d' ∧ d.Advances d') ∧
      d'.func.Unentered b ∧ ∀ x, d.func.Unentered x → d'.func.Unentered x := by
  have hsame := d.sameCode_addBlock name
  exact .modifyGet ⟨⟨h.addBlock name, d.advances_addBlock name⟩,
    hsame.unentered (h.after.unentered (d.not_has_addBlock name)), fun _ hx => hsame.unentered hx⟩

theorem moveTo_proceeds (h : Draft.Builds p owed d0 [b] d ∧ d.isTerminated = true) :
    Gives p (moveTo b) d fun _ d' => d0.Proceeds p owed d' := .modify (h.1.moveTo h.2).proceeds

theorem arm_builds (hw : w.Abides p) (stores : p.Stores) (he : p.Enters scope)
    (h : Draft.Builds p owed d0 (b :: ahead) d ∧ d.isTerminated = true) (hstop : stop ∈ ahead) (n span) :
    Gives p (choose.arm w scope span b n stop) d fun _ d' => Draft.Builds p owed d0 ahead d' ∧ d'.isTerminated = true :=
  .modifyBind (((hw.stmt stores he n).builds (h.1.moveTo h.2)).bind fun _ _ h' => .modify (h'.1.jumpAhead hstop span))

theorem choose_maintains (hw : w.Abides p) (stores : p.Stores) (he : p.Enters scope) (cond yes no span) :
    Maintains p owed (choose w scope cond yes no span) d := by
  intro hd hf
  refine ((condition_carries hw (p.sees he) cond).strictly hd).bind fun cond d1 ⟨h1, hcond⟩ => ?_
  refine (addBlock_builds (h1.builds hf) _).bind fun yesBlock d2 ⟨⟨h2, g2⟩, _⟩ => ?_
  have hcond := (hcond trivial).toOffers.advances h1.after g2
  cases no with
  | some no =>
    refine (addBlock_builds h2 _).bind fun noBlock d3 ⟨⟨h3, g3⟩, _⟩ => ?_
    refine (addBlock_builds h3 _).bind fun stop d4 ⟨⟨h4, g4⟩, _⟩ => .modifyBind ?_
    have hcond := (hcond.advances h2.after g3).advances h3.after g4
    refine (arm_builds hw stores he (h4.branch hcond (by simp) (by simp) span) (by simp) yes span).bind fun _ d6 h6 => ?_
    exact (arm_builds hw stores he h6 (by simp) no span).bind fun _ d7 h7 => moveTo_proceeds h7
  | none =>
    refine (addBlock_builds h2 _).bind fun stop d3 ⟨⟨h3, g3⟩, _⟩ => .modifyBind ?_
    have hcond := hcond.advances h2.after g3
    refine (arm_builds hw stores he (h3.branch hcond (by simp) (by simp) span) (by simp) yes span).bind fun _ d5 h5 => ?_
    exact moveTo_proceeds h5

private theorem enterLoop_builds (hw : w.Abides p) (hs : p.Sees scope) {body}
    (h : Draft.Builds p owed d0 [body, stop] d)
    (hempty : (d.func.block d.current).instrs = #[]) (cond span) :
    Gives p (enterLoop w scope cond body stop span) d fun _ d' =>
      (Draft.Builds p owed d0 [body, stop] d' ∧ d'.isTerminated = true) ∧ d.Grows d' ∧
        ∀ i ∈ (d'.func.block d.current).instrs, (d'.func.instr i).kind.incoming? = none := by
  cases cond with
  | some cond =>
    refine ((condition_carries hw hs cond).builds h).bind fun cond d1 ⟨⟨h1, g1⟩, hcond⟩ => ?_
    refine .modify ⟨h1.branch (hcond trivial).toOffers (by simp) (by simp) span,
      g1.toGrows.trans (d1.grows_emitExit _ _ span), ?_⟩
    refine Draft.noPhi_emitExit h1.after (hcond trivial).goesOn rfl (fun i hi => ?_) _ span
    rcases g1.phi h.after.here hi with hold | hnone
    · rw [hempty] at hold
      exact absurd hold (Array.not_mem_empty i)
    · exact hnone
  | none =>
    refine .modify ⟨h.jumpAhead (by simp) span, d.grows_jump body span, ?_⟩
    have hopen := Draft.isTerminated_of_empty hempty
    have hjump : d.jump body span = d.emitExit (.jump body) [body] span := by
      rw [Draft.jump, if_neg (by simp [hopen])]
    rw [hjump]
    refine Draft.noPhi_emitExit h.after hopen rfl (fun i hi => ?_) _ span
    rw [hempty] at hi
    exact absurd hi (Array.not_mem_empty i)

theorem repeatLoop_maintains (hw : w.Abides p) (stores : p.Stores) (he : p.Enters scope) (cond body span) :
    Maintains p owed (repeatLoop w scope cond body span) d := by
  intro hd hf
  refine (addBlock_builds (.refl hd hf) _).bind fun condBlock d1 ⟨⟨h1, _⟩, _⟩ => ?_
  refine (addBlock_builds h1 _).bind fun bodyBlock d2 ⟨⟨h2, _⟩, hnew, _⟩ => ?_
  refine (addBlock_builds h2 _).bind fun stop d3 ⟨⟨h3, _⟩, _, hkept⟩ => .modifyBind (.modifyBind ?_)
  have hne : condBlock ≠ bodyBlock ∧ condBlock ≠ stop ∧ bodyBlock ≠ stop := by
    have hnodup := h3.nodup
    simp at hnodup
    tauto
  have h4 := h3.jumpAhead (b := condBlock) (by simp) span
  have hnew := Draft.unentered_jump h3.after (hkept bodyBlock hnew) hne.1.symm span
  have h5 := h4.1.moveTo h4.2
  have hempty := (h4.1.waits condBlock (by simp)).empty
  refine (enterLoop_builds hw (p.sees he) h5 hempty cond span).bind fun _ d6 ⟨h6, g6, hphi⟩ => ?_
  refine .modifyBind (.modifyBind ?_)
  have h7 := h6.1.moveTo h6.2
  have hhas : d6.func.blocks.Has condBlock := g6.blocks h5.after.here
  have hhead : Draft.Heads { d6 with current := bodyBlock } condBlock :=
    ⟨hhas, hne.1, g6.dominates_unentered h5.after hnew, hphi⟩
  have hinside := h7.after.inLoop (l := ⟨condBlock, stop, d6.defers.length⟩) hhead (h7.waits stop (by simp))
  refine (hw.stmt stores he body hinside h7.fresh).bind fun _ d8 h8 => .modifyBind ?_
  have hback := h8.after.next ⟨condBlock, stop, d6.defers.length⟩ (by rw [h8.loops]; exact List.mem_cons_self)
  have h9 := h7.ofLoop (h4.1.new condBlock (by simp)) (h4.1.new stop (by simp)) h8
  refine .modifyBind (moveTo_proceeds ⟨h9.jump (.inr ?_) (.inl (h4.1.new condBlock (by simp))) span,
    Draft.isTerminated_jump h9.after.here condBlock span⟩)
  exact ⟨hback.has, hback.left, hback.dominates, hback.noPhi⟩

theorem exitLoop_maintains (hw : w.Abides p) (stores : p.Stores) (word : String) {target : LoopTargets → BlockId}
    (htarget : target = LoopTargets.next ∨ target = LoopTargets.stop) (span) :
    Maintains p owed (exitLoop w word target span) d := by
  intro hd hf
  refine .get (.ite (fun _ => .thrown trivial) fun _ => ?_)
  split
  · exact .throw trivial
  · next l outer hl =>
    have hmem : l ∈ d.loops := by
      rw [hl]
      exact List.mem_cons_self
    refine ((runPending_maintains hw stores _).builds (.refl hd hf)).bind fun _ d1 ⟨h1, _⟩ => ?_
    have hmem1 : l ∈ d1.loops := by
      rw [h1.loops]
      exact hmem
    have hjump : d1.Reserves (target l) ∨ d1.Heads (target l) := by
      rcases htarget with rfl | rfl
      · exact .inr (h1.after.next l hmem1)
      · exact .inl (h1.after.stop l hmem1)
    have hexits : d.Exits (target l) := by
      rcases htarget with rfl | rfl
      · exact ⟨l, hmem, .inl rfl⟩
      · exact ⟨l, hmem, .inr rfl⟩
    exact .modify (h1.jump hjump (.inr hexits) span).proceeds

theorem emit_maintains {kind} (reads : ∀ r ∈ kind.reads none, d.Offers r) (targets : kind.targets = [])
    (phi : kind.incoming? = none) (result : kind = .ret none → d.func.ret = .void) (ty span) :
    Maintains p owed (emit kind ty span) d := by
  intro hd hf
  obtain ⟨hregular, hadvances⟩ := hd.emit (.refl d) reads targets phi result ty span
  have hplain := d.plain_emit kind ty span
  exact .modifyGet ⟨hadvances, hplain.deferring, hregular, hf.plain hplain⟩

theorem giveBack_maintains (hw : w.Abides p) (stores : p.Stores) (hs : p.Sees scope) (value span) :
    Maintains p owed (giveBack w scope value span) d := by
  intro hd hf
  refine .get (.get (.ite (fun _ => .thrown trivial) fun _ => ?_))
  cases value with
  | some value =>
    refine .ite (fun _ => .thrown trivial) fun _ => ?_
    refine ((hw.expr hs value).strictly hd).bind fun op d1 ⟨h1, hop⟩ => ?_
    refine ((coerce_provides hop _).strictly h1.after).bind fun op d2 ⟨h2, hop⟩ => ?_
    refine ((materialize_carries hop).strictly h2.after).bind fun id d3 ⟨h3, hid⟩ => .get ?_
    have hvalue := (h1.trans h2).trans h3
    refine ((runPending_maintains hw stores 0).builds (hvalue.builds hf)).bind fun _ d4 ⟨h4, g4⟩ => ?_
    have hid := (hid trivial).toOffers.advances hvalue.after g4
    have hreads : ∀ r ∈ (InstrKind.ret (some id)).reads none, d4.Offers r := by
      intro r hr
      rw [List.mem_singleton.mp hr]
      exact hid
    refine ((emit_maintains hreads rfl rfl (by simp) _ span).builds h4).bind fun _ d5 h5 => ?_
    exact .pure h5.1.proceeds
  | none =>
    refine .ite (fun _ => .reads (quoted_views _) fun _ => .thrown trivial) fun hret => .get ?_
    refine ((runPending_maintains hw stores 0).builds (.refl hd hf)).bind fun _ d1 ⟨h1, _⟩ => ?_
    have hvoid : d1.func.ret = .void := by
      rw [h1.func.ret]
      exact not_not.mp hret
    refine ((emit_maintains (fun r hr => by cases hr) rfl rfl (fun _ => hvoid) _ span).builds h1).bind
      fun _ d2 h2 => .pure h2.1.proceeds

/-! ## Switches -/

/-- All jumps of the switch lead to the blocks of its cases. -/
structure SwitchTable.Covers (table : SwitchTable) : Prop where
  cases : ∀ p ∈ table.cases, p.2 ∈ table.arms.map Prod.fst
  otherwise : ∀ b ∈ table.otherwise, b ∈ table.arms.map Prod.fst

theorem SwitchTable.Covers.nil : SwitchTable.Covers ⟨[], none, []⟩ where
  cases _ hp := by cases hp
  otherwise _ hb := by cases hb

theorem caseValues_gives (hw : w.Abides p) (hs : p.Sees scope) (ty b) (values : List NodeId) (cases) :
    Gives p (values.foldlM (addCaseValue w scope ty b) cases) d fun cases' d' =>
      d' = d ∧ ∀ c ∈ cases', c ∈ cases ∨ c.2 = b := by
  induction values generalizing cases with
  | nil => exact .pure ⟨rfl, fun _ hp => .inl hp⟩
  | cons n values ih =>
    rw [List.foldlM_cons]
    refine Gives.bind (P := fun cases' d' => d' = d ∧ ∀ c ∈ cases', c ∈ cases ∨ c.2 = b)
      (.liftBind (Analysis.comptimeValue_abides hw hs n (some ty)) fun r _ => ?_) ?_
    · dsimp only
      split
      · refine .ite (fun _ => .reads (spanOf_views n) fun _ => .thrown trivial) fun _ => .pure ⟨rfl, fun c hc => ?_⟩
        rcases List.mem_append.mp hc with hc | hc
        · exact .inl hc
        · rw [List.mem_singleton.mp hc]
          exact .inr rfl
      · exact .reads (spanOf_views n) fun _ => .throw trivial
    · rintro cases' _ ⟨rfl, hcases⟩
      refine (ih cases').imp fun cases'' d' h => ⟨h.1, fun c hc => ?_⟩
      rcases h.2 c hc with hc | hc
      · exact hcases c hc
      · exact .inr hc

private theorem addCase_builds (hw : w.Abides p) (hs : p.Sees scope)
    (h : Draft.Builds p owed d0 (stop :: table.arms.map Prod.fst) d) (ht : table.Covers) (ty case) :
    Gives p (addCase w scope ty table case) d fun table' d' =>
      (Draft.Builds p owed d0 (stop :: table'.arms.map Prod.fst) d' ∧ table'.Covers) ∧ d.Advances d' := by
  have hold {b x : BlockId} {body : NodeId} (hx : x ∈ table.arms.map Prod.fst) :
      x ∈ (table.arms ++ [(b, body)]).map Prod.fst := by
    rw [List.map_append]
    exact List.mem_append_left _ hx
  have hnew {b : BlockId} {body : NodeId} : b ∈ (table.arms ++ [(b, body)]).map Prod.fst := by simp
  have harms {b : BlockId} {d' : Draft} {body : NodeId}
      (h' : Draft.Builds p owed d0 (stop :: table.arms.map Prod.fst ++ [b]) d') :
      Draft.Builds p owed d0 (stop :: (table.arms ++ [(b, body)]).map Prod.fst) d' := by
    rw [List.map_append]
    exact h'
  refine .ite (fun _ => ?_) fun _ => ?_
  · refine (addBlock_builds h _).bind fun b d1 ⟨⟨h1, g1⟩, _⟩ => ?_
    refine .ite (fun _ => .thrown trivial) fun _ => .pure ⟨⟨harms h1, ?_⟩, g1⟩
    refine ⟨fun p hp => hold (ht.cases p hp), fun x hx => ?_⟩
    obtain rfl := Option.some.inj hx
    exact hnew
  · refine (addBlock_builds h _).bind fun b d1 ⟨⟨h1, g1⟩, _⟩ => (caseValues_gives hw hs ty b _ _).bind ?_
    rintro cases _ ⟨rfl, hcases⟩
    refine .pure ⟨⟨harms h1, fun p hp => ?_, fun x hx => hold (ht.otherwise x hx)⟩, g1⟩
    rcases hcases p hp with hp | rfl
    · exact hold (ht.cases p hp)
    · exact hnew

theorem addCases_builds (hw : w.Abides p) (hs : p.Sees scope) {value}
    (h : Draft.Builds p owed d0 (stop :: table.arms.map Prod.fst) d) (ht : table.Covers) (hvalue : d.Offers value) (ty)
    (cases : List Case) :
    Gives p (cases.foldlM (addCase w scope ty) table) d fun table' d' =>
      (Draft.Builds p owed d0 (stop :: table'.arms.map Prod.fst) d' ∧ table'.Covers) ∧ d'.Offers value := by
  induction cases generalizing d table with
  | nil => exact .pure ⟨⟨h, ht⟩, hvalue⟩
  | cons case cases ih =>
    rw [List.foldlM_cons]
    refine (addCase_builds hw hs h ht ty case).bind fun table1 d1 ⟨⟨h1, ht1⟩, g1⟩ => ?_
    exact ih h1 ht1 (hvalue.advances h.after g1)

theorem switch_builds {value} (h : Draft.Builds p owed d0 (stop :: table.arms.map Prod.fst) d) (ht : table.Covers)
    (hvalue : d.Offers value) (span) :
    Gives p (switch value table.cases (table.otherwise.getD stop) span) d fun _ d' =>
      Draft.Builds p owed d0 (table.arms.map Prod.fst ++ [stop]) d' ∧ d'.isTerminated = true := by
  refine .modify ⟨?_, Draft.isTerminated_emitExit h.after.here rfl _ span⟩
  refine (h.emitExit (fun r hr => ?_) (fun b hb => ?_) (fun b hb => ?_) rfl (by simp) span).perm
    (List.perm_append_singleton stop _).symm
  · rw [List.mem_singleton.mp hr]
    exact hvalue
  · rcases List.mem_cons.mp hb with rfl | hb
    · exact List.mem_append_right _ List.mem_cons_self
    · exact List.mem_append_left _ hb
  · rcases List.mem_cons.mp hb with rfl | hb
    · cases hother : table.otherwise with
      | some b => exact List.mem_cons_of_mem stop (ht.otherwise b hother)
      | none => exact List.mem_cons_self
    · obtain ⟨p, hp, rfl⟩ := List.mem_map.mp hb
      exact List.mem_cons_of_mem stop (ht.cases p hp)

private theorem arms_builds (hw : w.Abides p) (stores : p.Stores) (he : p.Enters scope) {arms : List (BlockId × NodeId)}
    (h : Draft.Builds p owed d0 (arms.map Prod.fst ++ [stop]) d ∧ d.isTerminated = true) (span) :
    Gives p (arms.forM fun (b, body) => choose.arm w scope span b body stop) d fun _ d' =>
      Draft.Builds p owed d0 [stop] d' ∧ d'.isTerminated = true := by
  induction arms generalizing d with
  | nil => exact .pure h
  | cons arm arms ih =>
    show Gives p (choose.arm w scope span arm.1 arm.2 stop >>= fun _ =>
      arms.forM fun (b, body) => choose.arm w scope span b body stop) d _
    exact (arm_builds hw stores he h (by simp) arm.2 span).bind fun _ d1 h1 => ih h1

theorem switchStmt_maintains (hw : w.Abides p) (stores : p.Stores) (he : p.Enters scope) (value cases span) :
    Maintains p owed (switchStmt w scope value cases span) d := by
  intro hd hf
  have hs := p.sees he
  refine ((value_provides hw hs value).strictly hd).bind fun op d1 ⟨h1, hop⟩ => .reads types_views fun t => ?_
  refine .ite (fun _ => .reads (quoted_views _) fun _ => .thrown trivial) fun _ => ?_
  refine ((materialize_carries hop).strictly h1.after).bind fun value d2 ⟨h2, hvalue⟩ => ?_
  have h2 := h1.trans h2
  refine (addBlock_builds (h2.builds hf) _).bind fun stop d3 ⟨⟨h3, g3⟩, _⟩ => ?_
  refine (addCases_builds hw hs h3 .nil ((hvalue trivial).toOffers.advances h2.after g3) op.ty cases).bind
    fun table d4 ⟨⟨h4, ht⟩, hvalue⟩ => ?_
  refine (switch_builds h4 ht hvalue span).bind fun _ d5 h5 => ?_
  exact (arms_builds hw stores he h5 span).bind fun _ d6 h6 => moveTo_proceeds h6

/-! ## Variables -/

section

variable {o : Draft.Order}

private theorem assignedValue_provides (op) {place value} (hplace : place.Usable p o d) (hvalue : value.Usable p o d)
    (span) :
    Provides p o (assignedValue op place value span) d := by
  cases op with
  | none => exact .pure hvalue
  | some op =>
    refine (rvalue_provides hplace).bind fun current d1 h1 hcurrent => ?_
    refine (rvalue_provides (h1.usable hvalue)).bind fun value d2 h2 hvalue => ?_
    exact binary_provides op (h2.usable hcurrent) hvalue span

theorem assign_carries (hw : w.Abides p) (hs : p.Sees scope) (op target value span) :
    Carries p o (assign w scope op target value span) d fun _ _ => True := by
  refine (hw.expr hs target).bind fun place d1 _ hplace => ?_
  split
  · next ptr hk =>
    refine .ite (fun _ => ?_) fun _ => .thrown trivial
    refine (hw.expr hs value).bind fun value d2 h2 hvalue => ?_
    refine (assignedValue_provides op (h2.usable hplace) hvalue span).bind fun value d3 h3 hvalue => ?_
    refine (coerce_provides hvalue place.ty).bind fun value d4 h4 hvalue => ?_
    refine (materialize_carries hvalue).bind fun value d5 h5 hvalue => ?_
    have hlater := (h2.trans h3).trans (h4.trans h5)
    have hptr := hlater.supplies (hplace.supplied ptr (.inr hk))
    exact .bind (emit_carries (.store ptr value) rfl rfl (supplies_two hptr hvalue) _ _) fun _ _ _ _ => .pure trivial
  · exact .throw trivial

theorem initialValue_provides (hw : w.Abides p) (hs : p.Sees scope) (n decl span) :
    Provides p o (initialValue w scope n decl span) d := by
  refine .liftBind (Analysis.typeExpr?_abides hw hs decl.ty) fun declared _ => ?_
  split
  · exact (hw.expr hs _).bind fun _ _ _ hop => coerce_provides hop _
  · exact value_provides hw hs _
  · exact .liftBind (Analysis.zeroValue_abides _ _) fun _ _ => .pure Operand.usable_value
  · exact .throw trivial

variable {op : Operand} (hop : op.Usable p o d)

include hop

private theorem newVariable_carries (name mutable) (span) :
    Carries p o (newVariable name op mutable span) d fun bound _ => bound.Bindable p.Sees p.Stores := by
  refine .liftBind (Analysis.checkStorage_abides _ _ _) fun _ _ => ?_
  refine (materialize_carries hop).bind fun stored d1 _ hstored => (addSlot_carries name op.ty span).bind
    fun slot d2 h2 _ => .liftBind (Analysis.ptrTo_abides _) fun ty _ => ?_
  refine .bind (emit_carries (.slotPtr slot) rfl rfl (fun r hr => by cases hr) _ _) fun ptr d3 h3 hptr => ?_
  have hstored := (h2.trans h3).supplies hstored
  refine .bind (emit_carries (.store ptr stored) rfl rfl (supplies_two hptr hstored) _ _) fun _ _ _ _ => .pure ?_
  trivial

private theorem localBinding_carries (stores : p.Stores) (decl span) :
    Carries p o (localBinding decl op span) d fun bound _ => bound.Bindable p.Sees p.Stores := by
  refine .ite (fun _ => .ite (fun _ => newVariable_carries hop _ _ _) fun _ => .thrown trivial) fun _ => ?_
  cases hbound : constantBinding op with
  | none => exact newVariable_carries hop _ _ _
  | some bound =>
    refine .pure ?_
    unfold constantBinding at hbound
    split at hbound
    case h_6 id hkind =>
      cases hbound
      exact hop.sees id hkind
    all_goals cases hbound <;> trivial

end

private theorem localDecl_carries {o} (hw : w.Abides p) (stores : p.Stores) (he : p.Enters scope) (n decl span) :
    Carries p o (localDecl w scope n decl span) d fun _ _ => True := by
  refine fun hd => .read fun c => Carries.ite (fun _ => ?_) (fun _ => ?_) hd
  · refine .liftBind (Analysis.declareSymbol_gives he nofun) fun id hid => ?_
    refine .liftBind (Analysis.directBinding_gives hw (p.sees he) decl hid) fun r hr => ?_
    cases r with
    | some bound => exact .lift (Analysis.resolveSymbol_abides hid (hr bound rfl))
    | none => exact .pure trivial
  · refine (initialValue_provides hw (p.sees he) n decl span).bind fun op d1 _ hop => ?_
    refine (localBinding_carries hop stores decl span).bind fun bound d2 _ hbound => ?_
    refine .liftBind (Analysis.declareSymbol_gives he ?_) fun _ _ => .pure trivial
    rintro _ ⟨rfl⟩
    exact hbound

/-! ## All statements -/

private theorem staticAssert_abides (hw : w.Abides p) (hs : p.Sees scope) (cond) (message) (span) :
    Analysis.Abides p (staticAssert w scope cond message span) := by
  refine (Analysis.comptimeValue_abides hw hs cond _).bind fun r _ => ?_
  split
  · exact .throw rfl
  · exact .pure trivial

private theorem statement_maintains (hw : w.Abides p) (stores : p.Stores) (he : p.Enters scope) (n) :
    Maintains p owed (statement w scope n) d := by
  have hs := p.sees he
  refine .reads (node_views n) fun node => ?_
  dsimp only
  split
  · exact (localDecl_carries hw stores he n _ _).maintains
  · exact block_maintains hw stores hs _
  · exact choose_maintains hw stores he _ _ _ _
  · exact repeatLoop_maintains hw stores he _ _ _
  · exact exitLoop_maintains hw stores _ (.inr rfl) _
  · exact exitLoop_maintains hw stores _ (.inl rfl) _
  · exact giveBack_maintains hw stores hs _ _
  · exact switchStmt_maintains hw stores he _ _ _
  · exact defer_maintains he _ _
  · exact (assign_carries hw hs _ _ _ _).maintains
  · intro hd hf
    refine (emit_maintains (fun r hr => by cases hr) rfl rfl (fun h => by cases h) _ _ hd hf).bind fun _ d1 h1 => ?_
    exact .pure h1
  · refine Carries.maintains (P := fun _ _ => True) ?_
    refine (condition_carries hw hs _).bind fun cond d1 _ hcond => ?_
    exact .bind (emit_carries (.assert cond _) rfl rfl (supplies_one hcond) _ _) fun _ _ _ _ => .pure trivial
  · exact (Carries.lift (staticAssert_abides hw hs _ _ _)).maintains (P := fun _ _ => True)
  · exact .throw trivial
  · exact ((value_provides hw hs n).bind fun _ _ _ _ => .pure trivial).maintains (P := fun _ _ => True)

end Lower

namespace Analysis

/-- The whole analysis keeps to every policy. -/
theorem walk_abides (p) (depth) : (walk depth).Abides p := by
  induction depth with
  | zero => exact ⟨fun _ _ => .throw trivial, fun _ _ => .throw trivial, fun _ _ _ _ => .throw trivial⟩
  | succ depth ih =>
    exact ⟨fun hs n => Lower.expression_provides ih hs n, fun hs n => typeExpression_abides ih hs n,
      fun stores _ he n => Lower.statement_maintains ih stores he n⟩

end Analysis

end Comptime
