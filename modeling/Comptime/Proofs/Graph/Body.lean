import Comptime.Proofs.Graph.Statement

/-!
# The graph of a body

A body is written into a draft of its own, which is in order when it starts. Its statements keep it so
(`Lower.statements_gives`), and its end closes it (`Draft.Closes`).
-/

namespace Comptime

namespace Draft

variable {d d' : Draft} {owed : List BlockId}

/-- The draft `d`, in which the statements of a body end, has been closed. An instruction that has been added
there is no `unreachable` if control may come there. -/
structure Closes (d d' : Draft) : Prop where
  regular : d'.Regular []
  ended : d'.isTerminated = true
  reachable : d'.reachable = d.reachable
  ret : d'.func.ret = d.func.ret
  added : ∀ {i}, d'.func.instrs.Has i → ¬ d.func.instrs.Has i → (d'.func.instr i).kind = .unreachable →
    (d'.func.instr i).block ∉ d.reachable

end Draft

namespace Lower

variable {p : Policy} {w : Walk} {d : Draft} {scope : ScopeId}

theorem parameters_gives {owed} (he : p.Enters scope) (params) (hd : d.Regular owed) (hf : d.Fresh p) :
    Gives p (parameters scope params) d fun _ d' =>
      (d'.Regular owed ∧ d'.Fresh p) ∧ d'.func.ret = d.func.ret := by
  unfold parameters
  induction params generalizing d with
  | nil => exact .pure ⟨⟨hd, hf⟩, rfl⟩
  | cons a params ih =>
    refine Gives.bind (P := fun _ d' => (d'.Regular owed ∧ d'.Fresh p) ∧ d'.func.ret = d.func.ret)
      (.modifyGetBind (.modifyBind ?_)) fun _ d1 h1 => ?_
    · refine .liftBind (Analysis.declareSymbol_gives he fun _ h => by cases h; trivial) fun _ _ => .pure ⟨⟨?_, hf⟩, rfl⟩
      exact (hd.addSlot a.1.name a.2 a.1.span).ofSameBody rfl rfl rfl
    · exact (ih h1.1.1 h1.1.2).imp fun _ d2 h2 => ⟨h2.1, h2.2.trans h1.2⟩

theorem closeBody_gives (hd : d.Regular []) (span) : Gives p (closeBody span) d fun _ d' => d.Closes d' := by
  have hemit {kind : InstrKind} (reads : kind.reads none = []) (targets : kind.targets = [])
      (phi : kind.incoming? = none) (ends : kind.isTerminator = true) (hopen : d.isTerminated = false)
      (result : kind = .ret none → d.func.ret = .void)
      (unreached : kind = .unreachable → d.current ∉ d.reachable) :
      Gives p (emit kind .void span >>= fun _ => pure PUnit.unit) d fun _ d' => d.Closes d' := by
    refine .modifyGetBind (.pure ?_)
    show d.Closes (d.emit kind .void span).1
    have hreads : ∀ r ∈ kind.reads none, d.Offers r := by
      rw [reads]
      exact fun r hr => by cases hr
    have hregular := (hd.emit (.refl d) hreads targets phi result .void span).1
    have hended := Draft.isTerminated_emit hd.here ends .void span
    rw [Draft.emit_of_open hopen] at hregular hended ⊢
    refine ⟨hregular, hended, rfl, rfl, fun {i} hi hn hk => ?_⟩
    obtain rfl := (Draft.has_write.mp hi).resolve_left hn
    have hk : ((d.write kind .void span d.reachable).func.instr d.func.instrs.nextId).kind = .unreachable := hk
    show ((d.write kind .void span d.reachable).func.instr d.func.instrs.nextId).block ∉ _
    rw [Draft.instr_write_new] at hk ⊢
    exact unreached hk
  refine .get (.ite (fun hended => .pure ?_) fun hopen => ?_)
  · exact ⟨hd, hended, rfl, rfl, fun hi hn => absurd hi hn⟩
  · have hopen : d.isTerminated = false := by simpa using hopen
    refine .ite (fun hmark => ?_) fun _ => .ite (fun hret => ?_) fun _ => .reads (Analysis.quoted_views _) fun _ => .throw trivial
    · refine hemit rfl rfl rfl rfl hopen (fun h => by cases h) fun _ => ?_
      simpa [Draft.isReachable] using hmark
    · exact hemit rfl rfl rfl rfl hopen (fun _ => hret) fun h => by cases h

/-- A body without its end. -/
def statements (w : Walk) (source : Source) (lit : FnLiteral) (n : NodeId) : Lower Unit := do
  let func := (← get).func
  let scope ← Analysis.fnScope source.scope source.bindings
  parameters scope (lit.sig.params.zip func.params)
  match (← Analysis.node n).kind with
  | .block stmts => block w scope stmts
  | _ => w.stmt scope n

theorem body_eq (w source lit n d) :
    body w source lit n d = (statements w source lit n >>= fun _ => closeBody d.func.span) d := by
  have hget {α : Type} (k : Draft → Lower α) : (get >>= k) d = k d d := rfl
  unfold body statements
  rw [bind_assoc, hget, hget]
  simp only [bind_assoc]
  refine congrFun (bind_congr fun scope => bind_congr fun _ => bind_congr fun node => ?_) d
  cases node.kind <;> rfl

theorem statements_gives (hw : w.Abides p) (stores : p.Stores) {source} (hs : p.Sees source.scope) (lit n) (hd : d.Regular [])
    (hf : d.Fresh p) :
    Gives p (statements w source lit n) d fun _ d' => d'.Regular [] ∧ d'.func.ret = d.func.ret := by
  refine .get (.liftBind (Analysis.fnScope_gives hs _) fun scope he => ?_)
  refine (parameters_gives he _ hd hf).bind fun _ d1 ⟨⟨h1, hf1⟩, hret⟩ => .reads (Analysis.node_views n) fun node => ?_
  have hrest {x : Lower Unit} (hx : Maintains p [] x d1) : Gives p x d1 fun _ d' =>
      d'.Regular [] ∧ d'.func.ret = d.func.ret :=
    (hx h1 hf1).imp fun _ d2 h2 => ⟨h2.after, h2.func.ret.trans hret⟩
  split
  · exact hrest (block_maintains hw stores (p.sees he) _)
  · exact hrest (hw.stmt stores he n)

theorem body_gives (hw : w.Abides p) (stores : p.Stores) {source} (hs : p.Sees source.scope) (lit n) (hd : d.Regular [])
    (hf : d.Fresh p) : Gives p (body w source lit n) d fun _ _ => True := by
  unfold Gives
  rw [body_eq]
  exact Gives.bind (statements_gives hw stores hs lit n hd hf) fun _ d1 h1 =>
    (closeBody_gives h1.1 _).imp fun _ _ _ => trivial

end Lower

end Comptime
