import Comptime.Proofs.Machine.Logic

/-!
# What an instruction does

`Frame.Sound` is the invariant of a call: what it has executed left values of the right types.
`Machine.execute_runs` says that an instruction of such a call is never invalid, and that it does one
of five things: it writes a value of its type, it writes nothing, it jumps, it calls, or it returns.
The stack of calls is treated in terms of these.
-/

namespace Comptime

/-- A call of a well-typed function, in which the instructions `passed` have been executed. -/
structure Frame.Sound (env : Setting) (f : Frame) (passed : List InstrId) : Prop where
  function : f.func.WellTyped env.types env.code
  size : f.regs.size = f.func.instrs.size
  /-- A register that is not written holds nothing. -/
  regs : ∀ i, f.func.instrs.Has i →
    f.reg i = .void ∨ (f.reg i).fits env.types (f.func.typeOf i) = true
  values : ∀ i ∈ passed, (f.reg i).fits env.types (f.func.typeOf i) = true

/-- A call in the middle of an instruction: it counts as done for the position only. -/
structure Frame.Executing (env : Setting) (f : Frame) (i : InstrId) (passed : List InstrId) : Prop
    extends f.Sound env passed where
  path : ∃ pos, f.pos = pos + 1 ∧ f.func.Path f.block pos f.prev passed ∧
    f.func.at? f.block pos = some i

namespace Frame

variable {env : Setting} {f : Frame} {passed : List InstrId} {i j : InstrId} {ty : TypeId}

/-! ## Registers of a call -/

private theorem reg_set {v} (hs : f.regs.size = f.func.instrs.size) (hi : f.func.instrs.Has i) :
    ({ f with regs := f.regs.setIfInBounds i.index v } : Frame).reg j = if j = i then v else f.reg j := by
  have hi : i.index < f.regs.size := hs ▸ hi
  simp only [reg, Array.getD_eq_getD_getElem?, Array.getElem?_setIfInBounds]
  by_cases hij : j = i
  · subst hij
    simp [hi]
  · have : i.index ≠ j.index := fun h => hij (by cases i; cases j; cases h; rfl)
    simp [hij, this]

theorem Sound.write {v : Value} (h : f.Sound env passed) (hi : f.func.instrs.Has i)
    (hv : v.fits env.types (f.func.typeOf i) = true) :
    ({ f with regs := f.regs.setIfInBounds i.index v } : Frame).Sound env (i :: passed) where
  function := h.function
  size := (Array.size_setIfInBounds ..).trans h.size
  regs j hj := by
    rw [reg_set h.size hi]
    split
    · next hji => exact .inr (hji ▸ hv)
    · exact h.regs j hj
  values j hj := by
    rw [reg_set h.size hi]
    split
    · next hji => exact hji ▸ hv
    · next hji => exact h.values j ((List.mem_cons.mp hj).resolve_left hji)

theorem Sound.skip (h : f.Sound env passed) (hw : env.WellTyped) (hi : f.func.instrs.Has i)
    (hty : f.func.typeOf i = .void) : f.Sound env (i :: passed) :=
  { h with
    values j hj := by
      rcases List.mem_cons.mp hj with rfl | hj
      · refine (h.regs j hi).elim (fun hv => ?_) id
        rw [hv, hty]
        exact (Value.fits_iff hw.standard.void).mpr rfl
      · exact h.values j hj }

theorem Sound.executing (h : f.Sound env passed) (hpath : f.func.Path f.block f.pos f.prev passed)
    (hat : f.func.at? f.block f.pos = some i) :
    ({ f with pos := f.pos + 1 } : Frame).Executing env i passed :=
  ⟨⟨h.function, h.size, h.regs, h.values⟩, f.pos, rfl, hpath, hat⟩

theorem Fresh.sound {g result} (h : f.Fresh g result) (hg : g.WellTyped env.types env.code) : f.Sound env [] where
  function := h.func ▸ hg
  size := by rw [h.regs, h.func, Array.size_replicate]
  regs i _ := by
    refine .inl ?_
    rw [reg, h.regs, Array.getD_eq_getD_getElem?, Array.getElem?_replicate]
    split <;> rfl
  values := by simp

/-! ## Operands -/

namespace Executing

variable (h : f.Executing env i passed)

include h

theorem has : f.func.instrs.Has i := by
  obtain ⟨pos, -, -, hat⟩ := h.path
  exact h.function.has_instr _ _ (Function.mem_of_at? hat)

theorem typed : (f.func.instr i).kind.Typed env.types env.code f.func (f.func.typeOf i) :=
  h.function.instrs i h.has

theorem fits (hj : j ∈ (f.func.instr i).kind.reads f.prev) (hg : f.func.Gives j ty) :
    (f.reg j).fits env.types ty = true := by
  obtain ⟨pos, -, hpath, hat⟩ := h.path
  rw [← hg.type]
  exact h.values j (h.function.written _ _ _ _ _ hpath hat j hj)

theorem fits_all {is tys} (his : ∀ j ∈ is, j ∈ (f.func.instr i).kind.reads f.prev)
    (hg : List.Forall₂ f.func.Gives is tys) :
    List.Forall₂ (fun v ty => v.fits env.types ty = true) (is.map f.reg) tys := by
  induction hg with
  | nil => exact .nil
  | cons hj _ ih =>
    obtain ⟨hi, his⟩ := List.forall_mem_cons.mp his
    exact .cons (h.fits hi hj) (ih his)

end Executing

end Frame

theorem TypeTable.Elements.ptr {t : TypeTable} {base elem bound} (h : t.Elements base elem bound) :
    ∃ target, t.kind base = .ptr target := by
  cases bound with
  | array len => exact h.imp fun _ h => h.1
  | slice => exact h.imp fun _ h => h.1
  | unchecked => exact ⟨elem, h⟩

/-! ## Effects -/

/-- What an instruction may do to the calls in progress, given the call that executes it and the
others, and the result of the whole run, if it gives one. -/
inductive Machine.Effect (env : Setting) (f : Frame) (i : InstrId) (rest : List Frame) :
    Option Value → List Frame → Prop
  | writes {v : Value} (fits : v.fits env.types (f.func.typeOf i) = true)
    (goesOn : (f.func.instr i).kind.isTerminator = false) :
    Effect env f i rest none ({ f with regs := f.regs.setIfInBounds i.index v } :: rest)
  | skips (void : f.func.typeOf i = .void) (goesOn : (f.func.instr i).kind.isTerminator = false) :
    Effect env f i rest none (f :: rest)
  | jumps {target : BlockId} (leads : target ∈ (f.func.instr i).kind.targets) :
    Effect env f i rest none ({ f with prev := some f.block, block := target, pos := 0 } :: rest)
  | calls {callee : Frame} {g : Function} (function : g.WellTyped env.types env.code)
    (fresh : callee.Fresh g (some i)) (ret : g.ret = f.func.typeOf i)
    (goesOn : (f.func.instr i).kind.isTerminator = false) :
    Effect env f i rest none (callee :: f :: rest)
  | ends {v : Value} (fits : v.fits env.types f.func.ret = true) (last : rest = []) :
    Effect env f i rest (some v) []
  | returns {v : Value} {j : InstrId} {caller : Frame} {rest' : List Frame}
    (fits : v.fits env.types f.func.ret = true) (result : f.result = some j)
    (below : rest = caller :: rest') :
    Effect env f i rest none ({ caller with regs := caller.regs.setIfInBounds j.index v } :: rest')

namespace Machine

open Exec (Meets Runs)

variable {ty : TypeId} {base i : InstrId} {β : Type} {env : Setting} {m : Machine} {f : Frame} {passed : List InstrId}
  {rest : List Frame} {span : Span} {Q : β → Machine → Prop}

theorem setReg_effect {v} (hm : m.frames = f :: rest) (hv : v.fits env.types (f.func.typeOf i) = true)
    (hn : (f.func.instr i).kind.isTerminator = false) :
    Runs (do setReg i v; return none) m fun r m' => Effect env f i rest r m'.frames := by
  refine (modifyFrame_runs (P := fun _ m' => m'.frames = _) hm fun m' hm' => hm').bind ?_
  intro _ m' hm'
  exact Meets.pure (hm' ▸ .writes hv hn)

theorem jump_effect {target} (hm : m.frames = f :: rest) (ht : target ∈ (f.func.instr i).kind.targets) :
    Runs (do jump target; return none) m fun r m' => Effect env f i rest r m'.frames := by
  refine (modifyFrame_runs (P := fun _ m' => m'.frames = _) hm fun m' hm' => hm').bind ?_
  intro _ m' hm'
  exact Meets.pure (hm' ▸ .jumps ht)

theorem leave_effect {v} (hm : m.frames = f :: rest) (hv : v.fits env.types f.func.ret = true)
    (hr : f.result = none ↔ rest = []) : Runs (leave v) m fun r m' => Effect env f i rest r m'.frames := by
  obtain ⟨memory, top, globals, frames, state⟩ := m
  obtain rfl : frames = f :: rest := hm
  cases rest with
  | nil => exact Effect.ends hv rfl
  | cons caller rest =>
    cases hres : f.result with
    | none => cases hr.mp hres
    | some j =>
      refine Meets.modifyGet ?_
      simp only [hres]
      exact .returns hv hres rfl

/-! ## Instructions -/

theorem exists_ptr {j target} (h : f.Executing env i passed) (hj : j ∈ (f.func.instr i).kind.reads f.prev)
    (hg : f.func.Gives j ty) (hk : env.types.kind ty = .ptr target) : ∃ a, f.reg j = .ptr a :=
  (Value.fits_iff hk).mp (h.fits hj hg)

theorem behind_runs {start offset} (hm : m.frames = f :: rest) :
    Runs (behind start offset span) m fun _ m' => m'.frames = f :: rest := by
  unfold behind
  split
  · exact rfl
  · exact hm

variable (hw : env.WellTyped)

include hw

private theorem elements_bind {k : UInt64 × Option UInt64 → Exec β} {bound} (hm : m.frames = f :: rest)
    (hbase : ∃ a, f.reg base = .ptr a) (h : ∀ p, Runs (k p) m Q) : Runs (elements env base bound span >>= k) m Q := by
  unfold elements
  cases bound with
  | array len =>
    rw [bind_assoc]
    exact address_bind hm hbase fun a => h _
  | slice =>
    rw [bind_assoc]
    refine address_bind hm hbase fun a => ?_
    rw [bind_assoc]
    have hu64 : env.types.Has .u64 := TypeTable.has_of_kind_ne (by simp [hw.standard.u64])
    refine load_bind hw hu64 fun len _ => ?_
    rw [bind_assoc]
    exact load_bind hw hu64 fun ptr _ => h _
  | unchecked =>
    rw [bind_assoc]
    exact address_bind hm hbase fun a => h _

theorem elemAddress_runs {index bound bty ity elem} (h : f.Executing env i passed)
    (hm : m.frames = f :: rest) (hk : (f.func.instr i).kind = .elemPtr base index bound)
    (hbase : f.func.Gives base bty) (hindex : f.func.Gives index ity) (hint : env.types.isInt ity = true)
    (helem : env.types.Elements bty elem bound) (hty : env.types.kind ty = .ptr elem) :
    Runs (elemAddress env ty base index bound span) m fun _ m' => m'.frames = f :: rest := by
  have hreads : (f.func.instr i).kind.reads f.prev = [base, index] := by rw [hk]; rfl
  obtain ⟨target, htarget⟩ := helem.ptr
  have hptr : ∃ a, f.reg base = .ptr a := exists_ptr h (by simp [hreads]) hbase htarget
  obtain ⟨bits, signed, hbits⟩ := TypeTable.isInt_iff.mp hint
  obtain ⟨w, hword, -⟩ := (Value.fits_iff hbits).mp (h.fits (by simp [hreads]) hindex)
  obtain ⟨s, hs⟩ := hw.shape (hw.pointee hty)
  rw [elemAddress, TypeTable.pointee, hty]
  refine orNoLayout_bind (map_eq_ok.mpr ⟨s, hs, rfl⟩) (indexValue_bind hm ⟨w, hword⟩ fun n => ?_)
  refine elements_bind hw hm hptr fun ⟨start, len⟩ => ?_
  dsimp only
  split
  · split
    · exact rfl
    · exact behind_runs hm
  · exact behind_runs hm

private theorem memberOffset_bind {k : Nat → Exec β} {whole member} {index}
    (htarget : env.types.kind ty = .ptr whole) (hmember : env.types.MemberAt whole index member)
    (h : ∀ n, Runs (k n) m Q) : Runs (memberOffset env ty index span >>= k) m Q := by
  rw [memberOffset, TypeTable.pointee, htarget, Option.map_some]
  cases hmember with
  | struct hkind =>
    obtain ⟨s, hs⟩ := hw.shape (hw.pointee htarget)
    obtain ⟨_, _, -, -, hoffsets, -⟩ := TypeTable.shape_struct hkind hs
    rw [hkind]
    dsimp only
    rw [bind_assoc]
    exact orNoLayout_bind hoffsets (h _)
  | length hkind =>
    rw [hkind]
    exact h _
  | pointer hkind =>
    rw [hkind]
    exact h _

theorem memberAddress_runs {index} {bty whole member} (h : f.Executing env i passed)
    (hm : m.frames = f :: rest) (hk : (f.func.instr i).kind = .memberPtr base index) (hbase : f.func.Gives base bty)
    (htarget : env.types.kind bty = .ptr whole) (hmember : env.types.MemberAt whole index member) :
    Runs (memberAddress env f.func base index span) m fun _ m' => m'.frames = f :: rest := by
  have hptr : ∃ a, f.reg base = .ptr a := by
    refine exists_ptr h ?_ hbase htarget
    rw [hk]
    exact List.mem_singleton_self base
  rw [memberAddress, hbase.type]
  refine memberOffset_bind hw htarget hmember fun offset => ?_
  exact address_bind hm hptr fun a => behind_runs hm

theorem call_effect {g args} (hm : m.frames = f :: rest) (hg : env.code.fns.Has g)
    (hk : (f.func.instr i).kind = .call (.direct g) args) (hty : (env.code.function g).ret = f.func.typeOf i) :
    Runs (do call env i (.direct g) args span; return none) m fun r m' => Effect env f i rest r m'.frames := by
  have hn : (f.func.instr i).kind.isTerminator = false := by rw [hk]; rfl
  unfold call
  dsimp only
  rw [pure_bind, bind_assoc]
  refine (callable_runs hg).bind ?_
  rintro func _ ⟨rfl, rfl, hstate⟩
  rw [bind_assoc]
  refine mapM_reg_bind hm ?_
  cases hnative : (env.code.function g).native with
  | some name =>
    dsimp only
    rw [bind_assoc]
    refine callHost_runs.bind ?_
    rintro v _ ⟨rfl, hv⟩
    exact setReg_effect hm (hty ▸ hv) hn
  | none =>
    have hfunction := hw.function g hnative (hstate hnative)
    refine (pushFrame_runs hw hfunction.params).bind ?_
    rintro _ m' ⟨callee, hfresh, hm'⟩
    rw [hm] at hm'
    exact Meets.pure (hm' ▸ .calls hfunction hfresh hty hn)

/-- What an instruction of typed code does, unless it traps. -/
theorem execute_runs (h : f.Executing env i passed)
    (hm : m.frames = f :: rest) (hr : f.result = none ↔ rest = []) :
    Runs (execute env f.func i) m fun r m' => Effect env f i rest r m'.frames := by
  have htyped := h.typed
  have hfits {j : InstrId} {ty : TypeId} (hj : j ∈ (f.func.instr i).kind.reads f.prev)
    (hg : f.func.Gives j ty) := h.fits hj hg
  unfold execute
  dsimp only
  generalize hk : (f.func.instr i).kind = k at htyped hfits ⊢
  generalize hty : f.func.typeOf i = ty at htyped
  have hty' : (f.func.instr i).ty = ty := hty
  have hptr {v : Value} {target : TypeId} (ht : env.types.kind ty = .ptr target)
      (hv : ∃ a, v = .ptr a) : v.fits env.types (f.func.typeOf i) = true := by
    rw [hty]
    exact (Value.fits_iff ht).mpr hv
  cases htyped with
  | const hv => exact setReg_effect hm (hty ▸ hv) (hk ▸ rfl)
  | slotPtr ht => exact frame_bind hm (setReg_effect hm (hptr ht ⟨_, rfl⟩) (hk ▸ rfl))
  | globalPtr _ ht =>
    refine (globalAddress_runs hw (hw.pointee ht)).bind fun a m' hm' => ?_
    exact setReg_effect (hm'.trans hm) (hptr ht ⟨a, rfl⟩) (hk ▸ rfl)
  | load hp ht =>
    refine address_bind hm ((Value.fits_iff ht).mp (hfits (by simp [InstrKind.reads]) hp)) ?_
    exact fun a => load_bind hw (hw.pointee (hty' ▸ ht)) fun v hv => setReg_effect hm hv (hk ▸ rfl)
  | store hp hvalue ht =>
    refine address_bind hm ((Value.fits_iff ht).mp (hfits (by simp [InstrKind.reads]) hp)) ?_
    refine fun a => reg_bind hm ((store_runs hw (hvalue.type ▸ hw.pointee ht)).bind fun _ m' hm' => Meets.pure ?_)
    rw [hm', hm]
    exact .skips hty (hk ▸ rfl)
  | elemPtr hbase hindex hint helem ht =>
    rw [hty']
    refine (elemAddress_runs hw h hm hk hbase hindex hint helem ht).bind fun a m' hm' => ?_
    exact setReg_effect hm' (hptr ht ⟨a, rfl⟩) (hk ▸ rfl)
  | memberPtr hbase htarget hmember ht =>
    refine (memberAddress_runs hw h hm hk hbase htarget hmember).bind fun a m' hm' => ?_
    exact setReg_effect hm' (hptr ht ⟨a, rfl⟩) (hk ▸ rfl)
  | binary ha hb ho =>
    refine reg_bind hm (reg_bind hm ?_)
    have hva := hfits (by simp [InstrKind.reads]) ha
    have hvb := hfits (by simp [InstrKind.reads]) hb
    rw [ha.type]
    rcases BinaryOp.eval_fits hw.standard ho hva hvb with ⟨v, hv, hfit⟩ | ⟨hzero, -⟩
    · rw [hv]
      exact setReg_effect hm (hty ▸ hfit) (hk ▸ rfl)
    · rw [hzero]
      exact rfl
  | unary ha ho =>
    refine reg_bind hm ?_
    obtain ⟨v, hv, hfit⟩ :=
      UnaryOp.eval_fits hw.standard ho (hfits (by simp [InstrKind.reads]) ha)
    rw [ha.type, hv]
    exact setReg_effect hm (hty ▸ hfit) (hk ▸ rfl)
  | cast ha ho =>
    refine reg_bind hm ?_
    obtain ⟨v, hv, hfit⟩ :=
      CastOp.eval_fits hw.standard.real ho (hfits (by simp [InstrKind.reads]) ha)
    rw [hty', hv]
    exact setReg_effect hm (hty ▸ hfit) (hk ▸ rfl)
  | compound hparts hgiven =>
    have hall := h.fits_all (fun j hj => by rw [hk]; exact hj) hgiven
    exact mapM_reg_bind hm (setReg_effect hm (hty ▸ hparts.fits hw.standard hall) (hk ▸ rfl))
  | callDirect has => exact call_effect hw hm has hk hty.symm
  | callIndirect =>
    obtain ⟨pos, -, -, hat⟩ := h.path
    have hdirect := h.function.direct _ i (Function.mem_of_at? hat)
    rw [hk] at hdirect
    cases hdirect
  | jump => exact jump_effect hm (by simp [hk, InstrKind.targets])
  | branch hc =>
    obtain ⟨b, hb⟩ :=
      (Value.fits_iff hw.standard.bool).mp (hfits (by simp [InstrKind.reads]) hc)
    refine reg_bind hm ?_
    rw [hb]
    cases b
    all_goals exact jump_effect hm (by simp [hk, InstrKind.targets])
  | switch hv hint =>
    obtain ⟨⟨bits, signed⟩, hinfo⟩ := Option.isSome_iff_exists.mp hint
    obtain ⟨w, hword, -⟩ :=
      (Value.fits_integer hinfo).mp (hfits (by simp [InstrKind.reads]) hv)
    refine reg_bind hm ?_
    rw [hword]
    exact jump_effect hm (hk ▸ InstrKind.mem_targets_switch w)
  | phi hv =>
    obtain ⟨pos, -, hpath, hat⟩ := h.path
    obtain ⟨v, hfound⟩ := h.function.phi_isSome hpath hat hk
    obtain ⟨before, -, hl⟩ := Option.bind_eq_some_iff.mp hfound
    refine frame_bind hm ?_
    rw [hfound]
    refine reg_bind hm (setReg_effect hm ?_ (hk ▸ rfl))
    exact hty ▸ hfits (by simp [InstrKind.reads, hfound]) (hv _ (mem_of_lookup hl))
  | giveBack hne hv => exact reg_bind hm (leave_effect hm (hfits (by simp [InstrKind.reads]) hv) hr)
  | giveNothing hret =>
    refine leave_effect hm ?_ hr
    rw [hret]
    exact (Value.fits_iff hw.standard.void).mpr rfl
  | unreachable => exact rfl
  | assert hc =>
    refine reg_bind hm ?_
    split
    · refine Meets.pure ?_
      rw [hm]
      exact .skips hty (hk ▸ rfl)
    · exact rfl

end Machine

end Comptime
