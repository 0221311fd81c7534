import Comptime.Proofs.Analysis.Operation
import Comptime.Proofs.Scope

/-!
# Names, members and elements

What a name stands for is sound since resolved symbols are. The address of a member or an element
leads to a value of the type that the operand has, and a member or an element of a constant is a
constant of that type.
-/

namespace Comptime

open Analysis (quoted_reads scopes_reads types_reads)

/-! ## Parts of constants -/

theorem Tables.HasConst.ofWord {t : Tables} (ht : t.Sound) (w) : t.HasConst .s64 (.int w) :=
  fun _ => (Value.fits_iff ht.types.kind_s64).mpr ⟨w, rfl, by simp⟩

namespace Value

variable {t : TypeTable} {ty : TypeId} {items : List Value}

theorem fits_member (hst : t.Standard) (h : (agg items).fits t ty = true) {index : Nat} {m}
    (hm : t.MemberAt ty index m) {v} (hv : items[index]? = some v) : v.fits t m = true := by
  cases hm with
  | struct hk hmembers hm =>
    obtain ⟨members', items', hmembers', hitems, hall⟩ := (Value.fits_iff hk).mp h
    cases hitems
    cases hmembers.symm.trans hmembers'
    obtain ⟨hi, rfl⟩ := List.getElem?_eq_some_iff.mp hv
    obtain ⟨hi', rfl⟩ := List.getElem?_eq_some_iff.mp hm
    exact hall.get hi hi'
  | length hk =>
    obtain ⟨len, addr, hitems⟩ := (Value.fits_iff hk).mp h
    cases hitems
    cases hv
    exact (Value.fits_iff hst.s64).mpr ⟨len, rfl, by simp⟩
  | pointer hk htarget =>
    obtain ⟨len, addr, hitems⟩ := (Value.fits_iff hk).mp h
    cases hitems
    cases hv
    exact (Value.fits_iff htarget).mpr ⟨addr, rfl⟩

theorem fits_element (h : (agg items).fits t ty = true) {elem} {len : UInt64}
    (hk : t.kind ty = .array elem len) {i : Nat} (hi : i < len.toNat) : (items.getD i .void).fits t elem = true := by
  obtain ⟨items', hitems, hlen, hall⟩ := (Value.fits_iff hk).mp h
  cases hitems
  have hi : i < items.length := hlen ▸ hi
  rw [List.getD_eq_getElem?_getD, List.getElem?_eq_getElem hi, Option.getD_some]
  exact hall _ (List.getElem_mem hi)

end Value

namespace Lower

variable {w : Walk} {c : Context} {t : Tables} {d : Draft} {ty elem : TypeId} {span : Span} {scope : ScopeId}
  {name : String} {base : Operand} {bound : Bound}

/-! ## Names -/

theorem placeAt_runs {kind : InstrKind} {mutable} (plain : kind.callee? = none) (hty : t.HasType ty)
    (h : ∀ t' pty, t.Later t' → t'.types.kind pty = .ptr ty → t'.Sane → kind.Typed t'.types t'.code d.func pty) :
    Runs (do return Operand.place (← emit kind (← Analysis.ptrTo ty) span) ty span mutable) c t d
      fun op t' d' => op.Sound t' d' := by
  refine .liftBind (Analysis.ptrTo_runs hty) fun pty t1 s1 hpty => ?_
  refine (emit_runs plain fun hs => h t1 pty s1 hpty hs).bind fun i t2 d2 s2 hi => .pure ?_
  refine .place (fun hs => ⟨pty, hi hs, s2.kind hpty (by simp)⟩) ?_
  exact (hty.later s1).later s2.toLater

theorem symbolOperand_runs {found} (hfound : t.scopes.declared? scope name = some found.symbol) :
    Runs (symbolOperand found span) c t d fun op t' d' => op.Sound t' d' := by
  refine .ofSound fun ht => .reads scopes_reads ?_
  dsimp only
  split
  · next hstate => exact .throwing (.symbol hstate)
  · exact .throw rfl
  · next hstate => exact .throwing (.symbol hfound hstate)
  · next v hv =>
    have hsound : t.Sane → v.Sound t := fun hs => (ht.proper hs).symbols found.symbol v hv
    split
    · exact .pure (.constant hsound)
    · exact .pure (.constant (.ofType ht hsound))
    · exact .lift (Analysis.fnOperand_runs.imp fun _ _ _ h => h.1 d)
    · exact .pure (.group ht fun f hf hs => hsound hs f hf)
    · exact .pure (.poly ht)
    · exact .pure (.scope ht)
    · next g =>
      refine .reads Analysis.code_reads ?_
      refine placeAt_runs rfl (fun hs => (Value.has_of_fits ((ht.proper hs).code.globals g (hsound hs))).knows) ?_
      intro t' pty s hpty hs
      have hg := hsound (s.grows.sane hs)
      exact .globalPtr (s.grows.code.hasGlobal hg) (s.grows.code.global hg ▸ hpty)
    · next slot ty =>
      refine .ite (fun _ => .thrown rfl) fun _ => ?_
      exact placeAt_runs rfl hsound fun _ _ _ hpty _ => .slotPtr hpty

theorem ident_runs : Runs (ident scope name span) c t d fun op t' d' => op.Sound t' d' := by
  refine .reads scopes_reads ?_
  split
  · next hl =>
    obtain ⟨scope, hd⟩ := Scopes.declared?_of_lookup hl
    exact symbolOperand_runs hd
  · exact .throw rfl

/-! ## Members -/

theorem project_runs {index} (h : base.Sound t d) (hty : t.HasType ty)
    (hm : t.Sane → t.types.MemberAt base.ty index ty) :
    Runs (project base index ty span) c t d fun op t' d' => op.Sound t' d' := by
  refine .ofSound fun ht => ?_
  unfold project
  split
  · next items hk =>
    split
    · next item hitem =>
      exact .pure (.constant fun hs => Value.fits_member ht.types.standard (h.ofConst hk hs) (hm hs) hitem)
    · exact .throw rfl
  · refine (addressOf_runs h).bind fun r t1 d1 s1 hr => ?_
    refine placeAt_runs rfl (hty.later s1.toLater) fun t2 pty s2 hpty hs => ?_
    have s := s1.trans (s2.keep d1)
    obtain ⟨bty, hb, hbk⟩ := hr.later (s2.keep d1) hs
    exact .memberPtr hb hbk (s.grows.types.memberAt (hm (s.grows.sane hs))) hpty

theorem enumVariant_runs : Analysis.Runs (enumVariant ty name span) c t fun op t' => ∀ d, op.Sound t' d := by
  refine .ofSound fun ht => .reads types_reads ?_
  split
  · next id hk =>
    dsimp only
    split
    · next variants hv =>
      split
      · next value hl =>
        refine .pure fun d => .constant fun hs => ?_
        obtain ⟨bits, signed, hb, hi⟩ := ht.types.intInfo_enum hk
        have hc := (ht.proper hs).named.variants hv _ (mem_of_lookup hl) bits signed
        exact (Value.fits_integer hi).mpr ⟨value, rfl, hc (TypeTable.intInfo_int hb)⟩
      · exact .throw rfl
    · exact .throw rfl
  · exact .reads (quoted_reads _) (.throw rfl)

theorem follow_runs {p : TypeKind → Bool} (h : base.Sound t d) :
    Runs (follow p base span) c t d fun op t' d' => op.Sound t' d' := by
  refine .ofSound fun ht => .reads types_reads ?_
  split
  · next inner hin =>
    rw [TypeTable.pointee_eq_some] at hin
    refine .ite (fun _ => ?_) fun _ => .pure h
    refine (materialize_runs h).bind fun i t1 d1 s1 hi => .pure ?_
    refine .place (fun hs => ⟨base.ty, hi hs, s1.kind hin (by simp)⟩) ?_
    exact Tables.HasType.later (fun hs => (ht.proper hs).named.knows_pointee hin) s1.toLater
  · exact .pure h

private theorem valueMember_runs (h : base.Sound t d) :
    Runs (valueMember base name span) c t d fun op t' d' => op.Sound t' d' := by
  refine (follow_runs h).bind fun base t1 d1 s1 h => ?_
  refine .ofSound fun ht => .reads types_reads ?_
  split
  · next id hk =>
    split
    · next members hm =>
      split
      · next index m hi hf =>
        have hmem := getElem?_of_findIdx? hi hf
        refine project_runs h (fun hs => ?_) fun _ => .struct hk hm hmem
        exact (ht.proper hs).named.members hm m (List.mem_of_find?_eq_some hf)
      · exact .reads (quoted_reads _) (.throw rfl)
    · next hm => exact .lift (Analysis.layoutHalt_runs fun _ h => by cases h; exact hm)
  · next elem hk =>
    refine .ite (fun _ => ?_) fun _ => .ite (fun _ => ?_) fun _ => .throw rfl
    · exact project_runs h (fun _ => ht.types.has_s64.knows) fun _ => .length hk
    · have helem : t1.HasType elem := fun hs => (ht.proper hs).named.knows_sliceElem hk
      refine .liftBind (Analysis.ptrTo_runs helem) fun pty t2 s2 hpty => ?_
      refine project_runs (h.later (s2.keep d1)) (fun _ => ?_) fun _ => ?_
      · exact (TypeTable.has_of_kind_ne (by rw [hpty]; simp)).knows
      · exact .pointer (s2.kind hk (by simp)) hpty
  · split
    · exact .pure (.constant (.ofWord ht _))
    · exact .reads (quoted_reads _) (.throw rfl)

theorem member_runs (hw : w.Sound) {base} :
    Runs (member w scope base name span) c t d fun op t' d' => op.Sound t' d' := by
  refine (hw.expr scope base c t d).bind fun base t1 d1 s1 h => ?_
  split
  · refine .reads scopes_reads ?_
    split
    · next hl => exact symbolOperand_runs (Scopes.declared?_of_lookupHere hl)
    · exact .throw rfl
  · exact .lift (enumVariant_runs.imp fun _ _ _ h => h d1)
  · exact valueMember_runs h

/-! ## Elements -/

/-- A value of type `whole` has elements of type `elem`, or points to one. -/
def ElementOf (t : TypeTable) (whole elem : TypeId) : Bound → Prop
  | .array len => t.kind whole = .array elem len
  | .slice => t.kind whole = .slice elem
  | .unchecked => t.kind whole = .ptr elem

theorem elements_runs : Runs (elements base span) c t d fun r t' _ => ElementOf t'.types base.ty r.1 r.2 := by
  refine .reads types_reads ?_
  split
  · next hk => exact .pure hk
  · next hk => exact .pure hk
  · next hk => exact .pure hk
  · exact .reads (quoted_reads _) (.throw rfl)

theorem ElementOf.knows {t} (hn : t.Named) {whole} (h : ElementOf t whole elem bound) : t.Knows elem := by
  cases bound with
  | array len => exact hn.knows_elem h
  | slice => exact hn.knows_sliceElem h
  | unchecked => exact hn.knows_pointee h

theorem ElementOf.later {t'} (s : t.Later t') {whole} (h : ElementOf t.types whole elem bound) :
    ElementOf t'.types whole elem bound := by
  cases bound <;> exact s.kind h (by simp)

private theorem toNat_toUInt64 {i : Int64} (h : ¬ i < 0) : i.toUInt64.toNat = i.toInt.toNat := by
  rw [Int64.lt_iff_toInt_lt] at h
  have hcases : i.toInt = (i.toUInt64.toNat : Int) ∨ i.toInt = (i.toUInt64.toNat : Int) - 2 ^ 64 := by
    have := i.toBitVec.toInt_eq_toNat_cond
    split at this
    · exact .inl this
    · exact .inr this
  have hlt : i.toUInt64.toNat < 2 ^ 64 := i.toUInt64.toNat_lt
  have hzero : (0 : Int64).toInt = 0 := rfl
  omega

private theorem foldIndex_runs {index} (h : base.Sound t d) (he : ElementOf t.types base.ty elem bound) :
    Runs (foldIndex base index elem bound span) c t d fun r t' d' => ∀ op ∈ r, op.Sound t' d' := by
  refine .reads Analysis.folding_reads ?_
  split
  · next items i len hk _ _ =>
    refine .ite (fun _ => .thrown rfl) fun hi => .pure ?_
    rintro op ⟨rfl⟩
    refine .constant fun hs => Value.fits_element (h.ofConst hk hs) he ?_
    simp only [Bool.or_eq_true, decide_eq_true_eq, not_or, UInt64.not_le] at hi
    rw [← toNat_toUInt64 hi.1]
    exact UInt64.lt_iff_toNat_lt.mp hi.2
  · exact .pure (by simp)

private theorem elementBase_runs (h : base.Sound t d) (he : ElementOf t.types base.ty elem bound) :
    Runs (elementBase base bound) c t d fun r t' d' =>
      t'.Sane → ∃ bty, d'.func.Gives r.1 bty ∧ t'.types.Elements bty elem bound := by
  cases bound with
  | unchecked =>
    refine (materialize_runs h).bind fun i t1 d1 s1 hi => .pure fun hs => ?_
    exact ⟨base.ty, hi hs, s1.kind he (by simp)⟩
  | slice =>
    refine (addressOf_runs h).bind fun r t1 d1 s1 hr => .pure fun hs => ?_
    obtain ⟨bty, hb, hk⟩ := hr hs
    exact ⟨bty, hb, base.ty, hk, s1.kind he (by simp)⟩
  | array len =>
    refine (addressOf_runs h).imp fun r t1 d1 s1 hr hs => ?_
    obtain ⟨bty, hb, hk⟩ := hr hs
    exact ⟨bty, hb, base.ty, hk, s1.kind he (by simp)⟩

theorem index_runs (hw : w.Sound) {base i} :
    Runs (index w scope base i span) c t d fun op t' d' => op.Sound t' d' := by
  refine (hw.expr scope base c t d).bind fun base t1 d1 s1 hb => ?_
  refine (hw.value scope i c t1 d1).bind fun i t2 d2 s2 hi => ?_
  refine .reads types_reads ?_
  refine .ite (fun hint => ?_) fun _ => .reads (quoted_reads _) (.thrown rfl)
  refine (follow_runs (hb.later s2)).bind fun base t3 d3 s3 hb => ?_
  refine elements_runs.bind fun r t4 d4 s4 he => ?_
  obtain ⟨elem, bound⟩ := r
  have hb := hb.later s4
  refine (foldIndex_runs hb he).bind fun r t5 d5 s5 hr => ?_
  split
  · next op => exact .pure (hr op rfl)
  · refine (elementBase_runs (hb.later s5) (he.later s5.toLater)).bind fun r t6 d6 s6 hp => ?_
    obtain ⟨ptr, mutable⟩ := r
    have s26 := s3.trans (s4.trans (s5.trans s6))
    refine (materialize_runs (hi.later s26)).bind fun index t7 d7 s7 hindex => ?_
    have helem : t7.HasType elem := by
      have helem : t4.HasType elem := fun hs => he.knows (s4.sound'.proper hs).named
      exact helem.later (s5.trans (s6.trans s7)).toLater
    refine placeAt_runs rfl helem fun t8 pty s8 hpty hs => ?_
    have s68 := s7.trans (s8.keep d7)
    obtain ⟨bty, hbty, hel⟩ := hp (s68.grows.sane hs)
    have hint := (s26.trans s68).grows.types.isInt_of_isInt hint
    exact .elemPtr (hbty.extend s68.extended) (hindex.later (s8.keep d7) hs) hint (s68.grows.types.elements hel) hpty

end Lower

end Comptime
