import Comptime.Proofs.Type.Growth
import Comptime.Type.Layout
import Mathlib.Logic.Relation

/-!
# Structs that contain themselves

The layout of a type is computed from left to right, and the walk ends at the first struct that is not
complete. So it finds for certain that a struct contains itself only where nothing stands before the
way back to it that holds a struct: there the walk goes round until it meets a struct it is inside of.

`TypeTable.Opens outer inner` is one step of such a way. A struct that leads back to itself by these
steps has no layout, whatever else is still unknown (`layout_of_circle`). A type that does not exist ends
the walk as well. So where the walk came to no such end, the types stand that it went through, and it
goes the same way when there are more types (`leads_of_layout`).
-/

namespace Comptime

/-- No layout, for a reason other than a struct that is not complete. -/
def LayoutError.isFinal : LayoutError → Bool
  | .incomplete _ => false
  | .recursive _ | .tooLarge _ | .missing _ => true

namespace TypeTable

variable {t t' : TypeTable} {ty : TypeId} {id : StructId}

/-- Values of the type hold no struct. -/
inductive Flat (t : TypeTable) : TypeId → Prop
  | leaf {ty : TypeId} (notStruct : ∀ id, t.kind ty ≠ .struct id)
    (notArray : ∀ elem len, t.kind ty ≠ .array elem len) : Flat t ty
  | array {ty elem : TypeId} {len : UInt64} (kind : t.kind ty = .array elem len)
    (elems : Flat t elem) : Flat t ty

/-- Values of the type are values of a struct, or arrays of such, however deep. -/
inductive Begins (t : TypeTable) : TypeId → StructId → Prop
  | struct {ty : TypeId} {id : StructId} (kind : t.kind ty = .struct id) : Begins t ty id
  | array {ty elem : TypeId} {len : UInt64} {id : StructId} (kind : t.kind ty = .array elem len)
    (elems : Begins t elem id) : Begins t ty id

/-- The members of a struct are known, and the first one that holds a struct holds `inner` first. -/
structure Opens (t : TypeTable) (outer inner : StructId) : Prop where
  split : ∃ before m after, (t.structDef outer).members = some (before ++ m :: after) ∧
    (∀ b ∈ before, t.Flat b.ty) ∧ t.Begins m.ty inner

/-- The struct contains itself by value, and the walk through its members comes round to it before it
meets any other struct. -/
def Circular (t : TypeTable) (id : StructId) : Prop := Relation.TransGen t.Opens id id

/-! ## Walks that end for good -/

def Settled {α : Type} (r : Except LayoutError α) : Prop := ∀ e, r = .error e → e.isFinal = true

def Refused {α : Type} (r : Except LayoutError α) : Prop := ∃ e, r = .error e ∧ e.isFinal = true

section

variable {α β : Type}

theorem Refused.map {r : Except LayoutError α} (h : Refused r) (f : α → β) : Refused (r.map f) := by
  obtain ⟨e, rfl, he⟩ := h
  exact ⟨e, rfl, he⟩

theorem Refused.bind {r} (h : Refused r) (f : α → Except LayoutError β) : Refused (r >>= f) := by
  obtain ⟨e, rfl, he⟩ := h
  exact ⟨e, rfl, he⟩

theorem Settled.bind {r} {f : α → Except LayoutError β} (h : Settled r) (hf : ∀ a, Settled (f a)) : Settled (r >>= f) := by
  cases r with
  | ok a => exact hf a
  | error e =>
    rintro _ ⟨rfl⟩
    exact h e rfl

theorem Settled.refused {r} {f : α → Except LayoutError β} (h : Settled r) (hf : ∀ a, Refused (f a)) :
    Refused (r >>= f) := by
  cases r with
  | ok a => exact hf a
  | error e => exact ⟨e, rfl, h e rfl⟩

end

theorem Flat.settled (hp : t.Proper) (h : t.Flat ty) (fuel) (inside) : Settled (t.shapeAt fuel inside ty) := by
  induction fuel generalizing ty with
  | zero =>
    rintro e ⟨rfl⟩
    rfl
  | succ fuel ih =>
    rw [shapeAt]
    cases h with
    | leaf notStruct notArray =>
      cases hk : t.kind ty with
      | enum id =>
        obtain ⟨bits, signed, -, hi⟩ := hp.intInfo_enum hk
        dsimp only
        rw [hi]
        intro e he
        cases he
      | array elem len => exact absurd hk (notArray elem len)
      | struct id => exact absurd hk (notStruct id)
      | missing =>
        rintro e ⟨rfl⟩
        rfl
      | _ =>
        intro e he
        cases he
    | array kind elems =>
      rw [kind]
      refine Settled.bind (ih elems) fun s => ?_
      split
      · intro e he
        cases he
      · rintro e ⟨rfl⟩
        rfl

private theorem refused_memberShapes {shapeOf : TypeId → Except LayoutError Shape} {before after m}
    (hbefore : ∀ b ∈ before, Settled (shapeOf b.ty)) (hm : Refused (shapeOf m.ty)) (offset) :
    Refused (memberShapes shapeOf offset (before ++ m :: after)) := by
  induction before generalizing offset with
  | nil => exact hm.bind _
  | cons b before ih =>
    have hrest := ih fun b' hb' => hbefore b' (List.mem_cons_of_mem b hb')
    refine (hbefore b List.mem_cons_self).refused fun s => ?_
    split
    · exact (hrest _).bind _
    · exact ⟨_, rfl, rfl⟩

theorem Circular.opens (h : t.Circular id) : ∃ next, t.Opens id next ∧ t.Circular next := by
  obtain ⟨next, hfirst, hrest⟩ := Relation.TransGen.head'_iff.mp h
  exact ⟨next, hfirst, Relation.TransGen.tail' hrest hfirst⟩

variable (hp : t.Proper)

include hp

theorem Begins.refused (h : t.Begins ty id) (hc : t.Circular id) (fuel) (inside) :
    Refused (t.shapeAt fuel inside ty) := by
  induction fuel generalizing inside ty id with
  | zero => exact ⟨_, rfl, rfl⟩
  | succ fuel ih =>
    rw [shapeAt]
    cases h with
    | array kind elems =>
      rw [kind]
      exact (ih elems hc inside).bind _
    | struct kind =>
      rw [kind]
      refine Refused.map ?_ _
      unfold structShapes
      split
      · exact ⟨_, rfl, rfl⟩
      · obtain ⟨next, ⟨before, m, after, hms, hbefore, hm⟩, hnext⟩ := hc.opens
        rw [hms]
        refine (refused_memberShapes (fun b hb => ?_) ?_ 0).bind _
        · exact (hbefore b hb).settled hp fuel _
        · exact ih hm hnext (id :: inside)

/-- A struct that leads back to itself has no layout. -/
theorem layout_of_circle (hk : t.kind ty = .struct id) (hc : t.Circular id) :
    ∃ e, t.layout ty = .error e ∧ e.isFinal = true :=
  (Begins.refused hp (.struct hk) hc t.shapeFuel []).map Shape.layout

omit hp

/-! ## Types that exist -/

/-- The type exists, and so do its elements if it is an array, however deep. -/
inductive Stands (t : TypeTable) : TypeId → Prop
  | leaf {ty : TypeId} (has : t.Has ty) (notArray : ∀ elem len, t.kind ty ≠ .array elem len) : Stands t ty
  | array {ty elem : TypeId} {len : UInt64} (kind : t.kind ty = .array elem len)
    (elems : Stands t elem) : Stands t ty

/-- The types of the members stand, as far as a walk through them is sure to come. -/
inductive Leads (t : TypeTable) : List Member → Prop
  | nil : Leads t []
  | cons {m : Member} {rest : List Member} (stands : t.Stands m.ty) (further : t.Flat m.ty → Leads t rest) :
    Leads t (m :: rest)

private theorem stands_of_shapeAt {fuel inside} (h : ¬ Refused (t.shapeAt fuel inside ty)) : t.Stands ty := by
  induction fuel generalizing ty with
  | zero => exact absurd ⟨_, rfl, rfl⟩ h
  | succ fuel ih =>
    have has : t.Has ty := by
      refine has_of_kind_ne fun hk => h ?_
      rw [shapeAt, hk]
      exact ⟨_, rfl, rfl⟩
    cases hk : t.kind ty with
    | array elem len =>
      refine .array hk (ih fun hr => h ?_)
      rw [shapeAt, hk]
      exact hr.bind _
    | _ => exact .leaf has (by simp [hk])

private theorem leads_of_memberShapes (hp : t.Proper) {fuel inside offset ms}
    (h : ¬ Refused (memberShapes (t.shapeAt fuel inside) offset ms)) : t.Leads ms := by
  induction ms generalizing offset with
  | nil => exact .nil
  | cons m rest ih =>
    refine .cons (stands_of_shapeAt fun hr => h (hr.bind _)) fun hflat => ?_
    have hsettled := hflat.settled hp fuel inside
    rw [memberShapes] at h
    cases hm : t.shapeAt fuel inside m.ty with
    | error e => exact absurd ⟨e, by rw [hm]; rfl, hsettled e hm⟩ h
    | ok s =>
      have hrest : ¬ Refused (memberShapes (t.shapeAt fuel inside) (s.layout.place offset) rest) := by
        intro hr
        refine h ?_
        rw [hm]
        show Refused (if _ then _ else _)
        split
        · exact hr.bind _
        · exact ⟨_, rfl, rfl⟩
      exact ih hrest

/-- A struct that has not been refused leads through types that stand. -/
theorem leads_of_layout (hp : t.Proper) (hk : t.kind ty = .struct id) {ms} (hms : (t.structDef id).members = some ms)
    (h : ∀ e, t.layout ty = .error e → e.isFinal = false) : t.Leads ms := by
  have hpos : t.shapeFuel = t.shapeFuel - 1 + 1 := by simp [shapeFuel, Nat.mul_add, Nat.add_mul]; omega
  refine leads_of_memberShapes hp
    fun hr : Refused (memberShapes (t.shapeAt (t.shapeFuel - 1) [id]) 0 ms) => ?_
  have hrefused : Refused (t.layout ty) := by
    refine Refused.map ?_ _
    rw [shape, hpos, shapeAt, hk]
    refine Refused.map ?_ _
    rw [structShapes, hms]
    exact hr.bind _
  obtain ⟨e, he, hfinal⟩ := hrefused
  rw [h e he] at hfinal
  cases hfinal

/-! ## Tables that grow -/

theorem Stands.grow (g : t.Widens t') (h : t.Stands ty) : t'.Stands ty := by
  induction h with
  | leaf has notArray => exact .leaf (g.has has) (by rwa [g.kind has])
  | array kind _ ih => exact .array (g.kind_of_ne kind (by simp)) ih

theorem Begins.back (g : t.Widens t') (hty : t.Stands ty) (h : t'.Begins ty id) : t.Begins ty id := by
  induction hty with
  | leaf has notArray =>
    cases h with
    | struct kind => exact .struct ((g.kind has).symm.trans kind)
    | array kind => exact absurd ((g.kind has).symm.trans kind) (notArray _ _)
  | array hk _ ih =>
    have hk' := g.kind_of_ne hk (by simp)
    cases h with
    | struct kind => cases hk'.symm.trans kind
    | array kind elems =>
      cases hk'.symm.trans kind
      exact .array hk (ih elems)

theorem Flat.back (g : t.Widens t') (hty : t.Stands ty) (h : t'.Flat ty) : t.Flat ty := by
  induction hty with
  | leaf has notArray =>
    refine .leaf (fun id hk => ?_) notArray
    have hk' := g.kind_of_ne hk (by simp)
    cases h with
    | leaf notStruct => exact notStruct id hk'
    | array kind => cases hk'.symm.trans kind
  | array hk _ ih =>
    have hk' := g.kind_of_ne hk (by simp)
    cases h with
    | leaf _ notArray => exact absurd hk' (notArray _ _)
    | array kind elems =>
      cases hk'.symm.trans kind
      exact .array hk (ih elems)

theorem Leads.grow (g : t.Widens t') {ms} (h : t.Leads ms) : t'.Leads ms := by
  induction h with
  | nil => exact .nil
  | cons stands _ ih => exact .cons (stands.grow g) fun hflat => ih (hflat.back g stands)

theorem Leads.back (g : t.Widens t') {before m after} (h : t.Leads (before ++ m :: after))
    (hbefore : ∀ b ∈ before, t'.Flat b.ty) : (∀ b ∈ before, t.Flat b.ty) ∧ t.Stands m.ty := by
  induction before with
  | nil =>
    cases h with
    | cons stands => exact ⟨nofun, stands⟩
  | cons b before ih =>
    cases h with
    | cons stands rest =>
      have hb := (hbefore b List.mem_cons_self).back g stands
      obtain ⟨hrest, hm⟩ := ih (rest hb) fun b' hb' => hbefore b' (List.mem_cons_of_mem b hb')
      exact ⟨List.forall_mem_cons.mpr ⟨hb, hrest⟩, hm⟩

/-- All structs lead through types that stand, and none back to itself. -/
structure Founded (t : TypeTable) : Prop where
  leads : ∀ id ms, (t.structDef id).members = some ms → t.Leads ms
  circle : ∀ id, ¬ t.Circular id

theorem Founded.grow (h : t.Founded) (g : t.Widens t')
    (members : ∀ id ms, (t'.structDef id).members = some ms → (t.structDef id).members = some ms) : t'.Founded := by
  refine ⟨fun id ms hms => (h.leads id ms (members id ms hms)).grow g, fun id hc => h.circle id ?_⟩
  have hback : t'.Opens ≤ t.Opens := by
    intro outer inner ho
    obtain ⟨before, m, after, hms, hbefore, hm⟩ := ho.split
    have hms := members outer _ hms
    obtain ⟨hflat, hstands⟩ := (h.leads outer _ hms).back g hbefore
    exact ⟨before, m, after, hms, hflat, hm.back g hstands⟩
  exact Relation.TransGen.mono hback id id hc

/-! ## Structs that get their members -/

/-- Types are what they are, whatever the members of a struct. -/
theorem Opens.of_ne {outer inner members} (hne : outer ≠ id) (h : (t.completeStruct id members).Opens outer inner) :
    t.Opens outer inner := by
  have hback {ty : TypeId} (hflat : (t.completeStruct id members).Flat ty) : t.Flat ty := by
    induction hflat with
    | leaf notStruct notArray => exact .leaf notStruct notArray
    | array kind _ ih => exact .array kind ih
  have hbegins {ty : TypeId} {j : StructId} (h : (t.completeStruct id members).Begins ty j) : t.Begins ty j := by
    induction h with
    | struct kind => exact .struct kind
    | array kind _ ih => exact .array kind ih
  obtain ⟨before, m, after, hms, hbefore, hm⟩ := h.split
  have hms := ((members_completeStruct hms).resolve_left fun h => hne h.1).2
  exact ⟨before, m, after, hms, fun b hb => hback (hbefore b hb), hbegins hm⟩

theorem Circular.completed {members x} (h : (t.completeStruct id members).Circular x) :
    (t.completeStruct id members).Circular id ∨ t.Circular x := by
  have hsplit {a b : StructId} (hab : Relation.TransGen (t.completeStruct id members).Opens a b) :
      Relation.TransGen t.Opens a b ∨ Relation.ReflTransGen (t.completeStruct id members).Opens a id ∧
        Relation.TransGen (t.completeStruct id members).Opens id b := by
    induction hab with
    | @single b hab =>
      by_cases ha : a = id
      · subst ha
        exact .inr ⟨.refl, .single hab⟩
      · exact .inl (.single (hab.of_ne ha))
    | @tail b c hab hbc ih =>
      rcases ih with ih | ⟨hto, hfrom⟩
      · by_cases hb : b = id
        · subst hb
          exact .inr ⟨hab.to_reflTransGen, .single hbc⟩
        · exact .inl (ih.tail (hbc.of_ne hb))
      · exact .inr ⟨hto, hfrom.tail hbc⟩
  rcases hsplit h with h | ⟨hto, hfrom⟩
  · exact .inr h
  · exact .inl (hfrom.trans_left hto)

/-- A struct that has not been refused is on no circle, and no circle is closed without it. -/
theorem Founded.completeStruct (h : t.Founded) (hp : t.Proper) (hk : t.kind ty = .struct id) {members}
    (possible : ∀ e, (t.completeStruct id members).layout ty = .error e → e.isFinal = false) :
    (t.completeStruct id members).Founded := by
  have hp' := hp.completeStruct id members
  refine ⟨fun j ms hms => ?_, fun x hc => ?_⟩
  · rcases members_completeStruct hms with ⟨rfl, rfl⟩ | ⟨-, hold⟩
    · exact leads_of_layout hp' hk hms possible
    · exact (h.leads j ms hold).grow (completeStruct_widens id members)
  · rcases hc.completed with hid | hold
    · obtain ⟨e, he, hfinal⟩ := layout_of_circle hp' hk hid
      rw [possible e he] at hfinal
      cases hfinal
    · exact h.circle x hold

end TypeTable

end Comptime
