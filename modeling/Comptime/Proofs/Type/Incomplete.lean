import Comptime.Code.Basic
import Comptime.Value.Memory

/-!
# Structs that are not complete

A layout, a zero or a frame is refused for want of a struct only if the members of that struct are not
known.
-/

namespace Comptime

namespace TypeTable

variable {α β : Type} {t : TypeTable} {shapeOf : TypeId → Except LayoutError Shape}

def IsOpen (t : TypeTable) (id : StructId) : Prop := (t.structDef id).members = none

def Admits (t : TypeTable) (e : LayoutError) : Prop := ∀ id, e = .incomplete id → t.IsOpen id

def Candid (t : TypeTable) (r : Except LayoutError α) : Prop := ∀ e, r = .error e → t.Admits e

namespace Candid

protected theorem ok (a : α) : t.Candid (.ok a : Except LayoutError α) := by
  intro e he
  cases he

protected theorem error {e} (h : t.Admits e) : t.Candid (.error e : Except LayoutError α) := by
  rintro _ ⟨rfl⟩
  exact h

theorem recursive (id) :
    t.Candid (.error (.recursive id) : Except LayoutError α) := .error fun _ h => by cases h

theorem tooLarge (ty) :
    t.Candid (.error (.tooLarge ty) : Except LayoutError α) := .error fun _ h => by cases h

protected theorem missing (ty) :
    t.Candid (.error (.missing ty) : Except LayoutError α) := .error fun _ h => by cases h

theorem incomplete {id} (h : t.IsOpen id) : t.Candid (.error (.incomplete id) : Except LayoutError α) := by
  refine .error ?_
  rintro _ ⟨rfl⟩
  exact h

protected theorem bind {r} {f : α → Except LayoutError β} (h : t.Candid r) (hf : ∀ a, t.Candid (f a)) :
    t.Candid (r >>= f) := by
  cases r with
  | ok a => exact hf a
  | error e => exact .error (h e rfl)

protected theorem map {r : Except LayoutError α} (h : t.Candid r) (f : α → β) : t.Candid (r.map f) := by
  cases r with
  | ok a => exact .ok _
  | error e => exact .error (h e rfl)

protected theorem mapM {f : α → Except LayoutError β} (h : ∀ a, t.Candid (f a)) (l : List α) :
    t.Candid (l.mapM f) := by
  induction l with
  | nil => exact .ok _
  | cons a l ih =>
    rw [List.mapM_cons]
    exact (h a).bind fun b => ih.bind fun bs => .ok _

end Candid

/-! ## Layouts and zeros -/

private theorem candid_memberShapes (h : ∀ ty, t.Candid (shapeOf ty)) (offset) (members) :
    t.Candid (memberShapes shapeOf offset members) := by
  induction members generalizing offset with
  | nil => exact .ok _
  | cons m rest ih =>
    refine (h m.ty).bind fun s => ?_
    split
    · exact (ih _).bind fun shapes => .ok _
    · exact .tooLarge m.ty

private theorem candid_structShapes (h : ∀ ty, t.Candid (shapeOf ty)) (inside id) :
    t.Candid (t.structShapes shapeOf inside id) := by
  unfold structShapes
  split
  · exact .recursive id
  · split
    · next hm => exact .incomplete hm
    · refine (candid_memberShapes h 0 _).bind fun shapes => ?_
      split
      · exact .ok _
      · exact .tooLarge _

private theorem candid_shapeAt (t : TypeTable) (fuel inside ty) : t.Candid (t.shapeAt fuel inside ty) := by
  induction fuel generalizing inside ty with
  | zero => exact .tooLarge ty
  | succ fuel ih =>
    rw [shapeAt]
    cases t.kind ty with
    | array elem len =>
      refine (ih inside elem).bind fun s => ?_
      split
      · exact .ok _
      · exact .tooLarge ty
    | enum id =>
      dsimp only
      split
      · exact .ok _
      · exact (ih inside _).map _
    | struct id => exact (candid_structShapes (ih _) inside id).map _
    | missing => exact .missing ty
    | _ => exact .ok _

theorem candid_layout (t : TypeTable) (ty) : t.Candid (t.layout ty) :=
  (t.candid_shapeAt _ _ ty).map _

private theorem candid_zeroAt (t : TypeTable) (fuel inside ty) : t.Candid (t.zeroAt fuel inside ty) := by
  induction fuel generalizing inside ty with
  | zero => exact .tooLarge ty
  | succ fuel ih =>
    rw [zeroAt]
    cases t.kind ty with
    | array elem len => exact (ih inside elem).bind fun z => .ok _
    | struct id =>
      dsimp only
      split
      · exact .recursive id
      · split
        · next hm => exact .incomplete hm
        · exact (Candid.mapM (fun (m : Member) => ih (id :: inside) m.ty) _).map _
    | missing => exact .missing ty
    | _ => exact .ok _

theorem candid_zero (t : TypeTable) (ty) : t.Candid (t.zero ty) := t.candid_zeroAt _ _ ty

end TypeTable

/-! ## Frames -/

namespace Function

variable {t : TypeTable}

private theorem candid_placeSlots (offset align slots) : t.Candid (placeSlots t offset align slots).2 := by
  induction slots generalizing offset align with
  | nil => exact .ok _
  | cons s rest ih =>
    unfold placeSlots
    split
    · next e he => exact .error (t.candid_layout s.ty e he)
    · dsimp only
      split
      · exact .tooLarge s.ty
      · split
        · exact .tooLarge s.ty
        · exact ih _ _

theorem admits_of_layoutFrame {f : Function} {g e} (h : f.layoutFrame t = (g, some e)) : t.Admits e := by
  have hplace := candid_placeSlots (t := t) 0 1 f.slots.toList
  unfold layoutFrame at h
  split at h
  · next he =>
    cases h
    rw [he] at hplace
    exact hplace e rfl
  · dsimp only at h
    split at h
    · cases h
      intro id hid
      cases hid
    · cases h

end Function

end Comptime
