import Comptime.Proofs.Session.Report

/-!
# By-value recursion is refused, where it leads

A struct is checked once, when its members become known, and other structs may not be complete then.
So a circle is refused for certain only if it closes before the walk through the members meets another
struct (`TypeTable.Circular`): whoever completes the last struct of such a circle finds it. Where a
struct that is still incomplete stands in front, the circle goes unnoticed.
-/

namespace Comptime

namespace TypeTable

variable {t : TypeTable}

theorem structDef_intern (k id) : (t.intern k).1.structDef id = t.structDef id := by
  unfold intern
  split <;> rfl

private theorem members_declareStruct {name} {span id ms}
    (h : ((t.declareStruct name span).1.structDef id).members = some ms) :
    (t.structDef id).members = some ms := by
  have hs := structDef_intern (t := { t with structs := t.structs.push ⟨name, none, span⟩ })
    (.struct t.structs.nextId) id
  have h : (structDef { t with structs := t.structs.push ⟨name, none, span⟩ } id).members = some ms := hs ▸ h
  simp only [structDef, Pool.getD_push] at h
  split at h
  · cases h
  · exact h

end TypeTable

namespace Tables

variable {t t' : Tables}

theorem Update.founded (h : t.Update t') (ht : t.types.Founded) : t'.types.Founded := by
  have g := h.grows.types.toWidens
  cases h with
  | intern =>
    refine ht.grow g fun j ms hms => ?_
    rwa [TypeTable.structDef_intern] at hms
  | declareStruct => exact ht.grow g fun j ms hms => TypeTable.members_declareStruct hms
  | declareEnum =>
    refine ht.grow g fun j ms hms => ?_
    rwa [TypeTable.declareEnum, TypeTable.structDef_intern] at hms
  | completeEnum => exact ht.grow g fun j ms hms => hms
  | _ => exact ht

/-- A struct that gets its members a second time, in the middle of its own declaration, is checked again. -/
theorem Updates.founded (h : t.Updates t') (hp : t.types.Proper) (ht : t.types.Founded) : t'.types.Founded := by
  suffices hboth : t'.types.Proper ∧ t'.types.Founded from hboth.2
  induction h with
  | refl => exact ⟨hp, ht⟩
  | tail _ update ih =>
    obtain ⟨hp, ht⟩ := ih hp ht
    exact ⟨update.properTypes hp, update.founded ht⟩
  | complete _ analysis completes possible ih ih' =>
    obtain ⟨hp1, ht1⟩ := ih hp ht
    obtain ⟨hp2, ht2⟩ := ih' hp1 ht1
    have hk := analysis.grows.types.kind_of_ne completes.kind (by simp)
    exact ⟨hp2.completeStruct _ _, ht2.completeStruct hp2 hk possible⟩

def Uncircular (t : Tables) : Prop := t.diagnostics.hasErrors = true ∨ t.types.Founded

theorem Move.uncircular (h : t.Move t') (ht : t.Sound) (hu : t.Uncircular) : t'.Uncircular := by
  cases h with
  | run h => exact hu.imp (fun he => h.diagnostics ▸ he) (h.founded ht.types)
  | mark h =>
    cases h with
    | report d => exact hu.imp_left fun he => by simp [emit, he]
    | schedule | failSymbol | setBody => exact hu
  | refuse _ error => exact .inl (by simp [emit, error])
  | enter | setSymbol => exact hu

end Tables

namespace Session

variable {s s' : Session}

theorem Reachable.uncircular (h : s.Reachable) : s.tables.Uncircular := by
  suffices hboth : s.tables.Sound ∧ s.tables.Uncircular from hboth.2
  have hbare {id ms} : (TypeTable.initial.structDef id).members ≠ some ms := fun hms =>
    absurd (TypeTable.has_of_members hms) (Nat.not_lt_zero _)
  refine h.induct (P := fun t => t.Sound ∧ t.Uncircular)
    ⟨Tables.sound_initial, .inr ⟨fun id ms hms => absurd hms hbare, fun id hc => ?_⟩⟩
    fun hm hboth => ⟨hm.sound hboth.1, hm.uncircular hboth.1 hboth.2⟩
  obtain ⟨next, ⟨before, m, after, hms, -⟩, -⟩ := hc.opens
  exact hbare hms

/-- In a program that is accepted no struct leads back to itself. -/
theorem not_circular_of_finish {p : Program} (h : s.Reachable) (hp : s.finish = .ok p s') (id : StructId) :
    ¬ p.types.Circular id := by
  obtain ⟨ha, -, htypes⟩ := finish_eq_ok hp
  obtain ⟨hsteps, -, herrors⟩ := analyze_ok ha
  rw [htypes]
  refine ((h.steps hsteps).uncircular.resolve_left ?_).circle id
  rw [herrors]
  simp

/-- Three structs in the order `C :: struct { d: D }`, `A :: struct { c: C; a: A }` and
`D :: struct { x: s32 }`. -/
def nestedAst : Ast :=
  ⟨#[⟨.ident "D", ⟨0, 0, 1⟩⟩,
    ⟨.structType [⟨"d", 0, ⟨0, 2, 3⟩⟩], ⟨0, 2, 3⟩⟩,
    ⟨.decl ⟨"C", none, some 1, false⟩, ⟨0, 4, 5⟩⟩,
    ⟨.ident "C", ⟨0, 6, 7⟩⟩,
    ⟨.ident "A", ⟨0, 8, 9⟩⟩,
    ⟨.structType [⟨"c", 3, ⟨0, 10, 11⟩⟩, ⟨"a", 4, ⟨0, 10, 11⟩⟩], ⟨0, 10, 11⟩⟩,
    ⟨.decl ⟨"A", none, some 5, false⟩, ⟨0, 12, 13⟩⟩,
    ⟨.ident "s32", ⟨0, 14, 15⟩⟩,
    ⟨.structType [⟨"x", 7, ⟨0, 16, 17⟩⟩], ⟨0, 16, 17⟩⟩,
    ⟨.decl ⟨"D", none, some 8, false⟩, ⟨0, 18, 19⟩⟩]⟩

def nested : Session :=
  stateAfter (declare [2, 6, 9]) (create .default .none nestedAst)

theorem nested_accepted :
    ∃ p s', nested.finish = .ok p s' ∧ (p.types.structDef 1).name = "A" ∧
      p.types.layout (p.types.structType 1) = .error (.recursive 1) := by
  have hok : succeeds finish nested (fun p s' =>
      (p.types.structDef 1).name == "A" &&
      p.types.layout (p.types.structType 1) = .error (.recursive 1)) = true := by
    decide +kernel
  obtain ⟨p, s', hp, htest⟩ := of_succeeds hok
  simp only [Bool.and_eq_true, beq_iff_eq, decide_eq_true_eq] at htest
  exact ⟨p, s', hp, htest⟩

/-- A program is accepted in which a struct contains itself by value: when its members were entered,
the struct in front of the recursive member was not complete. -/
theorem recursion_missed :
    ∃ p s', nested.finish = .ok p s' ∧ (p.types.structDef 1).name = "A" ∧
      p.types.layout (p.types.structType 1) = .error (.recursive 1) := nested_accepted

/-- The struct does not lead back to itself by its first member. -/
theorem not_circular_nested :
    ∃ p s', nested.finish = .ok p s' ∧ (p.types.structDef 1).name = "A" ∧
      ¬ p.types.Circular 1 := by
  obtain ⟨p, s', hp, hname, -⟩ := nested_accepted
  have hr : nested.Reachable := ((Live.initial .default .none nestedAst).after_declare _).reachable
  exact ⟨p, s', hp, hname, not_circular_of_finish hr hp 1⟩

end Session

end Comptime
