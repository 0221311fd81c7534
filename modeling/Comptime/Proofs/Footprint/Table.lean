import Comptime.Proofs.Footprint.Logic

/-!
# The footprint on the tables

Types are interned, scopes and symbols are entered, functions are called. All of this abides by every policy.
-/

namespace Comptime.Analysis

variable {p : Policy} {s : Symbol}

theorem intern_abides {k : TypeKind} (hk : k.isDerived = true) : Abides p (intern k) :=
  .retype (fun _ _ => rfl) fun t => ⟨_, t.strays, rfl, TypeTable.intern_refines hk⟩

theorem ptrTo_abides (ty) : Abides p (ptrTo ty) := intern_abides rfl

theorem functionOf_abides (f) : Abides p (functionOf f) := by
  refine .reads code_views fun code => ?_
  split
  · exact .pure trivial
  · exact .throw trivial

theorem createScope_gives {parent} (hs : p.Sees parent) (kind) : Gives p (createScope kind parent) p.Enters := by
  intro c t g hc ht
  obtain ⟨hid, leads, enters⟩ := p.createScope ht hs kind
  show p.Agree p.Enters t g (.ok (t.scopes.create kind (some parent)).2
      (t.withScopes (t.scopes.create kind (some parent)).1))
    (.ok (g.scopes.create kind (some parent)).2 ((t.withScopes (t.scopes.create kind (some parent)).1).beside
        (g.withScopes (g.scopes.create kind (some parent)).1)))
  rw [hid]
  exact .ok leads enters

private theorem insertSymbol_of_ok {c t} {r : Scopes × SymbolId} (h : t.scopes.insert s = .ok r) :
    insertSymbol s c t = .ok (.ok r.2) (t.withScopes r.1) := by
  have hins : insertSymbol s c t = _ := modifyGet_eq _ c t
  rw [h] at hins
  exact hins

private theorem insertSymbol_of_error {c t previous} (h : t.scopes.insert s = .error previous) :
    insertSymbol s c t = .ok (.error previous) t := by
  have hins : insertSymbol s c t = _ := modifyGet_eq _ c t
  rw [h] at hins
  exact hins

theorem insertSymbol_gives (hs : p.Enters s.scope) (hv : ∀ v, s.state = .resolved v → v.Bindable p.Sees p.Stores) :
    Gives p (insertSymbol s) fun r =>
      (∀ id, r = .ok id → p.Sets id) ∧ ∀ previous, r = .error previous → p.Finds previous := by
  intro c t g hc ht
  cases hi : t.scopes.insert s with
  | ok r =>
    obtain ⟨g', hi', leads, sets⟩ := p.insertSymbol ht hs hv hi
    rw [insertSymbol_of_ok hi, insertSymbol_of_ok (t := t.beside g) hi']
    refine .ok leads ⟨?_, nofun⟩
    rintro id ⟨rfl⟩
    exact sets
  | error previous =>
    obtain ⟨hi', finds⟩ := p.taken ht hs hi
    rw [insertSymbol_of_error hi, insertSymbol_of_error (t := t.beside g) hi']
    refine .ok (p.refl ht) ⟨nofun, ?_⟩
    rintro _ ⟨rfl⟩
    exact finds

theorem declareSymbol_gives (hs : p.Enters s.scope) (hv : ∀ v, s.state = .resolved v → v.Bindable p.Sees p.Stores) :
    Gives p (declareSymbol s) p.Sets := by
  refine (insertSymbol_gives hs hv).bind fun r hr => ?_
  cases r with
  | ok id => exact .pure (hr.1 id rfl)
  | error previous =>
    refine .scopes fun t g ht => ⟨?_, .throw trivial⟩
    simp only [Scopes.redeclaration, (p.symbol ht (hr.2 previous rfl)).1]

theorem resolveSymbol_abides {id} (h : p.Sets id) {v : SymbolValue} (hv : v.Bindable p.Sees p.Stores) :
    Abides p (resolveSymbol id v) :=
  fun _ _ _ _ ht => .ok (p.resolveSymbol ht h hv) trivial

theorem layoutHalt_gives {α : Type} {P} (e span) : Gives p (layoutHalt e span : Analysis α) P := by
  refine .get (fun _ _ _ => rfl) fun t _ _ => ?_
  split
  · split
    · exact .throw trivial
    · exact .throw trivial
  · exact .throw trivial
  · exact .reads (quoted_views _) fun _ => .throw trivial
  · exact .reads (quoted_views _) fun _ => .throw trivial

theorem orLayoutHalt_abides {α : Type} (span) (r : Except LayoutError α) : Abides p (orLayoutHalt span r) := by
  cases r with
  | ok a => exact .pure trivial
  | error e => exact layoutHalt_gives e span

theorem layoutOf_abides (ty span) : Abides p (layoutOf ty span) :=
  .reads types_views fun _ => orLayoutHalt_abides span _

theorem valueLayout_abides (ty span) : Abides p (valueLayout ty span) := by
  refine (layoutOf_abides ty span).bind fun layout _ => .reads read_views fun _ => ?_
  refine .reads types_views fun _ => .ite (fun _ => ?_) fun _ => .pure trivial
  exact .reads (quoted_views _) fun _ => .thrown trivial

theorem zeroValue_abides (ty span) : Abides p (zeroValue ty span) :=
  (valueLayout_abides ty span).bind fun _ _ => .reads types_views fun _ => orLayoutHalt_abides span _

theorem checkStorage_abides (ty) (mutable) (span) : Abides p (checkStorage ty mutable span) := by
  refine .ite (fun _ => .reads (quoted_views _) fun _ => .thrown trivial) fun _ => ?_
  refine .ite (fun _ => .thrown trivial) fun _ => ?_
  exact (valueLayout_abides ty span).bind fun _ _ => .pure trivial

/-! ## Calls -/

private theorem receive_abides (ty v) : Abides p (receive ty v) := by
  refine Gives.bind (.retype (fun t g => ?_) fun t => ?_) fun _ _ => .pure trivial
  · show (PUnit.unit, if v.fits t.types ty then t.beside g
      else { t.beside g with strays := (ty, v) :: t.strays }) = _
    dsimp only
    split <;> rfl
  · dsimp only
    split
    · exact ⟨t.types, t.strays, rfl, .refl _⟩
    · exact ⟨t.types, _, rfl, .refl _⟩

theorem outcome_abides (ty) {o} (guided : p.Relies → o.Guided) : Abides p (outcome ty o) := by
  cases o with
  | returned v => exact receive_abides ty v
  | trapped trap =>
    unfold outcome
    dsimp only
    split
    · exact .throw trivial
    · exact fun _ _ _ _ ht => .error (p.refl ht) guided
  | postponed f =>
    refine .get (fun t g ht => ?_) fun t _ _ => ?_
    · have htask : (t.beside g).scheduler.find? (.body f) = t.scheduler.find? (.body f) := p.task ht _
      simp only [htask]
      rfl
    · split
      · exact .throw trivial
      · exact .throw trivial
  | exhausted => exact .throw trivial
  | missing f => exact .throw trivial

theorem callNow_abides (f args) : Abides p (callNow f args) := by
  refine .reads code_views fun _ => .views setting_views fun c t g _ ht => ?_
  exact outcome_abides _ fun relies => Machine.guided_run (Machine.callees_of_formed (p.formed relies ht)) f args _

end Comptime.Analysis
