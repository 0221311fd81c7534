import Comptime.Proofs.Analysis.Equation
import Comptime.Session.Basic
import Mathlib.Algebra.GroupWithZero.Nat

/-!
# The choice between overloads

A call of a group looks at the members one after the other. It keeps those of least cost so far and starts
over when it meets one that costs less. `Leaders.Lead` is what holds of them after each member; hence the
choice depends on what the members cost and not on their order.

Main result: a member is called if it takes the arguments at a lesser cost than every other, the call is
ambiguous if two cost the least, and no overload matches if none takes the arguments
(`Analysis.selectOverload_spec`).
-/

namespace Comptime

/-! ## Costs -/

/-- The member takes the arguments: it has as many parameters, and each argument has a rank at its
parameter. The ranks add up to the cost. -/
def Tables.Takes (t : Tables) (args : List Operand) (f : FnId) (cost : Nat) : Prop :=
  args.length = (t.code.function f).params.length ∧ ∃ ranks : List Rank,
    List.zipWith t.argRank args (t.code.function f).params = ranks.map some ∧
      cost = (ranks.map Rank.cost).sum

/-- Among the members, the function takes the arguments at the least cost. -/
def Tables.Cheapest (t : Tables) (args : List Operand) (members : List FnId) (f : FnId) : Prop :=
  f ∈ members ∧ ∃ cost, t.Takes args f cost ∧ ∀ g ∈ members, ∀ cost', t.Takes args g cost' → cost ≤ cost'

theorem Tables.argsCost_eq_some {t : Tables} {args : List Operand} {params : List TypeId} {cost} :
    t.argsCost args params = some cost ↔ args.length = params.length ∧ ∃ ranks : List Rank,
      List.zipWith t.argRank args params = ranks.map some ∧ cost = (ranks.map Rank.cost).sum := by
  induction args generalizing params cost with
  | nil =>
    cases params with
    | nil =>
      constructor
      · rintro ⟨rfl⟩
        exact ⟨rfl, [], rfl, rfl⟩
      · rintro ⟨-, ranks, hranks, rfl⟩
        cases ranks with
        | nil => rfl
        | cons => cases hranks
    | cons => simp [Tables.argsCost]
  | cons arg args ih =>
    cases params with
    | nil => simp [Tables.argsCost]
    | cons param params =>
      constructor
      · intro h
        obtain ⟨rank, hrank, h⟩ := Option.bind_eq_some_iff.mp h
        obtain ⟨rest, hrest, h⟩ := Option.bind_eq_some_iff.mp h
        obtain ⟨hlen, ranks, hranks, rfl⟩ := ih.mp hrest
        cases h
        exact ⟨congrArg (· + 1) hlen, rank :: ranks, by simp [hrank, hranks], by simp⟩
      · rintro ⟨hlen, ranks, hranks, rfl⟩
        cases ranks with
        | nil => cases hranks
        | cons rank ranks =>
          obtain ⟨hrank, hranks⟩ := List.cons.inj hranks
          have hrest := ih.mpr ⟨Nat.succ.inj hlen, ranks, hranks, rfl⟩
          simp [Tables.argsCost, hrank, hrest]

theorem two_le_length_iff {l : List FnId} (h : l.Nodup) : 2 ≤ l.length ↔ ∃ f g, f ≠ g ∧ f ∈ l ∧ g ∈ l := by
  rcases l with - | ⟨f, - | ⟨g, rest⟩⟩
  · simp
  · simp
  · have hne : f ≠ g := fun heq => (List.nodup_cons.mp h).1 (heq ▸ List.mem_cons_self)
    exact iff_of_true (by simp) ⟨f, g, hne, by simp, by simp⟩

theorem Tables.takes_unique {t : Tables} {args f cost cost'} (h : t.Takes args f cost) (h' : t.Takes args f cost') :
    cost = cost' :=
  Option.some.inj ((argsCost_eq_some.mpr h).symm.trans (argsCost_eq_some.mpr h'))

/-! ## One pass over the members -/

namespace Leaders

variable {cost : FnId → Option Nat} {seen : List FnId} {best : Leaders} {f : FnId} {n : Nat}

/-- The leaders are the members of least cost among those that were looked at, in their order. -/
structure Lead (cost : FnId → Option Nat) (seen : List FnId) (best : Leaders) : Prop where
  attained : ∀ n, best.cost = some n → ∃ f ∈ seen, cost f = some n
  least : ∀ f ∈ seen, ∀ n, cost f = some n → ∃ m, best.cost = some m ∧ m ≤ n
  members : best.members = seen.filter fun f => (cost f).isSome && cost f == best.cost

theorem lead_empty : Lead cost [] ⟨none, []⟩ := ⟨nofun, nofun, rfl⟩

theorem Lead.snoc {best'} (h : Lead cost seen best) (old : ∀ n, best.cost = some n → ∃ m, best'.cost = some m ∧ m ≤ n)
    (new : ∀ n, cost f = some n → ∃ m, best'.cost = some m ∧ m ≤ n)
    (either : best'.cost = best.cost ∨ best'.cost = cost f)
    (members : best'.members = (seen ++ [f]).filter fun f => (cost f).isSome && cost f == best'.cost) :
    Lead cost (seen ++ [f]) best' := by
  refine ⟨fun n hn => ?_, fun g hg n hn => ?_, members⟩
  · rcases either with heq | heq
    · obtain ⟨g, hg, hcost⟩ := h.attained n (heq ▸ hn)
      exact ⟨g, List.mem_append_left _ hg, hcost⟩
    · exact ⟨f, by simp, heq ▸ hn⟩
  · rcases List.mem_append.mp hg with hg | hg
    · obtain ⟨m, hm, hle⟩ := h.least g hg n hn
      obtain ⟨k, hk, hle'⟩ := old m hm
      exact ⟨k, hk, Nat.le_trans hle' hle⟩
    · exact new n (List.mem_singleton.mp hg ▸ hn)

theorem Lead.skip (h : Lead cost seen best) (hf : cost f = none) : Lead cost (seen ++ [f]) best := by
  apply h.snoc (fun n hn => ⟨n, hn, Nat.le_refl n⟩) _ (.inl rfl)
  · simp [h.members, hf]
  · simp [hf]

theorem Lead.lower (h : Lead cost seen best) (hf : cost f = some n) (hless : ∀ m, best.cost = some m → n < m) :
    Lead cost (seen ++ [f]) ⟨some n, [f]⟩ := by
  have hnone : seen.filter (fun g => (cost g).isSome && cost g == some n) = [] := by
    apply List.filter_eq_nil_iff.mpr
    intro g hg hcost
    rw [Bool.and_eq_true, beq_iff_eq] at hcost
    obtain ⟨m, hm, hle⟩ := h.least g hg n hcost.2
    exact Nat.lt_irrefl n (Nat.lt_of_lt_of_le (hless m hm) hle)
  apply h.snoc (fun m hm => ⟨n, rfl, Nat.le_of_lt (hless m hm)⟩) _ (.inr hf.symm)
  · simp [hnone, hf]
  · simp [hf]

theorem Lead.add (h : Lead cost seen best) (hf : cost f = some n) : Lead cost (seen ++ [f]) (best.add f n) := by
  obtain ⟨least, members⟩ := best
  unfold Leaders.add
  cases least with
  | none => simpa using h.lower hf nofun
  | some m =>
    rcases Nat.lt_trichotomy n m with hlt | rfl | hgt
    · simpa [hlt] using h.lower hf (by simpa using hlt)
    · have htie : Lead cost (seen ++ [f]) ⟨some n, members ++ [f]⟩ :=
        h.snoc (by simp) (by simp [hf]) (.inl rfl) (by simp [← h.members, hf])
      simpa using htie
    · have hne : m ≠ n := Nat.ne_of_lt hgt
      simpa [Nat.lt_asymm hgt, hne] using h.snoc (by simp) (by simp [hf, Nat.le_of_lt hgt]) (.inl rfl)
        (by simp [← h.members, hf, hne.symm])

end Leaders

namespace Tables

open Leaders (Lead lead_empty)

variable {t : Tables} {args : List Operand} {members : List FnId} {f : FnId}

/-- What it costs to call the function. -/
def callCost (t : Tables) (args : List Operand) (f : FnId) : Option Nat :=
  t.argsCost args (t.code.function f).params

theorem callCost_eq_some {cost} : t.callCost args f = some cost ↔ t.Takes args f cost :=
  argsCost_eq_some

private theorem lead_consider {seen best} (h : Lead (t.callCost args) seen best) (f) :
    Lead (t.callCost args) (seen ++ [f]) (t.consider args best f) := by
  unfold consider
  split
  · next cost hcost => exact h.add hcost
  · next hcost => exact h.skip hcost

private theorem lead_foldl {seen best} (h : Lead (t.callCost args) seen best) (members) :
    Lead (t.callCost args) (seen ++ members) (members.foldl (t.consider args) best) := by
  induction members generalizing seen best with
  | nil => simpa using h
  | cons f members ih => simpa using ih (lead_consider h f)

theorem lead_cheapest (t : Tables) (args) (members : List FnId) :
    Lead (t.callCost args) members (members.foldl (t.consider args) ⟨none, []⟩) :=
  lead_foldl lead_empty members

theorem cheapest_sublist (t : Tables) (members args) : (t.cheapest members args).Sublist members := by
  rw [cheapest, (lead_cheapest t args members).members]
  exact List.filter_sublist

theorem mem_cheapest : f ∈ t.cheapest members args ↔ t.Cheapest args members f := by
  have hlead := lead_cheapest t args members
  rw [cheapest, hlead.members]
  constructor
  · intro h
    obtain ⟨hf, hcost⟩ := List.mem_filter.mp h
    rw [Bool.and_eq_true, beq_iff_eq, Option.isSome_iff_exists] at hcost
    obtain ⟨⟨cost, hcost⟩, hbest⟩ := hcost
    refine ⟨hf, cost, callCost_eq_some.mp hcost, fun g hg cost' hcost' => ?_⟩
    obtain ⟨least, hleast, hle⟩ := hlead.least g hg cost' (callCost_eq_some.mpr hcost')
    rw [hcost, hleast] at hbest
    cases hbest
    exact hle
  · rintro ⟨hf, cost, hcost, hmin⟩
    have hcost := callCost_eq_some.mpr hcost
    obtain ⟨least, hleast, hle⟩ := hlead.least f hf cost hcost
    obtain ⟨g, hg, hattained⟩ := hlead.attained least hleast
    have hsame : cost = least := Nat.le_antisymm (hmin g hg least (callCost_eq_some.mp hattained)) hle
    exact List.mem_filter.mpr ⟨hf, by simp [hcost, hleast, hsame]⟩

theorem cheapest_eq_nil : t.cheapest members args = [] ↔ ∀ f ∈ members, ∀ cost, ¬ t.Takes args f cost := by
  constructor
  · intro hnil f hf cost htakes
    have hlead := lead_cheapest t args members
    obtain ⟨least, hleast, -⟩ := hlead.least f hf cost (callCost_eq_some.mpr htakes)
    obtain ⟨g, hg, hcost⟩ := hlead.attained least hleast
    have hmem : g ∈ t.cheapest members args := by
      rw [cheapest, hlead.members]
      exact List.mem_filter.mpr ⟨hg, by simp [hcost, hleast]⟩
    rw [hnil] at hmem
    cases hmem
  · intro hnone
    apply List.eq_nil_iff_forall_not_mem.mpr
    intro f hf
    obtain ⟨hf, cost, htakes, -⟩ := mem_cheapest.mp hf
    exact hnone f hf cost htakes

theorem nodup_cheapest (h : members.Nodup) (t : Tables) (args) :
    (t.cheapest members args).Nodup := h.sublist (t.cheapest_sublist members args)

theorem cheapest_eq_singleton (h : members.Nodup) : t.cheapest members args = [f] ↔
    f ∈ members ∧ ∃ cost, t.Takes args f cost ∧
      ∀ g ∈ members, g ≠ f → ∀ cost', t.Takes args g cost' → cost < cost' := by
  constructor
  · intro hf
    obtain ⟨hmem, cost, htakes, hmin⟩ := mem_cheapest.mp (hf ▸ List.mem_singleton_self f)
    refine ⟨hmem, cost, htakes, fun g hg hne cost' htakes' => ?_⟩
    apply Nat.lt_of_le_of_ne (hmin g hg cost' htakes')
    -- at the same cost it would be among the leaders
    rintro rfl
    have hlead : g ∈ t.cheapest members args := mem_cheapest.mpr ⟨hg, cost, htakes', hmin⟩
    rw [hf, List.mem_singleton] at hlead
    exact hne hlead
  · rintro ⟨hf, cost, htakes, hless⟩
    have hlead : t.Cheapest args members f := by
      refine ⟨hf, cost, htakes, fun g hg cost' htakes' => ?_⟩
      by_cases hgf : g = f
      · subst hgf
        exact Nat.le_of_eq (takes_unique htakes htakes')
      · exact Nat.le_of_lt (hless g hg hgf cost' htakes')
    have honly : ∀ g, g ∈ t.cheapest members args ↔ g ∈ [f] := by
      intro g
      rw [mem_cheapest, List.mem_singleton]
      constructor
      · rintro ⟨hg, cost', htakes', hmin⟩
        by_contra hne
        exact Nat.lt_irrefl cost (Nat.lt_of_lt_of_le (hless g hg hne cost' htakes') (hmin f hf cost htakes))
      · rintro rfl
        exact hlead
    exact List.perm_singleton.mp ((List.perm_ext_iff_of_nodup (nodup_cheapest h t args) (by simp)).mpr honly)

theorem cheapest_perm {members'} (h : members.Nodup) (hperm : members.Perm members') :
    (t.cheapest members args).Perm (t.cheapest members' args) := by
  apply (List.perm_ext_iff_of_nodup (nodup_cheapest h t args) (nodup_cheapest (hperm.nodup_iff.mp h) t args)).mpr
  intro f
  simp only [mem_cheapest, Cheapest, hperm.mem_iff]

end Tables

/-! ## Reports -/

/-- The report on a call of a group, with a note on each of the candidates. -/
def Tables.callReport (t : Tables) (what : String) (args : List Operand) (span : Span)
    (candidates : List FnId) : Diagnostic :=
  ⟨.error, .resolution, what ++ ", ".intercalate (args.map fun a => t.types.name a.ty) ++ ")", some span,
    candidates.map fun f =>
      ⟨"candidate: " ++ t.types.name (t.code.function f).ty, some (t.code.function f).span⟩⟩

/-- No overload matches. -/
def Tables.unmatched (t : Tables) (args : List Operand) (span : Span) (candidates : List FnId) : Diagnostic :=
  t.callReport "no overload matches argument types (" args span candidates

/-- The call is ambiguous. -/
def Tables.ambiguity (t : Tables) (args : List Operand) (span : Span) (candidates : List FnId) : Diagnostic :=
  t.callReport "ambiguous call with argument types (" args span candidates

theorem Tables.unmatched_ne_ambiguity (t : Tables) (args span l l') :
    t.unmatched args span l ≠ t.ambiguity args span l' := by
  intro h
  have hfirst := congrArg (fun d : Diagnostic => d.message.toList.head?) h
  simp [unmatched, ambiguity, callReport, String.toList_append] at hfirst

namespace Analysis

variable {c : Context} {t : Tables} {args : List Operand} {members : List FnId} {span : Span} {f : FnId}

private theorem refuse_eq (what) (candidates) :
    selectOverload.refuse span t (what ++ ", ".intercalate (args.map fun a => t.types.name a.ty) ++ ")")
      candidates c t = .error (.error (t.callReport what args span candidates)) t := by
  have hnotes (d : Diagnostic) : candidates.foldl (fun d f =>
      d.withNote ("candidate: " ++ t.types.name (t.code.function f).ty) (some (t.code.function f).span)) d =
      { d with notes := d.notes ++ candidates.map fun f =>
        ⟨"candidate: " ++ t.types.name (t.code.function f).ty, some (t.code.function f).span⟩ } := by
    induction candidates generalizing d with
    | nil => simp
    | cons f candidates ih =>
      rw [List.foldl_cons, ih]
      simp [Diagnostic.withNote]
  unfold selectOverload.refuse
  rw [hnotes]
  rfl

theorem selectOverload_cases (members args span c t) :
    (∃ f, t.cheapest members args = [f] ∧ selectOverload members args span c t = .ok f t) ∨
    (t.cheapest members args = [] ∧
      selectOverload members args span c t = .error (.error (t.unmatched args span members)) t) ∨
    (2 ≤ (t.cheapest members args).length ∧ selectOverload members args span c t =
      .error (.error (t.ambiguity args span (t.cheapest members args))) t) := by
  rw [selectOverload, reads_bind get_reads]
  rcases t.cheapest members args with - | ⟨f, - | ⟨g, rest⟩⟩
  · exact .inr (.inl ⟨rfl, refuse_eq _ _⟩)
  · exact .inl ⟨f, rfl, rfl⟩
  · exact .inr (.inr ⟨by simp, refuse_eq _ _⟩)

theorem selectOverload_eq_ok {t'} :
    selectOverload members args span c t = .ok f t' ↔ t' = t ∧ t.cheapest members args = [f] := by
  obtain ⟨g, hg, hrun⟩ | ⟨hnil, hrun⟩ | ⟨hlen, hrun⟩ := selectOverload_cases members args span c t
  · simp [hrun, hg, and_comm, eq_comm]
  · simp [hrun, hnil]
  · have hne : t.cheapest members args ≠ [f] := fun h => by simp [h] at hlen
    simp [hrun, hne]

theorem selectOverload_unmatched :
    selectOverload members args span c t = .error (.error (t.unmatched args span members)) t ↔
      t.cheapest members args = [] := by
  obtain ⟨g, hg, hrun⟩ | ⟨hnil, hrun⟩ | ⟨hlen, hrun⟩ := selectOverload_cases members args span c t
  · simp [hrun, hg]
  · simp [hrun, hnil]
  · have hne : t.cheapest members args ≠ [] := fun h => by simp [h] at hlen
    simp [hrun, hne, (t.unmatched_ne_ambiguity args span _ _).symm]

private theorem selectOverload_ambiguous :
    (∃ tied, selectOverload members args span c t = .error (.error (t.ambiguity args span tied)) t) ↔
      2 ≤ (t.cheapest members args).length := by
  obtain ⟨g, hg, hrun⟩ | ⟨hnil, hrun⟩ | ⟨hlen, hrun⟩ := selectOverload_cases members args span c t
  · simp [hrun, hg]
  · simp [hrun, hnil, t.unmatched_ne_ambiguity args span]
  · exact iff_of_true ⟨_, hrun⟩ hlen

/-- For members without repetition: the one that is called takes the arguments at a lesser cost than every
other. The call is ambiguous if two take them at the least cost, and all that do are listed in their order. No
overload matches if none takes them, and all are listed. The order of the members changes neither the function
that is called nor the kind of the error. -/
theorem selectOverload_spec (h : members.Nodup) (args : List Operand) (span : Span) (c : Context) (t : Tables) :
    let run (members : List FnId) := selectOverload members args span c t
    let unmatched (members : List FnId) := run members = .error (.error (t.unmatched args span members)) t
    let ambiguous (members tied : List FnId) := run members = .error (.error (t.ambiguity args span tied)) t
    let twoCheapest := ∃ f g, f ≠ g ∧ t.Cheapest args members f ∧ t.Cheapest args members g
    (∀ f t', run members = .ok f t' ↔ t' = t ∧ f ∈ members ∧ ∃ cost, t.Takes args f cost ∧
      ∀ g ∈ members, g ≠ f → ∀ cost', t.Takes args g cost' → cost < cost') ∧
    ((∃ tied, ambiguous members tied) ↔ twoCheapest) ∧
    (∃ tied, tied.Sublist members ∧ (∀ f, f ∈ tied ↔ t.Cheapest args members f) ∧
      (twoCheapest → ambiguous members tied)) ∧
    (unmatched members ↔ ∀ f ∈ members, ∀ cost, ¬ t.Takes args f cost) ∧
    ∀ members', members.Perm members' →
      (∀ f t', run members' = .ok f t' ↔ run members = .ok f t') ∧
      ((∃ tied, ambiguous members' tied) ↔ ∃ tied, ambiguous members tied) ∧
      (unmatched members' ↔ unmatched members) := by
  intro run unmatched ambiguous twoCheapest
  have htwo : 2 ≤ (t.cheapest members args).length ↔ twoCheapest := by
    rw [two_le_length_iff (Tables.nodup_cheapest h t args)]
    simp only [Tables.mem_cheapest, twoCheapest]
  refine ⟨fun f t' => ?_, selectOverload_ambiguous.trans htwo, ?_, ?_, fun members' hperm => ?_⟩
  · exact selectOverload_eq_ok.trans (and_congr_right' (Tables.cheapest_eq_singleton h))
  · refine ⟨t.cheapest members args, t.cheapest_sublist members args, fun f => Tables.mem_cheapest, ?_⟩
    intro hfg
    have hlen := htwo.mpr hfg
    obtain ⟨f, hf, -⟩ | ⟨hnil, -⟩ | ⟨-, hrun⟩ := selectOverload_cases members args span c t
    · simp [hf] at hlen
    · simp [hnil] at hlen
    · exact hrun
  · exact selectOverload_unmatched.trans Tables.cheapest_eq_nil
  · have hcheapest : (t.cheapest members args).Perm (t.cheapest members' args) := Tables.cheapest_perm h hperm
    refine ⟨fun f t' => ?_, ?_, ?_⟩
    · have hsame : t.cheapest members' args = [f] ↔ t.cheapest members args = [f] := by
        rw [← List.perm_singleton, ← List.perm_singleton, hcheapest.congr_left]
      exact (selectOverload_eq_ok.trans (and_congr_right' hsame)).trans selectOverload_eq_ok.symm
    · have hsame : 2 ≤ (t.cheapest members' args).length ↔ 2 ≤ (t.cheapest members args).length := by
        rw [hcheapest.length_eq]
      exact (selectOverload_ambiguous.trans hsame).trans selectOverload_ambiguous.symm
    · have hsame : t.cheapest members' args = [] ↔ t.cheapest members args = [] := by
        rw [← List.length_eq_zero_iff, ← hcheapest.length_eq, List.length_eq_zero_iff]
      exact (selectOverload_unmatched.trans hsame).trans selectOverload_unmatched.symm

/-- A small integer fits 64-bit integers and reals alike, and no truth value. -/
theorem selectOverload_tied :
    let overload (param : TypeId) := Function.declare "f" .void [param] .void .dummy
    let t := { Tables.initial with code := ⟨⟨#[overload .s64, overload .bool, overload .f64]⟩, .empty⟩ }
    let c : Context := ⟨.default, .none, default, 0, none⟩
    [(0 : FnId), 1, 2].Nodup ∧ ∃ tied, selectOverload [0, 1, 2] [.number (.int 5) .s32 .dummy] .dummy c t =
      .error (.error (t.ambiguity [.number (.int 5) .s32 .dummy] .dummy tied)) t := by
  intro overload t c
  have h : [(0 : FnId), 1, 2].Nodup := by decide
  refine ⟨h, (selectOverload_spec h _ _ c t).2.1.mpr ⟨0, 2, by decide, ?_, ?_⟩⟩
  · exact Tables.mem_cheapest.mp (by decide)
  · exact Tables.mem_cheapest.mp (by decide)

end Analysis

end Comptime
