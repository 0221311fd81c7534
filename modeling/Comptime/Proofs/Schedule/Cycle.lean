import Mathlib.Data.List.Nodup
import Mathlib.Data.List.Perm.Subperm
import Mathlib.Data.Nat.Find
import Mathlib.Logic.Relation
import Comptime.Proofs.Schedule.Basic

/-!
# Circles of waits

A task waits for at most one other, so the waits form a graph in which every task has at most one
successor. `Scheduler.Waits` is an edge of that graph, `Scheduler.Depends` a path, and a task is part of
a circle when a path leads from it back to it (`Scheduler.OnCycle`).

The search follows the waits from each task. `Scheduler.Leads` is the way that it takes, without a bound
on the number of steps; such a way meets no task twice, so the number of tasks is bound enough
(`circle?_eq_some`). The main statement is `detectCycle_canonical`: a circle is found if there is one, and
it is the one with the least task.
-/

namespace Comptime.Scheduler

variable {s : Scheduler} {a b c t target : TaskId} {ms : List TaskId}

def Waits (s : Scheduler) (a b : TaskId) : Prop := s.state a = .waiting b

instance (s : Scheduler) (a b : TaskId) : Decidable (s.Waits a b) :=
  inferInstanceAs (Decidable (s.state a = .waiting b))

/-- The first task is the second, or waits for it directly or through others. -/
def Depends (s : Scheduler) : TaskId → TaskId → Prop := Relation.ReflTransGen s.Waits

/-- The task waits for itself, directly or through others. -/
def OnCycle (s : Scheduler) (t : TaskId) : Prop := Relation.TransGen s.Waits t t

theorem Waits.has (h : s.Waits a b) : s.Has a := has_of_state_ne (by rw [h]; simp)

theorem Waits.unique (h : s.Waits a b) (h' : s.Waits a c) : b = c := by
  rw [Waits, h] at h'
  cases h'
  rfl

theorem blocker?_eq_some : s.blocker? a = some b ↔ s.Waits a b := by
  unfold blocker? Waits
  split <;> simp_all

theorem onCycle_iff : s.OnCycle t ↔ ∃ b, s.Waits t b ∧ s.Depends b t := Relation.TransGen.head'_iff

/-! ## Ways -/

/-- The tasks on the way from a task along the waits until `target` is met. -/
inductive Leads (s : Scheduler) (target : TaskId) : TaskId → List TaskId → Prop
  | here : Leads s target target [target]
  | next {a b : TaskId} {ms : List TaskId} (ne : a ≠ target) (waits : s.Waits a b)
    (rest : Leads s target b ms) : Leads s target a (a :: ms)

theorem walk_eq_some {fuel} : s.walk target fuel a = some ms ↔ s.Leads target a ms ∧ ms.length ≤ fuel := by
  induction fuel generalizing a ms with
  | zero =>
    rw [walk]
    constructor
    · intro h
      cases h
    · rintro ⟨h, hlength⟩
      cases h <;> simp at hlength
  | succ fuel ih =>
    rw [walk]
    split
    · next he =>
      subst he
      constructor
      · rintro ⟨⟩
        exact ⟨.here, by simp⟩
      · rintro ⟨h, -⟩
        cases h with
        | here => rfl
        | next ne => exact absurd rfl ne
    · next hne =>
      constructor
      · intro h
        obtain ⟨b, hb, h⟩ := Option.bind_eq_some_iff.mp h
        obtain ⟨rest, hrest, h⟩ := Option.bind_eq_some_iff.mp h
        cases h
        obtain ⟨hway, hlength⟩ := ih.mp hrest
        exact ⟨.next hne (blocker?_eq_some.mp hb) hway, Nat.succ_le_succ hlength⟩
      · rintro ⟨h, hlength⟩
        cases h with
        | here => exact absurd rfl hne
        | next _ waits rest =>
          have hrest := ih.mpr ⟨rest, Nat.le_of_succ_le_succ hlength⟩
          simp [blocker?_eq_some.mpr waits, hrest]

namespace Leads

theorem ofDepends (h : s.Depends a target) : ∃ ms, s.Leads target a ms := by
  induction h using Relation.ReflTransGen.head_induction_on with
  | refl => exact ⟨_, .here⟩
  | @head a b hab _ ih =>
    obtain ⟨ms, hms⟩ := ih
    by_cases he : a = target
    · subst he
      exact ⟨_, .here⟩
    · exact ⟨_, .next he hab hms⟩

section

variable (h : s.Leads target a ms)

include h

private theorem unique {ms' : List TaskId} (h' : s.Leads target a ms') : ms = ms' := by
  induction h generalizing ms' with
  | here =>
    cases h' with
    | here => rfl
    | next ne => exact absurd rfl ne
  | next ne waits _ ih =>
    cases h' with
    | here => exact absurd rfl ne
    | next _ waits' rest' =>
      cases waits.unique waits'
      rw [ih rest']

/-- The way from a task that is met is the rest of the way. -/
private theorem rest (hc : c ∈ ms) : ∃ rest, rest <:+ ms ∧ s.Leads target c rest := by
  induction h with
  | here =>
    obtain rfl := List.mem_singleton.mp hc
    exact ⟨_, List.suffix_refl _, .here⟩
  | next ne waits way ih =>
    rcases List.mem_cons.mp hc with rfl | hc
    · exact ⟨_, List.suffix_refl _, .next ne waits way⟩
    · obtain ⟨rest, hrest, hway⟩ := ih hc
      exact ⟨rest, hrest.trans (List.suffix_cons ..), hway⟩

theorem nodup : ms.Nodup := by
  induction h with
  | here => simp
  | @next a b ms ne waits way ih =>
    refine List.nodup_cons.mpr ⟨fun hmem => ?_, ih⟩
    -- from a task that is met again, the way would be longer than itself
    obtain ⟨rest, hrest, hway⟩ := way.rest hmem
    have hlength := hrest.length_le
    rw [← (next ne waits way).unique hway, List.length_cons] at hlength
    omega

theorem mem_start : a ∈ ms := by cases h <;> exact List.mem_cons_self

theorem mem_target : target ∈ ms := by
  induction h with
  | here => exact List.mem_cons_self
  | next _ _ _ ih => exact List.mem_cons_of_mem _ ih

theorem depends (hc : c ∈ ms) : s.Depends a c ∧ s.Depends c target := by
  induction h generalizing c with
  | here =>
    obtain rfl := List.mem_singleton.mp hc
    exact ⟨.refl, .refl⟩
  | next ne waits way ih =>
    rcases List.mem_cons.mp hc with rfl | hc
    · exact ⟨.refl, .head waits (ih way.mem_start).2⟩
    · exact ⟨.head waits (ih hc).1, (ih hc).2⟩

theorem mem_of_waits (hb : b ∈ ms) (hne : b ≠ target) (hbc : s.Waits b c) : c ∈ ms := by
  induction h with
  | here => exact absurd (List.mem_singleton.mp hb) hne
  | next ne waits way ih =>
    rcases List.mem_cons.mp hb with rfl | hb
    · exact List.mem_cons_of_mem _ (waits.unique hbc ▸ way.mem_start)
    · exact List.mem_cons_of_mem _ (ih hb)

end

end Leads

/-! ## The circle of a task -/

/-- The search finds the circle that there is. -/
theorem circle?_eq_some : s.circle? t = some ms ↔ ∃ b, s.Waits t b ∧ s.Leads t b ms := by
  simp only [circle?, bind, Option.bind_eq_some_iff, blocker?_eq_some, walk_eq_some]
  refine exists_congr fun b => and_congr_right fun hb => and_iff_left_of_imp fun hway => ?_
  -- every task on the way waits, so each is one of the tasks
  have hmem : ms ⊆ s.tasks.ids := by
    intro c hc
    refine Pool.mem_ids.mpr ?_
    rcases (hway.depends hc).2.cases_head with rfl | ⟨d, hd, -⟩
    · exact hb.has
    · exact hd.has
  simpa [Pool.ids, Pool.size] using (hway.nodup.subperm hmem).length_le

theorem isSome_circle?_iff : (s.circle? t).isSome ↔ s.OnCycle t := by
  rw [Option.isSome_iff_exists, onCycle_iff]
  constructor
  · rintro ⟨ms, h⟩
    obtain ⟨b, hb, hway⟩ := circle?_eq_some.mp h
    exact ⟨b, hb, (hway.depends hway.mem_start).2⟩
  · rintro ⟨b, hb, hdep⟩
    obtain ⟨ms, hway⟩ := Leads.ofDepends hdep
    exact ⟨ms, circle?_eq_some.mpr ⟨b, hb, hway⟩⟩

theorem mem_circle?_iff (h : s.circle? t = some ms) : a ∈ ms ↔ s.Depends t a ∧ s.Depends a t := by
  obtain ⟨b, hb, hway⟩ := circle?_eq_some.mp h
  constructor
  · intro ha
    exact ⟨.head hb (hway.depends ha).1, (hway.depends ha).2⟩
  · rintro ⟨hta, -⟩
    -- the circle is closed: whatever one of it waits for is in it
    induction hta with
    | refl => exact hway.mem_target
    | @tail x y _ hxy ih =>
      by_cases hx : x = t
      · rw [hx] at hxy
        exact hb.unique hxy ▸ hway.mem_start
      · exact hway.mem_of_waits ih hx hxy

theorem OnCycle.of_depends (h : s.OnCycle t) (hta : s.Depends t a) (hat : s.Depends a t) : s.OnCycle a :=
  (Relation.TransGen.trans_right hat h).trans_left hta

/-! ## Components -/

theorem mem_edges : (a, b) ∈ s.edges ↔ s.Waits a b := by
  simp only [edges, List.mem_filterMap, Option.map_eq_some_iff, blocker?_eq_some, Prod.mk.injEq]
  constructor
  · rintro ⟨_, -, _, hw, rfl, rfl⟩
    exact hw
  · intro hw
    exact ⟨a, Pool.mem_ids.mpr hw.has, b, hw, rfl, rfl⟩

theorem mem_nodes : a ∈ s.nodes ↔ ∃ b, s.Waits a b ∨ s.Waits b a := by
  simp only [nodes, List.mem_eraseDups, List.mem_flatMap, Prod.exists, mem_edges, List.mem_cons, List.not_mem_nil,
    or_false]
  constructor
  · rintro ⟨x, y, hw, rfl | rfl⟩
    · exact ⟨y, .inl hw⟩
    · exact ⟨x, .inr hw⟩
  · rintro ⟨b, hw | hw⟩
    · exact ⟨a, b, hw, .inl rfl⟩
    · exact ⟨b, a, hw, .inr rfl⟩

private theorem nodup_eraseDups (l : List TaskId) : l.eraseDups.Nodup := by
  match l with
  | [] => exact List.nodup_nil
  | x :: l =>
    rw [List.eraseDups_cons, List.nodup_cons]
    exact ⟨by simp [List.mem_eraseDups], nodup_eraseDups _⟩
termination_by l.length
decreasing_by exact Nat.lt_succ_of_le (List.length_filter_le ..)

theorem mem_nodes_of_depends (ht : t ∈ s.nodes) (h : s.Depends t a) : a ∈ s.nodes := by
  rcases h.cases_tail with rfl | ⟨b, -, hb⟩
  · exact ht
  · exact mem_nodes.mpr ⟨b, .inr hb⟩

/-- The lists are the strongly connected components of the graph of waits: every node of the graph stands in
one of them, once, together with the tasks that it reaches and that reach it. -/
structure Components (s : Scheduler) (cs : List (List TaskId)) : Prop where
  nonempty : ∀ scc ∈ cs, scc ≠ []
  nodup : cs.flatten.Nodup
  mem_iff : ∀ a, a ∈ cs.flatten ↔ ∃ b, s.Waits a b ∨ s.Waits b a
  connected : ∀ scc ∈ cs, ∀ a ∈ scc, ∀ b, b ∈ scc ↔ s.Depends a b ∧ s.Depends b a

theorem eq_of_depends (ht : ¬s.OnCycle t) (hta : s.Depends t a) (hat : s.Depends a t) : a = t := by
  rcases hta.cases_head with rfl | ⟨b, hb, hba⟩
  · rfl
  · exact absurd (onCycle_iff.mpr ⟨b, hb, hba.trans hat⟩) ht

private theorem component?_eq_some (h : s.component? t = some ms) :
    (∀ a, a ∈ ms ↔ s.Depends t a ∧ s.Depends a t) ∧ (∀ a ∈ ms, t.index ≤ a.index) ∧ ms.Nodup := by
  unfold component? at h
  split at h
  · next hnone =>
    have hnot : ¬s.OnCycle t := by simp [← isSome_circle?_iff, hnone]
    cases h
    refine ⟨fun a => ?_, by simp, by simp⟩
    rw [List.mem_singleton]
    exact ⟨fun he => he ▸ ⟨.refl, .refl⟩, fun h => eq_of_depends hnot h.1 h.2⟩
  · next members hcircle =>
    obtain ⟨hleast, ⟨⟩⟩ := Option.ite_none_right_eq_some.mp h
    obtain ⟨b, -, hway⟩ := circle?_eq_some.mp hcircle
    exact ⟨fun a => mem_circle?_iff hcircle, by simpa using hleast, hway.nodup⟩

/-- Of the tasks that a task reaches and that reach it, the least one has the component. -/
theorem exists_component? (a : TaskId) : ∃ t ms, s.component? t = some ms ∧ a ∈ ms := by
  classical
  have hex : ∃ n, ∃ t : TaskId, t.index = n ∧ s.Depends a t ∧ s.Depends t a := ⟨_, a, rfl, .refl, .refl⟩
  obtain ⟨t, ht, hat, hta⟩ := Nat.find_spec hex
  refine ⟨t, ?_⟩
  unfold component?
  split
  · next hnone =>
    have hnot : ¬s.OnCycle t := by simp [← isSome_circle?_iff, hnone]
    exact ⟨_, rfl, List.mem_singleton.mpr (eq_of_depends hnot hta hat)⟩
  · next ms hcircle =>
    have hleast : ms.all (t.index ≤ ·.index) := by
      simp only [List.all_eq_true, decide_eq_true_eq]
      intro x hx
      obtain ⟨htx, hxt⟩ := (mem_circle?_iff hcircle).mp hx
      exact ht ▸ Nat.find_min' hex ⟨x, rfl, hat.trans htx, hxt.trans hta⟩
    exact ⟨ms, by rw [if_pos hleast], (mem_circle?_iff hcircle).mpr ⟨hta, hat⟩⟩

/-- The components that the search along the waits gives are those of the graph. -/
theorem components_exact (s : Scheduler) : s.Components s.components := by
  have hmem {scc : List TaskId} (h : scc ∈ s.components) : ∃ t ∈ s.nodes, s.component? t = some scc :=
    List.mem_filterMap.mp h
  refine ⟨fun scc hscc => ?_, List.nodup_flatten.mpr ⟨fun scc hscc => ?_, ?_⟩, fun a => ?_, fun scc hscc a ha b => ?_⟩
  · obtain ⟨t, -, ht⟩ := hmem hscc
    exact List.ne_nil_of_mem (((component?_eq_some ht).1 t).mpr ⟨.refl, .refl⟩)
  · obtain ⟨t, -, ht⟩ := hmem hscc
    exact (component?_eq_some ht).2.2
  · -- a task in two components would make each of their least tasks the lesser one
    refine List.Pairwise.filterMap s.component? (fun t t' hne ms ht ms' ht' x hx hx' => hne ?_) (nodup_eraseDups _)
    obtain ⟨hms, hleast, -⟩ := component?_eq_some ht
    obtain ⟨hms', hleast', -⟩ := component?_eq_some ht'
    obtain ⟨htx, hxt⟩ := (hms x).mp hx
    obtain ⟨htx', hxt'⟩ := (hms' x).mp hx'
    have hle := hleast t' ((hms t').mpr ⟨htx.trans hxt', htx'.trans hxt⟩)
    have hle' := hleast' t ((hms' t).mpr ⟨htx'.trans hxt, htx.trans hxt'⟩)
    exact Id.ext (Nat.le_antisymm hle hle')
  · rw [← mem_nodes, List.mem_flatten]
    constructor
    · rintro ⟨scc, hscc, ha⟩
      obtain ⟨t, ht, hcomponent⟩ := hmem hscc
      exact mem_nodes_of_depends ht (((component?_eq_some hcomponent).1 a).mp ha).1
    · intro ha
      obtain ⟨t, ms, hcomponent, hms⟩ := s.exists_component? a
      have ht := mem_nodes_of_depends ha (((component?_eq_some hcomponent).1 a).mp hms).2
      exact ⟨ms, List.mem_filterMap.mpr ⟨t, ht, hcomponent⟩, hms⟩
  · obtain ⟨t, -, ht⟩ := hmem hscc
    obtain ⟨hms, -⟩ := component?_eq_some ht
    obtain ⟨hta, hat⟩ := (hms a).mp ha
    rw [hms]
    exact ⟨fun h => ⟨hat.trans h.1, h.2.trans hta⟩, fun h => ⟨hta.trans h.1, h.2.trans hat⟩⟩

/-! ## The least circle -/

theorem mem_sortIds : a ∈ sortIds ms ↔ a ∈ ms := List.mem_mergeSort

theorem pairwise_sortIds (h : ms.Nodup) : (sortIds ms).Pairwise fun a b => a.index < b.index := by
  have hnodup : (sortIds ms).Nodup := (List.mergeSort_perm ..).nodup_iff.mpr h
  have hle : (sortIds ms).Pairwise fun a b => decide (a.index ≤ b.index) = true :=
    List.pairwise_mergeSort (fun a b c h h' => by simp at h h' ⊢; omega) (fun a b => by simp; omega) ms
  refine (hle.and hnodup).imp fun {x y} hxy => ?_
  have hidx : x.index ≠ y.index := fun he => hxy.2 (Id.ext he)
  have hle := of_decide_eq_true hxy.1
  omega

/-- A list that comes before an increasing one starts with nothing greater than any member of it. -/
theorem index_le_of_lex {m j : TaskId} {ms : List TaskId} {js : List TaskId}
    (hle : (js.map (·.index)).lex ((m :: ms).map (·.index)) = false) (hjs : js.Pairwise fun a b => a.index < b.index)
    (hj : j ∈ js) : m.index ≤ j.index := by
  cases js with
  | nil => cases hj
  | cons k js =>
    have hmk : m.index ≤ k.index := by
      rcases List.cons_le_cons_iff.mp (List.lex_eq_false_iff_ge.mp hle) with h | ⟨h, -⟩
      · exact Nat.le_of_lt h
      · exact Nat.le_of_eq h
    rcases List.mem_cons.mp hj with rfl | hj
    · exact hmk
    · exact Nat.le_trans hmk (Nat.le_of_lt ((List.pairwise_cons.mp hjs).1 j hj))

/-- The list holds the tasks of the circle with the least task, in order. -/
def LeastCircle (s : Scheduler) (ms : List TaskId) : Prop :=
  ms.Pairwise (fun a b => a.index < b.index) ∧ ∃ m ∈ ms, s.OnCycle m ∧
    (∀ j, j ∈ ms ↔ s.Depends m j ∧ s.Depends j m) ∧ ∀ j, s.OnCycle j → m.index ≤ j.index

theorem LeastCircle.unique {ms' : List TaskId} (h : s.LeastCircle ms) (h' : s.LeastCircle ms') : ms' = ms := by
  obtain ⟨hsorted, m, -, hm, hmem, hleast⟩ := h
  obtain ⟨hsorted', m', -, hm', hmem', hleast'⟩ := h'
  obtain rfl : m = m' := Id.ext (Nat.le_antisymm (hleast m' hm') (hleast' m hm))
  have hirrefl {l : List TaskId} (hl : l.Pairwise fun a b => a.index < b.index) : l.Nodup :=
    hl.imp fun hlt he => absurd (he ▸ hlt) (Nat.lt_irrefl _)
  have hperm : ms'.Perm ms := by
    rw [List.perm_ext_iff_of_nodup (hirrefl hsorted') (hirrefl hsorted)]
    intro j
    rw [hmem', hmem]
  exact hperm.eq_of_pairwise (fun a b _ _ hab hba => absurd hab (Nat.lt_asymm hba)) hsorted' hsorted

namespace Components

variable {cs : List (List TaskId)} {scc : List TaskId} (h : s.Components cs)

include h

theorem isCircular_iff (hscc : scc ∈ cs) (ha : a ∈ scc) : s.isCircular scc ↔ s.OnCycle a := by
  have hconnected := h.connected scc hscc
  have hnodup := (List.nodup_flatten.mp h.nodup).1 scc hscc
  match scc, h.nonempty scc hscc with
  | [x], _ =>
    obtain rfl := List.mem_singleton.mp ha
    simp only [isCircular, List.length_singleton, List.head?_cons, Option.any_some, mem_edges, Bool.or_eq_true,
      decide_eq_true_eq, Nat.lt_irrefl, false_or]
    constructor
    · intro hw
      exact .single hw
    · intro hon
      obtain ⟨b, hb, hba⟩ := onCycle_iff.mp hon
      have he := (hconnected a (by simp) b).mpr ⟨.single hb, hba⟩
      exact List.mem_singleton.mp he ▸ hb
  | x :: y :: rest, _ =>
    have hne : x ≠ y := fun he => by simp [he] at hnodup
    have hx := (hconnected x (by simp) y).mp (by simp)
    have hon : s.OnCycle x := by
      rcases hx.1.cases_head with rfl | ⟨b, hb, hby⟩
      · exact absurd rfl hne
      · exact onCycle_iff.mpr ⟨b, hb, hby.trans hx.2⟩
    have hxa := (hconnected x (by simp) a).mp ha
    simp [isCircular, hon.of_depends hxa.1 hxa.2]

theorem exists_mem (ha : s.OnCycle a) : ∃ scc ∈ cs, a ∈ scc ∧ s.isCircular scc := by
  obtain ⟨b, hb, -⟩ := onCycle_iff.mp ha
  obtain ⟨scc, hscc, hmem⟩ := List.mem_flatten.mp ((h.mem_iff a).mpr ⟨b, .inl hb⟩)
  exact ⟨scc, hscc, hmem, (h.isCircular_iff hscc hmem).mpr ha⟩

theorem leastCircle (hd : s.detectCycle cs = some ms) : s.LeastCircle ms := by
  have hsorted := @List.pairwise_mergeSort _ (fun a b : List TaskId => !(b.map (·.index)).lex (a.map (·.index)))
    (fun a b c h h' => by
      simp only [Bool.not_eq_true', List.lex_eq_false_iff_ge] at h h' ⊢
      exact List.le_trans h h')
    (fun a b => by
      simp only [Bool.or_eq_true, Bool.not_eq_true', List.lex_eq_false_iff_ge]
      exact List.le_total _ _) ((cs.filter s.isCircular).map sortIds)
  obtain ⟨rest, hrest⟩ := List.head?_eq_some_iff.mp hd
  rw [hrest, List.pairwise_cons] at hsorted
  have hmem {l : List TaskId} : l ∈ ms :: rest ↔ ∃ scc ∈ cs, s.isCircular scc ∧ sortIds scc = l := by
    rw [← hrest, List.mem_mergeSort]
    simp [and_assoc]
  obtain ⟨scc, hscc, hcircular, rfl⟩ := hmem.mp List.mem_cons_self
  have hnodup {l} (hl : l ∈ cs) := (List.nodup_flatten.mp h.nodup).1 l hl
  cases hms : sortIds scc with
  | nil =>
    obtain ⟨x, hx⟩ := List.exists_mem_of_ne_nil scc (h.nonempty scc hscc)
    have hx' := mem_sortIds.mpr hx
    rw [hms] at hx'
    cases hx'
  | cons m ms' =>
    have hm : m ∈ scc := mem_sortIds.mp (hms ▸ List.mem_cons_self)
    rw [← hms]
    refine ⟨pairwise_sortIds (hnodup hscc), m, mem_sortIds.mpr hm, (h.isCircular_iff hscc hm).mp hcircular,
      fun j => mem_sortIds.trans (h.connected scc hscc m hm j), fun j hj => ?_⟩
    obtain ⟨scc', hscc', hj', hcircular'⟩ := h.exists_mem hj
    have hle : ((sortIds scc').map (·.index)).lex ((sortIds scc).map (·.index)) = false := by
      rcases List.mem_cons.mp (hmem.mpr ⟨scc', hscc', hcircular', rfl⟩) with he | hin
      · exact he ▸ List.lex_eq_false_iff_ge.mpr (List.le_refl _)
      · simpa using hsorted.1 _ hin
    exact index_le_of_lex (hms ▸ hle) (pairwise_sortIds (hnodup hscc')) (mem_sortIds.mpr hj')

theorem isSome_detectCycle_iff : (s.detectCycle cs).isSome ↔ ∃ t, s.OnCycle t := by
  have hnil : (s.detectCycle cs).isSome ↔ ∃ scc ∈ cs, s.isCircular scc := by
    rw [detectCycle, List.isSome_head?, ← List.length_pos_iff, List.length_mergeSort, List.length_map, List.length_pos_iff]
    simp
  rw [hnil]
  constructor
  · rintro ⟨scc, hscc, hcircular⟩
    obtain ⟨t, ht⟩ := List.exists_mem_of_ne_nil scc (h.nonempty scc hscc)
    exact ⟨t, (h.isCircular_iff hscc ht).mp hcircular⟩
  · rintro ⟨t, ht⟩
    obtain ⟨scc, hscc, -, hcircular⟩ := h.exists_mem ht
    exact ⟨scc, hscc, hcircular⟩

/-- What is found depends on nothing but the waits. -/
theorem detectCycle_eq {s' : Scheduler} {cs' : List (List TaskId)} (h' : s'.Components cs')
    (hwaits : s'.Waits = s.Waits) : s'.detectCycle cs' = s.detectCycle cs := by
  have hcycle : s'.OnCycle = s.OnCycle := by
    funext t
    rw [OnCycle, OnCycle, hwaits]
  have hsome : (s'.detectCycle cs').isSome ↔ (s.detectCycle cs).isSome := by
    rw [h'.isSome_detectCycle_iff, h.isSome_detectCycle_iff, hcycle]
  cases hd : s.detectCycle cs with
  | none => simpa [hd] using hsome
  | some ms =>
    obtain ⟨ms', hd'⟩ := Option.isSome_iff_exists.mp (hsome.mpr (by rw [hd]; rfl))
    have hleast := h'.leastCircle hd'
    rw [LeastCircle, hcycle, show s'.Depends = s.Depends by rw [Depends, Depends, hwaits]] at hleast
    rw [hd', (h.leastCircle hd).unique hleast]

end Components

theorem findCycle_eq_some (h : s.findCycle = some ms) : s.LeastCircle ms := s.components_exact.leastCircle h

theorem isSome_findCycle_iff : s.findCycle.isSome ↔ ∃ t, s.OnCycle t := s.components_exact.isSome_detectCycle_iff

theorem onCycle_of_mem_findCycle (h : s.findCycle = some ms) (ha : a ∈ ms) : s.OnCycle a := by
  obtain ⟨-, m, -, hm, hmem, -⟩ := findCycle_eq_some h
  obtain ⟨hma, ham⟩ := (hmem a).mp ha
  exact hm.of_depends hma ham

theorem waits_of_mem_findCycle (h : s.findCycle = some ms) (ha : a ∈ ms) : ∃ b ∈ ms, s.Waits a b := by
  obtain ⟨b, hab, hba⟩ := onCycle_iff.mp (onCycle_of_mem_findCycle h ha)
  obtain ⟨-, m, -, -, hmem, -⟩ := findCycle_eq_some h
  obtain ⟨hma, ham⟩ := (hmem a).mp ha
  exact ⟨b, (hmem b).mpr ⟨hma.tail hab, hba.trans ham⟩, hab⟩

theorem ne_nil_of_findCycle (h : s.findCycle = some ms) : ms ≠ [] := by
  obtain ⟨-, m, -, -, hmem, -⟩ := findCycle_eq_some h
  exact List.ne_nil_of_mem ((hmem m).mpr ⟨.refl, .refl⟩)

/-- Whatever list of the strongly connected components of the graph of waits is handed to the detection, a
circle of waits is found exactly if there is one. What is found is strictly increasing and holds the tasks of
one circle and no others; no circle has a lesser task than the least of it. It depends on nothing but the states
of the tasks. The components that the session computes are such a list. -/
theorem detectCycle_canonical (s : Scheduler) :
    s.Components s.components ∧ ∀ cs, s.Components cs →
      ((s.detectCycle cs).isSome ↔ ∃ t, s.OnCycle t) ∧
      (∀ ms, s.detectCycle cs = some ms → ms.Pairwise (fun a b => a.index < b.index) ∧
        ∃ m ∈ ms, s.OnCycle m ∧ (∀ j, j ∈ ms ↔ s.Depends m j ∧ s.Depends j m) ∧
          ∀ j, s.OnCycle j → m.index ≤ j.index) ∧
      s.detectCycle cs = s.findCycle ∧
      ∀ (s' : Scheduler) (cs' : List (List TaskId)), (∀ j, s'.state j = s.state j) → s'.Components cs' →
        s'.detectCycle cs' = s.detectCycle cs := by
  refine ⟨s.components_exact, fun cs h => ⟨h.isSome_detectCycle_iff, fun ms => h.leastCircle,
    s.components_exact.detectCycle_eq h rfl, fun s' cs' hstate h' => h.detectCycle_eq h' ?_⟩⟩
  funext a b
  rw [Waits, Waits, hstate]

/-- Three tasks: the first two wait for each other, the third waits for the first. -/
def knot : Scheduler :=
  let s := (((empty.submit (.eval 0)).1.submit (.eval 1)).1.submit (.eval 2)).1
  let s := (s.next.1.park 0 1).next.1.park 1 0
  s.next.1.park 2 0

theorem onCycle_knot : knot.OnCycle 0 := by
  have hfirst : knot.Waits 0 1 := by decide +kernel
  have hsecond : knot.Waits 1 0 := by decide +kernel
  exact (Relation.TransGen.single hfirst).tail hsecond

/-- The third task of the knot is not part of the circle. Its run does not matter for what is found. -/
theorem detectCycle_canonical_knot :
    knot.findCycle.isSome ∧ (∃ m, knot.OnCycle m ∧ m.index ≤ 0) ∧ knot.next.1.findCycle = knot.findCycle := by
  obtain ⟨hcomponents, hcanonical⟩ := detectCycle_canonical knot
  obtain ⟨hfound, hleast, -, hsame⟩ := hcanonical _ hcomponents
  have hsome := hfound.mpr ⟨_, onCycle_knot⟩
  obtain ⟨ms, hms⟩ := Option.isSome_iff_exists.mp hsome
  obtain ⟨-, m, -, hm, -, hmin⟩ := hleast ms hms
  exact ⟨hsome, ⟨m, hm, hmin _ onCycle_knot⟩, hsame _ _ (state_next knot) (components_exact _)⟩

end Comptime.Scheduler
