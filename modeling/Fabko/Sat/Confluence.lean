import Fabko.Logic.UnitPropagation
import Fabko.Sat.Runs

set_option autoImplicit false

/-! # Unit propagation is confluent

Propagation from any assignment and over any clauses, not only those a run of the solver reaches:
it ends in a conflict or in the least closed extension of its start, and the order of the clauses
and of their literals decides neither. -/

namespace Fabko.Sat

open Cnf

variable {ctx ctx' c : SolverContext}

/-- Clauses over nonzero literals, with the ids of variables. -/
structure ValidClauses (ctx : SolverContext) : Prop where
  nonzero : ∀ row ∈ ctx.clauses, ∀ p ∈ row.clause, p.1.value ≠ 0
  inRange : ∀ row ∈ ctx.clauses, ∀ p ∈ row.clause, p.2 < ctx.vars.length

/-- The same assignment of as many variables, and the same clauses up to their order and that of
their literals. -/
structure SameClauses (ctx ctx' : SolverContext) : Prop where
  length : ctx'.vars.length = ctx.vars.length
  assignments : ctx'.assignments = ctx.assignments
  clauses : Rearranged (ctx.clauses.map ClauseRow.clause) (ctx'.clauses.map ClauseRow.clause)

/-- How propagation from `ctx` ends in `c`: on a clause with all literals false, or with every
clause settled and the least closed extension of the start. -/
def PropagationOutcome (ctx c : SolverContext) : Option ClauseId → Prop
  | some id => id < ctx.clauses.length ∧ ∀ p ∈ ctx.clause id, FalseUnder c.assignments p
  | none => (∀ row ∈ ctx.clauses, SettledUnder c.assignments row.clause) ∧
      IsLeastClosed ctx.state.clauses ctx.state.value c.state.value

/-! ## The loop follows the rule -/

theorem lt_length_of_mem_clause {id : ClauseId} {p : Literal × VarId} (h : p ∈ ctx.clause id) :
    id < ctx.clauses.length := by
  by_contra hge
  rw [SolverContext.clause, List.getElem?_eq_none (not_lt.mp hge)] at h
  cases h

theorem ValidClauses.mem_clause (h : ValidClauses ctx) {id : ClauseId} {p : Literal × VarId}
    (hp : p ∈ ctx.clause id) : p.1.value ≠ 0 ∧ p.2 < ctx.vars.length := by
  obtain ⟨row, hrow, heq⟩ := clause_mem (lt_length_of_mem_clause hp)
  rw [← heq] at hp
  exact ⟨h.nonzero row hrow p hp, h.inRange row hrow p hp⟩

theorem ValidClauses.idsInRange (h : ValidClauses ctx) : IdsInRange ctx :=
  fun _ _ hp => (h.mem_clause hp).2

/-- What assigning the entry of a unit clause keeps, the loop keeps. -/
theorem unitPropagationLoop_induct {P : SolverContext → Prop}
    (hunit : ∀ {c : SolverContext} {n : Nat} {id : ClauseId} {u : Literal × VarId}, P c →
      propagate ⟨c, none, n⟩ id = ⟨assignUnit c id u, none, n + 1⟩ → P (assignUnit c id u))
    (hcount : ∀ {c : SolverContext} (n : Nat), P c → P (countPropagations c n)) {fuel : Nat}
    {o : Option ClauseId} (h : unitPropagationLoop fuel ctx = some (c, o)) (hP : P ctx) : P c := by
  induction fuel generalizing ctx with
  | zero => cases h
  | succ fuel ih =>
      have hpass : P (propagatePass ctx).ctx :=
        @foldl_propagate_induct (fun c _ => P c) (fun hc _ _ he => hunit hc he)
          (List.range ctx.clauses.length) ctx 0 hP
      unfold unitPropagationLoop at h
      dsimp only at h
      split at h
      · simp only [Option.some.injEq, Prod.mk.injEq] at h
        exact h.1 ▸ hpass
      · split at h
        · simp only [Option.some.injEq, Prod.mk.injEq] at h
          exact h.1 ▸ hpass
        · exact ih h (hcount _ hpass)

/-- The context is the start with some variables assigned by unit clauses. -/
structure Propagated (ctx c : SolverContext) : Prop where
  clauses : c.clauses = ctx.clauses
  length : c.vars.length = ctx.vars.length
  steps : UnitSteps ctx.state.clauses ctx.state.value c.state.value

theorem Propagated.clause (h : Propagated ctx c) (id : ClauseId) :
    c.clause id = ctx.clause id := by
  rw [SolverContext.clause, h.clauses]
  rfl

theorem Propagated.unit (hv : ValidClauses ctx) (h : Propagated ctx c) {n : Nat} {id : ClauseId}
    {u : Literal × VarId}
    (he : propagate ⟨c, none, n⟩ id = ⟨assignUnit c id u, none, n + 1⟩) :
    Propagated ctx (assignUnit c id u) := by
  have hvalid : ∀ p ∈ c.clause id, p.1.value ≠ 0 ∧ p.2 < ctx.vars.length := by
    rw [h.clause id]
    exact fun p hp => hv.mem_clause hp
  have hsame := sameSearch_assignUnit c id u
  refine ⟨hsame.clauses.trans h.clauses, hsame.length_vars.trans h.length, ?_⟩
  rcases propagate_cases_of_ne_zero (fun p hp => (hvalid p hp).1) n with
    ⟨he', -⟩ | ⟨he', -⟩ | ⟨w, hw, he', hf⟩
  · rw [he] at he'
    simp at he'
  · rw [he] at he'
    simp at he'
  · rw [he, Pass.mk.injEq] at he'
    have hlt : w.2 < c.vars.length := h.length ▸ (hvalid w hw).2
    rw [he'.1, state_assignUnit hlt]
    refine h.steps.tail ⟨toCnf (c.clause id), ?_, toLit w, hf, rfl⟩
    have hmem := Linked.toCnf_mem_clauses (lt_length_of_mem_clause hw)
    rw [SolverContext.state, h.clauses] at hmem
    exact hmem

theorem propagated_of_unitPropagation (hv : ValidClauses ctx) {o : Option ClauseId}
    (h : unitPropagation ctx = some (c, o)) : Propagated ctx c :=
  unitPropagationLoop_induct (fun hc he => hc.unit hv he)
    (fun _ hc => ⟨hc.clauses, hc.length, hc.steps⟩) h ⟨rfl, rfl, Relation.ReflTransGen.refl⟩

/-! ## Where it ends -/

theorem Step.of_conflict {mul : Nat → Nat → Nat} {f : Frame} {id : ClauseId}
    (h : Step mul f ⟨.conflict id, c⟩) : ∃ ctx n, c = countConflict ctx ∧
      id < ctx.clauses.length ∧ propagate ⟨ctx, none, n⟩ id = ⟨ctx, some id, n⟩ := by
  cases h with
  | conflict hid hp => exact ⟨_, _, rfl, hid, hp⟩

theorem Step.of_quiet {mul : Nat → Nat → Nat} {f : Frame} (h : Step mul f ⟨.quiet, c⟩) :
    ∀ id < c.clauses.length, propagate ⟨c, none, 0⟩ id = ⟨c, none, 0⟩ := by
  cases h with
  | quiet hp => exact hp

/-- A run to another point has a last step. -/
theorem Steps.exists_last {mul : Nat → Nat → Nat} {f g : Frame} (h : Steps mul f g)
    (hne : f.point ≠ g.point) : ∃ f', Step mul f' g := by
  rcases Relation.ReflTransGen.cases_tail h with heq | ⟨f', -, hstep⟩
  · exact absurd (congrArg Frame.point heq.symm) hne
  · exact ⟨f', hstep⟩

/-- A conflict is a falsified clause. -/
theorem falsified_of_unitPropagation (hv : ValidClauses ctx) {id : ClauseId}
    (h : unitPropagation ctx = some (c, some id)) :
    id < ctx.clauses.length ∧ Falsified c.state.value (toCnf (ctx.clause id)) := by
  have hprop := propagated_of_unitPropagation hv h
  have hend : Steps mulUInt32 _ _ := (unitPropagation_spec h).1
  obtain ⟨f, hstep⟩ := hend.exists_last (by simp)
  obtain ⟨c', n, hcount, hid, hp⟩ := hstep.of_conflict
  have hvars : c'.vars = c.vars := (congrArg SolverContext.vars hcount).symm
  have hclauses : c'.clauses = ctx.clauses :=
    (congrArg SolverContext.clauses hcount).symm.trans hprop.clauses
  have hclause : c'.clause id = ctx.clause id := by
    rw [SolverContext.clause, hclauses]
    rfl
  have hvalue : c'.state.value = c.state.value := by
    funext v
    show (c'.vars.getD v default).assignment.toOption = _
    rw [hvars]
    rfl
  have hf := falsified_of_conflict
    (by rw [hclause]; exact fun p hp => (hv.mem_clause hp).1) hp
  rw [hvalue, hclause] at hf
  exact ⟨hclauses ▸ hid, hf⟩

/-- Without a conflict every clause is settled. -/
theorem settled_of_unitPropagation (hv : ValidClauses ctx)
    (h : unitPropagation ctx = some (c, none)) :
    ∀ C ∈ ctx.state.clauses, Settled c.state.value C := by
  have hprop := propagated_of_unitPropagation hv h
  have hend : Steps mulUInt32 _ _ := (unitPropagation_spec h).1
  obtain ⟨f, hstep⟩ := hend.exists_last (by simp)
  intro C hC
  obtain ⟨row, hrow, rfl⟩ := List.mem_map.mp hC
  obtain ⟨id, hid, hclause⟩ := exists_clause_eq hrow
  have hs := settled_of_idle
    (by rw [hprop.clause id]; exact fun p hp => (hv.mem_clause hp).1)
    (hstep.of_quiet id (hprop.clauses ▸ hid))
  rw [hprop.clause id, hclause] at hs
  exact hs

theorem outcome_of_unitPropagation (hv : ValidClauses ctx) {o : Option ClauseId}
    (h : unitPropagation ctx = some (c, o)) : PropagationOutcome ctx c o := by
  cases o with
  | some id =>
      obtain ⟨hid, hf⟩ := falsified_of_unitPropagation hv h
      exact ⟨hid, fun p hp =>
        (falseUnder_iff (hv.mem_clause hp).1).mpr (hf _ (toLit_mem_toCnf hp))⟩
  | none =>
      have hs := settled_of_unitPropagation hv h
      refine ⟨fun row hrow => ?_, (propagated_of_unitPropagation hv h).steps.isLeastClosed hs⟩
      exact (settled_toCnf (hv.nonzero row hrow)).mp (hs _ (List.mem_map_of_mem hrow))

/-! ## Another order -/

theorem SameClauses.rearranged (h : SameClauses ctx ctx') :
    Rearranged ctx.state.clauses ctx'.state.clauses := by
  have hmap := h.clauses.map toLit
  rw [List.map_map, List.map_map] at hmap
  exact hmap

theorem SameClauses.valid (h : SameClauses ctx ctx') (hv : ValidClauses ctx) :
    ValidClauses ctx' := by
  have hentry : ∀ row ∈ ctx'.clauses, ∀ p ∈ row.clause, p.1.value ≠ 0 ∧ p.2 < ctx.vars.length := by
    intro row hrow p hp
    obtain ⟨d, hd, hperm⟩ := h.clauses.symm.exists_perm (List.mem_map_of_mem hrow)
    obtain ⟨row', hrow', rfl⟩ := List.mem_map.mp hd
    have hp' := hperm.subset hp
    exact ⟨hv.nonzero row' hrow' p hp', hv.inRange row' hrow' p hp'⟩
  refine ⟨fun row hrow p hp => (hentry row hrow p hp).1, fun row hrow p hp => ?_⟩
  rw [h.length]
  exact (hentry row hrow p hp).2

theorem SameClauses.value (h : SameClauses ctx ctx') : ctx'.state.value = ctx.state.value := by
  funext v
  exact congrArg Assignment.toOption (congrFun h.assignments v)

theorem SameClauses.symm (h : SameClauses ctx ctx') : SameClauses ctx' ctx :=
  ⟨h.length.symm, h.assignments.symm, h.clauses.symm⟩

/-- A run without conflict leaves none to a run over the rearranged clauses. -/
theorem SameClauses.no_conflict (h : SameClauses ctx ctx') (hv : ValidClauses ctx)
    {c' : SolverContext} {o' : Option ClauseId} (hup : unitPropagation ctx = some (c, none))
    (hup' : unitPropagation ctx' = some (c', o')) : o' = none := by
  rcases o' with _ | id
  · rfl
  · have hv' := h.valid hv
    obtain ⟨hid, hf⟩ := falsified_of_unitPropagation hv' hup'
    obtain ⟨D, hD, hperm⟩ := h.symm.rearranged.exists_perm (Linked.toCnf_mem_clauses hid)
    have hsteps := (propagated_of_unitPropagation hv' hup').steps.rearranged h.symm.rearranged
    rw [h.value] at hsteps
    exact absurd (hf.perm hperm) (hsteps.not_falsified (propagated_of_unitPropagation hv hup).steps
      (settled_of_unitPropagation hv hup) hD)

theorem SameClauses.assignments_eq (h : SameClauses ctx ctx') (hv : ValidClauses ctx)
    {c' : SolverContext} (hup : unitPropagation ctx = some (c, none))
    (hup' : unitPropagation ctx' = some (c', none)) : c'.assignments = c.assignments := by
  have hv' := h.valid hv
  have hsteps := (propagated_of_unitPropagation hv' hup').steps.rearranged h.symm.rearranged
  rw [h.value] at hsteps
  have hsettled : ∀ C ∈ ctx.state.clauses, Settled c'.state.value C := by
    intro C hC
    obtain ⟨D, hD, hperm⟩ := h.rearranged.exists_perm hC
    exact (settled_of_unitPropagation hv' hup' D hD).perm hperm.symm
  have hleast := (outcome_of_unitPropagation hv hup).2
  have heq := (hsteps.isLeastClosed hsettled).unique hleast
  funext v
  exact Assignment.toOption_injective (congrFun heq v)

/-- **Unit propagation is confluent and complete.** It terminates from every assignment, ends in a
falsified clause or in the least closed extension, and does the same over rearranged clauses. -/
theorem unitPropagation_confluent (hv : ValidClauses ctx) :
    ∃ c o, unitPropagation ctx = some (c, o) ∧ PropagationOutcome ctx c o ∧
      ∀ ctx', SameClauses ctx ctx' → ∃ c' o', unitPropagation ctx' = some (c', o') ∧
        PropagationOutcome ctx' c' o' ∧ (o'.isSome ↔ o.isSome) ∧
        (o = none → c'.assignments = c.assignments) := by
  have hterminates : ∀ {ctx : SolverContext}, ValidClauses ctx →
      ∃ c o, unitPropagation ctx = some (c, o) := by
    intro ctx hv
    obtain ⟨c, o, hup, -⟩ := unitPropagationLoop_isSome hv.idsInRange
      (Nat.lt_succ_of_le (length_unassignedVars_le ctx))
    exact ⟨c, o, hup⟩
  obtain ⟨c, o, hup⟩ := hterminates hv
  refine ⟨c, o, hup, outcome_of_unitPropagation hv hup, fun ctx' hsame => ?_⟩
  have hv' := hsame.valid hv
  obtain ⟨c', o', hup'⟩ := hterminates hv'
  refine ⟨c', o', hup', outcome_of_unitPropagation hv' hup', ?_, ?_⟩
  · cases o with
    | none =>
        have hnone := hsame.no_conflict hv hup hup'
        subst hnone
        exact Iff.rfl
    | some id =>
        cases o' with
        | none =>
            have hnone := hsame.symm.no_conflict hv' hup' hup
            cases hnone
        | some id' => exact ⟨fun _ => rfl, fun _ => rfl⟩
  · intro hnone
    subst hnone
    have hnone' := hsame.no_conflict hv hup hup'
    subst hnone'
    exact hsame.assignments_eq hv hup hup'

/-- 1 is on; the first clause then asks for 2 off and the second one for 3. -/
def halfway : SolverContext where
  config := {}
  vars := [⟨⟨1⟩, .on, {}⟩, ⟨⟨2⟩, .notAssigned, {}⟩, ⟨⟨3⟩, .notAssigned, {}⟩]
  clauses := [⟨[(⟨2⟩, 1), (⟨3⟩, 2)], ⟨some 1, some 2⟩⟩, ⟨[(⟨-1⟩, 0), (⟨-2⟩, 1)], ⟨some 1, none⟩⟩]

theorem unitPropagation_confluent_halfway :
    ∃ c o, unitPropagation halfway = some (c, o) ∧ PropagationOutcome halfway c o ∧
      ∀ ctx', SameClauses halfway ctx' → ∃ c' o', unitPropagation ctx' = some (c', o') ∧
        PropagationOutcome ctx' c' o' ∧ (o'.isSome ↔ o.isSome) ∧
        (o = none → c'.assignments = c.assignments) :=
  unitPropagation_confluent ⟨by decide, by decide⟩

end Fabko.Sat
