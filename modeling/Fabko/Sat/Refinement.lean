import Fabko.Sat.Assignments
import Fabko.Sat.Solver
import Fabko.Logic.Cdcl
import Mathlib.Data.List.GetD

set_option autoImplicit false

/-! # The solver context as a search state

`SolverContext.state` reads a context as a state of the clause-learning search of `Logic/Trail`:
clause ids become clauses, literals become literals over variable ids and the trail is reversed.
Each operation of the solver is then one move of that search, or no move at all. `Linked` is the
part of the invariant that has no counterpart there: the ids in the context are the ones the
constructor resolved. -/

namespace Fabko.Sat

open Cnf

/-- The reason of a record, as a clause over variable ids. -/
def SolverContext.reasonOf (ctx : SolverContext) (v : VarId) : Option (Cnf.Clause VarId) :=
  ((ctx.var v).context.clausePropagation).map (fun id => toCnf (ctx.clause id))

def SolverContext.state (ctx : SolverContext) : Cdcl.State VarId where
  clauses := ctx.clauses.map (fun row => toCnf row.clause)
  trail := ctx.trail.reverse
  value v := (ctx.var v).assignment.toOption
  level := ctx.levelOf
  reason := ctx.reasonOf
  current := ctx.currentDecisionLevel

/-- The ids in a context are the ones the constructor resolved for the model. -/
structure Linked (m : Model) (ctx : SolverContext) : Prop where
  literals : ctx.vars.map Var.literal = m.literals
  originals : m.clauses <+: ctx.clauses.map (fun row => row.clause.map Prod.fst)
  resolved : ∀ row ∈ ctx.clauses, ∀ p ∈ row.clause, m.Resolved p
  reasons : ∀ v id, (ctx.var v).context.clausePropagation = some id → id < ctx.clauses.length

/-! ## Reading the records -/

theorem getD_modify (vars : List Var) (f : Var → Var) (i j : Nat) :
    (vars.modify i f).getD j default
      = if i = j ∧ j < vars.length then f (vars.getD j default) else vars.getD j default := by
  simp only [List.getD_eq_getElem?_getD, List.getElem?_modify]
  by_cases hij : i = j
  · by_cases hj : j < vars.length
    · simp [hij, hj]
    · simp [hij, hj]
  · simp [hij]

theorem map_literal_modify (vars : List Var) (i : Nat) {f : Var → Var}
    (hf : ∀ x, (f x).literal = x.literal) :
    (vars.modify i f).map Var.literal = vars.map Var.literal := by
  apply List.ext_getElem?
  intro j
  simp only [List.getElem?_map, List.getElem?_modify]
  rcases vars[j]? with _ | x
  · simp
  · by_cases hij : i = j <;> simp [hij, hf]

theorem var_setVar_self {ctx : SolverContext} {id : VarId} (f : Var → Var)
    (h : id < ctx.vars.length) : (ctx.setVar id f).var id = f (ctx.var id) := by
  simp only [SolverContext.var, SolverContext.setVar, getD_modify]
  simp [h]

theorem var_setVar_of_ne {ctx : SolverContext} {id j : VarId} (f : Var → Var) (h : j ≠ id) :
    (ctx.setVar id f).var j = ctx.var j := by
  simp only [SolverContext.var, SolverContext.setVar, getD_modify]
  simp [Ne.symm h]

/-- The record that was written, where only the records of the two contexts are related. -/
theorem var_of_vars_eq_self {ctx ctx' : SolverContext} {id : VarId} {f : Var → Var}
    (hvars : ctx'.vars = (ctx.setVar id f).vars) (h : id < ctx.vars.length) :
    ctx'.var id = f (ctx.var id) := by
  rw [SolverContext.var, hvars]
  exact var_setVar_self f h

theorem var_of_vars_eq_of_ne {ctx ctx' : SolverContext} {id j : VarId} {f : Var → Var}
    (hvars : ctx'.vars = (ctx.setVar id f).vars) (h : j ≠ id) : ctx'.var j = ctx.var j := by
  rw [SolverContext.var, hvars]
  exact var_setVar_of_ne f h

/-- What a field of the records is after a write to one of them. -/
theorem read_setVar {α : Type*} {ctx : SolverContext} {id : VarId} (g : Var → α) (f : Var → Var)
    (h : id < ctx.vars.length) :
    (fun v => g ((ctx.setVar id f).var v))
      = Function.update (fun v => g (ctx.var v)) id (g (f (ctx.var id))) := by
  funext v
  by_cases hv : v = id
  · subst hv
    rw [var_setVar_self f h, Function.update_self]
  · rw [var_setVar_of_ne f hv, Function.update_of_ne hv]

theorem lt_length_of_assigned {ctx : SolverContext} {v : VarId}
    (h : (ctx.var v).assignment ≠ .notAssigned) : v < ctx.vars.length := by
  by_contra hge
  apply h
  rw [SolverContext.var, List.getD_eq_default _ _ (not_lt.mp hge)]
  rfl

theorem clause_mem {ctx : SolverContext} {id : ClauseId} (h : id < ctx.clauses.length) :
    ∃ row ∈ ctx.clauses, row.clause = ctx.clause id := by
  refine ⟨ctx.clauses[id], List.getElem_mem h, ?_⟩
  simp [SolverContext.clause, h]

/-- Every row of the clause store has an id. -/
theorem exists_clause_eq {ctx : SolverContext} {row : ClauseRow} (h : row ∈ ctx.clauses) :
    ∃ id < ctx.clauses.length, ctx.clause id = row.clause := by
  obtain ⟨id, hid, rfl⟩ := List.getElem_of_mem h
  exact ⟨id, hid, by simp [SolverContext.clause, hid]⟩

namespace Linked

variable {m : Model} {ctx : SolverContext}

theorem length_vars (h : Linked m ctx) : ctx.vars.length = m.literals.length := by
  rw [← h.literals, List.length_map]

theorem length_vars_eq {ctx' : SolverContext} (h' : Linked m ctx') (h : Linked m ctx) :
    ctx'.vars.length = ctx.vars.length :=
  calc ctx'.vars.length = m.literals.length := h'.length_vars
    _ = ctx.vars.length := h.length_vars.symm

/-- The absolute value stored in a record is the declared one. -/
theorem literal_value (h : Linked m ctx) (v : VarId) :
    (ctx.var v).literal.value = m.varValue v := by
  rw [Model.varValue, ← h.literals, SolverContext.var]
  by_cases hv : v < ctx.vars.length
  · simp [hv]
  · simp only [List.getD_eq_getElem?_getD]
    simp [hv]
    rfl

theorem resolved_clause (h : Linked m ctx) {id : ClauseId} (hid : id < ctx.clauses.length) :
    ∀ p ∈ ctx.clause id, m.Resolved p := by
  obtain ⟨row, hrow, heq⟩ := clause_mem hid
  rw [← heq]
  exact h.resolved row hrow

theorem lt_length (h : Linked m ctx) {p : Literal × VarId} (hp : m.Resolved p) :
    p.2 < ctx.vars.length := by
  rw [h.length_vars]
  exact hp.lt

theorem toCnf_mem_clauses {id : ClauseId} (hid : id < ctx.clauses.length) :
    toCnf (ctx.clause id) ∈ ctx.state.clauses := by
  obtain ⟨row, hrow, heq⟩ := clause_mem hid
  rw [← heq]
  exact List.mem_map_of_mem hrow

end Linked

/-! ## `unit_propagation` -/

section Propagation

variable {m : Model} {ctx : SolverContext}

theorem isClauseSatisfied_iff_trueUnder {ctx : SolverContext} {c : Clause} :
    isClauseSatisfied ctx c = true ↔ ∃ p ∈ c, TrueUnder ctx.assignments p := by
  rw [isClauseSatisfied, List.any_eq_true]
  simp [TrueUnder, SolverContext.assignments]

theorem isClauseSatisfied_iff (hm : m.WellFormed) {c : Clause} (hc : ∀ p ∈ c, m.Resolved p) :
    isClauseSatisfied ctx c = true ↔ Satisfied ctx.state.value (toCnf c) := by
  rw [isClauseSatisfied_iff_trueUnder]
  exact (satisfied_toCnf (fun p hp => (hc p hp).ne_zero hm)).symm

/-- **One clause of a pass.** The clause is settled, or it is falsified and becomes the conflict,
or it forces its only unassigned entry. -/
theorem propagate_cases_of_ne_zero {id : ClauseId} (hc : ∀ p ∈ ctx.clause id, p.1.value ≠ 0)
    (n : Nat) :
    (propagate ⟨ctx, none, n⟩ id = ⟨ctx, none, n⟩ ∧
      Settled ctx.state.value (toCnf (ctx.clause id))) ∨
    (propagate ⟨ctx, none, n⟩ id = ⟨ctx, some id, n⟩ ∧
      Falsified ctx.state.value (toCnf (ctx.clause id))) ∨
    ∃ u ∈ ctx.clause id, propagate ⟨ctx, none, n⟩ id = ⟨assignUnit ctx id u, none, n + 1⟩ ∧
      Forces ctx.state.value (toCnf (ctx.clause id)) (toLit u) := by
  have hsat : isClauseSatisfied ctx (ctx.clause id) = true ↔
      Satisfied ctx.state.value (toCnf (ctx.clause id)) :=
    isClauseSatisfied_iff_trueUnder.trans (satisfied_toCnf hc).symm
  by_cases hs : isClauseSatisfied ctx (ctx.clause id) = true
  · exact Or.inl ⟨by simp [propagate, hs], Or.inl (hsat.mp hs)⟩
  · have hns : ¬ Satisfied ctx.state.value (toCnf (ctx.clause id)) := fun h => hs (hsat.mpr h)
    have hopen : openLits ctx.state.value (toCnf (ctx.clause id))
        = toCnf (unassigned ctx (ctx.clause id)) := openLits_toCnf ctx.assignments _
    rcases hu : unassigned ctx (ctx.clause id) with _ | ⟨u, _ | ⟨u', us⟩⟩
    · rw [hu] at hopen
      exact Or.inr (Or.inl ⟨by simp [propagate, hs, hu], falsified_of_openLits_eq_nil hns hopen⟩)
    · rw [hu] at hopen
      have hmem : u ∈ unassigned ctx (ctx.clause id) := by rw [hu]; exact List.mem_singleton_self u
      exact Or.inr (Or.inr ⟨u, (List.mem_filter.mp hmem).1, by simp [propagate, hs, hu],
        hns, hopen⟩)
    · rw [hu] at hopen
      refine Or.inl ⟨by simp [propagate, hs, hu], Or.inr ?_⟩
      rw [hopen]
      simp [toCnf]

theorem propagate_cases (hm : m.WellFormed) (h : Linked m ctx) {id : ClauseId}
    (hid : id < ctx.clauses.length) (n : Nat) :
    (propagate ⟨ctx, none, n⟩ id = ⟨ctx, none, n⟩ ∧
      Settled ctx.state.value (toCnf (ctx.clause id))) ∨
    (propagate ⟨ctx, none, n⟩ id = ⟨ctx, some id, n⟩ ∧
      Falsified ctx.state.value (toCnf (ctx.clause id))) ∨
    ∃ u ∈ ctx.clause id, propagate ⟨ctx, none, n⟩ id = ⟨assignUnit ctx id u, none, n + 1⟩ ∧
      Forces ctx.state.value (toCnf (ctx.clause id)) (toLit u) :=
  propagate_cases_of_ne_zero (fun p hp => (h.resolved_clause hid p hp).ne_zero hm) n

/-! What each outcome says of the clause. -/

theorem forces_of_propagate (hm : m.WellFormed) (h : Linked m ctx) {id : ClauseId} {n : Nat}
    {ctx' : SolverContext} (hid : id < ctx.clauses.length)
    (hp : propagate ⟨ctx, none, n⟩ id = ⟨ctx', none, n + 1⟩) :
    ∃ u ∈ ctx.clause id, assignUnit ctx id u = ctx' ∧
      Forces ctx.state.value (toCnf (ctx.clause id)) (toLit u) := by
  rcases propagate_cases hm h hid n with ⟨he, -⟩ | ⟨he, -⟩ | ⟨u, hu, he, hf⟩
  · rw [he] at hp
    simp at hp
  · rw [he] at hp
    simp at hp
  · rw [he, Pass.mk.injEq] at hp
    exact ⟨u, hu, hp.1, hf⟩

theorem falsified_of_conflict {id : ClauseId} (hc : ∀ p ∈ ctx.clause id, p.1.value ≠ 0) {n : Nat}
    (h : propagate ⟨ctx, none, n⟩ id = ⟨ctx, some id, n⟩) :
    Falsified ctx.state.value (toCnf (ctx.clause id)) := by
  rcases propagate_cases_of_ne_zero hc n with ⟨he, -⟩ | ⟨-, hf⟩ | ⟨u, -, he, -⟩
  · rw [he] at h
    simp at h
  · exact hf
  · rw [he] at h
    simp at h

theorem falsified_of_propagate (hm : m.WellFormed) (h : Linked m ctx) {id : ClauseId} {n : Nat}
    (hid : id < ctx.clauses.length) (hp : propagate ⟨ctx, none, n⟩ id = ⟨ctx, some id, n⟩) :
    Falsified ctx.state.value (toCnf (ctx.clause id)) :=
  falsified_of_conflict (fun p hp => (h.resolved_clause hid p hp).ne_zero hm) hp

theorem settled_of_idle {id : ClauseId} (hc : ∀ p ∈ ctx.clause id, p.1.value ≠ 0) {n : Nat}
    (h : propagate ⟨ctx, none, n⟩ id = ⟨ctx, none, n⟩) :
    Settled ctx.state.value (toCnf (ctx.clause id)) := by
  rcases propagate_cases_of_ne_zero hc n with ⟨-, hs⟩ | ⟨he, -⟩ | ⟨u, -, he, -⟩
  · exact hs
  · rw [he] at h
    simp at h
  · rw [he] at h
    simp at h

theorem settled_of_propagate (hm : m.WellFormed) (h : Linked m ctx) {id : ClauseId} {n : Nat}
    (hid : id < ctx.clauses.length) (hp : propagate ⟨ctx, none, n⟩ id = ⟨ctx, none, n⟩) :
    Settled ctx.state.value (toCnf (ctx.clause id)) :=
  settled_of_idle (fun p hp => (h.resolved_clause hid p hp).ne_zero hm) hp

/-- A settled clause is skipped. -/
theorem propagate_of_settled (hm : m.WellFormed) (h : Linked m ctx) {id : ClauseId}
    (hid : id < ctx.clauses.length) (hs : Settled ctx.state.value (toCnf (ctx.clause id)))
    (n : Nat) : propagate ⟨ctx, none, n⟩ id = ⟨ctx, none, n⟩ := by
  rcases propagate_cases hm h hid n with ⟨he, -⟩ | ⟨-, hf⟩ | ⟨u, -, -, hf⟩
  · exact he
  · exact absurd hf hs.not_falsified
  · exact absurd hf (hs.not_forces _)

theorem state_assignUnit {id : ClauseId} {p : Literal × VarId} (hp : p.2 < ctx.vars.length) :
    (assignUnit ctx id p).state = ctx.state.propagate (toCnf (ctx.clause id)) (toLit p) := by
  have hsign : (if p.1.isOn then Assignment.on else .off).toOption = some p.1.isOn := by
    cases p.1.isOn <;> rfl
  apply Cdcl.State.ext
  · rfl
  · show (ctx.trail ++ [p.2]).reverse = p.2 :: ctx.trail.reverse
    simp
  · refine (read_setVar (fun x => x.assignment.toOption) _ hp).trans ?_
    exact congrArg (Function.update _ p.2) hsign
  · exact read_setVar (fun x => x.context.decisionLevel) _ hp
  · exact read_setVar (fun x => (x.context.clausePropagation).map (fun id => toCnf (ctx.clause id)))
      _ hp
  · rfl

theorem Linked.assignUnit (h : Linked m ctx) {id : ClauseId} {p : Literal × VarId}
    (hid : id < ctx.clauses.length) : Linked m (assignUnit ctx id p) := by
  refine ⟨?_, h.originals, h.resolved, fun v j hj => ?_⟩
  · rw [← h.literals]
    exact map_literal_modify _ _ (fun _ => rfl)
  · show j < ctx.clauses.length
    by_cases hv : v = p.2
    · by_cases hp : p.2 < ctx.vars.length
      · subst hv
        have hj' : ((ctx.setVar p.2 _).var p.2).context.clausePropagation = some j := hj
        rw [var_setVar_self _ hp] at hj'
        have hj'' : id = j := by simpa using hj'
        exact hj'' ▸ hid
      · -- a write beyond the end is lost
        have hout : (Fabko.Sat.assignUnit ctx id p).var v = default := by
          apply List.getD_eq_default _ _
          show (ctx.vars.modify p.2 _).length ≤ v
          rw [List.length_modify, hv]
          exact not_lt.mp hp
        rw [hout] at hj
        cases hj
    · have hj' : ((ctx.setVar p.2 _).var v).context.clausePropagation = some j := hj
      rw [var_setVar_of_ne _ hv] at hj'
      exact h.reasons v j hj'

end Propagation

/-! ## `make_decision` -/

theorem state_decideOn {ctx : SolverContext} {v : VarId} (hv : v < ctx.vars.length) :
    (decideOn ctx v).state = ctx.state.decide ⟨v, true⟩ := by
  apply Cdcl.State.ext
  · rfl
  · show (ctx.trail ++ [v]).reverse = v :: ctx.trail.reverse
    simp
  · exact read_setVar (fun x => x.assignment.toOption) _ hv
  · exact read_setVar (fun x => x.context.decisionLevel) _ hv
  · -- a decision writes no reason
    refine (read_setVar (fun x =>
      (x.context.clausePropagation).map (fun id => toCnf (ctx.clause id))) _ hv).trans ?_
    exact Function.update_eq_self v _
  · rfl

theorem Linked.decideOn {m : Model} {ctx : SolverContext} (h : Linked m ctx) {v : VarId}
    (hv : v < ctx.vars.length) : Linked m (decideOn ctx v) := by
  refine ⟨?_, h.originals, h.resolved, fun w j hj => ?_⟩
  · rw [← h.literals]
    exact map_literal_modify _ _ (fun _ => rfl)
  · apply h.reasons w j
    have hj' : ((ctx.setVar v _).var w).context.clausePropagation = some j := hj
    by_cases hw : w = v
    · subst hw
      rw [var_setVar_self _ hv] at hj'
      exact hj'
    · rw [var_setVar_of_ne _ hw] at hj'
      exact hj'

/-! ## `backtrack` -/

section Backtrack

variable {level : Nat}

theorem level_unassign (vars : List Var) (i j : Nat) :
    ((vars.modify i unassign).getD j default).context.decisionLevel
      = (vars.getD j default).context.decisionLevel := by
  rw [getD_modify]
  split <;> rfl

/-- The test of the loop reads decision levels, which the loop does not write. -/
theorem backtrackLoop_fst (t : List VarId) (vars : List Var) :
    (backtrackLoop level t vars).1 = t.dropWhile (fun v =>
      decide (level < (vars.getD v default).context.decisionLevel)) := by
  induction t generalizing vars with
  | nil => rfl
  | cons v t ih =>
      unfold backtrackLoop
      by_cases hv : (vars.getD v default).context.decisionLevel ≤ level
      · rw [if_pos hv, List.dropWhile_cons_of_neg (by simpa using hv)]
      · rw [if_neg hv, ih, List.dropWhile_cons_of_pos (by simpa using hv)]
        simp only [level_unassign]

theorem backtrackLoop_snd (t : List VarId) (vars : List Var) (w : VarId) :
    (backtrackLoop level t vars).2.getD w default
      = if w ∈ t.takeWhile (fun v =>
          decide (level < (vars.getD v default).context.decisionLevel))
        then unassign (vars.getD w default) else vars.getD w default := by
  induction t generalizing vars with
  | nil => rfl
  | cons v t ih =>
      unfold backtrackLoop
      by_cases hv : (vars.getD v default).context.decisionLevel ≤ level
      · rw [if_pos hv, List.takeWhile_cons_of_neg (by simpa using hv)]
        simp
      · rw [if_neg hv, ih, List.takeWhile_cons_of_pos (by simpa using hv)]
        simp only [level_unassign]
        by_cases hwv : v = w
        · subst hwv
          rw [if_pos (List.mem_cons_self : v ∈ v :: _)]
          by_cases hw : v < vars.length
          · -- unassigning twice is unassigning once
            rw [getD_modify, if_pos (And.intro rfl hw)]
            split <;> rfl
          · -- a record beyond the end reads as unassigned
            rw [getD_modify, if_neg (fun h : v = v ∧ v < vars.length => hw h.2),
              List.getD_eq_default _ _ (not_lt.mp hw)]
            split <;> rfl
        · rw [getD_modify, if_neg (fun h : v = w ∧ w < vars.length => hwv h.1)]
          simp only [List.mem_cons, Ne.symm hwv, false_or]

theorem backtrackLoop_literal (t : List VarId) (vars : List Var) :
    (backtrackLoop level t vars).2.map Var.literal = vars.map Var.literal := by
  induction t generalizing vars with
  | nil => rfl
  | cons v t ih =>
      unfold backtrackLoop
      split
      · rfl
      · rw [ih]
        exact map_literal_modify _ _ (fun _ => rfl)

theorem var_backtrack (ctx : SolverContext) (v : VarId) :
    (backtrack ctx level).var v
      = if v ∈ ctx.state.undone level then unassign (ctx.var v) else ctx.var v :=
  backtrackLoop_snd _ _ v

theorem levelOf_backtrack (ctx : SolverContext) (v : VarId) :
    (backtrack ctx level).levelOf v = ctx.levelOf v := by
  unfold SolverContext.levelOf
  rw [var_backtrack]
  split <;> rfl

theorem state_backtrack (ctx : SolverContext) :
    (backtrack ctx level).state = ctx.state.backjump level := by
  apply Cdcl.State.ext
  · rfl
  · show ((backtrackLoop level ctx.trail.reverse ctx.vars).1.reverse).reverse = _
    rw [List.reverse_reverse, backtrackLoop_fst]
    rfl
  · funext v
    show ((backtrack ctx level).var v).assignment.toOption = _
    rw [var_backtrack]
    show _ = if v ∈ ctx.state.undone level then none else (ctx.var v).assignment.toOption
    split <;> rfl
  · funext v
    exact levelOf_backtrack ctx v
  · funext v
    show (((backtrack ctx level).var v).context.clausePropagation).map
      (fun id => toCnf (ctx.clause id)) = _
    rw [var_backtrack]
    show _ = if v ∈ ctx.state.undone level then none else ctx.reasonOf v
    split <;> rfl
  · rfl

theorem Linked.backtrack {m : Model} {ctx : SolverContext} (h : Linked m ctx) :
    Linked m (backtrack ctx level) := by
  refine ⟨?_, h.originals, h.resolved, fun v j hj => ?_⟩
  · rw [← h.literals]
    exact backtrackLoop_literal _ _
  · rw [var_backtrack] at hj
    split at hj
    · cases hj
    · exact h.reasons v j hj

end Backtrack

/-! ## `learn_additional_clause` -/

section Learning

variable {m : Model} {ctx : SolverContext} {c : Clause}

theorem clause_learn_of_lt {id : ClauseId} (hid : id < ctx.clauses.length) :
    (learnAdditionalClause ctx c).clause id = ctx.clause id := by
  unfold learnAdditionalClause
  split
  · rfl
  · show ((((ctx.clauses ++ [_])[id]?).map ClauseRow.clause).getD []) = _
    rw [List.getElem?_append_left hid]
    rfl

theorem clause_learn_last (hc : c ≠ []) :
    (learnAdditionalClause ctx c).clause ctx.clauses.length = c := by
  simp [learnAdditionalClause, hc, SolverContext.clause]

theorem state_learn (h : Linked m ctx) (hc : c ≠ []) :
    (learnAdditionalClause ctx c).state = ctx.state.learn (toCnf c) := by
  have hvars : ∀ v, (learnAdditionalClause ctx c).var v = ctx.var v := by
    intro v
    unfold learnAdditionalClause
    split <;> rfl
  apply Cdcl.State.ext
  · show (learnAdditionalClause ctx c).clauses.map _ = ctx.clauses.map _ ++ [toCnf c]
    simp [learnAdditionalClause, hc]
  · show (learnAdditionalClause ctx c).trail.reverse = ctx.trail.reverse
    simp [learnAdditionalClause, hc]
  · funext v
    show ((learnAdditionalClause ctx c).var v).assignment.toOption = _
    rw [hvars]
    rfl
  · funext v
    show ((learnAdditionalClause ctx c).var v).context.decisionLevel = _
    rw [hvars]
    rfl
  · funext v
    show (((learnAdditionalClause ctx c).var v).context.clausePropagation).map _
      = ((ctx.var v).context.clausePropagation).map _
    rw [hvars]
    -- the ids of the reasons still mean the same clauses: learning appends
    rcases hr : (ctx.var v).context.clausePropagation with _ | id
    · rfl
    · simp [clause_learn_of_lt (h.reasons v id hr)]
  · show (learnAdditionalClause ctx c).currentDecisionLevel = _
    simp [learnAdditionalClause, hc, Cdcl.State.learn, SolverContext.state]

theorem Linked.learn (h : Linked m ctx) (hc : ∀ p ∈ c, m.Resolved p) :
    Linked m (learnAdditionalClause ctx c) := by
  unfold learnAdditionalClause
  split
  · exact h
  · refine ⟨h.literals, ?_, ?_, ?_⟩
    · apply h.originals.trans
      rw [List.map_append]
      exact List.prefix_append _ _
    · intro row hrow p hp
      rcases List.mem_append.mp hrow with hrow | hrow
      · exact h.resolved row hrow p hp
      · rw [List.mem_singleton.mp hrow] at hp
        exact hc p hp
    · intro v id hv
      apply lt_of_lt_of_le (h.reasons v id hv)
      rw [List.length_append]
      exact Nat.le_add_right _ _

end Learning

/-! ## Operations that leave the search state alone -/

/-- Two records that differ at most in their activity. -/
structure SameAssignment (x y : Var) : Prop where
  literal : x.literal = y.literal
  assignment : x.assignment = y.assignment
  decisionLevel : x.context.decisionLevel = y.context.decisionLevel
  clausePropagation : x.context.clausePropagation = y.context.clausePropagation

theorem SameAssignment.refl (x : Var) : SameAssignment x x := ⟨rfl, rfl, rfl, rfl⟩

theorem SameAssignment.trans {x y z : Var} (h₁ : SameAssignment x y) (h₂ : SameAssignment y z) :
    SameAssignment x z :=
  ⟨h₁.literal.trans h₂.literal, h₁.assignment.trans h₂.assignment,
    h₁.decisionLevel.trans h₂.decisionLevel, h₁.clausePropagation.trans h₂.clausePropagation⟩

/-- Two arrays of records that differ at most in their activities. -/
def SameAssignments (vars vars' : List Var) : Prop := List.Forall₂ SameAssignment vars vars'

theorem SameAssignments.refl (vars : List Var) : SameAssignments vars vars :=
  List.forall₂_same.mpr (fun x _ => SameAssignment.refl x)

theorem SameAssignments.trans {v₁ v₂ v₃ : List Var} (h₁ : SameAssignments v₁ v₂)
    (h₂ : SameAssignments v₂ v₃) : SameAssignments v₁ v₃ := by
  induction h₁ generalizing v₃ with
  | nil => exact h₂
  | cons hx _ ih =>
      cases h₂ with
      | cons hy hys => exact List.Forall₂.cons (hx.trans hy) (ih hys)

theorem SameAssignments.map {f : Var → Var} (hf : ∀ x, SameAssignment (f x) x)
    (vars : List Var) : SameAssignments (vars.map f) vars := by
  induction vars with
  | nil => exact List.Forall₂.nil
  | cons x vars ih => exact List.Forall₂.cons (hf x) ih

theorem SameAssignments.modify {f : Var → Var} (hf : ∀ x, SameAssignment (f x) x)
    (vars : List Var) (i : Nat) : SameAssignments (vars.modify i f) vars := by
  induction vars generalizing i with
  | nil => cases i <;> exact List.Forall₂.nil
  | cons x vars ih =>
      cases i with
      | zero => exact List.Forall₂.cons (hf x) (SameAssignments.refl vars)
      | succ i => exact List.Forall₂.cons (SameAssignment.refl x) (ih i)

theorem SameAssignments.getD {vars vars' : List Var} (h : SameAssignments vars vars') (i : Nat) :
    SameAssignment (vars.getD i default) (vars'.getD i default) := by
  induction h generalizing i with
  | nil => exact SameAssignment.refl _
  | cons hx _ ih =>
      cases i with
      | zero => exact hx
      | succ i => exact ih i

theorem SameAssignments.map_literal {vars vars' : List Var} (h : SameAssignments vars vars') :
    vars.map Var.literal = vars'.map Var.literal := by
  induction h with
  | nil => rfl
  | cons hx _ ih => rw [List.map_cons, List.map_cons, hx.literal, ih]

/-- An operation that writes activities and nothing a search state shows. -/
structure Stutters (ctx ctx' : SolverContext) : Prop where
  vars : SameAssignments ctx'.vars ctx.vars
  clauses : ctx'.clauses = ctx.clauses
  trail : ctx'.trail = ctx.trail
  current : ctx'.currentDecisionLevel = ctx.currentDecisionLevel

theorem Stutters.state_eq {ctx ctx' : SolverContext} (h : Stutters ctx ctx') :
    ctx'.state = ctx.state := by
  have hvar : ∀ v, SameAssignment (ctx'.var v) (ctx.var v) := fun v => h.vars.getD v
  apply Cdcl.State.ext
  · show ctx'.clauses.map _ = ctx.clauses.map _
    rw [h.clauses]
  · show ctx'.trail.reverse = ctx.trail.reverse
    rw [h.trail]
  · funext v
    show (ctx'.var v).assignment.toOption = (ctx.var v).assignment.toOption
    rw [(hvar v).assignment]
  · funext v
    exact (hvar v).decisionLevel
  · funext v
    show ctx'.reasonOf v = ctx.reasonOf v
    unfold SolverContext.reasonOf SolverContext.clause
    rw [(hvar v).clausePropagation, h.clauses]
  · exact h.current

theorem Stutters.linked {m : Model} {ctx ctx' : SolverContext} (h : Stutters ctx ctx')
    (hl : Linked m ctx) : Linked m ctx' := by
  refine ⟨?_, ?_, ?_, fun v id hv => ?_⟩
  · rw [h.vars.map_literal]
    exact hl.literals
  · rw [h.clauses]
    exact hl.originals
  · rw [h.clauses]
    exact hl.resolved
  · rw [h.clauses]
    apply hl.reasons v id
    rw [← hv]
    exact ((h.vars.getD v).clausePropagation).symm

theorem stutters_countConflict (ctx : SolverContext) : Stutters ctx (countConflict ctx) :=
  ⟨SameAssignments.refl _, rfl, rfl, rfl⟩

theorem stutters_countPropagations (ctx : SolverContext) (n : Nat) :
    Stutters ctx (countPropagations ctx n) :=
  ⟨SameAssignments.refl _, rfl, rfl, rfl⟩

theorem stutters_writeActivities (ctx : SolverContext) (c : Clause) :
    Stutters ctx (writeActivities ctx c) := by
  refine ⟨?_, rfl, rfl, rfl⟩
  have hscale : ∀ q x, SameAssignment (scaleActivity q x) x := fun _ _ => ⟨rfl, rfl, rfl, rfl⟩
  have hraise : ∀ q x, SameAssignment (raiseActivity q x) x := fun _ _ => ⟨rfl, rfl, rfl, rfl⟩
  have hbump : ∀ (inc : Int) (c : Clause) (vars : List Var),
      SameAssignments (c.foldl (fun vars p => vars.modify p.2 (raiseActivity inc)) vars) vars := by
    intro inc c
    induction c with
    | nil => exact fun vars => SameAssignments.refl vars
    | cons p c ih => exact fun vars => (ih _).trans (SameAssignments.modify (hraise inc) vars p.2)
  unfold writeActivities
  dsimp only
  split
  · refine (SameAssignments.map (hscale _) _).trans ((hbump _ _ _).trans ?_)
    split
    · exact SameAssignments.map (hscale _) _
    · exact SameAssignments.refl _
  · apply (hbump _ _ _).trans
    split
    · exact SameAssignments.map (hscale _) _
    · exact SameAssignments.refl _

theorem stutters_updateVsidsActivity {ctx ctx' : SolverContext} {c : Clause}
    (h : updateVsidsActivity ctx c = some ctx') : Stutters ctx ctx' := by
  obtain ⟨-, rfl⟩ := updateVsidsActivity_eq_some_iff.mp h
  exact stutters_writeActivities ctx c

end Fabko.Sat
