import Fabko.Sat.Refinement

set_option autoImplicit false

/-! # The context a solver starts with

The constructor of `solver_context` succeeds on every well-formed model, and the context it
returns is the empty search state over the clauses of the model. -/

namespace Fabko.Sat

open Cnf Cdcl

theorem sameAssignment_bumpVar (x : Var) : SameAssignment (bumpVar x) x := ⟨rfl, rfl, rfl, rfl⟩

theorem findVar_eq_some {vars : List Var} {l : Literal} {id : VarId}
    (h : findVar vars l = some id) :
    id < vars.length ∧ (vars.getD id default).literal.value = l.value := by
  obtain ⟨hlt, hp, -⟩ := List.findIdx?_eq_some_iff_getElem.mp h
  refine ⟨hlt, ?_⟩
  rw [List.getD_eq_getElem _ _ hlt]
  simpa [Literal.same] using hp

theorem findVar_isSome {vars : List Var} {l : Literal}
    (h : ∃ x ∈ vars, x.literal.value = l.value) : ∃ id, findVar vars l = some id := by
  obtain ⟨x, hx, hv⟩ := h
  rcases hf : findVar vars l with _ | id
  · have hno := List.findIdx?_eq_none_iff.mp hf x hx
    simp [Literal.same, hv] at hno
  · exact ⟨id, rfl⟩

/-! ## One clause -/

theorem mapClause_ok {ls : List Literal} {vars vars' : List Var} {c : Clause}
    (h : mapClause ls vars = .ok (c, vars')) :
    SameAssignments vars' vars ∧ c.map Prod.fst = ls ∧
      ∀ p ∈ c, p.2 < vars.length ∧ (vars.getD p.2 default).literal.value = p.1.value := by
  induction ls generalizing vars vars' c with
  | nil =>
      simp only [mapClause, Except.ok.injEq, Prod.mk.injEq] at h
      obtain ⟨rfl, rfl⟩ := h
      exact ⟨SameAssignments.refl _, rfl, fun p hp => by cases hp⟩
  | cons l ls ih =>
      unfold mapClause at h
      split at h
      · cases h
      · rename_i id hid
        split at h
        · cases h
        · rename_i c' vars'' hrec
          simp only [Except.ok.injEq, Prod.mk.injEq] at h
          obtain ⟨rfl, rfl⟩ := h
          obtain ⟨hsame, hfst, hlink⟩ := ih hrec
          -- the rest of the clause is resolved after this occurrence was counted
          have hbump := SameAssignments.modify sameAssignment_bumpVar vars id
          refine ⟨hsame.trans hbump, by rw [List.map_cons, hfst], fun p hp => ?_⟩
          rcases List.mem_cons.mp hp with rfl | hp'
          · exact findVar_eq_some hid
          · obtain ⟨hlt, hval⟩ := hlink p hp'
            rw [List.length_modify] at hlt
            refine ⟨hlt, ?_⟩
            rw [← (hbump.getD p.2).literal]
            exact hval

theorem mapClause_isOk {ls : List Literal} {vars : List Var}
    (h : ∀ l ∈ ls, l.value ∈ (vars.map Var.literal).map Literal.value) :
    ∃ c vars', mapClause ls vars = .ok (c, vars') := by
  induction ls generalizing vars with
  | nil => exact ⟨[], vars, rfl⟩
  | cons l ls ih =>
      have hl : ∃ x ∈ vars, x.literal.value = l.value := by
        simpa using h l List.mem_cons_self
      obtain ⟨id, hid⟩ := findVar_isSome hl
      have hrest : ∀ l' ∈ ls,
          l'.value ∈ ((vars.modify id bumpVar).map Var.literal).map Literal.value := by
        intro l' hl'
        rw [map_literal_modify vars id (fun x => (sameAssignment_bumpVar x).literal)]
        exact h l' (List.mem_cons_of_mem l hl')
      obtain ⟨c, vars', hc⟩ := ih hrest
      exact ⟨(l, id) :: c, vars', by simp [mapClause, hid, hc]⟩

/-! ## All clauses -/

theorem insertClauses_ok {cs : List (List Literal)} {vars vars' : List Var}
    {rows : List ClauseRow} (h : insertClauses cs vars = .ok (rows, vars')) :
    SameAssignments vars' vars ∧ rows.map (fun row => row.clause.map Prod.fst) = cs ∧
      ∀ row ∈ rows, ∀ p ∈ row.clause,
        p.2 < vars.length ∧ (vars.getD p.2 default).literal.value = p.1.value := by
  induction cs generalizing vars vars' rows with
  | nil =>
      simp only [insertClauses, Except.ok.injEq, Prod.mk.injEq] at h
      obtain ⟨rfl, rfl⟩ := h
      exact ⟨SameAssignments.refl _, rfl, fun row hrow => by cases hrow⟩
  | cons ls cs ih =>
      unfold insertClauses at h
      split at h
      · cases h
      · rename_i c vars₁ hc
        split at h
        · cases h
        · split at h
          · cases h
          · rename_i rows' vars₂ hrec
            simp only [Except.ok.injEq, Prod.mk.injEq] at h
            obtain ⟨rfl, rfl⟩ := h
            obtain ⟨hsame₁, hfst, hlink₁⟩ := mapClause_ok hc
            obtain ⟨hsame₂, hrows, hlink₂⟩ := ih hrec
            refine ⟨hsame₂.trans hsame₁, by rw [List.map_cons, hrows, hfst], ?_⟩
            intro row hrow p hp
            rcases List.mem_cons.mp hrow with rfl | hrow'
            · exact hlink₁ p hp
            · obtain ⟨hlt, hval⟩ := hlink₂ row hrow' p hp
              refine ⟨hsame₁.length_eq ▸ hlt, ?_⟩
              rw [← (hsame₁.getD p.2).literal]
              exact hval

theorem insertClauses_isOk {cs : List (List Literal)} {vars : List Var}
    (hne : ∀ c ∈ cs, c ≠ [])
    (h : ∀ c ∈ cs, ∀ l ∈ c, l.value ∈ (vars.map Var.literal).map Literal.value) :
    ∃ rows vars', insertClauses cs vars = .ok (rows, vars') := by
  induction cs generalizing vars with
  | nil => exact ⟨[], vars, rfl⟩
  | cons ls cs ih =>
      obtain ⟨c, vars₁, hc⟩ := mapClause_isOk (h ls List.mem_cons_self)
      obtain ⟨hsame, hfst, -⟩ := mapClause_ok hc
      have hcne : c ≠ [] := by
        rintro rfl
        exact hne ls List.mem_cons_self hfst.symm
      have hrest : ∀ c ∈ cs, ∀ l ∈ c, l.value ∈ (vars₁.map Var.literal).map Literal.value := by
        intro c' hc' l hl
        rw [hsame.map_literal]
        exact h c' (List.mem_cons_of_mem ls hc') l hl
      obtain ⟨rows, vars₂, hr⟩ := ih (fun c hc => hne c (List.mem_cons_of_mem ls hc)) hrest
      exact ⟨⟨c, watch vars₁ c⟩ :: rows, vars₂, by simp [insertClauses, hc, hcne, hr]⟩

/-! ## The constructor -/

/-- **No assertion fires on a well-formed model.** -/
theorem solverContext_isOk {m : Model} (hm : m.WellFormed) :
    ∃ ctx, solverContext m = .ok ctx := by
  have hdecl : ∀ c ∈ m.clauses, ∀ l ∈ c, l.value ∈
      (((m.literals.map (fun l => ({ literal := l } : Var))).map Var.literal).map
        Literal.value) := by
    intro c hc l hl
    rw [List.map_map]
    simpa [Function.comp_def] using hm.declared c hc l hl
  obtain ⟨rows, vars, h⟩ := insertClauses_isOk hm.nonempty hdecl
  refine ⟨{ config := m.conf, vars := vars, clauses := rows }, ?_⟩
  simp only [solverContext, h]

/-- What a fresh context is. -/
structure Fresh (m : Model) (ctx : SolverContext) : Prop where
  config : ctx.config = m.conf
  trail : ctx.trail = []
  level : ctx.currentDecisionLevel = 0
  conflictCount : ctx.conflictCountSinceLastRestart = 0
  unassigned : ∀ v, (ctx.var v).assignment = .notAssigned
  unforced : ∀ v, (ctx.var v).context.clausePropagation = none
  clauses : ctx.clauses.map (fun row => row.clause.map Prod.fst) = m.clauses
  linked : Linked m ctx

theorem fresh_of_solverContext {m : Model} {ctx : SolverContext}
    (h : solverContext m = .ok ctx) : Fresh m ctx := by
  unfold solverContext at h
  split at h
  · cases h
  · rename_i rows vars hins
    simp only [Except.ok.injEq] at h
    subst h
    obtain ⟨hsame, hrows, hlink⟩ := insertClauses_ok hins
    set blank : List Var := m.literals.map (fun l => ({ literal := l } : Var)) with hblank
    have hlit : blank.map Var.literal = m.literals := by
      rw [hblank, List.map_map]
      simp [Function.comp_def]
    have hnew : ∀ v, (blank.getD v default).assignment = .notAssigned ∧
        (blank.getD v default).context.clausePropagation = none := by
      intro v
      rw [hblank, List.getD_eq_getElem?_getD, List.getElem?_map]
      rcases m.literals[v]? with _ | l <;> exact ⟨rfl, rfl⟩
    have hun : ∀ v, (vars.getD v default).context.clausePropagation = none := fun v =>
      (hsame.getD v).clausePropagation.trans (hnew v).2
    refine ⟨rfl, rfl, rfl, rfl, fun v => (hsame.getD v).assignment.trans (hnew v).1, hun, hrows,
      hsame.map_literal.trans hlit, ?_, ?_, ?_⟩
    · -- no clause but those of the model
      exact ⟨[], by rw [List.append_nil]; exact hrows.symm⟩
    · intro row hrow p hp
      obtain ⟨hlt, hval⟩ := hlink row hrow p hp
      have hlen : blank.length = m.literals.length := by rw [hblank, List.length_map]
      refine ⟨hlen ▸ hlt, ?_⟩
      rw [← hval, Model.varValue, ← hlit]
      simp [hlt]
    · intro v id hv
      have hv' : (vars.getD v default).context.clausePropagation = some id := hv
      rw [hun v] at hv'
      cases hv'

namespace Fresh

variable {m : Model} {ctx : SolverContext}

theorem entailed (h : Fresh m ctx) : ∀ C ∈ ctx.state.clauses, Entails (models m) C := by
  intro C hC
  obtain ⟨row, hrow, rfl⟩ := List.mem_map.mp hC
  refine (entails_toCnf_iff (h.linked.resolved row hrow)).mpr (fun σ hσ => hσ _ ?_)
  rw [← h.clauses]
  exact List.mem_map_of_mem hrow

theorem wf (h : Fresh m ctx) : Wf (models m) ctx.state := by
  have htrail : ctx.state.trail = [] := by
    show ctx.trail.reverse = []
    rw [h.trail, List.reverse_nil]
  have hval : ∀ v, ctx.state.value v = none := fun v =>
    Assignment.toOption_eq_none.mpr (h.unassigned v)
  refine ⟨?_, ?_, ?_, ?_, ?_, ?_, h.entailed, ?_⟩
  · rw [htrail]
    exact List.nodup_nil
  · intro v
    simp [htrail, hval v]
  · rw [htrail]
    exact List.Pairwise.nil
  · intro v hv
    rw [htrail] at hv
    cases hv
  · rw [htrail]
    trivial
  · intro k hk hle
    have : ctx.state.current = 0 := h.level
    omega
  · intro v _
    show ctx.reasonOf v = none
    rw [SolverContext.reasonOf, h.unforced v]
    rfl

theorem quiet (h : Fresh m ctx) : Quiet ctx.state := by
  intro k hk
  have : ctx.state.current = 0 := h.level
  omega

end Fresh

end Fabko.Sat
