import Fabko.Sat.Runs

set_option autoImplicit false

/-! # The answers of `solve_sat`

What a call returns is right, whatever calls came before it: `unsatisfiable` means that no
valuation satisfies the clauses of the model, and a result is a satisfying valuation of the
declared variables. Both hold for every growth of the restart threshold and every choice of
decision variables, so in particular for `solveSat`. -/

namespace Fabko.Sat

open Cnf Cdcl

variable {m : Model} {ctx ctx' : SolverContext} {mul : Nat → Nat → Nat}

/-- The valuation a result stands for: a variable is true where its positive literal is listed. -/
def valuation (res : SolverResult) : Nat → Bool := fun n => decide (⟨(n : Int)⟩ ∈ res)

/-- One literal for each declared variable, in the order of declaration, and every clause of the
model holds. -/
structure IsSolution (m : Model) (res : SolverResult) : Prop where
  declared : res.map Literal.value = m.literals.map Literal.value
  satisfies : m.SatisfiedBy (valuation res)

/-- What an answer promises. `sat_error::error` is never returned. -/
def Correct (m : Model) : Except SatError SolverResult → Prop
  | .ok res => IsSolution m res
  | .error .unsatisfiable => ¬ m.Satisfiable
  | .error .error => False

/-! ## `unsatisfiable` -/

theorem exists_mem_models (h : m.Satisfiable) : ∃ τ, τ ∈ models m := by
  obtain ⟨σ, hσ⟩ := h
  exact ⟨_, σ, hσ, rfl⟩

/-- Either test by which `solve_sat` gives up refutes the model. -/
theorem Conflict.not_satisfiable (hm : m.WellFormed) {id : ClauseId} (h : Conflict m ctx id)
    (hr : ReportsUnsatisfiable ctx (resolveConflict ctx (ctx.clause id))) : ¬ m.Satisfiable := by
  intro hsat
  rcases exists_mem_models hsat with ⟨τ, hτ⟩
  rcases hr with ⟨hlevel, -⟩ | hnil
  · exact not_mem_of_conflict h.good.wf (Linked.toCnf_mem_clauses h.lt) h.falsified hlevel τ hτ
  · -- the empty clause is entailed
    rcases (h.spec hm).entailed τ hτ with ⟨l, hl, -⟩
    rw [hnil] at hl
    cases hl

/-! ## A result -/

theorem Literal.value_natCast (n : Nat) : (⟨(n : Int)⟩ : Literal).value = n := Int.natAbs_natCast n

theorem Literal.value_neg_natCast (n : Nat) : (⟨-(n : Int)⟩ : Literal).value = n := by
  rw [Literal.value, Int.natAbs_neg]
  exact Int.natAbs_natCast n

theorem map_value_readSolution (hl : Linked m ctx) :
    (readSolution ctx).map Literal.value = m.literals.map Literal.value := by
  rw [← hl.literals, readSolution, List.map_map, List.map_map]
  apply List.map_congr_left
  intro x _
  show (if x.assignment = .on then (⟨(x.literal.value : Int)⟩ : Literal)
    else ⟨-(x.literal.value : Int)⟩).value = x.literal.value
  split
  · exact Literal.value_natCast _
  · exact Literal.value_neg_natCast _

/-- The result gives a variable the value its record has. -/
theorem valuation_readSolution (hm : m.WellFormed) (hl : Linked m ctx) {v : VarId}
    (hv : v < m.literals.length) :
    valuation (readSolution ctx) (m.varValue v) = decide ((ctx.var v).assignment = .on) := by
  have hpos : 0 < m.varValue v := Nat.pos_of_ne_zero (Model.varValue_ne_zero hm hv)
  have hvlt : v < ctx.vars.length := by
    rw [hl.length_vars]
    exact hv
  rw [valuation, Bool.eq_iff_iff, decide_eq_true_eq, decide_eq_true_eq, readSolution, List.mem_map]
  constructor
  · rintro ⟨x, hx, heq⟩
    obtain ⟨j, hj, rfl⟩ := List.getElem_of_mem hx
    have hvar : ctx.var j = ctx.vars[j] := List.getD_eq_getElem _ _ hj
    have hval : (ctx.vars[j]).literal.value = m.varValue j := hvar ▸ hl.literal_value j
    split at heq
    · -- a positive literal of the same absolute value is that of `v` itself
      rename_i hon
      have hint : ((ctx.vars[j]).literal.value : Int) = m.varValue v := by
        simpa using heq
      have hjv : m.varValue j = m.varValue v := by
        rw [← hval]
        exact_mod_cast hint
      rw [← Model.varValue_inj hm (hl.length_vars ▸ hj) hv hjv, hvar]
      exact hon
    · have hint : -((ctx.vars[j]).literal.value : Int) = m.varValue v := by
        simpa using heq
      omega
  · intro hon
    refine ⟨ctx.var v, ?_, ?_⟩
    · rw [SolverContext.var, List.getD_eq_getElem _ _ hvlt]
      exact List.getElem_mem hvlt
    · rw [if_pos hon, hl.literal_value]

/-- A literal that is true under the assignment holds in the result. -/
theorem holds_readSolution (hm : m.WellFormed) (hl : Linked m ctx) {p : Literal × VarId}
    (hp : m.Resolved p) (h : TrueUnder ctx.assignments p) :
    p.1.Holds (valuation (readSolution ctx)) := by
  rw [Literal.Holds, hp.value_eq, valuation_readSolution hm hl hp.lt]
  rcases h with ⟨hon, ha⟩ | ⟨hoff, ha⟩
  · have ha' : (ctx.var p.2).assignment = .on := ha
    simp [hon, ha']
  · have ha' : (ctx.var p.2).assignment = .off := ha
    rw [Literal.isOff_eq_not_isOn (hp.ne_zero hm)] at hoff
    have hon : p.1.isOn = false := by simpa using hoff
    simp [hon, ha']

theorem isSolution_readSolution (hm : m.WellFormed) (hl : Linked m ctx)
    (hs : isSatSolved ctx = true) : IsSolution m (readSolution ctx) := by
  refine ⟨map_value_readSolution hl, fun c hc => ?_⟩
  -- the clauses of the model are the first of the context
  obtain ⟨row, hrow, rfl⟩ := List.mem_map.mp (hl.originals.subset hc)
  have hsat : isClauseSatisfied ctx row.clause = true := List.all_eq_true.mp hs row hrow
  have hres := hl.resolved row hrow
  rcases isClauseSatisfied_iff_trueUnder.mp hsat with ⟨p, hp, ht⟩
  exact ⟨p.1, List.mem_map_of_mem hp, holds_readSolution hm hl (hres p hp) ht⟩

/-! ## A call -/

theorem IterationSpec.correct (hm : m.WellFormed) {c : SolverContext}
    {r : Except SatError SolverResult} (hc : Reachable mul m ⟨.head, c⟩)
    (h : IterationSpec mul c ctx' (some r)) : Correct m r := by
  cases h with
  | unsatisfiable hup hr =>
      exact Conflict.not_satisfiable hm ((hc.trans (steps_of_unitPropagation hup)).inv hm) hr
  | solved hup _ hs _ =>
      exact isSolution_readSolution hm ((hc.trans (steps_of_unitPropagation hup)).linked hm) hs

theorem search_correct {choose : Nat → Chooser} {fuel : Nat} {r : Except SatError SolverResult}
    (hm : m.WellFormed) (hb : Between mul m ctx)
    (h : search mul choose fuel 0 ctx = some (ctx', r)) : Correct m r := by
  obtain ⟨c, hsteps, hspec⟩ := search_spec h
  exact hspec.correct hm (hb.reachable.trans hsteps)

/-- **`unsatisfiable` is right.** -/
theorem search_unsatisfiable {choose : Nat → Chooser} {fuel : Nat} (hm : m.WellFormed)
    (hb : Between mul m ctx)
    (h : search mul choose fuel 0 ctx = some (ctx', .error .unsatisfiable)) :
    ¬ m.Satisfiable :=
  search_correct hm hb h

/-- The four clauses over two variables: one decision, one learned clause, a conflict at level 0. -/
def allSigns : Model where
  literals := [⟨1⟩, ⟨2⟩]
  clauses := [[⟨1⟩, ⟨2⟩], [⟨1⟩, ⟨-2⟩], [⟨-1⟩, ⟨2⟩], [⟨-1⟩, ⟨-2⟩]]

theorem search_unsatisfiable_allSigns : ¬ allSigns.Satisfiable := by
  have hrun : ((solverContext allSigns).toOption.bind (fun ctx =>
      (solveSat 9 ctx).map Prod.snd)) = some (.error .unsatisfiable) := by decide +kernel
  obtain ⟨ctx, ctx', hctx, hs⟩ := exists_call hrun
  exact search_unsatisfiable (by decide) (Between.constructed hctx) hs

/-- **A result is a solution.** -/
theorem search_ok {choose : Nat → Chooser} {fuel : Nat} {res : SolverResult} (hm : m.WellFormed)
    (hb : Between mul m ctx) (h : search mul choose fuel 0 ctx = some (ctx', .ok res)) :
    res.map Literal.value = m.literals.map Literal.value ∧ m.SatisfiedBy (valuation res) :=
  ⟨(search_correct hm hb h).declared, (search_correct hm hb h).satisfies⟩

/-- Three of the four clauses. The first decision, 1 on, fails and is learned to be off. -/
def threeSigns : Model where
  literals := [⟨1⟩, ⟨2⟩]
  clauses := [[⟨1⟩, ⟨2⟩], [⟨-1⟩, ⟨2⟩], [⟨-1⟩, ⟨-2⟩]]

theorem search_ok_threeSigns :
    ([⟨-1⟩, ⟨2⟩] : SolverResult).map Literal.value = threeSigns.literals.map Literal.value ∧
      threeSigns.SatisfiedBy (valuation [⟨-1⟩, ⟨2⟩]) := by
  have hrun : ((solverContext threeSigns).toOption.bind (fun ctx =>
      (solveSat 9 ctx).map Prod.snd)) = some (.ok [⟨-1⟩, ⟨2⟩]) := by decide +kernel
  obtain ⟨ctx, ctx', hctx, hs⟩ := exists_call hrun
  exact search_ok (by decide) (Between.constructed hctx) hs

end Fabko.Sat
