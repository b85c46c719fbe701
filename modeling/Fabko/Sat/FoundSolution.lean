import Fabko.Sat.Dimacs
import Fabko.Sat.Backjump
import Fabko.Sat.Termination

set_option autoImplicit false

/-! # The end of the loop

`solve_sat` takes the literals of its answer being empty for `not solved yet`. An iteration that
finds every variable assigned and no conflict returns, unless the model declares no variable: then
the answer has no literal and the loop goes round with nothing left to do. -/

namespace Fabko.Sat

open Cnf Cdcl

variable {m : Model} {ctx ctx' : SolverContext} {mul : Nat → Nat → Nat} {f g : Frame}

/-- Without a conflict and an unassigned variable the check succeeds and the iteration returns; an
iteration that does not return changes the context. -/
structure FoundSolutionEnds (mul : Nat → Nat → Nat) (choose : Chooser) (ctx : SolverContext) :
    Prop where
  returns : ∀ c, unitPropagation (restartIfDue mul ctx) = some (c, none) →
    makeDecision choose c = none →
      isSatSolved c = true ∧ ∃ res, iteration mul choose ctx = some (c, some (.ok res))
  changes : ∀ ctx', iteration mul choose ctx = some (ctx', none) → ctx' ≠ ctx

/-! ## Decisions are counted -/

theorem Step.decisions_le (hs : Step mul f g) :
    f.ctx.statistics.decisions ≤ g.ctx.statistics.decisions := by
  cases hs with
  | @restart ctx =>
      show ctx.statistics.decisions ≤ (restartIfDue mul ctx).statistics.decisions
      refine restartIfDue_induct mul ctx ?_ ?_
      · exact le_refl _
      · exact le_refl _
  | @unit ctx ctx' id n hid h =>
      -- a counted clause is one that assigned its variable
      rcases propagate_outcome ctx id n with he | he | ⟨u, -, -, he⟩
      · rw [h] at he
        cases he
      · rw [h] at he
        cases he
      · rw [h, Pass.mk.injEq] at he
        rw [show ctx' = assignUnit ctx id u from he.1]
        exact le_refl _
  | count n => exact le_refl _
  | conflict hid h => exact le_refl _
  | quiet h => exact le_refl _
  | unsatisfiable h => exact le_refl _
  | @learn ctx id r hr h =>
      show ctx.statistics.decisions ≤
        (learnAdditionalClause ctx r.learnedClause).statistics.decisions
      unfold learnAdditionalClause
      split <;> exact le_refl _
  | backtrack => exact le_refl _
  | activity hup =>
      obtain ⟨-, rfl⟩ := updateVsidsActivity_eq_some_iff.mp hup
      exact le_refl _
  | decide hv => exact Nat.le_succ _
  | finish h => exact le_refl _

theorem Steps.decisions_le (hs : Steps mul f g) :
    f.ctx.statistics.decisions ≤ g.ctx.statistics.decisions := by
  induction hs with
  | refl => exact le_refl _
  | tail _ hstep ih => exact ih.trans hstep.decisions_le

/-! ## The iteration -/

/-- The learned clause or the counted decision tells the contexts apart. -/
theorem IterationSpec.ne (hm : m.WellFormed) (hne : m.literals ≠ [])
    (h : Reachable mul m ⟨.head, ctx⟩) (hs : IterationSpec mul ctx ctx' none) : ctx' ≠ ctx := by
  cases hs with
  | @learned c id r hup hr hn hd =>
      have hconf := h.trans (steps_of_unitPropagation hup)
      have ho : Origin m (countConflict c) r := hr ▸ Conflict.origin hm (hconf.inv hm) (hr ▸ hn)
      have hlen : (afterConflict (countConflict c) r).clauses.length = ctx.clauses.length + 1 :=
        calc (afterConflict (countConflict c) r).clauses.length
            = c.clauses.length + 1 := clauses_afterConflict ho
          _ = ctx.clauses.length + 1 := by rw [clauses_of_unitPropagation hup]
      intro heq
      have hsame : (afterConflict (countConflict c) r).clauses.length = ctx.clauses.length :=
        congrArg (fun x => x.clauses.length) heq
      omega
  | @decided c v hup hv =>
      have hlt : ctx.statistics.decisions < (decideOn c v).statistics.decisions :=
        calc ctx.statistics.decisions ≤ c.statistics.decisions :=
              Steps.decisions_le (steps_of_unitPropagation hup)
          _ < (decideOn c v).statistics.decisions := Nat.lt_succ_self _
      intro heq
      rw [heq] at hlt
      omega
  | unsolved hup hall hs =>
      have hq : Inv m ⟨.quiet, ctx'⟩ := (h.trans (steps_of_unitPropagation hup)).inv hm
      exact absurd hs (not_unsolved hm hne hq.1.linked hq.2 hall)

/-- What an iteration does that finds nothing left to assign. -/
theorem iteration_of_makeDecision_eq_none {choose : Chooser} {c : SolverContext}
    (hup : unitPropagation (restartIfDue mul ctx) = some (c, none))
    (hd : makeDecision choose c = none) (hs : isSatSolved c = true) :
    iteration mul choose ctx =
      some (c, if (readSolution c).isEmpty then none else some (.ok (readSolution c))) := by
  simp only [iteration, hup, hd, hs, if_true]

theorem makeDecision_eq_none {choose : Chooser} {c : SolverContext} :
    makeDecision choose c = none ↔ unassignedVars c = [] := by
  rw [makeDecision, Option.map_eq_none_iff]
  constructor
  · exact choose.pick_eq_none c
  · intro hall
    rcases hp : choose.pick c with _ | v
    · rfl
    · have hmem := choose.mem_of_pick c v hp
      rw [hall] at hmem
      cases hmem

/-! ## Models without a variable -/

theorem satisfiable_of_literals_eq_nil (hm : m.WellFormed) (hnil : m.literals = []) :
    m.Satisfiable := by
  refine ⟨fun _ => true, fun c hc => ?_⟩
  obtain ⟨l, ls, hl⟩ := List.exists_cons_of_ne_nil (hm.nonempty c hc)
  have hdecl := hm.declared c hc l (hl ▸ List.mem_cons_self)
  rw [hnil] at hdecl
  cases hdecl

/-- A clause over no variables would be empty, and the model entails no empty clause. -/
theorem Conflict.literals_ne_nil (hm : m.WellFormed) {id : ClauseId} (h : Conflict m ctx id) :
    m.literals ≠ [] := by
  intro hnil
  obtain ⟨τ, hτ⟩ := exists_mem_models (satisfiable_of_literals_eq_nil hm hnil)
  obtain ⟨l, hl, -⟩ := h.good.wf.entailed _ (Linked.toCnf_mem_clauses h.lt) τ hτ
  obtain ⟨p, hp, -⟩ := mem_toCnf.mp hl
  have hlt := (h.good.linked.resolved_clause h.lt p hp).lt
  rw [hnil] at hlt
  exact Nat.not_lt_zero _ hlt

theorem readSolution_eq_nil (hl : Linked m ctx) (hnil : m.literals = []) :
    readSolution ctx = [] := by
  have hlen : ctx.vars = [] := List.map_eq_nil_iff.mp (hl.literals.trans hnil)
  rw [readSolution, hlen]
  rfl

theorem unassignedVars_eq_nil (hl : Linked m ctx) (hnil : m.literals = []) :
    unassignedVars ctx = [] := by
  have hlen : ctx.vars = [] := List.map_eq_nil_iff.mp (hl.literals.trans hnil)
  rw [unassignedVars, hlen]
  rfl

/-! ## The result -/

/-- **A found solution ends the loop** exactly when the model declares a variable. -/
theorem foundSolutionEnds_iff (hm : m.WellFormed) (choose : Chooser)
    (h : Reachable mul m ⟨.head, ctx⟩) :
    FoundSolutionEnds mul choose ctx ↔ m.literals ≠ [] := by
  have hquiet : ∀ {c : SolverContext},
      unitPropagation (restartIfDue mul ctx) = some (c, none) → Inv m ⟨.quiet, c⟩ :=
    fun hup => (h.trans (steps_of_unitPropagation hup)).inv hm
  constructor
  · -- without a variable nothing is assigned and nothing is answered
    intro hends hnil
    obtain ⟨c, o, hup, -⟩ := unitPropagation_isSome ((h.linked hm).restartIfDue mul)
    cases o with
    | some id =>
        have hconf : Conflict m (countConflict c) id :=
          (h.trans (steps_of_unitPropagation hup)).inv hm
        exact hconf.literals_ne_nil hm hnil
    | none =>
        have hl : Linked m c := (hquiet hup).1.linked
        have hd : makeDecision choose c = none :=
          makeDecision_eq_none.mpr (unassignedVars_eq_nil hl hnil)
        obtain ⟨hs, res, hret⟩ := hends.returns c hup hd
        rw [iteration_of_makeDecision_eq_none hup hd hs, readSolution_eq_nil hl hnil] at hret
        cases hret
  · intro hne
    refine ⟨fun c hup hd => ?_, fun c hit => (iteration_spec hit).ne hm hne h⟩
    have hq := hquiet hup
    have hs := isSatSolved_of_settled hm hq.1.linked hq.2 (makeDecision_eq_none.mp hd)
    have hres := readSolution_ne_nil hq.1.linked hne
    refine ⟨hs, readSolution c, ?_⟩
    rw [iteration_of_makeDecision_eq_none hup hd hs, if_neg (by simpa using hres)]

/-- The sample model at the head that is followed by the return: propagation leaves nothing to
assign. -/
theorem foundSolutionEnds_iff_backjumping :
    ∃ ctx c, Reachable mulUInt32 backjumping ⟨.head, ctx⟩ ∧
      unitPropagation (restartIfDue mulUInt32 ctx) = some (c, none) ∧
      makeDecision highestVsids c = none ∧
      ∃ res, iteration mulUInt32 highestVsids ctx = some (c, some (.ok res)) := by
  have hrun : ∃ ctx, Reachable mulUInt32 backjumping ⟨.head, ctx⟩ ∧
      (unitPropagation (restartIfDue mulUInt32 ctx)).map
        (fun p => (p.2, unassignedVars p.1)) = some (none, []) := by
    refine @exists_head mulUInt32 backjumping highestVsids 4 _ _ ?_
    decide +kernel
  obtain ⟨ctx, hreach, hup⟩ := hrun
  obtain ⟨⟨c, o⟩, hc, hnone⟩ := Option.map_eq_some_iff.mp hup
  obtain ⟨rfl, hall⟩ := Prod.mk.inj hnone
  have hd : makeDecision highestVsids c = none := makeDecision_eq_none.mpr hall
  have hends : FoundSolutionEnds mulUInt32 highestVsids ctx :=
    (foundSolutionEnds_iff (by decide) highestVsids hreach).mpr (by decide)
  exact ⟨ctx, c, hreach, hc, hd, (hends.returns c hc hd).2⟩

/-- The model of an empty file, read with the assertions on. Its first iteration leaves the new
context as it is, and so does every one after it. -/
theorem not_foundSolutionEnds_empty :
    ∃ m ctx, makeModelFromCnfFile libstdcxx false (.text []) = .ok m ∧
      Reachable mulUInt32 m ⟨.head, ctx⟩ ∧ ¬ FoundSolutionEnds mulUInt32 highestVsids ctx := by
  refine ⟨⟨[], [], {}⟩, { config := {}, vars := [], clauses := [] }, by decide +kernel,
    ⟨_, rfl, Relation.ReflTransGen.refl⟩, fun hends => ?_⟩
  exact hends.changes _ (by decide +kernel) rfl

end Fabko.Sat
