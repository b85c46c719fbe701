import Fabko.Sat.Runs

set_option autoImplicit false

/-! # What happens in a run

The events of the loop of `solve_sat`, in their order. A `Run` is any number of iterations, over any
number of calls, with the events in it. -/

namespace Fabko.Sat

open Cnf Cdcl

inductive Event where
  /-- The test of the `while`. -/
  | iteration
  | restart (threshold next : Nat)
  | backtrack (level : Nat)
  /-- A `count_if` over the clauses starts. -/
  | pass
  /-- `unit_propagation` gives a variable its value. -/
  | assign (id : VarId)
  | conflict (id : ClauseId)
  | learn (c : Clause)
  | decide (id : VarId) (level : Nat)
  | returned
deriving DecidableEq, Repr

namespace Event

def isConflict : Event → Bool
  | conflict _ => true
  | _ => false

def isRestart : Event → Bool
  | restart _ _ => true
  | _ => false

def isBacktrack : Event → Bool
  | backtrack _ => true
  | _ => false

def isLearn : Event → Bool
  | learn _ => true
  | _ => false

/-- The decision level the event leads to, if it writes it. -/
def level : Event → Nat
  | decide _ l => l
  | backtrack l => l
  | _ => 0

end Event

/-! ## The events of one iteration -/

section Iteration

variable (mul : Nat → Nat → Nat)

def restartEvents (ctx : SolverContext) : List Event :=
  if ctx.config.restartThreshold ≤ ctx.conflictCountSinceLastRestart then
    [.restart ctx.config.restartThreshold
      (mul ctx.config.restartThreshold ctx.config.restartMultiplier), .backtrack 0]
  else []

/-- A variable that is assigned goes to the end of the trail. -/
def passEvents (ctx : SolverContext) : List Event :=
  .pass :: ((propagatePass ctx).ctx.trail.drop ctx.trail.length).map .assign
    ++ ((propagatePass ctx).conflict.map .conflict).toList

def propagationEvents : Nat → SolverContext → List Event
  | 0, _ => []
  | fuel + 1, ctx =>
      let pass := propagatePass ctx
      passEvents ctx ++
        if pass.count = 0 then []
        else if pass.conflict.isSome then []
        else propagationEvents fuel (countPropagations pass.ctx pass.count)

def conflictEvents (ctx : SolverContext) (id : ClauseId) : List Event :=
  let r := resolveConflict ctx (ctx.clause id)
  if ctx.currentDecisionLevel = 0 ∧ r.backtrackLevel = 0 then [.returned]
  else if r.learnedClause.isEmpty then [.returned]
  else [.learn r.learnedClause, .backtrack r.backtrackLevel]

def decisionEvents (choose : Chooser) (ctx : SolverContext) : List Event :=
  match choose.pick ctx with
  | some v => [.decide v (ctx.currentDecisionLevel + 1)]
  | none => if isSatSolved ctx ∧ readSolution ctx ≠ [] then [.returned] else []

def iterationEvents (choose : Chooser) (ctx : SolverContext) : List Event :=
  let start := restartIfDue mul ctx
  .iteration :: restartEvents mul ctx ++ propagationEvents (start.vars.length + 1) start ++
    match unitPropagation start with
    | none => []
    | some (c, some id) => conflictEvents (countConflict c) id
    | some (c, none) => decisionEvents choose c

/-- The events of a call, as far as `fuel` iterations go. -/
def events (choose : Nat → Chooser) : Nat → Nat → SolverContext → List Event
  | 0, _, _ => []
  | fuel + 1, n, ctx =>
      iterationEvents mul (choose n) ctx ++
        match iteration mul (choose n) ctx with
        | some (c, none) => events choose fuel (n + 1) c
        | _ => []

/-- What an iteration does after propagation. -/
inductive Outcome (ctx : SolverContext) :
    SolverContext → Option (Except SatError SolverResult) → List Event → Prop
  | unsatisfiable {c : SolverContext} {id : ClauseId}
      (hup : unitPropagation (restartIfDue mul ctx) = some (c, some id))
      (hr : ReportsUnsatisfiable (countConflict c)
        (resolveConflict (countConflict c) ((countConflict c).clause id))) :
      Outcome ctx (countConflict c) (some (.error .unsatisfiable)) [.returned]
  | learned {c : SolverContext} {id : ClauseId} {r : ConflictResolutionResult}
      (hup : unitPropagation (restartIfDue mul ctx) = some (c, some id))
      (hr : resolveConflict (countConflict c) ((countConflict c).clause id) = r)
      (hn : ¬ ReportsUnsatisfiable (countConflict c) r) :
      Outcome ctx (afterConflict (countConflict c) r) none
        [.learn r.learnedClause, .backtrack r.backtrackLevel]
  | decided {c : SolverContext} {v : VarId}
      (hup : unitPropagation (restartIfDue mul ctx) = some (c, none))
      (hv : v ∈ unassignedVars c) :
      Outcome ctx (decideOn c v) none [.decide v (c.currentDecisionLevel + 1)]
  | solved {c : SolverContext}
      (hup : unitPropagation (restartIfDue mul ctx) = some (c, none)) :
      Outcome ctx c (some (.ok (readSolution c))) [.returned]
  | unsolved {c : SolverContext}
      (hup : unitPropagation (restartIfDue mul ctx) = some (c, none)) :
      Outcome ctx c none []

end Iteration

variable {mul : Nat → Nat → Nat}

theorem conflictEvents_of_reports {ctx : SolverContext} {id : ClauseId}
    (h : ReportsUnsatisfiable ctx (resolveConflict ctx (ctx.clause id))) :
    conflictEvents ctx id = [.returned] := by
  unfold conflictEvents
  dsimp only
  by_cases hz : ctx.currentDecisionLevel = 0 ∧ (resolveConflict ctx (ctx.clause id)).backtrackLevel = 0
  · rw [if_pos hz]
  · have hnil := h.resolve_left hz
    rw [if_neg hz, if_pos (by rw [hnil]; rfl)]

theorem conflictEvents_of_not_reports {ctx : SolverContext} {id : ClauseId}
    (h : ¬ ReportsUnsatisfiable ctx (resolveConflict ctx (ctx.clause id))) :
    conflictEvents ctx id = [.learn (resolveConflict ctx (ctx.clause id)).learnedClause,
      .backtrack (resolveConflict ctx (ctx.clause id)).backtrackLevel] := by
  obtain ⟨hz, hnil⟩ := not_or.mp h
  unfold conflictEvents
  dsimp only
  rw [if_neg hz, if_neg (by simpa using hnil)]

theorem pick_eq_none_of_unassigned {choose : Chooser} {ctx : SolverContext}
    (h : unassignedVars ctx = []) : choose.pick ctx = none := by
  rcases hp : choose.pick ctx with _ | v
  · rfl
  · have hv := choose.mem_of_pick ctx v hp
    rw [h] at hv
    cases hv

/-- The events of an iteration end with those of its outcome. -/
theorem exists_outcome {choose : Chooser} {ctx ctx' : SolverContext}
    {out : Option (Except SatError SolverResult)}
    (h : iteration mul choose ctx = some (ctx', out)) :
    ∃ tail, Outcome mul ctx ctx' out tail ∧
      iterationEvents mul choose ctx = .iteration :: restartEvents mul ctx ++
        propagationEvents ((restartIfDue mul ctx).vars.length + 1) (restartIfDue mul ctx)
        ++ tail := by
  refine ⟨_, ?_, rfl⟩
  cases iteration_spec h with
  | @unsatisfiable c id hup hr =>
      rw [hup]
      dsimp only
      rw [conflictEvents_of_reports hr]
      exact Outcome.unsatisfiable hup hr
  | @learned c id r hup hr hn hd =>
      subst hr
      rw [hup]
      dsimp only
      rw [conflictEvents_of_not_reports hn]
      exact Outcome.learned hup rfl hn
  | @decided c v hup hv =>
      rw [hup]
      rcases hpick : choose.pick c with _ | w
      · rw [choose.pick_eq_none c hpick] at hv
        cases hv
      · have hout : decideOn c w = decideOn c v := by
          simpa [iteration, hup, makeDecision, hpick] using h
        rw [← hout]
        simp only [decisionEvents, hpick]
        exact Outcome.decided hup (choose.mem_of_pick c w hpick)
  | solved hup hall hs hne =>
      rw [hup]
      simp only [decisionEvents, pick_eq_none_of_unassigned hall, hs, ne_eq, hne,
        not_false_eq_true, and_self, if_true]
      exact Outcome.solved hup
  | unsolved hup hall hs =>
      have hno : ¬ (isSatSolved ctx' = true ∧ readSolution ctx' ≠ []) := by
        rintro ⟨hsolved, hne⟩
        rcases hs with hs | hs
        · rw [hs] at hsolved
          cases hsolved
        · exact hne hs
      rw [hup]
      simp only [decisionEvents, pick_eq_none_of_unassigned hall]
      rw [if_neg hno]
      exact Outcome.unsolved hup

/-! ## Runs -/

/-- Any number of iterations from `init`, with what happened in them. An iteration that follows a
return is the first one of the next call. -/
inductive Run (mul : Nat → Nat → Nat) (init : SolverContext) : SolverContext → List Event → Prop
  | nil : Run mul init init []
  | iteration {ctx ctx' : SolverContext} {es : List Event} {choose : Chooser}
      {out : Option (Except SatError SolverResult)} (h : Run mul init ctx es)
      (hit : iteration mul choose ctx = some (ctx', out)) :
      Run mul init ctx' (es ++ iterationEvents mul choose ctx)

theorem Run.search {init ctx ctx' : SolverContext} {es : List Event} {choose : Nat → Chooser}
    {fuel n : Nat} {r : Except SatError SolverResult} (h : Run mul init ctx es)
    (hs : search mul choose fuel n ctx = some (ctx', r)) :
    Run mul init ctx' (es ++ events mul choose fuel n ctx) := by
  induction fuel generalizing n ctx es with
  | zero => cases hs
  | succ fuel ih =>
      unfold Fabko.Sat.search at hs
      split at hs
      · cases hs
      · rename_i c out hit
        simp only [Option.some.injEq, Prod.mk.injEq] at hs
        obtain ⟨rfl, rfl⟩ := hs
        rw [events, hit]
        simpa using h.iteration hit
      · rename_i c hit
        rw [events, hit, ← List.append_assoc]
        exact ih (h.iteration hit) hs

theorem Run.steps {init ctx : SolverContext} {es : List Event} (h : Run mul init ctx es) :
    Steps mul ⟨.head, init⟩ ⟨.head, ctx⟩ := by
  induction h with
  | nil => exact Relation.ReflTransGen.refl
  | iteration _ hit ih => exact ih.trans (iteration_spec hit).steps

/-! ## Runs that can be computed -/

/-- `k` iterations, whatever they return, with their events. -/
def runAfter (mul : Nat → Nat → Nat) (choose : Chooser) :
    Nat → SolverContext → Option (SolverContext × List Event)
  | 0, init => some (init, [])
  | k + 1, init =>
      (runAfter mul choose k init).bind (fun r =>
        (iteration mul choose r.1).map (fun s => (s.1, r.2 ++ iterationEvents mul choose r.1)))

theorem run_runAfter {choose : Chooser} {k : Nat} {init ctx : SolverContext} {es : List Event}
    (h : runAfter mul choose k init = some (ctx, es)) : Run mul init ctx es := by
  induction k generalizing ctx es with
  | zero =>
      rw [runAfter, Option.some.injEq, Prod.mk.injEq] at h
      rw [← h.1, ← h.2]
      exact Run.nil
  | succ k ih =>
      obtain ⟨⟨c, fs⟩, hk, h⟩ := Option.bind_eq_some_iff.mp h
      obtain ⟨⟨c', out⟩, hit, h⟩ := Option.map_eq_some_iff.mp h
      rw [Prod.mk.injEq] at h
      rw [← h.1, ← h.2]
      exact (ih hk).iteration hit

/-- A run of `k` iterations with a property that evaluates to true. -/
theorem exists_run {m : Model} {choose : Chooser} {k : Nat}
    {P : SolverContext → List Event → Prop} [∀ ctx es, Decidable (P ctx es)]
    (h : (solverContext m).toOption.any (fun init =>
      (runAfter mul choose k init).any (fun r => decide (P r.1 r.2))) = true) :
    ∃ init ctx es, solverContext m = .ok init ∧ Run mul init ctx es ∧ P ctx es := by
  rcases hinit : solverContext m with e | init
  · rw [hinit] at h
    cases h
  · rw [hinit] at h
    rcases hr : runAfter mul choose k init with _ | ⟨ctx, es⟩
    · simp [Except.toOption, hr] at h
    · simp only [Except.toOption, Option.any_some, hr, decide_eq_true_eq] at h
      exact ⟨init, ctx, es, rfl, run_runAfter hr, h⟩

end Fabko.Sat
