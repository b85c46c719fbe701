import Fabko.Sat.Propagation
import Fabko.Sat.Conflict

set_option autoImplicit false

/-! # The main loop

`backtrack`, `make_decision`, `solve_sat` (`solver_impl.cpp`) and `solver::solve` (`solver.cpp`).
The loop is parametric in two things the properties quantify over: the product by which the
restart threshold grows (`uint32_t` in the code) and the choice among the unassigned variables
(highest VSIDS activity in the code). -/

namespace Fabko.Sat

/-! ## Backtracking -/

def unassign (x : Var) : Var :=
  { x with
    assignment := .notAssigned
    context := { x.context with clausePropagation := none } }

/-- The loop of `backtrack` on the trail from its back. Decision levels are left as they are. -/
def backtrackLoop (level : Nat) : List VarId → List Var → List VarId × List Var
  | [], vars => ([], vars)
  | node :: rest, vars =>
      -- the first entry of a low level ends the loop
      if (vars.getD node default).context.decisionLevel ≤ level then (node :: rest, vars)
      else backtrackLoop level rest (vars.modify node unassign)

def backtrack (ctx : SolverContext) (level : Nat) : SolverContext :=
  let r := backtrackLoop level ctx.trail.reverse ctx.vars
  { ctx with trail := r.1.reverse, vars := r.2, currentDecisionLevel := level }

/-! ## Decisions -/

def unassignedVars (ctx : SolverContext) : List VarId :=
  (List.range ctx.vars.length).filter (fun v => (ctx.var v).assignment = .notAssigned)

theorem mem_unassignedVars {ctx : SolverContext} {v : VarId} :
    v ∈ unassignedVars ctx ↔ v < ctx.vars.length ∧ (ctx.var v).assignment = .notAssigned := by
  simp [unassignedVars]

/-- A way to choose the decision variable: some unassigned variable whenever there is one. -/
structure Chooser where
  pick : SolverContext → Option VarId
  mem_of_pick : ∀ ctx v, pick ctx = some v → v ∈ unassignedVars ctx
  pick_eq_none : ∀ ctx, pick ctx = none → unassignedVars ctx = []

/-- `max_element`: the first of the variables with the highest activity. -/
def maxElement (ctx : SolverContext) : List VarId → Option VarId
  | [] => none
  | v :: vs => some (vs.foldl (fun best w =>
      if (ctx.var best).context.vsidsActivity < (ctx.var w).context.vsidsActivity then w
      else best) v)

theorem foldl_best_mem {α : Type*} (better : α → α → Prop) [DecidableRel better] (vs : List α)
    (v : α) : vs.foldl (fun best w => if better best w then w else best) v ∈ v :: vs := by
  induction vs generalizing v with
  | nil => simp
  | cons w vs ih =>
      rw [List.foldl_cons]
      rcases List.mem_cons.mp (ih (if better v w then w else v)) with h | h
      · rw [h]
        split <;> simp
      · exact List.mem_cons_of_mem _ (List.mem_cons_of_mem _ h)

def highestVsids : Chooser where
  pick ctx := maxElement ctx (unassignedVars ctx)
  mem_of_pick ctx v h := by
    rcases hu : unassignedVars ctx with _ | ⟨w, ws⟩
    · rw [hu] at h; cases h
    · rw [hu, maxElement, Option.some.injEq] at h
      rw [← h]
      exact foldl_best_mem _ ws w
  pick_eq_none ctx h := by
    rcases hu : unassignedVars ctx with _ | ⟨w, ws⟩
    · rfl
    · rw [hu] at h; cases h

/-- The decision on a variable: a new level, the value `on`. -/
def decideOn (ctx : SolverContext) (v : VarId) : SolverContext :=
  { ctx.setVar v (fun x =>
      { x with
        assignment := .on
        context := { x.context with decisionLevel := ctx.currentDecisionLevel + 1 } }) with
    currentDecisionLevel := ctx.currentDecisionLevel + 1
    trail := ctx.trail ++ [v]
    statistics :=
      { ctx.statistics with
        maxDecisionLvl := max ctx.statistics.maxDecisionLvl (ctx.currentDecisionLevel + 1)
        decisions := ctx.statistics.decisions + 1 } }

/-- `none` is the return value `false`. -/
def makeDecision (choose : Chooser) (ctx : SolverContext) : Option SolverContext :=
  (choose.pick ctx).map (decideOn ctx)

/-! ## `solve_sat` -/

inductive SatError where
  | unsatisfiable
  | error
deriving DecidableEq, Repr

/-- `solver::result`. -/
abbrev SolverResult := List Literal

/-- The product of two `std::uint32_t`. -/
def mulUInt32 (a b : Nat) : Nat := a * b % 2 ^ 32

section Search

variable (mul : Nat → Nat → Nat)

def restart (ctx : SolverContext) : SolverContext :=
  let cleared :=
    { ctx with
      conflictCountSinceLastRestart := 0
      statistics := { ctx.statistics with restarts := ctx.statistics.restarts + 1 } }
  let back := backtrack cleared 0
  { back with
    config :=
      { back.config with
        restartThreshold := mul back.config.restartThreshold back.config.restartMultiplier } }

def restartIfDue (ctx : SolverContext) : SolverContext :=
  if ctx.config.restartThreshold ≤ ctx.conflictCountSinceLastRestart then restart mul ctx else ctx

def countConflict (ctx : SolverContext) : SolverContext :=
  { ctx with
    conflictCountSinceLastRestart := ctx.conflictCountSinceLastRestart + 1
    statistics := { ctx.statistics with conflicts := ctx.statistics.conflicts + 1 } }

def isSatSolved (ctx : SolverContext) : Bool :=
  ctx.clauses.all (fun row => isClauseSatisfied ctx row.clause)

/-- The literals of the answer: each variable with the sign of its assignment. -/
def readSolution (ctx : SolverContext) : SolverResult :=
  ctx.vars.map (fun x =>
    if x.assignment = .on then ⟨(x.literal.value : Int)⟩ else ⟨-(x.literal.value : Int)⟩)

/-- One iteration of the loop, with the value it returns if it does; `none` is an iteration that
divides by zero. The loop goes on while the literals of the solution are empty. -/
def iteration (choose : Chooser) (ctx : SolverContext) :
    Option (SolverContext × Option (Except SatError SolverResult)) :=
  match unitPropagation (restartIfDue mul ctx) with
  | none => none
  | some (ctx, some conflict) =>
      let ctx := countConflict ctx
      let r := resolveConflict ctx (ctx.clause conflict)
      -- the conflict is analysed before its level is looked at
      if ctx.currentDecisionLevel = 0 ∧ r.backtrackLevel = 0 then
        some (ctx, some (.error .unsatisfiable))
      else if r.learnedClause.isEmpty then some (ctx, some (.error .unsatisfiable))
      else
        let ctx := backtrack (learnAdditionalClause ctx r.learnedClause) r.backtrackLevel
        (updateVsidsActivity ctx r.learnedClause).map (fun ctx => (ctx, none))
  | some (ctx, none) =>
      match makeDecision choose ctx with
      | some ctx => some (ctx, none)
      | none =>
          -- no variable is left; if a clause were not satisfied the loop would go on
          if isSatSolved ctx then
            let solution := readSolution ctx
            some (ctx, if solution.isEmpty then none else some (.ok solution))
          else some (ctx, none)

/-- The loop of `solve_sat` for at most `fuel` iterations; the `n`-th uses `choose n`. -/
def search (choose : Nat → Chooser) :
    Nat → Nat → SolverContext → Option (SolverContext × Except SatError SolverResult)
  | 0, _, _ => none
  | fuel + 1, n, ctx =>
      match iteration mul (choose n) ctx with
      | none => none
      | some (ctx, some r) => some (ctx, r)
      | some (ctx, none) => search choose fuel (n + 1) ctx

/-- The calls of `solver::solve`: a result is kept, an error ends the list. -/
def solveLoop (choose : Nat → Chooser) (fuel : Nat) :
    Nat → SolverContext → Option (List SolverResult)
  | 0, _ => some []
  | i + 1, ctx =>
      match search mul choose fuel 0 ctx with
      | none => none
      | some (_, .error _) => some []
      -- the next call gets the context as it is, with nothing that excludes `r`
      | some (ctx, .ok r) => (solveLoop choose fuel i ctx).map (fun rest => r :: rest)

end Search

def solveSat (fuel : Nat) (ctx : SolverContext) :
    Option (SolverContext × Except SatError SolverResult) :=
  search mulUInt32 (fun _ => highestVsids) fuel 0 ctx

/-- `solver::solve` on the context of the solver. -/
def solve (fuel : Nat) (ctx : SolverContext) (expected : Int) : Option (List SolverResult) :=
  solveLoop mulUInt32 (fun _ => highestVsids) fuel expected.toNat ctx

end Fabko.Sat
