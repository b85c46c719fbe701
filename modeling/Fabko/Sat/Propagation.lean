import Fabko.Sat.Context

set_option autoImplicit false

/-! # Unit propagation

`is_clause_satisfied` and `unit_propagation` of `solver_impl.cpp`. The lambda `propagate` runs
over all clauses again and again until a pass assigns nothing or meets a conflict. -/

namespace Fabko.Sat

def isClauseSatisfied (ctx : SolverContext) (c : Clause) : Bool :=
  c.any (fun p => (p.1.isOn && decide ((ctx.var p.2).assignment = .on)) ||
    (p.1.isOff && decide ((ctx.var p.2).assignment = .off)))

/-- The unassigned entries of a clause, repetitions included. -/
def unassigned (ctx : SolverContext) (c : Clause) : Clause :=
  c.filter (fun p => decide ((ctx.var p.2).assignment = .notAssigned))

/-- The assignment a unit clause makes: the value its literal asks, at the current level. -/
def assignUnit (ctx : SolverContext) (id : ClauseId) (p : Literal × VarId) : SolverContext :=
  { ctx.setVar p.2 (fun x =>
      { x with
        assignment := if p.1.isOn then .on else .off
        context :=
          { x.context with
            decisionLevel := ctx.currentDecisionLevel
            clausePropagation := some id } }) with
    trail := ctx.trail ++ [p.2] }

/-- What a pass over the clauses carries: the context, the captured `conflict` and how many
clauses `count_if` has counted. -/
structure Pass where
  ctx : SolverContext
  conflict : Option ClauseId := none
  count : Nat := 0
deriving DecidableEq, Repr

/-- The lambda `propagate` on one clause. -/
def propagate (p : Pass) (id : ClauseId) : Pass :=
  if p.conflict.isSome then p
  else if isClauseSatisfied p.ctx (p.ctx.clause id) then p
  else
    match unassigned p.ctx (p.ctx.clause id) with
    -- not satisfied and nothing unassigned: all literals are false
    | [] => { p with conflict := some id }
    | [u] => { p with ctx := assignUnit p.ctx id u, count := p.count + 1 }
    | _ :: _ :: _ => p

/-- One `count_if` over `clauses_soa_`. -/
def propagatePass (ctx : SolverContext) : Pass :=
  (List.range ctx.clauses.length).foldl propagate { ctx := ctx }

def countPropagations (ctx : SolverContext) (n : Nat) : SolverContext :=
  { ctx with
    statistics := { ctx.statistics with propagations := ctx.statistics.propagations + n } }

/-- The `while` over the passes. A pass that ends in a conflict leaves before it is counted. -/
def unitPropagationLoop : Nat → SolverContext → Option (SolverContext × Option ClauseId)
  | 0, _ => none
  | fuel + 1, ctx =>
      let pass := propagatePass ctx
      -- a conflict may follow assignments of the same pass, which are not counted then
      if pass.count = 0 then some (pass.ctx, pass.conflict)
      else if pass.conflict.isSome then some (pass.ctx, pass.conflict)
      else unitPropagationLoop fuel (countPropagations pass.ctx pass.count)

/-- Every pass but the last assigns a variable, so one more pass than there are variables is
enough. -/
def unitPropagation (ctx : SolverContext) : Option (SolverContext × Option ClauseId) :=
  unitPropagationLoop (ctx.vars.length + 1) ctx

end Fabko.Sat
