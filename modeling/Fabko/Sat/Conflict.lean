import Fabko.Sat.Context
import Mathlib.Data.List.Sort
import Mathlib.Data.List.Destutter

set_option autoImplicit false

/-! # Conflict analysis and learning

`resolve_conflict`, `learn_additional_clause` and `update_vsids_activity` of `solver_impl.cpp`. -/

namespace Fabko.Sat

/-! ## `resolve_conflict` -/

structure ConflictResolutionResult where
  learnedClause : Clause
  backtrackLevel : Nat
deriving DecidableEq, Repr

/-- The locals of `resolve_conflict`. `currentLevelVars` keeps the records as their ids. -/
structure Analysis where
  currentLevelVars : List VarId
  learnedClause : Clause
  backtrackLevel : Nat
  trailIndex : Nat
deriving DecidableEq, Repr

/-- `trail_.size() - 1` in `size_t`. -/
def lastIndex (n : Nat) : Nat := if n = 0 then 2 ^ 64 - 1 else n - 1

namespace SolverContext

/-- The variable at an index of the trail. -/
def trailVar (ctx : SolverContext) (i : Nat) : VarId := ctx.trail.getD i 0

/-- The level of a variable's record; for an unassigned variable it may be stale. -/
def levelOf (ctx : SolverContext) (id : VarId) : Nat := (ctx.var id).context.decisionLevel

end SolverContext

def startAnalysis (ctx : SolverContext) (c : Clause) : Analysis where
  currentLevelVars :=
    (c.filter (fun p => ctx.levelOf p.2 = ctx.currentDecisionLevel)).map Prod.snd
  learnedClause := c
  backtrackLevel := 0
  trailIndex := lastIndex ctx.trail.length

/-- The test of the inner loop: a propagated entry of the current level that is still pending. -/
def isPending (ctx : SolverContext) (pending : List VarId) (i : Nat) : Bool :=
  !(ctx.var (ctx.trailVar i)).context.isDecision &&
    decide (ctx.levelOf (ctx.trailVar i) = ctx.currentDecisionLevel) &&
    pending.any (fun v =>
      (ctx.var v).literal.value == (ctx.var (ctx.trailVar i)).literal.value)

/-- The inner loop: walk the trail down to the next pending entry, or to index 0. -/
def seekTrail (ctx : SolverContext) (pending : List VarId) : Nat → Nat
  -- the entry at index 0 is never tested
  | 0 => 0
  | i + 1 => if isPending ctx pending (i + 1) then i + 1 else seekTrail ctx pending i

/-- Add one literal of an antecedent, unless its variable is the resolved one or already there.
The backtracking level is raised here only. -/
def addAntecedent (ctx : SolverContext) (trailLit : Literal) (a : Analysis)
    (p : Literal × VarId) : Analysis :=
  if p.1.value == trailLit.value || a.learnedClause.any (fun q => p.1.value == q.1.value) then a
  else
    { a with
      learnedClause := a.learnedClause ++ [p]
      currentLevelVars :=
        if ctx.levelOf p.2 = ctx.currentDecisionLevel then a.currentLevelVars ++ [p.2]
        else a.currentLevelVars
      backtrackLevel :=
        if ctx.levelOf p.2 ≠ ctx.currentDecisionLevel ∧ a.backtrackLevel < ctx.levelOf p.2
        then ctx.levelOf p.2 else a.backtrackLevel }

/-- One resolution step, with the trail entry at index `i`. -/
def resolveAt (ctx : SolverContext) (a : Analysis) (i : Nat) : Analysis :=
  let trailRecord := ctx.var (ctx.trailVar i)
  let trailLit := trailRecord.literal
  let erased :=
    { a with learnedClause := a.learnedClause.filter (fun p => !(p.1.value == trailLit.value)) }
  let merged :=
    match trailRecord.context.clausePropagation with
    -- not reached: the inner loop stops at propagated entries only
    | none => erased
    | some id => (ctx.clause id).foldl (addAntecedent ctx trailLit) erased
  { merged with
    currentLevelVars :=
      merged.currentLevelVars.filter (fun v => !((ctx.var v).literal.same trailLit))
    trailIndex := i - 1 }

theorem seekTrail_le (ctx : SolverContext) (pending : List VarId) (i : Nat) :
    seekTrail ctx pending i ≤ i := by
  induction i with
  | zero => exact Nat.le_refl 0
  | succ i ih =>
      unfold seekTrail
      split
      · exact Nat.le_refl _
      · omega

/-- The outer loop. Index 0 is the exit `trail empty`. -/
def resolveLoop (ctx : SolverContext) (a : Analysis) : Analysis :=
  if a.currentLevelVars.length ≤ 1 then a
  else
    let i := seekTrail ctx a.currentLevelVars a.trailIndex
    if _h : i = 0 then { a with trailIndex := 0 }
    else resolveLoop ctx (resolveAt ctx a i)
termination_by a.trailIndex
decreasing_by
  have := seekTrail_le ctx a.currentLevelVars a.trailIndex
  show i - 1 < a.trailIndex
  omega

/-- `sort` by variable, then `erase(unique(..))`. -/
def sortUnique (c : Clause) : Clause :=
  (c.insertionSort (fun p q => p.1.value ≤ q.1.value)).destutter
    (fun p q => p.1.value ≠ q.1.value)

def resolveConflict (ctx : SolverContext) (conflictClause : Clause) : ConflictResolutionResult :=
  let a := resolveLoop ctx (startAnalysis ctx conflictClause)
  { learnedClause := sortUnique a.learnedClause, backtrackLevel := a.backtrackLevel }

/-! ## Learning -/

/-- `learn_additional_clause`: the new clause goes to the end of `clauses_soa_`. -/
def learnAdditionalClause (ctx : SolverContext) (c : Clause) : SolverContext :=
  if c.isEmpty then ctx
  else
    { ctx with
      clauses := ctx.clauses ++ [⟨c, watch ctx.vars c⟩]
      statistics := { ctx.statistics with learnedClause := ctx.statistics.learnedClause + 1 } }

/-! ## Activities -/

/-- The conversion back to `std::int64_t`: truncation toward zero of an exact quotient. -/
def truncate (q : Rat) : Int := q.num.tdiv q.den

def normalizationFactor : Rat := 1000000

def scaleActivity (divisor : Rat) (x : Var) : Var :=
  { x with
    context :=
      { x.context with vsidsActivity := truncate ((x.context.vsidsActivity : Rat) / divisor) } }

def raiseActivity (increment : Int) (x : Var) : Var :=
  { x with
    context := { x.context with vsidsActivity := x.context.vsidsActivity + increment } }

/-- What `update_vsids_activity` writes: normalise if a variable of the clause is near the limit,
bump the variables of the clause, decay every variable at each multiple of `decay_interval`
conflicts. -/
def writeActivities (ctx : SolverContext) (learned : Clause) : SolverContext :=
  let needNormalization := learned.any (fun p =>
    decide (2 ^ 63 - 1 - ctx.config.vsidsIncrement ≤ (ctx.var p.2).context.vsidsActivity))
  let normalized :=
    if needNormalization then ctx.vars.map (scaleActivity normalizationFactor) else ctx.vars
  let bumped :=
    learned.foldl (fun vars p => vars.modify p.2 (raiseActivity ctx.config.vsidsIncrement))
      normalized
  let decayed :=
    if ctx.statistics.conflicts % ctx.config.interval = 0 then
      bumped.map (scaleActivity ctx.config.vsidsDecayRatio)
    else bumped
  { ctx with vars := decayed }

/-- `update_vsids_activity`; `none` is the division by zero of `conflicts % decay_interval`. -/
def updateVsidsActivity (ctx : SolverContext) (learned : Clause) : Option SolverContext :=
  if ctx.config.interval = 0 then none else some (writeActivities ctx learned)

theorem updateVsidsActivity_eq_none_iff {ctx : SolverContext} {learned : Clause} :
    updateVsidsActivity ctx learned = none ↔ ctx.config.interval = 0 := by
  unfold updateVsidsActivity
  split <;> simp_all

theorem updateVsidsActivity_eq_some_iff {ctx ctx' : SolverContext} {learned : Clause} :
    updateVsidsActivity ctx learned = some ctx' ↔
      ctx.config.interval ≠ 0 ∧ writeActivities ctx learned = ctx' := by
  unfold updateVsidsActivity
  split <;> simp_all

end Fabko.Sat
