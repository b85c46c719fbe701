import Mathlib.Algebra.Group.Nat.Defs
import Mathlib.Algebra.Ring.Rat
import Mathlib.Data.List.Basic

set_option autoImplicit false

/-! # Literals, models and the solver context

The data of the SAT backend (`solver.hh`, `solver_context.hh`) and the constructor of
`solver_context`. A `soa` is an append-only array of records, kept as a list; a `struct_id` is the
offset of a record. Compiler metadata and the fields no solver function reads (`clause::id_`,
`solver_context::model_`, `solutions_found_`) are left out. -/

namespace Fabko.Sat

abbrev VarId := Nat

abbrev ClauseId := Nat

/-! ## Literals -/

inductive Assignment where
  | on
  | off
  | notAssigned
deriving DecidableEq, Repr

/-- The sign is the polarity; the absolute value represents the variable. -/
structure Literal where
  value_ : Int
deriving DecidableEq, Repr

namespace Literal

def value (l : Literal) : Nat := l.value_.natAbs

def isOn (l : Literal) : Bool := decide (0 < l.value_)

def isOff (l : Literal) : Bool := decide (l.value_ < 0)

/-- `operator==` ignores the sign. -/
def same (l l' : Literal) : Bool := l.value == l'.value

end Literal

/-! ## Records -/

/-- The context of an assignment. `clausePropagation` is the clause that forced the variable;
for a decision it is `none`. -/
structure AssignmentContext where
  vsidsActivity : Int := 0
  decisionLevel : Nat := 0
  clausePropagation : Option ClauseId := none
deriving DecidableEq, Repr

namespace AssignmentContext

def isPropagated (c : AssignmentContext) : Bool := c.clausePropagation.isSome

def isDecision (c : AssignmentContext) : Bool := !c.isPropagated

end AssignmentContext

/-- A record of `Vars_Soa`. -/
structure Var where
  literal : Literal
  assignment : Assignment := .notAssigned
  context : AssignmentContext := {}
deriving DecidableEq, Repr

instance : Inhabited Var := ⟨{ literal := ⟨0⟩ }⟩

/-- A clause: its literals, each with the variable it was resolved to. -/
abbrev Clause := List (Literal × VarId)

/-- The two watched slots of a clause. -/
structure ClauseWatcher where
  first : Option VarId
  second : Option VarId
deriving DecidableEq, Repr

/-- A record of `Clauses_Soa`. -/
structure ClauseRow where
  clause : Clause
  watcher : ClauseWatcher
deriving DecidableEq, Repr

/-- The slots `clause_watcher` is constructed with: the first two unassigned entries. -/
def watch (vs : List Var) (c : Clause) : ClauseWatcher :=
  let filtered := (c.map Prod.snd).filter (fun id => (vs.getD id default).assignment = .notAssigned)
  ⟨filtered[0]?, filtered[1]?⟩

/-! ## Configuration, statistics, model -/

/-- `vsids_decay_ratio` is a `float` in the source; here it is the rational it stands for, and the
default is the `float` nearest to 0.95, over `2 ^ 24`. -/
structure Configuration where
  restartThreshold : Nat := 100
  restartMultiplier : Nat := 2
  vsidsIncrement : Int := 10
  decayInterval : Int := 100
  vsidsDecayRatio : Rat := 15938355 / 16777216
deriving DecidableEq, Repr

/-- `decay_interval` on the right of `%`, which converts the `int` to `size_t`. -/
def Configuration.interval (c : Configuration) : Nat := (c.decayInterval % 2 ^ 64).toNat

structure Statistics where
  restarts : Nat := 0
  conflicts : Nat := 0
  propagations : Nat := 0
  decisions : Nat := 0
  backtracks : Nat := 0
  learnedClause : Nat := 0
  maxDecisionLvl : Nat := 0
deriving DecidableEq, Repr

structure Model where
  literals : List Literal
  clauses : List (List Literal)
  conf : Configuration := {}
deriving DecidableEq, Repr

/-! ## The solver context -/

structure SolverContext where
  config : Configuration
  vars : List Var
  clauses : List ClauseRow
  trail : List VarId := []
  conflictCountSinceLastRestart : Nat := 0
  currentDecisionLevel : Nat := 0
  statistics : Statistics := {}
deriving DecidableEq, Repr

namespace SolverContext

def var (ctx : SolverContext) (id : VarId) : Var := ctx.vars.getD id default

def clause (ctx : SolverContext) (id : ClauseId) : Clause :=
  ((ctx.clauses[id]?).map ClauseRow.clause).getD []

/-- Write to the record of one variable. -/
def setVar (ctx : SolverContext) (id : VarId) (f : Var → Var) : SolverContext :=
  { ctx with vars := ctx.vars.modify id f }

end SolverContext

/-- The variable a clause literal refers to: the first with the same absolute value. -/
def findVar (vars : List Var) (l : Literal) : Option VarId :=
  vars.findIdx? (fun x => x.literal.same l)

def bumpVar (x : Var) : Var :=
  { x with context := { x.context with vsidsActivity := x.context.vsidsActivity + 1 } }

/-- Resolve the literals of one clause; each occurrence adds one to the activity of its variable. -/
def mapClause : List Literal → List Var → Except String (Clause × List Var)
  | [], vars => .ok ([], vars)
  | l :: ls, vars =>
      match findVar vars l with
      -- `fabko_assert(it != vars_soa_.end(), ..)`
      | none => .error "a clause cannot contains a non-defined literal"
      | some id =>
          match mapClause ls (vars.modify id bumpVar) with
          | .error e => .error e
          | .ok (c, vars') => .ok ((l, id) :: c, vars')

def insertClauses : List (List Literal) → List Var → Except String (List ClauseRow × List Var)
  | [], vars => .ok ([], vars)
  | ls :: rest, vars =>
      match mapClause ls vars with
      | .error e => .error e
      | .ok (c, vars') =>
          -- asserted by the constructor of `clause_watcher`
          if c.isEmpty then .error "Cannot make a clause watchers over an empty clause"
          else
            match insertClauses rest vars' with
            | .error e => .error e
            | .ok (rows, vars'') => .ok (⟨c, watch vars' c⟩ :: rows, vars'')

/-- The constructor of `solver_context`. An `error` is a `fabko_assert` that fails. -/
def solverContext (m : Model) : Except String SolverContext :=
  match insertClauses m.clauses (m.literals.map (fun l => { literal := l })) with
  | .error e => .error e
  | .ok (rows, vars) => .ok { config := m.conf, vars := vars, clauses := rows }

end Fabko.Sat
