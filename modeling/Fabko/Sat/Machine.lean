import Fabko.Sat.Construction
import Fabko.Sat.Resolution
import Fabko.Logic.Moves

set_option autoImplicit false

/-! # Reachable states

`solve_sat` as a transition system: a `Frame` is a program point with the context it is reached
with, and a `Step` is one write of the loop body. Inside `unit_propagation` a step is one
assignment, with the clauses taken in any order; a decision takes any unassigned variable; a
return leads back to the head of the loop, where the next call starts. The runs of the functions
of `Sat/Solver` are among the runs of this system (`Sat/Runs`), so what is proved of its reachable
frames holds at every point of any number of calls. -/

namespace Fabko.Sat

open Cnf Cdcl

inductive Point where
  | head
  | propagating
  | conflict (id : ClauseId)
  | learned (r : ConflictResolutionResult)
  | backtracked (r : ConflictResolutionResult)
  | quiet
deriving DecidableEq, Repr

structure Frame where
  point : Point
  ctx : SolverContext
deriving DecidableEq, Repr

/-- The conflict makes `solve_sat` return `unsatisfiable`. -/
def ReportsUnsatisfiable (ctx : SolverContext) (r : ConflictResolutionResult) : Prop :=
  (ctx.currentDecisionLevel = 0 ∧ r.backtrackLevel = 0) ∨ r.learnedClause = []

inductive Step (mul : Nat → Nat → Nat) : Frame → Frame → Prop
  | restart {ctx : SolverContext} :
      Step mul ⟨.head, ctx⟩ ⟨.propagating, restartIfDue mul ctx⟩
  | unit {ctx ctx' : SolverContext} {id : ClauseId} {n : Nat} (hid : id < ctx.clauses.length)
      (h : propagate ⟨ctx, none, n⟩ id = ⟨ctx', none, n + 1⟩) :
      Step mul ⟨.propagating, ctx⟩ ⟨.propagating, ctx'⟩
  | count {ctx : SolverContext} (n : Nat) :
      Step mul ⟨.propagating, ctx⟩ ⟨.propagating, countPropagations ctx n⟩
  | conflict {ctx : SolverContext} {id : ClauseId} {n : Nat} (hid : id < ctx.clauses.length)
      (h : propagate ⟨ctx, none, n⟩ id = ⟨ctx, some id, n⟩) :
      Step mul ⟨.propagating, ctx⟩ ⟨.conflict id, countConflict ctx⟩
  | quiet {ctx : SolverContext}
      (h : ∀ id < ctx.clauses.length, propagate ⟨ctx, none, 0⟩ id = ⟨ctx, none, 0⟩) :
      Step mul ⟨.propagating, ctx⟩ ⟨.quiet, ctx⟩
  | unsatisfiable {ctx : SolverContext} {id : ClauseId}
      (h : ReportsUnsatisfiable ctx (resolveConflict ctx (ctx.clause id))) :
      Step mul ⟨.conflict id, ctx⟩ ⟨.head, ctx⟩
  | learn {ctx : SolverContext} {id : ClauseId} {r : ConflictResolutionResult}
      (hr : resolveConflict ctx (ctx.clause id) = r) (h : ¬ ReportsUnsatisfiable ctx r) :
      Step mul ⟨.conflict id, ctx⟩ ⟨.learned r, learnAdditionalClause ctx r.learnedClause⟩
  | backtrack {ctx : SolverContext} {r : ConflictResolutionResult} :
      Step mul ⟨.learned r, ctx⟩ ⟨.backtracked r, backtrack ctx r.backtrackLevel⟩
  | activity {ctx ctx' : SolverContext} {r : ConflictResolutionResult}
      (h : updateVsidsActivity ctx r.learnedClause = some ctx') :
      Step mul ⟨.backtracked r, ctx⟩ ⟨.head, ctx'⟩
  | decide {ctx : SolverContext} {v : VarId} (hv : v ∈ unassignedVars ctx) :
      Step mul ⟨.quiet, ctx⟩ ⟨.head, decideOn ctx v⟩
  | finish {ctx : SolverContext} (h : unassignedVars ctx = []) :
      Step mul ⟨.quiet, ctx⟩ ⟨.head, ctx⟩

abbrev Steps (mul : Nat → Nat → Nat) : Frame → Frame → Prop :=
  Relation.ReflTransGen (Step mul)

/-- Reached from the context the constructor returns. -/
def Reachable (mul : Nat → Nat → Nat) (m : Model) (f : Frame) : Prop :=
  ∃ ctx, solverContext m = .ok ctx ∧ Steps mul ⟨.head, ctx⟩ f

theorem Reachable.trans {mul : Nat → Nat → Nat} {m : Model} {f g : Frame}
    (h : Reachable mul m f) (hs : Steps mul f g) : Reachable mul m g := by
  obtain ⟨ctx, hctx, hf⟩ := h
  exact ⟨ctx, hctx, hf.trans hs⟩

theorem Reachable.tail {mul : Nat → Nat → Nat} {m : Model} {f g : Frame}
    (h : Reachable mul m f) (hs : Step mul f g) : Reachable mul m g :=
  h.trans (Relation.ReflTransGen.single hs)

/-! ## The invariant -/

/-- What holds of a context wherever no clause was learned since the last backtrack. -/
structure Good (m : Model) (ctx : SolverContext) : Prop where
  linked : Linked m ctx
  wf : Wf (models m) ctx.state
  quiet : Quiet ctx.state

/-- What is known of a conflict and of what was learned from it. -/
structure Conflict (m : Model) (ctx : SolverContext) (id : ClauseId) : Prop where
  good : Good m ctx
  lt : id < ctx.clauses.length
  falsified : Falsified ctx.state.value (toCnf (ctx.clause id))

/-- The context a clause was learned in. -/
structure Origin (m : Model) (ctx : SolverContext) (r : ConflictResolutionResult) : Prop where
  good : Good m ctx
  spec : LearnedSpec m ctx r
  pos : 0 < ctx.currentDecisionLevel
  ne_nil : r.learnedClause ≠ []

/-- The invariant at each program point. -/
def Inv (m : Model) (f : Frame) : Prop :=
  match f.point with
  | .head | .propagating | .backtracked _ => Good m f.ctx
  | .conflict id => Conflict m f.ctx id
  | .learned r => ∃ ctx, Origin m ctx r ∧ f.ctx = learnAdditionalClause ctx r.learnedClause
  | .quiet => Good m f.ctx ∧ ∀ C ∈ f.ctx.state.clauses, Settled f.ctx.state.value C

variable {m : Model} {ctx ctx' : SolverContext}

theorem Good.of_stutters (h : Good m ctx) (hs : Stutters ctx ctx') : Good m ctx' := by
  refine ⟨hs.linked h.linked, ?_, ?_⟩
  · rw [hs.state_eq]
    exact h.wf
  · rw [hs.state_eq]
    exact h.quiet

theorem Good.backtrack (h : Good m ctx) {k : Nat} (hk : k ≤ ctx.currentDecisionLevel) :
    Good m (backtrack ctx k) := by
  refine ⟨h.linked.backtrack, ?_, ?_⟩
  · rw [state_backtrack]
    exact h.wf.backjump hk
  · rw [state_backtrack]
    exact h.quiet.backjump hk

/-- `restartIfDue` restarts or does nothing. -/
@[elab_as_elim]
theorem restartIfDue_induct {P : SolverContext → Prop} (mul : Nat → Nat → Nat)
    (ctx : SolverContext) (hrestart : P (restart mul ctx)) (hkeep : P ctx) :
    P (restartIfDue mul ctx) := by
  unfold restartIfDue
  split
  · exact hrestart
  · exact hkeep

theorem clauses_restartIfDue (mul : Nat → Nat → Nat) (ctx : SolverContext) :
    (restartIfDue mul ctx).clauses = ctx.clauses :=
  restartIfDue_induct mul ctx rfl rfl

/-- Restarting backtracks to level 0; the counters and the threshold do not show in the state. -/
theorem state_restart (mul : Nat → Nat → Nat) (ctx : SolverContext) :
    (restart mul ctx).state = ctx.state.backjump 0 := by
  rw [← state_backtrack]
  rfl

theorem Linked.restart (h : Linked m ctx) (mul : Nat → Nat → Nat) : Linked m (restart mul ctx) := by
  have hb : Linked m (Fabko.Sat.backtrack ctx 0) := h.backtrack
  exact ⟨hb.literals, hb.originals, hb.resolved, hb.reasons⟩

theorem Linked.restartIfDue (h : Linked m ctx) (mul : Nat → Nat → Nat) :
    Linked m (restartIfDue mul ctx) := by
  refine restartIfDue_induct mul ctx ?_ ?_
  · exact h.restart mul
  · exact h

theorem Good.restart (h : Good m ctx) (mul : Nat → Nat → Nat) : Good m (restart mul ctx) := by
  have hb := h.backtrack (Nat.zero_le _)
  refine ⟨h.linked.restart mul, ?_, ?_⟩
  · rw [state_restart, ← state_backtrack]
    exact hb.wf
  · rw [state_restart, ← state_backtrack]
    exact hb.quiet

theorem Good.restartIfDue (h : Good m ctx) (mul : Nat → Nat → Nat) :
    Good m (restartIfDue mul ctx) := by
  refine restartIfDue_induct mul ctx ?_ ?_
  · exact h.restart mul
  · exact h

/-- The assignment of a unit clause is a move: above level 0 the clause has another literal of the
level it is made at. -/
theorem Good.propagate_move (h : Good m ctx) {id : ClauseId} {u : Literal × VarId}
    (hid : id < ctx.clauses.length) (hu : u ∈ ctx.clause id)
    (hf : Forces ctx.state.value (toCnf (ctx.clause id)) (toLit u)) :
    Move (models m) ctx.state (assignUnit ctx id u).state := by
  have hmem := Linked.toCnf_mem_clauses hid
  rw [state_assignUnit (h.linked.lt_length (h.linked.resolved_clause hid u hu))]
  exact Move.propagate hmem hf (exists_current_of_forces h.wf h.quiet hmem hf)

theorem Good.propagate (h : Good m ctx) {id : ClauseId} {u : Literal × VarId}
    (hid : id < ctx.clauses.length) (hu : u ∈ ctx.clause id)
    (hf : Forces ctx.state.value (toCnf (ctx.clause id)) (toLit u)) :
    Good m (assignUnit ctx id u) := by
  refine ⟨h.linked.assignUnit hid, (h.propagate_move hid hu hf).wf h.wf, ?_⟩
  rw [state_assignUnit (h.linked.lt_length (h.linked.resolved_clause hid u hu))]
  exact h.quiet.propagate hf.isOpen

theorem isOpen_of_mem_unassignedVars {v : VarId} (hv : v ∈ unassignedVars ctx) (b : Bool) :
    (⟨v, b⟩ : Lit VarId).IsOpen ctx.state.value :=
  Assignment.toOption_eq_none.mpr (mem_unassignedVars.mp hv).2

theorem Good.decideOn (h : Good m ctx)
    (hs : ∀ C ∈ ctx.state.clauses, Settled ctx.state.value C) {v : VarId}
    (hv : v ∈ unassignedVars ctx) : Good m (decideOn ctx v) := by
  have hlt := (mem_unassignedVars.mp hv).1
  have ho := isOpen_of_mem_unassignedVars hv true
  refine ⟨h.linked.decideOn hlt, ?_, ?_⟩
  · rw [state_decideOn hlt]
    exact h.wf.decide ho
  · rw [state_decideOn hlt]
    exact h.quiet.decide h.wf ho hs

theorem Conflict.spec (hm : m.WellFormed) {id : ClauseId} (h : Conflict m ctx id) :
    LearnedSpec m ctx (resolveConflict ctx (ctx.clause id)) :=
  resolveConflict_spec hm h.good.linked h.good.wf h.good.quiet h.lt h.falsified

theorem Conflict.origin (hm : m.WellFormed) {id : ClauseId} (h : Conflict m ctx id)
    (hr : ¬ ReportsUnsatisfiable ctx (resolveConflict ctx (ctx.clause id))) :
    Origin m ctx (resolveConflict ctx (ctx.clause id)) := by
  rw [ReportsUnsatisfiable, not_or] at hr
  refine ⟨h.good, h.spec hm, Nat.pos_of_ne_zero (fun h0 => hr.1 ⟨h0, ?_⟩), hr.2⟩
  -- at level 0 no level is below the current one, so the backtracking level is 0
  rcases (h.spec hm).level with hz | ⟨hlt, -⟩
  · exact hz
  · omega

/-- Above level 0 a conflict is learned from. -/
theorem Conflict.origin_of_pos (hm : m.WellFormed) {id : ClauseId} (h : Conflict m ctx id)
    (hpos : 0 < ctx.currentDecisionLevel) :
    Origin m ctx (resolveConflict ctx (ctx.clause id)) := by
  apply h.origin hm
  rintro (⟨hz, -⟩ | hnil)
  · omega
  · obtain ⟨p, hp, -⟩ := (h.spec hm).current hpos
    rw [hnil] at hp
    cases hp

namespace Origin

variable {r : ConflictResolutionResult}

theorem backtrackLevel_lt (h : Origin m ctx r) : r.backtrackLevel < ctx.currentDecisionLevel := by
  rcases h.spec.level with hz | ⟨hlt, -⟩
  · rw [hz]
    exact h.pos
  · exact hlt

theorem state_learn (h : Origin m ctx r) :
    (learnAdditionalClause ctx r.learnedClause).state = ctx.state.learn (toCnf r.learnedClause) :=
  Fabko.Sat.state_learn h.good.linked h.ne_nil

theorem wf_learn (h : Origin m ctx r) :
    Wf (models m) (learnAdditionalClause ctx r.learnedClause).state := by
  rw [h.state_learn]
  exact h.good.wf.learn h.spec.entailed

theorem good_backtrack (h : Origin m ctx r) :
    Good m (backtrack (learnAdditionalClause ctx r.learnedClause) r.backtrackLevel) := by
  refine ⟨(h.good.linked.learn h.spec.resolved).backtrack, ?_, ?_⟩
  · rw [state_backtrack]
    apply h.wf_learn.backjump
    rw [h.state_learn]
    exact le_of_lt h.backtrackLevel_lt
  · rw [state_backtrack, h.state_learn]
    refine h.good.quiet.learn_backjump h.backtrackLevel_lt ?_ ?_
    · obtain ⟨p, hp, hlev⟩ := h.spec.current h.pos
      exact ⟨toLit p, toLit_mem_toCnf hp, hlev⟩
    · apply h.spec.level.imp_right
      rintro ⟨-, p, hp, hlev⟩
      exact ⟨toLit p, toLit_mem_toCnf hp, hlev⟩

end Origin

/-- The learned clause contains no clause that repeats no variable. -/
theorem Origin.not_subset {r : ConflictResolutionResult} (h : Origin m ctx r) {D : Cnf.Clause VarId}
    (hD : D ∈ ctx.state.clauses) (hd : Distinct D) : ¬ D ⊆ toCnf r.learnedClause := by
  refine not_subset_of_falsified h.good.wf h.good.quiet h.pos h.spec.falsified ?_ hD hd
  intro l hl l' hl' hlev hlev'
  obtain ⟨p, hp, rfl⟩ := mem_toCnf.mp hl
  obtain ⟨q, hq, rfl⟩ := mem_toCnf.mp hl'
  exact h.spec.unique h.pos p hp q hq hlev hlev'

/-! ## After a conflict -/

/-- The context the loop goes on with after a conflict, if it does not divide by zero. -/
def afterConflict (ctx : SolverContext) (r : ConflictResolutionResult) : SolverContext :=
  writeActivities (backtrack (learnAdditionalClause ctx r.learnedClause) r.backtrackLevel)
    r.learnedClause

theorem Origin.state_afterConflict {r : ConflictResolutionResult} (h : Origin m ctx r) :
    (afterConflict ctx r).state
      = (ctx.state.learn (toCnf r.learnedClause)).backjump r.backtrackLevel := by
  rw [afterConflict, (stutters_writeActivities _ _).state_eq, state_backtrack, h.state_learn]

theorem Origin.good_afterConflict {r : ConflictResolutionResult} (h : Origin m ctx r) :
    Good m (afterConflict ctx r) :=
  h.good_backtrack.of_stutters (stutters_writeActivities _ _)

theorem config_learn (ctx : SolverContext) (c : Clause) :
    (learnAdditionalClause ctx c).config = ctx.config := by
  unfold learnAdditionalClause
  split <;> rfl

theorem config_afterConflict (ctx : SolverContext) (r : ConflictResolutionResult) :
    (afterConflict ctx r).config = ctx.config :=
  config_learn ctx r.learnedClause

/-- The activities are written unless `decay_interval` is 0. -/
theorem updateVsidsActivity_afterConflict {ctx ctx' : SolverContext}
    {r : ConflictResolutionResult} :
    updateVsidsActivity (backtrack (learnAdditionalClause ctx r.learnedClause) r.backtrackLevel)
        r.learnedClause = some ctx' ↔
      ctx.config.interval ≠ 0 ∧ afterConflict ctx r = ctx' := by
  have hconf : (backtrack (learnAdditionalClause ctx r.learnedClause) r.backtrackLevel).config
      = ctx.config := config_learn ctx r.learnedClause
  rw [updateVsidsActivity_eq_some_iff, hconf]
  rfl

/-! ## Steps and runs -/

/-- **The step lemma.** -/
theorem Step.inv (hm : m.WellFormed) {mul : Nat → Nat → Nat} {f g : Frame} (hs : Step mul f g)
    (h : Inv m f) : Inv m g := by
  cases hs with
  | restart => exact Good.restartIfDue h mul
  | unit hid hp =>
      have hg : Good m _ := h
      obtain ⟨u, hu, rfl, hf⟩ := forces_of_propagate hm hg.linked hid hp
      exact hg.propagate hid hu hf
  | count n => exact Good.of_stutters h (stutters_countPropagations _ n)
  | @conflict ctx id n hid hp =>
      have hg : Good m ctx := h
      have hstut := stutters_countConflict ctx
      refine ⟨hg.of_stutters hstut, hid, ?_⟩
      rw [hstut.state_eq]
      exact falsified_of_propagate hm hg.linked hid hp
  | @quiet ctx hp =>
      -- a clause that propagation skips is settled
      have hg : Good m ctx := h
      refine ⟨hg, fun C hC => ?_⟩
      obtain ⟨row, hrow, rfl⟩ := List.mem_map.mp hC
      obtain ⟨id, hid, hclause⟩ := exists_clause_eq hrow
      rw [← hclause]
      exact settled_of_propagate hm hg.linked hid (hp id hid)
  | unsatisfiable hr => exact Conflict.good h
  | learn hr hu =>
      -- `Quiet` is lost here and back after the backtrack
      subst hr
      exact ⟨_, Conflict.origin hm h hu, rfl⟩
  | @backtrack ctx r =>
      obtain ⟨ctx₀, ho, hctx⟩ := h
      have hctx' : ctx = learnAdditionalClause ctx₀ r.learnedClause := hctx
      subst hctx'
      exact ho.good_backtrack
  | activity hup => exact Good.of_stutters h (stutters_updateVsidsActivity hup)
  | decide hv => exact Good.decideOn h.1 h.2 hv
  | finish _ => exact h.1

/-- **The run lemma.** -/
theorem Steps.inv (hm : m.WellFormed) {mul : Nat → Nat → Nat} {f g : Frame} (hs : Steps mul f g)
    (h : Inv m f) : Inv m g := by
  induction hs with
  | refl => exact h
  | tail _ hstep ih => exact hstep.inv hm ih

theorem good_of_solverContext {ctx : SolverContext} (h : solverContext m = .ok ctx) :
    Good m ctx :=
  ⟨(fresh_of_solverContext h).linked, (fresh_of_solverContext h).wf, (fresh_of_solverContext h).quiet⟩

theorem Reachable.inv (hm : m.WellFormed) {mul : Nat → Nat → Nat} {f : Frame}
    (h : Reachable mul m f) : Inv m f := by
  obtain ⟨ctx, hctx, hs⟩ := h
  exact hs.inv hm (good_of_solverContext hctx)

/-- `Linked` and `Wf` hold at every point, also between learning and backtracking. -/
theorem Inv.linked_wf {f : Frame} (h : Inv m f) :
    Linked m f.ctx ∧ Wf (models m) f.ctx.state := by
  obtain ⟨p, ctx⟩ := f
  cases p with
  | head => exact ⟨h.linked, h.wf⟩
  | propagating => exact ⟨h.linked, h.wf⟩
  | conflict id => exact ⟨h.good.linked, h.good.wf⟩
  | learned r =>
      obtain ⟨ctx₀, ho, hctx⟩ := h
      show Linked m ctx ∧ Wf (models m) ctx.state
      rw [show ctx = learnAdditionalClause ctx₀ r.learnedClause from hctx]
      exact ⟨ho.good.linked.learn ho.spec.resolved, ho.wf_learn⟩
  | backtracked r => exact ⟨h.linked, h.wf⟩
  | quiet => exact ⟨h.1.linked, h.1.wf⟩

theorem Reachable.linked (hm : m.WellFormed) {mul : Nat → Nat → Nat} {f : Frame}
    (h : Reachable mul m f) : Linked m f.ctx :=
  (h.inv hm).linked_wf.1

theorem Reachable.wf (hm : m.WellFormed) {mul : Nat → Nat → Nat} {f : Frame}
    (h : Reachable mul m f) : Wf (models m) f.ctx.state :=
  (h.inv hm).linked_wf.2

/-! ## The machine refines the search -/

/-- **The simulation.** A step is one move of the search, or none. -/
theorem Step.moves (hm : m.WellFormed) {mul : Nat → Nat → Nat} {f g : Frame} (hs : Step mul f g)
    (h : Inv m f) : Moves (models m) f.ctx.state g.ctx.state := by
  have hstutter : ∀ {c c' : SolverContext}, Stutters c c' → Moves (models m) c.state c'.state :=
    fun hst => by rw [hst.state_eq]
  cases hs with
  | @restart ctx =>
      show Moves (models m) ctx.state (restartIfDue mul ctx).state
      refine restartIfDue_induct mul ctx ?_ ?_
      · rw [state_restart]
        exact Relation.ReflTransGen.single (Move.backjump (Nat.zero_le _))
      · exact Relation.ReflTransGen.refl
  | unit hid hp =>
      have hg : Good m _ := h
      obtain ⟨u, hu, rfl, hf⟩ := forces_of_propagate hm hg.linked hid hp
      exact Relation.ReflTransGen.single (hg.propagate_move hid hu hf)
  | count n => exact hstutter (stutters_countPropagations _ n)
  | conflict hid hp => exact hstutter (stutters_countConflict _)
  | quiet hp => exact Relation.ReflTransGen.refl
  | unsatisfiable hr => exact Relation.ReflTransGen.refl
  | @learn ctx id r hr hu =>
      subst hr
      have ho := Conflict.origin hm h hu
      show Moves (models m) ctx.state (learnAdditionalClause ctx _).state
      rw [ho.state_learn]
      exact Relation.ReflTransGen.single (Move.learn ho.spec.entailed)
  | @backtrack ctx r =>
      obtain ⟨ctx₀, ho, hctx⟩ := h
      have hctx' : ctx = learnAdditionalClause ctx₀ r.learnedClause := hctx
      show Moves (models m) ctx.state (Fabko.Sat.backtrack ctx r.backtrackLevel).state
      rw [state_backtrack]
      refine Relation.ReflTransGen.single (Move.backjump ?_)
      rw [hctx', ho.state_learn]
      exact le_of_lt ho.backtrackLevel_lt
  | activity hup => exact hstutter (stutters_updateVsidsActivity hup)
  | @decide ctx v hv =>
      show Moves (models m) ctx.state (decideOn ctx v).state
      rw [state_decideOn (mem_unassignedVars.mp hv).1]
      exact Relation.ReflTransGen.single (Move.decide (isOpen_of_mem_unassignedVars hv true))
  | finish _ => exact Relation.ReflTransGen.refl

/-- **A run of the solver is a run of the search.** -/
theorem Steps.moves (hm : m.WellFormed) {mul : Nat → Nat → Nat} {f g : Frame}
    (hs : Steps mul f g) (h : Inv m f) : Moves (models m) f.ctx.state g.ctx.state := by
  induction hs with
  | refl => exact Relation.ReflTransGen.refl
  | tail hrun hstep ih => exact ih.trans (hstep.moves hm (Steps.inv hm hrun h))

end Fabko.Sat
