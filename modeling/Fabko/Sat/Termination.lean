import Fabko.Sat.Answers
import Mathlib.Algebra.Ring.Parity
import Mathlib.Data.Finset.Prod
import Mathlib.Logic.Function.Iterate

set_option autoImplicit false

/-! # The search terminates

Learning adds a set of literals that no clause repeating no variable has, so the `room` left for
learning shrinks with every conflict. Between two conflicts there is at most one restart, and
without one each iteration decides a variable. `potential` puts the three together: every
iteration that does not return lowers it. With `decay_interval` 0 the first clause that is learned
ends the program instead. -/

namespace Fabko.Sat

open Cnf Cdcl

variable {m : Model} {ctx ctx' : SolverContext} {mul : Nat → Nat → Nat}

/-! ## The restart schedule -/

/-- However often it restarts, the threshold is never 0. -/
def PositiveThresholds (mul : Nat → Nat → Nat) (conf : Configuration) : Prop :=
  ∀ k, 1 ≤ (fun t => mul t conf.restartMultiplier)^[k] conf.restartThreshold

theorem PositiveThresholds.threshold {conf : Configuration} (h : PositiveThresholds mul conf) :
    1 ≤ conf.restartThreshold :=
  h 0

/-- Without wrapping, a positive threshold times a positive multiplier stays positive. -/
theorem positiveThresholds_of_pos {conf : Configuration} (ht : 1 ≤ conf.restartThreshold)
    (hr : 1 ≤ conf.restartMultiplier) : PositiveThresholds (fun a b => a * b) conf := by
  intro k
  induction k with
  | zero => exact ht
  | succ k ih =>
      rw [Function.iterate_succ_apply']
      exact Nat.mul_pos ih hr

/-- In 32 bits the product of two odd numbers stays odd. -/
theorem positiveThresholds_of_odd {conf : Configuration} (ht : Odd conf.restartThreshold)
    (hr : Odd conf.restartMultiplier) : PositiveThresholds mulUInt32 conf := by
  intro k
  suffices h : Odd ((fun t => mulUInt32 t conf.restartMultiplier)^[k] conf.restartThreshold) by
    rw [Nat.odd_iff] at h
    omega
  induction k with
  | zero => exact ht
  | succ k ih =>
      rw [Function.iterate_succ_apply']
      have hprod := Nat.odd_iff.mp (ih.mul hr)
      rw [Nat.odd_iff, mulUInt32]
      omega

theorem positiveThresholds_restartIfDue (h : PositiveThresholds mul ctx.config) :
    PositiveThresholds mul (restartIfDue mul ctx).config := by
  refine restartIfDue_induct mul ctx ?_ ?_
  · -- a restart moves one step along the schedule
    exact fun k => h (k + 1)
  · exact h

/-- After the restart test a positive threshold is above the count of conflicts. -/
theorem count_lt_restartIfDue (h : 1 ≤ (restartIfDue mul ctx).config.restartThreshold) :
    (restartIfDue mul ctx).conflictCountSinceLastRestart
      < (restartIfDue mul ctx).config.restartThreshold := by
  unfold restartIfDue at h ⊢
  split at h
  · rename_i hdue
    rw [if_pos hdue]
    exact h
  · rename_i hdue
    rw [if_neg hdue]
    exact not_le.mp hdue

/-! ## The potential -/

/-- The literals over the first `n` variable ids. -/
def litsBelow (n : Nat) : Finset (Lit VarId) :=
  (Finset.range n ×ˢ Finset.univ).image (fun q : Nat × Bool => ⟨q.1, q.2⟩)

theorem mem_litsBelow {n : Nat} {l : Lit VarId} : l ∈ litsBelow n ↔ l.var < n := by
  simp only [litsBelow, Finset.mem_image, Finset.mem_product, Finset.mem_range, Finset.mem_univ,
    and_true]
  constructor
  · rintro ⟨q, hq, rfl⟩
    exact hq
  · intro h
    exact ⟨(l.var, l.sign), h, rfl⟩

/-- How many sets of literals can still be learned. -/
def learnable (ctx : SolverContext) : Nat := room (litsBelow ctx.vars.length) ctx.state.clauses

/-- 1 when the next iteration starts with a restart. -/
def restartsDue (ctx : SolverContext) : Nat :=
  if ctx.config.restartThreshold ≤ ctx.conflictCountSinceLastRestart then 1 else 0

def potential (ctx : SolverContext) : Nat :=
  learnable ctx * (2 * (ctx.vars.length + 1)) + restartsDue ctx * (ctx.vars.length + 1)
    + (unassignedVars ctx).length

/-- It depends on the clauses and on the number of variables only. -/
theorem learnable_congr (hvars : ctx'.vars.length = ctx.vars.length)
    (hclauses : ctx'.clauses = ctx.clauses) : learnable ctx' = learnable ctx := by
  unfold learnable
  rw [hvars]
  show room _ (ctx'.clauses.map _) = room _ (ctx.clauses.map _)
  rw [hclauses]

theorem restartsDue_le (ctx : SolverContext) : restartsDue ctx ≤ 1 := by
  unfold restartsDue
  split <;> omega

/-- Learning outweighs whatever restarting and unassigning give back. -/
theorem potential_lt_of_learnable (hlen : ctx'.vars.length = ctx.vars.length)
    (h : learnable ctx' < learnable ctx) : potential ctx' < potential ctx := by
  have hopen := length_unassignedVars_le ctx'
  have hdue : restartsDue ctx' * (ctx.vars.length + 1) ≤ ctx.vars.length + 1 := by
    have := Nat.mul_le_mul_right (ctx.vars.length + 1) (restartsDue_le ctx')
    omega
  unfold potential
  rw [hlen] at hopen ⊢
  calc learnable ctx' * (2 * (ctx.vars.length + 1)) + restartsDue ctx' * (ctx.vars.length + 1)
        + (unassignedVars ctx').length
      < learnable ctx' * (2 * (ctx.vars.length + 1)) + 2 * (ctx.vars.length + 1) := by omega
    _ = (learnable ctx' + 1) * (2 * (ctx.vars.length + 1)) :=
        (Nat.succ_mul _ _).symm
    _ ≤ learnable ctx * (2 * (ctx.vars.length + 1)) := Nat.mul_le_mul_right _ h
    _ ≤ _ := by omega

/-- What the measure needs besides `Good`. -/
structure Running (mul : Nat → Nat → Nat) (m : Model) (ctx : SolverContext) : Prop where
  good : Good m ctx
  thresholds : PositiveThresholds mul ctx.config
  interval : ctx.config.interval ≠ 0

/-! ## Learning takes room -/

theorem Origin.learnable_lt {r : ConflictResolutionResult} (h : Origin m ctx r) :
    learnable (afterConflict ctx r) < learnable ctx := by
  have hlen : (afterConflict ctx r).vars.length = ctx.vars.length :=
    h.good_afterConflict.linked.length_vars_eq h.good.linked
  have hclauses : (afterConflict ctx r).state.clauses
      = ctx.state.clauses ++ [toCnf r.learnedClause] := by
    rw [h.state_afterConflict]
    rfl
  unfold learnable
  rw [hlen, hclauses]
  refine room_learn_lt h.spec.distinct_toCnf (fun l hl => ?_) (fun D hD hd => h.not_subset hD hd)
  obtain ⟨p, hp, rfl⟩ := mem_toCnf.mp hl
  exact mem_litsBelow.mpr (h.good.linked.lt_length (h.spec.resolved p hp))

/-! ## One iteration -/

/-- Where nothing is left to assign or to propagate, every clause is satisfied. -/
theorem isSatSolved_of_settled (hm : m.WellFormed) (hl : Linked m ctx)
    (hs : ∀ C ∈ ctx.state.clauses, Settled ctx.state.value C) (hall : unassignedVars ctx = []) :
    isSatSolved ctx = true := by
  apply List.all_eq_true.mpr
  intro row hrow
  have hres := hl.resolved row hrow
  apply (isClauseSatisfied_iff hm hres).mpr
  rcases hs _ (List.mem_map_of_mem hrow) with hsat | htwo
  · exact hsat
  · -- an open entry would be an unassigned variable
    obtain ⟨l, hopen⟩ := List.exists_mem_of_length_pos (lt_of_lt_of_le Nat.zero_lt_two htwo)
    obtain ⟨hmem, ho⟩ := mem_openLits.mp hopen
    obtain ⟨p, hp, rfl⟩ := mem_toCnf.mp hmem
    have hun : p.2 ∈ unassignedVars ctx :=
      mem_unassignedVars.mpr ⟨hl.lt_length (hres p hp), Assignment.toOption_eq_none.mp ho⟩
    rw [hall] at hun
    cases hun

theorem readSolution_ne_nil (hl : Linked m ctx) (hne : m.literals ≠ []) : readSolution ctx ≠ [] := by
  intro hnil
  have hlen : ctx.vars = [] := by simpa [readSolution] using hnil
  rw [← hl.literals, hlen] at hne
  exact hne rfl

/-- Where every clause is settled and every variable assigned, the search has an answer. -/
theorem not_unsolved (hm : m.WellFormed) (hne : m.literals ≠ []) (hl : Linked m ctx)
    (hs : ∀ C ∈ ctx.state.clauses, Settled ctx.state.value C) (hall : unassignedVars ctx = []) :
    ¬ (isSatSolved ctx = false ∨ readSolution ctx = []) := by
  rintro (hunsolved | hnil)
  · rw [isSatSolved_of_settled hm hl hs hall] at hunsolved
    cases hunsolved
  · exact readSolution_ne_nil hl hne hnil

/-- A decision without a restart before it leaves fewer variables; after a restart none is due. -/
theorem potential_decideOn {c : SolverContext} {v : VarId} (hl : Linked m ctx)
    (ht : 1 ≤ (restartIfDue mul ctx).config.restartThreshold)
    (hup : unitPropagation (restartIfDue mul ctx) = some (c, none)) (hlc : Linked m c)
    (hv : v ∈ unassignedVars c) : potential (decideOn c v) < potential ctx := by
  have hsame := (@unitPropagation_spec mul _ _ _ hup).2
  have hlen : c.vars.length = ctx.vars.length := hlc.length_vars_eq hl
  have hlen' : (decideOn c v).vars.length = c.vars.length := List.length_modify ..
  have hopen := length_unassignedVars_decideOn hv
  have hle := length_unassignedVars_le c
  have hnotdue : restartsDue (decideOn c v) = 0 := by
    have hlt := count_lt_restartIfDue ht
    rw [← hsame.config, ← hsame.conflictCount] at hlt
    exact if_neg (not_le.mpr hlt)
  have hclauses : c.clauses = ctx.clauses := clauses_of_unitPropagation hup
  have hlearn : learnable (decideOn c v) = learnable ctx :=
    learnable_congr (hlen'.trans hlen) hclauses
  unfold potential
  rw [hnotdue, hlearn, hlen', hlen]
  -- a restart may unassign every variable, which its term of the potential pays for
  by_cases hdue : ctx.config.restartThreshold ≤ ctx.conflictCountSinceLastRestart
  · have h1 : restartsDue ctx = 1 := if_pos hdue
    rw [h1]
    omega
  · have h0 : restartsDue ctx = 0 := if_neg hdue
    obtain ⟨c', o, hup', hmono⟩ := unitPropagation_isSome hl
    rw [restartIfDue, if_neg hdue, hup', Option.some.injEq, Prod.mk.injEq] at hup
    rw [hup.1] at hmono
    rw [h0]
    omega

/-- An iteration writes the configuration in a restart only. -/
theorem IterationSpec.config {out : Option (Except SatError SolverResult)}
    (h : IterationSpec mul ctx ctx' out) : ctx'.config = (restartIfDue mul ctx).config := by
  cases h with
  | unsatisfiable hup _ => exact (@unitPropagation_spec mul _ _ _ hup).2.config
  | @learned c id r hup _ _ _ =>
      show (afterConflict (countConflict c) r).config = _
      rw [config_afterConflict]
      exact (@unitPropagation_spec mul _ _ _ hup).2.config
  | decided hup _ => exact (@unitPropagation_spec mul _ _ _ hup).2.config
  | solved hup _ _ _ => exact (@unitPropagation_spec mul _ _ _ hup).2.config
  | unsolved hup _ _ => exact (@unitPropagation_spec mul _ _ _ hup).2.config

theorem Running.iteration (hm : m.WellFormed) (h : Running mul m ctx)
    {out : Option (Except SatError SolverResult)} (hs : IterationSpec mul ctx ctx' out) :
    Running mul m ctx' := by
  refine ⟨Steps.inv hm hs.steps h.good, ?_, ?_⟩
  · rw [hs.config]
    exact positiveThresholds_restartIfDue h.thresholds
  · rw [hs.config, interval_restartIfDue]
    exact h.interval

/-- **Every iteration that returns nothing lowers the potential.** -/
theorem IterationSpec.potential_lt (hm : m.WellFormed) (hne : m.literals ≠ []) (hg : Good m ctx)
    (ht : 1 ≤ (restartIfDue mul ctx).config.restartThreshold)
    (hs : IterationSpec mul ctx ctx' none) : potential ctx' < potential ctx := by
  have hrun : ∀ {g : Frame}, Steps mul ⟨.head, ctx⟩ g → Inv m g := fun hsteps =>
    hsteps.inv hm hg
  cases hs with
  | @learned c id r hup hr hn _ =>
      -- the learned clause takes room, whatever the backtrack unassigns
      subst hr
      have hconf : Conflict m (countConflict c) id := hrun (steps_of_unitPropagation hup)
      have ho := hconf.origin hm hn
      have hclauses : c.clauses = ctx.clauses := clauses_of_unitPropagation hup
      have hlt : learnable (afterConflict (countConflict c) _) < learnable ctx :=
        calc learnable (afterConflict (countConflict c) _) < learnable (countConflict c) :=
              ho.learnable_lt
          _ = learnable ctx :=
              learnable_congr (hconf.good.linked.length_vars_eq hg.linked) hclauses
      exact potential_lt_of_learnable (ho.good_afterConflict.linked.length_vars_eq hg.linked) hlt
  | @decided c v hup hv =>
      have hq := hrun (steps_of_unitPropagation hup)
      exact potential_decideOn hg.linked ht hup hq.1.linked hv
  | unsolved hup hall hs =>
      -- propagation was complete, so an assignment of all variables is a solution
      have hq := hrun (steps_of_unitPropagation hup)
      exact absurd hs (not_unsolved hm hne hq.1.linked hq.2 hall)

/-! ## A call -/

theorem iteration_isSome (hl : Linked m ctx) (choose : Chooser)
    (h : ctx.config.interval = 0 → ¬ Learns mul ctx) : ∃ r, iteration mul choose ctx = some r := by
  refine Option.ne_none_iff_exists'.mp fun hnone => ?_
  obtain ⟨hzero, hlearns⟩ := (iteration_eq_none_iff (hl.restartIfDue mul) choose).mp hnone
  exact h hzero hlearns

/-- With more fuel than potential a call returns, whatever it chooses. -/
theorem Running.search_isSome (hm : m.WellFormed) (hne : m.literals ≠ []) {fuel : Nat}
    (choose : Nat → Chooser) (n : Nat) (h : Running mul m ctx) (hfuel : potential ctx < fuel) :
    ∃ ctx' r, search mul choose fuel n ctx = some (ctx', r) := by
  rw [search_eq_run]
  refine Loop.exists_run_of_measure (P := fun _ c => Running mul m c) potential ?_ h hfuel
  intro k c hrun
  obtain ⟨⟨c', out⟩, hit⟩ :=
    iteration_isSome hrun.good.linked (choose k) (fun hzero => absurd hzero hrun.interval)
  cases out with
  | some r => exact Or.inl ⟨c', r, hit⟩
  | none =>
      have hspec := iteration_spec hit
      have ht := (positiveThresholds_restartIfDue hrun.thresholds).threshold
      exact Or.inr ⟨c', hit, hrun.iteration hm hspec,
        hspec.potential_lt hm hne hrun.good ht⟩

/-- A call that returns leaves a context the next call can start from. -/
theorem Running.search (hm : m.WellFormed) {fuel : Nat} {choose : Nat → Chooser} {n : Nat}
    {r : Except SatError SolverResult} (h : Running mul m ctx)
    (hs : search mul choose fuel n ctx = some (ctx', r)) : Running mul m ctx' := by
  rw [search_eq_run] at hs
  refine Loop.run_induct (P := fun _ c => Running mul m c) (Q := fun c _ => Running mul m c)
    ?_ ?_ h hs
  · exact fun _ _ _ hc hit => hc.iteration hm (iteration_spec hit)
  · exact fun _ _ _ _ hc hit => hc.iteration hm (iteration_spec hit)

theorem Between.running (hm : m.WellFormed) (ht : PositiveThresholds mul m.conf)
    (hd : m.conf.interval ≠ 0) (h : Between mul m ctx) : Running mul m ctx := by
  induction h with
  | constructed h =>
      have hconf := (fresh_of_solverContext h).config
      refine ⟨good_of_solverContext h, ?_, ?_⟩
      · rw [hconf]
        exact ht
      · rw [hconf]
        exact hd
  | called _ hs ih => exact ih.search hm hs

/-- A result or `unsatisfiable`. -/
def Decides (r : Except SatError SolverResult) : Prop :=
  r = .error .unsatisfiable ∨ ∃ res, r = .ok res

theorem Correct.decides {r : Except SatError SolverResult} (h : Correct m r) : Decides r := by
  match r, h with
  | .ok res, _ => exact Or.inr ⟨res, rfl⟩
  | .error .unsatisfiable, _ => exact Or.inl rfl

/-- **The search terminates** unless `decay_interval` is 0, within a number of iterations that
depends on the context and not on the choices. -/
theorem search_terminates (hm : m.WellFormed) (hne : m.literals ≠ [])
    (ht : 1 ≤ m.conf.restartThreshold) (hr : 1 ≤ m.conf.restartMultiplier)
    (hd : m.conf.interval ≠ 0) (hb : Between (fun a b => a * b) m ctx) :
    ∃ fuel, ∀ choose : Nat → Chooser, ∃ ctx' r,
      search (fun a b => a * b) choose fuel 0 ctx = some (ctx', r) ∧ Decides r := by
  have hrun := hb.running hm (positiveThresholds_of_pos ht hr) hd
  refine ⟨potential ctx + 1, fun choose => ?_⟩
  obtain ⟨ctx', r, hs⟩ := hrun.search_isSome hm hne choose 0 (Nat.lt_succ_self _)
  exact ⟨ctx', r, hs, (search_correct hm hb hs).decides⟩

theorem search_terminates_threeSigns :
    ∃ ctx fuel, solverContext threeSigns = .ok ctx ∧ ∀ choose : Nat → Chooser, ∃ ctx' r,
      search (fun a b => a * b) choose fuel 0 ctx = some (ctx', r) ∧ Decides r := by
  have hm : threeSigns.WellFormed := by decide
  obtain ⟨ctx, hctx⟩ := solverContext_isOk hm
  obtain ⟨fuel, h⟩ := search_terminates hm (by decide) (by decide) (by decide) (by decide)
    (Between.constructed hctx)
  exact ⟨ctx, fuel, hctx, h⟩

/-- `threeSigns` with `decay_interval` 0. -/
def neverDecaying : Model := { threeSigns with conf := { decayInterval := 0 } }

/-- The second iteration learns that 1 is off and divides by zero, however long the call may run. -/
theorem not_search_neverDecaying :
    neverDecaying.WellFormed ∧ neverDecaying.literals ≠ [] ∧
      1 ≤ neverDecaying.conf.restartThreshold ∧ 1 ≤ neverDecaying.conf.restartMultiplier ∧
      ∃ ctx c, solverContext neverDecaying = .ok ctx ∧
        iteration (fun a b => a * b) highestVsids ctx = some (c, none) ∧
        iteration (fun a b => a * b) highestVsids c = none ∧
        ∀ fuel, search (fun a b => a * b) (fun _ => highestVsids) fuel 0 ctx = none := by
  refine ⟨by decide, by decide, by decide, by decide, ?_⟩
  obtain ⟨ctx, hctx⟩ := solverContext_isOk (m := neverDecaying) (by decide)
  have hrun : ∃ c, iteration (fun a b => a * b) highestVsids ctx = some (c, none) ∧
      iteration (fun a b => a * b) highestVsids c = none := by
    have heval : (solverContext neverDecaying).toOption.any (fun ctx =>
        (iteration (fun a b => a * b) highestVsids ctx).any (fun p =>
          p.2.isNone && (iteration (fun a b => a * b) highestVsids p.1).isNone)) = true := by
      decide +kernel
    rw [hctx] at heval
    rcases hfirst : iteration (fun a b => a * b) highestVsids ctx with _ | ⟨c, _ | r⟩
    · simp [Except.toOption, hfirst] at heval
    · exact ⟨c, rfl, by simpa [Except.toOption, hfirst] using heval⟩
    · simp [Except.toOption, hfirst] at heval
  obtain ⟨c, hfirst, hsecond⟩ := hrun
  refine ⟨ctx, c, hctx, hfirst, hsecond, fun fuel => ?_⟩
  rw [search_eq_run]
  exact Loop.run_eq_none_of_forever (P := fun _ t => t = c)
    (fun k t ht => Or.inl (by rw [ht]; exact hsecond)) (Loop.Head.start.next hfirst) rfl fuel

end Fabko.Sat
