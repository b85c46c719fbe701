import Fabko.Sat.Termination

set_option autoImplicit false

/-! # Repeated calls

`solver::solve` asks for several solutions by calling `solve_sat` again on the context the last
call left. Nothing in that context excludes the solution just found: every variable is assigned,
every clause is satisfied and no restart changes that, so the next call returns the same
solution. -/

namespace Fabko.Sat

open Cnf Cdcl

variable {m : Model} {ctx ctx' : SolverContext} {mul : Nat → Nat → Nat}

/-! ## The solutions of a model -/

/-- All choices of a sign for each of the given variables. -/
def signings : List Literal → List SolverResult
  | [] => [[]]
  | l :: ls => (signings ls).flatMap (fun r => [⟨(l.value : Int)⟩ :: r, ⟨-(l.value : Int)⟩ :: r])

/-- The satisfying assignments of the declared variables. -/
def solutions (m : Model) : List SolverResult :=
  (signings m.literals).filter (fun r => decide (m.SatisfiedBy (valuation r)))

theorem mem_signings {ls : List Literal} {r : SolverResult} :
    r ∈ signings ls ↔ r.map Literal.value = ls.map Literal.value := by
  induction ls generalizing r with
  | nil => simp [signings]
  | cons l ls ih =>
      simp only [signings, List.mem_flatMap, List.mem_cons, List.not_mem_nil, or_false]
      constructor
      · rintro ⟨r', hr', rfl | rfl⟩
        · rw [List.map_cons, List.map_cons, ih.mp hr', Literal.value_natCast]
        · rw [List.map_cons, List.map_cons, ih.mp hr', Literal.value_neg_natCast]
      · intro h
        rcases r with _ | ⟨l', r'⟩
        · cases h
        · rw [List.map_cons, List.map_cons, List.cons.injEq] at h
          refine ⟨r', ih.mpr h.2, ?_⟩
          -- an integer is its absolute value or the opposite of it
          have hval : l'.value_.natAbs = l.value := h.1
          rcases Int.natAbs_eq l'.value_ with hpos | hneg
          · exact Or.inl (by rw [← hval, ← hpos])
          · exact Or.inr (by rw [← hval, ← hneg])

theorem mem_solutions {r : SolverResult} : r ∈ solutions m ↔ IsSolution m r := by
  rw [solutions, List.mem_filter, mem_signings, decide_eq_true_eq]
  exact ⟨fun h => ⟨h.1, h.2⟩, fun h => ⟨h.declared, h.satisfies⟩⟩

theorem signings_nodup {ls : List Literal} (h : ∀ l ∈ ls, l.value ≠ 0) : (signings ls).Nodup := by
  induction ls with
  | nil => exact List.nodup_singleton _
  | cons l ls ih =>
      have hl : l.value ≠ 0 := h l List.mem_cons_self
      have hsign : (l.value : Int) ≠ -(l.value : Int) := by omega
      refine List.nodup_flatMap.mpr ⟨fun r _ => by simp [hsign], ?_⟩
      refine (ih (fun l' hl' => h l' (List.mem_cons_of_mem l hl'))).imp (fun {r r'} hne => ?_)
      -- lists from different tails are different
      intro x hx hx'
      simp only [List.mem_cons, List.not_mem_nil, or_false] at hx hx'
      rcases hx with rfl | rfl <;> rcases hx' with h' | h' <;>
        exact hne (List.cons.inj h').2

/-- No solution is counted twice. -/
theorem solutions_nodup (hm : m.WellFormed) : (solutions m).Nodup :=
  (signings_nodup hm.nonzero).filter _

theorem solutions_eq_nil (h : ¬ m.Satisfiable) : solutions m = [] := by
  refine List.eq_nil_iff_forall_not_mem.mpr (fun r hr => h ?_)
  exact ⟨valuation r, (mem_solutions.mp hr).satisfies⟩

/-! ## Propagation with nothing to do -/

theorem unitPropagation_of_idle (h : ∀ id < ctx.clauses.length,
    propagate ⟨ctx, none, 0⟩ id = ⟨ctx, none, 0⟩) : unitPropagation ctx = some (ctx, none) := by
  have hpass : propagatePass ctx = ⟨ctx, none, 0⟩ :=
    foldl_propagate_of_idle (fun id hid => h id (List.mem_range.mp hid))
  unfold unitPropagation unitPropagationLoop
  simp [hpass]

theorem unitPropagation_of_settled (hm : m.WellFormed) (hl : Linked m ctx)
    (hs : ∀ C ∈ ctx.state.clauses, Settled ctx.state.value C) :
    unitPropagation ctx = some (ctx, none) :=
  unitPropagation_of_idle (fun _ hid =>
    propagate_of_settled hm hl hid (hs _ (Linked.toCnf_mem_clauses hid)) 0)

theorem unitPropagation_of_isSatSolved (h : isSatSolved ctx = true) :
    unitPropagation ctx = some (ctx, none) := by
  apply unitPropagation_of_idle
  intro id hid
  obtain ⟨row, hrow, heq⟩ := clause_mem hid
  have hsat : isClauseSatisfied ctx (ctx.clause id) = true := by
    rw [← heq]
    exact List.all_eq_true.mp h row hrow
  simp [propagate, hsat]

/-! ## A solved context stays solved -/

theorem backtrack_of_le {k : Nat} (h : ∀ v ∈ ctx.trail, ctx.levelOf v ≤ k) :
    backtrack ctx k = { ctx with currentDecisionLevel := k } := by
  have hloop : backtrackLoop k ctx.trail.reverse ctx.vars = (ctx.trail.reverse, ctx.vars) := by
    rcases ht : ctx.trail.reverse with _ | ⟨v, rest⟩
    · rfl
    · have hv : v ∈ ctx.trail := List.mem_reverse.mp (by rw [ht]; exact List.mem_cons_self)
      exact if_pos (h v hv)
  unfold backtrack
  simp only [hloop, List.reverse_reverse]

/-- What a returned solution leaves: all variables assigned, all clauses satisfied, and if a
restart is due it has nothing to undo. -/
structure Solved (ctx : SolverContext) : Prop where
  assigned : unassignedVars ctx = []
  satisfied : isSatSolved ctx = true
  ne_nil : readSolution ctx ≠ []
  rooted : ctx.config.restartThreshold ≤ ctx.conflictCountSinceLastRestart →
    ∀ v ∈ ctx.trail, ctx.levelOf v = 0

theorem Solved.restart_records (h : Solved ctx) (mul : Nat → Nat → Nat) :
    (restartIfDue mul ctx).vars = ctx.vars ∧ (restartIfDue mul ctx).clauses = ctx.clauses ∧
      (restartIfDue mul ctx).trail = ctx.trail := by
  unfold restartIfDue
  split
  · rename_i hdue
    have hb := @backtrack_of_le
      { ctx with
        conflictCountSinceLastRestart := 0
        statistics := { ctx.statistics with restarts := ctx.statistics.restarts + 1 } } 0
      (fun v hv => le_of_eq (h.rooted hdue v hv))
    simp only [restart, hb, and_self]
  · exact ⟨rfl, rfl, rfl⟩

theorem readSolution_congr (hv : ctx'.vars = ctx.vars) : readSolution ctx' = readSolution ctx := by
  unfold readSolution
  rw [hv]

theorem Solved.restartIfDue (h : Solved ctx) (mul : Nat → Nat → Nat) :
    Solved (restartIfDue mul ctx) := by
  obtain ⟨hv, hc, ht⟩ := h.restart_records mul
  have hvar : ∀ v, (Fabko.Sat.restartIfDue mul ctx).var v = ctx.var v := fun v => by
    unfold SolverContext.var
    rw [hv]
  refine ⟨?_, ?_, ?_, fun hdue v hvt => ?_⟩
  · unfold unassignedVars
    simp only [hv, hvar]
    exact h.assigned
  · unfold isSatSolved isClauseSatisfied
    simp only [hc, hvar]
    exact h.satisfied
  · rw [readSolution_congr hv]
    exact h.ne_nil
  · show ((Fabko.Sat.restartIfDue mul ctx).var v).context.decisionLevel = 0
    rw [hvar]
    rw [ht] at hvt
    by_cases hold : ctx.config.restartThreshold ≤ ctx.conflictCountSinceLastRestart
    · exact h.rooted hold v hvt
    · rw [Fabko.Sat.restartIfDue, if_neg hold] at hdue
      exact absurd hdue hold

theorem Solved.search (h : Solved ctx) (choose : Nat → Chooser) (fuel n : Nat) :
    search mul choose (fuel + 1) n ctx
      = some (Fabko.Sat.restartIfDue mul ctx, .ok (readSolution ctx)) := by
  have hs := h.restartIfDue mul
  have hpick : (choose n).pick (Fabko.Sat.restartIfDue mul ctx) = none := by
    rcases hp : (choose n).pick (Fabko.Sat.restartIfDue mul ctx) with _ | v
    · rfl
    · have := (choose n).mem_of_pick _ v hp
      rw [hs.assigned] at this
      cases this
  have hne : (readSolution ctx).isEmpty = false := by simpa using h.ne_nil
  have hread := readSolution_congr (h.restart_records mul).1
  unfold Fabko.Sat.search iteration
  simp [unitPropagation_of_isSatSolved hs.satisfied, makeDecision, hpick, hs.satisfied, hread,
    hne]

/-- **Asking again gives the same solution again.** -/
theorem Solved.solveLoop (h : Solved ctx) (choose : Nat → Chooser) (fuel i : Nat) :
    solveLoop mul choose (fuel + 1) i ctx = some (List.replicate i (readSolution ctx)) := by
  induction i generalizing ctx with
  | zero => rfl
  | succ i ih =>
      have hread := readSolution_congr (h.restart_records mul).1
      simp only [Fabko.Sat.solveLoop, h.search, ih (h.restartIfDue mul), hread, Option.map_some,
        List.replicate_succ]

/-- The iteration that returns a solution leaves a solved context. -/
theorem solved_of_iterationSpec (hm : m.WellFormed) {res : SolverResult}
    (hc : Reachable mul m ⟨.head, ctx⟩) (h : IterationSpec mul ctx ctx' (some (.ok res))) :
    Solved ctx' ∧ res = readSolution ctx' := by
  cases h with
  | solved hup hall hs hne =>
      refine ⟨⟨hall, hs, hne, fun hdue v hv => ?_⟩, rfl⟩
      have hsame := (@unitPropagation_spec mul _ _ _ hup).2
      have hw := (hc.trans (steps_of_unitPropagation hup)).wf hm
      rw [hsame.config, hsame.conflictCount] at hdue
      have hle : ctx'.levelOf v ≤ ctx'.currentDecisionLevel :=
        hw.le_current v (List.mem_reverse.mpr hv)
      -- a restart that is due right after the restart test means that the test restarted
      have hcur : (restartIfDue mul ctx).currentDecisionLevel = 0 := by
        unfold restartIfDue at hdue ⊢
        split at hdue
        · rename_i hd
          rw [if_pos hd]
          rfl
        · rename_i hd
          exact absurd hdue hd
      rw [hsame.current, hcur] at hle
      omega

/-! ## What `solve` returns -/

/-- Nothing for an unsatisfiable model, else one solution as many times as it is asked for. -/
theorem solveLoop_eq (hm : m.WellFormed) {choose : Nat → Chooser} {fuel i : Nat}
    {rs : List SolverResult} (hc : solverContext m = .ok ctx)
    (h : solveLoop mul choose fuel (i + 1) ctx = some rs) :
    (rs = [] ∧ ¬ m.Satisfiable) ∨ ∃ r, IsSolution m r ∧ rs = List.replicate (i + 1) r := by
  have hb : Between mul m ctx := Between.constructed hc
  unfold solveLoop at h
  split at h
  · cases h
  · rename_i c e hs
    have hcorrect := search_correct hm hb hs
    rcases e with _ | _
    · exact Or.inl ⟨(Option.some.inj h).symm, hcorrect⟩
    · exact hcorrect.elim
  · rename_i c r hs
    obtain ⟨c₀, hsteps, hspec⟩ := search_spec hs
    obtain ⟨hsolved, rfl⟩ := solved_of_iterationSpec hm (hb.reachable.trans hsteps) hspec
    -- one iteration is enough for every later call
    obtain ⟨fuel, rfl⟩ : ∃ k, fuel = k + 1 := by
      rcases fuel with _ | k
      · cases hs
      · exact ⟨k, rfl⟩
    rw [hsolved.solveLoop, Option.map_some, Option.some.injEq] at h
    refine Or.inr ⟨readSolution c, search_correct hm hb hs, ?_⟩
    rw [← h, List.replicate_succ]

/-- The list of answers `n` calls should give. -/
structure Enumerates (m : Model) (n : Nat) (rs : List SolverResult) : Prop where
  sound : ∀ r ∈ rs, IsSolution m r
  distinct : rs.Nodup
  count : rs.length = min n (solutions m).length

/-- `solver(m).solve(n)` returns such a list. -/
def EnumeratesSolutions (mul : Nat → Nat → Nat) (choose : Nat → Chooser) (m : Model) (n : Nat) :
    Prop :=
  ∃ ctx fuel rs, solverContext m = .ok ctx ∧ solveLoop mul choose fuel n ctx = some rs ∧
    Enumerates m n rs

theorem enumerates_nil {n : Nat} (h : min n (solutions m).length = 0) : Enumerates m n [] :=
  ⟨fun _ hr => absurd hr List.not_mem_nil, List.nodup_nil, h.symm⟩

/-- Two answers to a satisfiable model are equal. -/
theorem EnumeratesSolutions.le_one (hm : m.WellFormed) {choose : Nat → Chooser} {n : Nat}
    (h : EnumeratesSolutions mul choose m n) : n ≤ 1 ∨ ¬ m.Satisfiable := by
  obtain ⟨ctx, fuel, rs, hc, hs, he⟩ := h
  by_cases hn : n ≤ 1
  · exact Or.inl hn
  · obtain ⟨i, rfl⟩ : ∃ i, n = i + 1 + 1 := ⟨n - 2, by omega⟩
    rcases solveLoop_eq hm hc hs with ⟨-, hun⟩ | ⟨r, -, rfl⟩
    · exact Or.inr hun
    · have hnd := he.distinct
      rw [List.replicate_succ, List.replicate_succ] at hnd
      exact absurd List.mem_cons_self (List.nodup_cons.mp hnd).1

theorem enumeratesSolutions_zero (hm : m.WellFormed) (choose : Nat → Chooser) :
    EnumeratesSolutions mul choose m 0 := by
  obtain ⟨ctx, hc⟩ := solverContext_isOk hm
  exact ⟨ctx, 0, [], hc, rfl, enumerates_nil (Nat.zero_min _)⟩

/-- A first call that returns is enough for one solution, or to find that there is none. -/
theorem enumeratesSolutions_of_search (hm : m.WellFormed) {choose : Nat → Chooser} {fuel n : Nat}
    {r : Except SatError SolverResult} (hc : solverContext m = .ok ctx)
    (hs : search mul choose fuel 0 ctx = some (ctx', r)) (h : n ≤ 1 ∨ ¬ m.Satisfiable) :
    EnumeratesSolutions mul choose m n := by
  have hcorrect := search_correct hm (Between.constructed hc) hs
  cases n with
  | zero => exact enumeratesSolutions_zero hm choose
  | succ i =>
      rcases r with (_ | _) | res
      · -- `unsatisfiable`
        have hnil : min (i + 1) (solutions m).length = 0 := by
          rw [solutions_eq_nil hcorrect]
          exact Nat.min_zero _
        exact ⟨ctx, fuel, [], hc, by simp only [solveLoop, hs], enumerates_nil hnil⟩
      · exact hcorrect.elim
      · have hsol : IsSolution m res := hcorrect
        have hi : i = 0 := by
          rcases h with h | h
          · omega
          · exact absurd ⟨_, hsol.satisfies⟩ h
        subst hi
        have hpos := List.length_pos_of_mem (mem_solutions.mpr hsol)
        refine ⟨ctx, fuel, [res], hc, ?_, ?_, List.nodup_singleton _, ?_⟩
        · simp only [solveLoop, hs, Option.map_some]
        · intro r hr
          rw [List.mem_singleton.mp hr]
          exact hsol
        · rw [List.length_singleton]
          omega

/-- Where `solve` returns, its first call has. -/
theorem EnumeratesSolutions.search {choose : Nat → Chooser} {i : Nat}
    (h : EnumeratesSolutions mul choose m (i + 1)) :
    ∃ ctx fuel ctx' r, solverContext m = .ok ctx ∧
      search mul choose fuel 0 ctx = some (ctx', r) := by
  obtain ⟨ctx, fuel, rs, hc, hs, -⟩ := h
  rcases hfirst : Fabko.Sat.search mul choose fuel 0 ctx with _ | ⟨ctx', r⟩
  · rw [solveLoop, hfirst] at hs
    cases hs
  · exact ⟨ctx, fuel, ctx', r, hc, hfirst⟩

/-- One clause with three solutions. -/
def oneClause : Model where
  literals := [⟨1⟩, ⟨2⟩]
  clauses := [[⟨1⟩, ⟨2⟩]]

/-- Two of its three solutions are asked for and one is returned twice. -/
theorem not_enumeratesSolutions_oneClause :
    (solutions oneClause).length = 3 ∧
    ((solverContext oneClause).toOption.bind (fun ctx => solve 9 ctx 2)
      = some [[⟨1⟩, ⟨2⟩], [⟨1⟩, ⟨2⟩]]) ∧
    ¬ EnumeratesSolutions mulUInt32 (fun _ => highestVsids) oneClause 2 := by
  refine ⟨by decide, by decide +kernel, fun h => ?_⟩
  rcases h.le_one (by decide) with h2 | hun
  · omega
  · exact hun ⟨fun _ => true, by decide⟩

end Fabko.Sat
