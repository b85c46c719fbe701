import Fabko.Sat.ImplicationGraph
import Fabko.Sat.Invariants

set_option autoImplicit false

/-! # Is the backjump asserting?

The backtracking level of `resolve_conflict` is raised for literals a reason adds, and never for
the literals of the conflict clause itself. So the learned clause is unit after the backjump
exactly when the levels of the conflict clause are covered by a literal the analysis adds. -/

namespace Fabko.Sat

open Cnf Cdcl

variable {m : Model} {ctx : SolverContext} {c : Clause} {mul : Nat → Nat → Nat}

/-! ## The assertion level -/

/-- The largest level among the literals that are not of the current level, 0 if there is none. -/
def assertionLevel (ctx : SolverContext) (c : Clause) : Nat :=
  ((c.map (fun p => ctx.levelOf p.2)).filter (fun l => l ≠ ctx.currentDecisionLevel)).foldr max 0

theorem foldr_max_le_iff {l : List Nat} {k : Nat} : l.foldr max 0 ≤ k ↔ ∀ x ∈ l, x ≤ k := by
  induction l with
  | nil => simp
  | cons x l ih => simp [ih]

theorem assertionLevel_le_iff {k : Nat} : assertionLevel ctx c ≤ k ↔
    ∀ p ∈ c, ctx.levelOf p.2 ≠ ctx.currentDecisionLevel → ctx.levelOf p.2 ≤ k := by
  rw [assertionLevel, foldr_max_le_iff]
  constructor
  · intro h p hp hlev
    refine h _ (List.mem_filter.mpr ⟨List.mem_map_of_mem hp, by simpa using hlev⟩)
  · intro h x hx
    obtain ⟨hmem, hlev⟩ := List.mem_filter.mp hx
    obtain ⟨p, hp, rfl⟩ := List.mem_map.mp hmem
    exact h p hp (by simpa using hlev)

/-- The literals of the conflict clause below the current level are all of level 0, or one that
the analysis brings in is of a level as high as theirs. -/
def LevelsCovered (ctx : SolverContext) (c : Clause) : Prop :=
  (∀ q ∈ c, ctx.levelOf q.2 ≠ ctx.currentDecisionLevel → ctx.levelOf q.2 = 0) ∨
  ∃ i p, BroughtIn ctx c i p ∧
    ∀ q ∈ c, ctx.levelOf q.2 ≠ ctx.currentDecisionLevel → ctx.levelOf q.2 ≤ ctx.levelOf p.2

theorem GraphSpec.covered_iff {r : ConflictResolutionResult} (h : GraphSpec ctx c r) :
    LevelsCovered ctx c ↔
      ∀ q ∈ c, ctx.levelOf q.2 ≠ ctx.currentDecisionLevel → ctx.levelOf q.2 ≤ r.backtrackLevel := by
  constructor
  · rintro (hzero | ⟨i, p, hb, hle⟩) q hq hlev
    · rw [hzero q hq hlev]
      exact Nat.zero_le _
    · exact le_trans (hle q hq hlev) (h.raised i p hb)
  · intro hle
    rcases h.attained with hz | ⟨i, p, hb, heq⟩
    · exact Or.inl (fun q hq hlev => Nat.le_zero.mp (hz ▸ hle q hq hlev))
    · exact Or.inr ⟨i, p, hb, fun q hq hlev => heq ▸ hle q hq hlev⟩

/-- **When the level is the assertion level.** -/
theorem backtrackLevel_eq_iff {r : ConflictResolutionResult} (h : GraphSpec ctx c r)
    (hs : LearnedSpec m ctx r) :
    r.backtrackLevel = assertionLevel ctx r.learnedClause ↔ LevelsCovered ctx c := by
  have hle : r.backtrackLevel ≤ assertionLevel ctx r.learnedClause := by
    rcases hs.level with hz | ⟨hlt, p, hp, hlev⟩
    · omega
    · rw [← hlev]
      exact assertionLevel_le_iff.mp (le_refl _) p hp (by omega)
  rw [h.covered_iff]
  constructor
  · intro heq q hq hlev
    obtain ⟨p, hp, hpq⟩ := h.kept q hq hlev
    rw [← hpq] at hlev ⊢
    exact assertionLevel_le_iff.mp (le_of_eq heq.symm) p hp hlev
  · intro hcov
    refine le_antisymm hle (assertionLevel_le_iff.mpr (fun p hp hlev => ?_))
    rcases h.bound p hp hlev with ⟨q, hq, heq⟩ | hb
    · rw [← heq] at hlev ⊢
      exact hcov q hq hlev
    · exact hb

/-! ## After an asserting backjump -/

theorem filter_eq_singleton {α : Type*} [DecidableEq α] {P : α → Bool} {l : List α} {u : α}
    (hnd : l.Nodup) (hu : u ∈ l) (hP : ∀ x ∈ l, P x = true ↔ x = u) : l.filter P = [u] := by
  have hcongr : l.filter P = l.filter (fun x => x == u) := by
    apply List.filter_congr
    intro x hx
    rw [Bool.eq_iff_iff, beq_iff_eq]
    exact hP x hx
  rw [hcongr, List.filter_beq, List.count_eq_one_of_mem hnd hu]
  rfl

section Asserting

variable {r : ConflictResolutionResult}

theorem clauses_afterConflict (h : Origin m ctx r) :
    (afterConflict ctx r).clauses.length = ctx.clauses.length + 1 := by
  show (learnAdditionalClause ctx r.learnedClause).clauses.length = _
  simp [learnAdditionalClause, h.ne_nil]

theorem clause_afterConflict_of_lt {id : ClauseId} (hid : id < ctx.clauses.length) :
    (afterConflict ctx r).clause id = ctx.clause id := by
  have hlearn := @clause_learn_of_lt ctx r.learnedClause id hid
  exact hlearn

theorem clause_afterConflict_last (h : Origin m ctx r) :
    (afterConflict ctx r).clause ctx.clauses.length = r.learnedClause := by
  have hlearn := @clause_learn_last ctx r.learnedClause h.ne_nil
  exact hlearn

/-- What the backjump leaves assigned are the levels up to the one it jumps to. -/
theorem value_afterConflict (h : Origin m ctx r) :
    (afterConflict ctx r).state.value = ctx.state.below r.backtrackLevel := by
  have hw := h.good.wf.learn h.spec.entailed
  rw [h.state_afterConflict, value_backjump hw (le_of_lt h.backtrackLevel_lt)]
  rfl

theorem assignments_afterConflict (ctx : SolverContext) (r : ConflictResolutionResult) :
    (afterConflict ctx r).assignments
      = (backtrack (learnAdditionalClause ctx r.learnedClause) r.backtrackLevel).assignments := by
  funext v
  exact ((stutters_writeActivities _ _).vars.getD v).assignment

/-- The clauses that were there before are settled at the level jumped to. -/
theorem propagate_afterConflict_of_lt (hm : m.WellFormed) (h : Origin m ctx r) {id : ClauseId}
    (hid : id < ctx.clauses.length) :
    propagate ⟨afterConflict ctx r, none, 0⟩ id = ⟨afterConflict ctx r, none, 0⟩ := by
  have hlen := clauses_afterConflict h
  refine propagate_of_settled hm h.good_afterConflict.linked ?_ ?_ 0
  · rw [hlen]
    exact Nat.lt_succ_of_lt hid
  · rw [clause_afterConflict_of_lt hid, value_afterConflict h]
    exact h.good.quiet _ h.backtrackLevel_lt _ (Linked.toCnf_mem_clauses hid)

/-- After a jump to the assertion level the learned clause has one unassigned literal, the one of
the level left; the others are false. -/
theorem unit_afterConflict (hm : m.WellFormed) (h : Origin m ctx r)
    (hlevel : r.backtrackLevel = assertionLevel ctx r.learnedClause) :
    ∃ u ∈ r.learnedClause, openUnder (afterConflict ctx r).assignments r.learnedClause = [u] ∧
      ∀ p ∈ r.learnedClause, p ≠ u → FalseUnder (afterConflict ctx r).assignments p := by
  obtain ⟨u, hu, hcur⟩ := h.spec.exists_current hm h.pos
  have hlt := h.backtrackLevel_lt
  have hle := assertionLevel_le_iff.mp (le_of_eq hlevel.symm)
  have hnd : (r.learnedClause.map (fun p => p.1.value)).Nodup := h.spec.distinct
  have hvalue : ∀ p : Literal × VarId, ((afterConflict ctx r).assignments p.2).toOption
      = ctx.state.below r.backtrackLevel p.2 := fun p => congrFun (value_afterConflict h) p.2
  have hfalse : ∀ p ∈ r.learnedClause, ctx.state.value p.2 = some (!p.1.isOn) := fun p hp =>
    h.spec.falsified _ (toLit_mem_toCnf hp)
  -- the jump undoes the current level and leaves all the others of the clause
  refine ⟨u, hu, filter_eq_singleton hnd.of_map hu (fun p hp => ?_), fun p hp hne => ?_⟩
  · rw [decide_eq_true_eq, ← Assignment.toOption_eq_none, hvalue, below_eq_none, ← hcur p hp,
      hfalse p hp]
    constructor
    · intro hopen
      by_contra hlev
      cases hopen (hle p hp hlev)
    · intro hlev hlow
      have hlow' : ctx.levelOf p.2 ≤ r.backtrackLevel := hlow
      omega
  · have hlow : ctx.state.level p.2 ≤ r.backtrackLevel :=
      hle p hp (fun hlev => hne ((hcur p hp).mp hlev))
    apply (falseUnder_iff ((h.spec.resolved p hp).ne_zero hm)).mpr
    exact (hvalue p).trans (below_eq_some.mpr ⟨hlow, hfalse p hp⟩)

/-- Propagation then assigns that literal, and the learned clause is the first it uses. -/
theorem propagatePass_afterConflict (hm : m.WellFormed) (h : Origin m ctx r)
    {u : Literal × VarId}
    (hu : openUnder (afterConflict ctx r).assignments r.learnedClause = [u])
    (hothers : ∀ p ∈ r.learnedClause, p ≠ u → FalseUnder (afterConflict ctx r).assignments p) :
    propagatePass (afterConflict ctx r)
      = ⟨assignUnit (afterConflict ctx r) ctx.clauses.length u, none, 1⟩ := by
  -- the pass skips the clauses that were there before and comes to the learned one last
  have hold : (List.range ctx.clauses.length).foldl propagate ⟨afterConflict ctx r, none, 0⟩
      = ⟨afterConflict ctx r, none, 0⟩ :=
    foldl_propagate_of_idle (fun id hid =>
      propagate_afterConflict_of_lt hm h (List.mem_range.mp hid))
  have hns : ¬ isClauseSatisfied (afterConflict ctx r) r.learnedClause = true := by
    intro hs
    obtain ⟨p, hp, ht⟩ := isClauseSatisfied_iff_trueUnder.mp hs
    by_cases hpu : p = u
    · have hmem : u ∈ openUnder (afterConflict ctx r).assignments r.learnedClause := by
        rw [hu]
        exact List.mem_singleton_self u
      exact (hpu ▸ ht.assigned) (of_decide_eq_true (List.mem_filter.mp hmem).2)
    · exact ht.not_falseUnder (hothers p hp hpu)
  have hopen : unassigned (afterConflict ctx r) r.learnedClause = [u] := hu
  rw [propagatePass, clauses_afterConflict h, List.range_succ, List.foldl_append, hold]
  simp [propagate, clause_afterConflict_last h, hns, hopen]

end Asserting

/-! ## The conflicts of a run -/

/-- After the conflict the solver jumps to the assertion level, where the learned clause has one
unassigned literal `u`, all others are false, and the next propagation assigns `u` because of it. -/
structure AssertingBackjump (ctx : SolverContext) (r : ConflictResolutionResult) : Prop where
  level : r.backtrackLevel = assertionLevel ctx r.learnedClause
  unit : ∃ u ∈ r.learnedClause,
    let back := backtrack (learnAdditionalClause ctx r.learnedClause) r.backtrackLevel
    unassigned back r.learnedClause = [u] ∧
    (∀ p ∈ r.learnedClause, p ≠ u → FalseUnder back.assignments p) ∧
    propagatePass (writeActivities back r.learnedClause)
      = ⟨assignUnit (writeActivities back r.learnedClause) ctx.clauses.length u, none, 1⟩

theorem assertingBackjump_of_level (hm : m.WellFormed) {r : ConflictResolutionResult}
    (h : Origin m ctx r) (hlevel : r.backtrackLevel = assertionLevel ctx r.learnedClause) :
    AssertingBackjump ctx r := by
  obtain ⟨u, hu, hopen, hothers⟩ := unit_afterConflict hm h hlevel
  have hpass := propagatePass_afterConflict hm h hopen hothers
  rw [assignments_afterConflict] at hopen hothers
  exact ⟨hlevel, u, hu, hopen, hothers, hpass⟩

/-- **When the backjump is asserting**: at every conflict of a run above level 0, exactly if the
levels of the conflict clause are covered. -/
theorem reachable_assertingBackjump_iff (hm : m.WellFormed) {id : ClauseId}
    (h : Reachable mul m ⟨.conflict id, ctx⟩) (hpos : 0 < ctx.currentDecisionLevel) :
    AssertingBackjump ctx (resolveConflict ctx (ctx.clause id)) ↔
      LevelsCovered ctx (ctx.clause id) := by
  have hc : Conflict m ctx id := h.inv hm
  have hspec := hc.spec hm
  have hgraph := resolveConflict_graph hm hc.good.linked hc.good.wf hc.good.quiet hc.lt
    hc.falsified hpos
  rw [← backtrackLevel_eq_iff hgraph hspec]
  constructor
  · exact fun ha => ha.level
  · exact assertingBackjump_of_level hm (hc.origin_of_pos hm hpos)

/-- The conflict clause has no literal of a lower level; the reason of 3 brings in one of level 1. -/
theorem reachable_assertingBackjump_iff_backjumping :
    ∃ ctx, Reachable mulUInt32 backjumping ⟨.conflict 2, ctx⟩ ∧
      AssertingBackjump ctx (resolveConflict ctx (ctx.clause 2)) := by
  obtain ⟨ctx, hreach, hcur, -, hone, htwo, hclause⟩ := exists_conflict_backjumping
  refine ⟨ctx, hreach, (reachable_assertingBackjump_iff (by decide) hreach (by omega)).mpr ?_⟩
  refine Or.inl (fun q hq hlev => absurd ?_ hlev)
  rw [hclause] at hq
  rw [hcur]
  rcases List.mem_pair.mp hq with rfl | rfl
  · exact hone
  · exact htwo

/-- The conflict clause and the reason of 3 both have 1. -/
def overlapping : Model where
  literals := [⟨1⟩, ⟨2⟩, ⟨3⟩]
  clauses := [[⟨-1⟩, ⟨-2⟩, ⟨3⟩], [⟨-1⟩, ⟨-2⟩, ⟨-3⟩]]

/-- At its first conflict -1 ∨ -2 is learned and the solver jumps to level 0, not to the level 1
of -1: the learned clause is left with two unassigned literals. -/
theorem not_assertingBackjump_overlapping :
    overlapping.WellFormed ∧ ∃ ctx, Reachable mulUInt32 overlapping ⟨.conflict 1, ctx⟩ ∧
      ctx.currentDecisionLevel = 2 ∧
      resolveConflict ctx (ctx.clause 1) = ⟨[(⟨-1⟩, 0), (⟨-2⟩, 1)], 0⟩ ∧
      assertionLevel ctx [(⟨-1⟩, 0), (⟨-2⟩, 1)] = 1 ∧
      ¬ AssertingBackjump ctx (resolveConflict ctx (ctx.clause 1)) := by
  refine ⟨by decide, ?_⟩
  have hrun : ∃ ctx, Reachable mulUInt32 overlapping ⟨.conflict 1, ctx⟩ ∧
      ctx.currentDecisionLevel = 2 ∧
      resolveConflict ctx (ctx.clause 1) = ⟨[(⟨-1⟩, 0), (⟨-2⟩, 1)], 0⟩ ∧
      assertionLevel ctx [(⟨-1⟩, 0), (⟨-2⟩, 1)] = 1 := by
    refine @exists_conflict mulUInt32 overlapping highestVsids 2 1 _ _ ?_
    decide +kernel
  obtain ⟨ctx, hreach, hcur, hr, hlevel⟩ := hrun
  refine ⟨ctx, hreach, hcur, hr, hlevel, fun h => ?_⟩
  have heq := h.level
  rw [hr, hlevel] at heq
  cases heq

end Fabko.Sat
