import Fabko.Sat.Answers

set_option autoImplicit false

/-! # Invariants of the search

What `Inv` says in the solver's own terms, at every reachable frame: the shape of the trail, the
reasons, what the assignments and the learned clauses follow from, and how far the levels below
the current one are propagated. -/

namespace Fabko.Sat

open Cnf Cdcl

variable {m : Model} {ctx : SolverContext} {mul : Nat → Nat → Nat} {f : Frame}

/-- Decisions on 1 and 2, a conflict at level 2 and a backjump to level 1. -/
def backjumping : Model where
  literals := [⟨1⟩, ⟨2⟩, ⟨3⟩]
  clauses := [[⟨1⟩, ⟨-1⟩], [⟨-1⟩, ⟨-2⟩, ⟨3⟩], [⟨-2⟩, ⟨-3⟩]]

/-- Its first conflict: 3 is propagated, and the conflict clause has 2 and 3. -/
theorem exists_conflict_backjumping :
    ∃ ctx, Reachable mulUInt32 backjumping ⟨.conflict 2, ctx⟩ ∧
      ctx.currentDecisionLevel = 2 ∧ ctx.trail = [0, 1, 2] ∧ ctx.levelOf 1 = 2 ∧
      ctx.levelOf 2 = 2 ∧ ctx.clause 2 = [(⟨-2⟩, 1), (⟨-3⟩, 2)] := by
  refine @exists_conflict mulUInt32 backjumping highestVsids 2 2 _ _ ?_
  decide +kernel

/-! ## The restricted assignment -/

/-- Restricting the assignment is restricting the state to a level. -/
theorem toOption_assignmentsUpTo (hw : Wf (models m) ctx.state) (l : Nat) :
    (fun v => (ctx.assignmentsUpTo l v).toOption) = ctx.state.below l := by
  funext v
  by_cases hv : v ∈ ctx.trail
  · by_cases hle : (ctx.var v).context.decisionLevel ≤ l
    · have hle' : ctx.state.level v ≤ l := hle
      simp only [SolverContext.assignmentsUpTo, State.below, if_pos (And.intro hv hle), if_pos hle']
      rfl
    · have hle' : ¬ ctx.state.level v ≤ l := hle
      simp only [SolverContext.assignmentsUpTo, State.below,
        if_neg (fun h : v ∈ ctx.trail ∧ _ => hle h.2), if_neg hle']
      rfl
  · have hnone : ctx.state.value v = none := by
      by_contra hne
      exact hv (List.mem_reverse.mp ((hw.mem_trail v).mpr hne))
    simp only [SolverContext.assignmentsUpTo, State.below,
      if_neg (fun h : v ∈ ctx.trail ∧ _ => hv h.1), hnone]
    split <;> rfl

/-- At every level below the current one, each clause has a true literal or two unassigned
entries. -/
def LowerLevelsSettled (ctx : SolverContext) : Prop :=
  ∀ l < ctx.currentDecisionLevel, ∀ row ∈ ctx.clauses,
    SettledUnder (ctx.assignmentsUpTo l) row.clause

/-- **Lower levels stay propagated.** -/
theorem reachable_lowerLevelsSettled (hm : m.WellFormed) (h : Reachable mul m ⟨.head, ctx⟩) :
    LowerLevelsSettled ctx := by
  intro l hl row hrow
  have hg : Good m ctx := h.inv hm
  have hres := hg.linked.resolved row hrow
  rw [← settled_toCnf (fun p hp => (hres p hp).ne_zero hm), toOption_assignmentsUpTo hg.wf]
  exact hg.quiet l hl _ (List.mem_map_of_mem hrow)

/-- Two iterations after the backjump: level 2 again, with the learned clause. -/
theorem reachable_lowerLevelsSettled_backjumping :
    ∃ ctx, Reachable mulUInt32 backjumping ⟨.head, ctx⟩ ∧ ctx.currentDecisionLevel = 2 ∧
      ctx.clauses.length = 4 ∧ LowerLevelsSettled ctx := by
  have hrun : ∃ ctx, Reachable mulUInt32 backjumping ⟨.head, ctx⟩ ∧
      ctx.currentDecisionLevel = 2 ∧ ctx.clauses.length = 4 := by
    refine @exists_head mulUInt32 backjumping highestVsids 4 _ _ ?_
    decide +kernel
  obtain ⟨ctx, hreach, hlevel, hlen⟩ := hrun
  exact ⟨ctx, hreach, hlevel, hlen, reachable_lowerLevelsSettled (by decide) hreach⟩

/-! ## The trail -/

/-- The shape of the trail. -/
structure TrailStructure (ctx : SolverContext) : Prop where
  mem_iff : ∀ v, v ∈ ctx.trail ↔ (ctx.var v).assignment ≠ .notAssigned
  nodup : ctx.trail.Nodup
  sorted : (ctx.trail.map ctx.levelOf).Pairwise (· ≤ ·)
  le_current : ∀ v ∈ ctx.trail, ctx.levelOf v ≤ ctx.currentDecisionLevel
  decision : ∀ k, 1 ≤ k → k ≤ ctx.currentDecisionLevel → ∃ i < ctx.trail.length,
    ctx.levelOf (ctx.trailVar i) = k ∧ (ctx.var (ctx.trailVar i)).context.isDecision = true ∧
    ∀ j < ctx.trail.length, ctx.levelOf (ctx.trailVar j) = k →
      i ≤ j ∧ ((ctx.var (ctx.trailVar j)).context.isDecision = true → j = i)
  propagated : ∀ v ∈ ctx.trail, ctx.levelOf v = 0 → (ctx.var v).context.isPropagated = true

theorem isDecision_iff {x : AssignmentContext} :
    x.isDecision = true ↔ x.clausePropagation = none := by
  simp [AssignmentContext.isDecision, AssignmentContext.isPropagated]

theorem trailStructure_of_wf (hw : Wf (models m) ctx.state) : TrailStructure ctx := by
  refine ⟨fun v => ?_, List.nodup_reverse.mp hw.nodup, ?_, fun v hv => ?_, fun k hk hle => ?_,
    fun v hv hz => ?_⟩
  · rw [← List.mem_reverse]
    exact (hw.mem_trail v).trans (not_congr Assignment.toOption_eq_none)
  · rw [List.pairwise_map, ← List.pairwise_reverse]
    exact hw.sorted
  · exact hw.le_current v (List.mem_reverse.mpr hv)
  · -- the decision of level `k`, at its index
    obtain ⟨d, hd, hdk, hr⟩ := hw.decided k hk hle
    obtain ⟨i, hi, rfl⟩ := List.getElem_of_mem (List.mem_reverse.mp hd)
    rw [← trailVar_eq_getElem hi] at hdk hr
    have hnone := reason_eq_none_iff.mp hr
    have hfirst : ∀ j < ctx.trail.length, ctx.levelOf (ctx.trailVar j) = k → i ≤ j := by
      intro j hj hjk
      by_contra hlt
      have := level_lt_of_decision hw (not_le.mp hlt) hi hnone
      have hik : ctx.levelOf (ctx.trailVar i) = k := hdk
      omega
    refine ⟨i, hi, hdk, isDecision_iff.mpr hnone, fun j hj hjk => ⟨hfirst j hj hjk, fun hdj => ?_⟩⟩
    -- another decision of the level would start a level above that of `i`
    by_contra hne
    have hij : i < j := lt_of_le_of_ne (hfirst j hj hjk) (Ne.symm hne)
    have := level_lt_of_decision hw hij hj (isDecision_iff.mp hdj)
    have hik : ctx.levelOf (ctx.trailVar i) = k := hdk
    omega
  · rw [AssignmentContext.isPropagated]
    by_contra hns
    have hnone : (ctx.var v).context.clausePropagation = none := by simpa using hns
    have := hw.level_pos_of_reason_none (List.mem_reverse.mpr hv) (reason_eq_none_iff.mpr hnone)
    have hz' : ctx.state.level v = 0 := hz
    omega

theorem Reachable.trailStructure (hm : m.WellFormed) (h : Reachable mul m f) :
    TrailStructure f.ctx :=
  trailStructure_of_wf (h.wf hm)

/-- Counting a conflict writes nothing the structure speaks of. -/
theorem TrailStructure.of_countConflict (h : TrailStructure (countConflict ctx)) :
    TrailStructure ctx :=
  ⟨h.mem_iff, h.nodup, h.sorted, h.le_current, h.decision, h.propagated⟩

/-- What the operations after a propagation do to the trail. -/
def KeepsTrail (ctx : SolverContext) : Option ClauseId → Prop
  | none => ∀ choose ctx', makeDecision choose ctx = some ctx' → TrailStructure ctx'
  | some id =>
      let ctx' := countConflict ctx
      let r := resolveConflict ctx' (ctx'.clause id)
      ¬ ReportsUnsatisfiable ctx' r →
        TrailStructure (learnAdditionalClause ctx' r.learnedClause) ∧
        TrailStructure (backtrack (learnAdditionalClause ctx' r.learnedClause) r.backtrackLevel)

/-- Propagation keeps the trail in shape, also when it stops at a conflict, and so does what
follows it. -/
theorem trailStructure_of_unitPropagation (hm : m.WellFormed) {c : SolverContext}
    {o : Option ClauseId} (h : Reachable mul m ⟨.head, ctx⟩)
    (hup : unitPropagation (restartIfDue mul ctx) = some (c, o)) :
    TrailStructure c ∧ KeepsTrail c o := by
  have hreach := h.trans (steps_of_unitPropagation hup)
  cases o with
  | none =>
      refine ⟨hreach.trailStructure hm, fun choose c' hd => ?_⟩
      obtain ⟨v, hv, rfl⟩ := Option.map_eq_some_iff.mp hd
      exact (hreach.tail (Step.decide (choose.mem_of_pick c v hv))).trailStructure hm
  | some id =>
      refine ⟨(hreach.trailStructure hm).of_countConflict, fun hr => ?_⟩
      have hlearned := hreach.tail (Step.learn rfl hr)
      exact ⟨hlearned.trailStructure hm, (hlearned.tail Step.backtrack).trailStructure hm⟩

/-- **The trail keeps its structure** in every reachable frame, and through each operation. -/
theorem reachable_trailStructure (hm : m.WellFormed) (h : Reachable mul m f) :
    TrailStructure f.ctx ∧ (f.point = .head → TrailStructure (restart mul f.ctx) ∧
      ∀ ctx o, unitPropagation (restartIfDue mul f.ctx) = some (ctx, o) →
        TrailStructure ctx ∧ KeepsTrail ctx o) := by
  refine ⟨h.trailStructure hm, fun hp => ?_⟩
  obtain ⟨p, ctx⟩ := f
  have hp' : p = .head := hp
  subst hp'
  have hg : Good m ctx := h.inv hm
  exact ⟨trailStructure_of_wf (hg.restart mul).wf,
    fun c o hup => trailStructure_of_unitPropagation hm h hup⟩

theorem reachable_trailStructure_backjumping :
    ∃ ctx, Reachable mulUInt32 backjumping ⟨.conflict 2, ctx⟩ ∧ ctx.currentDecisionLevel = 2 ∧
      TrailStructure ctx := by
  obtain ⟨ctx, hreach, hlevel, -⟩ := exists_conflict_backjumping
  exact ⟨ctx, hreach, hlevel, (reachable_trailStructure (by decide) hreach).1⟩

/-! ## Reasons -/

/-- The clause `c` is the reason of the trail entry at index `i`. -/
structure ReasonOf (ctx : SolverContext) (i : Nat) (c : Clause) : Prop where
  once : (c.filter (fun p => decide (p.2 = ctx.trailVar i))).length = 1
  holds : ∀ p ∈ c, p.2 = ctx.trailVar i → TrueUnder ctx.assignments p
  others : ∀ p ∈ c, p.2 ≠ ctx.trailVar i →
    FalseUnder ctx.assignments p ∧ p.2 ∈ ctx.trail.take i
  level : 0 < ctx.levelOf (ctx.trailVar i) →
    ∃ p ∈ c, p.2 ≠ ctx.trailVar i ∧ ctx.levelOf p.2 = ctx.levelOf (ctx.trailVar i)

theorem filter_toCnf (c : Clause) (v : VarId) :
    (toCnf c).filter (fun l => decide (l.var = v))
      = toCnf (c.filter (fun p => decide (p.2 = v))) := by
  rw [toCnf, List.filter_map]
  rfl

theorem reasonOf_of_isReason (hm : m.WellFormed) {c : Clause} (hc : ∀ p ∈ c, m.Resolved p)
    {i : Nat} (h : IsReason ctx.state (toCnf c) (ctx.trail.take i).reverse (ctx.trailVar i)) :
    ReasonOf ctx i c := by
  obtain ⟨l, hl, htrue⟩ := h.unique
  rw [filter_toCnf] at hl
  refine ⟨?_, fun p hp hv => ?_, fun p hp hv => ?_, fun hpos => ?_⟩
  · have hlen := congrArg List.length hl
    simpa [toCnf] using hlen
  · have hmem : toLit p ∈ toCnf (c.filter (fun p => decide (p.2 = ctx.trailVar i))) :=
      toLit_mem_toCnf (List.mem_filter.mpr ⟨hp, by simpa using hv⟩)
    rw [hl, List.mem_singleton] at hmem
    exact (trueUnder_iff ((hc p hp).ne_zero hm)).mpr (hmem ▸ htrue)
  · obtain ⟨hfalse, hold⟩ := h.others (toLit p) (toLit_mem_toCnf hp) hv
    exact ⟨(falseUnder_iff ((hc p hp).ne_zero hm)).mpr hfalse, List.mem_reverse.mp hold⟩
  · obtain ⟨l', hl', hne, hlev⟩ := h.level hpos
    obtain ⟨p, hp, rfl⟩ := mem_toCnf.mp hl'
    exact ⟨p, hp, hne, hlev⟩

/-- Every propagated entry of the trail has the reason it records. -/
def ImplicationGraph (ctx : SolverContext) : Prop :=
  ∀ i < ctx.trail.length, ∀ id,
    (ctx.var (ctx.trailVar i)).context.clausePropagation = some id →
      id < ctx.clauses.length ∧ ReasonOf ctx i (ctx.clause id)

/-- **Reasons form an acyclic graph with exact levels.** -/
theorem reachable_implicationGraph (hm : m.WellFormed) (h : Reachable mul m f) :
    ImplicationGraph f.ctx := by
  intro i hi id hid
  have hl := h.linked hm
  have hlt := hl.reasons _ id hid
  exact ⟨hlt, reasonOf_of_isReason hm (hl.resolved_clause hlt) (isReason_at (h.wf hm) hi hid)⟩

theorem reachable_implicationGraph_backjumping :
    ∃ ctx, Reachable mulUInt32 backjumping ⟨.conflict 2, ctx⟩ ∧ ctx.currentDecisionLevel = 2 ∧
      ImplicationGraph ctx := by
  obtain ⟨ctx, hreach, hlevel, -⟩ := exists_conflict_backjumping
  exact ⟨ctx, hreach, hlevel, reachable_implicationGraph (by decide) hreach⟩

/-! ## What the assignments follow from -/

/-- The record of `v` has the value `σ` gives its variable. -/
def Agrees (σ : Nat → Bool) (ctx : SolverContext) (v : VarId) : Prop :=
  (ctx.var v).assignment = if σ (ctx.var v).literal.value then .on else .off

theorem agrees_iff (hl : Linked m ctx) (σ : Nat → Bool) (v : VarId) :
    Agrees σ ctx v ↔ ctx.state.value v = some (σ (m.varValue v)) := by
  unfold Agrees
  rw [hl.literal_value]
  exact Assignment.toOption_eq_some.symm

/-- The value of each trail entry follows from the model and the decisions of the levels up to
its own. -/
def AssignmentsEntailed (m : Model) (ctx : SolverContext) : Prop :=
  ∀ v ∈ ctx.trail, ∀ σ, m.SatisfiedBy σ →
    (∀ d ∈ ctx.trail, (ctx.var d).context.isDecision = true → 1 ≤ ctx.levelOf d →
      ctx.levelOf d ≤ ctx.levelOf v → Agrees σ ctx d) → Agrees σ ctx v

theorem Reachable.assignmentsEntailed (hm : m.WellFormed) (h : Reachable mul m f) :
    AssignmentsEntailed m f.ctx := by
  intro v hv σ hσ hdec
  have hl := h.linked hm
  have hw := h.wf hm
  refine (agrees_iff hl σ v).mpr (value_eq_of_decisions hw ⟨σ, hσ, rfl⟩ (List.mem_reverse.mpr hv)
    (fun d hd hr hle => (agrees_iff hl σ d).mp (hdec d (List.mem_reverse.mp hd) ?_ ?_ hle)))
  · exact isDecision_iff.mpr (reason_eq_none_iff.mp hr)
  · exact hw.level_pos_of_reason_none hd hr

/-- What `ctx` has assigned at level 0 is so in `ctx'`, with the same value. -/
def LevelZeroKept (ctx ctx' : SolverContext) : Prop :=
  ∀ v ∈ ctx.trail, ctx.levelOf v = 0 →
    v ∈ ctx'.trail ∧ ctx'.levelOf v = 0 ∧ (ctx'.var v).assignment = (ctx.var v).assignment

theorem Reachable.levelZeroKept (hm : m.WellFormed) (h : Reachable mul m f) {g : Frame}
    (hs : Steps mul f g) : LevelZeroKept f.ctx g.ctx := by
  intro v hv hz
  have hkept := (hs.moves hm (h.inv hm)).rootKept (h.wf hm)
  obtain ⟨hv', hz', hval⟩ := hkept v (List.mem_reverse.mpr hv) hz
  exact ⟨List.mem_reverse.mp hv', hz', Assignment.toOption_injective hval⟩

/-- **Assignments follow from the decisions**, and those of level 0 are permanent. -/
theorem reachable_assignmentsEntailed (hm : m.WellFormed) (h : Reachable mul m f) :
    AssignmentsEntailed m f.ctx ∧ ∀ g, Steps mul f g → LevelZeroKept f.ctx g.ctx :=
  ⟨h.assignmentsEntailed hm, fun _ hs => h.levelZeroKept hm hs⟩

theorem reachable_assignmentsEntailed_backjumping :
    ∃ ctx, Reachable mulUInt32 backjumping ⟨.conflict 2, ctx⟩ ∧ ctx.currentDecisionLevel = 2 ∧
      AssignmentsEntailed backjumping ctx := by
  obtain ⟨ctx, hreach, hlevel, -⟩ := exists_conflict_backjumping
  exact ⟨ctx, hreach, hlevel, (reachable_assignmentsEntailed (by decide) hreach).1⟩

/-! ## Learned clauses -/

def ClausesEntailed (m : Model) (ctx : SolverContext) : Prop :=
  ∀ row ∈ ctx.clauses, m.Entails (row.clause.map Prod.fst)

/-- What a clause learned in `ctx` is. -/
structure Learned (m : Model) (ctx : SolverContext) (c : Clause) : Prop where
  entailed : m.Entails (c.map Prod.fst)
  falsified : ∀ p ∈ c, FalseUnder ctx.assignments p
  distinct : (c.map (fun p => p.1.value)).Nodup

theorem LearnedSpec.learned (hm : m.WellFormed) {r : ConflictResolutionResult}
    (h : LearnedSpec m ctx r) : Learned m ctx r.learnedClause where
  entailed := (entails_toCnf_iff h.resolved).mp h.entailed
  falsified q hq :=
    (falseUnder_iff ((h.resolved q hq).ne_zero hm)).mpr (h.falsified _ (toLit_mem_toCnf hq))
  distinct := h.distinct

/-- **Clauses are consequences**, those in the database as well as the one a conflict yields; that
one is false under the assignment and repeats no variable. -/
theorem reachable_entailed (hm : m.WellFormed) (h : Reachable mul m f) :
    ClausesEntailed m f.ctx ∧ ∀ id, f.point = .conflict id →
      Learned m f.ctx (resolveConflict f.ctx (f.ctx.clause id)).learnedClause := by
  refine ⟨fun row hrow => ?_, fun id hp => ?_⟩
  · exact (entails_toCnf_iff ((h.linked hm).resolved row hrow)).mp
      ((h.wf hm).entailed _ (List.mem_map_of_mem hrow))
  · obtain ⟨p, ctx⟩ := f
    have hp' : p = .conflict id := hp
    subst hp'
    have hc : Conflict m ctx id := h.inv hm
    exact (hc.spec hm).learned hm

theorem reachable_entailed_backjumping :
    ∃ ctx, Reachable mulUInt32 backjumping ⟨.conflict 2, ctx⟩ ∧
      Learned backjumping ctx (resolveConflict ctx (ctx.clause 2)).learnedClause := by
  obtain ⟨ctx, hreach, -⟩ := exists_conflict_backjumping
  exact ⟨ctx, hreach, (reachable_entailed (by decide) hreach).2 2 rfl⟩

/-! ## No clause is learned in vain -/

/-- No clause of the database that repeats no variable has all its literals in `c`. -/
def NotRedundant (ctx : SolverContext) (c : Clause) : Prop :=
  ∀ row ∈ ctx.clauses, (row.clause.map Prod.snd).Nodup →
    ¬ row.clause.map Prod.fst ⊆ c.map Prod.fst

/-- Among the clauses learned so far, none has all the literals of one learned before it. -/
def LearnedOnce (m : Model) (ctx : SolverContext) : Prop :=
  ∀ i j, m.clauses.length ≤ i → i < j → j < ctx.clauses.length →
    ¬ (ctx.clause i).map Prod.fst ⊆ (ctx.clause j).map Prod.fst

theorem map_var_toCnf (c : Clause) : (toCnf c).map Lit.var = c.map Prod.snd := by
  rw [toCnf, List.map_map]
  rfl

theorem distinct_toCnf_iff {c : Clause} : Distinct (toCnf c) ↔ (c.map Prod.snd).Nodup := by
  rw [Distinct, map_var_toCnf]

/-- Equal literals refer to one variable, so inclusion of literals is inclusion of entries. -/
theorem toCnf_subset (hm : m.WellFormed) {c d : Clause} (hc : ∀ p ∈ c, m.Resolved p)
    (hd : ∀ p ∈ d, m.Resolved p) (h : c.map Prod.fst ⊆ d.map Prod.fst) : toCnf c ⊆ toCnf d := by
  intro l hl
  obtain ⟨p, hp, rfl⟩ := mem_toCnf.mp hl
  obtain ⟨q, hq, heq⟩ := List.mem_map.mp (h (List.mem_map_of_mem hp))
  have hvar : q.2 = p.2 := ((hd q hq).value_eq_iff hm (hc p hp)).mp (by rw [heq])
  have hlit : toLit p = toLit q := by
    unfold toLit
    rw [hvar, heq]
  rw [hlit]
  exact toLit_mem_toCnf hq

theorem Origin.notRedundant (hm : m.WellFormed) {r : ConflictResolutionResult}
    (h : Origin m ctx r) : NotRedundant ctx r.learnedClause := by
  intro row hrow hnd hsub
  apply h.not_subset (List.mem_map_of_mem hrow) (distinct_toCnf_iff.mpr hnd)
  exact toCnf_subset hm (h.good.linked.resolved row hrow) h.spec.resolved hsub

/-- What the database grows by: nothing, or the clause a conflict yields. -/
theorem Step.clauses (hm : m.WellFormed) {f g : Frame} (hs : Step mul f g) (h : Inv m f) :
    g.ctx.clauses = f.ctx.clauses ∨
      ∃ r, Origin m f.ctx r ∧ g.ctx = learnAdditionalClause f.ctx r.learnedClause := by
  cases hs with
  | @restart ctx =>
      exact Or.inl (clauses_restartIfDue _ ctx)
  | unit hid hp =>
      obtain ⟨u, -, rfl, -⟩ := forces_of_propagate hm (Good.linked h) hid hp
      exact Or.inl rfl
  | learn hr hu =>
      subst hr
      exact Or.inr ⟨_, Conflict.origin hm h hu, rfl⟩
  | activity hup => exact Or.inl (stutters_updateVsidsActivity hup).clauses
  | count | conflict | quiet | unsatisfiable | backtrack | decide | finish =>
      exact Or.inl rfl

/-- What is learned repeats no variable, and has all the literals of no clause learned before. -/
structure LearnedNew (m : Model) (ctx : SolverContext) : Prop where
  distinct : ∀ i, m.clauses.length ≤ i → i < ctx.clauses.length →
    ((ctx.clause i).map Prod.snd).Nodup
  once : LearnedOnce m ctx

theorem LearnedNew.congr {ctx' : SolverContext} (h : LearnedNew m ctx)
    (hc : ctx'.clauses = ctx.clauses) : LearnedNew m ctx' := by
  have hclause : ∀ id, ctx'.clause id = ctx.clause id := by
    intro id
    rw [SolverContext.clause, hc, SolverContext.clause]
  refine ⟨fun i hi hlt => ?_, fun i j hi hij hlt => ?_⟩
  · rw [hclause]
    exact h.distinct i hi (hc ▸ hlt)
  · rw [hclause, hclause]
    exact h.once i j hi hij (hc ▸ hlt)

theorem LearnedNew.learn (hm : m.WellFormed) {r : ConflictResolutionResult}
    (h : LearnedNew m ctx) (ho : Origin m ctx r) :
    LearnedNew m (learnAdditionalClause ctx r.learnedClause) := by
  have hlen : (learnAdditionalClause ctx r.learnedClause).clauses.length
      = ctx.clauses.length + 1 := by
    simp [learnAdditionalClause, ho.ne_nil]
  have hlast := @clause_learn_last ctx r.learnedClause ho.ne_nil
  have hnd := distinct_toCnf_iff.mp ho.spec.distinct_toCnf
  refine ⟨fun i hi hlt => ?_, fun i j hi hij hlt => ?_⟩
  · rw [hlen] at hlt
    rcases Nat.lt_succ_iff_lt_or_eq.mp hlt with hold | rfl
    · rw [clause_learn_of_lt hold]
      exact h.distinct i hi hold
    · rw [hlast]
      exact hnd
  · rw [hlen] at hlt
    rcases Nat.lt_succ_iff_lt_or_eq.mp hlt with hold | rfl
    · rw [clause_learn_of_lt hold, clause_learn_of_lt (lt_trans hij hold)]
      exact h.once i j hi hij hold
    · -- the new clause against one that is there
      rw [clause_learn_of_lt hij, hlast]
      obtain ⟨row, hrow, heq⟩ := clause_mem hij
      have hrownd := h.distinct i hi hij
      rw [← heq] at hrownd ⊢
      exact ho.notRedundant hm row hrow hrownd

theorem learnedNew_of_solverContext (h : solverContext m = .ok ctx) : LearnedNew m ctx := by
  have hlen : ctx.clauses.length = m.clauses.length := by
    rw [← (fresh_of_solverContext h).clauses, List.length_map]
  refine ⟨fun i hi hlt => ?_, fun i j hi hij hlt => ?_⟩ <;> omega

theorem Reachable.learnedNew (hm : m.WellFormed) (h : Reachable mul m f) :
    LearnedNew m f.ctx := by
  obtain ⟨ctx, hctx, hs⟩ := h
  induction hs with
  | refl => exact learnedNew_of_solverContext hctx
  | tail hrun hstep ih =>
      have hinv := Reachable.inv hm ⟨ctx, hctx, hrun⟩
      rcases hstep.clauses hm hinv with heq | ⟨r, ho, heq⟩
      · exact ih.congr heq
      · rw [heq]
        exact ih.learn hm ho

/-- **No redundant learning.** -/
theorem reachable_notRedundant (hm : m.WellFormed) (h : Reachable mul m f) :
    (∀ id, f.point = .conflict id → 0 < f.ctx.currentDecisionLevel →
      NotRedundant f.ctx (resolveConflict f.ctx (f.ctx.clause id)).learnedClause) ∧
    LearnedOnce m f.ctx := by
  refine ⟨fun id hp hpos => ?_, (h.learnedNew hm).once⟩
  obtain ⟨p, ctx⟩ := f
  have hp' : p = .conflict id := hp
  subst hp'
  have hc : Conflict m ctx id := h.inv hm
  exact (hc.origin_of_pos hm hpos).notRedundant hm

theorem reachable_notRedundant_backjumping :
    ∃ ctx, Reachable mulUInt32 backjumping ⟨.conflict 2, ctx⟩ ∧
      NotRedundant ctx (resolveConflict ctx (ctx.clause 2)).learnedClause := by
  obtain ⟨ctx, hreach, hlevel, -⟩ := exists_conflict_backjumping
  have hpos : 0 < ctx.currentDecisionLevel := by omega
  exact ⟨ctx, hreach, (reachable_notRedundant (by decide) hreach).1 2 rfl hpos⟩

end Fabko.Sat
