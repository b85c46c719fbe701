import Fabko.Sat.Trace

set_option autoImplicit false

/-! # Levels on the trail, for any model

What the trail looks like in every reachable context, also of a model that declares a literal twice
or has the literal 0: it is sorted by level, and a reason speaks of variables of no higher level.
So a conflict at level 0 sends the search back to level 0. -/

namespace Fabko.Sat

open Cdcl

structure Levelled (ctx : SolverContext) : Prop where
  ids : IdsInRange ctx
  mem_iff : ∀ v, v ∈ ctx.trail ↔ (ctx.var v).assignment ≠ .notAssigned
  sorted : ctx.trail.Pairwise (fun v w => ctx.levelOf v ≤ ctx.levelOf w)
  le_current : ∀ v ∈ ctx.trail, ctx.levelOf v ≤ ctx.currentDecisionLevel
  reasons : ∀ v id, (ctx.var v).context.clausePropagation = some id →
    id < ctx.clauses.length ∧ v ∈ ctx.trail ∧
    ∀ p ∈ ctx.clause id, p.2 ∈ ctx.trail ∧ ctx.levelOf p.2 ≤ ctx.levelOf v

variable {m : Model} {ctx ctx' : SolverContext} {mul : Nat → Nat → Nat}

/-! ## The operations -/

theorem SameAssignments.length_eq {vars vars' : List Var} (h : SameAssignments vars vars') :
    vars.length = vars'.length :=
  List.Forall₂.length_eq h

theorem Levelled.of_stutters (h : Levelled ctx) (hs : Stutters ctx ctx') : Levelled ctx' := by
  have hvar : ∀ v, SameAssignment (ctx'.var v) (ctx.var v) := fun v => hs.vars.getD v
  have hlevel : ∀ v, ctx'.levelOf v = ctx.levelOf v := fun v => (hvar v).decisionLevel
  have hclause : ∀ id, ctx'.clause id = ctx.clause id := fun id => by
    rw [SolverContext.clause, hs.clauses]
    rfl
  refine ⟨fun id p hp => ?_, fun v => ?_, ?_, fun v hv => ?_, fun v id hr => ?_⟩
  · rw [hclause] at hp
    rw [hs.vars.length_eq]
    exact h.ids id p hp
  · rw [hs.trail, (hvar v).assignment]
    exact h.mem_iff v
  · simp only [hlevel, hs.trail]
    exact h.sorted
  · rw [hlevel, hs.current]
    rw [hs.trail] at hv
    exact h.le_current v hv
  · rw [(hvar v).clausePropagation] at hr
    simp only [hlevel, hs.trail, hs.clauses, hclause]
    exact h.reasons v id hr

/-- A variable that gets a value at the current level. -/
theorem Levelled.push {w : VarId} {f : Var → Var} (h : Levelled ctx)
    (hw : w ∈ unassignedVars ctx) (htrail : ctx'.trail = ctx.trail ++ [w])
    (hvars : ctx'.vars = (ctx.setVar w f).vars) (hclauses : ctx'.clauses = ctx.clauses)
    (hcurrent : ctx.currentDecisionLevel ≤ ctx'.currentDecisionLevel)
    (hassigned : (f (ctx.var w)).assignment ≠ .notAssigned)
    (hlevel : (f (ctx.var w)).context.decisionLevel = ctx'.currentDecisionLevel)
    (hreason : ∀ id, (f (ctx.var w)).context.clausePropagation = some id →
      id < ctx.clauses.length ∧ ∀ p ∈ ctx.clause id, p.2 = w ∨ p.2 ∈ ctx.trail) :
    Levelled ctx' := by
  obtain ⟨hlt, hopen⟩ := mem_unassignedVars.mp hw
  have hclause : ∀ id, ctx'.clause id = ctx.clause id := fun id => by
    rw [SolverContext.clause, hclauses]
    rfl
  have hself : ctx'.var w = f (ctx.var w) := var_of_vars_eq_self hvars hlt
  have hother : ∀ v, v ≠ w → ctx'.var v = ctx.var v := fun v hne =>
    var_of_vars_eq_of_ne hvars hne
  have hne : ∀ v ∈ ctx.trail, v ≠ w := by
    rintro v hv rfl
    exact (h.mem_iff v).mp hv hopen
  have hlevelw : ctx'.levelOf w = ctx'.currentDecisionLevel := by
    rw [SolverContext.levelOf, hself, hlevel]
  have hlevelv : ∀ v ∈ ctx.trail, ctx'.levelOf v = ctx.levelOf v := fun v hv => by
    rw [SolverContext.levelOf, hother v (hne v hv)]
    rfl
  have hle : ∀ v ∈ ctx.trail, ctx'.levelOf v ≤ ctx'.currentDecisionLevel := fun v hv =>
    calc ctx'.levelOf v = ctx.levelOf v := hlevelv v hv
      _ ≤ ctx.currentDecisionLevel := h.le_current v hv
      _ ≤ ctx'.currentDecisionLevel := hcurrent
  refine ⟨fun id p hp => ?_, fun v => ?_, ?_, fun v hv => ?_, fun v id hr => ?_⟩
  · rw [hclause] at hp
    rw [hvars, SolverContext.setVar, List.length_modify]
    exact h.ids id p hp
  · rw [htrail, List.mem_append, List.mem_singleton]
    by_cases hvw : v = w
    · rw [hvw, hself]
      simp [hassigned]
    · rw [hother v hvw, h.mem_iff v]
      simp [hvw]
  · rw [htrail, List.pairwise_append]
    refine ⟨?_, List.pairwise_singleton _ _, fun v hv u hu => ?_⟩
    · refine h.sorted.imp_of_mem (fun {v u} hv hu hvu => ?_)
      rw [hlevelv v hv, hlevelv u hu]
      exact hvu
    · rw [List.mem_singleton.mp hu, hlevelw]
      exact hle v hv
  · rw [htrail, List.mem_append, List.mem_singleton] at hv
    rcases hv with hv | rfl
    · exact hle v hv
    · exact le_of_eq hlevelw
  · rw [hclauses, hclause, htrail]
    by_cases hvw : v = w
    · -- the other variables of the reason had a value before
      subst hvw
      rw [hself] at hr
      obtain ⟨hid, hall⟩ := hreason id hr
      refine ⟨hid, List.mem_append_right _ (List.mem_singleton_self v), fun p hp => ?_⟩
      rcases hall p hp with heq | hmem
      · rw [heq]
        exact ⟨List.mem_append_right _ (List.mem_singleton_self v), le_refl _⟩
      · rw [hlevelw]
        exact ⟨List.mem_append_left _ hmem, hle p.2 hmem⟩
    · rw [hother v hvw] at hr
      obtain ⟨hid, hv, hall⟩ := h.reasons v id hr
      refine ⟨hid, List.mem_append_left _ hv, fun p hp => ?_⟩
      obtain ⟨hmem, hple⟩ := hall p hp
      rw [hlevelv p.2 hmem, hlevelv v hv]
      exact ⟨List.mem_append_left _ hmem, hple⟩

/-- What a backtrack to level `k` leaves: the entries of levels up to `k`. -/
theorem Levelled.mem_trail_backtrack (h : Levelled ctx) {k : Nat} {v : VarId} :
    v ∈ (backtrack ctx k).trail ↔ v ∈ ctx.trail ∧ ctx.levelOf v ≤ k := by
  show v ∈ (backtrackLoop k ctx.trail.reverse ctx.vars).1.reverse ↔ _
  rw [backtrackLoop_fst, List.mem_reverse]
  exact (mem_dropWhile_level (List.pairwise_reverse.mpr h.sorted) k v).trans
    (and_congr_left' List.mem_reverse)

theorem Levelled.mem_undone (h : Levelled ctx) {k : Nat} {v : VarId} :
    v ∈ ctx.state.undone k ↔ v ∈ ctx.trail ∧ k < ctx.levelOf v := by
  have hdrop := @mem_dropWhile_level _ ctx.levelOf _ (List.pairwise_reverse.mpr h.sorted) k v
  constructor
  · intro hv
    have hmem := (List.takeWhile_prefix _).subset hv
    exact ⟨List.mem_reverse.mp hmem, lt_level_of_mem_undone hv⟩
  · rintro ⟨hv, hlt⟩
    have hmem : v ∈ ctx.state.trail := List.mem_reverse.mpr hv
    rw [← undone_append ctx.state k, List.mem_append] at hmem
    refine hmem.resolve_right (fun hkept => ?_)
    have := (hdrop.mp hkept).2
    omega

theorem length_vars_backtrackLoop (k : Nat) (t : List VarId) (vars : List Var) :
    (backtrackLoop k t vars).2.length = vars.length := by
  have h := congrArg List.length (@backtrackLoop_literal k t vars)
  simpa using h

theorem Levelled.backtrack (h : Levelled ctx) (k : Nat) : Levelled (backtrack ctx k) := by
  refine ⟨fun id p hp => ?_, fun v => ?_, ?_, fun v hv => ?_, fun v id hr => ?_⟩
  · show p.2 < (backtrackLoop k ctx.trail.reverse ctx.vars).2.length
    rw [length_vars_backtrackLoop]
    exact h.ids id p hp
  · rw [h.mem_trail_backtrack, var_backtrack]
    by_cases hv : v ∈ ctx.state.undone k
    · have := (h.mem_undone.mp hv).2
      rw [if_pos hv]
      simp [unassign]
      omega
    · rw [if_neg hv, ← h.mem_iff v]
      have hle : v ∈ ctx.trail → ctx.levelOf v ≤ k := fun hmem =>
        not_lt.mp (fun hlt => hv (h.mem_undone.mpr ⟨hmem, hlt⟩))
      exact ⟨And.left, fun hmem => ⟨hmem, hle hmem⟩⟩
  · simp only [levelOf_backtrack]
    refine h.sorted.sublist ?_
    show (backtrackLoop k ctx.trail.reverse ctx.vars).1.reverse.Sublist ctx.trail
    rw [backtrackLoop_fst]
    have hsub := (List.dropWhile_sublist (fun v =>
      decide (k < (ctx.vars.getD v default).context.decisionLevel)) : List.Sublist _ ctx.trail.reverse)
    simpa using hsub.reverse
  · rw [levelOf_backtrack]
    exact (h.mem_trail_backtrack.mp hv).2
  · rw [var_backtrack] at hr
    by_cases hv : v ∈ ctx.state.undone k
    · rw [if_pos hv] at hr
      cases hr
    · -- what stays of a level keeps its reason's variables
      rw [if_neg hv] at hr
      obtain ⟨hid, hmem, hall⟩ := h.reasons v id hr
      have hle : ctx.levelOf v ≤ k := not_lt.mp (fun hlt => hv (h.mem_undone.mpr ⟨hmem, hlt⟩))
      refine ⟨hid, h.mem_trail_backtrack.mpr ⟨hmem, hle⟩, fun p hp => ?_⟩
      obtain ⟨hpmem, hple⟩ := hall p hp
      rw [levelOf_backtrack, levelOf_backtrack]
      exact ⟨h.mem_trail_backtrack.mpr ⟨hpmem, hple.trans hle⟩, hple⟩

/-- A unit clause: its other variables have a value. -/
theorem of_propagate_unit {ctx ctx' : SolverContext} {id : ClauseId} {n : Nat}
    (h : propagate ⟨ctx, none, n⟩ id = ⟨ctx', none, n + 1⟩) :
    ∃ u ∈ ctx.clause id, (ctx.var u.2).assignment = .notAssigned ∧ ctx' = assignUnit ctx id u ∧
      ∀ p ∈ ctx.clause id, p.2 = u.2 ∨ (ctx.var p.2).assignment ≠ .notAssigned := by
  have hsat : ¬ isClauseSatisfied ctx (ctx.clause id) = true := by
    intro hs
    simp [propagate, hs] at h
  rcases hu : unassigned ctx (ctx.clause id) with _ | ⟨u, _ | ⟨u', us⟩⟩
  · simp [propagate, hsat, hu] at h
  · have hmem : u ∈ unassigned ctx (ctx.clause id) := by rw [hu]; exact List.mem_singleton_self u
    obtain ⟨hc, hna⟩ := List.mem_filter.mp hmem
    refine ⟨u, hc, of_decide_eq_true hna, ?_, fun p hp => ?_⟩
    · simpa [propagate, hsat, hu] using h.symm
    · by_cases hpa : (ctx.var p.2).assignment = .notAssigned
      · have hpu : p ∈ unassigned ctx (ctx.clause id) :=
          List.mem_filter.mpr ⟨hp, decide_eq_true hpa⟩
        rw [hu, List.mem_singleton] at hpu
        exact Or.inl (by rw [hpu])
      · exact Or.inr hpa
  · simp [propagate, hsat, hu] at h

/-! ## Conflict analysis -/

/-- A literal of the antecedent of some variable. -/
def InReason (ctx : SolverContext) (p : Literal × VarId) : Prop :=
  ∃ v id, (ctx.var v).context.clausePropagation = some id ∧ p ∈ ctx.clause id

/-- Where the literals and the level of an analysis that started with `c` come from. -/
structure Origins (ctx : SolverContext) (c : Clause) (a : Analysis) : Prop where
  literals : ∀ p ∈ a.learnedClause, p ∈ c ∨ InReason ctx p
  level : a.backtrackLevel = 0 ∨ ∃ p, InReason ctx p ∧ ctx.levelOf p.2 = a.backtrackLevel

variable {c : Clause} {a : Analysis}

theorem Origins.addAntecedent (h : Origins ctx c a) (trailLit : Literal) {p : Literal × VarId}
    (hp : InReason ctx p) : Origins ctx c (addAntecedent ctx trailLit a p) := by
  unfold Fabko.Sat.addAntecedent
  split
  · exact h
  · refine ⟨fun q hq => ?_, ?_⟩
    · rcases List.mem_append.mp hq with hq' | hq'
      · exact h.literals q hq'
      · rw [List.mem_singleton.mp hq']
        exact Or.inr hp
    · dsimp only
      split
      · exact Or.inr ⟨p, hp, rfl⟩
      · exact h.level

theorem Origins.foldl (h : Origins ctx c a) (trailLit : Literal) {d : Clause}
    (hd : ∀ p ∈ d, InReason ctx p) :
    Origins ctx c (d.foldl (Fabko.Sat.addAntecedent ctx trailLit) a) := by
  induction d generalizing a with
  | nil => exact h
  | cons p d ih =>
      exact ih (h.addAntecedent trailLit (hd p List.mem_cons_self))
        (fun q hq => hd q (List.mem_cons_of_mem p hq))

theorem Origins.resolveAt (h : Origins ctx c a) (i : Nat) : Origins ctx c (resolveAt ctx a i) := by
  have herased : Origins ctx c { a with
      learnedClause := a.learnedClause.filter (fun p =>
        !(p.1.value == (ctx.var (ctx.trailVar i)).literal.value)) } :=
    ⟨fun p hp => h.literals p (List.mem_of_mem_filter hp), h.level⟩
  unfold Fabko.Sat.resolveAt
  dsimp only
  split
  · exact ⟨herased.literals, herased.level⟩
  · rename_i id hid
    have hmerged := herased.foldl (ctx.var (ctx.trailVar i)).literal
      (fun p hp => ⟨ctx.trailVar i, id, hid, hp⟩ : ∀ p ∈ ctx.clause id, InReason ctx p)
    exact ⟨hmerged.literals, hmerged.level⟩

theorem origins_resolveConflict (ctx : SolverContext) (c : Clause) :
    (∀ p ∈ (resolveConflict ctx c).learnedClause, p ∈ c ∨ InReason ctx p) ∧
    ((resolveConflict ctx c).backtrackLevel = 0 ∨
      ∃ p, InReason ctx p ∧ ctx.levelOf p.2 = (resolveConflict ctx c).backtrackLevel) := by
  have hstart : Origins ctx c (startAnalysis ctx c) := ⟨fun p hp => Or.inl hp, Or.inl rfl⟩
  obtain ⟨b, hb, he⟩ := resolveLoop_induct (fun a ha _ _ => ha.resolveAt _) _ hstart
  rw [he.resolveConflict]
  exact ⟨fun p hp => hb.literals p (mem_of_mem_sortUnique hp), hb.level⟩

/-- At level 0 there is no level to go back to. -/
theorem Levelled.backtrackLevel_eq_zero (h : Levelled ctx) (hz : ctx.currentDecisionLevel = 0)
    (c : Clause) : (resolveConflict ctx c).backtrackLevel = 0 := by
  rcases (origins_resolveConflict ctx c).2 with hnone | ⟨p, ⟨v, id, hr, hp⟩, hlevel⟩
  · exact hnone
  · have hmem := ((h.reasons v id hr).2.2 p hp).1
    have hle := h.le_current p.2 hmem
    omega

/-- A clause of the longer array is one of the shorter, or the new one. -/
theorem clause_append (rows : List ClauseRow) (row : ClauseRow) (id : ClauseId) :
    (((rows ++ [row])[id]?).map ClauseRow.clause).getD []
      = ((rows[id]?).map ClauseRow.clause).getD [] ∨
    (((rows ++ [row])[id]?).map ClauseRow.clause).getD [] = row.clause := by
  rcases Nat.lt_trichotomy id rows.length with hlt | rfl | hgt
  · exact Or.inl (by rw [List.getElem?_append_left hlt])
  · exact Or.inr (by simp)
  · refine Or.inl ?_
    rw [List.getElem?_eq_none (by simp; omega), List.getElem?_eq_none (by omega)]

theorem Levelled.learn (h : Levelled ctx) (id : ClauseId) :
    Levelled (learnAdditionalClause ctx (resolveConflict ctx (ctx.clause id)).learnedClause) := by
  have hids : ∀ p ∈ (resolveConflict ctx (ctx.clause id)).learnedClause, p.2 < ctx.vars.length := by
    intro p hp
    rcases (origins_resolveConflict ctx (ctx.clause id)).1 p hp with hc | ⟨v, j, hr, hp'⟩
    · exact h.ids id p hc
    · exact h.ids j p hp'
  set d := (resolveConflict ctx (ctx.clause id)).learnedClause
  unfold learnAdditionalClause
  split
  · exact h
  · refine ⟨fun j p hp => ?_, h.mem_iff, h.sorted, h.le_current, fun v j hr => ?_⟩
    · change p ∈ (((ctx.clauses ++ [⟨d, watch ctx.vars d⟩])[j]?).map ClauseRow.clause).getD [] at hp
      rcases clause_append ctx.clauses ⟨d, watch ctx.vars d⟩ j with heq | heq
      · rw [heq] at hp
        exact h.ids j p hp
      · rw [heq] at hp
        exact hids p hp
    · obtain ⟨hj, hv, hall⟩ := h.reasons v j hr
      refine ⟨?_, hv, fun p hp => hall p ?_⟩
      · refine lt_of_lt_of_le hj ?_
        show _ ≤ (ctx.clauses ++ [(⟨d, watch ctx.vars d⟩ : ClauseRow)]).length
        simp
      · simpa [SolverContext.clause, List.getElem?_append_left hj] using hp

/-! ## Steps and runs -/

/-- **The step lemma.** -/
theorem Step.levelled {f g : Frame} (hs : Step mul f g) (h : Levelled f.ctx) : Levelled g.ctx := by
  cases hs with
  | @restart ctx =>
      refine restartIfDue_induct mul ctx ?_ h
      have hb := Levelled.backtrack h 0
      exact ⟨hb.ids, hb.mem_iff, hb.sorted, hb.le_current, hb.reasons⟩
  | @unit ctx ctx' id n hid hp =>
      obtain ⟨u, hu, hna, rfl, hothers⟩ := of_propagate_unit hp
      have hids : IdsInRange ctx := h.ids
      refine Levelled.push h (mem_unassignedVars.mpr ⟨hids id u hu, hna⟩) rfl rfl rfl (le_refl _)
        ?_ rfl ?_
      · cases u.1.isOn <;> simp
      · intro id' hid'
        simp only [Option.some.injEq] at hid'
        subst hid'
        exact ⟨hid, fun p hp' => (hothers p hp').imp_right ((Levelled.mem_iff h p.2).mpr)⟩
  | count n => exact h.of_stutters (stutters_countPropagations _ n)
  | conflict hid hp => exact h.of_stutters (stutters_countConflict _)
  | quiet hp => exact h
  | unsatisfiable hr => exact h
  | learn hr hu =>
      subst hr
      exact Levelled.learn h _
  | backtrack => exact Levelled.backtrack h _
  | activity hup => exact h.of_stutters (stutters_updateVsidsActivity hup)
  | @decide ctx v hv =>
      refine Levelled.push h hv rfl rfl rfl (Nat.le_succ _) (by simp) rfl ?_
      -- an unassigned variable has no reason
      intro id hid
      exact absurd (mem_unassignedVars.mp hv).2 ((Levelled.mem_iff h v).mp (h.reasons v id hid).2.1)
  | finish hall => exact h

/-- **The run lemma.** -/
theorem Steps.levelled {f g : Frame} (hs : Steps mul f g) (h : Levelled f.ctx) :
    Levelled g.ctx := by
  induction hs with
  | refl => exact h
  | tail _ hstep ih => exact hstep.levelled ih

theorem levelled_of_solverContext (h : solverContext m = .ok ctx) : Levelled ctx := by
  have hf := fresh_of_solverContext h
  refine ⟨hf.linked.idsInRange, fun v => ?_, ?_, fun v hv => ?_, fun v id hr => ?_⟩
  · simp [hf.trail, hf.unassigned v]
  · rw [hf.trail]
    exact List.Pairwise.nil
  · rw [hf.trail] at hv
    cases hv
  · rw [hf.unforced v] at hr
    cases hr

theorem Run.levelled {es : List Event} {init : SolverContext} (hinit : solverContext m = .ok init)
    (h : Run mul init ctx es) : Levelled ctx :=
  h.steps.levelled (levelled_of_solverContext hinit)

end Fabko.Sat
