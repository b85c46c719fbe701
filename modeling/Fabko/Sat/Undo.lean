import Fabko.Sat.Invariants

set_option autoImplicit false

/-! # Backtracking undoes the deeper levels

From a decision on, as long as the level stays above the one `s` the decision was made at, the
search only adds to the trail of `s` and leaves the records of its variables alone. So `backtrack`
to the level of `s` brings its assignment back, whatever happened since. -/

namespace Fabko.Sat

open Cnf Cdcl

variable {m : Model} {s c : SolverContext} {mul : Nat → Nat → Nat} {f g : Frame}

/-- A run on which every level is above `l`. -/
abbrev StepsAbove (mul : Nat → Nat → Nat) (l : Nat) : Frame → Frame → Prop :=
  Relation.ReflTransGen (fun f g => Step mul f g ∧ l < g.ctx.currentDecisionLevel)

theorem StepsAbove.steps {l : Nat} (h : StepsAbove mul l f g) : Steps mul f g := by
  induction h with
  | refl => exact Relation.ReflTransGen.refl
  | tail _ hstep ih => exact ih.tail hstep.1

/-- `c` has the trail of `s` and, after it, entries of deeper levels. -/
structure Extends (s c : SolverContext) : Prop where
  trail : ∃ newer, c.trail = s.trail ++ newer ∧
    ∀ v ∈ newer, s.currentDecisionLevel < c.levelOf v
  records : ∀ v ∈ s.trail, SameAssignment (c.var v) (s.var v)

/-! ## One step -/

/-- An operation that leaves the trail alone and writes nothing but activities. -/
theorem Extends.congr {c' : SolverContext} (h : Extends s c) (ht : c'.trail = c.trail)
    (hv : ∀ v, SameAssignment (c'.var v) (c.var v)) : Extends s c' := by
  obtain ⟨newer, htrail, hdeep⟩ := h.trail
  refine ⟨⟨newer, ht.trans htrail, fun v hmem => ?_⟩, fun v hmem => (hv v).trans (h.records v hmem)⟩
  show _ < (c'.var v).context.decisionLevel
  rw [(hv v).decisionLevel]
  exact hdeep v hmem

theorem Extends.of_stutters {c' : SolverContext} (h : Extends s c) (hs : Stutters c c') :
    Extends s c' :=
  h.congr hs.trail (fun v => hs.vars.getD v)

/-- A new entry at the end of the trail, of a level above that of `s`. -/
theorem Extends.push {c' : SolverContext} {w : VarId} {assign : Var → Var} (hs : TrailStructure s)
    (h : Extends s c) (hw : w ∈ unassignedVars c) (ht : c'.trail = c.trail ++ [w])
    (hvars : c'.vars = (c.setVar w assign).vars)
    (hlevel : s.currentDecisionLevel < (assign (c.var w)).context.decisionLevel) :
    Extends s c' := by
  obtain ⟨newer, htrail, hdeep⟩ := h.trail
  obtain ⟨hlt, hopen⟩ := mem_unassignedVars.mp hw
  have hv : ∀ v, v ≠ w → c'.var v = c.var v := fun v hne => var_of_vars_eq_of_ne hvars hne
  refine ⟨⟨newer ++ [w], ?_, fun v hmem => ?_⟩, fun v hmem => ?_⟩
  · rw [ht, htrail, List.append_assoc]
  · by_cases hvw : v = w
    · show _ < (c'.var v).context.decisionLevel
      rw [hvw, var_of_vars_eq_self hvars hlt]
      exact hlevel
    · have hold : v ∈ newer := by
        rcases List.mem_append.mp hmem with hold | hnew
        · exact hold
        · exact absurd (List.mem_singleton.mp hnew) hvw
      show _ < (c'.var v).context.decisionLevel
      rw [hv v hvw]
      exact hdeep v hold
  · -- an entry of `s` is assigned, `w` was not
    have hvw : v ≠ w := by
      rintro rfl
      apply (hs.mem_iff v).mp hmem
      rw [← (h.records v hmem).assignment]
      exact hopen
    rw [hv v hvw]
    exact h.records v hmem

/-- What a backtrack to a level not below that of `s` leaves on the trail. -/
theorem Extends.trail_backtrack (hs : TrailStructure s) (h : Extends s c) {newer : List VarId}
    (hn : c.trail = s.trail ++ newer) {k : Nat} (hk : s.currentDecisionLevel ≤ k) :
    (backtrack c k).trail
      = s.trail ++ (newer.reverse.dropWhile (fun v => decide (k < c.levelOf v))).reverse := by
  have hold : s.trail.reverse.dropWhile (fun v => decide (k < c.levelOf v)) = s.trail.reverse := by
    apply List.dropWhile_eq_self_iff.mpr
    intro hpos
    have hmem : s.trail.reverse[0] ∈ s.trail := List.mem_reverse.mp (List.getElem_mem hpos)
    have hle := hs.le_current _ hmem
    have heq : c.levelOf s.trail.reverse[0] = s.levelOf s.trail.reverse[0] :=
      (h.records _ hmem).decisionLevel
    simp only [decide_eq_true_eq]
    omega
  show (backtrackLoop k c.trail.reverse c.vars).1.reverse = _
  rw [backtrackLoop_fst, hn, List.reverse_append, List.dropWhile_append]
  change (if (newer.reverse.dropWhile (fun v => decide (k < c.levelOf v))).isEmpty
    then s.trail.reverse.dropWhile (fun v => decide (k < c.levelOf v)) else _).reverse = _
  split
  · rename_i hnil
    rw [hold, List.isEmpty_iff.mp hnil]
    simp
  · rw [List.reverse_append, List.reverse_reverse]
    rfl

/-- A backtrack writes no record of `s`. -/
theorem Extends.var_backtrack (hs : TrailStructure s) (h : Extends s c) {k : Nat}
    (hk : s.currentDecisionLevel ≤ k) {v : VarId} (hv : v ∈ s.trail) :
    (backtrack c k).var v = c.var v := by
  rw [Fabko.Sat.var_backtrack, if_neg]
  intro hundone
  have hlt : k < c.levelOf v := lt_level_of_mem_undone hundone
  have hle := hs.le_current v hv
  have heq : c.levelOf v = s.levelOf v := (h.records v hv).decisionLevel
  omega

theorem Extends.backtrack (hs : TrailStructure s) (h : Extends s c) {k : Nat}
    (hk : s.currentDecisionLevel ≤ k) : Extends s (backtrack c k) := by
  obtain ⟨newer, htrail, hdeep⟩ := h.trail
  refine ⟨⟨_, h.trail_backtrack hs htrail hk, fun v hmem => ?_⟩, fun v hmem => ?_⟩
  · rw [levelOf_backtrack]
    have hsub := (List.dropWhile_suffix (fun v => decide (k < c.levelOf v))).subset
      (List.mem_reverse.mp hmem)
    exact hdeep v (List.mem_reverse.mp hsub)
  · rw [h.var_backtrack hs hk hmem]
    exact h.records v hmem

/-- **What one step adds** while the level is above that of `s`. -/
theorem Step.extends (hm : m.WellFormed) (hs : TrailStructure s) (hstep : Step mul f g)
    (hf : Inv m f) (hl : s.currentDecisionLevel < g.ctx.currentDecisionLevel)
    (h : Extends s f.ctx) : Extends s g.ctx := by
  cases hstep with
  | @restart ctx =>
      -- a restart would lead to level 0
      have hl' : s.currentDecisionLevel < (restartIfDue mul ctx).currentDecisionLevel := hl
      show Extends s (restartIfDue mul ctx)
      unfold restartIfDue at hl' ⊢
      split at hl'
      · exact absurd hl' (Nat.not_lt_zero _)
      · rename_i hdue
        rw [if_neg hdue]
        exact h
  | @unit ctx ctx' id n hid hp =>
      have hg : Good m ctx := hf
      obtain ⟨u, hu, rfl, hforces⟩ := forces_of_propagate hm hg.linked hid hp
      have hlt := hg.linked.lt_length (hg.linked.resolved_clause hid u hu)
      have hopen : (ctx.var u.2).assignment = .notAssigned :=
        Assignment.toOption_eq_none.mp hforces.isOpen
      exact h.push hs (mem_unassignedVars.mpr ⟨hlt, hopen⟩) rfl rfl hl
  | count n => exact h.of_stutters (stutters_countPropagations _ n)
  | conflict hid hp => exact h.of_stutters (stutters_countConflict _)
  | quiet hp => exact h
  | unsatisfiable hr => exact h
  | @learn ctx id r hr hu =>
      refine h.congr ?_ (fun v => ?_)
      · show (learnAdditionalClause ctx r.learnedClause).trail = ctx.trail
        unfold learnAdditionalClause
        split <;> rfl
      · show SameAssignment ((learnAdditionalClause ctx r.learnedClause).var v) (ctx.var v)
        unfold learnAdditionalClause
        split <;> exact SameAssignment.refl _
  | @backtrack ctx r =>
      have hlevel : s.currentDecisionLevel < r.backtrackLevel := hl
      exact Extends.backtrack hs h (le_of_lt hlevel)
  | activity hup => exact h.of_stutters (stutters_updateVsidsActivity hup)
  | @decide ctx v hv =>
      exact h.push hs hv rfl rfl hl
  | finish hall => exact h

/-- **What a run adds.** -/
theorem StepsAbove.extends (hm : m.WellFormed) (hs : TrailStructure s)
    (hrun : StepsAbove mul s.currentDecisionLevel f g) (hf : Inv m f) (h : Extends s f.ctx) :
    Extends s g.ctx := by
  induction hrun with
  | refl => exact h
  | tail hsteps hstep ih =>
      have hinv := Steps.inv hm (StepsAbove.steps hsteps) hf
      exact hstep.1.extends hm hs hinv hstep.2 ih

/-! ## The backtrack -/

/-- What `backtrack` in `c` to the level of `s` does: the assignment of `s` is back, and the
clauses and the activities are those of `c`. -/
structure Undoes (s c : SolverContext) : Prop where
  assignment : ∀ v,
    ((backtrack c s.currentDecisionLevel).var v).assignment = (s.var v).assignment
  records : ∀ v, (s.var v).assignment ≠ .notAssigned →
    (backtrack c s.currentDecisionLevel).levelOf v = s.levelOf v ∧
    ((backtrack c s.currentDecisionLevel).var v).context.clausePropagation
      = (s.var v).context.clausePropagation
  trail : (backtrack c s.currentDecisionLevel).trail = s.trail
  current : (backtrack c s.currentDecisionLevel).currentDecisionLevel = s.currentDecisionLevel
  clauses : (backtrack c s.currentDecisionLevel).clauses = c.clauses
  activities : ∀ v, ((backtrack c s.currentDecisionLevel).var v).context.vsidsActivity
    = (c.var v).context.vsidsActivity

theorem Extends.undoes (hs : TrailStructure s) (hc : TrailStructure c) (h : Extends s c) :
    Undoes s c := by
  obtain ⟨newer, htrail, hdeep⟩ := h.trail
  have hall : ∀ v ∈ newer.reverse, decide (s.currentDecisionLevel < c.levelOf v) = true :=
    fun v hv => decide_eq_true (hdeep v (List.mem_reverse.mp hv))
  have hrecord : ∀ v ∈ s.trail,
      SameAssignment ((Fabko.Sat.backtrack c s.currentDecisionLevel).var v) (s.var v) := by
    intro v hv
    rw [h.var_backtrack hs (le_refl _) hv]
    exact h.records v hv
  refine ⟨fun v => ?_, fun v hv => ?_, ?_, rfl, rfl, fun v => ?_⟩
  · by_cases hv : v ∈ s.trail
    · exact (hrecord v hv).assignment
    · have hnone : (s.var v).assignment = .notAssigned := by
        by_contra hne
        exact hv ((hs.mem_iff v).mpr hne)
      rw [hnone, Fabko.Sat.var_backtrack]
      split
      · rfl
      · -- what the loop does not take off was not on the trail
        rename_i hkept
        by_contra hne
        have hmem := (hc.mem_iff v).mpr hne
        rw [htrail] at hmem
        have hnew := (List.mem_append.mp hmem).resolve_left hv
        apply hkept
        show v ∈ c.trail.reverse.takeWhile (fun v => decide (s.currentDecisionLevel < c.levelOf v))
        rw [htrail, List.reverse_append, List.takeWhile_append_of_pos hall]
        exact List.mem_append_left _ (List.mem_reverse.mpr hnew)
  · have hr := hrecord v ((hs.mem_iff v).mpr hv)
    exact ⟨hr.decisionLevel, hr.clausePropagation⟩
  · rw [h.trail_backtrack hs htrail (le_refl _), List.dropWhile_eq_nil_iff.mpr hall]
    simp
  · rw [Fabko.Sat.var_backtrack]
    split <;> rfl

/-- The decision itself. -/
theorem extends_decideOn (hs : TrailStructure s) {v : VarId} (hv : v ∈ unassignedVars s) :
    Extends s (decideOn s v) := by
  have hself : Extends s s :=
    ⟨⟨[], (List.append_nil _).symm, fun _ hn => nomatch hn⟩, fun v _ => SameAssignment.refl _⟩
  exact hself.push hs hv rfl rfl (Nat.lt_succ_self _)

/-- **Backtracking undoes exactly the deeper levels**: after a decision and any run that stays
above the level it was made at, `backtrack` to that level restores the state of the decision. -/
theorem reachable_backtrack_undoes (hm : m.WellFormed) (h : Reachable mul m ⟨.quiet, s⟩)
    {v : VarId} (hv : v ∈ unassignedVars s)
    (hrun : StepsAbove mul s.currentDecisionLevel ⟨.head, decideOn s v⟩ g) : Undoes s g.ctx := by
  have hs : TrailStructure s := h.trailStructure hm
  have hdecided := h.tail (Step.decide hv)
  have hg : Reachable mul m g := hdecided.trans hrun.steps
  have hext := hrun.extends hm hs (hdecided.inv hm) (extends_decideOn hs hv)
  exact hext.undoes hs (hg.trailStructure hm)

/-- The context of `backjumping` with nothing assigned. -/
def backjumpingStart : SolverContext where
  config := {}
  vars := [⟨⟨1⟩, .notAssigned, { vsidsActivity := 3 }⟩,
    ⟨⟨2⟩, .notAssigned, { vsidsActivity := 2 }⟩, ⟨⟨3⟩, .notAssigned, { vsidsActivity := 2 }⟩]
  clauses := [⟨[(⟨1⟩, 0), (⟨-1⟩, 0)], ⟨some 0, some 0⟩⟩,
    ⟨[(⟨-1⟩, 0), (⟨-2⟩, 1), (⟨3⟩, 2)], ⟨some 0, some 1⟩⟩,
    ⟨[(⟨-2⟩, 1), (⟨-3⟩, 2)], ⟨some 1, some 2⟩⟩]

/-- Its first conflict: 1 and 2 are decided and 3 is propagated. -/
def backjumpingConflict : SolverContext :=
  countConflict (assignUnit (decideOn (decideOn backjumpingStart 0) 1) 1 (⟨3⟩, 2))

/-- After the decision on 1 and a continuation with a second decision, a conflict and a backjump to
level 1. -/
theorem reachable_backtrack_undoes_backjumping :
    ∃ ctx, Reachable mulUInt32 backjumping ⟨.quiet, backjumpingStart⟩ ∧
      StepsAbove mulUInt32 0 ⟨.head, decideOn backjumpingStart 0⟩
        ⟨.conflict 2, backjumpingConflict⟩ ∧
      StepsAbove mulUInt32 0 ⟨.conflict 2, backjumpingConflict⟩ ⟨.head, ctx⟩ ∧
      ctx.currentDecisionLevel = 1 ∧ ctx.clauses.length = 4 ∧ Undoes backjumpingStart ctx := by
  have hstart : Reachable mulUInt32 backjumping ⟨.quiet, backjumpingStart⟩ := by
    have hhead : Reachable mulUInt32 backjumping ⟨.head, backjumpingStart⟩ :=
      ⟨backjumpingStart, by decide +kernel, Relation.ReflTransGen.refl⟩
    exact (hhead.tail Step.restart).tail (Step.quiet (by decide +kernel))
  -- the second decision; no restart is due
  have hdecided : StepsAbove mulUInt32 0 ⟨.head, decideOn backjumpingStart 0⟩
      ⟨.head, decideOn (decideOn backjumpingStart 0) 1⟩ :=
    ((Relation.ReflTransGen.single ⟨Step.restart, by decide⟩).tail
      ⟨Step.quiet (by decide +kernel), by decide⟩).tail ⟨Step.decide (by decide), by decide⟩
  have hunit : Step mulUInt32 ⟨.propagating, decideOn (decideOn backjumpingStart 0) 1⟩
      ⟨.propagating, assignUnit (decideOn (decideOn backjumpingStart 0) 1) 1 (⟨3⟩, 2)⟩ :=
    @Step.unit _ _ _ 1 0 (by decide) (by decide +kernel)
  have hfalse : Step mulUInt32
      ⟨.propagating, assignUnit (decideOn (decideOn backjumpingStart 0) 1) 1 (⟨3⟩, 2)⟩
      ⟨.conflict 2, backjumpingConflict⟩ :=
    @Step.conflict _ _ 2 1 (by decide) (by decide +kernel)
  have hconflict : StepsAbove mulUInt32 0 ⟨.head, decideOn backjumpingStart 0⟩
      ⟨.conflict 2, backjumpingConflict⟩ :=
    ((hdecided.tail ⟨Step.restart, by decide⟩).tail ⟨hunit, by decide⟩).tail ⟨hfalse, by decide⟩
  -- what is learned is false at level 1, and that is where the search goes back to
  set r := resolveConflict backjumpingConflict (backjumpingConflict.clause 2) with hr
  have hnot : ¬ ReportsUnsatisfiable backjumpingConflict r :=
    not_or.mpr ⟨by decide +kernel, by decide +kernel⟩
  have hactivity : (updateVsidsActivity (backtrack
      (learnAdditionalClause backjumpingConflict r.learnedClause) r.backtrackLevel)
        r.learnedClause).map (fun c => (c.currentDecisionLevel, c.clauses.length))
      = some (1, 4) := by decide +kernel
  obtain ⟨ctx, hup, hcounted⟩ := Option.map_eq_some_iff.mp hactivity
  obtain ⟨hlevel, hlength⟩ := Prod.mk.inj hcounted
  have hback : StepsAbove mulUInt32 0 ⟨.conflict 2, backjumpingConflict⟩ ⟨.head, ctx⟩ :=
    ((Relation.ReflTransGen.single ⟨Step.learn hr.symm hnot, by decide +kernel⟩).tail
      ⟨Step.backtrack, by decide +kernel⟩).tail ⟨Step.activity hup, by rw [hlevel]; decide⟩
  exact ⟨ctx, hstart, hconflict, hback, hlevel, hlength,
    reachable_backtrack_undoes (by decide) hstart (by decide) (hconflict.trans hback)⟩

end Fabko.Sat
