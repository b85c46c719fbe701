import Fabko.Logic.Loop
import Fabko.Sat.Machine
import Mathlib.Data.List.Perm.Basic

set_option autoImplicit false

/-! # The functions run the machine

`unit_propagation`, one iteration of the loop and a whole call of `solve_sat` are runs of the
transition system of `Sat/Machine`. Propagation always ends: every pass that is repeated assigns
a variable. -/

namespace Fabko.Sat

open Cnf Cdcl

variable {mul : Nat → Nat → Nat}

/-! ## Counting unassigned variables -/

theorem length_unassignedVars_le (ctx : SolverContext) :
    (unassignedVars ctx).length ≤ ctx.vars.length := by
  calc (unassignedVars ctx).length
      ≤ (List.range ctx.vars.length).length := List.length_filter_le ..
    _ = ctx.vars.length := List.length_range

/-- Giving one unassigned variable a value takes it off the list, and only it. -/
theorem length_unassignedVars_of_assign {ctx ctx' : SolverContext} {v : VarId}
    (hv : v ∈ unassignedVars ctx) (hlen : ctx'.vars.length = ctx.vars.length)
    (hself : (ctx'.var v).assignment ≠ .notAssigned)
    (hothers : ∀ w, w ≠ v → (ctx'.var w).assignment = (ctx.var w).assignment) :
    (unassignedVars ctx').length + 1 = (unassignedVars ctx).length := by
  have hnodup : (unassignedVars ctx).Nodup := List.nodup_range.filter _
  have herase : unassignedVars ctx' = (unassignedVars ctx).erase v := by
    rw [hnodup.erase_eq_filter, unassignedVars, unassignedVars, hlen, List.filter_filter]
    apply List.filter_congr
    intro w _
    by_cases hw : w = v
    · subst hw
      simp [hself]
    · simp [hw, hothers w hw]
  rw [herase, List.length_erase_of_mem hv]
  have := List.length_pos_of_mem hv
  omega

theorem length_unassignedVars_assignUnit {ctx : SolverContext} {id : ClauseId}
    {u : Literal × VarId} (hu : u.2 ∈ unassignedVars ctx) :
    (unassignedVars (assignUnit ctx id u)).length + 1 = (unassignedVars ctx).length := by
  have hlt := (mem_unassignedVars.mp hu).1
  refine length_unassignedVars_of_assign hu (List.length_modify ..) ?_ (fun w hw => ?_)
  · show ((ctx.setVar u.2 _).var u.2).assignment ≠ _
    rw [var_setVar_self _ hlt]
    cases h : u.1.isOn <;> simp
  · show ((ctx.setVar u.2 _).var w).assignment = _
    rw [var_setVar_of_ne _ hw]

theorem length_unassignedVars_decideOn {ctx : SolverContext} {v : VarId}
    (hv : v ∈ unassignedVars ctx) :
    (unassignedVars (decideOn ctx v)).length + 1 = (unassignedVars ctx).length := by
  have hlt := (mem_unassignedVars.mp hv).1
  refine length_unassignedVars_of_assign hv (List.length_modify ..) ?_ (fun w hw => ?_)
  · show ((ctx.setVar v _).var v).assignment ≠ _
    rw [var_setVar_self _ hlt]
    simp
  · show ((ctx.setVar v _).var w).assignment = _
    rw [var_setVar_of_ne _ hw]

/-! ## One pass -/

theorem propagate_outcome (ctx : SolverContext) (id : ClauseId) (n : Nat) :
    propagate ⟨ctx, none, n⟩ id = ⟨ctx, none, n⟩ ∨
    propagate ⟨ctx, none, n⟩ id = ⟨ctx, some id, n⟩ ∨
    ∃ u ∈ ctx.clause id, (ctx.var u.2).assignment = .notAssigned ∧
      propagate ⟨ctx, none, n⟩ id = ⟨assignUnit ctx id u, none, n + 1⟩ := by
  by_cases hs : isClauseSatisfied ctx (ctx.clause id) = true
  · exact Or.inl (by simp [propagate, hs])
  · rcases hu : unassigned ctx (ctx.clause id) with _ | ⟨u, _ | ⟨u', us⟩⟩
    · exact Or.inr (Or.inl (by simp [propagate, hs, hu]))
    · have hmem : u ∈ unassigned ctx (ctx.clause id) := by rw [hu]; exact List.mem_singleton_self u
      obtain ⟨hc, hna⟩ := List.mem_filter.mp hmem
      exact Or.inr (Or.inr ⟨u, hc, of_decide_eq_true hna, by simp [propagate, hs, hu]⟩)
    · exact Or.inl (by simp [propagate, hs, hu])

/-- A conflict freezes the rest of the pass. -/
theorem foldl_propagate_of_conflict (ids : List ClauseId) (ctx : SolverContext) (id : ClauseId)
    (n : Nat) : ids.foldl propagate ⟨ctx, some id, n⟩ = ⟨ctx, some id, n⟩ := by
  induction ids with
  | nil => rfl
  | cons j ids ih =>
      rw [List.foldl_cons, show propagate ⟨ctx, some id, n⟩ j = ⟨ctx, some id, n⟩ by
        simp [propagate]]
      exact ih

/-- Clauses that are skipped leave the pass as it was. -/
theorem foldl_propagate_of_idle {ctx : SolverContext} {ids : List ClauseId} {n : Nat}
    (h : ∀ id ∈ ids, propagate ⟨ctx, none, n⟩ id = ⟨ctx, none, n⟩) :
    ids.foldl propagate ⟨ctx, none, n⟩ = ⟨ctx, none, n⟩ := by
  induction ids with
  | nil => rfl
  | cons id ids ih =>
      rw [List.foldl_cons, h id List.mem_cons_self]
      exact ih (fun j hj => h j (List.mem_cons_of_mem id hj))

/-- What propagation never writes. -/
structure SameSearch (ctx ctx' : SolverContext) : Prop where
  config : ctx'.config = ctx.config
  clauses : ctx'.clauses = ctx.clauses
  conflictCount : ctx'.conflictCountSinceLastRestart = ctx.conflictCountSinceLastRestart
  current : ctx'.currentDecisionLevel = ctx.currentDecisionLevel
  length_vars : ctx'.vars.length = ctx.vars.length
  restarts : ctx'.statistics.restarts = ctx.statistics.restarts
  conflicts : ctx'.statistics.conflicts = ctx.statistics.conflicts

theorem SameSearch.refl (ctx : SolverContext) : SameSearch ctx ctx :=
  ⟨rfl, rfl, rfl, rfl, rfl, rfl, rfl⟩

theorem SameSearch.trans {c₁ c₂ c₃ : SolverContext} (h₁ : SameSearch c₁ c₂)
    (h₂ : SameSearch c₂ c₃) : SameSearch c₁ c₃ :=
  ⟨h₂.config.trans h₁.config, h₂.clauses.trans h₁.clauses,
    h₂.conflictCount.trans h₁.conflictCount, h₂.current.trans h₁.current,
    h₂.length_vars.trans h₁.length_vars, h₂.restarts.trans h₁.restarts,
    h₂.conflicts.trans h₁.conflicts⟩

theorem sameSearch_assignUnit (ctx : SolverContext) (id : ClauseId) (u : Literal × VarId) :
    SameSearch ctx (assignUnit ctx id u) :=
  ⟨rfl, rfl, rfl, rfl, List.length_modify .., rfl, rfl⟩

/-- The outcome of a (partial) pass started with `n` clauses counted. -/
structure PassSpec (mul : Nat → Nat → Nat) (ctx : SolverContext) (n : Nat)
    (ids : List ClauseId) (p : Pass) : Prop where
  run : Steps mul ⟨.propagating, ctx⟩ ⟨.propagating, p.ctx⟩
  same : SameSearch ctx p.ctx
  mono : n ≤ p.count
  idle : p.conflict = none → p.count = n → p.ctx = ctx ∧
    ∀ id ∈ ids, propagate ⟨ctx, none, n⟩ id = ⟨ctx, none, n⟩
  conflict : ∀ id, p.conflict = some id → id < ctx.clauses.length ∧
    propagate ⟨p.ctx, none, p.count⟩ id = ⟨p.ctx, some id, p.count⟩

theorem foldl_propagate_spec (ids : List ClauseId) {ctx : SolverContext}
    (hids : ∀ id ∈ ids, id < ctx.clauses.length) (n : Nat) :
    PassSpec mul ctx n ids (ids.foldl propagate ⟨ctx, none, n⟩) := by
  induction ids generalizing ctx n with
  | nil =>
      refine ⟨Relation.ReflTransGen.refl, SameSearch.refl ctx, le_refl n, fun _ _ => ⟨rfl, ?_⟩, ?_⟩
      · intro id h
        cases h
      · intro id h
        cases h
  | cons id ids ih =>
      have hid := hids id List.mem_cons_self
      have hrest : ∀ j ∈ ids, j < ctx.clauses.length := fun j hj =>
        hids j (List.mem_cons_of_mem id hj)
      rw [List.foldl_cons]
      rcases propagate_outcome ctx id n with he | he | ⟨u, -, -, he⟩
      · rw [he]
        have h := ih hrest n
        refine ⟨h.run, h.same, h.mono, fun hc hn => ?_, h.conflict⟩
        obtain ⟨hctx, hall⟩ := h.idle hc hn
        refine ⟨hctx, fun j hj => ?_⟩
        rcases List.mem_cons.mp hj with rfl | hj'
        · exact he
        · exact hall j hj'
      · rw [he, foldl_propagate_of_conflict]
        refine ⟨Relation.ReflTransGen.refl, SameSearch.refl ctx, le_refl n, ?_, ?_⟩
        · intro hc
          cases hc
        · intro j hj
          simp only [Option.some.injEq] at hj
          subst hj
          exact ⟨hid, he⟩
      · -- a clause was counted, so the pass is not idle
        rw [he]
        have h := @ih (assignUnit ctx id u) hrest (n + 1)
        refine ⟨Relation.ReflTransGen.head (Step.unit hid he) h.run,
          (sameSearch_assignUnit ctx id u).trans h.same, Nat.le_of_succ_le h.mono,
          fun _ hn => ?_, h.conflict⟩
        have := h.mono
        omega

/-- What assigning the entry of a unit clause keeps, a pass keeps. -/
theorem foldl_propagate_induct {P : SolverContext → Nat → Prop}
    (hunit : ∀ {c : SolverContext} {n : Nat} {id : ClauseId} {u : Literal × VarId}, P c n →
      u ∈ c.clause id → (c.var u.2).assignment = .notAssigned →
      propagate ⟨c, none, n⟩ id = ⟨assignUnit c id u, none, n + 1⟩ → P (assignUnit c id u) (n + 1))
    (ids : List ClauseId) {ctx : SolverContext} {n : Nat} (h : P ctx n) :
    P (ids.foldl propagate ⟨ctx, none, n⟩).ctx (ids.foldl propagate ⟨ctx, none, n⟩).count := by
  induction ids generalizing ctx n with
  | nil => exact h
  | cons id ids ih =>
      rw [List.foldl_cons]
      rcases propagate_outcome ctx id n with he | he | ⟨u, hu, hna, he⟩
      · rw [he]
        exact ih h
      · rw [he, foldl_propagate_of_conflict]
        exact h
      · rw [he]
        exact ih (hunit h hu hna he)

/-- Every clause entry is the id of a variable. -/
def IdsInRange (ctx : SolverContext) : Prop :=
  ∀ id, ∀ p ∈ ctx.clause id, p.2 < ctx.vars.length

theorem Linked.idsInRange {m : Model} {ctx : SolverContext} (h : Linked m ctx) :
    IdsInRange ctx := by
  intro id p hp
  refine h.lt_length (h.resolved_clause ?_ p hp)
  by_contra hge
  rw [SolverContext.clause, List.getElem?_eq_none (not_lt.mp hge)] at hp
  cases hp

theorem IdsInRange.assignUnit {ctx : SolverContext} (h : IdsInRange ctx) (id : ClauseId)
    (u : Literal × VarId) : IdsInRange (assignUnit ctx id u) := by
  intro id' p hp
  rw [(sameSearch_assignUnit ctx id u).length_vars]
  exact h id' p hp

/-- Each clause counted in a pass took one variable off the list of the unassigned. -/
theorem foldl_propagate_unassigned (ids : List ClauseId) {ctx : SolverContext}
    (h : IdsInRange ctx) (n : Nat) :
    IdsInRange (ids.foldl propagate ⟨ctx, none, n⟩).ctx ∧
    (unassignedVars (ids.foldl propagate ⟨ctx, none, n⟩).ctx).length
      + (ids.foldl propagate ⟨ctx, none, n⟩).count = (unassignedVars ctx).length + n := by
  refine @foldl_propagate_induct (fun c k => IdsInRange c ∧
    (unassignedVars c).length + k = (unassignedVars ctx).length + n) ?_ ids ctx n ⟨h, rfl⟩
  rintro c k id u ⟨hr, hcount⟩ hu hna -
  have hmem : u.2 ∈ unassignedVars c := mem_unassignedVars.mpr ⟨hr id u hu, hna⟩
  have := @length_unassignedVars_assignUnit c id u hmem
  exact ⟨hr.assignUnit id u, by omega⟩

/-! ## `unit_propagation` -/

theorem mem_range_clauses {ctx : SolverContext} :
    ∀ id ∈ List.range ctx.clauses.length, id < ctx.clauses.length :=
  fun _ h => List.mem_range.mp h

theorem sameSearch_countPropagations (ctx : SolverContext) (n : Nat) :
    SameSearch ctx (countPropagations ctx n) :=
  ⟨rfl, rfl, rfl, rfl, rfl, rfl, rfl⟩

/-- Where propagation leads: to a fixpoint, or to a clause with every literal false. -/
def PropagationEnd (mul : Nat → Nat → Nat) (ctx ctx' : SolverContext) : Option ClauseId → Prop
  | none => Steps mul ⟨.propagating, ctx⟩ ⟨.quiet, ctx'⟩
  | some id => Steps mul ⟨.propagating, ctx⟩ ⟨.conflict id, countConflict ctx'⟩

theorem unitPropagationLoop_spec {fuel : Nat} {ctx ctx' : SolverContext} {o : Option ClauseId}
    (h : unitPropagationLoop fuel ctx = some (ctx', o)) :
    PropagationEnd mul ctx ctx' o ∧ SameSearch ctx ctx' := by
  induction fuel generalizing ctx with
  | zero => cases h
  | succ fuel ih =>
      have hpass : PassSpec mul ctx 0 _ (propagatePass ctx) :=
        foldl_propagate_spec (List.range ctx.clauses.length) mem_range_clauses 0
      have hconf : ∀ id, (propagatePass ctx).conflict = some id →
          PropagationEnd mul ctx (propagatePass ctx).ctx (some id) := fun id hc =>
        hpass.run.tail (Step.conflict (hpass.same.clauses ▸ (hpass.conflict id hc).1)
          (hpass.conflict id hc).2)
      unfold unitPropagationLoop at h
      dsimp only at h
      split at h
      · rename_i hzero
        simp only [Option.some.injEq, Prod.mk.injEq] at h
        obtain ⟨rfl, rfl⟩ := h
        refine ⟨?_, hpass.same⟩
        rcases hc : (propagatePass ctx).conflict with _ | id
        · obtain ⟨hctx, hall⟩ := hpass.idle hc hzero
          rw [hctx]
          exact Relation.ReflTransGen.single
            (Step.quiet (fun id hid => hall id (List.mem_range.mpr hid)))
        · exact hconf id hc
      · split at h
        · rename_i hsome
          simp only [Option.some.injEq, Prod.mk.injEq] at h
          obtain ⟨rfl, rfl⟩ := h
          refine ⟨?_, hpass.same⟩
          obtain ⟨id, hc⟩ := Option.isSome_iff_exists.mp hsome
          rw [hc]
          exact hconf id hc
        · -- the pass is repeated
          obtain ⟨hend, hsame⟩ := ih h
          refine ⟨?_, (hpass.same.trans (sameSearch_countPropagations _ _)).trans hsame⟩
          have hrun := hpass.run.tail (Step.count (propagatePass ctx).count)
          cases o with
          | none => exact hrun.trans hend
          | some id => exact hrun.trans hend

theorem unitPropagation_spec {ctx ctx' : SolverContext} {o : Option ClauseId}
    (h : unitPropagation ctx = some (ctx', o)) :
    PropagationEnd mul ctx ctx' o ∧ SameSearch ctx ctx' :=
  unitPropagationLoop_spec h

theorem unassignedVars_countPropagations (ctx : SolverContext) (n : Nat) :
    unassignedVars (countPropagations ctx n) = unassignedVars ctx := rfl

/-- **Propagation terminates**, and no variable becomes unassigned. -/
theorem unitPropagationLoop_isSome {fuel : Nat} {ctx : SolverContext}
    (h : IdsInRange ctx) (hfuel : (unassignedVars ctx).length < fuel) :
    ∃ ctx' o, unitPropagationLoop fuel ctx = some (ctx', o) ∧
      (unassignedVars ctx').length ≤ (unassignedVars ctx).length := by
  induction fuel generalizing ctx with
  | zero => omega
  | succ fuel ih =>
      obtain ⟨h', hcount⟩ := foldl_propagate_unassigned (List.range ctx.clauses.length) h 0
      change IdsInRange (propagatePass ctx).ctx at h'
      change (unassignedVars (propagatePass ctx).ctx).length + (propagatePass ctx).count = _
        at hcount
      unfold unitPropagationLoop
      dsimp only
      split
      · exact ⟨_, _, rfl, by omega⟩
      · split
        · exact ⟨_, _, rfl, by omega⟩
        · -- the pass assigned a variable, which pays for its fuel
          obtain ⟨ctx', o, he, hle⟩ := @ih (countPropagations (propagatePass ctx).ctx
            (propagatePass ctx).count) h' (by rw [unassignedVars_countPropagations]; omega)
          rw [unassignedVars_countPropagations] at hle
          exact ⟨ctx', o, he, by omega⟩

theorem unitPropagation_isSome {m : Model} {ctx : SolverContext} (hl : Linked m ctx) :
    ∃ ctx' o, unitPropagation ctx = some (ctx', o) ∧
      (unassignedVars ctx').length ≤ (unassignedVars ctx).length :=
  unitPropagationLoop_isSome hl.idsInRange (Nat.lt_succ_of_le (length_unassignedVars_le ctx))

/-! ## One iteration -/

/-- The five ways one iteration of the loop ends, with the context after propagation. -/
inductive IterationSpec (mul : Nat → Nat → Nat) (ctx : SolverContext) :
    SolverContext → Option (Except SatError SolverResult) → Prop
  | unsatisfiable {c : SolverContext} {id : ClauseId}
      (hup : unitPropagation (restartIfDue mul ctx) = some (c, some id))
      (hr : ReportsUnsatisfiable (countConflict c)
        (resolveConflict (countConflict c) ((countConflict c).clause id))) :
      IterationSpec mul ctx (countConflict c) (some (.error .unsatisfiable))
  | learned {c : SolverContext} {id : ClauseId} {r : ConflictResolutionResult}
      (hup : unitPropagation (restartIfDue mul ctx) = some (c, some id))
      (hr : resolveConflict (countConflict c) ((countConflict c).clause id) = r)
      (hn : ¬ ReportsUnsatisfiable (countConflict c) r) (hd : c.config.interval ≠ 0) :
      IterationSpec mul ctx (afterConflict (countConflict c) r) none
  | decided {c : SolverContext} {v : VarId}
      (hup : unitPropagation (restartIfDue mul ctx) = some (c, none))
      (hv : v ∈ unassignedVars c) : IterationSpec mul ctx (decideOn c v) none
  | solved {c : SolverContext}
      (hup : unitPropagation (restartIfDue mul ctx) = some (c, none))
      (hall : unassignedVars c = []) (hs : isSatSolved c = true) (hne : readSolution c ≠ []) :
      IterationSpec mul ctx c (some (.ok (readSolution c)))
  | unsolved {c : SolverContext}
      (hup : unitPropagation (restartIfDue mul ctx) = some (c, none))
      (hall : unassignedVars c = []) (hs : isSatSolved c = false ∨ readSolution c = []) :
      IterationSpec mul ctx c none

theorem iteration_spec {choose : Chooser} {ctx ctx' : SolverContext}
    {out : Option (Except SatError SolverResult)}
    (h : iteration mul choose ctx = some (ctx', out)) : IterationSpec mul ctx ctx' out := by
  unfold iteration at h
  split at h
  · cases h
  · rename_i c id hup
    dsimp only at h
    by_cases hz : (countConflict c).currentDecisionLevel = 0 ∧
        (resolveConflict (countConflict c) ((countConflict c).clause id)).backtrackLevel = 0
    · rw [if_pos hz, Option.some.injEq, Prod.mk.injEq] at h
      obtain ⟨rfl, rfl⟩ := h
      exact IterationSpec.unsatisfiable hup (Or.inl hz)
    · rw [if_neg hz] at h
      by_cases he : (resolveConflict (countConflict c)
          ((countConflict c).clause id)).learnedClause = []
      · rw [if_pos (by rw [he]; rfl), Option.some.injEq, Prod.mk.injEq] at h
        obtain ⟨rfl, rfl⟩ := h
        exact IterationSpec.unsatisfiable hup (Or.inr he)
      · rw [if_neg (by simpa using he)] at h
        obtain ⟨c', hwrite, heq⟩ := Option.map_eq_some_iff.mp h
        obtain ⟨hd, rfl⟩ := updateVsidsActivity_afterConflict.mp hwrite
        obtain ⟨rfl, rfl⟩ := Prod.mk.inj heq
        exact IterationSpec.learned hup rfl (fun hr => hr.elim hz he) hd
  · rename_i c hup
    rcases hpick : choose.pick c with _ | v
    · have hall := choose.pick_eq_none c hpick
      simp only [makeDecision, hpick, Option.map_none] at h
      -- the loop goes on when a clause fails, and also when the result is empty
      by_cases hs : isSatSolved c = true
      · rw [if_pos hs, Option.some.injEq, Prod.mk.injEq] at h
        obtain ⟨rfl, rfl⟩ := h
        by_cases hne : readSolution c = []
        · rw [hne]
          exact IterationSpec.unsolved hup hall (Or.inr hne)
        · rw [if_neg (by simpa using hne)]
          exact IterationSpec.solved hup hall hs hne
      · rw [if_neg hs, Option.some.injEq, Prod.mk.injEq] at h
        obtain ⟨rfl, rfl⟩ := h
        exact IterationSpec.unsolved hup hall (Or.inl (by simpa using hs))
    · simp only [makeDecision, hpick, Option.map_some, Option.some.injEq, Prod.mk.injEq] at h
      obtain ⟨rfl, rfl⟩ := h
      exact IterationSpec.decided hup (choose.mem_of_pick c v hpick)

/-- Neither the restart test nor propagation writes the clauses. -/
theorem clauses_of_unitPropagation {ctx c : SolverContext} {o : Option ClauseId}
    (h : unitPropagation (restartIfDue mul ctx) = some (c, o)) : c.clauses = ctx.clauses :=
  calc c.clauses = (restartIfDue mul ctx).clauses := (@unitPropagation_spec mul _ _ _ h).2.clauses
    _ = ctx.clauses := clauses_restartIfDue mul ctx

theorem steps_of_unitPropagation {ctx c : SolverContext} {o : Option ClauseId}
    (h : unitPropagation (restartIfDue mul ctx) = some (c, o)) :
    Steps mul ⟨.head, ctx⟩ (match o with
      | none => ⟨.quiet, c⟩
      | some id => ⟨.conflict id, countConflict c⟩) := by
  have hend := (@unitPropagation_spec mul _ _ _ h).1
  cases o with
  | none => exact Relation.ReflTransGen.head Step.restart hend
  | some id => exact Relation.ReflTransGen.head Step.restart hend

theorem IterationSpec.steps {ctx ctx' : SolverContext}
    {out : Option (Except SatError SolverResult)} (h : IterationSpec mul ctx ctx' out) :
    Steps mul ⟨.head, ctx⟩ ⟨.head, ctx'⟩ := by
  cases h with
  | unsatisfiable hup hr => exact (steps_of_unitPropagation hup).tail (Step.unsatisfiable hr)
  | @learned c id r hup hr hn hd =>
      have hwrite := (@updateVsidsActivity_afterConflict (countConflict c) _ r).mpr ⟨hd, rfl⟩
      exact (((steps_of_unitPropagation hup).tail (Step.learn hr hn)).tail Step.backtrack).tail
        (Step.activity hwrite)
  | decided hup hv => exact (steps_of_unitPropagation hup).tail (Step.decide hv)
  | solved hup hall _ _ => exact (steps_of_unitPropagation hup).tail (Step.finish hall)
  | unsolved hup hall _ => exact (steps_of_unitPropagation hup).tail (Step.finish hall)

/-- The iteration learns a clause from a conflict. -/
def Learns (mul : Nat → Nat → Nat) (ctx : SolverContext) : Prop :=
  ∃ c id, unitPropagation (restartIfDue mul ctx) = some (c, some id) ∧
    ¬ ReportsUnsatisfiable (countConflict c)
      (resolveConflict (countConflict c) ((countConflict c).clause id))

theorem interval_restartIfDue (mul : Nat → Nat → Nat) (ctx : SolverContext) :
    (restartIfDue mul ctx).config.interval = ctx.config.interval :=
  restartIfDue_induct mul ctx rfl rfl

theorem interval_of_unitPropagation {ctx c : SolverContext} {o : Option ClauseId}
    (h : unitPropagation (restartIfDue mul ctx) = some (c, o)) :
    c.config.interval = ctx.config.interval := by
  rw [(@unitPropagation_spec mul _ _ _ h).2.config, interval_restartIfDue]

/-- **When an iteration fails**: it learns a clause and `decay_interval` is 0. -/
theorem iteration_eq_none_iff {m : Model} {ctx : SolverContext} (hl : Linked m (restartIfDue mul ctx))
    (choose : Chooser) :
    iteration mul choose ctx = none ↔ ctx.config.interval = 0 ∧ Learns mul ctx := by
  obtain ⟨c, o, hup, -⟩ := unitPropagation_isSome hl
  have hlearns : Learns mul ctx ↔ ∃ id, o = some id ∧ ¬ ReportsUnsatisfiable (countConflict c)
      (resolveConflict (countConflict c) ((countConflict c).clause id)) := by
    simp [Learns, hup, and_assoc]
  have hinterval := interval_of_unitPropagation hup
  rw [hlearns]
  unfold iteration
  rw [hup]
  cases o with
  | none =>
      rcases hd : makeDecision choose c with _ | c'
      · by_cases hs : isSatSolved c = true <;> simp [hd, hs]
      · simp [hd]
  | some id =>
      simp only [Option.some.injEq, exists_eq_left']
      generalize resolveConflict (countConflict c) ((countConflict c).clause id) = r
      split
      · rename_i hz
        simp [ReportsUnsatisfiable, hz]
      · split
        · rename_i hnil
          simp [ReportsUnsatisfiable, List.isEmpty_iff.mp hnil]
        · rename_i hz hnil
          have hn : ¬ ReportsUnsatisfiable (countConflict c) r :=
            fun hr => hr.elim hz (fun he => hnil (by rw [he]; rfl))
          have hconf : (backtrack (learnAdditionalClause (countConflict c) r.learnedClause)
              r.backtrackLevel).config = c.config := config_learn (countConflict c) r.learnedClause
          rw [Option.map_eq_none_iff, updateVsidsActivity_eq_none_iff, hconf, hinterval]
          exact (and_iff_left hn).symm

/-! ## A call of `solve_sat` -/

theorem search_eq_run (choose : Nat → Chooser) (fuel n : Nat) (ctx : SolverContext) :
    search mul choose fuel n ctx = Loop.run (fun k => iteration mul (choose k)) fuel n ctx := by
  induction fuel generalizing n ctx with
  | zero => rfl
  | succ fuel ih =>
      unfold search Loop.run
      rcases iteration mul (choose n) ctx with _ | ⟨c, _ | r⟩
      · rfl
      · exact ih (n + 1) c
      · rfl

/-- The context a call comes to before its iteration `k`. -/
abbrev CallHead (mul : Nat → Nat → Nat) (choose : Nat → Chooser) (ctx : SolverContext) :
    Nat → SolverContext → Prop :=
  Loop.Head (fun k => iteration mul (choose k)) ctx

theorem CallHead.steps {choose : Nat → Chooser} {ctx c : SolverContext} {k : Nat}
    (h : CallHead mul choose ctx k c) : Steps mul ⟨.head, ctx⟩ ⟨.head, c⟩ := by
  refine Loop.Head.induct (P := fun _ c => Steps mul ⟨.head, ctx⟩ ⟨.head, c⟩)
    Relation.ReflTransGen.refl ?_ h
  exact fun _ _ _ hsteps hit => hsteps.trans (iteration_spec hit).steps

/-- A call ends with an iteration that returns, at a context the call has run to. -/
theorem search_spec {choose : Nat → Chooser} {fuel n : Nat} {ctx ctx' : SolverContext}
    {r : Except SatError SolverResult} (h : search mul choose fuel n ctx = some (ctx', r)) :
    ∃ c, Steps mul ⟨.head, ctx⟩ ⟨.head, c⟩ ∧ IterationSpec mul c ctx' (some r) := by
  rw [search_eq_run] at h
  refine Loop.run_induct (P := fun _ c => Steps mul ⟨.head, ctx⟩ ⟨.head, c⟩)
    (Q := fun u r => ∃ c, Steps mul ⟨.head, ctx⟩ ⟨.head, c⟩ ∧ IterationSpec mul c u (some r))
    ?_ ?_ Relation.ReflTransGen.refl h
  · exact fun _ _ _ hsteps hit => hsteps.trans (iteration_spec hit).steps
  · exact fun _ c _ _ hsteps hit => ⟨c, hsteps, iteration_spec hit⟩

/-- The contexts a solver can be in between calls of `solve_sat`. -/
inductive Between (mul : Nat → Nat → Nat) (m : Model) : SolverContext → Prop
  | constructed {ctx : SolverContext} (h : solverContext m = .ok ctx) : Between mul m ctx
  | called {ctx ctx' : SolverContext} {choose : Nat → Chooser} {fuel : Nat}
      {r : Except SatError SolverResult} (hb : Between mul m ctx)
      (h : search mul choose fuel 0 ctx = some (ctx', r)) : Between mul m ctx'

theorem Between.reachable {m : Model} {ctx : SolverContext} (h : Between mul m ctx) :
    Reachable mul m ⟨.head, ctx⟩ := by
  induction h with
  | constructed h => exact ⟨_, h, Relation.ReflTransGen.refl⟩
  | called _ h ih =>
      obtain ⟨c, hsteps, hspec⟩ := search_spec h
      exact ih.trans (hsteps.trans hspec.steps)

/-! ## Runs that can be computed -/

/-- `k` iterations, whatever they return. -/
def iterate (mul : Nat → Nat → Nat) (choose : Chooser) :
    Nat → SolverContext → Option SolverContext
  | 0, ctx => some ctx
  | k + 1, ctx => (iteration mul choose ctx).bind (fun r => iterate mul choose k r.1)

/-- The head of the loop after `k` iterations on a new context. -/
def headAfter (mul : Nat → Nat → Nat) (choose : Chooser) (m : Model) (k : Nat) :
    Option SolverContext :=
  (solverContext m).toOption.bind (iterate mul choose k)

/-- The conflict propagation runs into after `k` iterations on a new context. -/
def conflictAfter (mul : Nat → Nat → Nat) (choose : Chooser) (m : Model) (k : Nat) :
    Option (SolverContext × ClauseId) :=
  (headAfter mul choose m k).bind (fun ctx =>
    (unitPropagation (restartIfDue mul ctx)).bind (fun r =>
      r.2.map (fun id => (countConflict r.1, id))))

theorem steps_of_iterate {choose : Chooser} {k : Nat} {ctx ctx' : SolverContext}
    (h : iterate mul choose k ctx = some ctx') : Steps mul ⟨.head, ctx⟩ ⟨.head, ctx'⟩ := by
  induction k generalizing ctx with
  | zero =>
      rw [iterate, Option.some.injEq] at h
      rw [h]
  | succ k ih =>
      obtain ⟨⟨c, out⟩, hit, hrest⟩ := Option.bind_eq_some_iff.mp h
      exact (iteration_spec hit).steps.trans (ih hrest)

theorem reachable_headAfter {m : Model} {choose : Chooser} {k : Nat} {ctx : SolverContext}
    (h : headAfter mul choose m k = some ctx) : Reachable mul m ⟨.head, ctx⟩ := by
  obtain ⟨ctx₀, hctx, hit⟩ := Option.bind_eq_some_iff.mp h
  refine ⟨ctx₀, ?_, steps_of_iterate hit⟩
  rcases hs : solverContext m with e | c
  · rw [hs] at hctx
    cases hctx
  · rw [hs] at hctx
    exact congrArg Except.ok (Option.some.inj hctx)

theorem reachable_conflictAfter {m : Model} {choose : Chooser} {k : Nat} {ctx : SolverContext}
    {id : ClauseId} (h : conflictAfter mul choose m k = some (ctx, id)) :
    Reachable mul m ⟨.conflict id, ctx⟩ := by
  obtain ⟨c, hhead, h⟩ := Option.bind_eq_some_iff.mp h
  obtain ⟨⟨c', o⟩, hup, h⟩ := Option.bind_eq_some_iff.mp h
  obtain ⟨id', rfl, h⟩ := Option.map_eq_some_iff.mp h
  rw [Prod.mk.injEq] at h
  obtain ⟨rfl, rfl⟩ := h
  exact (reachable_headAfter hhead).trans (steps_of_unitPropagation hup)

/-- A head of the loop with a property that evaluates to true. -/
theorem exists_head {m : Model} {choose : Chooser} {k : Nat} {P : SolverContext → Prop}
    [DecidablePred P] (h : (headAfter mul choose m k).any (fun ctx => decide (P ctx)) = true) :
    ∃ ctx, Reachable mul m ⟨.head, ctx⟩ ∧ P ctx := by
  rcases hr : headAfter mul choose m k with _ | ctx
  · rw [hr] at h
    cases h
  · rw [hr] at h
    exact ⟨ctx, reachable_headAfter hr, of_decide_eq_true h⟩

/-- A conflict with a property that evaluates to true. -/
theorem exists_conflict {m : Model} {choose : Chooser} {k : Nat} {id : ClauseId}
    {P : SolverContext → Prop} [DecidablePred P]
    (h : (conflictAfter mul choose m k).any (fun r => decide (r.2 = id) && decide (P r.1))
      = true) :
    ∃ ctx, Reachable mul m ⟨.conflict id, ctx⟩ ∧ P ctx := by
  rcases hr : conflictAfter mul choose m k with _ | ⟨ctx, id'⟩
  · rw [hr] at h
    cases h
  · rw [hr] at h
    obtain ⟨hid, hP⟩ := (Bool.and_eq_true _ _).mp h
    have heq : id' = id := of_decide_eq_true hid
    subst heq
    exact ⟨ctx, reachable_conflictAfter hr, of_decide_eq_true hP⟩

/-- A first call that evaluates to `r`. -/
theorem exists_call {m : Model} {choose : Nat → Chooser} {fuel : Nat}
    {r : Except SatError SolverResult}
    (h : (solverContext m).toOption.bind (fun ctx =>
      (search mul choose fuel 0 ctx).map Prod.snd) = some r) :
    ∃ ctx ctx', solverContext m = .ok ctx ∧ search mul choose fuel 0 ctx = some (ctx', r) := by
  rcases hctx : solverContext m with e | ctx
  · rw [hctx] at h
    cases h
  · rw [hctx] at h
    obtain ⟨⟨ctx', r'⟩, hs, rfl⟩ := Option.map_eq_some_iff.mp h
    exact ⟨ctx, ctx', rfl, hs⟩

end Fabko.Sat
