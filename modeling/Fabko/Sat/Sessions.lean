import Fabko.Sat.Enumeration
import Fabko.Sat.Invariants

set_option autoImplicit false

/-! # Sessions

A context outlives the calls that are made on it. The first answer is the answer of every later
call, found in its first iteration: a solution is read off again, and a clause that is false at
level 0 stays false. -/

namespace Fabko.Sat

open Cnf Cdcl

variable {m : Model} {ctx ctx' : SolverContext} {mul : Nat → Nat → Nat} {f g : Frame}

/-- No clause is learned and no variable loses its value. -/
structure Kept (ctx ctx' : SolverContext) : Prop where
  clauses : ctx'.clauses = ctx.clauses
  assigned : ∀ v, ctx.assignments v ≠ .notAssigned → ctx'.assignments v = ctx.assignments v

theorem Kept.refl (ctx : SolverContext) : Kept ctx ctx := ⟨rfl, fun _ _ => rfl⟩

theorem Kept.trans {c₁ c₂ c₃ : SolverContext} (h₁ : Kept c₁ c₂) (h₂ : Kept c₂ c₃) :
    Kept c₁ c₃ := by
  refine ⟨h₂.clauses.trans h₁.clauses, fun v hv => ?_⟩
  have hv₂ := h₁.assigned v hv
  rw [h₂.assigned v (by rw [hv₂]; exact hv), hv₂]

/-! ## A refuted context -/

/-- What `unsatisfiable` leaves: a clause that is false at level 0. -/
structure Refuted (ctx : SolverContext) : Prop where
  level : ctx.currentDecisionLevel = 0
  falsified : ∃ C ∈ ctx.state.clauses, Falsified ctx.state.value C

theorem refuted_of_iterationSpec (hm : m.WellFormed) (hc : Reachable mul m ⟨.head, ctx⟩)
    (h : IterationSpec mul ctx ctx' (some (.error .unsatisfiable))) : Refuted ctx' := by
  cases h with
  | @unsatisfiable c id hup hr =>
      have hconf : Conflict m (countConflict c) id :=
        (hc.trans (steps_of_unitPropagation hup)).inv hm
      refine ⟨?_, _, Linked.toCnf_mem_clauses hconf.lt, hconf.falsified⟩
      -- above level 0 the conflict would have been learned from
      by_contra hpos
      have ho := hconf.origin_of_pos hm (Nat.pos_of_ne_zero hpos)
      rcases hr with ⟨hz, -⟩ | hnil
      · exact hpos hz
      · exact ho.ne_nil hnil

/-- At level 0 a run never undoes anything. -/
theorem value_eq_of_steps (hm : m.WellFormed) (h : Reachable mul m f) (hs : Steps mul f g)
    (hz : f.ctx.currentDecisionLevel = 0) {v : VarId} (hv : f.ctx.state.value v ≠ none) :
    g.ctx.state.value v = f.ctx.state.value v := by
  have hw := h.wf hm
  have hmem := (hw.mem_trail v).mpr hv
  have hlevel : f.ctx.state.level v ≤ f.ctx.currentDecisionLevel := hw.le_current v hmem
  exact ((hs.moves hm (h.inv hm)).rootKept hw v hmem (by omega)).2.2

theorem Refuted.falsified_of_steps (hm : m.WellFormed) (h : Reachable mul m f)
    (href : Refuted f.ctx) (hs : Steps mul f g) (hc : g.ctx.clauses = f.ctx.clauses) :
    ∃ C ∈ g.ctx.state.clauses, Falsified g.ctx.state.value C := by
  obtain ⟨C, hC, hfalse⟩ := href.falsified
  have hmem : C ∈ g.ctx.state.clauses := by
    show C ∈ g.ctx.clauses.map _
    rw [hc]
    exact hC
  refine ⟨C, hmem, fun l hl => ?_⟩
  have hval : f.ctx.state.value l.var = some (!l.sign) := hfalse l hl
  have hkept := value_eq_of_steps hm h hs href.level (v := l.var) (by rw [hval]; exact nofun)
  exact hkept.trans hval

theorem Refuted.kept_of_steps (hm : m.WellFormed) (h : Reachable mul m f)
    (href : Refuted f.ctx) (hs : Steps mul f g) (hc : g.ctx.clauses = f.ctx.clauses) :
    Kept f.ctx g.ctx := by
  refine ⟨hc, fun v hv => Assignment.toOption_injective ?_⟩
  exact value_eq_of_steps hm h hs href.level (fun hnone => hv (Assignment.toOption_eq_none.mp hnone))

theorem Refuted.not_learns (hm : m.WellFormed) (h : Reachable mul m ⟨.head, ctx⟩)
    (href : Refuted ctx) : ¬ Learns mul ctx := by
  rintro ⟨c, id, hup, hn⟩
  -- a conflict that is learned from lies above the root
  have hconf : Conflict m (countConflict c) id :=
    (h.trans (steps_of_unitPropagation hup)).inv hm
  have hpos : 0 < c.currentDecisionLevel := (hconf.origin hm hn).pos
  have hroot : (Fabko.Sat.restartIfDue mul ctx).currentDecisionLevel = 0 :=
    restartIfDue_induct mul ctx rfl href.level
  rw [(@unitPropagation_spec mul _ _ _ hup).2.current, hroot] at hpos
  omega

/-- **`unsatisfiable` is reported again in one iteration.** -/
theorem Refuted.search (hm : m.WellFormed) (h : Reachable mul m ⟨.head, ctx⟩)
    (href : Refuted ctx) (choose : Nat → Chooser) (fuel n : Nat) :
    ∃ ctx', search mul choose (fuel + 1) n ctx = some (ctx', .error .unsatisfiable) ∧
      Refuted ctx' ∧ Kept ctx ctx' := by
  -- the clause that is false with nothing decided is still there
  have hquiet : ∀ {c : SolverContext},
      unitPropagation (restartIfDue mul ctx) ≠ some (c, none) := by
    intro c hup
    have hsteps := steps_of_unitPropagation hup
    obtain ⟨C, hC, hfalse⟩ := href.falsified_of_steps hm h hsteps (clauses_of_unitPropagation hup)
    have hq : Inv m ⟨.quiet, c⟩ := (h.trans hsteps).inv hm
    exact (hq.2 C hC).not_falsified hfalse
  have hnot := href.not_learns hm h
  obtain ⟨⟨c, out⟩, hit⟩ := iteration_isSome (h.linked hm) (choose n) (fun _ => hnot)
  have hspec := iteration_spec hit
  unfold Fabko.Sat.search
  rw [hit]
  cases hspec with
  | @unsatisfiable c id hup hr =>
      have hclauses : c.clauses = ctx.clauses := clauses_of_unitPropagation hup
      have hsame := IterationSpec.unsatisfiable hup hr
      exact ⟨_, rfl, refuted_of_iterationSpec hm h hsame,
        href.kept_of_steps hm h hsame.steps hclauses⟩
  | learned hup hr hn _ => exact absurd ⟨_, _, hup, hr ▸ hn⟩ hnot
  | decided hup hv => exact absurd hup hquiet
  | solved hup hall hs hne => exact absurd hup hquiet
  | unsolved hup hall hs => exact absurd hup hquiet

/-! ## The answers of a session -/

/-- The answers of calls made one after another, each with its choices and a bound on its
iterations. -/
def answers (mul : Nat → Nat → Nat) : List ((Nat → Chooser) × Nat) → SolverContext →
    Option (SolverContext × List (Except SatError SolverResult))
  | [], ctx => some (ctx, [])
  | (choose, fuel) :: calls, ctx =>
      match search mul choose fuel 0 ctx with
      | none => none
      | some (ctx, r) => (answers mul calls ctx).map (fun p => (p.1, r :: p.2))

/-- The context a call leaves that returned `r`. -/
def Answered (ctx : SolverContext) : Except SatError SolverResult → Prop
  | .ok res => Solved ctx ∧ res = readSolution ctx
  | .error .unsatisfiable => Refuted ctx
  | .error .error => False

theorem answered_of_search (hm : m.WellFormed) (hb : Between mul m ctx) {choose : Nat → Chooser}
    {fuel : Nat} {r : Except SatError SolverResult}
    (h : search mul choose fuel 0 ctx = some (ctx', r)) : Answered ctx' r := by
  obtain ⟨c, hsteps, hspec⟩ := search_spec h
  have hreach := hb.reachable.trans hsteps
  match r with
  | .ok res => exact solved_of_iterationSpec hm hreach hspec
  | .error .unsatisfiable => exact refuted_of_iterationSpec hm hreach hspec
  | .error .error => cases hspec

theorem Solved.kept (h : Solved ctx) (mul : Nat → Nat → Nat) :
    Kept ctx (Fabko.Sat.restartIfDue mul ctx) := by
  obtain ⟨hv, hc, -⟩ := h.restart_records mul
  refine ⟨hc, fun v _ => ?_⟩
  simp only [SolverContext.assignments, SolverContext.var, hv]

/-- The next call gives the same answer. -/
theorem Answered.search (hm : m.WellFormed) (hb : Between mul m ctx)
    {r : Except SatError SolverResult} (h : Answered ctx r) (choose : Nat → Chooser) (fuel : Nat) :
    ∃ ctx', search mul choose (fuel + 1) 0 ctx = some (ctx', r) ∧ Answered ctx' r ∧
      Kept ctx ctx' := by
  match r with
  | .ok res =>
      obtain ⟨hs, rfl⟩ := h
      refine ⟨_, hs.search choose fuel 0, ⟨hs.restartIfDue mul, ?_⟩, hs.kept mul⟩
      exact (readSolution_congr (hs.restart_records mul).1).symm
  | .error .unsatisfiable => exact Refuted.search hm hb.reachable h choose fuel 0
  | .error .error => exact h.elim

/-- **The first answer is final**: after any earlier calls, every call after one that returned `r`
returns `r`, whatever is chosen and however few iterations it is given, learns nothing and takes no
value back. -/
theorem search_final (hm : m.WellFormed) (hb : Between mul m ctx) {choose : Nat → Chooser}
    {fuel : Nat} {r : Except SatError SolverResult}
    (h : search mul choose fuel 0 ctx = some (ctx', r)) {calls : List ((Nat → Chooser) × Nat)}
    (hcalls : ∀ c ∈ calls, 0 < c.2) :
    ∃ ctx'', answers mul calls ctx' = some (ctx'', List.replicate calls.length r) ∧
      Kept ctx' ctx'' := by
  have hanswered := answered_of_search hm hb h
  have hb' : Between mul m ctx' := Between.called hb h
  clear h
  induction calls generalizing ctx' with
  | nil => exact ⟨ctx', rfl, Kept.refl ctx'⟩
  | cons call calls ih =>
      obtain ⟨choose, fuel⟩ := call
      obtain ⟨hpos, hrest⟩ := List.forall_mem_cons.mp hcalls
      obtain ⟨k, rfl⟩ : ∃ k, fuel = k + 1 := ⟨_, (Nat.sub_add_cancel hpos).symm⟩
      obtain ⟨c, hs, hanswered', hkept⟩ := hanswered.search hm hb' choose k
      obtain ⟨ctx'', hcalls', hkept'⟩ := ih hrest hanswered' (Between.called hb' hs)
      refine ⟨ctx'', ?_, hkept.trans hkept'⟩
      simp only [answers, hs, hcalls', Option.map_some, List.length_cons, List.replicate_succ]

/-- Two more calls of one iteration each repeat that the clauses have no solution. -/
theorem search_final_allSigns :
    ∃ ctx ctx' ctx'', solverContext allSigns = .ok ctx ∧
      solveSat 9 ctx = some (ctx', .error .unsatisfiable) ∧
      answers mulUInt32 [(fun _ => highestVsids, 1), (fun _ => highestVsids, 1)] ctx'
        = some (ctx'', [.error .unsatisfiable, .error .unsatisfiable]) ∧ Kept ctx' ctx'' := by
  have hrun : ((solverContext allSigns).toOption.bind (fun ctx =>
      (solveSat 9 ctx).map Prod.snd)) = some (.error .unsatisfiable) := by decide +kernel
  obtain ⟨ctx, ctx', hctx, hs⟩ := exists_call hrun
  have hcalls : ∀ c ∈ [((fun _ => highestVsids : Nat → Chooser), 1), (fun _ => highestVsids, 1)],
      0 < c.2 := by simp
  obtain ⟨ctx'', hanswers, hkept⟩ := search_final (by decide) (Between.constructed hctx) hs hcalls
  exact ⟨ctx, ctx', ctx'', hctx, hs, hanswers, hkept⟩

end Fabko.Sat
