import Fabko.Logic.Polarity
import Fabko.Sat.Certificate
import Fabko.Sat.Termination
import Mathlib.Order.Bounds.Basic
import Mathlib.Order.Minimal

set_option autoImplicit false

/-! # Decisions turn variables on

`make_decision` gives the variable it takes the value `on`, whatever variable it is. So a solution
is maximal: no satisfying assignment turns on all its variables and more. Where no clause has two
negative literals the search is no search: it learns nothing, it returns after one iteration for
each variable at most, and the order of the decisions does not show in the answer. -/

namespace Fabko.Sat

open Cnf Cdcl

variable {m : Model} {ctx ctx' : SolverContext} {mul : Nat → Nat → Nat}

/-! ## What a step does to the false variables -/

/-- A property of the levels and reasons of false variables is kept if the forced ones have it. -/
theorem Step.falseHas (hm : m.WellFormed) {f g : Frame} {p : Nat → Option (Cnf.Clause VarId) → Prop}
    (hs : Step mul f g) (hinv : Inv m f) (h : FalseHas p f.ctx.state)
    (hforced : f.point = .propagating → ∀ C ∈ f.ctx.state.clauses, ∀ l,
      Forces f.ctx.state.value C l → l.sign = false → p f.ctx.state.current (some C)) :
    FalseHas p g.ctx.state := by
  -- counters and activities are not part of the state
  have hstutter : ∀ {c c' : SolverContext}, Stutters c c' → FalseHas p c.state →
      FalseHas p c'.state := by
    intro c c' hst hc
    rw [hst.state_eq]
    exact hc
  cases hs with
  | @restart ctx =>
      show FalseHas p (restartIfDue mul ctx).state
      refine restartIfDue_induct mul ctx ?_ h
      rw [state_restart]
      exact FalseHas.backjump h 0
  | @unit ctx ctx' id n hid hp =>
      have hg : Good m ctx := hinv
      obtain ⟨u, hu, rfl, hf⟩ := forces_of_propagate hm hg.linked hid hp
      show FalseHas p (assignUnit ctx id u).state
      rw [state_assignUnit (hg.linked.lt_length (hg.linked.resolved_clause hid u hu))]
      exact FalseHas.propagate h (hforced rfl _ (Linked.toCnf_mem_clauses hid) _ hf)
  | count n => exact hstutter (stutters_countPropagations _ n) h
  | conflict hid hp => exact hstutter (stutters_countConflict _) h
  | quiet hp => exact h
  | unsatisfiable hr => exact h
  | @learn ctx id r hr hu =>
      subst hr
      show FalseHas p (learnAdditionalClause ctx _).state
      rw [(Conflict.origin hm hinv hu).state_learn]
      exact FalseHas.learn h _
  | @backtrack ctx r =>
      show FalseHas p (Fabko.Sat.backtrack ctx r.backtrackLevel).state
      rw [state_backtrack]
      exact FalseHas.backjump h _
  | activity hup => exact hstutter (stutters_updateVsidsActivity hup) h
  | @decide ctx v hv =>
      show FalseHas p (decideOn ctx v).state
      rw [state_decideOn (mem_unassignedVars.mp hv).1]
      exact FalseHas.decide h v
  | finish _ => exact h

theorem Fresh.falseHas (h : Fresh m ctx) (p : Nat → Option (Cnf.Clause VarId) → Prop) :
    FalseHas p ctx.state := by
  intro v hv
  have hnone : ctx.state.value v = none := Assignment.toOption_eq_none.mpr (h.unassigned v)
  rw [hnone] at hv
  cases hv

/-- **A variable that is off was propagated.** -/
theorem Reachable.decidesTrue (hm : m.WellFormed) {f : Frame} (h : Reachable mul m f) :
    DecidesTrue f.ctx.state := by
  obtain ⟨ctx, hctx, hs⟩ := h
  induction hs with
  | refl => exact (fresh_of_solverContext hctx).falseHas _
  | tail hrun hstep ih =>
      exact hstep.falseHas hm (Reachable.inv hm ⟨ctx, hctx, hrun⟩) ih
        (fun _ C _ _ _ _ => Option.some_ne_none C)

/-! ## Maximal solutions -/

namespace Model

/-- The declared variables that `σ` makes true. -/
def trues (m : Model) (σ : Nat → Bool) : Set Nat :=
  { n | n ∈ m.literals.map Literal.value ∧ σ n = true }

/-- What the satisfying valuations make true. -/
def trueSets (m : Model) : Set (Set Nat) := m.trues '' { σ | m.SatisfiedBy σ }

theorem exists_varValue {n : Nat} (h : n ∈ m.literals.map Literal.value) :
    ∃ v < m.literals.length, m.varValue v = n := by
  obtain ⟨v, hv, rfl⟩ := List.getElem_of_mem h
  rw [List.length_map] at hv
  exact ⟨v, hv, by simp [varValue, hv]⟩

theorem varValue_mem {v : VarId} (hv : v < m.literals.length) :
    m.varValue v ∈ m.literals.map Literal.value := by
  rw [varValue_of_lt hv]
  exact List.mem_map_of_mem (List.getElem_mem hv)

end Model

/-- The variables of a result are those that are on. -/
theorem varValue_mem_trues (hm : m.WellFormed) (hl : Linked m ctx) {v : VarId}
    (hv : v < m.literals.length) :
    m.varValue v ∈ m.trues (valuation (readSolution ctx)) ↔ ctx.state.value v = some true := by
  have hval : ctx.state.value v = some true ↔ (ctx.var v).assignment = .on :=
    Assignment.toOption_eq_some
  rw [hval]
  refine (and_iff_right (Model.varValue_mem hv)).trans ?_
  rw [valuation_readSolution hm hl hv, decide_eq_true_eq]

/-- Where every variable is assigned, the solution is maximal. -/
theorem trues_subset_readSolution (hm : m.WellFormed) (hl : Linked m ctx)
    (hw : Wf (models m) ctx.state) (hd : DecidesTrue ctx.state) (hall : unassignedVars ctx = [])
    {σ : Nat → Bool} (hσ : m.SatisfiedBy σ)
    (hle : m.trues (valuation (readSolution ctx)) ⊆ m.trues σ) :
    m.trues σ ⊆ m.trues (valuation (readSolution ctx)) := by
  -- what the solver turned on, the larger solution has on as well
  have hon : ∀ v, ctx.state.value v = some true → σ (m.varValue v) = true := by
    intro v hv
    have hne : (ctx.var v).assignment ≠ .notAssigned := by
      intro hnot
      rw [show ctx.state.value v = none from Assignment.toOption_eq_none.mpr hnot] at hv
      cases hv
    have hlt : v < m.literals.length := hl.length_vars ▸ lt_length_of_assigned hne
    exact (hle ((varValue_mem_trues hm hl hlt).mpr hv)).2
  rintro n ⟨hn, htrue⟩
  obtain ⟨v, hv, rfl⟩ := Model.exists_varValue hn
  have hassigned : ctx.state.value v ≠ none := by
    intro hnone
    have hmem : v ∈ unassignedVars ctx :=
      mem_unassignedVars.mpr ⟨hl.length_vars ▸ hv, Assignment.toOption_eq_none.mp hnone⟩
    rw [hall] at hmem
    cases hmem
  have hval := hd.value_eq hw ⟨σ, hσ, rfl⟩ hon ((hw.mem_trail v).mpr hassigned)
  exact (varValue_mem_trues hm hl hv).mpr (by rw [hval, htrue])

/-- What the solver reads off a full assignment is maximal. -/
theorem Reachable.maximal (hm : m.WellFormed) (h : Reachable mul m ⟨.quiet, ctx⟩)
    (hall : unassignedVars ctx = []) (hsat : m.SatisfiedBy (valuation (readSolution ctx))) :
    Maximal (· ∈ m.trueSets) (m.trues (valuation (readSolution ctx))) := by
  refine ⟨⟨_, hsat, rfl⟩, ?_⟩
  rintro - ⟨σ, hσ, rfl⟩ hle
  exact trues_subset_readSolution hm (h.linked hm) (h.wf hm) (h.decidesTrue hm) hall hσ hle

/-- **A solution is maximal**: no satisfying assignment turns on the same variables and more,
whatever was decided and however often `solve_sat` was called before. -/
theorem search_maximal (hm : m.WellFormed) (hb : Between mul m ctx) {choose : Nat → Chooser}
    {fuel : Nat} {res : SolverResult}
    (h : search mul choose fuel 0 ctx = some (ctx', .ok res)) :
    Maximal (· ∈ m.trueSets) (m.trues (valuation res)) := by
  have hsat : m.SatisfiedBy (valuation res) := (search_correct hm hb h).satisfies
  obtain ⟨c, hsteps, hspec⟩ := search_spec h
  cases hspec with
  | solved hup hall hs hne =>
      have hreach := (hb.reachable.trans hsteps).trans (steps_of_unitPropagation hup)
      exact hreach.maximal hm hall hsat

theorem search_maximal_threeSigns :
    Maximal (· ∈ threeSigns.trueSets) (threeSigns.trues (valuation [⟨-1⟩, ⟨2⟩])) := by
  have hrun : ((solverContext threeSigns).toOption.bind (fun ctx =>
      (solveSat 9 ctx).map Prod.snd)) = some (.ok [⟨-1⟩, ⟨2⟩]) := by decide +kernel
  obtain ⟨ctx, ctx', hctx, hs⟩ := exists_call hrun
  exact search_maximal (by decide) (Between.constructed hctx) hs

/-! ## Models without two negative literals in a clause -/

namespace Model

def DualHorn (m : Model) : Prop := ∀ c ∈ m.clauses, Cnf.DualHorn (signedClause c)

instance (m : Model) : Decidable m.DualHorn :=
  inferInstanceAs (Decidable (∀ c ∈ m.clauses, _))

/-- The union of two solutions is one. -/
theorem DualHorn.satisfiedBy_or (h : m.DualHorn) {σ τ : Nat → Bool} (hσ : m.SatisfiedBy σ)
    (hτ : m.SatisfiedBy τ) : m.SatisfiedBy (fun n => σ n || τ n) := by
  intro c hc
  apply (holds_signedClause _ c).mp
  exact (h c hc).holds_or ((holds_signedClause σ c).mpr (hσ c hc))
    ((holds_signedClause τ c).mpr (hτ c hc))

/-- A maximal solution is the largest: its union with any other is a solution. -/
theorem DualHorn.isGreatest (h : m.DualHorn) {S : Set Nat} (hS : Maximal (· ∈ m.trueSets) S) :
    IsGreatest m.trueSets S := by
  refine ⟨hS.prop, ?_⟩
  obtain ⟨σ, hσ, rfl⟩ := hS.prop
  rintro - ⟨τ, hτ, rfl⟩
  have hunion : m.trues (fun n => σ n || τ n) ∈ m.trueSets :=
    ⟨_, h.satisfiedBy_or hσ hτ, rfl⟩
  have hleft : m.trues σ ⊆ m.trues (fun n => σ n || τ n) :=
    fun n hn => ⟨hn.1, by simp [hn.2]⟩
  have hright : m.trues τ ⊆ m.trues (fun n => σ n || τ n) :=
    fun n hn => ⟨hn.1, by simp [hn.2]⟩
  exact hright.trans (hS.le_of_ge hunion hleft)

end Model

/-- The clauses are those of the model and only level 0 turned variables off. -/
structure Unbranched (m : Model) (ctx : SolverContext) : Prop where
  clauses : ctx.literalClauses = m.clauses
  falseAtRoot : FalseAtRoot ctx.state

/-- The clauses of the context have the signs of those of the model. -/
theorem Unbranched.dualHorn (h : Unbranched m ctx) (hh : m.DualHorn) :
    ∀ C ∈ ctx.state.clauses, Cnf.DualHorn C := by
  intro C hC
  obtain ⟨row, hrow, rfl⟩ := List.mem_map.mp hC
  have hmem : row.clause.map Prod.fst ∈ m.clauses := by
    rw [← h.clauses]
    exact List.mem_map_of_mem hrow
  have hsigns : (toCnf row.clause).map Lit.sign
      = (signedClause (row.clause.map Prod.fst)).map Lit.sign := by
    simp [toCnf, toLit, signedClause]
  unfold Cnf.DualHorn
  rw [hsigns]
  exact hh _ hmem

theorem Unbranched.congr (h : Unbranched m ctx) (hc : ctx'.clauses = ctx.clauses)
    (hf : FalseAtRoot ctx'.state) : Unbranched m ctx' := by
  refine ⟨?_, hf⟩
  rw [SolverContext.literalClauses, hc]
  exact h.clauses

/-- A conflict is one of level 0, so nothing is learned from it. -/
def UnbranchedInv (m : Model) (f : Frame) : Prop :=
  match f.point with
  | .head | .propagating | .quiet => Unbranched m f.ctx
  | .conflict _ => Unbranched m f.ctx ∧ f.ctx.currentDecisionLevel = 0
  | .learned _ | .backtracked _ => False

theorem Step.unbranched (hm : m.WellFormed) (hh : m.DualHorn) {f g : Frame} (hs : Step mul f g)
    (hinv : Inv m f) (h : UnbranchedInv m f) : UnbranchedInv m g := by
  have hfalse : Unbranched m f.ctx → FalseAtRoot g.ctx.state := by
    intro hu
    apply hs.falseHas hm hinv hu.falseAtRoot
    intro hp C hC l hf hsign
    -- above level 0 the forced literal would be positive
    obtain ⟨p, ctx⟩ := f
    have hp' : p = .propagating := hp
    subst hp'
    have hg : Good m ctx := hinv
    by_contra hne
    have hpos := hu.falseAtRoot.sign_of_forces hg.quiet hC (hu.dualHorn hh C hC) hf
      (Nat.pos_of_ne_zero hne)
    rw [hsign] at hpos
    cases hpos
  cases hs with
  | @restart ctx => exact Unbranched.congr h (clauses_restartIfDue _ ctx) (hfalse h)
  | unit hid hp =>
      obtain ⟨u, -, rfl, -⟩ := forces_of_propagate hm (Good.linked hinv) hid hp
      exact Unbranched.congr h rfl (hfalse h)
  | count n => exact Unbranched.congr h rfl (hfalse h)
  | @conflict ctx id n hid hp =>
      have hg : Good m ctx := hinv
      have hu : Unbranched m ctx := h
      have hC := Linked.toCnf_mem_clauses hid
      exact ⟨hu.congr rfl (hfalse h), hu.falseAtRoot.current_eq_zero hg.quiet hC
        (hu.dualHorn hh _ hC) (falsified_of_propagate hm hg.linked hid hp)⟩
  | quiet hp => exact h
  | unsatisfiable hr => exact h.1
  | learn hr hu =>
      subst hr
      exact absurd h.2 (Nat.ne_of_gt (Conflict.origin hm hinv hu).pos)
  | backtrack => exact h
  | activity => exact h.elim
  | decide hv => exact Unbranched.congr h rfl (hfalse h)
  | finish _ => exact h

theorem Reachable.unbranched (hm : m.WellFormed) (hh : m.DualHorn) {f : Frame}
    (h : Reachable mul m f) : UnbranchedInv m f := by
  obtain ⟨ctx, hctx, hs⟩ := h
  induction hs with
  | refl =>
      have hfresh := fresh_of_solverContext hctx
      exact ⟨hfresh.clauses, hfresh.falseHas _⟩
  | tail hrun hstep ih => exact hstep.unbranched hm hh (Reachable.inv hm ⟨ctx, hctx, hrun⟩) ih

/-! ## Satisfiable or not -/

theorem UnbranchedInv.not_satisfiable {id : ClauseId} (hinv : Inv m ⟨.conflict id, ctx⟩)
    (h : UnbranchedInv m ⟨.conflict id, ctx⟩) : ¬ m.Satisfiable := by
  intro hsat
  have hconf : Conflict m ctx id := hinv
  obtain ⟨τ, hτ⟩ := exists_mem_models hsat
  exact not_mem_of_conflict hconf.good.wf (Linked.toCnf_mem_clauses hconf.lt) hconf.falsified
    h.2 τ hτ

/-- Where propagation stops without a conflict, everything that is open may be on. -/
theorem UnbranchedInv.satisfiable (hm : m.WellFormed) (hh : m.DualHorn)
    (hinv : Inv m ⟨.quiet, ctx⟩) (h : UnbranchedInv m ⟨.quiet, ctx⟩) : m.Satisfiable := by
  have hl : Linked m ctx := hinv.1.linked
  have hu : Unbranched m ctx := h
  refine ⟨fun n => (ctx.state.value ((m.literals.map Literal.value).idxOf n)).getD true, ?_⟩
  intro c hc
  obtain ⟨row, hrow, rfl⟩ := List.mem_map.mp (hl.originals.subset hc)
  have hC : toCnf row.clause ∈ ctx.state.clauses := List.mem_map_of_mem hrow
  obtain ⟨l, hlm, hholds⟩ := (hu.dualHorn hh _ hC).holds_getD (hinv.2 _ hC)
  obtain ⟨p, hp, rfl⟩ := mem_toCnf.mp hlm
  have hres := hl.resolved row hrow p hp
  have hidx : (m.literals.map Literal.value).idxOf p.1.value = p.2 := by
    rw [hres.value_eq, Model.varValue, List.getD_eq_getElem _ _ (by simpa using hres.lt)]
    exact hm.distinct.idxOf_getElem p.2 (by simpa using hres.lt)
  refine ⟨p.1, List.mem_map_of_mem hp, ?_⟩
  show (ctx.state.value ((m.literals.map Literal.value).idxOf p.1.value)).getD true = p.1.isOn
  rw [hidx]
  exact hholds

/-! ## The call -/

section Call

variable {choose : Nat → Chooser} {n : Nat} (hm : m.WellFormed) (hh : m.DualHorn)
include hm hh

theorem not_learns_of_dualHorn (hreach : Reachable mul m ⟨.head, ctx⟩) : ¬ Learns mul ctx := by
  rintro ⟨c, id, hup, hn⟩
  have hlearned := (hreach.trans (steps_of_unitPropagation hup)).tail (Step.learn rfl hn)
  exact (hlearned.unbranched hm hh).elim

/-- The first propagation finds that a model is unsatisfiable. -/
theorem search_of_not_satisfiable (hsat : ¬ m.Satisfiable) (hreach : Reachable mul m ⟨.head, ctx⟩)
    (fuel : Nat) :
    ∃ ctx', search mul choose (fuel + 1) n ctx = some (ctx', .error .unsatisfiable) := by
  have hquiet : ∀ {c : SolverContext}, ¬ Reachable mul m ⟨.quiet, c⟩ := fun hr =>
    hsat (UnbranchedInv.satisfiable hm hh (hr.inv hm) (hr.unbranched hm hh))
  have hnot := not_learns_of_dualHorn hm hh hreach
  obtain ⟨⟨c, out⟩, hit⟩ := iteration_isSome (hreach.linked hm) (choose n) (fun _ => hnot)
  unfold search
  rw [hit]
  cases iteration_spec hit with
  | unsatisfiable hup hr => exact ⟨_, rfl⟩
  | learned hup hr hn _ => exact absurd ⟨_, _, hup, hr ▸ hn⟩ hnot
  | decided hup hv => exact absurd (hreach.trans (steps_of_unitPropagation hup)) hquiet
  | solved hup hall hs hne => exact absurd (hreach.trans (steps_of_unitPropagation hup)) hquiet
  | unsolved hup hall hs => exact absurd (hreach.trans (steps_of_unitPropagation hup)) hquiet

/-- No conflict was counted and nothing restarted. -/
structure Calm (m : Model) (ctx : SolverContext) : Prop where
  count : ctx.conflictCountSinceLastRestart = 0
  config : ctx.config = m.conf

omit hm hh in
theorem Calm.restartIfDue_eq (h : Calm m ctx) (ht : 1 ≤ m.conf.restartThreshold)
    (mul : Nat → Nat → Nat) : restartIfDue mul ctx = ctx := by
  unfold restartIfDue
  rw [if_neg]
  rw [h.count, h.config]
  omega

theorem Step.calm (ht : 1 ≤ m.conf.restartThreshold) (hsat : m.Satisfiable) {f g : Frame}
    (hs : Step mul f g) (hinv : Inv m f) (hu : UnbranchedInv m f) (h : Calm m f.ctx) :
    Calm m g.ctx := by
  have hnext := hs.unbranched hm hh hinv hu
  have hinv' := hs.inv hm hinv
  cases hs with
  | @restart ctx =>
      show Calm m (restartIfDue mul ctx)
      rw [h.restartIfDue_eq ht]
      exact h
  | unit hid hp =>
      obtain ⟨u, -, rfl, -⟩ := forces_of_propagate hm (Good.linked hinv) hid hp
      exact ⟨h.count, h.config⟩
  | conflict hid hp => exact absurd hsat (UnbranchedInv.not_satisfiable hinv' hnext)
  | learn hr hn => exact hnext.elim
  | backtrack => exact hu.elim
  | activity => exact hu.elim
  | count | quiet | unsatisfiable | decide | finish => exact ⟨h.count, h.config⟩

theorem Reachable.calm (ht : 1 ≤ m.conf.restartThreshold) (hsat : m.Satisfiable) {f : Frame}
    (h : Reachable mul m f) : Calm m f.ctx := by
  obtain ⟨ctx, hctx, hs⟩ := h
  induction hs with
  | refl =>
      have hfresh := fresh_of_solverContext hctx
      exact ⟨hfresh.conflictCount, hfresh.config⟩
  | tail hrun hstep ih =>
      have hreach : Reachable mul m _ := ⟨ctx, hctx, hrun⟩
      exact hstep.calm hm hh ht hsat (hreach.inv hm) (hreach.unbranched hm hh) ih

/-- Every iteration but the last decides a variable. -/
theorem search_of_satisfiable (hne : m.literals ≠ []) (ht : 1 ≤ m.conf.restartThreshold)
    (hsat : m.Satisfiable) {fuel : Nat} (hreach : Reachable mul m ⟨.head, ctx⟩)
    (hfuel : (unassignedVars ctx).length < fuel) :
    ∃ ctx' r, search mul choose fuel n ctx = some (ctx', r) := by
  rw [search_eq_run]
  refine Loop.exists_run_of_measure (P := fun _ ctx => Reachable mul m ⟨.head, ctx⟩)
    (fun ctx => (unassignedVars ctx).length) ?_ hreach hfuel
  intro k ctx hreach
  have hnot := not_learns_of_dualHorn hm hh hreach
  obtain ⟨⟨c, out⟩, hit⟩ := iteration_isSome (hreach.linked hm) (choose k) (fun _ => hnot)
  have hspec := iteration_spec hit
  cases out with
  | some r => exact Or.inl ⟨c, r, hit⟩
  | none =>
      refine Or.inr ⟨c, hit, hreach.trans hspec.steps, ?_⟩
      cases hspec with
      | learned hup hr hn _ => exact absurd ⟨_, _, hup, hr ▸ hn⟩ hnot
      | @decided c v hup hv =>
          -- without a restart nothing becomes unassigned
          have hcalm : Calm m ctx := hreach.calm hm hh ht hsat
          have hl : Linked m ctx := hreach.linked hm
          rw [hcalm.restartIfDue_eq ht] at hup
          obtain ⟨c', o, hup', hle⟩ := unitPropagation_isSome hl
          rw [hup', Option.some.injEq, Prod.mk.injEq] at hup
          rw [hup.1] at hle
          have hopen := length_unassignedVars_decideOn hv
          omega
      | unsolved hup hall hs =>
          have hq : Inv m ⟨.quiet, c⟩ := (hreach.trans (steps_of_unitPropagation hup)).inv hm
          exact absurd hs (not_unsolved hm hne hq.1.linked hq.2 hall)

/-- **Without two negative literals in a clause there is no search**: after any earlier calls and
for every choice of decisions and every growth of the threshold, the call learns nothing, returns
within one iteration for each variable and one more, and its answer is the union of all solutions,
or `unsatisfiable` if there are none. -/
theorem search_dualHorn (hne : m.literals ≠ []) (ht : 1 ≤ m.conf.restartThreshold)
    (hb : Between mul m ctx) (choose : Nat → Chooser) :
    ∃ ctx' r, search mul choose (m.literals.length + 1) 0 ctx = some (ctx', r) ∧
      ctx'.literalClauses = m.clauses ∧
      ((r = .error .unsatisfiable ∧ m.trueSets = ∅) ∨
        ∃ res, r = .ok res ∧ IsGreatest m.trueSets (m.trues (valuation res))) := by
  have hreach := hb.reachable
  have hrun : ∃ ctx' r, search mul choose (m.literals.length + 1) 0 ctx = some (ctx', r) := by
    by_cases hsat : m.Satisfiable
    · -- no iteration meets a conflict, and each but the last decides a variable
      apply search_of_satisfiable hm hh hne ht hsat hreach
      calc (unassignedVars ctx).length ≤ ctx.vars.length := length_unassignedVars_le ctx
        _ = m.literals.length := (hreach.linked hm).length_vars
        _ < m.literals.length + 1 := Nat.lt_succ_self _
    · obtain ⟨ctx', hs⟩ :=
        @search_of_not_satisfiable m ctx mul choose 0 hm hh hsat hreach m.literals.length
      exact ⟨ctx', _, hs⟩
  obtain ⟨ctx', r, hs⟩ := hrun
  refine ⟨ctx', r, hs, ?_, ?_⟩
  · have hu : Unbranched m ctx' := (Between.called hb hs).reachable.unbranched hm hh
    exact hu.clauses
  · have hcorrect := search_correct hm hb hs
    match r with
    | .ok res =>
        refine Or.inr ⟨res, rfl, hh.isGreatest ?_⟩
        -- a result is read off at a quiet point with nothing left to decide
        obtain ⟨c, hsteps, hspec⟩ := search_spec hs
        cases hspec with
        | solved hup hall hread hsome =>
            have hquiet := (hreach.trans hsteps).trans (steps_of_unitPropagation hup)
            exact hquiet.maximal hm hall hcorrect.satisfies
    | .error .unsatisfiable =>
        refine Or.inl ⟨rfl, Set.eq_empty_iff_forall_notMem.mpr ?_⟩
        rintro - ⟨σ, hσ, -⟩
        exact hcorrect ⟨σ, hσ⟩
    | .error .error => exact hcorrect.elim

end Call

/-- 2 needs 1 and 3 is off; of 1 and 4 one is on. -/
def oneNegative : Model where
  literals := [⟨1⟩, ⟨2⟩, ⟨3⟩, ⟨4⟩]
  clauses := [[⟨-2⟩, ⟨1⟩], [⟨-3⟩], [⟨1⟩, ⟨4⟩]]

theorem search_dualHorn_oneNegative :
    ∃ ctx ctx' r, solverContext oneNegative = .ok ctx ∧
      search mulUInt32 (fun _ => highestVsids) 5 0 ctx = some (ctx', r) ∧
      ctx'.literalClauses = oneNegative.clauses ∧
      ((r = .error .unsatisfiable ∧ oneNegative.trueSets = ∅) ∨
        ∃ res, r = .ok res ∧
          IsGreatest oneNegative.trueSets (oneNegative.trues (valuation res))) := by
  have hm : oneNegative.WellFormed := by decide
  obtain ⟨ctx, hctx⟩ := solverContext_isOk hm
  obtain ⟨ctx', r, hs⟩ := search_dualHorn hm (by decide) (by decide) (by decide)
    (Between.constructed hctx) (fun _ => highestVsids)
  exact ⟨ctx, ctx', r, hctx, hs⟩

end Fabko.Sat
