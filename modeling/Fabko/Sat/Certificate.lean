import Fabko.Logic.Rup
import Fabko.Sat.Confluence
import Fabko.Sat.Invariants

set_option autoImplicit false

/-! # The learned clauses are a proof

Each resolution step of `resolve_conflict` keeps a clause that reverse unit propagation confirms
from the clauses of the context, so the clauses the solver has learned, in the order it learned
them, are a proof from the clauses of the model that can be checked without a search. When
`solve_sat` answers `unsatisfiable` they are a refutation. -/

namespace Fabko.Sat

open Cnf Cdcl

variable {m : Model} {ctx ctx' : SolverContext} {mul : Nat → Nat → Nat}

/-! ## One conflict -/

theorem mem_vars_toCnf {c d : Clause} {v : VarId}
    (h : ∀ p ∈ c, p.2 ≠ v → ∃ q ∈ d, q.2 = p.2) :
    ∀ l ∈ toCnf c, l.var ≠ v → ∃ l' ∈ toCnf d, l'.var = l.var := by
  intro l hl hv
  obtain ⟨p, hp, rfl⟩ := mem_toCnf.mp hl
  obtain ⟨q, hq, heq⟩ := h p hp hv
  exact ⟨toLit q, toLit_mem_toCnf hq, heq⟩

/-- Resolution on the pivot: under the denial of the new clause the antecedent forces the pivot. -/
theorem Resolvent.rup {a b : Analysis} {i : Nat} {id : ClauseId} (hw : Wf (models m) ctx.state)
    (h : AnalysisInv m ctx a) (hp : Pivot ctx a i id) (hr : Resolvent ctx a i id b)
    (hrup : Rup ctx.state.clauses (toCnf a.learnedClause)) :
    Rup ctx.state.clauses (toCnf b.learnedClause) := by
  have hreason := isReason_at hw hp.lt hp.reason
  have hfalse : Falsified ctx.state.value (toCnf b.learnedClause) := by
    intro l hl
    obtain ⟨p, hpb, rfl⟩ := mem_toCnf.mp hl
    exact hr.isFalse hw h hp p hpb
  -- the pivot is the one literal of its variable in the antecedent, and it is true
  obtain ⟨l, hl, htrue⟩ := hreason.unique
  have hlv : l.var = ctx.trailVar i := by
    have hmem : l ∈ (toCnf (ctx.clause id)).filter (fun l' => l'.var = ctx.trailVar i) := by
      rw [hl]
      exact List.mem_singleton_self l
    simpa using (List.mem_filter.mp hmem).2
  rw [← hlv] at hl
  refine hrup.resolve hreason.mem h.falsified hfalse hl htrue ?_ ?_ ?_ ?_
  · intro l' hl'
    obtain ⟨p, hpb, rfl⟩ := mem_toCnf.mp hl'
    rw [hlv]
    exact (hr.origin p hpb).1
  · intro l' hl' hne
    exact (hreason.others l' hl' (hlv ▸ hne)).1
  · rw [hlv]
    exact mem_vars_toCnf hr.covered
  · rw [hlv]
    exact mem_vars_toCnf (fun p hpa hpv => ⟨p, hr.kept p hpa hpv, rfl⟩)

/-- **What a conflict yields passes the check** against the clauses it was analysed with. -/
theorem Conflict.rup (hm : m.WellFormed) {id : ClauseId} (h : Conflict m ctx id) :
    Rup ctx.state.clauses (toCnf (resolveConflict ctx (ctx.clause id)).learnedClause) := by
  have hl := h.good.linked
  have hw := h.good.wf
  obtain ⟨b, ⟨hb, hrup⟩, he⟩ := @resolveLoop_induct ctx
    (fun a => AnalysisInv m ctx a ∧ Rup ctx.state.clauses (toCnf a.learnedClause))
    (fun a ha hlen hz => by
      obtain ⟨j, hp⟩ := exists_pivot hm hl hw ha.1 hlen hz
      have hr := resolveAt_resolvent hm hl hw ha.1 hp
      exact ⟨hr.inv hl hw ha.1 hp, hr.rup hw ha.1 hp ha.2⟩) _
    ⟨startAnalysis_inv hl hw h.good.quiet h.lt h.falsified,
      rup_of_mem (Linked.toCnf_mem_clauses h.lt) h.falsified⟩
  rw [he.resolveConflict]
  refine hrup.congr hb.falsified (fun l hlm => ?_) (fun l hlm => ?_)
  · obtain ⟨p, hp, rfl⟩ := mem_toCnf.mp hlm
    exact hb.falsified _ (toLit_mem_toCnf (mem_of_mem_sortUnique hp))
  · obtain ⟨p, hp, rfl⟩ := mem_toCnf.mp hlm
    obtain ⟨q, hq, heq⟩ := exists_var_mem_sortUnique hm hb.resolved hp
    exact ⟨toLit q, toLit_mem_toCnf hq, heq⟩

/-! ## All conflicts of a run -/

/-- The clauses from id `n` on are a proof from those before. -/
structure Proves (n : Nat) (ctx : SolverContext) : Prop where
  le : n ≤ ctx.clauses.length
  proof : RupProof (ctx.state.clauses.take n) (ctx.state.clauses.drop n)

theorem Proves.congr {n : Nat} (h : Proves n ctx) (hc : ctx'.clauses = ctx.clauses) :
    Proves n ctx' := by
  have hstate : ctx'.state.clauses = ctx.state.clauses := by
    show ctx'.clauses.map _ = ctx.clauses.map _
    rw [hc]
  refine ⟨hc ▸ h.le, ?_⟩
  rw [hstate]
  exact h.proof

theorem Proves.learn {n : Nat} {r : ConflictResolutionResult} (h : Proves n ctx)
    (ho : Origin m ctx r) (hr : Rup ctx.state.clauses (toCnf r.learnedClause)) :
    Proves n (learnAdditionalClause ctx r.learnedClause) := by
  have hlen : n ≤ ctx.state.clauses.length := by
    show n ≤ (ctx.clauses.map _).length
    rw [List.length_map]
    exact h.le
  refine ⟨?_, ?_⟩
  · have hcount : (learnAdditionalClause ctx r.learnedClause).clauses.length
        = ctx.clauses.length + 1 := by
      simp [learnAdditionalClause, ho.ne_nil]
    rw [hcount]
    exact Nat.le_succ_of_le h.le
  · rw [ho.state_learn]
    show RupProof ((ctx.state.clauses ++ [_]).take n) ((ctx.state.clauses ++ [_]).drop n)
    rw [List.take_append_of_le_length hlen, List.drop_append_of_le_length hlen]
    apply h.proof.snoc
    rw [List.take_append_drop]
    exact hr

/-- A step learns nothing, or what a conflict yields. -/
theorem Step.proves (hm : m.WellFormed) {f g : Frame} {n : Nat} (hs : Step mul f g)
    (hinv : Inv m f) (h : Proves n f.ctx) : Proves n g.ctx := by
  cases hs with
  | @restart ctx => exact h.congr (clauses_restartIfDue _ ctx)
  | unit hid hp =>
      obtain ⟨u, -, rfl, -⟩ := forces_of_propagate hm (Good.linked hinv) hid hp
      exact h.congr rfl
  | learn hr hu =>
      subst hr
      exact h.learn (Conflict.origin hm hinv hu) (Conflict.rup hm hinv)
  | activity hup => exact h.congr (stutters_updateVsidsActivity hup).clauses
  | count | conflict | quiet | unsatisfiable | backtrack | decide | finish =>
      exact h.congr rfl

theorem Reachable.proves (hm : m.WellFormed) {f : Frame} (h : Reachable mul m f) :
    Proves m.clauses.length f.ctx := by
  obtain ⟨ctx, hctx, hs⟩ := h
  induction hs with
  | refl =>
      have hlen : ctx.clauses.length = m.clauses.length := by
        rw [← (fresh_of_solverContext hctx).clauses, List.length_map]
      have hdrop : ctx.state.clauses.drop m.clauses.length = [] := by
        apply List.drop_eq_nil_of_le
        show (ctx.clauses.map _).length ≤ _
        rw [List.length_map, hlen]
      refine ⟨le_of_eq hlen.symm, ?_⟩
      rw [hdrop]
      trivial
  | tail hrun hstep ih => exact hstep.proves hm (Reachable.inv hm ⟨ctx, hctx, hrun⟩) ih

/-! ## In the literals of the model -/

/-- The clause over the absolute values, as the caller wrote it. -/
def signedClause (c : List Literal) : Cnf.Clause Nat := c.map (fun l => ⟨l.value, l.isOn⟩)

/-- The clauses of the context without the variable ids. -/
def SolverContext.literalClauses (ctx : SolverContext) : List (List Literal) :=
  ctx.clauses.map (fun row => row.clause.map Prod.fst)

/-- The ids of the model. -/
def Model.ids (m : Model) : Set VarId := { v | v < m.literals.length }

theorem injOn_varValue (hm : m.WellFormed) : Set.InjOn m.varValue m.ids :=
  fun _ hv _ hw h => Model.varValue_inj hm hv hw h

theorem over_toCnf {c : Clause} (hc : ∀ p ∈ c, m.Resolved p) : Over m.ids (toCnf c) := by
  intro l hl
  obtain ⟨p, hp, rfl⟩ := mem_toCnf.mp hl
  exact (hc p hp).lt

theorem over_clauses (hl : Linked m ctx) : ∀ C ∈ ctx.state.clauses, Over m.ids C := by
  intro C hC
  obtain ⟨row, hrow, rfl⟩ := List.mem_map.mp hC
  exact over_toCnf (hl.resolved row hrow)

theorem rename_toCnf {c : Clause} (hc : ∀ p ∈ c, m.Resolved p) :
    (toCnf c).rename m.varValue = signedClause (c.map Prod.fst) := by
  rw [Clause.rename, toCnf, signedClause, List.map_map, List.map_map]
  apply List.map_congr_left
  intro p hp
  show (⟨m.varValue p.2, p.1.isOn⟩ : Lit Nat) = ⟨p.1.value, p.1.isOn⟩
  rw [(hc p hp).value_eq]

/-- The names turn the clauses of the state into the clauses of the caller. -/
theorem rename_clauses (hl : Linked m ctx) :
    ctx.state.clauses.map (Clause.rename m.varValue)
      = ctx.literalClauses.map signedClause := by
  show (ctx.clauses.map _).map _ = (ctx.clauses.map _).map _
  rw [List.map_map, List.map_map]
  exact List.map_congr_left (fun row hrow => rename_toCnf (hl.resolved row hrow))

/-- The proof a context carries, in the literals of the model. -/
theorem Proves.literals (hm : m.WellFormed) (hl : Linked m ctx)
    (h : Proves m.clauses.length ctx) : ∃ learned, ctx.literalClauses = m.clauses ++ learned ∧
      RupProof (m.clauses.map signedClause) (learned.map signedClause) := by
  obtain ⟨learned, hlearned⟩ := hl.originals
  have heq : ctx.state.clauses.map (Clause.rename m.varValue)
      = m.clauses.map signedClause ++ learned.map signedClause := by
    rw [rename_clauses hl, SolverContext.literalClauses, ← hlearned, List.map_append]
  have hlen : m.clauses.length = (m.clauses.map signedClause).length := by rw [List.length_map]
  have hover := over_clauses hl
  have hproof := h.proof.rename (injOn_varValue hm)
    (fun C hC => hover C (List.mem_of_mem_take hC)) (fun C hC => hover C (List.mem_of_mem_drop hC))
  rw [List.map_take, List.map_drop, heq, hlen, List.take_left, List.drop_left] at hproof
  exact ⟨learned, hlearned.symm, hproof⟩

/-- **The learned clauses are a proof.** At every point of every run the clauses are those of the
model followed by clauses each of which reverse unit propagation confirms from the ones before. -/
theorem reachable_rupProof (hm : m.WellFormed) {f : Frame} (h : Reachable mul m f) :
    ∃ learned, f.ctx.literalClauses = m.clauses ++ learned ∧
      RupProof (m.clauses.map signedClause) (learned.map signedClause) :=
  (h.proves hm).literals hm (h.linked hm)

theorem reachable_rupProof_backjumping :
    ∃ ctx, Reachable mulUInt32 backjumping ⟨.head, ctx⟩ ∧ ∃ learned,
      ctx.literalClauses = backjumping.clauses ++ learned ∧ learned.length = 1 ∧
      RupProof (backjumping.clauses.map signedClause) (learned.map signedClause) := by
  have hrun : ∃ ctx, Reachable mulUInt32 backjumping ⟨.head, ctx⟩ ∧ ctx.clauses.length = 4 := by
    refine @exists_head mulUInt32 backjumping highestVsids 4 _ _ ?_
    decide +kernel
  obtain ⟨ctx, hreach, hlen⟩ := hrun
  obtain ⟨learned, heq, hproof⟩ := reachable_rupProof (by decide) hreach
  refine ⟨ctx, hreach, learned, heq, ?_, hproof⟩
  have hcount := congrArg List.length heq
  rw [SolverContext.literalClauses, List.length_map, List.length_append, hlen] at hcount
  have hthree : backjumping.clauses.length = 3 := rfl
  omega

/-! ## Unsatisfiable answers -/

/-- A conflict that is reported is one of level 0. -/
theorem Conflict.current_eq_zero (hm : m.WellFormed) {id : ClauseId} (h : Conflict m ctx id)
    (hr : ReportsUnsatisfiable ctx (resolveConflict ctx (ctx.clause id))) :
    ctx.currentDecisionLevel = 0 := by
  rcases hr with ⟨hz, -⟩ | hnil
  · exact hz
  · by_contra hne
    exact (h.origin_of_pos hm (Nat.pos_of_ne_zero hne)).ne_nil hnil

theorem holds_signedClause (σ : Nat → Bool) (c : List Literal) :
    (signedClause c).Holds σ ↔ clauseHolds σ c := by
  constructor
  · rintro ⟨l, hl, hσ⟩
    obtain ⟨l', hl', rfl⟩ := List.mem_map.mp hl
    exact ⟨l', hl', hσ⟩
  · rintro ⟨l, hl, hσ⟩
    exact ⟨⟨l.value, l.isOn⟩, List.mem_map_of_mem hl, hσ⟩

/-- Whoever checks a refutation need not trust the search. -/
theorem not_satisfiable_of_refutation {ds : List (Cnf.Clause Nat)}
    (h : Refutation (m.clauses.map signedClause) ds) : ¬ m.Satisfiable := by
  rintro ⟨σ, hσ⟩
  refine h.unsatisfiable σ (fun C hC => ?_)
  obtain ⟨c, hc, rfl⟩ := List.mem_map.mp hC
  exact (holds_signedClause σ c).mpr (hσ c hc)

/-- **An `unsatisfiable` comes with a refutation**: the clauses learned by then are a proof after
which propagation meets a conflict with nothing assumed. -/
theorem search_refutation (hm : m.WellFormed) {choose : Nat → Chooser} {fuel : Nat}
    (hb : Between mul m ctx)
    (hs : search mul choose fuel 0 ctx = some (ctx', .error .unsatisfiable)) :
    (∃ learned, ctx'.literalClauses = m.clauses ++ learned ∧
      Refutation (m.clauses.map signedClause) (learned.map signedClause)) ∧ ¬ m.Satisfiable := by
  suffices h : ∃ learned, ctx'.literalClauses = m.clauses ++ learned ∧
      Refutation (m.clauses.map signedClause) (learned.map signedClause) by
    obtain ⟨learned, heq, hrefutation⟩ := h
    exact ⟨⟨learned, heq, hrefutation⟩, not_satisfiable_of_refutation hrefutation⟩
  obtain ⟨c, hsteps, hspec⟩ := search_spec hs
  cases hspec with
  | unsatisfiable hup hr =>
      have hreach := (hb.reachable.trans hsteps).trans (steps_of_unitPropagation hup)
      have hconf : Conflict m _ _ := hreach.inv hm
      have hl := hconf.good.linked
      obtain ⟨learned, heq, hproof⟩ := (hreach.proves hm).literals hm hl
      refine ⟨learned, heq, hproof, ?_⟩
      have hrefutes := refutes_of_conflict hconf.good.wf (hconf.current_eq_zero hm hr)
        (Linked.toCnf_mem_clauses hconf.lt) hconf.falsified
      -- from the indices of the solver to the variables of the caller
      have hrenamed := hrefutes.rename (injOn_varValue hm) (over_clauses hl)
        (γ := fun _ => none) (fun _ _ => rfl)
      rw [rename_clauses hl, heq, List.map_append] at hrenamed
      exact hrenamed

theorem search_refutation_allSigns :
    ∃ ctx ctx', solverContext allSigns = .ok ctx ∧
      search mulUInt32 (fun _ => highestVsids) 5 0 ctx = some (ctx', .error .unsatisfiable) ∧
      (∃ learned, ctx'.literalClauses = allSigns.clauses ++ learned ∧
        Refutation (allSigns.clauses.map signedClause) (learned.map signedClause)) ∧
      ¬ allSigns.Satisfiable := by
  have hrun : (solverContext allSigns).toOption.bind (fun ctx =>
      (search mulUInt32 (fun _ => highestVsids) 5 0 ctx).map Prod.snd)
      = some (.error .unsatisfiable) := by
    decide +kernel
  obtain ⟨ctx, ctx', hctx, hs⟩ := exists_call hrun
  exact ⟨ctx, ctx', hctx, hs, search_refutation (by decide) (Between.constructed hctx) hs⟩

/-! ## The solver checks its own proof -/

/-- **`unit_propagation` decides refutation**: it returns a conflict exactly where some run of unit
propagation, in whatever order, falsifies a clause. -/
theorem unitPropagation_conflict_iff {c : SolverContext} (hv : ValidClauses c) :
    (∃ c' id, unitPropagation c = some (c', some id)) ↔
      Refutes c.state.clauses c.state.value := by
  constructor
  · rintro ⟨c', id, hup⟩
    obtain ⟨hid, hf⟩ := falsified_of_unitPropagation hv hup
    exact ⟨_, (propagated_of_unitPropagation hv hup).steps, _, Linked.toCnf_mem_clauses hid, hf⟩
  · rintro ⟨β, hsteps, D, hD, hf⟩
    obtain ⟨c', o, hup, -⟩ := unitPropagationLoop_isSome hv.idsInRange
      (Nat.lt_succ_of_le (length_unassignedVars_le c))
    cases o with
    | some id => exact ⟨c', id, hup⟩
    | none =>
        exact absurd hf (hsteps.not_falsified (propagated_of_unitPropagation hv hup).steps
          (settled_of_unitPropagation hv hup) hD)

theorem Proves.rup {n i : Nat} (h : Proves n ctx) (hi : n ≤ i) (hlt : i < ctx.clauses.length) :
    Rup (ctx.state.clauses.take i) (toCnf (ctx.clause i)) := by
  have hlt' : i < ctx.state.clauses.length := by
    show i < (ctx.clauses.map _).length
    rw [List.length_map]
    exact hlt
  have hclause : ctx.state.clauses[i] = toCnf (ctx.clause i) := by
    simp [SolverContext.state, SolverContext.clause, hlt]
  -- the clause in question between those learned before and after it
  have hsplit : ctx.state.clauses.drop n
      = (ctx.state.clauses.take i).drop n ++ toCnf (ctx.clause i) :: ctx.state.clauses.drop (i + 1) := by
    have hlen : n ≤ (ctx.state.clauses.take i).length := by
      rw [List.length_take]
      omega
    rw [← hclause, ← List.drop_eq_getElem_cons hlt', ← List.drop_append_of_le_length hlen,
      List.take_append_drop]
  have hproof := h.proof
  rw [hsplit] at hproof
  have hrup := hproof.at
  -- the clauses of the model and what was learned before are those below `i`
  have htake : ctx.state.clauses.take n ++ (ctx.state.clauses.take i).drop n
      = ctx.state.clauses.take i := by
    have htwice : (ctx.state.clauses.take i).take n = ctx.state.clauses.take n := by
      rw [List.take_take, min_eq_left hi]
    rw [← htwice, List.take_append_drop]
  rw [htake] at hrup
  exact hrup

/-- **The solver confirms what it learned**: over the clauses before a learned one, and from any
assignment under which that one is false, `unit_propagation` returns a conflict. -/
theorem reachable_selfCheck (hm : m.WellFormed) {f : Frame} (h : Reachable mul m f) {i : ClauseId}
    (hi : m.clauses.length ≤ i) (hlt : i < f.ctx.clauses.length) {c : SolverContext}
    (hclauses : c.clauses = f.ctx.clauses.take i) (hvars : c.vars.length = f.ctx.vars.length)
    (hfalse : ∀ p ∈ f.ctx.clause i, FalseUnder c.assignments p) :
    ∃ c' id, unitPropagation c = some (c', some id) := by
  have hl := h.linked hm
  have hres : ∀ row ∈ c.clauses, ∀ p ∈ row.clause, m.Resolved p := by
    intro row hrow
    rw [hclauses] at hrow
    exact hl.resolved row (List.mem_of_mem_take hrow)
  -- the clauses of `c` are some of those that were reached
  have hv : ValidClauses c :=
    ⟨fun row hrow p hp => (hres row hrow p hp).ne_zero hm,
      fun row hrow p hp => hvars ▸ hl.lt_length (hres row hrow p hp)⟩
  have hstate : c.state.clauses = f.ctx.state.clauses.take i := by
    show c.clauses.map _ = (f.ctx.clauses.map _).take i
    rw [hclauses, List.map_take]
  have hf : Falsified c.state.value (toCnf (f.ctx.clause i)) := by
    intro l hlm
    obtain ⟨p, hp, rfl⟩ := mem_toCnf.mp hlm
    exact (falseUnder_iff ((hl.resolved_clause hlt p hp).ne_zero hm)).mp (hfalse p hp)
  have hrup := (h.proves hm).rup hi hlt
  rw [← hstate] at hrup
  exact (unitPropagation_conflict_iff hv).mpr
    (Refutes.mono hrup (fun _ _ hval => ((denial_eq_some_iff hf).mp hval).2))

/-- The three variables of `backjumping`, the first two on. -/
def firstTwoOn : List Var := [⟨⟨1⟩, .on, {}⟩, ⟨⟨2⟩, .on, {}⟩, ⟨⟨3⟩, .notAssigned, {}⟩]

theorem reachable_selfCheck_backjumping :
    ∃ ctx, Reachable mulUInt32 backjumping ⟨.head, ctx⟩ ∧
      ctx.clause 3 = [(⟨-1⟩, 0), (⟨-2⟩, 1)] ∧
      ∃ c' id, unitPropagation { ctx with clauses := ctx.clauses.take 3, vars := firstTwoOn }
        = some (c', some id) := by
  have hrun : ∃ ctx, Reachable mulUInt32 backjumping ⟨.head, ctx⟩ ∧
      ctx.clauses.length = 4 ∧ ctx.vars.length = 3 ∧ ctx.clause 3 = [(⟨-1⟩, 0), (⟨-2⟩, 1)] := by
    refine @exists_head mulUInt32 backjumping highestVsids 4 _ _ ?_
    decide +kernel
  obtain ⟨ctx, hreach, hlen, hvars, hclause⟩ := hrun
  refine ⟨ctx, hreach, hclause, reachable_selfCheck (by decide) hreach (i := 3) (by decide)
    (by rw [hlen]; decide) rfl hvars.symm ?_⟩
  rw [hclause]
  show ∀ p ∈ _, FalseUnder (fun v => (firstTwoOn.getD v default).assignment) p
  decide

end Fabko.Sat
