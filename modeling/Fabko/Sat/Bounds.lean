import Fabko.Logic.Rup
import Fabko.Sat.Invariants
import Fabko.Sat.Termination
import Mathlib.Data.Fintype.BigOperators
import Mathlib.Data.Fintype.Option
import Mathlib.Order.Interval.Finset.Nat

set_option autoImplicit false

/-! # Bounds of a run

What a run can grow is bounded by the number of variables alone: the trail and the decision level
by their number, the learned clauses by the ways to give each variable one of two signs or none.
With that the search has a bound that is the same for every order of choices, and where the bound
times the multiplier fits in 32 bits the restart threshold of the code never wraps. -/

namespace Fabko.Sat

open Cnf Cdcl

variable {m : Model} {ctx ctx' : SolverContext} {mul : Nat → Nat → Nat}

/-! ## Clauses by their denials -/

/-- A clause that repeats no variable can be read back from its denial. -/
theorem mem_iff_denial {C : Cnf.Clause VarId} (hd : Distinct C) {l : Lit VarId} :
    l ∈ C ↔ denial C l.var = some (!l.sign) := by
  constructor
  · intro hl
    rcases hfind : C.find? (fun l' => decide (l'.var = l.var)) with _ | l₀
    · have hnone := List.find?_eq_none.mp hfind l hl
      simp at hnone
    · have hvar : l₀.var = l.var := by simpa using List.find?_some hfind
      have heq : l₀ = l := List.inj_on_of_nodup_map hd (List.mem_of_find?_eq_some hfind) hl hvar
      rw [denial, hfind, heq]
      rfl
  · intro h
    rw [denial, Option.map_eq_some_iff] at h
    obtain ⟨l₀, hfind, hsign⟩ := h
    have hvar : l₀.var = l.var := by simpa using List.find?_some hfind
    have heq : l₀ = l := by
      cases l₀
      cases l
      simp only [Lit.mk.injEq] at hvar hsign ⊢
      exact ⟨hvar, by simpa using hsign⟩
    exact heq ▸ List.mem_of_find?_eq_some hfind

/-- The clause with id `i` as a choice of a sign or none for each variable. -/
def signs (n : Nat) (ctx : SolverContext) (i : ClauseId) : Fin n → Option Bool :=
  fun v => denial (toCnf (ctx.clause i)) v

theorem literal_eq_of_toLit_eq {p q : Literal × VarId} (hp : m.Resolved p) (hq : m.Resolved q)
    (h : toLit p = toLit q) : p.1 = q.1 := by
  have hvar : p.2 = q.2 := congrArg Lit.var h
  have hsign : p.1.isOn = q.1.isOn := congrArg Lit.sign h
  have hvalue : p.1.value = q.1.value := by rw [hp.value_eq, hq.value_eq, hvar]
  obtain ⟨⟨a⟩, v⟩ := p
  obtain ⟨⟨b⟩, w⟩ := q
  simp only [Literal.isOn, Literal.value, decide_eq_decide] at hsign hvalue
  simp only [Literal.mk.injEq]
  omega

theorem subset_of_signs_eq (hl : Linked m ctx) {i j : ClauseId} (hi : i < ctx.clauses.length)
    (hj : j < ctx.clauses.length) (hdi : Distinct (toCnf (ctx.clause i)))
    (hdj : Distinct (toCnf (ctx.clause j)))
    (h : signs m.literals.length ctx i = signs m.literals.length ctx j) :
    (ctx.clause i).map Prod.fst ⊆ (ctx.clause j).map Prod.fst := by
  intro l hlm
  obtain ⟨p, hp, rfl⟩ := List.mem_map.mp hlm
  have hres := hl.resolved_clause hi p hp
  have hval := (mem_iff_denial hdi).mp (toLit_mem_toCnf hp)
  have heq : denial (toCnf (ctx.clause i)) p.2 = denial (toCnf (ctx.clause j)) p.2 :=
    congrFun h ⟨p.2, hres.lt⟩
  have hmem : toLit p ∈ toCnf (ctx.clause j) := (mem_iff_denial hdj).mpr (heq.symm.trans hval)
  obtain ⟨q, hq, hqp⟩ := mem_toCnf.mp hmem
  rw [← literal_eq_of_toLit_eq (hl.resolved_clause hj q hq) hres hqp]
  exact List.mem_map_of_mem hq

/-- **Learned clauses are few**: two of them never choose the same signs. -/
theorem LearnedNew.length_le (hl : Linked m ctx) (h : LearnedNew m ctx) :
    ctx.clauses.length ≤ m.clauses.length + 3 ^ m.literals.length := by
  have hcard : (Finset.Ico m.clauses.length ctx.clauses.length).card
      ≤ (Finset.univ : Finset (Fin m.literals.length → Option Bool)).card := by
    refine Finset.card_le_card_of_injOn (signs m.literals.length ctx)
      (fun _ _ => Finset.mem_coe.mpr (Finset.mem_univ _)) ?_
    -- equal signs would make the later clause contain the earlier one
    have hne : ∀ i j, m.clauses.length ≤ i → i < j → j < ctx.clauses.length →
        signs m.literals.length ctx i ≠ signs m.literals.length ctx j := by
      intro i j hi hij hj heq
      apply h.once i j hi hij hj
      exact subset_of_signs_eq hl (lt_trans hij hj) hj
        (distinct_toCnf_iff.mpr (h.distinct i hi (lt_trans hij hj)))
        (distinct_toCnf_iff.mpr (h.distinct j (by omega) hj)) heq
    intro i hi j hj heq
    rw [Finset.mem_coe, Finset.mem_Ico] at hi hj
    rcases lt_trichotomy i j with hlt | heq' | hgt
    · exact absurd heq (hne i j hi.1 hlt hj.2)
    · exact heq'
    · exact absurd heq.symm (hne j i hj.1 hgt hi.2)
  rw [Nat.card_Ico, Finset.card_univ, Fintype.card_fun, Fintype.card_option, Fintype.card_bool,
    Fintype.card_fin] at hcard
  exact Nat.sub_le_iff_le_add'.mp hcard

/-! ## The trail and the levels -/

/-- Each level has its decision on the trail. -/
theorem TrailStructure.level_le (h : TrailStructure ctx) :
    ctx.currentDecisionLevel ≤ ctx.trail.length := by
  have hsub : Finset.Icc 1 ctx.currentDecisionLevel ⊆ (ctx.trail.map ctx.levelOf).toFinset := by
    intro k hk
    rw [Finset.mem_Icc] at hk
    obtain ⟨i, hi, hlev, -⟩ := h.decision k hk.1 hk.2
    rw [List.mem_toFinset, ← hlev, trailVar_eq_getElem hi]
    exact List.mem_map_of_mem (List.getElem_mem hi)
  calc ctx.currentDecisionLevel = (Finset.Icc 1 ctx.currentDecisionLevel).card := by simp
    _ ≤ (ctx.trail.map ctx.levelOf).toFinset.card := Finset.card_le_card hsub
    _ ≤ (ctx.trail.map ctx.levelOf).length := List.toFinset_card_le _
    _ = ctx.trail.length := List.length_map _

theorem TrailStructure.length_le (h : TrailStructure ctx) (hl : Linked m ctx) :
    ctx.trail.length ≤ m.literals.length := by
  have hsub : ctx.trail ⊆ List.range m.literals.length := by
    intro v hv
    rw [List.mem_range, ← hl.length_vars]
    exact lt_length_of_assigned ((h.mem_iff v).mp hv)
  have hle := (List.subperm_of_subset h.nodup hsub).length_le
  rw [List.length_range] at hle
  exact hle

/-- What a context holds, against the number of variables of the model. -/
structure Bounded (m : Model) (ctx : SolverContext) : Prop where
  clauses : ctx.clauses.length ≤ m.clauses.length + 3 ^ m.literals.length
  trail : ctx.trail.length ≤ m.literals.length
  level : ctx.currentDecisionLevel ≤ ctx.trail.length

/-- **A run stays within bounds** that only depend on the model, however long it is and however
often it is called, restarts and decides. -/
theorem reachable_bounded (hm : m.WellFormed) {f : Frame} (h : Reachable mul m f) :
    Bounded m f.ctx :=
  ⟨(h.learnedNew hm).length_le (h.linked hm), (h.trailStructure hm).length_le (h.linked hm),
    (h.trailStructure hm).level_le⟩

theorem reachable_bounded_backjumping :
    ∃ ctx, Reachable mulUInt32 backjumping ⟨.conflict 2, ctx⟩ ∧ ctx.currentDecisionLevel = 2 ∧
      Bounded backjumping ctx := by
  obtain ⟨ctx, hreach, hlevel, -⟩ := exists_conflict_backjumping
  exact ⟨ctx, hreach, hlevel, reachable_bounded (by decide) hreach⟩

/-! ## The number of iterations -/

/-- Enough iterations for any model with `n` variables. -/
def iterationBound (n : Nat) : Nat := (4 ^ n + 1) * (2 * (n + 1))

theorem iterationBound_pos (n : Nat) : 0 < iterationBound n :=
  Nat.mul_pos (Nat.succ_pos _) (Nat.mul_pos Nat.two_pos (Nat.succ_pos n))

theorem card_litsBelow_le (n : Nat) : (litsBelow n).card ≤ 2 * n := by
  calc (litsBelow n).card ≤ (Finset.range n ×ˢ (Finset.univ : Finset Bool)).card :=
        Finset.card_image_le
    _ = n * 2 := by rw [Finset.card_product, Finset.card_range]; rfl
    _ = 2 * n := Nat.mul_comm n 2

theorem learnable_le (ctx : SolverContext) : learnable ctx ≤ 4 ^ ctx.vars.length := by
  calc learnable ctx ≤ (litsBelow ctx.vars.length).powerset.card :=
        Finset.card_le_card Finset.sdiff_subset
    _ = 2 ^ (litsBelow ctx.vars.length).card := Finset.card_powerset _
    _ ≤ 2 ^ (2 * ctx.vars.length) := Nat.pow_le_pow_right (by decide) (card_litsBelow_le _)
    _ = 4 ^ ctx.vars.length := by rw [Nat.pow_mul]

theorem potential_lt_iterationBound (hl : Linked m ctx) :
    potential ctx < iterationBound m.literals.length := by
  have hopen := length_unassignedVars_le ctx
  have hdue := Nat.mul_le_mul_right (ctx.vars.length + 1) (restartsDue_le ctx)
  have hlearn := Nat.mul_le_mul_right (2 * (ctx.vars.length + 1)) (learnable_le ctx)
  unfold potential iterationBound
  rw [hl.length_vars] at hopen hdue hlearn ⊢
  rw [Nat.add_mul]
  omega

theorem Running.search_isSome_of_bound (hm : m.WellFormed) (hne : m.literals ≠ [])
    (h : Running mul m ctx) (choose : Nat → Chooser) :
    ∃ ctx' r, Fabko.Sat.search mul choose (iterationBound m.literals.length) 0 ctx = some (ctx', r) :=
  h.search_isSome hm hne choose 0 (potential_lt_iterationBound h.good.linked)

/-- **The search is bounded by the number of variables** unless `decay_interval` is 0: between any
two calls and for every choice of decisions, the next call answers within `iterationBound`, and
correctly. -/
theorem search_bounded (hm : m.WellFormed) (hne : m.literals ≠ [])
    (ht : 1 ≤ m.conf.restartThreshold) (hr : 1 ≤ m.conf.restartMultiplier)
    (hd : m.conf.interval ≠ 0) (hb : Between (fun a b => a * b) m ctx)
    (choose : Nat → Chooser) :
    ∃ ctx' r, search (fun a b => a * b) choose (iterationBound m.literals.length) 0 ctx
      = some (ctx', r) ∧ Correct m r := by
  have hrun := hb.running hm (positiveThresholds_of_pos ht hr) hd
  obtain ⟨ctx', r, hs⟩ := hrun.search_isSome_of_bound hm hne choose
  exact ⟨ctx', r, hs, search_correct hm hb hs⟩

theorem search_bounded_threeSigns :
    ∃ ctx ctx' r, solverContext threeSigns = .ok ctx ∧
      search (fun a b => a * b) (fun _ => highestVsids) (iterationBound 2) 0 ctx
        = some (ctx', r) ∧ Correct threeSigns r := by
  have hm : threeSigns.WellFormed := by decide
  obtain ⟨ctx, hctx⟩ := solverContext_isOk hm
  obtain ⟨ctx', r, hs⟩ := search_bounded hm (by decide) (by decide) (by decide) (by decide)
    (Between.constructed hctx) (fun _ => highestVsids)
  exact ⟨ctx, ctx', r, hctx, hs⟩

/-! ## The 32 bits of the threshold -/

/-- The counter of conflicts is at most the number of learned clauses. -/
def CountsLearned (m : Model) (ctx : SolverContext) : Prop :=
  m.clauses.length + ctx.conflictCountSinceLastRestart ≤ ctx.clauses.length

theorem CountsLearned.restartIfDue (h : CountsLearned m ctx) (mul : Nat → Nat → Nat) :
    CountsLearned m (restartIfDue mul ctx) := by
  refine restartIfDue_induct mul ctx ?_ h
  exact le_trans (Nat.add_le_add_left (Nat.zero_le _) _) h

/-- An iteration that goes on learns a clause for the conflict it counts. -/
theorem CountsLearned.iteration (h : CountsLearned m ctx)
    (hs : IterationSpec mul ctx ctx' none) : CountsLearned m ctx' := by
  -- neither a restart nor propagation learns or counts
  have hprop : ∀ {c : SolverContext} {o : Option ClauseId},
      unitPropagation (Fabko.Sat.restartIfDue mul ctx) = some (c, o) → CountsLearned m c := by
    intro c o hup
    have hsame := (@unitPropagation_spec mul _ _ _ hup).2
    have hstart := h.restartIfDue mul
    unfold CountsLearned at hstart ⊢
    rw [hsame.clauses, hsame.conflictCount]
    exact hstart
  cases hs with
  | @learned c id r hup hr hn =>
      have hc : CountsLearned m c := hprop hup
      have hne : r.learnedClause ≠ [] := fun hnil => hn (Or.inr hnil)
      show m.clauses.length
          + (learnAdditionalClause (countConflict c) r.learnedClause).conflictCountSinceLastRestart
        ≤ (learnAdditionalClause (countConflict c) r.learnedClause).clauses.length
      simp only [learnAdditionalClause, List.isEmpty_iff, hne, if_false, List.length_append,
        List.length_singleton, countConflict]
      unfold CountsLearned at hc
      omega
  | @decided c v hup hv =>
      have hc : CountsLearned m c := hprop hup
      exact hc
  | unsolved hup hall hs => exact hprop hup

theorem restart_congr {mul' : Nat → Nat → Nat}
    (h : mul ctx.config.restartThreshold ctx.config.restartMultiplier
      = mul' ctx.config.restartThreshold ctx.config.restartMultiplier) :
    restart mul ctx = restart mul' ctx := by
  have hproduct : ∀ mul : Nat → Nat → Nat, restart mul ctx =
      { restart mul ctx with
        config :=
          { ctx.config with
            restartThreshold :=
              mul ctx.config.restartThreshold ctx.config.restartMultiplier } } := fun _ => rfl
  rw [hproduct mul, hproduct mul', h]
  rfl

/-- What the first call keeps, where the product of a restart that is due fits in 32 bits. -/
structure Fits (m : Model) (ctx : SolverContext) : Prop where
  counts : CountsLearned m ctx
  multiplier : ctx.config.restartMultiplier = m.conf.restartMultiplier
  reachable : Reachable (fun a b => a * b) m ⟨.head, ctx⟩

theorem Fits.restartIfDue_eq (hm : m.WellFormed) (h : Fits m ctx)
    (hfit : 3 ^ m.literals.length * m.conf.restartMultiplier < 2 ^ 32) :
    restartIfDue mulUInt32 ctx = restartIfDue (fun a b => a * b) ctx := by
  unfold restartIfDue
  split
  · rename_i hdue
    have hlen : ctx.clauses.length ≤ _ := (h.reachable.learnedNew hm).length_le (h.reachable.linked hm)
    have hcounts := h.counts
    unfold CountsLearned at hcounts
    have hle : ctx.config.restartThreshold ≤ 3 ^ m.literals.length := by omega
    apply restart_congr
    apply Nat.mod_eq_of_lt
    rw [h.multiplier]
    exact lt_of_le_of_lt (Nat.mul_le_mul_right _ hle) hfit
  · rfl

/-- An iteration multiplies in the test for a restart only. -/
theorem iteration_congr {mul' : Nat → Nat → Nat}
    (h : restartIfDue mul ctx = restartIfDue mul' ctx) (choose : Chooser) :
    iteration mul choose ctx = iteration mul' choose ctx := by
  unfold iteration
  rw [h]

theorem Fits.iteration (h : Fits m ctx)
    (hs : IterationSpec (fun a b => a * b) ctx ctx' none) : Fits m ctx' := by
  refine ⟨h.counts.iteration hs, ?_, h.reachable.trans hs.steps⟩
  rw [hs.config, ← h.multiplier]
  exact restartIfDue_induct _ ctx rfl rfl

theorem Fits.search_eq (hm : m.WellFormed) (h : Fits m ctx)
    (hfit : 3 ^ m.literals.length * m.conf.restartMultiplier < 2 ^ 32) (choose : Nat → Chooser)
    (fuel : Nat) :
    search mulUInt32 choose fuel 0 ctx = search (fun a b => a * b) choose fuel 0 ctx := by
  rw [search_eq_run, search_eq_run]
  refine (Loop.run_congr (fun k _ c hc => ?_)).symm
  have hc' : Fits m c := Loop.Head.induct (P := fun _ c => Fits m c) h
    (fun _ _ _ hfits hit => hfits.iteration (iteration_spec hit)) hc
  exact (iteration_congr (hc'.restartIfDue_eq hm hfit) (choose k)).symm

theorem fits_of_solverContext (h : solverContext m = .ok ctx) : Fits m ctx := by
  have hf := fresh_of_solverContext h
  refine ⟨?_, by rw [hf.config], ⟨ctx, h, Relation.ReflTransGen.refl⟩⟩
  have hlen : ctx.clauses.length = m.clauses.length := by
    rw [← hf.clauses, List.length_map]
  unfold CountsLearned
  rw [hlen, hf.conflictCount]
  rfl

/-- **The 32-bit solver is the unbounded one** on a new context, iteration by iteration and for
every choice, where `3 ^ n` times the multiplier fits in 32 bits (19 variables, with the default
multiplier 2); so it answers within the same bound, and correctly, unless `decay_interval` is 0. -/
theorem search_uint32 (hm : m.WellFormed) (hne : m.literals ≠ [])
    (ht : 1 ≤ m.conf.restartThreshold) (hr : 1 ≤ m.conf.restartMultiplier)
    (hd : m.conf.interval ≠ 0)
    (hfit : 3 ^ m.literals.length * m.conf.restartMultiplier < 2 ^ 32)
    (hctx : solverContext m = .ok ctx) (choose : Nat → Chooser) :
    (∀ fuel, search mulUInt32 choose fuel 0 ctx = search (fun a b => a * b) choose fuel 0 ctx) ∧
    ∃ ctx' r, search mulUInt32 choose (iterationBound m.literals.length) 0 ctx = some (ctx', r) ∧
      Correct m r := by
  have heq := fun fuel => (fits_of_solverContext hctx).search_eq hm hfit choose fuel
  have hb : Between (fun a b => a * b) m ctx := Between.constructed hctx
  have hrun := hb.running hm (positiveThresholds_of_pos ht hr) hd
  obtain ⟨ctx', r, hs⟩ := hrun.search_isSome_of_bound hm hne choose
  refine ⟨heq, ctx', r, ?_, search_correct hm hb hs⟩
  rw [heq]
  exact hs

theorem search_uint32_backjumping :
    ∃ ctx ctx' r, solverContext backjumping = .ok ctx ∧
      solveSat (iterationBound 3) ctx = some (ctx', r) ∧ Correct backjumping r := by
  have hm : backjumping.WellFormed := by decide
  obtain ⟨ctx, hctx⟩ := solverContext_isOk hm
  obtain ⟨-, ctx', r, hs, hcorrect⟩ := search_uint32 hm (by decide) (by decide) (by decide)
    (by decide) (by decide) hctx (fun _ => highestVsids)
  exact ⟨ctx, ctx', r, hctx, hs, hcorrect⟩

end Fabko.Sat
