import Fabko.Sat.Schedule

set_option autoImplicit false

/-! # When a call returns

In 32 bits the restart threshold can become 0, and then every iteration restarts: the loop of
`solve_sat` undoes each decision at once and makes another one, for ever. A `decay_interval` of 0
ends the program at the first clause that is learned. Nothing else keeps a call from returning, so
what is seen before each iteration decides it, and with it what `solve` returns. -/

namespace Fabko.Sat

open Cnf Cdcl

variable {m : Model} {ctx ctx' : SolverContext} {mul : Nat → Nat → Nat}

/-! ## What impedes an iteration -/

/-- The next iteration keeps the call from returning. -/
inductive Impeded (mul : Nat → Nat → Nat) (ctx : SolverContext) : Prop
  /-- It restarts, as all the next ones will, and propagation alone leaves a variable open. -/
  | restarting {c : SolverContext} (ht : ctx.config.restartThreshold = 0)
      (hup : unitPropagation (restartIfDue mul ctx) = some (c, none))
      (hopen : unassignedVars c ≠ []) : Impeded mul ctx
  /-- It divides by zero. -/
  | dividing (hd : ctx.config.interval = 0) (hl : Learns mul ctx) : Impeded mul ctx

theorem restartIfDue_of_zero (ht : ctx.config.restartThreshold = 0) :
    restartIfDue mul ctx = restart mul ctx :=
  if_pos (by rw [ht]; exact Nat.zero_le _)

theorem threshold_restartIfDue_of_zero (hz : ∀ r, mul 0 r = 0)
    (ht : ctx.config.restartThreshold = 0) :
    (restartIfDue mul ctx).config.restartThreshold = 0 := by
  rw [restartIfDue_of_zero ht]
  show mul ctx.config.restartThreshold _ = 0
  rw [ht]
  exact hz _

/-- Restarting after a decision at level 0 takes it back, and propagation has nothing to do. -/
theorem unitPropagation_restart_decideOn (hm : m.WellFormed) (hg : Good m ctx)
    (hs : ∀ C ∈ ctx.state.clauses, Settled ctx.state.value C)
    (hcur : ctx.currentDecisionLevel = 0) {v : VarId} (hv : v ∈ unassignedVars ctx) :
    unitPropagation (restart mul (decideOn ctx v)) = some (restart mul (decideOn ctx v), none) ∧
      v ∈ unassignedVars (restart mul (decideOn ctx v)) := by
  have hlt := (mem_unassignedVars.mp hv).1
  have ho := isOpen_of_mem_unassignedVars hv true
  have hg' : Good m (restart mul (decideOn ctx v)) := (hg.decideOn hs hv).restart mul
  have hvalue : (restart mul (decideOn ctx v)).state.value = ctx.state.value := by
    rw [state_restart, state_decideOn hlt]
    have hback := value_backjump_decide hg.wf ho
    rwa [show ctx.state.current = 0 from hcur] at hback
  refine ⟨unitPropagation_of_settled hm hg'.linked ?_, mem_unassignedVars.mpr ⟨?_, ?_⟩⟩
  · rw [hvalue]
    exact hs
  · rw [hg'.linked.length_vars_eq hg.linked]
    exact hlt
  · apply Assignment.toOption_eq_none.mp
    rw [← show ctx.state.value v = none from ho, ← hvalue]
    rfl

/-- **An impeded iteration fails or leads to another one.** -/
theorem Impeded.iteration (hm : m.WellFormed) (hz : ∀ r, mul 0 r = 0) (hg : Good m ctx)
    (h : Impeded mul ctx) (choose : Chooser) :
    iteration mul choose ctx = none ∨
      ∃ c, iteration mul choose ctx = some (c, none) ∧ Impeded mul c ∧ Good m c := by
  cases h with
  | dividing hd hl =>
      exact Or.inl ((iteration_eq_none_iff (hg.linked.restartIfDue mul) choose).mpr ⟨hd, hl⟩)
  | @restarting c ht hup hopen =>
      have hq : Inv m ⟨.quiet, c⟩ := (steps_of_unitPropagation hup).inv hm hg
      have hsame := (@unitPropagation_spec mul _ _ _ hup).2
      have hcur : c.currentDecisionLevel = 0 := by
        rw [hsame.current, restartIfDue_of_zero ht]
        rfl
      have hthreshold : c.config.restartThreshold = 0 := by
        rw [hsame.config]
        exact threshold_restartIfDue_of_zero hz ht
      rcases hit : Fabko.Sat.iteration mul choose ctx with _ | ⟨c', out⟩
      · exact Or.inl rfl
      · -- the loop can only decide, on a variable the next restart opens again
        have hspec := iteration_spec hit
        have hone : ∀ {d : SolverContext} {o : Option ClauseId},
            unitPropagation (restartIfDue mul ctx) = some (d, o) → d = c ∧ o = none := by
          intro d o hd
          rw [hup, Option.some.injEq, Prod.mk.injEq] at hd
          exact ⟨hd.1.symm, hd.2.symm⟩
        cases hspec with
        | unsatisfiable hup' _ => cases (hone hup').2
        | learned hup' _ _ _ => cases (hone hup').2
        | solved hup' hall _ _ =>
            rw [(hone hup').1] at hall
            exact absurd hall hopen
        | unsolved hup' hall _ =>
            rw [(hone hup').1] at hall
            exact absurd hall hopen
        | @decided d v hup' hv =>
            obtain ⟨rfl, -⟩ := hone hup'
            obtain ⟨hidle, hv'⟩ :=
              @unitPropagation_restart_decideOn _ _ mul hm hq.1 hq.2 hcur v hv
            refine Or.inr ⟨_, rfl, ?_, hq.1.decideOn hq.2 hv⟩
            refine .restarting (c := restart mul (decideOn d v)) hthreshold ?_
              (List.ne_nil_of_mem hv')
            rw [restartIfDue_of_zero (show (decideOn d v).config.restartThreshold = 0 from
              hthreshold)]
            exact hidle

/-! ## When a call returns -/

theorem CallHead.good (hm : m.WellFormed) (hg : Good m ctx) {choose : Nat → Chooser} {k : Nat}
    {c : SolverContext} (h : CallHead mul choose ctx k c) : Good m c :=
  (CallHead.steps h).inv hm hg

/-- An iteration at threshold 0 that is not impeded returns. -/
theorem IterationSpec.ne_none_of_zero (hm : m.WellFormed) (hne : m.literals ≠ []) (hg : Good m ctx)
    (ht : ctx.config.restartThreshold = 0) (hfree : ¬ Impeded mul ctx)
    (hs : IterationSpec mul ctx ctx' none) : False := by
  cases hs with
  | @learned c id r hup hr hn _ =>
      -- at level 0 a conflict is reported, not learned from
      subst hr
      have hconf : Conflict m (countConflict c) id := (steps_of_unitPropagation hup).inv hm hg
      have hcur : c.currentDecisionLevel = 0 := by
        rw [(@unitPropagation_spec mul _ _ _ hup).2.current, restartIfDue_of_zero ht]
        rfl
      exact (hconf.origin hm hn).pos.ne' hcur
  | decided hup hv => exact hfree (.restarting ht hup (List.ne_nil_of_mem hv))
  | unsolved hup hall hs =>
      have hq : Inv m ⟨.quiet, ctx'⟩ := (steps_of_unitPropagation hup).inv hm hg
      exact not_unsolved hm hne hq.1.linked hq.2 hall hs

/-- The potential, and nothing at threshold 0, where an iteration returns or is impeded. -/
def remaining (ctx : SolverContext) : Nat :=
  if ctx.config.restartThreshold = 0 then 0 else potential ctx + 1

theorem IterationSpec.remaining_lt (hm : m.WellFormed) (hne : m.literals ≠ []) (hg : Good m ctx)
    (hfree : ¬ Impeded mul ctx) (hs : IterationSpec mul ctx ctx' none) :
    remaining ctx' < remaining ctx := by
  by_cases ht : ctx.config.restartThreshold = 0
  · exact (hs.ne_none_of_zero hm hne hg ht hfree).elim
  · unfold remaining
    rw [if_neg ht]
    split
    · exact Nat.succ_pos _
    · rename_i ht'
      rw [hs.config] at ht'
      exact Nat.succ_lt_succ (hs.potential_lt hm hne hg (Nat.pos_of_ne_zero ht'))

/-- **A call returns if and only if no iteration it comes to is impeded**, whatever it chooses. -/
theorem exists_search_iff (hm : m.WellFormed) (hne : m.literals ≠ []) (hz : ∀ r, mul 0 r = 0)
    (h : Reachable mul m ⟨.head, ctx⟩) (choose : Nat → Chooser) :
    (∃ fuel ctx' r, search mul choose fuel 0 ctx = some (ctx', r)) ↔
      ∀ k c, CallHead mul choose ctx k c → ¬ Impeded mul c := by
  have hg : Good m ctx := h.inv hm
  simp only [search_eq_run]
  constructor
  · rintro ⟨fuel, ctx', r, hrun⟩ k c hc himp
    have hnone := Loop.run_eq_none_of_forever (P := fun _ c => Impeded mul c ∧ Good m c)
      (fun j d hd => hd.1.iteration hm hz hd.2 (choose j)) hc
      ⟨himp, CallHead.good hm hg hc⟩ fuel
    rw [hrun] at hnone
    cases hnone
  · intro hfree
    refine ⟨remaining ctx + 1, ?_⟩
    refine Loop.exists_run_of_measure (P := fun k c => CallHead mul choose ctx k c) remaining ?_
      .start (Nat.lt_succ_self _)
    intro k c hc
    have hgc := CallHead.good hm hg hc
    obtain ⟨⟨c', out⟩, hit⟩ := iteration_isSome hgc.linked (choose k)
      (fun hd hl => hfree k c hc (.dividing hd hl))
    cases out with
    | some r => exact Or.inl ⟨c', r, hit⟩
    | none =>
        exact Or.inr ⟨c', hit, hc.next hit,
          (iteration_spec hit).remaining_lt hm hne hgc (hfree k c hc)⟩

/-! ## Where the configuration alone decides -/

/-- No threshold is 0 that a first call of a model with `n` variables can come to: it learns from at
most `3 ^ n` conflicts. -/
def Configuration.KeepsRestarting (mul : Nat → Nat → Nat) (conf : Configuration) (n : Nat) : Prop :=
  ∀ k, conf.conflictsFor mul k ≤ 3 ^ n → 1 ≤ conf.thresholdAfter mul k

/-- What a first call keeps at its heads. -/
structure OnSchedule (mul : Nat → Nat → Nat) (m : Model) (ctx : SolverContext) : Prop where
  reachable : Reachable mul m ⟨.head, ctx⟩
  scheduled : ctx.clock.Scheduled mul m.conf
  learned : m.clauses.length + ctx.statistics.conflicts ≤ ctx.clauses.length

theorem OnSchedule.conflicts_le (hm : m.WellFormed) (h : OnSchedule mul m ctx) :
    ctx.statistics.conflicts ≤ 3 ^ m.literals.length := by
  have hlen : ctx.clauses.length ≤ _ :=
    (h.reachable.learnedNew hm).length_le (h.reachable.linked hm)
  have hlearned := h.learned
  omega

theorem Configuration.KeepsRestarting.threshold_pos {c : Clock}
    (hk : m.conf.KeepsRestarting mul m.literals.length) (h : c.Scheduled mul m.conf)
    (hle : c.conflicts ≤ 3 ^ m.literals.length) : 1 ≤ c.config.restartThreshold := by
  rw [h.threshold_eq]
  apply hk
  have hconflicts := h.conflicts
  omega

theorem clock_of_unitPropagation {c : SolverContext} {o : Option ClauseId}
    (h : unitPropagation (restartIfDue mul ctx) = some (c, o)) :
    c.clock = (restartIfDue mul ctx).clock := by
  have hsame := (@unitPropagation_spec mul _ _ _ h).2
  unfold SolverContext.clock
  rw [hsame.config, hsame.conflictCount, hsame.restarts, hsame.conflicts]

theorem OnSchedule.threshold_restartIfDue (hm : m.WellFormed)
    (hk : m.conf.KeepsRestarting mul m.literals.length) (h : OnSchedule mul m ctx) :
    1 ≤ (restartIfDue mul ctx).config.restartThreshold := by
  apply hk.threshold_pos h.scheduled.restartIfDue
  show (restartIfDue mul ctx).statistics.conflicts ≤ _
  rw [conflicts_restartIfDue]
  exact h.conflicts_le hm

/-- A conflict counted below the threshold stays on the schedule. -/
theorem Clock.Scheduled.countConflict {conf : Configuration} (h : ctx.clock.Scheduled mul conf)
    (hlt : ctx.conflictCountSinceLastRestart < ctx.config.restartThreshold) :
    (countConflict ctx).clock.Scheduled mul conf := by
  rw [show ctx.config.restartThreshold = _ from h.threshold_eq] at hlt
  exact ⟨h.config, congrArg (· + 1) h.conflicts, hlt⟩

theorem OnSchedule.iteration (hm : m.WellFormed)
    (hk : m.conf.KeepsRestarting mul m.literals.length) (h : OnSchedule mul m ctx)
    (hs : IterationSpec mul ctx ctx' none) : OnSchedule mul m ctx' := by
  have hreach := h.reachable.trans hs.steps
  have hup : ∀ {c : SolverContext} {o : Option ClauseId},
      unitPropagation (restartIfDue mul ctx) = some (c, o) → c.clock.Scheduled mul m.conf ∧
        m.clauses.length + c.statistics.conflicts ≤ c.clauses.length := by
    intro c o hup
    refine ⟨?_, ?_⟩
    · rw [clock_of_unitPropagation hup]
      exact h.scheduled.restartIfDue
    · rw [(@unitPropagation_spec mul _ _ _ hup).2.conflicts, conflicts_restartIfDue,
        clauses_of_unitPropagation hup]
      exact h.learned
  cases hs with
  | @learned c id r hprop hr hn _ =>
      obtain ⟨hsched, hlearned⟩ := hup hprop
      have hsame := (@unitPropagation_spec mul _ _ _ hprop).2
      have hlt := count_lt_restartIfDue (h.threshold_restartIfDue hm hk)
      rw [← hsame.config, ← hsame.conflictCount] at hlt
      have hclock : (afterConflict (countConflict c) r).clock = (countConflict c).clock :=
        clock_learn (countConflict c) r.learnedClause
      refine ⟨hreach, ?_, ?_⟩
      · rw [hclock]
        exact hsched.countConflict hlt
      · -- the clause that is learned pays for the conflict
        have hne : r.learnedClause ≠ [] := fun hnil => hn (Or.inr hnil)
        have hclauses : (afterConflict (countConflict c) r).clauses.length
            = c.clauses.length + 1 := by
          show (learnAdditionalClause (countConflict c) r.learnedClause).clauses.length = _
          simp [learnAdditionalClause, hne, countConflict]
        have hconflicts : (afterConflict (countConflict c) r).statistics.conflicts
            = c.statistics.conflicts + 1 := congrArg Clock.conflicts hclock
        rw [hclauses, hconflicts]
        omega
  | decided hprop _ => exact ⟨hreach, (hup hprop).1, (hup hprop).2⟩
  | unsolved hprop _ _ => exact ⟨hreach, (hup hprop).1, (hup hprop).2⟩

theorem onSchedule_of_solverContext (h : solverContext m = .ok ctx) : OnSchedule mul m ctx := by
  refine ⟨⟨ctx, h, Relation.ReflTransGen.refl⟩, (scheduleInv_of_solverContext h).1, ?_⟩
  rw [statistics_of_solverContext h, ← (fresh_of_solverContext h).clauses, List.length_map]
  rfl

/-- No iteration of the first call is impeded. -/
def Unimpeded (mul : Nat → Nat → Nat) (choose : Nat → Chooser) (m : Model) : Prop :=
  ∀ ctx k c, solverContext m = .ok ctx → CallHead mul choose ctx k c → ¬ Impeded mul c

theorem unimpeded_of_keepsRestarting (hm : m.WellFormed) (hd : m.conf.interval ≠ 0)
    (hk : m.conf.KeepsRestarting mul m.literals.length) (choose : Nat → Chooser) :
    Unimpeded mul choose m := by
  intro ctx k c hctx hc himp
  have hon : OnSchedule mul m c := Loop.Head.induct (P := fun _ c => OnSchedule mul m c)
    (onSchedule_of_solverContext hctx)
    (fun _ _ _ h hit => h.iteration hm hk (iteration_spec hit)) hc
  cases himp with
  | restarting ht _ _ =>
      have hpos : 1 ≤ c.config.restartThreshold :=
        hk.threshold_pos hon.scheduled (hon.conflicts_le hm)
      omega
  | dividing hzero _ =>
      have hconf : c.config = _ := hon.scheduled.config
      rw [hconf] at hzero
      exact hd hzero

/-! ## What `solve` returns -/

theorem unimpeded_iff (hm : m.WellFormed) (hne : m.literals ≠ []) (choose : Nat → Chooser)
    (hctx : solverContext m = .ok ctx) :
    Unimpeded mulUInt32 choose m ↔
      ∃ fuel ctx' r, search mulUInt32 choose fuel 0 ctx = some (ctx', r) := by
  rw [exists_search_iff hm hne (fun r => by simp [mulUInt32]) ⟨ctx, hctx, .refl⟩]
  constructor
  · exact fun h k c hc => h ctx k c hctx hc
  · intro h ctx' k c hctx' hc
    obtain rfl : ctx = ctx' := Except.ok.inj (hctx.symm.trans hctx')
    exact h k c hc

/-- **When `solve` enumerates.** Nothing is asked for; or one solution is, or there is none, and the
first call is not impeded. Of the configuration it is enough that `decay_interval` is not 0 and no
threshold is that the learned clauses leave time for. -/
theorem solve_enumerates_iff (hm : m.WellFormed) (hne : m.literals ≠ []) (choose : Nat → Chooser)
    (n : Nat) :
    (EnumeratesSolutions mulUInt32 choose m n ↔
      n = 0 ∨ ((n = 1 ∨ ¬ m.Satisfiable) ∧ Unimpeded mulUInt32 choose m)) ∧
    (m.conf.interval ≠ 0 → m.conf.KeepsRestarting mulUInt32 m.literals.length →
      (EnumeratesSolutions mulUInt32 choose m n ↔ n ≤ 1 ∨ ¬ m.Satisfiable)) := by
  have hexact : EnumeratesSolutions mulUInt32 choose m n ↔
      n = 0 ∨ ((n = 1 ∨ ¬ m.Satisfiable) ∧ Unimpeded mulUInt32 choose m) := by
    obtain ⟨ctx, hctx⟩ := solverContext_isOk hm
    cases n with
    | zero => exact iff_of_true (enumeratesSolutions_zero hm choose) (Or.inl rfl)
    | succ i =>
        rw [unimpeded_iff hm hne choose hctx]
        constructor
        · intro h
          obtain ⟨ctx', fuel, c, r, hctx', hs⟩ := h.search
          obtain rfl : ctx = ctx' := Except.ok.inj (hctx.symm.trans hctx')
          refine Or.inr ⟨?_, fuel, c, r, hs⟩
          exact (h.le_one hm).imp_left (fun hle => by omega)
        · rintro (hzero | ⟨hone, fuel, c, r, hs⟩)
          · cases hzero
          · exact enumeratesSolutions_of_search hm hctx hs (hone.imp_left le_of_eq)
  refine ⟨hexact, fun hd hk => ?_⟩
  have hfree := unimpeded_of_keepsRestarting hm hd hk choose
  rw [hexact, and_iff_left hfree, Nat.le_one_iff_eq_zero_or_eq_one, or_assoc]

/-- With the default configuration it takes more than `3 ^ 21` conflicts before the threshold
is 0. -/
theorem keepsRestarting_default {n : Nat} (hn : n ≤ 21) :
    ({} : Configuration).KeepsRestarting mulUInt32 n := by
  intro k hk
  have hle : ({} : Configuration).conflictsFor mulUInt32 k ≤ 3 ^ 21 :=
    hk.trans (Nat.pow_le_pow_right (by decide) hn)
  have hfirst : ∀ j < 30, 1 ≤ ({} : Configuration).thresholdAfter mulUInt32 j := by decide
  refine hfirst k (lt_of_not_ge fun hge => ?_)
  have hmono := Configuration.conflictsFor_mono {} mulUInt32 hge
  have hmany : 3 ^ 21 < ({} : Configuration).conflictsFor mulUInt32 30 := by decide
  omega

theorem solve_enumerates_iff_oneClause :
    EnumeratesSolutions mulUInt32 (fun _ => highestVsids) oneClause 1 :=
  ((solve_enumerates_iff (by decide) (by decide) (fun _ => highestVsids) 1).2 (by decide)
    (keepsRestarting_default (by decide))).mpr (Or.inl (le_refl 1))

end Fabko.Sat
