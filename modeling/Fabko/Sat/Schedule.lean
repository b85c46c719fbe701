import Fabko.Sat.Bounds
import Fabko.Sat.Restarts

set_option autoImplicit false

/-! # The restart schedule in closed form

`solve_sat` tests for a restart before it looks for the next conflict. So while the thresholds are
positive it restarts at the very conflict that reaches the threshold, and the conflicts counted are
the thresholds passed so far and the count since: the restarts are few for the conflicts they took.
In 32 bits this stays so for as long as the number of conflicts has no reason to need more bits. -/

namespace Fabko.Sat

open Cnf Cdcl

variable {m : Model} {ctx ctx' : SolverContext} {mul : Nat → Nat → Nat} {f g : Frame}

/-! ## The thresholds -/

namespace Configuration

/-- The threshold after `k` restarts. -/
def thresholdAfter (mul : Nat → Nat → Nat) (conf : Configuration) (k : Nat) : Nat :=
  (fun t => mul t conf.restartMultiplier)^[k] conf.restartThreshold

/-- The conflicts that the first `k` restarts take. -/
def conflictsFor (mul : Nat → Nat → Nat) (conf : Configuration) (k : Nat) : Nat :=
  ∑ i ∈ Finset.range k, conf.thresholdAfter mul i

variable (conf : Configuration) (k : Nat)

theorem thresholdAfter_succ (mul : Nat → Nat → Nat) :
    conf.thresholdAfter mul (k + 1) = mul (conf.thresholdAfter mul k) conf.restartMultiplier :=
  Function.iterate_succ_apply' ..

theorem conflictsFor_succ (mul : Nat → Nat → Nat) :
    conf.conflictsFor mul (k + 1) = conf.conflictsFor mul k + conf.thresholdAfter mul k :=
  Finset.sum_range_succ ..

theorem conflictsFor_mono (mul : Nat → Nat → Nat) : Monotone (conf.conflictsFor mul) := by
  refine monotone_nat_of_le_succ (fun k => ?_)
  rw [conflictsFor_succ]
  exact Nat.le_add_right _ _

theorem thresholdAfter_mul :
    conf.thresholdAfter (fun a b => a * b) k = conf.restartThreshold * conf.restartMultiplier ^ k := by
  induction k with
  | zero => exact (Nat.mul_one _).symm
  | succ k ih => rw [thresholdAfter_succ, ih, Nat.mul_assoc, Nat.pow_succ]

/-- A threshold is the first one and `restart_multiplier - 1` for each conflict before. -/
theorem thresholdAfter_eq_add (hr : 1 ≤ conf.restartMultiplier) :
    conf.thresholdAfter (fun a b => a * b) k
      = conf.restartThreshold
        + (conf.restartMultiplier - 1) * conf.conflictsFor (fun a b => a * b) k := by
  induction k with
  | zero => rfl
  | succ k ih =>
      rw [thresholdAfter_succ, conflictsFor_succ, Nat.mul_add, ← Nat.add_assoc, ← ih]
      obtain ⟨n, hn⟩ : ∃ n, conf.restartMultiplier = n + 1 := ⟨_, (Nat.sub_add_cancel hr).symm⟩
      rw [hn, Nat.add_sub_cancel, Nat.mul_succ, Nat.mul_comm n, Nat.add_comm]

end Configuration

/-! ## What a step counts -/

/-- What the test for a restart reads, and the two counters of the statistics it is about. -/
structure Clock where
  config : Configuration
  count : Nat
  restarts : Nat
  conflicts : Nat

def SolverContext.clock (ctx : SolverContext) : Clock where
  config := ctx.config
  count := ctx.conflictCountSinceLastRestart
  restarts := ctx.statistics.restarts
  conflicts := ctx.statistics.conflicts

theorem clock_learn (ctx : SolverContext) (c : Clause) :
    (learnAdditionalClause ctx c).clock = ctx.clock := by
  unfold learnAdditionalClause
  split <;> rfl

/-- A step tests for a restart, counts a conflict or leaves the clock as it is. -/
theorem Step.clock (hm : m.WellFormed) (hs : Step mul f g) (hinv : Inv m f) :
    (f.point = .head ∧ g = ⟨.propagating, restartIfDue mul f.ctx⟩) ∨
    (f.point = .propagating ∧ ∃ id, g = ⟨.conflict id, countConflict f.ctx⟩) ∨
    (g.ctx.clock = f.ctx.clock ∧ (g.point = .propagating → f.point = .propagating)) := by
  cases hs with
  | restart => exact Or.inl ⟨rfl, rfl⟩
  | unit hid hp =>
      obtain ⟨u, -, rfl, -⟩ := forces_of_propagate hm (Good.linked hinv) hid hp
      exact Or.inr (Or.inr ⟨rfl, id⟩)
  | count n => exact Or.inr (Or.inr ⟨rfl, id⟩)
  | conflict hid hp => exact Or.inr (Or.inl ⟨rfl, _, rfl⟩)
  | quiet hp => exact Or.inr (Or.inr ⟨rfl, fun h => by cases h⟩)
  | learn hr hn => exact Or.inr (Or.inr ⟨clock_learn _ _, fun h => by cases h⟩)
  | activity hup =>
      obtain ⟨-, rfl⟩ := updateVsidsActivity_eq_some_iff.mp hup
      exact Or.inr (Or.inr ⟨rfl, fun h => by cases h⟩)
  | unsatisfiable | backtrack | decide | finish =>
      exact Or.inr (Or.inr ⟨rfl, fun h => by cases h⟩)

theorem conflicts_restartIfDue (mul : Nat → Nat → Nat) (ctx : SolverContext) :
    (restartIfDue mul ctx).statistics.conflicts = ctx.statistics.conflicts :=
  restartIfDue_induct mul ctx rfl rfl

/-- Conflicts are never forgotten. -/
theorem Step.conflicts_le (hm : m.WellFormed) (hs : Step mul f g) (hinv : Inv m f) :
    f.ctx.statistics.conflicts ≤ g.ctx.statistics.conflicts := by
  rcases hs.clock hm hinv with ⟨-, rfl⟩ | ⟨-, id, rfl⟩ | ⟨hclock, -⟩
  · exact le_of_eq (conflicts_restartIfDue mul f.ctx).symm
  · exact Nat.le_succ _
  · exact le_of_eq (congrArg Clock.conflicts hclock).symm

/-! ## The schedule -/

/-- The clock of a run that has followed the thresholds. -/
structure Clock.Scheduled (mul : Nat → Nat → Nat) (conf : Configuration) (c : Clock) : Prop where
  config : c.config = { conf with restartThreshold := conf.thresholdAfter mul c.restarts }
  conflicts : c.conflicts = conf.conflictsFor mul c.restarts + c.count
  count_le : c.count ≤ conf.thresholdAfter mul c.restarts

theorem Clock.Scheduled.threshold_eq {conf : Configuration} {c : Clock}
    (h : c.Scheduled mul conf) : c.config.restartThreshold = conf.thresholdAfter mul c.restarts := by
  rw [h.config]

/-- A restart is due at the conflict that reaches the threshold, not later. -/
theorem Clock.Scheduled.conflicts_of_due {conf : Configuration} {c : Clock}
    (h : c.Scheduled mul conf) (hdue : c.config.restartThreshold ≤ c.count) :
    c.conflicts = conf.conflictsFor mul (c.restarts + 1) := by
  rw [h.threshold_eq] at hdue
  rw [h.conflicts, Configuration.conflictsFor_succ, le_antisymm h.count_le hdue]

theorem Clock.Scheduled.restartIfDue {conf : Configuration} (h : ctx.clock.Scheduled mul conf) :
    (restartIfDue mul ctx).clock.Scheduled mul conf := by
  unfold Fabko.Sat.restartIfDue
  split
  · rename_i hdue
    refine ⟨?_, h.conflicts_of_due hdue, Nat.zero_le _⟩
    have hconf : ctx.config = _ := h.config
    show { ctx.config with
      restartThreshold := mul ctx.config.restartThreshold ctx.config.restartMultiplier } = _
    rw [hconf]
    exact congrArg (fun t => { conf with restartThreshold := t })
      (conf.thresholdAfter_succ ctx.statistics.restarts mul).symm
  · exact h

/-- While it propagates, the search is below the threshold. -/
def ScheduleInv (mul : Nat → Nat → Nat) (m : Model) (f : Frame) : Prop :=
  f.ctx.clock.Scheduled mul m.conf ∧
    (f.point = .propagating → f.ctx.clock.count < f.ctx.clock.config.restartThreshold)

theorem Clock.Scheduled.positiveThresholds (hp : PositiveThresholds mul m.conf)
    (h : ctx.clock.Scheduled mul m.conf) : PositiveThresholds mul ctx.config := by
  intro k
  have hconf : ctx.config = _ := h.config
  rw [hconf]
  show 1 ≤ (fun t => mul t m.conf.restartMultiplier)^[k] (m.conf.thresholdAfter mul _)
  rw [Configuration.thresholdAfter, ← Function.iterate_add_apply]
  exact hp _

theorem Step.scheduleInv (hm : m.WellFormed) (hp : PositiveThresholds mul m.conf)
    (hs : Step mul f g) (hinv : Inv m f) (h : ScheduleInv mul m f) : ScheduleInv mul m g := by
  obtain ⟨hsched, hbelow⟩ := h
  rcases hs.clock hm hinv with ⟨-, rfl⟩ | ⟨hpoint, id, rfl⟩ | ⟨hclock, hpoint⟩
  · exact ⟨hsched.restartIfDue,
      fun _ => count_lt_restartIfDue (positiveThresholds_restartIfDue
        (Clock.Scheduled.positiveThresholds hp hsched)).threshold⟩
  · have hlt := hbelow hpoint
    rw [hsched.threshold_eq] at hlt
    have hconf : f.ctx.statistics.conflicts = _ := hsched.conflicts
    refine ⟨⟨hsched.config, ?_, hlt⟩, fun h => by cases h⟩
    exact congrArg (· + 1) hconf
  · unfold ScheduleInv
    rw [hclock]
    exact ⟨hsched, fun h => hbelow (hpoint h)⟩

theorem scheduleInv_of_solverContext (h : solverContext m = .ok ctx) :
    ScheduleInv mul m ⟨.head, ctx⟩ := by
  have hf := fresh_of_solverContext h
  have hclock : ctx.clock = ⟨m.conf, 0, 0, 0⟩ := by
    unfold SolverContext.clock
    rw [statistics_of_solverContext h, hf.config, hf.conflictCount]
  refine ⟨?_, fun h => by cases h⟩
  show ctx.clock.Scheduled mul m.conf
  rw [hclock]
  exact ⟨rfl, rfl, Nat.zero_le _⟩

theorem Reachable.scheduleInv (hm : m.WellFormed) (hp : PositiveThresholds mul m.conf)
    (h : Reachable mul m f) : ScheduleInv mul m f := by
  obtain ⟨ctx, hctx, hs⟩ := h
  induction hs with
  | refl => exact scheduleInv_of_solverContext hctx
  | tail hrun hstep ih => exact hstep.scheduleInv hm hp (Reachable.inv hm ⟨ctx, hctx, hrun⟩) ih

/-- **The conflicts of a run determine its restarts**: at every point of every run the conflicts
counted are those of the restarts so far and the count since, which is at most the threshold in
force, and that is the one of the schedule. -/
theorem reachable_schedule (hm : m.WellFormed) (hp : PositiveThresholds mul m.conf)
    (h : Reachable mul m f) : f.ctx.clock.Scheduled mul m.conf :=
  (h.scheduleInv hm hp).1

theorem exists_counted {choose : Nat → Chooser} {fuel a b : Nat}
    (h : ((solverContext m).toOption.bind (search mul choose fuel 0)).map
      (fun p => (p.1.statistics.restarts, p.1.statistics.conflicts)) = some (a, b)) :
    ∃ ctx, Reachable mul m ⟨.head, ctx⟩ ∧ ctx.statistics.restarts = a ∧
      ctx.statistics.conflicts = b := by
  rcases hctx : solverContext m with e | ctx
  · rw [hctx] at h
    cases h
  · rw [hctx] at h
    obtain ⟨⟨ctx', r⟩, hs, heq⟩ := Option.map_eq_some_iff.mp h
    obtain ⟨ha, hb⟩ := Prod.mk.inj heq
    exact ⟨ctx', (Between.called (Between.constructed hctx) hs).reachable, ha, hb⟩

/-- Three conflicts, of which the first one is followed by a restart. -/
def trebling : Model :=
  { threeTraps with conf := { restartThreshold := 1, restartMultiplier := 3 } }

/-- The multiplier is odd, so the thresholds stay positive in 32 bits. -/
theorem reachable_schedule_trebling :
    ∃ ctx, Reachable mulUInt32 trebling ⟨.head, ctx⟩ ∧ ctx.statistics.restarts = 1 ∧
      ctx.statistics.conflicts = 3 ∧ ctx.clock.Scheduled mulUInt32 trebling.conf := by
  obtain ⟨ctx, hreach, hrestarts, hconflicts⟩ := @exists_counted trebling mulUInt32
    (fun _ => highestVsids) 20 1 3 (by decide +kernel)
  exact ⟨ctx, hreach, hrestarts, hconflicts, reachable_schedule (by decide)
    (positiveThresholds_of_odd (by decide) (by decide)) hreach⟩

/-! ## The schedule in 32 bits -/

/-- The first threshold and `restart_multiplier - 1` for each conflict counted. -/
def ScheduleFits (conf : Configuration) (ctx : SolverContext) : Prop :=
  conf.restartThreshold + (conf.restartMultiplier - 1) * ctx.statistics.conflicts < 2 ^ 32

theorem ScheduleFits.of_le {conf : Configuration} (h : ScheduleFits conf ctx')
    (hle : ctx.statistics.conflicts ≤ ctx'.statistics.conflicts) : ScheduleFits conf ctx := by
  have hmul := Nat.mul_le_mul_left (conf.restartMultiplier - 1) hle
  unfold ScheduleFits at h ⊢
  omega

theorem restartIfDue_uint32 {conf : Configuration} (hr : 1 ≤ conf.restartMultiplier)
    (h : ctx.clock.Scheduled (fun a b => a * b) conf) (hfits : ScheduleFits conf ctx) :
    restartIfDue mulUInt32 ctx = restartIfDue (fun a b => a * b) ctx := by
  unfold restartIfDue
  split
  · rename_i hdue
    apply restart_congr
    apply Nat.mod_eq_of_lt
    -- the product is the next threshold, which the conflicts have paid for
    have hconflicts : ctx.statistics.conflicts = _ := h.conflicts_of_due hdue
    have hconf : ctx.config = _ := h.config
    rw [ScheduleFits, hconflicts, ← conf.thresholdAfter_eq_add _ hr,
      Configuration.thresholdAfter_succ] at hfits
    rw [hconf]
    exact hfits
  · rfl

/-- A step multiplies in the test for a restart only. -/
theorem Step.congr {mul' : Nat → Nat → Nat} (hs : Step mul f g)
    (hrestart : restartIfDue mul f.ctx = restartIfDue mul' f.ctx) : Step mul' f g := by
  cases hs with
  | @restart ctx =>
      rw [show restartIfDue mul ctx = restartIfDue mul' ctx from hrestart]
      exact .restart
  | unit hid hp => exact .unit hid hp
  | count n => exact .count n
  | conflict hid hp => exact .conflict hid hp
  | quiet hp => exact .quiet hp
  | unsatisfiable hr => exact .unsatisfiable hr
  | learn hr hn => exact .learn hr hn
  | backtrack => exact .backtrack
  | activity hup => exact .activity hup
  | decide hv => exact .decide hv
  | finish hv => exact .finish hv

section Uint32

variable (hm : m.WellFormed) (ht : 1 ≤ m.conf.restartThreshold)
  (hr : 1 ≤ m.conf.restartMultiplier)
include hm ht hr

/-- What the 32-bit solver reaches with few conflicts, the unbounded one reaches. -/
theorem Reachable.of_uint32 (h : Reachable mulUInt32 m f) (hfits : ScheduleFits m.conf f.ctx) :
    Reachable (fun a b => a * b) m f := by
  obtain ⟨ctx, hctx, hs⟩ := h
  induction hs with
  | refl => exact ⟨ctx, hctx, Relation.ReflTransGen.refl⟩
  | tail hrun hstep ih =>
      have hinv := Reachable.inv hm ⟨ctx, hctx, hrun⟩
      have hfits' := hfits.of_le (hstep.conflicts_le hm hinv)
      have hreach := ih hfits'
      have hsched := (hreach.scheduleInv hm (positiveThresholds_of_pos ht hr)).1
      exact hreach.tail (hstep.congr (restartIfDue_uint32 hr hsched hfits'))

/-- **The 32-bit schedule is the exact one** while the first threshold and `restart_multiplier - 1`
for each conflict fit in 32 bits, whatever the model: such a run is one of the unbounded solver, the
threshold is the first one times a power of the multiplier, it and the count since the last restart
make up that sum, and so the restarts are bounded by the conflicts. -/
theorem reachable_uint32 (h : Reachable mulUInt32 m f) (hfits : ScheduleFits m.conf f.ctx) :
    Reachable (fun a b => a * b) m f ∧
      f.ctx.config.restartThreshold
        = m.conf.restartThreshold * m.conf.restartMultiplier ^ f.ctx.statistics.restarts ∧
      m.conf.restartThreshold + (m.conf.restartMultiplier - 1) * f.ctx.statistics.conflicts
        = f.ctx.config.restartThreshold
          + (m.conf.restartMultiplier - 1) * f.ctx.conflictCountSinceLastRestart ∧
      f.ctx.conflictCountSinceLastRestart ≤ f.ctx.config.restartThreshold ∧
      m.conf.restartThreshold * m.conf.restartMultiplier ^ f.ctx.statistics.restarts
        ≤ m.conf.restartThreshold + (m.conf.restartMultiplier - 1) * f.ctx.statistics.conflicts := by
  have hreach := h.of_uint32 hm ht hr hfits
  have hsched := (hreach.scheduleInv hm (positiveThresholds_of_pos ht hr)).1
  have hthreshold : f.ctx.config.restartThreshold = _ := hsched.threshold_eq
  have hconflicts : f.ctx.statistics.conflicts = _ := hsched.conflicts
  have hpower : f.ctx.config.restartThreshold
      = m.conf.restartThreshold * m.conf.restartMultiplier ^ f.ctx.statistics.restarts := by
    rw [hthreshold, Configuration.thresholdAfter_mul]
    rfl
  have hsum : m.conf.restartThreshold + (m.conf.restartMultiplier - 1) * f.ctx.statistics.conflicts
      = f.ctx.config.restartThreshold
        + (m.conf.restartMultiplier - 1) * f.ctx.conflictCountSinceLastRestart := by
    rw [hconflicts, hthreshold, Configuration.thresholdAfter_eq_add _ _ hr, Nat.mul_add,
      Nat.add_assoc]
    rfl
  refine ⟨hreach, hpower, hsum, ?_, ?_⟩
  · rw [hthreshold]
    exact hsched.count_le
  · rw [hsum, ← hpower]
    exact Nat.le_add_right _ _

/-- The first conflict is followed by a restart. -/
def restarting : Model := { threeSigns with conf := { restartThreshold := 1 } }

omit hm ht hr in
theorem reachable_uint32_restarting :
    ∃ ctx, Reachable mulUInt32 restarting ⟨.head, ctx⟩ ∧ ctx.statistics.restarts = 1 ∧
      Reachable (fun a b => a * b) restarting ⟨.head, ctx⟩ ∧ ctx.config.restartThreshold = 2 := by
  obtain ⟨ctx, hreach, hrestarts, hconflicts⟩ := @exists_counted restarting mulUInt32
    (fun _ => highestVsids) 9 1 1 (by decide +kernel)
  have hfits : ScheduleFits restarting.conf ctx := by
    rw [ScheduleFits, hconflicts]
    decide
  obtain ⟨hexact, hthreshold, -⟩ :=
    reachable_uint32 (by decide) (by decide) (by decide) hreach hfits
  refine ⟨ctx, hreach, hrestarts, hexact, ?_⟩
  rw [show ctx.config.restartThreshold = _ from hthreshold, hrestarts]
  rfl

/-- While its conflicts are few, the 32-bit search is the unbounded one. -/
theorem search_eq_of_fits (h : Reachable mulUInt32 m ⟨.head, ctx⟩) {choose : Nat → Chooser}
    {fuel : Nat} (hfits : ∀ k < fuel, ∀ c, CallHead mulUInt32 choose ctx k c →
      ScheduleFits m.conf c) :
    search mulUInt32 choose fuel 0 ctx = search (fun a b => a * b) choose fuel 0 ctx := by
  rw [search_eq_run, search_eq_run]
  refine Loop.run_congr (fun k hk c hc => iteration_congr ?_ (choose k))
  have hreach := (h.trans (CallHead.steps hc)).of_uint32 hm ht hr (hfits k hk c hc)
  exact restartIfDue_uint32 hr (hreach.scheduleInv hm (positiveThresholds_of_pos ht hr)).1
    (hfits k hk c hc)

/-- **The 32-bit solver answers or counts billions of conflicts**: between any two calls and for
every choice, the next call answers within the bound for the number of variables, and correctly, or
one of these iterations starts where the schedule may not fit in 32 bits. A `decay_interval` of 0 is
left out: it ends the program at the first clause that is learned. -/
theorem search_uint32_unless (hne : m.literals ≠ []) (hd : m.conf.interval ≠ 0)
    (hb : Between mulUInt32 m ctx) (choose : Nat → Chooser) :
    (∃ ctx' r, search mulUInt32 choose (iterationBound m.literals.length) 0 ctx = some (ctx', r) ∧
      Correct m r) ∨
    ∃ k < iterationBound m.literals.length, ∃ c, CallHead mulUInt32 choose ctx k c ∧
      ¬ ScheduleFits m.conf c := by
  by_cases hmany : ∃ k < iterationBound m.literals.length, ∃ c,
      CallHead mulUInt32 choose ctx k c ∧ ¬ ScheduleFits m.conf c
  · exact Or.inr hmany
  · left
    have hfits : ∀ k < iterationBound m.literals.length, ∀ c,
        CallHead mulUInt32 choose ctx k c → ScheduleFits m.conf c := by
      intro k hk c hc
      by_contra hnot
      exact hmany ⟨k, hk, c, hc, hnot⟩
    have hpos := positiveThresholds_of_pos ht hr
    have hreach := hb.reachable.of_uint32 hm ht hr
      (hfits 0 (iterationBound_pos m.literals.length) ctx .start)
    have hsched := (hreach.scheduleInv hm hpos).1
    have hconf : ctx.config = _ := hsched.config
    have hrun : Running (fun a b => a * b) m ctx :=
      ⟨hreach.inv hm, hsched.positiveThresholds hpos, by rw [hconf]; exact hd⟩
    obtain ⟨ctx', r, hs⟩ := hrun.search_isSome_of_bound hm hne choose
    rw [← search_eq_of_fits hm ht hr hb.reachable hfits] at hs
    exact ⟨ctx', r, hs, search_correct hm hb hs⟩

end Uint32

theorem search_uint32_unless_restarting :
    ∃ ctx, solverContext restarting = .ok ctx ∧
      ((∃ ctx' r, solveSat (iterationBound 2) ctx = some (ctx', r) ∧ Correct restarting r) ∨
        ∃ k < iterationBound 2, ∃ c, CallHead mulUInt32 (fun _ => highestVsids) ctx k c ∧
          ¬ ScheduleFits restarting.conf c) := by
  have hm : restarting.WellFormed := by decide
  obtain ⟨ctx, hctx⟩ := solverContext_isOk hm
  exact ⟨ctx, hctx, search_uint32_unless hm (by decide) (by decide) (by decide) (by decide)
    (Between.constructed hctx) (fun _ => highestVsids)⟩

end Fabko.Sat
