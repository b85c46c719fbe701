import Fabko.Sat.Trace
import Fabko.Sat.Enumeration

set_option autoImplicit false

/-! # Statistics

`Statistics.record` says what one event is worth. The counters of a context are those of the events
so far, but for two: no function of the solver writes `backtracks`, and `unit_propagation` leaves
its loop before it counts the pass a conflict ends. -/

namespace Fabko.Sat

open Cnf Cdcl

/-! ## Counting events -/

def Statistics.record (s : Statistics) : Event → Statistics
  | .restart _ _ => { s with restarts := s.restarts + 1 }
  | .backtrack l =>
      { s with backtracks := s.backtracks + 1, maxDecisionLvl := max s.maxDecisionLvl l }
  | .assign _ => { s with propagations := s.propagations + 1 }
  | .conflict _ => { s with conflicts := s.conflicts + 1 }
  | .learn _ => { s with learnedClause := s.learnedClause + 1 }
  | .decide _ l => { s with decisions := s.decisions + 1, maxDecisionLvl := max s.maxDecisionLvl l }
  | .iteration | .pass | .returned => s

/-- The statistics that count every event. -/
def tally (es : List Event) : Statistics := es.foldl Statistics.record {}

theorem tally_append (es fs : List Event) :
    tally (es ++ fs) = fs.foldl Statistics.record (tally es) :=
  List.foldl_append ..

theorem foldl_record (s : Statistics) (es : List Event) :
    (es.foldl Statistics.record s).restarts = s.restarts + es.countP Event.isRestart ∧
    (es.foldl Statistics.record s).conflicts = s.conflicts + es.countP Event.isConflict ∧
    (es.foldl Statistics.record s).backtracks = s.backtracks + es.countP Event.isBacktrack ∧
    (es.foldl Statistics.record s).learnedClause
      = s.learnedClause + es.countP Event.isLearn := by
  induction es generalizing s with
  | nil => exact ⟨rfl, rfl, rfl, rfl⟩
  | cons e es ih =>
      obtain ⟨hr, hc, hb, hl⟩ := ih (s.record e)
      rw [List.foldl_cons, hr, hc, hb, hl]
      simp only [List.countP_cons]
      cases e <;>
        simp [Statistics.record, Event.isRestart, Event.isConflict, Event.isBacktrack,
          Event.isLearn, Nat.add_left_comm, Nat.add_comm]

/-- The variables assigned in passes that end in a conflict; `k` is how many the current pass has
assigned. -/
def uncounted : Nat → List Event → Nat
  | _, [] => 0
  | k, .assign _ :: es => uncounted (k + 1) es
  | k, .conflict _ :: es => k + uncounted 0 es
  | _, _ :: es => uncounted 0 es

theorem uncounted_map_assign (k : Nat) (vs : List VarId) (es : List Event) :
    uncounted k (vs.map .assign ++ es) = uncounted (k + vs.length) es := by
  induction vs generalizing k with
  | nil => rfl
  | cons v vs ih =>
      rw [List.map_cons, List.cons_append, uncounted, ih, List.length_cons]
      congr 1
      omega

/-- A new iteration starts with nothing assigned. -/
theorem uncounted_append_iteration (k : Nat) (es fs : List Event) :
    uncounted k (es ++ .iteration :: fs) = uncounted k es + uncounted 0 (.iteration :: fs) := by
  induction es generalizing k with
  | nil => simp [uncounted]
  | cons e es ih =>
      cases e <;> simp only [List.cons_append, uncounted, ih, Nat.add_assoc]

/-- A conflict right after an assignment of the same pass. -/
def Interrupted (es : List Event) : Prop :=
  ∃ v id, [Event.assign v, Event.conflict id] <:+: es

theorem interrupted_cons {e : Event} {es : List Event} :
    Interrupted (e :: es) ↔
      (∃ v id, [Event.assign v, Event.conflict id] <+: e :: es) ∨ Interrupted es := by
  simp only [Interrupted, List.infix_cons_iff, exists_or]

theorem uncounted_eq_zero_iff {k : Nat} {es : List Event} :
    uncounted k es = 0 ↔ ¬ Interrupted es ∧ (k = 0 ∨ ∀ id, ¬ [Event.conflict id] <+: es) := by
  induction es generalizing k with
  | nil => simp [uncounted, Interrupted]
  | cons e es ih =>
      cases e <;> simp [uncounted, interrupted_cons, ih, List.cons_prefix_cons, and_comm]

/-! ## Propagation -/

/-- The variables a pass assigns are the new end of the trail, as many as it has counted. -/
theorem propagatePass_trail (ctx : SolverContext) :
    ∃ vs, (propagatePass ctx).ctx.trail = ctx.trail ++ vs ∧
      vs.length = (propagatePass ctx).count ∧
      (propagatePass ctx).ctx.statistics = ctx.statistics := by
  refine @foldl_propagate_induct (fun c n => ∃ vs, c.trail = ctx.trail ++ vs ∧ vs.length = n ∧
    c.statistics = ctx.statistics) ?_ _ ctx 0 ⟨[], (List.append_nil _).symm, rfl, rfl⟩
  rintro c n id u ⟨vs, htrail, hlen, hstat⟩ - - -
  refine ⟨vs ++ [u.2], ?_, ?_, hstat⟩
  · show c.trail ++ [u.2] = _
    rw [htrail, List.append_assoc]
  · simp [hlen]

theorem passEvents_eq (ctx : SolverContext) :
    ∃ vs : List VarId, vs.length = (propagatePass ctx).count ∧
      passEvents ctx = .pass :: vs.map .assign
        ++ ((propagatePass ctx).conflict.map Event.conflict).toList := by
  obtain ⟨vs, htrail, hlen, -⟩ := propagatePass_trail ctx
  refine ⟨vs, hlen, ?_⟩
  rw [passEvents, htrail, List.drop_left]

def Statistics.propagated (s : Statistics) (n : Nat) : Statistics :=
  { s with propagations := s.propagations + n }

theorem Statistics.propagated_propagated (s : Statistics) (n k : Nat) :
    (s.propagated n).propagated k = s.propagated (n + k) := by
  simp [propagated, Nat.add_assoc]

theorem foldl_record_assign (s : Statistics) (vs : List VarId) :
    (vs.map Event.assign).foldl Statistics.record s = s.propagated vs.length := by
  induction vs generalizing s with
  | nil => rfl
  | cons v vs ih =>
      rw [List.map_cons, List.foldl_cons, ih]
      simp [Statistics.record, Statistics.propagated, Nat.add_assoc, Nat.add_comm 1]

/-- The conflict an iteration counts. -/
def Statistics.conflicted (s : Statistics) : Option ClauseId → Statistics
  | none => s
  | some _ => { s with conflicts := s.conflicts + 1 }

/-- What propagation adds to the statistics, `counted`, and what it assigns besides, `lost`. -/
structure PropagationCount (ctx c : SolverContext) (o : Option ClauseId) (es : List Event)
    (counted lost : Nat) : Prop where
  statistics : c.statistics = ctx.statistics.propagated counted
  record : ∀ s : Statistics,
    es.foldl Statistics.record s = (s.propagated (counted + lost)).conflicted o
  uncounted : ∀ k fs, Sat.uncounted k (es ++ fs) = lost + Sat.uncounted 0 fs

theorem passEvents_record (ctx : SolverContext) (s : Statistics) :
    (passEvents ctx).foldl Statistics.record s
      = (s.propagated (propagatePass ctx).count).conflicted (propagatePass ctx).conflict := by
  obtain ⟨vs, hlen, heq⟩ := passEvents_eq ctx
  rw [heq, List.foldl_append, List.foldl_cons, foldl_record_assign, hlen]
  cases (propagatePass ctx).conflict <;> rfl

theorem passEvents_uncounted (ctx : SolverContext) (k : Nat) (fs : List Event) :
    uncounted k (passEvents ctx ++ fs) =
      match (propagatePass ctx).conflict with
      | none => uncounted (propagatePass ctx).count fs
      | some _ => (propagatePass ctx).count + uncounted 0 fs := by
  obtain ⟨vs, hlen, heq⟩ := passEvents_eq ctx
  rw [heq, List.append_assoc, List.cons_append]
  cases (propagatePass ctx).conflict <;>
    simp [uncounted, uncounted_map_assign, hlen]

/-- The last pass: it assigns nothing, or a conflict ends it. -/
theorem propagationCount_last {ctx : SolverContext}
    (h : (propagatePass ctx).conflict = none → (propagatePass ctx).count = 0) :
    PropagationCount ctx (propagatePass ctx).ctx (propagatePass ctx).conflict (passEvents ctx)
      0 (propagatePass ctx).count := by
  obtain ⟨-, -, -, hstat⟩ := propagatePass_trail ctx
  refine ⟨hstat, fun s => ?_, fun k fs => ?_⟩
  · rw [passEvents_record, Nat.zero_add]
  · rw [passEvents_uncounted]
    rcases hc : (propagatePass ctx).conflict with _ | id
    · simp [h hc]
    · rfl

/-- A pass that is repeated is counted. -/
theorem PropagationCount.repeated {ctx c : SolverContext} {o : Option ClauseId} {es : List Event}
    {counted lost : Nat} (hc : (propagatePass ctx).conflict = none)
    (h : PropagationCount (countPropagations (propagatePass ctx).ctx (propagatePass ctx).count) c o
      es counted lost) :
    PropagationCount ctx c o (passEvents ctx ++ es) ((propagatePass ctx).count + counted) lost := by
  obtain ⟨-, -, -, hstat⟩ := propagatePass_trail ctx
  refine ⟨?_, fun s => ?_, fun k fs => ?_⟩
  · calc c.statistics
        = ((propagatePass ctx).ctx.statistics.propagated _).propagated counted := h.statistics
      _ = ctx.statistics.propagated ((propagatePass ctx).count + counted) := by
          rw [hstat, Statistics.propagated_propagated]
  · rw [List.foldl_append, passEvents_record, hc, h.record]
    rw [Statistics.conflicted, Statistics.propagated_propagated, Nat.add_assoc]
  · rw [List.append_assoc, passEvents_uncounted, hc]
    exact h.uncounted _ fs

theorem propagationEvents_count {fuel : Nat} {ctx c : SolverContext} {o : Option ClauseId}
    (h : unitPropagationLoop fuel ctx = some (c, o)) :
    ∃ counted lost, PropagationCount ctx c o (propagationEvents fuel ctx) counted lost := by
  induction fuel generalizing ctx with
  | zero => cases h
  | succ fuel ih =>
      unfold unitPropagationLoop at h
      unfold propagationEvents
      dsimp only at h ⊢
      by_cases hzero : (propagatePass ctx).count = 0
      · rw [if_pos hzero, Option.some.injEq, Prod.mk.injEq] at h
        obtain ⟨rfl, rfl⟩ := h
        rw [if_pos hzero, List.append_nil]
        exact ⟨_, _, propagationCount_last (fun _ => hzero)⟩
      · rw [if_neg hzero] at h ⊢
        rcases hc : (propagatePass ctx).conflict with _ | id
        · rw [hc] at h
          obtain ⟨counted, lost, hcount⟩ := ih h
          exact ⟨_, _, hcount.repeated hc⟩
        · rw [hc] at h
          simp only [Option.isSome_some, if_true, Option.some.injEq, Prod.mk.injEq] at h
          obtain ⟨rfl, rfl⟩ := h
          have hlast := @propagationCount_last ctx (fun hn => by rw [hc] at hn; cases hn)
          rw [hc] at hlast
          exact ⟨_, _, by simpa using hlast⟩

/-! ## Runs -/

/-- The statistics with `p` more propagations and `b` backtracks. -/
def Statistics.owed (s : Statistics) (p b : Nat) : Statistics :=
  { s with propagations := s.propagations + p, backtracks := b }

/-- The counters of a context against its events. -/
structure Shortfall (ctx : SolverContext) (es : List Event) : Prop where
  events : ∃ b, tally es = ctx.statistics.owed (uncounted 0 es) b
  backtracks : ctx.statistics.backtracks = 0
  current : ctx.currentDecisionLevel ≤ ctx.statistics.maxDecisionLvl

theorem statistics_of_solverContext {m : Model} {ctx : SolverContext}
    (h : solverContext m = .ok ctx) : ctx.statistics = {} := by
  unfold solverContext at h
  split at h
  · cases h
  · cases h
    rfl

theorem Shortfall.fresh {m : Model} {ctx : SolverContext} (h : solverContext m = .ok ctx) :
    Shortfall ctx [] := by
  refine ⟨⟨0, ?_⟩, ?_, ?_⟩
  · rw [statistics_of_solverContext h]
    rfl
  · rw [statistics_of_solverContext h]
  · rw [(fresh_of_solverContext h).level]
    exact Nat.zero_le _

section Step

variable {mul : Nat → Nat → Nat} {ctx c ctx' : SolverContext} {es : List Event}

theorem uncounted_iteration_restartEvents (mul : Nat → Nat → Nat) (ctx : SolverContext) (k : Nat)
    (fs : List Event) : uncounted k (.iteration :: restartEvents mul ctx ++ fs) = uncounted 0 fs := by
  unfold restartEvents
  split <;> rfl

theorem uncounted_append_restart (mul : Nat → Nat → Nat) (ctx : SolverContext)
    (es : List Event) :
    uncounted 0 (es ++ .iteration :: restartEvents mul ctx) = uncounted 0 es := by
  have hnone := uncounted_iteration_restartEvents mul ctx 0 []
  rw [List.append_nil] at hnone
  rw [uncounted_append_iteration, hnone]
  rfl

/-- The test for a restart. -/
theorem Shortfall.restartIfDue (h : Shortfall ctx es) (mul : Nat → Nat → Nat) :
    Shortfall (restartIfDue mul ctx) (es ++ .iteration :: restartEvents mul ctx) := by
  obtain ⟨b, hevents⟩ := h.events
  refine ⟨?_, ?_, ?_⟩
  · rw [tally_append, hevents, uncounted_append_restart]
    unfold restartEvents Fabko.Sat.restartIfDue
    split
    · refine ⟨b + 1, ?_⟩
      simp [Statistics.record, Statistics.owed, Fabko.Sat.restart, backtrack]
    · exact ⟨b, rfl⟩
  · exact restartIfDue_induct mul ctx h.backtracks h.backtracks
  · exact restartIfDue_induct mul ctx (Nat.zero_le _) h.current

/-- Propagation, and what follows it in the iteration. -/
theorem Shortfall.propagated {o : Option ClauseId} {tail : List Event} (h : Shortfall ctx es)
    (hup : unitPropagation (Fabko.Sat.restartIfDue mul ctx) = some (c, o))
    (hnone : uncounted 0 tail = 0)
    (hrecord : c.currentDecisionLevel ≤ c.statistics.maxDecisionLvl → ∀ p b, ∃ b',
      tail.foldl Statistics.record ((c.statistics.conflicted o).owed p b)
        = ctx'.statistics.owed p b')
    (hback : c.statistics.backtracks = 0 → ctx'.statistics.backtracks = 0)
    (hcurrent : c.currentDecisionLevel ≤ c.statistics.maxDecisionLvl →
      ctx'.currentDecisionLevel ≤ ctx'.statistics.maxDecisionLvl) :
    Shortfall ctx' (es ++ (.iteration :: restartEvents mul ctx
      ++ propagationEvents ((Fabko.Sat.restartIfDue mul ctx).vars.length + 1)
        (Fabko.Sat.restartIfDue mul ctx) ++ tail)) := by
  obtain ⟨counted, lost, hc⟩ := propagationEvents_count hup
  have hs := h.restartIfDue mul
  obtain ⟨b, hevents⟩ := hs.events
  have hsame := (@unitPropagation_spec mul _ _ _ hup).2
  have hlost : uncounted 0 (es ++ (.iteration :: restartEvents mul ctx
      ++ propagationEvents ((Fabko.Sat.restartIfDue mul ctx).vars.length + 1)
        (Fabko.Sat.restartIfDue mul ctx) ++ tail)) = uncounted 0 es + lost :=
    calc _ = uncounted 0 es + uncounted 0 (.iteration :: restartEvents mul ctx ++ _) := by
          rw [List.append_assoc, List.cons_append, uncounted_append_iteration]
      _ = uncounted 0 es + uncounted 0 (_ ++ tail) := by
          rw [uncounted_iteration_restartEvents]
      _ = uncounted 0 es + lost := by
          rw [hc.uncounted, hnone, Nat.add_zero]
  have hlevel : c.currentDecisionLevel ≤ c.statistics.maxDecisionLvl := by
    rw [hsame.current, hc.statistics]
    exact hs.current
  refine ⟨?_, hback ?_, hcurrent hlevel⟩
  · rw [uncounted_append_restart] at hevents
    have hconf : ((Fabko.Sat.restartIfDue mul ctx).statistics.owed (uncounted 0 es) b
          |>.propagated (counted + lost)).conflicted o
        = (c.statistics.conflicted o).owed (uncounted 0 es + lost) b := by
      rw [hc.statistics]
      cases o <;> simp [Statistics.conflicted, Statistics.owed, Statistics.propagated] <;> omega
    rw [hlost, ← List.append_assoc, ← List.append_assoc, tally_append, tally_append, hevents,
      hc.record, hconf]
    exact hrecord hlevel _ b
  · rw [hc.statistics]
    exact hs.backtracks

theorem statistics_afterConflict {r : ConflictResolutionResult} (h : r.learnedClause ≠ []) :
    (afterConflict ctx r).statistics
      = { ctx.statistics with learnedClause := ctx.statistics.learnedClause + 1 } := by
  show (learnAdditionalClause ctx r.learnedClause).statistics = _
  simp [learnAdditionalClause, h]

/-- **The step lemma**: an iteration leaves the counters short by what its events are. -/
theorem Shortfall.iteration {m : Model} (hm : m.WellFormed) (hg : Good m ctx)
    (h : Shortfall ctx es) {choose : Chooser} {out : Option (Except SatError SolverResult)}
    (hit : iteration mul choose ctx = some (ctx', out)) :
    Shortfall ctx' (es ++ iterationEvents mul choose ctx) := by
  obtain ⟨tail, hout, htail⟩ := exists_outcome hit
  rw [htail]
  cases hout with
  | unsatisfiable hup hr => exact h.propagated hup rfl (fun _ p b => ⟨b, rfl⟩) id id
  | @learned c id r hup hr hn =>
      -- the level it backtracks to is below one that was reached
      have hconf : Conflict m (countConflict c) id := Steps.inv hm (steps_of_unitPropagation hup) hg
      have hlt : r.backtrackLevel < c.currentDecisionLevel := by
        subst hr
        exact (hconf.origin hm hn).backtrackLevel_lt
      have hstat := @statistics_afterConflict (countConflict c) r (not_or.mp hn).2
      refine h.propagated hup rfl (fun hlevel p b => ⟨b + 1, ?_⟩) ?_ ?_
      · have hmax : max c.statistics.maxDecisionLvl r.backtrackLevel
            = c.statistics.maxDecisionLvl := by omega
        rw [hstat]
        simp [Statistics.record, Statistics.owed, Statistics.conflicted, countConflict, hmax]
      · rw [hstat]
        exact fun hz => hz
      · rw [hstat]
        exact fun hlevel => le_trans (le_of_lt hlt) hlevel
  | decided hup hv => exact h.propagated hup rfl (fun _ p b => ⟨b, rfl⟩) id (fun _ => le_max_right _ _)
  | solved hup => exact h.propagated hup rfl (fun _ p b => ⟨b, rfl⟩) id id
  | unsolved hup => exact h.propagated hup rfl (fun _ p b => ⟨b, rfl⟩) id id

end Step

/-- **The run lemma.** -/
theorem Run.shortfall {m : Model} (hm : m.WellFormed) {mul : Nat → Nat → Nat}
    {init ctx : SolverContext} (hinit : solverContext m = .ok init) {es : List Event}
    (h : Run mul init ctx es) : Shortfall ctx es := by
  induction h with
  | nil => exact Shortfall.fresh hinit
  | iteration hrun hit ih =>
      have hg : Good m _ := Steps.inv hm hrun.steps (good_of_solverContext hinit)
      exact ih.iteration hm hg hit

theorem countP_isLearn_propagationEvents {fuel : Nat} {ctx c : SolverContext} {o : Option ClauseId}
    (h : unitPropagationLoop fuel ctx = some (c, o)) :
    (propagationEvents fuel ctx).countP Event.isLearn = 0 := by
  obtain ⟨counted, lost, hc⟩ := propagationEvents_count h
  have hlearned := (foldl_record {} (propagationEvents fuel ctx)).2.2.2
  rw [hc.record {}, Nat.zero_add] at hlearned
  rw [← hlearned]
  cases o <;> rfl

/-- Each learned clause is one more in `clauses_soa_`. -/
theorem Run.length_clauses {mul : Nat → Nat → Nat} {init ctx : SolverContext} {es : List Event}
    (h : Run mul init ctx es) :
    ctx.clauses.length = init.clauses.length + es.countP Event.isLearn := by
  induction h with
  | nil => rfl
  | @iteration ctx ctx' es choose out hrun hit ih =>
      obtain ⟨tail, hout, htail⟩ := exists_outcome hit
      have hstart : (.iteration :: restartEvents mul ctx : List Event).countP Event.isLearn = 0 := by
        unfold restartEvents
        split <;> rfl
      have hgrown : ∀ {c o}, unitPropagation (restartIfDue mul ctx) = some (c, o) →
          init.clauses.length + (es ++ iterationEvents mul choose ctx).countP Event.isLearn
            = c.clauses.length + tail.countP Event.isLearn := by
        intro c o hup
        rw [htail, List.countP_append, List.countP_append, List.countP_append, hstart,
          countP_isLearn_propagationEvents hup, clauses_of_unitPropagation hup, ih]
        omega
      cases hout with
      | unsatisfiable hup hr => exact (hgrown hup).symm
      | @learned c id r hup hr hn =>
          rw [hgrown hup]
          show (learnAdditionalClause (countConflict c) r.learnedClause).clauses.length = _
          simp [learnAdditionalClause, (not_or.mp hn).2, countConflict]
          rfl
      | decided hup hv => exact (hgrown hup).symm
      | solved hup => exact (hgrown hup).symm
      | unsolved hup => exact (hgrown hup).symm

/-! ## When the statistics are right -/

theorem countP_isBacktrack_eq_zero {es : List Event} :
    es.countP Event.isBacktrack = 0 ↔ ∀ l, Event.backtrack l ∉ es := by
  rw [List.countP_eq_zero]
  constructor
  · intro h l hl
    exact h _ hl rfl
  · intro h e he hb
    cases e with
    | backtrack l => exact h l he
    | _ => cases hb

/-- **The statistics of a run** are those of its events exactly when it never backtracks and no
pass assigns a variable before a conflict ends it. -/
theorem statistics_eq_tally_iff {m : Model} (hm : m.WellFormed) {mul : Nat → Nat → Nat}
    {init ctx : SolverContext} (hinit : solverContext m = .ok init) {es : List Event}
    (h : Run mul init ctx es) :
    ctx.statistics = tally es ↔ (∀ l, Event.backtrack l ∉ es) ∧ ¬ Interrupted es := by
  have hs := h.shortfall hm hinit
  obtain ⟨b, hevents⟩ := hs.events
  have hb : b = es.countP Event.isBacktrack :=
    calc b = (tally es).backtracks := by rw [hevents, Statistics.owed]
      _ = 0 + es.countP Event.isBacktrack := (foldl_record {} es).2.2.1
      _ = es.countP Event.isBacktrack := Nat.zero_add _
  have hzero : uncounted 0 es = 0 ↔ ¬ Interrupted es := by
    rw [uncounted_eq_zero_iff]
    simp
  rw [← countP_isBacktrack_eq_zero, ← hzero, ← hb, hevents]
  constructor
  · intro heq
    have hp := congrArg Statistics.propagations heq
    have hk := congrArg Statistics.backtracks heq
    simp only [Statistics.owed, hs.backtracks] at hp hk
    omega
  · rintro ⟨rfl, hp⟩
    rw [hp, Statistics.owed, Nat.add_zero, ← hs.backtracks]

/-- Both variables are forced on, against the first clause. -/
def bothForced : Model where
  literals := [⟨1⟩, ⟨2⟩]
  clauses := [[⟨-1⟩, ⟨-2⟩], [⟨1⟩], [⟨2⟩]]

/-- The conflict comes in a pass of its own. -/
theorem statistics_eq_tally_iff_bothForced :
    ∃ init ctx, solverContext bothForced = .ok init ∧
      Run mulUInt32 init ctx [.iteration, .pass, .assign 0, .assign 1, .pass, .conflict 0,
        .returned] ∧
      ctx.statistics = { propagations := 2, conflicts := 1 } := by
  obtain ⟨init, ctx, es, hinit, hrun, hes⟩ := @exists_run mulUInt32 bothForced highestVsids 1
    (fun _ es => es = [.iteration, .pass, .assign 0, .assign 1, .pass, .conflict 0, .returned]) _
    (by decide +kernel)
  subst hes
  refine ⟨init, ctx, hinit, hrun, ?_⟩
  refine ((statistics_eq_tally_iff (by decide) hinit hrun).mpr ⟨by simp, ?_⟩).trans rfl
  exact (uncounted_eq_zero_iff.mp (show uncounted 0 _ = 0 from rfl)).1

/-- The first call on `threeSigns` meets a conflict in a pass that has assigned a variable, learns
a clause and backtracks: two propagations of three are counted, and no backtrack. -/
theorem statistics_ne_tally_threeSigns :
    threeSigns.WellFormed ∧ ∃ init ctx es, solverContext threeSigns = .ok init ∧
      Run mulUInt32 init ctx es ∧ .returned ∈ es ∧ ctx.statistics ≠ tally es := by
  obtain ⟨init, ctx, es, hinit, hrun, hreturned, hne⟩ := @exists_run mulUInt32 threeSigns
    highestVsids 3 (fun ctx es => .returned ∈ es ∧ ctx.statistics ≠ tally es) _
    (by decide +kernel)
  exact ⟨by decide, init, ctx, es, hinit, hrun, hreturned, hne⟩

end Fabko.Sat
