import Fabko.Sat.Schedule
import Fabko.Sat.Vsids
import Mathlib.Algebra.Order.Ring.Rat
import Mathlib.Tactic.GCongr
import Mathlib.Tactic.NormNum
import Mathlib.Tactic.Positivity
import Mathlib.Tactic.Ring

set_option autoImplicit false

/-! # Activities over a run

An activity starts at the number of occurrences of its variable, gains at most one increment with
each conflict and grows by the inverse of the decay ratio once in each decay interval. This gives a
bound by the number of conflicts alone, and as long as the bound is below `2 ^ 63` no call of
`update_vsids_activity` in a run leaves the range of `std::int64_t`. -/

namespace Fabko.Sat

variable {m : Model} {ctx ctx' : SolverContext} {mul : Nat → Nat → Nat}

/-! ## The activities of a new context -/

def activityIn (vars : List Var) (v : VarId) : Int := (vars.getD v default).context.vsidsActivity

theorem activityIn_bumpVar {vars : List Var} {w : VarId} (hw : w < vars.length) (v : VarId) :
    activityIn (vars.modify w bumpVar) v = activityIn vars v + if w = v then 1 else 0 := by
  simp only [activityIn, getD_modify]
  by_cases h : w = v
  · subst h
    rw [if_pos ⟨rfl, hw⟩, if_pos rfl]
    rfl
  · rw [if_neg (fun hc => h hc.1), if_neg h, Int.add_zero]

/-- One for each occurrence in the clause. -/
theorem mapClause_activity {ls : List Literal} {vars vars' : List Var} {c : Clause}
    (h : mapClause ls vars = .ok (c, vars')) (v : VarId) :
    activityIn vars' v = activityIn vars v + ((c.map Prod.snd).count v : Int) := by
  induction ls generalizing vars vars' c with
  | nil =>
      simp only [mapClause, Except.ok.injEq, Prod.mk.injEq] at h
      obtain ⟨rfl, rfl⟩ := h
      simp
  | cons l ls ih =>
      unfold mapClause at h
      split at h
      · cases h
      · rename_i id hid
        split at h
        · cases h
        · rename_i c' vars'' hrec
          simp only [Except.ok.injEq, Prod.mk.injEq] at h
          obtain ⟨rfl, rfl⟩ := h
          rw [ih hrec, activityIn_bumpVar (findVar_eq_some hid).1, List.map_cons, List.count_cons]
          by_cases hv : id = v
          · simp [hv]
            omega
          · simp [hv]

def varOccurrences (rows : List ClauseRow) : List VarId :=
  rows.flatMap (fun row => row.clause.map Prod.snd)

theorem insertClauses_activity {cs : List (List Literal)} {vars vars' : List Var}
    {rows : List ClauseRow} (h : insertClauses cs vars = .ok (rows, vars')) (v : VarId) :
    activityIn vars' v = activityIn vars v + ((varOccurrences rows).count v : Int) := by
  induction cs generalizing vars vars' rows with
  | nil =>
      simp only [insertClauses, Except.ok.injEq, Prod.mk.injEq] at h
      obtain ⟨rfl, rfl⟩ := h
      simp [varOccurrences]
  | cons ls cs ih =>
      unfold insertClauses at h
      split at h
      · cases h
      · rename_i c vars₁ hc
        split at h
        · cases h
        · split at h
          · cases h
          · rename_i rows' vars₂ hrec
            simp only [Except.ok.injEq, Prod.mk.injEq] at h
            obtain ⟨rfl, rfl⟩ := h
            have hrows := ih hrec
            have hclause := mapClause_activity hc v
            simp only [varOccurrences, List.flatMap_cons, List.count_append] at hrows ⊢
            omega

/-- How many literals the clauses of the model have. -/
def Model.occurrences (m : Model) : Nat := (m.clauses.map List.length).sum

theorem length_varOccurrences (rows : List ClauseRow) :
    (varOccurrences rows).length
      = ((rows.map (fun row => row.clause.map Prod.fst)).map List.length).sum := by
  induction rows with
  | nil => rfl
  | cons row rows ih => simp [varOccurrences] at ih ⊢; omega

/-- **A new context counts occurrences.** -/
theorem activity_of_solverContext (h : solverContext m = .ok ctx) (v : VarId) :
    ctx.activity v = ((varOccurrences ctx.clauses).count v : Int) := by
  unfold solverContext at h
  split at h
  · cases h
  · rename_i rows vars hins
    simp only [Except.ok.injEq] at h
    subst h
    have hblank : activityIn (m.literals.map (fun l => ({ literal := l } : Var))) v = 0 := by
      unfold activityIn
      rw [List.getD_eq_getElem?_getD, List.getElem?_map]
      rcases m.literals[v]? with _ | l <;> rfl
    have hcount := insertClauses_activity hins v
    rw [hblank, Int.zero_add] at hcount
    exact hcount

/-! ## The bound -/

/-- What the call at the `k`-th conflict divides by. -/
def Configuration.divisor (c : Configuration) (k : Nat) : Rat :=
  if c.decayInterval.toNat ∣ k then c.vsidsDecayRatio else 1

theorem Configuration.Tuned.divisor_pos {c : Configuration} (h : c.Tuned) (k : Nat) :
    0 < c.divisor k := by
  unfold Configuration.divisor
  split
  · exact h.ratio_pos
  · exact one_pos

theorem Configuration.Tuned.divisor_le {c : Configuration} (h : c.Tuned) (k : Nat) :
    c.divisor k ≤ 1 := by
  unfold Configuration.divisor
  split
  · exact h.ratio_le
  · exact le_refl 1

theorem Configuration.Tuned.increment_nonneg {c : Configuration} (h : c.Tuned) :
    (0 : Rat) ≤ c.vsidsIncrement := by
  have hinc : 0 ≤ c.vsidsIncrement := le_trans zero_le_one h.increment.1
  exact_mod_cast hinc

/-- What no activity exceeds after `k` conflicts. -/
def activityBound (m : Model) (k : Nat) : Rat :=
  (m.occurrences + m.conf.vsidsIncrement * k)
    / m.conf.vsidsDecayRatio ^ (k / m.conf.decayInterval.toNat)

section Bound

variable (hc : m.conf.Tuned)
include hc

theorem activityBound_nonneg (k : Nat) : 0 ≤ activityBound m k := by
  have hinc := hc.increment_nonneg
  have hr := hc.ratio_pos
  unfold activityBound
  positivity

/-- The bound has room for one more increment and the quotient. -/
theorem activityBound_succ (k : Nat) :
    (activityBound m k + m.conf.vsidsIncrement) / m.conf.divisor (k + 1)
      ≤ activityBound m (k + 1) := by
  have hpow := pow_pos hc.ratio_pos (k / m.conf.decayInterval.toNat)
  have hone := pow_le_one₀ (n := k / m.conf.decayInterval.toNat) (le_of_lt hc.ratio_pos) hc.ratio_le
  -- the increment is divided by the same power as what was there before
  have hraise : activityBound m k + m.conf.vsidsIncrement
      ≤ (m.occurrences + m.conf.vsidsIncrement * (k + 1 : Nat))
        / m.conf.vsidsDecayRatio ^ (k / m.conf.decayInterval.toNat) := by
    calc activityBound m k + m.conf.vsidsIncrement
        ≤ activityBound m k + m.conf.vsidsIncrement
            / m.conf.vsidsDecayRatio ^ (k / m.conf.decayInterval.toNat) :=
          add_le_add_right (le_div_self hc.increment_nonneg hpow hone) _
      _ = (m.occurrences + m.conf.vsidsIncrement * k + m.conf.vsidsIncrement)
            / m.conf.vsidsDecayRatio ^ (k / m.conf.decayInterval.toNat) := by
          rw [activityBound, ← add_div]
      _ = (m.occurrences + m.conf.vsidsIncrement * (k + 1 : Nat))
            / m.conf.vsidsDecayRatio ^ (k / m.conf.decayInterval.toNat) := by
          push_cast
          ring
  unfold Configuration.divisor
  by_cases hdvd : m.conf.decayInterval.toNat ∣ k + 1
  · rw [if_pos hdvd, activityBound.eq_def m (k + 1), Nat.succ_div_of_dvd hdvd, pow_succ, ← div_div]
    exact div_le_div_of_nonneg_right hraise (le_of_lt hc.ratio_pos)
  · rw [if_neg hdvd, div_one, activityBound.eq_def m (k + 1), Nat.succ_div_of_not_dvd hdvd]
    exact hraise

theorem activityBound_mono : Monotone (activityBound m) := by
  refine monotone_nat_of_le_succ (fun k => ?_)
  have hsum : 0 ≤ activityBound m k + m.conf.vsidsIncrement :=
    add_nonneg (activityBound_nonneg hc k) hc.increment_nonneg
  calc activityBound m k ≤ activityBound m k + m.conf.vsidsIncrement :=
        le_add_of_nonneg_right hc.increment_nonneg
    _ ≤ (activityBound m k + m.conf.vsidsIncrement) / m.conf.divisor (k + 1) :=
        le_div_self hsum (hc.divisor_pos _) (hc.divisor_le _)
    _ ≤ activityBound m (k + 1) := activityBound_succ hc k

end Bound

/-! ## One call -/

theorem length_writeActivities (ctx : SolverContext) (learned : Clause) :
    (writeActivities ctx learned).vars.length = ctx.vars.length :=
  (stutters_writeActivities ctx learned).vars.length_eq

theorem truncate_le {q : Rat} (hq : 0 ≤ q) : 0 ≤ truncate q ∧ ((truncate q : Int) : Rat) ≤ q := by
  rw [truncate_eq_floor hq]
  exact ⟨Rat.le_floor_iff.mpr hq, Rat.floor_le q⟩

theorem divisor_of_decayPass (h : DecayPass ctx) :
    ctx.config.divisor ctx.statistics.conflicts = ctx.config.vsidsDecayRatio :=
  if_pos h

theorem divisor_of_not_decayPass (h : ¬ DecayPass ctx) :
    ctx.config.divisor ctx.statistics.conflicts = 1 :=
  if_neg h

section Call

variable {learned : Clause} {v : VarId} (hc : ctx.config.Tuned) (ha : 0 ≤ ctx.activity v)
include hc ha

/-- Normalising lowers an activity and the bump adds at most one increment. -/
theorem dividend_le_add :
    0 ≤ dividend ctx learned v ∧
      (dividend ctx learned v : Rat) ≤ ctx.activity v + ctx.config.vsidsIncrement := by
  have hinc := hc.increment.1
  have hle : 0 ≤ dividend ctx learned v ∧
      dividend ctx learned v ≤ ctx.activity v + ctx.config.vsidsIncrement := by
    unfold dividend
    split <;> split <;> omega
  exact ⟨hle.1, by exact_mod_cast hle.2⟩

theorem writeActivities_le (hnodup : (learned.map Prod.snd).Nodup) :
    0 ≤ (writeActivities ctx learned).activity v ∧
      ((writeActivities ctx learned).activity v : Rat)
        ≤ (ctx.activity v + ctx.config.vsidsIncrement)
          / ctx.config.divisor ctx.statistics.conflicts := by
  have hpos := hc.divisor_pos ctx.statistics.conflicts
  have hdividend := @dividend_le_add ctx learned v hc ha
  rcases Nat.lt_or_ge v ctx.vars.length with hv | hv
  · have hquot : (writeActivities ctx learned).activity v
        = truncate ((dividend ctx learned v : Rat)
          / ctx.config.divisor ctx.statistics.conflicts) := by
      rw [activity_writeActivities hc.interval, activity_bumped hv ha hnodup]
      by_cases hpass : DecayPass ctx
      · rw [if_pos hpass, divisor_of_decayPass hpass]
      · -- a quotient by 1 is exact
        rw [if_neg hpass, divisor_of_not_decayPass hpass, div_one]
        exact (Int.tdiv_one _).symm
    have htrunc := truncate_le (div_nonneg_of_activity hdividend.1 hpos)
    rw [hquot]
    exact ⟨htrunc.1, le_trans htrunc.2 (div_le_div_of_nonneg_right hdividend.2 (le_of_lt hpos))⟩
  · -- there is no such variable
    have hsum : (0 : Rat) ≤ ctx.activity v + ctx.config.vsidsIncrement :=
      le_trans (by exact_mod_cast hdividend.1) hdividend.2
    rw [activity_of_length_le (by rw [length_writeActivities]; exact hv)]
    exact ⟨le_refl 0, by rw [Int.cast_zero]; exact div_nonneg hsum (le_of_lt hpos)⟩

end Call

/-! ## The other steps -/

/-- The activities are within the bound of `k` conflicts. -/
structure Restrained (m : Model) (k : Nat) (ctx : SolverContext) : Prop where
  config : ∃ t, ctx.config = { m.conf with restartThreshold := t }
  nonneg : ∀ v, 0 ≤ ctx.activity v
  le : ∀ v, (ctx.activity v : Rat) ≤ activityBound m k

section Steps

variable {k : Nat}

theorem Restrained.tuned (h : Restrained m k ctx) (hc : m.conf.Tuned) : ctx.config.Tuned := by
  obtain ⟨t, heq⟩ := h.config
  rw [heq]
  exact ⟨hc.increment, hc.interval, hc.ratio_pos, hc.ratio_le⟩

theorem Restrained.increment_eq (h : Restrained m k ctx) :
    ctx.config.vsidsIncrement = m.conf.vsidsIncrement := by
  obtain ⟨t, heq⟩ := h.config
  rw [heq]

theorem Restrained.divisor_eq (h : Restrained m k ctx) (n : Nat) :
    ctx.config.divisor n = m.conf.divisor n := by
  obtain ⟨t, heq⟩ := h.config
  rw [heq]
  rfl

theorem Restrained.congr (h : Restrained m k ctx)
    (hconf : ∃ t, ctx'.config = { m.conf with restartThreshold := t })
    (hact : ∀ v, ctx'.activity v = ctx.activity v) : Restrained m k ctx' := by
  refine ⟨hconf, fun v => ?_, fun v => ?_⟩
  · rw [hact]
    exact h.nonneg v
  · rw [hact]
    exact h.le v

theorem Restrained.mono (h : Restrained m k ctx) (hc : m.conf.Tuned) {n : Nat} (hk : k ≤ n) :
    Restrained m n ctx :=
  ⟨h.config, h.nonneg, fun v => le_trans (h.le v) (activityBound_mono hc hk)⟩

theorem activity_setVar (ctx : SolverContext) (w v : VarId) {f : Var → Var}
    (hf : ∀ x, (f x).context.vsidsActivity = x.context.vsidsActivity) :
    (ctx.setVar w f).activity v = ctx.activity v := by
  simp only [SolverContext.activity, SolverContext.var, SolverContext.setVar, getD_modify]
  split
  · exact hf _
  · rfl

theorem activity_backtrack (ctx : SolverContext) (l : Nat) (v : VarId) :
    (backtrack ctx l).activity v = ctx.activity v := by
  unfold SolverContext.activity
  rw [var_backtrack]
  split <;> rfl

theorem Restrained.assignUnit (h : Restrained m k ctx) (id : ClauseId) (u : Literal × VarId) :
    Restrained m k (assignUnit ctx id u) :=
  h.congr h.config (fun v => @activity_setVar ctx u.2 v _ (fun _ => rfl))

theorem Restrained.decideOn (h : Restrained m k ctx) (w : VarId) :
    Restrained m k (decideOn ctx w) :=
  h.congr h.config (fun v => @activity_setVar ctx w v _ (fun _ => rfl))

theorem Restrained.backtrack (h : Restrained m k ctx) (l : Nat) :
    Restrained m k (backtrack ctx l) :=
  h.congr h.config (activity_backtrack ctx l)

theorem Restrained.restartIfDue (h : Restrained m k ctx) (mul : Nat → Nat → Nat) :
    Restrained m k (restartIfDue mul ctx) := by
  refine restartIfDue_induct mul ctx ?_ h
  refine h.congr ?_ (fun v => activity_backtrack _ 0 v)
  -- only the threshold of the configuration is written
  obtain ⟨t, heq⟩ := h.config
  refine ⟨mul ctx.config.restartThreshold ctx.config.restartMultiplier, ?_⟩
  show { ctx.config with
    restartThreshold := mul ctx.config.restartThreshold ctx.config.restartMultiplier } = _
  rw [heq]

theorem Restrained.learn (h : Restrained m k ctx) (c : Clause) :
    Restrained m k (learnAdditionalClause ctx c) := by
  unfold learnAdditionalClause
  split
  · exact h
  · exact h.congr h.config (fun _ => rfl)

/-- The call at the conflict `k + 1` takes one bound to the next. -/
theorem Restrained.update (h : Restrained m k ctx) (hc : m.conf.Tuned) {learned : Clause}
    (hk : ctx.statistics.conflicts = k + 1) (hnodup : (learned.map Prod.snd).Nodup) :
    Restrained m (k + 1) (writeActivities ctx learned) := by
  have hupdate := fun v => writeActivities_le (h.tuned hc) (h.nonneg v) hnodup
  refine ⟨h.config, fun v => (hupdate v).1, fun v => ?_⟩
  have hpos := hc.divisor_pos (k + 1)
  calc ((writeActivities ctx learned).activity v : Rat)
      ≤ (ctx.activity v + ctx.config.vsidsIncrement)
          / ctx.config.divisor ctx.statistics.conflicts := (hupdate v).2
    _ = (ctx.activity v + m.conf.vsidsIncrement) / m.conf.divisor (k + 1) := by
        rw [h.increment_eq, h.divisor_eq, hk]
    _ ≤ (activityBound m k + m.conf.vsidsIncrement) / m.conf.divisor (k + 1) :=
        div_le_div_of_nonneg_right (add_le_add_left (h.le v) _) (le_of_lt hpos)
    _ ≤ activityBound m (k + 1) := activityBound_succ hc k

end Steps

/-! ## The run -/

/-- From the count of a conflict to its update the activities are those of the conflict before. -/
def ActivityInv (m : Model) (f : Frame) : Prop :=
  match f.point with
  | .head | .propagating | .quiet => Restrained m f.ctx.statistics.conflicts f.ctx
  | .conflict _ => ∃ k, f.ctx.statistics.conflicts = k + 1 ∧ Restrained m k f.ctx
  | .learned r | .backtracked r => (r.learnedClause.map Prod.snd).Nodup ∧
      ∃ k, f.ctx.statistics.conflicts = k + 1 ∧ Restrained m k f.ctx

theorem Step.activityInv (hm : m.WellFormed) (hc : m.conf.Tuned) {f g : Frame}
    (hs : Step mul f g) (hinv : Inv m f) (h : ActivityInv m f) : ActivityInv m g := by
  cases hs with
  | @restart ctx =>
      show Restrained m (restartIfDue mul ctx).statistics.conflicts (restartIfDue mul ctx)
      rw [conflicts_restartIfDue]
      exact Restrained.restartIfDue h mul
  | unit hid hp =>
      obtain ⟨u, -, rfl, -⟩ := forces_of_propagate hm (Good.linked hinv) hid hp
      exact Restrained.assignUnit h _ u
  | @count ctx n =>
      have hres : Restrained m ctx.statistics.conflicts ctx := h
      exact hres.congr hres.config (fun _ => rfl)
  | @conflict ctx id n hid hp =>
      have hres : Restrained m ctx.statistics.conflicts ctx := h
      exact ⟨_, rfl, hres.congr hres.config (fun _ => rfl)⟩
  | quiet hp => exact h
  | @unsatisfiable ctx id hr =>
      -- counted without an update: the bound only grows
      obtain ⟨k, hk, hres⟩ := h
      show Restrained m ctx.statistics.conflicts ctx
      exact hres.mono hc (le_of_lt (lt_of_lt_of_eq (Nat.lt_succ_self k) hk.symm))
  | @learn ctx id r hr hu =>
      obtain ⟨k, hk, hres⟩ := h
      subst hr
      have ho := Conflict.origin hm hinv hu
      exact ⟨distinct_toCnf_iff.mp ho.spec.distinct_toCnf, k,
        (congrArg Clock.conflicts (clock_learn ctx _)).trans hk, hres.learn _⟩
  | backtrack =>
      obtain ⟨hnodup, k, hk, hres⟩ := h
      exact ⟨hnodup, k, hk, hres.backtrack _⟩
  | @activity ctx ctx' r hup =>
      obtain ⟨-, rfl⟩ := updateVsidsActivity_eq_some_iff.mp hup
      obtain ⟨hnodup, k, hk, hres⟩ := h
      show Restrained m ctx.statistics.conflicts (writeActivities ctx r.learnedClause)
      rw [show ctx.statistics.conflicts = k + 1 from hk]
      exact hres.update hc hk hnodup
  | decide hv => exact Restrained.decideOn h _
  | finish _ => exact h

theorem activityInv_of_solverContext (h : solverContext m = .ok ctx) :
    ActivityInv m ⟨.head, ctx⟩ := by
  have hf := fresh_of_solverContext h
  have hstat : ctx.statistics.conflicts = 0 := by rw [statistics_of_solverContext h]
  show Restrained m ctx.statistics.conflicts ctx
  rw [hstat]
  refine ⟨⟨m.conf.restartThreshold, hf.config⟩, fun v => ?_, fun v => ?_⟩
  · rw [activity_of_solverContext h]
    exact Int.natCast_nonneg _
  · have hcount : (varOccurrences ctx.clauses).count v ≤ m.occurrences := by
      calc (varOccurrences ctx.clauses).count v
          ≤ (varOccurrences ctx.clauses).length := List.count_le_length
        _ = m.occurrences := by rw [length_varOccurrences, hf.clauses, Model.occurrences]
    rw [activity_of_solverContext h, activityBound]
    simp only [Nat.cast_zero, mul_zero, add_zero, Nat.zero_div, pow_zero, div_one]
    exact_mod_cast hcount

theorem Reachable.activityInv (hm : m.WellFormed) (hc : m.conf.Tuned) {f : Frame}
    (h : Reachable mul m f) : ActivityInv m f := by
  obtain ⟨ctx, hctx, hs⟩ := h
  induction hs with
  | refl => exact activityInv_of_solverContext hctx
  | tail hrun hstep ih => exact hstep.activityInv hm hc (Reachable.inv hm ⟨ctx, hctx, hrun⟩) ih

theorem ActivityInv.restrained (hc : m.conf.Tuned) {f : Frame} (h : ActivityInv m f) :
    Restrained m f.ctx.statistics.conflicts f.ctx := by
  obtain ⟨p, ctx⟩ := f
  have hlater : (∃ k, ctx.statistics.conflicts = k + 1 ∧ Restrained m k ctx) →
      Restrained m ctx.statistics.conflicts ctx := by
    rintro ⟨k, hk, hres⟩
    exact hres.mono hc (by omega)
  cases p with
  | head | propagating | quiet => exact h
  | conflict id => exact hlater h
  | learned r | backtracked r => exact hlater h.2

theorem Restrained.representable {k : Nat} (h : Restrained m k ctx)
    (hfit : activityBound m k < 2 ^ 63) (v : VarId) : Representable (ctx.activity v) := by
  have hlt : ctx.activity v < 2 ^ 63 := by
    have hrat : (ctx.activity v : Rat) < 2 ^ 63 := lt_of_le_of_lt (h.le v) hfit
    exact_mod_cast hrat
  exact ⟨h.nonneg v, by omega⟩

/-- **Activities do not overflow** as long as the bound for the conflicts counted so far is below
`2 ^ 63`: at every point of every run they are in range, and so is every value the call of
`update_vsids_activity` that comes next computes. -/
theorem reachable_representable (hm : m.WellFormed) (hc : m.conf.Tuned) {f : Frame}
    (h : Reachable mul m f) (hfit : activityBound m f.ctx.statistics.conflicts < 2 ^ 63) :
    (∀ v, Representable (f.ctx.activity v)) ∧
      ∀ r, f.point = .backtracked r → StaysRepresentable f.ctx r.learnedClause := by
  have hinv := h.activityInv hm hc
  have hrange := (hinv.restrained hc).representable hfit
  refine ⟨hrange, fun r hp => ?_⟩
  obtain ⟨p, ctx⟩ := f
  have hp' : p = .backtracked r := hp
  subst hp'
  obtain ⟨hnodup, k, hk, hres⟩ := hinv
  have hk' : ctx.statistics.conflicts = k + 1 := hk
  refine ⟨fun done hdone v hv => representable_bumped (hres.tuned hc) hv (hrange v) hnodup hdone,
    _, updateVsidsActivity_eq r.learnedClause (hres.tuned hc).interval, fun v _ => ?_⟩
  exact (hres.update hc hk' hnodup).representable (hk' ▸ hfit) v

/-- With the default configuration: a million occurrences and fifty thousand conflicts. -/
theorem activityBound_default (hconf : m.conf = {}) (hocc : m.occurrences ≤ 1000000) {k : Nat}
    (hk : k ≤ 50000) : activityBound m k < 2 ^ 63 := by
  have hc : m.conf.Tuned := hconf ▸ tuned_default
  have hocc' : (m.occurrences : Rat) ≤ 1000000 := by exact_mod_cast hocc
  have hlast : activityBound m 50000
      = (m.occurrences + 10 * 50000) / (15938355 / 16777216 : Rat) ^ 500 := by
    unfold activityBound
    rw [hconf]
    rfl
  calc activityBound m k ≤ activityBound m 50000 := activityBound_mono hc hk
    _ = (m.occurrences + 10 * 50000) / (15938355 / 16777216 : Rat) ^ 500 := hlast
    _ ≤ (1000000 + 10 * 50000) / (15938355 / 16777216 : Rat) ^ 500 := by gcongr
    _ < 2 ^ 63 := by decide +kernel

theorem reachable_representable_backjumping :
    ∃ ctx r, Reachable mulUInt32 backjumping ⟨.backtracked r, ctx⟩ ∧
      ctx.statistics.conflicts = 1 ∧ (∀ v, Representable (ctx.activity v)) ∧
      StaysRepresentable ctx r.learnedClause := by
  have hrun : ∃ ctx, Reachable mulUInt32 backjumping ⟨.conflict 2, ctx⟩ ∧
      ctx.statistics.conflicts = 1 ∧
      ctx.currentDecisionLevel = 2 := by
    refine @exists_conflict mulUInt32 backjumping highestVsids 2 2 _ _ ?_
    decide +kernel
  obtain ⟨ctx, hreach, hone, hlevel⟩ := hrun
  have hm : backjumping.WellFormed := by decide
  have hconflict : Conflict backjumping ctx 2 := hreach.inv hm
  have ho := hconflict.origin_of_pos hm (by omega)
  have hr : ¬ ReportsUnsatisfiable ctx (resolveConflict ctx (ctx.clause 2)) := by
    rintro (⟨hz, -⟩ | hnil)
    · omega
    · exact ho.ne_nil hnil
  have hback := (hreach.tail (Step.learn rfl hr)).tail Step.backtrack
  have hone' : (backtrack (learnAdditionalClause ctx
      (resolveConflict ctx (ctx.clause 2)).learnedClause)
      (resolveConflict ctx (ctx.clause 2)).backtrackLevel).statistics.conflicts = 1 :=
    (congrArg Clock.conflicts (clock_learn ctx _)).trans hone
  have hall := reachable_representable hm tuned_default hback
    (activityBound_default rfl (by decide) (by rw [hone']; decide))
  exact ⟨_, _, hback, hone', hall.1, hall.2 _ rfl⟩

end Fabko.Sat
