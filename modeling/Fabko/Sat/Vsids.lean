import Fabko.Sat.Refinement

set_option autoImplicit false

/-! # Activities under `update_vsids_activity`

What one call does to the activity of one variable, phase by phase: the activities that stay in
the range of `std::int64_t`, and the activity of a variable that no learned clause mentions over
a sequence of calls. -/

namespace Fabko.Sat

/-! ## Truncated quotients -/

theorem truncate_eq_floor {q : Rat} (hq : 0 ≤ q) : truncate q = q.floor := by
  rw [truncate, Int.tdiv_eq_ediv_of_nonneg (Rat.num_nonneg.mpr hq), Rat.floor_def]

theorem div_nonneg_of_activity {a : Int} {r : Rat} (ha : 0 ≤ a) (hr : 0 < r) :
    0 ≤ (a : Rat) / r := by
  rw [Rat.div_def]
  exact Rat.mul_nonneg (Rat.intCast_nonneg.mpr ha) (Rat.le_of_lt (Rat.inv_pos.mpr hr))

theorem truncate_div_nonneg {a : Int} {r : Rat} (ha : 0 ≤ a) (hr : 0 < r) :
    0 ≤ truncate (a / r) := by
  have hq := div_nonneg_of_activity ha hr
  rw [truncate_eq_floor hq, Rat.le_floor_iff]
  exact hq

theorem truncate_div_lt_iff {a b : Int} {r : Rat} (ha : 0 ≤ a) (hr : 0 < r) :
    truncate (a / r) < b ↔ (a : Rat) < b * r := by
  rw [truncate_eq_floor (div_nonneg_of_activity ha hr), Rat.floor_lt_iff, Rat.div_lt_iff hr]

/-- A positive activity divided by a ratio of at most 1 does not shrink. -/
theorem le_truncate_div {a : Int} {r : Rat} (ha : 0 ≤ a) (hr : 0 < r) (hle : r ≤ 1) :
    a ≤ truncate (a / r) := by
  rw [← Int.not_lt, truncate_div_lt_iff ha hr, Rat.not_lt]
  calc (a : Rat) * r ≤ a * 1 := Rat.mul_le_mul_of_nonneg_left hle (Rat.intCast_nonneg.mpr ha)
    _ = a := Rat.mul_one _

theorem truncate_div_normalizationFactor {a : Int} (ha : 0 ≤ a) :
    truncate (a / normalizationFactor) = a / 1000000 := by
  have hfac : (0 : Rat) < normalizationFactor := by decide
  have hcast : (((a / 1000000 : Int) : Rat)) * normalizationFactor
      = ((a / 1000000 * 1000000 : Int) : Rat) := by
    rw [Rat.intCast_mul]; rfl
  have hcast' : (((a / 1000000 + 1 : Int) : Rat)) * normalizationFactor
      = (((a / 1000000 + 1) * 1000000 : Int) : Rat) := by
    rw [Rat.intCast_mul]; rfl
  have hlower : ¬ truncate (a / normalizationFactor) < a / 1000000 := by
    rw [truncate_div_lt_iff ha hfac, hcast, Rat.intCast_lt_intCast]
    omega
  have hupper : truncate (a / normalizationFactor) < a / 1000000 + 1 := by
    rw [truncate_div_lt_iff ha hfac, hcast', Rat.intCast_lt_intCast]
    omega
  omega

/-! ## The three phases -/

def SolverContext.activity (ctx : SolverContext) (v : VarId) : Int :=
  (ctx.var v).context.vsidsActivity

/-- The guard of the normalisation: the next increment of a variable of the clause could leave
the range. -/
def NearLimit (ctx : SolverContext) (learned : Clause) : Prop :=
  ∃ v ∈ learned.map Prod.snd, 2 ^ 63 - 1 - ctx.config.vsidsIncrement ≤ ctx.activity v

instance (ctx : SolverContext) (learned : Clause) : Decidable (NearLimit ctx learned) :=
  inferInstanceAs (Decidable (∃ v ∈ learned.map Prod.snd, _))

def DecayPass (ctx : SolverContext) : Prop :=
  ctx.config.decayInterval.toNat ∣ ctx.statistics.conflicts

instance (ctx : SolverContext) : Decidable (DecayPass ctx) :=
  inferInstanceAs (Decidable (_ ∣ _))

def normalizePhase (ctx : SolverContext) (learned : Clause) : SolverContext :=
  if NearLimit ctx learned then
    { ctx with vars := ctx.vars.map (scaleActivity normalizationFactor) }
  else ctx

def bumpPhase (ctx : SolverContext) (learned : Clause) : SolverContext :=
  { ctx with
    vars := learned.foldl
      (fun vars p => vars.modify p.2 (raiseActivity ctx.config.vsidsIncrement)) ctx.vars }

def decayPhase (ctx : SolverContext) : SolverContext :=
  if DecayPass ctx then
    { ctx with vars := ctx.vars.map (scaleActivity ctx.config.vsidsDecayRatio) }
  else ctx

/-- The values `decay_interval` can have as a positive `std::int32_t`. -/
def IntervalInRange (c : Configuration) : Prop := 1 ≤ c.decayInterval ∧ c.decayInterval < 2 ^ 31

theorem IntervalInRange.interval_eq {c : Configuration} (h : IntervalInRange c) :
    c.interval = c.decayInterval.toNat := by
  obtain ⟨h1, h2⟩ := h
  unfold Configuration.interval
  omega

theorem IntervalInRange.interval_ne_zero {c : Configuration} (h : IntervalInRange c) :
    c.interval ≠ 0 := by
  rw [h.interval_eq]
  have h1 := h.1
  omega

theorem updateVsidsActivity_eq {ctx : SolverContext} (learned : Clause)
    (hint : IntervalInRange ctx.config) :
    updateVsidsActivity ctx learned = some (writeActivities ctx learned) :=
  updateVsidsActivity_eq_some_iff.mpr ⟨hint.interval_ne_zero, rfl⟩

theorem writeActivities_eq {ctx : SolverContext} (learned : Clause)
    (hint : IntervalInRange ctx.config) :
    writeActivities ctx learned
      = decayPhase (bumpPhase (normalizePhase ctx learned) learned) := by
  have hneed : learned.any (fun p => decide (2 ^ 63 - 1 - ctx.config.vsidsIncrement
      ≤ (ctx.var p.2).context.vsidsActivity)) = decide (NearLimit ctx learned) := by
    rw [Bool.eq_iff_iff, decide_eq_true_iff]
    simp only [List.any_eq_true, decide_eq_true_iff, NearLimit, SolverContext.activity]
    constructor
    · rintro ⟨p, hp, hlimit⟩
      exact ⟨p.2, List.mem_map_of_mem hp, hlimit⟩
    · rintro ⟨v, hv, hlimit⟩
      obtain ⟨p, hp, rfl⟩ := List.mem_map.mp hv
      exact ⟨p, hp, hlimit⟩
  unfold writeActivities normalizePhase
  rw [hneed, hint.interval_eq]
  by_cases hnear : NearLimit ctx learned
  · simp only [hnear, decide_true, if_true, bumpPhase, decayPhase, DecayPass, Nat.dvd_iff_mod_eq_zero]
    split <;> rfl
  · simp only [hnear, decide_false, if_false, bumpPhase, decayPhase, DecayPass,
      Nat.dvd_iff_mod_eq_zero, Bool.false_eq_true]
    split <;> rfl

/-! ## The activity of one variable -/

theorem activity_map_scaleActivity {ctx : SolverContext} (r : Rat) (v : VarId) :
    SolverContext.activity { ctx with vars := ctx.vars.map (scaleActivity r) } v
      = truncate ((ctx.activity v : Rat) / r) := by
  unfold SolverContext.activity SolverContext.var
  rcases Nat.lt_or_ge v ctx.vars.length with hv | hv
  · rw [List.getD_eq_getElem _ _ (by simpa using hv), List.getElem_map,
      List.getD_eq_getElem _ _ hv]
    rfl
  · rw [List.getD_eq_default _ _ (by simpa using hv), List.getD_eq_default _ _ hv]
    show (0 : Int) = truncate (((0 : Int) : Rat) / r)
    rw [Rat.intCast_zero, Rat.div_def, Rat.zero_mul]
    rfl

theorem activity_modify {ctx : SolverContext} {v w : VarId} (inc : Int)
    (hv : v < ctx.vars.length) :
    SolverContext.activity { ctx with vars := ctx.vars.modify w (raiseActivity inc) } v
      = ctx.activity v + (if w = v then inc else 0) := by
  simp only [SolverContext.activity, SolverContext.var, getD_modify]
  by_cases hw : w = v
  · rw [if_pos ⟨hw, hv⟩, if_pos hw]
    rfl
  · rw [if_neg (fun h => hw h.1), if_neg hw, Int.add_zero]

theorem length_bumpPhase (ctx : SolverContext) (learned : Clause) :
    (bumpPhase ctx learned).vars.length = ctx.vars.length := by
  unfold bumpPhase
  induction learned generalizing ctx with
  | nil => rfl
  | cons p learned ih =>
      rw [List.foldl_cons]
      exact (ih { ctx with vars := ctx.vars.modify p.2 _ }).trans (List.length_modify ..)

/-- One increment for each occurrence in the clause. -/
theorem activity_bumpPhase {ctx : SolverContext} {v : VarId} (learned : Clause)
    (hv : v < ctx.vars.length) :
    (bumpPhase ctx learned).activity v
      = ctx.activity v + ctx.config.vsidsIncrement * ((learned.map Prod.snd).count v : Int) := by
  induction learned generalizing ctx with
  | nil => simp [bumpPhase]
  | cons p learned ih =>
      have hstep := activity_modify (w := p.2) ctx.config.vsidsIncrement hv
      have hrest := @ih { ctx with
        vars := ctx.vars.modify p.2 (raiseActivity ctx.config.vsidsIncrement) } (by simpa using hv)
      show SolverContext.activity (bumpPhase { ctx with
        vars := ctx.vars.modify p.2 (raiseActivity ctx.config.vsidsIncrement) } learned) v = _
      rw [hrest, hstep, List.map_cons, List.count_cons]
      by_cases hp : p.2 = v
      · rw [if_pos hp, if_pos (by simpa using hp), Int.natCast_add, Int.mul_add]
        simp only [Int.natCast_one, Int.mul_one]
        omega
      · rw [if_neg hp, if_neg (by simpa using hp), Int.add_zero, Nat.add_zero]

theorem activity_normalizePhase {ctx : SolverContext} {v : VarId} (learned : Clause)
    (ha : 0 ≤ ctx.activity v) :
    (normalizePhase ctx learned).activity v
      = if NearLimit ctx learned then ctx.activity v / 1000000 else ctx.activity v := by
  unfold normalizePhase
  split
  · rw [activity_map_scaleActivity, truncate_div_normalizationFactor ha]
  · rfl

theorem activity_decayPhase (ctx : SolverContext) (v : VarId) :
    (decayPhase ctx).activity v
      = if DecayPass ctx then truncate ((ctx.activity v : Rat) / ctx.config.vsidsDecayRatio)
        else ctx.activity v := by
  unfold decayPhase
  split
  · exact activity_map_scaleActivity _ v
  · rfl

/-! ## Activities that stay representable -/

/-- In the range of an activity: not negative, and at most the largest `std::int64_t`. -/
def Representable (a : Int) : Prop := 0 ≤ a ∧ a ≤ 2 ^ 63 - 1

/-- The configurations the bounds are about; `vsids_increment` is an `std::int32_t`. -/
structure Configuration.Tuned (c : Configuration) : Prop where
  increment : 1 ≤ c.vsidsIncrement ∧ c.vsidsIncrement < 2 ^ 31
  interval : IntervalInRange c
  ratio_pos : 0 < c.vsidsDecayRatio
  ratio_le : c.vsidsDecayRatio ≤ 1

/-- The call returns, and every quotient of the normalisation, every sum of the bump and every
activity at the end is in range. -/
structure StaysRepresentable (ctx : SolverContext) (learned : Clause) : Prop where
  bumped : ∀ done, done <+: learned → ∀ v < ctx.vars.length,
    Representable ((bumpPhase (normalizePhase ctx learned) done).activity v)
  updated : ∃ next, updateVsidsActivity ctx learned = some next ∧
    ∀ v < ctx.vars.length, Representable (next.activity v)

/-- The activity the decay divides, from the activities before the call. -/
def dividend (ctx : SolverContext) (learned : Clause) (v : VarId) : Int :=
  (if NearLimit ctx learned then ctx.activity v / 1000000 else ctx.activity v)
    + (if v ∈ learned.map Prod.snd then ctx.config.vsidsIncrement else 0)

theorem config_normalizePhase (ctx : SolverContext) (learned : Clause) :
    (normalizePhase ctx learned).config = ctx.config := by
  unfold normalizePhase
  split <;> rfl

theorem length_normalizePhase (ctx : SolverContext) (learned : Clause) :
    (normalizePhase ctx learned).vars.length = ctx.vars.length := by
  unfold normalizePhase
  split
  · exact List.length_map ..
  · rfl

section Update

variable {ctx : SolverContext} {learned : Clause} {v : VarId}

theorem count_eq_of_nodup (hnodup : (learned.map Prod.snd).Nodup) :
    (((learned.map Prod.snd).count v : Nat) : Int) = if v ∈ learned.map Prod.snd then 1 else 0 := by
  by_cases hv : v ∈ learned.map Prod.snd
  · rw [if_pos hv, List.count_eq_one_of_mem hnodup hv]
    rfl
  · rw [if_neg hv, List.count_eq_zero_of_not_mem hv]
    rfl

theorem activity_bumped (hv : v < ctx.vars.length) (ha : 0 ≤ ctx.activity v)
    (hnodup : (learned.map Prod.snd).Nodup) :
    (bumpPhase (normalizePhase ctx learned) learned).activity v = dividend ctx learned v := by
  rw [activity_bumpPhase learned (by rw [length_normalizePhase]; exact hv),
    activity_normalizePhase learned ha, config_normalizePhase, count_eq_of_nodup hnodup, dividend]
  split <;> simp

/-- A variable of the clause has room for one increment after the normalisation. -/
theorem dividend_le (hconf : ctx.config.Tuned) (ha : Representable (ctx.activity v)) :
    0 ≤ dividend ctx learned v ∧ dividend ctx learned v ≤ 2 ^ 63 - 1 := by
  obtain ⟨h0, hmax⟩ := ha
  obtain ⟨hinc, hinc'⟩ := hconf.increment
  unfold dividend
  by_cases hnear : NearLimit ctx learned
  · rw [if_pos hnear]
    split <;> omega
  · rw [if_neg hnear]
    split
    · rename_i hv
      have hroom : ¬ 2 ^ 63 - 1 - ctx.config.vsidsIncrement ≤ ctx.activity v :=
        fun h => hnear ⟨v, hv, h⟩
      omega
    · omega

/-- The sums of the bump never leave the range: they grow to the dividend. -/
theorem representable_bumped (hconf : ctx.config.Tuned) (hv : v < ctx.vars.length)
    (ha : Representable (ctx.activity v)) (hnodup : (learned.map Prod.snd).Nodup) {done : Clause}
    (hdone : done <+: learned) :
    Representable ((bumpPhase (normalizePhase ctx learned) done).activity v) := by
  have hinc := hconf.increment.1
  have hbound := @dividend_le ctx learned v hconf ha
  have hlen : v < (normalizePhase ctx learned).vars.length := by
    rw [length_normalizePhase]; exact hv
  have hnormal : 0 ≤ (normalizePhase ctx learned).activity v := by
    rw [activity_normalizePhase learned ha.1]
    have h0 := ha.1
    split <;> omega
  have hall := activity_bumped hv ha.1 hnodup
  rw [activity_bumpPhase learned hlen, config_normalizePhase] at hall
  rw [activity_bumpPhase done hlen, config_normalizePhase]
  have hcount : (done.map Prod.snd).count v ≤ (learned.map Prod.snd).count v :=
    (hdone.sublist.map Prod.snd).count_le v
  have hle : ctx.config.vsidsIncrement * ((done.map Prod.snd).count v : Int)
      ≤ ctx.config.vsidsIncrement * ((learned.map Prod.snd).count v : Int) :=
    Int.mul_le_mul_of_nonneg_left (Int.ofNat_le.mpr hcount) (by omega)
  have hpos : 0 ≤ ctx.config.vsidsIncrement * ((done.map Prod.snd).count v : Int) :=
    Int.mul_nonneg (by omega) (Int.natCast_nonneg _)
  constructor <;> omega

theorem activity_writeActivities (hint : IntervalInRange ctx.config) :
    (writeActivities ctx learned).activity v
      = if DecayPass ctx then
          truncate (((bumpPhase (normalizePhase ctx learned) learned).activity v : Rat)
            / ctx.config.vsidsDecayRatio)
        else (bumpPhase (normalizePhase ctx learned) learned).activity v := by
  have hconf : (bumpPhase (normalizePhase ctx learned) learned).config = ctx.config :=
    config_normalizePhase ctx learned
  have hpass : DecayPass (bumpPhase (normalizePhase ctx learned) learned) ↔ DecayPass ctx := by
    unfold DecayPass
    rw [hconf]
    unfold bumpPhase normalizePhase
    split <;> exact Iff.rfl
  rw [writeActivities_eq learned hint, activity_decayPhase, hconf]
  simp only [hpass]

/-- **Activities stay representable** in a call exactly when it does not decay or no dividend
reaches `2 ^ 63` times the ratio. -/
theorem staysRepresentable_iff (hconf : ctx.config.Tuned)
    (ha : ∀ v < ctx.vars.length, Representable (ctx.activity v))
    (hnodup : (learned.map Prod.snd).Nodup) :
    StaysRepresentable ctx learned ↔
      (DecayPass ctx → ∀ v < ctx.vars.length,
        (dividend ctx learned v : Rat) < 2 ^ 63 * ctx.config.vsidsDecayRatio) := by
  have hpow : ((2 ^ 63 : Int) : Rat) = 2 ^ 63 := by decide +kernel
  have hfits : ∀ v < ctx.vars.length,
      (truncate ((dividend ctx learned v : Rat) / ctx.config.vsidsDecayRatio) ≤ 2 ^ 63 - 1 ↔
        (dividend ctx learned v : Rat) < 2 ^ 63 * ctx.config.vsidsDecayRatio) := by
    intro v hv
    rw [← hpow, ← truncate_div_lt_iff (dividend_le hconf (ha v hv)).1 hconf.ratio_pos]
    omega
  constructor
  · intro hstays hpass v hv
    obtain ⟨next, hnext, hupdated⟩ := hstays.updated
    obtain ⟨-, rfl⟩ := updateVsidsActivity_eq_some_iff.mp hnext
    have hrange := (hupdated v hv).2
    rw [activity_writeActivities hconf.interval, if_pos hpass,
      activity_bumped hv (ha v hv).1 hnodup] at hrange
    exact (hfits v hv).mp hrange
  · intro hsmall
    refine ⟨fun done hdone v hv => representable_bumped hconf hv (ha v hv) hnodup hdone,
      _, updateVsidsActivity_eq learned hconf.interval, fun v hv => ?_⟩
    have hbound := @dividend_le ctx learned v hconf (ha v hv)
    rw [activity_writeActivities hconf.interval, activity_bumped hv (ha v hv).1 hnodup]
    by_cases hpass : DecayPass ctx
    · rw [if_pos hpass]
      exact ⟨truncate_div_nonneg hbound.1 hconf.ratio_pos, (hfits v hv).mpr (hsmall hpass v hv)⟩
    · rw [if_neg hpass]
      exact hbound

end Update

/-- Two variables of activities 5 and `a`, under the default configuration. -/
def pairOfVariables (a : Int) (conflicts : Nat) : SolverContext where
  config := {}
  vars := [{ literal := ⟨1⟩, context := { vsidsActivity := 5 } },
    { literal := ⟨2⟩, context := { vsidsActivity := a } }]
  clauses := []
  statistics := { conflicts := conflicts }

theorem tuned_default : Configuration.Tuned {} :=
  ⟨⟨by decide, by decide⟩, ⟨by decide, by decide⟩, by decide +kernel, by decide +kernel⟩

theorem staysRepresentable_iff_pairOfVariables :
    StaysRepresentable (pairOfVariables 7 100) [(⟨1⟩, 0)] := by
  refine (staysRepresentable_iff tuned_default ?_ (by decide)).mpr ?_
  · unfold Representable
    decide
  · intro _
    decide +kernel

/-- A clause is learned over variable 0 at the 100th conflict: the decay takes variable 1 from the
largest activity out of the range. -/
theorem not_staysRepresentable_pairOfVariables :
    ∃ ctx learned, ctx.config.Tuned ∧ (∀ v < ctx.vars.length, Representable (ctx.activity v)) ∧
      (learned.map Prod.snd).Nodup ∧ ¬ StaysRepresentable ctx learned := by
  refine ⟨pairOfVariables (2 ^ 63 - 1) 100, [(⟨1⟩, 0)], tuned_default, ?_, by decide, fun h => ?_⟩
  · unfold Representable
    decide
  · obtain ⟨next, hnext, hupdated⟩ := h.updated
    obtain ⟨-, rfl⟩ := updateVsidsActivity_eq_some_iff.mp hnext
    have hmax := (hupdated 1 (by decide)).2
    revert hmax
    decide +kernel

/-! ## Decay over a sequence of calls -/

/-- A call of `update_vsids_activity`: the conflicts counted so far and the learned clause, which
repeats no variable, as `resolve_conflict` leaves it. -/
structure VsidsCall where
  conflicts : Nat
  learned : Clause
  nodup : (learned.map Prod.snd).Nodup

/-- The context a call is made in. -/
def VsidsCall.enter (call : VsidsCall) (ctx : SolverContext) : SolverContext :=
  { ctx with statistics := { ctx.statistics with conflicts := call.conflicts } }

def VsidsCall.run (ctx : SolverContext) (call : VsidsCall) : Option SolverContext :=
  updateVsidsActivity (call.enter ctx) call.learned

/-- The context after a sequence of calls. -/
def afterCalls (ctx : SolverContext) (calls : List VsidsCall) : Option SolverContext :=
  calls.foldlM VsidsCall.run ctx

/-- The activity of `x` decays over a sequence of calls: they return, no call raises it, and a decay
pass lowers it if it is positive. -/
structure Decays (ctx : SolverContext) (calls : List VsidsCall) (x : VarId) : Prop where
  returns : ∃ last, afterCalls ctx calls = some last
  le : ∀ before call c c', before ++ [call] <+: calls → afterCalls ctx before = some c →
    VsidsCall.run c call = some c' → c'.activity x ≤ c.activity x
  lt : ∀ before call c c', before ++ [call] <+: calls → afterCalls ctx before = some c →
    VsidsCall.run c call = some c' → ctx.config.decayInterval.toNat ∣ call.conflicts →
    0 < c.activity x → c'.activity x < c.activity x

/-- What spares `x` at a decay pass: it has no activity, or the call normalises as well and the
truncated quotient is below the ratio times the activity. -/
def Spared (ctx : SolverContext) (call : VsidsCall) (x : VarId) : Prop :=
  ctx.activity x = 0 ∨
    NearLimit ctx call.learned ∧
      ((ctx.activity x / 1000000 : Int) : Rat) < ctx.activity x * ctx.config.vsidsDecayRatio

theorem activity_of_length_le {ctx : SolverContext} {v : VarId} (hv : ctx.vars.length ≤ v) :
    ctx.activity v = 0 := by
  unfold SolverContext.activity SolverContext.var
  rw [List.getD_eq_default _ _ hv]
  rfl

theorem activity_bumpPhase_of_not_mem {ctx : SolverContext} {learned : Clause} {v : VarId}
    (hv : v ∉ learned.map Prod.snd) : (bumpPhase ctx learned).activity v = ctx.activity v := by
  rcases Nat.lt_or_ge v ctx.vars.length with hlt | hge
  · rw [activity_bumpPhase learned hlt, List.count_eq_zero_of_not_mem hv]
    simp
  · rw [activity_of_length_le hge, activity_of_length_le (by rw [length_bumpPhase]; exact hge)]

section Calls

variable {ctx : SolverContext} {call : VsidsCall} {calls : List VsidsCall} {x : VarId}

/-- What a call that does not divide by zero leaves. -/
def VsidsCall.write (ctx : SolverContext) (call : VsidsCall) : SolverContext :=
  writeActivities (call.enter ctx) call.learned

theorem VsidsCall.run_eq (hint : IntervalInRange ctx.config) (call : VsidsCall) :
    VsidsCall.run ctx call = some (call.write ctx) :=
  @updateVsidsActivity_eq (call.enter ctx) call.learned hint

/-- The activity of a variable the learned clause does not mention, after a call. -/
theorem activity_write (hint : IntervalInRange ctx.config) (ha : 0 ≤ ctx.activity x)
    (hx : x ∉ call.learned.map Prod.snd) :
    (call.write ctx).activity x
      = if ctx.config.decayInterval.toNat ∣ call.conflicts then
          truncate (((if NearLimit ctx call.learned then ctx.activity x / 1000000
            else ctx.activity x : Int) : Rat) / ctx.config.vsidsDecayRatio)
        else if NearLimit ctx call.learned then ctx.activity x / 1000000 else ctx.activity x := by
  have hnormal := @activity_normalizePhase (call.enter ctx) x call.learned ha
  unfold VsidsCall.write
  rw [@activity_writeActivities (call.enter ctx) _ _ hint, activity_bumpPhase_of_not_mem hx,
    hnormal]
  rfl

theorem activity_write_nonneg (hint : IntervalInRange ctx.config)
    (hr : 0 < ctx.config.vsidsDecayRatio) (ha : 0 ≤ ctx.activity x)
    (hx : x ∉ call.learned.map Prod.snd) : 0 ≤ (call.write ctx).activity x := by
  have hnormal : 0 ≤ (if NearLimit ctx call.learned then ctx.activity x / 1000000
      else ctx.activity x) := by
    split <;> omega
  rw [activity_write hint ha hx]
  split
  · exact truncate_div_nonneg hnormal hr
  · exact hnormal

/-- One call lets `x` decay exactly when it spares `x` or is no decay pass. -/
theorem write_decays_iff (hint : IntervalInRange ctx.config) (hr : 0 < ctx.config.vsidsDecayRatio)
    (hlt : ctx.config.vsidsDecayRatio < 1) (ha : 0 ≤ ctx.activity x)
    (hx : x ∉ call.learned.map Prod.snd) :
    ((call.write ctx).activity x ≤ ctx.activity x ∧
        (ctx.config.decayInterval.toNat ∣ call.conflicts → 0 < ctx.activity x →
          (call.write ctx).activity x < ctx.activity x)) ↔
      (ctx.config.decayInterval.toNat ∣ call.conflicts → Spared ctx call x) := by
  rw [activity_write hint ha hx]
  by_cases hpass : ctx.config.decayInterval.toNat ∣ call.conflicts
  · simp only [hpass, if_true, true_implies]
    by_cases hzero : ctx.activity x = 0
    · -- a quotient of 0 is 0
      have hq : truncate 0 = 0 := rfl
      simp [Spared, hzero, hq]
    have hpos : 0 < ctx.activity x := by omega
    by_cases hnear : NearLimit ctx call.learned
    · have hquot : 0 ≤ ctx.activity x / 1000000 := by omega
      simp only [hnear, if_true, hpos, true_implies, Spared, hzero, false_or, true_and]
      rw [truncate_div_lt_iff hquot hr]
      refine ⟨fun h => h.2, fun h => ⟨?_, h⟩⟩
      exact Int.le_of_lt ((truncate_div_lt_iff hquot hr).mpr h)
    · -- dividing by a ratio below 1 does not lower the activity
      have hgrow := le_truncate_div ha hr (Rat.le_of_lt hlt)
      simp only [hnear, if_false, hpos, true_implies, Spared, hzero, false_and, or_self, iff_false]
      omega
  · simp only [hpass, if_false, false_implies, and_true, iff_true]
    split <;> omega

theorem afterCalls_append (ctx : SolverContext) (calls : List VsidsCall) (call : VsidsCall) :
    afterCalls ctx (calls ++ [call])
      = (afterCalls ctx calls).bind (fun c => VsidsCall.run c call) := by
  unfold afterCalls
  rw [List.foldlM_append]
  simp [bind]

/-- Every call returns, and a variable that none of them mentions keeps an activity of at least 0. -/
theorem exists_afterCalls (hint : IntervalInRange ctx.config)
    (hr : 0 < ctx.config.vsidsDecayRatio) (ha : 0 ≤ ctx.activity x)
    (hx : ∀ call ∈ calls, x ∉ call.learned.map Prod.snd) :
    ∃ c, afterCalls ctx calls = some c ∧ c.config = ctx.config ∧ 0 ≤ c.activity x := by
  induction calls using List.reverseRecOn with
  | nil => exact ⟨ctx, rfl, rfl, ha⟩
  | append_singleton calls call ih =>
      obtain ⟨c, hc, hconf, hpos⟩ := ih fun call' h => hx call' (List.mem_append_left _ h)
      have hcall := hx call (List.mem_append_right _ List.mem_cons_self)
      rw [← hconf] at hint hr
      refine ⟨call.write c, ?_, hconf, activity_write_nonneg hint hr hpos hcall⟩
      rw [afterCalls_append, hc, Option.bind_some, VsidsCall.run_eq hint]

/-- **The activity of an unmentioned variable decays** over a sequence of calls exactly when every
decay pass of the sequence spares it. -/
theorem decays_iff (hint : IntervalInRange ctx.config) (hr : 0 < ctx.config.vsidsDecayRatio)
    (hlt : ctx.config.vsidsDecayRatio < 1) (ha : 0 ≤ ctx.activity x)
    (hx : ∀ call ∈ calls, x ∉ call.learned.map Prod.snd) :
    Decays ctx calls x ↔
      ∀ before call c, before ++ [call] <+: calls → afterCalls ctx before = some c →
        ctx.config.decayInterval.toNat ∣ call.conflicts → Spared c call x := by
  have hstep : ∀ before call c, before ++ [call] <+: calls → afterCalls ctx before = some c →
      VsidsCall.run c call = some (call.write c) ∧
      (((call.write c).activity x ≤ c.activity x ∧
        (ctx.config.decayInterval.toNat ∣ call.conflicts → 0 < c.activity x →
          (call.write c).activity x < c.activity x)) ↔
        (ctx.config.decayInterval.toNat ∣ call.conflicts → Spared c call x)) := by
    intro before call c hpre hc
    have hsub := hpre.subset
    have hcall := hx call (hsub (List.mem_append_right _ List.mem_cons_self))
    obtain ⟨c', hc', hconf, hpos⟩ :=
      exists_afterCalls hint hr ha (fun call' h => hx call' (hsub (List.mem_append_left _ h)))
    obtain rfl := Option.some.inj (hc'.symm.trans hc)
    rw [← hconf] at hint hr hlt ⊢
    exact ⟨VsidsCall.run_eq hint call, write_decays_iff hint hr hlt hpos hcall⟩
  constructor
  · intro h before call c hpre hc
    obtain ⟨hrun, hiff⟩ := hstep before call c hpre hc
    exact hiff.mp ⟨h.le before call c _ hpre hc hrun, h.lt before call c _ hpre hc hrun⟩
  · intro h
    have hone : ∀ before call c c', before ++ [call] <+: calls → afterCalls ctx before = some c →
        VsidsCall.run c call = some c' → c'.activity x ≤ c.activity x ∧
          (ctx.config.decayInterval.toNat ∣ call.conflicts → 0 < c.activity x →
            c'.activity x < c.activity x) := by
      intro before call c c' hpre hc hrun'
      obtain ⟨hrun, hiff⟩ := hstep before call c hpre hc
      obtain rfl := Option.some.inj (hrun.symm.trans hrun')
      exact hiff.mpr (h before call c hpre hc)
    obtain ⟨last, hlast, -⟩ := exists_afterCalls hint hr ha hx
    exact ⟨⟨last, hlast⟩, fun before call c c' hpre hc hrun => (hone before call c c' hpre hc hrun).1,
      fun before call c c' hpre hc hrun => (hone before call c c' hpre hc hrun).2⟩

end Calls

/-- A decay pass that normalises as well: variable 0 goes from 5 to 0. -/
theorem decays_iff_pairOfVariables :
    Decays (pairOfVariables (2 ^ 63 - 1) 0) [⟨100, [(⟨2⟩, 1)], by decide⟩] 0 := by
  refine (decays_iff tuned_default.interval tuned_default.ratio_pos (by decide +kernel)
    (by decide) (by decide)).mpr ?_
  intro before call c hpre hc _
  obtain ⟨rest, heq⟩ := hpre
  rcases before with _ | ⟨first, before⟩
  · obtain ⟨rfl, _⟩ := List.cons.inj heq
    obtain rfl := Option.some.inj hc
    exact .inr ⟨by decide, by decide +kernel⟩
  · have hlen := congrArg List.length heq
    simp at hlen

/-- One decay pass of the default configuration takes variable 1 from 100 to 105. -/
theorem not_decays_pairOfVariables :
    ∃ ctx calls x, IntervalInRange ctx.config ∧ 0 < ctx.config.vsidsDecayRatio ∧
      ctx.config.vsidsDecayRatio < 1 ∧ (∀ v < ctx.vars.length, 0 ≤ ctx.activity v) ∧
      calls.Pairwise (fun c c' : VsidsCall => c.conflicts < c'.conflicts) ∧
      (∀ call ∈ calls, x ∉ call.learned.map Prod.snd) ∧ ¬ Decays ctx calls x := by
  refine ⟨pairOfVariables 100 0, [⟨100, [(⟨1⟩, 0)], by decide⟩], 1, tuned_default.interval,
    tuned_default.ratio_pos, by decide +kernel, by decide, by simp, by decide, fun h => ?_⟩
  have hle := h.le [] ⟨100, [(⟨1⟩, 0)], by decide⟩ _ _ List.prefix_rfl rfl
    (VsidsCall.run_eq tuned_default.interval _)
  revert hle
  decide +kernel

end Fabko.Sat
