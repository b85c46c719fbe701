import Fabko.Sat.Refinement

set_option autoImplicit false

/-! # The loops of conflict analysis

`AnalysisInv` is the invariant of the outer loop of `resolve_conflict` and `resolveLoop_induct` the
induction over it; `MergeInv` is the invariant of the inner loop over one antecedent. The
resolution step itself is in `Sat/Resolution`. -/

namespace Fabko.Sat

open Cnf Cdcl

/-! ## The loops -/

section Loops

variable {ctx : SolverContext}

/-- Every index the inner loop has walked past is not pending. -/
theorem not_isPending_of_seekTrail_lt {pending : List VarId} {t j : Nat}
    (hj : seekTrail ctx pending t < j) (hjt : j ≤ t) : isPending ctx pending j = false := by
  induction t with
  | zero => omega
  | succ t ih =>
      unfold seekTrail at hj
      by_cases hp : isPending ctx pending (t + 1) = true
      · rw [if_pos hp] at hj
        omega
      · rw [if_neg hp] at hj
        rcases Nat.lt_or_ge t j with hlt | hle
        · have : j = t + 1 := by omega
          rw [this]
          simpa using hp
        · exact ih hj hle

theorem isPending_seekTrail {pending : List VarId} {t : Nat}
    (h : seekTrail ctx pending t ≠ 0) : isPending ctx pending (seekTrail ctx pending t) = true := by
  induction t with
  | zero => exact absurd rfl h
  | succ t ih =>
      unfold seekTrail at h ⊢
      by_cases hp : isPending ctx pending (t + 1) = true
      · rw [if_pos hp]
        exact hp
      · rw [if_neg hp] at h ⊢
        exact ih h

/-- The two exits of the outer loop from `b`. -/
inductive Exits (ctx : SolverContext) (b : Analysis) : Analysis → Prop
  | single (h : b.currentLevelVars.length ≤ 1) : Exits ctx b b
  | trailEmpty (h : 1 < b.currentLevelVars.length)
      (hz : seekTrail ctx b.currentLevelVars b.trailIndex = 0) :
      Exits ctx b { b with trailIndex := 0 }

/-- **Induction over the outer loop**: what every resolution step keeps holds of the state the
loop exits from. -/
theorem resolveLoop_induct {P : Analysis → Prop}
    (hstep : ∀ a, P a → 1 < a.currentLevelVars.length →
      seekTrail ctx a.currentLevelVars a.trailIndex ≠ 0 →
      P (resolveAt ctx a (seekTrail ctx a.currentLevelVars a.trailIndex)))
    (a : Analysis) (ha : P a) : ∃ b, P b ∧ Exits ctx b (resolveLoop ctx a) := by
  induction hn : a.trailIndex using Nat.strong_induction_on generalizing a with
  | _ n ih =>
      unfold resolveLoop
      by_cases hlen : a.currentLevelVars.length ≤ 1
      · rw [if_pos hlen]
        exact ⟨a, ha, Exits.single hlen⟩
      · rw [if_neg hlen]
        by_cases hz : seekTrail ctx a.currentLevelVars a.trailIndex = 0
        · rw [dif_pos hz]
          exact ⟨a, ha, Exits.trailEmpty (by omega) hz⟩
        · rw [dif_neg hz]
          have hle := seekTrail_le ctx a.currentLevelVars a.trailIndex
          refine ih _ ?_ _ (hstep a ha (by omega) hz) rfl
          show seekTrail ctx a.currentLevelVars a.trailIndex - 1 < n
          omega

end Loops

/-! ## Positions on the trail -/

section Positions

variable {m : Model} {ctx : SolverContext}

theorem trailVar_eq_getElem {i : Nat} (hi : i < ctx.trail.length) :
    ctx.trailVar i = ctx.trail[i] :=
  List.getD_eq_getElem _ _ hi

theorem state_trail_split {i : Nat} (hi : i < ctx.trail.length) :
    ctx.state.trail
      = (ctx.trail.drop (i + 1)).reverse ++ ctx.trailVar i :: (ctx.trail.take i).reverse := by
  show ctx.trail.reverse = _
  rw [trailVar_eq_getElem hi]
  have h : ctx.trail = ctx.trail.take i ++ ctx.trail[i] :: ctx.trail.drop (i + 1) := by
    rw [← List.drop_eq_getElem_cons hi, List.take_append_drop]
  conv_lhs => rw [h]
  simp

theorem trailVar_mem {i : Nat} (hi : i < ctx.trail.length) : ctx.trailVar i ∈ ctx.state.trail := by
  rw [state_trail_split hi]
  simp

theorem mem_take_iff {n : Nat} {v : VarId} :
    v ∈ ctx.trail.take n ↔ ∃ i, i < n ∧ i < ctx.trail.length ∧ ctx.trailVar i = v := by
  rw [List.mem_take_iff_getElem]
  constructor
  · rintro ⟨i, hi, rfl⟩
    have hlt : i < ctx.trail.length := lt_of_lt_of_le hi (min_le_right _ _)
    exact ⟨i, lt_of_lt_of_le hi (min_le_left _ _), hlt, trailVar_eq_getElem hlt⟩
  · rintro ⟨i, hin, hlt, rfl⟩
    exact ⟨i, lt_min hin hlt, (trailVar_eq_getElem hlt).symm⟩

/-- The reason of the entry at index `i` speaks of the entries before it. -/
theorem isReason_at (hw : Wf (models m) ctx.state) {i : Nat} (hi : i < ctx.trail.length)
    {id : ClauseId} (h : (ctx.var (ctx.trailVar i)).context.clausePropagation = some id) :
    IsReason ctx.state (toCnf (ctx.clause id)) (ctx.trail.take i).reverse (ctx.trailVar i) := by
  apply (hw.supported.at (state_trail_split hi)).1 _
  show ctx.reasonOf (ctx.trailVar i) = _
  rw [SolverContext.reasonOf, h]
  rfl

theorem reason_eq_none_iff {v : VarId} :
    ctx.state.reason v = none ↔ (ctx.var v).context.clausePropagation = none := by
  show ctx.reasonOf v = none ↔ _
  rw [SolverContext.reasonOf]
  exact Option.map_eq_none_iff

/-- The entries before a decision are of smaller levels. -/
theorem level_lt_of_decision (hw : Wf (models m) ctx.state) {i j : Nat} (hij : i < j)
    (hj : j < ctx.trail.length)
    (h : (ctx.var (ctx.trailVar j)).context.clausePropagation = none) :
    ctx.levelOf (ctx.trailVar i) < ctx.levelOf (ctx.trailVar j) := by
  apply ((hw.supported.at (state_trail_split hj)).2 (reason_eq_none_iff.mpr h)).2 _
  rw [List.mem_reverse]
  exact mem_take_iff.mpr ⟨i, hij, by omega, rfl⟩

/-- At a positive level the oldest entry of the trail is a decision. -/
theorem clausePropagation_zero (hw : Wf (models m) ctx.state) (h0 : 0 < ctx.trail.length)
    (hpos : 0 < ctx.levelOf (ctx.trailVar 0)) :
    (ctx.var (ctx.trailVar 0)).context.clausePropagation = none := by
  obtain ⟨d, hd, -, hr⟩ := hw.exists_decision (state_trail_split h0) hpos
  rw [List.take_zero, List.reverse_nil, List.mem_singleton] at hd
  subst hd
  exact reason_eq_none_iff.mp hr

theorem mem_trail_of_isFalse (hw : Wf (models m) ctx.state) {p : Literal × VarId}
    (h : (toLit p).IsFalse ctx.state.value) : p.2 ∈ ctx.trail := by
  have := hw.mem_of_isFalse h
  exact List.mem_reverse.mp this

theorem lt_literals_of_mem_trail (hl : Linked m ctx) (hw : Wf (models m) ctx.state) {v : VarId}
    (h : v ∈ ctx.trail) : v < m.literals.length := by
  rw [← hl.length_vars]
  apply lt_length_of_assigned
  intro hna
  exact (hw.mem_trail v).mp (List.mem_reverse.mpr h) (Assignment.toOption_eq_none.mpr hna)

end Positions

/-! ## The loop invariant -/

/-- What holds of the locals of `resolve_conflict` at the head of the outer loop. -/
structure AnalysisInv (m : Model) (ctx : SolverContext) (a : Analysis) : Prop where
  resolved : ∀ p ∈ a.learnedClause, m.Resolved p
  falsified : Falsified ctx.state.value (toCnf a.learnedClause)
  entailed : Entails (models m) (toCnf a.learnedClause)
  pending : ∀ v, v ∈ a.currentLevelVars ↔
    ∃ p ∈ a.learnedClause, p.2 = v ∧ ctx.levelOf v = ctx.currentDecisionLevel
  onTrail : ∀ v ∈ a.currentLevelVars, v ∈ ctx.trail.take (a.trailIndex + 1)
  inRange : a.currentLevelVars ≠ [] → a.trailIndex < ctx.trail.length
  nonempty : 0 < ctx.currentDecisionLevel → a.currentLevelVars ≠ []
  level : a.backtrackLevel = 0 ∨ a.backtrackLevel < ctx.currentDecisionLevel ∧
    ∃ p ∈ a.learnedClause, ctx.levelOf p.2 = a.backtrackLevel

section Analysis

variable {m : Model} {ctx : SolverContext}

theorem AnalysisInv.mem_trail {a : Analysis} (h : AnalysisInv m ctx a) {v : VarId}
    (hv : v ∈ a.currentLevelVars) : v ∈ ctx.trail :=
  List.mem_of_mem_take (h.onTrail v hv)

theorem AnalysisInv.level_of_pending {a : Analysis} (h : AnalysisInv m ctx a) {v : VarId}
    (hv : v ∈ a.currentLevelVars) : ctx.levelOf v = ctx.currentDecisionLevel := by
  obtain ⟨-, -, -, hlev⟩ := (h.pending v).mp hv
  exact hlev

theorem toLit_eq_of_isFalse {α : VarId → Option Bool} {p q : Literal × VarId}
    (hp : (toLit p).IsFalse α) (hq : (toLit q).IsFalse α) (h : p.2 = q.2) : toLit p = toLit q := by
  have hp' : α p.2 = some (!p.1.isOn) := hp
  have hq' : α q.2 = some (!q.1.isOn) := hq
  rw [h, hq'] at hp'
  have hsign : p.1.isOn = q.1.isOn := by simpa using hp'.symm
  simp [toLit, h, hsign]

theorem levelOf_le (hw : Wf (models m) ctx.state) {p : Literal × VarId}
    (h : (toLit p).IsFalse ctx.state.value) : ctx.levelOf p.2 ≤ ctx.currentDecisionLevel :=
  hw.le_current p.2 (hw.mem_of_isFalse h)

theorem mem_startAnalysis {c : Clause} {v : VarId} :
    v ∈ (startAnalysis ctx c).currentLevelVars ↔
      ∃ p ∈ c, p.2 = v ∧ ctx.levelOf v = ctx.currentDecisionLevel := by
  simp only [startAnalysis, List.mem_map, List.mem_filter, decide_eq_true_eq]
  constructor
  · rintro ⟨p, ⟨hp, hlev⟩, rfl⟩
    exact ⟨p, hp, rfl, hlev⟩
  · rintro ⟨p, hp, rfl, hlev⟩
    exact ⟨p, ⟨hp, hlev⟩, rfl⟩

theorem startAnalysis_inv (hl : Linked m ctx) (hw : Wf (models m) ctx.state)
    (hq : Quiet ctx.state) {id : ClauseId} (hid : id < ctx.clauses.length)
    (hf : Falsified ctx.state.value (toCnf (ctx.clause id))) :
    AnalysisInv m ctx (startAnalysis ctx (ctx.clause id)) := by
  have htrail : ∀ v ∈ (startAnalysis ctx (ctx.clause id)).currentLevelVars, v ∈ ctx.trail := by
    intro v hv
    obtain ⟨p, hp, rfl, -⟩ := mem_startAnalysis.mp hv
    exact mem_trail_of_isFalse hw (hf _ (toLit_mem_toCnf hp))
  have hindex : ctx.trail.length ≤ lastIndex ctx.trail.length + 1 := by
    unfold lastIndex
    split <;> omega
  refine ⟨hl.resolved_clause hid, hf, hw.entailed _ (Linked.toCnf_mem_clauses hid),
    fun _ => mem_startAnalysis, ?_, ?_, ?_, Or.inl rfl⟩
  · intro v hv
    show v ∈ ctx.trail.take (lastIndex ctx.trail.length + 1)
    rw [List.take_of_length_le hindex]
    exact htrail v hv
  · intro hne
    obtain ⟨v, hv⟩ := List.exists_mem_of_ne_nil _ hne
    have hpos := List.length_pos_of_mem (htrail v hv)
    show lastIndex ctx.trail.length < ctx.trail.length
    rw [lastIndex, if_neg (by omega)]
    omega
  · -- `Quiet` gives the conflict clause literals of the current level
    intro hpos hnil
    have htwo := two_le_current_of_falsified hw hq (Linked.toCnf_mem_clauses hid) hf hpos
    obtain ⟨l, hmem⟩ := List.exists_mem_of_length_pos (lt_of_lt_of_le Nat.zero_lt_two htwo)
    obtain ⟨hC, hlev⟩ := List.mem_filter.mp hmem
    obtain ⟨p, hp, rfl⟩ := mem_toCnf.mp hC
    have : p.2 ∈ (startAnalysis ctx (ctx.clause id)).currentLevelVars :=
      mem_startAnalysis.mpr ⟨p, hp, rfl, of_decide_eq_true hlev⟩
    rw [hnil] at this
    cases this

/-- The pending test finds a propagated variable of the current level that is still pending. -/
theorem isPending_iff (hm : m.WellFormed) (hl : Linked m ctx) (hw : Wf (models m) ctx.state)
    {pending : List VarId} (hp : ∀ v ∈ pending, v ∈ ctx.trail) {i : Nat}
    (hi : i < ctx.trail.length) :
    isPending ctx pending i = true ↔
      (ctx.var (ctx.trailVar i)).context.clausePropagation ≠ none ∧
      ctx.levelOf (ctx.trailVar i) = ctx.currentDecisionLevel ∧ ctx.trailVar i ∈ pending := by
  have hmem : ctx.trailVar i ∈ ctx.trail := List.mem_reverse.mp (trailVar_mem hi)
  have hany : pending.any (fun v =>
      (ctx.var v).literal.value == (ctx.var (ctx.trailVar i)).literal.value) = true ↔
      ctx.trailVar i ∈ pending := by
    rw [List.any_eq_true]
    constructor
    · -- records of the same absolute value are the same record
      rintro ⟨v, hv, heq⟩
      rw [hl.literal_value, hl.literal_value, beq_iff_eq] at heq
      have := Model.varValue_inj hm (lt_literals_of_mem_trail hl hw (hp v hv))
        (lt_literals_of_mem_trail hl hw hmem) heq
      rwa [← this]
    · exact fun h => ⟨_, h, by simp⟩
  unfold isPending
  rw [Bool.and_eq_true, Bool.and_eq_true, hany, decide_eq_true_eq, and_assoc]
  apply and_congr_left
  intro _
  rcases hc : (ctx.var (ctx.trailVar i)).context.clausePropagation with _ | id <;>
    simp [AssignmentContext.isDecision, AssignmentContext.isPropagated, hc]

/-! ### Merging one antecedent -/

/-- What holds after merging the part `done` of the antecedent of `v` into `a`: which literals
`b` has, which of them are new, and what the new ones did to the list of pending variables and to
the backtracking level. -/
structure MergeInv (ctx : SolverContext) (a : Analysis) (v : VarId) (done : Clause)
    (b : Analysis) : Prop where
  kept : ∀ p ∈ a.learnedClause, p ∈ b.learnedClause
  origin : ∀ p ∈ b.learnedClause, p ∈ a.learnedClause ∨
    (p ∈ done ∧ p.2 ≠ v ∧ ∀ q ∈ a.learnedClause, q.2 ≠ p.2)
  covered : ∀ p ∈ done, p.2 ≠ v → ∃ q ∈ b.learnedClause, q.2 = p.2
  pending : ∃ extra, b.currentLevelVars = a.currentLevelVars ++ extra ∧ extra.Nodup ∧
    ∀ w, w ∈ extra ↔ ∃ p ∈ b.learnedClause, p ∉ a.learnedClause ∧ p.2 = w ∧
      ctx.levelOf w = ctx.currentDecisionLevel
  mono : a.backtrackLevel ≤ b.backtrackLevel
  raised : ∀ p ∈ b.learnedClause, p ∉ a.learnedClause →
    ctx.levelOf p.2 ≠ ctx.currentDecisionLevel → ctx.levelOf p.2 ≤ b.backtrackLevel
  level : b.backtrackLevel = a.backtrackLevel ∨
    b.backtrackLevel < ctx.currentDecisionLevel ∧
      ∃ p ∈ b.learnedClause, p ∉ a.learnedClause ∧ ctx.levelOf p.2 = b.backtrackLevel

/-- A pending variable was pending before, or a literal of the antecedent brought it. -/
theorem MergeInv.pending_cases {ctx : SolverContext} {a b : Analysis} {v w : VarId} {done : Clause}
    (h : MergeInv ctx a v done b) (hw : w ∈ b.currentLevelVars) :
    w ∈ a.currentLevelVars ∨ ∃ p ∈ done, p.2 = w := by
  obtain ⟨extra, heq, -, hextra⟩ := h.pending
  rw [heq] at hw
  rcases List.mem_append.mp hw with hold | hnew
  · exact Or.inl hold
  · obtain ⟨p, hpb, hpa, rfl, -⟩ := (hextra w).mp hnew
    rcases h.origin p hpb with hmem | ⟨hdone, -⟩
    · exact absurd hmem hpa
    · exact Or.inr ⟨p, hdone, rfl⟩

theorem MergeInv.start (ctx : SolverContext) (a : Analysis) (v : VarId) :
    MergeInv ctx a v [] a where
  kept _ h := h
  origin _ h := Or.inl h
  covered _ h := absurd h List.not_mem_nil
  pending := by
    refine ⟨[], (List.append_nil _).symm, List.nodup_nil, fun w => ?_⟩
    constructor
    · intro h
      exact absurd h List.not_mem_nil
    · rintro ⟨p, hp, hnp, -⟩
      exact absurd hp hnp
  mono := le_refl _
  raised _ hp hnp := absurd hp hnp
  level := Or.inl rfl

/-- A literal that is skipped is covered already. -/
theorem MergeInv.skip {a b : Analysis} {v : VarId} {done : Clause} {p : Literal × VarId}
    (h : MergeInv ctx a v done b) (hp : p.2 ≠ v → ∃ q ∈ b.learnedClause, q.2 = p.2) :
    MergeInv ctx a v (done ++ [p]) b where
  kept := h.kept
  origin q hq := (h.origin q hq).imp_right (fun h' => ⟨List.mem_append_left _ h'.1, h'.2⟩)
  covered q hq hne := by
    rcases List.mem_append.mp hq with hq' | hq'
    · exact h.covered q hq' hne
    · rw [List.mem_singleton.mp hq'] at hne ⊢
      exact hp hne
  pending := h.pending
  mono := h.mono
  raised := h.raised
  level := h.level

section Add

variable {a b : Analysis} {v : VarId} {done : Clause} {p : Literal × VarId}

/-- A new variable becomes pending if it is of the current level. -/
theorem MergeInv.pending_add (h : MergeInv ctx a v done b)
    (hnew : ∀ q ∈ b.learnedClause, q.2 ≠ p.2) :
    ∃ extra, (if ctx.levelOf p.2 = ctx.currentDecisionLevel then b.currentLevelVars ++ [p.2]
        else b.currentLevelVars) = a.currentLevelVars ++ extra ∧ extra.Nodup ∧
      ∀ w, w ∈ extra ↔ ∃ q ∈ b.learnedClause ++ [p], q ∉ a.learnedClause ∧ q.2 = w ∧
        ctx.levelOf w = ctx.currentDecisionLevel := by
  have hpa : p ∉ a.learnedClause := fun hmem => hnew p (h.kept p hmem) rfl
  obtain ⟨extra, heq, hnd, hmem⟩ := h.pending
  have hpe : p.2 ∉ extra := by
    intro hin
    obtain ⟨q, hq, -, hqp, -⟩ := (hmem p.2).mp hin
    exact hnew q hq hqp
  by_cases hlev : ctx.levelOf p.2 = ctx.currentDecisionLevel
  · refine ⟨extra ++ [p.2], ?_, ?_, fun w => ?_⟩
    · rw [if_pos hlev, heq, List.append_assoc]
    · exact List.nodup_append.mpr ⟨hnd, List.nodup_singleton _, fun w hw w' hw' he =>
        hpe (by rw [← List.mem_singleton.mp hw', ← he]; exact hw)⟩
    · simp only [List.mem_append, List.mem_singleton]
      constructor
      · rintro (hw | rfl)
        · obtain ⟨q, hq, hq'⟩ := (hmem w).mp hw
          exact ⟨q, Or.inl hq, hq'⟩
        · exact ⟨p, Or.inr rfl, hpa, rfl, hlev⟩
      · rintro ⟨q, hq | rfl, hq'⟩
        · exact Or.inl ((hmem w).mpr ⟨q, hq, hq'⟩)
        · exact Or.inr hq'.2.1.symm
  · refine ⟨extra, ?_, hnd, fun w => ?_⟩
    · rw [if_neg hlev]
      exact heq
    · simp only [List.mem_append, List.mem_singleton]
      constructor
      · intro hw
        obtain ⟨q, hq, hq'⟩ := (hmem w).mp hw
        exact ⟨q, Or.inl hq, hq'⟩
      · rintro ⟨q, hq | rfl, hq'⟩
        · exact (hmem w).mpr ⟨q, hq, hq'⟩
        · exact absurd (hq'.2.1 ▸ hq'.2.2) hlev

/-- A literal of a new variable is added; below the current level it only counts for the
backtracking level. -/
theorem MergeInv.add (h : MergeInv ctx a v done b) (hpv : p.2 ≠ v)
    (hnew : ∀ q ∈ b.learnedClause, q.2 ≠ p.2)
    (hle : ctx.levelOf p.2 ≤ ctx.currentDecisionLevel) :
    MergeInv ctx a v (done ++ [p])
      { b with
        learnedClause := b.learnedClause ++ [p]
        currentLevelVars :=
          if ctx.levelOf p.2 = ctx.currentDecisionLevel then b.currentLevelVars ++ [p.2]
          else b.currentLevelVars
        backtrackLevel :=
          if ctx.levelOf p.2 ≠ ctx.currentDecisionLevel ∧ b.backtrackLevel < ctx.levelOf p.2
          then ctx.levelOf p.2 else b.backtrackLevel } := by
  have hpa : p ∉ a.learnedClause := fun hmem => hnew p (h.kept p hmem) rfl
  have hlevel : b.backtrackLevel ≤
      (if ctx.levelOf p.2 ≠ ctx.currentDecisionLevel ∧ b.backtrackLevel < ctx.levelOf p.2
        then ctx.levelOf p.2 else b.backtrackLevel) := by
    split <;> omega
  refine ⟨fun q hq => List.mem_append_left _ (h.kept q hq), fun q hq => ?_, fun q hq hne => ?_,
    h.pending_add hnew, le_trans h.mono hlevel, fun q hq hqa hql => ?_, ?_⟩
  · rcases List.mem_append.mp hq with hq' | hq'
    · exact (h.origin q hq').imp_right (fun h' => ⟨List.mem_append_left _ h'.1, h'.2⟩)
    · rw [List.mem_singleton.mp hq']
      exact Or.inr ⟨by simp, hpv, fun q' hq'' => hnew q' (h.kept q' hq'')⟩
  · rcases List.mem_append.mp hq with hq' | hq'
    · obtain ⟨q', hq'', heq⟩ := h.covered q hq' hne
      exact ⟨q', List.mem_append_left _ hq'', heq⟩
    · rw [List.mem_singleton.mp hq']
      exact ⟨p, by simp, rfl⟩
  · rcases List.mem_append.mp hq with hq' | hq'
    · exact le_trans (h.raised q hq' hqa hql) hlevel
    · rw [List.mem_singleton.mp hq'] at hql ⊢
      show ctx.levelOf p.2 ≤ if _ then ctx.levelOf p.2 else b.backtrackLevel
      split <;> omega
  · by_cases hraise : ctx.levelOf p.2 ≠ ctx.currentDecisionLevel ∧
        b.backtrackLevel < ctx.levelOf p.2
    · simp only [if_pos hraise]
      exact Or.inr ⟨lt_of_le_of_ne hle hraise.1, p, by simp, hpa, rfl⟩
    · simp only [if_neg hraise]
      apply h.level.imp_right
      rintro ⟨hlt, q, hq, hqa, heq⟩
      exact ⟨hlt, q, List.mem_append_left _ hq, hqa, heq⟩

end Add

theorem addAntecedent_inv (hm : m.WellFormed) {a b : Analysis} {v : VarId} {trailLit : Literal}
    {done : Clause} {p : Literal × VarId} (hv : m.Resolved (trailLit, v))
    (ha : ∀ q ∈ a.learnedClause, m.Resolved q) (hdone : ∀ q ∈ done, m.Resolved q)
    (hp : m.Resolved p) (hle : ctx.levelOf p.2 ≤ ctx.currentDecisionLevel)
    (h : MergeInv ctx a v done b) :
    MergeInv ctx a v (done ++ [p]) (addAntecedent ctx trailLit b p) := by
  have hb : ∀ q ∈ b.learnedClause, m.Resolved q := by
    intro q hq
    rcases h.origin q hq with h' | h'
    · exact ha q h'
    · exact hdone q h'.1
  have hself : p.1.value = trailLit.value ↔ p.2 = v := hp.value_eq_iff hm hv
  unfold addAntecedent
  split
  · -- skipped because the variable is the resolved one or already in the clause
    rename_i hskip
    apply h.skip
    intro hne
    rcases Bool.or_eq_true_iff.mp hskip with hs | hs
    · exact absurd (hself.mp (beq_iff_eq.mp hs)) hne
    · obtain ⟨q, hq, heq⟩ := List.any_eq_true.mp hs
      exact ⟨q, hq, ((hp.value_eq_iff hm (hb q hq)).mp (beq_iff_eq.mp heq)).symm⟩
  · rename_i hadd
    rw [Bool.or_eq_true_iff, not_or] at hadd
    refine h.add (fun he => hadd.1 (beq_iff_eq.mpr (hself.mpr he))) (fun q hq he => ?_) hle
    refine hadd.2 (List.any_eq_true.mpr ⟨q, hq, beq_iff_eq.mpr ?_⟩)
    exact (hp.value_eq_iff hm (hb q hq)).mpr he.symm

theorem foldl_addAntecedent_inv (hm : m.WellFormed) {a : Analysis} {v : VarId}
    {trailLit : Literal} {reason : Clause} (hv : m.Resolved (trailLit, v))
    (ha : ∀ q ∈ a.learnedClause, m.Resolved q) (hr : ∀ q ∈ reason, m.Resolved q)
    (hle : ∀ q ∈ reason, ctx.levelOf q.2 ≤ ctx.currentDecisionLevel) :
    MergeInv ctx a v reason (reason.foldl (addAntecedent ctx trailLit) a) := by
  -- by induction on what is left of the antecedent
  have key : ∀ (rest done : Clause) (b : Analysis), (∀ q ∈ done ++ rest, q ∈ reason) →
      MergeInv ctx a v done b →
      MergeInv ctx a v (done ++ rest) (rest.foldl (addAntecedent ctx trailLit) b) := by
    intro rest
    induction rest with
    | nil =>
        intro done b _ h
        rw [List.append_nil]
        exact h
    | cons p rest ih =>
        intro done b hsub h
        have hp : p ∈ reason := hsub p (by simp)
        have hdone : ∀ q ∈ done, m.Resolved q := fun q hq =>
          hr q (hsub q (List.mem_append_left _ hq))
        have hstep := addAntecedent_inv hm hv ha hdone (hr p hp) (hle p hp) h
        have := ih (done ++ [p]) _ (by simpa using hsub) hstep
        simpa using this
  exact key reason [] a (fun q hq => by simpa using hq) (MergeInv.start ctx a v)

end Analysis

end Fabko.Sat
