import Fabko.Sat.Analysis

set_option autoImplicit false

/-! # Conflict analysis is resolution

The loop of `resolve_conflict` keeps a clause that is entailed by the model and false under the
assignment, together with the list of its variables of the current level. `Pivot` is what the inner
loop finds, `Resolvent` what one step makes of the clause and `Resolvent.inv` the step lemma. What
the caller gets is `resolveConflict_spec`. -/

namespace Fabko.Sat

open Cnf Cdcl

variable {m : Model} {ctx : SolverContext}

/-! ## One resolution step -/

/-- The trail entry at index `i` is the one to resolve next, and `id` is its reason. -/
structure Pivot (ctx : SolverContext) (a : Analysis) (i : Nat) (id : ClauseId) : Prop where
  pos : 0 < i
  lt : i < ctx.trail.length
  reason : (ctx.var (ctx.trailVar i)).context.clausePropagation = some id
  level : ctx.levelOf (ctx.trailVar i) = ctx.currentDecisionLevel
  mem : ctx.trailVar i ∈ a.currentLevelVars
  earlier : ∀ w ∈ a.currentLevelVars, w ≠ ctx.trailVar i → w ∈ ctx.trail.take i

/-- An index that the inner loop walked past holds no pending variable but a decision. -/
theorem AnalysisInv.clausePropagation_of_seekTrail_lt (hm : m.WellFormed) (hl : Linked m ctx)
    (hw : Wf (models m) ctx.state) {a : Analysis} (h : AnalysisInv m ctx a) {j : Nat}
    (hlt : seekTrail ctx a.currentLevelVars a.trailIndex < j) (hj : j < a.trailIndex + 1)
    (hlen : j < ctx.trail.length) (hv : ctx.trailVar j ∈ a.currentLevelVars) :
    (ctx.var (ctx.trailVar j)).context.clausePropagation = none := by
  by_contra hsome
  have hp := (isPending_iff hm hl hw (fun _ => h.mem_trail) hlen).mpr
    ⟨hsome, h.level_of_pending hv, hv⟩
  rw [not_isPending_of_seekTrail_lt hlt (Nat.lt_succ_iff.mp hj)] at hp
  cases hp

/-- Where the inner loop stops short of index 0, it stops at the last pending variable. -/
theorem exists_pivot (hm : m.WellFormed) (hl : Linked m ctx) (hw : Wf (models m) ctx.state)
    {a : Analysis} (h : AnalysisInv m ctx a) (hlen : 1 < a.currentLevelVars.length)
    (hz : seekTrail ctx a.currentLevelVars a.trailIndex ≠ 0) :
    ∃ id, Pivot ctx a (seekTrail ctx a.currentLevelVars a.trailIndex) id := by
  set i := seekTrail ctx a.currentLevelVars a.trailIndex
  have hne : a.currentLevelVars ≠ [] := by
    rintro hnil
    rw [hnil] at hlen
    simp at hlen
  have hilt : i < ctx.trail.length :=
    lt_of_le_of_lt (seekTrail_le ctx a.currentLevelVars a.trailIndex) (h.inRange hne)
  obtain ⟨hprop, hvlev, hvmem⟩ :=
    (isPending_iff hm hl hw (fun _ => h.mem_trail) hilt).mp (isPending_seekTrail hz)
  obtain ⟨id, hid⟩ := Option.ne_none_iff_exists'.mp hprop
  refine ⟨id, Nat.pos_of_ne_zero hz, hilt, hid, hvlev, hvmem, fun w hwa hwv => ?_⟩
  obtain ⟨j, hjt, hjlt, hj⟩ := mem_take_iff.mp (h.onTrail w hwa)
  refine mem_take_iff.mpr ⟨j, ?_, hjlt, hj⟩
  by_contra hge
  have hji : i ≠ j := by
    rintro rfl
    exact hwv hj.symm
  have hij : i < j := by omega
  -- the index walked past holds the decision, and the pivot of the same level comes before it
  have hdec := h.clausePropagation_of_seekTrail_lt hm hl hw hij hjt hjlt (hj ▸ hwa)
  have hlt := level_lt_of_decision hw hij hjlt hdec
  rw [hvlev, hj, h.level_of_pending hwa] at hlt
  exact lt_irrefl _ hlt

/-- What one resolution step on the pivot at index `i` makes of the clause. -/
structure Resolvent (ctx : SolverContext) (a : Analysis) (i : Nat) (id : ClauseId)
    (b : Analysis) : Prop where
  index : b.trailIndex = i - 1
  kept : ∀ p ∈ a.learnedClause, p.2 ≠ ctx.trailVar i → p ∈ b.learnedClause
  origin : ∀ p ∈ b.learnedClause, p.2 ≠ ctx.trailVar i ∧ (p ∈ a.learnedClause ∨
    p ∈ ctx.clause id ∧ ∀ q ∈ a.learnedClause, q.2 ≠ p.2)
  covered : ∀ p ∈ ctx.clause id, p.2 ≠ ctx.trailVar i → ∃ q ∈ b.learnedClause, q.2 = p.2
  pending : ∃ extra, b.currentLevelVars
      = a.currentLevelVars.filter (fun w => w ≠ ctx.trailVar i) ++ extra ∧ extra.Nodup ∧
    ∀ w, w ∈ extra ↔ ∃ p ∈ b.learnedClause, p ∉ a.learnedClause ∧ p.2 = w ∧
      ctx.levelOf w = ctx.currentDecisionLevel
  mono : a.backtrackLevel ≤ b.backtrackLevel
  raised : ∀ p ∈ b.learnedClause, p ∉ a.learnedClause →
    ctx.levelOf p.2 ≠ ctx.currentDecisionLevel → ctx.levelOf p.2 ≤ b.backtrackLevel
  level : b.backtrackLevel = a.backtrackLevel ∨
    b.backtrackLevel < ctx.currentDecisionLevel ∧
      ∃ p ∈ b.learnedClause, p ∉ a.learnedClause ∧ ctx.levelOf p.2 = b.backtrackLevel

section Step

variable {a b : Analysis} {i : Nat} {id : ClauseId}

/-- The antecedent's other literals are false and earlier on the trail. -/
theorem Pivot.others (hw : Wf (models m) ctx.state) (hp : Pivot ctx a i id) :
    ∀ q ∈ ctx.clause id, q.2 ≠ ctx.trailVar i →
      (toLit q).IsFalse ctx.state.value ∧ q.2 ∈ ctx.trail.take i := by
  intro q hq hqv
  obtain ⟨hfalse, hold⟩ :=
    (isReason_at hw hp.lt hp.reason).others (toLit q) (toLit_mem_toCnf hq) hqv
  exact ⟨hfalse, List.mem_reverse.mp hold⟩

theorem Pivot.var_lt (hl : Linked m ctx) (hw : Wf (models m) ctx.state)
    (hp : Pivot ctx a i id) : ctx.trailVar i < m.literals.length :=
  lt_literals_of_mem_trail hl hw (List.mem_reverse.mp (trailVar_mem hp.lt))

theorem Pivot.resolved (hl : Linked m ctx) (hp : Pivot ctx a i id) :
    ∀ q ∈ ctx.clause id, m.Resolved q :=
  hl.resolved_clause (hl.reasons _ id hp.reason)

/-- Erasing literals by their value is erasing them by their variable. -/
theorem mem_filter_value_iff (hm : m.WellFormed) {c : Clause} {r : Literal × VarId}
    (hc : ∀ p ∈ c, m.Resolved p) (hr : m.Resolved r) (p : Literal × VarId) :
    p ∈ c.filter (fun q => !(q.1.value == r.1.value)) ↔ p ∈ c ∧ p.2 ≠ r.2 := by
  rw [List.mem_filter]
  apply and_congr_right
  intro hpc
  rw [Bool.not_eq_true', beq_eq_false_iff_ne, ne_eq, (hc p hpc).value_eq_iff hm hr]

/-- Erasing pending variables by their literal is erasing them by their id. -/
theorem filter_same_eq (hm : m.WellFormed) (hl : Linked m ctx) {v : VarId} {ws : List VarId}
    (hv : v < m.literals.length) (hws : ∀ w ∈ ws, w < m.literals.length) :
    ws.filter (fun w => !((ctx.var w).literal.same (ctx.var v).literal))
      = ws.filter (fun w => w ≠ v) := by
  apply List.filter_congr
  intro w hw
  rw [Literal.same, hl.literal_value, hl.literal_value, Bool.eq_iff_iff]
  rw [Bool.not_eq_true', beq_eq_false_iff_ne, decide_eq_true_eq, ne_eq, ne_eq, not_iff_not]
  exact ⟨Model.varValue_inj hm (hws w hw) hv, fun he => by rw [he]⟩

theorem resolveAt_resolvent (hm : m.WellFormed) (hl : Linked m ctx)
    (hw : Wf (models m) ctx.state) (h : AnalysisInv m ctx a) (hp : Pivot ctx a i id) :
    Resolvent ctx a i id (resolveAt ctx a i) := by
  set v := ctx.trailVar i with hvdef
  have hvlt : v < m.literals.length := hp.var_lt hl hw
  have hvres : m.Resolved ((ctx.var v).literal, v) := ⟨hvlt, hl.literal_value v⟩
  have hle : ∀ q ∈ ctx.clause id, ctx.levelOf q.2 ≤ ctx.currentDecisionLevel := by
    intro q hq
    by_cases hqv : q.2 = v
    · rw [hqv, hp.level]
    · exact levelOf_le hw (hp.others hw q hq hqv).1
  -- the clause without the resolved variable
  set erased : Analysis :=
    { a with
      learnedClause := a.learnedClause.filter (fun p =>
        !(p.1.value == (ctx.var v).literal.value)) } with herased
  have hmemE : ∀ p, p ∈ erased.learnedClause ↔ p ∈ a.learnedClause ∧ p.2 ≠ v :=
    mem_filter_value_iff hm h.resolved hvres
  have hmerge := @foldl_addAntecedent_inv m ctx hm erased v (ctx.var v).literal (ctx.clause id) hvres
    (fun q hq => h.resolved q ((hmemE q).mp hq).1) (hp.resolved hl) hle
  set merged := (ctx.clause id).foldl (addAntecedent ctx (ctx.var v).literal) erased with hmdef
  have hres : resolveAt ctx a i =
      { merged with
        currentLevelVars := merged.currentLevelVars.filter (fun w =>
          !((ctx.var w).literal.same (ctx.var v).literal))
        trailIndex := i - 1 } := by
    have hid : (ctx.var v).context.clausePropagation = some id := hp.reason
    simp only [resolveAt, ← hvdef, hid, ← herased, ← hmdef]
  have hnev : ∀ p ∈ merged.learnedClause, p.2 ≠ v := by
    intro p hpm
    rcases hmerge.origin p hpm with hpe | hpr
    · exact ((hmemE p).mp hpe).2
    · exact hpr.2.1
  have hnot : ∀ p, p.2 ≠ v → (p ∉ erased.learnedClause ↔ p ∉ a.learnedClause) := fun p hpv =>
    not_congr ((hmemE p).trans (and_iff_left hpv))
  rw [hres]
  refine ⟨rfl, fun p hpa hpv => hmerge.kept p ((hmemE p).mpr ⟨hpa, hpv⟩), fun p hpm => ?_,
    hmerge.covered, ?_, hmerge.mono, fun p hpm hpa => ?_, hmerge.level.imp_right ?_⟩
  · refine ⟨hnev p hpm, ?_⟩
    rcases hmerge.origin p hpm with hpe | ⟨hpr, hpv, hnew⟩
    · exact Or.inl ((hmemE p).mp hpe).1
    · by_cases hpa : p ∈ a.learnedClause
      · exact Or.inl hpa
      · refine Or.inr ⟨hpr, fun q hq he => ?_⟩
        exact hnew q ((hmemE q).mpr ⟨hq, he ▸ hpv⟩) he
  · obtain ⟨extra, heq, hnd, hmem⟩ := hmerge.pending
    refine ⟨extra, ?_, hnd, fun w => (hmem w).trans (exists_congr (fun p => ?_))⟩
    · -- erasing by literal is erasing by id, and the new variables are not the resolved one
      have hextra : ∀ w ∈ extra, w ≠ v := by
        intro w hwe
        obtain ⟨p, hpm, -, rfl, -⟩ := (hmem w).mp hwe
        exact hnev p hpm
      have hlt : ∀ w ∈ merged.currentLevelVars, w < m.literals.length := by
        intro w hwm
        rcases hmerge.pending_cases hwm with hwa | ⟨p, hpr, rfl⟩
        · exact lt_literals_of_mem_trail hl hw (h.mem_trail hwa)
        · exact (hp.resolved hl p hpr).lt
      show merged.currentLevelVars.filter _ = _
      rw [filter_same_eq hm hl hvlt hlt, heq, List.filter_append]
      congr 1
      exact List.filter_eq_self.mpr (fun w hwe => by simpa using hextra w hwe)
    · refine and_congr_right (fun hpm => and_congr_left (fun _ => hnot p (hnev p hpm)))
  · exact hmerge.raised p hpm ((hnot p (hnev p hpm)).mpr hpa)
  · rintro ⟨hlt, p, hpm, hpe, heq⟩
    exact ⟨hlt, p, hpm, (hnot p (hnev p hpm)).mp hpe, heq⟩

namespace Resolvent

theorem isFalse (hw : Wf (models m) ctx.state) (h : AnalysisInv m ctx a) (hp : Pivot ctx a i id)
    (hr : Resolvent ctx a i id b) : ∀ p ∈ b.learnedClause, (toLit p).IsFalse ctx.state.value := by
  intro p hpb
  obtain ⟨hpv, hpa | hpr⟩ := hr.origin p hpb
  · exact h.falsified _ (toLit_mem_toCnf hpa)
  · exact (hp.others hw p hpr.1 hpv).1

/-- Resolution on the pivot: its literal is false in the clause and true in the antecedent. -/
theorem entailed (hw : Wf (models m) ctx.state) (h : AnalysisInv m ctx a)
    (hp : Pivot ctx a i id) (hr : Resolvent ctx a i id b) :
    Entails (models m) (toCnf b.learnedClause) := by
  have hreason := isReason_at hw hp.lt hp.reason
  obtain ⟨val, hval⟩ := hw.value_isSome (trailVar_mem hp.lt)
  refine h.entailed.resolve (v := ctx.trailVar i) (b := val) (hw.entailed _ hreason.mem)
    ?_ ?_ ?_ ?_
  · intro l hlm hlv
    have hlf : ctx.state.value l.var = some (!l.sign) := h.falsified l hlm
    rw [hlv, hval, Option.some.injEq] at hlf
    rw [hlf, Bool.not_not]
  · intro l hlm hlv
    have hlt := hreason.sign_eq hlm hlv
    rw [hval, Option.some.injEq] at hlt
    exact hlt.symm
  · intro l hlm hlv
    obtain ⟨p, hpa, rfl⟩ := mem_toCnf.mp hlm
    exact toLit_mem_toCnf (hr.kept p hpa hlv)
  · -- a literal that was skipped is there already: both are false, so they are the same
    intro l hlm hlv
    obtain ⟨p, hpr, rfl⟩ := mem_toCnf.mp hlm
    obtain ⟨q, hqb, heq⟩ := hr.covered p hpr hlv
    rw [← toLit_eq_of_isFalse (hr.isFalse hw h hp q hqb) (hp.others hw p hpr hlv).1 heq]
    exact toLit_mem_toCnf hqb

theorem mem_currentLevelVars (h : AnalysisInv m ctx a) (hr : Resolvent ctx a i id b)
    (w : VarId) : w ∈ b.currentLevelVars ↔
      ∃ p ∈ b.learnedClause, p.2 = w ∧ ctx.levelOf w = ctx.currentDecisionLevel := by
  obtain ⟨extra, heq, -, hmem⟩ := hr.pending
  rw [heq, List.mem_append, hmem w, List.mem_filter, h.pending w]
  constructor
  · rintro (⟨⟨p, hpa, rfl, hlev⟩, hne⟩ | ⟨p, hpb, -, hpw⟩)
    · exact ⟨p, hr.kept p hpa (by simpa using hne), rfl, hlev⟩
    · exact ⟨p, hpb, hpw⟩
  · rintro ⟨p, hpb, rfl, hlev⟩
    by_cases hpa : p ∈ a.learnedClause
    · exact Or.inl ⟨⟨p, hpa, rfl, hlev⟩, by simpa using (hr.origin p hpb).1⟩
    · exact Or.inr ⟨p, hpb, hpa, rfl, hlev⟩

/-- What is still pending comes before the pivot. -/
theorem onTrail (hw : Wf (models m) ctx.state) (h : AnalysisInv m ctx a)
    (hp : Pivot ctx a i id) (hr : Resolvent ctx a i id b) :
    ∀ w ∈ b.currentLevelVars, w ∈ ctx.trail.take i := by
  intro w hwb
  obtain ⟨p, hpb, rfl, hlev⟩ := (hr.mem_currentLevelVars h w).mp hwb
  obtain ⟨hpv, hpa | hpr⟩ := hr.origin p hpb
  · exact hp.earlier p.2 ((h.pending p.2).mpr ⟨p, hpa, rfl, hlev⟩) hpv
  · exact (hp.others hw p hpr.1 hpv).2

/-- Above level 0 the antecedent brings in another variable of the current level. -/
theorem nonempty (hw : Wf (models m) ctx.state) (h : AnalysisInv m ctx a)
    (hp : Pivot ctx a i id) (hr : Resolvent ctx a i id b) (hpos : 0 < ctx.currentDecisionLevel) :
    b.currentLevelVars ≠ [] := by
  intro hnil
  have hvpos : 0 < ctx.state.level (ctx.trailVar i) := by
    show 0 < ctx.levelOf (ctx.trailVar i)
    rw [hp.level]
    exact hpos
  obtain ⟨l, hlm, hlv, hlev⟩ := (isReason_at hw hp.lt hp.reason).level hvpos
  obtain ⟨p, hpr, rfl⟩ := mem_toCnf.mp hlm
  obtain ⟨q, hqb, heq⟩ := hr.covered p hpr hlv
  have hqlev : ctx.levelOf q.2 = ctx.currentDecisionLevel :=
    calc ctx.levelOf q.2
        = ctx.levelOf p.2 := by rw [heq]
      _ = ctx.levelOf (ctx.trailVar i) := hlev
      _ = ctx.currentDecisionLevel := hp.level
  have hq := (hr.mem_currentLevelVars h q.2).mpr ⟨q, hqb, rfl, hqlev⟩
  rw [hnil] at hq
  cases hq

end Resolvent

theorem Resolvent.inv (hl : Linked m ctx) (hw : Wf (models m) ctx.state)
    (h : AnalysisInv m ctx a) (hp : Pivot ctx a i id) (hr : Resolvent ctx a i id b) :
    AnalysisInv m ctx b := by
  refine ⟨fun p hpb => ?_, fun l hlb => ?_, hr.entailed hw h hp, hr.mem_currentLevelVars h, ?_, ?_,
    hr.nonempty hw h hp, ?_⟩
  · rcases (hr.origin p hpb).2 with hpa | hpr
    · exact h.resolved p hpa
    · exact hp.resolved hl p hpr.1
  · obtain ⟨p, hpb, rfl⟩ := mem_toCnf.mp hlb
    exact hr.isFalse hw h hp p hpb
  · intro w hwb
    rw [hr.index, Nat.sub_add_cancel hp.pos]
    exact hr.onTrail hw h hp w hwb
  · intro _
    rw [hr.index]
    exact lt_of_le_of_lt (Nat.sub_le i 1) hp.lt
  · rcases hr.level with heq | ⟨hlt, p, hpb, -, hlev⟩
    · rw [heq]
      apply h.level.imp_right
      rintro ⟨hlt, p, hpa, hlev⟩
      -- the literal that gave the level is of a lower one, so it is not erased
      refine ⟨hlt, p, hr.kept p hpa (fun he => ?_), hlev⟩
      rw [he, hp.level] at hlev
      omega
    · exact Or.inr ⟨hlt, p, hpb, hlev⟩

end Step

/-! ## Where the loop ends -/

theorem resolveAt_inv (hm : m.WellFormed) (hl : Linked m ctx) (hw : Wf (models m) ctx.state)
    {a : Analysis} (h : AnalysisInv m ctx a) (hlen : 1 < a.currentLevelVars.length)
    (hz : seekTrail ctx a.currentLevelVars a.trailIndex ≠ 0) :
    AnalysisInv m ctx (resolveAt ctx a (seekTrail ctx a.currentLevelVars a.trailIndex)) := by
  obtain ⟨id, hp⟩ := exists_pivot hm hl hw h hlen hz
  exact (resolveAt_resolvent hm hl hw h hp).inv hl hw h hp

/-- When the walk reaches index 0, every pending variable is a decision. -/
theorem clausePropagation_eq_none_of_seekTrail (hm : m.WellFormed) (hl : Linked m ctx)
    (hw : Wf (models m) ctx.state) {a : Analysis} (h : AnalysisInv m ctx a)
    (hpos : 0 < ctx.currentDecisionLevel)
    (hz : seekTrail ctx a.currentLevelVars a.trailIndex = 0) {v : VarId}
    (hv : v ∈ a.currentLevelVars) : (ctx.var v).context.clausePropagation = none := by
  obtain ⟨j, hjt, hjlt, rfl⟩ := mem_take_iff.mp (h.onTrail v hv)
  rcases Nat.eq_zero_or_pos j with rfl | hj
  · exact clausePropagation_zero hw hjlt (h.level_of_pending hv ▸ hpos)
  · exact h.clausePropagation_of_seekTrail_lt hm hl hw (hz ▸ hj) hjt hjlt hv

/-- Two decisions of one level are the same variable. -/
theorem decision_unique (hw : Wf (models m) ctx.state) {v w : VarId} (hv : v ∈ ctx.trail)
    (hwt : w ∈ ctx.trail) (hlev : ctx.levelOf v = ctx.levelOf w)
    (hdv : (ctx.var v).context.clausePropagation = none)
    (hdw : (ctx.var w).context.clausePropagation = none) : v = w := by
  obtain ⟨i, hi, rfl⟩ := List.getElem_of_mem hv
  obtain ⟨j, hj, rfl⟩ := List.getElem_of_mem hwt
  rw [← trailVar_eq_getElem hi] at hdv hlev ⊢
  rw [← trailVar_eq_getElem hj] at hdw hlev ⊢
  rcases lt_trichotomy i j with hij | rfl | hij
  · have := level_lt_of_decision hw hij hj hdw
    omega
  · rfl
  · have := level_lt_of_decision hw hij hi hdv
    omega

theorem Exits.learnedClause {b c : Analysis} (he : Exits ctx b c) :
    c.learnedClause = b.learnedClause := by
  cases he <;> rfl

theorem Exits.backtrackLevel {b c : Analysis} (he : Exits ctx b c) :
    c.backtrackLevel = b.backtrackLevel := by
  cases he <;> rfl

theorem Exits.resolveConflict {b : Analysis} {c : Clause}
    (he : Exits ctx b (resolveLoop ctx (startAnalysis ctx c))) :
    resolveConflict ctx c = ⟨sortUnique b.learnedClause, b.backtrackLevel⟩ := by
  simp only [Fabko.Sat.resolveConflict, he.learnedClause, he.backtrackLevel]

/-- Above level 0 the loop ends with one variable of the current level. -/
theorem Exits.single_current (hm : m.WellFormed) (hl : Linked m ctx)
    (hw : Wf (models m) ctx.state) {b c : Analysis} (h : AnalysisInv m ctx b)
    (hpos : 0 < ctx.currentDecisionLevel) (he : Exits ctx b c) :
    ∀ v ∈ b.currentLevelVars, ∀ w ∈ b.currentLevelVars, v = w := by
  intro v hv w hwm
  cases he with
  | single hlen =>
      by_contra hne
      have := two_le_length_of_ne hv hwm hne
      omega
  | trailEmpty hlen hz =>
      -- both are the decision of the current level
      exact decision_unique hw (h.mem_trail hv) (h.mem_trail hwm)
        ((h.level_of_pending hv).trans (h.level_of_pending hwm).symm)
        (clausePropagation_eq_none_of_seekTrail hm hl hw h hpos hz hv)
        (clausePropagation_eq_none_of_seekTrail hm hl hw h hpos hz hwm)

/-! ## Sorting and removing repetitions -/

section SortUnique

theorem sortUnique_sublist (c : Clause) :
    (sortUnique c).Sublist (c.insertionSort (fun p q => p.1.value ≤ q.1.value)) :=
  List.destutter_sublist _ _

theorem mem_of_mem_sortUnique {c : Clause} {p : Literal × VarId} (h : p ∈ sortUnique c) :
    p ∈ c :=
  (List.perm_insertionSort _ c).mem_iff.mp ((sortUnique_sublist c).subset h)

/-- A removed element repeats the variable of one that is kept. -/
theorem exists_mem_destutter' (c : Clause) (p q : Literal × VarId) (h : q ∈ p :: c) :
    ∃ r ∈ c.destutter' (fun p q => p.1.value ≠ q.1.value) p, r.1.value = q.1.value := by
  induction c generalizing p q with
  | nil =>
      rw [List.mem_singleton.mp h]
      exact ⟨p, by simp, rfl⟩
  | cons p' c ih =>
      by_cases hne : p.1.value ≠ p'.1.value
      · rw [List.destutter', if_pos hne]
        rcases List.mem_cons.mp h with rfl | h'
        · exact ⟨q, by simp, rfl⟩
        · obtain ⟨r, hr, heq⟩ := ih p' q h'
          exact ⟨r, List.mem_cons_of_mem p hr, heq⟩
      · rw [List.destutter', if_neg hne]
        rcases List.mem_cons.mp h with rfl | h'
        · exact ih q q List.mem_cons_self
        · rcases List.mem_cons.mp h' with rfl | h''
          · obtain ⟨r, hr, heq⟩ := ih p p List.mem_cons_self
            exact ⟨r, hr, heq.trans (not_not.mp hne)⟩
          · exact ih p q (List.mem_cons_of_mem p h'')

theorem exists_mem_sortUnique {c : Clause} {p : Literal × VarId} (h : p ∈ c) :
    ∃ q ∈ sortUnique c, q.1.value = p.1.value := by
  have hs : p ∈ c.insertionSort (fun p q => p.1.value ≤ q.1.value) :=
    (List.perm_insertionSort _ c).mem_iff.mpr h
  unfold sortUnique
  rcases hc : c.insertionSort (fun p q => p.1.value ≤ q.1.value) with _ | ⟨q, qs⟩
  · rw [hc] at hs
    cases hs
  · rw [hc] at hs ⊢
    exact exists_mem_destutter' qs q p hs

/-- Every variable of the clause is left with a literal. -/
theorem exists_var_mem_sortUnique (hm : m.WellFormed) {c : Clause} (hc : ∀ p ∈ c, m.Resolved p)
    {p : Literal × VarId} (h : p ∈ c) : ∃ q ∈ sortUnique c, q.2 = p.2 := by
  obtain ⟨q, hq, heq⟩ := exists_mem_sortUnique h
  exact ⟨q, hq, ((hc q (mem_of_mem_sortUnique hq)).value_eq_iff hm (hc p h)).mp heq⟩

/-- The result is strictly increasing in the variable. -/
theorem sortUnique_pairwise (c : Clause) :
    (sortUnique c).Pairwise (fun p q => p.1.value < q.1.value) := by
  have : Std.Total (fun p q : Literal × VarId => p.1.value ≤ q.1.value) :=
    ⟨fun p q => le_total p.1.value q.1.value⟩
  have : IsTrans (Literal × VarId) (fun p q => p.1.value ≤ q.1.value) :=
    ⟨fun _ _ _ => le_trans⟩
  have : IsTrans (Literal × VarId) (fun p q => p.1.value < q.1.value) :=
    ⟨fun _ _ _ => lt_trans⟩
  have hle := (List.pairwise_insertionSort (fun p q : Literal × VarId => p.1.value ≤ q.1.value)
    c).sublist (sortUnique_sublist c)
  have hne : (sortUnique c).IsChain (fun p q => p.1.value ≠ q.1.value) :=
    List.isChain_destutter _ _
  rw [← List.isChain_iff_pairwise, List.isChain_iff_getElem] at hle ⊢
  intro i hi
  exact lt_of_le_of_ne (hle i hi) (List.isChain_iff_getElem.mp hne i hi)

theorem sortUnique_values_nodup (c : Clause) :
    ((sortUnique c).map (fun p => p.1.value)).Nodup :=
  List.pairwise_map.mpr ((sortUnique_pairwise c).imp (fun h => ne_of_lt h))

end SortUnique

/-! ## What `resolve_conflict` returns -/

/-- The clause follows from the model, is false under the assignment and repeats no variable.
Above level 0 it has one variable of the current level, and the backtracking level is 0 or the
level of one of its other literals. -/
structure LearnedSpec (m : Model) (ctx : SolverContext) (r : ConflictResolutionResult) : Prop where
  resolved : ∀ p ∈ r.learnedClause, m.Resolved p
  falsified : Falsified ctx.state.value (toCnf r.learnedClause)
  entailed : Entails (models m) (toCnf r.learnedClause)
  distinct : (r.learnedClause.map (fun p => p.1.value)).Nodup
  level : r.backtrackLevel = 0 ∨ r.backtrackLevel < ctx.currentDecisionLevel ∧
    ∃ p ∈ r.learnedClause, ctx.levelOf p.2 = r.backtrackLevel
  current : 0 < ctx.currentDecisionLevel →
    ∃ p ∈ r.learnedClause, ctx.levelOf p.2 = ctx.currentDecisionLevel
  unique : 0 < ctx.currentDecisionLevel → ∀ p ∈ r.learnedClause, ∀ q ∈ r.learnedClause,
    ctx.levelOf p.2 = ctx.currentDecisionLevel → ctx.levelOf q.2 = ctx.currentDecisionLevel →
    p.2 = q.2

theorem LearnedSpec.distinct_toCnf {r : ConflictResolutionResult} (h : LearnedSpec m ctx r) :
    Distinct (toCnf r.learnedClause) := by
  have hvar : (toCnf r.learnedClause).map Lit.var = r.learnedClause.map Prod.snd := by
    rw [toCnf, List.map_map]
    rfl
  have hval : r.learnedClause.map (fun p => p.1.value)
      = (r.learnedClause.map Prod.snd).map m.varValue := by
    rw [List.map_map]
    exact List.map_congr_left (fun p hp => (h.resolved p hp).value_eq)
  have hnd := h.distinct
  rw [hval] at hnd
  rw [Distinct, hvar]
  exact hnd.of_map

/-- Above level 0 one literal of the clause is of the current level. -/
theorem LearnedSpec.exists_current (hm : m.WellFormed) {r : ConflictResolutionResult}
    (h : LearnedSpec m ctx r) (hpos : 0 < ctx.currentDecisionLevel) :
    ∃ u ∈ r.learnedClause, ∀ p ∈ r.learnedClause,
      ctx.levelOf p.2 = ctx.currentDecisionLevel ↔ p = u := by
  obtain ⟨u, hu, hulev⟩ := h.current hpos
  refine ⟨u, hu, fun p hp => ⟨fun hlev => ?_, ?_⟩⟩
  · have hvar := h.unique hpos p hp u hu hlev hulev
    apply List.inj_on_of_nodup_map h.distinct hp hu
    exact ((h.resolved p hp).value_eq_iff hm (h.resolved u hu)).mpr hvar
  · rintro rfl
    exact hulev

/-- The state the outer loop leaves, for a conflict clause of the context. -/
theorem resolveLoop_spec (hm : m.WellFormed) (hl : Linked m ctx) (hw : Wf (models m) ctx.state)
    (hq : Quiet ctx.state) {id : ClauseId} (hid : id < ctx.clauses.length)
    (hf : Falsified ctx.state.value (toCnf (ctx.clause id))) :
    ∃ b, AnalysisInv m ctx b ∧
      Exits ctx b (resolveLoop ctx (startAnalysis ctx (ctx.clause id))) :=
  resolveLoop_induct (fun _ ha hlen hz => resolveAt_inv hm hl hw ha hlen hz) _
    (startAnalysis_inv hl hw hq hid hf)

theorem resolveConflict_spec (hm : m.WellFormed) (hl : Linked m ctx)
    (hw : Wf (models m) ctx.state) (hq : Quiet ctx.state) {id : ClauseId}
    (hid : id < ctx.clauses.length) (hf : Falsified ctx.state.value (toCnf (ctx.clause id))) :
    LearnedSpec m ctx (resolveConflict ctx (ctx.clause id)) := by
  obtain ⟨b, hb, he⟩ := resolveLoop_spec hm hl hw hq hid hf
  have hkept : ∀ p ∈ b.learnedClause, ∃ q ∈ sortUnique b.learnedClause, q.2 = p.2 :=
    fun p hp => exists_var_mem_sortUnique hm hb.resolved hp
  rw [he.resolveConflict]
  refine ⟨fun p hp => hb.resolved p (mem_of_mem_sortUnique hp), fun l hlm => ?_, ?_,
    sortUnique_values_nodup _, ?_, fun hpos => ?_, fun hpos p hp q hqm hlp hlq => ?_⟩
  · obtain ⟨p, hp, rfl⟩ := mem_toCnf.mp hlm
    exact hb.falsified _ (toLit_mem_toCnf (mem_of_mem_sortUnique hp))
  · -- what is removed repeats a literal, as both are false
    apply hb.entailed.mono
    intro l hlm
    obtain ⟨p, hp, rfl⟩ := mem_toCnf.mp hlm
    obtain ⟨q, hqs, heq⟩ := hkept p hp
    rw [toLit_eq_of_isFalse (hb.falsified _ (toLit_mem_toCnf hp))
      (hb.falsified _ (toLit_mem_toCnf (mem_of_mem_sortUnique hqs))) heq.symm]
    exact toLit_mem_toCnf hqs
  · apply hb.level.imp_right
    rintro ⟨hlt, p, hp, hlev⟩
    obtain ⟨q, hqs, heq⟩ := hkept p hp
    exact ⟨hlt, q, hqs, heq ▸ hlev⟩
  · obtain ⟨v, hv⟩ := List.exists_mem_of_ne_nil _ (hb.nonempty hpos)
    obtain ⟨p, hp, rfl, hlev⟩ := (hb.pending v).mp hv
    obtain ⟨q, hqs, heq⟩ := hkept p hp
    exact ⟨q, hqs, heq ▸ hlev⟩
  · refine he.single_current hm hl hw hb hpos p.2 ?_ q.2 ?_
    · exact (hb.pending p.2).mpr ⟨p, mem_of_mem_sortUnique hp, rfl, hlp⟩
    · exact (hb.pending q.2).mpr ⟨q, mem_of_mem_sortUnique hqm, rfl, hlq⟩

end Fabko.Sat
