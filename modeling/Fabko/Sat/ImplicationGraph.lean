import Fabko.Sat.Resolution

set_option autoImplicit false

/-! # The part of the implication graph the analysis walks

A conflict is analysed from the end of the trail. `Reached ctx c k` has the variables of the
current level that come in when the conflict clause `c` is resolved with the reasons of the trail
entries from index `k` on, and `SingleAt ctx c k` says that at most one of those before index `k`
is left: the walk has met a unique implication point. `ResolvedWith` are the entries after it.
None of this mentions the state of `resolve_conflict`; `GraphInv` ties the two together. -/

namespace Fabko.Sat

open Cnf Cdcl

variable {m : Model} {ctx : SolverContext} {c : Clause}

/-! ## The graph -/

inductive Reached (ctx : SolverContext) (c : Clause) (k : Nat) : VarId → Prop
  | conflict {p : Literal × VarId} (hp : p ∈ c)
      (hlev : ctx.levelOf p.2 = ctx.currentDecisionLevel) : Reached ctx c k p.2
  | reason {i : Nat} {id : ClauseId} {p : Literal × VarId} (hki : k ≤ i)
      (hi : i < ctx.trail.length) (hv : Reached ctx c k (ctx.trailVar i))
      (hid : (ctx.var (ctx.trailVar i)).context.clausePropagation = some id)
      (hp : p ∈ ctx.clause id) (hne : p.2 ≠ ctx.trailVar i)
      (hlev : ctx.levelOf p.2 = ctx.currentDecisionLevel) : Reached ctx c k p.2

/-- How often a variable occurs in a clause. -/
def occurrences (c : Clause) (v : VarId) : Nat := (c.map Prod.snd).count v

/-- Before index `k` one variable is left, and the conflict clause does not repeat it. -/
def SingleAt (ctx : SolverContext) (c : Clause) (k : Nat) : Prop :=
  ∀ v ∈ ctx.trail.take k, ∀ w ∈ ctx.trail.take k, Reached ctx c k v → Reached ctx c k w →
    v = w ∧ occurrences c v ≤ 1

/-- The trail entry at index `i` comes after the first unique implication point and takes part in
the conflict; `id` is its reason. -/
structure ResolvedWith (ctx : SolverContext) (c : Clause) (i : Nat) (id : ClauseId) : Prop where
  lt : i < ctx.trail.length
  reason : (ctx.var (ctx.trailVar i)).context.clausePropagation = some id
  reached : Reached ctx c (i + 1) (ctx.trailVar i)
  notSingle : ∀ k, i < k → k ≤ ctx.trail.length → ¬ SingleAt ctx c k

/-- Variables of lower levels that the reasons bring in beside those of the conflict clause. -/
def BroughtIn (ctx : SolverContext) (c : Clause) (i : Nat) (p : Literal × VarId) : Prop :=
  ∃ id, ResolvedWith ctx c i id ∧ p ∈ ctx.clause id ∧
    ctx.levelOf p.2 ≠ ctx.currentDecisionLevel ∧ ∀ q ∈ c, q.2 ≠ p.2

theorem Reached.mono {j k : Nat} (hjk : j ≤ k) {v : VarId} (h : Reached ctx c k v) :
    Reached ctx c j v := by
  induction h with
  | conflict hp hlev => exact Reached.conflict hp hlev
  | reason hki hi _ hid hp hne hlev ih =>
      exact Reached.reason (le_trans hjk hki) hi ih hid hp hne hlev

theorem Reached.level {k : Nat} {v : VarId} (h : Reached ctx c k v) :
    ctx.levelOf v = ctx.currentDecisionLevel := by
  cases h with
  | conflict _ hlev => exact hlev
  | reason _ _ _ _ _ _ hlev => exact hlev

theorem lt_of_trailVar_mem_take (hw : Wf (models m) ctx.state) {j k : Nat}
    (hj : j < ctx.trail.length) (h : ctx.trailVar j ∈ ctx.trail.take k) : j < k := by
  obtain ⟨i, hik, hi, heq⟩ := mem_take_iff.mp h
  have hnd : ctx.trail.Nodup := List.nodup_reverse.mp hw.nodup
  rw [trailVar_eq_getElem hi, trailVar_eq_getElem hj] at heq
  have : i = j := (hnd.getElem_inj_iff).mp heq
  omega

/-! ## The loop of the analysis on the graph -/

/-- What the locals of `resolve_conflict` are in terms of the graph. -/
structure GraphInv (ctx : SolverContext) (c : Clause) (a : Analysis) : Prop where
  frontier : ∀ v, v ∈ a.currentLevelVars ↔
    Reached ctx c (a.trailIndex + 1) v ∧ v ∈ ctx.trail.take (a.trailIndex + 1)
  count : ∀ v ∈ a.currentLevelVars, a.currentLevelVars.count v ≤ 1 ↔ occurrences c v ≤ 1
  passed : ∀ k, a.trailIndex + 1 < k → k ≤ ctx.trail.length → ¬ SingleAt ctx c k
  kept : ∀ p ∈ c, ctx.levelOf p.2 ≠ ctx.currentDecisionLevel → p ∈ a.learnedClause
  bound : ∀ p ∈ a.learnedClause, ctx.levelOf p.2 ≠ ctx.currentDecisionLevel →
    (∃ q ∈ c, q.2 = p.2) ∨ ctx.levelOf p.2 ≤ a.backtrackLevel
  raised : ∀ i, a.trailIndex < i → ∀ p, BroughtIn ctx c i p → ctx.levelOf p.2 ≤ a.backtrackLevel
  attained : a.backtrackLevel = 0 ∨ ∃ i p, BroughtIn ctx c i p ∧ ctx.levelOf p.2 = a.backtrackLevel

theorem length_le_one_iff {α : Type*} [DecidableEq α] {l : List α} :
    l.length ≤ 1 ↔ ∀ v ∈ l, ∀ w ∈ l, v = w ∧ l.count v ≤ 1 := by
  constructor
  · intro h v hv w hw
    refine ⟨?_, le_trans List.count_le_length h⟩
    by_contra hne
    have := two_le_length_of_ne hv hw hne
    omega
  · intro h
    rcases l with _ | ⟨x, _ | ⟨y, rest⟩⟩
    · simp
    · simp
    · obtain ⟨rfl, hcount⟩ := h x (by simp) y (by simp)
      simp only [List.count_cons_self] at hcount
      omega

/-- The test of the outer loop is the test for a unique implication point. -/
theorem GraphInv.single_iff {a : Analysis} (h : GraphInv ctx c a) :
    a.currentLevelVars.length ≤ 1 ↔ SingleAt ctx c (a.trailIndex + 1) := by
  rw [length_le_one_iff]
  constructor
  · intro hall v hv w hw hrv hrw
    have hva := (h.frontier v).mpr ⟨hrv, hv⟩
    obtain ⟨heq, hcount⟩ := hall v hva w ((h.frontier w).mpr ⟨hrw, hw⟩)
    exact ⟨heq, (h.count v hva).mp hcount⟩
  · intro hs v hv w hw
    obtain ⟨hrv, hvt⟩ := (h.frontier v).mp hv
    obtain ⟨hrw, hwt⟩ := (h.frontier w).mp hw
    obtain ⟨heq, hocc⟩ := hs v hvt w hwt hrv hrw
    exact ⟨heq, (h.count v hv).mpr hocc⟩

theorem startAnalysis_graphInv (hw : Wf (models m) ctx.state)
    (hpos : 0 < ctx.currentDecisionLevel) (hf : Falsified ctx.state.value (toCnf c)) :
    GraphInv ctx c (startAnalysis ctx c) := by
  -- there is a decision, so the index starts at the last entry
  have hindex : (startAnalysis ctx c).trailIndex + 1 = ctx.trail.length := by
    obtain ⟨d, hd, -, -⟩ := hw.decided 1 (le_refl 1) hpos
    have hlen := List.length_pos_of_mem (List.mem_reverse.mp hd)
    show lastIndex ctx.trail.length + 1 = _
    rw [lastIndex, if_neg (by omega)]
    omega
  refine ⟨fun v => ?_, fun v hv => ?_, fun k hk hle => ?_, fun p hp _ => hp,
    fun p hp _ => Or.inl ⟨p, hp, rfl⟩, fun i hi p hb => ?_, Or.inl rfl⟩
  · rw [hindex, List.take_length, mem_startAnalysis]
    constructor
    · rintro ⟨p, hp, rfl, hlev⟩
      exact ⟨Reached.conflict hp hlev, mem_trail_of_isFalse hw (hf _ (toLit_mem_toCnf hp))⟩
    · rintro ⟨hr, -⟩
      cases hr with
      | conflict hp hlev => exact ⟨_, hp, rfl, hlev⟩
      | reason hki hi _ _ _ _ _ => omega
  · -- the list has one entry for each occurrence in the clause
    obtain ⟨-, -, -, hlev⟩ := mem_startAnalysis.mp hv
    have hvars : (startAnalysis ctx c).currentLevelVars
        = (c.map Prod.snd).filter (fun w => ctx.levelOf w = ctx.currentDecisionLevel) := by
      rw [List.filter_map]
      rfl
    rw [hvars, List.count_filter (by simpa using hlev), occurrences]
  · omega
  · obtain ⟨id, hr, -⟩ := hb
    have := hr.lt
    omega

section Step

variable {a b : Analysis} {i : Nat} {id : ClauseId}

/-- What is pending is at or before the pivot. -/
theorem Pivot.le_of_mem (hw : Wf (models m) ctx.state) (hp : Pivot ctx a i id) {j : Nat}
    (hj : j < ctx.trail.length) (h : ctx.trailVar j ∈ a.currentLevelVars) : j ≤ i := by
  by_cases hv : ctx.trailVar j = ctx.trailVar i
  · have hmem : ctx.trailVar j ∈ ctx.trail.take (i + 1) :=
      mem_take_iff.mpr ⟨i, Nat.lt_succ_self i, hp.lt, hv.symm⟩
    exact Nat.lt_succ_iff.mp (lt_of_trailVar_mem_take hw hj hmem)
  · exact le_of_lt (lt_of_trailVar_mem_take hw hj (hp.earlier _ h hv))

/-- Between the pivot and the old index nothing is resolved, so nothing new is reached. -/
theorem GraphInv.reached_of_gt (hw : Wf (models m) ctx.state) (h : GraphInv ctx c a)
    (hp : Pivot ctx a i id) {k : Nat} (hk : i < k) {v : VarId} (hr : Reached ctx c k v) :
    Reached ctx c (a.trailIndex + 1) v := by
  induction hr with
  | conflict hpc hlev => exact Reached.conflict hpc hlev
  | @reason j id' p hkj hj _ hid hpr hne hlev ih =>
      rcases Nat.lt_or_ge a.trailIndex j with hgt | hle
      · exact Reached.reason hgt hj ih hid hpr hne hlev
      · have hmem : ctx.trailVar j ∈ a.currentLevelVars :=
          (h.frontier _).mpr ⟨ih, mem_take_iff.mpr ⟨j, Nat.lt_succ_of_le hle, hj, rfl⟩⟩
        have := hp.le_of_mem hw hj hmem
        omega

/-- Resolving the pivot reaches the variables of its reason, and no others. -/
theorem GraphInv.reached_cases (hw : Wf (models m) ctx.state) (h : GraphInv ctx c a)
    (hp : Pivot ctx a i id) {v : VarId} (hr : Reached ctx c i v) :
    Reached ctx c (a.trailIndex + 1) v ∨
      ∃ p ∈ ctx.clause id, p.2 = v ∧ p.2 ≠ ctx.trailVar i := by
  induction hr with
  | conflict hpc hlev => exact Or.inl (Reached.conflict hpc hlev)
  | @reason j id' p hij hj _ hid hpr hne hlev ih =>
      rcases ih with hold | ⟨q, hq, heq, hqv⟩
      · rcases Nat.lt_or_ge a.trailIndex j with hgt | hle
        · exact Or.inl (Reached.reason hgt hj hold hid hpr hne hlev)
        · -- then `j` is the pivot itself
          have hmem : ctx.trailVar j ∈ a.currentLevelVars :=
            (h.frontier _).mpr ⟨hold, mem_take_iff.mpr ⟨j, Nat.lt_succ_of_le hle, hj, rfl⟩⟩
          have hji : j = i := le_antisymm (hp.le_of_mem hw hj hmem) hij
          subst hji
          rw [hp.reason, Option.some.injEq] at hid
          exact Or.inr ⟨p, hid ▸ hpr, rfl, hne⟩
      · -- the literals of the reason come before the pivot
        have hlt := lt_of_trailVar_mem_take hw hj (heq ▸ (hp.others hw q hq hqv).2)
        omega

theorem Pivot.reached (hw : Wf (models m) ctx.state) (h : GraphInv ctx c a)
    (hp : Pivot ctx a i id) :
    Reached ctx c (a.trailIndex + 1) (ctx.trailVar i) ∧ i ≤ a.trailIndex := by
  obtain ⟨hr, hmem⟩ := (h.frontier _).mp hp.mem
  exact ⟨hr, Nat.lt_succ_iff.mp (lt_of_trailVar_mem_take hw hp.lt hmem)⟩

theorem GraphInv.frontier_step (hw : Wf (models m) ctx.state) (hinv : AnalysisInv m ctx a)
    (h : GraphInv ctx c a) (hp : Pivot ctx a i id) (hr : Resolvent ctx a i id b) (v : VarId) :
    v ∈ b.currentLevelVars ↔ Reached ctx c i v ∧ v ∈ ctx.trail.take i := by
  obtain ⟨hpr, hle⟩ := hp.reached hw h
  have hself : ctx.trailVar i ∉ ctx.trail.take i := fun hmem =>
    absurd (lt_of_trailVar_mem_take hw hp.lt hmem) (lt_irrefl i)
  constructor
  · intro hv
    refine ⟨?_, hr.onTrail hw hinv hp v hv⟩
    obtain ⟨q, hq, rfl, hlev⟩ := (hr.mem_currentLevelVars hinv v).mp hv
    obtain ⟨hqv, hqa | ⟨hqr, -⟩⟩ := hr.origin q hq
    · have hmem := (hinv.pending q.2).mpr ⟨q, hqa, rfl, hlev⟩
      exact ((h.frontier q.2).mp hmem).1.mono (by omega)
    · exact Reached.reason (le_refl i) hp.lt (hpr.mono (by omega)) hp.reason hqr hqv hlev
  · rintro ⟨hrv, hvt⟩
    have hne : v ≠ ctx.trailVar i := fun he => hself (he ▸ hvt)
    rw [hr.mem_currentLevelVars hinv]
    rcases h.reached_cases hw hp hrv with hold | ⟨q, hq, rfl, hqv⟩
    · have hsub : v ∈ ctx.trail.take (a.trailIndex + 1) :=
        List.take_subset_take_left _ (by omega) hvt
      obtain ⟨q, hq, rfl, hlev⟩ := (hinv.pending v).mp ((h.frontier v).mpr ⟨hold, hsub⟩)
      exact ⟨q, hr.kept q hq hne, rfl, hlev⟩
    · obtain ⟨q', hq', heq⟩ := hr.covered q hq hqv
      exact ⟨q', hq', heq, hrv.level⟩

/-- From the pivot on, no index is a unique implication point. -/
theorem GraphInv.notSingle (hw : Wf (models m) ctx.state) (h : GraphInv ctx c a)
    (hp : Pivot ctx a i id) (hlen : 1 < a.currentLevelVars.length) {k : Nat} (hk : i < k)
    (hle : k ≤ ctx.trail.length) : ¬ SingleAt ctx c k := by
  rcases Nat.lt_or_ge (a.trailIndex + 1) k with hgt | hge
  · exact h.passed k hgt hle
  · intro hs
    have hsub : ∀ v ∈ ctx.trail.take (a.trailIndex + 1), Reached ctx c (a.trailIndex + 1) v →
        v ∈ ctx.trail.take k := by
      intro v hv hr
      obtain ⟨j, -, hj, rfl⟩ := mem_take_iff.mp hv
      have := hp.le_of_mem hw hj ((h.frontier _).mpr ⟨hr, hv⟩)
      exact mem_take_iff.mpr ⟨j, by omega, hj, rfl⟩
    have hsingle : SingleAt ctx c (a.trailIndex + 1) := fun v hv w hw' hrv hrw =>
      hs v (hsub v hv hrv) w (hsub w hw' hrw) (hrv.mono hge) (hrw.mono hge)
    have := h.single_iff.mpr hsingle
    omega

theorem Pivot.resolvedWith (hw : Wf (models m) ctx.state) (h : GraphInv ctx c a)
    (hp : Pivot ctx a i id) (hlen : 1 < a.currentLevelVars.length) : ResolvedWith ctx c i id := by
  obtain ⟨hr, hle⟩ := hp.reached hw h
  exact ⟨hp.lt, hp.reason, hr.mono (by omega), fun k hk hkl => h.notSingle hw hp hlen hk hkl⟩

theorem GraphInv.count_step (hinv : AnalysisInv m ctx a) (h : GraphInv ctx c a)
    (hr : Resolvent ctx a i id b)
    (hsub : ∀ v ∈ b.currentLevelVars, v ∈ ctx.trail.take (a.trailIndex + 1)) :
    ∀ v ∈ b.currentLevelVars, b.currentLevelVars.count v ≤ 1 ↔ occurrences c v ≤ 1 := by
  intro v hv
  obtain ⟨extra, heq, hnd, hmem⟩ := hr.pending
  have hcount : b.currentLevelVars.count v
      = (a.currentLevelVars.filter (fun w => w ≠ ctx.trailVar i)).count v + extra.count v := by
    rw [heq, List.count_append]
  by_cases hve : v ∈ extra
  · -- a variable that is new is in neither clause before
    obtain ⟨p, hpb, hpa, rfl, hlev⟩ := (hmem v).mp hve
    have hnew : p.2 ∉ a.currentLevelVars := by
      intro hva
      obtain ⟨q, hq, heq', -⟩ := (hinv.pending p.2).mp hva
      rcases (hr.origin p hpb).2 with hp' | ⟨-, hp'⟩
      · exact hpa hp'
      · exact hp' q hq heq'
    have hocc : occurrences c p.2 = 0 := by
      refine List.count_eq_zero.mpr (fun hpc => hnew ?_)
      obtain ⟨q, hq, heq'⟩ := List.mem_map.mp hpc
      refine (h.frontier p.2).mpr ⟨?_, hsub p.2 hv⟩
      have hql : ctx.levelOf q.2 = ctx.currentDecisionLevel := by
        rw [heq']
        exact hlev
      exact heq' ▸ Reached.conflict hq hql
    have hold : (a.currentLevelVars.filter (fun w => w ≠ ctx.trailVar i)).count p.2 = 0 :=
      List.count_eq_zero.mpr (fun hf => hnew (List.mem_filter.mp hf).1)
    rw [hcount, hold, List.count_eq_one_of_mem hnd hve, hocc]
    omega
  · have hvf : v ∈ a.currentLevelVars.filter (fun w => w ≠ ctx.trailVar i) := by
      rw [heq] at hv
      exact (List.mem_append.mp hv).resolve_right hve
    have hkept : (a.currentLevelVars.filter (fun w => w ≠ ctx.trailVar i)).count v
        = a.currentLevelVars.count v := List.count_filter (by simpa using (List.mem_filter.mp hvf).2)
    rw [hcount, hkept, List.count_eq_zero.mpr hve, Nat.add_zero]
    exact h.count v (List.mem_filter.mp hvf).1

/-- What the reason of the pivot brings in, and what was brought in before, is accounted for. -/
theorem GraphInv.raised_step (hw : Wf (models m) ctx.state) (h : GraphInv ctx c a)
    (hp : Pivot ctx a i id) (hr : Resolvent ctx a i id b) {j : Nat} (hij : i ≤ j)
    {p : Literal × VarId} (hb : BroughtIn ctx c j p) : ctx.levelOf p.2 ≤ b.backtrackLevel := by
  rcases Nat.lt_or_ge a.trailIndex j with hgt | hle
  · exact le_trans (h.raised j hgt p hb) hr.mono
  · obtain ⟨id', hres, hpr, hlev, hnew⟩ := hb
    -- an entry at `j` that takes part is pending, so it is the pivot
    have hji : j = i := by
      by_contra hne
      have hreach := h.reached_of_gt hw hp (show i < j + 1 by omega) hres.reached
      have hmem : ctx.trailVar j ∈ a.currentLevelVars :=
        (h.frontier _).mpr ⟨hreach, mem_take_iff.mpr ⟨j, by omega, hres.lt, rfl⟩⟩
      have := hp.le_of_mem hw hres.lt hmem
      omega
    subst hji
    have hid : id' = id := by
      have := hres.reason
      rw [hp.reason, Option.some.injEq] at this
      exact this.symm
    subst hid
    have hpv : p.2 ≠ ctx.trailVar j := fun he => hlev (he ▸ hp.level)
    obtain ⟨q, hq, heq⟩ := hr.covered p hpr hpv
    rw [← heq] at hlev hnew ⊢
    -- its literal in the clause is there from before, or was added and raised the level
    by_cases hqa : q ∈ a.learnedClause
    · rcases h.bound q hqa hlev with ⟨q', hq', he⟩ | hle'
      · exact absurd he (hnew q' hq')
      · exact le_trans hle' hr.mono
    · exact hr.raised q hq hqa hlev

/-- **The step lemma.** -/
theorem GraphInv.step (hw : Wf (models m) ctx.state) (hinv : AnalysisInv m ctx a)
    (h : GraphInv ctx c a) (hp : Pivot ctx a i id) (hr : Resolvent ctx a i id b)
    (hlen : 1 < a.currentLevelVars.length) : GraphInv ctx c b := by
  have hle := (hp.reached hw h).2
  have hindex : b.trailIndex + 1 = i := by
    rw [hr.index]
    exact Nat.sub_add_cancel hp.pos
  have hfront := fun v => h.frontier_step hw hinv hp hr v
  -- the pivot is of the current level
  have hlower : ∀ p : Literal × VarId, ctx.levelOf p.2 ≠ ctx.currentDecisionLevel →
      p.2 ≠ ctx.trailVar i := fun p hlev he => hlev (he ▸ hp.level)
  refine ⟨fun v => by rw [hindex]; exact hfront v, ?_, fun k hk hkl => ?_, fun p hpc hlev => ?_,
    fun p hpb hlev => ?_, fun j hj p hb => ?_, ?_⟩
  · apply h.count_step hinv hr
    intro v hv
    exact List.take_subset_take_left _ (by omega) ((hfront v).mp hv).2
  · exact h.notSingle hw hp hlen (by omega) hkl
  · exact hr.kept p (h.kept p hpc hlev) (hlower p hlev)
  · rcases (hr.origin p hpb).2 with hpa | ⟨-, hnew⟩
    · exact (h.bound p hpa hlev).imp_right (fun hb => le_trans hb hr.mono)
    · exact Or.inr (hr.raised p hpb (fun hpa => hnew p hpa rfl) hlev)
  · exact h.raised_step hw hp hr (by omega) hb
  · rcases hr.level with heq | ⟨hlt, p, hpb, hpa, hlev⟩
    · rw [heq]
      exact h.attained
    · have hne : ctx.levelOf p.2 ≠ ctx.currentDecisionLevel := by omega
      obtain ⟨hpr, hnew⟩ := (hr.origin p hpb).2.resolve_left hpa
      refine Or.inr ⟨i, p, ⟨id, hp.resolvedWith hw h hlen, hpr, hne, fun q hq he => ?_⟩, hlev⟩
      exact hnew q (h.kept q hq (he ▸ hne)) he

end Step

/-! ## Where the loop ends -/

/-- At either exit nothing is left to resolve. -/
theorem Exits.lt_of_resolvedWith (hm : m.WellFormed) (hl : Linked m ctx)
    (hw : Wf (models m) ctx.state) (hpos : 0 < ctx.currentDecisionLevel) {a r : Analysis}
    (hinv : AnalysisInv m ctx a) (h : GraphInv ctx c a) (he : Exits ctx a r) {i : Nat}
    {id : ClauseId} (hres : ResolvedWith ctx c i id) : a.trailIndex < i := by
  by_contra hge
  have hlt : a.trailIndex < ctx.trail.length := hinv.inRange (hinv.nonempty hpos)
  cases he with
  | single hlen => exact hres.notSingle (a.trailIndex + 1) (by omega) hlt (h.single_iff.mp hlen)
  | trailEmpty hlen hz =>
      have hdec : ∀ v ∈ a.currentLevelVars, (ctx.var v).context.clausePropagation = none :=
        fun v hv => clausePropagation_eq_none_of_seekTrail hm hl hw hinv hpos hz hv
      have hpending : ∀ {j : Nat}, j < ctx.trail.length → j ≤ a.trailIndex →
          Reached ctx c (a.trailIndex + 1) (ctx.trailVar j) →
          (ctx.var (ctx.trailVar j)).context.clausePropagation = none := fun hj hjt hr =>
        hdec _ ((h.frontier _).mpr ⟨hr, mem_take_iff.mpr ⟨_, Nat.lt_succ_of_le hjt, hj, rfl⟩⟩)
      -- the pending variables are decisions, so going further down reaches nothing new
      have hreach : ∀ v, Reached ctx c (i + 1) v → Reached ctx c (a.trailIndex + 1) v := by
        intro v hr
        induction hr with
        | conflict hpc hlev => exact Reached.conflict hpc hlev
        | @reason j id' p hij hj _ hid hpr hne hlev ih =>
            rcases Nat.lt_or_ge a.trailIndex j with hgt | hle
            · exact Reached.reason hgt hj ih hid hpr hne hlev
            · rw [hpending hj hle ih] at hid
              cases hid
      have hnone := hpending hres.lt (not_lt.mp hge) (hreach _ hres.reached)
      rw [hres.reason] at hnone
      cases hnone

theorem resolveLoop_graph (hm : m.WellFormed) (hl : Linked m ctx) (hw : Wf (models m) ctx.state)
    (hq : Quiet ctx.state) {id : ClauseId} (hid : id < ctx.clauses.length)
    (hf : Falsified ctx.state.value (toCnf (ctx.clause id)))
    (hpos : 0 < ctx.currentDecisionLevel) :
    ∃ a, AnalysisInv m ctx a ∧ GraphInv ctx (ctx.clause id) a ∧
      Exits ctx a (resolveLoop ctx (startAnalysis ctx (ctx.clause id))) := by
  have hstep : ∀ a, (AnalysisInv m ctx a ∧ GraphInv ctx (ctx.clause id) a) →
      1 < a.currentLevelVars.length → seekTrail ctx a.currentLevelVars a.trailIndex ≠ 0 →
      AnalysisInv m ctx (resolveAt ctx a (seekTrail ctx a.currentLevelVars a.trailIndex)) ∧
      GraphInv ctx (ctx.clause id)
        (resolveAt ctx a (seekTrail ctx a.currentLevelVars a.trailIndex)) := by
    rintro a ⟨ha, hg⟩ hlen hz
    obtain ⟨id', hp⟩ := exists_pivot hm hl hw ha hlen hz
    have hr := resolveAt_resolvent hm hl hw ha hp
    exact ⟨hr.inv hl hw ha hp, hg.step hw ha hp hr hlen⟩
  obtain ⟨a, ⟨hinv, hgraph⟩, he⟩ := resolveLoop_induct hstep _
    ⟨startAnalysis_inv hl hw hq hid hf, startAnalysis_graphInv hw hpos hf⟩
  exact ⟨a, hinv, hgraph, he⟩

/-- **The backtracking level on the graph.** It is the highest lower level the resolved reasons
bring in beside the conflict clause; the learned clause has those literals and the lower ones of
the conflict clause. -/
structure GraphSpec (ctx : SolverContext) (c : Clause) (r : ConflictResolutionResult) : Prop where
  raised : ∀ i p, BroughtIn ctx c i p → ctx.levelOf p.2 ≤ r.backtrackLevel
  attained : r.backtrackLevel = 0 ∨
    ∃ i p, BroughtIn ctx c i p ∧ ctx.levelOf p.2 = r.backtrackLevel
  bound : ∀ p ∈ r.learnedClause, ctx.levelOf p.2 ≠ ctx.currentDecisionLevel →
    (∃ q ∈ c, q.2 = p.2) ∨ ctx.levelOf p.2 ≤ r.backtrackLevel
  kept : ∀ p ∈ c, ctx.levelOf p.2 ≠ ctx.currentDecisionLevel →
    ∃ q ∈ r.learnedClause, q.2 = p.2

theorem resolveConflict_graph (hm : m.WellFormed) (hl : Linked m ctx)
    (hw : Wf (models m) ctx.state) (hq : Quiet ctx.state) {id : ClauseId}
    (hid : id < ctx.clauses.length) (hf : Falsified ctx.state.value (toCnf (ctx.clause id)))
    (hpos : 0 < ctx.currentDecisionLevel) :
    GraphSpec ctx (ctx.clause id) (resolveConflict ctx (ctx.clause id)) := by
  obtain ⟨a, hinv, hgraph, he⟩ := resolveLoop_graph hm hl hw hq hid hf hpos
  rw [he.resolveConflict]
  refine ⟨fun i p hb => ?_, hgraph.attained, fun p hp hlev => ?_, fun p hp hlev => ?_⟩
  · have hb' := hb
    obtain ⟨id', hres, -⟩ := hb'
    exact hgraph.raised i (he.lt_of_resolvedWith hm hl hw hpos hinv hgraph hres) p hb
  · exact hgraph.bound p (mem_of_mem_sortUnique hp) hlev
  · exact exists_var_mem_sortUnique hm hinv.resolved (hgraph.kept p hp hlev)

end Fabko.Sat
