import Fabko.Sat.Backjump

set_option autoImplicit false

/-! # The first unique implication point

The graph of the current level has an edge from each other variable of a reason to the variable it
propagated; its paths start at the decision of the level and a conflict is reached at a variable
of the conflict clause. When no clause repeats a variable, the one variable of the current level
that `resolve_conflict` leaves is on all of these paths, and it is the last one on the trail that
is. -/

namespace Fabko.Sat

open Cnf Cdcl

variable {m : Model} {ctx : SolverContext} {c : Clause} {mul : Nat → Nat → Nat}

/-! ## Paths -/

/-- An edge of the graph of the current level. -/
structure Edge (ctx : SolverContext) (w v : VarId) : Prop where
  mem_trail : v ∈ ctx.trail
  level_left : ctx.levelOf w = ctx.currentDecisionLevel
  level_right : ctx.levelOf v = ctx.currentDecisionLevel
  ne : w ≠ v
  reason : ∃ id, (ctx.var v).context.clausePropagation = some id ∧ ∃ p ∈ ctx.clause id, p.2 = w

/-- A path from the decision of the current level to `v`, listed from `v` backwards. -/
inductive LevelPath (ctx : SolverContext) : VarId → List VarId → Prop
  | decision {d : VarId} (hd : d ∈ ctx.trail) (hlev : ctx.levelOf d = ctx.currentDecisionLevel)
      (hdec : (ctx.var d).context.isDecision = true) : LevelPath ctx d [d]
  | edge {w v : VarId} {xs : List VarId} (hp : LevelPath ctx w xs) (he : Edge ctx w v) :
      LevelPath ctx v (v :: xs)

/-- A path from the decision to the conflict. -/
def ConflictPath (ctx : SolverContext) (c : Clause) (xs : List VarId) : Prop :=
  ∃ p ∈ c, ctx.levelOf p.2 = ctx.currentDecisionLevel ∧ LevelPath ctx p.2 xs

/-- `u` is on every path to the conflict, and no later entry of the trail is. -/
structure FirstUip (ctx : SolverContext) (c : Clause) (u : VarId) : Prop where
  connected : ∃ xs, ConflictPath ctx c xs
  onEvery : ∀ xs, ConflictPath ctx c xs → u ∈ xs
  last : ∀ i j, j < ctx.trail.length → ctx.trailVar i = u → i < j →
    ∃ xs, ConflictPath ctx c xs ∧ ctx.trailVar j ∉ xs

/-- No variable occurs twice in the clause. -/
def RepeatsNoVariable (c : Clause) : Prop := (c.map Prod.snd).Nodup

instance (c : Clause) : Decidable (RepeatsNoVariable c) :=
  inferInstanceAs (Decidable (c.map Prod.snd).Nodup)

/-! ## The trail orders the graph -/

theorem exists_index {v : VarId} (h : v ∈ ctx.trail) :
    ∃ i < ctx.trail.length, ctx.trailVar i = v := by
  obtain ⟨i, hi, rfl⟩ := List.getElem_of_mem h
  exact ⟨i, hi, trailVar_eq_getElem hi⟩

theorem index_unique (hw : Wf (models m) ctx.state) {i j : Nat} (hi : i < ctx.trail.length)
    (hj : j < ctx.trail.length) (h : ctx.trailVar i = ctx.trailVar j) : i = j := by
  have hnd : ctx.trail.Nodup := List.nodup_reverse.mp hw.nodup
  rw [trailVar_eq_getElem hi, trailVar_eq_getElem hj] at h
  exact (hnd.getElem_inj_iff).mp h

/-- **Backwards to the decision**: an entry of the current level has a path to it over entries that
are not later. -/
theorem exists_levelPath (hw : Wf (models m) ctx.state) (hpos : 0 < ctx.currentDecisionLevel)
    {i : Nat} (hi : i < ctx.trail.length)
    (hlev : ctx.levelOf (ctx.trailVar i) = ctx.currentDecisionLevel) :
    ∃ xs, LevelPath ctx (ctx.trailVar i) xs ∧
      ∀ x ∈ xs, ∃ j ≤ i, j < ctx.trail.length ∧ ctx.trailVar j = x := by
  induction i using Nat.strong_induction_on with
  | _ i ih =>
      have hmem : ctx.trailVar i ∈ ctx.trail := List.mem_reverse.mp (trailVar_mem hi)
      rcases hr : (ctx.var (ctx.trailVar i)).context.clausePropagation with _ | id
      · refine ⟨[ctx.trailVar i], LevelPath.decision hmem hlev (isDecision_iff.mpr hr),
          fun x hx => ⟨i, le_refl i, hi, (List.mem_singleton.mp hx).symm⟩⟩
      · -- the reason has another variable of the level, which is earlier
        have hreason := isReason_at hw hi hr
        have hlevpos : 0 < ctx.state.level (ctx.trailVar i) := by
          show 0 < ctx.levelOf (ctx.trailVar i)
          omega
        obtain ⟨l, hl, hne, hlevl⟩ := hreason.level hlevpos
        obtain ⟨p, hp, rfl⟩ := mem_toCnf.mp hl
        obtain ⟨-, hold⟩ := hreason.others (toLit p) hl hne
        obtain ⟨j, hji, hj, hjp⟩ := mem_take_iff.mp (List.mem_reverse.mp hold)
        have hlevj : ctx.levelOf (ctx.trailVar j) = ctx.currentDecisionLevel := by
          rw [hjp]
          exact Eq.trans hlevl hlev
        obtain ⟨xs, hpath, hearlier⟩ := ih j hji hj hlevj
        have hedge : Edge ctx (ctx.trailVar j) (ctx.trailVar i) :=
          ⟨hmem, hlevj, hlev, hjp ▸ hne, id, hr, p, hp, hjp.symm⟩
        refine ⟨ctx.trailVar i :: xs, hpath.edge hedge, fun x hx => ?_⟩
        rcases List.mem_cons.mp hx with rfl | hx'
        · exact ⟨i, le_refl i, hi, rfl⟩
        · obtain ⟨k, hk, hklt, hkx⟩ := hearlier x hx'
          exact ⟨k, by omega, hklt, hkx⟩

/-- **Forwards to the conflict**: what is reached over the reasons from index `k` on leads to the
conflict over entries from index `k` on. -/
theorem Reached.exists_conflictPath {k : Nat} {v : VarId} (h : Reached ctx c k v)
    {xs : List VarId} (hp : LevelPath ctx v xs) :
    ∃ ys, ConflictPath ctx c (ys ++ xs) ∧
      ∀ y ∈ ys, ∃ j, k ≤ j ∧ j < ctx.trail.length ∧ ctx.trailVar j = y := by
  induction h generalizing xs with
  | @conflict p hpc hlev => exact ⟨[], ⟨p, hpc, hlev, hp⟩, fun y hy => nomatch hy⟩
  | @reason i id p hki hi hv hid hpr hne hlev ih =>
      have hedge : Edge ctx p.2 (ctx.trailVar i) :=
        ⟨List.mem_reverse.mp (trailVar_mem hi), hlev, hv.level, hne, id, hid, p, hpr, rfl⟩
      obtain ⟨ys, hpath, hlater⟩ := ih (hp.edge hedge)
      refine ⟨ys ++ [ctx.trailVar i], ?_, fun y hy => ?_⟩
      · rw [List.append_assoc]
        exact hpath
      · rcases List.mem_append.mp hy with hy' | hy'
        · exact hlater y hy'
        · exact ⟨i, hki, hi, (List.mem_singleton.mp hy').symm⟩

/-- A path to the conflict that avoids what lies between `i` and `k`. -/
theorem Reached.exists_avoiding (hw : Wf (models m) ctx.state)
    (hpos : 0 < ctx.currentDecisionLevel) {i k : Nat} (hi : i < ctx.trail.length)
    (h : Reached ctx c k (ctx.trailVar i)) :
    ∃ xs, ConflictPath ctx c xs ∧
      ∀ j < ctx.trail.length, i < j → j < k → ctx.trailVar j ∉ xs := by
  obtain ⟨xs, hback, hearlier⟩ := exists_levelPath hw hpos hi h.level
  obtain ⟨ys, hpath, hlater⟩ := h.exists_conflictPath hback
  refine ⟨ys ++ xs, hpath, fun j hj hij hjk hmem => ?_⟩
  rcases List.mem_append.mp hmem with hy | hx
  · obtain ⟨j', hk, hlt, heq⟩ := hlater _ hy
    have := index_unique hw hlt hj heq
    omega
  · obtain ⟨j', hle, hlt, heq⟩ := hearlier _ hx
    have := index_unique hw hlt hj heq
    omega

/-! ## Where the analysis stops -/

/-- The state of the analysis at its exit when no clause repeats a variable: the variable `u` is
all that is left. -/
structure StopsAt (ctx : SolverContext) (c : Clause) (k : Nat) (u : VarId) : Prop where
  reached : Reached ctx c k u
  before : u ∈ ctx.trail.take k
  only : ∀ v ∈ ctx.trail.take k, Reached ctx c k v → v = u
  passed : ∀ j, k < j → j ≤ ctx.trail.length → ¬ SingleAt ctx c j

/-- On the way back along a path everything is reached, until `u` is met. -/
theorem StopsAt.mem_of_levelPath (hw : Wf (models m) ctx.state) {k : Nat} {u v : VarId}
    (h : StopsAt ctx c k u) {xs : List VarId} (hp : LevelPath ctx v xs)
    (hv : Reached ctx c k v) : u ∈ xs := by
  induction hp with
  | @decision d hd hlev hdec =>
      obtain ⟨i, hi, rfl⟩ := exists_index hd
      rcases Nat.lt_or_ge i k with hlt | hge
      · rw [h.only _ (mem_take_iff.mpr ⟨i, hlt, hi, rfl⟩) hv]
        exact List.mem_singleton_self u
      · -- `u` would be of the current level before its decision
        obtain ⟨j, hjk, hj, rfl⟩ := mem_take_iff.mp h.before
        have hlow := level_lt_of_decision hw (lt_of_lt_of_le hjk hge) hi (isDecision_iff.mp hdec)
        have := h.reached.level
        omega
  | @edge w v xs _ he ih =>
      obtain ⟨i, hi, rfl⟩ := exists_index he.mem_trail
      rcases Nat.lt_or_ge i k with hlt | hge
      · rw [h.only _ (mem_take_iff.mpr ⟨i, hlt, hi, rfl⟩) hv]
        exact List.mem_cons_self
      · obtain ⟨id, hid, p, hpr, hpw⟩ := he.reason
        have hreach : Reached ctx c k p.2 :=
          Reached.reason hge hi hv hid hpr (hpw ▸ he.ne) (hpw ▸ he.level_left)
        exact List.mem_cons_of_mem _ (ih (hpw ▸ hreach))

theorem StopsAt.firstUip (hw : Wf (models m) ctx.state) (hpos : 0 < ctx.currentDecisionLevel)
    (hc : RepeatsNoVariable c) {k : Nat} {u : VarId} (h : StopsAt ctx c k u) :
    FirstUip ctx c u := by
  obtain ⟨i, hik, hi, hiu⟩ := mem_take_iff.mp h.before
  refine ⟨?_, fun xs hxs => ?_, fun i' j hj hi' hij => ?_⟩
  · obtain ⟨xs, hxs, -⟩ := Reached.exists_avoiding hw hpos hi (hiu ▸ h.reached)
    exact ⟨xs, hxs⟩
  · obtain ⟨p, hp, hlev, hpath⟩ := hxs
    exact h.mem_of_levelPath hw hpath (Reached.conflict hp hlev)
  · have hii : i' = i := index_unique hw (by omega) hi (hi'.trans hiu.symm)
    subst hii
    rcases Nat.lt_or_ge j k with hjk | hkj
    · -- go to the conflict from `u`, over entries from `k` on
      obtain ⟨xs, hxs, havoid⟩ := Reached.exists_avoiding hw hpos hi (hiu ▸ h.reached)
      exact ⟨xs, hxs, havoid j hj hij hjk⟩
    · -- two variables were left when the walk was at `j`; start from one that is not `j`
      have hnot := h.passed (j + 1) (by omega) (by omega)
      obtain ⟨v, hv, hrv, hne⟩ : ∃ v ∈ ctx.trail.take (j + 1), Reached ctx c (j + 1) v ∧
          v ≠ ctx.trailVar j := by
        by_contra hno
        refine hnot (fun v hv w hw' hrv hrw => ⟨?_, ?_⟩)
        · have hvj : v = ctx.trailVar j := by
            by_contra hne
            exact hno ⟨v, hv, hrv, hne⟩
          have hwj : w = ctx.trailVar j := by
            by_contra hne
            exact hno ⟨w, hw', hrw, hne⟩
          rw [hvj, hwj]
        · exact List.nodup_iff_count_le_one.mp hc v
      obtain ⟨i₂, hlt, hi₂, rfl⟩ := mem_take_iff.mp hv
      have hij₂ : i₂ < j := by
        rcases Nat.lt_or_ge i₂ j with hlt' | hge
        · exact hlt'
        · have : i₂ = j := by omega
          exact absurd (by rw [this]) hne
      obtain ⟨xs, hxs, havoid⟩ := Reached.exists_avoiding hw hpos hi₂ hrv
      exact ⟨xs, hxs, havoid j hj hij₂ (Nat.lt_succ_self j)⟩

/-- Without repetitions the loop stops because one variable is left, not at the end of the
trail. -/
theorem Exits.length_le_one (hm : m.WellFormed) (hl : Linked m ctx) (hw : Wf (models m) ctx.state)
    (hpos : 0 < ctx.currentDecisionLevel) (hc : RepeatsNoVariable c) {a r : Analysis}
    (hinv : AnalysisInv m ctx a) (h : GraphInv ctx c a) (he : Exits ctx a r) :
    a.currentLevelVars.length ≤ 1 :=
  length_le_one_iff.mpr (fun v hv w hwm => ⟨he.single_current hm hl hw hinv hpos v hv w hwm,
    (h.count v hv).mpr (List.nodup_iff_count_le_one.mp hc v)⟩)

/-- The variable of the current level in the clause `resolve_conflict` returns. -/
theorem stopsAt_of_learned (hm : m.WellFormed) {id : ClauseId} (h : Conflict m ctx id)
    (hpos : 0 < ctx.currentDecisionLevel) (hc : RepeatsNoVariable (ctx.clause id))
    {p : Literal × VarId}
    (hp : p ∈ (resolveConflict ctx (ctx.clause id)).learnedClause)
    (hlev : ctx.levelOf p.2 = ctx.currentDecisionLevel) :
    ∃ k, StopsAt ctx (ctx.clause id) k p.2 := by
  have hl := h.good.linked
  have hw := h.good.wf
  obtain ⟨a, hinv, hgraph, he⟩ :=
    resolveLoop_graph hm hl hw h.good.quiet h.lt h.falsified hpos
  rw [he.resolveConflict] at hp
  have hpending : p.2 ∈ a.currentLevelVars :=
    (hinv.pending p.2).mpr ⟨p, mem_of_mem_sortUnique hp, rfl, hlev⟩
  obtain ⟨hreached, hbefore⟩ := (hgraph.frontier p.2).mp hpending
  have hlen := he.length_le_one hm hl hw hpos hc hinv hgraph
  refine ⟨a.trailIndex + 1, hreached, hbefore, fun v hv hrv => ?_, hgraph.passed⟩
  exact (length_le_one_iff.mp hlen v ((hgraph.frontier v).mpr ⟨hrv, hv⟩) p.2 hpending).1

/-- **Unique implication point.** Above level 0 the learned clause has exactly one literal of the
current level, and where no clause repeats a variable its variable is the first unique implication
point. -/
theorem reachable_firstUip (hm : m.WellFormed) {id : ClauseId}
    (h : Reachable mul m ⟨.conflict id, ctx⟩) (hpos : 0 < ctx.currentDecisionLevel) :
    ∃ p, (resolveConflict ctx (ctx.clause id)).learnedClause.filter
        (fun q => ctx.levelOf q.2 = ctx.currentDecisionLevel) = [p] ∧
      ((∀ row ∈ ctx.clauses, RepeatsNoVariable row.clause) →
        FirstUip ctx (ctx.clause id) p.2) := by
  have hconf : Conflict m ctx id := h.inv hm
  have hspec := hconf.spec hm
  obtain ⟨p, hp, hcur⟩ := hspec.exists_current hm hpos
  refine ⟨p, ?_, fun hnorep => ?_⟩
  · have hnd := hspec.distinct
    apply filter_eq_singleton hnd.of_map hp
    intro q hq
    rw [decide_eq_true_eq]
    exact hcur q hq
  · obtain ⟨row, hrow, heq⟩ := clause_mem hconf.lt
    have hc : RepeatsNoVariable (ctx.clause id) := heq ▸ hnorep row hrow
    obtain ⟨k, hk⟩ := stopsAt_of_learned hm hconf hpos hc hp ((hcur p hp).mpr rfl)
    exact hk.firstUip hconf.good.wf hpos hc

/-- A decision on 1 propagates 2, and 2 alone propagates 3 and 4, which are in conflict. -/
def bottleneck : Model where
  literals := [⟨1⟩, ⟨2⟩, ⟨3⟩, ⟨4⟩, ⟨5⟩]
  clauses := [[⟨-1⟩, ⟨2⟩], [⟨-2⟩, ⟨3⟩], [⟨-2⟩, ⟨4⟩], [⟨-3⟩, ⟨-4⟩], [⟨1⟩, ⟨5⟩], [⟨1⟩, ⟨5⟩], [⟨1⟩, ⟨5⟩]]

theorem reachable_firstUip_bottleneck :
    ∃ ctx, Reachable mulUInt32 bottleneck ⟨.conflict 3, ctx⟩ ∧ ctx.trail = [0, 1, 2, 3] ∧
      (∀ row ∈ ctx.clauses, RepeatsNoVariable row.clause) ∧
      ∃ p, (resolveConflict ctx (ctx.clause 3)).learnedClause.filter
          (fun q => ctx.levelOf q.2 = ctx.currentDecisionLevel) = [p] ∧
        FirstUip ctx (ctx.clause 3) p.2 := by
  have hrun : ∃ ctx, Reachable mulUInt32 bottleneck ⟨.conflict 3, ctx⟩ ∧
      0 < ctx.currentDecisionLevel ∧ ctx.trail = [0, 1, 2, 3] ∧
      ∀ row ∈ ctx.clauses, RepeatsNoVariable row.clause := by
    refine @exists_conflict mulUInt32 bottleneck highestVsids 1 3 _ _ ?_
    decide +kernel
  obtain ⟨ctx, hreach, hpos, htrail, hnorep⟩ := hrun
  obtain ⟨p, hp, huip⟩ := reachable_firstUip (by decide) hreach hpos
  exact ⟨ctx, hreach, htrail, hnorep, p, hp, huip hnorep⟩

end Fabko.Sat
