import Fabko.Sat.Invariants

set_option autoImplicit false

/-! # Conflict analysis reads the trail in range

The loops of `resolve_conflict` with every access to the trail checked: at a reachable conflict no
access fails, they end within as many iterations as the trail has entries, and what they leave is
what `resolveLoop` leaves. -/

namespace Fabko.Sat

open Cnf Cdcl

/-! ## The loops with checked accesses -/

/-- The inner loop; `none` is an access out of range. -/
def seekTrailChecked (ctx : SolverContext) (pending : List VarId) : Nat → Option Nat
  | 0 => some 0
  | i + 1 =>
      match ctx.trail[i + 1]? with
      | none => none
      | some _ => if isPending ctx pending (i + 1) then some (i + 1) else seekTrailChecked ctx pending i

/-- At most `fuel` iterations of the outer loop; `none` is an access out of range, or a loop that
goes on. -/
def resolveLoopChecked (ctx : SolverContext) : Nat → Analysis → Option Analysis
  | fuel, a =>
      if a.currentLevelVars.length ≤ 1 then some a
      else
        match fuel, seekTrailChecked ctx a.currentLevelVars a.trailIndex with
        | _, none => none
        | _, some 0 => some { a with trailIndex := 0 }
        | 0, some (_ + 1) => none
        | fuel + 1, some (i + 1) => resolveLoopChecked ctx fuel (resolveAt ctx a (i + 1))

/-- The states at the head of the outer loop, from `a` on. -/
inductive Iterates (ctx : SolverContext) (a : Analysis) : Analysis → Prop
  | start : Iterates ctx a a
  | next {b : Analysis} (h : Iterates ctx a b) (hlen : 1 < b.currentLevelVars.length)
      (hz : seekTrail ctx b.currentLevelVars b.trailIndex ≠ 0) :
      Iterates ctx a (resolveAt ctx b (seekTrail ctx b.currentLevelVars b.trailIndex))

theorem seekTrailChecked_eq {ctx : SolverContext} {pending : List VarId} {i : Nat}
    (h : i < ctx.trail.length) : seekTrailChecked ctx pending i = some (seekTrail ctx pending i) := by
  induction i with
  | zero => rfl
  | succ i ih =>
      rw [seekTrailChecked, List.getElem?_eq_getElem h, seekTrail]
      dsimp only
      split
      · rfl
      · exact ih (by omega)

section Safety

variable {m : Model} {ctx : SolverContext} {a : Analysis}

theorem Iterates.inv (hm : m.WellFormed) (hl : Linked m ctx) (hw : Wf (models m) ctx.state)
    (ha : AnalysisInv m ctx a) {b : Analysis} (h : Iterates ctx a b) : AnalysisInv m ctx b := by
  induction h with
  | start => exact ha
  | next _ hlen hz ih => exact resolveAt_inv hm hl hw ih hlen hz

theorem AnalysisInv.trailIndex_lt (h : AnalysisInv m ctx a)
    (hlen : 1 < a.currentLevelVars.length) : a.trailIndex < ctx.trail.length := by
  apply h.inRange
  rintro hnil
  rw [hnil] at hlen
  simp at hlen

/-- The index falls with every iteration, so the loop needs no more than it starts with. -/
theorem resolveLoopChecked_eq (hm : m.WellFormed) (hl : Linked m ctx)
    (hw : Wf (models m) ctx.state) {fuel : Nat} (h : AnalysisInv m ctx a)
    (hfuel : 1 < a.currentLevelVars.length → a.trailIndex ≤ fuel) :
    resolveLoopChecked ctx fuel a = some (resolveLoop ctx a) := by
  induction fuel generalizing a with
  | zero =>
      unfold resolveLoopChecked resolveLoop
      by_cases hlen : a.currentLevelVars.length ≤ 1
      · rw [if_pos hlen, if_pos hlen]
      · have hz : a.trailIndex = 0 := Nat.le_zero.mp (hfuel (by omega))
        rw [if_neg hlen, if_neg hlen, seekTrailChecked_eq (h.trailIndex_lt (by omega))]
        simp [hz, seekTrail]
  | succ fuel ih =>
      unfold resolveLoopChecked resolveLoop
      by_cases hlen : a.currentLevelVars.length ≤ 1
      · rw [if_pos hlen, if_pos hlen]
      · have hle := seekTrail_le ctx a.currentLevelVars a.trailIndex
        have hbound := hfuel (by omega)
        rw [if_neg hlen, if_neg hlen, seekTrailChecked_eq (h.trailIndex_lt (by omega))]
        rcases hseek : seekTrail ctx a.currentLevelVars a.trailIndex with _ | i
        · rfl
        · have hnext := resolveAt_inv hm hl hw h (by omega) (by omega)
          rw [hseek] at hnext
          have hrest : resolveLoopChecked ctx fuel (resolveAt ctx a (i + 1))
              = some (resolveLoop ctx (resolveAt ctx a (i + 1))) := by
            refine ih hnext (fun _ => ?_)
            show i + 1 - 1 ≤ fuel
            omega
          simpa using hrest

/-- What `resolve_conflict` may rely on for a conflict clause `c`. -/
structure SafeAnalysis (ctx : SolverContext) (c : Clause) : Prop where
  /-- Within as many iterations as the trail has entries, every access in range. -/
  terminates : resolveLoopChecked ctx ctx.trail.length (startAnalysis ctx c)
    = some (resolveLoop ctx (startAnalysis ctx c))
  inRange : ∀ a, Iterates ctx (startAnalysis ctx c) a → 1 < a.currentLevelVars.length →
    a.trailIndex < ctx.trail.length
  current : ∀ a, Iterates ctx (startAnalysis ctx c) a → ∀ v, v ∈ a.currentLevelVars ↔
    ∃ p ∈ a.learnedClause, p.2 = v ∧ ctx.levelOf v = ctx.currentDecisionLevel
  onTrail : ∀ a, Iterates ctx (startAnalysis ctx c) a → ∀ v ∈ a.currentLevelVars,
    ∃ i ≤ a.trailIndex, ctx.trail[i]? = some v
  /-- The exit `trail empty` is left for repetitions of the decision of the level. -/
  trailEmpty : 0 < ctx.currentDecisionLevel → ∀ a, Iterates ctx (startAnalysis ctx c) a →
    1 < a.currentLevelVars.length → seekTrail ctx a.currentLevelVars a.trailIndex = 0 →
    ∃ d ∈ ctx.trail, ctx.levelOf d = ctx.currentDecisionLevel ∧
      (ctx.var d).context.isDecision = true ∧ ∀ v ∈ a.currentLevelVars, v = d
  nonempty : 0 < ctx.currentDecisionLevel → (resolveConflict ctx c).learnedClause ≠ []
  /-- `solve_sat` returns before it finds the learned clause empty. -/
  unreachable : ¬ (ctx.currentDecisionLevel = 0 ∧ (resolveConflict ctx c).backtrackLevel = 0) →
    (resolveConflict ctx c).learnedClause ≠ []

theorem AnalysisInv.exists_decision (hm : m.WellFormed) (hl : Linked m ctx)
    (hw : Wf (models m) ctx.state) (h : AnalysisInv m ctx a) (hpos : 0 < ctx.currentDecisionLevel)
    (hlen : 1 < a.currentLevelVars.length)
    (hz : seekTrail ctx a.currentLevelVars a.trailIndex = 0) :
    ∃ d ∈ ctx.trail, ctx.levelOf d = ctx.currentDecisionLevel ∧
      (ctx.var d).context.isDecision = true ∧ ∀ v ∈ a.currentLevelVars, v = d := by
  have hnone : ∀ v ∈ a.currentLevelVars, (ctx.var v).context.clausePropagation = none :=
    fun v hv => clausePropagation_eq_none_of_seekTrail hm hl hw h hpos hz hv
  obtain ⟨d, hd⟩ := List.exists_mem_of_length_pos (Nat.lt_of_succ_lt hlen)
  refine ⟨d, h.mem_trail hd, h.level_of_pending hd, isDecision_iff.mpr (hnone d hd),
    fun v hv => ?_⟩
  exact decision_unique hw (h.mem_trail hv) (h.mem_trail hd)
    ((h.level_of_pending hv).trans (h.level_of_pending hd).symm) (hnone v hv) (hnone d hd)

/-- **Conflict analysis is safe** at every conflict that is reached. -/
theorem reachable_safeAnalysis (hm : m.WellFormed) {mul : Nat → Nat → Nat} {id : ClauseId}
    (h : Reachable mul m ⟨.conflict id, ctx⟩) : SafeAnalysis ctx (ctx.clause id) := by
  have hconf : Conflict m ctx id := h.inv hm
  have hl := hconf.good.linked
  have hw := hconf.good.wf
  have hstart := startAnalysis_inv hl hw hconf.good.quiet hconf.lt hconf.falsified
  have hinv : ∀ {a}, Iterates ctx (startAnalysis ctx (ctx.clause id)) a → AnalysisInv m ctx a :=
    fun ha => ha.inv hm hl hw hstart
  have hnonempty : 0 < ctx.currentDecisionLevel →
      (resolveConflict ctx (ctx.clause id)).learnedClause ≠ [] := by
    intro hpos
    obtain ⟨p, hp, -⟩ := (hconf.spec hm).current hpos
    exact List.ne_nil_of_mem hp
  refine ⟨?_, fun a ha hlen => (hinv ha).trailIndex_lt hlen, fun a ha => (hinv ha).pending, ?_,
    fun hpos a ha hlen hz => (hinv ha).exists_decision hm hl hw hpos hlen hz, hnonempty,
    fun hno => ?_⟩
  · exact resolveLoopChecked_eq hm hl hw hstart (fun hlen => le_of_lt (hstart.trailIndex_lt hlen))
  · intro a ha v hv
    obtain ⟨i, hi, hlt, hvar⟩ := mem_take_iff.mp ((hinv ha).onTrail v hv)
    refine ⟨i, Nat.lt_succ_iff.mp hi, ?_⟩
    rw [List.getElem?_eq_getElem hlt, ← trailVar_eq_getElem hlt, hvar]
  · -- at level 0 there is no level below
    refine hnonempty (Nat.pos_of_ne_zero (fun hz => hno ⟨hz, ?_⟩))
    rcases (hconf.spec hm).level with hzero | ⟨hlt, -⟩
    · exact hzero
    · omega

/-- Its conflict clause has the decision twice, and nothing else. -/
def doubled : Model where
  literals := [⟨1⟩]
  clauses := [[⟨-1⟩, ⟨-1⟩]]

theorem reachable_safeAnalysis_doubled :
    ∃ ctx, Reachable mulUInt32 doubled ⟨.conflict 0, ctx⟩ ∧
      (startAnalysis ctx (ctx.clause 0)).currentLevelVars = [0, 0] ∧
      SafeAnalysis ctx (ctx.clause 0) := by
  obtain ⟨ctx, h, htwice⟩ := @exists_conflict mulUInt32 doubled highestVsids 1 0
    (fun ctx => (startAnalysis ctx (ctx.clause 0)).currentLevelVars = [0, 0]) _ (by decide +kernel)
  exact ⟨ctx, h, htwice, reachable_safeAnalysis (by decide) h⟩

end Safety

end Fabko.Sat
