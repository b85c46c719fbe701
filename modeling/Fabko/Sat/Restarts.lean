import Fabko.Sat.Levels
import Fabko.Sat.Statistics

set_option autoImplicit false

/-! # The restart schedule

The threshold is multiplied in 32 bits. As long as no product runs over a multiple of `2 ^ 32`, it
never shrinks and a conflict comes between any two restarts; after it has come to 0, every
iteration restarts. -/

namespace Fabko.Sat

variable {mul : Nat → Nat → Nat} {m : Model} {init ctx ctx' : SolverContext} {es : List Event}

/-! ## One product -/

/-- A multiple of `2 ^ 32` lies within the last `threshold` steps up to the product. -/
def Wraps (threshold multiplier : Nat) : Prop :=
  ∃ k, threshold * (multiplier - 1) < k * 2 ^ 32 ∧ k * 2 ^ 32 ≤ threshold * multiplier

theorem le_mulUInt32_iff {t r : Nat} (hr : 1 ≤ r) : t ≤ mulUInt32 t r ↔ ¬ Wraps t r := by
  obtain ⟨n, rfl⟩ : ∃ n, r = n + 1 := ⟨r - 1, by omega⟩
  have hdiv : t * (n + 1) = t * n + t := Nat.mul_succ t n
  have hmod := Nat.div_add_mod (t * (n + 1)) (2 ^ 32)
  constructor
  · rintro hle ⟨k, hlow, hhigh⟩
    have hk : k ≤ t * (n + 1) / 2 ^ 32 := (Nat.le_div_iff_mul_le (by decide)).mpr hhigh
    unfold mulUInt32 at hle
    simp only [Nat.add_sub_cancel] at hlow
    omega
  · intro hno
    have hlow : t * (n + 1) / 2 ^ 32 * 2 ^ 32 ≤ t * n := by
      refine not_lt.mp (fun hlt => hno ⟨t * (n + 1) / 2 ^ 32, ?_, ?_⟩)
      · exact hlt
      · omega
    unfold mulUInt32
    omega

/-- A product that fits in 32 bits does not wrap. -/
theorem not_wraps_of_lt {t r : Nat} (hr : 1 ≤ r) (h : t * r < 2 ^ 32) : ¬ Wraps t r := by
  rw [← le_mulUInt32_iff hr, mulUInt32, Nat.mod_eq_of_lt h]
  exact Nat.le_mul_of_pos_right t hr

/-! ## The schedule -/

/-- Every restart raises the threshold or keeps it, and leaves it positive; between two restarts
there is a conflict, and the second is not in the iteration after the first. -/
structure NeverBlocks (es : List Event) : Prop where
  growing : ∀ b a, Event.restart b a ∈ es → b ≤ a ∧ 1 ≤ a
  conflict : ∀ b a b' a' l₁ l₂ l₃, es = l₁ ++ .restart b a :: l₂ ++ .restart b' a' :: l₃ →
    ∃ id, Event.conflict id ∈ l₂
  apart : ∀ b a b' a' l₁ l₂ l₃, es = l₁ ++ .restart b a :: l₂ ++ .restart b' a' :: l₃ →
    Event.returned ∈ l₂ ∨ 2 ≤ l₂.count .iteration

/-! ## One iteration -/

/-- Propagation finds the conflict it returns and does not restart. -/
theorem propagationEvents_conflicts {fuel : Nat} {c : SolverContext} {o : Option ClauseId}
    (h : unitPropagationLoop fuel ctx = some (c, o)) :
    (propagationEvents fuel ctx).countP Event.isRestart = 0 ∧
    (propagationEvents fuel ctx).countP Event.isConflict = o.toList.length := by
  obtain ⟨counted, lost, hc⟩ := propagationEvents_count h
  obtain ⟨hrestarts, hconflicts, -, -⟩ := foldl_record {} (propagationEvents fuel ctx)
  rw [hc.record {}, Nat.zero_add] at hrestarts hconflicts
  rw [← hrestarts, ← hconflicts]
  cases o <;> exact ⟨rfl, rfl⟩

/-- What follows the test for a restart in an iteration. -/
structure Rest (mul : Nat → Nat → Nat) (ctx ctx' : SolverContext) (rest : List Event) : Prop where
  noRestart : rest.countP Event.isRestart = 0
  count : ctx'.conflictCountSinceLastRestart
    = (restartIfDue mul ctx).conflictCountSinceLastRestart + rest.countP Event.isConflict
  config : ctx'.config = (restartIfDue mul ctx).config
  returns : Levelled (restartIfDue mul ctx) → (restartIfDue mul ctx).currentDecisionLevel = 0 →
    Event.returned ∈ rest ∨ rest.countP Event.isConflict = 0

theorem conflictCount_afterConflict (ctx : SolverContext) (r : ConflictResolutionResult) :
    (afterConflict ctx r).conflictCountSinceLastRestart = ctx.conflictCountSinceLastRestart := by
  show (learnAdditionalClause ctx r.learnedClause).conflictCountSinceLastRestart = _
  unfold learnAdditionalClause
  split <;> rfl

/-- Propagation with a conflict or without, then what does neither restart nor find a conflict. -/
theorem rest_of_unitPropagation {c : SolverContext} {o : Option ClauseId} {tail : List Event}
    (hup : unitPropagation (restartIfDue mul ctx) = some (c, o))
    (htail : tail.countP Event.isRestart = 0 ∧ tail.countP Event.isConflict = 0)
    (hcount : ctx'.conflictCountSinceLastRestart
      = c.conflictCountSinceLastRestart + o.toList.length)
    (hconfig : ctx'.config = c.config)
    (hreturns : ∀ id, o = some id → Levelled (countConflict c) → c.currentDecisionLevel = 0 →
      Event.returned ∈ tail) :
    Rest mul ctx ctx' (propagationEvents ((restartIfDue mul ctx).vars.length + 1)
      (restartIfDue mul ctx) ++ tail) := by
  obtain ⟨hnone, hconflicts⟩ := propagationEvents_conflicts hup
  obtain ⟨hend, hsame⟩ := @unitPropagation_spec mul _ _ _ hup
  refine ⟨?_, ?_, hconfig.trans hsame.config, fun hl hz => ?_⟩
  · rw [List.countP_append, hnone, htail.1]
  · rw [List.countP_append, hconflicts, htail.2, hcount, hsame.conflictCount]
    rfl
  · cases o with
    | none =>
        refine Or.inr ?_
        rw [List.countP_append, hconflicts, htail.2]
        rfl
    | some id =>
        have hlevelled : Levelled (countConflict c) := Steps.levelled hend hl
        have hzero : c.currentDecisionLevel = 0 := hsame.current.trans hz
        exact Or.inl (List.mem_append_right _ (hreturns id rfl hlevelled hzero))

theorem exists_rest {choose : Chooser} {out : Option (Except SatError SolverResult)}
    (h : iteration mul choose ctx = some (ctx', out)) :
    ∃ rest, iterationEvents mul choose ctx = .iteration :: restartEvents mul ctx ++ rest ∧
      Rest mul ctx ctx' rest := by
  obtain ⟨tail, hout, hevents⟩ := exists_outcome h
  refine ⟨_, by rw [hevents, List.append_assoc], ?_⟩
  cases hout with
  | unsatisfiable hup hr =>
      refine rest_of_unitPropagation hup ⟨rfl, rfl⟩ rfl rfl ?_
      exact fun _ _ _ _ => List.mem_singleton_self _
  | @learned c id r hup hr hn =>
      subst hr
      refine rest_of_unitPropagation hup ⟨rfl, rfl⟩ (conflictCount_afterConflict _ _)
        (config_afterConflict _ _) ?_
      -- a conflict at level 0 is reported
      intro _ _ hl hz
      exact absurd (Or.inl ⟨hz, hl.backtrackLevel_eq_zero hz _⟩) hn
  | decided hup hv => exact rest_of_unitPropagation hup ⟨rfl, rfl⟩ rfl rfl (fun _ ho => nomatch ho)
  | solved hup => exact rest_of_unitPropagation hup ⟨rfl, rfl⟩ rfl rfl (fun _ ho => nomatch ho)
  | unsolved hup => exact rest_of_unitPropagation hup ⟨rfl, rfl⟩ rfl rfl (fun _ ho => nomatch ho)

/-! ## Runs -/

/-- An element of an append is in one of the two parts. -/
theorem append_eq_append_cons {α : Type} {es fs l₁ l₂ : List α} {e : α}
    (h : es ++ fs = l₁ ++ e :: l₂) :
    (∃ t, es = l₁ ++ e :: t ∧ l₂ = t ++ fs) ∨ (∃ t, l₁ = es ++ t ∧ fs = t ++ e :: l₂) := by
  rcases List.append_eq_append_iff.mp h with ⟨t, hl, hf⟩ | ⟨t, he, hl⟩
  · exact Or.inr ⟨t, hl, hf⟩
  · rcases List.cons_eq_append_iff.mp hl with ⟨rfl, hf⟩ | ⟨t', rfl, hl₂⟩
    · exact Or.inr ⟨[], by rw [he, List.append_nil, List.append_nil], hf⟩
    · exact Or.inl ⟨t', he, hl₂⟩

/-- The last restart of a list that has one. -/
theorem exists_last_restart (l₁ t : List Event) (b a : Nat) :
    ∃ l b' a' t', l₁ ++ .restart b a :: t = l ++ .restart b' a' :: t' ∧
      t'.countP Event.isRestart = 0 ∧ t' <:+ t := by
  induction t using List.reverseRecOn with
  | nil => exact ⟨l₁, b, a, [], rfl, rfl, List.suffix_refl []⟩
  | append_singleton t e ih =>
      obtain ⟨l, b', a', t', heq, hnone, hsuffix⟩ := ih
      by_cases he : e.isRestart = true
      · cases e with
        | restart b'' a'' =>
            exact ⟨l₁ ++ .restart b a :: t, b'', a'', [], by simp, rfl, List.nil_suffix⟩
        | _ => cases he
      · refine ⟨l, b', a', t' ++ [e], ?_, ?_, ?_⟩
        · rw [← List.cons_append, ← List.append_assoc, heq, List.append_assoc, List.cons_append]
        · simp [List.countP_append, hnone, he]
        · obtain ⟨s, hs⟩ := hsuffix
          exact ⟨s, by rw [← hs, List.append_assoc]⟩

theorem ne_append_restart {fs : List Event} (h : fs.countP Event.isRestart = 0)
    (t : List Event) (b a : Nat) (l : List Event) : fs ≠ t ++ .restart b a :: l := by
  rintro rfl
  rw [List.countP_append, List.countP_cons] at h
  simp [Event.isRestart] at h

/-- What follows the last restart, if the list is cut at a restart that is the last. -/
theorem eq_of_last_restart {fs tail l₁ l₂ : List Event} {t n b a : Nat}
    (htail : tail.countP Event.isRestart = 0) (hl₂ : l₂.countP Event.isRestart = 0)
    (heq : fs ++ .restart t n :: tail = l₁ ++ .restart b a :: l₂) : l₂ = tail := by
  rcases append_eq_append_cons heq with ⟨u, -, rfl⟩ | ⟨u, -, hfs⟩
  · rw [List.countP_append, List.countP_cons] at hl₂
    simp [Event.isRestart] at hl₂
  · cases u with
    | nil => exact (List.cons.inj hfs).2.symm
    | cons e u => exact absurd (List.cons.inj hfs).2 (ne_append_restart htail u b a l₂)

namespace NeverBlocks

theorem nil : NeverBlocks [] := by
  refine ⟨fun b a h => absurd h List.not_mem_nil, ?_, ?_⟩
  · intro b a b' a' l₁ l₂ l₃ h
    simp at h
  · intro b a b' a' l₁ l₂ l₃ h
    simp at h

/-- More events, none of which is a restart. -/
theorem append {fs : List Event} (h : NeverBlocks es) (hf : fs.countP Event.isRestart = 0) :
    NeverBlocks (es ++ fs) := by
  refine ⟨fun b a hmem => ?_, ?_, ?_⟩
  · rcases List.mem_append.mp hmem with hmem | hmem
    · exact h.growing b a hmem
    · obtain ⟨t, l, heq⟩ := List.append_of_mem hmem
      exact absurd heq (ne_append_restart hf t b a l)
  · intro b a b' a' l₁ l₂ l₃ heq
    rcases append_eq_append_cons heq with ⟨t, hes, -⟩ | ⟨t, -, hfs⟩
    · exact h.conflict b a b' a' l₁ l₂ t hes
    · exact absurd hfs (ne_append_restart hf t b' a' l₃)
  · intro b a b' a' l₁ l₂ l₃ heq
    rcases append_eq_append_cons heq with ⟨t, hes, -⟩ | ⟨t, -, hfs⟩
    · exact h.apart b a b' a' l₁ l₂ t hes
    · exact absurd hfs (ne_append_restart hf t b' a' l₃)

/-- One more restart, far enough from the last one. -/
theorem restart {b' a' : Nat} (h : NeverBlocks es) (hgrow : b' ≤ a' ∧ 1 ≤ a')
    (hlast : ∀ l₁ b a l₂, es = l₁ ++ .restart b a :: l₂ → l₂.countP Event.isRestart = 0 →
      0 < l₂.countP Event.isConflict ∧ (Event.returned ∈ l₂ ∨ 2 ≤ l₂.count .iteration)) :
    NeverBlocks (es ++ [.restart b' a']) := by
  have hpair : ∀ {b a b'' a'' l₁ l₂ l₃},
      es ++ [.restart b' a'] = l₁ ++ .restart b a :: l₂ ++ .restart b'' a'' :: l₃ →
      (∃ id, Event.conflict id ∈ l₂) ∧ (Event.returned ∈ l₂ ∨ 2 ≤ l₂.count .iteration) := by
    intro b a b'' a'' l₁ l₂ l₃ heq
    rcases append_eq_append_cons heq with ⟨t, hes, -⟩ | ⟨t, hes, hfs⟩
    · exact ⟨h.conflict b a b'' a'' l₁ l₂ t hes, h.apart b a b'' a'' l₁ l₂ t hes⟩
    · -- the second is the new one, and the first is not after the last one of `es`
      have ht : t = [] := by
        cases t with
        | nil => rfl
        | cons e t => simp at hfs
      rw [ht, List.append_nil] at hes
      obtain ⟨l, b₁, a₁, t', heq', hnone, hsuffix⟩ := exists_last_restart l₁ l₂ b a
      obtain ⟨hconf, hapart⟩ := hlast l b₁ a₁ t' (hes.symm.trans heq') hnone
      constructor
      · obtain ⟨e, hmem, he⟩ := List.countP_pos_iff.mp hconf
        cases e with
        | conflict id => exact ⟨id, hsuffix.subset hmem⟩
        | _ => cases he
      · refine hapart.imp (fun hr => hsuffix.subset hr) (fun hn => ?_)
        exact hn.trans (hsuffix.sublist.count_le _)
  refine ⟨fun b a hmem => ?_, ?_, ?_⟩
  · rcases List.mem_append.mp hmem with hmem | hmem
    · exact h.growing b a hmem
    · cases List.mem_singleton.mp hmem
      exact hgrow
  · exact fun b a b'' a'' l₁ l₂ l₃ heq => (hpair heq).1
  · exact fun b a b'' a'' l₁ l₂ l₃ heq => (hpair heq).2

end NeverBlocks

/-- The state of the schedule after the events `es`. -/
structure Schedule (init ctx : SolverContext) (es : List Event) : Prop where
  threshold : 1 ≤ ctx.config.restartThreshold
  multiplier : ctx.config.restartMultiplier = init.config.restartMultiplier
  /-- The counter counts the conflicts since the last restart. -/
  since : ∀ l₁ b a l₂, es = l₁ ++ .restart b a :: l₂ → l₂.countP Event.isRestart = 0 →
    ctx.conflictCountSinceLastRestart = l₂.countP Event.isConflict ∧
    (1 ≤ l₂.count .iteration ∨ Event.returned ∈ l₂ ∨ ctx.conflictCountSinceLastRestart = 0)
  blocks : NeverBlocks es

theorem Schedule.fresh (h : 1 ≤ init.config.restartThreshold) : Schedule init init [] := by
  refine ⟨h, rfl, fun l₁ b a l₂ he => ?_, NeverBlocks.nil⟩
  simp at he

/-- An iteration that does not restart. -/
theorem Schedule.keep {rest : List Event} (h : Schedule init ctx es)
    (hdue : ¬ ctx.config.restartThreshold ≤ ctx.conflictCountSinceLastRestart)
    (hrest : Rest mul ctx ctx' rest) : Schedule init ctx' (es ++ .iteration :: rest) := by
  have hstart : restartIfDue mul ctx = ctx := if_neg hdue
  have hconfig : ctx'.config = ctx.config := by rw [hrest.config, hstart]
  have hcount := hrest.count
  rw [hstart] at hcount
  have hnone : (Event.iteration :: rest).countP Event.isRestart = 0 := by
    rw [List.countP_cons, hrest.noRestart]
    rfl
  refine ⟨?_, ?_, fun l₁ b a l₂ heq hl₂ => ?_, h.blocks.append hnone⟩
  · rw [hconfig]
    exact h.threshold
  · rw [hconfig]
    exact h.multiplier
  · rcases append_eq_append_cons heq with ⟨t, hes, rfl⟩ | ⟨t, -, hfs⟩
    · rw [List.countP_append, Nat.add_eq_zero_iff] at hl₂
      refine ⟨?_, Or.inl ?_⟩
      · rw [hcount, (h.since l₁ b a t hes hl₂.1).1, List.countP_append, List.countP_cons]
        rfl
      · rw [List.count_append, List.count_cons_self]
        omega
    · exact absurd hfs (ne_append_restart hnone t b a l₂)

/-- The events up to a restart that is due: the counter has reached a positive threshold. -/
theorem Schedule.blocks_restart {thr next : Nat} (h : Schedule init ctx es)
    (hthr : ctx.config.restartThreshold = thr) (hdue : thr ≤ ctx.conflictCountSinceLastRestart)
    (hgrow : thr ≤ next ∧ 1 ≤ next) :
    NeverBlocks (es ++ [.iteration] ++ [.restart thr next]) := by
  have hpos : 1 ≤ thr := hthr ▸ h.threshold
  refine (h.blocks.append rfl).restart hgrow (fun l₁ b a l₂ heq hl₂ => ?_)
  rcases append_eq_append_cons heq with ⟨t, hes, rfl⟩ | ⟨t, -, hfs⟩
  · rw [List.countP_append, Nat.add_eq_zero_iff] at hl₂
    obtain ⟨hsince, hapart⟩ := h.since l₁ b a t hes hl₂.1
    constructor
    · rw [List.countP_append, ← hsince]
      omega
    · rcases hapart with hone | hret | hzero
      · right
        rw [List.count_append, List.count_singleton_self]
        omega
      · exact Or.inl (List.mem_append_left _ hret)
      · omega
  · exact absurd hfs (ne_append_restart rfl t b a l₂)

/-- An iteration that restarts. -/
theorem Schedule.restart {rest : List Event} (h : Schedule init ctx es) (hl : Levelled ctx)
    (hr : 1 ≤ init.config.restartMultiplier)
    (hwrap : ¬ Wraps ctx.config.restartThreshold init.config.restartMultiplier)
    (hdue : ctx.config.restartThreshold ≤ ctx.conflictCountSinceLastRestart)
    (hrest : Rest mulUInt32 ctx ctx' rest) :
    Schedule init ctx' (es ++ (.iteration :: restartEvents mulUInt32 ctx ++ rest)) := by
  set thr := ctx.config.restartThreshold with hthr
  set next := mulUInt32 thr ctx.config.restartMultiplier with hnext
  have hstart : restartIfDue mulUInt32 ctx = Fabko.Sat.restart mulUInt32 ctx := if_pos hdue
  have hevents : restartEvents mulUInt32 ctx = [.restart thr next, .backtrack 0] := if_pos hdue
  have hconfig := hrest.config
  have hcount := hrest.count
  have hreturns := hrest.returns
  rw [hstart] at hconfig hcount hreturns
  have hlevelled : Levelled (Fabko.Sat.restart mulUInt32 ctx) := by
    have hstep := @Step.levelled mulUInt32 _ _ Step.restart hl
    rw [hstart] at hstep
    exact hstep
  have hgrow : thr ≤ next ∧ 1 ≤ next := by
    rw [hnext, h.multiplier]
    have hle := (le_mulUInt32_iff hr).mpr hwrap
    exact ⟨hle, h.threshold.trans hle⟩
  have hblocks := h.blocks_restart hthr.symm hdue hgrow
  have hnone : (Event.backtrack 0 :: rest).countP Event.isRestart = 0 := by
    rw [List.countP_cons, hrest.noRestart]
    rfl
  have hsplit : es ++ (.iteration :: restartEvents mulUInt32 ctx ++ rest)
      = es ++ [.iteration] ++ [.restart thr next] ++ .backtrack 0 :: rest := by
    simp [hevents]
  rw [hsplit]
  refine ⟨?_, ?_, fun l₁ b a l₂ heq hl₂ => ?_, hblocks.append hnone⟩
  · rw [hconfig]
    exact hgrow.2
  · rw [hconfig]
    exact h.multiplier
  · -- the last restart is the one of this iteration
    rw [List.append_assoc, List.singleton_append] at heq
    rw [eq_of_last_restart hnone hl₂ heq]
    have hzero : ctx'.conflictCountSinceLastRestart = rest.countP Event.isConflict :=
      hcount.trans (Nat.zero_add _)
    refine ⟨hzero, Or.inr ?_⟩
    rcases hreturns hlevelled rfl with hret | hc
    · exact Or.inl (List.mem_cons_of_mem _ hret)
    · exact Or.inr (hzero.trans hc)

/-- **The step lemma.** -/
theorem Schedule.iteration (h : Schedule init ctx es) (hl : Levelled ctx)
    (hr : 1 ≤ init.config.restartMultiplier) {choose : Chooser}
    {out : Option (Except SatError SolverResult)}
    (hit : iteration mulUInt32 choose ctx = some (ctx', out))
    (hwrap : ∀ b a, Event.restart b a ∈ iterationEvents mulUInt32 choose ctx →
      ¬ Wraps b init.config.restartMultiplier) :
    Schedule init ctx' (es ++ iterationEvents mulUInt32 choose ctx) := by
  obtain ⟨rest, hevents, hrest⟩ := exists_rest hit
  rw [hevents] at hwrap ⊢
  by_cases hdue : ctx.config.restartThreshold ≤ ctx.conflictCountSinceLastRestart
  · have hmem : Event.restart ctx.config.restartThreshold
        (mulUInt32 ctx.config.restartThreshold ctx.config.restartMultiplier)
          ∈ .iteration :: restartEvents mulUInt32 ctx ++ rest := by
      rw [restartEvents, if_pos hdue]
      simp
    exact h.restart hl hr (hwrap _ _ hmem) hdue hrest
  · have hnone : restartEvents mulUInt32 ctx = [] := if_neg hdue
    rw [hnone]
    exact h.keep hdue hrest

/-- **The run lemma.** -/
theorem Run.schedule (hinit : solverContext m = .ok init)
    (ht : 1 ≤ init.config.restartThreshold) (hr : 1 ≤ init.config.restartMultiplier)
    (h : Run mulUInt32 init ctx es)
    (hwrap : ∀ b a, Event.restart b a ∈ es → ¬ Wraps b init.config.restartMultiplier) :
    Schedule init ctx es := by
  induction h with
  | nil => exact Schedule.fresh ht
  | iteration hrun hit ih =>
      have hes := ih (fun b a hmem => hwrap b a (List.mem_append_left _ hmem))
      exact hes.iteration (hrun.levelled hinit) hr hit
        (fun b a hmem => hwrap b a (List.mem_append_right _ hmem))

/-- The multiplier of a run is that of the model, and a restart event shows its product. -/
theorem Run.restart_eq (h : Run mul init ctx es) :
    ctx.config.restartMultiplier = init.config.restartMultiplier ∧
    ∀ b a, Event.restart b a ∈ es → a = mul b init.config.restartMultiplier := by
  induction h with
  | nil => exact ⟨rfl, fun b a hmem => absurd hmem List.not_mem_nil⟩
  | @iteration ctx ctx' es choose out hrun hit ih =>
      obtain ⟨rest, hevents, hrest⟩ := exists_rest hit
      refine ⟨?_, fun b a hmem => ?_⟩
      · rw [hrest.config, ← ih.1]
        exact restartIfDue_induct mul ctx rfl rfl
      · rcases List.mem_append.mp hmem with hmem | hmem
        · exact ih.2 b a hmem
        · rw [hevents] at hmem
          rcases List.mem_append.mp hmem with hmem | hmem
          · unfold restartEvents at hmem
            split at hmem
            · simp only [List.mem_cons, reduceCtorEq, Event.restart.injEq, List.not_mem_nil,
                or_false, false_or] at hmem
              rw [hmem.1, hmem.2, ih.1]
            · simp at hmem
          · obtain ⟨t, l, heq⟩ := List.append_of_mem hmem
            exact absurd heq (ne_append_restart hrest.noRestart t b a l)

/-- Once the threshold is 0, every iteration restarts. -/
theorem Run.restart_of_zero (h : Run mulUInt32 init ctx es)
    (hz : init.config.restartThreshold = 0) :
    ctx.config.restartThreshold = 0 ∧
    ∀ choose, Event.restart 0 0 ∈ iterationEvents mulUInt32 choose ctx := by
  have hthr : ctx.config.restartThreshold = 0 := by
    induction h with
    | nil => exact hz
    | @iteration ctx ctx' es choose out hrun hit ih =>
        obtain ⟨rest, -, hrest⟩ := exists_rest hit
        rw [hrest.config]
        refine restartIfDue_induct mulUInt32 ctx ?_ ih
        show mulUInt32 ctx.config.restartThreshold ctx.config.restartMultiplier = 0
        rw [ih, mulUInt32, Nat.zero_mul, Nat.zero_mod]
  refine ⟨hthr, fun choose => ?_⟩
  have hprod : mulUInt32 0 ctx.config.restartMultiplier = 0 := by
    rw [mulUInt32, Nat.zero_mul, Nat.zero_mod]
  simp [iterationEvents, restartEvents, hthr, hprod]

/-- **The restart schedule** of a run never blocks progress exactly when no product wraps. -/
theorem neverBlocks_iff (hinit : solverContext m = .ok init)
    (ht : 1 ≤ m.conf.restartThreshold) (hr : 1 ≤ m.conf.restartMultiplier)
    (h : Run mulUInt32 init ctx es) :
    NeverBlocks es ↔ ∀ b a, Event.restart b a ∈ es → ¬ Wraps b m.conf.restartMultiplier := by
  have hconf := (fresh_of_solverContext hinit).config
  rw [← hconf] at ht hr ⊢
  constructor
  · intro hblocks b a hmem
    rw [← le_mulUInt32_iff hr, ← h.restart_eq.2 b a hmem]
    exact (hblocks.growing b a hmem).1
  · intro hwrap
    exact (h.schedule hinit ht hr hwrap).blocks

/-- The default configuration doubles 100, which wraps from the 26th restart on. -/
example : ¬ Wraps (100 * 2 ^ 24) 2 ∧ Wraps (100 * 2 ^ 25) 2 :=
  ⟨not_wraps_of_lt (by decide) (by decide), 1, by decide, by decide⟩

/-- A decision on 1 and one on 3 each lead to a conflict; 5 occurs in no clause. -/
def twoTraps (conf : Configuration) : Model where
  literals := [⟨1⟩, ⟨2⟩, ⟨3⟩, ⟨4⟩, ⟨5⟩]
  clauses := [[⟨-1⟩, ⟨2⟩], [⟨-1⟩, ⟨-2⟩], [⟨-3⟩, ⟨4⟩], [⟨-3⟩, ⟨-4⟩]]
  conf := conf

/-- One more trap of the same kind, with a restart after one conflict and one after two more. -/
def threeTraps : Model where
  literals := [⟨1⟩, ⟨2⟩, ⟨3⟩, ⟨4⟩, ⟨5⟩, ⟨6⟩, ⟨7⟩]
  clauses := [[⟨-1⟩, ⟨2⟩], [⟨-1⟩, ⟨-2⟩], [⟨-3⟩, ⟨4⟩], [⟨-3⟩, ⟨-4⟩], [⟨-5⟩, ⟨6⟩], [⟨-5⟩, ⟨-6⟩]]
  conf := { restartThreshold := 1, restartMultiplier := 2 }

theorem neverBlocks_iff_threeTraps :
    ∃ init ctx es, solverContext threeTraps = .ok init ∧ Run mulUInt32 init ctx es ∧
      es.filter Event.isRestart = [.restart 1 2, .restart 2 4] ∧ NeverBlocks es := by
  obtain ⟨init, ctx, es, hinit, hrun, hall⟩ := @exists_run mulUInt32 threeTraps highestVsids 10
    (fun _ es => es.filter Event.isRestart = [.restart 1 2, .restart 2 4]) _ (by decide +kernel)
  refine ⟨init, ctx, es, hinit, hrun, hall, ?_⟩
  refine (neverBlocks_iff hinit (by decide) (by decide) hrun).mpr (fun b a hba => ?_)
  have hmem : Event.restart b a ∈ [Event.restart 1 2, .restart 2 4] :=
    hall ▸ List.mem_filter.mpr ⟨hba, rfl⟩
  simp only [List.mem_cons, Event.restart.injEq, List.not_mem_nil, or_false] at hmem
  rcases hmem with ⟨rfl, -⟩ | ⟨rfl, -⟩ <;> exact not_wraps_of_lt (by decide) (by decide)

/-- From threshold 2 and multiplier `2 ^ 31` the first restart leads to threshold 0, and the next
iterations restart again without a conflict. -/
theorem not_neverBlocks_twoTraps :
    ∃ init ctx es,
      solverContext (twoTraps { restartThreshold := 2, restartMultiplier := 2147483648 }) = .ok init ∧
      Run mulUInt32 init ctx es ∧ ¬ NeverBlocks es := by
  obtain ⟨init, ctx, es, hinit, hrun, hmem⟩ := @exists_run mulUInt32
    (twoTraps { restartThreshold := 2, restartMultiplier := 2147483648 }) highestVsids 7
    (fun _ es => Event.restart 2 0 ∈ es ∧ Event.restart 0 0 ∈ es) _ (by decide +kernel)
  refine ⟨init, ctx, es, hinit, hrun, fun h => ?_⟩
  have hgrow := h.growing 2 0 hmem.1
  omega

end Fabko.Sat
