import Fabko.Sat.Refinement
import Fabko.Logic.Watched

set_option autoImplicit false

/-! # The clause watcher

`clause_watcher` (`solver.hh`, `solver.cpp`) on its own: the variables of a clause are assigned one
at a time, with one call of `replace` for each. The two slots watch the unassigned variables of the
clause as long as the first slot is not the one that is empty. -/

namespace Fabko.Sat

open Watched

/-! ## `clause_watcher::replace` -/

namespace ClauseWatcher

def getWatched (w : ClauseWatcher) : List VarId := w.first.toList ++ w.second.toList

def size (w : ClauseWatcher) : Nat :=
  (if w.first.isSome then 1 else 0) + (if w.second.isSome then 1 else 0)

theorem length_getWatched (w : ClauseWatcher) : w.getWatched.length = w.size := by
  obtain ⟨first, second⟩ := w
  cases first <;> cases second <;> rfl

/-- The `find_if` of `replace`: the first unassigned variable that the other slot does not watch. -/
def findUnassigned (vs : List Var) (c : Clause) (other : Option VarId) : Option VarId :=
  (c.map Prod.snd).find? (fun id =>
    if other = some id then false
    else decide ((vs.getD id default).assignment = .notAssigned))

/-- `none` is the `std::bad_optional_access` of an empty first slot. -/
def replace (w : ClauseWatcher) (vs : List Var) (c : Clause) (toReplace : VarId) :
    Option ClauseWatcher :=
  if w.first ≠ some toReplace ∧ w.second ≠ some toReplace then some w
  else
    -- `watchers_[0].value()` is read whichever slot holds the variable
    match w.first with
    | none => none
    | some f =>
        if f = toReplace then some { w with first := findUnassigned vs c w.second }
        else some { w with second := findUnassigned vs c w.first }

theorem replace_eq_none_iff {w : ClauseWatcher} {vs : List Var} {c : Clause} {v : VarId} :
    w.replace vs c v = none ↔ w.first = none ∧ w.second = some v := by
  obtain ⟨first, second⟩ := w
  unfold replace
  rcases first with _ | f
  · by_cases hs : second = some v <;> simp [hs]
  · by_cases hf : f = v
    · simp [hf]
    · by_cases hs : second = some v <;> simp [hf, hs]

end ClauseWatcher

/-! ## Assigning the variables of a clause -/

def unassignedOf (vs : List Var) (c : Clause) : List VarId :=
  (c.map Prod.snd).filter (fun id => (vs.getD id default).assignment = .notAssigned)

def assignVar (vs : List Var) (v : VarId) (a : Assignment) : List Var :=
  vs.modify v (fun x => { x with assignment := a })

/-- The variables and the watcher of the clause. -/
structure Watching where
  vars : List Var
  watcher : ClauseWatcher
deriving DecidableEq, Repr

/-- Assign one variable and tell the watcher. -/
def assignAndReplace (c : Clause) (s : Watching) (step : VarId × Assignment) : Option Watching :=
  let vs := assignVar s.vars step.1 step.2
  (s.watcher.replace vs c step.1).map (fun w => ⟨vs, w⟩)

/-- From the constructed watcher through a sequence of assignments; `none` if a call throws. -/
def watchThrough (vs : List Var) (c : Clause) (steps : List (VarId × Assignment)) :
    Option Watching :=
  steps.foldlM (assignAndReplace c) ⟨vs, watch vs c⟩

/-- Each step assigns a variable of the clause that is unassigned before it. -/
def AssignsUnassigned (c : Clause) : List Var → List (VarId × Assignment) → Prop
  | _, [] => True
  | vs, step :: steps =>
      step.1 ∈ unassignedOf vs c ∧ step.2 ≠ .notAssigned ∧
        AssignsUnassigned c (assignVar vs step.1 step.2) steps

/-- After every step the watcher holds two unassigned variables of the clause, or as many as there
are, and it holds what it held if the step assigned none of them. -/
structure WatchesThrough (vs : List Var) (c : Clause) (steps : List (VarId × Assignment)) :
    Prop where
  returns : ∀ before step, before ++ [step] <+: steps →
    (watchThrough vs c (before ++ [step])).isSome
  watches : ∀ before step s, before ++ [step] <+: steps →
    watchThrough vs c (before ++ [step]) = some s →
    Watches (unassignedOf s.vars c) s.watcher.getWatched
  unchanged : ∀ before step s s', before ++ [step] <+: steps → watchThrough vs c before = some s →
    watchThrough vs c (before ++ [step]) = some s' → step.1 ∉ s.watcher.getWatched →
    s'.watcher.getWatched = s.watcher.getWatched

/-! ## One step -/

theorem length_assignVar (vs : List Var) (v : VarId) (a : Assignment) :
    (assignVar vs v a).length = vs.length :=
  List.length_modify ..

section Step

variable {vs : List Var} {c : Clause} {v : VarId} {a : Assignment}

theorem nodup_unassignedOf (hnodup : (c.map Prod.snd).Nodup) : (unassignedOf vs c).Nodup :=
  hnodup.filter _

theorem unassignedOf_assignVar (hids : ∀ id ∈ c.map Prod.snd, id < vs.length)
    (ha : a ≠ .notAssigned) :
    unassignedOf (assignVar vs v a) c = without (unassignedOf vs c) v := by
  unfold unassignedOf without
  rw [List.filter_filter]
  apply List.filter_congr
  intro id hid
  have hlt := hids id hid
  unfold assignVar
  rw [getD_modify]
  by_cases hv : v = id
  · subst hv
    simp [hlt, ha]
  · have hv' : id ≠ v := Ne.symm hv
    simp [hv, hv']

theorem findUnassigned_eq_refill (other : Option VarId) :
    ClauseWatcher.findUnassigned vs c other = refill (unassignedOf vs c) other := by
  unfold ClauseWatcher.findUnassigned refill unassignedOf
  rw [List.find?_filter]
  congr 1
  funext id
  by_cases hother : other = some id
  · simp [hother]
  · have hother' : some id ≠ other := Ne.symm hother
    simp [hother, hother']

theorem watches_watch (hnodup : (c.map Prod.snd).Nodup) :
    Watches (unassignedOf vs c) (watch vs c).getWatched :=
  watches_first (nodup_unassignedOf hnodup)

/-- What a call that returns does: it keeps the watch over the variables that are left. -/
theorem watches_replace {w w' : ClauseWatcher} (hnodup : (c.map Prod.snd).Nodup)
    (hids : ∀ id ∈ c.map Prod.snd, id < vs.length) (ha : a ≠ .notAssigned)
    (hv : v ∈ unassignedOf vs c) (hw : Watches (unassignedOf vs c) w.getWatched)
    (h : w.replace (assignVar vs v a) c v = some w') :
    Watches (without (unassignedOf vs c) v) w'.getWatched ∧
      (v ∉ w.getWatched → w' = w) := by
  have hun := @nodup_unassignedOf vs c hnodup
  have hfind : ∀ other, ClauseWatcher.findUnassigned (assignVar vs v a) c other
      = refill (without (unassignedOf vs c) v) other := by
    intro other
    rw [findUnassigned_eq_refill, unassignedOf_assignVar hids ha]
  obtain ⟨first, second⟩ := w
  unfold ClauseWatcher.replace at h
  split at h
  · rename_i hboth
    cases h
    have hnot : v ∉ ClauseWatcher.getWatched ⟨first, second⟩ := by
      intro hmem
      rcases List.mem_append.mp hmem with hm | hm
      · exact hboth.1 (Option.mem_toList.mp hm)
      · exact hboth.2 (Option.mem_toList.mp hm)
    exact ⟨hw.leave hun hv hnot, fun _ => rfl⟩
  rename_i hboth
  rcases first with _ | f
  · cases h
  dsimp only at h
  split at h
  · -- the first slot is refilled
    rename_i hf
    subst hf
    cases h
    refine ⟨?_, fun hnot => absurd (List.mem_cons_self) hnot⟩
    rw [hfind]
    exact watches_refill hw hun
  · -- the second slot is
    rename_i hf
    have hs : second = some v := by
      by_contra hne
      exact hboth ⟨fun heq => hf (Option.some.inj heq), hne⟩
    subst hs
    cases h
    refine ⟨?_, fun hnot => absurd (List.mem_append_right _ List.mem_cons_self) hnot⟩
    rw [hfind]
    have hswap : Watches (unassignedOf vs c) (v :: (some f).toList) :=
      hw.perm (List.Perm.swap v f [])
    exact (watches_refill hswap hun).perm List.perm_append_comm

/-- A call throws on the last variable, if the second slot watches it. -/
theorem throws_iff {w : ClauseWatcher} (hv : v ∈ unassignedOf vs c)
    (hw : Watches (unassignedOf vs c) w.getWatched) :
    w.replace (assignVar vs v a) c v = none ↔
      unassignedOf vs c = [v] ∧ w.second = some v := by
  rw [ClauseWatcher.replace_eq_none_iff]
  obtain ⟨first, second⟩ := w
  constructor
  · rintro ⟨hfirst, hsecond⟩
    cases hfirst
    cases hsecond
    have hlen : 1 = min 2 (unassignedOf vs c).length := hw.length
    obtain ⟨x, hx⟩ := List.length_eq_one_iff.mp
      (show (unassignedOf vs c).length = 1 by omega)
    rw [hx, List.mem_singleton] at hv
    exact ⟨by rw [hx, hv], rfl⟩
  · rintro ⟨hall, hsecond⟩
    cases hsecond
    refine ⟨?_, rfl⟩
    rcases first with _ | f
    · rfl
    · have hlen : 2 = min 2 (unassignedOf vs c).length := hw.length
      rw [hall] at hlen
      cases hlen

end Step

/-! ## Runs -/

/-- What holds of the variables and the watcher before each step: the watch, and that the steps
still to come assign unassigned variables. -/
structure Ready (c : Clause) (steps : List (VarId × Assignment)) (s : Watching) : Prop where
  ids : ∀ id ∈ c.map Prod.snd, id < s.vars.length
  watches : Watches (unassignedOf s.vars c) s.watcher.getWatched
  assigns : AssignsUnassigned c s.vars steps

section Runs

variable {vs : List Var} {c : Clause} {steps : List (VarId × Assignment)}

theorem ready_watch (hnodup : (c.map Prod.snd).Nodup) (hids : ∀ id ∈ c.map Prod.snd, id < vs.length)
    (hsteps : AssignsUnassigned c vs steps) : Ready c steps ⟨vs, watch vs c⟩ :=
  ⟨hids, watches_watch hnodup, hsteps⟩

theorem Ready.step {s s' : Watching} {step : VarId × Assignment} (hnodup : (c.map Prod.snd).Nodup)
    (h : Ready c (step :: steps) s) (hstep : assignAndReplace c s step = some s') :
    Ready c steps s' ∧
      (step.1 ∉ s.watcher.getWatched → s'.watcher = s.watcher) := by
  obtain ⟨hv, ha, hrest⟩ := h.assigns
  obtain ⟨w, hw, rfl⟩ := Option.map_eq_some_iff.mp hstep
  have hkeep := watches_replace hnodup h.ids ha hv h.watches hw
  refine ⟨⟨?_, ?_, hrest⟩, hkeep.2⟩
  · show ∀ id ∈ c.map Prod.snd, id < (assignVar s.vars step.1 step.2).length
    rw [length_assignVar]
    exact h.ids
  · show Watches (unassignedOf (assignVar s.vars step.1 step.2) c) w.getWatched
    rw [unassignedOf_assignVar h.ids ha]
    exact hkeep.1

theorem Ready.run {s s' : Watching} {before : List (VarId × Assignment)}
    (hnodup : (c.map Prod.snd).Nodup) (h : Ready c (before ++ steps) s)
    (hrun : before.foldlM (assignAndReplace c) s = some s') : Ready c steps s' := by
  induction before generalizing s with
  | nil =>
      cases hrun
      exact h
  | cons step before ih =>
      rw [List.foldlM_cons, Option.bind_eq_bind, Option.bind_eq_some_iff] at hrun
      obtain ⟨mid, hmid, hrest⟩ := hrun
      exact ih (h.step hnodup hmid).1 hrest

theorem watchThrough_append (before : List (VarId × Assignment)) (step : VarId × Assignment) :
    watchThrough vs c (before ++ [step])
      = (watchThrough vs c before).bind (fun s => assignAndReplace c s step) := by
  unfold watchThrough
  rw [List.foldlM_append]
  simp

/-- The state in which a step of the sequence is made. -/
theorem ready_before {before : List (VarId × Assignment)} {step : VarId × Assignment} {s : Watching}
    (hnodup : (c.map Prod.snd).Nodup) (hids : ∀ id ∈ c.map Prod.snd, id < vs.length)
    (hsteps : AssignsUnassigned c vs steps) (hpre : before ++ [step] <+: steps)
    (hs : watchThrough vs c before = some s) : ∃ rest, Ready c (step :: rest) s := by
  obtain ⟨rest, rfl⟩ := hpre
  have hready := ready_watch hnodup hids hsteps
  rw [List.append_assoc] at hready
  exact ⟨rest, hready.run hnodup hs⟩

/-- **The watcher watches through a sequence of assignments** exactly when no step assigns the last
unassigned variable while the second slot watches it. -/
theorem watchesThrough_iff (hnodup : (c.map Prod.snd).Nodup)
    (hids : ∀ id ∈ c.map Prod.snd, id < vs.length) (hsteps : AssignsUnassigned c vs steps) :
    WatchesThrough vs c steps ↔
      ∀ before step s, before ++ [step] <+: steps → watchThrough vs c before = some s →
        ¬ (unassignedOf s.vars c = [step.1] ∧ s.watcher.second = some step.1) := by
  constructor
  · intro h before step s hpre hs hlast
    obtain ⟨rest, hready⟩ := ready_before hnodup hids hsteps hpre hs
    have hthrow : s.watcher.replace (assignVar s.vars step.1 step.2) c step.1 = none :=
      (throws_iff hready.assigns.1 hready.watches).mpr hlast
    have hreturns := h.returns before step hpre
    rw [watchThrough_append, hs, Option.bind_some, assignAndReplace, hthrow] at hreturns
    cases hreturns
  intro h
  -- no prefix of the sequence throws
  have hall : ∀ before, before <+: steps → ∃ s, watchThrough vs c before = some s := by
    intro before
    induction before using List.reverseRecOn with
    | nil => exact fun _ => ⟨_, rfl⟩
    | append_singleton before step ih =>
        intro hpre
        obtain ⟨s, hs⟩ := ih ((List.prefix_append before [step]).trans hpre)
        obtain ⟨rest, hready⟩ := ready_before hnodup hids hsteps hpre hs
        have hreturns : s.watcher.replace (assignVar s.vars step.1 step.2) c step.1 ≠ none :=
          fun hthrow => h before step s hpre hs
            ((throws_iff hready.assigns.1 hready.watches).mp hthrow)
        obtain ⟨w, hw⟩ := Option.ne_none_iff_exists'.mp hreturns
        refine ⟨⟨assignVar s.vars step.1 step.2, w⟩, ?_⟩
        rw [watchThrough_append, hs, Option.bind_some, assignAndReplace, hw]
        rfl
  refine ⟨fun before step hpre => ?_, fun before step s' hpre hs' => ?_,
    fun before step s s' hpre hs hs' hnot => ?_⟩
  · exact Option.isSome_iff_exists.mpr (hall _ hpre)
  · obtain ⟨s, hs⟩ := hall before ((List.prefix_append before [step]).trans hpre)
    obtain ⟨rest, hready⟩ := ready_before hnodup hids hsteps hpre hs
    rw [watchThrough_append, hs, Option.bind_some] at hs'
    exact (hready.step hnodup hs').1.watches
  · obtain ⟨rest, hready⟩ := ready_before hnodup hids hsteps hpre hs
    rw [watchThrough_append, hs, Option.bind_some] at hs'
    rw [(hready.step hnodup hs').2 hnot]

end Runs

/-- Three unassigned variables and a clause over them. -/
def threeUnassigned : List Var := [{ literal := ⟨1⟩ }, { literal := ⟨2⟩ }, { literal := ⟨3⟩ }]

def overThree : Clause := [(⟨1⟩, 0), (⟨2⟩, 1), (⟨3⟩, 2)]

/-- The variables in an order that empties the second slot first. -/
theorem watchesThrough_iff_overThree :
    WatchesThrough threeUnassigned overThree [(1, .on), (2, .off), (0, .on)] := by
  refine (watchesThrough_iff (by decide) (by decide) ?_).mpr ?_
  · exact ⟨by decide, by decide, by decide, by decide, by decide, by decide, trivial⟩
  · intro before step s hpre hs
    have hall : ∀ l ∈ List.inits [((1 : VarId), Assignment.on), (2, .off), (0, .on)],
        ∀ step ∈ l.getLast?, ∀ s ∈ watchThrough threeUnassigned overThree l.dropLast,
          ¬ (unassignedOf s.vars overThree = [step.1] ∧ s.watcher.second = some step.1) := by
      decide
    refine hall _ ((List.mem_inits _ _).mpr hpre) step (by simp) s ?_
    rw [List.dropLast_concat]
    exact hs

/-- Variable 0 is assigned, then variable 1: the second call finds the first slot empty. -/
theorem not_watchesThrough_overTwo :
    ∃ vs c steps, (c.map Prod.snd).Nodup ∧ (∀ id ∈ c.map Prod.snd, id < vs.length) ∧
      AssignsUnassigned c vs steps ∧ ¬ WatchesThrough vs c steps := by
  refine ⟨[{ literal := ⟨1⟩ }, { literal := ⟨2⟩ }], [(⟨1⟩, 0), (⟨2⟩, 1)], [(0, .on), (1, .on)],
    by decide, by decide, ⟨by decide, by decide, by decide, by decide, trivial⟩, fun h => ?_⟩
  have hreturns := h.returns [(0, .on)] (1, .on) List.prefix_rfl
  revert hreturns
  decide

end Fabko.Sat
