import Fabko.Logic.Cnf
import Mathlib.Data.List.Nodup
import Mathlib.Data.List.TakeWhile
import Mathlib.Logic.Function.Basic

set_option autoImplicit false

/-! # The state of a clause-learning search

A search state has the clauses, the trail of assigned variables and, for each variable, its
value, its level and the clause that forced it. The trail is kept newest first, so undoing is
dropping from the front and "earlier on the trail" is membership in the tail.

The moves are `propagate`, `decide`, `learn` and `backjump`. `Wf` collects what every reachable
state satisfies, and one theorem for each move says that the move keeps it. -/

namespace Cdcl

open Cnf

variable {V : Type*}

@[ext]
structure State (V : Type*) where
  clauses : List (Clause V)
  trail : List V
  value : V → Option Bool
  level : V → Nat
  reason : V → Option (Clause V)
  current : Nat

namespace State

/-- The valuation restricted to the variables of level at most `k`. -/
def below (s : State V) (k : Nat) : V → Option Bool :=
  fun v => if s.level v ≤ k then s.value v else none

/-- The variables a backjump to level `k` takes off the trail. -/
def undone (s : State V) (k : Nat) : List V := s.trail.takeWhile (fun v => decide (k < s.level v))

section Moves

variable [DecidableEq V]

/-- Give `l` the value true because of the clause `C`, at the current level. -/
def propagate (s : State V) (C : Clause V) (l : Lit V) : State V :=
  { s with
    trail := l.var :: s.trail
    value := Function.update s.value l.var (some l.sign)
    level := Function.update s.level l.var s.current
    reason := Function.update s.reason l.var (some C) }

/-- Open a new level with the literal `l`. -/
def decide (s : State V) (l : Lit V) : State V :=
  { s with
    trail := l.var :: s.trail
    value := Function.update s.value l.var (some l.sign)
    level := Function.update s.level l.var (s.current + 1)
    current := s.current + 1 }

def learn (s : State V) (C : Clause V) : State V := { s with clauses := s.clauses ++ [C] }

/-- Undo every level above `k`. -/
def backjump (s : State V) (k : Nat) : State V :=
  { s with
    trail := s.trail.dropWhile (fun v => Decidable.decide (k < s.level v))
    value := fun v => if v ∈ s.undone k then none else s.value v
    reason := fun v => if v ∈ s.undone k then none else s.reason v
    current := k }

end Moves

end State

open State

/-! ## What supports a trail entry -/

section Support

variable [DecidableEq V]

/-- `C` is a reason for `v`: it has `v` exactly once, with a true literal; its other literals are
false and their variables are in `older`; above level 0 one of them has the level of `v`. -/
structure IsReason (s : State V) (C : Clause V) (older : List V) (v : V) : Prop where
  mem : C ∈ s.clauses
  unique : ∃ l : Lit V, C.filter (fun l' => l'.var = v) = [l] ∧ l.IsTrue s.value
  others : ∀ l ∈ C, l.var ≠ v → l.IsFalse s.value ∧ l.var ∈ older
  level : 0 < s.level v → ∃ l ∈ C, l.var ≠ v ∧ s.level l.var = s.level v

/-- An entry with no reason is a decision: it opens a level of its own. -/
def IsDecision (s : State V) (older : List V) (v : V) : Prop :=
  0 < s.level v ∧ ∀ w ∈ older, s.level w < s.level v

def Supported (s : State V) (older : List V) (v : V) : Prop :=
  (∀ C, s.reason v = some C → IsReason s C older v) ∧ (s.reason v = none → IsDecision s older v)

/-- Every entry of the trail is supported by the entries before it. -/
def TrailSupported (s : State V) : List V → Prop
  | [] => True
  | v :: older => Supported s older v ∧ TrailSupported s older

/-- `s'` gives the variables of `t` the value, level and reason they have in `s`. -/
def AgreeOn (s s' : State V) (t : List V) : Prop :=
  ∀ v ∈ t, s'.value v = s.value v ∧ s'.level v = s.level v ∧ s'.reason v = s.reason v

/-- `s'` is `s` with the variable of `l` on top of the trail, with the value `l` asks and at the
current level of `s'`. -/
structure Pushes (s s' : State V) (l : Lit V) : Prop where
  clauses : s'.clauses = s.clauses
  trail : s'.trail = l.var :: s.trail
  value : s'.value l.var = some l.sign
  level : s'.level l.var = s'.current
  current : s.current ≤ s'.current
  others : ∀ v, v ≠ l.var →
    s'.value v = s.value v ∧ s'.level v = s.level v ∧ s'.reason v = s.reason v

theorem pushes_propagate (s : State V) (C : Clause V) (l : Lit V) :
    Pushes s (s.propagate C l) l where
  clauses := rfl
  trail := rfl
  value := Function.update_self ..
  level := Function.update_self ..
  current := le_refl _
  others v hv := by simp [State.propagate, Function.update_of_ne hv]

theorem pushes_decide (s : State V) (l : Lit V) : Pushes s (s.decide l) l where
  clauses := rfl
  trail := rfl
  value := Function.update_self ..
  level := Function.update_self ..
  current := Nat.le_succ _
  others v hv := by simp [State.decide, Function.update_of_ne hv]

omit [DecidableEq V] in
theorem AgreeOn.tail {s s' : State V} {v : V} {t : List V} (h : AgreeOn s s' (v :: t)) :
    AgreeOn s s' t :=
  fun w hw => h w (List.mem_cons_of_mem v hw)

/-- The literal of `v` in its reason asks the value `v` has. -/
theorem IsReason.sign_eq {s : State V} {C : Clause V} {older : List V} {v : V}
    (h : IsReason s C older v) {l : Lit V} (hl : l ∈ C) (hv : l.var = v) :
    s.value v = some l.sign := by
  obtain ⟨l', hl', ht⟩ := h.unique
  have hmem : l ∈ C.filter (fun l' => l'.var = v) := List.mem_filter.mpr ⟨hl, by simpa using hv⟩
  rw [hl', List.mem_singleton] at hmem
  subst hmem
  rw [← hv]
  exact ht

theorem Supported.congr {s s' : State V} {older : List V} {v : V}
    (h : Supported s older v) (hagree : AgreeOn s s' (v :: older))
    (hcl : s.clauses ⊆ s'.clauses) : Supported s' older v := by
  obtain ⟨hval, hlev, hreas⟩ := hagree v List.mem_cons_self
  refine ⟨fun C hC => ?_, fun hnone => ?_⟩
  · have hr := h.1 C (hreas ▸ hC)
    refine ⟨hcl hr.mem, ?_, fun l hl hne => ?_, fun hpos => ?_⟩
    · obtain ⟨l, hl, ht⟩ := hr.unique
      have hmem : l ∈ C.filter (fun l' => l'.var = v) := by
        rw [hl]; exact List.mem_singleton_self l
      have hlv : l.var = v := by simpa using (List.mem_filter.mp hmem).2
      refine ⟨l, hl, ?_⟩
      rw [Lit.IsTrue, hlv, hval, ← hlv]
      exact ht
    · obtain ⟨hf, hold⟩ := hr.others l hl hne
      have hl' := (hagree l.var (List.mem_cons_of_mem v hold)).1
      exact ⟨by rw [Lit.IsFalse, hl']; exact hf, hold⟩
    · -- the literal of the same level is earlier on the trail, where both states agree
      obtain ⟨l, hl, hne, heq⟩ := hr.level (hlev ▸ hpos)
      have hold := (hr.others l hl hne).2
      refine ⟨l, hl, hne, ?_⟩
      rw [(hagree l.var (List.mem_cons_of_mem v hold)).2.1, hlev, heq]
  · obtain ⟨hpos, hlt⟩ := h.2 (hreas ▸ hnone)
    refine ⟨hlev ▸ hpos, fun w hw => ?_⟩
    rw [(hagree w (List.mem_cons_of_mem v hw)).2.1, hlev]
    exact hlt w hw

theorem TrailSupported.congr {s s' : State V} {t : List V} (h : TrailSupported s t)
    (hagree : AgreeOn s s' t) (hcl : s.clauses ⊆ s'.clauses) : TrailSupported s' t := by
  induction t with
  | nil => trivial
  | cons v older ih => exact ⟨h.1.congr hagree hcl, ih h.2 hagree.tail⟩

theorem TrailSupported.of_append {s : State V} {t₁ t₂ : List V}
    (h : TrailSupported s (t₁ ++ t₂)) : TrailSupported s t₂ := by
  induction t₁ with
  | nil => exact h
  | cons v t₁ ih => exact ih h.2

/-- The support of one entry, read off at its position. -/
theorem TrailSupported.at {s : State V} {t newer older : List V} {v : V}
    (h : TrailSupported s t) (ht : t = newer ++ v :: older) : Supported s older v := by
  subst ht
  exact h.of_append.1

end Support

/-! ## Well-formed states -/

/-- What holds of every reachable state; `M` is the set of models of the input formula. -/
structure Wf [DecidableEq V] (M : Set (V → Bool)) (s : State V) : Prop where
  nodup : s.trail.Nodup
  mem_trail : ∀ v, v ∈ s.trail ↔ s.value v ≠ none
  sorted : s.trail.Pairwise (fun v w => s.level w ≤ s.level v)
  le_current : ∀ v ∈ s.trail, s.level v ≤ s.current
  supported : TrailSupported s s.trail
  decided : ∀ k, 0 < k → k ≤ s.current → ∃ v ∈ s.trail, s.level v = k ∧ s.reason v = none
  entailed : ∀ C ∈ s.clauses, Entails M C
  fresh : ∀ v, s.value v = none → s.reason v = none

/-- Along a trail whose levels do not increase, dropping the levels above `k` keeps exactly the
entries of level at most `k`. -/
theorem mem_dropWhile_level {level : V → Nat} {t : List V}
    (h : t.Pairwise (fun v w => level w ≤ level v)) (k : Nat) (v : V) :
    v ∈ t.dropWhile (fun v => decide (k < level v)) ↔ v ∈ t ∧ level v ≤ k := by
  induction t with
  | nil => simp
  | cons w t ih =>
      obtain ⟨hw, ht⟩ := List.pairwise_cons.mp h
      by_cases hk : k < level w
      · rw [List.dropWhile_cons_of_pos (by simpa using hk), ih ht, List.mem_cons]
        constructor
        · rintro ⟨hv, hle⟩
          exact ⟨Or.inr hv, hle⟩
        · rintro ⟨rfl | hv, hle⟩
          · omega
          · exact ⟨hv, hle⟩
      · rw [List.dropWhile_cons_of_neg (by simpa using hk)]
        constructor
        · intro hv
          refine ⟨hv, ?_⟩
          rcases List.mem_cons.mp hv with rfl | hv'
          · omega
          · exact le_trans (hw v hv') (by omega)
        · exact fun hv => hv.1

theorem undone_append (s : State V) (k : Nat) :
    s.undone k ++ s.trail.dropWhile (fun v => decide (k < s.level v)) = s.trail :=
  List.takeWhile_append_dropWhile

theorem lt_level_of_mem_undone {s : State V} {k : Nat} {v : V} (h : v ∈ s.undone k) :
    k < s.level v := by
  have := List.mem_takeWhile_imp h
  simpa using this

namespace Wf

variable [DecidableEq V] {M : Set (V → Bool)} {s : State V}

theorem value_isSome (h : Wf M s) {v : V} (hv : v ∈ s.trail) : ∃ b, s.value v = some b :=
  Option.ne_none_iff_exists'.mp ((h.mem_trail v).mp hv)

theorem mem_of_isFalse (h : Wf M s) {l : Lit V} (hl : l.IsFalse s.value) : l.var ∈ s.trail := by
  rw [h.mem_trail, hl]
  simp

/-- An entry with no reason has a positive level. -/
theorem level_pos_of_reason_none (h : Wf M s) {v : V} (hv : v ∈ s.trail)
    (hr : s.reason v = none) : 0 < s.level v := by
  obtain ⟨newer, older, ht⟩ := List.append_of_mem hv
  exact ((h.supported.at ht).2 hr).1

/-- The decision of the level of `v` is `v` itself or comes before it. -/
theorem exists_decision (h : Wf M s) {v : V} {newer older : List V}
    (ht : s.trail = newer ++ v :: older) (hpos : 0 < s.level v) :
    ∃ d ∈ v :: older, s.level d = s.level v ∧ s.reason d = none := by
  have hv : v ∈ s.trail := by rw [ht]; simp
  obtain ⟨d, hd, hlev, hreas⟩ := h.decided (s.level v) hpos (h.le_current v hv)
  rw [ht] at hd
  rcases List.mem_append.mp hd with hnew | hold
  · -- a decision above `v` would have a strictly larger level
    obtain ⟨n₁, n₂, hn⟩ := List.append_of_mem hnew
    have hd' : s.trail = n₁ ++ d :: (n₂ ++ v :: older) := by rw [ht, hn]; simp
    have hdec := (h.supported.at hd').2 hreas
    have := hdec.2 v (by simp)
    omega
  · exact ⟨d, hold, hlev, hreas⟩

/-! ### Each move keeps `Wf` -/

/-- Putting an open variable on top of the trail. The new entry has to be supported by the trail
below it, and if it opens a level it is the decision of that level. -/
theorem push (h : Wf M s) {s' : State V} {l : Lit V} (hp : Pushes s s' l)
    (hopen : l.IsOpen s.value) (hsupp : Supported s' s.trail l.var)
    (hdec : s.current < s'.current → s'.current = s.current + 1 ∧ s'.reason l.var = none) :
    Wf M s' := by
  have hnot : l.var ∉ s.trail := fun hm => (h.mem_trail _).mp hm hopen
  have hne : ∀ v ∈ s.trail, v ≠ l.var := fun v hv he => hnot (he ▸ hv)
  have hagree : AgreeOn s s' s.trail := fun v hv => hp.others v (hne v hv)
  have hcl : s.clauses ⊆ s'.clauses := by
    rw [hp.clauses]
    exact List.Subset.refl _
  have hle : ∀ v ∈ s.trail, s.level v ≤ s'.current := fun v hv =>
    le_trans (h.le_current v hv) hp.current
  refine ⟨?_, ?_, ?_, ?_, ?_, ?_, ?_, ?_⟩
  · rw [hp.trail]
    exact List.nodup_cons.mpr ⟨hnot, h.nodup⟩
  · intro v
    rw [hp.trail, List.mem_cons]
    by_cases hv : v = l.var
    · subst hv
      simp [hp.value]
    · rw [(hp.others v hv).1, ← h.mem_trail v]
      exact or_iff_right hv
  · rw [hp.trail]
    refine List.pairwise_cons.mpr ⟨fun w hw => ?_, ?_⟩
    · calc s'.level w = s.level w := (hagree w hw).2.1
        _ ≤ s'.current := hle w hw
        _ = s'.level l.var := hp.level.symm
    · refine h.sorted.imp_of_mem (fun {v w} hv hw hvw => ?_)
      rw [(hagree v hv).2.1, (hagree w hw).2.1]
      exact hvw
  · intro v hv
    rw [hp.trail] at hv
    rcases List.mem_cons.mp hv with rfl | hv'
    · exact le_of_eq hp.level
    · rw [(hagree v hv').2.1]
      exact hle v hv'
  · rw [hp.trail]
    exact ⟨hsupp, h.supported.congr hagree hcl⟩
  · intro k hk hkc
    rw [hp.trail]
    rcases Nat.lt_or_ge s.current k with hgt | hle'
    · -- `k` is the level the new entry opens
      obtain ⟨hsucc, hreas⟩ := hdec (lt_of_lt_of_le hgt hkc)
      refine ⟨l.var, List.mem_cons_self, ?_, hreas⟩
      rw [hp.level]
      omega
    · obtain ⟨v, hv, hvk, hvr⟩ := h.decided k hk hle'
      refine ⟨v, List.mem_cons_of_mem _ hv, ?_, ?_⟩
      · rw [(hagree v hv).2.1, hvk]
      · rw [(hagree v hv).2.2, hvr]
  · intro C hC
    rw [hp.clauses] at hC
    exact h.entailed C hC
  · intro v hv
    have hvl : v ≠ l.var := by
      rintro rfl
      simp [hp.value] at hv
    obtain ⟨hval, -, hreas⟩ := hp.others v hvl
    rw [hreas]
    exact h.fresh v (hval ▸ hv)

theorem propagate (h : Wf M s) {C : Clause V} {l : Lit V} (hC : C ∈ s.clauses)
    (hf : Forces s.value C l)
    (hlev : 0 < s.current → ∃ l' ∈ C, l'.var ≠ l.var ∧ s.level l'.var = s.current) :
    Wf M (s.propagate C l) := by
  refine h.push (pushes_propagate s C l) hf.isOpen ⟨fun D hD => ?_, fun hnone => ?_⟩
    (fun hlt => absurd hlt (lt_irrefl _))
  · -- `C` is a reason: it was unit, and a literal of the current level is left
    have hDC : D = C := by simpa [State.propagate, eq_comm] using hD
    subst hDC
    refine ⟨hC, ⟨l, hf.filter_var_eq, ?_⟩, fun l' hl' hne => ?_, fun hpos => ?_⟩
    · simp [Lit.IsTrue, State.propagate]
    · have hfalse := hf.isFalse_of_ne hl' hne
      refine ⟨?_, h.mem_of_isFalse hfalse⟩
      simpa [Lit.IsFalse, State.propagate, Function.update_of_ne hne] using hfalse
    · obtain ⟨l', hl', hne, heq⟩ := hlev (by simpa [State.propagate] using hpos)
      exact ⟨l', hl', hne, by simp [State.propagate, Function.update_of_ne hne, heq]⟩
  · simp [State.propagate] at hnone

theorem decide (h : Wf M s) {l : Lit V} (hopen : l.IsOpen s.value) : Wf M (s.decide l) := by
  have hreas : s.reason l.var = none := h.fresh _ hopen
  refine h.push (pushes_decide s l) hopen ⟨fun D hD => ?_, fun _ => ⟨?_, fun w hw => ?_⟩⟩
    (fun _ => ⟨rfl, hreas⟩)
  · rw [show (s.decide l).reason l.var = s.reason l.var from rfl, hreas] at hD
    cases hD
  · simp [State.decide]
  · -- older entries are of the levels up to the current one
    have hw' : w ≠ l.var := by
      rintro rfl
      exact (h.mem_trail _).mp hw hopen
    simpa [State.decide, Function.update_of_ne hw'] using Nat.lt_succ_of_le (h.le_current w hw)

theorem learn (h : Wf M s) {C : Clause V} (hC : Entails M C) : Wf M (s.learn C) where
  nodup := h.nodup
  mem_trail := h.mem_trail
  sorted := h.sorted
  le_current := h.le_current
  supported := h.supported.congr (fun _ _ => ⟨rfl, rfl, rfl⟩) (List.subset_append_left _ _)
  decided := h.decided
  entailed := by
    intro D hD
    rcases List.mem_append.mp hD with hD | hD
    · exact h.entailed D hD
    · rw [List.mem_singleton.mp hD]
      exact hC
  fresh := h.fresh

theorem mem_backjump_trail (h : Wf M s) {k : Nat} {v : V} :
    v ∈ (s.backjump k).trail ↔ v ∈ s.trail ∧ s.level v ≤ k :=
  mem_dropWhile_level h.sorted k v

theorem mem_undone (h : Wf M s) {k : Nat} {v : V} :
    v ∈ s.undone k ↔ v ∈ s.trail ∧ k < s.level v := by
  constructor
  · intro hv
    refine ⟨?_, lt_level_of_mem_undone hv⟩
    rw [← undone_append s k]
    exact List.mem_append_left _ hv
  · rintro ⟨hv, hk⟩
    rw [← undone_append s k] at hv
    rcases List.mem_append.mp hv with hv' | hv'
    · exact hv'
    · have := ((mem_dropWhile_level h.sorted k v).mp hv').2
      omega

theorem backjump (h : Wf M s) {k : Nat} (hk : k ≤ s.current) : Wf M (s.backjump k) := by
  have hkept : ∀ v ∈ (s.backjump k).trail, v ∉ s.undone k := by
    intro v hv hu
    have h₁ := (h.mem_backjump_trail.mp hv).2
    have h₂ := (h.mem_undone.mp hu).2
    omega
  have hagree : AgreeOn s (s.backjump k) (s.backjump k).trail := by
    intro v hv
    simp [State.backjump, hkept v hv]
  have hsub : (s.backjump k).trail.Sublist s.trail := List.dropWhile_sublist _
  refine ⟨h.nodup.sublist hsub, ?_, ?_, ?_, ?_, ?_, h.entailed, ?_⟩
  · intro v
    constructor
    · intro hv
      rw [(hagree v hv).1]
      exact (h.mem_trail v).mp (h.mem_backjump_trail.mp hv).1
    · intro hv
      have hnu : v ∉ s.undone k := fun hu => hv (by simp [State.backjump, hu])
      have hval : s.value v ≠ none := by simpa [State.backjump, hnu] using hv
      have hmem := (h.mem_trail v).mpr hval
      refine h.mem_backjump_trail.mpr ⟨hmem, ?_⟩
      by_contra hgt
      exact hnu (h.mem_undone.mpr ⟨hmem, by omega⟩)
  · exact h.sorted.sublist hsub
  · intro v hv
    exact (h.mem_backjump_trail.mp hv).2
  · -- what is left is the older part of the trail, and support looks at older entries only
    have hsupp : TrailSupported s (s.undone k ++ (s.backjump k).trail) := by
      rw [show s.undone k ++ (s.backjump k).trail = s.trail from undone_append s k]
      exact h.supported
    exact hsupp.of_append.congr hagree (List.Subset.refl _)
  · intro j hj hle
    have hjk : j ≤ k := hle
    obtain ⟨v, hv, hvj, hvr⟩ := h.decided j hj (le_trans hjk hk)
    -- the decisions of the levels up to `k` survive
    have hmem := h.mem_backjump_trail.mpr ⟨hv, show s.level v ≤ k by omega⟩
    exact ⟨v, hmem, hvj, by rw [(hagree v hmem).2.2, hvr]⟩
  · intro v hv
    by_cases hu : v ∈ s.undone k
    · simp [State.backjump, hu]
    · have hval : s.value v = none := by simpa [State.backjump, hu] using hv
      simp [State.backjump, h.fresh v hval]

end Wf

end Cdcl
