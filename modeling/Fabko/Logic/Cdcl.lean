import Fabko.Logic.Trail
import Mathlib.Data.Finset.Powerset
import Mathlib.Data.Finset.Card
import Mathlib.Data.Finset.Dedup

set_option autoImplicit false

/-! # Clause learning

The semantic side of a search state. `Quiet` says that every level below the current one was
propagated to the end, also with respect to clauses learned later. It is what a reason of the
right level, a conflict with two literals of the current level and the novelty of a learned
clause all rest on. -/

namespace Cdcl

open Cnf State

variable {V : Type*}

/-! ## Levels and restricted valuations -/

theorem below_eq_some {s : State V} {k : Nat} {v : V} {b : Bool} :
    s.below k v = some b ↔ s.level v ≤ k ∧ s.value v = some b := by
  by_cases h : s.level v ≤ k <;> simp [below, h]

theorem below_eq_none {s : State V} {k : Nat} {v : V} :
    s.below k v = none ↔ (s.level v ≤ k → s.value v = none) := by
  by_cases h : s.level v ≤ k <;> simp [below, h]

theorem isTrue_of_isTrue_below {s : State V} {k : Nat} {l : Lit V} (h : l.IsTrue (s.below k)) :
    l.IsTrue s.value :=
  (below_eq_some.mp h).2

theorem satisfied_of_satisfied_below {s : State V} {k : Nat} {C : Clause V}
    (h : Satisfied (s.below k) C) : Satisfied s.value C := by
  obtain ⟨l, hl, ht⟩ := h
  exact ⟨l, hl, isTrue_of_isTrue_below ht⟩

/-- The restriction to the current level is no restriction. -/
theorem below_current [DecidableEq V] {M : Set (V → Bool)} {s : State V} (h : Wf M s) :
    s.below s.current = s.value := by
  funext v
  by_cases hv : v ∈ s.trail
  · simp [below, h.le_current v hv]
  · have hnone : s.value v = none := by
      by_contra hne
      exact hv ((h.mem_trail v).mpr hne)
    simp [below, hnone]

/-- Every level strictly below the current one is settled for every clause. -/
def Quiet (s : State V) : Prop := ∀ k < s.current, ∀ C ∈ s.clauses, Settled (s.below k) C

/-! ## Two entries above a level -/

theorem two_le_length_of_ne {α : Type*} {t : List α} {a b : α} (ha : a ∈ t) (hb : b ∈ t)
    (hab : a ≠ b) : 2 ≤ t.length := by
  match t, ha, hb with
  | [x], ha, hb =>
      rw [List.mem_singleton] at ha hb
      exact absurd (ha.trans hb.symm) hab
  | _ :: _ :: _, _, _ => simp

section Quiet

variable {s : State V}

/-- A settled clause whose literals are all false at the full valuation has two entries above the
level it is settled at. -/
theorem two_le_open_of_falsified {k : Nat} {C : Clause V} (hs : Settled (s.below k) C)
    (hf : Falsified s.value C) : 2 ≤ (openLits (s.below k) C).length := by
  rcases hs with hsat | h
  · exact absurd (satisfied_of_satisfied_below hsat) hf.not_satisfied
  · exact h

/-- A variable given a value at a level above `k` leaves the restriction to `k` as it was. -/
theorem below_congr {s' : State V} {k : Nat}
    (h : ∀ v, (s'.value v = s.value v ∧ s'.level v = s.level v) ∨
      (s.value v = none ∨ k < s.level v) ∧ (s'.value v = none ∨ k < s'.level v)) :
    s'.below k = s.below k := by
  funext v
  rcases h v with ⟨hv, hl⟩ | ⟨hold, hnew⟩
  · simp [below, hv, hl]
  · have h₁ : s.below k v = none := by
      rw [below_eq_none]
      rcases hold with h | h
      · exact fun _ => h
      · exact fun hle => by omega
    have h₂ : s'.below k v = none := by
      rw [below_eq_none]
      rcases hnew with h | h
      · exact fun _ => h
      · exact fun hle => by omega
    rw [h₁, h₂]

variable [DecidableEq V] {M : Set (V → Bool)}

/-- In a falsified clause the entries open below the current level are those of that level. -/
theorem level_eq_current_of_open (h : Wf M s) {k : Nat} (hk : s.current = k + 1) {l : Lit V}
    (hval : s.value l.var ≠ none) (ho : l.IsOpen (s.below k)) : s.level l.var = s.current := by
  have hle := h.le_current l.var ((h.mem_trail _).mpr hval)
  have hgt : ¬ s.level l.var ≤ k := fun hlek => hval (below_eq_none.mp ho hlek)
  omega

/-- A clause that becomes unit above level 0 has an entry of the current level besides the forced
one: it was settled one level below. -/
theorem exists_current_of_forces (h : Wf M s) (hq : Quiet s) {C : Clause V} {l : Lit V}
    (hC : C ∈ s.clauses) (hf : Forces s.value C l) (hpos : 0 < s.current) :
    ∃ l' ∈ C, l'.var ≠ l.var ∧ s.level l'.var = s.current := by
  obtain ⟨k, hk⟩ : ∃ k, s.current = k + 1 := ⟨s.current - 1, by omega⟩
  have htwo : 2 ≤ (openLits (s.below k) C).length := by
    rcases hq k (by omega) C hC with hsat | hopen
    · exact absurd (satisfied_of_satisfied_below hsat) hf.1
    · exact hopen
  -- otherwise all those entries are entries of `l.var`, of which there is one
  by_contra hno
  push Not at hno
  have hall : ∀ l' ∈ openLits (s.below k) C, l'.var = l.var := by
    intro l' hl'
    by_contra hne
    obtain ⟨hmem, ho⟩ := mem_openLits.mp hl'
    have hfalse := hf.isFalse_of_ne hmem hne
    refine hno l' hmem hne (level_eq_current_of_open h hk ?_ ho)
    rw [hfalse]
    simp
  have hself : (openLits (s.below k) C).filter (fun l' => l'.var = l.var)
      = openLits (s.below k) C :=
    List.filter_eq_self.mpr (fun l' hl' => by simpa using hall l' hl')
  have hone : (openLits (s.below k) C).length ≤ 1 :=
    calc (openLits (s.below k) C).length
        = ((openLits (s.below k) C).filter (fun l' => l'.var = l.var)).length := by rw [hself]
      _ ≤ (C.filter (fun l' => l'.var = l.var)).length :=
          (List.Sublist.filter _ List.filter_sublist).length_le
      _ = 1 := by rw [hf.filter_var_eq, List.length_singleton]
  omega

/-- A conflict above level 0 has two entries of the current level. -/
theorem two_le_current_of_falsified (h : Wf M s) (hq : Quiet s) {C : Clause V}
    (hC : C ∈ s.clauses) (hf : Falsified s.value C) (hpos : 0 < s.current) :
    2 ≤ (C.filter (fun l => s.level l.var = s.current)).length := by
  obtain ⟨k, hk⟩ : ∃ k, s.current = k + 1 := ⟨s.current - 1, by omega⟩
  -- the entries open one level below are all of the current level
  have hself : (openLits (s.below k) C).filter (fun l => s.level l.var = s.current)
      = openLits (s.below k) C := by
    apply List.filter_eq_self.mpr
    intro l hl
    obtain ⟨hmem, ho⟩ := mem_openLits.mp hl
    have hval : s.value l.var ≠ none := by rw [hf l hmem]; simp
    simpa using level_eq_current_of_open h hk hval ho
  calc 2 ≤ (openLits (s.below k) C).length := two_le_open_of_falsified (hq k (by omega) C hC) hf
    _ = ((openLits (s.below k) C).filter (fun l => s.level l.var = s.current)).length := by
        rw [hself]
    _ ≤ (C.filter (fun l => s.level l.var = s.current)).length :=
        (List.Sublist.filter _ List.filter_sublist).length_le

/-! ### Each move keeps `Quiet` -/

/-- The variable put on top of the trail is of none of the levels below. -/
theorem Pushes.below {s' : State V} {l : Lit V} (hp : Pushes s s' l) {k : Nat}
    (hk : k < s'.current) (ho : l.IsOpen s.value) : s'.below k = s.below k := by
  apply below_congr
  intro v
  by_cases hv : v = l.var
  · subst hv
    exact Or.inr ⟨Or.inl ho, Or.inr (by rw [hp.level]; exact hk)⟩
  · obtain ⟨hval, hlev, -⟩ := hp.others v hv
    exact Or.inl ⟨hval, hlev⟩

theorem below_backjump {j k : Nat} (hjk : j ≤ k) : (s.backjump k).below j = s.below j := by
  apply below_congr
  intro v
  by_cases hv : v ∈ s.undone k
  · have := lt_level_of_mem_undone hv
    exact Or.inr ⟨Or.inr (by omega), Or.inl (by simp [State.backjump, hv])⟩
  · exact Or.inl (by simp [State.backjump, hv])

/-- A backjump leaves the restriction to the level it jumps to. -/
theorem value_backjump (h : Wf M s) {k : Nat} (hk : k ≤ s.current) :
    (s.backjump k).value = s.below k := by
  rw [← below_backjump (le_refl k)]
  exact (below_current (h.backjump hk)).symm

theorem Quiet.propagate (hq : Quiet s) {C : Clause V} {l : Lit V} (ho : l.IsOpen s.value) :
    Quiet (s.propagate C l) := by
  intro k hk D hD
  rw [(pushes_propagate s C l).below hk ho]
  exact hq k hk D hD

/-- Taking a decision back gives the values it was made at. -/
theorem value_backjump_decide (h : Wf M s) {l : Lit V} (ho : l.IsOpen s.value) :
    ((s.decide l).backjump s.current).value = s.value := by
  rw [value_backjump (h.decide ho) (Nat.le_succ _),
    (pushes_decide s l).below (Nat.lt_succ_self _) ho, below_current h]

/-- Opening a level keeps `Quiet` when the level left behind is propagated to the end. -/
theorem Quiet.decide (h : Wf M s) (hq : Quiet s) {l : Lit V} (ho : l.IsOpen s.value)
    (hs : ∀ C ∈ s.clauses, Settled s.value C) : Quiet (s.decide l) := by
  intro k hk D hD
  have hk' : k ≤ s.current := Nat.lt_succ_iff.mp hk
  rw [(pushes_decide s l).below hk ho]
  rcases Nat.lt_or_ge k s.current with hlt | hge
  · exact hq k hlt D hD
  · rw [le_antisymm hk' hge, below_current h]
    exact hs D hD

theorem Quiet.backjump (hq : Quiet s) {k : Nat} (hk : k ≤ s.current) : Quiet (s.backjump k) := by
  intro j hj C hC
  have hjk : j < k := hj
  rw [below_backjump (le_of_lt hjk)]
  exact hq j (by omega) C hC

/-- **Backjumping with a learned clause.** The jump may go further back than the second highest
level of the clause, as long as it ends at 0 or at a level the clause has a literal of. -/
theorem Quiet.learn_backjump (hq : Quiet s) {C : Clause V} {k : Nat} (hk : k < s.current)
    (hcur : ∃ l ∈ C, s.level l.var = s.current)
    (hlev : k = 0 ∨ ∃ l ∈ C, s.level l.var = k) : Quiet ((s.learn C).backjump k) := by
  intro j hj D hD
  have hjk : j < k := hj
  have hbelow : ((s.learn C).backjump k).below j = s.below j :=
    (below_backjump (s := s.learn C) (le_of_lt hjk)).trans rfl
  rw [hbelow]
  rcases List.mem_append.mp hD with hD | hD
  · exact hq j (by omega) D hD
  · rw [List.mem_singleton.mp hD]
    obtain ⟨l₁, hl₁, hlev₁⟩ := hcur
    obtain ⟨l₂, hl₂, hlev₂⟩ : ∃ l ∈ C, s.level l.var = k := by
      rcases hlev with h0 | h
      · omega
      · exact h
    -- two literals of different levels, both above `j`
    have hopen : ∀ l ∈ C, j < s.level l.var → l ∈ openLits (s.below j) C := fun l hl hlt =>
      mem_openLits.mpr ⟨hl, below_eq_none.mpr (fun hle => by omega)⟩
    refine Or.inr (two_le_length_of_ne (hopen l₁ hl₁ (by omega)) (hopen l₂ hl₂ (by omega)) ?_)
    rintro rfl
    omega

end Quiet

/-! ## What the valuation is worth -/

section Semantics

variable [DecidableEq V] {M : Set (V → Bool)} {s : State V}

/-- A model that agrees with the decisions of the levels up to that of `v` agrees with `v`. The
induction is on the trail: the other literals of a reason come earlier. -/
theorem value_eq_of_decisions (h : Wf M s) {σ : V → Bool} (hσ : σ ∈ M) {v : V}
    (hv : v ∈ s.trail)
    (hdec : ∀ d ∈ s.trail, s.reason d = none → s.level d ≤ s.level v → s.value d = some (σ d)) :
    s.value v = some (σ v) := by
  have key : ∀ t, (∃ newer, s.trail = newer ++ t) → ∀ v ∈ t,
      (∀ d ∈ s.trail, s.reason d = none → s.level d ≤ s.level v → s.value d = some (σ d)) →
      s.value v = some (σ v) := by
    intro t
    induction t with
    | nil => intro _ v hv; cases hv
    | cons w older ih =>
        rintro ⟨newer, ht⟩ v hv hdec
        have ht' : s.trail = (newer ++ [w]) ++ older := by rw [ht]; simp
        rcases List.mem_cons.mp hv with rfl | hv'
        · have hmem : v ∈ s.trail := by rw [ht]; simp
          rcases hr : s.reason v with _ | C
          · exact hdec v hmem hr le_rfl
          · have hreason := (h.supported.at ht).1 C hr
            obtain ⟨l, hl, hlσ⟩ := h.entailed C hreason.mem σ hσ
            by_cases hlv : l.var = v
            · rw [hreason.sign_eq hl hlv, ← hlv]
              exact congrArg some hlσ.symm
            · -- the clause holds at a literal that is false on the trail
              obtain ⟨hfalse, hold⟩ := hreason.others l hl hlv
              have hle : s.level l.var ≤ s.level v := by
                have hs := h.sorted
                rw [ht] at hs
                exact (List.pairwise_cons.mp (List.pairwise_append.mp hs).2.1).1 l.var hold
              have hval := ih ⟨newer ++ [v], ht'⟩ l.var hold
                (fun d hd hdr hdl => hdec d hd hdr (le_trans hdl hle))
              exact absurd hlσ (hfalse.not_holds hval)
        · exact ih ⟨newer ++ [w], ht'⟩ v hv' hdec
  exact key s.trail ⟨[], rfl⟩ v hv hdec

/-- The variables of level 0 have their value in every model. -/
theorem value_eq_of_level_zero (h : Wf M s) {σ : V → Bool} (hσ : σ ∈ M) {v : V}
    (hv : v ∈ s.trail) (hlev : s.level v = 0) : s.value v = some (σ v) := by
  apply value_eq_of_decisions h hσ hv
  intro d hd hdr hdl
  have := h.level_pos_of_reason_none hd hdr
  omega

/-- **A conflict at level 0 refutes the formula.** -/
theorem not_mem_of_conflict (h : Wf M s) {C : Clause V} (hC : C ∈ s.clauses)
    (hf : Falsified s.value C) (hcur : s.current = 0) (σ : V → Bool) : σ ∉ M := by
  intro hσ
  obtain ⟨l, hl, hlσ⟩ := h.entailed C hC σ hσ
  have hmem := h.mem_of_isFalse (hf l hl)
  have hlev : s.level l.var = 0 := by
    have := h.le_current l.var hmem
    omega
  exact (hf l hl).not_holds (value_eq_of_level_zero h hσ hmem hlev) hlσ

end Semantics

/-! ## Learned clauses are new -/

section Novelty

variable [DecidableEq V] {M : Set (V → Bool)} {s : State V}

/-- **No redundant learning.** A falsified clause with one variable of the current level contains
no clause of the database that repeats no variable. -/
theorem not_subset_of_falsified (h : Wf M s) (hq : Quiet s) {C D : Clause V}
    (hpos : 0 < s.current) (hf : Falsified s.value C)
    (hone : ∀ l ∈ C, ∀ l' ∈ C, s.level l.var = s.current → s.level l'.var = s.current →
      l.var = l'.var)
    (hD : D ∈ s.clauses) (hdist : Distinct D) : ¬ D ⊆ C := by
  intro hsub
  have htwo := two_le_current_of_falsified h hq hD (fun l hl => hf l (hsub hl)) hpos
  have hnodup : ((D.filter (fun l => s.level l.var = s.current)).map Lit.var).Nodup :=
    hdist.sublist (List.Sublist.map _ List.filter_sublist)
  -- two entries of the current level would be entries of one variable
  match ht : D.filter (fun l => s.level l.var = s.current) with
  | [] => rw [ht] at htwo; simp at htwo
  | [_] => rw [ht] at htwo; simp at htwo
  | l :: l' :: rest =>
      have hl : l ∈ D.filter (fun l => s.level l.var = s.current) := by rw [ht]; simp
      have hl' : l' ∈ D.filter (fun l => s.level l.var = s.current) := by rw [ht]; simp
      simp only [List.mem_filter, decide_eq_true_eq] at hl hl'
      have heq := hone l (hsub hl.1) l' (hsub hl'.1) hl.2 hl'.2
      rw [ht] at hnodup
      simp [heq] at hnodup

/-- The sets of literals of the clauses that repeat no variable. -/
def family (cs : List (Clause V)) : Finset (Finset (Lit V)) :=
  ((cs.filter (fun C => Distinct C)).map List.toFinset).toFinset

/-- How many sets of literals over `U` no clause of `cs` has yet. -/
def room (U : Finset (Lit V)) (cs : List (Clause V)) : Nat := (U.powerset \ family cs).card

theorem mem_family {cs : List (Clause V)} {A : Finset (Lit V)} :
    A ∈ family cs ↔ ∃ C ∈ cs, Distinct C ∧ C.toFinset = A := by
  simp [family, and_assoc]

theorem room_learn_lt {U : Finset (Lit V)} {cs : List (Clause V)} {C : Clause V}
    (hdist : Distinct C) (hU : ∀ l ∈ C, l ∈ U)
    (hnew : ∀ D ∈ cs, Distinct D → ¬ D ⊆ C) : room U (cs ++ [C]) < room U cs := by
  refine Finset.card_lt_card (Finset.ssubset_iff_of_subset ?_ |>.mpr ⟨C.toFinset, ?_, ?_⟩)
  · intro A hA
    rw [Finset.mem_sdiff] at hA ⊢
    refine ⟨hA.1, fun hfam => hA.2 ?_⟩
    obtain ⟨D, hD, hd, rfl⟩ := mem_family.mp hfam
    exact mem_family.mpr ⟨D, List.mem_append_left _ hD, hd, rfl⟩
  · rw [Finset.mem_sdiff, Finset.mem_powerset]
    refine ⟨fun l hl => hU l (List.mem_toFinset.mp hl), fun hfam => ?_⟩
    obtain ⟨D, hD, hd, heq⟩ := mem_family.mp hfam
    apply hnew D hD hd
    intro l hl
    have : l ∈ D.toFinset := List.mem_toFinset.mpr hl
    rw [heq] at this
    exact List.mem_toFinset.mp this
  · rw [Finset.mem_sdiff, not_and_not_right]
    intro _
    exact mem_family.mpr ⟨C, by simp, hdist, rfl⟩

end Novelty

end Cdcl
