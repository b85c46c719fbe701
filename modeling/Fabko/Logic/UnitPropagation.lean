import Fabko.Logic.Cnf
import Mathlib.Data.List.Perm.Basic
import Mathlib.Data.List.Forall2
import Mathlib.Logic.Function.Basic
import Mathlib.Logic.Relation

set_option autoImplicit false

/-! # Unit propagation as a closure

A clause that forces a literal may be used at any time and in any order. Whatever the order, a run
stays below every closed extension of its start, so a run that ends with all clauses settled ends
in the least of them, and no other run meets a falsified clause. -/

namespace Cnf

variable {V : Type*} {α β γ : V → Option Bool} {C D : Clause V} {l : Lit V}

/-! ## Extensions -/

/-- Every value of `α` is one of `β`. -/
def Extends (α β : V → Option Bool) : Prop := ∀ v b, α v = some b → β v = some b

theorem Extends.refl (α : V → Option Bool) : Extends α α := fun _ _ h => h

theorem Extends.trans (h : Extends α β) (h' : Extends β γ) : Extends α γ :=
  fun v b hv => h' v b (h v b hv)

theorem Extends.antisymm (h : Extends α β) (h' : Extends β α) : α = β := by
  funext v
  rcases hα : α v with _ | b
  · rcases hβ : β v with _ | b
    · rfl
    · rw [h' v b hβ] at hα
      cases hα
  · exact (h v b hα).symm

theorem Extends.update [DecidableEq V] {v : V} {b : Bool} (h : α v = none) :
    Extends α (Function.update α v (some b)) := by
  intro w c hw
  have hne : w ≠ v := by
    rintro rfl
    rw [h] at hw
    cases hw
  rw [Function.update_of_ne hne]
  exact hw

theorem Lit.IsTrue.mono (h : l.IsTrue α) (he : Extends α β) : l.IsTrue β := he _ _ h

theorem Lit.IsFalse.mono (h : l.IsFalse α) (he : Extends α β) : l.IsFalse β := he _ _ h

theorem Lit.IsOpen.anti (h : l.IsOpen β) (he : Extends α β) : l.IsOpen α := by
  rcases hα : α l.var with _ | b
  · exact hα
  · have hβ := he _ _ hα
    rw [show β l.var = none from h] at hβ
    cases hβ

theorem Falsified.mono (h : Falsified α C) (he : Extends α β) : Falsified β C :=
  fun l hl => (h l hl).mono he

theorem openLits_sublist (he : Extends α β) (C : Clause V) :
    (openLits β C).Sublist (openLits α C) := by
  apply List.monotone_filter_right C
  intro l hl
  have hopen : l.IsOpen β := by simpa [Lit.IsOpen] using hl
  have hanti : α l.var = none := hopen.anti he
  rw [hanti]
  rfl

/-! ## Closed extensions -/

/-- What a clause forces under a part of `γ` is true under `γ`. (Under `γ` alone the rule also holds
of an assignment that falsifies the clause, and no extension would be the least.) -/
def Closed (cs : List (Clause V)) (γ : V → Option Bool) : Prop :=
  ∀ C ∈ cs, ∀ δ l, Extends δ γ → Forces δ C l → l.IsTrue γ

/-- `γ` is the least closed extension of `α`. -/
structure IsLeastClosed (cs : List (Clause V)) (α γ : V → Option Bool) : Prop where
  ext : Extends α γ
  closed : Closed cs γ
  least : ∀ β, Extends α β → Closed cs β → Extends γ β

theorem IsLeastClosed.unique {cs : List (Clause V)} (hβ : IsLeastClosed cs α β)
    (hγ : IsLeastClosed cs α γ) : β = γ :=
  (hβ.least γ hγ.ext hγ.closed).antisymm (hγ.least β hβ.ext hβ.closed)

/-- Where every clause is settled, nothing is left to force, under no part of the assignment. -/
theorem closed_of_settled {cs : List (Clause V)} (h : ∀ C ∈ cs, Settled γ C) : Closed cs γ := by
  intro C hC δ l he hf
  rcases h C hC with ⟨l', hl', ht⟩ | htwo
  · -- every other entry is false already under the part
    by_cases hv : l'.var = l.var
    · have hmem : l' ∈ openLits δ C := by
        refine mem_openLits.mpr ⟨hl', ?_⟩
        have ho : δ l.var = none := hf.isOpen
        rw [Lit.IsOpen, hv]
        exact ho
      rw [hf.2, List.mem_singleton] at hmem
      exact hmem ▸ ht
    · exact absurd ((hf.isFalse_of_ne hl' hv).mono he) ht.not_isFalse
  · have hle := (openLits_sublist he C).length_le
    rw [hf.2, List.length_singleton] at hle
    omega

/-! ## The order of clauses and literals -/

section Rearranged

variable {A B : Type*} {xs ys : List (List A)}

/-- `ys` has the lists of `xs` in another order, and their entries in another order. -/
def Rearranged (xs ys : List (List A)) : Prop :=
  ∃ zs, xs.Perm zs ∧ List.Forall₂ List.Perm zs ys

theorem Rearranged.symm (h : Rearranged xs ys) : Rearranged ys xs := by
  obtain ⟨zs, hperm, hrel⟩ := h
  obtain ⟨ws, hrel', hperm'⟩ := List.perm_comp_forall₂ hperm hrel
  exact ⟨ws, hperm'.symm, hrel'.flip.imp (fun _ _ h => h.symm)⟩

theorem Rearranged.map (h : Rearranged xs ys) (f : A → B) :
    Rearranged (xs.map (List.map f)) (ys.map (List.map f)) := by
  obtain ⟨zs, hperm, hrel⟩ := h
  refine ⟨zs.map (List.map f), hperm.map _, ?_⟩
  rw [List.forall₂_map_left_iff, List.forall₂_map_right_iff]
  exact hrel.imp (fun _ _ h => h.map f)

theorem Rearranged.exists_perm (h : Rearranged xs ys) {x : List A} (hx : x ∈ xs) :
    ∃ y ∈ ys, x.Perm y := by
  obtain ⟨zs, hperm, hrel⟩ := h
  have hz : x ∈ zs := hperm.subset hx
  clear hperm
  induction hrel with
  | nil => cases hz
  | @cons z y zs ys hzy _ ih =>
      rcases List.mem_cons.mp hz with rfl | hz'
      · exact ⟨y, List.mem_cons_self, hzy⟩
      · obtain ⟨y', hy', hp⟩ := ih hz'
        exact ⟨y', List.mem_cons_of_mem y hy', hp⟩

end Rearranged

theorem Satisfied.perm (h : Satisfied α C) (hp : C.Perm D) : Satisfied α D := by
  obtain ⟨l, hl, ht⟩ := h
  exact ⟨l, hp.subset hl, ht⟩

theorem Settled.perm (h : Settled α C) (hp : C.Perm D) : Settled α D := by
  apply h.imp (fun hs => hs.perm hp)
  intro htwo
  have hlen : (openLits α C).length = (openLits α D).length := (hp.filter _).length_eq
  omega

theorem Forces.perm (h : Forces α C l) (hp : C.Perm D) : Forces α D l := by
  refine ⟨fun hs => h.1 (hs.perm hp.symm), List.perm_singleton.mp ?_⟩
  rw [← h.2]
  exact (hp.filter _).symm

theorem Falsified.perm (h : Falsified α C) (hp : C.Perm D) : Falsified α D :=
  fun l hl => h l (hp.symm.subset hl)

/-! ## Runs -/

section Runs

variable [DecidableEq V] {cs ds : List (Clause V)}

/-- Some clause forces a literal, which becomes true. -/
def UnitStep (cs : List (Clause V)) (α β : V → Option Bool) : Prop :=
  ∃ C ∈ cs, ∃ l, Forces α C l ∧ β = Function.update α l.var (some l.sign)

abbrev UnitSteps (cs : List (Clause V)) : (V → Option Bool) → (V → Option Bool) → Prop :=
  Relation.ReflTransGen (UnitStep cs)

theorem UnitStep.extends (h : UnitStep cs α β) : Extends α β := by
  obtain ⟨C, -, l, hf, rfl⟩ := h
  exact Extends.update hf.isOpen

theorem UnitSteps.extends (h : UnitSteps cs α β) : Extends α β := by
  induction h with
  | refl => exact Extends.refl α
  | tail _ hstep ih => exact ih.trans hstep.extends

theorem UnitStep.below (h : UnitStep cs α β) (he : Extends α γ) (hc : Closed cs γ) :
    Extends β γ := by
  obtain ⟨C, hC, l, hf, rfl⟩ := h
  have htrue : γ l.var = some l.sign := hc C hC α l he hf
  intro v b hv
  by_cases hvl : v = l.var
  · subst hvl
    rw [Function.update_self] at hv
    rw [htrue, hv]
  · rw [Function.update_of_ne hvl] at hv
    exact he v b hv

/-- **A run stays below every closed extension of its start.** -/
theorem UnitSteps.below (h : UnitSteps cs α β) (he : Extends α γ) (hc : Closed cs γ) :
    Extends β γ := by
  induction h with
  | refl => exact he
  | tail _ hstep ih => exact hstep.below ih hc

/-- A run that settles every clause ends in the least closed extension. -/
theorem UnitSteps.isLeastClosed (h : UnitSteps cs α γ) (hs : ∀ C ∈ cs, Settled γ C) :
    IsLeastClosed cs α γ :=
  ⟨h.extends, closed_of_settled hs, fun _ he hc => h.below he hc⟩

/-- Where one run settles every clause, no run falsifies one. -/
theorem UnitSteps.not_falsified (hβ : UnitSteps cs α β) (hγ : UnitSteps cs α γ)
    (hs : ∀ C ∈ cs, Settled γ C) (hC : C ∈ cs) : ¬ Falsified β C := by
  intro hf
  have hle : Extends β γ := hβ.below hγ.extends (closed_of_settled hs)
  exact (hs C hC).not_falsified (hf.mono hle)

/-- Every run is a run over the rearranged clauses. -/
theorem UnitSteps.rearranged (h : Rearranged cs ds) (hs : UnitSteps cs α β) :
    UnitSteps ds α β := by
  induction hs with
  | refl => exact Relation.ReflTransGen.refl
  | tail _ hstep ih =>
      obtain ⟨C, hC, l, hf, rfl⟩ := hstep
      obtain ⟨D, hD, hp⟩ := h.exists_perm hC
      exact ih.tail ⟨D, hD, l, hf.perm hp, rfl⟩

end Runs

end Cnf
