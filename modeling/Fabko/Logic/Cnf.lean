import Mathlib.Data.Set.Basic
import Mathlib.Data.List.Basic

set_option autoImplicit false

/-! # Clauses, valuations and entailment

Propositional clauses over an arbitrary type `V` of variables. A clause is a list, so a literal
may be repeated and both literals of a variable may occur. Entailment is relative to a set `M`
of total valuations, the models of whatever formula the development is about.

A *partial* valuation `α : V → Option Bool` gives each literal one of three states: true, false
or open. `Settled α C` says that `C` gives unit propagation nothing to do: some literal is true,
or at least two entries are open. -/

namespace Cnf

variable {V : Type*}

/-- A literal: a variable and the value it asks of it. -/
structure Lit (V : Type*) where
  var : V
  sign : Bool
deriving DecidableEq

abbrev Clause (V : Type*) := List (Lit V)

/-- No variable occurs twice. -/
def Distinct (C : Clause V) : Prop := (C.map Lit.var).Nodup

instance [DecidableEq V] (C : Clause V) : Decidable (Distinct C) :=
  inferInstanceAs (Decidable (C.map Lit.var).Nodup)

/-! ## Total valuations -/

def Lit.Holds (σ : V → Bool) (l : Lit V) : Prop := σ l.var = l.sign

def Clause.Holds (σ : V → Bool) (C : Clause V) : Prop := ∃ l ∈ C, l.Holds σ

/-- Every valuation of `M` satisfies `C`. -/
def Entails (M : Set (V → Bool)) (C : Clause V) : Prop := ∀ σ ∈ M, C.Holds σ

theorem Entails.mono {M : Set (V → Bool)} {C D : Clause V} (h : Entails M C) (hCD : C ⊆ D) :
    Entails M D := by
  intro σ hσ
  obtain ⟨l, hl, hh⟩ := h σ hσ
  exact ⟨l, hCD hl, hh⟩

/-- **Resolution.** If the literals of `v` in `C` all ask `!b` and those in `D` all ask `b`, a
clause with the remaining literals of both follows from `C` and `D`. -/
theorem Entails.resolve {M : Set (V → Bool)} {C D R : Clause V} {v : V} {b : Bool}
    (hC : Entails M C) (hD : Entails M D)
    (hCv : ∀ l ∈ C, l.var = v → l.sign = !b) (hDv : ∀ l ∈ D, l.var = v → l.sign = b)
    (hCR : ∀ l ∈ C, l.var ≠ v → l ∈ R) (hDR : ∀ l ∈ D, l.var ≠ v → l ∈ R) :
    Entails M R := by
  intro σ hσ
  obtain ⟨l, hl, hlσ⟩ := hC σ hσ
  by_cases hlv : l.var = v
  · -- `σ v = !b`, so the literal of `D` that holds is not one of `v`
    obtain ⟨l', hl', hlσ'⟩ := hD σ hσ
    have hv : σ v = !b := by rw [← hlv, ← hCv l hl hlv]; exact hlσ
    have hne : l'.var ≠ v := by
      intro h
      have hb : σ v = b := by rw [← h, ← hDv l' hl' h]; exact hlσ'
      rw [hv] at hb
      cases b <;> simp at hb
    exact ⟨l', hDR l' hl' hne, hlσ'⟩
  · exact ⟨l, hCR l hl hlv, hlσ⟩

/-! ## Partial valuations -/

def Lit.IsTrue (α : V → Option Bool) (l : Lit V) : Prop := α l.var = some l.sign

def Lit.IsFalse (α : V → Option Bool) (l : Lit V) : Prop := α l.var = some (!l.sign)

def Lit.IsOpen (α : V → Option Bool) (l : Lit V) : Prop := α l.var = none

instance (α : V → Option Bool) (l : Lit V) : Decidable (l.IsTrue α) :=
  inferInstanceAs (Decidable (α l.var = some l.sign))

instance (α : V → Option Bool) (l : Lit V) : Decidable (l.IsFalse α) :=
  inferInstanceAs (Decidable (α l.var = some (!l.sign)))

theorem Lit.isTrue_or_isFalse_or_isOpen (α : V → Option Bool) (l : Lit V) :
    l.IsTrue α ∨ l.IsFalse α ∨ l.IsOpen α := by
  unfold Lit.IsTrue Lit.IsFalse Lit.IsOpen
  rcases h : α l.var with _ | b
  · exact Or.inr (Or.inr rfl)
  · cases b <;> cases l.sign <;> simp

theorem Lit.IsTrue.not_isFalse {α : V → Option Bool} {l : Lit V} (h : l.IsTrue α) :
    ¬ l.IsFalse α := by
  intro hf
  rw [Lit.IsFalse, h] at hf
  cases hs : l.sign <;> simp [hs] at hf

/-- A literal that is false on a value `σ` agrees with does not hold under `σ`. -/
theorem Lit.IsFalse.not_holds {α : V → Option Bool} {σ : V → Bool} {l : Lit V}
    (h : l.IsFalse α) (hσ : α l.var = some (σ l.var)) : ¬ l.Holds σ := by
  intro hh
  have hsign : σ l.var = l.sign := hh
  rw [Lit.IsFalse, hσ, hsign] at h
  cases hs : l.sign <;> simp [hs] at h

theorem Lit.IsOpen.not_isFalse {α : V → Option Bool} {l : Lit V} (h : l.IsOpen α) :
    ¬ l.IsFalse α := by
  intro hf
  rw [Lit.IsFalse, h] at hf
  cases hf

def Satisfied (α : V → Option Bool) (C : Clause V) : Prop := ∃ l ∈ C, l.IsTrue α

def Falsified (α : V → Option Bool) (C : Clause V) : Prop := ∀ l ∈ C, l.IsFalse α

/-- The entries of `C` whose variable has no value, repetitions included. -/
def openLits (α : V → Option Bool) (C : Clause V) : Clause V := C.filter (fun l => (α l.var).isNone)

def Settled (α : V → Option Bool) (C : Clause V) : Prop :=
  Satisfied α C ∨ 2 ≤ (openLits α C).length

/-- `C` forces `l`: no literal is true and `l` is the only open entry. -/
def Forces (α : V → Option Bool) (C : Clause V) (l : Lit V) : Prop :=
  ¬ Satisfied α C ∧ openLits α C = [l]

theorem mem_openLits {α : V → Option Bool} {C : Clause V} {l : Lit V} :
    l ∈ openLits α C ↔ l ∈ C ∧ l.IsOpen α := by
  simp [openLits, Lit.IsOpen]

theorem falsified_of_openLits_eq_nil {α : V → Option Bool} {C : Clause V}
    (hs : ¬ Satisfied α C) (ho : openLits α C = []) : Falsified α C := by
  intro l hl
  rcases l.isTrue_or_isFalse_or_isOpen α with h | h | h
  · exact absurd ⟨l, hl, h⟩ hs
  · exact h
  · have : l ∈ openLits α C := mem_openLits.mpr ⟨hl, h⟩
    rw [ho] at this
    cases this

theorem Falsified.not_satisfied {α : V → Option Bool} {C : Clause V} (h : Falsified α C) :
    ¬ Satisfied α C := by
  rintro ⟨l, hl, ht⟩
  exact ht.not_isFalse (h l hl)

theorem Falsified.openLits_eq_nil {α : V → Option Bool} {C : Clause V} (h : Falsified α C) :
    openLits α C = [] := by
  apply List.eq_nil_iff_forall_not_mem.mpr
  intro l hl
  obtain ⟨hC, ho⟩ := mem_openLits.mp hl
  exact ho.not_isFalse (h l hC)

theorem Settled.not_falsified {α : V → Option Bool} {C : Clause V} (h : Settled α C) :
    ¬ Falsified α C := by
  intro hf
  rcases h with hs | htwo
  · exact hf.not_satisfied hs
  · rw [hf.openLits_eq_nil] at htwo
    simp at htwo

theorem Settled.not_forces {α : V → Option Bool} {C : Clause V} (h : Settled α C) (l : Lit V) :
    ¬ Forces α C l := by
  intro hf
  rcases h with hs | htwo
  · exact hf.1 hs
  · rw [hf.2] at htwo
    simp at htwo

namespace Forces

variable {α : V → Option Bool} {C : Clause V} {l : Lit V}

theorem mem (h : Forces α C l) : l ∈ C :=
  (mem_openLits.mp (by rw [h.2]; exact List.mem_singleton_self l)).1

theorem isOpen (h : Forces α C l) : l.IsOpen α :=
  (mem_openLits.mp (by rw [h.2]; exact List.mem_singleton_self l)).2

theorem isFalse_of_ne (h : Forces α C l) {l' : Lit V} (hl' : l' ∈ C) (hne : l'.var ≠ l.var) :
    l'.IsFalse α := by
  rcases l'.isTrue_or_isFalse_or_isOpen α with ht | hf | ho
  · exact absurd ⟨l', hl', ht⟩ h.1
  · exact hf
  · have : l' ∈ openLits α C := mem_openLits.mpr ⟨hl', ho⟩
    rw [h.2, List.mem_singleton] at this
    exact absurd (by rw [this]) hne

/-- The forced variable occurs once in the clause: another entry of it would be open too. -/
theorem filter_var_eq [DecidableEq V] (h : Forces α C l) :
    C.filter (fun l' => l'.var = l.var) = [l] := by
  have hsub : C.filter (fun l' => decide (l'.var = l.var))
      = (openLits α C).filter (fun l' => decide (l'.var = l.var)) := by
    rw [openLits, List.filter_filter]
    apply List.filter_congr
    intro l' _
    by_cases hv : l'.var = l.var
    · have ho : α l.var = none := h.isOpen
      simp [hv, ho]
    · simp [hv]
  rw [hsub, h.2]
  simp

end Forces

end Cnf
