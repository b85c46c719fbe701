import Fabko.Sat.Context
import Fabko.Logic.Cnf
import Mathlib.Data.List.Nodup

set_option autoImplicit false

/-! # What a model says

A valuation `σ : Nat → Bool` gives every variable, named by its absolute value, a truth value.
`Model.SatisfiedBy` and `Model.Entails` are the usual notions on the clauses of the model as they
were handed to the solver; `Model.WellFormed` is what a caller has to provide. -/

namespace Fabko.Sat

def Literal.Holds (σ : Nat → Bool) (l : Literal) : Prop := σ l.value = l.isOn

instance (σ : Nat → Bool) (l : Literal) : Decidable (l.Holds σ) :=
  inferInstanceAs (Decidable (σ l.value = l.isOn))

def clauseHolds (σ : Nat → Bool) (c : List Literal) : Prop := ∃ l ∈ c, l.Holds σ

instance (σ : Nat → Bool) (c : List Literal) : Decidable (clauseHolds σ c) :=
  inferInstanceAs (Decidable (∃ l ∈ c, l.Holds σ))

namespace Model

def SatisfiedBy (m : Model) (σ : Nat → Bool) : Prop := ∀ c ∈ m.clauses, clauseHolds σ c

instance (m : Model) (σ : Nat → Bool) : Decidable (m.SatisfiedBy σ) :=
  inferInstanceAs (Decidable (∀ c ∈ m.clauses, clauseHolds σ c))

def Satisfiable (m : Model) : Prop := ∃ σ, m.SatisfiedBy σ

def Entails (m : Model) (c : List Literal) : Prop := ∀ σ, m.SatisfiedBy σ → clauseHolds σ c

/-- Declared literals with distinct nonzero absolute values, and non-empty clauses over them. -/
structure WellFormed (m : Model) : Prop where
  nonzero : ∀ l ∈ m.literals, l.value ≠ 0
  distinct : (m.literals.map Literal.value).Nodup
  nonempty : ∀ c ∈ m.clauses, c ≠ []
  declared : ∀ c ∈ m.clauses, ∀ l ∈ c, l.value ∈ m.literals.map Literal.value

instance (m : Model) : Decidable m.WellFormed :=
  decidable_of_iff ((∀ l ∈ m.literals, l.value ≠ 0) ∧ (m.literals.map Literal.value).Nodup ∧
    (∀ c ∈ m.clauses, c ≠ []) ∧ ∀ c ∈ m.clauses, ∀ l ∈ c, l.value ∈ m.literals.map Literal.value)
    ⟨fun ⟨h₁, h₂, h₃, h₄⟩ => ⟨h₁, h₂, h₃, h₄⟩,
      fun h => ⟨h.nonzero, h.distinct, h.nonempty, h.declared⟩⟩

/-- The absolute value declared at a position. -/
def varValue (m : Model) (id : VarId) : Nat := (m.literals.map Literal.value).getD id 0

/-- `p` is a literal with the position of the variable it names. -/
structure Resolved (m : Model) (p : Literal × VarId) : Prop where
  lt : p.2 < m.literals.length
  value_eq : p.1.value = m.varValue p.2

theorem varValue_of_lt {m : Model} {id : VarId} (h : id < m.literals.length) :
    m.varValue id = (m.literals[id]).value := by
  simp [varValue, h]

theorem varValue_inj {m : Model} (hm : m.WellFormed) {i j : VarId} (hi : i < m.literals.length)
    (hj : j < m.literals.length) (h : m.varValue i = m.varValue j) : i = j := by
  have hnd := List.nodup_iff_injective_get.mp hm.distinct
  have hi' : i < (m.literals.map Literal.value).length := by simpa using hi
  have hj' : j < (m.literals.map Literal.value).length := by simpa using hj
  have heq : (m.literals.map Literal.value).get ⟨i, hi'⟩
      = (m.literals.map Literal.value).get ⟨j, hj'⟩ := by
    simpa [varValue, hi, hj] using h
  simpa using hnd heq

theorem varValue_ne_zero {m : Model} (hm : m.WellFormed) {i : VarId}
    (hi : i < m.literals.length) : m.varValue i ≠ 0 := by
  rw [varValue_of_lt hi]
  exact hm.nonzero _ (List.getElem_mem hi)

theorem Resolved.ne_zero {m : Model} (hm : m.WellFormed) {p : Literal × VarId}
    (h : m.Resolved p) : p.1.value ≠ 0 := by
  rw [h.value_eq]
  exact varValue_ne_zero hm h.lt

/-- Among resolved literals, comparing absolute values is comparing variables. -/
theorem Resolved.value_eq_iff {m : Model} (hm : m.WellFormed) {p q : Literal × VarId}
    (hp : m.Resolved p) (hq : m.Resolved q) : p.1.value = q.1.value ↔ p.2 = q.2 := by
  rw [hp.value_eq, hq.value_eq]
  exact ⟨varValue_inj hm hp.lt hq.lt, fun h => by rw [h]⟩

end Model

/-! ## The polarity of a literal -/

theorem Literal.isOff_eq_not_isOn {l : Literal} (h : l.value ≠ 0) : l.isOff = !l.isOn := by
  have h' : l.value_ ≠ 0 := by simpa [Literal.value] using h
  unfold Literal.isOff Literal.isOn
  rcases lt_or_gt_of_ne h' with hlt | hgt
  · simp [hlt, not_lt_of_gt hlt]
  · simp [hgt, not_lt_of_gt hgt]

/-! ## The literals of the solver as literals over variable ids -/

open Cnf

def toLit (p : Literal × VarId) : Lit VarId := ⟨p.2, p.1.isOn⟩

def toCnf (c : Clause) : Cnf.Clause VarId := c.map toLit

/-- The valuations of variable ids that come from a satisfying valuation of the model. -/
def models (m : Model) : Set (VarId → Bool) :=
  { τ | ∃ σ, m.SatisfiedBy σ ∧ τ = fun id => σ (m.varValue id) }

theorem mem_toCnf {c : Clause} {l : Lit VarId} : l ∈ toCnf c ↔ ∃ p ∈ c, toLit p = l :=
  List.mem_map

theorem toLit_mem_toCnf {c : Clause} {p : Literal × VarId} (h : p ∈ c) : toLit p ∈ toCnf c :=
  mem_toCnf.mpr ⟨p, h, rfl⟩

theorem holds_toLit {m : Model} {p : Literal × VarId} (h : m.Resolved p) (σ : Nat → Bool) :
    (toLit p).Holds (fun id => σ (m.varValue id)) ↔ p.1.Holds σ := by
  unfold Lit.Holds Literal.Holds toLit
  rw [h.value_eq]

theorem holds_toCnf {m : Model} {c : Clause} (h : ∀ p ∈ c, m.Resolved p) (σ : Nat → Bool) :
    (toCnf c).Holds (fun id => σ (m.varValue id)) ↔ clauseHolds σ (c.map Prod.fst) := by
  unfold Cnf.Clause.Holds clauseHolds
  constructor
  · rintro ⟨l, hl, hh⟩
    obtain ⟨p, hp, rfl⟩ := mem_toCnf.mp hl
    exact ⟨p.1, List.mem_map_of_mem hp, (holds_toLit (h p hp) σ).mp hh⟩
  · rintro ⟨l, hl, hh⟩
    obtain ⟨p, hp, rfl⟩ := List.mem_map.mp hl
    exact ⟨toLit p, toLit_mem_toCnf hp, (holds_toLit (h p hp) σ).mpr hh⟩

/-- Entailment over variable ids is entailment by the clauses of the model. -/
theorem entails_toCnf_iff {m : Model} {c : Clause} (h : ∀ p ∈ c, m.Resolved p) :
    Cnf.Entails (models m) (toCnf c) ↔ m.Entails (c.map Prod.fst) := by
  constructor
  · intro he σ hσ
    exact (holds_toCnf h σ).mp (he _ ⟨σ, hσ, rfl⟩)
  · rintro he τ ⟨σ, hσ, rfl⟩
    exact (holds_toCnf h σ).mpr (he σ hσ)

end Fabko.Sat
