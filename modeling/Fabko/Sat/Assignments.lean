import Fabko.Sat.Semantics

set_option autoImplicit false

/-! # Clauses under an assignment

How the literals of a clause stand under an assignment of the variables, in the words of the
solver: the assignment of a context, or its restriction to the trail entries of the levels up to
`l`. The last section reads all of it as a partial valuation in the sense of `Logic/Cnf`. -/

namespace Fabko.Sat

open Cnf

def TrueUnder (α : VarId → Assignment) (p : Literal × VarId) : Prop :=
  (p.1.isOn = true ∧ α p.2 = .on) ∨ (p.1.isOff = true ∧ α p.2 = .off)

/-- The test of `has_conflict`. -/
def FalseUnder (α : VarId → Assignment) (p : Literal × VarId) : Prop :=
  (p.1.isOn = true ∧ α p.2 = .off) ∨ (p.1.isOff = true ∧ α p.2 = .on)

instance (α : VarId → Assignment) (p : Literal × VarId) : Decidable (TrueUnder α p) :=
  inferInstanceAs (Decidable (_ ∨ _))

instance (α : VarId → Assignment) (p : Literal × VarId) : Decidable (FalseUnder α p) :=
  inferInstanceAs (Decidable (_ ∨ _))

theorem TrueUnder.not_falseUnder {α : VarId → Assignment} {p : Literal × VarId}
    (h : TrueUnder α p) : ¬ FalseUnder α p := by
  rintro (⟨hon, ha⟩ | ⟨hoff, ha⟩) <;> rcases h with ⟨hon', ha'⟩ | ⟨hoff', ha'⟩
  · rw [ha] at ha'
    cases ha'
  · simp only [Literal.isOn, Literal.isOff, decide_eq_true_eq] at hon hoff'
    omega
  · simp only [Literal.isOn, Literal.isOff, decide_eq_true_eq] at hon' hoff
    omega
  · rw [ha] at ha'
    cases ha'

theorem TrueUnder.assigned {α : VarId → Assignment} {p : Literal × VarId} (h : TrueUnder α p) :
    α p.2 ≠ .notAssigned := by
  rcases h with ⟨-, ha⟩ | ⟨-, ha⟩ <;> simp [ha]

/-- The unassigned entries, repetitions included. -/
def openUnder (α : VarId → Assignment) (c : Clause) : Clause :=
  c.filter (fun p => decide (α p.2 = .notAssigned))

/-- Unit propagation has nothing to do with the clause. -/
def SettledUnder (α : VarId → Assignment) (c : Clause) : Prop :=
  (∃ p ∈ c, TrueUnder α p) ∨ 2 ≤ (openUnder α c).length

namespace SolverContext

def assignments (ctx : SolverContext) : VarId → Assignment := fun v => (ctx.var v).assignment

/-- The assignment restricted to trail entries of decision level at most `l`. -/
def assignmentsUpTo (ctx : SolverContext) (l : Nat) : VarId → Assignment := fun v =>
  if v ∈ ctx.trail ∧ (ctx.var v).context.decisionLevel ≤ l then (ctx.var v).assignment
  else .notAssigned

end SolverContext

/-! ## Assignments as partial valuations -/

def Assignment.toOption : Assignment → Option Bool
  | .on => some true
  | .off => some false
  | .notAssigned => none

theorem Assignment.toOption_eq_none {a : Assignment} :
    a.toOption = none ↔ a = .notAssigned := by
  cases a <;> simp [Assignment.toOption]

theorem Assignment.toOption_eq_some {a : Assignment} {b : Bool} :
    a.toOption = some b ↔ a = if b then .on else .off := by
  cases a <;> cases b <;> simp [Assignment.toOption]

theorem Assignment.toOption_injective : Function.Injective Assignment.toOption := by
  intro a b h
  cases a <;> cases b <;> simp_all [Assignment.toOption]

section Valuations

variable {α : VarId → Assignment} {p : Literal × VarId}

theorem trueUnder_iff (hp : p.1.value ≠ 0) :
    TrueUnder α p ↔ (toLit p).IsTrue (fun v => (α v).toOption) := by
  have hlit : (toLit p).IsTrue (fun v => (α v).toOption) ↔
      α p.2 = if p.1.isOn then .on else .off := Assignment.toOption_eq_some
  rw [hlit, TrueUnder, Literal.isOff_eq_not_isOn hp]
  cases p.1.isOn <;> simp

theorem falseUnder_iff (hp : p.1.value ≠ 0) :
    FalseUnder α p ↔ (toLit p).IsFalse (fun v => (α v).toOption) := by
  have hlit : (toLit p).IsFalse (fun v => (α v).toOption) ↔
      α p.2 = if !p.1.isOn then .on else .off := Assignment.toOption_eq_some
  rw [hlit, FalseUnder, Literal.isOff_eq_not_isOn hp]
  cases p.1.isOn <;> simp

theorem openLits_toCnf (α : VarId → Assignment) (c : Clause) :
    openLits (fun v => (α v).toOption) (toCnf c) = toCnf (openUnder α c) := by
  unfold openLits toCnf openUnder
  rw [List.filter_map]
  congr 1
  apply List.filter_congr
  intro p _
  show ((α p.2).toOption).isNone = _
  cases α p.2 <;> rfl

theorem satisfied_toCnf {c : Clause} (hc : ∀ p ∈ c, p.1.value ≠ 0) :
    Satisfied (fun v => (α v).toOption) (toCnf c) ↔ ∃ p ∈ c, TrueUnder α p := by
  constructor
  · rintro ⟨l, hl, h⟩
    obtain ⟨p, hp, rfl⟩ := mem_toCnf.mp hl
    exact ⟨p, hp, (trueUnder_iff (hc p hp)).mpr h⟩
  · rintro ⟨p, hp, h⟩
    exact ⟨toLit p, toLit_mem_toCnf hp, (trueUnder_iff (hc p hp)).mp h⟩

theorem settled_toCnf {c : Clause} (hc : ∀ p ∈ c, p.1.value ≠ 0) :
    Settled (fun v => (α v).toOption) (toCnf c) ↔ SettledUnder α c := by
  unfold Settled SettledUnder
  rw [satisfied_toCnf hc, openLits_toCnf]
  simp [toCnf]

end Valuations

end Fabko.Sat
