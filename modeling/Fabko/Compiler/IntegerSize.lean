import Fabko.Sat.Context

set_option autoImplicit false

/-! # The size of an integer as clauses

`integer_sat_builder`: unit clauses say which size flags of an integer are on, and the constructor
picks a width by a cascade of its own. A literal is read as the solver reads it, by its sign. -/

namespace Fabko.SatBuilder

open Fabko.Sat

/-! ## The builder -/

def negate (lit : Literal) : Literal := ⟨-(lit.value : Int)⟩

def bits16 : Literal := ⟨0⟩

def bits32 : Literal := ⟨1⟩

def bits64 : Literal := ⟨2⟩

def bitsNegative : Literal := ⟨3⟩

structure SatBuildAtom where
  literals : List Literal
  cnfClauses : List (List Literal)
deriving DecidableEq, Repr

/-- The unit clause of a flag. -/
def unitClause (lit : Literal) (on : Bool) : List Literal := if on then [lit] else [negate lit]

def makeIntegerSizeSat (value : Int) : List Literal × List (List Literal) :=
  ([bits16, bits32, bits64, bitsNegative],
    [ unitClause bits16 (decide (2 ^ 8 - 1 < value)),
      unitClause bits32 (decide (2 ^ 16 - 1 < value)),
      unitClause bits64 (decide (2 ^ 32 - 1 < value)),
      -- the sign is said of `bits32` again
      unitClause bits32 (decide (value < 0)) ])

/-- `integer_sat_builder`; `bits` is the number of bits holding the value. -/
structure IntegerSatBuilder where
  value : Int
  bits : Nat
deriving DecidableEq, Repr

def integerSatBuilder (value : Int) : IntegerSatBuilder where
  value := value
  bits :=
    if 2 ^ 8 - 1 < value then 16
    else if 2 ^ 16 - 1 < value then 32
    else if 2 ^ 32 - 1 < value then 64
    else 8

def IntegerSatBuilder.generateModel (b : IntegerSatBuilder) : SatBuildAtom :=
  ⟨(makeIntegerSizeSat b.value).1, (makeIntegerSizeSat b.value).2⟩

/-! ## What the clauses ask -/

/-- A positive literal asks its variable on, a negative one off. -/
def Holds (on : Nat → Bool) (l : Literal) : Prop :=
  l.isOn = true ∧ on l.value = true ∨ l.isOff = true ∧ on l.value = false

def Satisfies (on : Nat → Bool) (clauses : List (List Literal)) : Prop :=
  ∀ c ∈ clauses, ∃ l ∈ c, Holds on l

/-- The width of the largest flag that is on. -/
def width (value : Int) : Nat :=
  if 2 ^ 32 - 1 < value then 64
  else if 2 ^ 16 - 1 < value then 32
  else if 2 ^ 8 - 1 < value then 16
  else 8

/-- The clauses fix the flags as the value has them, and the width is the one of the flags. -/
structure SizeConsistent (value : Int) : Prop where
  satisfiable : ∃ on, Satisfies on (integerSatBuilder value).generateModel.cnfClauses
  bits16 : ∀ on, Satisfies on (integerSatBuilder value).generateModel.cnfClauses →
    (on SatBuilder.bits16.value = true ↔ 2 ^ 8 - 1 < value)
  bits32 : ∀ on, Satisfies on (integerSatBuilder value).generateModel.cnfClauses →
    (on SatBuilder.bits32.value = true ↔ 2 ^ 16 - 1 < value)
  bits64 : ∀ on, Satisfies on (integerSatBuilder value).generateModel.cnfClauses →
    (on SatBuilder.bits64.value = true ↔ 2 ^ 32 - 1 < value)
  negative : ∀ on, Satisfies on (integerSatBuilder value).generateModel.cnfClauses →
    (on bitsNegative.value = true ↔ value < 0)
  bits : (integerSatBuilder value).bits = width value

theorem holds_negate {on : Nat → Bool} {lit : Literal} (h : 0 < lit.value_) :
    Holds on (negate lit) ↔ on lit.value = false := by
  have hvalue : (negate lit).value = lit.value := by
    show (-(lit.value : Int)).natAbs = lit.value
    rw [Int.natAbs_neg, Int.natAbs_natCast]
  have hneg : -(lit.value : Int) < 0 := by
    unfold Literal.value
    omega
  have hoff : (negate lit).isOff = true := decide_eq_true hneg
  have hon : (negate lit).isOn = false := decide_eq_false (by
    show ¬ 0 < -(lit.value : Int)
    omega)
  rw [Holds, hvalue, hoff, hon]
  simp

theorem holds_of_pos {on : Nat → Bool} {lit : Literal} (h : 0 < lit.value_) :
    Holds on lit ↔ on lit.value = true := by
  have hoff : lit.isOff = false := by
    simp only [Literal.isOff, decide_eq_false_iff_not]
    omega
  have hon : lit.isOn = true := decide_eq_true h
  rw [Holds, hon, hoff]
  simp

/-- A unit clause over a flag with a number of its own fixes it. -/
theorem unitClause_holds_iff {on : Nat → Bool} {lit : Literal} (h : 0 < lit.value_) (b : Bool) :
    (∃ l ∈ unitClause lit b, Holds on l) ↔ on lit.value = b := by
  cases b with
  | false => simp [unitClause, holds_negate h]
  | true => simp [unitClause, holds_of_pos h]

/-- The literal 0 has no sign, so neither it nor its negation can hold. -/
theorem not_unitClause_bits16 (on : Nat → Bool) (b : Bool) :
    ¬ ∃ l ∈ unitClause SatBuilder.bits16 b, Holds on l := by
  rintro ⟨l, hl, hholds⟩
  have hzero : l = ⟨0⟩ := by
    cases b with
    | false => exact List.mem_singleton.mp hl
    | true => exact List.mem_singleton.mp hl
  subst hzero
  simp [Holds, Literal.isOn, Literal.isOff] at hholds

/-- No assignment satisfies the clauses of an integer. -/
theorem not_satisfies_generateModel (value : Int) (on : Nat → Bool) :
    ¬ Satisfies on (integerSatBuilder value).generateModel.cnfClauses :=
  fun h => not_unitClause_bits16 on _ (h _ List.mem_cons_self)

/-- The clauses after the one over 0 clash unless the second and the fourth ask the same. -/
theorem satisfiable_tail_iff (value : Int) :
    (∃ on, Satisfies on (integerSatBuilder value).generateModel.cnfClauses.tail) ↔
      0 ≤ value ∧ value ≤ 2 ^ 16 - 1 := by
  have htail : ∀ on, Satisfies on (integerSatBuilder value).generateModel.cnfClauses.tail ↔
      on 1 = decide (2 ^ 16 - 1 < value) ∧ on 2 = decide (2 ^ 32 - 1 < value) ∧
        on 1 = decide (value < 0) := by
    intro on
    have h32 := fun b => @unitClause_holds_iff on SatBuilder.bits32 (by decide) b
    have h64 := fun b => @unitClause_holds_iff on SatBuilder.bits64 (by decide) b
    show (∀ c ∈ [unitClause _ _, unitClause _ _, unitClause _ _], _) ↔ _
    simp only [List.forall_mem_cons, List.not_mem_nil, false_implies, implies_true, and_true]
    rw [h32, h64, h32]
    rfl
  constructor
  · rintro ⟨on, hon⟩
    obtain ⟨h1, -, h3⟩ := (htail on).mp hon
    rw [h1, decide_eq_decide] at h3
    omega
  · rintro ⟨hlow, hhigh⟩
    refine ⟨fun _ => false, (htail _).mpr ⟨?_, ?_, ?_⟩⟩
    · simp only [Bool.false_eq, decide_eq_false_iff_not]
      omega
    · simp only [Bool.false_eq, decide_eq_false_iff_not]
      omega
    · simp only [Bool.false_eq, decide_eq_false_iff_not]
      omega

/-- The cascade asks the smallest bound first, so it never comes to 32 or 64. -/
theorem bits_eq_width_iff (value : Int) :
    (integerSatBuilder value).bits = width value ↔ value ≤ 2 ^ 16 - 1 := by
  unfold integerSatBuilder width
  dsimp only
  by_cases h8 : 2 ^ 8 - 1 < value
  · rw [if_pos h8, if_pos h8]
    by_cases h16 : 2 ^ 16 - 1 < value
    · rw [if_pos h16]
      split <;> omega
    · rw [if_neg h16, if_neg (by omega)]
      omega
  · rw [if_neg h8, if_neg (by omega), if_neg (by omega), if_neg (by omega), if_neg (by omega),
      if_neg h8]
    omega

/-- **The size of no integer is encoded consistently**: its clauses have no model. -/
theorem not_sizeConsistent (value : Int) : ¬ SizeConsistent value := by
  intro h
  obtain ⟨on, hon⟩ := h.satisfiable
  exact not_satisfies_generateModel value on hon

theorem not_sizeConsistent_zero : ¬ SizeConsistent 0 := by
  rintro ⟨⟨on, hon⟩, -⟩
  obtain ⟨l, hl, hholds⟩ := hon _ List.mem_cons_self
  cases List.mem_singleton.mp hl
  rcases hholds with ⟨hon, -⟩ | ⟨hoff, -⟩
  · exact absurd hon (by decide)
  · exact absurd hoff (by decide)

end Fabko.SatBuilder
