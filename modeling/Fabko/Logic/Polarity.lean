import Fabko.Logic.Cdcl

set_option autoImplicit false

/-! # Searches that decide for true

If every decision asks for true, then what is false was forced, and a total state has as many true
variables as its decisions allow: no other model has all of them and more. For clauses with at most
one negative literal such a search needs no learning: above level 0 propagation only asks for true,
and true literals falsify one entry of a clause at most. -/

namespace Cnf

variable {V : Type*}

/-! ## At most one negative literal -/

def DualHorn (C : Clause V) : Prop := (C.map Lit.sign).count false ≤ 1

instance (C : Clause V) : Decidable (DualHorn C) :=
  inferInstanceAs (Decidable (_ ≤ _))

/-- Two literals of the wrong sign are one too many. -/
theorem DualHorn.exists_positive {C D : Clause V} (h : DualHorn C) (hsub : D.Sublist C)
    (htwo : 2 ≤ D.length) : ∃ l ∈ D, l.sign = true := by
  by_contra hno
  push Not at hno
  have hall : ∀ b ∈ D.map Lit.sign, false = b := by
    intro b hb
    obtain ⟨l, hl, rfl⟩ := List.mem_map.mp hb
    simpa using hno l hl
  have hlen : D.length ≤ 1 :=
    calc D.length = (D.map Lit.sign).length := (List.length_map _).symm
      _ = (D.map Lit.sign).count false := (List.count_eq_length.mpr hall).symm
      _ ≤ (C.map Lit.sign).count false := (hsub.map Lit.sign).count_le false
      _ ≤ 1 := h
  omega

/-- A settled clause that is not satisfied waits for a positive literal. -/
theorem DualHorn.exists_open {C : Clause V} {α : V → Option Bool} (h : DualHorn C)
    (hs : Settled α C) (hn : ¬ Satisfied α C) : ∃ l ∈ C, l.IsOpen α ∧ l.sign = true := by
  have htwo := hs.resolve_left hn
  obtain ⟨l, hl, hsign⟩ := h.exists_positive List.filter_sublist htwo
  have hopen := mem_openLits.mp hl
  exact ⟨l, hopen.1, hopen.2, hsign⟩

/-- What is open may be true. -/
theorem DualHorn.holds_getD {C : Clause V} {α : V → Option Bool} (h : DualHorn C)
    (hs : Settled α C) : C.Holds (fun v => (α v).getD true) := by
  by_cases hsat : Satisfied α C
  · obtain ⟨l, hl, ht⟩ := hsat
    have hval : α l.var = some l.sign := ht
    exact ⟨l, hl, by simp [Lit.Holds, hval]⟩
  · obtain ⟨l, hl, ho, hsign⟩ := h.exists_open hs hsat
    have hval : α l.var = none := ho
    exact ⟨l, hl, by simp [Lit.Holds, hval, hsign]⟩

/-- **The models are closed under union.** -/
theorem DualHorn.holds_or {C : Clause V} {σ τ : V → Bool} (h : DualHorn C) (hσ : C.Holds σ)
    (hτ : C.Holds τ) : C.Holds (fun v => σ v || τ v) := by
  obtain ⟨l, hl, hlσ⟩ := hσ
  obtain ⟨l', hl', hlτ⟩ := hτ
  have hs : σ l.var = l.sign := hlσ
  have ht : τ l'.var = l'.sign := hlτ
  cases hsign : l.sign with
  | true => exact ⟨l, hl, by simp [Lit.Holds, hs, hsign]⟩
  | false =>
      cases hsign' : l'.sign with
      | true => exact ⟨l', hl', by simp [Lit.Holds, ht, hsign']⟩
      | false =>
          -- the clause has one negative literal, which both make true
          have heq : l = l' := by
            by_contra hne
            have hmem : ∀ x ∈ C.filter (fun x => !x.sign), x.sign = false := by
              intro x hx
              simpa using (List.mem_filter.mp hx).2
            have htwo : 2 ≤ (C.filter (fun x => !x.sign)).length :=
              Cdcl.two_le_length_of_ne (List.mem_filter.mpr ⟨hl, by simp [hsign]⟩)
                (List.mem_filter.mpr ⟨hl', by simp [hsign']⟩) hne
            obtain ⟨x, hx, hpos⟩ := h.exists_positive List.filter_sublist htwo
            rw [hmem x hx] at hpos
            cases hpos
          subst heq
          exact ⟨l, hl, by simp [Lit.Holds, hs, ht, hsign]⟩

end Cnf

namespace Cdcl

open Cnf State

variable {V : Type*}

/-! ## What is false -/

/-- The level and the reason of each false variable satisfy `p`. -/
def FalseHas (p : Nat → Option (Clause V) → Prop) (s : State V) : Prop :=
  ∀ v, s.value v = some false → p (s.level v) (s.reason v)

/-- Only true was decided. -/
def DecidesTrue (s : State V) : Prop := FalseHas (fun _ r => r ≠ none) s

/-- Only level 0 has false variables. -/
def FalseAtRoot (s : State V) : Prop := FalseHas (fun k _ => k = 0) s

section Rules

variable [DecidableEq V] {p : Nat → Option (Clause V) → Prop} {s : State V}

theorem FalseHas.propagate (h : FalseHas p s) {C : Clause V} {l : Lit V}
    (hl : l.sign = false → p s.current (some C)) : FalseHas p (s.propagate C l) := by
  intro v hv
  by_cases heq : v = l.var
  · subst heq
    have hsign : l.sign = false := by simpa [State.propagate] using hv
    simpa [State.propagate] using hl hsign
  · simp only [State.propagate, Function.update_of_ne heq] at hv ⊢
    exact h v hv

theorem FalseHas.decide (h : FalseHas p s) (v : V) : FalseHas p (s.decide ⟨v, true⟩) := by
  intro w hw
  by_cases heq : w = v
  · subst heq
    simp [State.decide] at hw
  · simp only [State.decide, Function.update_of_ne heq] at hw ⊢
    exact h w hw

omit [DecidableEq V] in
theorem FalseHas.learn (h : FalseHas p s) (C : Clause V) : FalseHas p (s.learn C) := h

theorem FalseHas.backjump (h : FalseHas p s) (k : Nat) : FalseHas p (s.backjump k) := by
  intro v hv
  by_cases hu : v ∈ s.undone k
  · simp [State.backjump, hu] at hv
  · simp only [State.backjump, hu, if_false] at hv ⊢
    exact h v hv

end Rules

/-! ## Maximal models -/

/-- **A model with all the true variables has no more of them**: it makes the decisions of the
state, and the rest of the trail follows. -/
theorem DecidesTrue.value_eq [DecidableEq V] {M : Set (V → Bool)} {s : State V}
    (h : DecidesTrue s) (hw : Wf M s) {σ : V → Bool} (hσ : σ ∈ M)
    (hle : ∀ v, s.value v = some true → σ v = true) {v : V} (hv : v ∈ s.trail) :
    s.value v = some (σ v) := by
  apply value_eq_of_decisions hw hσ hv
  intro d hd hr _
  rcases hval : s.value d with _ | _ | _
  · exact absurd hval ((hw.mem_trail d).mp hd)
  · exact absurd hr (h d hval)
  · rw [hle d hval]

/-! ## No conflict above level 0 -/

section Root

variable {s : State V} {C : Clause V}

/-- What is open at level 0 is not false later. -/
theorem FalseAtRoot.not_isFalse (h : FalseAtRoot s) {l : Lit V} (ho : l.IsOpen (s.below 0))
    (hsign : l.sign = true) : ¬ l.IsFalse s.value := by
  intro hf
  have hval : s.value l.var = some false := by rw [hf, hsign]; rfl
  have hlevel : s.level l.var ≤ 0 := le_of_eq (h l.var hval)
  rw [below_eq_none.mp ho hlevel] at hval
  cases hval

theorem FalseAtRoot.exists_not_false (h : FalseAtRoot s) (hq : Quiet s) (hC : C ∈ s.clauses)
    (hh : DualHorn C) (hpos : 0 < s.current) (hn : ¬ Satisfied s.value C) :
    ∃ l ∈ C, l.sign = true ∧ ¬ l.IsFalse s.value := by
  have hn0 : ¬ Satisfied (s.below 0) C := fun hsat => hn (satisfied_of_satisfied_below hsat)
  obtain ⟨l, hl, ho, hsign⟩ := hh.exists_open (hq 0 hpos C hC) hn0
  exact ⟨l, hl, hsign, h.not_isFalse ho hsign⟩

/-- **No conflict above level 0.** -/
theorem FalseAtRoot.current_eq_zero (h : FalseAtRoot s) (hq : Quiet s) (hC : C ∈ s.clauses)
    (hh : DualHorn C) (hf : Falsified s.value C) : s.current = 0 := by
  by_contra hne
  obtain ⟨l, hl, -, hnot⟩ :=
    h.exists_not_false hq hC hh (Nat.pos_of_ne_zero hne) hf.not_satisfied
  exact hnot (hf l hl)

/-- Above level 0 only true is forced. -/
theorem FalseAtRoot.sign_of_forces (h : FalseAtRoot s) (hq : Quiet s) (hC : C ∈ s.clauses)
    (hh : DualHorn C) {l : Lit V} (hf : Forces s.value C l) (hpos : 0 < s.current) :
    l.sign = true := by
  obtain ⟨l', hl', hsign, hnot⟩ := h.exists_not_false hq hC hh hpos hf.1
  -- the positive literal is not false, so it is the open one
  have hopen : l' ∈ openLits s.value C := by
    rcases l'.isTrue_or_isFalse_or_isOpen s.value with ht | hfalse | ho
    · exact absurd ⟨l', hl', ht⟩ hf.1
    · exact absurd hfalse hnot
    · exact mem_openLits.mpr ⟨hl', ho⟩
  rw [hf.2, List.mem_singleton] at hopen
  rw [← hopen]
  exact hsign

end Root

end Cdcl
