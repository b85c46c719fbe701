import Fabko.Logic.Cdcl
import Mathlib.Logic.Relation

set_option autoImplicit false

/-! # Runs of the search

The four moves as one transition relation, each with the guard under which it keeps `Wf`. A run
keeps `Wf`, and it never takes back what was assigned at level 0. -/

namespace Cdcl

open Cnf State

variable {V : Type*} [DecidableEq V] {M : Set (V → Bool)}

inductive Move (M : Set (V → Bool)) : State V → State V → Prop
  | propagate {s : State V} {C : Clause V} {l : Lit V} (hC : C ∈ s.clauses)
      (hf : Forces s.value C l)
      (hlev : 0 < s.current → ∃ l' ∈ C, l'.var ≠ l.var ∧ s.level l'.var = s.current) :
      Move M s (s.propagate C l)
  | decide {s : State V} {l : Lit V} (ho : l.IsOpen s.value) : Move M s (s.decide l)
  | learn {s : State V} {C : Clause V} (hC : Entails M C) : Move M s (s.learn C)
  | backjump {s : State V} {k : Nat} (hk : k ≤ s.current) : Move M s (s.backjump k)

abbrev Moves (M : Set (V → Bool)) : State V → State V → Prop := Relation.ReflTransGen (Move M)

theorem Move.wf {s s' : State V} (h : Move M s s') (hw : Wf M s) : Wf M s' := by
  cases h with
  | propagate hC hf hlev => exact hw.propagate hC hf hlev
  | decide ho => exact hw.decide ho
  | learn hC => exact hw.learn hC
  | backjump hk => exact hw.backjump hk

theorem Moves.wf {s s' : State V} (h : Moves M s s') (hw : Wf M s) : Wf M s' := by
  induction h with
  | refl => exact hw
  | tail _ hstep ih => exact hstep.wf ih

/-- What is assigned at level 0 in `s` is so in `s'`, with the same value. -/
def RootKept (s s' : State V) : Prop :=
  ∀ v ∈ s.trail, s.level v = 0 → v ∈ s'.trail ∧ s'.level v = 0 ∧ s'.value v = s.value v

omit [DecidableEq V] in
theorem RootKept.trans {s₁ s₂ s₃ : State V} (h₁ : RootKept s₁ s₂) (h₂ : RootKept s₂ s₃) :
    RootKept s₁ s₃ := by
  intro v hv hz
  obtain ⟨hv₂, hz₂, hval₂⟩ := h₁ v hv hz
  obtain ⟨hv₃, hz₃, hval₃⟩ := h₂ v hv₂ hz₂
  exact ⟨hv₃, hz₃, hval₃.trans hval₂⟩

theorem Move.rootKept {s s' : State V} (h : Move M s s') (hw : Wf M s) : RootKept s s' := by
  intro v hv hz
  have hne : ∀ l : Lit V, l.IsOpen s.value → v ≠ l.var := by
    rintro l ho rfl
    exact (hw.mem_trail l.var).mp hv ho
  cases h with
  | @propagate C l hC hf hlev =>
      have hvl := hne l hf.isOpen
      refine ⟨List.mem_cons_of_mem _ hv, ?_, ?_⟩
      · simpa [State.propagate, Function.update_of_ne hvl] using hz
      · simp [State.propagate, Function.update_of_ne hvl]
  | @decide l ho =>
      have hvl := hne l ho
      refine ⟨List.mem_cons_of_mem _ hv, ?_, ?_⟩
      · simpa [State.decide, Function.update_of_ne hvl] using hz
      · simp [State.decide, Function.update_of_ne hvl]
  | learn hC => exact ⟨hv, hz, rfl⟩
  | @backjump k hk =>
      -- only levels above `k` are undone
      have hkept : v ∉ s.undone k := by
        intro hu
        have := (hw.mem_undone.mp hu).2
        omega
      refine ⟨hw.mem_backjump_trail.mpr ⟨hv, by omega⟩, hz, ?_⟩
      simp [State.backjump, hkept]

/-- **Level 0 is permanent.** -/
theorem Moves.rootKept {s s' : State V} (h : Moves M s s') (hw : Wf M s) : RootKept s s' := by
  induction h with
  | refl => exact fun v hv hz => ⟨hv, hz, rfl⟩
  | tail hrun hstep ih => exact ih.trans (hstep.rootKept (Moves.wf hrun hw))

end Cdcl
