import Mathlib.Data.Nat.Basic

set_option autoImplicit false

/-! # Loops that return from their body

A loop passes a state through its body until a pass returns a value. A pass can also fail, and then
the loop gives nothing, as it does when it never returns. What a loop does is known from its heads,
the states it has before its passes. -/

namespace Loop

variable {σ ρ : Type*}

/-- At most `fuel` passes from the pass `n` on. A pass gives the next state and the value it
returns, if it does. -/
def run (body : Nat → σ → Option (σ × Option ρ)) : Nat → Nat → σ → Option (σ × ρ)
  | 0, _, _ => none
  | fuel + 1, n, s =>
      match body n s with
      | none => none
      | some (s, some r) => some (s, r)
      | some (s, none) => run body fuel (n + 1) s

/-- The state before the pass `k` of a loop that starts at `s`. -/
inductive Head (body : Nat → σ → Option (σ × Option ρ)) (s : σ) : Nat → σ → Prop
  | start : Head body s 0 s
  | next {k : Nat} {t u : σ} (h : Head body s k t) (hpass : body k t = some (u, none)) :
      Head body s (k + 1) u

variable {body body' : Nat → σ → Option (σ × Option ρ)} {s t u : σ} {r : ρ} {k fuel : Nat}

theorem run_succ_of_next {n : Nat} (h : body n s = some (t, none)) :
    run body (fuel + 1) n s = run body fuel (n + 1) t := by
  simp [run, h]

/-- The passes before a head only take fuel. -/
theorem Head.run_add (h : Head body s k t) (fuel : Nat) :
    run body (k + fuel) 0 s = run body fuel k t := by
  induction h generalizing fuel with
  | start => rw [Nat.zero_add]
  | @next k t u _ hpass ih =>
      rw [Nat.add_right_comm, Nat.add_assoc, ih, run_succ_of_next hpass]

/-- **A loop returns** exactly if a pass does that it comes to. -/
theorem run_eq_some_iff :
    run body fuel 0 s = some (u, r) ↔
      ∃ k < fuel, ∃ t, Head body s k t ∧ body k t = some (u, some r) := by
  constructor
  · intro hrun
    have hlast : ∀ fuel k t, Head body s k t → run body fuel k t = some (u, r) →
        ∃ j < k + fuel, ∃ t', Head body s j t' ∧ body j t' = some (u, some r) := by
      intro fuel
      induction fuel with
      | zero => exact fun k t _ h => by cases h
      | succ fuel ih =>
          intro k t ht h
          unfold run at h
          split at h
          · cases h
          · rename_i t' r' hpass
            obtain ⟨rfl, rfl⟩ := Prod.mk.inj (Option.some.inj h)
            exact ⟨k, by omega, t, ht, hpass⟩
          · rename_i t' hpass
            obtain ⟨j, hj, hfound⟩ := ih (k + 1) t' (ht.next hpass) h
            exact ⟨j, by omega, hfound⟩
    obtain ⟨j, hj, hfound⟩ := hlast fuel 0 s .start hrun
    exact ⟨j, by omega, hfound⟩
  · rintro ⟨k, hk, t, ht, hpass⟩
    obtain ⟨d, rfl⟩ : ∃ d, fuel = k + (d + 1) := ⟨fuel - k - 1, by omega⟩
    rw [ht.run_add]
    simp [run, hpass]

/-- What holds at the start and is kept by every pass that goes on holds at every head. -/
theorem Head.induct {P : Nat → σ → Prop} (hstart : P 0 s)
    (hpass : ∀ k t u, P k t → body k t = some (u, none) → P (k + 1) u) (h : Head body s k t) :
    P k t := by
  induction h with
  | start => exact hstart
  | next _ hnext ih => exact hpass _ _ _ ih hnext

/-- What every pass that goes on keeps, the returning one turns into what holds of the result. -/
theorem run_induct {P : Nat → σ → Prop} {Q : σ → ρ → Prop}
    (hnext : ∀ k t u, P k t → body k t = some (u, none) → P (k + 1) u)
    (hreturn : ∀ k t u r, P k t → body k t = some (u, some r) → Q u r)
    (h : P k s) (hrun : run body fuel k s = some (u, r)) : Q u r := by
  induction fuel generalizing k s with
  | zero => cases hrun
  | succ fuel ih =>
      unfold run at hrun
      split at hrun
      · cases hrun
      · rename_i t r' hpass
        obtain ⟨rfl, rfl⟩ := Prod.mk.inj (Option.some.inj hrun)
        exact hreturn k s t r' h hpass
      · rename_i t hpass
        exact ih (hnext k s t h hpass) hrun

/-- **A loop returns** if every pass that does not return lowers a measure. -/
theorem exists_run_of_measure {P : Nat → σ → Prop} (measure : σ → Nat)
    (hpass : ∀ k t, P k t → (∃ u r, body k t = some (u, some r)) ∨
      ∃ u, body k t = some (u, none) ∧ P (k + 1) u ∧ measure u < measure t)
    (h : P k s) (hfuel : measure s < fuel) : ∃ u r, run body fuel k s = some (u, r) := by
  induction fuel generalizing k s with
  | zero => omega
  | succ fuel ih =>
      rcases hpass k s h with ⟨u, r, hreturn⟩ | ⟨u, hnext, hu, hlt⟩
      · exact ⟨u, r, by simp [run, hreturn]⟩
      · rw [run_succ_of_next hnext]
        exact ih hu (by omega)

/-- **A loop does not return** from a head where it fails or goes on to such a head again. -/
theorem run_eq_none_of_forever {P : Nat → σ → Prop}
    (hpass : ∀ k t, P k t → body k t = none ∨ ∃ u, body k t = some (u, none) ∧ P (k + 1) u)
    (ht : Head body s k t) (h : P k t) (fuel : Nat) : run body fuel 0 s = none := by
  have hforever : ∀ fuel k t, P k t → run body fuel k t = none := by
    intro fuel
    induction fuel with
    | zero => exact fun _ _ _ => rfl
    | succ fuel ih =>
        intro k t h
        rcases hpass k t h with hfail | ⟨u, hnext, hu⟩
        · simp [run, hfail]
        · rw [run_succ_of_next hnext]
          exact ih (k + 1) u hu
  have hmore : ∀ {fuel fuel' : Nat}, fuel ≤ fuel' → run body fuel' 0 s = none →
      run body fuel 0 s = none := by
    intro fuel fuel' hle hnone
    by_contra hsome
    obtain ⟨⟨u, r⟩, hrun⟩ := Option.ne_none_iff_exists'.mp hsome
    obtain ⟨j, hj, hfound⟩ := run_eq_some_iff.mp hrun
    rw [run_eq_some_iff.mpr ⟨j, by omega, hfound⟩] at hnone
    cases hnone
  refine hmore (Nat.le_add_left fuel k) ?_
  rw [ht.run_add]
  exact hforever fuel k t h

/-- Two loops that agree on the heads of one of them run alike. -/
theorem run_congr (h : ∀ k < fuel, ∀ t, Head body s k t → body k t = body' k t) :
    run body fuel 0 s = run body' fuel 0 s := by
  have halike : ∀ left k t, k + left ≤ fuel → Head body s k t →
      run body left k t = run body' left k t := by
    intro left
    induction left with
    | zero => exact fun _ _ _ _ => rfl
    | succ left ih =>
        intro k t hk ht
        unfold run
        rw [← h k (by omega) t ht]
        rcases hpass : body k t with _ | ⟨u, _ | r⟩
        · rfl
        · exact ih (k + 1) u (by omega) (ht.next hpass)
        · rfl
  exact halike fuel 0 s (by omega) .start

end Loop
