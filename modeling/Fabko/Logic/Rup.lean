import Fabko.Logic.UnitPropagation
import Fabko.Logic.Cdcl
import Mathlib.Data.List.Find
import Mathlib.Data.Set.Function

set_option autoImplicit false

/-! # Reverse unit propagation

A clause can be checked by unit propagation alone: give all its literals the value false and
propagate until some clause has no other literal left. A list of clauses each of which passes the
check against those before it is a proof that can be followed without a search; with a conflict at
its end, and nothing assumed, it is a refutation. -/

namespace Cnf

variable {V : Type*} [DecidableEq V] {cs ds : List (Clause V)} {α β : V → Option Bool}
  {C D R : Clause V} {l : Lit V} {v : V}

/-! ## Runs into a conflict -/

/-- Some run of unit propagation from `α` falsifies a clause. -/
def Refutes (cs : List (Clause V)) (α : V → Option Bool) : Prop :=
  ∃ β, UnitSteps cs α β ∧ ∃ D ∈ cs, Falsified β D

/-- A clause whose only entry of an open variable is `l` and whose other entries are false forces
`l`. -/
theorem forces_of_filter_eq (hl : C.filter (fun l' => l'.var = l.var) = [l]) (ho : l.IsOpen α)
    (hothers : ∀ l' ∈ C, l'.var ≠ l.var → l'.IsFalse α) : Forces α C l := by
  have hopen : α l.var = none := ho
  refine ⟨?_, ?_⟩
  · rintro ⟨l', hl', ht⟩
    by_cases hv : l'.var = l.var
    · rw [Lit.IsTrue, hv, hopen] at ht
      cases ht
    · exact ht.not_isFalse (hothers l' hl' hv)
  · rw [← hl]
    apply List.filter_congr
    intro l' hl'
    by_cases hv : l'.var = l.var
    · simp [hv, hopen]
    · have hval : α l'.var = some (!l'.sign) := hothers l' hl' hv
      simp [hv, hval]

theorem refutes_of_falsified (hD : D ∈ cs) (hf : Falsified α D) : Refutes cs α :=
  ⟨α, Relation.ReflTransGen.refl, D, hD, hf⟩

theorem Refutes.head (hC : C ∈ cs) (hf : Forces α C l)
    (h : Refutes cs (Function.update α l.var (some l.sign))) : Refutes cs α := by
  obtain ⟨β, hsteps, hconflict⟩ := h
  exact ⟨β, Relation.ReflTransGen.head ⟨C, hC, l, hf, rfl⟩ hsteps, hconflict⟩

/-- A forcing clause under more values: it still forces, or its literal has a value. -/
theorem Forces.mono (hf : Forces α C l) (he : Extends α β) :
    Forces β C l ∨ l.IsTrue β ∨ Falsified β C := by
  have hothers : ∀ l' ∈ C, l'.var ≠ l.var → l'.IsFalse β := fun l' hl' hne =>
    (hf.isFalse_of_ne hl' hne).mono he
  -- the entries of the variable of `l` are one
  have honly : ∀ l' ∈ C, l'.var = l.var → l' = l := by
    intro l' hl' hv
    have hmem : l' ∈ C.filter (fun l' => l'.var = l.var) :=
      List.mem_filter.mpr ⟨hl', by simpa using hv⟩
    rw [hf.filter_var_eq, List.mem_singleton] at hmem
    exact hmem
  rcases l.isTrue_or_isFalse_or_isOpen β with ht | hfalse | hopen
  · exact Or.inr (Or.inl ht)
  · refine Or.inr (Or.inr (fun l' hl' => ?_))
    by_cases hv : l'.var = l.var
    · rw [honly l' hl' hv]
      exact hfalse
    · exact hothers l' hl' hv
  · refine Or.inl ⟨?_, ?_⟩
    · rintro ⟨l', hl', ht⟩
      by_cases hv : l'.var = l.var
      · rw [honly l' hl' hv] at ht
        rw [Lit.IsTrue, show β l.var = none from hopen] at ht
        cases ht
      · exact ht.not_isFalse (hothers l' hl' hv)
    · have hsub := openLits_sublist he C
      rw [hf.2] at hsub
      have hmem : l ∈ openLits β C := mem_openLits.mpr ⟨hf.mem, hopen⟩
      rcases List.sublist_singleton.mp hsub with hnil | hone
      · rw [hnil] at hmem
        cases hmem
      · exact hone

/-- **More values, more conflicts.** What is refuted stays so when more is assumed. -/
theorem Refutes.mono (h : Refutes cs α) (he : Extends α β) : Refutes cs β := by
  obtain ⟨γ, hsteps, D, hD, hf⟩ := h
  induction hsteps using Relation.ReflTransGen.head_induction_on generalizing β with
  | refl => exact refutes_of_falsified hD (hf.mono he)
  | head hstep _ ih =>
      obtain ⟨C, hC, l, hforces, rfl⟩ := hstep
      rcases hforces.mono he with hforces' | htrue | hfalse
      · -- the same step, from more values
        refine Refutes.head hC hforces' (ih (fun w b hw => ?_))
        by_cases hwl : w = l.var
        · subst hwl
          rw [Function.update_self] at hw ⊢
          exact hw
        · rw [Function.update_of_ne hwl] at hw ⊢
          exact he w b hw
      · -- the step is made already
        refine ih (fun w b hw => ?_)
        by_cases hwl : w = l.var
        · subst hwl
          rw [Function.update_self] at hw
          rw [← hw]
          exact htrue
        · rw [Function.update_of_ne hwl] at hw
          exact he w b hw
      · -- the forced literal is denied by the larger assumption, so its clause is false
        exact refutes_of_falsified hC hfalse

/-- A valuation that satisfies the clauses is not refuted, nor is any part of it. -/
theorem Refutes.not_satisfied (h : Refutes cs α) {σ : V → Bool} (hσ : ∀ v b, α v = some b → σ v = b) :
    ¬ ∀ C ∈ cs, C.Holds σ := by
  intro hall
  obtain ⟨β, hsteps, D, hD, hf⟩ := h
  have hclosed : Closed cs (fun v => some (σ v)) := by
    intro C hC δ l hδ hforces
    obtain ⟨l', hl', hl'σ⟩ := hall C hC
    by_cases hv : l'.var = l.var
    · -- the literal that holds is the one that is forced
      have hmem : l' ∈ openLits δ C :=
        mem_openLits.mpr ⟨hl', by rw [Lit.IsOpen, hv]; exact hforces.isOpen⟩
      rw [hforces.2, List.mem_singleton] at hmem
      rw [← hmem]
      exact congrArg some hl'σ
    · have hfalse := (hforces.isFalse_of_ne hl' hv).mono hδ
      exact absurd hl'σ (hfalse.not_holds rfl)
  have hle : Extends β (fun v => some (σ v)) :=
    hsteps.below (fun v b hv => congrArg some (hσ v b hv)) hclosed
  obtain ⟨l, hl, hlσ⟩ := hall D hD
  exact ((hf l hl).mono hle).not_holds rfl hlσ

/-! ## The check of a clause -/

/-- The values that make the literals of a clause false; for a variable that occurs twice the first
literal counts. -/
def denial (C : Clause V) : V → Option Bool := fun v =>
  (C.find? (fun l => decide (l.var = v))).map (fun l => !l.sign)

/-- The clause passes the check against `cs`. -/
def Rup (cs : List (Clause V)) (C : Clause V) : Prop := Refutes cs (denial C)

/-- Where a clause is false, its denial is the part of the values on its variables. -/
theorem denial_eq_some_iff (hf : Falsified α C) {b : Bool} :
    denial C v = some b ↔ (∃ l ∈ C, l.var = v) ∧ α v = some b := by
  rcases hfind : C.find? (fun l => decide (l.var = v)) with _ | l
  · have hnone : ¬ ∃ l ∈ C, l.var = v := by
      rintro ⟨l, hl, hv⟩
      have := List.find?_eq_none.mp hfind l hl
      simp [hv] at this
    simp [denial, hfind, hnone]
  · have hl : l ∈ C := List.mem_of_find?_eq_some hfind
    have hv : l.var = v := by simpa using List.find?_some hfind
    have hval : α v = some (!l.sign) := by
      rw [← hv]
      exact hf l hl
    have hex : ∃ l ∈ C, l.var = v := ⟨l, hl, hv⟩
    simp [denial, hfind, hval, hex]

theorem denial_eq_none_iff : denial C v = none ↔ ∀ l ∈ C, l.var ≠ v := by
  simp [denial]

/-- A false clause of the list is refuted by its own denial. -/
theorem rup_of_mem (hC : C ∈ cs) (hf : Falsified α C) : Rup cs C := by
  refine refutes_of_falsified hC (fun l hl => ?_)
  exact (denial_eq_some_iff hf).mpr ⟨⟨l, hl, rfl⟩, hf l hl⟩

/-- Two false clauses with the same variables pass the same checks. -/
theorem Rup.congr (h : Rup cs C) (hC : Falsified α C) (hD : Falsified α D)
    (hvars : ∀ l ∈ C, ∃ l' ∈ D, l'.var = l.var) : Rup cs D := by
  refine Refutes.mono h (fun v b hv => ?_)
  obtain ⟨⟨l, hl, rfl⟩, hval⟩ := (denial_eq_some_iff hC).mp hv
  obtain ⟨l', hl', heq⟩ := hvars l hl
  exact (denial_eq_some_iff hD).mpr ⟨⟨l', hl', heq⟩, hval⟩

/-- **Resolution keeps the check.** `D` has the variables of `C` and of `R` but `l.var`, which `R`
has once; all literals but `l` are false. Then the denial of `D` makes `R` force `l`, and with it
there is all that the denial of `C` assumes. -/
theorem Rup.resolve (h : Rup cs C) (hR : R ∈ cs) (hC : Falsified α C) (hD : Falsified α D)
    (hl : R.filter (fun l' => l'.var = l.var) = [l]) (htrue : l.IsTrue α)
    (hDv : ∀ l' ∈ D, l'.var ≠ l.var) (hothers : ∀ l' ∈ R, l'.var ≠ l.var → l'.IsFalse α)
    (hRD : ∀ l' ∈ R, l'.var ≠ l.var → ∃ l'' ∈ D, l''.var = l'.var)
    (hCD : ∀ l' ∈ C, l'.var ≠ l.var → ∃ l'' ∈ D, l''.var = l'.var) : Rup cs D := by
  have hforces : Forces (denial D) R l :=
    forces_of_filter_eq hl (denial_eq_none_iff.mpr hDv) (fun l' hl' hne =>
      (denial_eq_some_iff hD).mpr ⟨hRD l' hl' hne, hothers l' hl' hne⟩)
  refine Refutes.head hR hforces (Refutes.mono h (fun v b hv => ?_))
  obtain ⟨⟨l', hl', rfl⟩, hval⟩ := (denial_eq_some_iff hC).mp hv
  by_cases hvl : l'.var = l.var
  · rw [hvl, Function.update_self]
    rw [hvl, show α l.var = some l.sign from htrue] at hval
    exact hval
  · rw [Function.update_of_ne hvl]
    exact (denial_eq_some_iff hD).mpr ⟨hCD l' hl' hvl, hval⟩

/-- A clause that passes the check follows. -/
theorem Rup.holds (h : Rup cs C) {σ : V → Bool} (hσ : ∀ D ∈ cs, D.Holds σ) : C.Holds σ := by
  by_contra hno
  refine Refutes.not_satisfied h (fun v b hv => ?_) hσ
  have hf : Falsified (fun v => some (σ v)) C := by
    intro l hl
    have hne : σ l.var ≠ l.sign := fun heq => hno ⟨l, hl, heq⟩
    show some (σ l.var) = some (!l.sign)
    rw [Bool.eq_not_of_ne hne]
  exact Option.some.inj ((denial_eq_some_iff hf).mp hv).2

/-! ## Proofs -/

/-- Each clause of the list passes the check against `cs` and the clauses before it. -/
def RupProof (cs : List (Clause V)) : List (Clause V) → Prop
  | [] => True
  | C :: rest => Rup cs C ∧ RupProof (cs ++ [C]) rest

theorem RupProof.snoc (h : RupProof cs ds) (hC : Rup (cs ++ ds) C) : RupProof cs (ds ++ [C]) := by
  induction ds generalizing cs with
  | nil =>
      rw [List.append_nil] at hC
      exact ⟨hC, trivial⟩
  | cons D ds ih =>
      refine ⟨h.1, ih h.2 ?_⟩
      rw [List.append_assoc]
      exact hC

/-- The check of one clause of a proof, against all that is before it. -/
theorem RupProof.at {es : List (Clause V)} (h : RupProof cs (ds ++ C :: es)) :
    Rup (cs ++ ds) C := by
  induction ds generalizing cs with
  | nil =>
      rw [List.append_nil]
      exact h.1
  | cons D ds ih =>
      have hrest := ih h.2
      rw [List.append_assoc] at hrest
      exact hrest

/-- **A proof proves.** -/
theorem RupProof.holds (h : RupProof cs ds) {σ : V → Bool} (hσ : ∀ C ∈ cs, C.Holds σ) :
    ∀ C ∈ ds, C.Holds σ := by
  induction ds generalizing cs with
  | nil => exact fun C hC => absurd hC List.not_mem_nil
  | cons D ds ih =>
      have hD : D.Holds σ := h.1.holds hσ
      intro C hC
      rcases List.mem_cons.mp hC with rfl | hC
      · exact hD
      · refine ih h.2 (fun E hE => ?_) C hC
        rcases List.mem_append.mp hE with hE | hE
        · exact hσ E hE
        · rw [List.mem_singleton.mp hE]
          exact hD

/-- A proof after which propagation from nothing runs into a conflict. -/
structure Refutation (cs ds : List (Clause V)) : Prop where
  proof : RupProof cs ds
  conflict : Refutes (cs ++ ds) (fun _ => none)

theorem Refutation.unsatisfiable (h : Refutation cs ds) (σ : V → Bool) : ¬ ∀ C ∈ cs, C.Holds σ := by
  intro hσ
  refine h.conflict.not_satisfied (σ := σ) (fun v b hv => by cases hv) (fun C hC => ?_)
  rcases List.mem_append.mp hC with hC | hC
  · exact hσ C hC
  · exact h.proof.holds hσ C hC

/-! ## Renaming the variables -/

section Rename

variable {W : Type*} [DecidableEq W] {f : V → W} {S : Set V} {γ : W → Option Bool}

def Lit.rename (f : V → W) (l : Lit V) : Lit W := ⟨f l.var, l.sign⟩

def Clause.rename (f : V → W) (C : Clause V) : Clause W := C.map (Lit.rename f)

/-- The variables of the clause are in `S`. -/
def Over (S : Set V) (C : Clause V) : Prop := ∀ l ∈ C, l.var ∈ S

/-- `γ` gives the new names of the variables of `S` the values `α` gives the old ones. -/
def Renamed (f : V → W) (S : Set V) (α : V → Option Bool) (γ : W → Option Bool) : Prop :=
  ∀ v ∈ S, γ (f v) = α v

omit [DecidableEq V] [DecidableEq W] in
theorem Falsified.rename (h : Falsified α C) (hC : Over S C) (hr : Renamed f S α γ) :
    Falsified γ (C.rename f) := by
  intro l' hl'
  obtain ⟨l, hl, rfl⟩ := List.mem_map.mp hl'
  exact (hr l.var (hC l hl)).trans (h l hl)

omit [DecidableEq V] [DecidableEq W] in
theorem Forces.rename (h : Forces α C l) (hC : Over S C) (hr : Renamed f S α γ) :
    Forces γ (C.rename f) (l.rename f) := by
  refine ⟨?_, ?_⟩
  · rintro ⟨l', hl', ht⟩
    obtain ⟨l₀, hl₀, rfl⟩ := List.mem_map.mp hl'
    exact h.1 ⟨l₀, hl₀, (hr l₀.var (hC l₀ hl₀)).symm.trans ht⟩
  · have hopen : openLits γ (C.rename f) = (openLits α C).map (Lit.rename f) := by
      rw [openLits, Clause.rename, List.filter_map]
      congr 1
      apply List.filter_congr
      intro l' hl'
      show (γ (f l'.var)).isNone = _
      rw [hr l'.var (hC l' hl')]
    rw [hopen, h.2]
    rfl

theorem Renamed.update (h : Renamed f S α γ) (hf : Set.InjOn f S) (hv : v ∈ S) (b : Option Bool) :
    Renamed f S (Function.update α v b) (Function.update γ (f v) b) := by
  intro w hw
  by_cases hwv : w = v
  · subst hwv
    rw [Function.update_self, Function.update_self]
  · rw [Function.update_of_ne hwv, Function.update_of_ne (fun he => hwv (hf hw hv he))]
    exact h w hw

theorem Refutes.rename (h : Refutes cs α) (hf : Set.InjOn f S) (hcs : ∀ C ∈ cs, Over S C)
    (hr : Renamed f S α γ) : Refutes (cs.map (Clause.rename f)) γ := by
  obtain ⟨β, hsteps, D, hD, hfalse⟩ := h
  induction hsteps using Relation.ReflTransGen.head_induction_on generalizing γ with
  | refl => exact refutes_of_falsified (List.mem_map_of_mem hD) (hfalse.rename (hcs D hD) hr)
  | head hstep _ ih =>
      obtain ⟨C, hC, l, hforces, rfl⟩ := hstep
      have hl : l.var ∈ S := hcs C hC l hforces.mem
      exact Refutes.head (List.mem_map_of_mem hC) (hforces.rename (hcs C hC) hr)
        (ih (hr.update hf hl _))

theorem renamed_denial (hf : Set.InjOn f S) (hC : Over S C) :
    Renamed f S (denial C) (denial (C.rename f)) := by
  intro v hv
  have hfind : (C.rename f).find? (fun l => decide (l.var = f v))
      = (C.find? (fun l => decide (l.var = v))).map (Lit.rename f) := by
    rw [Clause.rename, List.find?_map]
    congr 1
    apply List.find?_congr
    intro l hl
    show decide (f l.var = f v) = _
    rw [decide_eq_decide]
    exact hf.eq_iff (hC l hl) hv
  rw [denial, hfind, denial, Option.map_map]
  rfl

theorem Rup.rename (h : Rup cs C) (hf : Set.InjOn f S) (hcs : ∀ D ∈ cs, Over S D)
    (hC : Over S C) : Rup (cs.map (Clause.rename f)) (C.rename f) :=
  Refutes.rename h hf hcs (renamed_denial hf hC)

/-- The names of the variables do not matter to a proof. -/
theorem RupProof.rename (h : RupProof cs ds) (hf : Set.InjOn f S) (hcs : ∀ C ∈ cs, Over S C)
    (hds : ∀ C ∈ ds, Over S C) :
    RupProof (cs.map (Clause.rename f)) (ds.map (Clause.rename f)) := by
  induction ds generalizing cs with
  | nil => trivial
  | cons D ds ih =>
      have hD : Over S D := hds D List.mem_cons_self
      refine ⟨h.1.rename hf hcs hD, ?_⟩
      have hrest := ih h.2 (fun C hC => ?_) (fun C hC => hds C (List.mem_cons_of_mem D hC))
      · rw [List.map_append] at hrest
        exact hrest
      · rcases List.mem_append.mp hC with hC | hC
        · exact hcs C hC
        · rw [List.mem_singleton.mp hC]
          exact hD

end Rename

end Cnf

/-! ## A search at level 0 -/

namespace Cdcl

open Cnf

variable {V : Type*} [DecidableEq V] {M : Set (V → Bool)} {s : State V}

/-- The values of the variables in `t`. -/
def State.on (s : State V) (t : List V) : V → Option Bool := fun v => if v ∈ t then s.value v else none

theorem on_trail (h : Wf M s) : s.on s.trail = s.value := by
  funext v
  by_cases hv : v ∈ s.trail
  · exact if_pos hv
  · refine (if_neg hv).trans ?_
    by_contra hne
    exact hv ((h.mem_trail v).mpr (Ne.symm hne))

/-- An entry that has a reason is propagated from the older entries. -/
theorem IsReason.unitStep {older : List V} {C : Clause V} {v : V} (h : IsReason s C older v)
    (hnew : v ∉ older) : UnitStep s.clauses (s.on older) (s.on (v :: older)) := by
  obtain ⟨l, hl, htrue⟩ := h.unique
  have hlv : l.var = v := by
    have hmem : l ∈ C.filter (fun l' => l'.var = v) := by
      rw [hl]
      exact List.mem_singleton_self l
    simpa using (List.mem_filter.mp hmem).2
  subst hlv
  have hforces : Forces (s.on older) C l := by
    refine forces_of_filter_eq hl (if_neg hnew) (fun l' hl' hne => ?_)
    obtain ⟨hfalse, hold⟩ := h.others l' hl' hne
    exact (if_pos hold).trans hfalse
  refine ⟨C, h.mem, l, hforces, ?_⟩
  funext w
  by_cases hw : w = l.var
  · subst hw
    rw [Function.update_self]
    exact (if_pos List.mem_cons_self).trans htrue
  · rw [Function.update_of_ne hw]
    simp only [State.on, List.mem_cons, hw, false_or]

theorem unitStep_of_level_zero (h : Wf M s) (hcur : s.current = 0) {newer older : List V} {v : V}
    (ht : s.trail = newer ++ v :: older) :
    UnitStep s.clauses (s.on older) (s.on (v :: older)) := by
  have hmem : v ∈ s.trail := by rw [ht]; simp
  have hnew : v ∉ older := by
    have hnodup := h.nodup
    rw [ht] at hnodup
    exact (List.nodup_cons.mp (List.nodup_append.mp hnodup).2.1).1
  rcases hr : s.reason v with _ | C
  · -- a decision has a level above 0
    have hpos := h.level_pos_of_reason_none hmem hr
    have hle := h.le_current v hmem
    omega
  · exact ((h.supported.at ht).1 C hr).unitStep hnew

/-- At level 0 every value is propagated from nothing. The induction is on the trail, oldest entry
first. -/
theorem unitSteps_of_level_zero (h : Wf M s) (hcur : s.current = 0) :
    UnitSteps s.clauses (fun _ => none) s.value := by
  have hsuffix : ∀ newer older, s.trail = newer ++ older →
      UnitSteps s.clauses (fun _ => none) (s.on older) := by
    intro newer older ht
    induction older generalizing newer with
    | nil =>
        have hnone : s.on [] = fun _ => none := funext fun v => if_neg List.not_mem_nil
        rw [hnone]
    | cons v older ih =>
        have hsteps := ih (newer ++ [v]) (by rw [ht]; simp)
        exact hsteps.tail (unitStep_of_level_zero h hcur ht)
  have hall := hsuffix [] s.trail rfl
  rw [on_trail h] at hall
  exact hall

/-- **A conflict at level 0** is met by propagation from nothing. -/
theorem refutes_of_conflict (h : Wf M s) (hcur : s.current = 0) {C : Clause V}
    (hC : C ∈ s.clauses) (hf : Falsified s.value C) : Refutes s.clauses (fun _ => none) :=
  ⟨s.value, unitSteps_of_level_zero h hcur, C, hC, hf⟩

end Cdcl
