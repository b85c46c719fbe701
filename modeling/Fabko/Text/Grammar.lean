import Mathlib.Data.List.Basic

set_option autoImplicit false

/-! # Rules over tokens

Rules of a grammar as recognisers: a rule takes tokens from the front and leaves the rest, or it
fails. `Rules` is what is used of a library of such rules and what is assumed of it: a choice tries
its alternatives in order, a list repeats its rule as often as it can, and neither goes back on what
was taken. -/

namespace Grammar

variable {τ : Type}

/-- What a rule leaves of the tokens; `none` if it does not match. -/
abbrev Rule (τ : Type) := List τ → Option (List τ)

/-- What matches takes a token at least. -/
def Consumes (r : Rule τ) : Prop := ∀ ts rest, r ts = some rest → rest.length < ts.length

/-- What matches adds no tokens. -/
def Shortens (r : Rule τ) : Prop := ∀ ts rest, r ts = some rest → rest.length ≤ ts.length

/-! ## The library -/

/-- The rules of a library, and what each of them does. -/
class Rules where
  matchToken {τ : Type} (p : τ → Bool) : Rule τ
  seqRule {τ : Type} (r r' : Rule τ) : Rule τ
  orRule {τ : Type} (r r' : Rule τ) : Rule τ
  /-- Zero or more times the rule. -/
  listRule {τ : Type} (r : Rule τ) : Rule τ
  matchToken_nil {τ : Type} (p : τ → Bool) : matchToken p [] = none
  matchToken_cons {τ : Type} (p : τ → Bool) (t : τ) (ts : List τ) :
    matchToken p (t :: ts) = if p t then some ts else none
  seqRule_apply {τ : Type} (r r' : Rule τ) (ts : List τ) : seqRule r r' ts = (r ts).bind r'
  orRule_apply {τ : Type} (r r' : Rule τ) (ts : List τ) : orRule r r' ts = (r ts).or (r' ts)
  listRule_of_none {τ : Type} {r : Rule τ} {ts : List τ} (h : r ts = none) :
    listRule r ts = some ts
  /-- Nothing is assumed of a list whose rule can match without taking a token. -/
  listRule_of_some {τ : Type} {r : Rule τ} (hr : Consumes r) {ts rest : List τ}
    (h : r ts = some rest) : listRule r ts = listRule r rest

export Rules (matchToken seqRule orRule listRule matchToken_nil matchToken_cons seqRule_apply
  orRule_apply listRule_of_none listRule_of_some)

attribute [simp] Rules.matchToken_nil Rules.matchToken_cons Rules.seqRule_apply Rules.orRule_apply

theorem Consumes.nil {r : Rule τ} (hr : Consumes r) : r [] = none := by
  rcases hnil : r [] with _ | rest
  · rfl
  · exact absurd (hr [] rest hnil) (Nat.not_lt_zero _)

/-- At most `fuel` rounds of a rule. -/
def listLoop (r : Rule τ) : Nat → List τ → List τ
  | 0, ts => ts
  | fuel + 1, ts =>
      match r ts with
      | none => ts
      | some rest => listLoop r fuel rest

/-- As many rounds as there are tokens are enough. -/
theorem listLoop_eq_of_le {r : Rule τ} (hr : Consumes r) {fuel fuel' : Nat} {ts : List τ}
    (h : ts.length ≤ fuel) (h' : ts.length ≤ fuel') :
    listLoop r fuel ts = listLoop r fuel' ts := by
  induction fuel generalizing fuel' ts with
  | zero =>
      cases List.eq_nil_of_length_eq_zero (Nat.le_zero.mp h)
      cases fuel' with
      | zero => rfl
      | succ fuel' => rw [listLoop, listLoop, hr.nil]
  | succ fuel ih =>
      cases fuel' with
      | zero =>
          cases List.eq_nil_of_length_eq_zero (Nat.le_zero.mp h')
          rw [listLoop, listLoop, hr.nil]
      | succ fuel' =>
          rw [listLoop, listLoop]
          rcases hrest : r ts with _ | rest
          · rfl
          · have hlt := hr ts rest hrest
            exact ih (by omega) (by omega)

theorem listLoop_of_none {r : Rule τ} {ts : List τ} (h : r ts = none) :
    listLoop r ts.length ts = ts := by
  rcases ts with _ | ⟨t, ts⟩
  · rfl
  · rw [List.length_cons, listLoop, h]

theorem listLoop_of_some {r : Rule τ} (hr : Consumes r) {ts rest : List τ} (h : r ts = some rest) :
    listLoop r ts.length ts = listLoop r rest.length rest := by
  have hlt := hr ts rest h
  obtain ⟨n, hn⟩ : ∃ n, ts.length = n + 1 := ⟨ts.length - 1, by omega⟩
  rw [hn, listLoop, h]
  exact listLoop_eq_of_le hr (by omega) (Nat.le_refl _)

/-- Rules as the functions they are; a list makes as many rounds as there are tokens. -/
abbrev plainRules : Rules where
  matchToken p
    | [] => none
    | t :: ts => if p t then some ts else none
  seqRule r r' := fun ts => (r ts).bind r'
  orRule r r' := fun ts => (r ts).or (r' ts)
  listRule r := fun ts => some (listLoop r ts.length ts)
  matchToken_nil _ := rfl
  matchToken_cons _ _ _ := rfl
  seqRule_apply _ _ _ := rfl
  orRule_apply _ _ _ := rfl
  listRule_of_none h := congrArg some (listLoop_of_none h)
  listRule_of_some hr _ _ h := congrArg some (listLoop_of_some hr h)

/-! ## Reading the rules -/

variable [Rules]

def may (r : Rule τ) : Rule τ := orRule r some

def parenthesised (opening closing : Rule τ) (r : Rule τ) : Rule τ :=
  seqRule opening (seqRule r closing)

theorem matchToken_of_pos {p : τ → Bool} {t : τ} (h : p t = true) (ts : List τ) :
    matchToken p (t :: ts) = some ts := by
  rw [matchToken_cons, if_pos h]

theorem matchToken_of_neg {p : τ → Bool} {t : τ} (h : p t = false) (ts : List τ) :
    matchToken p (t :: ts) = none := by
  rw [matchToken_cons, if_neg (by simp [h])]

theorem matchToken_eq_some_iff {p : τ → Bool} {ts rest : List τ} :
    matchToken p ts = some rest ↔ ∃ t, p t = true ∧ ts = t :: rest := by
  cases ts with
  | nil => simp
  | cons t ts =>
      by_cases h : p t = true
      · rw [matchToken_of_pos h]
        simp [h]
      · rw [matchToken_of_neg (eq_false_of_ne_true h)]
        constructor
        · intro hnone
          cases hnone
        · rintro ⟨t', ht', heq⟩
          cases heq
          exact absurd ht' h

theorem orRule_of_some {r r' : Rule τ} {ts rest : List τ} (h : r ts = some rest) :
    orRule r r' ts = some rest := by
  rw [orRule_apply, h]
  rfl

theorem orRule_of_none {r r' : Rule τ} {ts : List τ} (h : r ts = none) :
    orRule r r' ts = r' ts := by
  rw [orRule_apply, h]
  rfl

theorem orRule_eq_some_iff {r r' : Rule τ} {ts rest : List τ} :
    orRule r r' ts = some rest ↔ r ts = some rest ∨ r ts = none ∧ r' ts = some rest := by
  rw [orRule_apply]
  cases r ts <;> simp

theorem seqRule_of_some {r r' : Rule τ} {ts rest : List τ} (h : r ts = some rest) :
    seqRule r r' ts = r' rest := by
  rw [seqRule_apply, h]
  rfl

theorem seqRule_of_none {r r' : Rule τ} {ts : List τ} (h : r ts = none) :
    seqRule r r' ts = none := by
  rw [seqRule_apply, h]
  rfl

theorem seqRule_eq_some_iff {r r' : Rule τ} {ts rest : List τ} :
    seqRule r r' ts = some rest ↔ ∃ mid, r ts = some mid ∧ r' mid = some rest := by
  rw [seqRule_apply, Option.bind_eq_some_iff]

/-! ## Lists -/

section Lists

variable {r : Rule τ}

/-- What holds where the rule stops and is kept by one more match in front holds of a list. -/
theorem listRule_induct (hr : Consumes r) {motive : List τ → List τ → Prop}
    (stop : ∀ ts, r ts = none → motive ts ts)
    (step : ∀ ts mid rest, r ts = some mid → motive mid rest → motive ts rest)
    {ts rest : List τ} (h : listRule r ts = some rest) : motive ts rest := by
  induction hn : ts.length using Nat.strongRecOn generalizing ts with
  | ind n ih =>
      rcases hmid : r ts with _ | mid
      · rw [listRule_of_none hmid, Option.some.injEq] at h
        rw [← h]
        exact stop ts hmid
      · rw [listRule_of_some hr hmid] at h
        have hlt := hr ts mid hmid
        exact step ts mid rest hmid (ih mid.length (by omega) h rfl)

theorem shortens_listRule (hr : Consumes r) : Shortens (listRule r) := by
  intro ts rest h
  refine listRule_induct hr (motive := fun ts rest => rest.length ≤ ts.length)
    (fun ts _ => Nat.le_refl _) (fun ts mid rest hmid hrest => ?_) h
  have hlt := hr ts mid hmid
  omega

/-- A list depends on what its rule does on the tokens from the front on, and on no longer ones. -/
theorem listRule_congr {r' : Rule τ} (hr : Consumes r) (hr' : Consumes r') {ts : List τ}
    (h : ∀ us : List τ, us.length ≤ ts.length → r us = r' us) : listRule r ts = listRule r' ts := by
  induction hn : ts.length using Nat.strongRecOn generalizing ts with
  | ind n ih =>
      have hts := h ts (Nat.le_refl _)
      rcases hmid : r ts with _ | mid
      · rw [listRule_of_none hmid, listRule_of_none (hts ▸ hmid)]
      · have hlt := hr ts mid hmid
        rw [listRule_of_some hr hmid, listRule_of_some hr' (hts ▸ hmid)]
        exact ih mid.length (by omega) (fun us hus => h us (by omega)) rfl

end Lists

end Grammar
