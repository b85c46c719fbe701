import Fabko.Text.Grammar
import Mathlib.Data.List.Flatten

set_option autoImplicit false

/-! # Parsers and what they print

Rules that also build a value, `Sinks` being what is used of a library of them. A parser prints when
it takes exactly the printed form of the values that are fit for it; the combinators keep this, so
that a grammar and its printer are shown to be each other's inverse along the grammar. -/

namespace Grammar

variable {τ α β : Type}

/-- A value built from the front of the tokens, and the tokens left. -/
abbrev Parser (τ α : Type) := List τ → Option (α × List τ)

/-- The rule of a parser: what it builds is left out. -/
def Parser.recognise (p : Parser τ α) : Rule τ := fun ts => (p ts).map Prod.snd

/-! ## The library -/

/-- Rules with sinks for what they match, and what each of them builds. -/
class Sinks extends Rules where
  token {τ α : Type} (f : τ → Option α) : Parser τ α
  /-- The rule, with a value of its own. -/
  give {τ α : Type} (r : Rule τ) (a : α) : Parser τ α
  map {τ α β : Type} (f : α → β) (p : Parser τ α) : Parser τ β
  seq {τ α β : Type} (p : Parser τ α) (q : Parser τ β) : Parser τ (α × β)
  orElse {τ α : Type} (p q : Parser τ α) : Parser τ α
  /-- The parser behind a rule that builds nothing. -/
  after {τ α : Type} (r : Rule τ) (p : Parser τ α) : Parser τ α
  /-- The parser before a rule that builds nothing. -/
  before {τ α : Type} (p : Parser τ α) (r : Rule τ) : Parser τ α
  /-- Zero or more times the parser. -/
  many {τ α : Type} (p : Parser τ α) : Parser τ (List α)
  token_nil {τ α : Type} (f : τ → Option α) : token f [] = none
  token_cons {τ α : Type} (f : τ → Option α) (t : τ) (ts : List τ) :
    token f (t :: ts) = (f t).map fun a => (a, ts)
  give_apply {τ α : Type} (r : Rule τ) (a : α) (ts : List τ) : give r a ts = (r ts).map (Prod.mk a)
  map_apply {τ α β : Type} (f : α → β) (p : Parser τ α) (ts : List τ) :
    map f p ts = (p ts).map (Prod.map f id)
  seq_apply {τ α β : Type} (p : Parser τ α) (q : Parser τ β) (ts : List τ) :
    seq p q ts = (p ts).bind fun x => (q x.2).map (Prod.map (Prod.mk x.1) id)
  orElse_apply {τ α : Type} (p q : Parser τ α) (ts : List τ) : orElse p q ts = (p ts).or (q ts)
  after_apply {τ α : Type} (r : Rule τ) (p : Parser τ α) (ts : List τ) :
    after r p ts = (r ts).bind p
  before_apply {τ α : Type} (p : Parser τ α) (r : Rule τ) (ts : List τ) :
    before p r ts = (p ts).bind fun x => (r x.2).map (Prod.mk x.1)
  many_of_none {τ α : Type} {p : Parser τ α} {ts : List τ} (h : p ts = none) :
    many p ts = some ([], ts)
  /-- Nothing is assumed of a list whose parser can match without taking a token. -/
  many_of_some {τ α : Type} {p : Parser τ α} (hp : Consumes p.recognise) {ts rest : List τ} {a : α}
    (h : p ts = some (a, rest)) : many p ts = (many p rest).map (Prod.map (List.cons a) id)

namespace Parser

export Sinks (token give map seq orElse after before many)

attribute [simp] Sinks.token_nil Sinks.token_cons Sinks.give_apply Sinks.map_apply Sinks.seq_apply
  Sinks.orElse_apply Sinks.after_apply Sinks.before_apply

theorem recognise_eq_none_iff {p : Parser τ α} {ts : List τ} :
    recognise p ts = none ↔ p ts = none := Option.map_eq_none_iff

theorem recognise_of_some {p : Parser τ α} {ts rest : List τ} {a : α} (h : p ts = some (a, rest)) :
    recognise p ts = some rest := by
  rw [recognise, h]
  rfl

/-- At most `fuel` rounds of a parser. -/
def manyLoop (p : Parser τ α) : Nat → List τ → List α × List τ
  | 0, ts => ([], ts)
  | fuel + 1, ts =>
      match p ts with
      | none => ([], ts)
      | some (a, rest) => ((manyLoop p fuel rest).1.cons a, (manyLoop p fuel rest).2)

/-- As many rounds as there are tokens are enough. -/
theorem manyLoop_eq_of_le {p : Parser τ α} (hp : Consumes p.recognise) {fuel fuel' : Nat}
    {ts : List τ} (h : ts.length ≤ fuel) (h' : ts.length ≤ fuel') :
    manyLoop p fuel ts = manyLoop p fuel' ts := by
  have hnil : p [] = none := recognise_eq_none_iff.mp hp.nil
  induction fuel generalizing fuel' ts with
  | zero =>
      cases List.eq_nil_of_length_eq_zero (Nat.le_zero.mp h)
      cases fuel' with
      | zero => rfl
      | succ fuel' => rw [manyLoop, manyLoop, hnil]
  | succ fuel ih =>
      cases fuel' with
      | zero =>
          cases List.eq_nil_of_length_eq_zero (Nat.le_zero.mp h')
          rw [manyLoop, manyLoop, hnil]
      | succ fuel' =>
          rw [manyLoop, manyLoop]
          rcases hrest : p ts with _ | ⟨a, rest⟩
          · rfl
          · have hlt := hp ts rest (recognise_of_some hrest)
            simp only [ih (show rest.length ≤ fuel by omega) (show rest.length ≤ fuel' by omega)]

theorem manyLoop_of_none {p : Parser τ α} {ts : List τ} (h : p ts = none) :
    manyLoop p ts.length ts = ([], ts) := by
  rcases ts with _ | ⟨t, ts⟩
  · rfl
  · rw [List.length_cons, manyLoop, h]

theorem manyLoop_of_some {p : Parser τ α} (hp : Consumes p.recognise) {ts rest : List τ} {a : α}
    (h : p ts = some (a, rest)) :
    manyLoop p ts.length ts = Prod.map (List.cons a) id (manyLoop p rest.length rest) := by
  have hlt := hp ts rest (recognise_of_some h)
  obtain ⟨n, hn⟩ : ∃ n, ts.length = n + 1 := ⟨ts.length - 1, by omega⟩
  rw [hn, manyLoop, h, ← manyLoop_eq_of_le hp (show rest.length ≤ n by omega) (Nat.le_refl _)]
  rfl

/-- Parsers as the functions they are; a list makes as many rounds as there are tokens. -/
abbrev plainSinks : Sinks where
  toRules := plainRules
  token f
    | [] => none
    | t :: ts => (f t).map fun a => (a, ts)
  give r a := fun ts => (r ts).map (Prod.mk a)
  map f p := fun ts => (p ts).map (Prod.map f id)
  seq p q := fun ts => (p ts).bind fun x => (q x.2).map (Prod.map (Prod.mk x.1) id)
  orElse p q := fun ts => (p ts).or (q ts)
  after r p := fun ts => (r ts).bind p
  before p r := fun ts => (p ts).bind fun x => (r x.2).map (Prod.mk x.1)
  many p := fun ts => some (manyLoop p ts.length ts)
  token_nil _ := rfl
  token_cons _ _ _ := rfl
  give_apply _ _ _ := rfl
  map_apply _ _ _ := rfl
  seq_apply _ _ _ := rfl
  orElse_apply _ _ _ := rfl
  after_apply _ _ _ := rfl
  before_apply _ _ _ := rfl
  many_of_none h := congrArg some (manyLoop_of_none h)
  many_of_some hp _ _ _ h := congrArg some (manyLoop_of_some hp h)

/-! ## Parsers as rules -/

variable [Sinks]

def may (p : Parser τ α) : Parser τ (Option α) := orElse (map some p) fun ts => some (none, ts)

def enclosed (opening closing : Rule τ) (p : Parser τ α) : Parser τ α :=
  after opening (before p closing)

@[simp] theorem recognise_token (f : τ → Option α) :
    recognise (token f) = matchToken fun t => (f t).isSome := by
  funext ts
  cases ts with
  | nil => simp [recognise]
  | cons t ts => cases h : f t <;> simp [recognise, h]

@[simp] theorem recognise_give (r : Rule τ) (a : α) : recognise (give r a) = r := by
  funext ts
  cases h : r ts <;> simp [recognise, h]

@[simp] theorem recognise_map (f : α → β) (p : Parser τ α) :
    recognise (map f p) = recognise p := by
  funext ts
  cases h : p ts <;> simp [recognise, h]

@[simp] theorem recognise_seq (p : Parser τ α) (q : Parser τ β) :
    recognise (seq p q) = seqRule (recognise p) (recognise q) := by
  funext ts
  cases h : p ts with
  | none => simp [recognise, h]
  | some x => cases h' : q x.2 <;> simp [recognise, h, h']

@[simp] theorem recognise_orElse (p q : Parser τ α) :
    recognise (orElse p q) = orRule (recognise p) (recognise q) := by
  funext ts
  cases h : p ts <;> simp [recognise, h]

@[simp] theorem recognise_may (p : Parser τ α) :
    recognise (may p) = Grammar.may (recognise p) := by
  rw [may, recognise_orElse, recognise_map]
  rfl

@[simp] theorem recognise_after (r : Rule τ) (p : Parser τ α) :
    recognise (after r p) = seqRule r (recognise p) := by
  funext ts
  cases h : r ts <;> simp [recognise, h]

@[simp] theorem recognise_before (p : Parser τ α) (r : Rule τ) :
    recognise (before p r) = seqRule (recognise p) r := by
  funext ts
  cases h : p ts with
  | none => simp [recognise, h]
  | some x => cases h' : r x.2 <;> simp [recognise, h, h']

@[simp] theorem recognise_enclosed (opening closing : Rule τ) (p : Parser τ α) :
    recognise (enclosed opening closing p) = parenthesised opening closing (recognise p) := by
  rw [enclosed, recognise_after, recognise_before, parenthesised]

theorem recognise_many {p : Parser τ α} (hp : Consumes p.recognise) :
    recognise (many p) = listRule (recognise p) := by
  funext ts
  induction hn : ts.length using Nat.strongRecOn generalizing ts with
  | ind n ih =>
      rcases hrest : p ts with _ | ⟨a, rest⟩
      · rw [listRule_of_none (recognise_eq_none_iff.mpr hrest), recognise,
          Sinks.many_of_none hrest]
        rfl
      · have hmatch := recognise_of_some hrest
        have hlt := hp ts rest hmatch
        rw [listRule_of_some hp hmatch, ← ih rest.length (by omega) rest rfl, recognise,
          Sinks.many_of_some hp hrest, recognise, Option.map_map]
        rfl

end Parser

/-! ## Printing -/

/-- The rule takes exactly these tokens. -/
def Literal (r : Rule τ) (us : List τ) : Prop := ∀ ts rest, r ts = some rest ↔ ts = us ++ rest

theorem Literal.apply {r : Rule τ} {us : List τ} (h : Literal r us) (rest : List τ) :
    r (us ++ rest) = some rest := (h _ _).mpr rfl

theorem Literal.seq [Rules] {r r' : Rule τ} {us us' : List τ} (h : Literal r us) (h' : Literal r' us') :
    Literal (seqRule r r') (us ++ us') := by
  intro ts rest
  rw [seqRule_eq_some_iff, List.append_assoc]
  constructor
  · rintro ⟨mid, hmid, hrest⟩
    rw [(h ts mid).mp hmid, (h' mid rest).mp hrest]
  · rintro rfl
    exact ⟨us' ++ rest, h.apply _, h'.apply rest⟩

/-- The parser takes the printed form of the values that are fit, and of no others, where it is
followed by tokens at which it stops. -/
structure Prints (p : Parser τ α) (print : α → List τ) (Fit : α → Prop)
    (Stop : List τ → Prop) : Prop where
  sound : ∀ ts a rest, p ts = some (a, rest) → Fit a ∧ ts = print a ++ rest
  complete : ∀ a rest, Fit a → Stop rest → p (print a ++ rest) = some (a, rest)

/-- What does not print as nothing takes a token. -/
theorem Prints.consumes {p : Parser τ α} {print : α → List τ} {Fit : α → Prop} {Stop : List τ → Prop}
    (h : Prints p print Fit Stop) (hne : ∀ a, Fit a → print a ≠ []) : Consumes p.recognise := by
  intro ts rest hrec
  obtain ⟨⟨a, us⟩, hp, heq⟩ := Option.map_eq_some_iff.mp hrec
  obtain rfl : us = rest := heq
  obtain ⟨hfit, hts⟩ := h.sound ts a us hp
  have hpos : 0 < (print a).length := List.length_pos_iff.mpr (hne a hfit)
  rw [hts, List.length_append]
  omega

namespace Prints

variable {p : Parser τ α} {q : Parser τ β} {print : α → List τ} {print' : β → List τ}
  {Fit : α → Prop} {Fit' : β → Prop} {Stop Stop' : List τ → Prop}

/-- What a parser that prints does not take. -/
theorem eq_none (h : Prints p print Fit Stop) {ts : List τ}
    (hts : ∀ a rest, Fit a → ts ≠ print a ++ rest) : p ts = none := by
  cases hp : p ts with
  | none => rfl
  | some x =>
      obtain ⟨hfit, heq⟩ := h.sound ts x.1 x.2 hp
      exact absurd heq (hts x.1 x.2 hfit)

theorem fit (h : Prints p print Fit Stop) {Fit' : α → Prop} (hfit : ∀ a, Fit a ↔ Fit' a) :
    Prints p print Fit' Stop :=
  ⟨fun ts a rest hp => ⟨(hfit a).mp (h.sound ts a rest hp).1, (h.sound ts a rest hp).2⟩,
    fun a rest ha hrest => h.complete a rest ((hfit a).mpr ha) hrest⟩

theorem print_congr (h : Prints p print Fit Stop) {print₂ : α → List τ}
    (heq : ∀ a, Fit a → print a = print₂ a) : Prints p print₂ Fit Stop where
  sound ts a rest hp := by
    obtain ⟨hfit, hts⟩ := h.sound ts a rest hp
    exact ⟨hfit, heq a hfit ▸ hts⟩
  complete a rest hfit hrest := heq a hfit ▸ h.complete a rest hfit hrest

theorem stop (h : Prints p print Fit Stop) (hstop : ∀ rest, Stop' rest → Stop rest) :
    Prints p print Fit Stop' :=
  ⟨h.sound, fun a rest hfit hrest => h.complete a rest hfit (hstop rest hrest)⟩

/-- A parser that prints, on whole inputs: it is the inverse of the printer. -/
theorem eq_some_nil_iff (h : Prints p print Fit Stop) (hnil : Stop []) {ts : List τ} {a : α} :
    p ts = some (a, []) ↔ Fit a ∧ ts = print a := by
  constructor
  · intro hp
    simpa using h.sound ts a [] hp
  · rintro ⟨hfit, rfl⟩
    simpa using h.complete a [] hfit hnil

variable [Sinks]

theorem token {f : τ → Option α} {print : α → τ} (h : ∀ t a, f t = some a ↔ Fit a ∧ t = print a)
    (Stop : List τ → Prop) : Prints (Parser.token f) (fun a => [print a]) Fit Stop where
  sound ts a rest hp := by
    cases ts with
    | nil =>
        rw [Sinks.token_nil] at hp
        cases hp
    | cons t ts =>
        rw [Sinks.token_cons] at hp
        obtain ⟨a', ha, heq⟩ := Option.map_eq_some_iff.mp hp
        obtain ⟨rfl, rfl⟩ := Prod.mk.inj heq
        obtain ⟨hfit, rfl⟩ := (h t a').mp ha
        exact ⟨hfit, rfl⟩
  complete a rest hfit _ := by
    have ha : f (print a) = some a := (h _ a).mpr ⟨hfit, rfl⟩
    simp [ha]

/-- A parser through a function that reaches all that is fit and keeps the printed form. -/
theorem map (h : Prints p print Fit Stop) {f : α → β}
    (hf : ∀ a, Fit a → Fit' (f a) ∧ print' (f a) = print a)
    (hreach : ∀ b, Fit' b → ∃ a, Fit a ∧ f a = b) :
    Prints (Parser.map f p) print' Fit' Stop where
  sound ts b rest hp := by
    rw [Sinks.map_apply] at hp
    obtain ⟨⟨a, us⟩, ha, heq⟩ := Option.map_eq_some_iff.mp hp
    obtain ⟨rfl, rfl⟩ := Prod.mk.inj heq
    obtain ⟨hfit, hts⟩ := h.sound ts a us ha
    exact ⟨(hf a hfit).1, by rw [(hf a hfit).2]; exact hts⟩
  complete b rest hfit hrest := by
    obtain ⟨a, ha, rfl⟩ := hreach b hfit
    rw [(hf a ha).2, Sinks.map_apply, h.complete a rest ha hrest]
    rfl

/-- A parser through a constructor. -/
theorem image (h : Prints p print Fit Stop) (f : α → β) (hprint : ∀ a, print' (f a) = print a) :
    Prints (Parser.map f p) print' (fun b => ∃ a, Fit a ∧ f a = b) Stop :=
  h.map (fun a ha => ⟨⟨a, ha, rfl⟩, hprint a⟩) fun _ hb => hb

/-- A rule with a value of its own. -/
theorem give {r : Rule τ} {us : List τ} {a : α} (hr : Literal r us) (hprint : print a = us)
    (Stop : List τ → Prop) : Prints (Parser.give r a) print (fun b => b = a) Stop where
  sound ts b rest hp := by
    rw [Sinks.give_apply] at hp
    obtain ⟨rest', hrest, heq⟩ := Option.map_eq_some_iff.mp hp
    obtain ⟨rfl, rfl⟩ := Prod.mk.inj heq
    exact ⟨rfl, hprint.symm ▸ (hr ts rest').mp hrest⟩
  complete b rest hfit _ := by
    rw [hfit, hprint, Sinks.give_apply, hr.apply]
    rfl

theorem seq (h : Prints p print Fit Stop) (h' : Prints q print' Fit' Stop')
    (hstop : ∀ b rest, Fit' b → Stop' rest → Stop (print' b ++ rest)) :
    Prints (Parser.seq p q) (fun x => print x.1 ++ print' x.2) (fun x => Fit x.1 ∧ Fit' x.2)
      Stop' where
  sound ts x rest hp := by
    rw [Sinks.seq_apply] at hp
    obtain ⟨⟨a, mid⟩, ha, hq⟩ := Option.bind_eq_some_iff.mp hp
    obtain ⟨⟨b, us⟩, hb, heq⟩ := Option.map_eq_some_iff.mp hq
    obtain ⟨rfl, rfl⟩ := Prod.mk.inj heq
    obtain ⟨hfit, hts⟩ := h.sound ts a mid ha
    obtain ⟨hfit', hmid⟩ := h'.sound mid b us hb
    refine ⟨⟨hfit, hfit'⟩, ?_⟩
    rw [hts, hmid, List.append_assoc]
    rfl
  complete x rest hfit hrest := by
    have hp := h.complete x.1 (print' x.2 ++ rest) hfit.1 (hstop x.2 rest hfit.2 hrest)
    have hq := h'.complete x.2 rest hfit.2 hrest
    rw [List.append_assoc]
    simp [hp, hq]

/-- A choice: of what the second parser prints, that is fit which the first one leaves alone. -/
theorem orElse {Fit₂ Fit₃ : α → Prop} {p₂ : Parser τ α} (h : Prints p print Fit Stop)
    (h₂ : Prints p₂ print Fit₂ Stop)
    (hleft : ∀ a rest, Fit₂ a → p (print a ++ rest) = none → Fit₃ a)
    (hnone : ∀ a rest, Fit₃ a → Stop rest → Fit₂ a ∧ p (print a ++ rest) = none) :
    Prints (Parser.orElse p p₂) print (fun a => Fit a ∨ Fit₃ a) Stop where
  sound ts a rest hp := by
    rw [Sinks.orElse_apply] at hp
    rcases Option.or_eq_some_iff.mp hp with hp | ⟨hfirst, hp⟩
    · obtain ⟨hfit, hts⟩ := h.sound ts a rest hp
      exact ⟨Or.inl hfit, hts⟩
    · obtain ⟨hfit, hts⟩ := h₂.sound ts a rest hp
      exact ⟨Or.inr (hleft a rest hfit (hts ▸ hfirst)), hts⟩
  complete a rest hfit hrest := by
    rcases hfit with hfit | hfit
    · simp [h.complete a rest hfit hrest]
    · obtain ⟨hfit₂, hfirst⟩ := hnone a rest hfit hrest
      simp [hfirst, h₂.complete a rest hfit₂ hrest]

/-- A choice whose first parser leaves alone all that the second one prints. -/
theorem orElse_of_none {Fit₂ : α → Prop} {p₂ : Parser τ α} (h : Prints p print Fit Stop)
    (h₂ : Prints p₂ print Fit₂ Stop)
    (hnone : ∀ a rest, Fit₂ a → Stop rest → p (print a ++ rest) = none) :
    Prints (Parser.orElse p p₂) print (fun a => Fit a ∨ Fit₂ a) Stop :=
  h.orElse h₂ (fun _ _ ha _ => ha) fun a rest ha hrest => ⟨ha, hnone a rest ha hrest⟩

/-- The tokens of a value that may be missing. -/
def printMay (print : α → List τ) : Option α → List τ
  | none => []
  | some a => print a

theorem may (h : Prints p print Fit Stop)
    (hstop : ∀ rest, Stop' rest → Stop rest ∧ p rest = none) :
    Prints (Parser.may p) (printMay print) (fun x => ∀ a, x = some a → Fit a) Stop' where
  sound ts x rest hp := by
    rw [Parser.may, Sinks.orElse_apply, Sinks.map_apply] at hp
    rcases Option.or_eq_some_iff.mp hp with hp | ⟨-, hp⟩
    · obtain ⟨⟨a, us⟩, ha, heq⟩ := Option.map_eq_some_iff.mp hp
      obtain ⟨rfl, rfl⟩ := Prod.mk.inj heq
      obtain ⟨hfit, hts⟩ := h.sound ts a us ha
      refine ⟨?_, hts⟩
      rintro b hb
      exact Option.some.inj hb ▸ hfit
    · obtain ⟨rfl, rfl⟩ := Prod.mk.inj (Option.some.inj hp)
      exact ⟨fun a ha => (nomatch ha), rfl⟩
  complete x rest hfit hrest := by
    obtain ⟨hstopped, hnone⟩ := hstop rest hrest
    cases x with
    | none => simp [Parser.may, printMay, hnone]
    | some a =>
        have ha := h.complete a rest (hfit a rfl) hstopped
        simp [Parser.may, printMay, ha]

theorem after {r : Rule τ} {us : List τ} (hr : Literal r us) (h : Prints p print Fit Stop) :
    Prints (Parser.after r p) (fun a => us ++ print a) Fit Stop where
  sound ts a rest hp := by
    rw [Sinks.after_apply] at hp
    obtain ⟨mid, hmid, ha⟩ := Option.bind_eq_some_iff.mp hp
    obtain ⟨hfit, hts⟩ := h.sound mid a rest ha
    refine ⟨hfit, ?_⟩
    rw [(hr ts mid).mp hmid, hts, List.append_assoc]
  complete a rest hfit hrest := by
    rw [List.append_assoc, Sinks.after_apply, hr.apply]
    exact h.complete a rest hfit hrest

theorem before {r : Rule τ} {us : List τ} (h : Prints p print Fit Stop) (hr : Literal r us)
    (hstop : ∀ rest, Stop (us ++ rest)) (Stop' : List τ → Prop) :
    Prints (Parser.before p r) (fun a => print a ++ us) Fit Stop' where
  sound ts a rest hp := by
    rw [Sinks.before_apply] at hp
    obtain ⟨⟨a', mid⟩, ha, hq⟩ := Option.bind_eq_some_iff.mp hp
    obtain ⟨rest', hrest, heq⟩ := Option.map_eq_some_iff.mp hq
    obtain ⟨rfl, rfl⟩ := Prod.mk.inj heq
    obtain ⟨hfit, hts⟩ := h.sound ts a' mid ha
    refine ⟨hfit, ?_⟩
    rw [hts, (hr mid rest').mp hrest, List.append_assoc]
  complete a rest hfit _ := by
    have ha := h.complete a (us ++ rest) hfit (hstop rest)
    rw [List.append_assoc]
    simp [ha, hr.apply rest]

theorem enclosed {opening closing : Rule τ} {us us' : List τ} (h : Prints p print Fit Stop)
    (hopening : Literal opening us) (hclosing : Literal closing us')
    (hstop : ∀ rest, Stop (us' ++ rest)) (Stop' : List τ → Prop) :
    Prints (Parser.enclosed opening closing p) (fun a => us ++ (print a ++ us')) Fit Stop' :=
  after hopening (h.before hclosing hstop Stop')

/-- A list of values that are printed one after the other, up to where the parser fails. -/
theorem many (h : Prints p print Fit Stop) (hne : ∀ a, Fit a → print a ≠ [])
    (hnext : ∀ a rest, Fit a → Stop (print a ++ rest))
    (hend : ∀ rest, Stop' rest → Stop rest ∧ p rest = none) :
    Prints (Parser.many p) (fun as => as.flatMap print) (fun as => ∀ a ∈ as, Fit a) Stop' where
  sound ts as rest hp := by
    induction hn : ts.length using Nat.strongRecOn generalizing ts as with
    | ind n ih =>
        rcases hfirst : p ts with _ | ⟨a, mid⟩
        · rw [Sinks.many_of_none hfirst] at hp
          obtain ⟨rfl, rfl⟩ := Prod.mk.inj (Option.some.inj hp)
          exact ⟨fun a ha => (nomatch ha), rfl⟩
        · have hlt := h.consumes hne ts mid (Parser.recognise_of_some hfirst)
          obtain ⟨hfit, hts⟩ := h.sound ts a mid hfirst
          rw [Sinks.many_of_some (h.consumes hne) hfirst] at hp
          obtain ⟨⟨as', rest'⟩, hmany, heq⟩ := Option.map_eq_some_iff.mp hp
          obtain ⟨rfl, rfl⟩ := Prod.mk.inj heq
          obtain ⟨hall, hmid⟩ := ih mid.length (by omega) mid as' hmany rfl
          refine ⟨List.forall_mem_cons.mpr ⟨hfit, hall⟩, ?_⟩
          rw [hts, hmid, List.flatMap_cons, List.append_assoc]
  complete as rest hfit hrest := by
    obtain ⟨hstop, hnone⟩ := hend rest hrest
    induction as with
    | nil => exact Sinks.many_of_none hnone
    | cons a as ih =>
        obtain ⟨ha, has⟩ := List.forall_mem_cons.mp hfit
        have hstopped : Stop (as.flatMap print ++ rest) := by
          cases as with
          | nil => exact hstop
          | cons a' as =>
              rw [List.flatMap_cons, List.append_assoc]
              exact hnext a' _ (has a' List.mem_cons_self)
        rw [List.flatMap_cons, List.append_assoc,
          Sinks.many_of_some (h.consumes hne) (h.complete a _ ha hstopped), ih has]
        rfl

end Prints

end Grammar
