import Fabko.Text.Grammar

set_option autoImplicit false

/-! # The expression grammar

The rules of `fabl_grammar.hh` for the assignments of a capability, over tokens; what they build is
left out. The rule of an expression is a flat list of operands and operators. `Items` is what that
list takes, `Phrase` what an expression is, and the two agree where operands and operators
alternate. -/

namespace Fabko.Fabl

open Grammar

/-! ## Tokens -/

/-- `word` is what `match_identifier` takes, `true` and `false` included; a `symbol` is any other
single character. No rule looks at what a number is, so that can be of any type. -/
inductive Token (ν : Type) where
  | number (n : ν)
  | word (w : String)
  | point
  | lparen
  | rparen
  | symbol (c : Char)
deriving DecidableEq, Repr

variable {ν : Type}

namespace Token

def isNumber : Token ν → Bool
  | number _ => true
  | _ => false

def isWord : Token ν → Bool
  | word _ => true
  | _ => false

/-- The token, with another number. -/
def map {ν' : Type} (f : ν → ν') : Token ν → Token ν'
  | number n => number (f n)
  | word w => word w
  | point => point
  | lparen => lparen
  | rparen => rparen
  | symbol c => symbol c

end Token

section Rules

variable [Rules] [DecidableEq ν]

def matchNumber : Rule (Token ν) := matchToken Token.isNumber

def matchIdentifier : Rule (Token ν) := matchToken Token.isWord

/-- `match_string`, on the token that has the text. -/
def matchString (t : Token ν) : Rule (Token ν) := matchToken (fun t' => decide (t' = t))

def matchPoint : Rule (Token ν) := matchString .point

def semicol : Rule (Token ν) := matchString (.symbol ';')

/-! ## The rules -/

def boolLiteralGrammar : Rule (Token ν) := orRule (matchString (.word "true")) (matchString (.word "false"))

def memberAccessorGrammar : Rule (Token ν) :=
  seqRule matchIdentifier (may (seqRule matchPoint matchIdentifier))

def strictMemberAccessorGrammar : Rule (Token ν) :=
  seqRule matchIdentifier (seqRule matchPoint matchIdentifier)

def level2Grammar : Rule (Token ν) := orRule (matchString (.symbol '*')) (matchString (.symbol '/'))

def level1Grammar : Rule (Token ν) := orRule (matchString (.symbol '+')) (matchString (.symbol '-'))

/-- The operands, given the rule of the expressions in parentheses. -/
def baseGrammar (expression : Rule (Token ν)) : Rule (Token ν) :=
  orRule matchNumber
    (orRule boolLiteralGrammar
      (orRule strictMemberAccessorGrammar
        (orRule matchIdentifier
          (parenthesised (matchString .lparen) (matchString .rparen) expression))))

/-- The choice that the list of `expression_grammar` repeats. -/
def itemRule (expression : Rule (Token ν)) : Rule (Token ν) :=
  orRule (baseGrammar expression) (orRule level1Grammar level2Grammar)

/-- The expressions with parentheses nested less than `depth` times. -/
def expressionAt : Nat → Rule (Token ν)
  | 0 => fun _ => none
  | depth + 1 => listRule (itemRule (expressionAt depth))

/-- The nesting is bounded by the number of tokens. -/
def expressionGrammar : Rule (Token ν) := fun ts => expressionAt (ts.length + 1) ts

def assignmentStatement : Rule (Token ν) :=
  seqRule memberAccessorGrammar
    (seqRule (matchString (.symbol '=')) (seqRule expressionGrammar semicol))

/-- The rules take the whole of `ts`, up to the semicolon behind it. -/
def Accepts (ts : List (Token ν)) : Prop :=
  expressionGrammar (ts ++ [.symbol ';']) = some [.symbol ';']

instance (ts : List (Token ν)) : Decidable (Accepts ts) :=
  inferInstanceAs (Decidable (_ = some _))

/-! ## What the rules take -/

@[simp] theorem matchString_cons (t t' : Token ν) (ts : List (Token ν)) :
    matchString t (t' :: ts) = if t' = t then some ts else none := by
  simp [matchString]

theorem matchString_eq_some_iff {t : Token ν} {ts rest : List (Token ν)} :
    matchString t ts = some rest ↔ ts = t :: rest := by
  rw [matchString, matchToken_eq_some_iff]
  constructor
  · rintro ⟨t', ht', rfl⟩
    rw [of_decide_eq_true ht']
  · rintro rfl
    exact ⟨t, decide_eq_true rfl, rfl⟩

omit [DecidableEq ν] in
theorem matchNumber_eq_some_iff {ts rest : List (Token ν)} :
    matchNumber ts = some rest ↔ ∃ n, ts = .number n :: rest := by
  rw [matchNumber, matchToken_eq_some_iff]
  constructor
  · rintro ⟨t, ht, rfl⟩
    cases t with
    | number n => exact ⟨n, rfl⟩
    | _ => cases ht
  · rintro ⟨n, rfl⟩
    exact ⟨.number n, rfl, rfl⟩

omit [DecidableEq ν] in
theorem matchIdentifier_eq_some_iff {ts rest : List (Token ν)} :
    matchIdentifier ts = some rest ↔ ∃ w, ts = .word w :: rest := by
  rw [matchIdentifier, matchToken_eq_some_iff]
  constructor
  · rintro ⟨t, ht, rfl⟩
    cases t with
    | word w => exact ⟨w, rfl⟩
    | _ => cases ht
  · rintro ⟨w, rfl⟩
    exact ⟨.word w, rfl, rfl⟩

theorem strictMemberAccessorGrammar_eq_some_iff {ts rest : List (Token ν)} :
    strictMemberAccessorGrammar ts = some rest ↔
      ∃ a b, ts = .word a :: .point :: .word b :: rest := by
  unfold strictMemberAccessorGrammar matchPoint
  simp only [seqRule_eq_some_iff, matchIdentifier_eq_some_iff, matchString_eq_some_iff]
  constructor
  · rintro ⟨_, ⟨a, rfl⟩, _, rfl, b, rfl⟩
    exact ⟨a, b, rfl⟩
  · rintro ⟨a, b, rfl⟩
    exact ⟨_, ⟨a, rfl⟩, _, rfl, b, rfl⟩

def IsBoolLiteral (w : String) : Prop := w = "true" ∨ w = "false"

def IsOperator (c : Char) : Prop := c = '+' ∨ c = '-' ∨ c = '*' ∨ c = '/'

theorem boolLiteralGrammar_eq_none_iff {w : String} {ts : List (Token ν)} :
    boolLiteralGrammar (.word w :: ts) = none ↔ ¬ IsBoolLiteral w := by
  unfold boolLiteralGrammar IsBoolLiteral matchString
  by_cases ht : w = "true" <;> by_cases hf : w = "false" <;> simp [ht, hf]

/-- What the rule of a list takes from the front. -/
inductive Takes (expression : Rule (Token ν)) : List (Token ν) → List (Token ν) → Prop
  | number (n : ν) (rest : List (Token ν)) : Takes expression (.number n :: rest) rest
  | word (w : String) (rest : List (Token ν)) : Takes expression (.word w :: rest) rest
  | member {a : String} (b : String) (ha : ¬ IsBoolLiteral a) (rest : List (Token ν)) :
      Takes expression (.word a :: .point :: .word b :: rest) rest
  | parentheses {ts rest : List (Token ν)} (h : expression ts = some (.rparen :: rest)) :
      Takes expression (.lparen :: ts) rest
  | operator {c : Char} (hc : IsOperator c) (rest : List (Token ν)) :
      Takes expression (.symbol c :: rest) rest

section Item

variable {expression : Rule (Token ν)} {ts rest : List (Token ν)}

omit [DecidableEq ν] in
theorem matchNumber_of_ne {t : Token ν} (h : t.isNumber = false) (rest : List (Token ν)) :
    matchNumber (t :: rest) = none := matchToken_of_neg h rest

theorem takes_of_itemRule (h : itemRule expression ts = some rest) : Takes expression ts rest := by
  rcases orRule_eq_some_iff.mp h with h | ⟨-, h⟩
  · rcases orRule_eq_some_iff.mp h with hnumber | ⟨-, h⟩
    · obtain ⟨n, rfl⟩ := matchNumber_eq_some_iff.mp hnumber
      exact .number n rest
    rcases orRule_eq_some_iff.mp h with hbool | ⟨hbool, h⟩
    · rcases orRule_eq_some_iff.mp hbool with hword | ⟨-, hword⟩
      · rw [matchString_eq_some_iff.mp hword]
        exact .word _ rest
      · rw [matchString_eq_some_iff.mp hword]
        exact .word _ rest
    rcases orRule_eq_some_iff.mp h with hmember | ⟨-, h⟩
    · obtain ⟨a, b, rfl⟩ := strictMemberAccessorGrammar_eq_some_iff.mp hmember
      exact .member b (boolLiteralGrammar_eq_none_iff.mp hbool) rest
    rcases orRule_eq_some_iff.mp h with hword | ⟨-, h⟩
    · obtain ⟨w, rfl⟩ := matchIdentifier_eq_some_iff.mp hword
      exact .word w rest
    · obtain ⟨us, hopen, h⟩ := seqRule_eq_some_iff.mp h
      obtain ⟨mid, hexpr, hclose⟩ := seqRule_eq_some_iff.mp h
      rw [matchString_eq_some_iff.mp hopen]
      rw [matchString_eq_some_iff.mp hclose] at hexpr
      exact .parentheses hexpr
  · rcases orRule_eq_some_iff.mp h with h | ⟨-, h⟩
    · rcases orRule_eq_some_iff.mp h with h | ⟨-, h⟩
      · rw [matchString_eq_some_iff.mp h]
        exact .operator (Or.inl rfl) rest
      · rw [matchString_eq_some_iff.mp h]
        exact .operator (Or.inr (Or.inl rfl)) rest
    · rcases orRule_eq_some_iff.mp h with h | ⟨-, h⟩
      · rw [matchString_eq_some_iff.mp h]
        exact .operator (Or.inr (Or.inr (Or.inl rfl))) rest
      · rw [matchString_eq_some_iff.mp h]
        exact .operator (Or.inr (Or.inr (Or.inr rfl))) rest

/-- The choice, on an operand: the operators are not tried. -/
theorem itemRule_of_base (h : baseGrammar expression ts = some rest) :
    itemRule expression ts = some rest := orRule_of_some h

theorem itemRule_number (n : ν) (rest : List (Token ν)) :
    itemRule expression (.number n :: rest) = some rest :=
  itemRule_of_base (orRule_of_some (matchNumber_eq_some_iff.mpr ⟨n, rfl⟩))

/-- A word without a point behind it. -/
theorem itemRule_word (w : String) (hrest : rest.head? ≠ some .point) :
    itemRule expression (.word w :: rest) = some rest := by
  apply itemRule_of_base
  unfold baseGrammar
  rw [orRule_of_none (matchNumber_of_ne rfl _)]
  rcases hbool : boolLiteralGrammar (.word w :: rest) with _ | mid
  · have hmember : strictMemberAccessorGrammar (.word w :: rest) = none := by
      rcases hmember : strictMemberAccessorGrammar (.word w :: rest) with _ | mid
      · rfl
      · obtain ⟨a, b, heq⟩ := strictMemberAccessorGrammar_eq_some_iff.mp hmember
        cases heq
        exact absurd rfl hrest
    rw [orRule_of_none hbool, orRule_of_none hmember]
    exact orRule_of_some (matchIdentifier_eq_some_iff.mpr ⟨w, rfl⟩)
  · rw [orRule_of_some hbool]
    rcases orRule_eq_some_iff.mp hbool with h | ⟨-, h⟩
    · cases matchString_eq_some_iff.mp h
      rfl
    · cases matchString_eq_some_iff.mp h
      rfl

theorem itemRule_member {a : String} (b : String) (ha : ¬ IsBoolLiteral a) (rest : List (Token ν)) :
    itemRule expression (.word a :: .point :: .word b :: rest) = some rest := by
  apply itemRule_of_base
  unfold baseGrammar
  rw [orRule_of_none (matchNumber_of_ne rfl _),
    orRule_of_none (boolLiteralGrammar_eq_none_iff.mpr ha)]
  exact orRule_of_some (strictMemberAccessorGrammar_eq_some_iff.mpr ⟨a, b, rfl⟩)

theorem itemRule_parentheses (h : expression ts = some (.rparen :: rest)) :
    itemRule expression (.lparen :: ts) = some rest := by
  apply itemRule_of_base
  simp [baseGrammar, parenthesised, boolLiteralGrammar, strictMemberAccessorGrammar, matchNumber,
    matchIdentifier, matchString, Token.isNumber, Token.isWord, h]

/-- No operand starts with a symbol. -/
theorem baseGrammar_symbol (c : Char) (rest : List (Token ν)) :
    baseGrammar expression (.symbol c :: rest) = none := by
  simp [baseGrammar, parenthesised, boolLiteralGrammar, strictMemberAccessorGrammar, matchNumber,
    matchIdentifier, matchString, Token.isNumber, Token.isWord]

theorem itemRule_operator {c : Char} (hc : IsOperator c) (rest : List (Token ν)) :
    itemRule expression (.symbol c :: rest) = some rest := by
  have hbase : baseGrammar expression (.symbol c :: rest) = none := baseGrammar_symbol c rest
  unfold itemRule
  rw [orRule_of_none hbase]
  rcases hc with rfl | rfl | rfl | rfl <;> simp [level1Grammar, level2Grammar, matchString]

/-- Nothing that is taken starts with a token that ends a list. -/
theorem itemRule_of_end {t : Token ν} (ht : t = .rparen ∨ t = .symbol ';') :
    itemRule expression (t :: rest) = none := by
  rcases ht with rfl | rfl
  · simp [itemRule, baseGrammar, parenthesised, boolLiteralGrammar, strictMemberAccessorGrammar,
      matchNumber, matchIdentifier, matchString, Token.isNumber, Token.isWord, level1Grammar,
      level2Grammar]
  · rw [itemRule, orRule_of_none (baseGrammar_symbol ';' rest)]
    simp [level1Grammar, level2Grammar, matchString]

end Item

/-! ## The depth is enough -/

omit [Rules] [DecidableEq ν] in
theorem Takes.length_lt {expression : Rule (Token ν)} {ts rest : List (Token ν)} (he : Shortens expression)
    (h : Takes expression ts rest) : rest.length < ts.length := by
  cases h with
  | number n => exact Nat.lt_succ_self _
  | word w => exact Nat.lt_succ_self _
  | member b ha =>
      simp only [List.length_cons]
      omega
  | parentheses h =>
      have hle := he _ _ h
      simp only [List.length_cons] at hle ⊢
      omega
  | operator hc => exact Nat.lt_succ_self _

theorem consumes_itemRule {expression : Rule (Token ν)} (he : Shortens expression) :
    Consumes (itemRule expression) :=
  fun _ _ h => (takes_of_itemRule h).length_lt he

theorem shortens_expressionAt (depth : Nat) : Shortens (expressionAt (ν := ν) depth) := by
  induction depth with
  | zero =>
      intro ts rest h
      cases h
  | succ depth ih => exact shortens_listRule (consumes_itemRule ih)

theorem consumes_itemRule_expressionAt (depth : Nat) : Consumes (itemRule (expressionAt (ν := ν) depth)) :=
  consumes_itemRule (shortens_expressionAt depth)

theorem itemRule_congr {expression expression' : Rule (Token ν)} {ts : List (Token ν)}
    (h : ∀ us : List (Token ν), us.length < ts.length → expression us = expression' us) :
    itemRule expression ts = itemRule expression' ts := by
  have hparen : parenthesised (matchString .lparen) (matchString .rparen) expression ts
      = parenthesised (matchString .lparen) (matchString .rparen) expression' ts := by
    unfold parenthesised
    rcases hopen : matchString .lparen ts with _ | us
    · rw [seqRule_of_none hopen, seqRule_of_none hopen]
    · have hlt : us.length < ts.length := by
        rw [matchString_eq_some_iff.mp hopen]
        exact Nat.lt_succ_self _
      rw [seqRule_of_some hopen, seqRule_of_some hopen, seqRule_apply, seqRule_apply, h us hlt]
  simp only [itemRule, baseGrammar, orRule_apply, hparen]

/-- More depth than tokens changes nothing. -/
theorem expressionAt_eq {depth depth' : Nat} {ts : List (Token ν)} (h : ts.length < depth)
    (h' : ts.length < depth') : expressionAt depth ts = expressionAt depth' ts := by
  induction depth generalizing depth' ts with
  | zero => omega
  | succ depth ih =>
      obtain ⟨depth', rfl⟩ : ∃ k, depth' = k + 1 := ⟨depth' - 1, by omega⟩
      refine listRule_congr (consumes_itemRule_expressionAt depth)
        (consumes_itemRule_expressionAt depth') (fun us hus => ?_)
      exact itemRule_congr (fun vs hvs => ih (by omega) (by omega))

/-! ## What a list takes -/

/-- Operands and operators in any order, in the way the rules group the tokens. -/
inductive Items : List (Token ν) → Prop
  | nil : Items []
  | number (n : ν) {ts : List (Token ν)} (h : Items ts) : Items (.number n :: ts)
  | word (w : String) {ts : List (Token ν)} (h : Items ts) : Items (.word w :: ts)
  | member {a : String} (b : String) (ha : ¬ IsBoolLiteral a) {ts : List (Token ν)} (h : Items ts) :
      Items (.word a :: .point :: .word b :: ts)
  | parentheses {ts us : List (Token ν)} (h : Items ts) (h' : Items us) :
      Items (.lparen :: (ts ++ .rparen :: us))
  | operator {c : Char} (hc : IsOperator c) {ts : List (Token ν)} (h : Items ts) :
      Items (.symbol c :: ts)

theorem items_of_expressionAt {depth : Nat} {ts rest : List (Token ν)}
    (h : expressionAt depth ts = some rest) : ∃ us, ts = us ++ rest ∧ Items us := by
  induction depth generalizing ts rest with
  | zero => cases h
  | succ depth ih =>
      refine listRule_induct (consumes_itemRule_expressionAt depth)
        (motive := fun ts rest => ∃ us, ts = us ++ rest ∧ Items us)
        (fun ts _ => ⟨[], rfl, .nil⟩) (fun ts mid rest hitem hmid => ?_) h
      obtain ⟨us, rfl, hus⟩ := hmid
      cases takes_of_itemRule hitem with
      | number n => exact ⟨_, rfl, .number n hus⟩
      | word w => exact ⟨_, rfl, .word w hus⟩
      | member b ha => exact ⟨_, rfl, .member b ha hus⟩
      | operator hc => exact ⟨_, rfl, .operator hc hus⟩
      | parentheses hinner =>
          obtain ⟨vs, rfl, hvs⟩ := ih hinner
          refine ⟨.lparen :: (vs ++ .rparen :: us), ?_, .parentheses hvs hus⟩
          simp

omit [Rules] [DecidableEq ν] in
/-- No item starts with a point. -/
theorem Items.head_ne_point {ts rest : List (Token ν)} {t : Token ν} (h : Items ts) (ht : t ≠ .point) :
    (ts ++ t :: rest).head? ≠ some .point := by
  cases h with
  | nil => simpa using ht
  | number n h => simp
  | word w h => simp
  | member b ha h => simp
  | parentheses h h' => simp
  | operator hc h => simp

theorem expressionAt_of_item {depth : Nat} {ts mid : List (Token ν)}
    (h : itemRule (expressionAt depth) ts = some mid) :
    expressionAt (depth + 1) ts = expressionAt (depth + 1) mid :=
  listRule_of_some (consumes_itemRule_expressionAt depth) h

/-- A list takes all items up to a token that ends it. -/
theorem Items.expressionAt {ts : List (Token ν)} (h : Items ts) {depth : Nat} {rest : List (Token ν)}
    {t : Token ν} (ht : t = .rparen ∨ t = .symbol ';') (hdepth : ts.length ≤ depth) :
    expressionAt (depth + 1) (ts ++ t :: rest) = some (t :: rest) := by
  induction h generalizing depth rest t with
  | nil => exact listRule_of_none (itemRule_of_end ht)
  | @number n ts h ih =>
      rw [List.length_cons] at hdepth
      rw [List.cons_append, expressionAt_of_item (itemRule_number n _)]
      exact ih ht (by omega)
  | @word w ts h ih =>
      have hpoint : t ≠ .point := by
        rcases ht with rfl | rfl <;> simp
      rw [List.length_cons] at hdepth
      rw [List.cons_append, expressionAt_of_item (itemRule_word w (h.head_ne_point hpoint))]
      exact ih ht (by omega)
  | @member a b ha ts h ih =>
      simp only [List.length_cons] at hdepth
      rw [List.cons_append, List.cons_append, List.cons_append,
        expressionAt_of_item (itemRule_member b ha _)]
      exact ih ht (by omega)
  | @operator c hc ts h ih =>
      rw [List.length_cons] at hdepth
      rw [List.cons_append, expressionAt_of_item (itemRule_operator hc _)]
      exact ih ht (by omega)
  | @parentheses ts us h h' ih ih' =>
      simp only [List.length_cons, List.length_append] at hdepth
      obtain ⟨depth, rfl⟩ : ∃ k, depth = k + 1 := ⟨depth - 1, by omega⟩
      -- one level deeper for what is inside
      have hinner : Fabl.expressionAt (depth + 1) (ts ++ .rparen :: (us ++ t :: rest))
          = some (.rparen :: (us ++ t :: rest)) := ih (Or.inl rfl) (by omega)
      rw [List.cons_append, List.append_assoc, List.cons_append,
        expressionAt_of_item (itemRule_parentheses hinner)]
      exact ih' ht (by omega)

/-- **What is accepted**: a flat sequence of operands and operators. -/
theorem accepts_iff {ts : List (Token ν)} : Accepts ts ↔ Items ts := by
  constructor
  · intro h
    obtain ⟨us, heq, hus⟩ := items_of_expressionAt h
    rw [(List.append_inj' heq rfl).1]
    exact hus
  · intro h
    exact h.expressionAt (Or.inr rfl) (by rw [List.length_append]; omega)

/-- The whole of an assignment to a member is taken exactly when its right side is. -/
theorem assignmentStatement_iff {a b : String} {ts : List (Token ν)} :
    assignmentStatement (.word a :: .point :: .word b :: .symbol '=' :: (ts ++ [.symbol ';'])) = some []
      ↔ Accepts ts := by
  have haccessor : memberAccessorGrammar
      (.word a :: .point :: .word b :: .symbol '=' :: (ts ++ [.symbol ';']))
      = some (.symbol '=' :: (ts ++ [.symbol ';'])) := by
    simp [memberAccessorGrammar, may, matchIdentifier, matchPoint, matchString, Token.isWord]
  have hequal : matchString (.symbol '=') (.symbol '=' :: (ts ++ [.symbol ';']))
      = some (ts ++ [.symbol ';']) := matchString_eq_some_iff.mpr rfl
  unfold assignmentStatement
  rw [seqRule_of_some haccessor, seqRule_of_some hequal, seqRule_eq_some_iff]
  constructor
  · rintro ⟨mid, hmid, hsemicol⟩
    rw [matchString_eq_some_iff.mp hsemicol] at hmid
    exact hmid
  · intro h
    exact ⟨_, h, matchString_eq_some_iff.mpr rfl⟩

end Rules

/-! ## Infix expressions -/

inductive PhraseKind where
  | operand
  | pairs
  | expression
deriving DecidableEq, Repr

/-- An expression is an operand and any number of pairs of an operator and an operand behind it. -/
inductive Phrase : PhraseKind → List (Token ν) → Prop
  | number (n : ν) : Phrase .operand [.number n]
  | literalBool {w : String} (hw : IsBoolLiteral w) : Phrase .operand [.word w]
  | member (actor access : String) : Phrase .operand [.word actor, .point, .word access]
  | identifier (w : String) : Phrase .operand [.word w]
  | parenthesised {ts : List (Token ν)} (h : Phrase .expression ts) :
      Phrase .operand (.lparen :: (ts ++ [.rparen]))
  | done : Phrase .pairs []
  | pair {c : Char} {ts us : List (Token ν)} (hc : IsOperator c) (h : Phrase .operand ts)
      (h' : Phrase .pairs us) : Phrase .pairs (.symbol c :: (ts ++ us))
  | expression {ts us : List (Token ν)} (h : Phrase .operand ts) (h' : Phrase .pairs us) :
      Phrase .expression (ts ++ us)

abbrev Infix (ts : List (Token ν)) : Prop := Phrase .expression ts

/-! ## Alternation -/

/-- Tokens behind which an operand comes; `none` is the start of the sequence. -/
def ExpectsOperand : Option (Token ν) → Prop
  | none => True
  | some .lparen => True
  | some (.symbol c) => IsOperator c
  | _ => False

/-- Tokens an operand ends with. -/
def EndsOperand : Option (Token ν) → Prop
  | some (.number _) => True
  | some (.word _) => True
  | some .rparen => True
  | _ => False

/-- Tokens an operand starts with. -/
def StartsOperand : Option (Token ν) → Prop
  | some (.number _) => True
  | some (.word _) => True
  | some .lparen => True
  | _ => False

/-- Tokens that come behind an operand; `none` is the end of the sequence. -/
def FollowsOperand : Option (Token ν) → Prop
  | none => True
  | some .rparen => True
  | some (.symbol c) => IsOperator c
  | _ => False

/-- Two neighbours out of turn: two operators, two operands, or an operator at an edge. -/
def Clash (l r : Option (Token ν)) : Prop :=
  ExpectsOperand l ∧ FollowsOperand r ∨ EndsOperand l ∧ StartsOperand r

/-- No two neighbours are out of turn, from `l` through `ts` to `r`. -/
def Alternates (l : Option (Token ν)) : List (Token ν) → Option (Token ν) → Prop
  | [], r => ¬ Clash l r
  | t :: ts, r => ¬ Clash l (some t) ∧ Alternates (some t) ts r

theorem alternates_append {l r : Option (Token ν)} {ts us : List (Token ν)} {t : Token ν} :
    Alternates l (ts ++ t :: us) r ↔ Alternates l ts (some t) ∧ Alternates (some t) us r := by
  induction ts generalizing l with
  | nil => exact Iff.rfl
  | cons t' ts ih =>
      rw [List.cons_append, Alternates, Alternates, ih, and_assoc]

theorem not_clash_of_starts {l r : Option (Token ν)} (hl : ExpectsOperand l) (hr : StartsOperand r) :
    ¬ Clash l r := by
  rintro (⟨-, hfollows⟩ | ⟨hends, -⟩)
  · cases r with
    | none => cases hr
    | some t => cases t <;> first | exact hr | exact hfollows
  · cases l with
    | none => cases hends
    | some t => cases t <;> first | exact hl | exact hends

theorem not_clash_of_follows {l r : Option (Token ν)} (hl : EndsOperand l) (hr : FollowsOperand r) :
    ¬ Clash l r := by
  rintro (⟨hexpects, -⟩ | ⟨-, hstarts⟩)
  · cases l with
    | none => cases hl
    | some t => cases t <;> first | exact hl | exact hexpects
  · cases r with
    | none => cases hstarts
    | some t => cases t <;> first | exact hr | exact hstarts

/-- What a phrase looks like from outside. -/
def Fits : PhraseKind → List (Token ν) → Prop
  | .pairs, ts => ts = [] ∨ ∃ c us, ts = .symbol c :: us ∧ IsOperator c ∧
      ∀ r, FollowsOperand r → Alternates (some (.symbol c)) us r
  | _, ts => ∀ l r, ExpectsOperand l → FollowsOperand r → Alternates l ts r

theorem fits_append {ts us : List (Token ν)} (h : Fits .operand ts) (h' : Fits .pairs us) :
    Fits .expression (ts ++ us) := by
  intro l r hl hr
  rcases h' with rfl | ⟨c, us, rfl, hc, hus⟩
  · rw [List.append_nil]
    exact h l r hl hr
  · exact alternates_append.mpr ⟨h l _ hl hc, hus r hr⟩

theorem Phrase.fits {kind : PhraseKind} {ts : List (Token ν)} (h : Phrase kind ts) : Fits kind ts := by
  induction h with
  | number n =>
      exact fun l r hl hr => ⟨not_clash_of_starts hl trivial, not_clash_of_follows trivial hr⟩
  | literalBool hw =>
      exact fun l r hl hr => ⟨not_clash_of_starts hl trivial, not_clash_of_follows trivial hr⟩
  | member actor access =>
      refine fun l r hl hr => ⟨not_clash_of_starts hl trivial, ?_, ?_,
        not_clash_of_follows trivial hr⟩
      · rintro (⟨hexpects, -⟩ | ⟨-, hstarts⟩)
        · exact hexpects
        · exact hstarts
      · rintro (⟨hexpects, -⟩ | ⟨hends, -⟩)
        · exact hexpects
        · exact hends
  | identifier w =>
      exact fun l r hl hr => ⟨not_clash_of_starts hl trivial, not_clash_of_follows trivial hr⟩
  | parenthesised h ih =>
      intro l r hl hr
      refine ⟨not_clash_of_starts hl trivial, alternates_append.mpr ⟨?_, ?_⟩⟩
      · exact ih (some .lparen) (some .rparen) trivial trivial
      · exact not_clash_of_follows trivial hr
  | done => exact Or.inl rfl
  | pair hc h h' ih ih' =>
      exact Or.inr ⟨_, _, rfl, hc, fun r hr => fits_append ih ih' _ r hc hr⟩
  | expression h h' ih ih' => exact fits_append ih ih'

/-- Items that alternate are an expression where an operand is due, and pairs behind one. -/
theorem Items.phrase {ts : List (Token ν)} (h : Items ts) {l r : Option (Token ν)}
    (hr : r = none ∨ r = some .rparen) (halt : Alternates l ts r) :
    (ExpectsOperand l → Phrase .expression ts) ∧ (EndsOperand l → Phrase .pairs ts) := by
  induction h generalizing l r with
  | nil =>
      have hfollows : FollowsOperand r := by
        rcases hr with rfl | rfl <;> trivial
      exact ⟨fun hl => absurd (Or.inl ⟨hl, hfollows⟩) halt, fun _ => .done⟩
  | number n h ih =>
      obtain ⟨hclash, hrest⟩ := halt
      have hpairs := (ih hr hrest).2 trivial
      exact ⟨fun _ => .expression (.number n) hpairs,
        fun hl => absurd (Or.inr ⟨hl, trivial⟩) hclash⟩
  | word w h ih =>
      obtain ⟨hclash, hrest⟩ := halt
      have hpairs := (ih hr hrest).2 trivial
      exact ⟨fun _ => .expression (.identifier w) hpairs,
        fun hl => absurd (Or.inr ⟨hl, trivial⟩) hclash⟩
  | @member a b ha ts h ih =>
      obtain ⟨hclash, -, -, hrest⟩ := halt
      have hpairs := (ih hr hrest).2 trivial
      exact ⟨fun _ => .expression (.member a b) hpairs,
        fun hl => absurd (Or.inr ⟨hl, trivial⟩) hclash⟩
  | parentheses h h' ih ih' =>
      obtain ⟨hclash, hrest⟩ := halt
      obtain ⟨hinner, houter⟩ := alternates_append.mp hrest
      have hexpr := (ih (Or.inr rfl) hinner).1 trivial
      have hpairs := (ih' hr houter).2 trivial
      refine ⟨fun _ => ?_, fun hl => absurd (Or.inr ⟨hl, trivial⟩) hclash⟩
      have hphrase := Phrase.expression (.parenthesised hexpr) hpairs
      rw [List.cons_append, List.append_assoc] at hphrase
      exact hphrase
  | @operator c hc ts h ih =>
      obtain ⟨hclash, hrest⟩ := halt
      refine ⟨fun hl => absurd (Or.inl ⟨hl, hc⟩) hclash, fun _ => ?_⟩
      -- the operand and the pairs behind the operator
      cases (ih hr hrest).1 hc with
      | expression hx hp => exact .pair hc hx hp

theorem infix_iff_alternates {ts : List (Token ν)} (h : Items ts) :
    Infix ts ↔ Alternates none ts none :=
  ⟨fun hinfix => hinfix.fits none none trivial trivial,
    fun halt => (h.phrase (Or.inl rfl) halt).1 trivial⟩

/-- **The grammar accepts only an expression** for a sequence exactly when the sequence is no
series of operands and operators, or no two of its neighbours are out of turn. -/
theorem accepts_only_infix_iff [Rules] [DecidableEq ν] (ts : List (Token ν)) :
    (Accepts ts → Infix ts) ↔ (Items ts → Alternates none ts none) := by
  rw [accepts_iff]
  constructor
  · intro h hitems
    exact (infix_iff_alternates hitems).mp (h hitems)
  · intro h hitems
    exact (infix_iff_alternates hitems).mpr (h hitems)

section Plain

attribute [local instance] plainRules

example : Accepts (ν := Nat) [] ∧ Accepts (ν := Nat) [.symbol '+', .symbol '-'] := by decide

/-- Two identifiers in a row are accepted. -/
theorem accepts_two_identifiers : ∃ ts : List (Token Nat), Accepts ts ∧ ¬ Infix ts := by
  have hitems : Items (ν := Nat) [.word "a", .word "b"] := .word "a" (.word "b" .nil)
  refine ⟨[.word "a", .word "b"], by decide, fun h => ?_⟩
  obtain ⟨-, hclash, -⟩ := (infix_iff_alternates hitems).mp h
  exact hclash (Or.inr ⟨trivial, trivial⟩)

end Plain

end Fabko.Fabl
