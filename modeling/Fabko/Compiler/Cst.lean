import Fabko.Compiler.Expression
import Fabko.Text.Parser

set_option autoImplicit false

/-! # What an expression is parsed to

The leaves and operands that the rules of `expression_grammar` hand on, in the order of the text;
the tree that is grown from them is left out. Printing them gives the tokens back, so the list
parser and the printer are each other's inverse. -/

namespace Fabko.Fabl.Cst

open Grammar Prints

/-! ## Values -/

/-- `std::int32_t`. -/
abbrev LiteralInteger := Int32

/-- A token with the integer that its number is converted to. -/
abbrev Token := Fabl.Token LiteralInteger

/-- `actor_accessor`. -/
structure ActorAccessor where
  actor : String
  access : Option String
deriving DecidableEq, Repr

inductive OperatorExec where
  | none
  | add
  | subtract
  | multiply
  | divide
  | modulo
deriving DecidableEq, Repr

/-- What an `expression_node` makes of the text of an operand. -/
def operatorExec (token : String) : OperatorExec :=
  if token = "+" then .add
  else if token = "-" then .subtract
  else if token = "*" then .multiply
  else if token = "/" then .divide
  else if token = "%" then .modulo
  else .none

/-- What an `ast_tree_generator` is handed: a leaf, an operand, or as a leaf again what stands in
parentheses. -/
inductive Node where
  | number (n : LiteralInteger)
  | literalBool (value : Bool)
  | accessor (a : ActorAccessor)
  | identifier (w : String)
  | expression (nodes : List Node)
  | operand (value : OperatorExec)

/-! ## The rules -/

section Rules

variable [Sinks]

def identifier : Parser Token String := Parser.token fun
  | .word w => some w
  | _ => none

def number : Parser Token LiteralInteger := Parser.token fun
  | .number n => some n
  | _ => none

def boolLiteralGrammar : Parser Token Bool :=
  Parser.orElse (Parser.give (matchString (.word "true")) true)
    (Parser.give (matchString (.word "false")) false)

def memberAccessorGrammar : Parser Token ActorAccessor :=
  Parser.map (fun x => ⟨x.1, x.2⟩)
    (Parser.seq identifier (Parser.may (Parser.after matchPoint identifier)))

def strictMemberAccessorGrammar : Parser Token ActorAccessor :=
  Parser.map (fun x => ⟨x.1, some x.2⟩) (Parser.seq identifier (Parser.after matchPoint identifier))

/-- `match_string` of an operator as an operand. -/
def matchOperand (c : Char) : Parser Token Node :=
  Parser.give (matchString (.symbol c)) (.operand (operatorExec (String.singleton c)))

def level2Grammar : Parser Token Node := Parser.orElse (matchOperand '*') (matchOperand '/')

def level1Grammar : Parser Token Node := Parser.orElse (matchOperand '+') (matchOperand '-')

/-- The operands, given the parser of the expressions in parentheses. -/
def baseGrammar (expression : Parser Token (List Node)) : Parser Token Node :=
  Parser.orElse (Parser.map .number number)
    (Parser.orElse (Parser.map .literalBool boolLiteralGrammar)
      (Parser.orElse (Parser.map .accessor strictMemberAccessorGrammar)
        (Parser.orElse (Parser.map .identifier identifier)
          (Parser.map .expression
            (Parser.enclosed (matchString .lparen) (matchString .rparen) expression)))))

def itemParser (expression : Parser Token (List Node)) : Parser Token Node :=
  Parser.orElse (baseGrammar expression) (Parser.orElse level1Grammar level2Grammar)

/-- The expressions with parentheses nested less than `depth` times. -/
def expressionAt : Nat → Parser Token (List Node)
  | 0 => fun _ => none
  | depth + 1 => Parser.many (itemParser (expressionAt depth))

def expressionGrammar : Parser Token (List Node) := fun ts => expressionAt (ts.length + 1) ts

/-! ## The rules without their values -/

@[simp] theorem recognise_identifier : Parser.recognise identifier = matchIdentifier := by
  rw [identifier, Parser.recognise_token, matchIdentifier]
  congr
  funext t
  cases t <;> rfl

@[simp] theorem recognise_number : Parser.recognise number = matchNumber := by
  rw [number, Parser.recognise_token, matchNumber]
  congr
  funext t
  cases t <;> rfl

@[simp] theorem recognise_boolLiteralGrammar :
    Parser.recognise boolLiteralGrammar = Fabl.boolLiteralGrammar := by
  simp [boolLiteralGrammar, Fabl.boolLiteralGrammar]

@[simp] theorem recognise_memberAccessorGrammar :
    Parser.recognise memberAccessorGrammar = Fabl.memberAccessorGrammar := by
  simp [memberAccessorGrammar, Fabl.memberAccessorGrammar]

@[simp] theorem recognise_strictMemberAccessorGrammar :
    Parser.recognise strictMemberAccessorGrammar = Fabl.strictMemberAccessorGrammar := by
  simp [strictMemberAccessorGrammar, Fabl.strictMemberAccessorGrammar]

theorem recognise_itemParser (expression : Parser Token (List Node)) :
    Parser.recognise (itemParser expression) = itemRule (Parser.recognise expression) := by
  simp [itemParser, itemRule, baseGrammar, Fabl.baseGrammar, level1Grammar, Fabl.level1Grammar,
    level2Grammar, Fabl.level2Grammar, matchOperand]

theorem recognise_expressionAt (depth : Nat) :
    Parser.recognise (expressionAt depth) = Fabl.expressionAt depth := by
  induction depth with
  | zero => rfl
  | succ depth ih =>
      have hitem : Parser.recognise (itemParser (expressionAt depth))
          = itemRule (Fabl.expressionAt depth) := by
        rw [recognise_itemParser, ih]
      rw [expressionAt, Parser.recognise_many, hitem]
      · rfl
      · rw [hitem]
        exact consumes_itemRule_expressionAt depth

@[simp] theorem recognise_expressionGrammar :
    Parser.recognise expressionGrammar = Fabl.expressionGrammar := by
  funext ts
  exact congrFun (recognise_expressionAt (ts.length + 1)) ts

end Rules

/-! ## Printing -/

def ActorAccessor.print (a : ActorAccessor) : List Token :=
  .word a.actor :: printMay (fun access => [.point, .word access]) a.access

/-- The text of an operator; `NONE` has none. -/
def OperatorExec.text : OperatorExec → String
  | .none => ""
  | .add => "+"
  | .subtract => "-"
  | .multiply => "*"
  | .divide => "/"
  | .modulo => "%"

def printBool (value : Bool) : List Token := [.word (if value then "true" else "false")]

def printSymbols (text : String) : List Token := text.toList.map .symbol

mutual

def Node.print : Node → List Token
  | .number n => [.number n]
  | .literalBool value => printBool value
  | .accessor a => a.print
  | .identifier w => [.word w]
  | .expression nodes => .lparen :: (printNodes nodes ++ [.rparen])
  | .operand value => printSymbols value.text

def printNodes : List Node → List Token
  | [] => []
  | node :: nodes => node.print ++ printNodes nodes

end

theorem printNodes_eq (nodes : List Node) : printNodes nodes = nodes.flatMap Node.print := by
  induction nodes with
  | nil => rfl
  | cons node nodes ih => rw [printNodes, ih, List.flatMap_cons]

/-- The operators that have a rule. -/
def OperatorExec.IsArithmetic (value : OperatorExec) : Prop :=
  value = .add ∨ value = .subtract ∨ value = .multiply ∨ value = .divide

/-- The nodes that the rules build with parentheses nested at most `depth` times: a word that reads
as a literal is no identifier and no actor, and an operand is one of the four operators. -/
inductive Node.Fit : Nat → Node → Prop
  | number {depth : Nat} (n : LiteralInteger) : Fit depth (.number n)
  | literalBool {depth : Nat} (value : Bool) : Fit depth (.literalBool value)
  | accessor {depth : Nat} {actor : String} (access : String) (ha : ¬ IsBoolLiteral actor) :
      Fit depth (.accessor ⟨actor, some access⟩)
  | identifier {depth : Nat} {w : String} (hw : ¬ IsBoolLiteral w) : Fit depth (.identifier w)
  | expression {depth : Nat} {nodes : List Node} (h : ∀ node ∈ nodes, Fit depth node) :
      Fit (depth + 1) (.expression nodes)
  | operand {depth : Nat} {value : OperatorExec} (h : value.IsArithmetic) :
      Fit depth (.operand value)

/-- The rest does not go on with a point. -/
def NoPoint (rest : List Token) : Prop := rest.head? ≠ some .point

section Prints

variable [Sinks]

theorem literal_matchString (t : Token) : Literal (matchString t) [t] :=
  fun _ _ => matchString_eq_some_iff

theorem identifier_prints (Stop : List Token → Prop) :
    Prints identifier (fun w => [.word w]) (fun _ => True) Stop :=
  Prints.token (fun t w => by cases t <;> simp) Stop

theorem number_prints (Stop : List Token → Prop) :
    Prints number (fun n => [.number n]) (fun _ => True) Stop :=
  Prints.token (fun t n => by cases t <;> simp) Stop

theorem boolLiteralGrammar_prints (Stop : List Token → Prop) :
    Prints boolLiteralGrammar printBool (fun _ => True) Stop := by
  have htrue : Prints (Parser.give (matchString (.word "true")) true) printBool
      (fun value => value = true) Stop :=
    give (literal_matchString _) (show printBool true = _ from rfl) Stop
  have hfalse : Prints (Parser.give (matchString (.word "false")) false) printBool
      (fun value => value = false) Stop :=
    give (literal_matchString _) (show printBool false = _ from rfl) Stop
  refine (htrue.orElse_of_none hfalse ?_).fit (by simp)
  rintro _ rest rfl -
  simp [printBool]

theorem access_prints (Stop : List Token → Prop) :
    Prints (Parser.after matchPoint identifier) (fun access => [.point, .word access])
      (fun _ => True) Stop :=
  Prints.after (literal_matchString .point) (identifier_prints Stop)

theorem access_of_noPoint {rest : List Token} (h : NoPoint rest) :
    Parser.after matchPoint identifier rest = none := by
  refine (access_prints (fun _ => True)).eq_none ?_
  rintro access us - rfl
  exact h rfl

theorem memberAccessorGrammar_prints :
    Prints memberAccessorGrammar ActorAccessor.print (fun _ => True) NoPoint :=
  Prints.map
    (Prints.seq (identifier_prints fun _ => True)
      (Prints.may (access_prints fun _ => True) fun _ h => ⟨trivial, access_of_noPoint h⟩)
      fun _ _ _ _ => trivial)
    (fun _ _ => ⟨trivial, rfl⟩)
    fun a _ => ⟨(a.actor, a.access), ⟨trivial, fun _ _ => trivial⟩, rfl⟩

theorem strictMemberAccessorGrammar_prints (Stop : List Token → Prop) :
    Prints strictMemberAccessorGrammar ActorAccessor.print (fun a => a.access.isSome) Stop := by
  refine Prints.map
    (Prints.seq (identifier_prints fun _ => True) (access_prints Stop) fun _ _ _ _ => trivial)
    (fun _ _ => ⟨rfl, rfl⟩) ?_
  rintro ⟨actor, access⟩ haccess
  obtain ⟨member, rfl⟩ := Option.isSome_iff_exists.mp haccess
  exact ⟨(actor, member), ⟨trivial, trivial⟩, rfl⟩

theorem matchOperand_prints {c : Char} {value : OperatorExec}
    (hvalue : operatorExec (String.singleton c) = value)
    (hprint : Node.print (.operand value) = [.symbol c]) (Stop : List Token → Prop) :
    Prints (matchOperand c) Node.print (fun node => node = .operand value) Stop := by
  subst hvalue
  exact give (literal_matchString _) hprint Stop

/-- A choice between two operators of one level. -/
theorem operandPair_prints {c d : Char} {value other : OperatorExec} (hne : c ≠ d)
    (hvalue : operatorExec (String.singleton c) = value)
    (hother : operatorExec (String.singleton d) = other)
    (hprint : Node.print (.operand value) = [.symbol c])
    (hprint' : Node.print (.operand other) = [.symbol d]) (Stop : List Token → Prop) :
    Prints (Parser.orElse (matchOperand c) (matchOperand d)) Node.print
      (fun node => node = .operand value ∨ node = .operand other) Stop := by
  have hc := matchOperand_prints hvalue hprint Stop
  have hd := matchOperand_prints hother hprint' Stop
  refine hc.orElse_of_none hd ?_
  rintro _ rest rfl -
  apply hc.eq_none
  rintro _ rest' rfl heq
  rw [hprint, hprint'] at heq
  exact hne (Token.symbol.inj (List.cons.inj heq).1).symm

theorem level1Grammar_prints (Stop : List Token → Prop) :
    Prints level1Grammar Node.print (fun node => node = .operand .add ∨ node = .operand .subtract)
      Stop :=
  operandPair_prints (by decide) rfl rfl rfl rfl Stop

theorem level2Grammar_prints (Stop : List Token → Prop) :
    Prints level2Grammar Node.print
      (fun node => node = .operand .multiply ∨ node = .operand .divide) Stop :=
  operandPair_prints (by decide) rfl rfl rfl rfl Stop

/-- A literal is not taken exactly from the words that are none. -/
theorem boolNode_eq_none_iff {w : String} {ts : List Token} :
    Parser.map Node.literalBool boolLiteralGrammar (.word w :: ts) = none ↔ ¬ IsBoolLiteral w := by
  rw [← Parser.recognise_eq_none_iff, Parser.recognise_map, recognise_boolLiteralGrammar,
    boolLiteralGrammar_eq_none_iff]

/-- A word without a point behind it is no strict member access. -/
theorem accessorNode_eq_none {w : String} {rest : List Token} (h : NoPoint rest) :
    Parser.map Node.accessor strictMemberAccessorGrammar (.word w :: rest) = none := by
  have haccessor : Prints _ Node.print _ NoPoint :=
    (strictMemberAccessorGrammar_prints NoPoint).image .accessor fun _ => rfl
  apply haccessor.eq_none
  rintro _ us ⟨⟨actor, access⟩, haccess, rfl⟩ heq
  obtain ⟨member, rfl⟩ := Option.isSome_iff_exists.mp haccess
  obtain ⟨-, rfl⟩ := List.cons.inj heq
  exact h rfl

/-- The operands behind the literals in the choice. -/
def IsNamed (Inner : List Node → Prop) (node : Node) : Prop :=
  (∃ actor access, ¬ IsBoolLiteral actor ∧ .accessor ⟨actor, some access⟩ = node) ∨
    (∃ w, ¬ IsBoolLiteral w ∧ .identifier w = node) ∨ ∃ nodes, Inner nodes ∧ .expression nodes = node

/-- What an element of a list may be, given what may be in parentheses. -/
def IsItem (Inner : List Node → Prop) (node : Node) : Prop :=
  ((∃ n, .number n = node) ∨ (∃ value, .literalBool value = node) ∨ IsNamed Inner node) ∨
    ∃ value : OperatorExec, value.IsArithmetic ∧ .operand value = node

section Item

variable {expression : Parser Token (List Node)} {Inner : List Node → Prop}
  {Stop : List Token → Prop}

/-- Behind the literals a word that reads as one is not left. -/
theorem literal_prints {p : Parser Token Node}
    (h : Prints p Node.print
      (fun node => (∃ a : ActorAccessor, a.access.isSome ∧ .accessor a = node) ∨
        (∃ w, True ∧ .identifier w = node) ∨ ∃ nodes, Inner nodes ∧ .expression nodes = node)
      NoPoint) :
    Prints (Parser.orElse (Parser.map Node.literalBool boolLiteralGrammar) p) Node.print
      (fun node => (∃ value, True ∧ .literalBool value = node) ∨ IsNamed Inner node) NoPoint := by
  have hbool : Prints _ Node.print _ NoPoint :=
    (boolLiteralGrammar_prints NoPoint).image .literalBool fun _ => rfl
  refine hbool.orElse h ?_ ?_
  · rintro _ rest (⟨⟨actor, access⟩, haccess, rfl⟩ | ⟨w, -, rfl⟩ | ⟨nodes, hnodes, rfl⟩) hnone
    · obtain ⟨member, rfl⟩ := Option.isSome_iff_exists.mp haccess
      exact Or.inl ⟨actor, member, boolNode_eq_none_iff.mp hnone, rfl⟩
    · exact Or.inr (Or.inl ⟨w, boolNode_eq_none_iff.mp hnone, rfl⟩)
    · exact Or.inr (Or.inr ⟨nodes, hnodes, rfl⟩)
  · rintro _ rest (⟨actor, access, hactor, rfl⟩ | ⟨w, hw, rfl⟩ | ⟨nodes, hnodes, rfl⟩) -
    · exact ⟨Or.inl ⟨_, rfl, rfl⟩, boolNode_eq_none_iff.mpr hactor⟩
    · exact ⟨Or.inr (Or.inl ⟨w, trivial, rfl⟩), boolNode_eq_none_iff.mpr hw⟩
    · refine ⟨Or.inr (Or.inr ⟨nodes, hnodes, rfl⟩), ?_⟩
      simp [boolLiteralGrammar, Node.print]

/-- No operand starts with a symbol. -/
theorem baseGrammar_symbol (c : Char) (rest : List Token) :
    baseGrammar expression (.symbol c :: rest) = none := by
  simp [baseGrammar, boolLiteralGrammar, strictMemberAccessorGrammar, identifier, number,
    Parser.enclosed]

theorem baseGrammar_prints (h : Prints expression printNodes Inner Stop)
    (hstop : ∀ rest, Stop (.rparen :: rest)) :
    Prints (baseGrammar expression) Node.print
      (fun node => (∃ n, .number n = node) ∨ (∃ value, .literalBool value = node) ∨
        IsNamed Inner node) NoPoint := by
  have hnumber : Prints _ Node.print _ NoPoint :=
    (number_prints NoPoint).image .number fun _ => rfl
  have haccessor : Prints _ Node.print _ NoPoint :=
    (strictMemberAccessorGrammar_prints NoPoint).image .accessor fun _ => rfl
  have hidentifier : Prints _ Node.print _ NoPoint :=
    (identifier_prints NoPoint).image .identifier fun _ => rfl
  have hexpression : Prints _ Node.print _ NoPoint :=
    (h.enclosed (literal_matchString .lparen) (literal_matchString .rparen) hstop NoPoint).image
      .expression fun _ => rfl
  -- from the last alternative to the first one
  have hunnamed := hidentifier.orElse_of_none hexpression (by
    rintro _ rest ⟨nodes, -, rfl⟩ -
    simp [identifier, Node.print])
  have hnamed := haccessor.orElse_of_none hunnamed (by
    rintro _ rest (⟨w, -, rfl⟩ | ⟨nodes, -, rfl⟩) hpoint
    · exact accessorNode_eq_none hpoint
    · simp [strictMemberAccessorGrammar, identifier, Node.print])
  have hbase := hnumber.orElse_of_none (literal_prints hnamed) (by
    rintro _ rest (⟨value, -, rfl⟩ | ⟨actor, access, -, rfl⟩ | ⟨w, -, rfl⟩ | ⟨nodes, -, rfl⟩) - <;>
      simp [number, Node.print, printBool, ActorAccessor.print])
  exact hbase.fit (by simp)

theorem itemParser_prints (h : Prints expression printNodes Inner Stop)
    (hstop : ∀ rest, Stop (.rparen :: rest)) :
    Prints (itemParser expression) Node.print (IsItem Inner) NoPoint := by
  have hoperator := (level1Grammar_prints NoPoint).orElse_of_none (level2Grammar_prints NoPoint)
    (by
      rintro _ rest (rfl | rfl) - <;> simp [level1Grammar, matchOperand, Node.print, printSymbols,
        OperatorExec.text])
  have hitem := (baseGrammar_prints h hstop).orElse_of_none hoperator (by
    rintro _ rest ((rfl | rfl) | rfl | rfl) - <;> exact baseGrammar_symbol _ rest)
  refine hitem.fit fun node => or_congr_right ⟨?_, ?_⟩
  · rintro ((rfl | rfl) | rfl | rfl) <;> exact ⟨_, by simp [OperatorExec.IsArithmetic], rfl⟩
  · rintro ⟨value, rfl | rfl | rfl | rfl, rfl⟩ <;> simp

end Item

omit [Sinks] in
/-- The elements of one depth, from those one depth lower in parentheses. -/
theorem Node.fit_iff {depth : Nat} {node : Node} :
    node.Fit depth ↔
      IsItem (fun nodes => ∃ d, depth = d + 1 ∧ ∀ node ∈ nodes, node.Fit d) node := by
  constructor
  · intro h
    cases h with
    | number n => exact Or.inl (Or.inl ⟨n, rfl⟩)
    | literalBool value => exact Or.inl (Or.inr (Or.inl ⟨value, rfl⟩))
    | accessor access ha => exact Or.inl (Or.inr (Or.inr (Or.inl ⟨_, access, ha, rfl⟩)))
    | identifier hw => exact Or.inl (Or.inr (Or.inr (Or.inr (Or.inl ⟨_, hw, rfl⟩))))
    | expression hn =>
        exact Or.inl (Or.inr (Or.inr (Or.inr (Or.inr ⟨_, ⟨_, rfl, hn⟩, rfl⟩))))
    | operand hvalue => exact Or.inr ⟨_, hvalue, rfl⟩
  · rintro ((⟨n, rfl⟩ | ⟨value, rfl⟩ | ⟨_, access, ha, rfl⟩ | ⟨w, hw, rfl⟩ |
      ⟨_, ⟨d, rfl, hn⟩, rfl⟩) | ⟨value, hvalue, rfl⟩)
    · exact .number n
    · exact .literalBool value
    · exact .accessor access ha
    · exact .identifier hw
    · exact .expression hn
    · exact .operand hvalue

/-! ## Expressions -/

/-- What ends an expression: a closing parenthesis or the semicolon of its statement. -/
def EndsExpression (rest : List Token) : Prop :=
  ∃ t us, rest = t :: us ∧ (t = .rparen ∨ t = .symbol ';')

theorem many_itemParser_prints {expression : Parser Token (List Node)} {Inner : List Node → Prop}
    {Stop : List Token → Prop} (h : Prints expression printNodes Inner Stop)
    (hstop : ∀ rest, Stop (.rparen :: rest)) :
    Prints (Parser.many (itemParser expression)) printNodes
      (fun nodes => ∀ node ∈ nodes, IsItem Inner node) EndsExpression := by
  have hitem := itemParser_prints h hstop
  rw [show printNodes = fun nodes => nodes.flatMap Node.print from funext printNodes_eq]
  have hhead : ∀ node, IsItem Inner node → ∃ t us, node.print = t :: us ∧ t ≠ .point := by
    rintro node ((⟨n, rfl⟩ | ⟨value, rfl⟩ | ⟨_, access, -, rfl⟩ | ⟨w, -, rfl⟩ | ⟨_, -, rfl⟩) |
      ⟨value, rfl | rfl | rfl | rfl, rfl⟩) <;> exact ⟨_, _, rfl, by simp⟩
  refine Prints.many hitem ?_ ?_ ?_
  · intro node hnode
    obtain ⟨t, us, hprint, -⟩ := hhead node hnode
    simp [hprint]
  · intro node rest hnode
    obtain ⟨t, us, hprint, hpoint⟩ := hhead node hnode
    simpa [NoPoint, hprint] using hpoint
  · rintro _ ⟨t, us, rfl, ht⟩
    refine ⟨by rcases ht with rfl | rfl <;> simp [NoPoint], ?_⟩
    rw [← Parser.recognise_eq_none_iff, recognise_itemParser]
    exact itemRule_of_end ht

theorem expressionAt_prints (depth : Nat) :
    Prints (expressionAt (depth + 1)) printNodes (fun nodes => ∀ node ∈ nodes, node.Fit depth)
      EndsExpression := by
  induction depth with
  | zero =>
      -- no expression fits into parentheses
      have hinner : Prints (expressionAt 0) printNodes
          (fun nodes => ∃ d, 0 = d + 1 ∧ ∀ node ∈ nodes, node.Fit d) fun _ => True :=
        ⟨fun _ _ _ h => (nomatch h), fun _ _ ⟨_, hd, _⟩ => (nomatch hd)⟩
      exact (many_itemParser_prints hinner fun _ => trivial).fit fun nodes =>
        forall₂_congr fun _ _ => Node.fit_iff.symm
  | succ depth ih =>
      have hinner : Prints (expressionAt (depth + 1)) printNodes
          (fun nodes => ∃ d, depth + 1 = d + 1 ∧ ∀ node ∈ nodes, node.Fit d) EndsExpression :=
        ih.fit fun nodes => by simp
      have hrparen : ∀ rest, EndsExpression (.rparen :: rest) :=
        fun rest => ⟨.rparen, rest, rfl, Or.inl rfl⟩
      exact (many_itemParser_prints hinner hrparen).fit fun nodes =>
        forall₂_congr fun _ _ => Node.fit_iff.symm

omit [Sinks] in
theorem Node.Fit.mono {depth depth' : Nat} {node : Node} (h : node.Fit depth)
    (hle : depth ≤ depth') : node.Fit depth' := by
  induction h generalizing depth' with
  | number n => exact .number n
  | literalBool value => exact .literalBool value
  | accessor access ha => exact .accessor access ha
  | identifier hw => exact .identifier hw
  | operand hvalue => exact .operand hvalue
  | expression h ih =>
      obtain ⟨depth', rfl⟩ : ∃ d, depth' = d + 1 := ⟨depth' - 1, by omega⟩
      exact .expression fun node hnode => ih node hnode (by omega)

omit [Sinks] in
theorem length_print_le {node : Node} {nodes : List Node} (h : node ∈ nodes) :
    node.print.length ≤ (printNodes nodes).length := by
  induction nodes with
  | nil => cases h
  | cons first nodes ih =>
      rw [printNodes, List.length_append]
      rcases List.mem_cons.mp h with rfl | h
      · omega
      · have hle := ih h
        omega

omit [Sinks] in
/-- Parentheses are not nested deeper than there are tokens. -/
theorem Node.Fit.length {depth : Nat} {node : Node} (h : node.Fit depth) :
    node.Fit node.print.length := by
  induction h with
  | number n => exact .number n
  | literalBool value => exact .literalBool value
  | accessor access ha => exact .accessor access ha
  | identifier hw => exact .identifier hw
  | operand hvalue => exact .operand hvalue
  | @expression depth nodes h ih =>
      have hinner : ∀ node ∈ nodes, node.Fit (printNodes nodes).length :=
        fun node hnode => (ih node hnode).mono (length_print_le hnode)
      exact (Node.Fit.expression hinner).mono (by simp [Node.print])

/-- What the rule of an expression builds. -/
def FitNodes (nodes : List Node) : Prop := ∃ depth, ∀ node ∈ nodes, node.Fit depth

/-- **Expressions are read as they are printed**, up to what ends them. -/
theorem expressionGrammar_prints :
    Prints expressionGrammar printNodes FitNodes EndsExpression where
  sound ts nodes rest h := by
    obtain ⟨hfit, hts⟩ := (expressionAt_prints ts.length).sound ts nodes rest h
    exact ⟨⟨ts.length, hfit⟩, hts⟩
  complete nodes rest hfit hrest := by
    obtain ⟨depth, hfit⟩ := hfit
    refine (expressionAt_prints _).complete nodes rest (fun node hnode => ?_) hrest
    refine (hfit node hnode).length.mono ?_
    have hle := length_print_le hnode
    rw [List.length_append]
    omega

end Prints

end Fabko.Fabl.Cst
