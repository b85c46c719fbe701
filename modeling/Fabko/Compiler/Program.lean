import Fabko.Compiler.Cst
import Mathlib.Algebra.Group.Nat.Defs

set_option autoImplicit false

/-! # The grammar of programs

The rules of `fabl_grammar.hh` for actors and capabilities, and what they build. Every rule reads
exactly what its values are printed to, hence a program is accepted exactly if it is the print of
definitions, and printing what was read and reading it again changes nothing. -/

namespace Fabko.Fabl.Cst

open Grammar Prints

/-! ## Values -/

inductive CompareOperator where
  | invalid
  | greater
  | greaterEqual
  | less
  | lessEqual
  | equal
  | different
deriving DecidableEq, Repr

/-- What a `precondition_ast_node` makes of the text of its operand. -/
def compareOperator (token : String) : CompareOperator :=
  if token = "==" then .equal
  else if token = "!=" then .different
  else if token = ">" then .greater
  else if token = ">=" then .greaterEqual
  else if token = "<" then .less
  else if token = "<=" then .lessEqual
  else .invalid

/-- `precondition_ast_node` with the operand at its root and the two leaves under it. -/
structure Precondition where
  lhs : ActorAccessor
  value : CompareOperator
  rhs : LiteralInteger
deriving DecidableEq, Repr

structure PrerequisitesConjunction where
  conditions : List Precondition
deriving DecidableEq, Repr

structure Assignment where
  lhs : ActorAccessor
  rhs : List Node

structure Outcomes where
  assignments : List Assignment

structure Capability where
  name : String
  pre : PrerequisitesConjunction
  post : Outcomes

structure HasStatement where
  id : String
  quantity : LiteralInteger
deriving DecidableEq, Repr

/-- The alternatives of `data_type` that the rules of an actor build. -/
inductive DataType where
  | hasStatement (has : HasStatement)
  | capability (capability : Capability)
  | capabilityIdentifier (id : String)

structure CustomDataType where
  name : String
  content : List DataType

/-- `fabl::ast_object`. -/
structure Program where
  actors : List CustomDataType
  capabilities : List Capability

/-! ## The rules -/

section Rules

variable [Sinks]

def matchKeyword (word : String) : Rule Token := matchString (.word word)

def matchActor : Rule Token := matchKeyword "actor"

def matchCan : Rule Token := matchKeyword "can"

def matchHas : Rule Token := matchKeyword "has"

def matchCapability : Rule Token := matchKeyword "capability"

def matchPre : Rule Token := matchKeyword "pre"

def matchPost : Rule Token := matchKeyword "post"

def bracketed {α : Type} (p : Parser Token α) : Parser Token α :=
  Parser.enclosed (matchString (.symbol '{')) (matchString (.symbol '}')) p

/-- `match_string` of a text of two characters. -/
def matchPair (c c' : Char) : Rule Token :=
  seqRule (matchString (.symbol c)) (matchString (.symbol c'))

def conditionGrammar : Parser Token CompareOperator :=
  Parser.orElse (Parser.give (matchPair '>' '=') (compareOperator ">="))
    (Parser.orElse (Parser.give (matchString (.symbol '>')) (compareOperator ">"))
      (Parser.orElse (Parser.give (matchPair '<' '=') (compareOperator "<="))
        (Parser.orElse (Parser.give (matchString (.symbol '<')) (compareOperator "<"))
          (Parser.orElse (Parser.give (matchPair '=' '=') (compareOperator "=="))
            (Parser.give (matchPair '!' '=') (compareOperator "!="))))))

def preconditionStatement : Parser Token Precondition :=
  Parser.map (fun x => ⟨x.1, x.2.1, x.2.2⟩)
    (Parser.seq memberAccessorGrammar
      (Parser.seq conditionGrammar (Parser.before number semicol)))

def capabilityPreStatement : Parser Token PrerequisitesConjunction :=
  Parser.map PrerequisitesConjunction.mk
    (Parser.after matchPre (bracketed (Parser.many preconditionStatement)))

def assignmentStatement : Parser Token Assignment :=
  Parser.map (fun x => ⟨x.1, x.2⟩)
    (Parser.seq memberAccessorGrammar
      (Parser.after (matchString (.symbol '=')) (Parser.before expressionGrammar semicol)))

def capabilityPostStatement : Parser Token Outcomes :=
  Parser.map Outcomes.mk (Parser.after matchPost (bracketed (Parser.many assignmentStatement)))

def capabilityDefinition : Parser Token Capability :=
  Parser.map (fun x => ⟨x.1, x.2.1, x.2.2⟩)
    (Parser.after matchCapability
      (Parser.seq identifier
        (Parser.before (bracketed (Parser.seq capabilityPreStatement capabilityPostStatement))
          semicol)))

def actorCanStatement : Parser Token DataType :=
  Parser.after matchCan
    (Parser.orElse (Parser.map .capability capabilityDefinition)
      (Parser.map .capabilityIdentifier (Parser.before identifier semicol)))

def actorHasStatement : Parser Token HasStatement :=
  Parser.map (fun x => ⟨x.2, x.1⟩)
    (Parser.after matchHas (Parser.seq number (Parser.before identifier semicol)))

def actorDefinition : Parser Token CustomDataType :=
  Parser.map (fun x => ⟨x.1, x.2⟩)
    (Parser.after matchActor
      (Parser.seq identifier
        (Parser.before
          (bracketed
            (Parser.many
              (Parser.orElse (Parser.map .hasStatement actorHasStatement) actorCanStatement)))
          semicol)))

/-- An element of a program, in the place where it stands. -/
inductive Definition where
  | actor (actor : CustomDataType)
  | capability (capability : Capability)

def definition : Parser Token Definition :=
  Parser.orElse (Parser.map .actor actorDefinition) (Parser.map .capability capabilityDefinition)

def Definition.actor? : Definition → Option CustomDataType
  | .actor a => some a
  | .capability _ => none

def Definition.capability? : Definition → Option Capability
  | .actor _ => none
  | .capability c => some c

/-- Each definition goes to the list of its kind. -/
def Program.collect (definitions : List Definition) : Program where
  actors := definitions.filterMap Definition.actor?
  capabilities := definitions.filterMap Definition.capability?

def fabl : Parser Token Program := Parser.map Program.collect (Parser.many definition)

/-- The statement of an assignment as the recogniser of its tokens. -/
theorem recognise_assignmentStatement :
    Parser.recognise assignmentStatement = Fabl.assignmentStatement := by
  simp [assignmentStatement, Fabl.assignmentStatement]

end Rules

/-! ## Printing -/

def CompareOperator.text : CompareOperator → String
  | .invalid => ""
  | .greater => ">"
  | .greaterEqual => ">="
  | .less => "<"
  | .lessEqual => "<="
  | .equal => "=="
  | .different => "!="

def CompareOperator.print (value : CompareOperator) : List Token := printSymbols value.text

/-- Tokens in braces. -/
def printBracketed (ts : List Token) : List Token := .symbol '{' :: (ts ++ [.symbol '}'])

def Precondition.print (condition : Precondition) : List Token :=
  condition.lhs.print ++ (condition.value.print ++ [.number condition.rhs, .symbol ';'])

def PrerequisitesConjunction.print (pre : PrerequisitesConjunction) : List Token :=
  .word "pre" :: printBracketed (pre.conditions.flatMap Precondition.print)

def Assignment.print (assignment : Assignment) : List Token :=
  assignment.lhs.print ++ .symbol '=' :: (printNodes assignment.rhs ++ [.symbol ';'])

def Outcomes.print (post : Outcomes) : List Token :=
  .word "post" :: printBracketed (post.assignments.flatMap Assignment.print)

def Capability.print (capability : Capability) : List Token :=
  .word "capability" :: .word capability.name ::
    (printBracketed (capability.pre.print ++ capability.post.print) ++ [.symbol ';'])

def HasStatement.print (has : HasStatement) : List Token :=
  [.word "has", .number has.quantity, .word has.id, .symbol ';']

def DataType.print : DataType → List Token
  | .hasStatement h => h.print
  | .capability c => .word "can" :: c.print
  | .capabilityIdentifier id => [.word "can", .word id, .symbol ';']

def CustomDataType.print (actor : CustomDataType) : List Token :=
  .word "actor" :: .word actor.name ::
    (printBracketed (actor.content.flatMap DataType.print) ++ [.symbol ';'])

def Definition.print : Definition → List Token
  | .actor a => a.print
  | .capability c => c.print

/-- The actors first, then the capabilities. -/
def Program.definitions (program : Program) : List Definition :=
  program.actors.map .actor ++ program.capabilities.map .capability

def Program.print (program : Program) : List Token :=
  program.definitions.flatMap Definition.print

/-! ## What the rules build -/

def Precondition.Fit (condition : Precondition) : Prop := condition.value ≠ .invalid

def Assignment.Fit (assignment : Assignment) : Prop := FitNodes assignment.rhs

/-- All conditions compare, and all expressions are made of leaves and operators that have a
rule. -/
def Capability.Fit (capability : Capability) : Prop :=
  (∀ condition ∈ capability.pre.conditions, condition.Fit) ∧
    ∀ assignment ∈ capability.post.assignments, assignment.Fit

def DataType.Fit : DataType → Prop
  | .capability c => c.Fit
  | _ => True

def Definition.Fit : Definition → Prop
  | .actor a => ∀ data ∈ a.content, data.Fit
  | .capability c => c.Fit

/-- No comparison of two characters is cut short. -/
def NoEqual (rest : List Token) : Prop := rest.head? ≠ some (.symbol '=')

section Prints

variable [Sinks]

theorem literal_matchPair (c c' : Char) : Literal (matchPair c c') [.symbol c, .symbol c'] :=
  Literal.seq (literal_matchString _) (literal_matchString _)

theorem matchPair_eq_none {c : Char} {rest : List Token} (h : NoEqual rest) :
    matchPair c '=' (.symbol c :: rest) = none := by
  cases hpair : matchPair c '=' (.symbol c :: rest) with
  | none => rfl
  | some us =>
      have heq := (literal_matchPair c '=' _ _).mp hpair
      obtain ⟨-, rfl⟩ := List.cons.inj heq
      exact absurd rfl h

theorem matchPair_of_ne {c d : Char} (h : d ≠ c) (rest : List Token) :
    matchPair c '=' (.symbol d :: rest) = none := by
  simp [matchPair, h]

theorem matchSymbol_of_ne {c d : Char} (h : d ≠ c) (rest : List Token) :
    matchString (.symbol c) (.symbol d :: rest) = none := by
  simp [h]

theorem comparison_eq_none {r : Rule Token} {ts : List Token} {value : CompareOperator}
    (h : r ts = none) : Parser.give r value ts = none := by
  rw [Sinks.give_apply, h]
  rfl

/-- One comparison, under the text that the rule matches. -/
theorem comparison_prints {r : Rule Token} {us : List Token} {text : String}
    {value : CompareOperator} (hr : Literal r us) (hvalue : compareOperator text = value)
    (hprint : value.print = us) :
    Prints (Parser.give r (compareOperator text)) CompareOperator.print (fun v => v = value)
      NoEqual := by
  subst hvalue
  exact give hr hprint NoEqual

theorem conditionGrammar_prints :
    Prints conditionGrammar CompareOperator.print (fun value => value ≠ .invalid) NoEqual := by
  have hge : Prints (Parser.give (matchPair '>' '=') (compareOperator ">=")) CompareOperator.print
      (fun v => v = .greaterEqual) NoEqual := comparison_prints (literal_matchPair _ _) rfl rfl
  have hgt : Prints (Parser.give (matchString (.symbol '>')) (compareOperator ">"))
      CompareOperator.print (fun v => v = .greater) NoEqual :=
    comparison_prints (literal_matchString _) rfl rfl
  have hle : Prints (Parser.give (matchPair '<' '=') (compareOperator "<=")) CompareOperator.print
      (fun v => v = .lessEqual) NoEqual := comparison_prints (literal_matchPair _ _) rfl rfl
  have hlt : Prints (Parser.give (matchString (.symbol '<')) (compareOperator "<"))
      CompareOperator.print (fun v => v = .less) NoEqual :=
    comparison_prints (literal_matchString _) rfl rfl
  have heq : Prints (Parser.give (matchPair '=' '=') (compareOperator "==")) CompareOperator.print
      (fun v => v = .equal) NoEqual := comparison_prints (literal_matchPair _ _) rfl rfl
  have hne : Prints (Parser.give (matchPair '!' '=') (compareOperator "!=")) CompareOperator.print
      (fun v => v = .different) NoEqual := comparison_prints (literal_matchPair _ _) rfl rfl
  -- from the last alternative to the first one; only the longer comparisons share a start
  have h₅ := heq.orElse_of_none hne (by
    rintro _ rest rfl -
    exact comparison_eq_none (matchPair_of_ne (by decide) _))
  have h₄ := hlt.orElse_of_none h₅ (by
    rintro _ rest (rfl | rfl) - <;> exact comparison_eq_none (matchSymbol_of_ne (by decide) _))
  have h₃ := hle.orElse_of_none h₄ (by
    rintro _ rest (rfl | rfl | rfl) hrest
    · exact comparison_eq_none (matchPair_eq_none hrest)
    all_goals exact comparison_eq_none (matchPair_of_ne (by decide) _))
  have h₂ := hgt.orElse_of_none h₃ (by
    rintro _ rest (rfl | rfl | rfl | rfl) - <;>
      exact comparison_eq_none (matchSymbol_of_ne (by decide) _))
  have h₁ := hge.orElse_of_none h₂ (by
    rintro _ rest (rfl | rfl | rfl | rfl | rfl) hrest
    · exact comparison_eq_none (matchPair_eq_none hrest)
    all_goals exact comparison_eq_none (matchPair_of_ne (by decide) _))
  exact h₁.fit fun value => by cases value <;> simp

/-! ## Statements -/

theorem literal_semicol : Literal (τ := Token) semicol [.symbol ';'] := literal_matchString _

theorem bracketed_prints {α : Type} {p : Parser Token α} {print : α → List Token}
    {Fit : α → Prop} {Stop : List Token → Prop} (h : Prints p print Fit Stop)
    (hstop : ∀ rest, Stop (.symbol '}' :: rest)) (Stop' : List Token → Prop) :
    Prints (bracketed p) (fun a => printBracketed (print a)) Fit Stop' :=
  h.enclosed (literal_matchString _) (literal_matchString _) hstop Stop'

/-- A block of statements of one kind. -/
theorem block_prints {α : Type} {p : Parser Token α} {print : α → List Token} {Fit : α → Prop}
    (h : Prints p print Fit fun _ => True) (hne : ∀ a, Fit a → print a ≠ [])
    (hend : ∀ rest, p (.symbol '}' :: rest) = none) (Stop : List Token → Prop) :
    Prints (bracketed (Parser.many p)) (fun as => printBracketed (as.flatMap print))
      (fun as => ∀ a ∈ as, Fit a) Stop := by
  have hmany : Prints (Parser.many p) (fun as => as.flatMap print) (fun as => ∀ a ∈ as, Fit a)
      fun rest => ∃ us, rest = .symbol '}' :: us :=
    h.many hne (fun _ _ _ => trivial) (by
      rintro _ ⟨us, rfl⟩
      exact ⟨trivial, hend us⟩)
  exact bracketed_prints hmany (fun rest => ⟨rest, rfl⟩) Stop

theorem preconditionStatement_prints :
    Prints preconditionStatement Precondition.print Precondition.Fit fun _ => True := by
  have hnumber := (number_prints fun _ => True).before literal_semicol (fun _ => trivial)
    fun _ => True
  have hcondition := conditionGrammar_prints.seq hnumber fun _ _ _ _ => by simp [NoEqual]
  have hwhole := memberAccessorGrammar_prints.seq hcondition (by
    rintro ⟨value, n⟩ rest ⟨hvalue, -⟩ -
    cases value <;> first | exact absurd rfl hvalue | simp [NoPoint, CompareOperator.print,
      CompareOperator.text, printSymbols])
  refine hwhole.map (fun x hx => ⟨hx.2.1, rfl⟩) ?_
  rintro ⟨lhs, value, rhs⟩ hvalue
  exact ⟨(lhs, value, rhs), ⟨trivial, hvalue, trivial⟩, rfl⟩

theorem capabilityPreStatement_prints (Stop : List Token → Prop) :
    Prints capabilityPreStatement PrerequisitesConjunction.print
      (fun pre => ∀ condition ∈ pre.conditions, condition.Fit) Stop := by
  have hblock := block_prints preconditionStatement_prints
    (fun condition _ => by simp [Precondition.print, ActorAccessor.print])
    (fun _ => by simp [preconditionStatement, memberAccessorGrammar, identifier]) Stop
  refine (hblock.after (literal_matchString _)).map (fun _ h => ⟨h, rfl⟩) ?_
  rintro ⟨conditions⟩ h
  exact ⟨conditions, h, rfl⟩

theorem assignmentStatement_prints :
    Prints assignmentStatement Assignment.print Assignment.Fit fun _ => True := by
  have hexpression := expressionGrammar_prints.before literal_semicol
    (fun rest => ⟨.symbol ';', rest, rfl, Or.inr rfl⟩) fun _ => True
  have hwhole := memberAccessorGrammar_prints.seq
    (hexpression.after (literal_matchString (.symbol '='))) fun _ _ _ _ => by simp [NoPoint]
  refine hwhole.map (fun x hx => ⟨hx.2, rfl⟩) ?_
  rintro ⟨lhs, rhs⟩ h
  exact ⟨(lhs, rhs), ⟨trivial, h⟩, rfl⟩

theorem capabilityPostStatement_prints (Stop : List Token → Prop) :
    Prints capabilityPostStatement Outcomes.print
      (fun post => ∀ assignment ∈ post.assignments, assignment.Fit) Stop := by
  have hblock := block_prints assignmentStatement_prints
    (fun assignment _ => by simp [Assignment.print, ActorAccessor.print])
    (fun _ => by simp [assignmentStatement, memberAccessorGrammar, identifier]) Stop
  refine (hblock.after (literal_matchString _)).map (fun _ h => ⟨h, rfl⟩) ?_
  rintro ⟨assignments⟩ h
  exact ⟨assignments, h, rfl⟩

/-! ## Definitions -/

theorem capabilityDefinition_prints (Stop : List Token → Prop) :
    Prints capabilityDefinition Capability.print Capability.Fit Stop := by
  have hbody := (capabilityPreStatement_prints fun _ => True).seq
    (capabilityPostStatement_prints fun _ => True) fun _ _ _ _ => trivial
  have hblock := (bracketed_prints hbody (fun _ => trivial) fun _ => True).before literal_semicol
    (fun _ => trivial) Stop
  have hwhole := (identifier_prints fun _ => True).seq hblock fun _ _ _ _ => trivial
  refine (hwhole.after (literal_matchString _)).map (fun x hx => ⟨hx.2, rfl⟩) ?_
  rintro ⟨name, pre, post⟩ h
  exact ⟨(name, pre, post), ⟨trivial, h⟩, rfl⟩

/-- A capability that is named, and not defined: its definition is tried first. -/
theorem capabilityDefinition_eq_none (id : String) (rest : List Token) :
    capabilityDefinition (.word id :: .symbol ';' :: rest) = none := by
  refine (capabilityDefinition_prints fun _ => True).eq_none fun capability us _ heq => ?_
  obtain ⟨-, hsecond⟩ := List.cons.inj heq
  obtain ⟨hname, -⟩ := List.cons.inj hsecond
  exact absurd hname (by simp)

/-- What stands behind `can`. -/
def DataType.printAbility : DataType → List Token
  | .capability c => c.print
  | .capabilityIdentifier id => [.word id, .symbol ';']
  | .hasStatement _ => []

def DataType.IsAbility (data : DataType) : Prop :=
  (∃ c : Capability, c.Fit ∧ .capability c = data) ∨ ∃ id, .capabilityIdentifier id = data

theorem actorCanStatement_prints (Stop : List Token → Prop) :
    Prints actorCanStatement DataType.print DataType.IsAbility Stop := by
  have hcapability : Prints _ DataType.printAbility _ Stop :=
    (capabilityDefinition_prints Stop).image .capability fun _ => rfl
  have hidentifier : Prints _ DataType.printAbility _ Stop :=
    ((identifier_prints fun _ => True).before literal_semicol (fun _ => trivial) Stop).image
      .capabilityIdentifier fun _ => rfl
  have heither := hcapability.orElse_of_none hidentifier (by
    rintro _ rest ⟨id, -, rfl⟩ -
    simp [DataType.printAbility, capabilityDefinition_eq_none])
  have hability : Prints _ DataType.printAbility DataType.IsAbility Stop :=
    heither.fit fun data => by simp [DataType.IsAbility]
  refine (hability.after (literal_matchString (.word "can"))).print_congr ?_
  rintro _ (⟨c, -, rfl⟩ | ⟨id, rfl⟩) <;> rfl

theorem actorHasStatement_prints (Stop : List Token → Prop) :
    Prints actorHasStatement HasStatement.print (fun _ => True) Stop := by
  have hidentifier := (identifier_prints fun _ => True).before literal_semicol (fun _ => trivial)
    Stop
  have hwhole := (number_prints fun _ => True).seq hidentifier fun _ _ _ _ => trivial
  refine (hwhole.after (literal_matchString (.word "has"))).map (fun _ _ => ⟨trivial, rfl⟩) ?_
  rintro ⟨id, quantity⟩ -
  exact ⟨(quantity, id), ⟨trivial, trivial⟩, rfl⟩

/-- The statements of an actor. -/
theorem actorStatement_prints (Stop : List Token → Prop) :
    Prints (Parser.orElse (Parser.map DataType.hasStatement actorHasStatement) actorCanStatement)
      DataType.print DataType.Fit Stop := by
  have hhas : Prints _ DataType.print _ Stop :=
    (actorHasStatement_prints Stop).image .hasStatement fun _ => rfl
  have hwhole := hhas.orElse_of_none (actorCanStatement_prints Stop) (by
    rintro _ rest (⟨c, -, rfl⟩ | ⟨id, rfl⟩) - <;>
      simp [actorHasStatement, matchHas, matchKeyword, DataType.print])
  refine hwhole.fit fun data => ?_
  cases data <;> simp [DataType.IsAbility, DataType.Fit]

theorem actorDefinition_prints (Stop : List Token → Prop) :
    Prints actorDefinition CustomDataType.print (fun actor => ∀ data ∈ actor.content, data.Fit)
      Stop := by
  have hblock := (block_prints (actorStatement_prints fun _ => True)
    (fun data _ => by cases data <;> simp [DataType.print, HasStatement.print])
    (fun _ => by simp [actorHasStatement, actorCanStatement, matchHas, matchCan, matchKeyword])
    fun _ => True).before literal_semicol (fun _ => trivial) Stop
  have hwhole := (identifier_prints fun _ => True).seq hblock fun _ _ _ _ => trivial
  refine (hwhole.after (literal_matchString (.word "actor"))).map (fun x hx => ⟨hx.2, rfl⟩) ?_
  rintro ⟨name, content⟩ h
  exact ⟨(name, content), ⟨trivial, h⟩, rfl⟩

theorem definition_prints (Stop : List Token → Prop) :
    Prints definition Definition.print Definition.Fit Stop := by
  have hactor : Prints _ Definition.print _ Stop :=
    (actorDefinition_prints Stop).image .actor fun _ => rfl
  have hcapability : Prints _ Definition.print _ Stop :=
    (capabilityDefinition_prints Stop).image .capability fun _ => rfl
  have hwhole := hactor.orElse_of_none hcapability (by
    rintro _ rest ⟨c, -, rfl⟩ -
    simp [actorDefinition, matchActor, matchKeyword, Definition.print, Capability.print])
  refine hwhole.fit fun d => ?_
  cases d <;> simp [Definition.Fit]

/-! ## Programs -/

/-- A program up to the end of the tokens, as its definitions. -/
theorem definitions_prints :
    Prints (Parser.many definition) (fun ds => ds.flatMap Definition.print)
      (fun ds => ∀ d ∈ ds, d.Fit) (fun rest => rest = []) :=
  (definition_prints fun _ => True).many
    (fun d _ => by cases d <;> simp [Definition.print, CustomDataType.print, Capability.print])
    (fun _ _ _ => trivial) (by
      rintro _ rfl
      refine ⟨trivial, ?_⟩
      simp [definition, actorDefinition, capabilityDefinition, matchActor, matchCapability,
        matchKeyword, matchString])

theorem exists_definitions {ts : List Token} {program : Program}
    (h : fabl ts = some (program, [])) :
    ∃ ds : List Definition, (∀ d ∈ ds, d.Fit) ∧ ts = ds.flatMap Definition.print ∧
      program = .collect ds := by
  rw [fabl, Sinks.map_apply] at h
  obtain ⟨⟨ds, rest⟩, hds, heq⟩ := Option.map_eq_some_iff.mp h
  obtain ⟨rfl, rfl⟩ := Prod.mk.inj heq
  obtain ⟨hfit, hts⟩ := (definitions_prints.eq_some_nil_iff rfl).mp hds
  exact ⟨ds, hfit, hts, rfl⟩

theorem fabl_flatMap_print {ds : List Definition} (hfit : ∀ d ∈ ds, d.Fit) :
    fabl (ds.flatMap Definition.print) = some (.collect ds, []) := by
  have hds := (definitions_prints.eq_some_nil_iff rfl).mpr ⟨hfit, rfl⟩
  rw [fabl, Sinks.map_apply, hds]
  rfl

omit [Sinks] in
theorem collect_definitions (program : Program) : .collect program.definitions = program := by
  have hactor : Definition.actor? ∘ Definition.actor = some := rfl
  have hcapability : Definition.capability? ∘ Definition.capability = some := rfl
  have hnone : Definition.actor? ∘ Definition.capability = fun _ => none := rfl
  have hnone' : Definition.capability? ∘ Definition.actor = fun _ => none := rfl
  simp only [Program.collect, Program.definitions, List.filterMap_append, List.filterMap_map,
    hactor, hcapability, hnone, hnone', List.filterMap_some, List.filterMap_none, List.append_nil,
    List.nil_append]

omit [Sinks] in
/-- Collecting makes no definitions up. -/
theorem mem_of_mem_definitions {ds : List Definition} {d : Definition}
    (h : d ∈ (Program.collect ds).definitions) : d ∈ ds := by
  rcases List.mem_append.mp h with h | h
  · obtain ⟨a, ha, rfl⟩ := List.mem_map.mp h
    obtain ⟨d, hd, heq⟩ := List.mem_filterMap.mp ha
    cases d with
    | actor a' => exact Option.some.inj heq ▸ hd
    | capability c => cases heq
  · obtain ⟨c, hc, rfl⟩ := List.mem_map.mp h
    obtain ⟨d, hd, heq⟩ := List.mem_filterMap.mp hc
    cases d with
    | actor a => cases heq
    | capability c' => exact Option.some.inj heq ▸ hd

end Prints

/-! ## Numbers -/

/-- What `match_number` gives the `std::int32_t` it fills: the number, where that holds it. -/
class NumberSink where
  convert : Nat → LiteralInteger
  convert_toInt {n : Nat} (h : n < 2 ^ 31) : (convert n).toInt = n

/-- The number of the token fits in a `std::int32_t`. -/
def InRange : Fabl.Token Nat → Prop
  | .number n => n < 2 ^ 31
  | _ => True

instance : DecidablePred InRange := fun t =>
  match t with
  | .number n => inferInstanceAs (Decidable (n < 2 ^ 31))
  | .word _ | .point | .lparen | .rparen | .symbol _ => isTrue trivial

/-- The tokens are these, each number being the integer. -/
def Writes (ts : List (Fabl.Token Nat)) (us : List Token) : Prop :=
  ts.map (Token.map Int.ofNat) = us.map (Token.map Int32.toInt)

theorem map_toInt_injective : Function.Injective (Token.map Int32.toInt) := by
  intro t t' h
  cases t <;> cases t' <;> simp_all [Token.map, Int32.toInt_inj]

theorem Writes.inRange {ts : List (Fabl.Token Nat)} {us : List Token} (h : Writes ts us) :
    ∀ t ∈ ts, InRange t := by
  intro t ht
  have hmem : t.map Int.ofNat ∈ us.map (Token.map Int32.toInt) := h ▸ List.mem_map_of_mem ht
  obtain ⟨u, -, hu⟩ := List.mem_map.mp hmem
  cases t with
  | number n =>
      cases u with
      | number z =>
          have hz := z.toInt_lt
          have heq : z.toInt = n := Token.number.inj hu
          show n < 2 ^ 31
          omega
      | _ => cases hu
  | _ => trivial

/-- Where none of the integers is negative, there are tokens for them. -/
theorem exists_writes {us : List Token} (h : ∀ z, .number z ∈ us → 0 ≤ z.toInt) :
    ∃ ts, Writes ts us := by
  refine ⟨us.map (Token.map fun z => z.toInt.toNat), ?_⟩
  unfold Writes
  rw [List.map_map]
  refine List.map_congr_left fun t ht => ?_
  cases t with
  | number z => exact congrArg Token.number (Int.toNat_of_nonneg (h z ht))
  | _ => rfl

theorem Writes.nonneg {ts : List (Fabl.Token Nat)} {us : List Token} (h : Writes ts us)
    {z : LiteralInteger} (hz : .number z ∈ us) : 0 ≤ z.toInt := by
  have hmem : Token.map Int32.toInt (.number z) ∈ ts.map (Token.map Int.ofNat) :=
    h ▸ List.mem_map_of_mem hz
  obtain ⟨t, -, ht⟩ := List.mem_map.mp hmem
  cases t with
  | number n =>
      have heq : (n : Int) = z.toInt := Token.number.inj ht
      omega
  | _ => cases ht

/-! ## Reading a text -/

section Reading

variable [Sinks] [NumberSink]

/-- The grammar of a program on the tokens of a text. -/
def parseFabl (ts : List (Fabl.Token Nat)) : Option (Program × List Token) :=
  fabl (ts.map (Token.map NumberSink.convert))

omit [Sinks] in
/-- What the sinks see of a text whose numbers fit. -/
theorem map_convert_iff {ts : List (Fabl.Token Nat)} (hts : ∀ t ∈ ts, InRange t)
    {us : List Token} : ts.map (Token.map NumberSink.convert) = us ↔ Writes ts us := by
  have hconvert : (ts.map (Token.map NumberSink.convert)).map (Token.map Int32.toInt)
      = ts.map (Token.map Int.ofNat) := by
    rw [List.map_map]
    refine List.map_congr_left fun t ht => ?_
    have hrange := hts t ht
    cases t with
    | number n => exact congrArg Token.number (NumberSink.convert_toInt hrange)
    | _ => rfl
  rw [Writes, ← hconvert, map_toInt_injective.list_map.eq_iff]

/-- **What is accepted and what is built**: the rules take the whole of the tokens exactly if these
are the print of definitions that are fit, in any order of actors and capabilities, and the program
then has the actors and the capabilities in that order. -/
theorem fabl_iff (ts : List (Fabl.Token Nat)) (hts : ∀ t ∈ ts, InRange t) (program : Program) :
    parseFabl ts = some (program, []) ↔
      ∃ ds : List Definition, (∀ d ∈ ds, d.Fit) ∧ Writes ts (ds.flatMap Definition.print) ∧
        program = .collect ds := by
  constructor
  · intro h
    obtain ⟨ds, hfit, heq, hprogram⟩ := exists_definitions h
    exact ⟨ds, hfit, (map_convert_iff hts).mp heq, hprogram⟩
  · rintro ⟨ds, hfit, hwrites, rfl⟩
    rw [parseFabl, (map_convert_iff hts).mpr hwrites]
    exact fabl_flatMap_print hfit

/-- **The print of a program is its normal form**: a program that is read from any tokens is read
from its print. -/
theorem fabl_print_iff (program : Program) :
    (∃ ts, Writes ts program.print ∧ parseFabl ts = some (program, [])) ↔
      ∃ ts, (∀ t ∈ ts, InRange t) ∧ parseFabl ts = some (program, []) := by
  constructor
  · rintro ⟨ts, hwrites, hread⟩
    exact ⟨ts, hwrites.inRange, hread⟩
  · rintro ⟨ts, hts, hread⟩
    obtain ⟨ds, hfit, heq, rfl⟩ := exists_definitions hread
    have hwrites := (map_convert_iff hts).mp heq
    obtain ⟨ts', hwrites'⟩ : ∃ ts', Writes ts' (Program.collect ds).print := by
      refine exists_writes fun z hz => hwrites.nonneg ?_
      obtain ⟨d, hd, hz⟩ := List.mem_flatMap.mp hz
      exact List.mem_flatMap.mpr ⟨d, mem_of_mem_definitions hd, hz⟩
    have hprint := fabl_flatMap_print fun d hd => hfit d (mem_of_mem_definitions hd)
    rw [collect_definitions] at hprint
    refine ⟨ts', hwrites', ?_⟩
    rw [parseFabl, (map_convert_iff hwrites'.inRange).mpr hwrites']
    exact hprint

end Reading

section Plain

attribute [local instance] Parser.plainSinks

local instance : NumberSink := ⟨Int32.ofNat, Int32.toInt_ofNat_of_lt⟩

/-- An actor with a resource and a capability that is defined in place. -/
def chocobo : List (Fabl.Token Nat) :=
  [.word "actor", .word "chocobo", .symbol '{', .word "has", .number 4, .word "feather",
    .symbol ';', .word "can", .word "capability", .word "fly", .symbol '{', .word "pre",
    .symbol '{', .word "self", .point, .word "will", .symbol '>', .symbol '=', .number 42,
    .symbol ';', .symbol '}', .word "post", .symbol '{', .word "self", .point, .word "altitude",
    .symbol '=', .word "MAGIC", .symbol '+', .number 1, .symbol ';', .symbol '}', .symbol '}',
    .symbol ';', .symbol '}', .symbol ';']

theorem fabl_iff_chocobo :
    ∃ ds : List Definition, (∀ d ∈ ds, d.Fit) ∧ Writes chocobo (ds.flatMap Definition.print) ∧
      parseFabl chocobo = some (.collect ds, []) := by
  have hread : (parseFabl chocobo).map Prod.snd = some [] := by rfl
  obtain ⟨⟨program, rest⟩, hparse, hrest⟩ := Option.map_eq_some_iff.mp hread
  obtain rfl : rest = [] := hrest
  obtain ⟨ds, hfit, hwrites, rfl⟩ := (fabl_iff chocobo (by decide) program).mp hparse
  exact ⟨ds, hfit, hwrites, hparse⟩

end Plain

end Fabko.Fabl.Cst
