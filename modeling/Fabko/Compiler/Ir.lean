import Fabko.Text.Json

/-!
# The intermediate representation and its JSON form

The programs of the compiler's intermediate representation and the codecs the source declares
for them: field lists for the structures, tables of strings for the enumerations. A type
without a codec of its own is coded field by field. What a field list leaves out comes back
as the reader had it, and what a table leaves out comes back as its first entry.
-/

set_option autoImplicit false

namespace Fabko.Ir

open Json

/-! ## Programs -/

inductive OperatorExec where
  | invalid
  | add
  | subtract
  | multiply
  | divide
  | modulo
  deriving DecidableEq, Inhabited, Repr

inductive ConstraintOperation where
  | invalid
  | equal
  | different
  | greaterThan
  | lessThan
  | greaterThanOrEqual
  | lessThanOrEqual
  deriving DecidableEq, Inhabited, Repr

structure SourceLoc where
  line : UInt64
  sourceName : String
  deriving DecidableEq, Inhabited, Repr

structure ActorId where
  name : String
  deriving DecidableEq, Inhabited, Repr

structure Resource where
  name : String
  loc : SourceLoc
  deriving DecidableEq, Inhabited, Repr

/-- `struct expression {}`: there are no fields yet. -/
structure Expression where
  deriving DecidableEq, Inhabited, Repr

structure StateVar where
  actor : ActorId
  rsc : Resource
  deriving DecidableEq, Inhabited, Repr

structure Constraint where
  lhs : Expression
  operation : ConstraintOperation
  rhs : Expression
  loc : SourceLoc
  deriving DecidableEq, Inhabited, Repr

structure Effect where
  lhs : StateVar
  op : OperatorExec
  rhs : StateVar
  loc : SourceLoc
  deriving DecidableEq, Inhabited, Repr

structure Capability where
  name : String
  actor : ActorId
  target : ActorId
  preconditions : List Constraint
  effects : List Effect
  loc : SourceLoc
  deriving DecidableEq, Inhabited, Repr

inductive OptiType where
  | minimize
  | maximize
  deriving DecidableEq, Inhabited, Repr

structure Optimization where
  type : OptiType
  rsc : Resource
  deriving DecidableEq, Inhabited, Repr

structure Request where
  actor : ActorId
  rsc : List Resource
  opti : Optimization
  loc : SourceLoc
  deriving DecidableEq, Inhabited, Repr

structure Program where
  actors : List ActorId
  resources : List Resource
  capabilities : List Capability
  req : Request
  deriving DecidableEq, Inhabited, Repr

/-- No operator and no comparison of the program is `INVALID`. -/
def Program.Valid (p : Program) : Prop :=
  ∀ c ∈ p.capabilities,
    (∀ pre ∈ c.preconditions, pre.operation ≠ .invalid) ∧ ∀ eff ∈ c.effects, eff.op ≠ .invalid

/-! ## Enumerations -/

/-- `NLOHMANN_JSON_SERIALIZE_ENUM(operator_exec, …)`. -/
def operatorExecTable : EnumTable OperatorExec where
  first := (.add, "add")
  rest := [(.subtract, "substract"), (.divide, "divide"), (.modulo, "modulo"),
    (.multiply, "multitply")]
  distinct := by decide

/-- `NLOHMANN_JSON_SERIALIZE_ENUM(constraint_operation, …)`. -/
def constraintOperationTable : EnumTable ConstraintOperation where
  first := (.equal, "equal")
  rest := [(.greaterThan, "greater than"), (.greaterThanOrEqual, "greater or equal than"),
    (.lessThan, "less than"), (.lessThanOrEqual, "less or equal than")]
  distinct := by decide

section Library

variable [Library]

instance : Codec OperatorExec where
  toJson := operatorExecTable.toJson
  fromJson j _ := .ok (operatorExecTable.fromJson j)

instance : Codec ConstraintOperation where
  toJson := constraintOperationTable.toJson
  fromJson j _ := .ok (constraintOperationTable.fromJson j)

omit [Library] in
/-- Every operator but `INVALID` is in the table. -/
theorem operatorExecTable_listed_iff (op : OperatorExec) :
    operatorExecTable.Listed op ↔ op ≠ .invalid := by
  cases op <;> simp [EnumTable.Listed, EnumTable.entries, operatorExecTable]

omit [Library] in
/-- The table of the comparisons lists neither `INVALID` nor `DIFFERENT`. -/
theorem constraintOperationTable_listed_iff (operation : ConstraintOperation) :
    constraintOperationTable.Listed operation
      ↔ operation ≠ .invalid ∧ operation ≠ .different := by
  cases operation <;> simp [EnumTable.Listed, EnumTable.entries, constraintOperationTable]

/-! ## Field lists -/

namespace SourceLoc

def toJson (t : SourceLoc) : Value :=
  let j : Members := []
  let j := j.set "line" (Json.toJson t.line)
  let j := j.set "source_name" (Json.toJson t.sourceName)
  .object j

def fromJson (j : Value) (t : SourceLoc) : Except Error SourceLoc := do
  let line ← j.getToAt "line" t.line
  let sourceName ← j.getToAt "source_name" t.sourceName
  return { t with line, sourceName }

instance : Codec SourceLoc := ⟨toJson, fromJson⟩

instance : LawfulCodec SourceLoc where
  fromJson_toJson t into := by
    show fromJson (toJson t) into = .ok t
    simp [fromJson, toJson, Value.getToAt, pure, Except.pure]

end SourceLoc

namespace ActorId

/-- `NLOHMANN_DEFINE_TYPE_NON_INTRUSIVE(actor_id, name_)`. -/
def toJson (t : ActorId) : Value :=
  let j : Members := []
  let j := j.set "name_" (Json.toJson t.name)
  .object j

def fromJson (j : Value) (t : ActorId) : Except Error ActorId := do
  let name ← j.getToAt "name_" t.name
  return { t with name }

instance : Codec ActorId := ⟨toJson, fromJson⟩

instance : LawfulCodec ActorId where
  fromJson_toJson t into := by
    show fromJson (toJson t) into = .ok t
    simp [fromJson, toJson, Value.getToAt, pure, Except.pure]

end ActorId

namespace Resource

def toJson (t : Resource) : Value :=
  let j : Members := []
  let j := j.set "name" (Json.toJson t.name)
  let j := j.set "loc" (Json.toJson t.loc)
  .object j

def fromJson (j : Value) (t : Resource) : Except Error Resource := do
  let name ← j.getToAt "name" t.name
  let loc ← j.getToAt "loc" t.loc
  return { t with name, loc }

instance : Codec Resource := ⟨toJson, fromJson⟩

instance : LawfulCodec Resource where
  fromJson_toJson t into := by
    show fromJson (toJson t) into = .ok t
    simp [fromJson, toJson, Value.getToAt, pure, Except.pure]

end Resource

/-- No field to write and none to read. -/
instance : Codec Expression where
  toJson _ := .null
  fromJson _ t := .ok t

instance : LawfulCodec Expression where
  fromJson_toJson _ _ := rfl

namespace StateVar

def toJson (t : StateVar) : Value :=
  let j : Members := []
  let j := j.set "actor" (Json.toJson t.actor)
  let j := j.set "rsc" (Json.toJson t.rsc)
  .object j

def fromJson (j : Value) (t : StateVar) : Except Error StateVar := do
  let actor ← j.getToAt "actor" t.actor
  let rsc ← j.getToAt "rsc" t.rsc
  return { t with actor, rsc }

instance : Codec StateVar := ⟨toJson, fromJson⟩

instance : LawfulCodec StateVar where
  fromJson_toJson t into := by
    show fromJson (toJson t) into = .ok t
    simp [fromJson, toJson, Value.getToAt, pure, Except.pure]

end StateVar

namespace Capability

/-- `NLOHMANN_DEFINE_TYPE_NON_INTRUSIVE(capability, name, actor, target, loc)`. -/
def toJson (t : Capability) : Value :=
  let j : Members := []
  let j := j.set "name" (Json.toJson t.name)
  let j := j.set "actor" (Json.toJson t.actor)
  let j := j.set "target" (Json.toJson t.target)
  let j := j.set "loc" (Json.toJson t.loc)
  .object j

def fromJson (j : Value) (t : Capability) : Except Error Capability := do
  let name ← j.getToAt "name" t.name
  let actor ← j.getToAt "actor" t.actor
  let target ← j.getToAt "target" t.target
  let loc ← j.getToAt "loc" t.loc
  return { t with name, actor, target, loc }

instance : Codec Capability := ⟨toJson, fromJson⟩

/-- The preconditions and the effects are those of the capability read into. -/
theorem fromJson_toJson (t into : Capability) :
    fromJson (toJson t) into
      = .ok { t with preconditions := into.preconditions, effects := into.effects } := by
  simp [fromJson, toJson, Value.getToAt, pure, Except.pure]

/-- The capability without its preconditions and effects. -/
def bare (t : Capability) : Capability := { t with preconditions := [], effects := [] }

omit [Library] in
theorem bare_eq_iff (t : Capability) :
    t.bare = t ↔ t.preconditions = [] ∧ t.effects = [] := by
  cases t
  simp [bare, eq_comm]

theorem get_toJson (t : Capability) : (toJson t).get = .ok t.bare := fromJson_toJson t default

end Capability

namespace Effect

/-- `NLOHMANN_DEFINE_TYPE_NON_INTRUSIVE(effect, lhs, op, rhs, loc)`. -/
def toJson (t : Effect) : Value :=
  let j : Members := []
  let j := j.set "lhs" (Json.toJson t.lhs)
  let j := j.set "op" (Json.toJson t.op)
  let j := j.set "rhs" (Json.toJson t.rhs)
  let j := j.set "loc" (Json.toJson t.loc)
  .object j

def fromJson (j : Value) (t : Effect) : Except Error Effect := do
  let lhs ← j.getToAt "lhs" t.lhs
  let op ← j.getToAt "op" t.op
  let rhs ← j.getToAt "rhs" t.rhs
  let loc ← j.getToAt "loc" t.loc
  return { t with lhs, op, rhs, loc }

instance : Codec Effect := ⟨toJson, fromJson⟩

/-- An effect survives exactly when its operator is valid. -/
theorem fromJson_toJson_iff (t into : Effect) :
    fromJson (toJson t) into = .ok t ↔ t.op ≠ .invalid := by
  rw [← operatorExecTable_listed_iff, ← EnumTable.fromJson_toJson_iff]
  have hop : Json.fromJson (Json.toJson t.op) into.op
      = .ok (operatorExecTable.fromJson (operatorExecTable.toJson t.op)) := rfl
  cases t
  simp_all [fromJson, toJson, Value.getToAt, pure, Except.pure]

end Effect

namespace Constraint

/-- `NLOHMANN_DEFINE_TYPE_NON_INTRUSIVE(constraint, lhs, operation, rhs, loc)`. -/
def toJson (t : Constraint) : Value :=
  let j : Members := []
  let j := j.set "lhs" (Json.toJson t.lhs)
  let j := j.set "operation" (Json.toJson t.operation)
  let j := j.set "rhs" (Json.toJson t.rhs)
  let j := j.set "loc" (Json.toJson t.loc)
  .object j

def fromJson (j : Value) (t : Constraint) : Except Error Constraint := do
  let lhs ← j.getToAt "lhs" t.lhs
  let operation ← j.getToAt "operation" t.operation
  let rhs ← j.getToAt "rhs" t.rhs
  let loc ← j.getToAt "loc" t.loc
  return { t with lhs, operation, rhs, loc }

instance : Codec Constraint := ⟨toJson, fromJson⟩

/-- A constraint survives exactly when its comparison is listed: `DIFFERENT` is not. -/
theorem fromJson_toJson_iff (t into : Constraint) :
    fromJson (toJson t) into = .ok t ↔ t.operation ≠ .invalid ∧ t.operation ≠ .different := by
  rw [← constraintOperationTable_listed_iff, ← EnumTable.fromJson_toJson_iff]
  have hoperation : Json.fromJson (Json.toJson t.operation) into.operation
      = .ok (constraintOperationTable.fromJson (constraintOperationTable.toJson t.operation)) :=
    rfl
  cases t
  simp_all [fromJson, toJson, Value.getToAt, pure, Except.pure]

end Constraint

namespace Program

/-- `NLOHMANN_DEFINE_TYPE_NON_INTRUSIVE(program, actors, resources, capabilities)`. -/
def toJson (t : Program) : Value :=
  let j : Members := []
  let j := j.set "actors" (Json.toJson t.actors)
  let j := j.set "resources" (Json.toJson t.resources)
  let j := j.set "capabilities" (Json.toJson t.capabilities)
  .object j

def fromJson (j : Value) (t : Program) : Except Error Program := do
  let actors ← j.getToAt "actors" t.actors
  let resources ← j.getToAt "resources" t.resources
  let capabilities ← j.getToAt "capabilities" t.capabilities
  return { t with actors, resources, capabilities }

instance : Codec Program := ⟨toJson, fromJson⟩

/-- The actors and resources come back, the capabilities come back bare, and the request
is that of the program read into. -/
theorem fromJson_toJson (t into : Program) :
    fromJson (toJson t) into
      = .ok { t with capabilities := t.capabilities.map Capability.bare, req := into.req } := by
  have hcapabilities : Json.fromJson (Json.toJson t.capabilities) into.capabilities
      = .ok (t.capabilities.map Capability.bare) :=
    fromJson_toJson_list Capability.get_toJson t.capabilities into.capabilities
  simp [fromJson, toJson, Value.getToAt, hcapabilities, pure, Except.pure]

end Program

/-! ## The round trip -/

/-- The decoded program is the encoded one exactly when no capability has a precondition or
an effect and the request is the value-initialised one. -/
theorem program_get_toJson_iff (p : Program) :
    (toJson p).get = .ok p
      ↔ (∀ c ∈ p.capabilities, c.preconditions = [] ∧ c.effects = []) ∧ p.req = default := by
  have hread : (toJson p).get
      = .ok { p with capabilities := p.capabilities.map Capability.bare, req := default } :=
    Program.fromJson_toJson p default
  have hcapabilities : p.capabilities.map Capability.bare = p.capabilities
      ↔ ∀ c ∈ p.capabilities, c.preconditions = [] ∧ c.effects = [] := by
    calc p.capabilities.map Capability.bare = p.capabilities
        ↔ p.capabilities.map Capability.bare = p.capabilities.map id := by rw [List.map_id]
      _ ↔ ∀ c ∈ p.capabilities, c.bare = id c := List.map_inj_left
      _ ↔ ∀ c ∈ p.capabilities, c.preconditions = [] ∧ c.effects = [] :=
          forall₂_congr fun c _ => c.bare_eq_iff
  rw [hread, ← hcapabilities]
  cases p
  simp [eq_comm]

/-- A capability of an actor to itself that requires its two sides to differ. -/
def guarded : Program where
  actors := [⟨"a"⟩]
  resources := []
  capabilities := [{
    name := "c"
    actor := ⟨"a"⟩
    target := ⟨"a"⟩
    preconditions := [{ lhs := {}, operation := .different, rhs := {}, loc := ⟨1, "f"⟩ }]
    effects := []
    loc := ⟨1, "f"⟩ }]
  req := default

end Library

section Plain

attribute [local instance] plainLibrary

/-- The precondition is not written, so the decoded capability has none. -/
theorem guarded_get_toJson_ne : guarded.Valid ∧ (toJson guarded).get ≠ .ok guarded := by
  constructor
  · simp [Program.Valid, guarded]
  · have hread : (toJson guarded).get
        = .ok { guarded with
            capabilities := guarded.capabilities.map Capability.bare
            req := default } :=
      Program.fromJson_toJson guarded default
    rw [hread]
    simp [guarded, Capability.bare]

end Plain

end Fabko.Ir
