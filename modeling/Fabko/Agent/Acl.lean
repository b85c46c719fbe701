import Fabko.Text.Json
import Mathlib.Data.Finmap

/-!
# Agent communication messages on the wire

The messages of the agent communication language, their hand-written JSON codecs, and
serialization through a wire format. The reader asks the object it fills, not the text,
which optional parts to expect.
-/

set_option autoImplicit false

namespace Fabko.Acl

open Json

/-! ## Message types -/

/-- `enum class message_type : unsigned`. The underlying type is fixed, so a cast can also
produce a value that no enumerator names. -/
inductive MessageType where
  | acceptProposal
  | agree
  | cancel
  | cfp
  | confirm
  | disconfirm
  | failure
  | inform
  | informIf
  | notUnderstood
  | propose
  | queryIf
  | queryRef
  | refuse
  | rejectProposal
  | request
  | requestWhen
  | requestWhenever
  | subscribe
  | informRef
  | unnamed (value : UInt32) (h : 20 ≤ value)
  deriving DecidableEq

namespace MessageType

/-- The value of the underlying type. -/
def value : MessageType → UInt32
  | acceptProposal => 0
  | agree => 1
  | cancel => 2
  | cfp => 3
  | confirm => 4
  | disconfirm => 5
  | failure => 6
  | inform => 7
  | informIf => 8
  | notUnderstood => 9
  | propose => 10
  | queryIf => 11
  | queryRef => 12
  | refuse => 13
  | rejectProposal => 14
  | request => 15
  | requestWhen => 16
  | requestWhenever => 17
  | subscribe => 18
  | informRef => 19
  | unnamed value _ => value

/-- The enumerators, each at the place of its value. -/
def named : List MessageType :=
  [acceptProposal, agree, cancel, cfp, confirm, disconfirm, failure, inform, informIf,
    notUnderstood, propose, queryIf, queryRef, refuse, rejectProposal, request, requestWhen,
    requestWhenever, subscribe, informRef]

/-- `static_cast<message_type>(value)`. -/
def ofValue (value : UInt32) : MessageType :=
  if h : 20 ≤ value then unnamed value h
  else named.getD value.toNat acceptProposal

theorem ofValue_value (type : MessageType) : ofValue type.value = type := by
  cases type with
  | unnamed value h => simp [ofValue, MessageType.value, h]
  | _ => rfl

end MessageType

section Library

variable [Library]

instance : Codec MessageType where
  toJson type := .number type.value.toNat
  fromJson j _ := j.getNumber fun n => .ofValue (UInt32.ofInt n)

instance : LawfulCodec MessageType where
  fromJson_toJson type _ := by
    show (Value.number type.value.toNat).getNumber (fun n => .ofValue (UInt32.ofInt n)) = .ok type
    rw [getNumber_number, uint32_ofInt_toNat, MessageType.ofValue_value]

/-! ## Channels and messages -/

/-- `struct acc`: the conversation a message belongs to. -/
structure Acc where
  identifier : UInt32 := 0
  protocol : String := ""
  replyWith : Option String := none
  replyBy : Option String := none
  deriving DecidableEq

instance : Inhabited Acc := ⟨{}⟩

namespace Acc

/-- `to_json(serializer, acc)`: the identifier is not written. -/
def toJson (obj : Acc) : Value :=
  let serializer : Members := []
  let serializer := serializer.set "protocol" (Json.toJson obj.protocol)
  let serializer := serializer.setIfHeld "reply_with" obj.replyWith
  let serializer := serializer.setIfHeld "reply_by" obj.replyBy
  .object serializer

/-- `from_json(serializer, acc)`: a reply field is read when the object holds one already. -/
def fromJson (serializer : Value) (obj : Acc) : Except Error Acc := do
  let protocol ← serializer.getToAt "protocol" obj.protocol
  let replyWith ← serializer.getIfHeld "reply_with" obj.replyWith
  let replyBy ← serializer.getIfHeld "reply_by" obj.replyBy
  return { obj with protocol, replyWith, replyBy }

instance : Codec Acc := ⟨toJson, fromJson⟩

/-- Read into a value-initialised channel, only the protocol comes back. -/
theorem get_toJson (obj : Acc) : (toJson obj).get = .ok { protocol := obj.protocol : Acc } := by
  show fromJson (toJson obj) {} = _
  simp [fromJson, toJson, Value.getToAt, pure, Except.pure]

omit [Library] in
/-- A channel that carries nothing but its protocol. -/
theorem eq_protocol_only_iff (obj : Acc) :
    ({ protocol := obj.protocol } : Acc) = obj
      ↔ obj.identifier = 0 ∧ obj.replyWith = none ∧ obj.replyBy = none := by
  cases obj
  simp [eq_comm]

end Acc

/-- `struct message`. -/
structure Message where
  type : MessageType := .notUnderstood
  sender : String := ""
  receivers : List String := []
  envelope : Finmap (fun _ : String => String) := ∅
  content : List UInt8 := []
  ontology : String := ""
  communication : Option Acc := none

instance : Inhabited Message := ⟨{}⟩

namespace Message

/-- `to_json(serializer, message)`: the envelope is not written. -/
def toJson (obj : Message) : Value :=
  let serializer : Members := []
  let serializer := serializer.set "type" (Json.toJson obj.type)
  let serializer := serializer.set "sender" (Json.toJson obj.sender)
  let serializer := serializer.set "receivers" (Json.toJson obj.receivers)
  let serializer := serializer.set "content" (Json.toJson obj.content)
  let serializer := serializer.set "ontology" (Json.toJson obj.ontology)
  let serializer := serializer.setIfHeld "communication" obj.communication
  .object serializer

/-- `from_json(serializer, message)`: the channel is read when the object holds one already. -/
def fromJson (serializer : Value) (obj : Message) : Except Error Message := do
  let type ← serializer.getToAt "type" obj.type
  let sender ← serializer.getToAt "sender" obj.sender
  let receivers ← serializer.getToAt "receivers" obj.receivers
  let content ← serializer.getToAt "content" obj.content
  let ontology ← serializer.getToAt "ontology" obj.ontology
  let communication ← serializer.getIfHeld "communication" obj.communication
  return { obj with type, sender, receivers, content, ontology, communication }

instance : Codec Message := ⟨toJson, fromJson⟩

/-- What reading a written message does: every written member comes back, the envelope is
the reader's own, and the channel is the optional part. -/
theorem fromJson_toJson (obj into : Message) :
    fromJson (toJson obj) into
      = (do
          let communication ← (toJson obj).getIfHeld "communication" into.communication
          return { obj with envelope := into.envelope, communication }) := by
  simp [fromJson, toJson, Value.getToAt]

theorem atKey_communication (obj : Message) :
    (toJson obj).atKey "communication"
      = match obj.communication with
        | none => .error (.keyNotFound "communication")
        | some channel => .ok (Json.toJson channel) := by
  cases h : obj.communication <;> simp [toJson, h]

/-- A message is recovered when the reader already has its envelope and the channel,
on both sides or on neither, carries nothing but its protocol. -/
def Recoverable (obj into : Message) : Prop :=
  obj.envelope = into.envelope ∧
    ((obj.communication = none ∧ into.communication = none) ∨
      ∃ channel : Acc, obj.communication = some channel ∧ into.communication ≠ none ∧
        channel.identifier = 0 ∧ channel.replyWith = none ∧ channel.replyBy = none)

omit [Library] in
theorem with_eq_self_iff (obj : Message) (envelope : Finmap (fun _ : String => String))
    (communication : Option Acc) :
    ({ obj with envelope, communication } : Message) = obj
      ↔ obj.envelope = envelope ∧ obj.communication = communication := by
  cases obj
  simp [eq_comm]

theorem fromJson_toJson_iff (obj into : Message) :
    fromJson (toJson obj) into = .ok obj ↔ obj.Recoverable into := by
  have hwritten := atKey_communication obj
  rw [fromJson_toJson, Recoverable]
  cases hinto : into.communication with
  | none =>
      -- the reader skips the channel, so the writer must have none
      rw [getIfHeld_none, ok_bind]
      show Except.ok _ = Except.ok obj ↔ _
      rw [Except.ok.injEq, with_eq_self_iff]
      simp
  | some held =>
      cases hobj : obj.communication with
      | none =>
          rw [hobj] at hwritten
          rw [getIfHeld_absent held hwritten]
          simp
      | some channel =>
          -- what is read is a fresh channel that was given the protocol
          rw [hobj] at hwritten
          rw [getIfHeld_present held hwritten (Acc.get_toJson channel), ok_bind]
          show Except.ok _ = Except.ok obj ↔ _
          rw [Except.ok.injEq, with_eq_self_iff, hobj, Option.some.injEq, eq_comm (a := channel),
            Acc.eq_protocol_only_iff]
          simp

end Message

/-! ## Wire formats -/

/-- A wire format of the JSON library: what it writes and how it reads. -/
structure Wire (ω : Type) where
  write : Value → ω
  read : ω → Except Error Value

section Serialize

variable {ω α : Type} [Codec α]

/-- `to_binary(obj)` for the CBOR format, `to_json(obj)` for the text format. -/
def serialize (wire : Wire ω) (obj : α) : ω := wire.write (toJson obj)

/-- `deserialize(s, into)`. -/
def deserialize (wire : Wire ω) (s : ω) (into : α) : Except Error α := do
  let ser ← wire.read s
  fromJson ser into

omit [Library] in
/-- A wire format that reads back the JSON it wrote leaves the answer to the codec. -/
theorem deserialize_serialize {wire : Wire ω} {obj : α}
    (hwire : wire.read (wire.write (toJson obj)) = .ok (toJson obj)) (into : α) :
    deserialize wire (serialize wire obj) into = fromJson (toJson obj) into := by
  simp [deserialize, serialize, hwire]

end Serialize

/-! ## The round trip -/

/-- Over faithful wire formats, both deserializations make the target equal to the message
exactly when the target already had its envelope, and either neither of the two holds a
channel or both do and the message's one holds nothing but its protocol. -/
theorem deserialize_message_iff (cbor : Wire (List UInt8)) (text : Wire String)
    (m target : Message)
    (hcbor : cbor.read (cbor.write (toJson m)) = .ok (toJson m))
    (htext : text.read (text.write (toJson m)) = .ok (toJson m)) :
    (deserialize cbor (serialize cbor m) target = .ok m ∧
        deserialize text (serialize text m) target = .ok m)
      ↔ m.envelope = target.envelope ∧
          ((m.communication = none ∧ target.communication = none) ∨
            ∃ channel : Acc, m.communication = some channel ∧ target.communication ≠ none ∧
              channel.identifier = 0 ∧ channel.replyWith = none ∧ channel.replyBy = none) := by
  rw [deserialize_serialize hcbor, deserialize_serialize htext, and_self]
  exact Message.fromJson_toJson_iff m target

end Library

/-- An `inform` from `a` that opens a channel for the protocol `fipa`. -/
def opening : Message where
  type := .inform
  sender := "a"
  communication := some { protocol := "fipa" }

/-- The CBOR bytes of `opening`. -/
def openingBytes : List UInt8 :=
  [0xA6,
    0x6D, 0x63, 0x6F, 0x6D, 0x6D, 0x75, 0x6E, 0x69, 0x63, 0x61, 0x74, 0x69, 0x6F, 0x6E,
      0xA1, 0x68, 0x70, 0x72, 0x6F, 0x74, 0x6F, 0x63, 0x6F, 0x6C, 0x64, 0x66, 0x69, 0x70, 0x61,
    0x67, 0x63, 0x6F, 0x6E, 0x74, 0x65, 0x6E, 0x74, 0x80,
    0x68, 0x6F, 0x6E, 0x74, 0x6F, 0x6C, 0x6F, 0x67, 0x79, 0x60,
    0x69, 0x72, 0x65, 0x63, 0x65, 0x69, 0x76, 0x65, 0x72, 0x73, 0x80,
    0x66, 0x73, 0x65, 0x6E, 0x64, 0x65, 0x72, 0x61, 0x61,
    0x64, 0x74, 0x79, 0x70, 0x65, 0x07]

/-- The JSON text of `opening`. -/
def openingText : String :=
  "\x7b\"communication\":\x7b\"protocol\":\"fipa\"\x7d,\"content\":[],\"ontology\":\"\"," ++
    "\"receivers\":[],\"sender\":\"a\",\"type\":7\x7d"

section Plain

attribute [local instance] plainLibrary

/-- A format that knows one serialized object only. -/
def onlyOpening {ω : Type} [DecidableEq ω] (written : ω) : Wire ω where
  write _ := written
  read s := if s = written then .ok (toJson opening) else .error (.parseError 1)

/-- A target that already holds a channel gets the whole message. -/
theorem deserialize_message_iff_opening :
    deserialize (onlyOpening openingBytes) (serialize (onlyOpening openingBytes) opening)
          { communication := some {} }
        = .ok opening ∧
      deserialize (onlyOpening openingText) (serialize (onlyOpening openingText) opening)
          { communication := some {} }
        = .ok opening := by
  apply (deserialize_message_iff (onlyOpening openingBytes) (onlyOpening openingText) opening
    { communication := some {} } (by simp [onlyOpening]) (by simp [onlyOpening])).mpr
  exact ⟨rfl, Or.inr ⟨{ protocol := "fipa" }, rfl, by simp, rfl, rfl, rfl⟩⟩

/-- A default-constructed target drops the channel of the message. -/
theorem deserialize_opening_ne :
    deserialize (onlyOpening openingBytes) (serialize (onlyOpening openingBytes) opening) {}
        ≠ .ok opening ∧
      deserialize (onlyOpening openingText) (serialize (onlyOpening openingText) opening) {}
        ≠ .ok opening := by
  have hdropped : Message.fromJson (Message.toJson opening) {} ≠ .ok opening := by
    rw [Ne, Message.fromJson_toJson_iff]
    simp [Message.Recoverable, opening]
  constructor
  · rw [deserialize_serialize (by simp [onlyOpening])]
    exact hdropped
  · rw [deserialize_serialize (by simp [onlyOpening])]
    exact hdropped

end Plain

end Fabko.Acl
