import Mathlib.Data.List.Basic
import Mathlib.Data.List.Nodup
import Mathlib.Tactic.SplitIfs

/-!
# JSON values and codecs that read into an object

JSON values, the checked accesses of a library for them, of which only what it documents is
used, and hand-written codecs. A reader is given the object it writes into, so what it does
may depend on what that object holds, and members it does not read keep their old value.
-/

set_option autoImplicit false

namespace Json

/-! ## Values -/

/-- A JSON value. Numbers are integers: no codec here writes another number. -/
inductive Value where
  | null
  | boolean (b : Bool)
  | number (n : Int)
  | string (s : String)
  | array (elements : List Value)
  | object (members : List (String × Value))

/-- What a value is, as the errors of the library name it. -/
inductive Kind where
  | null
  | boolean
  | number
  | string
  | array
  | object
  deriving DecidableEq, Repr

def Value.kind : Value → Kind
  | .null => .null
  | .boolean _ => .boolean
  | .number _ => .number
  | .string _ => .string
  | .array _ => .array
  | .object _ => .object

/-- The exceptions of the library: a text that is no JSON, and the checked accesses. -/
inductive Error where
  | parseError (byte : Nat)
  /-- `type must be expected, but is found` -/
  | typeMustBe (expected found : Kind)
  /-- `cannot use at() with found` -/
  | cannotUseAt (found : Kind)
  /-- `key 'key' not found` -/
  | keyNotFound (key : String)
  deriving DecidableEq, Repr

/-- The members of an object. -/
abbrev Members := List (String × Value)

/-- The table of an enumeration: its first entry also stands for what is not listed. -/
structure EnumTable (α : Type) where
  first : α × String
  rest : List (α × String)
  /-- No two entries share a string. -/
  distinct : ((first :: rest).map Prod.snd).Nodup

def EnumTable.entries {α : Type} (table : EnumTable α) : List (α × String) :=
  table.first :: table.rest

/-! ## The library -/

/-- The accesses of the library, and what the macro for enumerations defines. -/
class Library where
  /-- `json[key] = value` on an object. -/
  set : Members → String → Value → Members
  /-- `json.at(key)`. -/
  atKey : Value → String → Except Error Value
  /-- A string, an arithmetic type before its cast and the elements of a vector, as they are
  read. -/
  readString : Value → Except Error String
  readNumber : Value → Except Error Int
  readElements : Value → Except Error (List Value)
  enumToJson : {α : Type} → [DecidableEq α] → EnumTable α → α → Value
  enumFromJson : {α : Type} → EnumTable α → Value → α
  lookup_set : ∀ (members : Members) (key other : String) (value : Value),
    List.lookup other (set members key value)
      = if other = key then some value else List.lookup other members
  atKey_object : ∀ (members : Members) (key : String),
    atKey (.object members) key
      = match members.lookup key with
        | some value => .ok value
        | none => .error (.keyNotFound key)
  atKey_of_kind : ∀ (j : Value) (key : String), j.kind ≠ .object →
    atKey j key = .error (.cannotUseAt j.kind)
  readString_string : ∀ s : String, readString (.string s) = .ok s
  readString_of_kind : ∀ j : Value, j.kind ≠ .string →
    readString j = .error (.typeMustBe .string j.kind)
  readNumber_number : ∀ n : Int, readNumber (.number n) = .ok n
  readNumber_of_kind : ∀ j : Value, j.kind ≠ .number →
    readNumber j = .error (.typeMustBe .number j.kind)
  readElements_array : ∀ elements : List Value, readElements (.array elements) = .ok elements
  readElements_of_kind : ∀ j : Value, j.kind ≠ .array →
    readElements j = .error (.typeMustBe .array j.kind)
  /-- The string of the first entry with this enumerator, else that of the first entry. -/
  enumToJson_eq : ∀ {α : Type} [DecidableEq α] (table : EnumTable α) (e : α),
    enumToJson table e
      = .string ((table.entries.find? fun entry => entry.1 = e).getD table.first).2
  /-- The enumerator of the first entry with this string, else that of the first entry. -/
  enumFromJson_string : ∀ {α : Type} (table : EnumTable α) (s : String),
    enumFromJson table (.string s)
      = ((table.entries.find? fun entry => entry.2 = s).getD table.first).1

/-- Looking a key up in a list whose first entry is `(k, v)`. -/
theorem lookup_cons_eq (members : Members) (k key : String) (v : Value) :
    List.lookup key ((k, v) :: members)
      = if key = k then some v else List.lookup key members := by
  by_cases h : key = k
  · simp [h]
  · have hne : (key == k) = false := by simpa using h
    simp [List.lookup_cons, hne, h]

/-- Setting a member of an object that keeps its members in the order of their keys. -/
def insertMember (members : Members) (key : String) (value : Value) : Members :=
  match members with
  | [] => [(key, value)]
  | (k, v) :: rest =>
      if key < k then (key, value) :: (k, v) :: rest
      else if key = k then (key, value) :: rest
      else (k, v) :: insertMember rest key value

theorem lookup_insertMember (members : Members) (key other : String) (value : Value) :
    List.lookup other (insertMember members key value)
      = if other = key then some value else List.lookup other members := by
  induction members with
  | nil => rw [insertMember, lookup_cons_eq]
  | cons entry rest ih =>
      obtain ⟨k, v⟩ := entry
      rw [insertMember, lookup_cons_eq]
      split_ifs with hlt heq hother hk <;> simp_all [lookup_cons_eq]

/-- The library whose objects are ordered maps, for running examples. -/
abbrev plainLibrary : Library where
  set := insertMember
  atKey j key :=
    match j with
    | .object members =>
        match members.lookup key with
        | some value => .ok value
        | none => .error (.keyNotFound key)
    | other => .error (.cannotUseAt other.kind)
  readString
    | .string s => .ok s
    | j => .error (.typeMustBe .string j.kind)
  readNumber
    | .number n => .ok n
    | j => .error (.typeMustBe .number j.kind)
  readElements
    | .array elements => .ok elements
    | j => .error (.typeMustBe .array j.kind)
  enumToJson table e := .string ((table.entries.find? fun entry => entry.1 = e).getD table.first).2
  enumFromJson table j :=
    match j with
    | .string s => ((table.entries.find? fun entry => entry.2 = s).getD table.first).1
    | _ => table.first.1
  lookup_set := lookup_insertMember
  atKey_object _ _ := rfl
  atKey_of_kind j _ h := by cases j <;> first | rfl | exact absurd rfl h
  readString_string _ := rfl
  readString_of_kind j h := by cases j <;> first | rfl | exact absurd rfl h
  readNumber_number _ := rfl
  readNumber_of_kind j h := by cases j <;> first | rfl | exact absurd rfl h
  readElements_array _ := rfl
  readElements_of_kind j h := by cases j <;> first | rfl | exact absurd rfl h
  enumToJson_eq _ _ := rfl
  enumFromJson_string _ _ := rfl

variable [Library]

def Members.set (members : Members) (key : String) (value : Value) : Members :=
  Library.set members key value

def Value.atKey (j : Value) (key : String) : Except Error Value := Library.atKey j key

/-- A member that was set is found, and setting it leaves the other keys alone. -/
@[simp] theorem atKey_set (members : Members) (key other : String) (value : Value) :
    (Value.object (members.set key value)).atKey other
      = if other = key then .ok value else (Value.object members).atKey other := by
  simp only [Value.atKey, Members.set, Library.atKey_object, Library.lookup_set]
  by_cases h : other = key <;> simp [h]

@[simp] theorem atKey_empty (key : String) :
    (Value.object []).atKey key = .error (.keyNotFound key) := by
  simp [Value.atKey, Library.atKey_object]

/-! ## Codecs -/

/-- A type with a `to_json` and a `from_json`; `fromJson j into` is what `into` becomes. -/
class Codec (α : Type) where
  toJson : α → Value
  fromJson : Value → α → Except Error α

export Codec (toJson fromJson)

section Access

variable {α : Type} [Codec α]

/-- `json.at(key).get_to(target)`. -/
def Value.getToAt (j : Value) (key : String) (target : α) : Except Error α := do
  fromJson (← j.atKey key) target

/-- `json.get<T>()`: the object read into is value-initialised. -/
def Value.get [Inhabited α] (j : Value) : Except Error α :=
  fromJson j default

/-- `if (held.has_value()) held = json.at(key).get<T>();` -/
def Value.getIfHeld [Inhabited α] (j : Value) (key : String) (held : Option α) :
    Except Error (Option α) :=
  match held with
  | none => .ok none
  | some _ => do
      let value ← j.atKey key
      let read : α ← value.get
      return some read

/-- `if (obj.has_value()) json[key] = obj.value();` -/
def Members.setIfHeld (members : Members) (key : String) (obj : Option α) : Members :=
  match obj with
  | none => members
  | some value => members.set key (toJson value)

@[simp] theorem atKey_setIfHeld (members : Members) (key other : String) (obj : Option α) :
    (Value.object (members.setIfHeld key obj)).atKey other
      = if other = key then
          (obj.map fun value => Except.ok (toJson value)).getD
            ((Value.object members).atKey other)
        else (Value.object members).atKey other := by
  cases obj <;> simp [Members.setIfHeld]

end Access

omit [Library] in
/-- Binding a value that was read. -/
@[simp] theorem ok_bind {α β : Type} (a : α) (f : α → Except Error β) :
    (Except.ok a >>= f) = f a := rfl

omit [Library] in
@[simp] theorem error_bind {α β : Type} (e : Error) (f : α → Except Error β) :
    ((Except.error e : Except Error α) >>= f) = .error e := rfl

/-- A codec whose written form reads back as the object, whatever is read into. -/
class LawfulCodec (α : Type) [Codec α] : Prop where
  fromJson_toJson : ∀ obj into : α, fromJson (toJson obj) into = .ok obj

attribute [simp] LawfulCodec.fromJson_toJson

omit [Library] in
@[simp] theorem get_toJson {α : Type} [Codec α] [LawfulCodec α] [Inhabited α] (obj : α) :
    (toJson obj).get = .ok obj :=
  LawfulCodec.fromJson_toJson obj default

/-! ## Optional parts

An optional part is written when the writer's object holds it and read when the reader's
object does. The two objects have to agree on that. -/

section Optional

variable {α : Type} [Codec α] [Inhabited α]

/-- The part is skipped by a reader that holds none. -/
@[simp] theorem getIfHeld_none (j : Value) (key : String) :
    j.getIfHeld key (none : Option α) = .ok none := rfl

/-- A reader that holds a part throws when the writer held none. -/
theorem getIfHeld_absent {j : Value} {key : String} (held : α)
    (habsent : j.atKey key = .error (.keyNotFound key)) :
    j.getIfHeld key (some held) = .error (.keyNotFound key) := by
  simp [Value.getIfHeld, habsent]

/-- A reader that holds a part gets what a value-initialised object reads. -/
theorem getIfHeld_present {j : Value} {key : String} {obj read : α} (held : α)
    (hpresent : j.atKey key = .ok (toJson obj)) (hget : (toJson obj).get = .ok read) :
    j.getIfHeld key (some held) = .ok (some read) := by
  simp [Value.getIfHeld, hpresent, hget, pure, Except.pure]

end Optional

/-! ## Strings, machine integers and vectors -/

instance : Codec String where
  toJson := .string
  fromJson j _ := Library.readString j

instance : LawfulCodec String where
  fromJson_toJson s _ := Library.readString_string s

/-- The arithmetic read: the number is cast to the target type. -/
def Value.getNumber {α : Type} (cast : Int → α) (j : Value) : Except Error α :=
  (Library.readNumber j).map cast

@[simp] theorem getNumber_number {α : Type} (cast : Int → α) (n : Int) :
    (Value.number n).getNumber cast = .ok (cast n) := by
  rw [Value.getNumber, Library.readNumber_number]
  rfl

omit [Library] in
/-- Casting the value of a machine integer gives it back: the residue of a number
that fits is the number. -/
theorem toNat_emod_natCast {n size : Nat} (h : n < size) : ((n : Int) % size).toNat = n := by
  rw [Int.emod_eq_of_lt (by omega) (by omega), Int.toNat_natCast]

omit [Library] in
theorem uint8_ofInt_toNat (x : UInt8) : UInt8.ofInt x.toNat = x := by
  have hsmall : ((x.toNat : Int) % 2 ^ 8).toNat = x.toNat := toNat_emod_natCast x.toNat_lt
  rw [UInt8.ofInt, hsmall, UInt8.ofNat_toNat]

omit [Library] in
theorem uint32_ofInt_toNat (x : UInt32) : UInt32.ofInt x.toNat = x := by
  have hsmall : ((x.toNat : Int) % 2 ^ 32).toNat = x.toNat := toNat_emod_natCast x.toNat_lt
  rw [UInt32.ofInt, hsmall, UInt32.ofNat_toNat]

omit [Library] in
theorem uint64_ofInt_toNat (x : UInt64) : UInt64.ofInt x.toNat = x := by
  have hsmall : ((x.toNat : Int) % 2 ^ 64).toNat = x.toNat := toNat_emod_natCast x.toNat_lt
  rw [UInt64.ofInt, hsmall, UInt64.ofNat_toNat]

instance : Codec UInt8 where
  toJson x := .number x.toNat
  fromJson j _ := j.getNumber UInt8.ofInt

instance : LawfulCodec UInt8 where
  fromJson_toJson x _ :=
    (getNumber_number UInt8.ofInt _).trans (congrArg Except.ok (uint8_ofInt_toNat x))

instance : Codec UInt64 where
  toJson x := .number x.toNat
  fromJson j _ := j.getNumber UInt64.ofInt

instance : LawfulCodec UInt64 where
  fromJson_toJson x _ :=
    (getNumber_number UInt64.ofInt _).trans (congrArg Except.ok (uint64_ofInt_toNat x))

section Vector

variable {α : Type} [Codec α] [Inhabited α]

/-- A vector is written as an array; each element is read into a value-initialised one. -/
instance : Codec (List α) where
  toJson xs := .array (xs.map toJson)
  fromJson j _ := do
    let elements ← Library.readElements j
    elements.mapM Value.get

/-- What comes back of a vector, from what comes back of each element. -/
theorem fromJson_toJson_list {f : α → α} (hget : ∀ x : α, (toJson x).get = .ok (f x))
    (xs into : List α) : fromJson (toJson xs) into = .ok (xs.map f) := by
  have helements : fromJson (toJson xs) into = (xs.map toJson).mapM Value.get := by
    show (Library.readElements (.array (xs.map toJson)) >>= fun elements =>
      elements.mapM Value.get) = _
    rw [Library.readElements_array, ok_bind]
  rw [helements]
  clear helements
  induction xs with
  | nil => rfl
  | cons x rest ih =>
      rw [List.map_cons, List.mapM_cons, hget x, ok_bind, ih]
      rfl

instance [LawfulCodec α] : LawfulCodec (List α) where
  fromJson_toJson xs into := by
    have hread := fromJson_toJson_list (f := id) get_toJson xs into
    rw [hread, List.map_id]

end Vector

/-! ## Enumerations with a table of strings -/

namespace EnumTable

variable {α : Type} [DecidableEq α]

def toJson (table : EnumTable α) (e : α) : Value := Library.enumToJson table e

def fromJson (table : EnumTable α) (j : Value) : α := Library.enumFromJson table j

/-- The enumerators with an entry of their own. -/
def Listed (table : EnumTable α) (e : α) : Prop := ∃ entry ∈ table.entries, entry.1 = e

variable (table : EnumTable α)

omit [DecidableEq α] in
/-- The string of an entry is read back as the enumerator of that entry. -/
theorem fromJson_string {entry : α × String} (hentry : entry ∈ table.entries) :
    table.fromJson (.string entry.2) = entry.1 := by
  have hfound : (table.entries.find? fun e => e.2 = entry.2) = some entry := by
    cases hfind : table.entries.find? fun e => e.2 = entry.2 with
    | none =>
        have habsent := List.find?_eq_none.mp hfind entry hentry
        simp at habsent
    | some other =>
        have hsame : other.2 = entry.2 := by simpa using List.find?_some hfind
        have hmem : other ∈ table.entries := List.mem_of_find?_eq_some hfind
        rw [List.inj_on_of_nodup_map table.distinct hmem hentry hsame]
  simp [fromJson, Library.enumFromJson_string, hfound]

/-- An unlisted enumerator is written as the first entry. -/
theorem toJson_of_not_listed {e : α} (h : ¬ table.Listed e) :
    table.toJson e = .string table.first.2 := by
  have hnone : (table.entries.find? fun entry => entry.1 = e) = none := by
    apply List.find?_eq_none.mpr
    intro entry hentry hsame
    exact h ⟨entry, hentry, by simpa using hsame⟩
  simp [toJson, Library.enumToJson_eq, hnone]

/-- A listed enumerator is written as one of its own entries. -/
theorem exists_toJson_of_listed {e : α} (h : table.Listed e) :
    ∃ entry ∈ table.entries, entry.1 = e ∧ table.toJson e = .string entry.2 := by
  obtain ⟨listed, hlisted, rfl⟩ := h
  cases hfind : table.entries.find? fun entry => entry.1 = listed.1 with
  | none =>
      have habsent := List.find?_eq_none.mp hfind listed hlisted
      simp at habsent
  | some entry =>
      have hsame : entry.1 = listed.1 := by simpa using List.find?_some hfind
      refine ⟨entry, List.mem_of_find?_eq_some hfind, hsame, ?_⟩
      simp [toJson, Library.enumToJson_eq, hfind]

/-- An enumerator survives exactly when the table lists it. -/
theorem fromJson_toJson_iff (e : α) : table.fromJson (table.toJson e) = e ↔ table.Listed e := by
  constructor
  · intro hsame
    by_contra hunlisted
    rw [toJson_of_not_listed table hunlisted,
      fromJson_string table (List.mem_cons_self : table.first ∈ table.entries)] at hsame
    exact hunlisted ⟨table.first, List.mem_cons_self, hsame⟩
  · intro hlisted
    obtain ⟨entry, hentry, hsame, hwritten⟩ := exists_toJson_of_listed table hlisted
    rw [hwritten, fromJson_string table hentry, hsame]

end EnumTable

end Json
