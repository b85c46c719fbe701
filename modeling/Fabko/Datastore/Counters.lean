import Fabko.Datastore.Isolation
import Fabko.Text.Numeral
import Mathlib.Tactic.Positivity

set_option autoImplicit false

/-!
# Numbers under the keys of the store

`get_as` of a `kv_rocksdb` transaction for the integral types, and what clients can count with it.
The value is read by `std::stoul` for the unsigned types and by `std::stoi` for the signed ones,
whatever their width, and then converted to the type.
-/

namespace Fabko.Datastore

open Optimistic Text

/-! ## `get_as` -/

/-- The integral types, with their bits. -/
inductive Integral where
  | bool
  | unsigned (bits : Nat)
  | signed (bits : Nat) (pos : 0 < bits)

/-- The bits of `int` and of `unsigned long`. -/
structure DataModel where
  int : Nat
  long : Nat

def lp64 : DataModel := ⟨32, 64⟩

namespace Integral

/-- The implicit conversion to the type. -/
def convert : Integral → Int → Int
  | bool, n => if n = 0 then 0 else 1
  | unsigned bits, n => n % 2 ^ bits
  | signed bits _, n => n.bmod (2 ^ bits)

/-- The branches of `get_as`. -/
def parse (model : DataModel) (type : Integral) (value : String) : Except ConversionError Int :=
  match type with
  | bool | unsigned _ => (stoul model.long value.toList).map type.convert
  | signed _ _ => (stoi model.int value.toList).map type.convert

/-- The values of the type. -/
def Holds : Integral → Int → Prop
  | bool, n => n = 0 ∨ n = 1
  | unsigned bits, n => 0 ≤ n ∧ n < 2 ^ bits
  | signed bits _, n => -2 ^ (bits - 1) ≤ n ∧ n < 2 ^ (bits - 1)

/-- The values that the conversion of the branch can read. -/
def Readable (model : DataModel) : Integral → Int → Prop
  | bool, n | unsigned _, n => n < 2 ^ model.long
  | signed _ _, n => -2 ^ (model.int - 1) ≤ n ∧ n < 2 ^ (model.int - 1)

instance (model : DataModel) (type : Integral) (n : Int) : Decidable (type.Readable model n) :=
  match type with
  | bool | unsigned _ => inferInstanceAs (Decidable (n < 2 ^ model.long))
  | signed _ _ => inferInstanceAs (Decidable (_ ∧ _))

theorem Holds.convert_eq {type : Integral} {n : Int} (h : type.Holds n) : type.convert n = n := by
  cases type with
  | bool =>
      rcases h with rfl | rfl <;> rfl
  | unsigned bits => exact Int.emod_eq_of_lt h.1 h.2
  | signed bits pos =>
      obtain ⟨k, rfl⟩ : ∃ k, bits = k + 1 := ⟨bits - 1, by omega⟩
      have hpow : ((2 ^ (k + 1) : Nat) : Int) = 2 * 2 ^ k := by
        push_cast
        rw [pow_succ, mul_comm]
      obtain ⟨hlow, hhigh⟩ := h
      rw [Nat.add_sub_cancel] at hlow hhigh
      exact Int.bmod_eq_of_le_mul_two (by omega) (by omega)

end Integral

/-- What a client puts under a key for a number. -/
def numberText (n : Int) : String := String.ofList (toText n)

inductive AccessError where
  | thrown (e : Exception)
  | conversion (e : ConversionError)
deriving DecidableEq, Repr

def getAs [RocksDb] (ndebug : Bool) (model : DataModel) (type : Integral) (db : Db) (t : Txn)
    (key : String) : Except AccessError Int :=
  match get ndebug db t key with
  | .error e => .error (.thrown e)
  | .ok value => (type.parse model value).mapError .conversion

/-- **A number is read back** if the conversion can hold it, and is out of its range else. -/
theorem parse_numberText (model : DataModel) {type : Integral} {n : Int} (h : type.Holds n) :
    type.parse model (numberText n)
      = if type.Readable model n then .ok n else .error .outOfRange := by
  -- bool and the unsigned types are read alike
  have hunsigned : 0 ≤ n → (stoul model.long (toText n)).map type.convert
      = if n < 2 ^ model.long then .ok n else .error .outOfRange := by
    intro hpos
    have hlt : n.natAbs < 2 ^ model.long ↔ n < 2 ^ model.long := by
      rw [← Int.ofNat_lt, Int.natAbs_of_nonneg hpos]
      push_cast
      rfl
    rw [stoul_toText]
    by_cases hfit : n < 2 ^ model.long
    · rw [if_pos (hlt.mpr hfit), if_pos hfit, Int.emod_eq_of_lt hpos hfit]
      exact congrArg Except.ok h.convert_eq
    · rw [if_neg (fun hc => hfit (hlt.mp hc)), if_neg hfit]
      rfl
  have htext : (numberText n).toList = toText n := String.toList_ofList
  unfold Integral.parse
  rw [htext]
  cases type with
  | bool =>
      refine hunsigned ?_
      rcases h with rfl | rfl <;> decide
  | unsigned bits => exact hunsigned h.1
  | signed bits pos =>
      show (stoi model.int (toText n)).map _ = _
      rw [stoi_toText]
      show _ = if -2 ^ (model.int - 1) ≤ n ∧ n < 2 ^ (model.int - 1) then _ else _
      split
      · exact congrArg Except.ok h.convert_eq
      · rfl

/-! ## What is taken for a number -/

namespace Integral

/-- The sign and the magnitude are in the range of the conversion. -/
def Takes (model : DataModel) (type : Integral) (neg : Bool) (n : Nat) : Prop :=
  match type with
  | bool | unsigned _ => n < 2 ^ model.long
  | signed _ _ => -2 ^ (model.int - 1) ≤ Text.signed neg n ∧ Text.signed neg n < 2 ^ (model.int - 1)

/-- The number before it is converted to the type: `std::stoul` takes a minus modulo. -/
def wide (model : DataModel) (type : Integral) (neg : Bool) (n : Nat) : Int :=
  match type with
  | bool | unsigned _ => Text.signed neg n % 2 ^ model.long
  | signed _ _ => Text.signed neg n

theorem parse_eq_ok_iff {model : DataModel} {type : Integral} {value : String} {x : Int} :
    type.parse model value = .ok x ↔ ∃ neg n, Front value.toList neg n ∧ type.Takes model neg n ∧
      type.convert (type.wide model neg n) = x := by
  have hconverted : ∀ r : Except ConversionError Int,
      r.map type.convert = .ok x ↔ ∃ y, r = .ok y ∧ type.convert y = x := by
    intro r
    cases r <;> simp [Except.map]
  cases type with
  | bool | unsigned bits =>
      refine (hconverted _).trans ?_
      simp only [stoul_eq_ok_iff]
      constructor
      · rintro ⟨_, ⟨neg, n, hfront, hfit, rfl⟩, rfl⟩
        exact ⟨neg, n, hfront, hfit, rfl⟩
      · rintro ⟨neg, n, hfront, hfit, rfl⟩
        exact ⟨_, ⟨neg, n, hfront, hfit, rfl⟩, rfl⟩
  | signed bits pos =>
      refine (hconverted _).trans ?_
      simp only [stoi_eq_ok_iff]
      constructor
      · rintro ⟨_, ⟨neg, n, hfront, hfit, rfl⟩, rfl⟩
        exact ⟨neg, n, hfront, hfit, rfl⟩
      · rintro ⟨neg, n, hfront, hfit, rfl⟩
        exact ⟨_, ⟨neg, n, hfront, hfit, rfl⟩, rfl⟩

/-- What follows the number is left alone, and only its low bits are kept. -/
example : parse lp64 (.unsigned 8) " 300 apples" = .ok 44 := by decide +kernel

end Integral

theorem get_of_read [RocksDb] (ndebug : Bool) {db : Db} {t : Txn} {key value : String}
    (h : t.read db key = some value) : get ndebug db t key = .ok value := by
  simp [get, RocksDb.rocksGet_found h, Status.isOk, fabkoAssertCode, bind, Except.bind, pure,
    Except.pure]

/-- There is no number in the empty string, which a key without a value reads as. -/
theorem not_front_nil {neg : Bool} {n : Nat} : ¬ Front [] neg n := by
  rw [← scan_eq_some_iff]
  simp [scan, sign]

/-- **What `get_as` takes for a number**, in either build: the value the transaction reads has a
number at its front that is in the range of `std::stoul` or `std::stoi`, whatever follows it, and the
low bits of that number are the answer. -/
theorem getAs_eq_ok_iff [RocksDb] (ndebug : Bool) (model : DataModel) (type : Integral) (db : Db)
    (t : Txn) (key : String) (x : Int) :
    getAs ndebug model type db t key = .ok x ↔
      ∃ value neg n, t.read db key = some value ∧ Front value.toList neg n ∧
        type.Takes model neg n ∧ type.convert (type.wide model neg n) = x := by
  have hparsed : ∀ value, (type.parse model value).mapError AccessError.conversion = .ok x ↔
      type.parse model value = .ok x := by
    intro value
    cases type.parse model value <;> simp [Except.mapError]
  cases hread : t.read db key with
  | some value =>
      rw [getAs, get_of_read ndebug hread]
      dsimp only
      rw [hparsed, Integral.parse_eq_ok_iff]
      simp
  | none =>
      have hno : getAs ndebug model type db t key ≠ .ok x := by
        intro h
        cases ndebug with
        | false =>
            simp [getAs, get, RocksDb.rocksGet_absent hread, Status.isOk, fabkoAssertCode, bind,
              Except.bind] at h
        | true =>
            -- the assertion is compiled out, and the conversion gets an empty string
            have hget : get true db t key = .ok "" := by
              simp [get, RocksDb.rocksGet_absent hread, fabkoAssertCode, bind, Except.bind, pure,
                Except.pure]
            rw [getAs, hget] at h
            obtain ⟨neg, n, hfront, -⟩ := Integral.parse_eq_ok_iff.mp ((hparsed "").mp h)
            exact not_front_nil hfront
      simp [hno]

/-! ## A number that was set -/

/-- The operations after which transaction `i` may read something else under the key. -/
def Op.Rewrites (i : Nat) (key : String) : Op → Prop
  | .set j toAdd => j = i ∧ toAdd.1 = key
  | .multiSet j toAdds => j = i ∧ ∃ toAdd ∈ toAdds, toAdd.1 = key
  | .commitTransaction j => j = i
  | _ => False

namespace World

section Runs

variable [RocksDb] {ndebug : Bool} {leftover : List KeyValue → List KeyValue}

/-- The other operations keep what the transaction wrote last. -/
theorem step_lastWrite {w w' : World} {op : Op} {r : Except Exception Answer} {i : Nat} {t : Txn}
    {key : String} (hstep : w.step ndebug leftover op = some (w', r)) (hop : ¬ op.Rewrites i key)
    (hi : w.transactions[i]? = some t) :
    ∃ t', w'.transactions[i]? = some t' ∧ lastWrite t'.batch key = lastWrite t.batch key := by
  -- the operations of other transactions leave this one as it is
  by_cases hother : op.transaction ≠ some i
  · exact ⟨t, step_getElem?_of_ne hstep hother hi, rfl⟩
  rw [not_not] at hother
  have hlt : i < w.transactions.length := (List.getElem?_eq_some_iff.mp hi).1
  cases op with
  | makeTransaction => cases hother
  | get j _ | multiGet j _ =>
      obtain ⟨u, -, hu⟩ := Option.map_eq_some_iff.mp hstep
      obtain ⟨rfl, -⟩ := Prod.mk.inj hu
      exact ⟨t, hi, rfl⟩
  | set j toAdd =>
      obtain rfl : j = i := Option.some.inj hother
      obtain ⟨u, hu, heq⟩ := Option.map_eq_some_iff.mp hstep
      obtain rfl : t = u := Option.mem_unique hi hu
      simp only [set_eq] at heq
      obtain ⟨rfl, -⟩ := Prod.mk.inj heq
      refine ⟨_, List.getElem?_set_self hlt, ?_⟩
      have hnone : lastWrite [toAdd] key = none :=
        lastWrite_eq_none_iff.mpr fun entry hentry hkey =>
          hop ⟨rfl, List.mem_singleton.mp hentry ▸ hkey⟩
      exact (lastWrite_append t.batch [toAdd] key).trans (by rw [hnone, Option.none_or])
  | multiSet j toAdds =>
      obtain rfl : j = i := Option.some.inj hother
      obtain ⟨u, hu, heq⟩ := Option.map_eq_some_iff.mp hstep
      obtain rfl : t = u := Option.mem_unique hi hu
      obtain ⟨rfl, -⟩ := Prod.mk.inj heq
      refine ⟨_, List.getElem?_set_self hlt, ?_⟩
      have hnone : lastWrite toAdds key = none :=
        lastWrite_eq_none_iff.mpr fun entry hentry hkey => hop ⟨rfl, entry, hentry, hkey⟩
      rw [multiSet_eq]
      exact (lastWrite_append t.batch toAdds key).trans (by rw [hnone, Option.none_or])
  | commitTransaction j => exact absurd (Option.some.inj hother) hop

theorem Run.lastWrite_eq {w w' : World} {events : List Event} {i : Nat} {t : Txn} {key : String}
    (hrun : w.Run ndebug leftover events w') (hquiet : ∀ e ∈ events, ¬ e.1.Rewrites i key)
    (hi : w.transactions[i]? = some t) :
    ∃ t', w'.transactions[i]? = some t' ∧ lastWrite t'.batch key = lastWrite t.batch key := by
  induction events generalizing w t with
  | nil =>
      obtain rfl : w = w' := hrun
      exact ⟨t, hi, rfl⟩
  | cons e rest ih =>
      obtain ⟨v, hstep, hrest⟩ := hrun
      obtain ⟨t₁, hi₁, hlast₁⟩ := step_lastWrite hstep (hquiet e List.mem_cons_self) hi
      obtain ⟨t', hi', hlast⟩ := ih hrest (fun e he => hquiet e (List.mem_cons_of_mem _ he)) hi₁
      exact ⟨t', hi', hlast.trans hlast₁⟩

/-- **A number that was set is got back, or `get_as` throws**: whatever the other clients do and
commit meanwhile, the transaction gets what it put under the key if `std::stoul` or `std::stoi` can
hold it. An `std::int64_t` beyond 32 bits is out of range. -/
theorem getAs_of_set (model : DataModel) {type : Integral} {n : Int} (hn : type.Holds n)
    {w w₁ w₂ : World} {events : List Event} {i : Nat} {t : Txn} {key : String}
    {r : Except Exception Answer}
    (hset : w.step ndebug leftover (.set i (key, numberText n)) = some (w₁, r))
    (hrun : w₁.Run ndebug leftover events w₂) (hquiet : ∀ e ∈ events, ¬ e.1.Rewrites i key)
    (hi : w₂.transactions[i]? = some t) :
    getAs ndebug model type w₂.db t key
      = if type.Readable model n then .ok n else .error (.conversion .outOfRange) := by
  obtain ⟨t₀, hi₀, heq⟩ := Option.map_eq_some_iff.mp hset
  simp only [set_eq] at heq
  obtain ⟨rfl, -⟩ := Prod.mk.inj heq
  have hlt : i < w.transactions.length := (List.getElem?_eq_some_iff.mp hi₀).1
  obtain ⟨t', hi', hlast⟩ := hrun.lastWrite_eq hquiet (List.getElem?_set_self hlt)
  obtain rfl : t' = t := Option.mem_unique hi' hi
  have hwritten : lastWrite (t₀.batch ++ [(key, numberText n)]) key = some (numberText n) := by
    rw [lastWrite_append]
    simp [lastWrite]
  -- the own write hides what the database has by now
  have hread : t'.read w₂.db key = some (numberText n) := by
    rw [Transaction.read, hlast.trans hwritten, Option.some_or]
  rw [getAs, get_of_read ndebug hread]
  dsimp only
  rw [parse_numberText model hn]
  split <;> rfl

end Runs

section Plain

attribute [local instance] plainRocksDb

/-- A client that puts five billion under a key cannot get them as an `std::int64_t`. -/
theorem getAs_of_set_billions :
    ∃ w₁ w₂ t, (opened Store.empty []).Run false (fun _ => [])
        [(.makeTransaction, .ok .made), (.makeTransaction, .ok .made)] w₁ ∧
      w₁.Run false (fun _ => []) [(.set 0 ("n", numberText 5000000000), .ok (.told true)),
        (.set 1 ("n", "1"), .ok (.told true)), (.commitTransaction 1, .ok (.told true))] w₂ ∧
      w₂.transactions[0]? = some t ∧
      getAs false lp64 (.signed 64 (by decide)) w₂.db t "n" = .error (.conversion .outOfRange) := by
  have hn : (Integral.signed 64 (by decide)).Holds 5000000000 := by norm_num [Integral.Holds]
  have hrun : ∃ w₁ w₂ v t, (opened Store.empty []).Run false (fun _ => [])
        [(.makeTransaction, .ok .made), (.makeTransaction, .ok .made)] w₁ ∧
      w₁.step false (fun _ => []) (.set 0 ("n", numberText 5000000000))
        = some (v, .ok (.told true)) ∧
      v.Run false (fun _ => []) [(.set 1 ("n", "1"), .ok (.told true)),
        (.commitTransaction 1, .ok (.told true))] w₂ ∧ w₂.transactions[0]? = some t :=
    ⟨_, _, _, _, ⟨_, rfl, _, rfl, rfl⟩, rfl, ⟨_, rfl, _, rfl, rfl⟩, rfl⟩
  obtain ⟨w₁, w₂, v, t, hfirst, hset, hrest, hi⟩ := hrun
  refine ⟨w₁, w₂, t, hfirst, ⟨v, hset, hrest⟩, hi, ?_⟩
  refine (getAs_of_set lp64 hn hset hrest ?_ hi).trans (if_neg ?_)
  · simp [Op.Rewrites]
  · norm_num [Integral.Readable, lp64]

end Plain

/-! ## Counters -/

/-- A client gets a number and puts the next one of the type. -/
def Increments (model : DataModel) (type : Integral) (value value' : String) : Prop :=
  ∃ x, type.parse model value = .ok x ∧ value' = numberText (type.convert (x + 1))

/-- How many commits that write to the key were told to have succeeded. -/
def toldWrites [RocksDb] (leftover : List KeyValue → List KeyValue) (key : String) (start : World)
    (events : List Event) : Nat :=
  writeCount key (start.toldBatches false leftover (events.map Prod.fst))

section Counter

variable [RocksDb] {leftover : List KeyValue → List KeyValue} {model : DataModel}
  {existing : Db} {initialKv : List KeyValue} {key : String} {events : List Event} {w' : World}
  {bits : Nat} {n : Int}

/-- **A counter counts** in a build with the assertions: where the clients get a key as an unsigned
number, put the next one and commit, the key ends at the number it began with and one more for each
such commit that was told to have succeeded, modulo the width, however the clients interleave. -/
theorem counter_unsigned (hbits : bits ≤ model.long) (hn : (Integral.unsigned bits).Holds n)
    (hstart : (opened existing initialKv).db.value key = some (numberText n))
    (hrun : (opened existing initialKv).Run false leftover events w')
    (hupdates : AllUpdateWithin leftover (Increments model (.unsigned bits)) key
      (opened existing initialKv) events) :
    w'.db.value key = some (numberText
      ((n + toldWrites leftover key (opened existing initialKv) events) % 2 ^ bits)) := by
  refine update_induct (fun _ ht => nomatch ht) hrun hupdates
    (P := fun k value => value = some (numberText ((n + k) % 2 ^ bits))) ?_ ?_
  · rw [hstart, Nat.cast_zero, Int.add_zero, Int.emod_eq_of_lt hn.1 hn.2]
  · rintro k value value' hvalue ⟨x, hx, rfl⟩
    obtain rfl := Option.some.inj hvalue
    have hpos : (0 : Int) < 2 ^ bits := by positivity
    have hlt := Int.emod_lt_of_pos (n + k) hpos
    have hholds : (Integral.unsigned bits).Holds ((n + k) % 2 ^ bits) :=
      ⟨Int.emod_nonneg _ hpos.ne', hlt⟩
    have hreadable : (Integral.unsigned bits).Readable model ((n + k) % 2 ^ bits) :=
      lt_of_lt_of_le hlt (pow_le_pow_right₀ (by decide) hbits)
    -- the client read the count so far
    rw [parse_numberText model hholds, if_pos hreadable] at hx
    obtain rfl := Except.ok.inj hx
    have hnext : ((n + k) % 2 ^ bits + 1) % 2 ^ bits = (n + (k + 1 : Nat)) % 2 ^ bits := by
      rw [Int.emod_add_emod, Nat.cast_succ, Int.add_assoc]
    exact congrArg (fun x => some (numberText x)) hnext

/-- **A signed counter wider than `int` stops** at the first number that `std::stoi` does not take:
it counts like the unsigned one, but no commit that moves it beyond is ever told to have
succeeded. -/
theorem counter_signed {pos : 0 < bits} (hint : 0 < model.int) (hbits : model.int < bits)
    (hn : (Integral.signed bits pos).Holds n)
    (hstart : (opened existing initialKv).db.value key = some (numberText n))
    (hrun : (opened existing initialKv).Run false leftover events w')
    (hupdates : AllUpdateWithin leftover (Increments model (.signed bits pos)) key
      (opened existing initialKv) events) :
    w'.db.value key
        = some (numberText (n + toldWrites leftover key (opened existing initialKv) events)) ∧
      n + toldWrites leftover key (opened existing initialKv) events
        ≤ max n (2 ^ (model.int - 1)) := by
  have hmax : (2 : Int) ^ (model.int - 1) < 2 ^ (bits - 1) :=
    pow_lt_pow_right₀ (by decide) (by omega)
  refine update_induct (fun _ ht => nomatch ht) hrun hupdates
    (P := fun k value => value = some (numberText (n + k)) ∧
      n + k ≤ max n (2 ^ (model.int - 1))) ?_ ?_
  · simp [hstart]
  · rintro k value value' ⟨hvalue, hle⟩ ⟨x, hx, rfl⟩
    obtain rfl := Option.some.inj hvalue
    obtain ⟨hlow, hhigh⟩ := hn
    have hholds : (Integral.signed bits pos).Holds (n + k) := by
      refine ⟨by omega, ?_⟩
      rcases le_max_iff.mp hle with h | h <;> omega
    rw [parse_numberText model hholds] at hx
    split at hx
    · -- what was read is below the bound, so the next number is at most at it
      rename_i hreadable
      obtain rfl := Except.ok.inj hx
      obtain ⟨-, hlt⟩ := hreadable
      have hnext : (Integral.signed bits pos).Holds (n + k + 1) := ⟨by omega, by omega⟩
      rw [hnext.convert_eq, Nat.cast_succ, ← Int.add_assoc]
      exact ⟨rfl, le_max_of_le_right hlt⟩
    · cases hx

end Counter

section Plain

attribute [local instance] plainRocksDb

theorem updatesWithin_contended {R : String → String → Prop} {first next : String} {w : World}
    (h : R first next)
    (hpast : (opened Store.empty [("n", first)]).Run false (fun _ => [])
      ((contended first next).take 6) w) :
    UpdatesWithin (fun _ => []) R "n" (opened Store.empty [("n", first)])
      ((contended first next).take 6) 0 w := by
  obtain rfl := Option.mem_unique hpast.after rfl
  exact ⟨(contended first next).take 2, ((contended first next).take 6).drop 3, _, _, first, _,
    next, rfl, ⟨_, rfl, _, rfl, rfl⟩, rfl, rfl, rfl, rfl, h⟩

theorem allUpdateWithin_contended {R : String → String → Prop} {first next : String}
    (h : R first next) :
    AllUpdateWithin (fun _ => []) R "n" (opened Store.empty [("n", first)])
      (contended first next) := by
  intro past i rest w hsplit hpast hwrites
  have hcounting : counting first next "" = past ++ (.commitTransaction i, .ok (.told true)) ::
      (rest ++ [(.set 2 ("n", ""), .ok (.told true)), (.commitTransaction 2, .ok (.told true))]) := by
    rw [counting, hsplit, List.append_assoc, List.cons_append]
  rcases told_of_counting hcounting with ⟨rfl, rfl⟩ | ⟨rfl, rfl⟩
  · exact updatesWithin_contended h hpast
  · -- the third transaction does not commit
    have hlength := congrArg List.length hsplit
    simp [counting, contended] at hlength

theorem allUpdateWithin_counting {R : String → String → Prop} {first next last : String}
    (h : R first next) (h' : R next last) :
    AllUpdateWithin (fun _ => []) R "n" (opened Store.empty [("n", first)])
      (counting first next last) := by
  intro past i rest w hsplit hpast hwrites
  rcases told_of_counting hsplit with ⟨rfl, rfl⟩ | ⟨rfl, rfl⟩
  · exact updatesWithin_contended h hpast
  · obtain rfl := Option.mem_unique hpast.after rfl
    exact ⟨(contended first next).take 9, [(.set 2 ("n", last), .ok (.told true))], _, _, next, _,
      last, rfl, ⟨_, rfl, _, rfl, _, rfl, _, rfl, _, rfl, _, rfl, _, rfl, _, rfl, _, rfl, rfl⟩,
      rfl, rfl, rfl, rfl, h'⟩

theorem increments_lp64 {type : Integral} {n : Int} (h : type.Holds n)
    (hr : type.Readable lp64 n) :
    Increments lp64 type (numberText n) (numberText (type.convert (n + 1))) :=
  ⟨n, (parse_numberText lp64 h).trans (if_pos hr), rfl⟩

/-- An `std::uint8_t` goes around: of the two clients at 254 one is refused and puts 0 after the
other one's 255. -/
theorem counter_unsigned_wrapping : ∃ w', (opened Store.empty [("n", numberText 254)]).Run false
      (fun _ => []) (counting (numberText 254) (numberText 255) (numberText 0)) w' ∧
    w'.db.value "n" = some (numberText 0) := by
  have hrun : ∃ w', (opened Store.empty [("n", numberText 254)]).Run false (fun _ => [])
      (counting (numberText 254) (numberText 255) (numberText 0)) w' :=
    ⟨_, _, rfl, _, rfl, _, rfl, _, rfl, _, rfl, _, rfl, _, rfl, _, rfl, _, rfl, _, rfl, _, rfl,
      _, rfl, rfl⟩
  obtain ⟨w', hrun⟩ := hrun
  have hfirst : Increments lp64 (.unsigned 8) (numberText 254) (numberText 255) :=
    increments_lp64 (by norm_num [Integral.Holds]) (by norm_num [Integral.Readable, lp64])
  have hsecond : Increments lp64 (.unsigned 8) (numberText 255) (numberText 0) :=
    increments_lp64 (by norm_num [Integral.Holds]) (by norm_num [Integral.Readable, lp64])
  exact ⟨w', hrun, counter_unsigned (by decide) (by norm_num [Integral.Holds]) rfl hrun
    (allUpdateWithin_counting hfirst hsecond)⟩

/-- An `std::int64_t` at the greatest `int` is counted up once more, and then a client that gets
it cannot read it any longer. -/
theorem counter_signed_stopping : ∃ w', (opened Store.empty [("n", numberText 2147483647)]).Run
      false (fun _ => []) (contended (numberText 2147483647) (numberText 2147483648)) w' ∧
    w'.db.value "n" = some (numberText 2147483648) ∧
    (2147483647 : Int) + toldWrites (fun _ => []) "n"
        (opened Store.empty [("n", numberText 2147483647)])
        (contended (numberText 2147483647) (numberText 2147483648)) ≤ 2147483648 ∧
    ∃ t, w'.transactions[2]? = some t ∧
      getAs false lp64 (.signed 64 (by decide)) w'.db t "n" = .error (.conversion .outOfRange) := by
  have hrun : ∃ w' t, (opened Store.empty [("n", numberText 2147483647)]).Run false (fun _ => [])
      (contended (numberText 2147483647) (numberText 2147483648)) w' ∧
      w'.transactions[2]? = some t ∧ lastWrite t.batch "n" = none :=
    ⟨_, _, ⟨_, rfl, _, rfl, _, rfl, _, rfl, _, rfl, _, rfl, _, rfl, _, rfl, _, rfl, _, rfl, rfl⟩,
      rfl, rfl⟩
  obtain ⟨w', t, hrun, hi, hempty⟩ := hrun
  have hfirst : Increments lp64 (.signed 64 (by decide)) (numberText 2147483647)
      (numberText 2147483648) :=
    increments_lp64 (by norm_num [Integral.Holds]) (by norm_num [Integral.Readable, lp64])
  obtain ⟨hvalue, hstop⟩ := counter_signed (by decide) (by decide) (by norm_num [Integral.Holds])
    rfl hrun (allUpdateWithin_contended hfirst)
  have hlast : w'.db.value "n" = some (numberText 2147483648) := hvalue
  refine ⟨w', hrun, hlast, hstop, t, hi, ?_⟩
  have hread : t.read w'.db "n" = some (numberText 2147483648) := by
    rw [Transaction.read, hempty, Option.none_or, hlast]
  rw [getAs, get_of_read false hread]
  dsimp only
  rw [parse_numberText lp64 (by norm_num [Integral.Holds]), if_neg (by
    norm_num [Integral.Readable, lp64])]
  rfl

end Plain

end World

end Fabko.Datastore
