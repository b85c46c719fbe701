import Fabko.Common.Exception
import Fabko.Logic.Optimistic

/-!
# The key-value store over RocksDB

The transactions of `kv_rocksdb` and the runs of several of them over one database. RocksDB
is not part of the repository: it is taken as calls that do what is documented of its
optimistic transactions. The source turns every status they return into an assertion, which a
build with `NDEBUG` leaves out.
-/

set_option autoImplicit false

namespace Fabko.Datastore

open Optimistic

abbrev KeyValue := String × String

/-- The database behind `kv_rocksdb`. -/
abbrev Db := Store String String

/-- What a `kv_rocksdb::transaction` owns: a `rocksdb::Transaction`. -/
abbrev Txn := Optimistic.Transaction String String

/-- `rocksdb::Status`, as far as the calls below return it. -/
inductive Status where
  | ok
  | notFound
  | busy
  deriving DecidableEq, Repr

namespace Status

def isOk : Status → Bool
  | ok => true
  | _ => false

def toString : Status → String
  | ok => "OK"
  | notFound => "NotFound: "
  | busy => "Resource busy: "

end Status

def putErrorCode : ErrorCode := ⟨0, .db⟩

def getErrorCode : ErrorCode := ⟨1, .db⟩

def commitErrorCode : ErrorCode := ⟨42, .db⟩

/-! ## RocksDB -/

/-- The calls of RocksDB that the source makes. `leftover` is what a successful `Commit` leaves
in the batch of its transaction. -/
class RocksDb where
  /-- `DB::Put`. -/
  rocksDbPut : Db → KeyValue → Status × Db
  /-- `BeginTransaction` and `SetSnapshot`. -/
  rocksBegin : Db → Txn
  /-- `Transaction::Get`: the status and the string it filled. -/
  rocksGet : Db → Txn → String → Status × String
  /-- `Transaction::Put`. -/
  rocksPut : Txn → KeyValue → Status × Txn
  /-- `Transaction::Commit`. -/
  rocksCommit : (List KeyValue → List KeyValue) → Db → Txn → Status × Db × Txn
  rocksDbPut_eq : ∀ (db : Db) (entry : KeyValue), rocksDbPut db entry = (.ok, db.put entry)
  rocksBegin_eq : ∀ db : Db, rocksBegin db = Transaction.start db
  rocksGet_found : ∀ {db : Db} {t : Txn} {key value : String},
    t.read db key = some value → rocksGet db t key = (.ok, value)
  rocksGet_absent : ∀ {db : Db} {t : Txn} {key : String},
    t.read db key = none → rocksGet db t key = (.notFound, "")
  /-- A `Put` of an optimistic transaction buffers the pair and takes no lock. -/
  rocksPut_eq : ∀ (t : Txn) (entry : KeyValue), rocksPut t entry = (.ok, t.put entry)
  rocksCommit_of_unchanged : ∀ (leftover : List KeyValue → List KeyValue) {db : Db} {t : Txn},
    t.Unchanged db →
      rocksCommit leftover db t = (.ok, db.write t.batch, { t with batch := leftover t.batch })
  rocksCommit_of_not_unchanged : ∀ (leftover : List KeyValue → List KeyValue) {db : Db} {t : Txn},
    ¬ t.Unchanged db → rocksCommit leftover db t = (.busy, db, t)

export RocksDb (rocksDbPut rocksBegin rocksGet rocksPut rocksCommit)

/-- The calls as the optimistic transactions have them, for running examples. -/
abbrev plainRocksDb : RocksDb where
  rocksDbPut db entry := (.ok, db.put entry)
  rocksBegin := Transaction.start
  rocksGet db t key :=
    match t.read db key with
    | some value => (.ok, value)
    | none => (.notFound, "")
  rocksPut t entry := (.ok, t.put entry)
  rocksCommit leftover db t :=
    match t.commit leftover db with
    | (true, db', t') => (.ok, db', t')
    | (false, db', t') => (.busy, db', t')
  rocksDbPut_eq _ _ := rfl
  rocksBegin_eq _ := rfl
  rocksGet_found h := by rw [h]
  rocksGet_absent h := by rw [h]
  rocksPut_eq _ _ := rfl
  rocksCommit_of_unchanged := by
    intro leftover db t h
    simp only [Transaction.commit, if_pos h]
  rocksCommit_of_not_unchanged := by
    intro leftover db t h
    simp only [Transaction.commit, if_neg h]

/-! ## Transactions

`ndebug` says how the build was made. -/

section Transactions

variable [RocksDb]

def get (ndebug : Bool) (db : Db) (t : Txn) (key : String) : Except Exception String := do
  let (s, result) := rocksGet db t key
  fabkoAssertCode ndebug s.isOk getErrorCode
    ("Error while getting key " ++ key ++ " : " ++ s.toString)
  return result

def multiGet (ndebug : Bool) (db : Db) (t : Txn) (keys : List String) :
    Except Exception (List KeyValue) :=
  keys.mapM fun key => do
    let (s, result) := rocksGet db t key
    fabkoAssertCode ndebug s.isOk getErrorCode
      ("Error while multi getting " ++ toString keys.length ++ " values : " ++ s.toString)
    return (key, result)

def set (ndebug : Bool) (t : Txn) (toAdd : KeyValue) : Except Exception Bool × Txn :=
  let (s, t') := rocksPut t toAdd
  let answer := do
    fabkoAssertCode ndebug s.isOk putErrorCode
      ("Error while inserting key-value : " ++ toAdd.1 ++ "-" ++ toAdd.2 ++ " : " ++ s.toString)
    return true
  (answer, t')

def multiSet (ndebug : Bool) (t : Txn) (toAdds : List KeyValue) : Except Exception Bool × Txn :=
  match toAdds with
  | [] => (.ok true, t)
  | toAdd :: rest =>
      match set ndebug t toAdd with
      | (.ok _, t') => multiSet ndebug t' rest
      | (.error e, t') => (.error e, t')

def commitTransaction (ndebug : Bool) (leftover : List KeyValue → List KeyValue) (db : Db)
    (t : Txn) : Except Exception Bool × Db × Txn :=
  let (s, db', t') := rocksCommit leftover db t
  let answer := do
    fabkoAssertCode ndebug s.isOk commitErrorCode ("Commit Failure : " ++ s.toString)
    return true
  (answer, db', t')

/-- A commit that validates applies its batch and says so. -/
theorem commitTransaction_of_unchanged (ndebug : Bool) (leftover : List KeyValue → List KeyValue)
    {db : Db} {t : Txn} (h : t.Unchanged db) :
    commitTransaction ndebug leftover db t
      = (.ok true, db.write t.batch, { t with batch := leftover t.batch }) := by
  simp [commitTransaction, RocksDb.rocksCommit_of_unchanged leftover h, Status.isOk,
    fabkoAssertCode, bind, Except.bind, pure, Except.pure]

/-- A commit that does not validate changes nothing. It throws, unless the build compiled
the assertion out: then it is reported like the others. -/
theorem commitTransaction_of_not_unchanged (ndebug : Bool)
    (leftover : List KeyValue → List KeyValue) {db : Db} {t : Txn} (h : ¬ t.Unchanged db) :
    commitTransaction ndebug leftover db t
      = (if ndebug then .ok true
          else .error (.fabko commitErrorCode "Commit Failure : Resource busy: "), db, t) := by
  cases ndebug <;>
    simp [commitTransaction, RocksDb.rocksCommit_of_not_unchanged leftover h, Status.isOk,
      Status.toString, fabkoAssertCode, bind, Except.bind, pure, Except.pure]

theorem set_snd_snapshot (ndebug : Bool) (t : Txn) (toAdd : KeyValue) :
    (set ndebug t toAdd).2.snapshot = t.snapshot := by
  simp only [set, RocksDb.rocksPut_eq]
  rfl

theorem multiSet_snd_snapshot (ndebug : Bool) (t : Txn) (toAdds : List KeyValue) :
    (multiSet ndebug t toAdds).2.snapshot = t.snapshot := by
  induction toAdds generalizing t with
  | nil => rfl
  | cons toAdd rest ih =>
      have hset := set_snd_snapshot ndebug t toAdd
      rw [multiSet]
      split
      · next t' heq => rw [ih t', ← hset, heq]
      · next t' heq => rw [← hset, heq]

end Transactions

/-! ## Several transactions over one database -/

/-- The open database and the transactions made on it, in the order of their making. -/
structure World where
  db : Db
  transactions : List Txn

/-- A step of one of the clients; a transaction is named by its place in the list. -/
inductive Op where
  | makeTransaction
  | get (i : Nat) (key : String)
  | multiGet (i : Nat) (keys : List String)
  | set (i : Nat) (toAdd : KeyValue)
  | multiSet (i : Nat) (toAdds : List KeyValue)
  | commitTransaction (i : Nat)

/-- What a client gets back. -/
inductive Answer where
  | made
  | value (value : String)
  | values (values : List KeyValue)
  | told (success : Bool)
  deriving DecidableEq, Repr

namespace World

section Steps

variable [RocksDb]

/-- The constructor of `kv_rocksdb` over an existing database. It does not look at the statuses. -/
def opened (existing : Db) (initialKv : List KeyValue) : World where
  db := initialKv.foldl (fun db entry => (rocksDbPut db entry).2) existing
  transactions := []

/-- The initial pairs are in the database. -/
theorem opened_eq (existing : Db) (initialKv : List KeyValue) :
    opened existing initialKv = ⟨existing.write initialKv, []⟩ := by
  simp only [opened, RocksDb.rocksDbPut_eq]
  rfl

variable (ndebug : Bool) (leftover : List KeyValue → List KeyValue)

/-- One step, and the answer or the exception the client sees. There is no step of a
transaction that was not made. -/
def step (w : World) (op : Op) : Option (World × Except Exception Answer) :=
  match op with
  | .makeTransaction =>
      some ({ w with transactions := w.transactions ++ [rocksBegin w.db] }, .ok .made)
  | .get i key =>
      w.transactions[i]?.map fun t => (w, (Datastore.get ndebug w.db t key).map .value)
  | .multiGet i keys =>
      w.transactions[i]?.map fun t => (w, (Datastore.multiGet ndebug w.db t keys).map .values)
  | .set i toAdd =>
      w.transactions[i]?.map fun t =>
        let (answer, t') := Datastore.set ndebug t toAdd
        ({ w with transactions := w.transactions.set i t' }, answer.map .told)
  | .multiSet i toAdds =>
      w.transactions[i]?.map fun t =>
        let (answer, t') := Datastore.multiSet ndebug t toAdds
        ({ w with transactions := w.transactions.set i t' }, answer.map .told)
  | .commitTransaction i =>
      w.transactions[i]?.map fun t =>
        let (answer, db', t') := Datastore.commitTransaction ndebug leftover w.db t
        ({ db := db', transactions := w.transactions.set i t' }, answer.map .told)

/-- The world after a run. -/
def after (w : World) (ops : List Op) : Option World :=
  ops.foldlM (fun v op => (v.step ndebug leftover op).map Prod.fst) w

end Steps

/-! ### What no step takes back -/

/-- The store has only grown, and every transaction still has the snapshot it began with. -/
structure Grows (w w' : World) : Prop where
  db : Store.Grows w.db w'.db
  snapshot : ∀ (i : Nat) (t : Txn), w.transactions[i]? = some t →
    ∃ t', w'.transactions[i]? = some t' ∧ t'.snapshot = t.snapshot

theorem Grows.refl (w : World) : Grows w w := ⟨Store.Grows.refl w.db, fun _ t h => ⟨t, h, rfl⟩⟩

theorem Grows.trans {w₁ w₂ w₃ : World} (h₁ : Grows w₁ w₂) (h₂ : Grows w₂ w₃) : Grows w₁ w₃ where
  db := h₁.db.trans h₂.db
  snapshot i t hi := by
    obtain ⟨t', hi', hsame⟩ := h₁.snapshot i t hi
    obtain ⟨t'', hi'', hsame'⟩ := h₂.snapshot i t' hi'
    exact ⟨t'', hi'', hsame'.trans hsame⟩

/-- A step that replaces one transaction by one with the same snapshot. -/
theorem grows_set {w : World} {i : Nat} {t t' : Txn} {db' : Db} (hi : w.transactions[i]? = some t)
    (hdb : Store.Grows w.db db') (hsnapshot : t'.snapshot = t.snapshot) :
    Grows w { db := db', transactions := w.transactions.set i t' } where
  db := hdb
  snapshot j u hj := by
    by_cases hsame : i = j
    · subst hsame
      obtain rfl : t = u := Option.mem_unique hi hj
      have hlt : i < w.transactions.length := (List.getElem?_eq_some_iff.mp hi).1
      exact ⟨t', List.getElem?_set_self hlt, hsnapshot⟩
    · exact ⟨u, (List.getElem?_set_ne hsame).trans hj, rfl⟩

section Runs

variable [RocksDb] {ndebug : Bool} {leftover : List KeyValue → List KeyValue}

theorem step_makeTransaction (w : World) :
    w.step ndebug leftover .makeTransaction
      = some ({ w with transactions := w.transactions ++ [Transaction.start w.db] }, .ok .made) := by
  rw [step, RocksDb.rocksBegin_eq]

theorem commitTransaction_grows (db : Db) (t : Txn) :
    Store.Grows db (commitTransaction ndebug leftover db t).2.1
      ∧ (commitTransaction ndebug leftover db t).2.2.snapshot = t.snapshot := by
  by_cases h : t.Unchanged db
  · rw [commitTransaction_of_unchanged ndebug leftover h]
    exact ⟨Store.grows_write db t.batch, rfl⟩
  · rw [commitTransaction_of_not_unchanged ndebug leftover h]
    exact ⟨Store.Grows.refl db, rfl⟩

/-- What one step preserves. -/
theorem step_grows {w w' : World} {op : Op} {r : Except Exception Answer}
    (h : w.step ndebug leftover op = some (w', r)) : Grows w w' := by
  cases op with
  | makeTransaction =>
      obtain ⟨rfl, -⟩ := Prod.mk.inj (Option.some.inj h)
      refine ⟨Store.Grows.refl w.db, fun i t hi => ⟨t, ?_, rfl⟩⟩
      have hlt : i < w.transactions.length := (List.getElem?_eq_some_iff.mp hi).1
      exact (List.getElem?_append_left hlt).trans hi
  | get i key =>
      obtain ⟨t, -, ht⟩ := Option.map_eq_some_iff.mp h
      obtain ⟨rfl, -⟩ := Prod.mk.inj ht
      exact Grows.refl w
  | multiGet i keys =>
      obtain ⟨t, -, ht⟩ := Option.map_eq_some_iff.mp h
      obtain ⟨rfl, -⟩ := Prod.mk.inj ht
      exact Grows.refl w
  | set i toAdd =>
      obtain ⟨t, hi, ht⟩ := Option.map_eq_some_iff.mp h
      obtain ⟨rfl, -⟩ := Prod.mk.inj ht
      exact grows_set hi (Store.Grows.refl w.db) (set_snd_snapshot ndebug t toAdd)
  | multiSet i toAdds =>
      obtain ⟨t, hi, ht⟩ := Option.map_eq_some_iff.mp h
      obtain ⟨rfl, -⟩ := Prod.mk.inj ht
      exact grows_set hi (Store.Grows.refl w.db) (multiSet_snd_snapshot ndebug t toAdds)
  | commitTransaction i =>
      obtain ⟨t, hi, ht⟩ := Option.map_eq_some_iff.mp h
      obtain ⟨rfl, -⟩ := Prod.mk.inj ht
      have hgrows := @commitTransaction_grows _ ndebug leftover w.db t
      exact grows_set hi hgrows.1 hgrows.2

/-- A run splits at any of its steps. -/
theorem after_append (w : World) (ops rest : List Op) :
    w.after ndebug leftover (ops ++ rest)
      = (w.after ndebug leftover ops).bind fun v => v.after ndebug leftover rest := by
  rw [after, List.foldlM_append]
  rfl

/-- A run takes its first step and then the others. -/
theorem after_cons {w w' : World} {op : Op} {rest : List Op} :
    w.after ndebug leftover (op :: rest) = some w'
      ↔ ∃ v r, w.step ndebug leftover op = some (v, r) ∧ v.after ndebug leftover rest = some w' := by
  rw [after, List.foldlM_cons]
  constructor
  · intro h
    obtain ⟨v, hv, hrest⟩ := Option.bind_eq_some_iff.mp h
    obtain ⟨⟨v', r⟩, hstep, rfl⟩ := Option.map_eq_some_iff.mp hv
    exact ⟨v', r, hstep, hrest⟩
  · rintro ⟨v, r, hstep, hrest⟩
    rw [hstep]
    exact hrest

/-- What a whole run preserves. -/
theorem after_grows {w w' : World} {ops : List Op}
    (h : w.after ndebug leftover ops = some w') : Grows w w' := by
  induction ops generalizing w with
  | nil =>
      obtain rfl : w = w' := Option.some.inj h
      exact Grows.refl w
  | cons op rest ih =>
      obtain ⟨v, r, hstep, hrest⟩ := after_cons.mp h
      exact (step_grows hstep).trans (ih hrest)

/-! ### Commits that are told to have succeeded -/

/-- Transaction `i` has a pending write to the key. -/
def WritesKey (w : World) (i : Nat) (key : String) : Prop :=
  ∃ t, w.transactions[i]? = some t ∧ t.Writes key

/-- A commit of transaction `i` puts a write to the key into the store. -/
def Applies (w : World) (i : Nat) (key : String) : Prop :=
  ∃ t, w.transactions[i]? = some t ∧ t.Unchanged w.db ∧ t.Writes key

/-- The assertion on the status of a commit is compiled in, or the commit has nothing to
report: no pending key of transaction `i` was written since its snapshot. -/
def CommitChecked (ndebug : Bool) (w : World) (i : Nat) : Prop :=
  ndebug = false ∨ ∀ t, w.transactions[i]? = some t → t.Unchanged w.db

/-- What a commit step can do: apply the batch and report it, or leave the store alone and
throw, where the assertion is compiled in. -/
theorem step_commitTransaction_cases {w w' : World} {i : Nat} {r : Except Exception Answer}
    (h : w.step ndebug leftover (.commitTransaction i) = some (w', r)) :
    ∃ t, w.transactions[i]? = some t ∧
      ((t.Unchanged w.db ∧ w'.db = w.db.write t.batch ∧ r = .ok (.told true)) ∨
        (¬ t.Unchanged w.db ∧ w'.db = w.db ∧
          (ndebug = false →
            r = .error (.fabko commitErrorCode "Commit Failure : Resource busy: ")))) := by
  obtain ⟨t, hi, ht⟩ := Option.map_eq_some_iff.mp h
  refine ⟨t, hi, ?_⟩
  by_cases hunchanged : t.Unchanged w.db
  · rw [commitTransaction_of_unchanged ndebug leftover hunchanged] at ht
    obtain ⟨rfl, rfl⟩ := Prod.mk.inj ht
    exact Or.inl ⟨hunchanged, rfl, rfl⟩
  · rw [commitTransaction_of_not_unchanged ndebug leftover hunchanged] at ht
    obtain ⟨rfl, rfl⟩ := Prod.mk.inj ht
    refine Or.inr ⟨hunchanged, rfl, ?_⟩
    rintro rfl
    rfl

/-- Where the commit is checked, one that is told to have succeeded validated, and its
batch was applied. -/
theorem unchanged_of_told {w w' : World} {i : Nat} (hchecked : w.CommitChecked ndebug i)
    (htold : w.step ndebug leftover (.commitTransaction i) = some (w', .ok (.told true))) :
    ∃ t, w.transactions[i]? = some t ∧ t.Unchanged w.db ∧ w'.db = w.db.write t.batch := by
  obtain ⟨t, hi, ⟨hunchanged, hwritten, -⟩ | ⟨hchanged, -, hthrown⟩⟩ :=
    step_commitTransaction_cases htold
  · exact ⟨t, hi, hunchanged, hwritten⟩
  · rcases hchecked with hdebug | hvalid
    · exact absurd (hthrown hdebug) (by simp)
    · exact absurd (hvalid t hi) hchanged

/-- A commit that puts a write into the store does so in its step. -/
theorem write_of_applies {v v' : World} {j : Nat} {key : String} {r : Except Exception Answer}
    (happlies : v.Applies j key)
    (hstep : v.step ndebug leftover (.commitTransaction j) = some (v', r)) :
    ∃ batch : List KeyValue, (∃ entry ∈ batch, entry.1 = key) ∧ v'.db = v.db.write batch := by
  obtain ⟨t, hj, hunchanged, hwrites⟩ := happlies
  obtain ⟨u, hu, ⟨-, hwritten, -⟩ | ⟨hchanged, -⟩⟩ := step_commitTransaction_cases hstep
  · obtain rfl : t = u := Option.mem_unique hj hu
    exact ⟨t.batch, hwrites, hwritten⟩
  · obtain rfl : t = u := Option.mem_unique hj hu
    exact absurd hunchanged hchanged

/-- In the run `before`, transaction `j` is committed from `v` after `i` was made. -/
def CommitsSince (ndebug : Bool) (leftover : List KeyValue → List KeyValue)
    (start : World) (before : List Op) (i j : Nat) (v : World) : Prop :=
  ∃ pre mid post u,
    before = (pre ++ .makeTransaction :: mid) ++ .commitTransaction j :: post ∧
      start.after ndebug leftover pre = some u ∧ u.transactions.length = i ∧
      start.after ndebug leftover (pre ++ .makeTransaction :: mid) = some v

/-- A transaction that was made keeps a snapshot from its making. -/
theorem snapshot_le_of_made {start u v : World} {pre mid : List Op}
    (hpre : start.after ndebug leftover pre = some u)
    (hmid : start.after ndebug leftover (pre ++ .makeTransaction :: mid) = some v) :
    ∃ t, v.transactions[u.transactions.length]? = some t ∧ t.snapshot ≤ v.db.sequence := by
  rw [after_append, hpre, Option.bind_some] at hmid
  obtain ⟨made, r, hmade, hrest⟩ := after_cons.mp hmid
  rw [step_makeTransaction] at hmade
  obtain ⟨rfl, -⟩ := Prod.mk.inj (Option.some.inj hmade)
  have hgrows := after_grows hrest
  obtain ⟨t, ht, hsnapshot⟩ := hgrows.snapshot u.transactions.length (Transaction.start u.db)
    List.getElem?_concat_length
  exact ⟨t, ht, hsnapshot ▸ hgrows.db.sequence⟩

/-- A write that another commit put into the store since a transaction was made keeps that
transaction from validating. -/
theorem CommitsSince.not_unchanged {start v w : World} {before : List Op} {i j : Nat}
    {key : String} {t : Txn} (hsince : CommitsSince ndebug leftover start before i j v)
    (hbefore : start.after ndebug leftover before = some w) (happlies : v.Applies j key)
    (hi : w.transactions[i]? = some t) (hwrites : t.Writes key) : ¬ t.Unchanged w.db := by
  obtain ⟨pre, mid, post, u, rfl, hpre, rfl, hv⟩ := hsince
  obtain ⟨made, hmade, hstart⟩ := snapshot_le_of_made hpre hv
  rw [after_append, hv, Option.bind_some] at hbefore
  obtain ⟨v', r, hstep, hpost⟩ := after_cons.mp hbefore
  obtain ⟨batch, ⟨entry, hentry, rfl⟩, hwritten⟩ := write_of_applies happlies hstep
  have hkept : t.snapshot = made.snapshot := by
    obtain ⟨later, hlater, hsame⟩ :=
      ((step_grows hstep).trans (after_grows hpost)).snapshot _ made hmade
    obtain rfl : later = t := Option.mem_unique hlater hi
    exact hsame
  have hlater : Store.Grows (v.db.write batch) w.db := hwritten ▸ (after_grows hpost).db
  exact Transaction.not_unchanged_of_write (hkept ▸ hstart) hentry hlater hwrites

/-- What a client may conclude when the commit of transaction `i`, after the run `before`,
takes `w` to `w'` and is told to have succeeded. -/
structure CommitIsReal (ndebug : Bool) (leftover : List KeyValue → List KeyValue)
    (start : World) (before : List Op) (i : Nat) (w w' : World) : Prop where
  /-- All its writes are in the store. -/
  written : ∀ t, w.transactions[i]? = some t →
    ∀ key value, lastWrite t.batch key = some value → w'.db.value key = some value
  /-- No commit since its making put a write to one of its keys into the store. -/
  alone : ∀ j v key, CommitsSince ndebug leftover start before i j v → w.WritesKey i key →
    ¬ v.Applies j key
  /-- No commit of one of its keys since its making was told to have succeeded. -/
  onlyOne : ∀ j v v' key, CommitsSince ndebug leftover start before i j v → w.WritesKey i key →
    v.step ndebug leftover (.commitTransaction j) = some (v', .ok (.told true)) →
    ¬ v.WritesKey j key

/-- Every commit step of the run is checked. -/
def CommitsChecked (ndebug : Bool) (leftover : List KeyValue → List KeyValue) (start : World)
    (ops : List Op) : Prop :=
  ∀ before i rest w, ops = before ++ .commitTransaction i :: rest →
    start.after ndebug leftover before = some w → w.CommitChecked ndebug i

/-- In every run of any number of transactions over one database whose commits are checked,
every commit that is told to have succeeded is a real one. -/
theorem told_commitIsReal (ndebug : Bool) (leftover : List KeyValue → List KeyValue)
    (existing : Db) (initialKv : List KeyValue) (ops : List Op)
    (hchecked : CommitsChecked ndebug leftover (opened existing initialKv) ops)
    (before rest : List Op) (i : Nat) (w w' : World)
    (hops : ops = before ++ .commitTransaction i :: rest)
    (hbefore : (opened existing initialKv).after ndebug leftover before = some w)
    (htold : w.step ndebug leftover (.commitTransaction i) = some (w', .ok (.told true))) :
    CommitIsReal ndebug leftover (opened existing initialKv) before i w w' := by
  obtain ⟨t, hi, hunchanged, hwritten⟩ :=
    unchanged_of_told (hchecked before i rest w hops hbefore) htold
  have halone : ∀ j v key, CommitsSince ndebug leftover (opened existing initialKv) before i j v →
      w.WritesKey i key → ¬ v.Applies j key := by
    intro j v key hsince hwrites happlies
    obtain ⟨u, hu, hwritesKey⟩ := hwrites
    obtain rfl : t = u := Option.mem_unique hi hu
    exact hsince.not_unchanged hbefore happlies hi hwritesKey hunchanged
  refine ⟨?_, halone, ?_⟩
  · intro u hu key value hlast
    obtain rfl : t = u := Option.mem_unique hi hu
    rw [hwritten]
    exact value_write_of_lastWrite w.db hlast
  · intro j v v' key hsince hwrites htoldj hwritesj
    -- a told commit of `j` was checked as well, so it did put its write into the store
    have hcheckedj : v.CommitChecked ndebug j := by
      obtain ⟨pre, mid, post, u, hsplit, -, -, hv⟩ := hsince
      apply hchecked (pre ++ .makeTransaction :: mid) j (post ++ .commitTransaction i :: rest) v _ hv
      rw [hops, hsplit, List.append_assoc, List.cons_append]
    obtain ⟨u, hj, hvalid, -⟩ := unchanged_of_told hcheckedj htoldj
    obtain ⟨u', hj', hwritesKey⟩ := hwritesj
    obtain rfl : u = u' := Option.mem_unique hj hj'
    exact halone j v key hsince hwrites ⟨u, hj, hvalid, hwritesKey⟩

end Runs

section Plain

attribute [local instance] plainRocksDb

/-- Two transactions read a key and write to different keys; the first one is committed. -/
def disjoint : List Op :=
  [.makeTransaction, .makeTransaction, .get 0 "k", .get 1 "k", .set 0 ("k", "a"),
    .set 1 ("l", "b"), .commitTransaction 0]

theorem told_commitIsReal_disjoint :
    ∃ w w', (opened Store.empty [("k", "0")]).after false (fun _ => []) disjoint = some w ∧
      w.step false (fun _ => []) (.commitTransaction 1) = some (w', .ok (.told true)) ∧
      CommitIsReal false (fun _ => []) (opened Store.empty [("k", "0")]) disjoint 1 w w' :=
  ⟨_, _, rfl, rfl,
    told_commitIsReal false (fun _ => []) Store.empty [("k", "0")]
      (disjoint ++ [.commitTransaction 1]) (fun _ _ _ _ _ _ => Or.inl rfl) disjoint [] 1 _ _ rfl
      rfl rfl⟩

/-- Two transactions read a key and write to it; the first one is committed. -/
def lostUpdate : List Op :=
  [.makeTransaction, .makeTransaction, .get 0 "k", .get 1 "k", .set 0 ("k", "a"),
    .set 1 ("k", "b"), .commitTransaction 0]

/-- In a build with `NDEBUG` the second commit is told to have succeeded as well, and its
write is not in the store. -/
theorem not_commitIsReal_lostUpdate :
    ∃ w w', (opened Store.empty [("k", "0")]).after true (fun _ => []) lostUpdate = some w ∧
      w.step true (fun _ => []) (.commitTransaction 1) = some (w', .ok (.told true)) ∧
      ¬ CommitIsReal true (fun _ => []) (opened Store.empty [("k", "0")]) lostUpdate 1 w w' := by
  refine ⟨_, _, rfl, rfl, ?_⟩
  intro hreal
  have hwritten := hreal.written ⟨1, [("k", "b")]⟩ rfl "k" "b" rfl
  exact absurd hwritten (by decide)

end Plain

end World

end Fabko.Datastore
