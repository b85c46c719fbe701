import Fabko.Datastore.KvRocksdb
import Mathlib.Data.List.Induction
import Mathlib.Logic.Function.Iterate
import Mathlib.Tactic.IntervalCases

/-!
# Isolation of the transactions of the key-value store

What the clients of one `kv_rocksdb` may rely on when their transactions interleave in any
order: the database holds the commits that were told to have succeeded, each one whole and in
their order; what a transaction read and then writes is still there when it commits, so no
update gets lost; and transactions that write what they read could as well have run one after
another.
-/

set_option autoImplicit false

namespace Fabko.Datastore

open Optimistic

/-- An operation of a client and what the client got back. -/
abbrev Event := Op × Except Exception Answer

namespace Op

/-- The transaction an operation is made on. -/
def transaction : Op → Option Nat
  | .makeTransaction => none
  | .get i _ => some i
  | .multiGet i _ => some i
  | .set i _ => some i
  | .multiSet i _ => some i
  | .commitTransaction i => some i

/-- The same operation, made on transaction `k`. -/
def onTransaction (k : Nat) : Op → Op
  | .makeTransaction => .makeTransaction
  | .get _ key => .get k key
  | .multiGet _ keys => .multiGet k keys
  | .set _ toAdd => .set k toAdd
  | .multiSet _ toAdds => .multiSet k toAdds
  | .commitTransaction _ => .commitTransaction k

/-- The keys an operation asks for. -/
def reads : Op → List String
  | .get _ key => [key]
  | .multiGet _ keys => keys
  | _ => []

end Op

/-! ## Reads and writes of one transaction -/

theorem mapM_congr {α β : Type} {m : Type → Type} [Monad m] [LawfulMonad m] {f g : α → m β}
    {xs : List α} (h : ∀ x ∈ xs, f x = g x) : xs.mapM f = xs.mapM g := by
  induction xs with
  | nil => rfl
  | cons x xs ih =>
      rw [List.mapM_cons, List.mapM_cons, h x List.mem_cons_self,
        ih fun y hy => h y (List.mem_cons_of_mem x hy)]

/-- A transaction sees of the database the values of the keys it asks for. -/
theorem read_congr {db db' : Db} {t t' : Txn} {key : String} (hbatch : t'.batch = t.batch)
    (hvalue : db'.value key = db.value key) : t'.read db' key = t.read db key := by
  rw [Transaction.read, Transaction.read, hbatch, hvalue]

section Transactions

variable [RocksDb]

theorem set_eq (ndebug : Bool) (t : Txn) (toAdd : KeyValue) :
    set ndebug t toAdd = (.ok true, t.put toAdd) := by
  simp [set, RocksDb.rocksPut_eq, Status.isOk, fabkoAssertCode, bind, Except.bind, pure, Except.pure]

theorem multiSet_eq (ndebug : Bool) (t : Txn) (toAdds : List KeyValue) :
    multiSet ndebug t toAdds = (.ok true, { t with batch := t.batch ++ toAdds }) := by
  induction toAdds generalizing t with
  | nil => simp [multiSet]
  | cons toAdd rest ih => simp [multiSet, set_eq, ih, Transaction.put]

theorem rocksGet_congr {db db' : Db} {t t' : Txn} {key : String}
    (hread : t'.read db' key = t.read db key) : rocksGet db' t' key = rocksGet db t key := by
  cases h : t.read db key with
  | none => rw [RocksDb.rocksGet_absent h, RocksDb.rocksGet_absent (hread.trans h)]
  | some value => rw [RocksDb.rocksGet_found h, RocksDb.rocksGet_found (hread.trans h)]

theorem get_congr (ndebug : Bool) {db db' : Db} {t t' : Txn} {key : String}
    (hbatch : t'.batch = t.batch) (hvalue : db'.value key = db.value key) :
    get ndebug db' t' key = get ndebug db t key := by
  rw [get, get, rocksGet_congr (read_congr hbatch hvalue)]

theorem multiGet_congr (ndebug : Bool) {db db' : Db} {t t' : Txn} {keys : List String}
    (hbatch : t'.batch = t.batch) (hvalue : ∀ key ∈ keys, db'.value key = db.value key) :
    multiGet ndebug db' t' keys = multiGet ndebug db t keys := by
  refine mapM_congr fun key hkey => ?_
  rw [rocksGet_congr (read_congr hbatch (hvalue key hkey))]

/-- In a build with the assertions a key that was got without an exception has a value: the
one the transaction wrote last, or else the committed one. -/
theorem get_eq_ok {db : Db} {t : Txn} {key value : String}
    (hget : get false db t key = .ok value) : t.read db key = some value := by
  cases hread : t.read db key with
  | none =>
      simp [get, RocksDb.rocksGet_absent hread, Status.isOk, fabkoAssertCode, bind,
        Except.bind] at hget
  | some found =>
      simpa [get, RocksDb.rocksGet_found hread, Status.isOk, fabkoAssertCode, bind, Except.bind,
        pure, Except.pure] using hget

end Transactions

namespace World

/-! ## Runs as they are seen from outside -/

section Runs

variable [RocksDb] (ndebug : Bool) (leftover : List KeyValue → List KeyValue)

/-- The events are a run from one world to another. -/
def Run (w : World) (events : List Event) (w' : World) : Prop :=
  match events with
  | [] => w = w'
  | (op, r) :: rest => ∃ v, w.step ndebug leftover op = some (v, r) ∧ Run v rest w'

/-- The batches of the commits that are told to have succeeded, in their order. -/
def toldBatches (w : World) (ops : List Op) : List (List KeyValue) :=
  match ops with
  | [] => []
  | op :: rest =>
      match w.step ndebug leftover op with
      | none => []
      | some (v, r) =>
          match op, r with
          | .commitTransaction i, .ok (.told true) =>
              (w.transactions[i]?.map Transaction.batch).toList ++ toldBatches v rest
          | _, _ => toldBatches v rest

end Runs

section Told

variable [RocksDb] {ndebug : Bool} {leftover : List KeyValue → List KeyValue}

theorem run_append {w w' : World} {first second : List Event} :
    w.Run ndebug leftover (first ++ second) w'
      ↔ ∃ v, w.Run ndebug leftover first v ∧ v.Run ndebug leftover second w' := by
  induction first generalizing w with
  | nil => exact ⟨fun h => ⟨w, rfl, h⟩, fun ⟨v, hv, h⟩ => hv ▸ h⟩
  | cons e rest ih =>
      constructor
      · rintro ⟨u, hstep, hrest⟩
        obtain ⟨v, hfirst, hsecond⟩ := ih.mp hrest
        exact ⟨v, ⟨u, hstep, hfirst⟩, hsecond⟩
      · rintro ⟨v, ⟨u, hstep, hfirst⟩, hsecond⟩
        exact ⟨u, hstep, ih.mpr ⟨v, hfirst, hsecond⟩⟩

theorem run_concat {w w' : World} {events : List Event} {op : Op} {r : Except Exception Answer} :
    w.Run ndebug leftover (events ++ [(op, r)]) w'
      ↔ ∃ v, w.Run ndebug leftover events v ∧ v.step ndebug leftover op = some (w', r) := by
  rw [run_append]
  refine exists_congr fun v => and_congr_right fun _ => ⟨?_, fun h => ⟨w', h, rfl⟩⟩
  rintro ⟨u, hstep, rfl⟩
  exact hstep

theorem Run.after {w w' : World} {events : List Event} (h : w.Run ndebug leftover events w') :
    w.after ndebug leftover (events.map Prod.fst) = some w' := by
  induction events generalizing w with
  | nil => exact congrArg some h
  | cons e rest ih =>
      obtain ⟨v, hstep, hrest⟩ := h
      exact after_cons.mpr ⟨v, e.2, hstep, ih hrest⟩

/-- A step that is no commit leaves the database as it is. -/
theorem step_db_of_ne_commit {w w' : World} {op : Op} {r : Except Exception Answer}
    (hstep : w.step ndebug leftover op = some (w', r)) (hop : ∀ i, op ≠ .commitTransaction i) :
    w'.db = w.db := by
  cases op with
  | makeTransaction =>
      obtain ⟨rfl, -⟩ := Prod.mk.inj (Option.some.inj hstep)
      rfl
  | commitTransaction i => exact absurd rfl (hop i)
  | get i key | multiGet i keys | set i toAdd | multiSet i toAdds =>
      obtain ⟨t, -, ht⟩ := Option.map_eq_some_iff.mp hstep
      obtain ⟨rfl, -⟩ := Prod.mk.inj ht
      rfl

/-- The database a step leaves: nothing but a commit that validates writes to it. -/
theorem step_follows {w w' : World} {op : Op} {r : Except Exception Answer}
    (hstep : w.step ndebug leftover op = some (w', r)) : Store.Follows w.db w'.db := by
  by_cases hop : ∃ i, op = .commitTransaction i
  · obtain ⟨i, rfl⟩ := hop
    obtain ⟨t, -, ⟨-, hwritten, -⟩ | ⟨-, hsame, -⟩⟩ := step_commitTransaction_cases hstep
    · exact hwritten ▸ Store.Follows.write w.db t.batch
    · exact hsame ▸ Store.Follows.refl w.db
  · rw [step_db_of_ne_commit hstep fun i hi => hop ⟨i, hi⟩]
    exact Store.Follows.refl w.db

theorem Run.follows {w w' : World} {events : List Event}
    (h : w.Run ndebug leftover events w') : Store.Follows w.db w'.db := by
  induction events generalizing w with
  | nil => exact h ▸ Store.Follows.refl w.db
  | cons e rest ih =>
      obtain ⟨v, hstep, hrest⟩ := h
      exact (step_follows hstep).trans (ih hrest)

/-! ## The database is what the told commits wrote -/

theorem toldBatches_cons {w v : World} {op : Op} {r : Except Exception Answer} (rest : List Op)
    (hstep : w.step ndebug leftover op = some (v, r)) :
    w.toldBatches ndebug leftover (op :: rest)
      = w.toldBatches ndebug leftover [op] ++ v.toldBatches ndebug leftover rest := by
  simp only [toldBatches, hstep]
  split <;> simp

theorem toldBatches_append {w v : World} {first : List Event} (second : List Op)
    (hfirst : w.Run ndebug leftover first v) :
    w.toldBatches ndebug leftover (first.map Prod.fst ++ second)
      = w.toldBatches ndebug leftover (first.map Prod.fst)
          ++ v.toldBatches ndebug leftover second := by
  induction first generalizing w with
  | nil => rw [show w = v from hfirst]; rfl
  | cons e rest ih =>
      obtain ⟨u, hstep, hrest⟩ := hfirst
      rw [List.map_cons, List.cons_append, toldBatches_cons (rest.map Prod.fst ++ second) hstep,
        toldBatches_cons (rest.map Prod.fst) hstep, ih hrest, List.append_assoc]

/-- What a step writes is the batch that it tells of, where its commit is checked. -/
theorem step_toldBatches {w w' : World} {op : Op} {r : Except Exception Answer}
    (hchecked : ∀ i, op = .commitTransaction i → w.CommitChecked ndebug i)
    (hstep : w.step ndebug leftover op = some (w', r)) :
    w'.db = w.db.write (w.toldBatches ndebug leftover [op]).flatten := by
  by_cases hop : ∃ i, op = .commitTransaction i
  · obtain ⟨i, rfl⟩ := hop
    obtain ⟨t, hi, ⟨-, hwritten, rfl⟩ | ⟨hchanged, hsame, hthrown⟩⟩ :=
      step_commitTransaction_cases hstep
    · rw [hwritten]
      simp [toldBatches, hstep, hi]
    · -- a commit that does not validate is not among the told ones
      rcases hchecked i rfl with hdebug | hvalid
      · obtain rfl := hthrown hdebug
        have hnone : w.toldBatches ndebug leftover [.commitTransaction i] = [] := by
          simp [toldBatches, hstep]
        rw [hnone]
        exact hsame
      · exact absurd (hvalid t hi) hchanged
  · have hnone : w.toldBatches ndebug leftover [op] = [] := by
      cases op <;> simp_all [toldBatches]
    rw [hnone]
    exact step_db_of_ne_commit hstep fun i hi => hop ⟨i, hi⟩

theorem Run.db_eq_write {start w' : World} {events : List Event}
    (hrun : start.Run ndebug leftover events w')
    (hchecked : CommitsChecked ndebug leftover start (events.map Prod.fst)) :
    w'.db = start.db.write
      (start.toldBatches ndebug leftover (events.map Prod.fst)).flatten := by
  induction events using List.reverseRecOn generalizing w' with
  | nil => rw [show start = w' from hrun]; rfl
  | append_singleton past e ih =>
      obtain ⟨op, r⟩ := e
      obtain ⟨w, hpast, hstep⟩ := run_concat.mp hrun
      have hchecked' : ∀ i, op = .commitTransaction i → w.CommitChecked ndebug i := by
        rintro i rfl
        exact hchecked (past.map Prod.fst) i [] w (by simp) hpast.after
      have hbefore := ih hpast fun before i rest u hsplit =>
        hchecked before i (rest ++ [op]) u (by simp [hsplit])
      calc w'.db = w.db.write (w.toldBatches ndebug leftover [op]).flatten :=
            step_toldBatches hchecked' hstep
        _ = start.db.write (start.toldBatches ndebug leftover
              ((past ++ [(op, r)]).map Prod.fst)).flatten := by
            rw [hbefore, List.map_append, toldBatches_append _ hpast, List.flatten_append,
              write_append]
            rfl

/-- **The database is the record of the told commits**: after every run whose commits are
checked it holds what was there at first, overwritten by the batches of the commits that were
told to have succeeded, each one whole and in the order of the commits. -/
theorem told_written (ndebug : Bool) (leftover : List KeyValue → List KeyValue) (start w' : World)
    (events : List Event) (hrun : start.Run ndebug leftover events w')
    (hchecked : CommitsChecked ndebug leftover start (events.map Prod.fst)) :
    w'.db = start.db.write
      (start.toldBatches ndebug leftover (events.map Prod.fst)).flatten :=
  hrun.db_eq_write hchecked

end Told

section Plain

attribute [local instance] plainRocksDb

/-- Two transactions write to different keys, and one of them reads what the other wrote. -/
def sharing : List Event :=
  [(.makeTransaction, .ok .made), (.makeTransaction, .ok .made),
    (.set 0 ("k", "a"), .ok (.told true)), (.commitTransaction 0, .ok (.told true)),
    (.get 1 "k", .ok (.value "a")), (.set 1 ("l", "b"), .ok (.told true)),
    (.commitTransaction 1, .ok (.told true))]

theorem told_written_sharing :
    ∃ w', (opened Store.empty [("k", "0")]).Run false (fun _ => []) sharing w' ∧
      w'.db = (opened Store.empty [("k", "0")]).db.write
        ((opened Store.empty [("k", "0")]).toldBatches false (fun _ => [])
          (sharing.map Prod.fst)).flatten :=
  have hrun : (opened Store.empty [("k", "0")]).Run false (fun _ => []) sharing _ :=
    ⟨_, rfl, _, rfl, _, rfl, _, rfl, _, rfl, _, rfl, _, rfl, rfl⟩
  ⟨_, hrun, told_written false _ _ _ sharing hrun fun _ _ _ _ _ _ => Or.inl rfl⟩

end Plain

/-! ## No update gets lost -/

section Updates

variable [RocksDb] {ndebug : Bool} {leftover : List KeyValue → List KeyValue}

/-- No transaction is from the future. -/
def SnapshotsBegun (w : World) : Prop := ∀ t ∈ w.transactions, t.snapshot ≤ w.db.sequence

theorem step_snapshotsBegun {w w' : World} {op : Op} {r : Except Exception Answer}
    (hbegun : w.SnapshotsBegun) (hstep : w.step ndebug leftover op = some (w', r)) :
    w'.SnapshotsBegun := by
  have hgrows := step_grows hstep
  intro t' ht'
  obtain ⟨i, hi⟩ := List.mem_iff_getElem?.mp ht'
  by_cases hold : i < w.transactions.length
  · -- it was made before and has kept its snapshot
    obtain ⟨t, ht, hsame⟩ := hgrows.snapshot i _ (List.getElem?_eq_getElem hold)
    obtain rfl : t = t' := Option.mem_unique ht hi
    calc t.snapshot = w.transactions[i].snapshot := hsame
      _ ≤ w.db.sequence := hbegun _ (List.getElem_mem hold)
      _ ≤ w'.db.sequence := hgrows.db.sequence
  · cases op with
    | makeTransaction =>
        rw [step_makeTransaction] at hstep
        obtain ⟨rfl, -⟩ := Prod.mk.inj (Option.some.inj hstep)
        rcases List.mem_append.mp ht' with hmem | hmem
        · exact hbegun t' hmem
        · rw [List.mem_singleton.mp hmem]
          exact le_rfl
    | get _ _ | multiGet _ _ | set _ _ | multiSet _ _ | commitTransaction _ =>
        obtain ⟨t, -, ht⟩ := Option.map_eq_some_iff.mp hstep
        obtain ⟨rfl, -⟩ := Prod.mk.inj ht
        have hlt := (List.getElem?_eq_some_iff.mp hi).1
        simp at hlt hold
        omega

theorem Run.snapshotsBegun {w w' : World} {events : List Event} (hbegun : w.SnapshotsBegun)
    (h : w.Run ndebug leftover events w') : w'.SnapshotsBegun := by
  induction events generalizing w with
  | nil => exact h ▸ hbegun
  | cons e rest ih =>
      obtain ⟨v, hstep, hrest⟩ := h
      exact ih (step_snapshotsBegun hbegun hstep) hrest

/-- When a transaction validates, the database has under each key that it writes what it had
at every moment since the transaction was made. -/
theorem Run.value_eq_of_unchanged {u w : World} {events : List Event} {i : Nat} {t t' : Txn}
    {key : String} (hrun : u.Run ndebug leftover events w) (hbegun : u.SnapshotsBegun)
    (hi : u.transactions[i]? = some t) (hi' : w.transactions[i]? = some t')
    (hunchanged : t'.Unchanged w.db) (hwrites : t'.Writes key) :
    w.db.value key = u.db.value key := by
  have hsnapshot : t'.snapshot = t.snapshot := by
    obtain ⟨later, hlater, hsame⟩ := (after_grows hrun.after).snapshot i t hi
    obtain rfl : later = t' := Option.mem_unique hlater hi'
    exact hsame
  have hstart : t'.snapshot ≤ u.db.sequence :=
    hsnapshot ▸ hbegun t (List.mem_of_getElem? hi)
  exact hunchanged.value_eq hwrites hstart hrun.follows

/-- Transaction `i` updates the key by `f`, when it commits from `w` after the run `past`: it
got a value before it wrote to the key, and the last write it buffers is `f` of that value. -/
def UpdatesBy (leftover : List KeyValue → List KeyValue) (f : String → String) (key : String)
    (start : World) (past : List Event) (i : Nat) (w : World) : Prop :=
  ∃ before mid u t value t', past = before ++ (.get i key, .ok (.value value)) :: mid ∧
    start.Run false leftover before u ∧ u.transactions[i]? = some t ∧
    lastWrite t.batch key = none ∧ w.transactions[i]? = some t' ∧
    lastWrite t'.batch key = some (f value)

/-- Every commit of the run that writes to the key and is told to have succeeded updates it
by `f`. -/
def AllUpdateBy (leftover : List KeyValue → List KeyValue) (f : String → String) (key : String)
    (start : World) (events : List Event) : Prop :=
  ∀ past i rest w, events = past ++ (.commitTransaction i, .ok (.told true)) :: rest →
    start.Run false leftover past w → w.WritesKey i key →
    UpdatesBy leftover f key start past i w

/-- Transaction `i` updates the key within `R`, when it commits from `w` after the run `past`: it
got a value before it wrote to the key, and `R` allows the last write it buffers for that value. -/
def UpdatesWithin (leftover : List KeyValue → List KeyValue) (R : String → String → Prop)
    (key : String) (start : World) (past : List Event) (i : Nat) (w : World) : Prop :=
  ∃ before mid u t value t' value', past = before ++ (.get i key, .ok (.value value)) :: mid ∧
    start.Run false leftover before u ∧ u.transactions[i]? = some t ∧
    lastWrite t.batch key = none ∧ w.transactions[i]? = some t' ∧
    lastWrite t'.batch key = some value' ∧ R value value'

/-- Every commit of the run that writes to the key and is told to have succeeded updates it
within `R`. -/
def AllUpdateWithin (leftover : List KeyValue → List KeyValue) (R : String → String → Prop)
    (key : String) (start : World) (events : List Event) : Prop :=
  ∀ past i rest w, events = past ++ (.commitTransaction i, .ok (.told true)) :: rest →
    start.Run false leftover past w → w.WritesKey i key →
    UpdatesWithin leftover R key start past i w

theorem UpdatesBy.within {f : String → String} {key : String} {start w : World}
    {past : List Event} {i : Nat} (h : UpdatesBy leftover f key start past i w) :
    UpdatesWithin leftover (fun value value' => value' = f value) key start past i w := by
  obtain ⟨before, mid, u, t, value, t', hpast, hbefore, ht, hfirst, ht', hlast⟩ := h
  exact ⟨before, mid, u, t, value, t', f value, hpast, hbefore, ht, hfirst, ht', hlast, rfl⟩

/-- A told commit that updates a key finds its value as the transaction got it. -/
theorem UpdatesWithin.value_eq {R : String → String → Prop} {key : String} {start w : World}
    {past : List Event} {i : Nat} {t : Txn} (hbegun : start.SnapshotsBegun)
    (hpast : start.Run false leftover past w) (hi : w.transactions[i]? = some t)
    (hunchanged : t.Unchanged w.db) (hwrites : t.Writes key)
    (hupdates : UpdatesWithin leftover R key start past i w) :
    ∃ value value', w.db.value key = some value ∧ lastWrite t.batch key = some value' ∧
      R value value' := by
  obtain ⟨before, mid, u, t₀, value, t', value', rfl, hbefore, hi₀, hfirst, hi', hlast, hR⟩ :=
    hupdates
  obtain rfl : t = t' := Option.mem_unique hi hi'
  refine ⟨value, value', ?_, hlast, hR⟩
  obtain ⟨v, hv, hrest⟩ := run_append.mp hpast
  obtain rfl : u = v := Option.mem_unique hbefore.after hv.after
  -- the get answered with the committed value
  have hread : u.db.value key = some value := by
    obtain ⟨_, hstep, -⟩ := hrest
    obtain ⟨t₁, hi₁, hget⟩ := Option.map_eq_some_iff.mp hstep
    obtain rfl : t₀ = t₁ := Option.mem_unique hi₀ hi₁
    have hanswer := (Prod.mk.inj hget).2
    cases hgot : get false u.db t₀ key with
    | error e => simp [hgot, Except.map] at hanswer
    | ok got =>
        obtain rfl : got = value := by simpa [hgot, Except.map] using hanswer
        simpa [Transaction.read, hfirst] using get_eq_ok hgot
  calc w.db.value key = u.db.value key :=
        hrest.value_eq_of_unchanged (Run.snapshotsBegun hbegun hbefore) hi₀ hi hunchanged hwrites
    _ = some value := hread

/-- How many of the batches write to the key. -/
def writeCount (key : String) (batches : List (List KeyValue)) : Nat :=
  batches.countP fun batch => batch.any fun entry => entry.1 = key

omit [RocksDb] in
theorem writeCount_append (key : String) (first second : List (List KeyValue)) :
    writeCount key (first ++ second) = writeCount key first + writeCount key second :=
  List.countP_append

/-- A step of a run in which all updates of the key are within `R` leaves the value, or is told to
have written to the key and moves it along `R`. -/
theorem step_update {R : String → String → Prop} {key : String} {start w w' : World}
    {past : List Event} {op : Op} {r : Except Exception Answer} (hbegun : start.SnapshotsBegun)
    (hpast : start.Run false leftover past w) (hstep : w.step false leftover op = some (w', r))
    (hupdates : ∀ i, op = .commitTransaction i → r = .ok (.told true) → w.WritesKey i key →
      UpdatesWithin leftover R key start past i w) :
    (writeCount key (w.toldBatches false leftover [op]) = 0 ∧ w'.db.value key = w.db.value key) ∨
      (writeCount key (w.toldBatches false leftover [op]) = 1 ∧ ∃ value value',
        w.db.value key = some value ∧ w'.db.value key = some value' ∧ R value value') := by
  by_cases hop : ∃ i, op = .commitTransaction i
  · obtain ⟨i, rfl⟩ := hop
    obtain ⟨t, hi, ⟨hunchanged, hwritten, rfl⟩ | ⟨-, hsame, hthrown⟩⟩ :=
      step_commitTransaction_cases hstep
    · have hbatches : w.toldBatches false leftover [.commitTransaction i] = [t.batch] := by
        simp [toldBatches, hstep, hi]
      rw [hbatches]
      by_cases hwrites : t.Writes key
      · obtain ⟨value, value', hvalue, hlast, hR⟩ :=
          UpdatesWithin.value_eq hbegun hpast hi hunchanged hwrites
            (hupdates i rfl rfl ⟨t, hi, hwrites⟩)
        refine Or.inr ⟨?_, value, value', hvalue, ?_, hR⟩
        · simpa [writeCount, Transaction.Writes] using hwrites
        · rw [hwritten, value_write_of_lastWrite w.db hlast]
      · -- the commit wrote to other keys only
        have hnone : lastWrite t.batch key = none :=
          lastWrite_eq_none_iff.mpr fun entry hentry hkey => hwrites ⟨entry, hentry, hkey⟩
        refine Or.inl ⟨?_, ?_⟩
        · simpa [writeCount, Transaction.Writes] using hwrites
        · rw [hwritten, value_write, hnone, Option.none_or]
    · -- refused, so not told
      obtain rfl := hthrown rfl
      refine Or.inl ⟨?_, by rw [hsame]⟩
      simp [toldBatches, hstep, writeCount]
  · have hnone : w.toldBatches false leftover [op] = [] := by
      cases op <;> simp_all [toldBatches]
    rw [hnone]
    exact Or.inl ⟨rfl, by rw [step_db_of_ne_commit hstep fun i hi => hop ⟨i, hi⟩]⟩

/-- What holds of the first value and is kept by each update holds of the last value and the number
of updates. -/
theorem update_induct {leftover : List KeyValue → List KeyValue} {R : String → String → Prop}
    {key : String} {start w' : World} {events : List Event} {P : Nat → Option String → Prop}
    (hbegun : start.SnapshotsBegun) (hrun : start.Run false leftover events w')
    (hupdates : AllUpdateWithin leftover R key start events)
    (hstart : P 0 (start.db.value key))
    (hkept : ∀ k value value', P k (some value) → R value value' → P (k + 1) (some value')) :
    P (writeCount key (start.toldBatches false leftover (events.map Prod.fst)))
      (w'.db.value key) := by
  induction events using List.reverseRecOn generalizing w' with
  | nil =>
      rw [← show start = w' from hrun]
      exact hstart
  | append_singleton past e ih =>
      obtain ⟨op, r⟩ := e
      obtain ⟨w, hpast, hstep⟩ := run_concat.mp hrun
      have hbefore := ih hpast fun before i rest u hsplit =>
        hupdates before i (rest ++ [(op, r)]) u (by simp [hsplit])
      have hupdate := step_update hbegun hpast hstep (by
        rintro i rfl rfl
        exact hupdates past i [] w rfl hpast)
      rw [List.map_append, List.map_singleton, toldBatches_append _ hpast, writeCount_append]
      rcases hupdate with ⟨hcount, hsame⟩ | ⟨hcount, value, value', hvalue, hvalue', hR⟩
      · rw [hcount, hsame]
        exact hbefore
      · rw [hvalue] at hbefore
        rw [hcount, hvalue']
        exact hkept _ value value' hbefore hR

/-- **No update gets lost** in a build with the assertions: where the clients get a key, put
`f` of what they got and commit, the key ends with `f` applied as many times as commits that
write to it were told to have succeeded, however the clients interleave. -/
theorem value_of_updates (leftover : List KeyValue → List KeyValue) (existing : Db)
    (initialKv : List KeyValue) (f : String → String) (key : String) (events : List Event)
    (w' : World) (hrun : (opened existing initialKv).Run false leftover events w')
    (hupdates : AllUpdateBy leftover f key (opened existing initialKv) events) :
    w'.db.value key = ((opened existing initialKv).db.value key).map
      f^[writeCount key
        ((opened existing initialKv).toldBatches false leftover (events.map Prod.fst))] := by
  refine update_induct (fun _ ht => nomatch ht) hrun
    (fun past i rest w hsplit hpast hwrites => (hupdates past i rest w hsplit hpast hwrites).within)
    (P := fun k value => value = ((opened existing initialKv).db.value key).map f^[k]) ?_ ?_
  · exact Option.map_id'.symm
  · rintro k value value' hvalue rfl
    rw [Function.iterate_succ', ← Option.map_map, ← hvalue]
    rfl

end Updates

section Plain

attribute [local instance] plainRocksDb

/-- Two clients get a value and put the next one; the second one is refused, begins again and
gets what the first one put. -/
def contended (first next : String) : List Event :=
  [(.makeTransaction, .ok .made), (.makeTransaction, .ok .made),
    (.get 0 "n", .ok (.value first)), (.get 1 "n", .ok (.value first)),
    (.set 0 ("n", next), .ok (.told true)), (.set 1 ("n", next), .ok (.told true)),
    (.commitTransaction 0, .ok (.told true)),
    (.commitTransaction 1, .error (.fabko commitErrorCode "Commit Failure : Resource busy: ")),
    (.makeTransaction, .ok .made), (.get 2 "n", .ok (.value next))]

/-- Then it puts its own next value, which is committed. -/
def counting (first next last : String) : List Event :=
  contended first next ++
    [(.set 2 ("n", last), .ok (.told true)), (.commitTransaction 2, .ok (.told true))]

theorem told_of_counting {first next last : String} {past rest : List Event} {i : Nat}
    (hsplit : counting first next last
      = past ++ (.commitTransaction i, .ok (.told true)) :: rest) :
    (past = (contended first next).take 6 ∧ i = 0) ∨
      (past = (counting first next last).take 11 ∧ i = 2) := by
  have htake : past = (counting first next last).take past.length := by
    rw [hsplit, List.take_left]
  have hevent : (counting first next last)[past.length]?
      = some (.commitTransaction i, .ok (.told true)) := by
    rw [hsplit, List.getElem?_append_right le_rfl]
    simp
  have hlength : past.length < 12 := (List.getElem?_eq_some_iff.mp hevent).1
  generalize past.length = n at *
  interval_cases n <;> simp [counting, contended] at hevent
  · exact Or.inl ⟨htake, hevent.symm⟩
  · exact Or.inr ⟨htake, hevent.symm⟩

theorem value_of_updates_counting :
    ∃ w', (opened Store.empty [("n", "1")]).Run false (fun _ => []) (counting "1" "11" "111") w' ∧
      w'.db.value "n" = some "111" := by
  refine ⟨_, ⟨_, rfl, _, rfl, _, rfl, _, rfl, _, rfl, _, rfl, _, rfl, _, rfl, _, rfl, _, rfl,
    _, rfl, _, rfl, rfl⟩, ?_⟩
  refine (value_of_updates (fun _ => []) Store.empty [("n", "1")] (fun s => s ++ "1") "n"
    (counting "1" "11" "111") _ ⟨_, rfl, _, rfl, _, rfl, _, rfl, _, rfl, _, rfl, _, rfl, _, rfl, _, rfl, _, rfl, _, rfl,
      _, rfl, rfl⟩ ?_).trans (by decide)
  intro past i rest w hsplit hpast hwrites
  rcases told_of_counting hsplit with ⟨rfl, rfl⟩ | ⟨rfl, rfl⟩
  · obtain rfl := Option.mem_unique hpast.after rfl
    exact ⟨(contended "1" "11").take 2, ((contended "1" "11").take 6).drop 3, _, _, "1", _, rfl, ⟨_, rfl, _, rfl, rfl⟩,
      rfl, rfl, rfl, rfl⟩
  · obtain rfl := Option.mem_unique hpast.after rfl
    exact ⟨(contended "1" "11").take 9, [(.set 2 ("n", "111"), .ok (.told true))], _, _, "11", _, rfl,
      ⟨_, rfl, _, rfl, _, rfl, _, rfl, _, rfl, _, rfl, _, rfl, _, rfl, _, rfl, rfl⟩,
      rfl, rfl, rfl, rfl⟩

end Plain

/-! ## Transactions that write what they read -/

section Serial

variable [RocksDb] {ndebug : Bool} {leftover : List KeyValue → List KeyValue}

/-- What transaction `i` did and got in a run. -/
def session (i : Nat) (events : List Event) : List Event :=
  events.filter fun e => e.1.transaction = some i

/-- The transaction whose commit the event is, if it was told to have succeeded. -/
def toldCommit : Event → Option Nat
  | (.commitTransaction i, .ok (.told true)) => some i
  | _ => none

/-- The sessions of the transactions whose commit is told to have succeeded, in the order of
the commits; the run began with `past`. -/
def toldSessions (past : List Event) : List Event → List (List Event)
  | [] => []
  | e :: rest =>
      ((toldCommit e).map fun i => session i past).toList ++ toldSessions (past ++ [e]) rest

/-- A transaction alone: it is made as the `k`-th one, has its session, and commits. -/
def aloneEvents (k : Nat) (events : List Event) : List Event :=
  (.makeTransaction, .ok .made) ::
    (events.map (Prod.map (Op.onTransaction k) id) ++ [(.commitTransaction k, .ok (.told true))])

/-- The sessions one after the other, each by a transaction of its own. -/
def serialEvents (k : Nat) : List (List Event) → List Event
  | [] => []
  | events :: rest => aloneEvents k events ++ serialEvents (k + 1) rest

omit [RocksDb] in
theorem toldCommit_eq_some_iff {e : Event} {i : Nat} :
    toldCommit e = some i ↔ e = (.commitTransaction i, .ok (.told true)) := by
  constructor
  · intro h
    unfold toldCommit at h
    split at h <;> simp_all
  · rintro rfl
    rfl

/-- Only a commit that is told to have succeeded changes the database. -/
theorem step_db_of_not_told {w w' : World} {op : Op} {r : Except Exception Answer}
    (hstep : w.step ndebug leftover op = some (w', r)) (htold : toldCommit (op, r) = none) :
    w'.db = w.db := by
  by_cases hop : ∃ i, op = .commitTransaction i
  · obtain ⟨i, rfl⟩ := hop
    obtain ⟨t, -, ⟨-, -, rfl⟩ | ⟨-, hsame, -⟩⟩ := step_commitTransaction_cases hstep
    · simp [toldCommit] at htold
    · exact hsame
  · exact step_db_of_ne_commit hstep fun i hi => hop ⟨i, hi⟩

omit [RocksDb] in
theorem toldSessions_append (past first second : List Event) :
    toldSessions past (first ++ second)
      = toldSessions past first ++ toldSessions (past ++ first) second := by
  induction first generalizing past with
  | nil => simp [toldSessions]
  | cons e rest ih =>
      have hrest := ih (past ++ [e])
      rw [List.append_assoc, List.singleton_append] at hrest
      rw [List.cons_append, toldSessions, toldSessions, hrest, List.append_assoc]

omit [RocksDb] in
theorem serialEvents_concat (k : Nat) (sessions : List (List Event)) (events : List Event) :
    serialEvents k (sessions ++ [events])
      = serialEvents k sessions ++ aloneEvents (k + sessions.length) events := by
  induction sessions generalizing k with
  | nil => simp [serialEvents]
  | cons first rest ih =>
      have hindex : k + 1 + rest.length = k + (first :: rest).length := by
        rw [List.length_cons]
        omega
      rw [List.cons_append, serialEvents, ih, serialEvents, List.append_assoc, hindex]

/-- How many transactions there are after a step, and that it names one of them. -/
theorem step_transactions {w w' : World} {op : Op} {r : Except Exception Answer}
    (hstep : w.step ndebug leftover op = some (w', r)) :
    (op = .makeTransaction ∧ r = .ok .made ∧
        w' = { w with transactions := w.transactions ++ [Transaction.start w.db] }) ∨
      ∃ i < w.transactions.length, op.transaction = some i ∧
        w'.transactions.length = w.transactions.length := by
  cases op with
  | makeTransaction =>
      rw [step_makeTransaction] at hstep
      obtain ⟨rfl, rfl⟩ := Prod.mk.inj (Option.some.inj hstep)
      exact Or.inl ⟨rfl, rfl, rfl⟩
  | get i _ | multiGet i _ | set i _ | multiSet i _ | commitTransaction i =>
      obtain ⟨t, hi, ht⟩ := Option.map_eq_some_iff.mp hstep
      obtain ⟨rfl, -⟩ := Prod.mk.inj ht
      exact Or.inr ⟨i, (List.getElem?_eq_some_iff.mp hi).1, rfl, by simp⟩

/-- A transaction that a run made: the run up to its making, which has no event of it, and the
run since then. -/
theorem Run.made {w w' : World} {events : List Event} {i : Nat}
    (hrun : w.Run ndebug leftover events w') (hnew : w.transactions.length ≤ i)
    (hi : i < w'.transactions.length) :
    ∃ pre mid u, events = pre ++ (.makeTransaction, .ok .made) :: mid ∧ session i pre = [] ∧
      u.transactions.length = i ∧ w.Run ndebug leftover pre u ∧
      { u with transactions := u.transactions ++ [Transaction.start u.db] }.Run ndebug leftover
        mid w' := by
  induction events generalizing w with
  | nil =>
      obtain rfl : w = w' := hrun
      omega
  | cons e rest ih =>
      obtain ⟨op, r⟩ := e
      obtain ⟨v, hstep, hrest⟩ := hrun
      by_cases hnow : op = .makeTransaction ∧ w.transactions.length = i
      · obtain ⟨rfl, hlength⟩ := hnow
        rw [step_makeTransaction] at hstep
        obtain ⟨rfl, rfl⟩ := Prod.mk.inj (Option.some.inj hstep)
        -- the transaction is made here, at the end of the list
        exact ⟨[], rest, w, rfl, rfl, hlength, rfl, hrest⟩
      · -- it is made later, so this event is not its own
        have hother : v.transactions.length ≤ i ∧ op.transaction ≠ some i := by
          rcases step_transactions hstep with ⟨rfl, -, rfl⟩ | ⟨j, hj, hop, hlength⟩
          · have hne : w.transactions.length ≠ i := fun h => hnow ⟨rfl, h⟩
            simp [Op.transaction]
            omega
          · refine ⟨by omega, ?_⟩
            rw [hop]
            intro h
            have := Option.some.inj h
            omega
        obtain ⟨pre, mid, u, rfl, hsession, hu, hpre, hmid⟩ := ih hrest hother.1
        refine ⟨(op, r) :: pre, mid, u, rfl, ?_, hu, ⟨v, hstep, hpre⟩, hmid⟩
        simpa [session, hother.2] using hsession

/-- A step of another transaction, or the making of one, leaves a transaction as it is. -/
theorem step_getElem?_of_ne {w w' : World} {op : Op} {r : Except Exception Answer} {i : Nat}
    {t : Txn} (hstep : w.step ndebug leftover op = some (w', r))
    (hop : op.transaction ≠ some i) (hi : w.transactions[i]? = some t) :
    w'.transactions[i]? = some t := by
  cases op with
  | makeTransaction =>
      obtain ⟨rfl, -⟩ := Prod.mk.inj (Option.some.inj hstep)
      exact (List.getElem?_append_left (List.getElem?_eq_some_iff.mp hi).1).trans hi
  | get j _ | multiGet j _ =>
      obtain ⟨u, -, hu⟩ := Option.map_eq_some_iff.mp hstep
      obtain ⟨rfl, -⟩ := Prod.mk.inj hu
      exact hi
  | set j _ | multiSet j _ | commitTransaction j =>
      obtain ⟨u, -, hu⟩ := Option.map_eq_some_iff.mp hstep
      obtain ⟨rfl, -⟩ := Prod.mk.inj hu
      have hne : j ≠ i := fun h => hop (congrArg some h)
      exact (List.getElem?_set_ne hne).trans hi

/-- An operation of a transaction, done by another one with the same pending writes in a world
that has the same values under the keys it reads, has the same answer and buffers the same. -/
theorem step_replay {w w' v : World} {op : Op} {r : Except Exception Answer} {i k : Nat}
    {t t' : Txn} (hstep : w.step ndebug leftover op = some (w', r))
    (hop : op.transaction = some i) (hcommit : op ≠ .commitTransaction i)
    (hi : w.transactions[i]? = some t) (hk : v.transactions[k]? = some t')
    (hbatch : t'.batch = t.batch)
    (hreads : ∀ key ∈ op.reads, v.db.value key = w.db.value key) :
    ∃ v' u u', v.step ndebug leftover (op.onTransaction k) = some (v', r) ∧ v'.db = v.db ∧
      v'.transactions.length = v.transactions.length ∧ w'.transactions[i]? = some u ∧
      v'.transactions[k]? = some u' ∧ u'.batch = u.batch ∧ u'.snapshot = t'.snapshot := by
  have hlti : i < w.transactions.length := (List.getElem?_eq_some_iff.mp hi).1
  have hltk : k < v.transactions.length := (List.getElem?_eq_some_iff.mp hk).1
  cases op with
  | makeTransaction => simp [Op.transaction] at hop
  | commitTransaction j => simp_all [Op.transaction]
  | get j key =>
      obtain rfl : j = i := Option.some.inj hop
      obtain ⟨rfl, rfl⟩ : w = w' ∧ (Datastore.get ndebug w.db t key).map .value = r := by
        simpa [step, hi] using hstep
      refine ⟨v, t, t', ?_, rfl, rfl, hi, hk, hbatch, rfl⟩
      have hsame := get_congr ndebug hbatch (hreads key List.mem_cons_self)
      simp [step, Op.onTransaction, hk, hsame]
  | multiGet j keys =>
      obtain rfl : j = i := Option.some.inj hop
      obtain ⟨rfl, rfl⟩ : w = w' ∧ (Datastore.multiGet ndebug w.db t keys).map .values = r := by
        simpa [step, hi] using hstep
      refine ⟨v, t, t', ?_, rfl, rfl, hi, hk, hbatch, rfl⟩
      have hsame : Datastore.multiGet ndebug v.db t' keys = Datastore.multiGet ndebug w.db t keys :=
        multiGet_congr ndebug hbatch hreads
      simp [step, Op.onTransaction, hk, hsame]
  | set j toAdd =>
      obtain rfl : j = i := Option.some.inj hop
      obtain ⟨rfl, rfl⟩ : { w with transactions := w.transactions.set j (t.put toAdd) } = w' ∧
          .ok (.told true) = r := by
        simpa [step, hi, set_eq, Except.map] using hstep
      refine ⟨{ v with transactions := v.transactions.set k (t'.put toAdd) }, t.put toAdd,
        t'.put toAdd, ?_, rfl, List.length_set, List.getElem?_set_self hlti,
        List.getElem?_set_self hltk, ?_, rfl⟩
      · simp [step, Op.onTransaction, hk, set_eq, Except.map]
      · simp [Transaction.put, hbatch]
  | multiSet j toAdds =>
      obtain rfl : j = i := Option.some.inj hop
      obtain ⟨rfl, rfl⟩ :
          { w with transactions :=
              w.transactions.set j { t with batch := t.batch ++ toAdds } } = w' ∧
            .ok (.told true) = r := by
        simpa [step, hi, multiSet_eq, Except.map] using hstep
      refine ⟨{ v with transactions :=
          v.transactions.set k { t' with batch := t'.batch ++ toAdds } },
        { t with batch := t.batch ++ toAdds }, { t' with batch := t'.batch ++ toAdds }, ?_, rfl,
        List.length_set, List.getElem?_set_self hlti, List.getElem?_set_self hltk, ?_, rfl⟩
      · simp [step, Op.onTransaction, hk, multiSet_eq, Except.map]
      · simp [hbatch]

/-- The session of a transaction that validates at last, and reads no key but those it writes,
can be had again on the database it validates against. -/
theorem Run.replay {u w : World} {events : List Event} {i : Nat} {t tw : Txn}
    (hrun : u.Run ndebug leftover events w) (hbegun : u.SnapshotsBegun)
    (hi : u.transactions[i]? = some t) (hiw : w.transactions[i]? = some tw)
    (hunchanged : tw.Unchanged w.db) (honce : ∀ e ∈ events, e.1 ≠ .commitTransaction i)
    (hcovered : ∀ e ∈ events, e.1.transaction = some i → ∀ key ∈ e.1.reads, tw.Writes key)
    {v : World} {k : Nat} {t' : Txn} (hdb : v.db = w.db) (hk : v.transactions[k]? = some t')
    (hbatch : t'.batch = t.batch) :
    ∃ v' u', v.Run ndebug leftover
        ((session i events).map (Prod.map (Op.onTransaction k) id)) v' ∧ v'.db = v.db ∧
      v'.transactions.length = v.transactions.length ∧ v'.transactions[k]? = some u' ∧
      u'.batch = tw.batch ∧ u'.snapshot = t'.snapshot := by
  induction events generalizing u t v t' with
  | nil =>
      obtain rfl : u = w := hrun
      obtain rfl : t = tw := Option.mem_unique hi hiw
      exact ⟨v, t', rfl, rfl, rfl, hk, hbatch, rfl⟩
  | cons e rest ih =>
      obtain ⟨op, r⟩ := e
      obtain ⟨x, hstep, hrest⟩ := hrun
      have hbegunx := step_snapshotsBegun hbegun hstep
      have honce' : ∀ e ∈ rest, e.1 ≠ .commitTransaction i := fun e he =>
        honce e (List.mem_cons_of_mem _ he)
      have hcovered' : ∀ e ∈ rest, e.1.transaction = some i → ∀ key ∈ e.1.reads, tw.Writes key :=
        fun e he => hcovered e (List.mem_cons_of_mem _ he)
      by_cases hop : op.transaction = some i
      · -- the values read are those of the end, since the transaction writes the keys
        have hreads : ∀ key ∈ op.reads, v.db.value key = u.db.value key := by
          intro key hkey
          have hwrites := hcovered (op, r) List.mem_cons_self hop key hkey
          have hwhole : u.Run ndebug leftover ((op, r) :: rest) w := ⟨x, hstep, hrest⟩
          rw [hdb]
          exact hwhole.value_eq_of_unchanged hbegun hi hiw hunchanged hwrites
        obtain ⟨v₁, t₁, t₁', hv₁, hdb₁, hlength₁, hi₁, hk₁, hbatch₁, hsnapshot₁⟩ :=
          step_replay hstep hop (honce (op, r) List.mem_cons_self) hi hk hbatch hreads
        obtain ⟨v', u', hv', hdb', hlength', hk', hbatch', hsnapshot'⟩ :=
          ih hrest hbegunx hi₁ honce' hcovered' (hdb₁.trans hdb) hk₁ hbatch₁
        refine ⟨v', u', ?_, hdb'.trans hdb₁, hlength'.trans hlength₁, hk', hbatch',
          hsnapshot'.trans hsnapshot₁⟩
        rw [session, List.filter_cons_of_pos (by simpa using hop)]
        exact ⟨v₁, hv₁, hv'⟩
      · rw [session, List.filter_cons_of_neg (by simpa using hop)]
        exact ih hrest hbegunx (step_getElem?_of_ne hstep hop hi) honce' hcovered' hdb hk hbatch

/-- What the clients of a run keep to: a transaction that commits with success has not
committed before, and writes every key it has read. -/
structure Disciplined (ndebug : Bool) (leftover : List KeyValue → List KeyValue) (start : World)
    (events : List Event) : Prop where
  once : ∀ past i rest, events = past ++ (.commitTransaction i, .ok (.told true)) :: rest →
    ∀ e ∈ past, e.1 ≠ .commitTransaction i
  covered : ∀ past i rest w, events = past ++ (.commitTransaction i, .ok (.told true)) :: rest →
    start.Run ndebug leftover past w →
    ∀ e ∈ past, e.1.transaction = some i → ∀ key ∈ e.1.reads, w.WritesKey i key

/-- A transaction that validates at `w` can be had alone on the database of `w`. -/
theorem alone_of_unchanged {start w v : World} {past : List Event} {i : Nat} {t : Txn}
    (hstart : start.transactions = []) (hpast : start.Run ndebug leftover past w)
    (hi : w.transactions[i]? = some t) (hunchanged : t.Unchanged w.db)
    (honce : ∀ e ∈ past, e.1 ≠ .commitTransaction i)
    (hcovered : ∀ e ∈ past, e.1.transaction = some i → ∀ key ∈ e.1.reads, w.WritesKey i key)
    (hdb : v.db = w.db) :
    ∃ v', v.Run ndebug leftover (aloneEvents v.transactions.length (session i past)) v' ∧
      v'.db = w.db.write t.batch ∧ v'.transactions.length = v.transactions.length + 1 := by
  have hbegun : start.SnapshotsBegun := fun t ht => by simp [hstart] at ht
  -- only what comes after its making is of the transaction
  obtain ⟨pre, mid, u, rfl, hpre, hlength, hu, hmid⟩ :=
    Run.made hpast (by simp [hstart]) (List.getElem?_eq_some_iff.mp hi).1
  have hsession : session i (pre ++ (.makeTransaction, .ok .made) :: mid) = session i mid := by
    rw [session, List.filter_append]
    rw [session] at hpre
    rw [hpre, List.filter_cons_of_neg (by simp [Op.transaction])]
    rfl
  have hwrites : ∀ key, w.WritesKey i key → t.Writes key := by
    rintro key ⟨t', hi', hwrites⟩
    obtain rfl : t = t' := Option.mem_unique hi hi'
    exact hwrites
  have hbegunu :=
    step_snapshotsBegun (Run.snapshotsBegun hbegun hu) (@step_makeTransaction _ ndebug leftover u)
  obtain ⟨v₂, t₂, hv₂, hdb₂, hlength₂, hk₂, hbatch₂, hsnapshot₂⟩ :=
    @Run.replay _ ndebug leftover _ w mid i (Transaction.start u.db) t hmid hbegunu
      (by rw [← hlength]; exact List.getElem?_concat_length) hi hunchanged
      (fun e he => honce e (by simp [he]))
      (fun e he hop key hkey => hwrites key (hcovered e (by simp [he]) hop key hkey))
      { v with transactions := v.transactions ++ [Transaction.start v.db] }
      v.transactions.length (Transaction.start v.db) hdb List.getElem?_concat_length rfl
  -- nobody writes between the making of the copy and its commit
  have hvalid : t₂.Unchanged v₂.db :=
    Transaction.unchanged_of_snapshot (by rw [hsnapshot₂, hdb₂]; rfl)
  refine ⟨{ db := v₂.db.write t₂.batch,
            transactions := v₂.transactions.set v.transactions.length
              { t₂ with batch := leftover t₂.batch } }, ?_, ?_, ?_⟩
  · rw [hsession]
    refine ⟨_, step_makeTransaction v, run_concat.mpr ⟨v₂, hv₂, ?_⟩⟩
    simp [step, hk₂, commitTransaction_of_unchanged ndebug leftover hvalid, Except.map]
  · rw [hdb₂, hbatch₂]
    exact congrArg (Store.write · t.batch) hdb
  · simp [hlength₂]

/-- **Transactions that write what they read are serializable**: after every run whose commits
are checked and whose clients keep to the discipline, the sessions that committed with success
can be had again one after another, in the order of their commits, with the same answers, and
the database is the same. -/
theorem told_serializable (ndebug : Bool) (leftover : List KeyValue → List KeyValue)
    (existing : Db) (initialKv : List KeyValue) (events : List Event) (w' : World)
    (hrun : (opened existing initialKv).Run ndebug leftover events w')
    (hchecked : CommitsChecked ndebug leftover (opened existing initialKv) (events.map Prod.fst))
    (hdisciplined : Disciplined ndebug leftover (opened existing initialKv) events) :
    ∃ v', (opened existing initialKv).Run ndebug leftover
      (serialEvents 0 (toldSessions [] events)) v' ∧ v'.db = w'.db := by
  suffices h : ∃ v', (opened existing initialKv).Run ndebug leftover
      (serialEvents 0 (toldSessions [] events)) v' ∧ v'.db = w'.db ∧
        v'.transactions.length = (toldSessions [] events).length by
    obtain ⟨v', hv', hdb, -⟩ := h
    exact ⟨v', hv', hdb⟩
  induction events using List.reverseRecOn generalizing w' with
  | nil => exact ⟨w', hrun, rfl, by rw [← show opened existing initialKv = w' from hrun]; rfl⟩
  | append_singleton past e ih =>
      obtain ⟨op, r⟩ := e
      obtain ⟨w, hpast, hstep⟩ := run_concat.mp hrun
      obtain ⟨v, hv, hdb, hlength⟩ := ih w hpast
        (fun before i rest u hsplit => hchecked before i (rest ++ [op]) u (by simp [hsplit]))
        ⟨fun before i rest hsplit =>
            hdisciplined.once before i (rest ++ [(op, r)]) (by simp [hsplit]),
          fun before i rest u hsplit =>
            hdisciplined.covered before i (rest ++ [(op, r)]) u (by simp [hsplit])⟩
      rw [toldSessions_append]
      cases htold : toldCommit (op, r) with
      | none =>
          -- nothing was committed, and the serial run stays as it is
          refine ⟨v, ?_, hdb.trans (step_db_of_not_told hstep htold).symm, ?_⟩
          · simpa [toldSessions, htold] using hv
          · simpa [toldSessions, htold] using hlength
      | some i =>
          -- the session of the commit goes to the end of the serial run
          obtain ⟨rfl, rfl⟩ := Prod.mk.inj (toldCommit_eq_some_iff.mp htold)
          obtain ⟨t, hi, hunchanged, hwritten⟩ :=
            unchanged_of_told (hchecked (past.map Prod.fst) i [] w (by simp) hpast.after) hstep
          obtain ⟨v', hv', hdb', hlength'⟩ :=
            alone_of_unchanged rfl hpast hi hunchanged (hdisciplined.once past i [] rfl)
              (hdisciplined.covered past i [] w rfl hpast) hdb
          have hsessions : toldSessions ([] ++ past) [(.commitTransaction i, .ok (.told true))]
              = [session i past] := by
            simp [toldSessions, htold]
          rw [hsessions, serialEvents_concat, Nat.zero_add, ← hlength]
          exact ⟨v', run_append.mpr ⟨v, hv, hv'⟩, hdb'.trans hwritten.symm, by simp [hlength', hlength]⟩

end Serial

section Plain

attribute [local instance] plainRocksDb

theorem told_serializable_counting :
    ∃ w' v',
      (opened Store.empty [("n", "1")]).Run false (fun _ => []) (counting "1" "11" "111") w' ∧
      (opened Store.empty [("n", "1")]).Run false (fun _ => [])
        (serialEvents 0 (toldSessions [] (counting "1" "11" "111"))) v' ∧ v'.db = w'.db := by
  have hrun :
      (opened Store.empty [("n", "1")]).Run false (fun _ => []) (counting "1" "11" "111") _ :=
    ⟨_, rfl, _, rfl, _, rfl, _, rfl, _, rfl, _, rfl, _, rfl, _, rfl, _, rfl, _, rfl, _, rfl,
      _, rfl, rfl⟩
  obtain ⟨v', hv', hdb⟩ := told_serializable false (fun _ => []) Store.empty [("n", "1")]
    (counting "1" "11" "111") _ hrun (fun _ _ _ _ _ _ => Or.inl rfl) (by
      constructor
      · intro past i rest hsplit
        rcases told_of_counting hsplit with ⟨rfl, rfl⟩ | ⟨rfl, rfl⟩ <;>
          simp [counting, contended]
      · intro past i rest w hsplit hpast e he _ key hkey
        have hkeys : ∀ e ∈ counting "1" "11" "111", ∀ key ∈ e.1.reads, key = "n" := by decide
        obtain rfl := hkeys e (hsplit ▸ List.mem_append_left _ he) key hkey
        rcases told_of_counting hsplit with ⟨rfl, rfl⟩ | ⟨rfl, rfl⟩ <;>
          obtain rfl := Option.mem_unique hpast.after rfl
        · exact ⟨_, rfl, ("n", "11"), List.mem_singleton_self _, rfl⟩
        · exact ⟨_, rfl, ("n", "111"), List.mem_singleton_self _, rfl⟩)
  exact ⟨_, v', hrun, hv', hdb⟩

end Plain

end World

end Fabko.Datastore
