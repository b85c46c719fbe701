import Fabko.Datastore.Isolation
import Fabko.Datastore.KvListing

set_option autoImplicit false

/-!
# What a listing shows of a run

The iterator of a transaction goes over the committed values with the writes of the transaction
laid over them, in the order of the bytes of their keys. So at any moment of a run a listing shows
what the commits that were told to have succeeded left there, and what the transaction wrote itself.
-/

namespace Fabko.Datastore

open Optimistic KeyRange

/-- The bytes of a string, as `c_str` has them. -/
def bytes (s : String) : Bytes := s.toByteArray.data.toList.map UInt8.toFin

theorem bytes_injective : Function.Injective bytes := by
  intro s s' h
  have hlist : s.toByteArray.data.toList = s'.toByteArray.data.toList :=
    List.map_injective_iff.mpr (fun _ _ => UInt8.toFin_inj.mp) h
  exact String.toByteArray_inj.mp (ByteArray.ext (Array.toList_inj.mp hlist))

/-- The iterator goes over the keys that have a value for the transaction, whoever wrote it. -/
def Iterates (db : Db) (t : Txn) (content : Content) : Prop :=
  ∀ k v, (k, v) ∈ content.entries ↔
    ∃ key value, bytes key = k ∧ bytes value = v ∧ t.read db key = some value

theorem Iterates.mem_iff {db : Db} {t : Txn} {content : Content} (h : Iterates db t content)
    (key value : String) :
    (bytes key, bytes value) ∈ content.entries ↔ t.read db key = some value := by
  rw [h]
  constructor
  · rintro ⟨key', value', hkey, hvalue, hread⟩
    rw [← bytes_injective hkey, ← bytes_injective hvalue]
    exact hread
  · exact fun hread => ⟨key, value, rfl, rfl, hread⟩

namespace World

/-- **A listing shows the told commits**: after every run whose commits are checked, a transaction
lists the keys of the range for which it wrote a value itself, or else a told commit did, or else
the database had one at first, and nothing else, each one once, in their order and with the last
such value, whatever the handler does with them. -/
theorem list_told [RocksDb] {ndebug : Bool} {leftover : List KeyValue → List KeyValue}
    {start w' : World} {events : List Event} {t : Txn} {content : Content}
    (hrun : start.Run ndebug leftover events w')
    (hchecked : CommitsChecked ndebug leftover start (events.map Prod.fst))
    (hiterates : Iterates w'.db t content) (startKey endKey : Bytes) :
    ∃ entries, Sorted entries ∧
      (∀ (m : Type → Type) [Monad m] (handler : Bytes → Bytes → m Unit),
        list handler content startKey endKey = handleAll handler entries) ∧
      (∀ e ∈ entries, ∃ key value, e = (bytes key, bytes value)) ∧
      ∀ key value, (bytes key, bytes value) ∈ entries ↔
        (startKey ≤ bytes key ∧ bytes key < endKey) ∧
          (lastWrite t.batch key).or
            ((lastWrite (start.toldBatches ndebug leftover (events.map Prod.fst)).flatten key).or
              (start.db.value key)) = some value := by
  refine ⟨content.entries.filter (fun e => decide (startKey ≤ e.1 ∧ e.1 < endKey)),
    content.sorted.sublist List.filter_sublist, fun m _ handler => list_eq handler content _ _,
    fun e he => ?_, fun key value => ?_⟩
  · obtain ⟨key, value, hkey, hvalue, -⟩ := (hiterates e.1 e.2).mp (List.mem_filter.mp he).1
    exact ⟨key, value, Prod.ext hkey.symm hvalue.symm⟩
  · rw [List.mem_filter, decide_eq_true_eq, hiterates.mem_iff, and_comm, Transaction.read,
      hrun.db_eq_write hchecked, value_write]

/-- The keys `k` and `l` with the values `a` and `c`. -/
def twoKeys : Content where
  entries := [(bytes "k", bytes "a"), (bytes "l", bytes "c")]
  sorted := List.pairwise_pair.mpr (by decide)

section Plain

attribute [local instance] plainRocksDb

/-- After `sharing` a transaction that has put `c` under `l` lists `k` with what was committed and
`l` with its own value. -/
theorem list_told_sharing :
    ∃ w' entries, (opened Store.empty [("k", "0")]).Run false (fun _ => []) sharing w' ∧
      Sorted entries ∧
      (∀ (m : Type → Type) [Monad m] (handler : Bytes → Bytes → m Unit),
        list handler twoKeys (bytes "k") (bytes "m") = handleAll handler entries) ∧
      (∀ e ∈ entries, ∃ key value, e = (bytes key, bytes value)) ∧
      ∀ key value, (bytes key, bytes value) ∈ entries ↔
        (bytes "k" ≤ bytes key ∧ bytes key < bytes "m") ∧
          (lastWrite [("l", "c")] key).or
            ((lastWrite ((opened Store.empty [("k", "0")]).toldBatches false (fun _ => [])
                (sharing.map Prod.fst)).flatten key).or
              ((opened Store.empty [("k", "0")]).db.value key)) = some value := by
  -- the keys that the run leaves with a value
  have hshared : ∃ w' : World,
      (opened Store.empty [("k", "0")]).Run false (fun _ => []) sharing w' ∧
        ∀ key, w'.db.value key = if key = "l" then some "b" else if key = "k" then some "a" else
          if key = "k" then some "0" else none :=
    ⟨_, ⟨_, rfl, _, rfl, _, rfl, _, rfl, _, rfl, _, rfl, _, rfl, rfl⟩, fun _ => rfl⟩
  obtain ⟨w', hrun, hvalue⟩ := hshared
  have hread : ∀ key value, (⟨1, [("l", "c")]⟩ : Txn).read w'.db key = some value ↔
      key = "k" ∧ value = "a" ∨ key = "l" ∧ value = "c" := by
    intro key value
    by_cases hl : key = "l"
    · subst hl
      simp [Transaction.read, lastWrite, eq_comm]
    · by_cases hk : key = "k"
      · subst hk
        simp [Transaction.read, lastWrite, hvalue, eq_comm]
      · simp [Transaction.read, lastWrite, hvalue, hl, hk]
  have hiterates : Iterates w'.db (⟨1, [("l", "c")]⟩ : Txn) twoKeys := by
    intro k v
    simp only [hread, twoKeys, List.mem_cons, Prod.mk.injEq, List.not_mem_nil, or_false]
    constructor
    · rintro (⟨rfl, rfl⟩ | ⟨rfl, rfl⟩)
      · exact ⟨"k", "a", rfl, rfl, Or.inl ⟨rfl, rfl⟩⟩
      · exact ⟨"l", "c", rfl, rfl, Or.inr ⟨rfl, rfl⟩⟩
    · rintro ⟨key, value, rfl, rfl, ⟨rfl, rfl⟩ | ⟨rfl, rfl⟩⟩
      · exact Or.inl ⟨rfl, rfl⟩
      · exact Or.inr ⟨rfl, rfl⟩
  obtain ⟨entries, hlisted⟩ := list_told hrun (fun _ _ _ _ _ _ => Or.inl rfl) hiterates (bytes "k")
    (bytes "m")
  exact ⟨w', entries, hrun, hlisted⟩

end Plain

end World

end Fabko.Datastore
