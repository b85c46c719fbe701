import Mathlib.Order.Basic
import Mathlib.Order.Monotone.Basic

/-!
# Optimistic transactions over a versioned store

A store marks every key with the sequence number of its last write. A transaction remembers
the sequence number at which it began and buffers its writes; its commit validates that no
key of the buffer was written since, and then applies the buffer as a whole.
-/

set_option autoImplicit false

namespace Optimistic

variable {κ ν : Type}

/-! ## Stores -/

/-- Committed values, and for every key the sequence number of its last write. -/
structure Store (κ ν : Type) where
  value : κ → Option ν
  version : κ → Nat
  sequence : Nat
  /-- No write is from the future. -/
  version_le : ∀ key, version key ≤ sequence

namespace Store

/-- The store that was never written. -/
def empty : Store κ ν where
  value _ := none
  version _ := 0
  sequence := 0
  version_le _ := le_rfl

/-- A later state of a store: sequence numbers have only grown. -/
structure Grows (store later : Store κ ν) : Prop where
  sequence : store.sequence ≤ later.sequence
  version : ∀ key, store.version key ≤ later.version key

theorem Grows.refl (store : Store κ ν) : Grows store store := ⟨le_rfl, fun _ => le_rfl⟩

theorem Grows.trans {s₁ s₂ s₃ : Store κ ν} (h₁ : Grows s₁ s₂) (h₂ : Grows s₂ s₃) :
    Grows s₁ s₃ where
  sequence := h₁.sequence.trans h₂.sequence
  version key := (h₁.version key).trans (h₂.version key)

variable [DecidableEq κ]

def put (store : Store κ ν) (entry : κ × ν) : Store κ ν where
  value key := if key = entry.1 then some entry.2 else store.value key
  version key := if key = entry.1 then store.sequence + 1 else store.version key
  sequence := store.sequence + 1
  version_le key := by
    have hle := store.version_le key
    split <;> omega

/-- The writes of a batch, in order. -/
def write (store : Store κ ν) (batch : List (κ × ν)) : Store κ ν := batch.foldl put store

theorem grows_put (store : Store κ ν) (entry : κ × ν) : Grows store (store.put entry) where
  sequence := Nat.le_succ store.sequence
  version key := by
    have hle := store.version_le key
    simp only [put]
    split <;> omega

theorem grows_write (store : Store κ ν) (batch : List (κ × ν)) :
    Grows store (store.write batch) := by
  induction batch generalizing store with
  | nil => exact Grows.refl store
  | cons entry rest ih => exact (store.grows_put entry).trans (ih (store.put entry))

/-- Every key of a batch is marked as written after the state before it. -/
theorem lt_version_write {store : Store κ ν} {batch : List (κ × ν)} {entry : κ × ν}
    (hentry : entry ∈ batch) : store.sequence < (store.write batch).version entry.1 := by
  induction batch generalizing store with
  | nil => simp at hentry
  | cons first rest ih =>
      rcases List.mem_cons.mp hentry with rfl | hrest
      · have hmarked : (store.put entry).version entry.1 = store.sequence + 1 := by simp [put]
        calc store.sequence < (store.put entry).version entry.1 := by omega
          _ ≤ (store.write (entry :: rest)).version entry.1 :=
              (grows_write (store.put entry) rest).version entry.1
      · calc store.sequence < (store.put first).sequence := Nat.lt_succ_self _
          _ < (store.write (first :: rest)).version entry.1 := ih hrest

end Store

variable [DecidableEq κ]

/-- The value that a batch leaves under a key: that of its last write to the key. -/
def lastWrite (batch : List (κ × ν)) (key : κ) : Option ν := batch.reverse.lookup key

/-- A batch puts its last writes and keeps the other values. -/
theorem value_write (store : Store κ ν) (batch : List (κ × ν)) (key : κ) :
    (store.write batch).value key = (lastWrite batch key).or (store.value key) := by
  induction batch generalizing store with
  | nil => rfl
  | cons entry rest ih =>
      have hput : (store.put entry).value key = ([entry].lookup key).or (store.value key) := by
        obtain ⟨k, value⟩ := entry
        by_cases h : key = k
        · simp [Store.put, h]
        · have hne : (key == k) = false := by simpa using h
          simp [Store.put, List.lookup_cons, h, hne]
      calc (store.write (entry :: rest)).value key
          = (lastWrite rest key).or ((store.put entry).value key) := ih (store.put entry)
        _ = (lastWrite (entry :: rest) key).or (store.value key) := by
            rw [hput, lastWrite, lastWrite, List.reverse_cons, List.lookup_append, Option.or_assoc]

/-- A key that a batch writes ends with the batch's value. -/
theorem value_write_of_lastWrite (store : Store κ ν) {batch : List (κ × ν)} {key : κ} {value : ν}
    (hlast : lastWrite batch key = some value) :
    (store.write batch).value key = some value := by
  rw [value_write, hlast, Option.some_or]

/-- A batch leaves no value under a key exactly when it does not write to it. -/
theorem lastWrite_eq_none_iff {batch : List (κ × ν)} {key : κ} :
    lastWrite batch key = none ↔ ∀ entry ∈ batch, entry.1 ≠ key := by
  simp only [lastWrite, List.lookup_eq_none_iff, List.mem_reverse, bne_iff_ne, ne_comm]

theorem lastWrite_append (first second : List (κ × ν)) (key : κ) :
    lastWrite (first ++ second) key = (lastWrite second key).or (lastWrite first key) := by
  rw [lastWrite, lastWrite, lastWrite, List.reverse_append, List.lookup_append]

/-- Batches written one after the other are one batch. -/
theorem write_append (store : Store κ ν) (first second : List (κ × ν)) :
    store.write (first ++ second) = (store.write first).write second :=
  List.foldl_append

/-- A later state of a store that has no silent changes: a key has its old value, or it is
marked as written since. -/
structure Store.Follows (store later : Store κ ν) : Prop where
  grows : Store.Grows store later
  kept : ∀ key, later.value key = store.value key ∨ store.sequence < later.version key

namespace Store.Follows

omit [DecidableEq κ] in
theorem refl (store : Store κ ν) : Follows store store :=
  ⟨Grows.refl store, fun _ => Or.inl rfl⟩

omit [DecidableEq κ] in
theorem trans {s₁ s₂ s₃ : Store κ ν} (h₁ : Follows s₁ s₂) (h₂ : Follows s₂ s₃) :
    Follows s₁ s₃ where
  grows := h₁.grows.trans h₂.grows
  kept key := by
    have hsequence := h₁.grows.sequence
    have hversion := h₂.grows.version key
    rcases h₁.kept key with hsame | hmarked
    · rcases h₂.kept key with hsame' | hmarked'
      · exact Or.inl (hsame'.trans hsame)
      · exact Or.inr (by omega)
    · exact Or.inr (by omega)

theorem write (store : Store κ ν) (batch : List (κ × ν)) : Follows store (store.write batch) where
  grows := grows_write store batch
  kept key := by
    by_cases hwrites : ∃ entry ∈ batch, entry.1 = key
    · obtain ⟨entry, hentry, rfl⟩ := hwrites
      exact Or.inr (lt_version_write hentry)
    · have hnone : lastWrite batch key = none :=
        lastWrite_eq_none_iff.mpr fun entry hentry hkey => hwrites ⟨entry, hentry, hkey⟩
      exact Or.inl (by rw [value_write, hnone, Option.none_or])

end Store.Follows

/-! ## Transactions -/

/-- The sequence number a transaction began at and the writes it buffers. -/
structure Transaction (κ ν : Type) where
  snapshot : Nat
  batch : List (κ × ν)
  deriving DecidableEq

namespace Transaction

/-- A transaction that begins now. -/
def start (store : Store κ ν) : Transaction κ ν := ⟨store.sequence, []⟩

def put (t : Transaction κ ν) (entry : κ × ν) : Transaction κ ν :=
  { t with batch := t.batch ++ [entry] }

/-- A read sees the transaction's own last write, else the last committed one. -/
def read (t : Transaction κ ν) (store : Store κ ν) (key : κ) : Option ν :=
  (lastWrite t.batch key).or (store.value key)

/-- The transaction buffers a write to the key. -/
def Writes (t : Transaction κ ν) (key : κ) : Prop := ∃ entry ∈ t.batch, entry.1 = key

/-- No buffered key was written after the transaction began. -/
def Unchanged (t : Transaction κ ν) (store : Store κ ν) : Prop :=
  ∀ entry ∈ t.batch, store.version entry.1 ≤ t.snapshot

instance (t : Transaction κ ν) (store : Store κ ν) : Decidable (t.Unchanged store) :=
  inferInstanceAs (Decidable (∀ entry ∈ t.batch, store.version entry.1 ≤ t.snapshot))

/-- Validate, and apply the whole batch or nothing. What an applied batch leaves in the
transaction is up to the store. -/
def commit (leftover : List (κ × ν) → List (κ × ν)) (t : Transaction κ ν) (store : Store κ ν) :
    Bool × Store κ ν × Transaction κ ν :=
  if t.Unchanged store then
    (true, store.write t.batch, { t with batch := leftover t.batch })
  else (false, store, t)

/-- A transaction that began before a batch was written and writes one of its keys does not
validate in any later state of the store. -/
theorem not_unchanged_of_write {t : Transaction κ ν} {store later : Store κ ν}
    {batch : List (κ × ν)} {entry : κ × ν} (hstart : t.snapshot ≤ store.sequence)
    (hentry : entry ∈ batch) (hlater : Store.Grows (store.write batch) later)
    (hwrites : t.Writes entry.1) : ¬ t.Unchanged later := by
  intro hunchanged
  obtain ⟨own, hown, hkey⟩ := hwrites
  have hvalid : later.version entry.1 ≤ t.snapshot := hkey ▸ hunchanged own hown
  have hmarked : t.snapshot < later.version entry.1 :=
    calc t.snapshot ≤ store.sequence := hstart
      _ < (store.write batch).version entry.1 := Store.lt_version_write hentry
      _ ≤ later.version entry.1 := hlater.version entry.1
  omega

omit [DecidableEq κ] in
/-- What a transaction writes, if it validates, had no change of value since it began. -/
theorem Unchanged.value_eq {t : Transaction κ ν} {store later : Store κ ν} {key : κ}
    (hunchanged : t.Unchanged later) (hwrites : t.Writes key)
    (hstart : t.snapshot ≤ store.sequence) (hlater : Store.Follows store later) :
    later.value key = store.value key := by
  obtain ⟨own, hown, rfl⟩ := hwrites
  have hvalid : later.version own.1 ≤ t.snapshot := hunchanged own hown
  rcases hlater.kept own.1 with hsame | hmarked
  · exact hsame
  · omega

omit [DecidableEq κ] in
/-- A transaction that began at the present state validates. -/
theorem unchanged_of_snapshot {t : Transaction κ ν} {store : Store κ ν}
    (hnow : t.snapshot = store.sequence) : t.Unchanged store :=
  fun entry _ => hnow ▸ store.version_le entry.1

end Transaction

end Optimistic
