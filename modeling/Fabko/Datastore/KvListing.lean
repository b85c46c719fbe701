import Fabko.Logic.KeyRange
import Mathlib.Order.Fin.Basic

/-!
# Listing the keys with a prefix

`list` of a `kv_rocksdb` transaction, over what its iterator visits: the entries in the order of
their keys, from the first one that is not below the target of `Seek`.
-/

set_option autoImplicit false

namespace Fabko.Datastore

open KeyRange

abbrev Byte := Fin 256

/-- A `std::string` of bytes. Its order is the one of `compare`, which takes bytes as unsigned. -/
abbrev Bytes := List Byte

/-- What the iterator of a transaction visits. -/
structure Content where
  entries : List (Bytes × Bytes)
  sorted : Sorted entries

/-! ## `list` -/

/-- `Seek`: the entries from the first key that is not below the target. -/
def seek (db : Content) (target : Bytes) : List (Bytes × Bytes) :=
  db.entries.dropWhile (fun e => decide (e.1 < target))

section Handler

variable {m : Type → Type} [Monad m] (handler : Bytes → Bytes → m Unit)

/-- The loop of `list`, from the position of the iterator. -/
def listLoop (endKey : Bytes) : List (Bytes × Bytes) → m Unit
  | [] => pure ()
  | (key, value) :: rest =>
      if key < endKey then do
        handler key value
        listLoop endKey rest
      else pure ()

def list (db : Content) (start endKey : Bytes) : m Unit :=
  listLoop handler endKey (seek db start)

/-- `++end.back()`; a `char` wraps around. -/
def incrementBack : Bytes → Bytes
  | [] => []
  | [b] => [b + 1]
  | b :: b' :: bytes => b :: incrementBack (b' :: bytes)

/-- `list` without an end key. -/
def listPrefix (db : Content) (start : Bytes) : m Unit :=
  list handler db start (incrementBack start)

/-- The calls of a listing, one for each entry. -/
def handleAll (entries : List (Bytes × Bytes)) : m Unit :=
  entries.forM (fun e => handler e.1 e.2)

theorem listLoop_eq (endKey : Bytes) (entries : List (Bytes × Bytes)) :
    listLoop handler endKey entries
      = handleAll handler (entries.takeWhile (fun e => decide (e.1 < endKey))) := by
  induction entries with
  | nil => rfl
  | cons e entries ih =>
      obtain ⟨key, value⟩ := e
      by_cases hlt : key < endKey
      · rw [listLoop, if_pos hlt, ih, List.takeWhile_cons_of_pos (by simpa using hlt)]
        rfl
      · rw [listLoop, if_neg hlt, List.takeWhile_cons_of_neg (by simpa using hlt)]
        rfl

theorem list_eq (db : Content) (start endKey : Bytes) :
    list handler db start endKey
      = handleAll handler (db.entries.filter (fun e => decide (start ≤ e.1 ∧ e.1 < endKey))) := by
  rw [list, listLoop_eq, seek]
  -- the order of the library decides by an instance of its own
  convert congrArg (handleAll handler) (scan_eq_filter db.sorted start endKey)

end Handler

/-! ## The end key -/

theorem incrementBack_append (init : Bytes) (b : Byte) :
    incrementBack (init ++ [b]) = init ++ [b + 1] := by
  induction init with
  | nil => rfl
  | cons a init ih =>
      rcases init with _ | ⟨a', init⟩
      · rfl
      · show a :: incrementBack ((a' :: init) ++ [b]) = _
        rw [ih]
        rfl

theorem covBy_add_one {b : Byte} (h : b ≠ 255) : b ⋖ b + 1 := by
  have hb : b.val + 1 < 256 := by
    have hne : b.val ≠ 255 := fun heq => h (Fin.ext heq)
    omega
  have hval : (b + 1).val = b.val + 1 := by
    rw [Fin.val_add]
    exact Nat.mod_eq_of_lt hb
  refine ⟨Fin.lt_def.mpr (by omega), fun c hbc hcb => ?_⟩
  have h1 := Fin.lt_def.mp hbc
  have h2 := Fin.lt_def.mp hcb
  omega

/-- The entries a listing visits are those with the prefix, or none if the last byte wraps. -/
theorem listPrefix_eq {m : Type → Type} [Monad m] (handler : Bytes → Bytes → m Unit) (db : Content)
    (init : Bytes) (b : Byte) :
    listPrefix handler db (init ++ [b])
      = handleAll handler
          (if b = 255 then [] else db.entries.filter (fun e => decide (init ++ [b] <+: e.1))) := by
  rw [listPrefix, incrementBack_append, list_eq]
  congr 1
  split
  · rename_i hb
    subst hb
    refine List.filter_eq_nil_iff.mpr (fun e _ => ?_)
    have hnone := range_empty (show (255 : Byte) + 1 ≤ 255 by decide) init e.1
    simpa using hnone
  · rename_i hb
    refine List.filter_congr (fun e _ => ?_)
    rw [decide_eq_decide]
    exact (prefix_iff_range (covBy_add_one hb) init e.1).symm

/-! ## When the listing is exact -/

/-- Whatever the handler does, it is called once for each key with the prefix, in key order, and
for no other. -/
def ListsPrefix (db : Content) (start : Bytes) : Prop :=
  ∀ (m : Type → Type) [Monad m] (handler : Bytes → Bytes → m Unit),
    listPrefix handler db start
      = handleAll handler (db.entries.filter (fun e => decide (start <+: e.1)))

/-- A handler that notes its calls. -/
def note (key value : Bytes) : StateM (List (Bytes × Bytes)) Unit :=
  modify (fun calls => calls ++ [(key, value)])

theorem run_handleAll_note (entries calls : List (Bytes × Bytes)) :
    (handleAll note entries).run calls = ((), calls ++ entries) := by
  induction entries generalizing calls with
  | nil => rw [List.append_nil]; rfl
  | cons e entries ih =>
      have hrest := ih (calls ++ [e])
      rw [List.append_assoc] at hrest
      exact hrest

/-- **A listing is exact** exactly when its prefix does not end in `0xFF` or no key has it. -/
theorem listsPrefix_iff (db : Content) {start : Bytes} (hstart : start ≠ []) :
    ListsPrefix db start ↔
      start.getLast hstart ≠ 255 ∨ ∀ e ∈ db.entries, ¬ start <+: e.1 := by
  obtain ⟨init, b, rfl⟩ := (List.eq_nil_or_concat' start).resolve_left hstart
  rw [List.getLast_append_singleton]
  constructor
  · intro h
    by_cases hb : b = 255
    · right
      have hnote := h (StateM (List (Bytes × Bytes))) note
      rw [listPrefix_eq, if_pos hb] at hnote
      have hcalls := congrArg (fun action => (action.run []).2) hnote
      simp only [run_handleAll_note, List.nil_append] at hcalls
      intro e he hpre
      exact List.filter_eq_nil_iff.mp hcalls.symm e he (decide_eq_true hpre)
    · exact Or.inl hb
  · rintro h m _ handler
    rw [listPrefix_eq]
    split
    · rename_i hb
      have hnone := h.resolve_left (fun hne => hne hb)
      rw [List.filter_eq_nil_iff.mpr (fun e he hpre => hnone e he (of_decide_eq_true hpre))]
    · rfl

/-- The keys `a`, `a\\xFF` and `b`. -/
def threeKeys : Content where
  entries := [([97], [1]), ([97, 255], [2]), ([98], [3])]
  sorted := by unfold Sorted; decide

theorem listsPrefix_iff_threeKeys : ListsPrefix threeKeys [97] :=
  (listsPrefix_iff threeKeys (by decide)).mpr (Or.inl (by decide))

/-- Nothing is listed under `a\\xFF`: the end key is `a\\x00`. -/
theorem not_listsPrefix_threeKeys : ∃ db start, start ≠ [] ∧ ¬ ListsPrefix db start := by
  refine ⟨threeKeys, [97, 255], by decide, fun h => ?_⟩
  have hcalls := congrArg (fun action => (action.run []).2)
    (h (StateM (List (Bytes × Bytes))) note)
  revert hcalls
  decide

end Fabko.Datastore
