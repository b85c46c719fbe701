import Mathlib.Data.List.Lex
import Mathlib.Order.Cover

set_option autoImplicit false

/-! # Prefixes as ranges of keys

Keys are lists in lexicographic order. The keys that start with `init ++ [b]` are those from it to
`init ++ [b']`, when `b'` is the next letter after `b`; a sorted list of entries holds a range of
keys in one stretch. -/

namespace KeyRange

variable {α : Type*} [LinearOrder α]

/-! ## Prefixes -/

theorem cons_le_cons_iff {a c : α} {x y : List α} : a :: x ≤ c :: y ↔ a < c ∨ a = c ∧ x ≤ y := by
  rw [← not_lt, List.cons_lt_cons_iff, ← not_lt]
  constructor
  · intro h
    rcases lt_trichotomy a c with hlt | rfl | hgt
    · exact Or.inl hlt
    · exact Or.inr ⟨rfl, fun hyx => h (Or.inr ⟨rfl, hyx⟩)⟩
    · exact absurd (Or.inl hgt) h
  · rintro (hlt | ⟨rfl, hle⟩) (hgt | ⟨heq, hyx⟩)
    · exact lt_asymm hlt hgt
    · exact hlt.ne' heq
    · exact lt_irrefl _ hgt
    · exact hle hyx

theorem singleton_prefix_iff {b b' : α} (h : b ⋖ b') (k : List α) :
    [b] <+: k ↔ [b] ≤ k ∧ k < [b'] := by
  cases k with
  | nil => simp
  | cons c k =>
      have hnil : ([] : List α) ≤ k := not_lt.mp (List.not_lt_nil k)
      have hlt : c :: k < [b'] ↔ c < b' := by
        rw [List.cons_lt_cons_iff]
        exact ⟨fun h => h.elim id (fun h => absurd h.2 (List.not_lt_nil k)), Or.inl⟩
      rw [cons_le_cons_iff, hlt, List.cons_prefix_cons]
      constructor
      · rintro ⟨rfl, -⟩
        exact ⟨Or.inr ⟨rfl, hnil⟩, h.lt⟩
      · rintro ⟨hle, hlt⟩
        rcases hle with hbc | ⟨rfl, -⟩
        · exact absurd hlt (h.2 hbc)
        · exact ⟨rfl, List.nil_prefix⟩

/-- **The keys with a prefix** are a range: from the prefix to the prefix with its last letter
replaced by the next one. -/
theorem prefix_iff_range {b b' : α} (h : b ⋖ b') (init k : List α) :
    init ++ [b] <+: k ↔ init ++ [b] ≤ k ∧ k < init ++ [b'] := by
  induction init generalizing k with
  | nil => exact singleton_prefix_iff h k
  | cons a init ih =>
      cases k with
      | nil => simp
      | cons c k =>
          rw [List.cons_append, List.cons_append, List.cons_prefix_cons, cons_le_cons_iff,
            List.cons_lt_cons_iff, ih]
          constructor
          · rintro ⟨rfl, hle, hlt⟩
            exact ⟨Or.inr ⟨rfl, hle⟩, Or.inr ⟨rfl, hlt⟩⟩
          · rintro ⟨hac | ⟨rfl, hle⟩, hca | ⟨heq, hlt⟩⟩
            · exact absurd hac hca.asymm
            · exact absurd heq hac.ne'
            · exact absurd hca (lt_irrefl _)
            · exact ⟨rfl, hle, hlt⟩

/-- With a letter that is not above `b` in its place the range is empty. -/
theorem range_empty {b b' : α} (h : b' ≤ b) (init k : List α) :
    ¬ (init ++ [b] ≤ k ∧ k < init ++ [b']) := by
  have hle : init ++ [b'] ≤ init ++ [b] := by
    induction init with
    | nil =>
        rcases h.lt_or_eq with hlt | rfl
        · exact cons_le_cons_iff.mpr (Or.inl hlt)
        · exact le_refl _
    | cons a init ih => exact cons_le_cons_iff.mpr (Or.inr ⟨rfl, ih⟩)
  rintro ⟨hfrom, hto⟩
  exact lt_irrefl _ (hto.trans_le (hle.trans hfrom))

/-! ## Ranges of a sorted list -/

section Entries

variable {β : Type*}

/-- Entries in the order of their keys, no key twice. -/
def Sorted (entries : List (α × β)) : Prop := entries.Pairwise (fun e e' => e.1 < e'.1)

theorem takeWhile_lt_eq_filter {entries : List (α × β)} (h : Sorted entries) (hi : α) :
    entries.takeWhile (fun e => decide (e.1 < hi)) = entries.filter (fun e => decide (e.1 < hi)) := by
  induction entries with
  | nil => rfl
  | cons e entries ih =>
      obtain ⟨hhead, htail⟩ := List.pairwise_cons.mp h
      by_cases he : e.1 < hi
      · rw [List.takeWhile_cons_of_pos (by simpa using he), List.filter_cons_of_pos (by simpa using he),
          ih htail]
      · -- the keys after this one are no smaller
        rw [List.takeWhile_cons_of_neg (by simpa using he), List.filter_cons_of_neg (by simpa using he)]
        symm
        refine List.filter_eq_nil_iff.mpr (fun e' he' => ?_)
        simpa using (not_lt.mp he).trans (hhead e' he').le

theorem dropWhile_lt_eq_filter {entries : List (α × β)} (h : Sorted entries) (lo : α) :
    entries.dropWhile (fun e => decide (e.1 < lo)) = entries.filter (fun e => decide (lo ≤ e.1)) := by
  induction entries with
  | nil => rfl
  | cons e entries ih =>
      obtain ⟨hhead, htail⟩ := List.pairwise_cons.mp h
      by_cases he : e.1 < lo
      · rw [List.dropWhile_cons_of_pos (by simpa using he),
          List.filter_cons_of_neg (by simpa using he), ih htail]
      · rw [List.dropWhile_cons_of_neg (by simpa using he)]
        symm
        refine List.filter_eq_self.mpr (fun e' he' => ?_)
        rcases List.mem_cons.mp he' with rfl | he'
        · simpa using he
        · simpa using (not_lt.mp he).trans (hhead e' he').le

/-- **A scan** from `lo` that stops at `hi` visits the entries with a key in between. -/
theorem scan_eq_filter {entries : List (α × β)} (h : Sorted entries) (lo hi : α) :
    (entries.dropWhile (fun e => decide (e.1 < lo))).takeWhile (fun e => decide (e.1 < hi))
      = entries.filter (fun e => decide (lo ≤ e.1 ∧ e.1 < hi)) := by
  rw [dropWhile_lt_eq_filter h, takeWhile_lt_eq_filter (h.sublist List.filter_sublist),
    List.filter_filter]
  congr 1
  funext e
  rw [Bool.decide_and, Bool.and_comm]

end Entries

end KeyRange
