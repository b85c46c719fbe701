import Mathlib.Algebra.Group.Nat.Defs
import Mathlib.Algebra.Ring.Int.Defs
import Mathlib.Data.List.TakeWhile

set_option autoImplicit false

/-! # Formatted input from character streams

`std::getline` and the extraction operators `>>` of an input stream over a text, in the classic
locale, for words and for signed integers of a given width. An extraction skips white space first;
once one has failed, the later ones fail and leave their target as it is. -/

namespace Text

/-- `std::isspace`: the space, and the characters from the tabulator to the carriage return. -/
def isSpace (c : Char) : Bool := c == ' ' || (decide (9 ≤ c.toNat) && decide (c.toNat ≤ 13))

/-- The lines successive calls of `std::getline` read. A final line break ends the last line and
starts no other. -/
def getLines : List Char → List (List Char)
  | [] => []
  | c :: cs =>
      if c = '\n' then [] :: getLines cs
      else
        match getLines cs with
        | [] => [[c]]
        | line :: lines => (c :: line) :: lines

/-- The words of a text: its maximal runs without white space. -/
def words (s : List Char) : List (List Char) :=
  (s.splitOnP isSpace).filter (fun w => decide (w ≠ []))

/-! ## Numerals -/

/-- The value of a run of decimal digits. -/
def decimal (ds : List Char) : Nat := ds.foldl (fun n d => 10 * n + (d.toNat - '0'.toNat)) 0

/-- An optional sign, `true` for a minus, and what follows it. -/
def sign : List Char → Bool × List Char
  | '-' :: cs => (true, cs)
  | '+' :: cs => (false, cs)
  | cs => (false, cs)

def signed (neg : Bool) (n : Nat) : Int := if neg then -(n : Int) else n

/-- The integer a word stands for, if it is one: a sign or none, then decimal digits. -/
def numeral (w : List Char) : Option Int :=
  if (sign w).2 ≠ [] ∧ (sign w).2.all Char.isDigit = true then
    some (signed (sign w).1 (decimal (sign w).2))
  else none

/-! ## Extraction -/

structure IStream where
  rest : List Char
  fail : Bool := false
deriving DecidableEq, Repr

namespace IStream

/-- `>>` into a `std::string`. -/
def readWord (old : List Char) (s : IStream) : List Char × IStream :=
  if s.fail then (old, s)
  else
    match s.rest.dropWhile isSpace with
    | [] => (old, ⟨[], true⟩)
    | c :: cs =>
        ((c :: cs).takeWhile (fun c => !isSpace c),
          ⟨(c :: cs).dropWhile (fun c => !isSpace c), false⟩)

/-- `>>` into a signed integer of `bits` bits. Without a digit the value is 0; one out of range is
replaced by the nearest that is in range; both are failures. -/
def readInt (bits : Nat) (old : Int) (s : IStream) : Int × IStream :=
  if s.fail then (old, s)
  else
    match s.rest.dropWhile isSpace with
    | [] => (old, ⟨[], true⟩)
    | c :: cs =>
        let digits := (sign (c :: cs)).2.takeWhile Char.isDigit
        let rest := (sign (c :: cs)).2.dropWhile Char.isDigit
        let n := signed (sign (c :: cs)).1 (decimal digits)
        if digits = [] then (0, ⟨rest, true⟩)
        else if n < -2 ^ (bits - 1) then (-2 ^ (bits - 1), ⟨rest, true⟩)
        else if 2 ^ (bits - 1) ≤ n then (2 ^ (bits - 1) - 1, ⟨rest, true⟩)
        else (n, ⟨rest, false⟩)

end IStream

/-! ## Words, one after the other -/

/-- What may follow a word. -/
def EndsWord (s : List Char) : Prop := ∀ c cs, s = c :: cs → isSpace c = true

theorem words_cons_of_space {c : Char} {cs : List Char} (h : isSpace c = true) :
    words (c :: cs) = words cs := by
  simp [words, List.splitOnP_cons_eq_if_modifyHead, h]

theorem words_append {w s : List Char} (hne : w ≠ []) (hw : ∀ c ∈ w, isSpace c = false)
    (hs : EndsWord s) : words (w ++ s) = w :: words s := by
  cases s with
  | nil => simp [words, List.splitOnP_eq_singleton hw, hne]
  | cons c cs =>
      have hc : isSpace c = true := hs c cs rfl
      rw [words_cons_of_space hc, words, List.splitOnP_append_cons_of_forall_mem hw c hc]
      simp [words, hne]

theorem endsWord_dropWhile (s : List Char) :
    EndsWord (s.dropWhile (fun c => !isSpace c)) := by
  intro c cs h
  have hhead := List.head?_dropWhile_not (fun c => !isSpace c) s
  rw [h] at hhead
  simpa using hhead

theorem words_of_not_space {c : Char} {cs : List Char} (h : isSpace c = false) :
    words (c :: cs) = (c :: cs).takeWhile (fun c => !isSpace c) ::
      words ((c :: cs).dropWhile (fun c => !isSpace c)) := by
  have hword : ∀ d ∈ (c :: cs).takeWhile (fun c => !isSpace c), isSpace d = false := by
    intro d hd
    simpa using List.mem_takeWhile_imp hd
  have hne : (c :: cs).takeWhile (fun c => !isSpace c) ≠ [] := by
    simp [h]
  rw [← words_append hne hword (endsWord_dropWhile _), List.takeWhile_append_dropWhile]

/-- Skipping white space does not lose a word. -/
theorem words_dropWhile (s : List Char) : words (s.dropWhile isSpace) = words s := by
  induction s with
  | nil => rfl
  | cons c cs ih =>
      by_cases h : isSpace c = true
      · rw [List.dropWhile_cons_of_pos h, words_cons_of_space h, ih]
      · rw [List.dropWhile_cons_of_neg h]

/-- What is left after skipping white space does not start with any. -/
theorem isSpace_of_dropWhile_eq_cons {s cs : List Char} {c : Char}
    (h : s.dropWhile isSpace = c :: cs) : isSpace c = false := by
  have hhead := List.head?_dropWhile_not isSpace s
  rw [h] at hhead
  simpa using hhead

/-- The first word of a text, and what follows it. -/
theorem of_words_eq_cons {s w : List Char} {ws : List (List Char)} (h : words s = w :: ws) :
    ∃ rest, s.dropWhile isSpace = w ++ rest ∧ w ≠ [] ∧ EndsWord rest ∧
      (w ++ rest).takeWhile (fun c => !isSpace c) = w ∧
      (w ++ rest).dropWhile (fun c => !isSpace c) = rest ∧ words rest = ws := by
  rcases hd : s.dropWhile isSpace with _ | ⟨c, cs⟩
  · rw [← words_dropWhile, hd] at h
    cases h
  · have hc : isSpace c = false := isSpace_of_dropWhile_eq_cons hd
    rw [← words_dropWhile, hd, words_of_not_space hc, List.cons.injEq] at h
    obtain ⟨rfl, rfl⟩ := h
    refine ⟨_, (List.takeWhile_append_dropWhile).symm, ?_, endsWord_dropWhile _, ?_, ?_, rfl⟩
    · simp [hc]
    · rw [List.takeWhile_append_dropWhile]
    · rw [List.takeWhile_append_dropWhile]

theorem dropWhile_of_words_eq_nil {s : List Char} (h : words s = []) :
    s.dropWhile isSpace = [] := by
  rcases hd : s.dropWhile isSpace with _ | ⟨c, cs⟩
  · rfl
  · have hc : isSpace c = false := isSpace_of_dropWhile_eq_cons hd
    rw [← words_dropWhile, hd, words_of_not_space hc] at h
    cases h

theorem sign_append {w : List Char} (hw : w ≠ []) (s : List Char) :
    sign (w ++ s) = ((sign w).1, (sign w).2 ++ s) := by
  cases w with
  | nil => exact absurd rfl hw
  | cons c cs =>
      unfold sign
      rw [List.cons_append]
      split <;> simp_all

theorem not_isDigit_of_isSpace {c : Char} (h : isSpace c = true) : c.isDigit = false := by
  have hle : c.toNat ≤ 32 := by
    rcases Bool.or_eq_true_iff.mp h with hc | hc
    · rw [eq_of_beq hc]
      decide
    · have := of_decide_eq_true (Bool.and_eq_true_iff.mp hc).2
      omega
  rw [Char.isDigit, decide_eq_false (fun h0 : '0'.val ≤ c.val => ?_), Bool.false_and]
  have h48 : 48 ≤ c.toNat := h0
  omega

/-- No digit follows a word that is ended. -/
theorem EndsWord.takeWhile_isDigit {s : List Char} (h : EndsWord s) :
    s.takeWhile Char.isDigit = [] := by
  cases s with
  | nil => rfl
  | cons c cs => simp [not_isDigit_of_isSpace (h c cs rfl)]

theorem EndsWord.dropWhile_isDigit {s : List Char} (h : EndsWord s) :
    s.dropWhile Char.isDigit = s := by
  cases s with
  | nil => rfl
  | cons c cs => simp [not_isDigit_of_isSpace (h c cs rfl)]

namespace IStream

/-- An extraction reads a numeral that is in range. -/
theorem readInt_words {bits : Nat} {s w : List Char} {ws : List (List Char)} {n : Int}
    (h : words s = w :: ws) (hn : numeral w = some n) (hlow : -2 ^ (bits - 1) ≤ n)
    (hhigh : n < 2 ^ (bits - 1)) (old : Int) :
    ∃ rest, readInt bits old ⟨s, false⟩ = (n, ⟨rest, false⟩) ∧ words rest = ws := by
  obtain ⟨rest, hs, hne, hend, -, -, hws⟩ := of_words_eq_cons h
  obtain ⟨c, cs, hw⟩ := List.exists_cons_of_ne_nil hne
  have hdigits : (sign w).2 ≠ [] ∧ (sign w).2.all Char.isDigit = true := by
    by_contra hno
    rw [numeral, if_neg hno] at hn
    cases hn
  rw [numeral, if_pos hdigits, Option.some.injEq] at hn
  have hall : ∀ c ∈ (sign w).2, c.isDigit = true := List.all_eq_true.mp hdigits.2
  have htake : (sign (w ++ rest)).2.takeWhile Char.isDigit = (sign w).2 := by
    rw [sign_append hne, List.takeWhile_append_of_pos hall, hend.takeWhile_isDigit,
      List.append_nil]
  have hdrop : (sign (w ++ rest)).2.dropWhile Char.isDigit = rest := by
    rw [sign_append hne, List.dropWhile_append_of_pos hall, hend.dropWhile_isDigit]
  have hsign : (sign (w ++ rest)).1 = (sign w).1 := by rw [sign_append hne]
  refine ⟨rest, ?_, hws⟩
  subst hw
  rw [List.cons_append] at htake hdrop hsign
  simp only [readInt, hs, Bool.false_eq_true, if_false, List.cons_append, htake, hdrop, hsign, hn]
  rw [if_neg hdigits.1, if_neg (Int.not_lt.mpr hlow), if_neg (Int.not_le.mpr hhigh)]

theorem length_sign_le (s : List Char) : (sign s).2.length ≤ s.length := by
  unfold sign
  split <;> simp

/-- An extraction that succeeds takes at least one character. -/
theorem length_readInt_lt {bits : Nat} {old : Int} {s : IStream}
    (h : (readInt bits old s).2.fail = false) :
    (readInt bits old s).2.rest.length < s.rest.length := by
  unfold readInt at h ⊢
  by_cases hf : s.fail = true
  · rw [if_pos hf, hf] at h
    cases h
  rw [if_neg hf] at h ⊢
  rcases hd : s.rest.dropWhile isSpace with _ | ⟨c, cs⟩
  · rw [hd] at h
    cases h
  rw [hd] at h
  dsimp only at h ⊢
  have hlen : (c :: cs).length ≤ s.rest.length := by
    rw [← hd]
    exact (List.dropWhile_suffix _).length_le
  have hsign := length_sign_le (c :: cs)
  have hsplit := congrArg List.length
    (@List.takeWhile_append_dropWhile _ Char.isDigit (sign (c :: cs)).2)
  rw [List.length_append] at hsplit
  split at h
  · cases h
  · rename_i hdigits
    have hpos := List.length_pos_iff.mpr hdigits
    rw [if_neg hdigits]
    split at h
    · cases h
    · rename_i hlow
      rw [if_neg hlow]
      split at h
      · cases h
      · rename_i hhigh
        rw [if_neg hhigh]
        dsimp only
        omega

/-- Nothing is left to extract. -/
theorem readInt_nil {bits : Nat} {s : List Char} (h : words s = []) (old : Int) :
    readInt bits old ⟨s, false⟩ = (old, ⟨[], true⟩) := by
  simp [readInt, dropWhile_of_words_eq_nil h]

end IStream

end Text
