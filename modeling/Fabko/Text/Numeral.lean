import Fabko.Text.Stream

set_option autoImplicit false

/-! # Integers in strings

`std::stoi` and `std::stoul` with base 10, and `std::to_string`. A conversion takes what it can from
the front of its string: white space, a sign, digits. It refuses a string without a digit there and
a number that the type cannot hold, except that a minus of `stoul` counts down from `2 ^ bits`. -/

namespace Text

inductive ConversionError where
  | invalidArgument
  | outOfRange
deriving DecidableEq, Repr

/-- What a conversion takes from the front: the sign and the magnitude. -/
def scan (s : List Char) : Option (Bool × Nat) :=
  let t := sign (s.dropWhile isSpace)
  let digits := t.2.takeWhile Char.isDigit
  if digits = [] then none else some (t.1, decimal digits)

/-- `std::stoi` of an `int` with `bits` bits. -/
def stoi (bits : Nat) (s : List Char) : Except ConversionError Int :=
  match scan s with
  | none => .error .invalidArgument
  | some (neg, n) =>
      if -2 ^ (bits - 1) ≤ signed neg n ∧ signed neg n < 2 ^ (bits - 1) then .ok (signed neg n)
      else .error .outOfRange

/-- `std::stoul` of an `unsigned long` with `bits` bits. -/
def stoul (bits : Nat) (s : List Char) : Except ConversionError Int :=
  match scan s with
  | none => .error .invalidArgument
  | some (neg, n) => if n < 2 ^ bits then .ok (signed neg n % 2 ^ bits) else .error .outOfRange

/-- `std::to_string` -/
def toText (n : Int) : List Char :=
  if n < 0 then '-' :: Nat.toDigits 10 n.natAbs else Nat.toDigits 10 n.natAbs

/-! ## What is taken -/

/-- The signs a number may have. -/
inductive SignText : Bool → List Char → Prop
  | none : SignText false []
  | plus : SignText false ['+']
  | minus : SignText true ['-']

theorem sign_of_signText {neg : Bool} {sgn s : List Char} {c : Char} (h : SignText neg sgn)
    (hc : c.isDigit = true) : sign (sgn ++ c :: s) = (neg, c :: s) := by
  cases h with
  | none =>
      unfold sign
      split
      · rename_i heq
        obtain ⟨rfl, -⟩ := List.cons.inj heq
        cases hc
      · rename_i heq
        obtain ⟨rfl, -⟩ := List.cons.inj heq
        cases hc
      · rfl
  | plus => rfl
  | minus => rfl

theorem exists_signText (s : List Char) : ∃ sgn, SignText (sign s).1 sgn ∧ s = sgn ++ (sign s).2 := by
  unfold sign
  split
  · exact ⟨['-'], .minus, rfl⟩
  · exact ⟨['+'], .plus, rfl⟩
  · exact ⟨[], .none, rfl⟩

/-- A number at the front of a text: blanks, a sign or none, and a whole run of digits. -/
def Front (s : List Char) (neg : Bool) (n : Nat) : Prop :=
  ∃ blanks sgn digits rest, s = blanks ++ (sgn ++ (digits ++ rest)) ∧
    (∀ c ∈ blanks, isSpace c = true) ∧ SignText neg sgn ∧ digits ≠ [] ∧
    (∀ c ∈ digits, c.isDigit = true) ∧ (∀ c, rest.head? = some c → c.isDigit = false) ∧
    decimal digits = n

/-- **What a conversion takes** is the number at the front, if there is one. -/
theorem scan_eq_some_iff {s : List Char} {neg : Bool} {n : Nat} :
    scan s = some (neg, n) ↔ Front s neg n := by
  constructor
  · intro h
    unfold scan at h
    dsimp only at h
    split at h
    · cases h
    · rename_i hne
      obtain ⟨rfl, rfl⟩ := Prod.mk.inj (Option.some.inj h)
      obtain ⟨sgn, hsgn, hsplit⟩ := exists_signText (s.dropWhile isSpace)
      refine ⟨s.takeWhile isSpace, sgn, (sign (s.dropWhile isSpace)).2.takeWhile Char.isDigit,
        (sign (s.dropWhile isSpace)).2.dropWhile Char.isDigit, ?_, ?_, hsgn, hne, ?_, ?_, rfl⟩
      · rw [List.takeWhile_append_dropWhile, ← hsplit, List.takeWhile_append_dropWhile]
      · exact fun c hc => List.mem_takeWhile_imp hc
      · exact fun c hc => List.mem_takeWhile_imp hc
      · intro c hc
        have hhead := List.head?_dropWhile_not Char.isDigit (sign (s.dropWhile isSpace)).2
        rw [hc] at hhead
        simpa using hhead
  · rintro ⟨blanks, sgn, digits, rest, rfl, hblanks, hsgn, hne, hdigits, hrest, rfl⟩
    obtain ⟨c, cs, rfl⟩ := List.exists_cons_of_ne_nil hne
    have hc : c.isDigit = true := hdigits c List.mem_cons_self
    have hstop : rest.takeWhile Char.isDigit = [] := by
      cases rest with
      | nil => rfl
      | cons d ds => simp [hrest d rfl]
    -- the sign or the first digit ends the white space
    have hnospace : (sgn ++ c :: (cs ++ rest)).dropWhile isSpace = sgn ++ c :: (cs ++ rest) := by
      cases hsgn with
      | none =>
          have hspace : isSpace c = false := by
            by_contra h
            rw [Bool.not_eq_false] at h
            rw [not_isDigit_of_isSpace h] at hc
            cases hc
          exact List.dropWhile_cons_of_neg (by simp [hspace])
      | plus => rfl
      | minus => rfl
    unfold scan
    rw [List.dropWhile_append_of_pos hblanks, List.cons_append, hnospace, sign_of_signText hsgn hc]
    dsimp only
    rw [← List.cons_append, List.takeWhile_append_of_pos hdigits, hstop, List.append_nil, if_neg hne]

theorem stoi_eq_ok_iff {bits : Nat} {s : List Char} {x : Int} :
    stoi bits s = .ok x ↔ ∃ neg n, Front s neg n ∧
      (-2 ^ (bits - 1) ≤ signed neg n ∧ signed neg n < 2 ^ (bits - 1)) ∧ signed neg n = x := by
  constructor
  · intro h
    unfold stoi at h
    split at h
    · cases h
    · rename_i neg n hscan
      split at h
      · rename_i hfit
        exact ⟨neg, n, scan_eq_some_iff.mp hscan, hfit, Except.ok.inj h⟩
      · cases h
  · rintro ⟨neg, n, hfront, hfit, rfl⟩
    unfold stoi
    rw [scan_eq_some_iff.mpr hfront]
    exact if_pos hfit

theorem stoul_eq_ok_iff {bits : Nat} {s : List Char} {x : Int} :
    stoul bits s = .ok x ↔ ∃ neg n, Front s neg n ∧ n < 2 ^ bits ∧ signed neg n % 2 ^ bits = x := by
  constructor
  · intro h
    unfold stoul at h
    split at h
    · cases h
    · rename_i neg n hscan
      split at h
      · rename_i hfit
        exact ⟨neg, n, scan_eq_some_iff.mp hscan, hfit, Except.ok.inj h⟩
      · cases h
  · rintro ⟨neg, n, hfront, hfit, rfl⟩
    unfold stoul
    rw [scan_eq_some_iff.mpr hfront]
    exact if_pos hfit

/-! ## What was printed -/

theorem decimal_toDigits (n : Nat) : decimal (Nat.toDigits 10 n) = n := by
  have hfold : decimal (Nat.toDigits 10 n) = Nat.ofDigitChars 10 (Nat.toDigits 10 n) 0 :=
    Nat.ofDigitChars_eq_foldl.symm
  rw [hfold, Nat.ofDigitChars_ten_toDigits]

theorem toDigits_ne_nil (n : Nat) : Nat.toDigits 10 n ≠ [] := by
  rw [Nat.toDigits_eq_if (by decide)]
  split <;> simp

theorem signed_natAbs (n : Int) : signed (decide (n < 0)) n.natAbs = n := by
  unfold signed
  split
  · rename_i h
    have hneg := of_decide_eq_true h
    omega
  · rename_i h
    have hneg : ¬ n < 0 := fun hlt => h (decide_eq_true hlt)
    omega

/-- A printed number is taken as a whole. -/
theorem scan_toText (n : Int) : scan (toText n) = some (decide (n < 0), n.natAbs) := by
  have hdigits : ∀ c ∈ Nat.toDigits 10 n.natAbs, c.isDigit = true := fun c hc =>
    Nat.isDigit_of_mem_toDigits (by decide) (by decide) hc
  apply scan_eq_some_iff.mpr
  unfold toText
  by_cases h : n < 0
  · rw [if_pos h, decide_eq_true h]
    exact ⟨[], ['-'], Nat.toDigits 10 n.natAbs, [], by simp, by simp, .minus, toDigits_ne_nil _,
      hdigits, by simp, decimal_toDigits _⟩
  · rw [if_neg h, decide_eq_false h]
    exact ⟨[], [], Nat.toDigits 10 n.natAbs, [], by simp, by simp, .none, toDigits_ne_nil _,
      hdigits, by simp, decimal_toDigits _⟩

/-- `std::stoi` gives back what fits in an `int`, and nothing else. -/
theorem stoi_toText (bits : Nat) (n : Int) :
    stoi bits (toText n) = if -2 ^ (bits - 1) ≤ n ∧ n < 2 ^ (bits - 1) then .ok n
      else .error .outOfRange := by
  unfold stoi
  rw [scan_toText]
  dsimp only
  rw [signed_natAbs]

theorem stoul_toText (bits : Nat) (n : Int) :
    stoul bits (toText n) = if n.natAbs < 2 ^ bits then .ok (n % 2 ^ bits)
      else .error .outOfRange := by
  unfold stoul
  rw [scan_toText]
  dsimp only
  rw [signed_natAbs]

end Text
