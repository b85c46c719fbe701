import Fabko.Sat.Dimacs
import Mathlib.Data.List.Dedup

set_option autoImplicit false

/-! # The header checks of the CNF reader

The counts a header declares are kept as vector capacities, which the reading loop changes itself.
`Passes` says which texts get past the checks, in terms of the text alone; the checks are exact for
those of them that have one header line and collect no more than it declares. -/

namespace Fabko.Sat

open Text

/-! ## The lines of a text -/

def PLine (line : List Char) : Prop := line.head? = some 'p'

instance (line : List Char) : Decidable (PLine line) :=
  inferInstanceAs (Decidable (line.head? = some 'p'))

/-- A line a clause is collected from. -/
def ClauseLine (line : List Char) : Prop :=
  line.head? ≠ some 'c' ∧ line.head? ≠ some 'p' ∧ lineLiterals line ≠ []

instance (line : List Char) : Decidable (ClauseLine line) :=
  inferInstanceAs (Decidable (_ ∧ _ ∧ _))

/-- `iss >> p >> cnf >> num_variables >> num_clauses`. -/
structure PFields where
  p : List Char
  cnf : List Char
  numVariables : Int
  numClauses : Int
  fail : Bool
deriving DecidableEq, Repr

def pFields (line : List Char) : PFields :=
  let p := IStream.readWord [] ⟨line, false⟩
  let cnf := p.2.readWord []
  let numVariables := cnf.2.readInt 32 0
  let numClauses := numVariables.2.readInt 32 0
  ⟨p.1, cnf.1, numVariables.1, numClauses.1, numClauses.2.fail⟩

/-- The fields a `p` line is not rejected for. A number that is missing is read as 0. -/
def PFields.Legal (f : PFields) : Prop :=
  f.p = ['p'] ∧ f.cnf = ['c', 'n', 'f'] ∧ 0 ≤ f.numVariables ∧ 0 ≤ f.numClauses

instance (f : PFields) : Decidable f.Legal := inferInstanceAs (Decidable (_ ∧ _ ∧ _ ∧ _))

/-- The numbers of a line of the form `p cnf V C`: both are there. -/
def headerOf (line : List Char) : Option (Nat × Nat) :=
  if PLine line ∧ (pFields line).Legal ∧ (pFields line).fail = false then
    some ((pFields line).numVariables.toNat, (pFields line).numClauses.toNat)
  else none

section Lines

variable (lines : List (List Char))

def clauseLines : List (List Char) := lines.filter (fun line => ClauseLine line)

def variablesOf : List Nat :=
  (((clauseLines lines).flatMap lineLiterals).map Int.natAbs).dedup

/-- The largest number of variables a `p` line reserves. -/
def reservedVariables : Nat :=
  (lines.filter (fun line => PLine line)).foldl
    (fun n line => max n (pFields line).numVariables.toNat) 0

def reservedClauses : Nat :=
  (lines.filter (fun line => PLine line)).foldl
    (fun n line => max n (pFields line).numClauses.toNat) 0

/-- Each `p` line is legal and comes before every clause and before every reservation of room for
clauses. -/
structure LegalPLines : Prop where
  legal : ∀ line ∈ lines, PLine line → (pFields line).Legal
  first : ∀ before line after, lines = before ++ line :: after → PLine line →
    clauseLines before = [] ∧ reservedClauses before = 0

end Lines

/-- The sizes a vector has when it is full, if it was reserved for `c`: it doubles. -/
def Grown (c n : Nat) : Prop :=
  if c = 0 then n = 0 ∨ ∃ j, n = 2 ^ j else ∃ j, n = c * 2 ^ j

/-- The texts that get past the checks. -/
structure Passes (s : List Char) : Prop where
  lines : LegalPLines (getLines s)
  numVariables : (variablesOf (getLines s)).length = reservedVariables (getLines s)
  numClauses : Grown (reservedClauses (getLines s)) (clauseLines (getLines s)).length

/-- The text has one line `p cnf V C`, before every clause line, and the model has `C` clauses over
`V` variables. -/
structure HeaderExact (s : List Char) (m : Model) : Prop where
  header : ∃ v c, (getLines s).filterMap headerOf = [(v, c)] ∧
    m.clauses.length = c ∧ m.literals.length = v
  first : ∀ before line after, getLines s = before ++ line :: after →
    (headerOf line).isSome → clauseLines before = []

/-! ## The capacity of the clauses -/

/-- The capacity after `n` calls of `push_back` on an empty vector of capacity `c`. -/
def capacityAfter (c : Nat) : Nat → Nat
  | 0 => c
  | n + 1 => if n < capacityAfter c n then capacityAfter c n else libstdcxx.grow (capacityAfter c n)

theorem le_capacityAfter (c n : Nat) : c ≤ capacityAfter c n ∧ n ≤ capacityAfter c n := by
  induction n with
  | zero => exact ⟨Nat.le_refl c, Nat.zero_le c⟩
  | succ n ih =>
      unfold capacityAfter libstdcxx
      dsimp only
      split
      · omega
      · split <;> omega

/-- Every capacity is one the vector is full at. -/
theorem grown_capacityAfter (c n : Nat) : Grown c (capacityAfter c n) := by
  induction n with
  | zero =>
      unfold Grown capacityAfter
      split
      · exact Or.inl ‹_›
      · exact ⟨0, (Nat.mul_one c).symm⟩
  | succ n ih =>
      unfold capacityAfter
      split
      · exact ih
      · unfold Grown at ih ⊢
        unfold libstdcxx
        dsimp only
        split at ih
        · rename_i hc
          rw [if_pos hc]
          right
          rcases ih with h0 | ⟨j, hj⟩
          · exact ⟨0, by rw [h0, if_pos rfl, Nat.pow_zero]⟩
          · have hpos : capacityAfter c n ≠ 0 := by
              rw [hj]; exact (Nat.two_pow_pos j).ne'
            exact ⟨j + 1, by rw [if_neg hpos, hj, Nat.pow_succ, Nat.mul_comm]⟩
        · rename_i hc
          rw [if_neg hc]
          obtain ⟨j, hj⟩ := ih
          have hpos : capacityAfter c n ≠ 0 := by
            rw [hj]; exact Nat.mul_ne_zero hc (Nat.two_pow_pos j).ne'
          exact ⟨j + 1, by rw [if_neg hpos, hj, Nat.pow_succ]; ac_rfl⟩

theorem Grown.le {c n : Nat} (h : Grown c n) : c ≤ n := by
  unfold Grown at h
  split at h
  · omega
  · obtain ⟨j, rfl⟩ := h
    exact Nat.le_mul_of_pos_right c (Nat.two_pow_pos j)

/-- There is no full vector between one that is full and the next. -/
theorem Grown.grow_le {c n m : Nat} (hn : Grown c n) (hm : Grown c m) (hlt : n < m) :
    libstdcxx.grow n ≤ m := by
  have hpow : ∀ i j : Nat, 2 ^ i < 2 ^ j → 2 ^ i * 2 ≤ 2 ^ j := by
    intro i j hij
    rw [← Nat.pow_succ]
    exact Nat.pow_le_pow_right (by decide) ((Nat.pow_lt_pow_iff_right (by decide)).mp hij)
  unfold Grown at hn hm
  unfold libstdcxx
  dsimp only
  split
  · omega
  · rename_i hpos
    by_cases hc : c = 0
    · rw [if_pos hc] at hn hm
      obtain ⟨i, rfl⟩ := hn.resolve_left hpos
      obtain ⟨j, rfl⟩ := hm.resolve_left (Nat.ne_of_gt (Nat.zero_lt_of_lt hlt))
      rw [Nat.mul_comm]
      exact hpow i j hlt
    · rw [if_neg hc] at hn hm
      obtain ⟨i, rfl⟩ := hn
      obtain ⟨j, rfl⟩ := hm
      have hij := hpow i j (Nat.lt_of_mul_lt_mul_left hlt)
      calc 2 * (c * 2 ^ i) = c * (2 ^ i * 2) := by ac_rfl
        _ ≤ c * 2 ^ j := Nat.mul_le_mul_left c hij

theorem capacityAfter_le {c n m : Nat} (hm : Grown c m) (hle : n ≤ m) : capacityAfter c n ≤ m := by
  induction n with
  | zero => exact hm.le
  | succ n ih =>
      have hcap := ih (by omega)
      unfold capacityAfter
      split
      · exact hcap
      · exact (grown_capacityAfter c n).grow_le hm (by omega)

theorem capacityAfter_eq_iff {c n : Nat} : n = capacityAfter c n ↔ Grown c n := by
  constructor
  · intro h
    rw [h]
    exact grown_capacityAfter c n
  · intro h
    exact Nat.le_antisymm (le_capacityAfter c n).2 (capacityAfter_le h (Nat.le_refl n))

/-! ## One more line -/

section Next

variable {lines : List (List Char)} {line : List Char}

theorem clauseLines_append (lines : List (List Char)) (line : List Char) :
    clauseLines (lines ++ [line]) = clauseLines lines ++ if ClauseLine line then [line] else [] := by
  simp only [clauseLines, List.filter_append]
  by_cases h : ClauseLine line <;> simp [h]

/-- One more line, for a maximum over the `p` lines. -/
theorem foldl_max_append (number : PFields → Int) (lines : List (List Char)) (line : List Char) :
    ((lines ++ [line]).filter (fun l => PLine l)).foldl
        (fun n l => max n (number (pFields l)).toNat) 0
      = if PLine line then
          max ((lines.filter (fun l => PLine l)).foldl
            (fun n l => max n (number (pFields l)).toNat) 0) (number (pFields line)).toNat
        else (lines.filter (fun l => PLine l)).foldl
          (fun n l => max n (number (pFields l)).toNat) 0 := by
  rw [List.filter_append, List.foldl_append]
  by_cases h : PLine line <;> simp [h]

theorem reservedVariables_append (lines : List (List Char)) (line : List Char) :
    reservedVariables (lines ++ [line])
      = if PLine line then max (reservedVariables lines) (pFields line).numVariables.toNat
        else reservedVariables lines :=
  foldl_max_append PFields.numVariables lines line

theorem reservedClauses_append (lines : List (List Char)) (line : List Char) :
    reservedClauses (lines ++ [line])
      = if PLine line then max (reservedClauses lines) (pFields line).numClauses.toNat
        else reservedClauses lines :=
  foldl_max_append PFields.numClauses lines line

/-- What is asked of a line after the lines before it. -/
def LegalNext (lines : List (List Char)) (line : List Char) : Prop :=
  PLine line → (pFields line).Legal ∧ clauseLines lines = [] ∧ reservedClauses lines = 0

theorem legalPLines_nil : LegalPLines [] :=
  ⟨fun _ h => absurd h List.not_mem_nil, fun before line after h => by simp at h⟩

theorem legalPLines_append_iff :
    LegalPLines (lines ++ [line]) ↔ LegalPLines lines ∧ LegalNext lines line := by
  constructor
  · intro h
    refine ⟨⟨fun l hl => h.legal l (List.mem_append_left _ hl), fun before l after heq => ?_⟩,
      fun hp => ⟨h.legal line (List.mem_append_right _ List.mem_cons_self) hp,
        h.first lines line [] rfl hp⟩⟩
    apply h.first before l (after ++ [line])
    rw [heq, List.append_assoc, List.cons_append]
  · rintro ⟨h, hnext⟩
    refine ⟨fun l hl hp => ?_, fun before l after heq hp => ?_⟩
    · rcases List.mem_append.mp hl with hl | hl
      · exact h.legal l hl hp
      · rw [List.mem_singleton.mp hl] at hp ⊢
        exact (hnext hp).1
    · rcases List.eq_nil_or_concat after with rfl | ⟨rest, last, rfl⟩
      · -- the new line itself
        obtain ⟨rfl, hl⟩ := List.append_inj' heq rfl
        cases hl
        exact (hnext hp).2
      · rw [List.concat_eq_append, ← List.cons_append, ← List.append_assoc] at heq
        exact h.first before l rest (List.append_inj' heq rfl).1 hp

end Next

/-! ## What the reader has read -/

/-- The state of the reader in terms of the lines read so far. -/
structure Summary (lines : List (List Char)) (r : CnfReader) : Prop where
  clauses : r.clauses = (clauseLines lines).map (fun line => (lineLiterals line).map Literal.mk)
  literalsCapacity : r.literalsCapacity = reservedVariables lines
  clausesCapacity :
    r.clausesCapacity = capacityAfter (reservedClauses lines) (clauseLines lines).length

theorem summary_nil : Summary [] {} := ⟨rfl, rfl, rfl⟩

theorem reserve_libstdcxx (capacity : Nat) (n : Int) :
    reserve libstdcxx capacity n
      = if n < 0 then .error (.lengthError "vector::reserve") else .ok (max capacity n.toNat) := by
  unfold reserve libstdcxx
  split
  · rfl
  · split
    · rw [Nat.max_eq_left ‹_›]
    · rw [Nat.max_eq_right (by omega)]

theorem readHeader_eq (r : CnfReader) (line : List Char) :
    readHeader libstdcxx r line
      = if 0 < r.clausesCapacity then .error (.runtimeError "Unexpected 'p' is specified twice")
        else if (pFields line).p ≠ ['p'] ∨ (pFields line).cnf ≠ ['c', 'n', 'f'] then
          .error (.runtimeError "Invalid CNF format")
        else if (pFields line).numVariables < 0 ∨ (pFields line).numClauses < 0 then
          .error (.lengthError "vector::reserve")
        else .ok { r with
          literalsCapacity := max r.literalsCapacity (pFields line).numVariables.toNat
          clausesCapacity := max r.clausesCapacity (pFields line).numClauses.toNat } := by
  unfold readHeader
  simp only [reserve_libstdcxx]
  show (if 0 < r.clausesCapacity then _ else
    if (pFields line).p ≠ ['p'] ∨ (pFields line).cnf ≠ ['c', 'n', 'f'] then _ else _) = _
  split
  · rfl
  split
  · rfl
  by_cases hv : (pFields line).numVariables < 0
  · rw [if_pos (Or.inl hv)]
    unfold pFields at hv
    simp only [hv, if_true]
  by_cases hc : (pFields line).numClauses < 0
  · rw [if_pos (Or.inr hc)]
    unfold pFields at hv hc
    simp only [hv, hc, if_false, if_true]
  · rw [if_neg (not_or.mpr ⟨hv, hc⟩)]
    unfold pFields at hv hc ⊢
    simp only [hv, hc, if_false]

theorem readHeader_eq_ok_iff {r r' : CnfReader} {line : List Char} :
    readHeader libstdcxx r line = .ok r' ↔
      r.clausesCapacity = 0 ∧ (pFields line).Legal ∧
        r' = { r with
          literalsCapacity := max r.literalsCapacity (pFields line).numVariables.toNat
          clausesCapacity := max r.clausesCapacity (pFields line).numClauses.toNat } := by
  rw [readHeader_eq]
  unfold PFields.Legal
  constructor
  · intro h
    split at h
    · cases h
    split at h
    · cases h
    split at h
    · cases h
    rename_i hcap hformat hcounts
    obtain ⟨hp, hcnf⟩ := not_or.mp hformat
    cases h
    exact ⟨by omega, ⟨not_not.mp hp, not_not.mp hcnf, by omega, by omega⟩, rfl⟩
  · rintro ⟨hcap, ⟨hp, hcnf, hv, hc⟩, rfl⟩
    rw [if_neg (by omega), if_neg (by simp [hp, hcnf]), if_neg (by omega)]

section Read

variable {lines : List (List Char)} {line : List Char} {r : CnfReader}

theorem not_clauseLine_of_pLine (h : PLine line) : ¬ ClauseLine line := fun hc => hc.2.1 h

/-- A line that is skipped: empty, or a comment. -/
theorem Summary.skip (h : Summary lines r) (hp : ¬ PLine line) (hc : ¬ ClauseLine line) :
    Summary (lines ++ [line]) r := by
  refine ⟨?_, ?_, ?_⟩
  · rw [h.clauses, clauseLines_append, if_neg hc, List.append_nil]
  · rw [h.literalsCapacity, reservedVariables_append, if_neg hp]
  · rw [h.clausesCapacity, clauseLines_append, if_neg hc, List.append_nil, reservedClauses_append,
      if_neg hp]

theorem Summary.header (h : Summary lines r) (hp : PLine line) (hfirst : r.clausesCapacity = 0) :
    Summary (lines ++ [line])
      { r with
        literalsCapacity := max r.literalsCapacity (pFields line).numVariables.toNat
        clausesCapacity := max r.clausesCapacity (pFields line).numClauses.toNat } := by
  have hc := not_clauseLine_of_pLine hp
  have hle := le_capacityAfter (reservedClauses lines) (clauseLines lines).length
  rw [← h.clausesCapacity, hfirst] at hle
  have hnone : (clauseLines lines).length = 0 := by omega
  have hzero : reservedClauses lines = 0 := by omega
  refine ⟨?_, ?_, ?_⟩
  · show r.clauses = _
    rw [h.clauses, clauseLines_append, if_neg hc, List.append_nil]
  · show max r.literalsCapacity _ = _
    rw [h.literalsCapacity, reservedVariables_append, if_pos hp]
  · show max r.clausesCapacity _ = _
    rw [clauseLines_append, if_neg hc, List.append_nil, hnone, reservedClauses_append, if_pos hp,
      hfirst, hzero]
    rfl

theorem Summary.clause (h : Summary lines r) (hc : line.head? ≠ some 'c') (hp : ¬ PLine line) :
    Summary (lines ++ [line]) (readClause libstdcxx r line) := by
  unfold readClause
  dsimp only
  by_cases hnil : lineLiterals line = []
  · rw [hnil]
    exact h.skip hp (fun hline => hline.2.2 hnil)
  · have hline : ClauseLine line := ⟨hc, hp, hnil⟩
    rw [if_neg (by simpa using hnil)]
    have hlen : r.clauses.length = (clauseLines lines).length := by
      rw [h.clauses, List.length_map]
    refine ⟨?_, ?_, ?_⟩
    · show r.clauses ++ _ = _
      rw [h.clauses, clauseLines_append, if_pos hline, List.map_append]
      rfl
    · show r.literalsCapacity = _
      rw [h.literalsCapacity, reservedVariables_append, if_neg hp]
    · show (if r.clauses.length < r.clausesCapacity then r.clausesCapacity
        else libstdcxx.grow r.clausesCapacity) = _
      rw [hlen, h.clausesCapacity, clauseLines_append, if_pos hline, List.length_append,
        reservedClauses_append, if_neg hp]
      rfl

theorem Summary.clausesCapacity_eq_zero (h : Summary lines r) (hclauses : clauseLines lines = [])
    (hreserved : reservedClauses lines = 0) : r.clausesCapacity = 0 := by
  rw [h.clausesCapacity, hclauses, hreserved]
  rfl

/-- A line that is read leaves a summary, and it was legal. -/
theorem Summary.next {r' : CnfReader} (h : Summary lines r)
    (hr : readLine libstdcxx r line = .ok r') :
    LegalNext lines line ∧ Summary (lines ++ [line]) r' := by
  unfold readLine at hr
  rcases line with _ | ⟨c, cs⟩
  · cases hr
    have hp : ¬ PLine [] := by decide
    exact ⟨fun h' => absurd h' hp, h.skip hp (by decide)⟩
  dsimp only at hr
  split at hr
  · -- a comment
    rename_i hc
    subst hc
    cases hr
    have hp : ¬ PLine ('c' :: cs) := fun hp => absurd (Option.some.inj hp) (by decide)
    exact ⟨fun h' => absurd h' hp, h.skip hp (fun hline => hline.1 rfl)⟩
  split at hr
  · rename_i hp
    subst hp
    have hp : PLine ('p' :: cs) := rfl
    obtain ⟨hcap, hlegal, rfl⟩ := readHeader_eq_ok_iff.mp hr
    have hle := le_capacityAfter (reservedClauses lines) (clauseLines lines).length
    rw [← h.clausesCapacity, hcap] at hle
    refine ⟨fun _ => ⟨hlegal, ?_, by omega⟩, h.header hp hcap⟩
    exact List.eq_nil_of_length_eq_zero (by omega)
  · rename_i hc hp
    cases hr
    have hp' : ¬ PLine (c :: cs) := fun h' => hp (Option.some.inj h')
    exact ⟨fun h' => absurd h' hp', h.clause (fun h' => hc (Option.some.inj h')) hp'⟩

theorem Summary.exists_next (h : Summary lines r) (hlegal : LegalNext lines line) :
    ∃ r', readLine libstdcxx r line = .ok r' := by
  unfold readLine
  rcases line with _ | ⟨c, cs⟩
  · exact ⟨r, rfl⟩
  dsimp only
  split
  · exact ⟨r, rfl⟩
  split
  · rename_i hp
    subst hp
    obtain ⟨hfields, hclauses, hreserved⟩ := hlegal rfl
    exact ⟨_, readHeader_eq_ok_iff.mpr
      ⟨h.clausesCapacity_eq_zero hclauses hreserved, hfields, rfl⟩⟩
  · exact ⟨_, rfl⟩

theorem readLines_append_singleton (cap : Capacity) (r : CnfReader) (lines : List (List Char))
    (line : List Char) :
    readLines cap r (lines ++ [line]) = (readLines cap r lines).bind (fun r => readLine cap r line) := by
  induction lines generalizing r with
  | nil =>
      have hbind : (readLines cap r []).bind (fun r => readLine cap r line) = readLine cap r line :=
        rfl
      rw [hbind, List.nil_append, readLines]
      cases readLine cap r line <;> rfl
  | cons l lines ih =>
      rw [List.cons_append, readLines, readLines]
      cases readLine cap r l with
      | error e => rfl
      | ok r' => exact ih r'

theorem summary_of_readLines (hr : readLines libstdcxx {} lines = .ok r) :
    LegalPLines lines ∧ Summary lines r := by
  induction lines using List.reverseRecOn generalizing r with
  | nil =>
      cases hr
      exact ⟨legalPLines_nil, summary_nil⟩
  | append_singleton lines line ih =>
      rw [readLines_append_singleton] at hr
      rcases hbefore : readLines libstdcxx {} lines with e | r₁
      · rw [hbefore] at hr
        cases hr
      · rw [hbefore] at hr
        obtain ⟨hlegal, hsummary⟩ := ih hbefore
        obtain ⟨hnext, hsummary'⟩ := hsummary.next hr
        exact ⟨legalPLines_append_iff.mpr ⟨hlegal, hnext⟩, hsummary'⟩

/-- Legal lines are read to the end. -/
theorem readLines_of_legal (h : LegalPLines lines) : ∃ r, readLines libstdcxx {} lines = .ok r := by
  induction lines using List.reverseRecOn with
  | nil => exact ⟨_, rfl⟩
  | append_singleton lines line ih =>
      obtain ⟨hlegal, hnext⟩ := legalPLines_append_iff.mp h
      obtain ⟨r, hr⟩ := ih hlegal
      obtain ⟨r', hr'⟩ := (summary_of_readLines hr).2.exists_next hnext
      refine ⟨r', ?_⟩
      rw [readLines_append_singleton, hr]
      exact hr'

/-- The set of the reader holds each variable of the clause lines once. -/
theorem length_literalsUnique (hr : readLines libstdcxx {} lines = .ok r) :
    r.literalsUnique.length = (variablesOf lines).length := by
  have hsound := CnfReader.Sound.start.readLines hr
  have hsummary := (summary_of_readLines hr).2
  have hnodup : (r.literalsUnique.map Literal.value).Nodup := by
    rw [List.Nodup, List.pairwise_map]
    exact hsound.increasing.imp (fun hlt => Nat.ne_of_lt hlt)
  have hperm : (r.literalsUnique.map Literal.value).Perm (variablesOf lines) := by
    refine (List.perm_ext_iff_of_nodup hnodup (List.nodup_dedup _)).mpr (fun n => ?_)
    rw [hsound.occurring n, hsummary.clauses, List.mem_dedup]
    simp only [List.mem_map, List.mem_flatMap]
    constructor
    · rintro ⟨_, ⟨line, hline, rfl⟩, l, hl, rfl⟩
      obtain ⟨lit, hlit, rfl⟩ := List.mem_map.mp hl
      exact ⟨lit, ⟨line, hline, hlit⟩, rfl⟩
    · rintro ⟨lit, ⟨line, hline, hlit⟩, rfl⟩
      exact ⟨_, ⟨line, hline, rfl⟩, ⟨lit⟩, List.mem_map_of_mem hlit, rfl⟩
  rw [← hperm.length_eq, List.length_map]

end Read

/-! ## What gets past the checks -/

/-- The assertions, checked on the state the reader ends in. -/
theorem makeModel_eq_ok_iff {s : List Char} {m : Model} :
    makeModelFromCnfFile libstdcxx false (.text s) = .ok m ↔
      ∃ r, readLines libstdcxx {} (getLines s) = .ok r ∧
        r.literalsUnique.length = r.literalsCapacity ∧ r.clauses.length = r.clausesCapacity ∧
        m = { literals := r.literalsUnique, clauses := r.clauses } := by
  simp only [makeModelFromCnfFile]
  rcases readLines libstdcxx {} (getLines s) with e | r
  · simp
  by_cases hliterals : r.literalsUnique.length = r.literalsCapacity
  · by_cases hclauses : r.clauses.length = r.clausesCapacity
    · simp [fabkoAssert, fabkoAssertCode, hliterals, hclauses, eq_comm]
    · simp [fabkoAssert, fabkoAssertCode, hliterals, hclauses]
  · simp [fabkoAssert, fabkoAssertCode, hliterals]

section Text

variable {s : List Char} {m : Model}

theorem passes_of_returns (h : makeModelFromCnfFile libstdcxx false (.text s) = .ok m) :
    Passes s ∧ m.clauses.length = (clauseLines (getLines s)).length ∧
      m.literals.length = (variablesOf (getLines s)).length := by
  obtain ⟨r, hr, hliterals, hclauses, rfl⟩ := makeModel_eq_ok_iff.mp h
  obtain ⟨hlegal, hsummary⟩ := summary_of_readLines hr
  have hunique := length_literalsUnique hr
  have hlen : r.clauses.length = (clauseLines (getLines s)).length := by
    rw [hsummary.clauses, List.length_map]
  refine ⟨⟨hlegal, ?_, capacityAfter_eq_iff.mp ?_⟩, hlen, hunique⟩
  · rw [← hunique, hliterals, hsummary.literalsCapacity]
  · exact hlen.symm.trans (hclauses.trans hsummary.clausesCapacity)

/-- A text that passes is returned. -/
theorem returns_of_passes (h : Passes s) :
    ∃ m, makeModelFromCnfFile libstdcxx false (.text s) = .ok m := by
  obtain ⟨r, hr⟩ := readLines_of_legal h.lines
  have hsummary := (summary_of_readLines hr).2
  refine ⟨_, makeModel_eq_ok_iff.mpr ⟨r, hr, ?_, ?_, rfl⟩⟩
  · rw [length_literalsUnique hr, hsummary.literalsCapacity, h.numVariables]
  · rw [hsummary.clausesCapacity, ← capacityAfter_eq_iff.mpr h.numClauses, hsummary.clauses,
      List.length_map]

end Text

/-! ## When the checks are exact -/

theorem headerOf_eq_some_iff {line : List Char} {v c : Nat} :
    headerOf line = some (v, c) ↔
      PLine line ∧ (pFields line).Legal ∧ (pFields line).fail = false ∧
        (pFields line).numVariables.toNat = v ∧ (pFields line).numClauses.toNat = c := by
  unfold headerOf
  split
  · rename_i h
    simp [h]
  · rename_i h
    constructor
    · intro hnone
      cases hnone
    · rintro ⟨hp, hlegal, hfail, -, -⟩
      exact absurd ⟨hp, hlegal, hfail⟩ h

theorem le_foldl_max {α : Type*} (f : α → Nat) {xs : List α} {x : α} (hx : x ∈ xs) (n : Nat) :
    f x ≤ xs.foldl (fun n x => max n (f x)) n ∧ n ≤ xs.foldl (fun n x => max n (f x)) n := by
  have hstart : ∀ (xs : List α) (n : Nat), n ≤ xs.foldl (fun n x => max n (f x)) n := by
    intro xs
    induction xs with
    | nil => exact fun n => Nat.le_refl n
    | cons y ys ih => exact fun n => (Nat.le_max_left n (f y)).trans (ih _)
  refine ⟨?_, hstart xs n⟩
  induction xs generalizing n with
  | nil => cases hx
  | cons y ys ih =>
      rcases List.mem_cons.mp hx with rfl | hx
      · exact (Nat.le_max_right n (f x)).trans (hstart ys _)
      · exact ih hx _

/-- A header line declares at most what is reserved. -/
theorem le_reserved {lines : List (List Char)} {line : List Char} {v c : Nat} (hl : line ∈ lines)
    (h : headerOf line = some (v, c)) : v ≤ reservedVariables lines ∧ c ≤ reservedClauses lines := by
  obtain ⟨hp, -, -, rfl, rfl⟩ := headerOf_eq_some_iff.mp h
  have hmem : line ∈ lines.filter (fun line => PLine line) :=
    List.mem_filter.mpr ⟨hl, decide_eq_true hp⟩
  exact ⟨(le_foldl_max (fun line => (pFields line).numVariables.toNat) hmem 0).1,
    (le_foldl_max (fun line => (pFields line).numClauses.toNat) hmem 0).1⟩

/-- **The header checks are exact** on a text exactly when they reject it, or when it has one
header line and that line declares as many clauses and variables as there are, or more. -/
theorem headerExact_iff (s : List Char) :
    (∀ m, makeModelFromCnfFile libstdcxx false (.text s) = .ok m → HeaderExact s m) ↔
      (Passes s → ∃ v c, (getLines s).filterMap headerOf = [(v, c)] ∧
        (variablesOf (getLines s)).length ≤ v ∧ (clauseLines (getLines s)).length ≤ c) := by
  constructor
  · intro hexact hpasses
    obtain ⟨m, hm⟩ := returns_of_passes hpasses
    obtain ⟨-, hclauses, hliterals⟩ := passes_of_returns hm
    obtain ⟨v, c, hheader, hc, hv⟩ := (hexact m hm).header
    exact ⟨v, c, hheader, by omega, by omega⟩
  · intro hone m hm
    obtain ⟨hpasses, hclauses, hliterals⟩ := passes_of_returns hm
    obtain ⟨v, c, hheader, hv, hc⟩ := hone hpasses
    -- the checks bound the counts from the other side
    have hmem : (v, c) ∈ (getLines s).filterMap headerOf := by
      rw [hheader]
      exact List.mem_cons_self
    obtain ⟨line, hl, hline⟩ := List.mem_filterMap.mp hmem
    obtain ⟨hv', hc'⟩ := le_reserved hl hline
    have hreserved := hpasses.numVariables
    have hgrown := hpasses.numClauses.le
    refine ⟨⟨v, c, hheader, by omega, by omega⟩, fun before line after hlines hsome => ?_⟩
    obtain ⟨⟨v', c'⟩, hsome⟩ := Option.isSome_iff_exists.mp hsome
    exact (hpasses.lines.first before line after hlines (headerOf_eq_some_iff.mp hsome).1).1

/-- Two clauses under a header that declares one: the capacity has doubled. -/
theorem not_headerExact_doubled :
    ∃ s m, makeModelFromCnfFile libstdcxx false (.text s) = .ok m ∧ ¬ HeaderExact s m := by
  refine ⟨"p cnf 1 1\n1 0\n-1 0\n".toList, ⟨[⟨1⟩], [[⟨1⟩], [⟨-1⟩]], {}⟩, by decide +kernel, ?_⟩
  rintro ⟨⟨v, c, hheader, hc, hv⟩, -⟩
  have hlines : (getLines "p cnf 1 1\n1 0\n-1 0\n".toList).filterMap headerOf = [(1, 1)] := by
    decide +kernel
  rw [hlines] at hheader
  cases hheader
  cases hc

end Fabko.Sat
