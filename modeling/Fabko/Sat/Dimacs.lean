import Fabko.Common.Exception
import Fabko.Text.Stream
import Fabko.Sat.Construction

set_option autoImplicit false

/-! # Reading a CNF file

`make_model_from_cnf_file` (`solver.cpp`). The text is read line by line; a line of numbers yields
one clause, and the `p` line reserves room whose exact use is asserted at the end. How a
`std::vector` chooses its capacity is a parameter; the literals the set keeps are ordered by
absolute value. -/

namespace Fabko.Sat

open Text

/-! ## The function -/

/-- How a vector grows: the capacity after a `reserve` for more than there is room for, and after
a `push_back` into a full vector. -/
structure Capacity where
  reserve : Nat → Nat
  grow : Nat → Nat

def libstdcxx : Capacity where
  reserve n := n
  grow c := if c = 0 then 1 else 2 * c

inductive CnfFile where
  | missing
  | unreadable
  | text (s : List Char)
deriving DecidableEq, Repr

/-- The local variables of the function. `literals` stays empty while lines are read. -/
structure CnfReader where
  clauses : List (List Literal) := []
  clausesCapacity : Nat := 0
  literalsCapacity : Nat := 0
  literalsUnique : List Literal := []
deriving DecidableEq, Repr

/-- `std::set<literal>::insert`, in the order of the absolute values. -/
def insertUnique (l : Literal) : List Literal → List Literal
  | [] => [l]
  | x :: xs =>
      if l.value < x.value then l :: x :: xs
      else if x.value < l.value then x :: insertUnique l xs
      else x :: xs

/-- `while (iss >> lit && lit != 0)`. -/
def readLiterals : Nat → IStream → List Int
  | 0, _ => []
  | fuel + 1, s =>
      let r := s.readInt 64 0
      if r.2.fail then []
      else if r.1 = 0 then []
      else r.1 :: readLiterals fuel r.2

/-- Each literal takes a character at least, so the line is long enough to be the fuel. -/
def lineLiterals (line : List Char) : List Int := readLiterals (line.length + 1) ⟨line, false⟩

section Reader

variable (cap : Capacity)

/-- `std::vector::reserve`. A negative `int` becomes a size no vector can have. -/
def reserve (capacity : Nat) (n : Int) : Except Exception Nat :=
  if n < 0 then .error (.lengthError "vector::reserve")
  else if n.toNat ≤ capacity then .ok capacity
  else .ok (cap.reserve n.toNat)

/-- The `p` line. -/
def readHeader (r : CnfReader) (line : List Char) : Except Exception CnfReader :=
  if 0 < r.clausesCapacity then .error (.runtimeError "Unexpected 'p' is specified twice")
  else
    let p := IStream.readWord [] ⟨line, false⟩
    let cnf := p.2.readWord []
    let numVariables := cnf.2.readInt 32 0
    let numClauses := numVariables.2.readInt 32 0
    if p.1 ≠ ['p'] ∨ cnf.1 ≠ ['c', 'n', 'f'] then .error (.runtimeError "Invalid CNF format")
    else
      match reserve cap r.literalsCapacity numVariables.1 with
      | .error e => .error e
      | .ok literalsCapacity =>
          match reserve cap r.clausesCapacity numClauses.1 with
          | .error e => .error e
          | .ok clausesCapacity =>
              .ok { r with literalsCapacity := literalsCapacity, clausesCapacity := clausesCapacity }

/-- Any other line. -/
def readClause (r : CnfReader) (line : List Char) : CnfReader :=
  let clause := lineLiterals line
  let r := { r with
    literalsUnique := clause.foldl (fun u lit => insertUnique ⟨(lit.natAbs : Int)⟩ u) r.literalsUnique }
  if clause.isEmpty then r
  else
    { r with
      clauses := r.clauses ++ [clause.map Literal.mk]
      clausesCapacity :=
        if r.clauses.length < r.clausesCapacity then r.clausesCapacity
        else cap.grow r.clausesCapacity }

def readLine (r : CnfReader) : List Char → Except Exception CnfReader
  | [] => .ok r
  | c :: cs =>
      if c = 'c' then .ok r
      else if c = 'p' then readHeader cap r (c :: cs)
      else .ok (readClause cap r (c :: cs))

def readLines (r : CnfReader) : List (List Char) → Except Exception CnfReader
  | [] => .ok r
  | line :: lines =>
      match readLine cap r line with
      | .error e => .error e
      | .ok r => readLines r lines

def makeModelFromCnfFile (ndebug : Bool) : CnfFile → Except Exception Model
  | .missing => .error (.runtimeError "CNF file does not exist")
  | .unreadable => .error (.runtimeError "Could not open CNF file")
  | .text s =>
      match readLines cap {} (getLines s) with
      | .error e => .error e
      | .ok r =>
          match fabkoAssert ndebug (decide (r.literalsUnique.length = r.literalsCapacity))
            ("More literals than expected, expected " ++ toString r.literalsCapacity ++
              " but got " ++ toString r.literalsUnique.length) with
          | .error e => .error e
          | .ok () =>
              match fabkoAssert ndebug (decide (r.clauses.length = r.clausesCapacity))
                ("More clauses than expected, expected " ++ toString r.clausesCapacity ++
                  " but got " ++ toString r.clauses.length) with
              | .error e => .error e
              | .ok () => .ok { literals := r.literalsUnique, clauses := r.clauses }

end Reader

/-! ## The set of variables -/

theorem mem_map_value_insertUnique {l : Literal} {u : List Literal} {n : Nat} :
    n ∈ (insertUnique l u).map Literal.value ↔ n = l.value ∨ n ∈ u.map Literal.value := by
  induction u with
  | nil => simp [insertUnique]
  | cons x xs ih =>
      unfold insertUnique
      split
      · simp
      · split
        · rw [List.map_cons, List.mem_cons, ih, List.map_cons, List.mem_cons]
          exact or_left_comm
        · -- the variable is there already
          have heq : l.value = x.value := by omega
          rw [heq, List.map_cons, List.mem_cons]
          exact ⟨fun h => Or.inr h, fun h => h.elim Or.inl id⟩

theorem mem_of_mem_insertUnique {l x : Literal} {u : List Literal} (h : x ∈ insertUnique l u) :
    x = l ∨ x ∈ u := by
  induction u with
  | nil => exact Or.inl (List.mem_singleton.mp h)
  | cons y ys ih =>
      unfold insertUnique at h
      split at h
      · exact List.mem_cons.mp h
      · split at h
        · rcases List.mem_cons.mp h with rfl | h'
          · exact Or.inr List.mem_cons_self
          · exact (ih h').imp_right (List.mem_cons_of_mem y)
        · exact Or.inr h

def Increasing (u : List Literal) : Prop := u.Pairwise (fun l l' => l.value < l'.value)

theorem Increasing.insertUnique {l : Literal} {u : List Literal} (h : Increasing u) :
    Increasing (insertUnique l u) := by
  induction u with
  | nil => exact List.pairwise_singleton _ _
  | cons x xs ih =>
      have hx := List.pairwise_cons.mp h
      unfold Fabko.Sat.insertUnique
      split
      · rename_i hlt
        refine List.pairwise_cons.mpr ⟨fun y hy => ?_, h⟩
        rcases List.mem_cons.mp hy with rfl | hy'
        · exact hlt
        · exact hlt.trans (hx.1 y hy')
      · split
        · rename_i hgt
          refine List.pairwise_cons.mpr ⟨fun y hy => ?_, ih hx.2⟩
          rcases mem_of_mem_insertUnique hy with rfl | hy'
          · exact hgt
          · exact hx.1 y hy'
        · exact h

/-- The variables of one clause put into the set. -/
structure Inserted (u : List Literal) (clause : List Int) (u' : List Literal) : Prop where
  increasing : Increasing u → Increasing u'
  values : ∀ n, n ∈ u'.map Literal.value ↔
    n ∈ u.map Literal.value ∨ n ∈ (clause.map Literal.mk).map Literal.value
  positive : (∀ l ∈ u, 0 < l.value_) → (∀ lit ∈ clause, lit ≠ 0) → ∀ l ∈ u', 0 < l.value_

theorem inserted_foldl (clause : List Int) (u : List Literal) :
    Inserted u clause (clause.foldl (fun u lit => insertUnique ⟨(lit.natAbs : Int)⟩ u) u) := by
  induction clause generalizing u with
  | nil => exact ⟨id, fun n => by simp, fun h _ => h⟩
  | cons lit clause ih =>
      obtain ⟨hinc, hval, hpos⟩ := ih (insertUnique ⟨(lit.natAbs : Int)⟩ u)
      refine ⟨fun h => hinc h.insertUnique, fun n => ?_, fun hu hne => ?_⟩
      · rw [List.foldl_cons, hval, mem_map_value_insertUnique]
        simp only [Literal.value, Int.natAbs_natCast, List.map_cons, List.mem_cons]
        tauto
      · refine hpos (fun l hl => ?_) (fun lit' h' => hne lit' (List.mem_cons_of_mem lit h'))
        rcases mem_of_mem_insertUnique hl with rfl | hl'
        · have := hne lit List.mem_cons_self
          show (0 : Int) < (lit.natAbs : Int)
          omega
        · exact hu l hl'

/-! ## What a model read from a file is -/

theorem ne_zero_of_mem_readLiterals {fuel : Nat} {s : IStream} {lit : Int}
    (h : lit ∈ readLiterals fuel s) : lit ≠ 0 := by
  induction fuel generalizing s with
  | zero => cases h
  | succ fuel ih =>
      unfold readLiterals at h
      dsimp only at h
      split at h
      · cases h
      · split at h
        · cases h
        · rename_i hne
          rcases List.mem_cons.mp h with rfl | h'
          · exact hne
          · exact ih h'

/-- The fuel of a line is enough for it. -/
theorem readLiterals_of_lt {fuel fuel' : Nat} {s : IStream} (h : s.rest.length < fuel)
    (h' : s.rest.length < fuel') : readLiterals fuel s = readLiterals fuel' s := by
  induction fuel generalizing fuel' s with
  | zero => omega
  | succ fuel ih =>
      obtain ⟨fuel', rfl⟩ : ∃ k, fuel' = k + 1 := ⟨fuel' - 1, by omega⟩
      unfold readLiterals
      dsimp only
      split
      · rfl
      · rename_i hfail
        have hlt := IStream.length_readInt_lt (eq_false_of_ne_true hfail)
        rw [@ih fuel' (s.readInt 64 0).2 (by omega) (by omega)]

/-- What the reader makes sure of, as long as it throws nothing. -/
structure CnfReader.Sound (r : CnfReader) : Prop where
  increasing : Increasing r.literalsUnique
  positive : ∀ l ∈ r.literalsUnique, 0 < l.value_
  occurring : ∀ n, n ∈ r.literalsUnique.map Literal.value ↔
    ∃ c ∈ r.clauses, n ∈ c.map Literal.value
  nonempty : ∀ c ∈ r.clauses, c ≠ []
  nonzero : ∀ c ∈ r.clauses, ∀ l ∈ c, l.value_ ≠ 0

namespace CnfReader.Sound

variable {cap : Capacity} {r r' : CnfReader}

theorem start : ({} : CnfReader).Sound :=
  ⟨List.Pairwise.nil, by simp, by simp, by simp, by simp⟩

theorem readClause (h : r.Sound) (line : List Char) : (readClause cap r line).Sound := by
  have hins := inserted_foldl (lineLiterals line) r.literalsUnique
  have hne : ∀ lit ∈ lineLiterals line, lit ≠ 0 := fun lit hl => ne_zero_of_mem_readLiterals hl
  unfold Fabko.Sat.readClause
  dsimp only
  split
  · rename_i hnil
    rw [List.isEmpty_iff.mp hnil, List.foldl_nil]
    exact h
  · rename_i hcons
    refine ⟨hins.increasing h.increasing, hins.positive h.positive hne, fun n => ?_,
      fun c hc => ?_, fun c hc => ?_⟩
    · simp only [hins.values, h.occurring, List.mem_append, List.mem_singleton, or_and_right,
        exists_or, exists_eq_left]
    · rcases List.mem_append.mp hc with hc' | hc'
      · exact h.nonempty c hc'
      · rw [List.mem_singleton.mp hc']
        simpa using hcons
    · rcases List.mem_append.mp hc with hc' | hc'
      · exact h.nonzero c hc'
      · rw [List.mem_singleton.mp hc']
        intro l hl
        obtain ⟨lit, hlit, rfl⟩ := List.mem_map.mp hl
        exact hne lit hlit

/-- The header writes nothing but capacities. -/
theorem readHeader (h : r.Sound) {line : List Char} (hr : readHeader cap r line = .ok r') :
    r'.Sound := by
  unfold Fabko.Sat.readHeader at hr
  dsimp only at hr
  repeat' split at hr
  all_goals cases hr
  exact ⟨h.increasing, h.positive, h.occurring, h.nonempty, h.nonzero⟩

theorem readLine (h : r.Sound) {line : List Char} (hr : readLine cap r line = .ok r') :
    r'.Sound := by
  unfold Fabko.Sat.readLine at hr
  split at hr
  · cases hr
    exact h
  · split at hr
    · cases hr
      exact h
    · split at hr
      · exact h.readHeader hr
      · cases hr
        exact h.readClause _

theorem readLines (h : r.Sound) {lines : List (List Char)}
    (hr : readLines cap r lines = .ok r') : r'.Sound := by
  induction lines generalizing r with
  | nil =>
      cases hr
      exact h
  | cons line lines ih =>
      unfold Fabko.Sat.readLines at hr
      split at hr
      · cases hr
      · rename_i hline
        exact ih (h.readLine hline) hr

end CnfReader.Sound

/-- A model comes from the lines of a text, whichever assertions are checked. -/
theorem exists_reader_of_makeModel {cap : Capacity} {ndebug : Bool} {file : CnfFile} {m : Model}
    (h : makeModelFromCnfFile cap ndebug file = .ok m) :
    ∃ s r, file = .text s ∧ readLines cap {} (getLines s) = .ok r ∧
      m = { literals := r.literalsUnique, clauses := r.clauses } := by
  cases file with
  | missing => cases h
  | unreadable => cases h
  | text s =>
      simp only [makeModelFromCnfFile] at h
      split at h
      · cases h
      · rename_i r hr
        repeat' split at h
        all_goals cases h
        exact ⟨s, r, rfl, hr, rfl⟩

/-- What the solver needs of a model and its constructor does not check in a release build. -/
structure Model.Parsed (m : Model) : Prop where
  increasing : m.literals.Pairwise (fun l l' => l.value_ < l'.value_)
  positive : ∀ l ∈ m.literals, 0 < l.value_
  occurring : ∀ n : Nat, ⟨(n : Int)⟩ ∈ m.literals ↔ ∃ c ∈ m.clauses, n ∈ c.map Literal.value
  nonempty : ∀ c ∈ m.clauses, c ≠ []
  nonzero : ∀ c ∈ m.clauses, ∀ l ∈ c, l.value_ ≠ 0

theorem Literal.eq_natCast_value {l : Literal} (h : 0 < l.value_) : l = ⟨(l.value : Int)⟩ := by
  cases l with
  | mk n =>
      have hn : 0 < n := h
      simp only [Literal.value, Literal.mk.injEq]
      omega

theorem CnfReader.Sound.parsed {r : CnfReader} (h : r.Sound) :
    Model.Parsed { literals := r.literalsUnique, clauses := r.clauses } := by
  refine ⟨?_, h.positive, fun n => ?_, h.nonempty, h.nonzero⟩
  · refine List.Pairwise.imp_of_mem (fun {l l'} hl hl' hlt => ?_) h.increasing
    have hpos := h.positive l hl
    have hpos' := h.positive l' hl'
    have hval : l.value_.natAbs < l'.value_.natAbs := hlt
    omega
  · rw [← h.occurring n, List.mem_map]
    constructor
    · intro hn
      exact ⟨_, hn, Int.natAbs_natCast n⟩
    · rintro ⟨l, hl, rfl⟩
      rw [← Literal.eq_natCast_value (h.positive l hl)]
      exact hl

theorem Model.Parsed.wellFormed {m : Model} (h : m.Parsed) : m.WellFormed := by
  refine ⟨fun l hl => ?_, ?_, h.nonempty, fun c hc l hl => ?_⟩
  · have := h.positive l hl
    rw [Literal.value]
    omega
  · rw [List.Nodup, List.pairwise_map]
    refine List.Pairwise.imp_of_mem (fun {l l'} hl hl' hlt => ?_) h.increasing
    have hpos := h.positive l hl
    have hpos' := h.positive l' hl'
    rw [Literal.value, Literal.value]
    omega
  · have hmem := (h.occurring l.value).mpr ⟨c, hc, List.mem_map_of_mem hl⟩
    exact List.mem_map.mpr ⟨_, hmem, Int.natAbs_natCast _⟩

/-- **A parsed model meets what the solver relies on**, whatever the text and whether or not the
assertions are compiled in, and the solver can be constructed from it. -/
theorem makeModelFromCnfFile_parsed {cap : Capacity} {ndebug : Bool} {file : CnfFile} {m : Model}
    (h : makeModelFromCnfFile cap ndebug file = .ok m) :
    m.Parsed ∧ ∃ ctx, solverContext m = .ok ctx := by
  obtain ⟨s, r, -, hr, rfl⟩ := exists_reader_of_makeModel h
  have hp := (CnfReader.Sound.start.readLines hr).parsed
  exact ⟨hp, solverContext_isOk hp.wellFormed⟩

/-- No header, a repeated variable, a word that is no number and a clause that goes on after it. -/
def malformed : List Char := "2 -1 2 x 5\n-2 0 7\n".toList

theorem makeModelFromCnfFile_parsed_malformed :
    ∃ m, makeModelFromCnfFile libstdcxx true (.text malformed) = .ok m ∧
      m.clauses = [[⟨2⟩, ⟨-1⟩, ⟨2⟩], [⟨-2⟩]] ∧ m.Parsed ∧ ∃ ctx, solverContext m = .ok ctx := by
  have hrun : makeModelFromCnfFile libstdcxx true (.text malformed)
      = .ok ⟨[⟨1⟩, ⟨2⟩], [[⟨2⟩, ⟨-1⟩, ⟨2⟩], [⟨-2⟩]], {}⟩ := by decide +kernel
  exact ⟨_, hrun, rfl, makeModelFromCnfFile_parsed hrun⟩

end Fabko.Sat
