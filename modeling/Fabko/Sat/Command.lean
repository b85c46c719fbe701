import Fabko.Sat.Bounds
import Fabko.Sat.DimacsFormat

set_option autoImplicit false

/-! # The command `sat`

The two handlers of `make_cli` (`cli.hh`): the option `--cnf-file`, which keeps the files it can
process, and the command, which reads and solves them one after another. What reaches the user is
a warning for each file without a solution, or the exception of the first file that cannot be
read. Log lines of the level `info` are left out. -/

namespace Fabko.Sat

open Text

/-! ## The handlers -/

abbrev Path := List Char

/-- `std::filesystem::path::filename` -/
def filename (path : Path) : List Char := (path.reverse.takeWhile (fun c => c ≠ '/')).reverse

/-- `std::filesystem::path::extension`: from the last period on, unless the name starts with it. -/
def extension (path : Path) : List Char :=
  let name := filename path
  let ext := (name.reverse.takeWhile (fun c => c ≠ '.')).reverse
  if name = ['.', '.'] then []
  else if ext.length + 1 < name.length then '.' :: ext
  else []

inductive LogLevel where
  | warn
  | error
deriving DecidableEq, Repr

structure LogLine where
  level : LogLevel
  text : List Char
deriving DecidableEq, Repr

def notValid (path : Path) : LogLine :=
  ⟨.error, "file ".toList ++ path ++
    " is not a valid CNF file, it should exists and have a .cnf extension".toList⟩

def noFile : LogLine :=
  ⟨.error, ("no file provided to the SAT solver, please use --cnf-file or -c option " ++
    "to provide a file").toList⟩

def noSolution (path : Path) : LogLine := ⟨.warn, "no solution found for ".toList ++ path⟩

section Handlers

variable (cap : Capacity) (ndebug : Bool) (disk : Path → CnfFile) (fuel : Nat)

/-- The handler of `--cnf-file`, with what was logged and the files that were kept. -/
def addCnfFile (s : List LogLine × List Path) (value : Path) : List LogLine × List Path :=
  if disk value = .missing ∨ extension value = [] ∨ extension value ≠ ".cnf".toList then
    (s.1 ++ [notValid value], s.2)
  else (s.1, s.2 ++ [value])

/-- The body of the loop over the files. -/
def processFile (path : Path) : Option (Except Exception (List LogLine)) :=
  match makeModelFromCnfFile cap ndebug (disk path) with
  | .error e => some (.error e)
  | .ok m =>
      match solverContext m with
      | .error msg => some (.error (.fabko ⟨42, .fbk⟩ msg))
      | .ok ctx => (solve fuel ctx 1).map (fun results =>
          .ok (if results.isEmpty then [noSolution path] else []))

/-- An exception leaves the loop. -/
def processFiles : List Path → Option (List LogLine × Option Exception)
  | [] => some ([], none)
  | path :: paths =>
      match processFile cap ndebug disk fuel path with
      | none => none
      | some (.error e) => some ([], some e)
      | some (.ok log) => (processFiles paths).map (fun r => (log ++ r.1, r.2))

/-- The command with the values of its options, in their order. -/
def satCommand (values : List Path) : Option (List LogLine × Option Exception) :=
  let r := values.foldl (addCnfFile disk) ([], [])
  if r.2.isEmpty then some (r.1 ++ [noFile], none)
  else (processFiles cap ndebug disk fuel r.2).map (fun s => (r.1 ++ s.1, s.2))

end Handlers

variable {cap : Capacity} {ndebug : Bool} {disk : Path → CnfFile} {fuel : Nat}

/-! ## The files that are kept -/

/-- What stands before the first `d` of a list that has one. -/
theorem takeWhile_ne_eq_iff {d : Char} {xs ys : List Char} :
    xs.takeWhile (fun c => c ≠ d) = ys ∧ ys.length < xs.length ↔
      d ∉ ys ∧ ∃ zs, xs = ys ++ d :: zs := by
  constructor
  · rintro ⟨rfl, hlen⟩
    refine ⟨fun hmem => by simpa using List.mem_takeWhile_imp hmem, ?_⟩
    have hsplit := List.takeWhile_append_dropWhile (p := fun c => decide (c ≠ d)) (l := xs)
    -- what stops the scan is `d` itself
    rcases hdrop : xs.dropWhile (fun c => c ≠ d) with _ | ⟨c, zs⟩
    · rw [hdrop, List.append_nil] at hsplit
      rw [hsplit] at hlen
      exact absurd hlen (lt_irrefl _)
    · have hhead := List.head?_dropWhile_not (fun c => decide (c ≠ d)) xs
      rw [hdrop] at hhead
      have hc : c = d := by simpa using hhead
      rw [hdrop, hc] at hsplit
      exact ⟨zs, hsplit.symm⟩
  · rintro ⟨hd, zs, rfl⟩
    have hpos : ∀ x ∈ ys, decide (x ≠ d) = true := fun x hx => by
      rw [decide_eq_true_eq]
      rintro rfl
      exact hd hx
    rw [List.takeWhile_append_of_pos hpos]
    refine ⟨by simp, by simp⟩

/-- The extension, from the end of the name: the period is not its first character. -/
theorem extension_eq_iff_filename {path : Path} {ext : List Char} (hne : ext ≠ [])
    (hdot : '.' ∉ ext) :
    extension path = '.' :: ext ↔
      ∃ c zs, (filename path).reverse = ext.reverse ++ '.' :: c :: zs := by
  unfold extension
  simp only [List.length_reverse]
  constructor
  · intro h
    split at h
    · cases h
    · split at h
      · rename_i hlen
        have hext := List.reverse_eq_iff.mp (List.cons.inj h).2
        obtain ⟨-, zs, hzs⟩ := takeWhile_ne_eq_iff.mp ⟨hext, by
          rw [← hext, List.length_reverse]
          omega⟩
        rcases zs with _ | ⟨c, zs⟩
        · -- the period would be the first character, and `extension` is empty then
          have hcount := congrArg List.length hzs
          rw [List.length_reverse, List.length_append, List.length_singleton] at hcount
          rw [hext, hcount] at hlen
          exact absurd hlen (lt_irrefl _)
        · exact ⟨c, zs, hzs⟩
      · cases h
  · rintro ⟨c, zs, hzs⟩
    obtain ⟨hext, -⟩ := takeWhile_ne_eq_iff.mpr
      ⟨fun hmem => hdot (List.mem_reverse.mp hmem), c :: zs, hzs⟩
    have hlen : 0 < ext.length := List.length_pos_of_ne_nil hne
    have hcount := congrArg List.length hzs
    rw [hext, List.reverse_reverse, if_neg, if_pos]
    · simp at hcount ⊢
      omega
    · -- with `c` in front of the period the name is longer than two periods
      intro hdots
      rw [hdots] at hcount
      simp at hcount
      omega

/-- The name is what stands behind the last slash. -/
theorem filename_reverse_eq_iff {path : Path} {us : List Char} {c : Char} (hus : '/' ∉ us) :
    (∃ zs, (filename path).reverse = us ++ c :: zs) ↔
      ∃ front, path = front ++ c :: us.reverse ∧ c ≠ '/' := by
  have hname : (filename path).reverse = path.reverse.takeWhile (fun c => c ≠ '/') :=
    List.reverse_reverse _
  rw [hname]
  constructor
  · rintro ⟨zs, hzs⟩
    have hc : c ∈ path.reverse.takeWhile (fun c => c ≠ '/') := by rw [hzs]; simp
    have hsplit := List.takeWhile_append_dropWhile (p := fun c => decide (c ≠ '/'))
      (l := path.reverse)
    rw [hzs] at hsplit
    generalize path.reverse.dropWhile (fun c => decide (c ≠ '/')) = dir at hsplit
    refine ⟨(zs ++ dir).reverse, ?_, by simpa using List.mem_takeWhile_imp hc⟩
    rw [← List.reverse_reverse path, ← hsplit]
    simp
  · rintro ⟨front, rfl, hc⟩
    refine ⟨front.reverse.takeWhile (fun c => c ≠ '/'), ?_⟩
    have hpos : ∀ x ∈ us, decide (x ≠ '/') = true := fun x hx => by
      rw [decide_eq_true_eq]
      rintro rfl
      exact hus hx
    rw [List.reverse_append, List.reverse_cons, List.reverse_reverse, List.append_assoc,
      List.takeWhile_append_of_pos hpos]
    simp [hc]

/-- The end of a path is its extension when another character of the name comes before it. -/
theorem extension_eq_iff {path : Path} {ext : List Char} (hne : ext ≠ []) (hdot : '.' ∉ ext)
    (hslash : '/' ∉ ext) :
    extension path = '.' :: ext ↔ ∃ front c, path = front ++ c :: '.' :: ext ∧ c ≠ '/' := by
  have hus : '/' ∉ ext.reverse ++ ['.'] := by simp [hslash]
  rw [extension_eq_iff_filename hne hdot, exists_comm (α := List Char)]
  refine exists_congr fun c => ?_
  have hfile := @filename_reverse_eq_iff path (ext.reverse ++ ['.']) c hus
  simpa using hfile

/-- A value that the option keeps. -/
def Accepted (disk : Path → CnfFile) (value : Path) : Prop :=
  disk value ≠ .missing ∧ ∃ front c, value = front ++ c :: ".cnf".toList ∧ c ≠ '/'

instance (disk : Path → CnfFile) (value : Path) : Decidable (Accepted disk value) :=
  decidable_of_iff (disk value ≠ .missing ∧ extension value = ".cnf".toList)
    (and_congr_right (fun _ => extension_eq_iff (by decide) (by decide) (by decide)))

theorem foldl_addCnfFile (values : List Path) (s : List LogLine × List Path) :
    values.foldl (addCnfFile disk) s
      = (s.1 ++ (values.filter (fun v => ¬ Accepted disk v)).map notValid,
        s.2 ++ values.filter (fun v => Accepted disk v)) := by
  induction values generalizing s with
  | nil => simp
  | cons v values ih =>
      rw [List.foldl_cons, ih]
      -- an empty extension is another one than `.cnf`
      have hkeep : (disk v = .missing ∨ extension v = [] ∨ extension v ≠ ".cnf".toList)
          ↔ ¬ Accepted disk v := by
        have hext := @extension_eq_iff v "cnf".toList (by decide) (by decide) (by decide)
        have hcnf : '.' :: "cnf".toList = ".cnf".toList := by decide
        rw [hcnf] at hext
        rw [Accepted, ← hext, not_and_or, not_not]
        refine or_congr_right ⟨?_, Or.inr⟩
        rintro (hnil | hne)
        · rw [hnil]
          decide
        · exact hne
      unfold addCnfFile
      by_cases hv : Accepted disk v
      · rw [if_neg (fun h => hkeep.mp h hv)]
        simp [hv]
      · rw [if_pos (hkeep.mpr hv)]
        simp [hv]

/-! ## One file -/

/-- One call of `solve_sat` decides what `solve(1)` returns. -/
theorem solve_one {m : Model} {ctx : SolverContext} {rs : List SolverResult} (hm : m.WellFormed)
    (hc : solverContext m = .ok ctx) (h : solve fuel ctx 1 = some rs) :
    rs.isEmpty = true ↔ ¬ m.Satisfiable := by
  have hb : Between mulUInt32 m ctx := Between.constructed hc
  change solveLoop mulUInt32 (fun _ => highestVsids) fuel (0 + 1) ctx = some rs at h
  unfold solveLoop at h
  split at h
  · cases h
  · rename_i c e hs
    have hcorrect := search_correct hm hb hs
    cases h
    cases e with
    | unsatisfiable => exact ⟨fun _ => hcorrect, fun _ => rfl⟩
    | error => exact hcorrect.elim
  · rename_i c r hs
    have hsol : IsSolution m r := search_correct hm hb hs
    cases h
    exact ⟨fun hnil => absurd hnil Bool.false_ne_true,
      fun hun => absurd ⟨_, hsol.satisfies⟩ hun⟩

/-- The file is read as a model that no valuation satisfies. -/
def ReadUnsatisfiable (cap : Capacity) (ndebug : Bool) (disk : Path → CnfFile) (path : Path) :
    Prop :=
  ∃ m, makeModelFromCnfFile cap ndebug (disk path) = .ok m ∧ ¬ m.Satisfiable

/-- The lines for a list of files: a warning for each with the property, in their order. -/
inductive Warnings (P : Path → Prop) : List Path → List LogLine → Prop
  | nil : Warnings P [] []
  | warn {path : Path} {paths : List Path} {log : List LogLine} (h : P path)
      (hw : Warnings P paths log) : Warnings P (path :: paths) (noSolution path :: log)
  | silent {path : Path} {paths : List Path} {log : List LogLine} (h : ¬ P path)
      (hw : Warnings P paths log) : Warnings P (path :: paths) log

theorem Warnings.congr {P Q : Path → Prop} {paths : List Path} {log : List LogLine}
    (h : Warnings P paths log) (hPQ : ∀ path ∈ paths, P path ↔ Q path) :
    Warnings Q paths log := by
  induction h with
  | nil => exact .nil
  | warn hP _ ih =>
      exact .warn ((hPQ _ List.mem_cons_self).mp hP)
        (ih (fun path hp => hPQ path (List.mem_cons_of_mem _ hp)))
  | silent hP _ ih =>
      exact .silent (fun hQ => hP ((hPQ _ List.mem_cons_self).mpr hQ))
        (ih (fun path hp => hPQ path (List.mem_cons_of_mem _ hp)))

theorem parsed_of_makeModel {path : Path} {m : Model}
    (h : makeModelFromCnfFile cap ndebug (disk path) = .ok m) : m.Parsed ∧ m.conf = {} := by
  obtain ⟨s, r, -, hr, rfl⟩ := exists_reader_of_makeModel h
  exact ⟨(CnfReader.Sound.start.readLines hr).parsed, rfl⟩

theorem processFile_error {path : Path} {e : Exception}
    (h : processFile cap ndebug disk fuel path = some (.error e)) :
    makeModelFromCnfFile cap ndebug (disk path) = .error e := by
  unfold processFile at h
  split at h
  · rename_i e' hread
    rw [Option.some.injEq, Except.error.injEq] at h
    rw [hread, h]
  · rename_i m hread
    obtain ⟨ctx, hctx⟩ := solverContext_isOk (parsed_of_makeModel hread).1.wellFormed
    rw [hctx] at h
    simp at h

theorem processFile_ok {path : Path} {log : List LogLine}
    (h : processFile cap ndebug disk fuel path = some (.ok log)) :
    ∃ m, makeModelFromCnfFile cap ndebug (disk path) = .ok m ∧
      (m.Satisfiable ∧ log = [] ∨ ¬ m.Satisfiable ∧ log = [noSolution path]) := by
  unfold processFile at h
  split at h
  · cases h
  · rename_i m hread
    have hwf : m.WellFormed := (parsed_of_makeModel hread).1.wellFormed
    obtain ⟨ctx, hctx⟩ := solverContext_isOk hwf
    rw [hctx] at h
    obtain ⟨rs, hsolve, hlog⟩ := Option.map_eq_some_iff.mp h
    have hiff := solve_one hwf hctx hsolve
    refine ⟨m, hread, ?_⟩
    by_cases hsat : m.Satisfiable
    · have hne : ¬ rs.isEmpty = true := fun he => hiff.mp he hsat
      rw [if_neg hne] at hlog
      exact Or.inl ⟨hsat, (Except.ok.inj hlog).symm⟩
    · rw [if_pos (hiff.mpr hsat)] at hlog
      exact Or.inr ⟨hsat, (Except.ok.inj hlog).symm⟩

/-! ## All files -/

/-- Where the loop over the files ends: after all of them, or at one that cannot be read. -/
def EndsAt (cap : Capacity) (ndebug : Bool) (disk : Path → CnfFile) (rest : List Path) :
    Option Exception → Prop
  | none => rest = []
  | some e => ∃ path paths, rest = path :: paths ∧
      makeModelFromCnfFile cap ndebug (disk path) = .error e

/-- The lines for the files that were processed, and where the loop ended. -/
def Processed (cap : Capacity) (ndebug : Bool) (disk : Path → CnfFile) (paths : List Path)
    (log : List LogLine) (outcome : Option Exception) : Prop :=
  ∃ done rest, paths = done ++ rest ∧
    (∀ path ∈ done, ∃ m, makeModelFromCnfFile cap ndebug (disk path) = .ok m) ∧
    Warnings (ReadUnsatisfiable cap ndebug disk) done log ∧ EndsAt cap ndebug disk rest outcome

theorem processFiles_spec {paths : List Path} {log : List LogLine} {outcome : Option Exception}
    (h : processFiles cap ndebug disk fuel paths = some (log, outcome)) :
    Processed cap ndebug disk paths log outcome := by
  induction paths generalizing log with
  | nil =>
      cases h
      exact ⟨[], [], rfl, fun _ hp => absurd hp List.not_mem_nil, .nil, rfl⟩
  | cons path paths ih =>
      unfold processFiles at h
      split at h
      · cases h
      · -- the file cannot be read, and the command ends with it
        rename_i e hfile
        cases h
        exact ⟨[], path :: paths, rfl, fun _ hp => absurd hp List.not_mem_nil, .nil, path, paths,
          rfl, processFile_error hfile⟩
      · -- the file is told of, and the others are taken
        rename_i line hfile
        obtain ⟨⟨rest, outcome'⟩, hrest, heq⟩ := Option.map_eq_some_iff.mp h
        cases heq
        obtain ⟨before, after, hsplit, hread, hwarn, hend⟩ := ih hrest
        obtain ⟨m, hm, hcase⟩ := processFile_ok hfile
        refine ⟨path :: before, after, by rw [hsplit, List.cons_append], fun p hp => ?_, ?_, hend⟩
        · rcases List.mem_cons.mp hp with rfl | hp
          · exact ⟨m, hm⟩
          · exact hread p hp
        · rcases hcase with ⟨hsat, rfl⟩ | ⟨hunsat, rfl⟩
          · refine .silent ?_ hwarn
            rintro ⟨m', hm', hunsat⟩
            rw [hm, Except.ok.injEq] at hm'
            exact hunsat (hm' ▸ hsat)
          · exact .warn ⟨m, hm, hunsat⟩ hwarn

/-- **What the command tells**, if it returns: the values it does not take, then a warning for each
file whose clauses, as they were read, no valuation satisfies. It stops at the first file that
cannot be read, with the exception of the reader. -/
theorem satCommand_spec {values : List Path} {log : List LogLine} {outcome : Option Exception}
    (h : satCommand cap ndebug disk fuel values = some (log, outcome)) :
    ∃ told, log = (values.filter (fun v => ¬ Accepted disk v)).map notValid ++ told ∧
      (values.filter (fun v => Accepted disk v) = [] ∧ told = [noFile] ∧ outcome = none ∨
        values.filter (fun v => Accepted disk v) ≠ [] ∧
          Processed cap ndebug disk (values.filter (fun v => Accepted disk v)) told outcome) := by
  unfold satCommand at h
  rw [foldl_addCnfFile, List.nil_append, List.nil_append] at h
  dsimp only at h
  split at h
  · rename_i hnil
    cases h
    exact ⟨[noFile], rfl, Or.inl ⟨List.isEmpty_iff.mp hnil, rfl, rfl⟩⟩
  · rename_i hne
    obtain ⟨⟨told, outcome'⟩, hfiles, heq⟩ := Option.map_eq_some_iff.mp h
    cases heq
    exact ⟨told, rfl, Or.inr ⟨by simpa using hne, processFiles_spec hfiles⟩⟩

/-- A disk with one contradiction on it. -/
def oneFile (path : Path) : CnfFile :=
  if path = "dir/no.cnf".toList then .text "p cnf 1 2\n1 0\n-1 0\n".toList
  else if path = "notes.txt".toList then .text [] else .missing

theorem satCommand_spec_oneFile :
    ∃ told, [notValid "notes.txt".toList, notValid "gone.cnf".toList, noSolution "dir/no.cnf".toList]
        = (["notes.txt".toList, "dir/no.cnf".toList, "gone.cnf".toList].filter
            (fun v => ¬ Accepted oneFile v)).map notValid ++ told ∧
      (["notes.txt".toList, "dir/no.cnf".toList, "gone.cnf".toList].filter
          (fun v => Accepted oneFile v) = [] ∧ told = [noFile] ∧ (none : Option Exception) = none ∨
        ["notes.txt".toList, "dir/no.cnf".toList, "gone.cnf".toList].filter
          (fun v => Accepted oneFile v) ≠ [] ∧
        Processed libstdcxx false oneFile
          (["notes.txt".toList, "dir/no.cnf".toList, "gone.cnf".toList].filter
            (fun v => Accepted oneFile v)) told none) := by
  have hrun : satCommand libstdcxx false oneFile 5
      ["notes.txt".toList, "dir/no.cnf".toList, "gone.cnf".toList]
      = some ([notValid "notes.txt".toList, notValid "gone.cnf".toList,
          noSolution "dir/no.cnf".toList], none) := by
    decide +kernel
  exact satCommand_spec hrun

/-! ## Formulas in the DIMACS format -/

def FormulaSatisfiable (cs : List (List Int)) : Prop :=
  ∃ σ : Nat → Bool, ∀ c ∈ cs, ∃ n ∈ c, σ n.natAbs = decide (0 < n)

theorem satisfiable_iff_formula {m : Model} {cs : List (List Int)}
    (h : m.clauses = cs.map (fun c => c.map Literal.mk)) :
    m.Satisfiable ↔ FormulaSatisfiable cs := by
  refine exists_congr (fun σ => ?_)
  rw [Model.SatisfiedBy, h, List.forall_mem_map]
  refine forall₂_congr (fun c _ => ?_)
  simp only [clauseHolds, List.mem_map, exists_exists_and_eq_and]
  exact Iff.rfl

/-- The file holds the formula `cs`, laid out so that the reader finds its clauses, with a clause
at least and at most 19 variables. -/
structure HoldsFormula (cap : Capacity) (ndebug : Bool) (disk : Path → CnfFile) (path : Path)
    (cs : List (List Int)) : Prop where
  text : ∃ s body, disk path = .text s ∧ DimacsText s body cs ∧ ClausePerLine (nonBlank body) cs
  read : ∃ m, makeModelFromCnfFile cap ndebug (disk path) = .ok m ∧ m.literals.length ≤ 19
  nonempty : cs ≠ []

theorem HoldsFormula.clauses {path : Path} {cs : List (List Int)} {m : Model}
    (h : HoldsFormula cap ndebug disk path cs)
    (hm : makeModelFromCnfFile cap ndebug (disk path) = .ok m) :
    m.clauses = cs.map (fun c => c.map Literal.mk) := by
  obtain ⟨s, body, htext, hdimacs, hlayout⟩ := h.text
  rw [htext] at hm
  rw [hdimacs.clauses hm, ← kept_nonBlank, hlayout.kept_eq hdimacs.nonempty hdimacs.nonzero]

theorem HoldsFormula.readUnsatisfiable_iff {path : Path} {cs : List (List Int)}
    (h : HoldsFormula cap ndebug disk path cs) :
    ReadUnsatisfiable cap ndebug disk path ↔ ¬ FormulaSatisfiable cs := by
  constructor
  · rintro ⟨m, hm, hun⟩
    rw [← satisfiable_iff_formula (h.clauses hm)]
    exact hun
  · intro hun
    obtain ⟨m, hm, -⟩ := h.read
    rw [← satisfiable_iff_formula (h.clauses hm)] at hun
    exact ⟨m, hm, hun⟩

/-- `solve(1)` returns for a model the reader made. -/
theorem solve_one_isSome {m : Model} {ctx : SolverContext} (hm : m.WellFormed)
    (hne : m.literals ≠ []) (hconf : m.conf = {}) (hvars : m.literals.length ≤ 19)
    (hc : solverContext m = .ok ctx) (hfuel : iterationBound m.literals.length ≤ fuel) :
    ∃ rs, solve fuel ctx 1 = some rs := by
  have hfit : 3 ^ m.literals.length * m.conf.restartMultiplier < 2 ^ 32 := by
    rw [hconf]
    calc 3 ^ m.literals.length * 2 ≤ 3 ^ 19 * 2 :=
          Nat.mul_le_mul_right 2 (Nat.pow_le_pow_right (by decide) hvars)
      _ < 2 ^ 32 := by decide
  have hb : Between (fun a b => a * b) m ctx := Between.constructed hc
  have hrun := hb.running hm
    (positiveThresholds_of_pos (by rw [hconf]; decide) (by rw [hconf]; decide))
    (by rw [hconf]; decide)
  have hpot := potential_lt_iterationBound hrun.good.linked
  obtain ⟨c, r, hs⟩ := hrun.search_isSome hm hne (fun _ => highestVsids) 0
    (lt_of_lt_of_le hpot hfuel)
  -- the search with exact products, which the 32 bits of the solver do not leave
  rw [← (fits_of_solverContext hc).search_eq hm hfit] at hs
  show ∃ rs, solveLoop mulUInt32 (fun _ => highestVsids) fuel (0 + 1) ctx = some rs
  unfold solveLoop
  rw [hs]
  cases r with
  | error e => exact ⟨[], rfl⟩
  | ok r => exact ⟨[r], rfl⟩

/-- The bound is enough for the file, and so is any higher one. -/
theorem HoldsFormula.processFile_isSome {path : Path} {cs : List (List Int)}
    (h : HoldsFormula cap ndebug disk path cs) (hfuel : iterationBound 19 ≤ fuel) :
    ∃ log, processFile cap ndebug disk fuel path = some (.ok log) := by
  obtain ⟨m, hm, hvars⟩ := h.read
  obtain ⟨hparsed, hconf⟩ := parsed_of_makeModel hm
  have hclauses := h.clauses hm
  -- a clause has a literal, whose variable is declared
  have hne : m.literals ≠ [] := by
    obtain ⟨c, cs', rfl⟩ := List.exists_cons_of_ne_nil h.nonempty
    have hc : c.map Literal.mk ∈ m.clauses := by rw [hclauses]; simp
    obtain ⟨l, hl⟩ := List.exists_mem_of_ne_nil _ (hparsed.nonempty _ hc)
    have hdeclared := hparsed.wellFormed.declared _ hc l hl
    intro hnil
    rw [hnil] at hdeclared
    cases hdeclared
  obtain ⟨ctx, hctx⟩ := solverContext_isOk hparsed.wellFormed
  have hmono : iterationBound m.literals.length ≤ iterationBound 19 :=
    Nat.mul_le_mul (Nat.succ_le_succ (Nat.pow_le_pow_right (by decide) hvars))
      (Nat.mul_le_mul_left 2 (Nat.succ_le_succ hvars))
  obtain ⟨rs, hsolve⟩ := solve_one_isSome hparsed.wellFormed hne hconf hvars hctx
    (hmono.trans hfuel)
  unfold processFile
  rw [hm]
  simp only [hctx, hsolve, Option.map_some]
  exact ⟨_, rfl⟩

theorem processFiles_isSome {formula : Path → List (List Int)} {paths : List Path}
    (h : ∀ path ∈ paths, HoldsFormula cap ndebug disk path (formula path))
    (hfuel : iterationBound 19 ≤ fuel) :
    ∃ log, processFiles cap ndebug disk fuel paths = some (log, none) := by
  induction paths with
  | nil => exact ⟨[], rfl⟩
  | cons path paths ih =>
      obtain ⟨line, hline⟩ := (h path List.mem_cons_self).processFile_isSome hfuel
      obtain ⟨log, hlog⟩ := ih (fun p hp => h p (List.mem_cons_of_mem path hp))
      refine ⟨line ++ log, ?_⟩
      unfold processFiles
      simp only [hline, hlog, Option.map_some]

/-- **From the text to the warnings.** On files that hold formulas the command returns, and it
warns, in the order of the options, of exactly those whose formula no valuation satisfies. -/
theorem satCommand_formulas {values : List Path} {formula : Path → List (List Int)}
    (hne : values.filter (fun v => Accepted disk v) ≠ [])
    (h : ∀ path ∈ values.filter (fun v => Accepted disk v),
      HoldsFormula cap ndebug disk path (formula path)) (hfuel : iterationBound 19 ≤ fuel) :
    ∃ warnings, satCommand cap ndebug disk fuel values
        = some ((values.filter (fun v => ¬ Accepted disk v)).map notValid ++ warnings, none) ∧
      Warnings (fun path => ¬ FormulaSatisfiable (formula path))
        (values.filter (fun v => Accepted disk v)) warnings := by
  obtain ⟨log, hlog⟩ := processFiles_isSome h hfuel
  obtain ⟨done, rest, hsplit, -, hwarn, hend⟩ := processFiles_spec hlog
  have hrest : rest = [] := hend
  rw [hrest, List.append_nil] at hsplit
  refine ⟨log, ?_, ?_⟩
  · unfold satCommand
    rw [foldl_addCnfFile, List.nil_append, List.nil_append]
    dsimp only
    rw [if_neg (by simpa using hne), hlog, Option.map_some]
  · rw [← hsplit] at hwarn
    exact hwarn.congr (fun path hp => (h path hp).readUnsatisfiable_iff)

theorem holdsFormula_oneByOne :
    HoldsFormula libstdcxx false (fun _ => .text oneByOne) "f.cnf".toList [[1, -3], [2, 3, -1]] := by
  refine ⟨⟨oneByOne, [[1, -3, 0], [], [2, 3, -1], [0]], rfl, dimacsText_oneByOne, ?_⟩,
    ⟨⟨[⟨1⟩, ⟨2⟩, ⟨3⟩], [[⟨1⟩, ⟨-3⟩], [⟨2⟩, ⟨3⟩, ⟨-1⟩]], {}⟩, by decide +kernel, by decide⟩, by decide⟩
  show ClausePerLine [[1, -3] ++ [0], [2, 3, -1], [0]] _
  exact .ended (.endedBelow .nil)

theorem satCommand_formulas_oneByOne :
    ∃ warnings, satCommand libstdcxx false (fun _ => .text oneByOne) (iterationBound 19)
        ["f.cnf".toList] = some (warnings, none) ∧
      Warnings (fun _ => ¬ FormulaSatisfiable [[1, -3], [2, 3, -1]]) ["f.cnf".toList] warnings := by
  have hkept : ["f.cnf".toList].filter (fun v => Accepted (fun _ => .text oneByOne) v)
      = ["f.cnf".toList] := by
    decide +kernel
  have hrefused : ["f.cnf".toList].filter (fun v => ¬ Accepted (fun _ => .text oneByOne) v) = [] := by
    decide +kernel
  have h := @satCommand_formulas libstdcxx false (fun _ => .text oneByOne) (iterationBound 19)
    ["f.cnf".toList] (fun _ => [[1, -3], [2, 3, -1]]) (by rw [hkept]; decide)
    (fun path hpath => by
      rw [hkept, List.mem_singleton] at hpath
      rw [hpath]
      exact holdsFormula_oneByOne) (le_refl _)
  rw [hkept, hrefused] at h
  exact h

end Fabko.Sat
