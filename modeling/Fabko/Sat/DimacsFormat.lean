import Fabko.Sat.Dimacs

set_option autoImplicit false

/-! # The DIMACS format and what the reader makes of it

The format is a sequence of numbers in which line breaks are white space; the reader takes one
clause from each line. `DimacsText` says what a valid text is and which clauses it stands for, and
`ClausePerLine` how these must be laid out for the reader to find them. -/

namespace Fabko.Sat

open Text

/-! ## Valid texts -/

def CommentLine (line : List Char) : Prop := line.head? = some 'c'

instance (line : List Char) : Decidable (CommentLine line) :=
  inferInstanceAs (Decidable (line.head? = some 'c'))

/-- A line of integers of magnitude below `2 ^ 63`; a blank line holds none. -/
structure NumberLine (line : List Char) (ns : List Int) : Prop where
  numerals : (words line).map numeral = ns.map some
  bounded : ∀ n ∈ ns, n.natAbs < 2 ^ 63

structure HeaderLine (line : List Char) (numVariables numClauses : Nat) : Prop where
  start : line.head? = some 'p'
  fields : ∃ v c, words line = [['p'], ['c', 'n', 'f'], v, c] ∧
    numeral v = some (numVariables : Int) ∧ numeral c = some (numClauses : Int)

/-- The lines after the header, with the numbers of those that are no comment. -/
inductive Body : List (List Char) → List (List Int) → Prop
  | nil : Body [] []
  | comment {line : List Char} {lines : List (List Char)} {ts : List (List Int)}
      (h : CommentLine line) (hb : Body lines ts) : Body (line :: lines) ts
  | numbers {line : List Char} {ns : List Int} {lines : List (List Char)} {ts : List (List Int)}
      (h : NumberLine line ns) (hb : Body lines ts) : Body (line :: lines) (ns :: ts)

/-- The numbers of a list of clauses, each ended by 0. -/
def terminated (cs : List (List Int)) : List Int := cs.flatMap (fun c => c ++ [0])

/-- `s` is a valid text for the clauses `cs`, with the numbers of its body spread over lines as in
`body`. -/
structure DimacsText (s : List Char) (body cs : List (List Int)) : Prop where
  lines : ∃ before header after numVariables, getLines s = before ++ header :: after ∧
    (∀ line ∈ before, CommentLine line ∨ words line = []) ∧
    HeaderLine header numVariables cs.length ∧ Body after body
  numbers : body.flatten = terminated cs
  nonempty : ∀ c ∈ cs, c ≠ []
  nonzero : ∀ c ∈ cs, 0 ∉ c

/-- The clauses stand one by one on the lines: a line holds all literals of one clause and nothing
else, but for the 0 that ends it, which may start and fill the next line. -/
inductive ClausePerLine : List (List Int) → List (List Int) → Prop
  | nil : ClausePerLine [] []
  | ended {c : List Int} {ts cs : List (List Int)} (h : ClausePerLine ts cs) :
      ClausePerLine ((c ++ [0]) :: ts) (c :: cs)
  | endedBelow {c : List Int} {ts cs : List (List Int)} (h : ClausePerLine ts cs) :
      ClausePerLine (c :: [0] :: ts) (c :: cs)

def nonBlank (body : List (List Int)) : List (List Int) := body.filter (fun ns => decide (ns ≠ []))

/-! ## What is read -/

/-- The literals the reader takes from the numbers of a line. -/
def upToZero (ns : List Int) : List Int := ns.takeWhile (fun n => decide (n ≠ 0))

/-- What the reader keeps of the numbers of all lines. -/
def kept (body : List (List Int)) : List (List Int) := nonBlank (body.map upToZero)

theorem upToZero_cons_of_ne {n : Int} (h : n ≠ 0) (ns : List Int) :
    upToZero (n :: ns) = n :: upToZero ns :=
  List.takeWhile_cons_of_pos (by simpa using h)

theorem upToZero_zero (ns : List Int) : upToZero (0 :: ns) = [] := rfl

theorem nonBlank_cons_of_ne {ns : List Int} (h : ns ≠ []) (body : List (List Int)) :
    nonBlank (ns :: body) = ns :: nonBlank body := by
  simp [nonBlank, h]

theorem nonBlank_nil_cons (body : List (List Int)) : nonBlank ([] :: body) = nonBlank body := rfl

theorem kept_cons_of_ne {ns : List Int} (h : upToZero ns ≠ []) (body : List (List Int)) :
    kept (ns :: body) = upToZero ns :: kept body :=
  nonBlank_cons_of_ne h _

theorem kept_cons_of_eq_nil {ns : List Int} (h : upToZero ns = []) (body : List (List Int)) :
    kept (ns :: body) = kept body := by
  rw [kept, List.map_cons, h]
  rfl

theorem readLiterals_words {fuel : Nat} {s : List Char} {ns : List Int}
    (hw : (words s).map numeral = ns.map some) (hb : ∀ n ∈ ns, n.natAbs < 2 ^ 63)
    (hf : s.length < fuel) :
    readLiterals fuel ⟨s, false⟩ = upToZero ns := by
  induction ns generalizing fuel s with
  | nil =>
      obtain ⟨fuel, rfl⟩ : ∃ k, fuel = k + 1 := ⟨fuel - 1, by omega⟩
      have hnil : words s = [] := List.map_eq_nil_iff.mp hw
      simp [readLiterals, IStream.readInt_nil hnil, upToZero]
  | cons n ns ih =>
      obtain ⟨fuel, rfl⟩ : ∃ k, fuel = k + 1 := ⟨fuel - 1, by omega⟩
      obtain ⟨w, ws, hws, hn, hrest⟩ := List.map_eq_cons_iff.mp hw
      have hbound : n.natAbs < 2 ^ 63 := hb n List.mem_cons_self
      have hlow : -2 ^ (64 - 1) ≤ n := by omega
      have hhigh : n < 2 ^ (64 - 1) := by omega
      obtain ⟨rest, hread, hwords⟩ := IStream.readInt_words hws hn hlow hhigh 0
      have hlt := @IStream.length_readInt_lt 64 0 ⟨s, false⟩ (by rw [hread])
      rw [hread] at hlt
      unfold readLiterals
      simp only [hread, Bool.false_eq_true, if_false]
      by_cases hz : n = 0
      · simp [hz, upToZero_zero]
      · have hlt' : rest.length < fuel := by
          have : rest.length < s.length := hlt
          omega
        rw [if_neg hz, upToZero_cons_of_ne hz,
          ih (by rw [hwords, hrest]) (fun k hk => hb k (List.mem_cons_of_mem n hk)) hlt']

theorem NumberLine.lineLiterals {line : List Char} {ns : List Int} (h : NumberLine line ns) :
    lineLiterals line = upToZero ns :=
  readLiterals_words h.numerals h.bounded (Nat.lt_succ_self _)

/-- A line of numbers is neither a comment nor a header. -/
theorem NumberLine.head_ne {c : Char} {cs : List Char} {ns : List Int}
    (h : NumberLine (c :: cs) ns) : c ≠ 'c' ∧ c ≠ 'p' := by
  by_contra hno
  have hc : c = 'c' ∨ c = 'p' := by
    by_contra hne
    exact hno (not_or.mp hne)
  have hspace : isSpace c = false := by rcases hc with rfl | rfl <;> decide
  have hnum := h.numerals
  rw [words_of_not_space hspace, List.map_cons, List.takeWhile_cons_of_pos (by simp [hspace])]
    at hnum
  -- its first word would start with a letter
  obtain ⟨n, ns, hns, hn, -⟩ := List.map_eq_cons_iff.mp hnum.symm
  have hnone : ∀ w, numeral (c :: w) = none := by
    intro w
    rcases hc with rfl | rfl <;> simp [numeral, sign]
  rw [hnone] at hn
  cases hn

theorem CommentLine.readLine {line : List Char} (h : CommentLine line) (cap : Capacity)
    (r : CnfReader) : readLine cap r line = .ok r := by
  cases line with
  | nil => rfl
  | cons c cs =>
      have hc : c = 'c' := Option.some.inj h
      rw [Fabko.Sat.readLine, if_pos hc]

/-- A line of numbers adds the clause it starts with, if there is one. -/
theorem NumberLine.readLine {line : List Char} {ns : List Int} (h : NumberLine line ns)
    (cap : Capacity) (r : CnfReader) : ∃ r', readLine cap r line = .ok r' ∧
      r'.clauses = r.clauses ++ (kept [ns]).map (fun c => c.map Literal.mk) := by
  cases line with
  | nil =>
      have hns : ns = [] := by simpa [words] using h.numerals.symm
      subst hns
      exact ⟨r, rfl, (List.append_nil _).symm⟩
  | cons c cs =>
      refine ⟨readClause cap r (c :: cs), ?_, ?_⟩
      · rw [Fabko.Sat.readLine, if_neg h.head_ne.1, if_neg h.head_ne.2]
      · unfold readClause
        dsimp only
        rw [h.lineLiterals]
        by_cases hnil : upToZero ns = []
        · simp [hnil, kept, nonBlank]
        · simp [hnil, kept, nonBlank]

theorem kept_cons (ns : List Int) (body : List (List Int)) :
    kept (ns :: body) = kept [ns] ++ kept body := by
  by_cases hnil : upToZero ns = []
  · rw [kept_cons_of_eq_nil hnil, kept_cons_of_eq_nil hnil]
    rfl
  · rw [kept_cons_of_ne hnil, kept_cons_of_ne hnil]
    rfl

theorem Body.readLines {cap : Capacity} {lines : List (List Char)} {body : List (List Int)}
    (h : Body lines body) (r : CnfReader) : ∃ r', readLines cap r lines = .ok r' ∧
      r'.clauses = r.clauses ++ (kept body).map (fun c => c.map Literal.mk) := by
  induction h generalizing r with
  | nil => exact ⟨r, rfl, (List.append_nil _).symm⟩
  | comment hline _ ih =>
      obtain ⟨r', hr, hclauses⟩ := ih r
      exact ⟨r', by rw [Fabko.Sat.readLines, hline.readLine]; exact hr, hclauses⟩
  | @numbers line ns lines ts hline _ ih =>
      obtain ⟨r₁, hr₁, hclauses₁⟩ := hline.readLine cap r
      obtain ⟨r', hr, hclauses⟩ := ih r₁
      refine ⟨r', by rw [Fabko.Sat.readLines, hr₁]; exact hr, ?_⟩
      rw [hclauses, hclauses₁, kept_cons ns ts, List.map_append, List.append_assoc]

theorem readLines_append {cap : Capacity} {r r' : CnfReader} {lines lines' : List (List Char)}
    (h : readLines cap r (lines ++ lines') = .ok r') :
    ∃ r₁, readLines cap r lines = .ok r₁ ∧ readLines cap r₁ lines' = .ok r' := by
  induction lines generalizing r with
  | nil => exact ⟨r, rfl, h⟩
  | cons line lines ih =>
      rw [List.cons_append, readLines] at h
      split at h
      · cases h
      · rename_i r₂ hline
        obtain ⟨r₁, hr₁, hrest⟩ := ih h
        exact ⟨r₁, by rw [readLines, hline]; exact hr₁, hrest⟩

/-- A blank line is a line of no numbers. -/
theorem numberLine_nil {line : List Char} (h : words line = []) : NumberLine line [] :=
  ⟨by rw [h]; rfl, fun _ hn => nomatch hn⟩

theorem clauses_of_readLines_before {cap : Capacity} {r r' : CnfReader} {lines : List (List Char)}
    (h : ∀ line ∈ lines, CommentLine line ∨ words line = [])
    (hr : readLines cap r lines = .ok r') : r'.clauses = r.clauses := by
  induction lines generalizing r with
  | nil =>
      cases hr
      rfl
  | cons line lines ih =>
      have hrest := fun l hl => h l (List.mem_cons_of_mem line hl)
      rcases h line List.mem_cons_self with hline | hline
      · rw [readLines, hline.readLine] at hr
        exact ih hrest hr
      · obtain ⟨r₁, hr₁, hclauses⟩ := (numberLine_nil hline).readLine cap r
        rw [readLines, hr₁] at hr
        rw [ih hrest hr, hclauses]
        exact List.append_nil _

theorem clauses_of_readHeader {cap : Capacity} {r r' : CnfReader} {line : List Char}
    (h : readHeader cap r line = .ok r') : r'.clauses = r.clauses := by
  unfold readHeader at h
  dsimp only at h
  repeat' split at h
  all_goals cases h
  rfl

theorem HeaderLine.clauses {cap : Capacity} {r r' : CnfReader} {line : List Char} {v c : Nat}
    (h : HeaderLine line v c) (hr : readLine cap r line = .ok r') : r'.clauses = r.clauses := by
  cases line with
  | nil => cases h.start
  | cons d ds =>
      have hd : d = 'p' := Option.some.inj h.start
      rw [readLine, if_neg (by rw [hd]; decide), if_pos hd] at hr
      exact clauses_of_readHeader hr

/-- **What is read** of a valid text: from each line the numbers before the first 0. -/
theorem DimacsText.clauses {s : List Char} {body cs : List (List Int)} (h : DimacsText s body cs)
    {cap : Capacity} {ndebug : Bool} {m : Model}
    (hm : makeModelFromCnfFile cap ndebug (.text s) = .ok m) :
    m.clauses = (kept body).map (fun c => c.map Literal.mk) := by
  obtain ⟨s', r, hs, hr, rfl⟩ := exists_reader_of_makeModel hm
  rw [CnfFile.text.injEq] at hs
  subst hs
  obtain ⟨before, header, after, v, hlines, hbefore, hheader, hbody⟩ := h.lines
  rw [hlines] at hr
  obtain ⟨r₁, hr₁, hr⟩ := readLines_append hr
  rw [readLines] at hr
  split at hr
  · cases hr
  · rename_i r₂ hr₂
    obtain ⟨r₃, hr₃, hclauses⟩ := @Body.readLines cap _ _ hbody r₂
    rw [hr, Except.ok.injEq] at hr₃
    show r.clauses = _
    rw [hr₃, hclauses, hheader.clauses hr₂, clauses_of_readLines_before hbefore hr₁]
    rfl

/-! ## Layout -/

theorem kept_nonBlank (body : List (List Int)) : kept (nonBlank body) = kept body := by
  induction body with
  | nil => rfl
  | cons ns body ih =>
      by_cases hnil : ns = []
      · rw [hnil, nonBlank_nil_cons, ih]
        rfl
      · rw [nonBlank_cons_of_ne hnil, kept_cons, ih, ← kept_cons]

theorem flatten_nonBlank (body : List (List Int)) : (nonBlank body).flatten = body.flatten :=
  List.flatten_filter_ne_nil

theorem ne_nil_of_mem_nonBlank {ns : List Int} {body : List (List Int)}
    (h : ns ∈ nonBlank body) : ns ≠ [] := of_decide_eq_true (List.mem_filter.mp h).2

/-- The number of literals among some numbers. -/
def literalCount (ns : List Int) : Nat := ns.countP (fun n => decide (n ≠ 0))

theorem literalCount_append (ns ns' : List Int) :
    literalCount (ns ++ ns') = literalCount ns + literalCount ns' := List.countP_append

theorem literalCount_terminated {cs : List (List Int)} (h : ∀ c ∈ cs, 0 ∉ c) :
    literalCount (terminated cs) = cs.flatten.length := by
  induction cs with
  | nil => rfl
  | cons c cs ih =>
      have hc : literalCount c = c.length := by
        refine List.countP_eq_length.mpr (fun n hn => decide_eq_true ?_)
        rintro rfl
        exact h c List.mem_cons_self hn
      have hcs := ih (fun c' hc' => h c' (List.mem_cons_of_mem c hc'))
      show literalCount ((c ++ [0]) ++ terminated cs) = (c ++ cs.flatten).length
      rw [literalCount_append, literalCount_append, hc, hcs, List.length_append]
      rfl

theorem length_upToZero_le (ns : List Int) : (upToZero ns).length ≤ literalCount ns := by
  induction ns with
  | nil => exact Nat.le_refl 0
  | cons n ns ih =>
      by_cases hz : n = 0
      · rw [hz, upToZero_zero]
        exact Nat.zero_le _
      · rw [upToZero_cons_of_ne hz, literalCount, List.countP_cons_of_pos (by simpa using hz)]
        exact Nat.succ_le_succ ih

/-- Literals are dropped, never made up. -/
theorem length_flatten_kept_le (body : List (List Int)) :
    (kept body).flatten.length ≤ literalCount body.flatten := by
  induction body with
  | nil => exact Nat.le_refl 0
  | cons ns body ih =>
      rw [List.flatten_cons, literalCount_append]
      by_cases hnil : upToZero ns = []
      · rw [kept_cons_of_eq_nil hnil]
        omega
      · rw [kept_cons_of_ne hnil, List.flatten_cons, List.length_append]
        have := length_upToZero_le ns
        omega

section Layout

variable {cs body : List (List Int)}

theorem terminated_cons (c : List Int) (cs : List (List Int)) :
    terminated (c :: cs) = c ++ 0 :: terminated cs := by
  simp [terminated]

/-- What starts with a clause starts with a literal. -/
theorem head_ne_zero {c ns rest : List Int} {n : Int} (hne : c ≠ []) (hz : 0 ∉ c)
    (h : n :: ns = c ++ rest) : n ≠ 0 := by
  obtain ⟨lit, c, rfl⟩ := List.exists_cons_of_ne_nil hne
  rw [List.cons_append, List.cons.injEq] at h
  rintro rfl
  exact hz (h.1 ▸ List.mem_cons_self)

/-- Where every literal is kept, none was dropped before the lines. -/
theorem eq_nil_of_kept {ns : List Int} (hne : ∀ c ∈ cs, c ≠ []) (hz : ∀ c ∈ cs, 0 ∉ c)
    (hns : ns ++ body.flatten = terminated cs) (hk : kept body = cs) : ns = [] := by
  have hcount : literalCount ns + literalCount body.flatten = cs.flatten.length := by
    rw [← literalCount_append, hns, literalCount_terminated hz]
  have hle := length_flatten_kept_le body
  rw [hk] at hle
  have hzero : literalCount ns = 0 := by omega
  cases ns with
  | nil => rfl
  | cons n ns =>
      -- the numbers start with the first literal of a clause
      cases cs with
      | nil => cases hns
      | cons c cs =>
          rw [terminated_cons, List.cons_append] at hns
          have hlit : n ≠ 0 := head_ne_zero (hne c List.mem_cons_self) (hz c List.mem_cons_self) hns
          rw [literalCount, List.countP_cons_of_pos (by simpa using hlit)] at hzero
          omega

theorem upToZero_append_zero {c : List Int} (hc : 0 ∉ c) (ns : List Int) :
    upToZero (c ++ 0 :: ns) = c := by
  rw [upToZero, List.takeWhile_append_of_pos]
  · simp
  · intro n hn
    apply decide_eq_true
    rintro rfl
    exact hc hn

theorem upToZero_of_not_mem {c : List Int} (hc : 0 ∉ c) : upToZero c = c := by
  refine List.takeWhile_eq_self_iff.mpr (fun n hn => decide_eq_true ?_)
  rintro rfl
  exact hc hn

theorem ClausePerLine.kept_eq (h : ClausePerLine body cs) (hne : ∀ c ∈ cs, c ≠ [])
    (hz : ∀ c ∈ cs, 0 ∉ c) : kept body = cs := by
  induction h with
  | nil => rfl
  | @ended c ts cs _ ih =>
      have hc := upToZero_append_zero (hz c List.mem_cons_self) []
      have hcne : upToZero (c ++ [0]) ≠ [] := by
        rw [hc]
        exact hne c List.mem_cons_self
      rw [kept_cons_of_ne hcne, hc, ih (fun d hd => hne d (List.mem_cons_of_mem c hd))
        (fun d hd => hz d (List.mem_cons_of_mem c hd))]
  | @endedBelow c ts cs _ ih =>
      have hc := upToZero_of_not_mem (hz c List.mem_cons_self)
      have hcne : upToZero c ≠ [] := by
        rw [hc]
        exact hne c List.mem_cons_self
      rw [kept_cons_of_ne hcne, hc, kept_cons_of_eq_nil (upToZero_zero []),
        ih (fun d hd => hne d (List.mem_cons_of_mem c hd))
          (fun d hd => hz d (List.mem_cons_of_mem c hd))]

/-- A line is its literals up to the first 0 and, if there is a 0, what comes after it. -/
theorem eq_upToZero_or (ns : List Int) :
    upToZero ns = ns ∨ ∃ rest, ns = upToZero ns ++ 0 :: rest := by
  induction ns with
  | nil => exact Or.inl rfl
  | cons n ns ih =>
      by_cases hz : n = 0
      · exact Or.inr ⟨ns, by rw [hz, upToZero_zero]; rfl⟩
      · rw [upToZero_cons_of_ne hz]
        rcases ih with h | ⟨rest, h⟩
        · exact Or.inl (by rw [h])
        · exact Or.inr ⟨rest, by rw [List.cons_append, ← h]⟩

theorem clausePerLine_of_kept (hblank : ∀ ns ∈ body, ns ≠ []) (hne : ∀ c ∈ cs, c ≠ [])
    (hz : ∀ c ∈ cs, 0 ∉ c) (hns : body.flatten = terminated cs) (hk : kept body = cs) :
    ClausePerLine body cs := by
  induction cs generalizing body with
  | nil =>
      cases body with
      | nil => exact ClausePerLine.nil
      | cons ns body =>
          have hnil : ns ++ body.flatten = [] := hns
          exact absurd (List.append_eq_nil_iff.mp hnil).1 (hblank ns List.mem_cons_self)
  | cons c cs ih =>
      have hne' : ∀ d ∈ cs, d ≠ [] := fun d hd => hne d (List.mem_cons_of_mem c hd)
      have hz' : ∀ d ∈ cs, 0 ∉ d := fun d hd => hz d (List.mem_cons_of_mem c hd)
      rw [terminated_cons] at hns
      cases body with
      | nil => cases hk
      | cons ns body =>
          rw [List.flatten_cons] at hns
          have hbody : ∀ ns' ∈ body, ns' ≠ [] := fun ns' h' =>
            hblank ns' (List.mem_cons_of_mem ns h')
          -- the first line starts with a literal, as the first clause does
          have hfirst : upToZero ns ≠ [] := by
            obtain ⟨n, ns, rfl⟩ := List.exists_cons_of_ne_nil (hblank ns List.mem_cons_self)
            rw [List.cons_append] at hns
            rw [upToZero_cons_of_ne
              (head_ne_zero (hne c List.mem_cons_self) (hz c List.mem_cons_self) hns)]
            exact List.cons_ne_nil _ _
          rw [kept_cons_of_ne hfirst, List.cons.injEq] at hk
          obtain ⟨hc, hk⟩ := hk
          rcases eq_upToZero_or ns with hall | ⟨rest, hsplit⟩
          · -- the 0 is on the next line
            rw [hall] at hc
            rw [hc, List.append_cancel_left_eq] at hns
            cases body with
            | nil => cases hns
            | cons ns' body =>
                obtain ⟨n, ns', rfl⟩ := List.exists_cons_of_ne_nil (hbody ns' List.mem_cons_self)
                rw [List.flatten_cons, List.cons_append, List.cons.injEq] at hns
                obtain ⟨rfl, hns⟩ := hns
                rw [kept_cons_of_eq_nil (upToZero_zero ns')] at hk
                have hnil := eq_nil_of_kept hne' hz' hns hk
                rw [hnil, List.nil_append] at hns
                rw [hnil, hc]
                exact (ih (fun d hd => hbody d (List.mem_cons_of_mem _ hd)) hne' hz' hns
                  hk).endedBelow
          · -- the line has the 0, and nothing may follow it
            rw [hc] at hsplit
            rw [hsplit, List.append_assoc, List.cons_append, List.append_cancel_left_eq,
              List.cons.injEq] at hns
            have hnil := eq_nil_of_kept hne' hz' hns.2 hk
            rw [hnil] at hsplit
            rw [hsplit]
            refine (ih hbody hne' hz' ?_ hk).ended
            simpa [hnil] using hns.2

end Layout

/-- **When the formula survives.** Of a valid text for the clauses `cs` from which a model is
returned, with the assertions compiled in or out, the model has exactly these clauses if and only
if the text gives each clause a line of its own. -/
theorem makeModelFromCnfFile_clauses_iff {cap : Capacity} {ndebug : Bool} {s : List Char}
    {body cs : List (List Int)} {m : Model} (ht : DimacsText s body cs)
    (h : makeModelFromCnfFile cap ndebug (.text s) = .ok m) :
    m.clauses = cs.map (fun c => c.map Literal.mk) ↔ ClausePerLine (nonBlank body) cs := by
  have hmk : Function.Injective (fun c : List Int => c.map Literal.mk) :=
    List.map_injective_iff.mpr (fun n n' heq => Literal.mk.inj heq)
  rw [ht.clauses h, (List.map_injective_iff.mpr hmk).eq_iff, ← kept_nonBlank]
  constructor
  · intro hk
    refine clausePerLine_of_kept (fun ns hns => ne_nil_of_mem_nonBlank hns) ht.nonempty ht.nonzero
      ?_ hk
    rw [flatten_nonBlank, ht.numbers]
  · intro hlayout
    exact hlayout.kept_eq ht.nonempty ht.nonzero

/-- A comment, and the 0 of the second clause on a line of its own. -/
def oneByOne : List Char := "c a comment\np cnf 3 2\n1 -3 0\n\n2 3 -1\n 0\n".toList

theorem dimacsText_oneByOne :
    DimacsText oneByOne [[1, -3, 0], [], [2, 3, -1], [0]] [[1, -3], [2, 3, -1]] where
  lines := by
    refine ⟨["c a comment".toList], "p cnf 3 2".toList,
      ["1 -3 0".toList, [], "2 3 -1".toList, " 0".toList], 3, ?_, ?_, ?_, ?_⟩
    · decide +kernel
    · decide +kernel
    · refine ⟨?_, ['3'], ['2'], ?_, ?_, ?_⟩ <;> decide +kernel
    · apply Body.numbers ⟨by decide +kernel, by decide +kernel⟩
      apply Body.numbers ⟨by decide +kernel, by decide +kernel⟩
      apply Body.numbers ⟨by decide +kernel, by decide +kernel⟩
      apply Body.numbers ⟨by decide +kernel, by decide +kernel⟩
      exact Body.nil
  numbers := by decide
  nonempty := by decide
  nonzero := by decide

theorem makeModelFromCnfFile_clauses_iff_oneByOne :
    ∃ m, makeModelFromCnfFile libstdcxx false (.text oneByOne) = .ok m ∧
      (m.clauses = [[1, -3], [2, 3, -1]].map (fun c => c.map Literal.mk) ↔
        ClausePerLine (nonBlank [[1, -3, 0], [], [2, 3, -1], [0]]) [[1, -3], [2, 3, -1]]) := by
  have hrun : makeModelFromCnfFile libstdcxx false (.text oneByOne)
      = .ok ⟨[⟨1⟩, ⟨2⟩, ⟨3⟩], [[⟨1⟩, ⟨-3⟩], [⟨2⟩, ⟨3⟩, ⟨-1⟩]], {}⟩ := by decide +kernel
  exact ⟨_, hrun, makeModelFromCnfFile_clauses_iff dimacsText_oneByOne hrun⟩

/-- The clauses `1 2` and `-1`, the first spread over two lines. -/
def spread : List Char := "p cnf 2 2\n1\n2 0 -1 0\n".toList

theorem dimacsText_spread : DimacsText spread [[1], [2, 0, -1, 0]] [[1, 2], [-1]] where
  lines := by
    refine ⟨[], "p cnf 2 2".toList, ["1".toList, "2 0 -1 0".toList], 2, ?_, ?_, ?_, ?_⟩
    · decide +kernel
    · decide +kernel
    · refine ⟨?_, ['2'], ['2'], ?_, ?_, ?_⟩ <;> decide +kernel
    · apply Body.numbers ⟨by decide +kernel, by decide +kernel⟩
      apply Body.numbers ⟨by decide +kernel, by decide +kernel⟩
      exact Body.nil
  numbers := by decide
  nonempty := by decide
  nonzero := by decide

/-- Both counts agree with the header, so the assertions do not notice. -/
theorem makeModelFromCnfFile_clauses_ne_spread :
    DimacsText spread [[1], [2, 0, -1, 0]] [[1, 2], [-1]] ∧ ∀ ndebug,
      ∃ m, makeModelFromCnfFile libstdcxx ndebug (.text spread) = .ok m ∧
        m.clauses ≠ [[1, 2], [-1]].map (fun c => c.map Literal.mk) := by
  refine ⟨dimacsText_spread, fun ndebug => ?_⟩
  have hrun : makeModelFromCnfFile libstdcxx ndebug (.text spread)
      = .ok ⟨[⟨1⟩, ⟨2⟩], [[⟨1⟩], [⟨2⟩]], {}⟩ := by
    cases ndebug <;> decide +kernel
  exact ⟨_, hrun, by decide +kernel⟩

end Fabko.Sat
