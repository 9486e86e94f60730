import Mathlib.Data.List.SplitBy
import RelQuery.Proofs.Compile.Assembly
import RelQuery.Proofs.Grammar.Written
import RelQuery.Proofs.Text.Told

/-!
# The text of a compiled formula

The scalars in a formula are found by a search for names that stand between word boundaries.  Such a
search cannot stop inside a word: a boundary lies only between a word and what is no word, so a name
that is found is a whole word, and a word is found exactly if all of it is a name.  The text that is
compiled is therefore the text of the formula, cut into words and what stands between them, with
those words replaced that are names of scalars.
-/

namespace RelQuery

namespace Text

/-! ## Runs -/

/-- A text is cut into runs: none is empty, each has only word characters or none, and of two
neighbours one has word characters and the other has none. -/
structure IsRuns (runs : List (List Char)) (text : List Char) : Prop where
  flatten_eq : runs.flatten = text
  ne_nil : ∀ run ∈ runs, run ≠ []
  uniform : ∀ run ∈ runs, ∀ c ∈ run, ∀ d ∈ run, isWordChar c = isWordChar d
  alternate : runs.IsChain fun run next => ∀ c ∈ run, ∀ d ∈ next, isWordChar c ≠ isWordChar d

def runs (text : List Char) : List (List Char) :=
  text.splitBy fun c d => isWordChar c == isWordChar d

section Runs

variable {text run : List Char} {rs : List (List Char)}

/-- Characters that do not change class from one to the next are all of one class. -/
theorem uniform_iff_isChain :
    (∀ c ∈ run, ∀ d ∈ run, isWordChar c = isWordChar d) ↔
      run.IsChain fun c d => (isWordChar c == isWordChar d) = true := by
  simp only [beq_iff_eq]
  constructor
  · intro h
    exact (List.pairwise_of_forall_mem_list fun c hc d hd => h c hc d hd).isChain
  · intro h c hc d hd
    have : IsTrans Char fun c d => isWordChar c = isWordChar d := ⟨fun _ _ _ => Eq.trans⟩
    exact List.Pairwise.forall_of_forall (R := fun c d => isWordChar c = isWordChar d)
      (fun _ _ => rfl) h.pairwise hc hd

/-- A text has one cut into runs. -/
theorem isRuns_iff : IsRuns rs text ↔ rs = runs text := by
  rw [eq_comm, runs, List.splitBy_eq_iff]
  constructor
  · rintro ⟨rfl, hne, huniform, halternate⟩
    refine ⟨rfl, fun hnil => hne _ hnil rfl, fun m hm => uniform_iff_isChain.mp (huniform m hm), ?_⟩
    refine halternate.imp_of_mem_imp fun run next hrun hnext h => ?_
    refine ⟨hne run hrun, hne next hnext, ?_⟩
    simpa using h _ (List.getLast_mem _) _ (List.head_mem _)
  · rintro ⟨rfl, hne, hchain, halternate⟩
    have huniform := fun m hm => uniform_iff_isChain.mpr (hchain m hm)
    refine ⟨rfl, fun run hrun hnil => hne (hnil ▸ hrun), huniform, ?_⟩
    refine halternate.imp_of_mem_imp fun run next hrun hnext h c hc d hd => ?_
    obtain ⟨hlast, hhead, hne⟩ := h
    rw [huniform run hrun c hc _ (List.getLast_mem hlast),
      huniform next hnext d hd _ (List.head_mem hhead)]
    simpa using hne

end Runs

/-! ## Names found in runs -/

theorem isWordChar_of_isNameChar {c : Char} (h : isNameChar c = true) : isWordChar c = true := by
  have hascii : ∀ n < 128, (isNameChar (Char.ofNat n) = true → isWordChar (Char.ofNat n) = true) := by
    decide
  have hlt : c.toNat < 128 := by
    delta isNameChar Char.isAlphanum Char.isAlpha Char.isUpper Char.isLower Char.isDigit at h
    simp only [Bool.or_eq_true, Bool.and_eq_true, decide_eq_true_eq, beq_iff_eq] at h
    rw [Char.toNat]
    rcases h with ((⟨-, h⟩ | ⟨-, h⟩) | ⟨-, h⟩) | rfl
    · exact Nat.lt_of_le_of_lt h (by decide)
    · exact Nat.lt_of_le_of_lt h (by decide)
    · exact Nat.lt_of_le_of_lt h (by decide)
    · decide
  have hchar := hascii c.toNat hlt
  rw [Char.ofNat_toNat] at hchar
  exact hchar h

theorem isNameChar_eq_false {c : Char} (h : isWordChar c = false) : isNameChar c = false := by
  by_contra hname
  rw [isWordChar_of_isNameChar (by simpa using hname)] at h
  cases h

section Search

variable {replace : List Char → List Char} {before : Option Char} {last : Char}
variable {run rest : List Char}

/-- Behind a character of a word the name goes on to the end of the word or is none. -/
theorem nameTail?_append (hlast : isWordChar last = true) (hrun : ∀ c ∈ run, isWordChar c = true)
    (hrest : Ends isWordChar rest) :
    nameTail? last (run ++ rest) = if run.all isNameChar then some run else none := by
  induction run generalizing last with
  | nil =>
      cases rest with
      | nil => simp [nameTail?, isBoundary, hlast]
      | cons c rest =>
          have hc : isWordChar c = false := ends_cons.mp hrest
          have hname := isNameChar_eq_false hc
          simp [nameTail?, isBoundary, hlast, hc, hname]
  | cons c run ih =>
      rw [List.forall_mem_cons] at hrun
      rw [List.cons_append, nameTail?, ih hrun.1 hrun.2]
      by_cases hname : isNameChar c = true
      · by_cases hall : run.all isNameChar = true <;> simp [isBoundary, hlast, hrun.1, hname, hall]
      · simp [isBoundary, hlast, hrun.1, hname]

/-- At the start of a word its name is found, if it is one. -/
theorem nameHere?_append (hbefore : before.any isWordChar = false) (hne : run ≠ [])
    (hrun : ∀ c ∈ run, isWordChar c = true) (hrest : Ends isWordChar rest) :
    nameHere? before (run ++ rest) = if isIdentifier run then some run else none := by
  obtain ⟨c, run, rfl⟩ := List.exists_cons_of_ne_nil hne
  rw [List.forall_mem_cons] at hrun
  have hboundary : isBoundary before (some c) = true := by simp [isBoundary, hbefore, hrun.1]
  rw [List.cons_append, nameHere?, hboundary, nameTail?_append hrun.1 hrun.2 hrest]
  by_cases hstart : isNameStart c = true
  · have hname : isNameChar c = true := Grammar.isNameChar_of_isNameStart hstart
    by_cases hall : run.all isNameChar = true <;> simp [isIdentifier, hstart, hname, hall]
  · simp [isIdentifier, hstart]

/-- Between two word characters, and before what is no word character, no name is found. -/
theorem nameHere?_eq_none {c : Char} {cs : List Char}
    (h : before.any isWordChar = true ∨ isWordChar c = false) : nameHere? before (c :: cs) = none := by
  rw [nameHere?, if_neg]
  intro hfound
  rw [Bool.and_eq_true] at hfound
  have hword := isWordChar_of_isNameChar (Grammar.isNameChar_of_isNameStart hfound.2)
  have hboundary : before.any isWordChar = false := by
    simpa [isBoundary, hword] using hfound.1
  rcases h with h | h
  · rw [hboundary] at h
    cases h
  · rw [hword] at h
    cases h

/-- The character behind which a text goes on, once a run of it is read. -/
def lastOf (before : Option Char) (run : List Char) : Option Char :=
  run.getLast?.or before

theorem lastOf_cons (before : Option Char) (c : Char) (run : List Char) :
    lastOf before (c :: run) = lastOf (some c) run := by
  cases run <;> simp [lastOf, List.getLast?_cons]

theorem mem_of_lastOf {c : Char} (hne : run ≠ []) (h : lastOf before run = some c) : c ∈ run := by
  rw [lastOf, List.getLast?_eq_some_getLast hne, Option.some_or, Option.some.injEq] at h
  exact h ▸ List.getLast_mem hne

theorem replaceNames_taken (before : Option Char) (run rest : List Char) :
    replaceNames replace before run.length (run ++ rest) =
      replaceNames replace (lastOf before run) 0 rest := by
  induction run generalizing before with
  | nil => rfl
  | cons c run ih => rw [lastOf_cons, ← ih]; rfl

theorem replaceNames_cons {c : Char} {cs : List Char} (h : nameHere? before (c :: cs) = none) :
    replaceNames replace before 0 (c :: cs) = c :: replaceNames replace (some c) 0 cs := by
  rw [replaceNames, h]

/-- Characters that are no word, and those inside a word, are left as they are. -/
theorem replaceNames_append
    (h : before.any isWordChar = true ∧ (∀ c ∈ run, isWordChar c = true) ∨
      ∀ c ∈ run, isWordChar c = false) :
    replaceNames replace before 0 (run ++ rest) =
      run ++ replaceNames replace (lastOf before run) 0 rest := by
  induction run generalizing before with
  | nil => rfl
  | cons c run ih =>
      simp only [List.forall_mem_cons] at h
      rw [List.cons_append, replaceNames_cons (nameHere?_eq_none (h.imp And.left And.left)), ih,
        lastOf_cons, List.cons_append]
      exact h.imp (fun h => ⟨h.2.1, h.2.2⟩) And.right

/-- A word is replaced as a whole or left as it is. -/
theorem replaceNames_word (hbefore : before.any isWordChar = false) (hne : run ≠ [])
    (hrun : ∀ c ∈ run, isWordChar c = true) (hrest : Ends isWordChar rest) :
    replaceNames replace before 0 (run ++ rest) =
      (if isIdentifier run then replace run else run) ++
        replaceNames replace (lastOf before run) 0 rest := by
  have hfound := nameHere?_append hbefore hne hrun hrest
  obtain ⟨c, run, rfl⟩ := List.exists_cons_of_ne_nil hne
  by_cases hname : isIdentifier (c :: run) = true
  · rw [if_pos hname] at hfound ⊢
    rw [List.cons_append] at hfound ⊢
    rw [replaceNames, hfound, lastOf_cons, ← replaceNames_taken]
    rfl
  · rw [if_neg hname] at hfound ⊢
    rw [List.forall_mem_cons] at hrun
    rw [List.cons_append] at hfound ⊢
    rw [replaceNames_cons hfound, replaceNames_append (.inl ⟨by simpa using hrun.1, hrun.2⟩), lastOf_cons]
    rfl

end Search

/-- The first character of a text that is cut into runs is in the first run. -/
theorem exists_mem_head? {rs : List (List Char)} (hne : ∀ run ∈ rs, run ≠ []) {c : Char}
    (hc : c ∈ rs.flatten.head?) : ∃ run ∈ rs.head?, c ∈ run := by
  cases rs with
  | nil => cases hc
  | cons run rs =>
      rw [List.flatten_cons, List.head?_append_of_ne_nil _ (hne run List.mem_cons_self)] at hc
      exact ⟨run, rfl, List.mem_of_head? hc⟩

/-- In a text that is cut into runs exactly the runs that are names are replaced. -/
theorem IsRuns.replaceNames_eq {replace : List Char → List Char} {before : Option Char}
    {rs : List (List Char)} {text : List Char} (h : IsRuns rs text)
    (hbefore : ∀ b ∈ before, ∀ run ∈ rs.head?, ∀ c ∈ run, isWordChar b ≠ isWordChar c) :
    replaceNames replace before 0 text =
      rs.flatMap fun run => if isIdentifier run then replace run else run := by
  obtain ⟨rfl, hne, huniform, halternate⟩ := h
  induction rs generalizing before with
  | nil => rfl
  | cons run rs ih =>
      rw [List.forall_mem_cons] at hne huniform
      rw [List.isChain_cons] at halternate
      have hlast : ∀ b ∈ lastOf before run, ∀ next ∈ rs.head?, ∀ d ∈ next,
          isWordChar b ≠ isWordChar d :=
        fun b hb next hnext d hd => halternate.1 next hnext b (mem_of_lastOf hne.1 hb) d hd
      have hrest := ih hlast hne.2 huniform.2 halternate.2
      obtain ⟨c, cs, rfl⟩ := List.exists_cons_of_ne_nil hne.1
      have hclass := fun d hd => huniform.1 d hd c List.mem_cons_self
      rw [List.flatten_cons, List.flatMap_cons, ← hrest]
      cases hword : isWordChar c with
      | true =>
          simp only [hword] at hclass
          refine replaceNames_word ?_ hne.1 hclass fun d hd => ?_
          · cases before with
            | none => rfl
            | some b => simpa [hword] using hbefore b rfl _ rfl c List.mem_cons_self
          · obtain ⟨next, hnext, hd⟩ := exists_mem_head? hne.2 hd
            simpa [hword] using (halternate.1 next hnext c List.mem_cons_self d hd).symm
      | false =>
          simp only [hword] at hclass
          have hname : isIdentifier (c :: cs) = false := by
            simp [isIdentifier, isNameChar_eq_false hword]
          rw [replaceNames_append (.inr hclass), hname]
          rfl

end Text

namespace Compile

/-! ## Formulas -/

/-- A run of a formula, with the variable of a scalar in place of its name. -/
def renameRun (scope : Scope) (run : List Char) : List Char :=
  if Text.isIdentifier run && (scope.scalar? (String.ofList run)).isSome then
    (paramVar (String.ofList run)).toList
  else run

theorem renameScalars_eq (scope : Scope) (text : String) :
    renameScalars scope text =
      String.ofList ((Text.runs text.toList).flatMap (renameRun scope)) := by
  have hruns : Text.IsRuns (Text.runs text.toList) text.toList := Text.isRuns_iff.mpr rfl
  have hrename : renameRun scope =
      fun run => if Text.isIdentifier run then renameScalar scope run else run := by
    funext run
    cases hname : Text.isIdentifier run <;> simp [renameRun, renameScalar, hname]
  rw [renameScalars, hruns.replaceNames_eq (by simp), hrename]

end Compile

open Compile

/-- A compiled formula is the text of the formula, cut into runs, in which each run of word characters
that is as a whole the name of a scalar is replaced by the variable of the scalar.  All other runs
are left as they are. -/
theorem formula_text_replaces_runs (options : Options) (scope : Scope) (text : String)
    (span : Span) (names : FreshNames) :
    ∃ runs, Text.IsRuns runs text.toList ∧ (∀ other, Text.IsRuns other text.toList → other = runs) ∧
      renameScalars scope text = String.ofList (runs.flatMap (renameRun scope)) ∧
      ∀ c later, compile options scope (.formula text span) names = .ok (c, later) →
        ∃ head grounding value, c.program.rules =
          [⟨head, grounding ++ [.assign value (.raw (renameScalars scope text))]⟩] := by
  refine ⟨Text.runs text.toList, Text.isRuns_iff.mpr rfl, fun other => Text.isRuns_iff.mp,
    renameScalars_eq scope text, fun c later h => ?_⟩
  simp only [compile, define_eq_ok] at h
  obtain ⟨em, block, hemit, hblock, rfl⟩ := h
  obtain ⟨result, value, grounding, -, -, -, -, rfl⟩ := emitFormula_ok hemit
  refine ⟨result.atomOf [value], grounding, value, ?_⟩
  rw [Datalog.Program.rules_eq, Datalog.Program.flatten, List.nil_append,
    Datalog.Command.flattenAll_eq_self (flatten_of_mem_siteCommands hblock),
    rules_siteCommands hblock]
  rfl

namespace Sample

/-- A scope with a scalar `x` that ranges over a relation `r`. -/
def scalarScope : Scope :=
  ⟨[("x", .scalar ⟨.number, ⟨"r", [.var "x_e"]⟩, []⟩), ("r", .relation ⟨"r", [⟨.number, "r"⟩], []⟩)]⟩

/-- A formula in which the letter `x` is a word, stands in words and is next to what is no word. -/
def wordyFormula : String :=
  "x*r+xé-x²/3x%x_1"

end Sample

theorem sample_formula_text :
    Text.IsRuns (["x", "*", "r", "+", "xé", "-", "x", "²/", "3x", "%", "x_1"].map String.toList)
        Sample.wordyFormula.toList ∧
      ∃ c later head grounding value,
        compile ⟨true⟩ Sample.scalarScope (.formula Sample.wordyFormula .synthetic)
          (.inScope Sample.scalarScope) = .ok (c, later) ∧
        c.program.rules =
          [⟨head, grounding ++ [.assign value (.raw "x_e*r+xé-x_e²/3x%x_1")]⟩] := by
  have hruns : Text.runs Sample.wordyFormula.toList =
      ["x", "*", "r", "+", "xé", "-", "x", "²/", "3x", "%", "x_1"].map String.toList := by
    decide +kernel
  have hcut := Text.isRuns_iff.mpr hruns.symm
  refine ⟨hcut, ?_⟩
  obtain ⟨runs, -, hunique, htext, hrules⟩ := formula_text_replaces_runs ⟨true⟩ Sample.scalarScope
    Sample.wordyFormula .synthetic (.inScope Sample.scalarScope)
  have hname : renameScalars Sample.scalarScope Sample.wordyFormula = "x_e*r+xé-x_e²/3x%x_1" := by
    rw [htext, ← hunique _ hcut]
    decide +kernel
  obtain ⟨head, grounding, value, hrule⟩ := hrules _ _ rfl
  rw [hname] at hrule
  exact ⟨_, _, head, grounding, value, rfl, hrule⟩

end RelQuery
