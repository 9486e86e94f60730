import RelQuery.Proofs.Datalog.ScalarText
import RelQuery.Proofs.Text.Basic

/-!
# Texts on one line

Names, numbers and quoted symbols have no line breaks, and a comment loses those that it has.  So
the text of a command whose relations, attributes and variables have names is on one line, unless
there is a line break in a text that is printed as it is.
-/

namespace RelQuery.Datalog

open Text (IsName isNameChar)

/-! ## Texts without line breaks -/

/-- A text without a line break. -/
def OneLine (text : String) : Prop :=
  '\n' ∉ text.toList

instance (text : String) : Decidable (OneLine text) :=
  inferInstanceAs (Decidable (_ ∉ _))

@[simp] theorem oneLine_append {first second : String} :
    OneLine (first ++ second) ↔ OneLine first ∧ OneLine second := by
  simp [OneLine]

@[simp] theorem oneLine_commaSeparated {items : List String} :
    OneLine (commaSeparated items) ↔ ∀ item ∈ items, OneLine item := by
  have hsep : OneLine ", " := by decide
  induction items with
  | nil => exact iff_of_true (by decide) (by simp)
  | cons first rest ih =>
      rw [List.forall_mem_cons]
      cases rest with
      | nil => simp [commaSeparated]
      | cons second rest =>
          rw [commaSeparated, String.intercalate_cons_cons, oneLine_append, oneLine_append,
            ← commaSeparated]
          exact and_congr (and_iff_left hsep) ih

theorem oneLine_of_isName {name : String} (h : IsName name) : OneLine name := by
  intro hmem
  exact absurd (h.chars _ hmem) (by decide)

theorem oneLine_toString (n : Int) : OneLine (toString n) := by
  intro hmem
  exact absurd (Text.isDigit_of_mem_toString hmem) (by decide)

theorem oneLine_renderSymbol (value : String) : OneLine (renderSymbol value) := by
  have hescape : ∀ c, '\n' ∉ escapeSymbolChar c := by
    intro c
    unfold escapeSymbolChar
    split_ifs with h₁ h₂ h₃ h₄ h₅
    all_goals simp
    exact Ne.symm h₃
  simp [OneLine, renderSymbol, hescape]

theorem oneLine_onOneLine (text : String) : OneLine (onOneLine text) := by
  simp only [OneLine, onOneLine, String.toList_map, List.mem_map, not_exists, not_and]
  intro c _
  split_ifs with h
  · decide
  · exact h

/-! ## Words and raw texts -/

def Term.words : Term → List String
  | .var name => [name]
  | _ => []

mutual

def ScalarExpr.words : ScalarExpr → List String
  | .term t => t.words
  | .binary _ left right => left.words ++ right.words
  | .cat parts => ScalarExpr.wordsAll parts
  | .raw _ => []

def ScalarExpr.wordsAll : List ScalarExpr → List String
  | [] => []
  | part :: rest => part.words ++ ScalarExpr.wordsAll rest

end

mutual

/-- The texts in an expression that are printed as they are. -/
def ScalarExpr.rawTexts : ScalarExpr → List String
  | .term _ => []
  | .binary _ left right => left.rawTexts ++ right.rawTexts
  | .cat parts => ScalarExpr.rawTextsAll parts
  | .raw text => [text]

def ScalarExpr.rawTextsAll : List ScalarExpr → List String
  | [] => []
  | part :: rest => part.rawTexts ++ ScalarExpr.rawTextsAll rest

end

def Atom.words (atom : Atom) : List String :=
  atom.relation :: atom.args.flatMap Term.words

def Aggregate.words (a : Aggregate) : List String :=
  a.result :: (a.target.toList ++ a.atom.words)

def Literal.words : Literal → List String
  | .positive atom | .negated atom => atom.words
  | .aggregate a => a.words
  | .constraint left _ right => left.words ++ right.words

def Literal.rawTexts : Literal → List String
  | .constraint left _ right => left.rawTexts ++ right.rawTexts
  | _ => []

/-- The names of relations and variables in a rule. -/
def Rule.words (rule : Rule) : List String :=
  rule.head.words ++ rule.body.flatMap Literal.words

def Rule.rawTexts (rule : Rule) : List String :=
  rule.body.flatMap Literal.rawTexts

/-- The names of the relation and its attributes, and those in choice domains. -/
def Decl.words (decl : Decl) : List String :=
  decl.relation :: (decl.attributes.map Attribute.name ++ decl.choiceDomains.flatten)

def Command.words : Command → List String
  | .rule r => r.words
  | .decl d => d.words
  | .input relation | .output relation => [relation]
  | _ => []

def Command.rawTexts : Command → List String
  | .rule r => r.rawTexts
  | .raw text => [text]
  | _ => []

/-! ## Texts of commands -/

theorem Term.oneLine_render {t : Term} (h : ∀ word ∈ t.words, IsName word) : OneLine t.render := by
  cases t with
  | var name => exact oneLine_of_isName (h name List.mem_cons_self)
  | wildcard => decide
  | number value => exact oneLine_toString value
  | symbol value => exact oneLine_renderSymbol value

theorem ArithOp.oneLine_symbol (op : ArithOp) : OneLine op.symbol := by
  cases op <;> decide

theorem Comparison.oneLine_symbol (op : Comparison) : OneLine op.symbol := by
  cases op <;> decide

mutual

theorem ScalarExpr.oneLine_render_iff : ∀ {e : ScalarExpr}, (∀ word ∈ e.words, IsName word) →
    (OneLine e.render ↔ ∀ text ∈ e.rawTexts, OneLine text)
  | .term t, h => iff_of_true (Term.oneLine_render h) (by simp [rawTexts])
  | .binary op left right, h => by
      rw [words, List.forall_mem_append] at h
      have hleft := ScalarExpr.oneLine_render_iff h.1
      have hright := ScalarExpr.oneLine_render_iff h.2
      have hsigns : OneLine "(" ∧ OneLine " " ∧ OneLine ")" := by decide
      simp only [render, rawTexts, oneLine_append, List.forall_mem_append, hleft, hright,
        op.oneLine_symbol, hsigns, and_true, true_and]
  | .cat parts, h => by
      have hparts := ScalarExpr.oneLine_renderAll_iff h
      have hsigns : OneLine "cat(" ∧ OneLine ")" := by decide
      simp only [render, rawTexts, oneLine_append, oneLine_commaSeparated, hparts, hsigns, and_true,
        true_and]
  | .raw text, _ => by
      have hsigns : OneLine "(" ∧ OneLine ")" := by decide
      simp only [render, rawTexts, oneLine_append, hsigns, List.forall_mem_singleton, and_true,
        true_and]

theorem ScalarExpr.oneLine_renderAll_iff : ∀ {parts : List ScalarExpr},
    (∀ word ∈ ScalarExpr.wordsAll parts, IsName word) →
      ((∀ item ∈ ScalarExpr.renderAll parts, OneLine item) ↔
        ∀ text ∈ ScalarExpr.rawTextsAll parts, OneLine text)
  | [], _ => by simp [renderAll, rawTextsAll]
  | part :: rest, h => by
      rw [wordsAll, List.forall_mem_append] at h
      rw [renderAll, rawTextsAll, List.forall_mem_cons, List.forall_mem_append,
        ScalarExpr.oneLine_render_iff h.1, ScalarExpr.oneLine_renderAll_iff h.2]

end

theorem Atom.oneLine_render {atom : Atom} (h : ∀ word ∈ atom.words, IsName word) :
    OneLine atom.render := by
  rw [words, List.forall_mem_cons] at h
  have hsigns : OneLine "(" ∧ OneLine ")" := by decide
  have hargs : OneLine (commaSeparated (atom.args.map Term.render)) := by
    rw [oneLine_commaSeparated, List.forall_mem_map]
    exact fun t ht => Term.oneLine_render fun word hword =>
      h.2 word (List.mem_flatMap.mpr ⟨t, ht, hword⟩)
  simp only [render, oneLine_append, oneLine_of_isName h.1, hsigns, hargs, and_true]

theorem Aggregate.oneLine_render {a : Aggregate} (h : ∀ word ∈ a.words, IsName word) :
    OneLine a.render := by
  rw [words, List.forall_mem_cons, List.forall_mem_append] at h
  have hsigns : OneLine " = " ∧ OneLine " : \x7b " ∧ OneLine " \x7d" := by decide
  have hfunction : OneLine a.function.render := by cases a.function <;> decide
  have htarget : OneLine a.renderTarget := by
    unfold renderTarget
    cases htarget : a.target with
    | none => decide
    | some target =>
        have hblank : OneLine " " := by decide
        exact oneLine_append.mpr ⟨hblank, oneLine_of_isName (h.2.1 target (by simp [htarget]))⟩
  simp only [render, oneLine_append, oneLine_of_isName h.1, hsigns, hfunction, htarget,
    Atom.oneLine_render h.2.2, and_true]

theorem Literal.oneLine_render_iff {l : Literal} (h : ∀ word ∈ l.words, IsName word) :
    OneLine l.render ↔ ∀ text ∈ l.rawTexts, OneLine text := by
  cases l with
  | positive atom => exact iff_of_true (Atom.oneLine_render h) (by simp [rawTexts])
  | negated atom =>
      have hsign : OneLine "!" := by decide
      exact iff_of_true (oneLine_append.mpr ⟨hsign, Atom.oneLine_render h⟩) (by simp [rawTexts])
  | aggregate a => exact iff_of_true (Aggregate.oneLine_render h) (by simp [rawTexts])
  | constraint left op right =>
      rw [words, List.forall_mem_append] at h
      have hblank : OneLine " " := by decide
      simp only [render, rawTexts, oneLine_append, List.forall_mem_append,
        ScalarExpr.oneLine_render_iff h.1, ScalarExpr.oneLine_render_iff h.2,
        Comparison.oneLine_symbol op, hblank, and_true]

theorem Rule.oneLine_render_iff {rule : Rule} (h : ∀ word ∈ rule.words, IsName word) :
    OneLine rule.render ↔ ∀ text ∈ rule.rawTexts, OneLine text := by
  rw [words, List.forall_mem_append] at h
  have hsigns : OneLine " :- " ∧ OneLine "." := by decide
  have hbody : (∀ item ∈ rule.body.map Literal.render, OneLine item) ↔
      ∀ text ∈ rule.rawTexts, OneLine text := by
    have hliteral : ∀ l ∈ rule.body, OneLine l.render ↔ ∀ text ∈ l.rawTexts, OneLine text :=
      fun l hl => Literal.oneLine_render_iff fun word hword =>
        h.2 word (List.mem_flatMap.mpr ⟨l, hl, hword⟩)
    simp only [List.forall_mem_map, rawTexts, List.forall_mem_flatMap]
    exact forall₂_congr hliteral
  unfold render
  split
  · next hempty =>
      have hnil : rule.body = [] := List.isEmpty_iff.mp hempty
      refine iff_of_true (oneLine_append.mpr ⟨Atom.oneLine_render h.1, hsigns.2⟩) ?_
      simp [rawTexts, hnil]
  · simp only [oneLine_append, oneLine_commaSeparated, Atom.oneLine_render h.1, hsigns, hbody,
      and_true, true_and]

theorem oneLine_renderChoiceDomain {domain : List String} (h : ∀ name ∈ domain, IsName name) :
    OneLine (renderChoiceDomain domain) := by
  have hsigns : OneLine "(" ∧ OneLine ")" := by decide
  have hnames : ∀ name ∈ domain, OneLine name := fun name hname => oneLine_of_isName (h name hname)
  unfold renderChoiceDomain
  split
  · exact hnames _ List.mem_cons_self
  · exact oneLine_append.mpr
      ⟨oneLine_append.mpr ⟨hsigns.1, oneLine_commaSeparated.mpr hnames⟩, hsigns.2⟩

theorem Decl.oneLine_render {decl : Decl} (h : ∀ word ∈ decl.words, IsName word) :
    OneLine decl.render := by
  rw [words, List.forall_mem_cons, List.forall_mem_append, List.forall_mem_map] at h
  obtain ⟨hrelation, hattributes, hdomains⟩ := h
  have hsigns : OneLine ".decl " ∧ OneLine "(" ∧ OneLine ")" := by decide
  have hcolumns : OneLine (commaSeparated (decl.attributes.map Attribute.render)) := by
    have hcolon : OneLine ": " := by decide
    rw [oneLine_commaSeparated, List.forall_mem_map]
    intro column hcolumn
    have htype : OneLine column.type.render := by cases column.type <;> decide
    simp only [Attribute.render, oneLine_append, oneLine_of_isName (hattributes column hcolumn),
      hcolon, htype, and_true]
  have hchoice : OneLine (if decl.choiceDomains.isEmpty then ""
      else " choice-domain " ++ commaSeparated (decl.choiceDomains.map renderChoiceDomain)) := by
    have hlabel : OneLine " choice-domain " := by decide
    split
    · decide
    · rw [oneLine_append, oneLine_commaSeparated, List.forall_mem_map]
      exact ⟨hlabel, fun domain hdomain => oneLine_renderChoiceDomain fun name hname =>
        hdomains name (List.mem_flatten.mpr ⟨domain, hdomain, hname⟩)⟩
  simp only [render, oneLine_append, oneLine_of_isName hrelation, hsigns, hcolumns, hchoice,
    and_true]

/-- The text of a command that is no group is on one line exactly if the raw texts in it are. -/
theorem Command.oneLine_render_iff {command : Command}
    (hflat : ∀ commands, command ≠ .group commands)
    (h : ∀ word ∈ command.words, IsName word) :
    OneLine command.render ↔ ∀ text ∈ command.rawTexts, OneLine text := by
  cases command with
  | rule r => exact Rule.oneLine_render_iff h
  | decl d => exact iff_of_true (Decl.oneLine_render h) (by simp [rawTexts])
  | input relation =>
      have hlabel : OneLine ".input " := by decide
      have hname := oneLine_of_isName (h relation List.mem_cons_self)
      exact iff_of_true (oneLine_append.mpr ⟨hlabel, hname⟩) (by simp [rawTexts])
  | output relation =>
      have hlabel : OneLine ".output " := by decide
      have hname := oneLine_of_isName (h relation List.mem_cons_self)
      exact iff_of_true (oneLine_append.mpr ⟨hlabel, hname⟩) (by simp [rawTexts])
  | comment text =>
      have hlabel : OneLine "// " := by decide
      exact iff_of_true (oneLine_append.mpr ⟨hlabel, oneLine_onOneLine text⟩) (by simp [rawTexts])
  | raw text => simp [render, rawTexts]
  | group commands => exact (hflat commands rfl).elim

mutual

theorem Command.ne_group_of_mem_flatten : ∀ {command other : Command}, other ∈ command.flatten →
    ∀ commands, other ≠ .group commands
  | .group _, _, h => Command.ne_group_of_mem_flattenAll h
  | .rule _, _, h | .decl _, _, h | .input _, _, h | .output _, _, h | .comment _, _, h
  | .raw _, _, h => by simp [List.mem_singleton.mp h]

theorem Command.ne_group_of_mem_flattenAll : ∀ {all : List Command} {other : Command},
    other ∈ Command.flattenAll all → ∀ commands, other ≠ .group commands
  | [], _, h => absurd h List.not_mem_nil
  | _ :: _, _, h => (List.mem_append.mp h).elim Command.ne_group_of_mem_flatten
      Command.ne_group_of_mem_flattenAll

end

/-- The lines of a program are the texts of its commands exactly if each of these is on one line. -/
theorem Program.pieces_render_iff {program : Program} (hne : program.flatten ≠ []) :
    Text.pieces '\n' program.render.toList = program.flatten.map (·.render.toList) ↔
      ∀ command ∈ program.flatten, OneLine command.render := by
  have hparts : program.flatten.map (·.render.toList) ≠ [] := by simpa using hne
  have hrender : program.render.toList =
      ['\n'].intercalate (program.flatten.map (·.render.toList)) := by
    simp [Program.render, lines, String.toList_intercalate, Function.comp_def]
  rw [hrender, Text.pieces_intercalate_iff hparts, List.forall_mem_map]
  rfl

end RelQuery.Datalog
