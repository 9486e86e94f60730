import RelQuery.Proofs.Compile.FormulaText
import RelQuery.Proofs.Compile.Lexical
import RelQuery.Proofs.Compile.Ranking
import RelQuery.Proofs.Grammar.Names

/-!
# The lines of compiled programs

A query puts its own text into a program in three ways: as symbols, which are quoted, as comments,
which are put on one line, and as formulas, which are left as they are but for the names of scalars.
So a program has one line for each command exactly if no formula of the query has a line break.
-/

namespace RelQuery

open Datalog (Command Decl OneLine Program)
open Text (IsName)

namespace Compile

/-! ## Formulas -/

theorem mem_renameRun_iff {scope : Scope} {run : List Char} :
    '\n' ∈ renameRun scope run ↔ '\n' ∈ run := by
  unfold renameRun
  split
  · next hrun =>
      have hname : IsName (String.ofList run) := by
        simpa [IsName] using (Bool.and_eq_true_iff.mp hrun).1
      have hvar := Datalog.oneLine_of_isName (isName_paramVar hname)
      have hrun : '\n' ∉ run := by simpa [OneLine] using Datalog.oneLine_of_isName hname
      exact iff_of_false hvar hrun
  · rfl

/-- Naming scalars adds no line breaks and takes none away. -/
theorem oneLine_renameScalars {scope : Scope} {text : String} :
    OneLine (renameScalars scope text) ↔ OneLine text := by
  have hruns : (Text.runs text.toList).flatten = text.toList := List.flatten_splitBy _ _
  apply not_congr
  calc '\n' ∈ (renameScalars scope text).toList
      ↔ ∃ run ∈ Text.runs text.toList, '\n' ∈ renameRun scope run := by simp [renameScalars_eq]
    _ ↔ ∃ run ∈ Text.runs text.toList, '\n' ∈ run := by simp only [mem_renameRun_iff]
    _ ↔ '\n' ∈ text.toList := by rw [← List.mem_flatten, hruns]

/-- The sites of an expression have the formulas of its nodes. -/
theorem Derives.formulas_eq {scope : Scope} {e : Expr} {names later : FreshNames} {p : Predicate}
    {sites : List Site} (h : Derives scope e names p sites later) :
    sites.filterMap (·.node.formula?) = e.nodes.filterMap Expr.formula? := by
  have hown (em : Emission) {e : Expr} (scope : Scope) (hnone : e.formula? = none) :
      (em.sites e scope).filterMap (·.node.formula?) = [] := by
    simp [Emission.sites, hnone]
  have hwildcard {e : Expr} (hwild : e.isWildcard = true) :
      e.nodes.filterMap Expr.formula? = [] := by
    cases e with
    | name => rfl
    | _ => cases hwild
  induction h with
  | relation => rfl
  | scalar => exact hown _ _ rfl
  | constant => exact hown _ _ rfl
  | formula hemit =>
      obtain ⟨result, value, grounding, -, -, -, -, rfl⟩ := emitFormula_ok hemit
      rfl
  | unary _ _ _ _ ih =>
      rw [List.filterMap_append, ih, hown _ _ rfl, List.append_nil, Expr.nodes,
        List.filterMap_cons_none rfl]
  | dropFirst hleft _ _ _ ih =>
      rw [List.filterMap_append, ih, hown _ _ rfl, List.append_nil, Expr.nodes,
        List.filterMap_cons_none rfl, List.filterMap_append, hwildcard hleft, List.nil_append]
  | dropLast _ hright _ _ ih =>
      rw [List.filterMap_append, ih, hown _ _ rfl, Expr.nodes, List.filterMap_cons_none rfl,
        List.filterMap_append, hwildcard hright]
  | binary _ _ _ _ _ ihfirst ihsecond =>
      -- Sites come after their operands and nodes before them, but formulas have no operands.
      rw [List.filterMap_append, List.filterMap_append, ihfirst, ihsecond, hown _ _ rfl,
        List.append_nil, Expr.nodes, List.filterMap_cons_none rfl, List.filterMap_append]
  | letIn _ _ _ _ ihvalue ihbody =>
      rw [List.filterMap_append, ihvalue, ihbody, Expr.nodes, List.filterMap_cons_none rfl,
        List.filterMap_append]
  | comprehension _ _ _ _ _ _ _ ihconstraint ihbody =>
      rw [List.filterMap_append, List.filterMap_append, ihconstraint, ihbody, hown _ _ rfl,
        List.append_nil, Expr.nodes, List.filterMap_cons_none rfl, List.filterMap_append]

theorem Derives.oneLine_rawTexts_iff {scope : Scope} {e : Expr} {names later : FreshNames}
    {p : Predicate} {sites : List Site} (h : Derives scope e names p sites later) :
    (∀ text ∈ sites.flatMap Site.rawTexts, OneLine text) ↔
      ∀ text span, .formula text span ∈ e.nodes → OneLine text := by
  have hsites : (∀ text ∈ sites.flatMap Site.rawTexts, OneLine text) ↔
      ∀ text ∈ sites.filterMap (·.node.formula?), OneLine text := by
    simp only [List.mem_flatMap, List.mem_filterMap, Site.rawTexts, Option.mem_toList,
      Option.map_eq_some_iff]
    constructor
    · rintro hraw text ⟨site, hsite, htext⟩
      exact oneLine_renameScalars.mp (hraw _ ⟨site, hsite, text, htext, rfl⟩)
    · rintro hformulas _ ⟨site, hsite, text, htext, rfl⟩
      exact oneLine_renameScalars.mpr (hformulas text ⟨site, hsite, htext⟩)
  rw [hsites, h.formulas_eq]
  simp only [List.mem_filterMap]
  constructor
  · exact fun hformulas text span hnode => hformulas text ⟨_, hnode, rfl⟩
  · rintro hnodes text ⟨node, hnode, htext⟩
    cases node with
    | formula other span =>
        cases htext
        exact hnodes text span hnode
    | _ => cases htext

/-! ## Commands -/

theorem words_of_declare {scope : Scope} {p : Predicate} {domains : List (List String)} {decl : Decl}
    (hdecl : scope.declare p domains = .ok decl) (hp : p.Lexical)
    (hdomains : ∀ domain ∈ domains, ∀ name ∈ domain, IsName name) :
    ∀ word ∈ decl.words, IsName word := by
  obtain ⟨hnames, hrelation, hchoice⟩ := Scope.names_of_declare hdecl
  rw [Decl.words, hrelation, hchoice, List.forall_mem_cons, List.forall_mem_append,
    List.forall_mem_flatten]
  refine ⟨hp.name, ?_, hdomains⟩
  change ∀ name ∈ decl.names, IsName name
  rw [hnames]
  exact hp.attributeNames

variable {options : Options} {sites : List Site} {commands : List Command}

theorem words_siteCommands (h : siteCommands options sites = .ok commands)
    (hsites : ∀ site ∈ sites, site.definition.Lexical site.rawTexts) :
    ∀ command ∈ commands, ∀ word ∈ command.words, IsName word := by
  revert hsites
  apply siteCommands_induction h
  · simp
  · intro site decl sites commands hdecl ih hsites
    obtain ⟨hsite, hsites⟩ := List.forall_mem_cons.mp hsites
    rw [List.cons_append, List.forall_mem_cons, List.forall_mem_append, List.forall_mem_map]
    exact ⟨words_of_declare hdecl hsite.predicate hsite.choiceDomains, hsite.words, ih hsites⟩
  · intro text sites commands ih hsites
    simp only [List.forall_mem_cons]
    exact ⟨by simp [Command.blank, Command.words], by simp [Command.words], ih hsites⟩

theorem oneLine_rawTexts_siteCommands (h : siteCommands options sites = .ok commands)
    (hsites : ∀ site ∈ sites, site.definition.Lexical site.rawTexts) :
    (∀ text ∈ commands.flatMap Command.rawTexts, OneLine text) ↔
      ∀ text ∈ sites.flatMap Site.rawTexts, OneLine text := by
  revert hsites
  apply siteCommands_induction h
  · simp
  · intro site decl sites commands hdecl ih hsites
    obtain ⟨hsite, hsites⟩ := List.forall_mem_cons.mp hsites
    have hrules : (site.definition.rules.map Command.rule).flatMap Command.rawTexts =
        site.rawTexts := by
      rw [List.flatMap_map, ← hsite.rawTexts]
      rfl
    rw [List.cons_append, List.flatMap_cons, List.flatMap_append, hrules, List.flatMap_cons,
      List.forall_mem_append, List.forall_mem_append, List.forall_mem_append, ih hsites]
    simp [Command.rawTexts]
  · intro text sites commands ih hsites
    -- The blank line in front of a comment is a raw text, and an empty one.
    have hblank : OneLine "" := by decide
    rw [List.flatMap_cons, List.flatMap_cons, List.forall_mem_append, List.forall_mem_append,
      ih hsites]
    simp [Command.blank, Command.rawTexts, hblank]

end Compile

/-! ## Whole programs -/

namespace Assembly

variable {inputs : List (String × List ColumnType)} {scope : Scope} {e : Expr} {c : Compiled}
variable {sites : List Compile.Site} {decls : List Decl} {program : Program}

theorem exists_input_of_mem_decls (h : Assembly inputs scope e c sites decls program)
    (hinputs : Scope.ofInputs inputs = .ok scope) {decl : Decl} (hdecl : decl ∈ decls) :
    ∃ input ∈ inputs, scope.declare (Scope.inputPredicate input.1 input.2) [] = .ok decl := by
  have hnodup : (decls.map (·.relation)).Nodup := by
    rw [h.decls_relation]
    exact Scope.names_nodup_of_ofInputs hinputs
  have hname : decl.relation ∈ inputs.map Prod.fst := by
    rw [← h.decls_relation]
    exact List.mem_map_of_mem hdecl
  obtain ⟨input, hinput, heq⟩ := List.mem_map.mp hname
  obtain ⟨other, hother, hdeclare⟩ := h.decls_declare input hinput
  have hrelation : other.relation = decl.relation :=
    (Scope.relation_of_declare hdeclare).trans heq
  obtain rfl : other = decl := List.inj_on_of_nodup_map hnodup hother hdecl hrelation
  exact ⟨input, hinput, hdeclare⟩

/-- All names of a program are names. -/
theorem words (h : Assembly inputs scope e c sites decls program)
    (hinputs : Scope.ofInputs inputs = .ok scope) (hnames : ∀ input ∈ inputs, IsName input.1)
    (hbinders : ∀ x ∈ e.binders, IsName x) :
    ∀ command ∈ program.flatten, ∀ word ∈ command.words, IsName word := by
  obtain ⟨later, hderives⟩ := h.derives
  obtain ⟨options, hcommands⟩ := h.commands
  obtain ⟨hp, hsites⟩ := hderives.lexical (.ofInputs hinputs hnames) hbinders
  rw [h.flatten]
  simp only [List.forall_mem_append, List.forall_mem_cons]
  refine ⟨⟨?_, ?_, Compile.words_siteCommands hcommands hsites⟩, ?_, ?_, by simp⟩
  · intro command hcommand
    obtain ⟨decl, hdecl, hcommand⟩ := List.mem_flatMap.mp hcommand
    obtain ⟨input, hinput, hdeclare⟩ := h.exists_input_of_mem_decls hinputs hdecl
    have hlexical := lexical_inputPredicate (hnames input hinput) input.2
    have hwords := Compile.words_of_declare hdeclare hlexical (by simp)
    rcases List.mem_pair.mp hcommand with rfl | rfl
    · exact hwords
    · exact List.forall_mem_singleton.mpr (hwords _ List.mem_cons_self)
  · simp [Command.blank, Command.words]
  · simp [Command.blank, Command.words]
  · simpa [Command.words] using hp.name

/-- The raw texts of a program are on one line exactly if the formulas of the expression are. -/
theorem oneLine_rawTexts_iff (h : Assembly inputs scope e c sites decls program)
    (hinputs : Scope.ofInputs inputs = .ok scope) (hnames : ∀ input ∈ inputs, IsName input.1)
    (hbinders : ∀ x ∈ e.binders, IsName x) :
    (∀ text ∈ program.flatten.flatMap Command.rawTexts, OneLine text) ↔
      ∀ text span, .formula text span ∈ e.nodes → OneLine text := by
  obtain ⟨later, hderives⟩ := h.derives
  obtain ⟨options, hcommands⟩ := h.commands
  obtain ⟨-, hsites⟩ := hderives.lexical (.ofInputs hinputs hnames) hbinders
  have hblank : OneLine "" := by decide
  have hread : (inputCommands decls).flatMap Command.rawTexts = [] := by
    apply List.flatMap_eq_nil_iff.mpr
    intro command hcommand
    obtain ⟨decl, -, hcommand⟩ := List.mem_flatMap.mp hcommand
    rcases List.mem_pair.mp hcommand with rfl | rfl <;> rfl
  rw [← hderives.oneLine_rawTexts_iff, ← Compile.oneLine_rawTexts_siteCommands hcommands hsites,
    h.flatten, List.flatMap_append, List.flatMap_append, hread, List.nil_append, List.flatMap_cons,
    List.forall_mem_append, List.forall_mem_append]
  simp [Command.blank, Command.rawTexts, hblank]

end Assembly

/-- A compiled source is assembled to a program, and splitting the text of the program at line breaks
gives the texts of its commands exactly if no formula in the source has a line break. -/
theorem one_line_per_command_iff {source : String} {e : Expr}
    {inputs : List (String × List ColumnType)} {scope : Scope} {options : Compile.Options}
    {c : Compiled} (hparse : Expr.parse source = .ok e)
    (hinputs : Scope.ofInputs inputs = .ok scope) (hnames : ∀ input ∈ inputs, IsName input.1)
    (hcompile : e.compile scope options = .ok c) :
    ∃ program, c.assemble scope = .ok program ∧
      (Text.pieces '\n' program.render.toList = program.flatten.map (·.render.toList) ↔
        ∀ text span, .formula text span ∈ e.nodes → '\n' ∉ text.toList) := by
  obtain ⟨program, sites, decls, hassemble, h⟩ := exists_assembly hinputs hcompile
  have hbinders : ∀ x ∈ e.binders, IsName x := fun x hx => (isName_of_mem_binders hparse x hx).1
  have hwords := h.words hinputs hnames hbinders
  have hne : program.flatten ≠ [] := by simp [h.flatten]
  have hcommand : ∀ command ∈ program.flatten,
      OneLine command.render ↔ ∀ text ∈ command.rawTexts, OneLine text :=
    fun command hmem => Command.oneLine_render_iff (Command.ne_group_of_mem_flattenAll hmem)
      (hwords command hmem)
  refine ⟨program, hassemble, ?_⟩
  rw [Program.pieces_render_iff hne, forall₂_congr hcommand, ← List.forall_mem_flatMap]
  exact h.oneLine_rawTexts_iff hinputs hnames hbinders

namespace Sample

/-- A query with line breaks in a symbol and in a comment, and a formula with none. -/
def linesSource : String :=
  "p, n : R2 // of a person\n | `n + 1` , \"one\ntwo\""

end Sample

theorem except_toOption_eq_some {ε α : Type} {x : Except ε α} {a : α} :
    x.toOption = some a ↔ x = .ok a := by
  cases x <;> simp [Except.toOption]

theorem sample_one_line_per_command :
    ∃ e c program, Expr.parse Sample.linesSource = .ok e ∧
      e.compile Sample.scope ⟨true⟩ = .ok c ∧ c.assemble Sample.scope = .ok program ∧
      Text.pieces '\n' program.render.toList = program.flatten.map (·.render.toList) := by
  have hrun : ((Expr.parse Sample.linesSource).toOption.bind fun e =>
      (e.compile Sample.scope ⟨true⟩).toOption.map fun _ => e.nodes.filterMap Expr.formula?) =
        some ["n + 1"] := by decide +kernel
  simp only [Option.bind_eq_some_iff, Option.map_eq_some_iff, except_toOption_eq_some] at hrun
  obtain ⟨e, hparse, c, hcompile, hformulas⟩ := hrun
  obtain ⟨program, hassemble, hlines⟩ :=
    one_line_per_command_iff hparse Sample.scope_ofInputs (by decide) hcompile
  refine ⟨e, c, program, hparse, hcompile, hassemble, hlines.mpr fun text span hnode => ?_⟩
  have hmem : text ∈ e.nodes.filterMap Expr.formula? := List.mem_filterMap.mpr ⟨_, hnode, rfl⟩
  rw [hformulas, List.mem_singleton] at hmem
  rw [hmem]
  decide

/-- A formula with a line break is printed with it, and so its rule takes two lines. -/
theorem formula_breaks_line :
    ∃ e c program, Expr.parse "`1 +\n2`" = .ok e ∧ e.compile .empty ⟨false⟩ = .ok c ∧
      c.assemble .empty = .ok program ∧
      (Text.pieces '\n' program.render.toList).length = program.flatten.length + 1 := by
  have hrun : ((Expr.parse "`1 +\n2`").toOption.bind fun e =>
      (e.compile .empty ⟨false⟩).toOption.bind fun c => (c.assemble .empty).toOption.map
        fun program => ((Text.pieces '\n' program.render.toList).length, program.flatten.length)) =
        some (6, 5) := by decide +kernel
  simp only [Option.bind_eq_some_iff, Option.map_eq_some_iff, except_toOption_eq_some] at hrun
  obtain ⟨e, hparse, c, hcompile, program, hassemble, hlengths⟩ := hrun
  obtain ⟨hlines, hcommands⟩ := Prod.mk.inj hlengths
  exact ⟨e, c, program, hparse, hcompile, hassemble, by rw [hlines, hcommands]⟩

end RelQuery
