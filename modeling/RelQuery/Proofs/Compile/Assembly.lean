import RelQuery.Proofs.Compile.Scoping

/-!
# Assembled programs

A program reads its inputs, then defines the predicates of the expression and then writes the
result.  Assembling never fails after compiling, and the rules and declarations of the program are
those of its inputs and of the sites of the derivation, in order.
-/

namespace RelQuery

open Datalog (Command Decl Program Rule)

/-! ## Groups -/

namespace Datalog

/-- A list without groups stands for itself. -/
theorem Command.flattenAll_eq_self {commands : List Command}
    (h : ∀ command ∈ commands, command.flatten = [command]) :
    Command.flattenAll commands = commands := by
  induction commands with
  | nil => rfl
  | cons command rest ih =>
      rw [List.forall_mem_cons] at h
      rw [Command.flattenAll, h.1, ih h.2, List.singleton_append]

def Command.rule? : Command → Option Rule
  | .rule r => some r
  | _ => none

def Command.decl? : Command → Option Decl
  | .decl d => some d
  | _ => none

theorem Program.rules_eq (program : Program) :
    program.rules = program.flatten.filterMap Command.rule? :=
  rfl

theorem Program.decls_eq (program : Program) :
    program.decls = program.flatten.filterMap Command.decl? :=
  rfl

end Datalog

/-! ## Commands of sites -/

namespace Compile

variable {options : Options} {scope : Scope} {e : Expr}

theorem Definition.commands_eq_ok {d : Definition} {commands : List Command} :
    d.commands options e scope = .ok commands ↔
      ∃ decl, scope.declare d.predicate d.choiceDomains = .ok decl ∧
        commands = (if options.comments then [.blank, d.comment e] else []) ++
          .decl decl :: d.rules.map .rule := by
  simp only [Definition.commands, except_bind_eq_ok, except_pure_eq_ok]
  constructor
  · rintro ⟨decl, hdecl, rfl⟩
    exact ⟨decl, hdecl, rfl⟩
  · rintro ⟨decl, hdecl, rfl⟩
    exact ⟨decl, hdecl, rfl⟩

/-- The commands of sites are built up block by block: a header that neither declares nor defines
anything, a declaration and the rules of one predicate. -/
theorem siteCommands_induction {P : List Site → List Command → Prop} {sites : List Site}
    {commands : List Command} (h : siteCommands options sites = .ok commands)
    (nil : P [] [])
    (rules : ∀ (site : Site) (decl : Decl) (sites : List Site) (commands : List Command),
      site.scope.declare site.predicate site.definition.choiceDomains = .ok decl →
      P sites commands →
      P (site :: sites) (.decl decl :: site.definition.rules.map .rule ++ commands))
    (header : ∀ (text : String) (sites : List Site) (commands : List Command),
      P sites commands → P sites (.blank :: .comment text :: commands)) :
    P sites commands := by
  induction sites generalizing commands with
  | nil =>
      cases h
      exact nil
  | cons site rest ih =>
      obtain ⟨block, others, hblock, hothers, rfl⟩ := siteCommands_cons_eq_ok.mp h
      obtain ⟨decl, hdecl, rfl⟩ := Definition.commands_eq_ok.mp hblock
      have hrules := rules site decl rest others hdecl (ih hothers)
      cases options.comments with
      | false => exact hrules
      | true => exact header _ _ _ hrules

theorem flatten_of_mem_siteCommands {sites : List Site} {commands : List Command}
    (h : siteCommands options sites = .ok commands) :
    ∀ command ∈ commands, command.flatten = [command] := by
  apply siteCommands_induction h
  · simp
  · intro site decl sites commands _ ih
    refine List.forall_mem_append.mpr ⟨List.forall_mem_cons.mpr ⟨rfl, ?_⟩, ih⟩
    intro command hcommand
    obtain ⟨rule, -, rfl⟩ := List.mem_map.mp hcommand
    rfl
  · intro text sites commands ih
    exact List.forall_mem_cons.mpr ⟨rfl, List.forall_mem_cons.mpr ⟨rfl, ih⟩⟩

theorem rules_siteCommands {sites : List Site} {commands : List Command}
    (h : siteCommands options sites = .ok commands) :
    commands.filterMap Command.rule? = sites.flatMap (·.definition.rules) := by
  apply siteCommands_induction h
  · rfl
  · intro site decl sites commands _ ih
    have hown : (site.definition.rules.map Command.rule).filterMap Command.rule? =
        site.definition.rules := by
      rw [List.filterMap_map]
      exact List.filterMap_some
    rw [List.cons_append, List.filterMap_cons_none rfl, List.filterMap_append, hown, ih,
      List.flatMap_cons]
  · intro text sites commands ih
    exact ih

theorem decls_siteCommands {sites : List Site} {commands : List Command}
    (h : siteCommands options sites = .ok commands) :
    (commands.filterMap Command.decl?).map (·.relation) = sites.map (·.predicate.name) := by
  apply siteCommands_induction h
  · rfl
  · intro site decl sites commands hdecl ih
    have hown : (site.definition.rules.map Command.rule).filterMap Command.decl? = [] := by
      rw [List.filterMap_map]
      exact List.filterMap_eq_nil_iff.mpr fun _ _ => rfl
    have hdecl? : (Command.decl decl).decl? = some decl := rfl
    rw [List.cons_append, List.filterMap_cons_some hdecl?, List.filterMap_append, hown,
      List.nil_append, List.map_cons, List.map_cons, ih, Scope.relation_of_declare hdecl]
  · intro text sites commands ih
    exact ih

/-- Every site is declared in its own scope. -/
theorem exists_decl_of_mem_sites {sites : List Site} {commands : List Command}
    (h : siteCommands options sites = .ok commands) :
    ∀ site ∈ sites, ∃ decl ∈ commands.filterMap Command.decl?,
      site.scope.declare site.predicate site.definition.choiceDomains = .ok decl := by
  apply siteCommands_induction h
  · simp
  · intro first firstDecl sites commands hdecl ih site hsite
    rcases List.mem_cons.mp hsite with rfl | hsite
    · exact ⟨firstDecl, by simp [Command.decl?], hdecl⟩
    · obtain ⟨decl, hmem, hsiteDecl⟩ := ih site hsite
      refine ⟨decl, ?_, hsiteDecl⟩
      rw [List.filterMap_append]
      exact List.mem_append_right _ hmem
  · intro text sites commands ih
    exact ih

end Compile

/-! ## Whole programs -/

def inputCommands (decls : List Decl) : List Command :=
  decls.flatMap fun decl => [.decl decl, .input decl.relation]

theorem Scope.relations_ofInputs {inputs : List (String × List ColumnType)} {scope : Scope}
    (h : ofInputs inputs = .ok scope) :
    scope.relations = inputs.map fun input => (input.1, inputPredicate input.1 input.2) := by
  rw [relations, bindings, (frames_ofInputs h).1, List.reverse_reverse, List.filterMap_map]
  exact List.filterMap_eq_map_iff_forall_eq_some.mpr fun _ _ => rfl

theorem rules_inputCommands (decls : List Decl) :
    (inputCommands decls).filterMap Command.rule? = [] := by
  apply List.filterMap_eq_nil_iff.mpr
  intro command hcommand
  obtain ⟨decl, -, hcommand⟩ := List.mem_flatMap.mp hcommand
  rcases List.mem_pair.mp hcommand with rfl | rfl <;> rfl

theorem decls_inputCommands (decls : List Decl) :
    (inputCommands decls).filterMap Command.decl? = decls := by
  induction decls with
  | nil => rfl
  | cons decl rest ih => exact congrArg (decl :: ·) ih

theorem flatten_of_mem_inputCommands {decls : List Decl} :
    ∀ command ∈ inputCommands decls, command.flatten = [command] := by
  intro command hcommand
  obtain ⟨decl, -, hcommand⟩ := List.mem_flatMap.mp hcommand
  rcases List.mem_pair.mp hcommand with rfl | rfl <;> rfl

theorem Scope.exists_inputCommands (scope : Scope) (inputs : List (String × List ColumnType)) :
    ∃ decls blocks,
      (inputs.map fun input => (input.1, inputPredicate input.1 input.2)).mapM (fun entry => do
        let decl ← scope.declare entry.2 []
        return [Command.decl decl, Command.input entry.2.name]) = .ok blocks ∧
      blocks.flatten = inputCommands decls ∧
      decls.map (·.relation) = inputs.map Prod.fst ∧
      ∀ input ∈ inputs, ∃ decl ∈ decls,
        scope.declare (inputPredicate input.1 input.2) [] = .ok decl := by
  induction inputs with
  | nil => exact ⟨[], [], rfl, rfl, rfl, by simp⟩
  | cons input rest ih =>
      obtain ⟨decls, blocks, hblocks, hflatten, hnames, hdeclared⟩ := ih
      have hparams : ∀ x ∈ (inputPredicate input.1 input.2).params, scope.IsScalar x := by
        intro x hx
        exact absurd hx List.not_mem_nil
      obtain ⟨decl, hdecl⟩ := exists_declare hparams []
      have hname : decl.relation = input.1 := relation_of_declare hdecl
      refine ⟨decl :: decls, [.decl decl, .input input.1] :: blocks, ?_, ?_, ?_, ?_⟩
      · rw [List.map_cons, List.mapM_cons, hblocks]
        simp only [hdecl]
        rfl
      · rw [List.flatten_cons, hflatten, ← hname]
        rfl
      · rw [List.map_cons, List.map_cons, hname, hnames]
      · refine List.forall_mem_cons.mpr ⟨⟨decl, List.mem_cons_self, hdecl⟩, ?_⟩
        intro other hother
        obtain ⟨otherDecl, hmem, hotherDecl⟩ := hdeclared other hother
        exact ⟨otherDecl, List.mem_cons_of_mem _ hmem, hotherDecl⟩

theorem Expr.compile_eq_ok {e : Expr} {scope : Scope} {options : Compile.Options}
    {c : Compiled} :
    e.compile scope options = .ok c ↔
      ∃ later, Compile.compile options scope e (.inScope scope) = .ok (c, later) := by
  unfold Expr.compile StateT.run'
  cases hrun : Compile.compile options scope e (.inScope scope) with
  | error failure => simp [Functor.map, Except.map]
  | ok result =>
      obtain ⟨compiled, later⟩ := result
      simp [Functor.map, Except.map]

/-- How the program of a compiled expression is made: the sites of a derivation stand between the
declarations of the inputs and the output. -/
structure Assembly (inputs : List (String × List ColumnType)) (scope : Scope) (e : Expr)
    (c : Compiled) (sites : List Compile.Site) (decls : List Decl) (program : Program) :
    Prop where
  derives : ∃ later, Compile.Derives scope e (.inScope scope) c.predicate sites later
  commands : ∃ options, Compile.siteCommands options sites = .ok c.program.commands
  decls_relation : decls.map (·.relation) = inputs.map Prod.fst
  decls_declare : ∀ input ∈ inputs, ∃ decl ∈ decls,
    scope.declare (Scope.inputPredicate input.1 input.2) [] = .ok decl
  flatten : program.flatten = inputCommands decls ++ .blank :: c.program.commands ++
    [.blank, .output c.predicate.name]

/-- A compiled expression can be assembled. -/
theorem exists_assembly {inputs : List (String × List ColumnType)} {scope : Scope} {e : Expr}
    {options : Compile.Options} {c : Compiled} (hinputs : Scope.ofInputs inputs = .ok scope)
    (hcompile : e.compile scope options = .ok c) :
    ∃ program sites decls, c.assemble scope = .ok program ∧
      Assembly inputs scope e c sites decls program := by
  obtain ⟨later, hrun⟩ := Expr.compile_eq_ok.mp hcompile
  obtain ⟨sites, hderives, hcommands⟩ := Compile.exists_derives_of_compile hrun
  obtain ⟨decls, blocks, hblocks, hflatten, hnames, hdeclared⟩ :=
    scope.exists_inputCommands inputs
  refine ⟨⟨inputCommands decls ++ .blank :: c.program.commands ++
    [.blank, .output c.predicate.name]⟩, sites, decls, ?_, ⟨later, hderives⟩,
    ⟨options, hcommands⟩, hnames, hdeclared, ?_⟩
  · rw [Compiled.assemble, Scope.relations_ofInputs hinputs, hblocks, ← hflatten]
    rfl
  · apply Command.flattenAll_eq_self
    refine List.forall_mem_append.mpr ⟨List.forall_mem_append.mpr
      ⟨flatten_of_mem_inputCommands, List.forall_mem_cons.mpr
        ⟨rfl, Compile.flatten_of_mem_siteCommands hcommands⟩⟩, ?_⟩
    simp [Command.blank, Command.flatten]

namespace Assembly

variable {inputs : List (String × List ColumnType)} {scope : Scope} {e : Expr} {c : Compiled}
variable {sites : List Compile.Site} {decls : List Decl} {program : Program}

theorem rules (h : Assembly inputs scope e c sites decls program) :
    program.rules = sites.flatMap (·.definition.rules) := by
  obtain ⟨options, hcommands⟩ := h.commands
  rw [Program.rules_eq, h.flatten, List.filterMap_append, List.filterMap_append,
    rules_inputCommands, List.nil_append, List.filterMap_cons_none rfl,
    Compile.rules_siteCommands hcommands]
  exact List.append_nil _

theorem program_decls (h : Assembly inputs scope e c sites decls program) :
    program.decls = decls ++ c.program.commands.filterMap Command.decl? := by
  rw [Program.decls_eq, h.flatten, List.filterMap_append, List.filterMap_append,
    decls_inputCommands, List.filterMap_cons_none rfl]
  exact List.append_nil _

theorem decls_relation_eq (h : Assembly inputs scope e c sites decls program) :
    program.decls.map (·.relation) = inputs.map Prod.fst ++ sites.map (·.predicate.name) := by
  obtain ⟨options, hcommands⟩ := h.commands
  rw [h.program_decls, List.map_append, Compile.decls_siteCommands hcommands, h.decls_relation]

/-- Every input is declared. -/
theorem exists_decl_of_mem_inputs (h : Assembly inputs scope e c sites decls program)
    {input : String × List ColumnType} (hinput : input ∈ inputs) :
    ∃ decl ∈ program.decls,
      scope.declare (Scope.inputPredicate input.1 input.2) [] = .ok decl := by
  obtain ⟨decl, hmem, hdecl⟩ := h.decls_declare input hinput
  rw [h.program_decls]
  exact ⟨decl, List.mem_append_left _ hmem, hdecl⟩

/-- Every predicate that the expression defines is declared in the scope of its site. -/
theorem exists_decl_of_mem_sites (h : Assembly inputs scope e c sites decls program)
    {site : Compile.Site} (hsite : site ∈ sites) :
    ∃ decl ∈ program.decls,
      site.scope.declare site.predicate site.definition.choiceDomains = .ok decl := by
  obtain ⟨options, hcommands⟩ := h.commands
  obtain ⟨decl, hmem, hdecl⟩ := Compile.exists_decl_of_mem_sites hcommands site hsite
  rw [h.program_decls]
  exact ⟨decl, List.mem_append_right _ hmem, hdecl⟩

end Assembly

/-! ## A sample query -/

namespace Sample

/-- Persons, and the numbers of the orders of persons.  The second name is one that a generated
relation might have. -/
def inputs : List (String × List ColumnType) :=
  [("person", [.symbol]), ("R2", [.symbol, .number])]

def scope : Scope :=
  ⟨[("R2", .relation (Scope.inputPredicate "R2" [.symbol, .number])),
    ("person", .relation (Scope.inputPredicate "person" [.symbol]))]⟩

/-- The persons `x` without an order: a negation that depends on a scalar. -/
def query : Expr :=
  .comprehension .keep ["x"] (.name "person" .synthetic)
    (.unary (.quantify .no)
      (.binary .join (.name "x" .synthetic) (.name "R2" .synthetic) .synthetic) .synthetic)
    .synthetic

theorem scope_ofInputs : Scope.ofInputs inputs = .ok scope :=
  rfl

theorem exists_compiled (options : Compile.Options) :
    ∃ c, query.compile scope options = .ok c := by
  obtain ⟨comments⟩ := options
  cases comments
  · exact ⟨_, rfl⟩
  · exact ⟨_, rfl⟩

/-- The rule of the negation in the program of the sample. -/
def withoutOrder : Datalog.Rule :=
  ⟨⟨"R4", [.var "x_e"]⟩,
    [.negated ⟨"R3", [.wildcard, .var "x_e"]⟩, .positive ⟨"person", [.var "x_e"]⟩]⟩

/-- The declaration of what the rule negates. -/
def ordersOf : Datalog.Decl :=
  ⟨"R3", [⟨"R2_0", .number⟩, ⟨"x_e", .symbol⟩], []⟩

theorem exists_assembled :
    ∃ c program, query.compile scope ⟨true⟩ = .ok c ∧ c.assemble scope = .ok program ∧
      withoutOrder ∈ program.rules ∧ ordersOf ∈ program.decls := by
  refine ⟨_, _, rfl, rfl, ?_, ?_⟩
  · exact List.mem_of_getElem? (i := 2) rfl
  · exact List.mem_of_getElem? (i := 3) rfl

end Sample

end RelQuery
