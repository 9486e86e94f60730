import RelQuery.Proofs.Compile.Hygiene
import RelQuery.Proofs.Compile.ProgramLines

/-!
# Names in the programs of queries

Three kinds of names meet in a program: attributes are stems with a place, fresh variables are stems
with a number, and the variable of a scalar is the name of the scalar with a mark.  The stems come
from the user.  Still no two of these names are the same by accident: an attribute is told by its
place, a fresh variable by its number, and the mark of a scalar is no number.
-/

namespace RelQuery

open Datalog (Command Decl Program Rule)
open FreshNames (Issued Request varName)
open Text (IsName)

/-! ## Attributes -/

/-- The attributes of a predicate are pairwise distinct, whatever its columns are called. -/
theorem Predicate.nodup_attributeNames {p : Predicate} (hparams : p.params.Nodup) :
    p.attributeNames.Nodup := by
  refine List.Nodup.append (FreshNames.nodup_numbered Column.stem Function.injective_id p.columns)
    (hparams.map paramVar_injective) ?_
  intro name hcolumn hparam
  obtain ⟨k, hk, rfl⟩ := List.mem_mapIdx.mp hcolumn
  exact Compile.varName_notMem_params _ k _ hparam

namespace Compile

variable {scope : Scope} {e : Expr} {names later : FreshNames} {p : Predicate}
variable {sites : List Site} {em : Emission} {d : Definition}

/-- All predicates of a node have the parameters of its result. -/
theorem Emits.params_eq (h : Emits scope em) (hd : d ∈ em.definitions) :
    d.predicate.params = em.result.predicate.params := by
  cases h with
  | scalar hlookup hemit =>
      obtain ⟨result, -, -, -, rfl⟩ := emitScalar_ok hemit
      rw [Emission.predicate_of_mem_single hd, Emission.result_single]
  | constant hemit =>
      obtain ⟨result, value, -, -, -, rfl⟩ := emitConstant_ok hemit
      rw [Emission.predicate_of_mem_single hd, Emission.result_single]
  | formula hemit =>
      obtain ⟨result, value, grounding, -, -, -, -, rfl⟩ := emitFormula_ok hemit
      rw [Emission.predicate_of_mem_single hd, Emission.result_single]
  | unary hemit =>
      rw [params_of_emitUnary hemit hd, params_of_emitUnary hemit em.result_mem_definitions]
  | dropLast hemit =>
      obtain ⟨result, vars, -, -, -, -, -, rfl⟩ := emitDropLast_ok hemit
      rw [Emission.predicate_of_mem_single hd, Emission.result_single]
  | binary hemit =>
      rw [params_of_emitBinary hemit hd, params_of_emitBinary hemit em.result_mem_definitions]
  | comprehension hemit =>
      obtain ⟨result, vars, -, -, -, -, rfl⟩ := emitComprehension_ok hemit
      rw [Emission.predicate_of_mem_single hd, Emission.result_single]

/-- Every predicate that is defined depends on each scalar once. -/
theorem Derives.nodup_params_of_mem (h : Derives scope e names p sites later)
    (hscope : scope.WellScoped) (hdistinct : DistinctParams scope) :
    ∀ site ∈ sites, site.predicate.params.Nodup := by
  -- The result of a node is the value of the node's own derivation.
  have hown : ∀ {scope : Scope} {e : Expr} {names later : FreshNames} {em : Emission}
      {sites : List Site}, scope.WellScoped → DistinctParams scope → Emits scope em →
      Derives scope e names em.result.predicate sites later →
      ∀ site ∈ em.sites e scope, site.predicate.params.Nodup := by
    intro scope e names later em sites hscope hdistinct hemits hderives site hsite
    obtain ⟨d, hd, rfl⟩ := Emission.mem_sites.mp hsite
    change d.predicate.params.Nodup
    rw [hemits.params_eq hd]
    exact hderives.nodup_params hscope hdistinct
  induction h with
  | relation hlookup => simp
  | scalar hlookup hemit =>
      exact hown hscope hdistinct (.scalar hlookup hemit) (.scalar hlookup hemit)
  | constant hemit => exact hown hscope hdistinct (.constant hemit) (.constant hemit)
  | formula hemit => exact hown hscope hdistinct (.formula hemit) (.formula hemit)
  | unary hop hwild hinner hemit ih =>
      exact List.forall_mem_append.mpr ⟨ih hscope hdistinct,
        hown hscope hdistinct (.unary hemit) (.unary hop hwild hinner hemit)⟩
  | @dropFirst scope left right span names mid later b sites em hleft hright hinner hemit ih =>
      have hunary : emitUnary .wildcardApply b scope mid = .ok (em, later) := hemit
      exact List.forall_mem_append.mpr ⟨ih hscope hdistinct,
        hown hscope hdistinct (.unary hunary) (.dropFirst hleft hright hinner hemit)⟩
  | dropLast hleft hright hinner hemit ih =>
      exact List.forall_mem_append.mpr ⟨ih hscope hdistinct,
        hown hscope hdistinct (.dropLast hemit) (.dropLast hleft hright hinner hemit)⟩
  | binary hleft hright hfirst hsecond hemit ihfirst ihsecond =>
      exact List.forall_mem_append.mpr ⟨List.forall_mem_append.mpr
        ⟨ihfirst hscope hdistinct, ihsecond hscope hdistinct⟩,
        hown hscope hdistinct (.binary hemit) (.binary hleft hright hfirst hsecond hemit)⟩
  | letIn hfree hwild hvalue hbody ihvalue ihbody =>
      have hinner := hscope.bind_relation (Scope.isBound_eq_false_iff.mp hfree)
        (hvalue.wellScoped hscope).1
      have hparams := hvalue.nodup_params hscope hdistinct
      exact List.forall_mem_append.mpr ⟨ihvalue hscope hdistinct,
        ihbody hinner (distinctParams_bind hdistinct hparams _)⟩
  | comprehension hfree hwild hwild' hconstraint harity hbody hemit ihconstraint ihbody =>
      obtain ⟨hnodup, -, hunbound⟩ := firstRebound?_eq_none hfree
      have hinner := wellScoped_comprehensionScope hscope hnodup hunbound harity
        (hconstraint.wellScoped hscope).1
      have hbodySites := ihbody hinner
        (distinctParams_comprehensionScope hscope hdistinct hfree harity)
      exact List.forall_mem_append.mpr ⟨List.forall_mem_append.mpr
        ⟨ihconstraint hscope hdistinct, hbodySites⟩,
        hown hscope hdistinct (.comprehension hemit)
          (.comprehension hfree hwild hwild' hconstraint harity hbody hemit)⟩

/-- Every declaration among the commands of sites is the declaration of a site. -/
theorem exists_site_of_mem_decls {options : Options} {commands : List Command}
    (h : siteCommands options sites = .ok commands) :
    ∀ decl ∈ commands.filterMap Command.decl?, ∃ site ∈ sites,
      site.scope.declare site.predicate site.definition.choiceDomains = .ok decl := by
  apply siteCommands_induction h
  · simp
  · intro site first sites commands hfirst ih decl hdecl
    have hown : (site.definition.rules.map Command.rule).filterMap Command.decl? = [] := by
      rw [List.filterMap_map]
      exact List.filterMap_eq_nil_iff.mpr fun _ _ => rfl
    have hfirst? : (Command.decl first).decl? = some first := rfl
    rw [List.cons_append, List.filterMap_cons_some hfirst?, List.filterMap_append, hown,
      List.nil_append] at hdecl
    rcases List.mem_cons.mp hdecl with rfl | hdecl
    · exact ⟨site, List.mem_cons_self, hfirst⟩
    · obtain ⟨other, hother, hdeclare⟩ := ih decl hdecl
      exact ⟨other, List.mem_cons_of_mem _ hother, hdeclare⟩
  · intro text sites commands ih
    exact ih

end Compile

/-! ## What the variables of rules stand for -/

/-- What a variable stands for: the fresh variable of a request, by its turn, or a scalar. -/
inductive Origin where
  | fresh (turn : Nat)
  | scalar (name : String)
  deriving DecidableEq

/-- The variable of an origin, when the requests got the variables `given`. -/
def Origin.var? (given : List String) : Origin → Option String
  | .fresh turn => given[turn]?
  | .scalar name => some (paramVar name)

section Origins

variable {names later : FreshNames} {relations given vars : List String} {known : String → Prop}

/-- No fresh variable is another fresh variable or the variable of a scalar. -/
theorem Origin.eq_of_var?_eq (hissued : Issued names relations given later) {o o' : Origin}
    {v : String} (h : o.var? given = some v) (h' : o'.var? given = some v) : o = o' := by
  cases o with
  | fresh turn =>
      cases o' with
      | fresh turn' =>
          obtain ⟨hturn, -⟩ := List.getElem?_eq_some_iff.mp h
          rw [(List.getElem?_inj hturn hissued.vars_nodup).mp (h.trans h'.symm)]
      | scalar name =>
          cases h'
          exact (hissued.not_param (List.mem_of_getElem? h) name rfl).elim
  | scalar name =>
      cases h
      cases o' with
      | fresh turn => exact (hissued.not_param (List.mem_of_getElem? h') name rfl).elim
      | scalar name' => rw [paramVar_injective (Option.some.inj h')]

/-- Variables that are accounted for have origins. -/
theorem exists_origins (h : ∀ v ∈ vars, Compile.Accounted given known v) :
    ∃ origins : List Origin, origins.map (Origin.var? given) = vars.map some ∧
      ∀ x, .scalar x ∈ origins → known x := by
  induction vars with
  | nil => exact ⟨[], rfl, by simp⟩
  | cons v rest ih =>
      obtain ⟨hv, hrest⟩ := List.forall_mem_cons.mp h
      obtain ⟨origins, hvars, hknown⟩ := ih hrest
      rcases hv with hfresh | ⟨x, hx, rfl⟩
      · obtain ⟨turn, hturn⟩ := List.mem_iff_getElem?.mp hfresh
        refine ⟨.fresh turn :: origins, ?_, by simpa using hknown⟩
        rw [List.map_cons, List.map_cons, hvars]
        exact congrArg (· :: rest.map some) hturn
      · refine ⟨.scalar x :: origins, ?_, ?_⟩
        · rw [List.map_cons, List.map_cons, hvars]
          rfl
        · intro y hy
          rcases List.mem_cons.mp hy with heq | hy
          · cases heq
            exact hx
          · exact hknown y hy

/-- Two places hold the same variable exactly if they stand for the same. -/
theorem places_eq_iff (hissued : Issued names relations given later) {origins : List Origin}
    (h : origins.map (Origin.var? given) = vars.map some) (i j : Nat) :
    vars[i]? = vars[j]? ↔ origins[i]? = origins[j]? := by
  have hplace : ∀ k : Nat, origins[k]?.map (Origin.var? given) = vars[k]?.map some := by
    intro k
    rw [← List.getElem?_map, ← List.getElem?_map, h]
  constructor
  · intro hvars
    have hmap : origins[i]?.map (Origin.var? given) = origins[j]?.map (Origin.var? given) := by
      rw [hplace, hplace, hvars]
    cases hi : origins[i]? with
    | none =>
        rw [hi, Option.map_none, eq_comm, Option.map_eq_none_iff] at hmap
        exact hmap.symm
    | some o =>
        rw [hi, Option.map_some, eq_comm, Option.map_eq_some_iff] at hmap
        obtain ⟨o', hj, heq⟩ := hmap
        have hvar := hplace i
        rw [hi, Option.map_some, eq_comm, Option.map_eq_some_iff] at hvar
        obtain ⟨v, -, hv⟩ := hvar
        rw [hj, Origin.eq_of_var?_eq hissued hv.symm (heq.trans hv.symm)]
  · intro horigins
    apply Option.map_injective (Option.some_injective _)
    rw [← hplace, ← hplace, horigins]

end Origins

/-! ## Whole programs -/

/-- The names of a program are identifiers and do not meet by accident.  `given` are the fresh
variables that were given out for the program, in order, and `bound` are the names that its query
binds. -/
structure HygienicNames (given bound : List String) (program : Program) : Prop where
  words : ∀ command ∈ program.flatten, ∀ word ∈ command.words, IsName word
  attributes : ∀ decl ∈ program.decls, decl.names.Nodup
  choiceDomains : ∀ decl ∈ program.decls, ∀ domain ∈ decl.choiceDomains, domain ⊆ decl.names
  /-- No variable has two origins. -/
  origin_unique : ∀ (o o' : Origin) (v : String),
    o.var? given = some v → o'.var? given = some v → o = o'
  /-- Every place of a rule has an origin, and places hold the same variable exactly if they have
  the same origin. -/
  places : ∀ rule ∈ program.rules, ∃ origins : List Origin,
    origins.map (Origin.var? given) = rule.vars.map some ∧
    (∀ x, .scalar x ∈ origins → x ∈ bound) ∧
    ∀ i j : Nat, rule.vars[i]? = rule.vars[j]? ↔ origins[i]? = origins[j]?
  /-- A fresh variable joins no two places of one atom. -/
  linear : ∀ rule ∈ program.rules, ∀ atom ∈ rule.atoms, ∀ v ∈ given, atom.vars.count v ≤ 1

section Programs

variable {inputs : List (String × List ColumnType)} {scope : Scope} {e : Expr} {c : Compiled}
variable {sites : List Compile.Site} {decls : List Decl} {program : Program}

/-- Over inputs, the scalars that an expression may use are those that it binds. -/
theorem mem_binders_of_usable (hinputs : Scope.ofInputs inputs = .ok scope) {x : String}
    (h : Compile.Usable scope e x) : x ∈ e.binders := by
  rcases h with ⟨s, hs⟩ | hx
  · obtain ⟨types, -, heq⟩ := (Scope.lookup_ofInputs hinputs).mp hs
    cases heq
  · exact hx

/-- Every declaration of a program has distinct attributes, to which its choice domains belong. -/
theorem Assembly.attributes (h : Assembly inputs scope e c sites decls program)
    (hinputs : Scope.ofInputs inputs = .ok scope) :
    ∀ decl ∈ program.decls, decl.names.Nodup ∧
      ∀ domain ∈ decl.choiceDomains, domain ⊆ decl.names := by
  obtain ⟨hscope, hdistinct⟩ := (Compile.Reachable.inputs hinputs).invariant
  obtain ⟨later, hderives⟩ := h.derives
  obtain ⟨options, hcommands⟩ := h.commands
  obtain ⟨relations, vars, -, hclean⟩ := hderives.clean hscope
  rw [h.program_decls, List.forall_mem_append]
  refine ⟨fun decl hdecl => ?_, fun decl hdecl => ?_⟩
  · obtain ⟨input, -, hdeclare⟩ := h.exists_input_of_mem_decls hinputs hdecl
    obtain ⟨hnames, -, hdomains⟩ := Scope.names_of_declare hdeclare
    rw [hnames, hdomains]
    exact ⟨Predicate.nodup_attributeNames List.nodup_nil, by simp⟩
  · obtain ⟨site, hsite, hdeclare⟩ := Compile.exists_site_of_mem_decls hcommands decl hdecl
    obtain ⟨hnames, -, hdomains⟩ := Scope.names_of_declare hdeclare
    rw [hnames, hdomains]
    refine ⟨Predicate.nodup_attributeNames ?_, ?_⟩
    · exact hderives.nodup_params_of_mem hscope hdistinct site hsite
    · exact (hclean _ (List.mem_map_of_mem hsite)).choiceDomains

/-- The rules of a program are clean with the variables that are given out while it is compiled. -/
theorem Assembly.cleanRules (h : Assembly inputs scope e c sites decls program)
    (hinputs : Scope.ofInputs inputs = .ok scope) {options : Compile.Options} {later : FreshNames}
    (hcompile : Compile.compile options scope e (.inScope scope) = .ok (c, later)) :
    ∃ relations given, Issued (.inScope scope) relations given later ∧
      ∀ rule ∈ program.rules, Compile.CleanRule given (· ∈ e.binders) rule := by
  obtain ⟨own, hderives, hown⟩ := Compile.exists_derives_of_compile hcompile
  obtain ⟨relations, given, hissued, hclean⟩ := hderives.clean (Scope.wellScoped_ofInputs hinputs)
  -- The sites of the run and those of the assembly are printed alike, so they have the same rules.
  have hrules : program.rules = own.flatMap (·.definition.rules) := by
    obtain ⟨options', hcommands⟩ := h.commands
    rw [h.rules, ← Compile.rules_siteCommands hcommands, Compile.rules_siteCommands hown]
  refine ⟨relations, given, hissued, fun rule hrule => ?_⟩
  rw [hrules] at hrule
  obtain ⟨site, hsite, hrule⟩ := List.mem_flatMap.mp hrule
  exact ((hclean _ (List.mem_map_of_mem hsite)).rules rule hrule).mono (List.Subset.refl _)
    fun _ => mem_binders_of_usable hinputs

/-- The names of a compiled program are hygienic, with the variables that some requests got. -/
theorem Assembly.hygienic (h : Assembly inputs scope e c sites decls program)
    (hinputs : Scope.ofInputs inputs = .ok scope) (hnames : ∀ input ∈ inputs, IsName input.1)
    (hbinders : ∀ x ∈ e.binders, IsName x) {options : Compile.Options} {later : FreshNames}
    (hcompile : Compile.compile options scope e (.inScope scope) = .ok (c, later)) :
    ∃ requests, (FreshNames.inScope scope).serveAll requests = later ∧
      HygienicNames ((FreshNames.inScope scope).varsFor requests) e.binders program := by
  obtain ⟨relations, given, hissued, hclean⟩ := h.cleanRules hinputs hcompile
  have hattributes := h.attributes hinputs
  obtain ⟨requests, hlater, -, hgiven⟩ := hissued.served
  refine ⟨requests, hlater, ?_⟩
  rw [hgiven]
  refine ⟨h.words hinputs hnames hbinders, fun decl hdecl => (hattributes decl hdecl).1,
    fun decl hdecl => (hattributes decl hdecl).2, fun o o' v => Origin.eq_of_var?_eq hissued,
    fun rule hrule => ?_, fun rule hrule atom hatom v hv => ?_⟩
  · obtain ⟨origins, hvars, hbound⟩ := exists_origins (hclean rule hrule).vars
    exact ⟨origins, hvars, hbound, places_eq_iff hissued hvars⟩
  · exact ((hclean rule hrule).atoms atom hatom).linear v (hissued.not_param hv)

end Programs

/-- The program of a query has hygienic names, whatever the inputs and the bound names are. -/
theorem Query.prepared_names_hygienic {source : String} {relations : Relations}
    {options : Compile.Options} {query : PreparedQuery}
    (h : Query.prepare source relations options = .ok query) :
    ∃ (e : Expr) (scope : Scope) (c : Compiled) (program : Program) (requests : List Request),
      Expr.parse source = .ok e ∧
      Scope.ofInputs (relations.entries.map fun entry => (entry.1, entry.2.types)) = .ok scope ∧
      Compile.compile options scope e (.inScope scope) =
        .ok (c, (FreshNames.inScope scope).serveAll requests) ∧
      c.assemble scope = .ok program ∧ query = ⟨program.render, c.predicate⟩ ∧
      HygienicNames ((FreshNames.inScope scope).varsFor requests) e.binders program := by
  obtain ⟨e, scope, c, program, hnames, hparse, hinputs, hcompile, hassemble, rfl⟩ :=
    Query.prepare_eq_ok_iff.mp h
  obtain ⟨later, hrun⟩ := Expr.compile_eq_ok.mp hcompile
  obtain ⟨program', sites, decls, hassemble', hassembly⟩ := exists_assembly hinputs hcompile
  obtain rfl : program = program' := Except.ok.inj (hassemble.symm.trans hassemble')
  have hinputNames : ∀ input ∈ relations.entries.map fun entry => (entry.1, entry.2.types),
      IsName input.1 := by
    rw [List.forall_mem_map]
    intro entry hentry
    exact (Bool.and_eq_true_iff.mp (hnames entry.1 (List.mem_map_of_mem hentry))).1
  have hbinders : ∀ x ∈ e.binders, IsName x := fun x hx => (isName_of_mem_binders hparse x hx).1
  obtain ⟨requests, rfl, hhygienic⟩ := hassembly.hygienic hinputs hinputNames hbinders hrun
  exact ⟨e, scope, c, program, requests, hparse, hinputs, hrun, hassemble, rfl, hhygienic⟩

namespace Sample

/-- Inputs with names that fresh variables and the variables of scalars might have. -/
def awkwardInputs : Relations :=
  .ofList [("val_1", ⟨[.number], []⟩), ("x_e", ⟨[.number, .symbol], []⟩)]

/-- The variable of the scalar `x` is spelled as an input, and that of `idx_2` almost as a rank. -/
def awkwardSource : String :=
  "x, idx_2 : x_e | index (x + val_1 , x_e)"

def awkwardProgram? : Option Program := do
  let e ← (Expr.parse awkwardSource).toOption
  let scope ← (Scope.ofInputs
    (awkwardInputs.entries.map fun entry => (entry.1, entry.2.types))).toOption
  let (c, _) ← (Compile.compile ⟨true⟩ scope e (.inScope scope)).toOption
  (c.assemble scope).toOption

/-- The head of the rule that counts the ranks up. -/
def nextRank : Datalog.Atom :=
  ⟨"R4", [.var "idx_11", .var "val_7", .var "x_e_8", .var "x_e_9", .var "x_e"]⟩

/-- The declaration of the ranks. -/
def ranks : Datalog.Decl :=
  ⟨"R4", [⟨"idx_0", .number⟩, ⟨"val_1", .number⟩, ⟨"x_e_2", .number⟩, ⟨"x_e_3", .symbol⟩,
    ⟨"x_e", .number⟩], [["val_1", "x_e_2", "x_e_3", "x_e"], ["idx_0", "x_e"]]⟩

end Sample

theorem sample_names_hygienic :
    ∃ query e scope c program requests,
      Query.prepare Sample.awkwardSource Sample.awkwardInputs ⟨true⟩ = .ok query ∧
      Expr.parse Sample.awkwardSource = .ok e ∧ e.binders = ["x", "idx_2"] ∧
      Compile.compile ⟨true⟩ scope e (.inScope scope) =
        .ok (c, (FreshNames.inScope scope).serveAll requests) ∧
      c.assemble scope = .ok program ∧ query.program = program.render ∧
      (Sample.ranks ∈ program.decls ∧ Sample.ranks.names.Nodup ∧
        ∃ rule ∈ program.rules, rule.head = Sample.nextRank ∧
          "x_e" ∉ (FreshNames.inScope scope).varsFor requests) ∧
      HygienicNames ((FreshNames.inScope scope).varsFor requests) ["x", "idx_2"] program := by
  have hprepare : (Query.prepare Sample.awkwardSource Sample.awkwardInputs
      ⟨true⟩).toOption.isSome = true := by decide +kernel
  have hparse : (Expr.parse Sample.awkwardSource).toOption.map Expr.binders =
      some ["x", "idx_2"] := by decide +kernel
  have hcontains : Sample.awkwardProgram?.any (fun program =>
      program.decls.contains Sample.ranks &&
        (program.rules.map (·.head)).contains Sample.nextRank) = true := by decide +kernel
  obtain ⟨query, hquery⟩ := Option.isSome_iff_exists.mp hprepare
  obtain ⟨e, scope, c, program, requests, hread, hscope, hcompile, hassemble, rfl, hhygienic⟩ :=
    Query.prepared_names_hygienic (except_toOption_eq_some.mp hquery)
  have hbinders : e.binders = ["x", "idx_2"] := by
    rw [hread] at hparse
    exact Option.some.inj hparse
  have hprogram : Sample.awkwardProgram? = some program := by
    unfold Sample.awkwardProgram?
    rw [hread, hscope]
    simp [Except.toOption, hcompile, hassemble]
  rw [hprogram, Option.any_some, Bool.and_eq_true, List.contains_iff_mem, List.contains_iff_mem]
    at hcontains
  obtain ⟨hdecl, hhead⟩ := hcontains
  obtain ⟨rule, hrule, hhead⟩ := List.mem_map.mp hhead
  have hscalar : "x_e" ∉ (FreshNames.inScope scope).varsFor requests := by
    intro hmem
    obtain ⟨turn, hturn⟩ := List.mem_iff_getElem?.mp hmem
    cases hhygienic.origin_unique (.fresh turn) (.scalar "x") "x_e" hturn rfl
  rw [hbinders] at hhygienic
  exact ⟨_, e, scope, c, program, requests, except_toOption_eq_some.mp hquery, hread, hbinders,
    hcompile, hassemble, rfl,
    ⟨hdecl, hhygienic.attributes _ hdecl, rule, hrule, hhead, hscalar⟩, hhygienic⟩

end RelQuery
