import RelQuery.Proofs.Meaning.Operators

/-!
# Compiling preserves meaning

By induction over derivations, the predicate of a plain expression represents what the expression
denotes, under every assignment of the scalars that the scope allows.  The body of a comprehension
is compiled once and is used under as many assignments as its constraint has tuples.

For a whole program the relations are those of its stratified least model.  The scope of the inputs
has no scalars, so the relation of the result is the denotation of the expression itself.
-/

namespace RelQuery

open Datalog (Assignment Atom Command Interpretation Operations Program Term)

namespace Compile

variable {ops : Operations} {M : Interpretation} {σ : Assignment} {scope : Scope}
variable {known : List String} {names later : FreshNames} {env : Environment} {A C : Rows}

/-! ## Scopes of lets and comprehensions -/

theorem Coherent.bind_relation (h : Coherent M σ scope env) {name : String} {p : Predicate}
    (hp : p.Represents M σ A) :
    Coherent M σ (scope.bind name (.relation p)) (Function.update env name A) where
  relation := by
    intro other q hlookup
    rw [Scope.lookup_bind] at hlookup
    split at hlookup
    · rename_i heq
      cases hlookup
      rw [heq, Function.update_self]
      exact hp
    · rename_i hne
      rw [Function.update_of_ne hne]
      exact h.relation hlookup
  scalar := by
    intro other s hlookup
    rw [Scope.lookup_bind] at hlookup
    split at hlookup
    · cases hlookup
    · rename_i hne
      rw [Function.update_of_ne hne]
      exact h.scalar hlookup
  constraint := by
    intro other s hlookup
    rw [Scope.lookup_bind] at hlookup
    split at hlookup
    · cases hlookup
    · exact h.constraint hlookup

section Comprehension

variable {c : Predicate} {scalars : List String} {t : Tuple}

/-- The values of the variables of a comprehension for one tuple of its constraint. -/
theorem assign_scalars (hnodup : scalars.Nodup) (hlength : t.length = scalars.length) {k : Nat}
    {x : String} (hx : scalars[k]? = some x) :
    t[k]? = some (σ.assign (scalars.map paramVar) t (paramVar x)) := by
  have hmap : (scalars.map paramVar).map (σ.assign (scalars.map paramVar) t) = t :=
    Assignment.map_assign_paramVar hnodup hlength.symm
  conv_lhs => rw [← hmap]
  rw [List.map_map, List.getElem?_map, hx]
  rfl

theorem bindScalars_of_getElem? (hnodup : scalars.Nodup) (hlength : t.length = scalars.length)
    {k : Nat} {x : String} {value : Value} (hx : scalars[k]? = some x)
    (hvalue : t[k]? = some value) : env.bindScalars scalars t x = {[value]} := by
  rw [Environment.bindScalars, lookup_zip_eq_some hnodup hlength.symm hx hvalue]

theorem bindScalars_of_notMem {x : String} (hx : x ∉ scalars) :
    env.bindScalars scalars t x = env x := by
  rw [Environment.bindScalars, lookup_zip_eq_none hx]

/-- The atom of a variable holds where the variables have the values of one tuple. -/
theorem holds_comprehensionScalar (hc : c.Represents M σ C) (ht : t ∈ C) {k : Nat} {x : String}
    {column : Column} (harity : c.arity = scalars.length)
    (hx : t[k]? = some (σ (paramVar x))) :
    (comprehensionScalar c scalars k x column).constraint.Holds M σ := by
  have hlength : t.length = scalars.length := (hc.length_eq ht).trans harity
  rw [comprehensionScalar, hc.holds_atom]
  refine ⟨t, ht, List.forall₂_iff_get.mpr ⟨by rw [List.length_mapIdx, hlength], ?_⟩⟩
  intro j hj hj'
  simp only [List.get_eq_getElem, List.getElem_mapIdx]
  by_cases heq : k = j
  · subst heq
    rw [if_pos rfl, Term.matches_var]
    exact (Option.some.inj ((List.getElem?_eq_getElem hj').symm.trans hx)).symm
  · rw [if_neg heq]
    exact Term.matches_wildcard

theorem Coherent.comprehension (h : Coherent M σ scope env) (hscope : scope.WellScoped)
    (hnodup : scalars.Nodup) (hunbound : ∀ x ∈ scalars, scope.lookup x = none)
    (harity : c.arity = scalars.length) (hparams : ∀ x ∈ c.params, scope.IsScalar x)
    (hc : c.Represents M σ C) (ht : t ∈ C) :
    Coherent M (σ.assign (scalars.map paramVar) t) (comprehensionScope scope c scalars)
      (env.bindScalars scalars t) := by
  have hlength : t.length = scalars.length := (hc.length_eq ht).trans harity
  have hnot : ∀ {x binding}, scope.lookup x = some binding → x ∉ scalars := by
    intro x binding hlookup hmem
    rw [hunbound x hmem] at hlookup
    cases hlookup
  have hkeep : ∀ x, scope.IsScalar x →
      σ (paramVar x) = σ.assign (scalars.map paramVar) t (paramVar x) := by
    rintro x ⟨s, hs⟩
    exact (Assignment.assign_paramVar_of_notMem (hnot hs)).symm
  have hlookups : ∀ {x : String} {binding : Binding},
      (comprehensionScope scope c scalars).lookup x = some binding ↔
        (x, binding) ∈ comprehensionEntries c scalars ∨ scope.lookup x = some binding :=
    lookup_comprehensionScope hscope hnodup hunbound harity
  constructor
  · intro name p hp
    rcases hlookups.mp hp with hentry | houter
    · obtain ⟨k, column, -, -, heq⟩ := mem_comprehensionEntries.mp hentry
      cases heq
    · rw [bindScalars_of_notMem (hnot houter)]
      refine (h.relation houter).congr (fun x hx => hkeep x ?_) (List.Subset.refl _)
      exact hscope.relation_params houter x hx
  · intro name s hs
    rcases hlookups.mp hs with hentry | houter
    · obtain ⟨k, column, hk, -, -⟩ := mem_comprehensionEntries.mp hentry
      exact bindScalars_of_getElem? hnodup hlength hk (assign_scalars hnodup hlength hk)
    · rw [bindScalars_of_notMem (hnot houter), h.scalar houter, ← hkeep name ⟨s, houter⟩]
  · intro name s hs
    rcases hlookups.mp hs with hentry | houter
    · obtain ⟨k, column, hk, -, heq⟩ := mem_comprehensionEntries.mp hentry
      cases heq
      have hc' := hc.congr (fun x hx => hkeep x (hparams x hx)) (List.Subset.refl _)
      exact holds_comprehensionScalar hc' ht harity (assign_scalars hnodup hlength hk)
    · have hvars : ∀ v ∈ s.constraint.vars,
          σ v = σ.assign (scalars.map paramVar) t v := by
        intro v hv
        obtain ⟨y, hy, rfl⟩ := List.mem_map.mp ((hscope.scalar_vars houter v).mp hv)
        rcases List.mem_cons.mp hy with rfl | hy
        · exact hkeep y ⟨s, houter⟩
        · exact hkeep y (hscope.scalar_params houter y hy)
      exact (Atom.holds_congr hvars).mp (h.constraint houter)

end Comprehension

/-! ## Derivations -/

theorem denote_binary {op : BinaryOp} {left right : Expr} (hleft : left.isWildcard = false)
    (hright : right.isWildcard = false) (span : Span) :
    (Expr.binary op left right span).denote ops env =
      op.denote ops (left.denote ops env) (right.denote ops env) := by
  cases op <;> simp [Expr.denote, hleft, hright]

theorem modelled_of_sites {e : Expr} {em : Emission}
    (h : ∀ site ∈ em.sites e scope, site.definition.Modelled ops M) :
    ∀ d ∈ em.definitions, d.Modelled ops M :=
  fun d hd => h ⟨e, scope, d⟩ (Emission.mem_sites.mpr ⟨d, hd, rfl⟩)

/-- The predicate of a plain expression represents what the expression denotes. -/
theorem Derives.represents {e : Expr} {p : Predicate} {sites : List Site}
    (h : Derives scope e names p sites later) (hplain : e.isPlain = true)
    (hscope : scope.WellScoped) (hwithin : scope.Within known)
    (hcovers : ∀ name ∈ known, names.Covers name)
    (hmodel : ∀ site ∈ sites, site.definition.Modelled ops M)
    (hcoherent : Coherent M σ scope env) : p.Represents M σ (e.denote ops env) := by
  induction h generalizing known σ env with
  | relation hlookup => exact hcoherent.relation hlookup
  | scalar hlookup hemit =>
      exact represents_emitScalar hcovers hwithin hcoherent (modelled_of_sites hmodel) hlookup
        hemit
  | constant hemit => exact represents_emitConstant hcovers (modelled_of_sites hmodel) hemit
  | formula hemit => cases hplain
  | @unary scope op inner span names mid later a sites em hop hwild hinner hemit ih =>
      simp only [Expr.isPlain, Bool.and_eq_true, bne_iff_ne] at hplain
      obtain ⟨⟨hindex, hconcat⟩, hplain⟩ := hplain
      obtain ⟨hsites, hown⟩ := List.forall_mem_append.mp hmodel
      obtain ⟨hextends, hka⟩ := hinner.extends hscope hwithin hcovers
      have ha := ih hplain hscope hwithin hcovers hsites hcoherent
      exact represents_emitUnary hextends.covers ha hka (modelled_of_sites hown) hscope
        (hwithin.mono (subset_knownAfter known sites)) hcoherent hindex hconcat hemit
  | dropFirst hleft hright hinner hemit ih =>
      simp only [Expr.isPlain, Bool.and_eq_true] at hplain
      obtain ⟨hsites, hown⟩ := List.forall_mem_append.mp hmodel
      obtain ⟨hextends, hkb⟩ := hinner.extends hscope hwithin hcovers
      have hb := ih hplain.2 hscope hwithin hcovers hsites hcoherent
      simp only [Expr.denote, hleft]
      exact represents_emitDropFirst hextends.covers hb hkb (modelled_of_sites hown) hemit
  | dropLast hleft hright hinner hemit ih =>
      simp only [Expr.isPlain, Bool.and_eq_true] at hplain
      obtain ⟨hsites, hown⟩ := List.forall_mem_append.mp hmodel
      obtain ⟨hextends, hka⟩ := hinner.extends hscope hwithin hcovers
      have ha := ih hplain.1 hscope hwithin hcovers hsites hcoherent
      simp only [Expr.denote, hleft, hright]
      exact represents_emitDropLast hextends.covers ha hka (modelled_of_sites hown) hemit
  | @binary scope op left right span names mid mid' later a b sites sites' em hleft hright
      hfirst hsecond hemit ihfirst ihsecond =>
      simp only [Expr.isPlain, Bool.and_eq_true] at hplain
      obtain ⟨hboth, hown⟩ := List.forall_mem_append.mp hmodel
      obtain ⟨hsites, hsites'⟩ := List.forall_mem_append.mp hboth
      obtain ⟨hextends, hka⟩ := hfirst.extends hscope hwithin hcovers
      have hwithin' := hwithin.mono (subset_knownAfter known sites)
      obtain ⟨hextends', hkb⟩ := hsecond.extends hscope hwithin' hextends.covers
      have ha := ihfirst hplain.1 hscope hwithin hcovers hsites hcoherent
      have hb := ihsecond hplain.2 hscope hwithin' hextends.covers hsites' hcoherent
      rw [denote_binary hleft hright]
      exact represents_emitBinary hextends'.covers ha hb (subset_knownAfter _ sites' hka) hkb
        (modelled_of_sites hown) hscope (hwithin'.mono (subset_knownAfter _ sites')) hcoherent
        hemit
  | @letIn scope name value body span names mid later a b sites sites' hfree hwild hvalue hbody
      ihvalue ihbody =>
      simp only [Expr.isPlain, Bool.and_eq_true] at hplain
      obtain ⟨hsites, hsites'⟩ := List.forall_mem_append.mp hmodel
      have hlookup := Scope.isBound_eq_false_iff.mp hfree
      obtain ⟨hparams, -⟩ := hvalue.wellScoped hscope
      obtain ⟨hextends, hka⟩ := hvalue.extends hscope hwithin hcovers
      have hwithin' := hwithin.mono (subset_knownAfter known sites)
      have ha := ihvalue hplain.1 hscope hwithin hcovers hsites hcoherent
      exact ihbody hplain.2 (hscope.bind_relation hlookup hparams) (hwithin'.bind_relation hka)
        hextends.covers hsites' (hcoherent.bind_relation ha)
  | @comprehension scope style scalars constraint body span names mid mid' later c b sites sites'
      em hfree hwild hwild' hconstraint harity hbody hemit ihconstraint ihbody =>
      simp only [Expr.isPlain, Bool.and_eq_true] at hplain
      obtain ⟨hboth, hown⟩ := List.forall_mem_append.mp hmodel
      obtain ⟨hsites, hsites'⟩ := List.forall_mem_append.mp hboth
      obtain ⟨hnodup, -, hunbound⟩ := firstRebound?_eq_none hfree
      obtain ⟨hparams, -⟩ := hconstraint.wellScoped hscope
      obtain ⟨hextends, hkc⟩ := hconstraint.extends hscope hwithin hcovers
      have hscope' := wellScoped_comprehensionScope hscope hnodup hunbound harity hparams
      have hwithin' := within_comprehensionScope (hwithin.mono (subset_knownAfter known sites))
        hscope hnodup hunbound harity hkc
      obtain ⟨hextends', hkb⟩ := hbody.extends hscope' hwithin' hextends.covers
      have hc := ihconstraint hplain.1 hscope hwithin hcovers hsites hcoherent
      -- The body is compiled once; the induction hypothesis is used anew for every tuple of the
      -- constraint, each with an assignment and an environment of its own.
      have hb : ∀ t ∈ constraint.denote ops env,
          b.Represents M (σ.assign (scalars.map paramVar) t)
            (body.denote ops (env.bindScalars scalars t)) := by
        intro t ht
        exact ihbody hplain.2 hscope' hwithin' hextends.covers hsites'
          (hcoherent.comprehension hscope hnodup hunbound harity hparams hc ht)
      have hfree' : ∀ x ∈ c.params, x ∉ scalars :=
        fun x hx => notMem_of_isScalar hunbound (hparams x hx)
      exact represents_emitComprehension hextends'.covers hc hb
        (subset_knownAfter _ sites' hkc) hkb hnodup harity hfree' (modelled_of_sites hown) hemit

/-! ## Relations of a program -/

theorem input_notMem_siteCommands {options : Options} {sites : List Site}
    {commands : List Command} (h : siteCommands options sites = .ok commands) (name : String) :
    Command.input name ∉ commands := by
  apply siteCommands_induction h
  · exact List.not_mem_nil
  · intro site decl sites commands _ ih hmem
    rw [List.cons_append, List.mem_cons, List.mem_append] at hmem
    rcases hmem with hdecl | hrule | hrest
    · cases hdecl
    · obtain ⟨rule, -, heq⟩ := List.mem_map.mp hrule
      cases heq
    · exact ih hrest
  · intro text sites commands ih hmem
    rw [List.mem_cons, List.mem_cons] at hmem
    rcases hmem with hblank | hcomment | hrest
    · cases hblank
    · cases hcomment
    · exact ih hrest

theorem Layered.head_relation {definitions : List Definition} (h : Layered known definitions) :
    ∀ d ∈ definitions, ∀ rule ∈ d.rules, rule.head.relation = d.predicate.name := by
  induction definitions generalizing known with
  | nil => simp
  | cons d rest ih =>
      obtain ⟨-, hrules, hrest⟩ := h
      exact List.forall_mem_cons.mpr ⟨fun rule hrule => (hrules rule hrule).head, ih hrest⟩

end Compile

namespace Assembly

variable {inputs : List (String × List ColumnType)} {scope : Scope} {e : Expr} {c : Compiled}
variable {sites : List Compile.Site} {decls : List Datalog.Decl} {program : Program}
variable {ops : Operations} {facts : Interpretation}

/-- A program reads its inputs and nothing else. -/
theorem mem_input (h : Assembly inputs scope e c sites decls program) {name : String} :
    Command.input name ∈ program.flatten ↔ name ∈ inputs.map Prod.fst := by
  obtain ⟨options, hcommands⟩ := h.commands
  have hsites := Compile.input_notMem_siteCommands hcommands name
  have hinput : Command.input name ∈ inputCommands decls ↔ name ∈ decls.map (·.relation) := by
    simp [inputCommands, eq_comm]
  rw [h.flatten, List.mem_append, List.mem_append, List.mem_cons, hinput, h.decls_relation]
  simp [hsites, Command.blank]

section Model

variable (h : Assembly inputs scope e c sites decls program)
variable (hinputs : Scope.ofInputs inputs = .ok scope)

include h hinputs

theorem names_nodup : (inputs.map Prod.fst ++ sites.map (·.predicate.name)).Nodup := by
  rw [← h.decls_relation_eq]
  exact Program.nodup_decls (h.ordered hinputs)

theorem exists_site_of_mem_rules {rule : Datalog.Rule} (hrule : rule ∈ program.rules) :
    ∃ site ∈ sites, rule ∈ site.definition.rules ∧
      rule.head.relation = site.predicate.name := by
  rw [h.rules] at hrule
  obtain ⟨site, hsite, hrule⟩ := List.mem_flatMap.mp hrule
  obtain ⟨hlayered, -⟩ := h.layered hinputs
  exact ⟨site, hsite, hrule,
    hlayered.head_relation _ (List.mem_map_of_mem hsite) rule hrule⟩

/-- In the model an input has the tuples that were read for it. -/
theorem model_input {name : String} (hname : name ∈ inputs.map Prod.fst) :
    program.model ops facts name = facts name := by
  have hdeclared : name ∈ program.decls.map (·.relation) := by
    rw [h.decls_relation_eq]
    exact List.mem_append_left _ hname
  have hrules : ∀ rule ∈ program.rules, rule.head.relation ≠ name := by
    intro rule hrule heq
    obtain ⟨site, hsite, -, hhead⟩ := h.exists_site_of_mem_rules hinputs hrule
    have hdisjoint := (List.nodup_append.mp (h.names_nodup hinputs)).2.2 name hname
      site.predicate.name (List.mem_map_of_mem hsite)
    exact hdisjoint (heq.symm.trans hhead)
  ext tuple
  rw [Program.model_eq_least (h.ordered hinputs) hdeclared, Datalog.mem_least_of_not_recursive]
  · constructor
    · rintro (hloaded | ⟨rule, hrule, hhead, -⟩)
      · exact hloaded.2
      · exact (hrules rule hrule hhead).elim
    · intro hfact
      exact .inl ⟨h.mem_input.mpr hname, hfact⟩
  · intro rule hrule hhead
    exact (hrules rule hrule hhead).elim

/-- In the model a defined predicate has the tuples that its own rules derive. -/
theorem modelled_sites :
    ∀ site ∈ sites, site.definition.Modelled ops (program.model ops facts) := by
  intro site hsite
  have hnodup := List.nodup_append.mp (h.names_nodup hinputs)
  have hdeclared : site.predicate.name ∈ program.decls.map (·.relation) := by
    rw [h.decls_relation_eq]
    exact List.mem_append_right _ (List.mem_map_of_mem hsite)
  have hloaded : program.loaded facts site.predicate.name = ∅ := by
    ext tuple
    constructor
    · rintro ⟨hinput, -⟩
      exact hnodup.2.2 _ (h.mem_input.mp hinput) _ (List.mem_map_of_mem hsite) rfl
    · intro hempty
      exact hempty.elim
  have hrules : ∀ rule : Datalog.Rule, rule.head.relation = site.predicate.name →
      (rule ∈ program.rules ↔ rule ∈ site.definition.rules) := by
    intro rule hhead
    constructor
    · intro hrule
      obtain ⟨other, hother, hmem, heq⟩ := h.exists_site_of_mem_rules hinputs hrule
      have hsame : other = site :=
        List.inj_on_of_nodup_map hnodup.2.1 hother hsite (heq.symm.trans hhead)
      rwa [hsame] at hmem
    · intro hrule
      rw [h.rules]
      exact List.mem_flatMap.mpr ⟨site, hsite, hrule⟩
  have hmodel : program.model ops facts site.predicate.name =
      Datalog.least ops program.rules (program.loaded facts site.predicate.name)
        (program.model ops facts) site.predicate.name :=
    Program.model_eq_least (h.ordered hinputs) hdeclared
  rw [hloaded, Datalog.least_eq_of_rules hrules] at hmodel
  exact hmodel

/-- The scope of the inputs is coherent with a database of well-typed tuples. -/
theorem coherent_inputs {db : Environment} (hdb : db.WellTyped inputs) (σ : Assignment) :
    Compile.Coherent (program.model ops fun name => ↑(db name)) σ scope db where
  relation := by
    intro name p hp
    obtain ⟨types, hmem, heq⟩ := (Scope.lookup_ofInputs hinputs).mp hp
    cases heq
    have hmodel : program.model ops (fun name => ↑(db name)) name = ↑(db name) :=
      h.model_input hinputs (List.mem_map_of_mem hmem)
    constructor
    · intro tuple htuple
      rw [Scope.inputPredicate, hmodel] at htuple
      have htypes := hdb _ hmem tuple htuple
      rw [← List.length_map Value.type, htypes]
      simp [Scope.inputPredicate, Predicate.arity]
    · intro t
      rw [Scope.inputPredicate, hmodel]
      simp [Predicate.row]
  scalar := by
    intro name s hs
    obtain ⟨types, -, heq⟩ := (Scope.lookup_ofInputs hinputs).mp hs
    cases heq
  constraint := by
    intro name s hs
    obtain ⟨types, -, heq⟩ := (Scope.lookup_ofInputs hinputs).mp hs
    cases heq

end Model

end Assembly

/-- A plain expression that compiles can be assembled, and in the stratified least model of its
program over a database of well-typed tuples the relation of the result is the set of tuples that
the expression denotes.  Arithmetic may mean anything, as long as it means the same on both
sides. -/
theorem assembled_model_eq_denotation {inputs : List (String × List ColumnType)}
    {scope : Scope} {e : Expr} {options : Compile.Options} {c : Compiled} {db : Environment}
    (ops : Operations) (hinputs : Scope.ofInputs inputs = .ok scope) (hplain : e.isPlain = true)
    (hcompile : e.compile scope options = .ok c) (hdb : db.WellTyped inputs) :
    ∃ program, c.assemble scope = .ok program ∧
      program.model ops (fun name => ↑(db name)) c.predicate.name = ↑(e.denote ops db) := by
  obtain ⟨program, sites, decls, hassemble, hassembly⟩ := exists_assembly hinputs hcompile
  refine ⟨program, hassemble, ?_⟩
  obtain ⟨later, hderives⟩ := hassembly.derives
  have hscope := Scope.wellScoped_ofInputs hinputs
  have hparams : c.predicate.params = [] := by
    obtain ⟨hscalars, -⟩ := hderives.wellScoped hscope
    rw [List.eq_nil_iff_forall_not_mem]
    intro x hx
    obtain ⟨s, hs⟩ := hscalars x hx
    obtain ⟨types, -, heq⟩ := (Scope.lookup_ofInputs hinputs).mp hs
    cases heq
  have hmodelled : ∀ site ∈ sites,
      site.definition.Modelled ops (program.model ops fun name => ↑(db name)) :=
    hassembly.modelled_sites hinputs
  have hrepresents := hderives.represents hplain hscope (Scope.within_ofInputs hinputs)
    (covers_inScope hinputs) hmodelled
    (hassembly.coherent_inputs hinputs hdb fun _ => .number 0)
  ext t
  rw [Finset.mem_coe, hrepresents.mem t, Predicate.row, hparams, List.map_nil, List.append_nil]

/-- Two persons, one of whom has orders. -/
def Sample.database : Environment := fun name =>
  if name = "person" then {[.symbol "ann"], [.symbol "bob"]}
  else if name = "R2" then {[.symbol "ann", .number 3], [.symbol "ann", .number 5]}
  else ∅

theorem sample_model_eq_denotation :
    ∃ c program, Scope.ofInputs Sample.inputs = .ok Sample.scope ∧
      Sample.query.isPlain = true ∧ Sample.query.compile Sample.scope ⟨true⟩ = .ok c ∧
      Sample.database.WellTyped Sample.inputs ∧ c.assemble Sample.scope = .ok program ∧
      program.model Datalog.ArithOp.eval (fun name => ↑(Sample.database name))
        c.predicate.name = {[.symbol "bob"]} := by
  obtain ⟨c, hcompile⟩ := Sample.exists_compiled ⟨true⟩
  have hdb : Sample.database.WellTyped Sample.inputs := by decide
  obtain ⟨program, hassemble, hmodel⟩ :=
    assembled_model_eq_denotation Datalog.ArithOp.eval Sample.scope_ofInputs rfl hcompile hdb
  have hdenote : Sample.query.denote Datalog.ArithOp.eval Sample.database =
      {[.symbol "bob"]} := by
    decide
  rw [hdenote, Finset.coe_singleton] at hmodel
  exact ⟨c, program, Sample.scope_ofInputs, rfl, hcompile, hdb, hassemble, hmodel⟩

end RelQuery
