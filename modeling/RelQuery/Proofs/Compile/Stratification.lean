import RelQuery.Proofs.Compile.Assembly
import RelQuery.Proofs.Datalog.Ordered

/-!
# Generated programs are ordered

The relations of a scope are declared before anything that is compiled in the scope.  A node
defines relations with new names, one after the other, and their rules look at operands, at atoms
of scalars and at relations that the node has defined before.  By induction over derivations the
definitions of an expression come in layers on top of what its scope mentions, and the program made
from them is ordered.
-/

namespace RelQuery

open Datalog (Command Literal Rule)

/-! ## Relations that a scope mentions -/

namespace Scope

variable {scope : Scope} {known known' : List String} {name : String} {p : Predicate}

/-- Every relation that a scope mentions is among `known`. -/
structure Within (scope : Scope) (known : List String) : Prop where
  relation : ∀ {name p}, scope.lookup name = some (.relation p) → p.name ∈ known
  scalar : ∀ {name s}, scope.lookup name = some (.scalar s) → s.constraint.relation ∈ known

theorem Within.mono (h : scope.Within known) (hsubset : known ⊆ known') :
    scope.Within known' where
  relation := fun hlookup => hsubset (h.relation hlookup)
  scalar := fun hlookup => hsubset (h.scalar hlookup)

theorem Within.bind_relation (h : scope.Within known) (hp : p.name ∈ known) :
    (scope.bind name (.relation p)).Within known where
  relation := by
    intro other q hlookup
    rw [lookup_bind] at hlookup
    split at hlookup
    · cases hlookup
      exact hp
    · exact h.relation hlookup
  scalar := by
    intro other s hlookup
    rw [lookup_bind] at hlookup
    split at hlookup
    · cases hlookup
    · exact h.scalar hlookup

/-- Grounding looks at relations of the scope. -/
theorem Within.reads_ground (h : scope.Within known) {params bound : List String}
    {literals : List Literal} (hground : scope.ground params bound = .ok literals) :
    ∀ l ∈ literals, l.Reads known name := by
  intro l hl
  obtain ⟨x, s, hlookup, rfl⟩ := mem_ground hground hl
  exact .inr (h.scalar hlookup)

theorem within_ofInputs {inputs : List (String × List ColumnType)}
    (h : ofInputs inputs = .ok scope) : scope.Within (inputs.map Prod.fst) where
  relation := by
    intro name p hp
    obtain ⟨types, hmem, heq⟩ := (lookup_ofInputs h).mp hp
    cases heq
    exact List.mem_map_of_mem hmem
  scalar := by
    intro name s hs
    obtain ⟨types, -, heq⟩ := (lookup_ofInputs h).mp hs
    cases heq

end Scope

namespace Compile

variable {scope : Scope} {known : List String} {names mid later : FreshNames}
variable {a b c : Predicate} {em : Emission}

theorem within_comprehensionScope {scalars : List String} (hwithin : scope.Within known)
    (hscope : scope.WellScoped) (hnodup : scalars.Nodup)
    (hunbound : ∀ x ∈ scalars, scope.lookup x = none) (harity : c.arity = scalars.length)
    (hc : c.name ∈ known) : (comprehensionScope scope c scalars).Within known where
  relation := by
    intro name p hp
    rcases (lookup_comprehensionScope hscope hnodup hunbound harity).mp hp with hentry | houter
    · obtain ⟨k, column, -, -, heq⟩ := mem_comprehensionEntries.mp hentry
      cases heq
    · exact hwithin.relation houter
  scalar := by
    intro name s hs
    rcases (lookup_comprehensionScope hscope hnodup hunbound harity).mp hs with hentry | houter
    · obtain ⟨k, column, -, -, heq⟩ := mem_comprehensionEntries.mp hentry
      cases heq
      exact hc
    · exact hwithin.scalar houter

/-! ## Layers of definitions -/

def definedNames (definitions : List Definition) : List String :=
  definitions.map (·.predicate.name)

/-- Definitions of new relations, each of which looks at relations defined before it. -/
def Layered (known : List String) : List Definition → Prop
  | [] => True
  | d :: rest =>
    d.predicate.name ∉ known ∧ (∀ rule ∈ d.rules, rule.Follows known d.predicate.name) ∧
      Layered (known ++ [d.predicate.name]) rest

theorem layered_append {first second : List Definition} :
    Layered known (first ++ second) ↔
      Layered known first ∧ Layered (known ++ definedNames first) second := by
  induction first generalizing known with
  | nil => simp [Layered, definedNames]
  | cons d rest ih =>
      have hnames : known ++ definedNames (d :: rest) =
          known ++ [d.predicate.name] ++ definedNames rest := by
        simp [definedNames]
      rw [List.cons_append, Layered, Layered, ih, hnames, and_assoc, and_assoc]

/-- Layers on top of `known` after which a supply gives none of the names again. -/
structure Extends (known : List String) (definitions : List Definition) (later : FreshNames) :
    Prop where
  layered : Layered known definitions
  covers : ∀ name ∈ known ++ definedNames definitions, later.Covers name

theorem Extends.refl (hcovers : ∀ name ∈ known, later.Covers name) : Extends known [] later where
  layered := trivial
  covers := by simpa [definedNames] using hcovers

theorem Extends.trans {first second : List Definition} (hfirst : Extends known first mid)
    (hsecond : Extends (known ++ definedNames first) second later) :
    Extends known (first ++ second) later where
  layered := layered_append.mpr ⟨hfirst.layered, hsecond.layered⟩
  covers := by
    have hnames : known ++ definedNames (first ++ second) =
        known ++ definedNames first ++ definedNames second := by
      simp [definedNames]
    rw [hnames]
    exact hsecond.covers

/-- One definition with a new name is a layer when its rules look at `known`. -/
theorem extends_definition {d : Definition} {vars : List String}
    (hcovers : ∀ name ∈ known, names.Covers name)
    (hissued : FreshNames.Issued names [d.predicate.name] vars later)
    (hrules : ∀ rule ∈ d.rules, rule.Follows known d.predicate.name) :
    Extends known [d] later where
  layered := by
    refine ⟨?_, hrules, trivial⟩
    intro hknown
    exact hissued.not_covers List.mem_cons_self (hcovers _ hknown)
  covers := by
    intro name hname
    rcases List.mem_append.mp hname with hknown | hnew
    · exact hissued.covers (hcovers name hknown)
    · exact hissued.covers_new hnew

/-! ## Layers of the operators -/

section Operators

variable (hcovers : ∀ name ∈ known, names.Covers name)

include hcovers

/-- The form of `extends_definition` for a node that defines one predicate. -/
theorem extends_single {result : Predicate} {label : String} {rules : List Rule}
    {vars : List String} (hissued : FreshNames.Issued names [result.name] vars later)
    (hrules : ∀ rule ∈ rules, rule.Follows known result.name) :
    Extends known (Emission.single result label rules).definitions later :=
  extends_definition hcovers hissued hrules

theorem extends_rule {result : Predicate} {label : String} {rule : Rule} {vars : List String}
    (hissued : FreshNames.Issued names [result.name] vars later)
    (hrule : rule.Follows known result.name) :
    Extends known (Emission.single result label [rule]).definitions later :=
  extends_single hcovers hissued (List.forall_mem_singleton.mpr hrule)

theorem extends_emitScalar (hscope : scope.Within known) {scalar : String}
    {binding : ScalarBinding} (hlookup : scope.lookup scalar = some (.scalar binding))
    (h : emitScalar scalar binding names = .ok (em, later)) :
    Extends known em.definitions later := by
  obtain ⟨result, hissued, -, -, rfl⟩ := emitScalar_ok h
  have hconstraint := hscope.scalar hlookup
  exact extends_rule hcovers hissued ⟨rfl, by simp [Literal.Reads, hconstraint]⟩

theorem extends_emitConstant {constant : Constant}
    (h : emitConstant constant names = .ok (em, later)) :
    Extends known em.definitions later := by
  obtain ⟨result, value, hissued, -, -, rfl⟩ := emitConstant_ok h
  exact extends_rule hcovers hissued ⟨rfl, by simp [Literal.Reads, Literal.assign]⟩

theorem extends_emitFormula (hscope : scope.Within known) {text : String}
    (h : emitFormula text scope names = .ok (em, later)) :
    Extends known em.definitions later := by
  obtain ⟨result, value, grounding, hissued, hground, -, -, rfl⟩ := emitFormula_ok h
  refine extends_rule hcovers hissued
    ⟨rfl, List.forall_mem_append.mpr ⟨hscope.reads_ground hground, ?_⟩⟩
  simp [Literal.Reads, Literal.assign]

theorem extends_emitComprehension {style : Style} {scalars : List String}
    (hc : c.name ∈ known) (hb : b.name ∈ known)
    (h : emitComprehension style scalars c b names = .ok (em, later)) :
    Extends known em.definitions later := by
  obtain ⟨result, vars, hissued, -, -, -, rfl⟩ := emitComprehension_ok h
  exact extends_rule hcovers hissued ⟨rfl, by simp [Literal.Reads, hc, hb]⟩

theorem extends_emitDropLast (ha : a.name ∈ known)
    (h : emitDropLast a names = .ok (em, later)) : Extends known em.definitions later := by
  obtain ⟨result, vars, hissued, -, -, -, -, rfl⟩ := emitDropLast_ok h
  exact extends_rule hcovers hissued ⟨rfl, by simp [Literal.Reads, ha]⟩

theorem extends_emitQuantifier (hscope : scope.Within known) (ha : a.name ∈ known)
    {quantifier : Quantifier} (h : emitQuantifier quantifier a scope names = .ok (em, later)) :
    Extends known em.definitions later := by
  obtain ⟨result, rules, hissued, -, -, rfl, hrules⟩ := emitQuantifier_ok h
  apply extends_single hcovers hissued
  cases quantifier with
  | some =>
      rw [hrules, List.forall_mem_singleton]
      exact ⟨rfl, by simp [Literal.Reads, ha]⟩
  | no =>
      obtain ⟨grounding, hground, rfl⟩ := hrules
      rw [List.forall_mem_singleton]
      exact ⟨rfl, List.forall_mem_cons.mpr ⟨ha, hscope.reads_ground hground⟩⟩

theorem extends_emitSetOperation (hscope : scope.Within known) (ha : a.name ∈ known)
    (hb : b.name ∈ known) {operation : SetOp}
    (h : emitSetOperation operation a b scope names = .ok (em, later)) :
    Extends known em.definitions later := by
  obtain ⟨result, vars, rules, hissued, -, -, -, -, rfl, hrules⟩ := emitSetOperation_ok h
  apply extends_single hcovers hissued
  cases operation with
  | union =>
      obtain ⟨forLeft, forRight, hleft, hright, rfl⟩ := hrules
      intro rule hrule
      rcases List.mem_pair.mp hrule with rfl | rfl
      · exact ⟨rfl, List.forall_mem_cons.mpr ⟨.inr ha, hscope.reads_ground hleft⟩⟩
      · exact ⟨rfl, List.forall_mem_cons.mpr ⟨.inr hb, hscope.reads_ground hright⟩⟩
  | intersection =>
      rw [hrules, List.forall_mem_singleton]
      exact ⟨rfl, by simp [Literal.Reads, ha, hb]⟩
  | difference =>
      obtain ⟨grounding, hground, rfl⟩ := hrules
      rw [List.forall_mem_singleton]
      exact ⟨rfl, List.forall_mem_cons.mpr
        ⟨.inr ha, List.forall_mem_cons.mpr ⟨hb, hscope.reads_ground hground⟩⟩⟩

theorem extends_rank (ha : a.name ∈ known) {d : Definition}
    (h : rank a names = .ok (d, later)) : Extends known [d] later := by
  obtain ⟨ranked, vars, previous, next, hissued, -, -, -, -, rfl⟩ := rank_ok h
  apply extends_definition hcovers hissued
  intro rule hrule
  rcases List.mem_pair.mp hrule with rfl | rfl
  · exact ⟨rfl, by simp [Literal.Reads, ha]⟩
  · exact ⟨rfl, by simp [Literal.Reads, Literal.assign, ha]⟩

theorem extends_accumulator {ranked : Predicate} (hranked : ranked.name ∈ known)
    {d : Definition} (h : accumulator a ranked names = .ok (d, later)) :
    Extends known [d] later := by
  obtain ⟨sums, first, previousRank, previousSum, rank, text, sum, hissued, -, -, rfl⟩ :=
    accumulator_ok h
  apply extends_definition hcovers hissued
  intro rule hrule
  rcases List.mem_pair.mp hrule with rfl | rfl
  · exact ⟨rfl, by simp [Literal.Reads, hranked]⟩
  · exact ⟨rfl, by simp [Literal.Reads, Literal.assign, hranked]⟩

theorem extends_highestRank {ranked : Predicate} (hranked : ranked.name ∈ known)
    {d : Definition} (h : highestRank a ranked names = .ok (d, later)) :
    Extends known [d] later := by
  obtain ⟨top, highest, each, hissued, -, -, rfl⟩ := highestRank_ok h
  apply extends_definition hcovers hissued
  rw [List.forall_mem_singleton]
  exact ⟨rfl, by simp [Literal.Reads, hranked]⟩

theorem extends_concatenated {sums top : Predicate} (hsums : sums.name ∈ known)
    (htop : top.name ∈ known) {d : Definition}
    (h : concatenated sums top names = .ok (d, later)) : Extends known [d] later := by
  obtain ⟨result, highest, text, hissued, -, -, rfl⟩ := concatenated_ok h
  apply extends_definition hcovers hissued
  rw [List.forall_mem_singleton]
  exact ⟨rfl, by simp [Literal.Reads, hsums, htop]⟩

/-- The four relations of a concatenation come one after the other. -/
theorem extends_emitConcat (ha : a.name ∈ known) (h : emitConcat a names = .ok (em, later)) :
    Extends known em.definitions later := by
  obtain ⟨ranked, sums, top, result, mid₁, mid₂, mid₃, -, hranked, hsums, htop, hresult, rfl⟩ :=
    emitConcat_ok h
  have hfirst := extends_rank hcovers ha hranked
  have hsecond := extends_accumulator hfirst.covers
    (List.mem_append_right known List.mem_cons_self) hsums
  have htwo := hfirst.trans hsecond
  have hthird := extends_highestRank htwo.covers
    (List.mem_append_right known List.mem_cons_self) htop
  have hthree := htwo.trans hthird
  have hfourth := extends_concatenated hthree.covers
    (List.mem_append_right known (by simp [definedNames]))
    (List.mem_append_right known (by simp [definedNames])) hresult
  exact hthree.trans hfourth

theorem extends_emitUnary (hscope : scope.Within known) (ha : a.name ∈ known) {op : UnaryOp}
    (h : emitUnary op a scope names = .ok (em, later)) : Extends known em.definitions later := by
  cases op with
  | quantify quantifier => exact extends_emitQuantifier hcovers hscope ha h
  | count =>
      obtain ⟨result, count, grounding, hissued, hground, -, -, rfl⟩ := emitCount_ok h
      exact extends_rule hcovers hissued
        ⟨rfl, List.forall_mem_cons.mpr ⟨ha, hscope.reads_ground hground⟩⟩
  | closure =>
      obtain ⟨result, source, target, middle, type, hissued, -, -, -, rfl⟩ := emitClosure_ok h
      apply extends_single hcovers hissued
      intro rule hrule
      rcases List.mem_pair.mp hrule with rfl | rfl
      · exact ⟨rfl, by simp [Literal.Reads, ha]⟩
      · exact ⟨rfl, by simp [Literal.Reads, ha]⟩
  | reflexiveClosure => simp [emitUnary, throw_eq_ok] at h
  | transpose =>
      obtain ⟨result, source, target, hissued, -, -, -, rfl⟩ := emitTranspose_ok h
      exact extends_rule hcovers hissued ⟨rfl, by simp [Literal.Reads, ha]⟩
  | aggregate function =>
      obtain ⟨result, value, each, grounding, hissued, -, hground, -, -, rfl⟩ :=
        emitAggregate_ok h
      exact extends_rule hcovers hissued
        ⟨rfl, List.forall_mem_cons.mpr ⟨ha, hscope.reads_ground hground⟩⟩
  | wildcardApply =>
      obtain ⟨result, vars, hissued, -, -, -, -, rfl⟩ := emitDropFirst_ok h
      exact extends_rule hcovers hissued ⟨rfl, by simp [Literal.Reads, ha]⟩
  | index =>
      obtain ⟨ranked, hranked, rfl⟩ := emitIndex_ok h
      exact extends_rank hcovers ha hranked
  | concat => exact extends_emitConcat hcovers ha h

theorem extends_emitBinary (hscope : scope.Within known) (ha : a.name ∈ known)
    (hb : b.name ∈ known) {op : BinaryOp}
    (h : emitBinary op a b scope names = .ok (em, later)) :
    Extends known em.definitions later := by
  cases op with
  | join =>
      obtain ⟨result, left, right, type, hissued, -, -, -, -, -, -, rfl⟩ := emitJoin_ok h
      exact extends_rule hcovers hissued ⟨rfl, by simp [Literal.Reads, ha, hb]⟩
  | compare comparison =>
      obtain ⟨result, lhs, rhs, type, hissued, -, -, -, -, -, rfl⟩ := emitComparison_ok h
      exact extends_rule hcovers hissued ⟨rfl, by simp [Literal.Reads, ha, hb]⟩
  | set operation => exact extends_emitSetOperation hcovers hscope ha hb h
  | product =>
      obtain ⟨result, left, right, hissued, -, -, -, -, rfl⟩ := emitProduct_ok h
      exact extends_rule hcovers hissued ⟨rfl, by simp [Literal.Reads, ha, hb]⟩
  | apply =>
      obtain ⟨result, vars, hissued, -, -, -, -, rfl⟩ := emitApply_ok h
      exact extends_rule hcovers hissued ⟨rfl, by simp [Literal.Reads, ha, hb]⟩
  | domainRestrict =>
      obtain ⟨result, vars, hissued, -, -, -, -, rfl⟩ := emitDomainRestrict_ok h
      exact extends_rule hcovers hissued ⟨rfl, by simp [Literal.Reads, ha, hb]⟩
  | rangeRestrict =>
      obtain ⟨result, vars, hissued, -, -, -, -, rfl⟩ := emitRangeRestrict_ok h
      exact extends_rule hcovers hissued ⟨rfl, by simp [Literal.Reads, ha, hb]⟩
  | arith operation =>
      obtain ⟨result, lhs, rhs, value, hissued, -, -, -, -, rfl⟩ := emitArithmetic_ok h
      exact extends_rule hcovers hissued ⟨rfl, by simp [Literal.Reads, Literal.assign, ha, hb]⟩

end Operators

/-! ## Layers of derivations -/

def siteDefinitions (sites : List Site) : List Definition :=
  sites.map (·.definition)

def knownAfter (known : List String) (sites : List Site) : List String :=
  known ++ definedNames (siteDefinitions sites)

theorem siteDefinitions_append (first second : List Site) :
    siteDefinitions (first ++ second) = siteDefinitions first ++ siteDefinitions second :=
  List.map_append

theorem siteDefinitions_sites (e : Expr) (scope : Scope) (em : Emission) :
    siteDefinitions (em.sites e scope) = em.definitions := by
  rw [siteDefinitions, Emission.sites, List.map_map]
  exact List.map_id _

theorem subset_knownAfter (known : List String) (sites : List Site) :
    known ⊆ knownAfter known sites :=
  List.subset_append_left ..

theorem knownAfter_append (known : List String) (first second : List Site) :
    knownAfter known (first ++ second) = knownAfter (knownAfter known first) second := by
  simp [knownAfter, siteDefinitions, definedNames]

/-- Layers of sites on top of the layers of other sites. -/
theorem Extends.append {sites sites' : List Site}
    (hsites : Extends known (siteDefinitions sites) mid)
    (hsites' : Extends (knownAfter known sites) (siteDefinitions sites') later) :
    Extends known (siteDefinitions (sites ++ sites')) later := by
  rw [siteDefinitions_append]
  exact hsites.trans hsites'

/-- The layers of a node hold the value of the node. -/
theorem Extends.node (hnode : Extends known em.definitions later) (e : Expr) (scope : Scope) :
    Extends known (siteDefinitions (em.sites e scope)) later ∧
      em.result.predicate.name ∈ knownAfter known (em.sites e scope) := by
  rw [knownAfter, siteDefinitions_sites]
  exact ⟨hnode, List.mem_append_right _ (List.mem_map_of_mem em.result_mem_definitions)⟩

theorem Extends.append_node {sites : List Site}
    (hsites : Extends known (siteDefinitions sites) mid)
    (hnode : Extends (knownAfter known sites) em.definitions later) (e : Expr) (scope : Scope) :
    Extends known (siteDefinitions (sites ++ em.sites e scope)) later ∧
      em.result.predicate.name ∈ knownAfter known (sites ++ em.sites e scope) := by
  obtain ⟨hextends, hresult⟩ := hnode.node e scope
  rw [knownAfter_append]
  exact ⟨hsites.append hextends, hresult⟩

/-- The definitions of an expression are layers on top of what its scope mentions, and the
predicate of the expression is one of these or is mentioned by the scope. -/
theorem Derives.extends {e : Expr} {p : Predicate} {sites : List Site}
    (h : Derives scope e names p sites later) (hscope : scope.WellScoped)
    (hwithin : scope.Within known) (hcovers : ∀ name ∈ known, names.Covers name) :
    Extends known (siteDefinitions sites) later ∧ p.name ∈ knownAfter known sites := by
  induction h generalizing known with
  | relation hlookup =>
      exact ⟨.refl hcovers, List.mem_append_left _ (hwithin.relation hlookup)⟩
  | scalar hlookup hemit =>
      exact (extends_emitScalar hcovers hwithin hlookup hemit).node _ _
  | constant hemit => exact (extends_emitConstant hcovers hemit).node _ _
  | formula hemit => exact (extends_emitFormula hcovers hwithin hemit).node _ _
  | unary hop hwild hinner hemit ih =>
      obtain ⟨hsites, ha⟩ := ih hscope hwithin hcovers
      have hnode := extends_emitUnary hsites.covers
        (hwithin.mono (subset_knownAfter known _)) ha hemit
      exact hsites.append_node hnode _ _
  | @dropFirst scope left right span names mid later b sites em hleft hright hinner hemit ih =>
      obtain ⟨hsites, hb⟩ := ih hscope hwithin hcovers
      have hwithin' := hwithin.mono (subset_knownAfter known sites)
      have hemit : emitUnary .wildcardApply b scope mid = .ok (em, later) := hemit
      have hnode := extends_emitUnary hsites.covers hwithin' hb hemit
      exact hsites.append_node hnode _ _
  | dropLast hleft hright hinner hemit ih =>
      obtain ⟨hsites, ha⟩ := ih hscope hwithin hcovers
      have hnode := extends_emitDropLast hsites.covers ha hemit
      exact hsites.append_node hnode _ _
  | @binary scope op left right span names mid mid' later a b sites sites' em hleft hright
      hfirst hsecond hemit ihfirst ihsecond =>
      obtain ⟨hsites, ha⟩ := ihfirst hscope hwithin hcovers
      have hwithin' := hwithin.mono (subset_knownAfter known sites)
      obtain ⟨hsites', hb⟩ := ihsecond hscope hwithin' hsites.covers
      have hboth := hsites.append hsites'
      rw [← knownAfter_append] at hb
      have ha' : a.name ∈ knownAfter known (sites ++ sites') := by
        rw [knownAfter_append]
        exact subset_knownAfter _ _ ha
      have hnode := extends_emitBinary hboth.covers
        (hwithin.mono (subset_knownAfter known (sites ++ sites'))) ha' hb hemit
      exact hboth.append_node hnode _ _
  | @letIn scope name value body span names mid later a b sites sites' hfree hwild hvalue hbody
      ihvalue ihbody =>
      have hlookup := Scope.isBound_eq_false_iff.mp hfree
      obtain ⟨hparams, -⟩ := hvalue.wellScoped hscope
      obtain ⟨hsites, ha⟩ := ihvalue hscope hwithin hcovers
      have hwithin' := hwithin.mono (subset_knownAfter known sites)
      obtain ⟨hsites', hb⟩ := ihbody (hscope.bind_relation hlookup hparams)
        (hwithin'.bind_relation ha) hsites.covers
      rw [knownAfter_append]
      exact ⟨hsites.append hsites', hb⟩
  | @comprehension scope style scalars constraint body span names mid mid' later c b sites sites'
      em hfree hwild hwild' hconstraint harity hbody hemit ihconstraint ihbody =>
      obtain ⟨hnodup, -, hunbound⟩ := firstRebound?_eq_none hfree
      obtain ⟨hparams, -⟩ := hconstraint.wellScoped hscope
      obtain ⟨hsites, hc⟩ := ihconstraint hscope hwithin hcovers
      have hwithin' := within_comprehensionScope (hwithin.mono (subset_knownAfter known sites))
        hscope hnodup hunbound harity hc
      obtain ⟨hsites', hb⟩ :=
        ihbody (wellScoped_comprehensionScope hscope hnodup hunbound harity hparams) hwithin'
          hsites.covers
      have hboth := hsites.append hsites'
      rw [← knownAfter_append] at hb
      have hc' : c.name ∈ knownAfter known (sites ++ sites') := by
        rw [knownAfter_append]
        exact subset_knownAfter _ _ hc
      have hnode := extends_emitComprehension hboth.covers hc' hb hemit
      exact hboth.append_node hnode _ _

/-! ## Ordered programs -/

theorem ordered_rules {rules : List Rule} {name : String}
    (hrules : ∀ rule ∈ rules, rule.Follows known name) :
    Command.Ordered (known ++ [name]) (rules.map .rule) := by
  induction rules with
  | nil => trivial
  | cons rule rest ih =>
      rw [List.forall_mem_cons] at hrules
      obtain ⟨hrule, hrest⟩ := hrules
      refine ⟨⟨known, ?_, ?_⟩, ?_⟩
      · rw [hrule.head]
      · rw [hrule.head]
        exact hrule
      · simpa [Command.declares] using ih hrest

theorem declares_rules (rules : List Rule) :
    (rules.map Command.rule).flatMap Command.declares = [] := by
  rw [List.flatMap_map]
  exact List.flatMap_eq_nil_iff.mpr fun _ _ => rfl

/-- Layers are printed as ordered commands that declare what the layers define. -/
theorem ordered_siteCommands {options : Options} {sites : List Site} {commands : List Command}
    (h : siteCommands options sites = .ok commands)
    (hlayered : Layered known (siteDefinitions sites)) :
    Command.Ordered known commands ∧
      commands.flatMap Command.declares = definedNames (siteDefinitions sites) := by
  revert hlayered known
  apply siteCommands_induction h
  · intro known _
    exact ⟨trivial, rfl⟩
  · intro site decl sites commands hdecl ih known hlayered
    obtain ⟨hnew, hrules, hrest⟩ := hlayered
    obtain ⟨hordered, hdeclares⟩ := ih hrest
    have hname : decl.relation = site.definition.predicate.name :=
      Scope.relation_of_declare hdecl
    have hfits : (Command.decl decl).Fits known := by
      rw [Command.Fits, hname]
      exact hnew
    have hbehind : Command.Ordered (known ++ [decl.relation])
        (site.definition.rules.map .rule ++ commands) := by
      rw [hname, Command.ordered_append, declares_rules, List.append_nil]
      exact ⟨ordered_rules hrules, hordered⟩
    refine ⟨⟨hfits, hbehind⟩, ?_⟩
    rw [List.cons_append, List.flatMap_cons, List.flatMap_append, declares_rules,
      List.nil_append, hdeclares, Command.declares, hname]
    rfl
  · intro text sites commands ih known hlayered
    obtain ⟨hordered, hdeclares⟩ := ih hlayered
    refine ⟨⟨trivial, trivial, ?_⟩, hdeclares⟩
    simpa [Command.blank, Command.declares] using hordered

end Compile

open Compile (siteDefinitions knownAfter)

theorem declares_inputCommands (decls : List Datalog.Decl) :
    (inputCommands decls).flatMap Command.declares = decls.map (·.relation) := by
  induction decls with
  | nil => rfl
  | cons decl rest ih => exact congrArg (decl.relation :: ·) ih

theorem ordered_inputCommands {known : List String} {decls : List Datalog.Decl}
    (hnodup : (known ++ decls.map (·.relation)).Nodup) :
    Command.Ordered known (inputCommands decls) := by
  induction decls generalizing known with
  | nil => trivial
  | cons decl rest ih =>
      have hnew : decl.relation ∉ known := by
        intro hmem
        exact (List.nodup_append.mp hnodup).2.2 _ hmem _ List.mem_cons_self rfl
      have hdeclared : decl.relation ∈ known ++ [decl.relation] := by simp
      have hrest : (known ++ [decl.relation] ++ rest.map (·.relation)).Nodup := by
        simpa using hnodup
      refine ⟨hnew, hdeclared, ?_⟩
      change Command.Ordered (known ++ [decl.relation] ++ []) (inputCommands rest)
      rw [List.append_nil]
      exact ih hrest

/-- A supply for a scope of inputs does not give out the name of an input. -/
theorem covers_inScope {inputs : List (String × List ColumnType)} {scope : Scope}
    (h : Scope.ofInputs inputs = .ok scope) :
    ∀ name ∈ inputs.map Prod.fst, (FreshNames.inScope scope).Covers name := by
  intro name hname
  obtain ⟨input, hinput, rfl⟩ := List.mem_map.mp hname
  refine .inl (List.mem_flatMap.mpr ⟨(input.1, Scope.inputPredicate input.1 input.2), ?_, ?_⟩)
  · rw [Scope.relations_ofInputs h]
    exact List.mem_map_of_mem hinput
  · exact List.mem_cons_self

namespace Assembly

variable {inputs : List (String × List ColumnType)} {scope : Scope} {e : Expr} {c : Compiled}
variable {sites : List Compile.Site} {decls : List Datalog.Decl} {program : Datalog.Program}

/-- The definitions of a program are layers on top of its inputs. -/
theorem layered (h : Assembly inputs scope e c sites decls program)
    (hinputs : Scope.ofInputs inputs = .ok scope) :
    Compile.Layered (inputs.map Prod.fst) (siteDefinitions sites) ∧
      c.predicate.name ∈ knownAfter (inputs.map Prod.fst) sites := by
  obtain ⟨later, hderives⟩ := h.derives
  obtain ⟨hextends, hresult⟩ := hderives.extends (Scope.wellScoped_ofInputs hinputs)
    (Scope.within_ofInputs hinputs) (covers_inScope hinputs)
  exact ⟨hextends.layered, hresult⟩

theorem ordered (h : Assembly inputs scope e c sites decls program)
    (hinputs : Scope.ofInputs inputs = .ok scope) : Command.Ordered [] program.flatten := by
  obtain ⟨options, hcommands⟩ := h.commands
  obtain ⟨hlayered, hresult⟩ := h.layered hinputs
  obtain ⟨hordered, hdeclares⟩ := Compile.ordered_siteCommands hcommands hlayered
  have hnodup : (([] : List String) ++ decls.map (·.relation)).Nodup := by
    rw [List.nil_append, h.decls_relation]
    exact Scope.names_nodup_of_ofInputs hinputs
  have hread := ordered_inputCommands hnodup
  have houtput : (Command.output c.predicate.name).Fits (knownAfter (inputs.map Prod.fst) sites) :=
    hresult
  rw [h.flatten, List.append_assoc, Command.ordered_append, declares_inputCommands,
    h.decls_relation, List.nil_append, List.cons_append]
  have hblank : Command.blank.declares = [] := rfl
  refine ⟨hread, trivial, ?_⟩
  rw [hblank, List.append_nil, Command.ordered_append, hdeclares]
  refine ⟨hordered, trivial, ?_, trivial⟩
  rw [hblank, List.append_nil]
  exact houtput

end Assembly

/-- A compiled expression can be assembled, and its program declares every relation once and before
its first use.  The declarations before a rule end with that of its head, and the relations that
the rule negates or aggregates stand before the head in them; the relation of the head itself occurs
in positive atoms of the body only. -/
theorem assembled_program_stratified {inputs : List (String × List ColumnType)}
    {scope : Scope} {e : Expr} {options : Compile.Options} {c : Compiled}
    (hinputs : Scope.ofInputs inputs = .ok scope) (hcompile : e.compile scope options = .ok c) :
    ∃ program, c.assemble scope = .ok program ∧
      (∀ command ∈ program.flatten, ∀ name ∈ command.uses ++ command.declares,
        (program.decls.map (·.relation)).count name = 1) ∧
      (∀ before command after, program.flatten = before ++ command :: after →
        ∀ name ∈ command.uses, name ∈ before.flatMap Command.declares) ∧
      (∀ before rule after, program.flatten = before ++ .rule rule :: after →
        ∃ lower, before.flatMap Command.declares = lower ++ [rule.head.relation] ∧
          (∀ l ∈ rule.body, l.relation? = some rule.head.relation →
            ∃ atom, l = .positive atom) ∧
          (∀ atom, .negated atom ∈ rule.body → atom.relation ∈ lower) ∧
          ∀ aggregate, .aggregate aggregate ∈ rule.body → aggregate.atom.relation ∈ lower) ∧
      program.undeclaredUses = [] := by
  obtain ⟨program, sites, decls, hassemble, hassembly⟩ := exists_assembly hinputs hcompile
  have hordered := hassembly.ordered hinputs
  refine ⟨program, hassemble, ?_, ?_, ?_, ?_⟩
  · intro command hcommand name hname
    exact Datalog.Program.count_decls_eq_one hordered hcommand hname
  · intro before command after hsplit
    rw [hsplit] at hordered
    exact hordered.fits.uses
  · intro before rule after hsplit
    rw [hsplit] at hordered
    exact hordered.stratified
  · exact Datalog.Program.undeclaredUses_eq_nil hordered

theorem sample_program_stratified :
    ∃ c program, Scope.ofInputs Sample.inputs = .ok Sample.scope ∧
      Sample.query.compile Sample.scope ⟨true⟩ = .ok c ∧
      c.assemble Sample.scope = .ok program ∧
      (Sample.ordersOf ∈ program.decls ∧ (program.decls.map (·.relation)).count "R3" = 1) ∧
      (∃ before after lower,
        program.flatten = before ++ .rule Sample.withoutOrder :: after ∧
        before.flatMap Command.declares = lower ++ ["R4"] ∧ "R3" ∈ lower) ∧
      (∀ before command after, program.flatten = before ++ command :: after →
        ∀ name ∈ command.uses, name ∈ before.flatMap Command.declares) ∧
      program.undeclaredUses = [] := by
  obtain ⟨c, program, hcompile, hassemble, hrule, hdecl⟩ := Sample.exists_assembled
  obtain ⟨program', hassemble', hcount, huses, hstrata, hundeclared⟩ :=
    assembled_program_stratified Sample.scope_ofInputs hcompile
  obtain rfl : program = program' := Except.ok.inj (hassemble.symm.trans hassemble')
  have hcommand : .decl Sample.ordersOf ∈ program.flatten := Datalog.Program.mem_decls.mp hdecl
  obtain ⟨before, after, hsplit⟩ := List.append_of_mem (Datalog.Program.mem_rules.mp hrule)
  obtain ⟨lower, hlower, -, hnegated, -⟩ := hstrata before _ after hsplit
  exact ⟨c, program, Sample.scope_ofInputs, hcompile, hassemble,
    ⟨hdecl, hcount _ hcommand "R3" List.mem_cons_self⟩,
    ⟨before, after, lower, hsplit, hlower, hnegated _ List.mem_cons_self⟩, huses, hundeclared⟩

end RelQuery
