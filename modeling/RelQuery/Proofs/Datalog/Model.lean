import Mathlib.Algebra.BigOperators.Group.Finset.Basic
import Mathlib.Data.Finset.Image
import Mathlib.Tactic
import RelQuery.Datalog.Safety
import RelQuery.Proofs.Datalog.Ordered
import RelQuery.Relation.Basic

/-!
# The stratified least model of a program

Relations are sets of tuples.  An assignment gives every variable a value, and a rule derives the
tuples that match its head under an assignment that makes its body hold.  Relations get their tuples
one by one in the order of declarations: each has the least set that holds its facts and whatever
its rules derive from it and from the relations before it.  The meaning of the arithmetic operators
is a parameter and may be partial.  An aggregate ranges over all tuples that match its atom, and
choice domains are not looked at.  Raw text has no value, and neither has a wildcard in a constraint:
a constraint with one does not hold.  That is a convention for generated rules, whose constraints
have no wildcards; where a wildcard in a constraint may stand for any value, the literals of these
rules are satisfied exactly if they hold here.

In an ordered program the relations that a rule looks at have their final tuples when its head is
reached.  So the model as a whole satisfies the equation of each of its relations.
-/

namespace RelQuery

namespace Datalog

abbrev Assignment := String → Value

/-- The tuples of every relation. -/
abbrev Interpretation := String → Set Tuple

/-- A meaning of the arithmetic operators. -/
abbrev Operations := ArithOp → Int → Int → Option Int

/-! ## Scalars -/

/-- Arithmetic of the integers, rounding towards zero. -/
def ArithOp.eval : Operations
  | add, m, n => some (m + n)
  | sub, m, n => some (m - n)
  | mul, m, n => some (m * n)
  | div, m, n => if n = 0 then none else some (m.tdiv n)
  | mod, m, n => if n = 0 then none else some (m.tmod n)

/-- The meaning of an operator on two values: it is defined on numbers only. -/
def Operations.eval (ops : Operations) (op : ArithOp) : Value → Value → Option Value
  | .number m, .number n => (ops op m n).map .number
  | _, _ => none

def Term.eval (σ : Assignment) : Term → Option Value
  | var name => some (σ name)
  | wildcard => none
  | number n => some (.number n)
  | symbol s => some (.symbol s)

mutual

def ScalarExpr.eval (ops : Operations) (σ : Assignment) : ScalarExpr → Option Value
  | .term t => t.eval σ
  | .binary op left right => do
    let x ← left.eval ops σ
    let y ← right.eval ops σ
    ops.eval op x y
  | .cat parts => (ScalarExpr.evalText ops σ parts).map .symbol
  | .raw _ => none

/-- The symbols of some parts, one after the other. -/
def ScalarExpr.evalText (ops : Operations) (σ : Assignment) : List ScalarExpr → Option String
  | [] => some ""
  | part :: rest =>
    match part.eval ops σ, ScalarExpr.evalText ops σ rest with
    | some (.symbol text), some others => some (text ++ others)
    | _, _ => none

end

end Datalog

namespace Comparison

/-- Whether a comparison holds of two values.  Only numbers are ordered. -/
def Holds : Comparison → Value → Value → Prop
  | .eq, x, y => x = y
  | .ne, x, y => x ≠ y
  | .lt, .number m, .number n => m < n
  | .gt, .number m, .number n => m > n
  | .le, .number m, .number n => m ≤ n
  | .ge, .number m, .number n => m ≥ n
  | _, _, _ => False

instance (c : Comparison) (x y : Value) : Decidable (c.Holds x y) :=
  match c, x, y with
  | .eq, x, y => inferInstanceAs (Decidable (x = y))
  | .ne, x, y => inferInstanceAs (Decidable (x ≠ y))
  | .lt, .number m, .number n => inferInstanceAs (Decidable (m < n))
  | .gt, .number m, .number n => inferInstanceAs (Decidable (m > n))
  | .le, .number m, .number n => inferInstanceAs (Decidable (m ≤ n))
  | .ge, .number m, .number n => inferInstanceAs (Decidable (m ≥ n))
  | .lt, .symbol _, _ | .gt, .symbol _, _ | .le, .symbol _, _ | .ge, .symbol _, _ => .isFalse id
  | .lt, .number _, .symbol _ | .gt, .number _, .symbol _ | .le, .number _, .symbol _
  | .ge, .number _, .symbol _ => .isFalse id

end Comparison

namespace Datalog

/-! ## Atoms, aggregates and literals -/

def Term.Matches (σ : Assignment) : Term → Value → Prop
  | wildcard, _ => True
  | term, value => term.eval σ = some value

def Atom.Matches (σ : Assignment) (atom : Atom) (tuple : Tuple) : Prop :=
  List.Forall₂ (Term.Matches σ) atom.args tuple

def Atom.Holds (I : Interpretation) (σ : Assignment) (atom : Atom) : Prop :=
  ∃ tuple ∈ I atom.relation, atom.Matches σ tuple

/-- The result of a function over rows that each have a number. -/
def AggregateFunction.Gives (function : AggregateFunction) (rows : Finset (Tuple × Int))
    (result : Int) : Prop :=
  match function with
  | count => result = rows.card
  | sum => result = ∑ row ∈ rows, row.2
  | min => (∃ row ∈ rows, row.2 = result) ∧ ∀ row ∈ rows, result ≤ row.2
  | max => (∃ row ∈ rows, row.2 = result) ∧ ∀ row ∈ rows, row.2 ≤ result

/-- The tuples that an aggregate without a target ranges over. -/
def Aggregate.Selects (I : Interpretation) (σ : Assignment) (a : Aggregate) (tuple : Tuple) :
    Prop :=
  tuple ∈ I a.atom.relation ∧ a.atom.Matches σ tuple

/-- The tuples that an aggregate ranges over, with the number that its target has there.  The target
is a variable of the aggregate and not of the rule. -/
def Aggregate.SelectsNumber (I : Interpretation) (σ : Assignment) (a : Aggregate)
    (target : String) (row : Tuple × Int) : Prop :=
  row.1 ∈ I a.atom.relation ∧ a.atom.Matches (Function.update σ target (.number row.2)) row.1

/-- Whether the result of an aggregate is the value of its variable.  An aggregate over infinitely
many tuples has no result. -/
def Aggregate.Holds (I : Interpretation) (σ : Assignment) (a : Aggregate) : Prop :=
  match a.target with
  | none => a.function = .count ∧ ∃ rows : Finset Tuple,
      (∀ tuple, tuple ∈ rows ↔ a.Selects I σ tuple) ∧ σ a.result = .number rows.card
  | some target => ∃ rows : Finset (Tuple × Int),
      (∀ row, row ∈ rows ↔ a.SelectsNumber I σ target row) ∧
        ∃ result, a.function.Gives rows result ∧ σ a.result = .number result

def Literal.Holds (ops : Operations) (I : Interpretation) (σ : Assignment) : Literal → Prop
  | positive atom => atom.Holds I σ
  | negated atom => ¬ atom.Holds I σ
  | aggregate a => a.Holds I σ
  | constraint left op right =>
    ∃ x y, left.eval ops σ = some x ∧ right.eval ops σ = some y ∧ op.Holds x y

section Literals

variable {ops : Operations} {I : Interpretation} {σ : Assignment}

@[simp] theorem Literal.holds_positive {atom : Atom} :
    (Literal.positive atom).Holds ops I σ ↔ atom.Holds I σ :=
  Iff.rfl

@[simp] theorem Literal.holds_negated {atom : Atom} :
    (Literal.negated atom).Holds ops I σ ↔ ¬ atom.Holds I σ :=
  Iff.rfl

@[simp] theorem Literal.holds_aggregate {a : Aggregate} :
    (Literal.aggregate a).Holds ops I σ ↔ a.Holds I σ :=
  Iff.rfl

@[simp] theorem Literal.holds_compare {lhs rhs : String} {comparison : Comparison} :
    (Literal.constraint (.term (.var lhs)) comparison (.term (.var rhs))).Holds ops I σ ↔
      comparison.Holds (σ lhs) (σ rhs) := by
  simp [Literal.Holds, ScalarExpr.eval, Term.eval]

@[simp] theorem Literal.holds_assign {v : String} {value : ScalarExpr} :
    (Literal.assign v value).Holds ops I σ ↔ value.eval ops σ = some (σ v) := by
  simp [Literal.assign, Literal.Holds, ScalarExpr.eval, Term.eval, Comparison.Holds]

end Literals

/-! ## Programs -/

def Rule.Derives (ops : Operations) (I : Interpretation) (rule : Rule) (tuple : Tuple) : Prop :=
  ∃ σ, rule.head.Matches σ tuple ∧ ∀ l ∈ rule.body, l.Holds ops I σ

/-- A set of tuples for `name` that holds its facts and all that the rules of `name` derive from
it. -/
structure Closed (ops : Operations) (rules : List Rule) (facts : Set Tuple) (I : Interpretation)
    (name : String) (tuples : Set Tuple) : Prop where
  facts : facts ⊆ tuples
  rules : ∀ rule ∈ rules, rule.head.relation = name →
    ∀ tuple, rule.Derives ops (Function.update I name tuples) tuple → tuple ∈ tuples

/-- The least closed set of tuples for `name`. -/
def least (ops : Operations) (rules : List Rule) (facts : Set Tuple) (I : Interpretation)
    (name : String) : Set Tuple :=
  ⋂₀ {tuples | Closed ops rules facts I name tuples}

namespace Program

/-- The facts that a program reads for a relation. -/
def loaded (program : Program) (facts : Interpretation) (name : String) : Set Tuple :=
  {tuple | Command.input name ∈ program.flatten ∧ tuple ∈ facts name}

/-- Gives tuples to the relations `names`, one after the other. -/
def evaluate (ops : Operations) (program : Program) (facts : Interpretation)
    (names : List String) (I : Interpretation) : Interpretation :=
  names.foldl (fun I name =>
    Function.update I name (least ops program.rules (program.loaded facts name) I name)) I

/-- The stratified least model of a program for given facts. -/
def model (ops : Operations) (program : Program) (facts : Interpretation) : Interpretation :=
  program.evaluate ops facts (program.decls.map (·.relation)) fun _ => ∅

end Program

/-! ## What a meaning depends on -/

section Meaning

variable {ops : Operations} {I J : Interpretation} {σ τ : Assignment} {facts : Set Tuple}
variable {rules : List Rule} {name : String} {tuple : Tuple}

theorem Term.matches_congr {term : Term} {value : Value} (h : ∀ v ∈ term.var?, σ v = τ v) :
    term.Matches σ value ↔ term.Matches τ value := by
  cases term with
  | var v =>
      have hv : σ v = τ v := h v rfl
      simp only [Matches, eval, hv]
  | _ => exact Iff.rfl

/-- An atom depends on its own variables. -/
theorem Atom.matches_congr {atom : Atom} (h : ∀ v ∈ atom.vars, σ v = τ v) :
    atom.Matches σ tuple ↔ atom.Matches τ tuple := by
  have hargs : ∀ (args : List Term) (tuple : Tuple),
      (∀ term ∈ args, ∀ v ∈ term.var?, σ v = τ v) →
      (List.Forall₂ (Term.Matches σ) args tuple ↔ List.Forall₂ (Term.Matches τ) args tuple) := by
    intro args
    induction args with
    | nil => simp
    | cons term rest ih =>
        intro tuple hvars
        rw [List.forall_mem_cons] at hvars
        simp only [List.forall₂_cons_left_iff, Term.matches_congr hvars.1, ih _ hvars.2]
  refine hargs atom.args tuple fun term hterm v hv => ?_
  exact h v (List.mem_filterMap.mpr ⟨term, hterm, hv⟩)

theorem Atom.holds_congr {atom : Atom} (h : ∀ v ∈ atom.vars, σ v = τ v) :
    atom.Holds I σ ↔ atom.Holds I τ := by
  simp only [Holds, Atom.matches_congr h]

/-- A literal depends on the relation that it looks at. -/
theorem Literal.holds_congr {l : Literal} (h : ∀ name ∈ l.relation?, I name = J name) :
    l.Holds ops I σ ↔ l.Holds ops J σ := by
  cases l with
  | positive atom =>
      have hatom : I atom.relation = J atom.relation := h atom.relation rfl
      simp only [Holds, Atom.Holds, hatom]
  | negated atom =>
      have hatom : I atom.relation = J atom.relation := h atom.relation rfl
      simp only [Holds, Atom.Holds, hatom]
  | aggregate a =>
      have hatom : I a.atom.relation = J a.atom.relation := h a.atom.relation rfl
      simp only [Holds, Aggregate.Holds, Aggregate.Selects, Aggregate.SelectsNumber, hatom]
  | constraint left op right => exact Iff.rfl

theorem Rule.derives_congr {rule : Rule} (h : ∀ name ∈ rule.bodyRelations, I name = J name) :
    rule.Derives ops I tuple ↔ rule.Derives ops J tuple := by
  have hbody : ∀ σ, (∀ l ∈ rule.body, l.Holds ops I σ) ↔ ∀ l ∈ rule.body, l.Holds ops J σ := by
    intro σ
    refine forall₂_congr fun l hl => Literal.holds_congr fun name hname => ?_
    exact h name (List.mem_filterMap.mpr ⟨l, hl, hname⟩)
  simp only [Derives, hbody]

/-- The least set of tuples for a relation depends on the other relations that its rules look at. -/
theorem least_congr
    (h : ∀ rule ∈ rules, rule.head.relation = name →
      ∀ other ∈ rule.bodyRelations, other ≠ name → I other = J other) :
    least ops rules facts I name = least ops rules facts J name := by
  have hclosed : ∀ tuples, Closed ops rules facts I name tuples ↔
      Closed ops rules facts J name tuples := by
    intro tuples
    have hrule : ∀ rule ∈ rules, rule.head.relation = name → ∀ tuple,
        rule.Derives ops (Function.update I name tuples) tuple ↔
          rule.Derives ops (Function.update J name tuples) tuple := by
      intro rule hrule hhead tuple
      refine Rule.derives_congr fun other hother => ?_
      by_cases heq : other = name
      · rw [heq, Function.update_self, Function.update_self]
      · rw [Function.update_of_ne heq, Function.update_of_ne heq]
        exact h rule hrule hhead other hother heq
    constructor
    · rintro ⟨hfacts, hrules⟩
      exact ⟨hfacts, fun rule hmem hhead tuple hderives =>
        hrules rule hmem hhead tuple ((hrule rule hmem hhead tuple).mpr hderives)⟩
    · rintro ⟨hfacts, hrules⟩
      exact ⟨hfacts, fun rule hmem hhead tuple hderives =>
        hrules rule hmem hhead tuple ((hrule rule hmem hhead tuple).mp hderives)⟩
  simp only [least, hclosed]

/-- The least set of tuples for a relation depends on the rules of that relation. -/
theorem least_eq_of_rules {others : List Rule}
    (h : ∀ rule : Rule, rule.head.relation = name → (rule ∈ rules ↔ rule ∈ others)) :
    least ops rules facts I name = least ops others facts I name := by
  have hclosed : ∀ tuples, Closed ops rules facts I name tuples ↔
      Closed ops others facts I name tuples := by
    intro tuples
    constructor
    · rintro ⟨hfacts, hrules⟩
      exact ⟨hfacts, fun rule hrule hhead => hrules rule ((h rule hhead).mpr hrule) hhead⟩
    · rintro ⟨hfacts, hrules⟩
      exact ⟨hfacts, fun rule hrule hhead => hrules rule ((h rule hhead).mp hrule) hhead⟩
  simp only [least, hclosed]

/-- Without recursion the least set of tuples holds the facts and what the rules derive, and no
more. -/
theorem mem_least_of_not_recursive
    (h : ∀ rule ∈ rules, rule.head.relation = name → name ∉ rule.bodyRelations) :
    tuple ∈ least ops rules facts I name ↔ tuple ∈ facts ∨
      ∃ rule ∈ rules, rule.head.relation = name ∧ rule.Derives ops I tuple := by
  have hupdate : ∀ rule ∈ rules, rule.head.relation = name → ∀ tuples tuple,
      rule.Derives ops (Function.update I name tuples) tuple ↔ rule.Derives ops I tuple := by
    intro rule hrule hhead tuples tuple
    refine Rule.derives_congr fun other hother => Function.update_of_ne ?_ _ _
    rintro rfl
    exact h rule hrule hhead hother
  constructor
  · intro hleast
    refine hleast {tuple | tuple ∈ facts ∨
      ∃ rule ∈ rules, rule.head.relation = name ∧ rule.Derives ops I tuple} ⟨?_, ?_⟩
    · intro tuple hfact
      exact .inl hfact
    · intro rule hrule hhead tuple hderives
      exact .inr ⟨rule, hrule, hhead, (hupdate rule hrule hhead _ tuple).mp hderives⟩
  · rintro (hfact | ⟨rule, hrule, hhead, hderives⟩) tuples hclosed
    · exact hclosed.facts hfact
    · exact hclosed.rules rule hrule hhead tuple
        ((hupdate rule hrule hhead tuples tuple).mpr hderives)

end Meaning

/-! ## The equations of an ordered program -/

namespace Program

variable {ops : Operations} {program : Program} {facts I : Interpretation} {name : String}

theorem evaluate_append (first second : List String) :
    program.evaluate ops facts (first ++ second) I =
      program.evaluate ops facts second (program.evaluate ops facts first I) :=
  List.foldl_append

/-- Giving tuples to some relations changes no other. -/
theorem evaluate_of_notMem {names : List String} (h : name ∉ names) :
    program.evaluate ops facts names I name = I name := by
  induction names generalizing I with
  | nil => rfl
  | cons first rest ih =>
      rw [List.mem_cons, not_or] at h
      have hstep : program.evaluate ops facts (first :: rest) I =
          program.evaluate ops facts rest (Function.update I first
            (least ops program.rules (program.loaded facts first) I first)) := rfl
      rw [hstep, ih h.2, Function.update_of_ne h.1]

/-- In an ordered program a rule looks at relations declared before its head and at the head. -/
theorem exists_decls_of_mem_rules (h : Command.Ordered [] program.flatten) {rule : Rule}
    (hrule : rule ∈ program.rules) :
    ∃ known after, program.decls.map (·.relation) = known ++ rule.head.relation :: after ∧
      ∀ other ∈ rule.bodyRelations, other = rule.head.relation ∨ other ∈ known := by
  obtain ⟨before, after, hsplit⟩ := List.append_of_mem (mem_rules.mp hrule)
  rw [hsplit] at h
  obtain ⟨known, hknown, -⟩ := h.fits
  rw [List.nil_append] at hknown
  refine ⟨known, after.flatMap Command.declares, ?_, ?_⟩
  · rw [decls_relation, hsplit, List.flatMap_append, List.flatMap_cons, hknown,
      List.append_assoc]
    rfl
  · intro other hother
    have hused := h.fits.uses other (List.mem_cons_of_mem _ hother)
    rw [List.nil_append, hknown, List.mem_append, List.mem_singleton] at hused
    exact hused.symm

/-- The model of an ordered program gives every relation the least set of tuples that its rules
allow, the other relations being as in the model. -/
theorem model_eq_least (h : Command.Ordered [] program.flatten)
    (hname : name ∈ program.decls.map (·.relation)) :
    program.model ops facts name =
      least ops program.rules (program.loaded facts name) (program.model ops facts) name := by
  have hnodup : (program.decls.map (·.relation)).Nodup := by
    rw [decls_relation]
    exact h.nodup List.nodup_nil
  obtain ⟨before, after, hsplit⟩ := List.append_of_mem hname
  rw [hsplit, List.nodup_append, List.nodup_cons] at hnodup
  obtain ⟨-, ⟨hafter, -⟩, hdisjoint⟩ := hnodup
  have hbefore : name ∉ before := fun hmem => hdisjoint name hmem name List.mem_cons_self rfl
  have hmodel : program.model ops facts = program.evaluate ops facts (name :: after)
      (program.evaluate ops facts before fun _ => ∅) := by
    rw [model, hsplit, evaluate_append]
  have hown : program.model ops facts name = least ops program.rules (program.loaded facts name)
      (program.evaluate ops facts before fun _ => ∅) name := by
    rw [hmodel, ← List.singleton_append, evaluate_append, evaluate_of_notMem hafter]
    exact Function.update_self ..
  have hearlier : ∀ other ∈ before,
      program.evaluate ops facts before (fun _ => ∅) other = program.model ops facts other := by
    intro other hother
    have hlater : other ∉ name :: after := fun hmem => hdisjoint other hother other hmem rfl
    rw [hmodel, evaluate_of_notMem hlater]
  -- When `name` is reached, the relations that its rules look at have their final tuples.
  rw [hown]
  refine least_congr fun rule hrule hhead other hother hne => hearlier other ?_
  obtain ⟨known, rest, hdecls, hreads⟩ := exists_decls_of_mem_rules h hrule
  rw [hhead] at hdecls hreads
  have hsame : before = known := by
    have hlists : before ++ name :: after = known ++ name :: rest := hsplit.symm.trans hdecls
    exact ((List.append_cons_inj_of_notMem hbefore hafter).mp hlists).1
  rw [hsame]
  exact (hreads other hother).resolve_left hne

end Program

end Datalog

end RelQuery
