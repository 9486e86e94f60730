import Mathlib.Data.Finset.Option
import Mathlib.Data.Finset.Prod
import Mathlib.Logic.Relation
import Mathlib.Tactic
import RelQuery.Compile.Aggregate
import RelQuery.Compile.Scalar
import RelQuery.Proofs.Datalog.Model

/-!
# The set semantics of expressions

An expression denotes a finite set of tuples.  Names denote what an environment gives them; a scalar
is the set of its own value.  Each operator is a function on finite sets of tuples, and a
comprehension collects the denotations of its body over the tuples of its constraint, with its
variables bound to the values of one tuple at a time.

Formulas, indices and concatenations are left to the engine: plain expressions have none of them.
-/

namespace RelQuery

open Datalog (Operations)

abbrev Rows := Finset Tuple

namespace Rows

variable (A B : Rows)

/-! ## Joins, products, applications and restrictions -/

/-- The last value of a tuple of `A` is the first value of a tuple of `B`, and both are dropped. -/
def join : Rows :=
  ((A ×ˢ B).filter fun pair => pair.1 ≠ [] ∧ pair.1.getLast? = pair.2.head?).image fun pair =>
    pair.1.dropLast ++ pair.2.tail

def dropLast : Rows :=
  A.image List.dropLast

def dropFirst : Rows :=
  A.image List.tail

def product : Rows :=
  (A ×ˢ B).image fun pair => pair.1 ++ pair.2

/-- What is left of the tuples of `A` behind a tuple of `B`. -/
def apply : Rows :=
  ((A ×ˢ B).filter fun pair => pair.2 <+: pair.1).image fun pair => pair.1.drop pair.2.length

/-- The tuples of `B` that start with a tuple of `A`. -/
def domainRestrict : Rows :=
  B.filter fun t => ∃ s ∈ A, s <+: t

/-- The tuples of `A` that end with a tuple of `B`. -/
def rangeRestrict : Rows :=
  A.filter fun t => ∃ s ∈ B, s <:+ t

/-! ## Truth values and scalars -/

/-- The tuple without columns, where a condition holds. -/
def truth (p : Prop) [Decidable p] : Rows :=
  if p then {[]} else ∅

/-- What a function makes of every value of `A` and every value of `B`. -/
def pairwise (f : Value → Value → Rows) : Rows :=
  A.biUnion fun s => B.biUnion fun t =>
    match s, t with
    | [x], [y] => f x y
    | _, _ => ∅

def compare (comparison : Comparison) : Rows :=
  pairwise A B fun x y => truth (comparison.Holds x y)

def arith (ops : Operations) (operation : Arithmetic) : Rows :=
  pairwise A B fun x y =>
    ((ops.eval (Compile.arithOp operation) x y).map fun value => [value]).toFinset

/-! ## Counts and aggregates -/

def lastNumber? (t : Tuple) : Option Int :=
  match t.getLast? with
  | some (.number n) => some n
  | _ => none

def lastNumbers : Finset Int :=
  A.biUnion fun t => (lastNumber? t).toFinset

/-- The least or the greatest number of the last column, of which an empty set has none, or the sum
over all tuples. -/
def aggregate : NumericAggregate → Rows
  | .min => (A.lastNumbers.filter fun n => ∀ m ∈ A.lastNumbers, n ≤ m).image fun n => [.number n]
  | .max => (A.lastNumbers.filter fun n => ∀ m ∈ A.lastNumbers, m ≤ n).image fun n => [.number n]
  | .sum => {[.number (∑ t ∈ A, (lastNumber? t).getD 0)]}

/-! ## Closure -/

def Step (x y : Value) : Prop :=
  [x, y] ∈ A

open Classical in
/-- The pairs of values with a path of steps between them.  A path starts with the first value of
some tuple and ends with the second value of some tuple. -/
noncomputable def closure : Rows :=
  ((A ×ˢ A).image fun pair => pair.1.take 1 ++ pair.2.drop 1).filter fun t =>
    ∃ x y, t = [x, y] ∧ Relation.TransGen A.Step x y

variable {A B} {t : Tuple}

theorem mem_join :
    t ∈ A.join B ↔ ∃ s ∈ A, ∃ u ∈ B, s ≠ [] ∧ s.getLast? = u.head? ∧ s.dropLast ++ u.tail = t := by
  simp only [join, Finset.mem_image, Finset.mem_filter, Finset.mem_product, Prod.exists]
  constructor
  · rintro ⟨s, u, ⟨⟨hs, hu⟩, hne, hmatch⟩, ht⟩
    exact ⟨s, hs, u, hu, hne, hmatch, ht⟩
  · rintro ⟨s, hs, u, hu, hne, hmatch, ht⟩
    exact ⟨s, u, ⟨⟨hs, hu⟩, hne, hmatch⟩, ht⟩

theorem mem_product : t ∈ A.product B ↔ ∃ s ∈ A, ∃ u ∈ B, s ++ u = t := by
  simp only [product, Finset.mem_image, Finset.mem_product, Prod.exists, and_assoc,
    exists_and_left]

theorem mem_apply : t ∈ A.apply B ↔ ∃ s ∈ A, ∃ u ∈ B, u <+: s ∧ s.drop u.length = t := by
  simp only [apply, Finset.mem_image, Finset.mem_filter, Finset.mem_product, Prod.exists,
    and_assoc, exists_and_left]

theorem mem_truth {p : Prop} [Decidable p] : t ∈ truth p ↔ p ∧ t = [] := by
  unfold truth
  split <;> simp [*]

theorem mem_pairwise {f : Value → Value → Rows} :
    t ∈ A.pairwise B f ↔ ∃ x y, [x] ∈ A ∧ [y] ∈ B ∧ t ∈ f x y := by
  simp only [pairwise, Finset.mem_biUnion]
  constructor
  · rintro ⟨s, hs, u, hu, ht⟩
    split at ht
    · exact ⟨_, _, hs, hu, ht⟩
    · simp at ht
  · rintro ⟨x, y, hx, hy, ht⟩
    exact ⟨[x], hx, [y], hy, ht⟩

theorem mem_compare {comparison : Comparison} :
    t ∈ A.compare B comparison ↔
      t = [] ∧ ∃ x y, [x] ∈ A ∧ [y] ∈ B ∧ comparison.Holds x y := by
  simp only [compare, mem_pairwise, mem_truth]
  constructor
  · rintro ⟨x, y, hx, hy, hholds, ht⟩
    exact ⟨ht, x, y, hx, hy, hholds⟩
  · rintro ⟨ht, x, y, hx, hy, hholds⟩
    exact ⟨x, y, hx, hy, hholds, ht⟩

theorem mem_arith {ops : Operations} {operation : Arithmetic} :
    t ∈ A.arith B ops operation ↔ ∃ x y value, [x] ∈ A ∧ [y] ∈ B ∧
      ops.eval (Compile.arithOp operation) x y = some value ∧ [value] = t := by
  simp only [arith, mem_pairwise, Option.mem_toFinset, Option.mem_def, Option.map_eq_some_iff,
    exists_and_left]

theorem mem_lastNumbers {n : Int} : n ∈ A.lastNumbers ↔ ∃ t ∈ A, lastNumber? t = some n := by
  simp [lastNumbers]

theorem lastNumber?_eq_some {n : Int} :
    lastNumber? t = some n ↔ t.getLast? = some (.number n) := by
  unfold lastNumber?
  split
  · rename_i m hlast
    simp [hlast]
  · rename_i hother
    constructor
    · intro h
      cases h
    · intro hlast
      exact (hother n hlast).elim

/-- An aggregate yields numbers. -/
theorem exists_number_of_mem_aggregate {function : NumericAggregate}
    (h : t ∈ A.aggregate function) : ∃ n, t = [.number n] := by
  cases function with
  | min =>
      obtain ⟨n, -, rfl⟩ := Finset.mem_image.mp h
      exact ⟨n, rfl⟩
  | max =>
      obtain ⟨n, -, rfl⟩ := Finset.mem_image.mp h
      exact ⟨n, rfl⟩
  | sum => exact ⟨_, Finset.mem_singleton.mp h⟩

theorem mem_closure :
    t ∈ A.closure ↔ ∃ x y, t = [x, y] ∧ Relation.TransGen A.Step x y := by
  simp only [closure, Finset.mem_filter, and_iff_right_iff_imp]
  rintro ⟨x, y, rfl, hpath⟩
  obtain ⟨next, hfirst, -⟩ := Relation.TransGen.head'_iff.mp hpath
  obtain ⟨previous, -, hlast⟩ := Relation.TransGen.tail'_iff.mp hpath
  exact Finset.mem_image.mpr ⟨([x, next], [previous, y]),
    Finset.mem_product.mpr ⟨hfirst, hlast⟩, rfl⟩

/-- The closure of a set of pairs is the least transitive set that holds them. -/
theorem isLeast_closure (hpairs : ∀ t ∈ A, t.length = 2) :
    IsLeast {S : Set Tuple | ↑A ⊆ S ∧ ∀ x y z, [x, y] ∈ S → [y, z] ∈ S → [x, z] ∈ S}
      ↑A.closure := by
  refine ⟨⟨?_, ?_⟩, ?_⟩
  · intro t ht
    obtain ⟨x, y, rfl⟩ := List.length_eq_two.mp (hpairs t ht)
    exact mem_closure.mpr ⟨x, y, rfl, .single ht⟩
  · intro x y z hxy hyz
    obtain ⟨_, _, heq, hxy⟩ := mem_closure.mp hxy
    cases heq
    obtain ⟨_, _, heq, hyz⟩ := mem_closure.mp hyz
    cases heq
    exact mem_closure.mpr ⟨x, z, rfl, hxy.trans hyz⟩
  · rintro S ⟨hsubset, htrans⟩ t ht
    obtain ⟨x, y, rfl, hpath⟩ := mem_closure.mp ht
    induction hpath with
    | single hstep => exact hsubset hstep
    | tail hpath hstep ih =>
        exact htrans _ _ _ (ih (mem_closure.mpr ⟨_, _, rfl, hpath⟩)) (hsubset hstep)

end Rows

/-! ## Expressions -/

def Constant.toValue : Constant → Value
  | .number value => .number value
  | .text value => .symbol value

noncomputable def UnaryOp.denote (A : Rows) : UnaryOp → Rows
  | .quantify .some => .truth A.Nonempty
  | .quantify .no => .truth (¬ A.Nonempty)
  | .count => {[.number A.card]}
  | .closure => A.closure
  | .transpose => A.image List.reverse
  | .aggregate function => A.aggregate function
  | .wildcardApply => A.dropFirst
  | .reflexiveClosure | .index | .concat => ∅

def BinaryOp.denote (ops : Operations) (A B : Rows) : BinaryOp → Rows
  | .join => A.join B
  | .compare comparison => A.compare B comparison
  | .set .union => A ∪ B
  | .set .intersection => A ∩ B
  | .set .difference => A \ B
  | .product => A.product B
  | .apply => A.apply B
  | .domainRestrict => A.domainRestrict B
  | .rangeRestrict => A.rangeRestrict B
  | .arith operation => A.arith B ops operation

/-- The sets of tuples that names stand for. -/
abbrev Environment := String → Rows

/-- Every input is a set of tuples of its column types. -/
def Environment.WellTyped (env : Environment) (inputs : List (String × List ColumnType)) : Prop :=
  ∀ input ∈ inputs, ∀ t ∈ env input.1, t.map Value.type = input.2

instance (env : Environment) (inputs : List (String × List ColumnType)) :
    Decidable (env.WellTyped inputs) :=
  inferInstanceAs (Decidable (∀ input ∈ inputs, ∀ t ∈ env input.1, t.map Value.type = input.2))

def Environment.bindScalars (env : Environment) (names : List String) (t : Tuple) :
    Environment := fun name =>
  match (names.zip t).lookup name with
  | some value => {[value]}
  | none => env name

/-- The tuple that a comprehension yields for a tuple of its constraint and one of its body. -/
def Style.tuple : Style → Tuple → Tuple → Tuple
  | .keep, t, u => t ++ u
  | .image, _, u => u

namespace Expr

noncomputable def denote (ops : Operations) (env : Environment) : Expr → Rows
  | constant value _ => {[value.toValue]}
  | name n _ => env n
  | formula _ _ => ∅
  | unary op operand _ => op.denote (operand.denote ops env)
  | binary op left right _ =>
    match op, left.isWildcard, right.isWildcard with
    | .join, true, _ => (right.denote ops env).dropFirst
    | .join, false, true => (left.denote ops env).dropLast
    | op, _, _ => op.denote ops (left.denote ops env) (right.denote ops env)
  | comprehension style names constraint body _ =>
    (constraint.denote ops env).biUnion fun t =>
      (body.denote ops (env.bindScalars names t)).image (style.tuple t)
  | letIn n value body _ => body.denote ops (Function.update env n (value.denote ops env))

/-- Whether an expression has no formula, index or concatenation. -/
def isPlain : Expr → Bool
  | constant .. | name .. => true
  | formula .. => false
  | unary op operand _ => op != .index && op != .concat && operand.isPlain
  | binary _ left right _ => left.isPlain && right.isPlain
  | comprehension _ _ constraint body _ => constraint.isPlain && body.isPlain
  | letIn _ value body _ => value.isPlain && body.isPlain

end Expr

end RelQuery
