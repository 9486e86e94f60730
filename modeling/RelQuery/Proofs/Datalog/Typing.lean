import Mathlib.Tactic
import RelQuery.Proofs.Schema.Predicate

/-!
# Well-typed rules

A typing gives every variable one type.  A rule is well typed under a typing when every atom has one
argument of the right type for each attribute of the declaration of its relation, both sides of every
constraint have one type, and aggregates are taken of numbers and give numbers.  Raw text counts as a
number.
-/

namespace RelQuery.Datalog

/-- One type for every variable. -/
abbrev Typing := String → ColumnType

/-- An argument that may stand in a column of a type.  A wildcard may stand anywhere. -/
def Term.HasType (τ : Typing) : Term → ColumnType → Prop
  | var v, type => τ v = type
  | wildcard, _ => True
  | number _, type => type = .number
  | symbol _, type => type = .symbol

/-- The type of a scalar expression.  A wildcard has no value, so it has no type here. -/
inductive ScalarExpr.HasType (τ : Typing) : ScalarExpr → ColumnType → Prop where
  | var (v : String) : HasType τ (.term (.var v)) (τ v)
  | number (value : Int) : HasType τ (.term (.number value)) .number
  | symbol (value : String) : HasType τ (.term (.symbol value)) .symbol
  | binary {op : ArithOp} {left right : ScalarExpr} (hleft : HasType τ left .number)
      (hright : HasType τ right .number) : HasType τ (.binary op left right) .number
  | cat {parts : List ScalarExpr} (hparts : ∀ part ∈ parts, HasType τ part .symbol) :
      HasType τ (.cat parts) .symbol
  | raw (text : String) : HasType τ (.raw text) .number

/-- The arguments of an atom are those that the declaration of its relation asks for. -/
def Atom.WellTyped (decls : List Decl) (τ : Typing) (atom : Atom) : Prop :=
  ∃ decl ∈ decls, decl.relation = atom.relation ∧
    List.Forall₂ (Term.HasType τ) atom.args (decl.attributes.map (·.type))

/-- The atom of an aggregate is well typed, and its target and its result are numbers. -/
structure Aggregate.WellTyped (decls : List Decl) (τ : Typing) (a : Aggregate) : Prop where
  atom : a.atom.WellTyped decls τ
  target : ∀ v ∈ a.target, τ v = .number
  result : τ a.result = .number

def Literal.WellTyped (decls : List Decl) (τ : Typing) : Literal → Prop
  | positive atom => atom.WellTyped decls τ
  | negated atom => atom.WellTyped decls τ
  | aggregate a => a.WellTyped decls τ
  | constraint left op right => ∃ type, left.HasType τ type ∧ right.HasType τ type ∧
      (op.isOrdering = true → type = .number)

structure Rule.WellTyped (decls : List Decl) (τ : Typing) (rule : Rule) : Prop where
  head : rule.head.WellTyped decls τ
  body : ∀ l ∈ rule.body, l.WellTyped decls τ

variable {decls : List Decl} {τ τ' : Typing}

/-! ## Arguments -/

theorem forall₂_hasType_vars {vars : List String} {types : List ColumnType} :
    List.Forall₂ (Term.HasType τ) (vars.map .var) types ↔ vars.map τ = types := by
  rw [List.forall₂_map_left_iff, ← List.forall₂_eq_eq_eq, List.forall₂_map_left_iff]
  rfl

theorem forall₂_hasType_wildcards (types : List ColumnType) :
    List.Forall₂ (Term.HasType τ) (List.replicate types.length .wildcard) types := by
  induction types with
  | nil => exact .nil
  | cons type rest ih => exact .cons trivial ih

/-- The types of arguments depend on the types of their variables only. -/
theorem forall₂_hasType_congr {terms : List Term} {types : List ColumnType}
    (h : List.Forall₂ (Term.HasType τ) terms types)
    (hagree : ∀ v ∈ terms.filterMap Term.var?, τ v = τ' v) :
    List.Forall₂ (Term.HasType τ') terms types := by
  induction h with
  | nil => exact .nil
  | @cons term type terms types hterm _ ih =>
      have hrest : ∀ v ∈ terms.filterMap Term.var?, τ v = τ' v := by
        intro v hv
        obtain ⟨other, hother, hvar⟩ := List.mem_filterMap.mp hv
        exact hagree v (List.mem_filterMap.mpr ⟨other, List.mem_cons_of_mem _ hother, hvar⟩)
      refine .cons ?_ (ih hrest)
      cases term with
      | var v =>
          have hv : τ v = τ' v :=
            hagree v (List.mem_filterMap.mpr ⟨_, List.mem_cons_self, rfl⟩)
          exact hv.symm.trans hterm
      | wildcard => trivial
      | number value => exact hterm
      | symbol value => exact hterm

/-- Whether an atom is well typed depends on the types of its variables only. -/
theorem Atom.WellTyped.congr {atom : Atom} (h : atom.WellTyped decls τ)
    (hagree : ∀ v ∈ atom.vars, τ v = τ' v) : atom.WellTyped decls τ' := by
  obtain ⟨decl, hdecl, hname, hargs⟩ := h
  exact ⟨decl, hdecl, hname, forall₂_hasType_congr hargs hagree⟩

/-! ## Assignments -/

theorem Literal.wellTyped_assign {v : String} {value : ScalarExpr}
    (h : value.HasType τ (τ v)) : (Literal.assign v value).WellTyped decls τ :=
  ⟨τ v, .var v, h, by simp [Comparison.isOrdering]⟩

end RelQuery.Datalog
