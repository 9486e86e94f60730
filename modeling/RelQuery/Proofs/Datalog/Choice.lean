import Mathlib.Data.Finset.Card
import RelQuery.Proofs.Datalog.Model

/-!
# Relations with choice domains

An engine fills a relation with choice domains one tuple at a time.  It may insert any tuple that a
rule derives from what is there, as long as no tuple that is there has the same values under the
attributes of one of the domains.  Which of the tuples it inserts next is open, and so is the
relation it ends up with.
-/

namespace RelQuery.Datalog

/-- The values of a tuple under the attributes of a domain. -/
def restrict (attributes domain : List String) (tuple : Tuple) : Tuple :=
  ((attributes.zip tuple).filter fun entry => domain.contains entry.1).map (·.2)

section Restrict

variable {attributes others domain : List String} {tuple rest : Tuple}

theorem restrict_cons_of_mem {name : String} {value : Value} (h : name ∈ domain) :
    restrict (name :: attributes) domain (value :: tuple) =
      value :: restrict attributes domain tuple := by
  simp [restrict, h]

theorem restrict_cons_of_notMem {name : String} {value : Value} (h : name ∉ domain) :
    restrict (name :: attributes) domain (value :: tuple) = restrict attributes domain tuple := by
  simp [restrict, h]

theorem restrict_append (hlength : attributes.length = tuple.length) :
    restrict (attributes ++ others) domain (tuple ++ rest) =
      restrict attributes domain tuple ++ restrict others domain rest := by
  simp [restrict, List.zip_append hlength]

theorem restrict_of_subset (hlength : attributes.length = tuple.length)
    (hsubset : attributes ⊆ domain) : restrict attributes domain tuple = tuple := by
  have hfilter : (attributes.zip tuple).filter (fun entry => domain.contains entry.1) =
      attributes.zip tuple := by
    rw [List.filter_eq_self]
    intro entry hentry
    simpa using hsubset (List.of_mem_zip hentry).1
  rw [restrict, hfilter]
  exact List.map_snd_zip (by omega)

theorem restrict_of_disjoint (hdisjoint : ∀ name ∈ attributes, name ∉ domain) :
    restrict attributes domain tuple = [] := by
  rw [restrict, List.map_eq_nil_iff, List.filter_eq_nil_iff]
  intro entry hentry
  simpa using hdisjoint _ (List.of_mem_zip hentry).1

end Restrict

namespace Decl

variable {ops : Operations} {I : Interpretation} {decl : Decl} {rules : List Rule}
variable {R S : Finset Tuple} {n : Nat}

def names (decl : Decl) : List String :=
  decl.attributes.map (·.name)

/-- A tuple has other values than the tuples that are there, on every choice domain. -/
def Admits (decl : Decl) (R : Finset Tuple) (tuple : Tuple) : Prop :=
  ∀ domain ∈ decl.choiceDomains, ∀ other ∈ R,
    restrict decl.names domain other ≠ restrict decl.names domain tuple

/-- A new tuple that a rule derives and that the choice domains admit. -/
structure Insertable (ops : Operations) (I : Interpretation) (decl : Decl) (rules : List Rule)
    (R : Finset Tuple) (tuple : Tuple) : Prop where
  fresh : tuple ∉ R
  derived : ∃ rule ∈ rules, rule.Derives ops (Function.update I decl.relation R) tuple
  admitted : decl.Admits R tuple

/-- `R` is what an engine can have after `n` insertions. -/
inductive Run (ops : Operations) (I : Interpretation) (decl : Decl) (rules : List Rule) :
    Nat → Finset Tuple → Prop
  | start : Run ops I decl rules 0 ∅
  | insert {n : Nat} {R : Finset Tuple} {tuple : Tuple} (run : Run ops I decl rules n R)
      (insertable : decl.Insertable ops I rules R tuple) :
      Run ops I decl rules (n + 1) (insert tuple R)

theorem Run.card_eq (h : Run ops I decl rules n R) : R.card = n := by
  induction h with
  | start => exact Finset.card_empty
  | insert _ hinsertable ih => rw [Finset.card_insert_of_notMem hinsertable.fresh, ih]

end Decl

end RelQuery.Datalog
