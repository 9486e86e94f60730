import RelQuery.Proofs.Compile.Assembly
import RelQuery.Proofs.Datalog.OneLine
import RelQuery.Proofs.Typing.Judgement

/-!
# Names in compiled programs

The relations, attributes and variables of a compiled program have names made from a few stems,
from the names of the inputs and from the names that the expression binds.  If these are
identifiers, so are all names of the program.  The text of a formula is the only text of the
expression that stands in a rule as it is, and every formula has a rule of its own.

There is one lemma for each operator here, which follows the steps of its emission.
-/

namespace RelQuery

open Datalog (Atom Literal OneLine Rule Term)
open Text (IsName isNameChar)

/-! ## Names that are made from names -/

theorem Text.IsName.append {name rest : String} (h : IsName name)
    (hrest : ∀ c ∈ rest.toList, isNameChar c = true) : IsName (name ++ rest) := by
  obtain ⟨c, cs, hlist, hstart⟩ := h.exists_cons
  have hchars := h.chars
  rw [hlist] at hchars
  simp only [IsName, Text.isIdentifier, String.toList_append, hlist, List.cons_append,
    List.head?_cons, Option.map_some, Option.getD_some, hstart, Bool.true_and, List.all_eq_true,
    List.mem_cons, List.mem_append]
  rintro d (rfl | hd | hd)
  · exact hchars d List.mem_cons_self
  · exact hchars d (List.mem_cons_of_mem c hd)
  · exact hrest d hd

theorem isNameChar_of_mem_toString {n : Nat} {c : Char} (h : c ∈ (toString n).toList) :
    isNameChar c = true := by
  have hdigit : c.isDigit = true :=
    Nat.isDigit_of_mem_toDigits (b := 10) (n := n) (by decide) (by decide)
      (by simpa [Nat.toString_eq_repr] using h)
  simp [isNameChar, Char.isAlphanum, hdigit]

theorem isName_numbered {stem : String} (h : IsName stem) (n : Nat) :
    IsName (stem ++ "_" ++ toString n) :=
  (h.append (by simp [isNameChar])).append fun _ => isNameChar_of_mem_toString

theorem isName_relationName (n : Nat) : IsName (FreshNames.relationName n) :=
  Text.IsName.append (by decide) fun _ => isNameChar_of_mem_toString

theorem isName_paramVar {x : String} (h : IsName x) : IsName (paramVar x) :=
  h.append (by simp [isNameChar])

theorem isName_sanitize (name : String) : IsName (Column.sanitize name) := by
  have hkept : ∀ c ∈ name.toList.filter fun c => c.isAlphanum || c == '_', isNameChar c = true :=
    fun c hc => (List.mem_filter.mp hc).2
  simp only [Column.sanitize]
  generalize name.toList.filter (fun c => c.isAlphanum || c == '_') = kept at hkept ⊢
  split
  · next halpha =>
      cases kept with
      | nil => simp at halpha
      | cons c cs =>
          have hstart : Text.isNameStart c = true := by
            simpa [Text.isNameStart] using .inl (by simpa using halpha)
          simp only [IsName, Text.isIdentifier, String.toList_ofList, List.head?_cons,
            Option.map_some, Option.getD_some, hstart, Bool.true_and, List.all_eq_true]
          exact hkept
  · have hv : IsName "v" := by decide
    have happend : String.ofList ('v' :: kept) = "v" ++ String.ofList kept := by
      apply String.toList_inj.mp
      simp
    rw [happend]
    exact hv.append (by simpa using hkept)

/-! ## Lexical predicates and scopes -/

/-- The words of an atom are names. -/
def Datalog.Atom.Lexical (atom : Atom) : Prop :=
  ∀ word ∈ atom.words, IsName word

/-- The name, the stems and the parameters of a predicate are names. -/
structure Predicate.Lexical (p : Predicate) : Prop where
  name : IsName p.name
  stems : ∀ column ∈ p.columns, IsName column.stem
  params : ∀ x ∈ p.params, IsName x

theorem Predicate.words_wildcards_dropLast (p : Predicate) :
    ∀ t ∈ p.wildcards.dropLast, ∀ word ∈ t.words, IsName word := by
  intro t ht
  obtain ⟨-, rfl⟩ := List.mem_replicate.mp (List.dropLast_subset _ ht)
  simp [Term.words]

namespace Predicate.Lexical

variable {p : Predicate} (hp : p.Lexical)

include hp

theorem atom {terms : List Term} (hterms : ∀ t ∈ terms, ∀ word ∈ t.words, IsName word) :
    (p.atom terms).Lexical := by
  rw [Atom.Lexical, Atom.words, Predicate.atom, List.forall_mem_cons, List.forall_mem_flatMap,
    List.forall_mem_append, List.forall_mem_map]
  refine ⟨hp.name, hterms, fun x hx => ?_⟩
  simpa [Term.words] using isName_paramVar (hp.params x hx)

theorem atomOf {vars : List String} (hvars : ∀ v ∈ vars, IsName v) : (p.atomOf vars).Lexical := by
  apply hp.atom
  simpa [Term.words] using hvars

theorem wildcardAtom : p.wildcardAtom.Lexical := by
  apply hp.atom
  simp [wildcards, Term.words]

theorem attributeNames : ∀ name ∈ p.attributeNames, IsName name := by
  rw [Predicate.attributeNames, List.forall_mem_append, List.forall_mem_map]
  refine ⟨?_, fun x hx => isName_paramVar (hp.params x hx)⟩
  intro name hname
  obtain ⟨k, hk, rfl⟩ := List.mem_mapIdx.mp hname
  exact isName_numbered (hp.stems _ (List.getElem_mem hk)) k

end Predicate.Lexical

/-- The words of an expression are names, and no text in it is raw. -/
def Datalog.ScalarExpr.Lexical (e : Datalog.ScalarExpr) : Prop :=
  (∀ word ∈ e.words, IsName word) ∧ e.rawTexts = []

namespace Datalog.ScalarExpr

@[simp] theorem lexical_var {name : String} : (term (.var name)).Lexical ↔ IsName name := by
  simp [ScalarExpr.Lexical, words, rawTexts, Term.words]

@[simp] theorem lexical_number (n : Int) : (term (.number n)).Lexical := by
  simp [ScalarExpr.Lexical, words, rawTexts, Term.words]

@[simp] theorem lexical_symbol (value : String) : (term (.symbol value)).Lexical := by
  simp [ScalarExpr.Lexical, words, rawTexts, Term.words]

@[simp] theorem lexical_binary {op : Datalog.ArithOp} {left right : Datalog.ScalarExpr} :
    (binary op left right).Lexical ↔ left.Lexical ∧ right.Lexical := by
  simp [ScalarExpr.Lexical, words, rawTexts, or_imp, forall_and, and_and_and_comm]

@[simp] theorem lexical_cat {parts : List Datalog.ScalarExpr} :
    (cat parts).Lexical ↔ ∀ part ∈ parts, part.Lexical := by
  rw [ScalarExpr.Lexical, words, rawTexts]
  induction parts with
  | nil => simp [wordsAll, rawTextsAll]
  | cons part rest ih =>
      rw [wordsAll, rawTextsAll, List.forall_mem_append, List.append_eq_nil_iff,
        List.forall_mem_cons, ← ih, and_and_and_comm]
      rfl

end Datalog.ScalarExpr

def Datalog.Literal.Lexical (l : Literal) : Prop :=
  (∀ word ∈ l.words, IsName word) ∧ l.rawTexts = []

namespace Datalog.Literal

variable {atom : Atom}

@[simp] theorem lexical_positive : (Literal.positive atom).Lexical ↔ atom.Lexical :=
  and_iff_left rfl

@[simp] theorem lexical_negated : (Literal.negated atom).Lexical ↔ atom.Lexical :=
  and_iff_left rfl

@[simp] theorem lexical_aggregate {a : Datalog.Aggregate} :
    (Literal.aggregate a).Lexical ↔
      IsName a.result ∧ (∀ target ∈ a.target, IsName target) ∧ a.atom.Lexical := by
  simp [Literal.Lexical, words, rawTexts, Datalog.Aggregate.words, Atom.Lexical, or_imp,
    forall_and]

@[simp] theorem lexical_constraint {left right : Datalog.ScalarExpr} {op : Comparison} :
    (Literal.constraint left op right).Lexical ↔ left.Lexical ∧ right.Lexical := by
  simp [Literal.Lexical, Datalog.ScalarExpr.Lexical, words, rawTexts, or_imp, forall_and,
    and_and_and_comm]

@[simp] theorem lexical_assign {name : String} {value : Datalog.ScalarExpr} :
    (Literal.assign name value).Lexical ↔ IsName name ∧ value.Lexical := by
  simp [Literal.assign]

end Datalog.Literal

def Datalog.Rule.Lexical (rule : Rule) : Prop :=
  rule.head.Lexical ∧ ∀ l ∈ rule.body, l.Lexical

theorem Datalog.Rule.Lexical.words {rule : Rule} (h : rule.Lexical) :
    ∀ word ∈ rule.words, IsName word := by
  rw [Rule.words, List.forall_mem_append, List.forall_mem_flatMap]
  exact ⟨h.1, fun l hl => (h.2 l hl).1⟩

theorem Datalog.Rule.Lexical.rawTexts {rule : Rule} (h : rule.Lexical) : rule.rawTexts = [] :=
  List.flatMap_eq_nil_iff.mpr fun l hl => (h.2 l hl).2

theorem lexical_inputPredicate {name : String} (h : IsName name) (types : List ColumnType) :
    (Scope.inputPredicate name types).Lexical where
  name := h
  stems := by
    intro column hcolumn
    obtain ⟨type, -, rfl⟩ := List.mem_map.mp hcolumn
    exact isName_sanitize name
  params := by simp [Scope.inputPredicate]

def Binding.Lexical (name : String) : Binding → Prop
  | .relation p => p.Lexical
  | .scalar s => IsName name ∧ s.constraint.Lexical ∧ ∀ x ∈ s.params, IsName x

def Scope.Lexical (scope : Scope) : Prop :=
  ∀ entry ∈ scope.frames, entry.2.Lexical entry.1

namespace Scope.Lexical

variable {scope : Scope}

theorem of_lookup (h : scope.Lexical) {name : String} {binding : Binding}
    (hlookup : scope.lookup name = some binding) : binding.Lexical name := by
  obtain ⟨before, after, hframes, -⟩ := List.lookup_eq_some_iff.mp hlookup
  exact h (name, binding) (by simp [hframes])

theorem scalarNames (h : scope.Lexical) : ∀ x ∈ scope.scalarNames, IsName x := by
  intro x hx
  obtain ⟨⟨name, binding⟩, hentry, heq⟩ := List.mem_filterMap.mp hx
  have hbinding := h (name, binding) (List.mem_reverse.mp hentry)
  cases binding with
  | relation p => cases heq
  | scalar s =>
      cases heq
      exact hbinding.1

theorem bind (h : scope.Lexical) {name : String} {p : Predicate} (hp : p.Lexical) :
    (scope.bind name (.relation p)).Lexical :=
  List.forall_mem_cons.mpr ⟨hp, h⟩

theorem comprehensionScope (h : scope.Lexical) {c : Predicate} (hc : c.Lexical)
    {scalars : List String} (hscalars : ∀ x ∈ scalars, IsName x) :
    (Compile.comprehensionScope scope c scalars).Lexical := by
  rw [Scope.Lexical, Compile.frames_comprehensionScope, List.forall_mem_append]
  refine ⟨?_, h⟩
  rintro ⟨x, binding⟩ hentry
  obtain ⟨k, column, hx, hcolumn, rfl⟩ :=
    Compile.mem_comprehensionEntries.mp (List.mem_reverse.mp hentry)
  have hname := hscalars x (List.mem_of_getElem? hx)
  refine ⟨hname, hc.atom ?_, hc.params⟩
  intro t ht
  obtain ⟨j, hj, rfl⟩ := List.mem_mapIdx.mp ht
  split
  · simpa [Term.words] using isName_paramVar hname
  · simp [Term.words]

theorem ofInputs {inputs : List (String × List ColumnType)}
    (hinputs : Scope.ofInputs inputs = .ok scope) (hnames : ∀ input ∈ inputs, IsName input.1) :
    scope.Lexical := by
  intro entry hentry
  rw [(frames_ofInputs hinputs).1, List.mem_reverse] at hentry
  obtain ⟨input, hinput, rfl⟩ := List.mem_map.mp hentry
  exact lexical_inputPredicate (hnames input hinput) input.2

theorem ground (h : scope.Lexical) {params bound : List String} {literals : List Literal}
    (hground : scope.ground params bound = .ok literals) : ∀ l ∈ literals, l.Lexical := by
  intro l hl
  obtain ⟨x, s, hlookup, rfl⟩ := mem_ground hground hl
  exact Literal.lexical_positive.mpr (h.of_lookup hlookup).2.1

end Scope.Lexical

namespace Compile

/-- The names of a definition are names, and the raw texts in its rules are the given ones. -/
structure Definition.Lexical (d : Definition) (texts : List String) : Prop where
  predicate : d.predicate.Lexical
  choiceDomains : ∀ domain ∈ d.choiceDomains, ∀ name ∈ domain, IsName name
  words : ∀ rule ∈ d.rules, ∀ word ∈ rule.words, IsName word
  rawTexts : d.rules.flatMap Rule.rawTexts = texts

theorem lexical_definition {p : Predicate} {label : String} {domains : List (List String)}
    {rules : List Rule} (hp : p.Lexical)
    (hdomains : ∀ domain ∈ domains, ∀ name ∈ domain, IsName name)
    (hrules : ∀ rule ∈ rules, rule.Lexical) : Definition.Lexical ⟨p, label, domains, rules⟩ [] where
  predicate := hp
  choiceDomains := hdomains
  words := fun rule hrule => (hrules rule hrule).words
  rawTexts := List.flatMap_eq_nil_iff.mpr fun rule hrule => (hrules rule hrule).rawTexts

def Emission.Lexical (em : Emission) (texts : List String) : Prop :=
  ∀ d ∈ em.definitions, d.Lexical texts

/-! ## Steps of an emission -/

/-- Whatever a computation gives has a property. -/
def Gives {α : Type} (P : α → Prop) (m : Emit α) : Prop :=
  ∀ ⦃names x later⦄, m names = .ok (x, later) → P x

section Gives

variable {α β : Type} {P : α → Prop} {Q : β → Prop} {m : Emit α} {next : α → Emit β}

theorem Gives.bind (h : Gives P m) (hnext : ∀ x, P x → Gives Q (next x)) :
    Gives Q (m >>= next) := by
  intro names y later hrun
  obtain ⟨x, mid, hx, hy⟩ := bind_eq_ok.mp hrun
  exact hnext x (h hx) hy

theorem gives_pure {x : α} (h : P x) : Gives P (pure x) := by
  intro names y later hrun
  obtain ⟨rfl, -⟩ := pure_eq_ok.mp hrun
  exact h

theorem gives_throw (cause : Cause) : Gives P (throw cause : Emit α) := by
  intro names x later hrun
  exact (throw_eq_ok.mp hrun).elim

/-- A check or a part without fresh names. -/
theorem Gives.lift {part : Except Cause α} {next : α → Emit β}
    (hnext : ∀ x, part = .ok x → Gives Q (next x)) : Gives Q (liftM part >>= next) := by
  refine Gives.bind (P := fun x => part = .ok x) ?_ hnext
  intro names x later hrun
  exact (lift_eq_ok.mp hrun).1

theorem Gives.freshRelation {next : String → Emit β}
    (hnext : ∀ name, IsName name → Gives Q (next name)) :
    Gives Q (Compile.freshRelation >>= next) := by
  refine Gives.bind ?_ hnext
  intro names name later hrun
  cases hrun
  exact isName_relationName _

theorem Gives.freshVar {stem : String} (hstem : IsName stem) {next : String → Emit β}
    (hnext : ∀ v, IsName v → Gives Q (next v)) : Gives Q (Compile.freshVar stem >>= next) := by
  refine Gives.bind ?_ hnext
  intro names v later hrun
  cases hrun
  exact isName_numbered hstem _

theorem Gives.freshVars {columns : List Column} (hstems : ∀ column ∈ columns, IsName column.stem)
    {next : List String → Emit β} (hnext : ∀ vars, (∀ v ∈ vars, IsName v) → Gives Q (next vars)) :
    Gives Q (Compile.freshVars columns >>= next) := by
  refine Gives.bind ?_ hnext
  intro names vars later hrun
  cases hrun
  intro v hv
  obtain ⟨k, hk, rfl⟩ := List.mem_mapIdx.mp hv
  refine isName_numbered ?_ _
  rw [List.getElem_map]
  exact hstems _ (List.getElem_mem _)

/-- A node that defines one predicate. -/
theorem gives_single {p : Predicate} {label : String} {rules : List Rule} (hp : p.Lexical)
    (hrules : ∀ rule ∈ rules, rule.Lexical) :
    Gives (Emission.Lexical · []) (pure (.single p label rules) : Emit Emission) := by
  apply gives_pure
  rw [Emission.Lexical, Emission.definitions_single, List.forall_mem_singleton]
  exact lexical_definition hp (by simp) hrules

/-- A node that defines one predicate by one rule. -/
theorem gives_rule {p : Predicate} {label : String} {head : Atom} {body : List Literal}
    (hp : p.Lexical) (hhead : head.Lexical) (hbody : ∀ l ∈ body, l.Lexical) :
    Gives (Emission.Lexical · []) (pure (.single p label [⟨head, body⟩]) : Emit Emission) :=
  gives_single hp (List.forall_mem_singleton.mpr ⟨hhead, hbody⟩)

end Gives

/-! ## Operators -/

theorem isName_mergeParams {first second : List String} (hfirst : ∀ x ∈ first, IsName x)
    (hsecond : ∀ x ∈ second, IsName x) : ∀ x ∈ mergeParams first second, IsName x := by
  intro x hx
  exact (mem_mergeParams.mp hx).elim (hfirst x) (hsecond x)

theorem lexical_named {name : String} (hname : IsName name) (type : ColumnType) (label : String)
    {params : List String} (hparams : ∀ x ∈ params, IsName x) :
    Predicate.Lexical ⟨name, [.named type label], params⟩ :=
  ⟨hname, List.forall_mem_singleton.mpr (isName_sanitize label), hparams⟩

section Operators

variable {a b : Predicate} {scope : Scope}

theorem gives_scalar {scalar : String} {binding : ScalarBinding}
    (h : (Binding.scalar binding).Lexical scalar) :
    Gives (Emission.Lexical · []) (emitScalar scalar binding) := by
  obtain ⟨hscalar, hconstraint, hparams⟩ := h
  refine Gives.freshRelation fun name hname => ?_
  have hresult := lexical_named hname binding.type scalar
    (isName_mergeParams (List.forall_mem_singleton.mpr hscalar) hparams)
  exact gives_rule hresult (hresult.atomOf (by simp [isName_paramVar hscalar]))
    (by simp [hconstraint])

theorem gives_constant (constant : Constant) :
    Gives (Emission.Lexical · []) (emitConstant constant) := by
  refine Gives.freshRelation fun name hname => ?_
  refine Gives.freshVar (by decide) fun value hvalue => ?_
  have hresult : Predicate.Lexical ⟨name, [.named (constantTerm constant).1 "val"], []⟩ :=
    lexical_named hname _ _ (by simp)
  refine gives_rule hresult (hresult.atomOf (by simp [hvalue])) ?_
  cases constant <;> simp [hvalue]

theorem gives_quantifier (ha : a.Lexical) (hscope : scope.Lexical) (quantifier : Quantifier) :
    Gives (Emission.Lexical · []) (emitQuantifier quantifier a scope) := by
  refine Gives.freshRelation fun name hname => ?_
  have hresult : Predicate.Lexical ⟨name, [], a.params⟩ := ⟨hname, by simp, ha.params⟩
  cases quantifier with
  | some => exact gives_rule hresult (hresult.atom (by simp)) (by simp [ha.wildcardAtom])
  | no =>
      refine Gives.lift fun grounding hgrounding => ?_
      exact gives_rule hresult (hresult.atom (by simp))
        (List.forall_mem_cons.mpr ⟨by simp [ha.wildcardAtom], hscope.ground hgrounding⟩)

theorem gives_count (ha : a.Lexical) (hscope : scope.Lexical) :
    Gives (Emission.Lexical · []) (emitCount a scope) := by
  refine Gives.freshRelation fun name hname => ?_
  refine Gives.freshVar (by decide) fun count hcount => ?_
  refine Gives.lift fun grounding hgrounding => ?_
  have hresult := lexical_named hname .number "cnt" ha.params
  exact gives_rule hresult (hresult.atomOf (by simp [hcount]))
    (List.forall_mem_cons.mpr ⟨by simp [hcount, ha.wildcardAtom], hscope.ground hgrounding⟩)

theorem gives_aggregate (ha : a.Lexical) (hscope : scope.Lexical) (function : NumericAggregate) :
    Gives (Emission.Lexical · []) (emitAggregate function a scope) := by
  have hlabel : IsName function.symbol := by cases function <;> decide
  unfold emitAggregate
  cases a.lastType? with
  | none => exact gives_throw _
  | some last =>
      refine Gives.lift fun _ _ => ?_
      refine Gives.freshRelation fun name hname => ?_
      refine Gives.freshVar hlabel fun value hvalue => ?_
      refine Gives.freshVar (by decide) fun each heach => ?_
      refine Gives.lift fun grounding hgrounding => ?_
      have hresult := lexical_named hname .number function.symbol ha.params
      have hatom : (a.atom (a.wildcards.dropLast ++ [.var each])).Lexical :=
        ha.atom (List.forall_mem_append.mpr
          ⟨a.words_wildcards_dropLast, by simp [Term.words, heach]⟩)
      exact gives_rule hresult (hresult.atomOf (by simp [hvalue]))
        (List.forall_mem_cons.mpr ⟨by simp [hvalue, heach, hatom], hscope.ground hgrounding⟩)

theorem gives_closure (ha : a.Lexical) : Gives (Emission.Lexical · []) (emitClosure a) := by
  refine Gives.lift fun _ _ => ?_
  split
  -- The types are compared only where there are two of them.
  case' h_1 => refine Gives.lift fun _ _ => ?_
  all_goals
    refine Gives.freshRelation fun name hname => ?_
    refine Gives.freshVars ha.stems fun vars hvars => ?_
    refine Gives.freshVar (by decide) fun middle hmiddle => ?_
    have hresult : Predicate.Lexical ⟨name, a.columns, a.params⟩ := ⟨hname, ha.stems, ha.params⟩
    have hfirst : ∀ v ∈ vars.dropLast ++ [middle], IsName v :=
      List.forall_mem_append.mpr
        ⟨fun v hv => hvars v (List.dropLast_subset _ hv), by simp [hmiddle]⟩
    have hsecond : ∀ v ∈ middle :: vars.tail, IsName v :=
      List.forall_mem_cons.mpr ⟨hmiddle, fun v hv => hvars v (List.mem_of_mem_tail hv)⟩
    refine gives_single hresult (List.forall_mem_cons.mpr ⟨⟨hresult.atomOf hvars, ?_⟩,
      List.forall_mem_singleton.mpr ⟨hresult.atomOf hvars, ?_⟩⟩)
    · simp [ha.atomOf hvars]
    · simp [hresult.atomOf hfirst, ha.atomOf hsecond]

theorem gives_transpose (ha : a.Lexical) : Gives (Emission.Lexical · []) (emitTranspose a) := by
  refine Gives.lift fun _ _ => ?_
  refine Gives.freshRelation fun name hname => ?_
  refine Gives.freshVars ha.stems fun vars hvars => ?_
  have hresult : Predicate.Lexical ⟨name, a.columns.reverse, a.params⟩ :=
    ⟨hname, by simpa using ha.stems, ha.params⟩
  exact gives_rule hresult (hresult.atomOf (by simpa using hvars)) (by simp [ha.atomOf hvars])

theorem gives_dropFirst (ha : a.Lexical) : Gives (Emission.Lexical · []) (emitDropFirst a) := by
  have hstems : ∀ column ∈ a.columns.tail, IsName column.stem := fun column hcolumn =>
    ha.stems column (List.mem_of_mem_tail hcolumn)
  refine Gives.lift fun _ _ => ?_
  refine Gives.freshVars hstems fun vars hvars => ?_
  refine Gives.freshRelation fun name hname => ?_
  have hresult : Predicate.Lexical ⟨name, a.columns.tail, a.params⟩ := ⟨hname, hstems, ha.params⟩
  have hatom : (a.atom (.wildcard :: vars.map .var)).Lexical :=
    ha.atom (by simpa [Term.words] using hvars)
  exact gives_rule hresult (hresult.atomOf hvars) (by simp [hatom])

theorem gives_dropLast (ha : a.Lexical) : Gives (Emission.Lexical · []) (emitDropLast a) := by
  have hstems : ∀ column ∈ a.columns.dropLast, IsName column.stem := fun column hcolumn =>
    ha.stems column (List.dropLast_subset _ hcolumn)
  refine Gives.lift fun _ _ => ?_
  refine Gives.freshVars hstems fun vars hvars => ?_
  refine Gives.freshRelation fun name hname => ?_
  have hresult : Predicate.Lexical ⟨name, a.columns.dropLast, a.params⟩ :=
    ⟨hname, hstems, ha.params⟩
  have hatom : (a.atom (vars.map .var ++ [.wildcard])).Lexical :=
    ha.atom (by simpa [Term.words, or_imp, forall_and] using hvars)
  exact gives_rule hresult (hresult.atomOf hvars) (by simp [hatom])

/-- The tuples of a relation behind their ranks. -/
theorem gives_rank (ha : a.Lexical) :
    Gives (fun d => d.Lexical []) (rank a) := by
  refine Gives.lift fun _ _ => ?_
  refine Gives.freshRelation fun name hname => ?_
  refine Gives.freshVars ha.stems fun vars hvars => ?_
  refine Gives.freshVar (by decide) fun previous hprevious => ?_
  refine Gives.freshVar (by decide) fun next hnext => ?_
  have hranked : Predicate.Lexical ⟨name, .named .number "idx" :: a.columns, a.params⟩ :=
    ⟨hname, List.forall_mem_cons.mpr ⟨isName_sanitize "idx", ha.stems⟩, ha.params⟩
  have hattributes := hranked.attributeNames
  refine gives_pure (lexical_definition hranked ?_ (List.forall_mem_cons.mpr
    ⟨⟨hranked.atom ?_, ?_⟩, List.forall_mem_singleton.mpr ⟨hranked.atomOf ?_, ?_⟩⟩))
  · simp only [List.forall_mem_cons, List.forall_mem_append, List.forall_mem_map]
    exact ⟨fun x hx => hattributes x (List.mem_of_mem_tail hx),
      ⟨fun x hx => hattributes x (List.mem_of_mem_take hx),
        fun x hx => isName_paramVar (ha.params x hx)⟩, by simp⟩
  · simpa [Term.words] using hvars
  · simp [ha.atomOf hvars]
  · simpa using ⟨hnext, hvars⟩
  · have hatom : Atom.Lexical (Predicate.atom ⟨name, .named .number "idx" :: a.columns, a.params⟩
        (.var previous :: a.wildcards)) :=
      hranked.atom (by simp [Predicate.wildcards, Term.words, hprevious])
    simp [hatom, ha.atomOf hvars, successor, hnext, hprevious]

theorem gives_index (ha : a.Lexical) : Gives (Emission.Lexical · []) (emitIndex a) := by
  refine Gives.bind (gives_rank ha) fun d hd => gives_pure ?_
  exact List.forall_mem_singleton.mpr hd

theorem gives_accumulator (ha : a.Lexical) {ranked : Predicate} (hranked : ranked.Lexical) :
    Gives (fun d => d.Lexical []) (accumulator a ranked) := by
  refine Gives.freshRelation fun name hname => ?_
  refine Gives.freshVar (by decide) fun first hfirst => ?_
  refine Gives.freshVar (by decide) fun previousRank hpreviousRank => ?_
  refine Gives.freshVar (by decide) fun previousSum hpreviousSum => ?_
  refine Gives.freshVar (by decide) fun rank hrank => ?_
  refine Gives.freshVar (by decide) fun text htext => ?_
  refine Gives.freshVar (by decide) fun sum hsum => ?_
  have hsums : Predicate.Lexical ⟨name, [.named .number "idx", .named .symbol "acc"], a.params⟩ :=
    ⟨hname, by simp [Column.named, isName_sanitize], ha.params⟩
  have hitem : ∀ {term : Term} {v : String}, (∀ word ∈ term.words, IsName word) → IsName v →
      (ranked.atom (term :: a.wildcards.dropLast ++ [.var v])).Lexical := by
    intro term v hterm hv
    exact hranked.atom (List.forall_mem_append.mpr
      ⟨List.forall_mem_cons.mpr ⟨hterm, a.words_wildcards_dropLast⟩, by simp [Term.words, hv]⟩)
  refine gives_pure (lexical_definition hsums (by simp) (List.forall_mem_cons.mpr
    ⟨⟨hsums.atom (by simp [Term.words, hfirst]), ?_⟩,
      List.forall_mem_singleton.mpr ⟨hsums.atomOf (by simp [hrank, hsum]), ?_⟩⟩))
  · exact List.forall_mem_singleton.mpr
      (Literal.lexical_positive.mpr (hitem (by simp [Term.words]) hfirst))
  · have hword : ∀ word ∈ (Term.var rank).words, IsName word := by simp [Term.words, hrank]
    refine List.forall_mem_cons.mpr ⟨Literal.lexical_positive.mpr (hsums.atomOf ?_),
      List.forall_mem_cons.mpr ⟨Literal.lexical_positive.mpr (hitem hword htext), ?_⟩⟩
    · simp [hpreviousRank, hpreviousSum]
    · simp [successor, hrank, hpreviousRank, hsum, hpreviousSum, htext]

theorem gives_highestRank (ha : a.Lexical) {ranked : Predicate} (hranked : ranked.Lexical) :
    Gives (fun d => d.Lexical []) (highestRank a ranked) := by
  refine Gives.freshRelation fun name hname => ?_
  refine Gives.freshVar (by decide) fun highest hhighest => ?_
  refine Gives.freshVar (by decide) fun each heach => ?_
  have htop := lexical_named hname .number "top" ha.params
  have hatom : (ranked.atom (.var each :: a.wildcards)).Lexical :=
    hranked.atom (by simp [Predicate.wildcards, Term.words, heach])
  refine gives_pure (lexical_definition htop (by simp) (List.forall_mem_singleton.mpr
    ⟨htop.atomOf (by simp [hhighest]), ?_⟩))
  simp [hranked.wildcardAtom, hhighest, heach, hatom]

theorem gives_concatenated {sums top : Predicate} (hsums : sums.Lexical) (htop : top.Lexical) :
    Gives (fun d => d.Lexical []) (concatenated sums top) := by
  refine Gives.freshRelation fun name hname => ?_
  refine Gives.freshVar (by decide) fun highest hhighest => ?_
  refine Gives.freshVar (by decide) fun text htext => ?_
  have hresult := lexical_named hname .symbol "concat" hsums.params
  refine gives_pure (lexical_definition hresult (by simp) (List.forall_mem_singleton.mpr
    ⟨hresult.atomOf (by simp [htext]), ?_⟩))
  simp [hsums.atomOf, htop.atomOf, hhighest, htext]

theorem gives_concat (ha : a.Lexical) : Gives (Emission.Lexical · []) (emitConcat a) := by
  unfold emitConcat
  cases a.lastType? with
  | none => exact gives_throw _
  | some last =>
      refine Gives.lift fun _ _ => ?_
      refine Gives.bind (gives_rank ha) fun ranked hranked => ?_
      refine Gives.bind (gives_accumulator ha hranked.predicate) fun sums hsums => ?_
      refine Gives.bind (gives_highestRank ha hranked.predicate) fun top htop => ?_
      refine Gives.bind (gives_concatenated hsums.predicate htop.predicate) fun result hresult => ?_
      refine gives_pure ?_
      change ∀ d ∈ [ranked, sums, top, result], d.Lexical []
      simp [hranked, hsums, htop, hresult]

theorem gives_join (ha : a.Lexical) (hb : b.Lexical) :
    Gives (Emission.Lexical · []) (emitJoin a b) := by
  refine Gives.lift fun _ _ => ?_
  refine Gives.lift fun _ _ => ?_
  split
  case' h_1 => refine Gives.lift fun _ _ => ?_
  all_goals
    refine Gives.freshVars ha.stems fun left hleft => ?_
    refine Gives.freshVars hb.stems fun right hright => ?_
    refine Gives.freshRelation fun name hname => ?_
    have hstems : ∀ column ∈ a.columns.dropLast ++ b.columns.tail, IsName column.stem :=
      List.forall_mem_append.mpr
        ⟨fun column hcolumn => ha.stems column (List.dropLast_subset _ hcolumn),
          fun column hcolumn => hb.stems column (List.mem_of_mem_tail hcolumn)⟩
    have hresult : Predicate.Lexical ⟨name, a.columns.dropLast ++ b.columns.tail,
        mergeParams a.params b.params⟩ := ⟨hname, hstems, isName_mergeParams ha.params hb.params⟩
    have htail : ∀ v ∈ right.tail, IsName v := fun v hv => hright v (List.mem_of_mem_tail hv)
    have hkept : ∀ v ∈ left.dropLast ++ right.tail, IsName v :=
      List.forall_mem_append.mpr ⟨fun v hv => hleft v (List.dropLast_subset _ hv), htail⟩
    have hmatched : ∀ v ∈ left.getLast?.toList ++ right.tail, IsName v :=
      List.forall_mem_append.mpr
        ⟨fun v hv => hleft v (List.mem_of_getLast? (Option.mem_toList.mp hv)), htail⟩
    exact gives_rule hresult (hresult.atomOf hkept)
      (by simp [ha.atomOf hleft, hb.atomOf hmatched])

theorem gives_product (ha : a.Lexical) (hb : b.Lexical) :
    Gives (Emission.Lexical · []) (emitProduct a b) := by
  refine Gives.freshVars ha.stems fun left hleft => ?_
  refine Gives.freshVars hb.stems fun right hright => ?_
  refine Gives.freshRelation fun name hname => ?_
  have hresult : Predicate.Lexical ⟨name, a.columns ++ b.columns, mergeParams a.params b.params⟩ :=
    ⟨hname, List.forall_mem_append.mpr ⟨ha.stems, hb.stems⟩,
      isName_mergeParams ha.params hb.params⟩
  exact gives_rule hresult (hresult.atomOf (List.forall_mem_append.mpr ⟨hleft, hright⟩))
    (by simp [ha.atomOf hleft, hb.atomOf hright])

theorem gives_apply (ha : a.Lexical) (hb : b.Lexical) :
    Gives (Emission.Lexical · []) (emitApply a b) := by
  refine Gives.lift fun _ _ => ?_
  refine Gives.freshVars ha.stems fun vars hvars => ?_
  refine Gives.freshRelation fun name hname => ?_
  have hresult : Predicate.Lexical ⟨name, a.columns.drop b.arity, mergeParams a.params b.params⟩ :=
    ⟨hname, fun column hcolumn => ha.stems column (List.mem_of_mem_drop hcolumn),
      isName_mergeParams ha.params hb.params⟩
  have htake : ∀ v ∈ vars.take b.arity, IsName v := fun v hv => hvars v (List.mem_of_mem_take hv)
  exact gives_rule hresult (hresult.atomOf fun v hv => hvars v (List.mem_of_mem_drop hv))
    (by simp [ha.atomOf hvars, hb.atomOf htake])

theorem gives_domainRestrict (ha : a.Lexical) (hb : b.Lexical) :
    Gives (Emission.Lexical · []) (emitDomainRestrict a b) := by
  refine Gives.lift fun _ _ => ?_
  refine Gives.freshVars hb.stems fun vars hvars => ?_
  refine Gives.freshRelation fun name hname => ?_
  have hresult : Predicate.Lexical ⟨name, b.columns, mergeParams a.params b.params⟩ :=
    ⟨hname, hb.stems, isName_mergeParams ha.params hb.params⟩
  have htake : ∀ v ∈ vars.take a.arity, IsName v := fun v hv => hvars v (List.mem_of_mem_take hv)
  exact gives_rule hresult (hresult.atomOf hvars) (by simp [hb.atomOf hvars, ha.atomOf htake])

theorem gives_rangeRestrict (ha : a.Lexical) (hb : b.Lexical) :
    Gives (Emission.Lexical · []) (emitRangeRestrict a b) := by
  refine Gives.lift fun _ _ => ?_
  refine Gives.freshVars ha.stems fun vars hvars => ?_
  refine Gives.freshRelation fun name hname => ?_
  have hresult : Predicate.Lexical ⟨name, a.columns, mergeParams a.params b.params⟩ :=
    ⟨hname, ha.stems, isName_mergeParams ha.params hb.params⟩
  have hdrop : ∀ v ∈ vars.drop (a.arity - b.arity), IsName v := fun v hv =>
    hvars v (List.mem_of_mem_drop hv)
  exact gives_rule hresult (hresult.atomOf hvars) (by simp [ha.atomOf hvars, hb.atomOf hdrop])

theorem gives_setOperation (ha : a.Lexical) (hb : b.Lexical) (hscope : scope.Lexical)
    (operation : SetOp) : Gives (Emission.Lexical · []) (emitSetOperation operation a b scope) := by
  refine Gives.lift fun _ _ => ?_
  refine Gives.freshRelation fun name hname => ?_
  refine Gives.freshVars ha.stems fun vars hvars => ?_
  have hresult : Predicate.Lexical ⟨name, a.columns, mergeParams a.params b.params⟩ :=
    ⟨hname, ha.stems, isName_mergeParams ha.params hb.params⟩
  have hleft := ha.atomOf hvars
  have hright := hb.atomOf hvars
  cases operation with
  | union =>
      refine Gives.lift fun forLeft hforLeft => ?_
      refine Gives.lift fun forRight hforRight => ?_
      refine gives_single hresult (List.forall_mem_cons.mpr ⟨⟨hresult.atomOf hvars, ?_⟩,
        List.forall_mem_singleton.mpr ⟨hresult.atomOf hvars, ?_⟩⟩)
      · exact List.forall_mem_cons.mpr ⟨by simp [hleft], hscope.ground hforLeft⟩
      · exact List.forall_mem_cons.mpr ⟨by simp [hright], hscope.ground hforRight⟩
  | intersection => exact gives_rule hresult (hresult.atomOf hvars) (by simp [hleft, hright])
  | difference =>
      refine Gives.lift fun grounding hgrounding => ?_
      exact gives_rule hresult (hresult.atomOf hvars) (List.forall_mem_cons.mpr
        ⟨by simp [hleft], List.forall_mem_cons.mpr ⟨by simp [hright], hscope.ground hgrounding⟩⟩)

theorem gives_comparison (ha : a.Lexical) (hb : b.Lexical) (comparison : Comparison) :
    Gives (Emission.Lexical · []) (emitComparison comparison a b) := by
  refine Gives.lift fun types _ => ?_
  refine Gives.lift fun _ _ => ?_
  refine Gives.lift fun _ _ => ?_
  refine Gives.freshRelation fun name hname => ?_
  refine Gives.freshVar (by decide) fun lhs hlhs => ?_
  refine Gives.freshVar (by decide) fun rhs hrhs => ?_
  have hresult : Predicate.Lexical ⟨name, [], mergeParams a.params b.params⟩ :=
    ⟨hname, by simp, isName_mergeParams ha.params hb.params⟩
  exact gives_rule hresult (hresult.atom (by simp)) (by simp [ha.atomOf, hb.atomOf, hlhs, hrhs])

theorem gives_arithmetic (ha : a.Lexical) (hb : b.Lexical) (operation : Arithmetic) :
    Gives (Emission.Lexical · []) (emitArithmetic operation a b) := by
  refine Gives.lift fun types _ => ?_
  refine Gives.lift fun _ _ => ?_
  refine Gives.lift fun _ _ => ?_
  refine Gives.freshRelation fun name hname => ?_
  refine Gives.freshVar (by decide) fun lhs hlhs => ?_
  refine Gives.freshVar (by decide) fun rhs hrhs => ?_
  refine Gives.freshVar (by decide) fun value hvalue => ?_
  have hresult := lexical_named hname .number "val" (isName_mergeParams ha.params hb.params)
  exact gives_rule hresult (hresult.atomOf (by simp [hvalue]))
    (by simp [ha.atomOf, hb.atomOf, hlhs, hrhs, hvalue])

theorem gives_comprehension (ha : a.Lexical) (hb : b.Lexical) (style : Style)
    {scalars : List String} (hscalars : ∀ x ∈ scalars, IsName x) :
    Gives (Emission.Lexical · []) (emitComprehension style scalars a b) := by
  refine Gives.freshVars hb.stems fun vars hvars => ?_
  refine Gives.freshRelation fun name hname => ?_
  have hstems : ∀ column ∈ variableColumns style scalars a, IsName column.stem := by
    intro column hcolumn
    cases style with
    | image => simp [variableColumns] at hcolumn
    | keep =>
        obtain ⟨entry, -, rfl⟩ := List.mem_map.mp hcolumn
        exact isName_sanitize entry.1
  have hparams : ∀ x ∈ b.params.filter fun param => !scalars.contains param, IsName x :=
    fun x hx => hb.params x (List.mem_filter.mp hx).1
  have hresult : Predicate.Lexical ⟨name, variableColumns style scalars a ++ b.columns,
      mergeParams (b.params.filter fun param => !scalars.contains param) a.params⟩ :=
    ⟨hname, List.forall_mem_append.mpr ⟨hstems, hb.stems⟩, isName_mergeParams hparams ha.params⟩
  have hbound : ∀ v ∈ scalars.map paramVar, IsName v :=
    List.forall_mem_map.mpr fun x hx => isName_paramVar (hscalars x hx)
  refine gives_rule hresult (hresult.atomOf (List.forall_mem_append.mpr ⟨?_, hvars⟩))
    (by simp [hb.atomOf hvars, ha.atomOf hbound])
  cases style with
  | keep => exact hbound
  | image => simp

theorem gives_formula (hscope : scope.Lexical) (text : String) :
    Gives (Emission.Lexical · [renameScalars scope text]) (emitFormula text scope) := by
  refine Gives.freshRelation fun name hname => ?_
  refine Gives.freshVar (by decide) fun value hvalue => ?_
  refine Gives.lift fun grounding hgrounding => ?_
  have hresult := lexical_named hname .number "val" hscope.scalarNames
  have hground := hscope.ground hgrounding
  have htexts : grounding.flatMap Literal.rawTexts = [] :=
    List.flatMap_eq_nil_iff.mpr fun l hl => (hground l hl).2
  apply gives_pure
  rw [Emission.Lexical, Emission.definitions_single, List.forall_mem_singleton]
  refine ⟨hresult, by simp, ?_, ?_⟩
  · rw [List.forall_mem_singleton, Rule.words, List.forall_mem_append, List.forall_mem_flatMap,
      List.forall_mem_append]
    refine ⟨hresult.atomOf (by simp [hvalue]), fun l hl => (hground l hl).1, ?_⟩
    simp [Literal.assign, Literal.words, Datalog.ScalarExpr.words, Term.words, hvalue]
  · simp [Rule.rawTexts, htexts, Literal.assign, Literal.rawTexts, Datalog.ScalarExpr.rawTexts]

theorem gives_unary (ha : a.Lexical) (hscope : scope.Lexical) (op : UnaryOp) :
    Gives (Emission.Lexical · []) (emitUnary op a scope) := by
  cases op with
  | quantify quantifier => exact gives_quantifier ha hscope quantifier
  | count => exact gives_count ha hscope
  | closure => exact gives_closure ha
  | reflexiveClosure => exact gives_throw _
  | transpose => exact gives_transpose ha
  | aggregate function => exact gives_aggregate ha hscope function
  | wildcardApply => exact gives_dropFirst ha
  | index => exact gives_index ha
  | concat => exact gives_concat ha

theorem gives_binary (ha : a.Lexical) (hb : b.Lexical) (hscope : scope.Lexical) (op : BinaryOp) :
    Gives (Emission.Lexical · []) (emitBinary op a b scope) := by
  cases op with
  | join => exact gives_join ha hb
  | compare comparison => exact gives_comparison ha hb comparison
  | set operation => exact gives_setOperation ha hb hscope operation
  | product => exact gives_product ha hb
  | apply => exact gives_apply ha hb
  | domainRestrict => exact gives_domainRestrict ha hb
  | rangeRestrict => exact gives_rangeRestrict ha hb
  | arith operation => exact gives_arithmetic ha hb operation

end Operators

/-! ## Derivations -/

end Compile

def Expr.formula? : Expr → Option String
  | .formula text _ => some text
  | _ => none

namespace Compile

/-- The raw texts in the rules of a site: the text of its node, if that is a formula. -/
def Site.rawTexts (site : Site) : List String :=
  (site.node.formula?.map (renameScalars site.scope)).toList

theorem Emission.Lexical.sites {em : Emission} {e : Expr} {scope : Scope} {texts : List String}
    (h : em.Lexical texts) (htexts : ∀ d, Site.rawTexts ⟨e, scope, d⟩ = texts) :
    em.result.predicate.Lexical ∧
      ∀ site ∈ em.sites e scope, site.definition.Lexical site.rawTexts := by
  refine ⟨(h _ (by simp [Emission.definitions])).predicate, fun site hsite => ?_⟩
  obtain ⟨d, hd, rfl⟩ := Emission.mem_sites.mp hsite
  rw [htexts]
  exact h d hd

theorem Emission.Lexical.append_sites {em : Emission} {e : Expr} {scope : Scope}
    {texts : List String} {sites : List Site} (h : em.Lexical texts)
    (hsites : ∀ site ∈ sites, site.definition.Lexical site.rawTexts)
    (htexts : ∀ d, Site.rawTexts ⟨e, scope, d⟩ = texts) :
    em.result.predicate.Lexical ∧
      ∀ site ∈ sites ++ em.sites e scope, site.definition.Lexical site.rawTexts :=
  ⟨(h.sites htexts).1, List.forall_mem_append.mpr ⟨hsites, (h.sites htexts).2⟩⟩

/-- The names that a derivation uses are names if those that it starts from are. -/
theorem Derives.lexical {scope : Scope} {e : Expr} {names later : FreshNames} {p : Predicate}
    {sites : List Site} (h : Derives scope e names p sites later) (hscope : scope.Lexical)
    (hbinders : ∀ x ∈ e.binders, IsName x) :
    p.Lexical ∧ ∀ site ∈ sites, site.definition.Lexical site.rawTexts := by
  induction h with
  | relation hlookup => exact ⟨hscope.of_lookup hlookup, by simp⟩
  | scalar hlookup hemit => exact (gives_scalar (hscope.of_lookup hlookup) hemit).sites fun _ => rfl
  | constant hemit => exact (gives_constant _ hemit).sites fun _ => rfl
  | formula hemit => exact (gives_formula hscope _ hemit).sites fun _ => rfl
  | unary hop hwild hinner hemit ih =>
      obtain ⟨ha, hsites⟩ := ih hscope hbinders
      exact (gives_unary ha hscope _ hemit).append_sites hsites fun _ => rfl
  | dropFirst hleft hright hinner hemit ih =>
      obtain ⟨hb, hsites⟩ := ih hscope (List.forall_mem_append.mp hbinders).2
      exact (gives_dropFirst hb hemit).append_sites hsites fun _ => rfl
  | dropLast hleft hright hinner hemit ih =>
      obtain ⟨ha, hsites⟩ := ih hscope (List.forall_mem_append.mp hbinders).1
      exact (gives_dropLast ha hemit).append_sites hsites fun _ => rfl
  | binary hleft hright hfirst hsecond hemit ihfirst ihsecond =>
      obtain ⟨hbefore, hafter⟩ := List.forall_mem_append.mp hbinders
      obtain ⟨ha, hsites⟩ := ihfirst hscope hbefore
      obtain ⟨hb, hsites'⟩ := ihsecond hscope hafter
      exact (gives_binary ha hb hscope _ hemit).append_sites
        (List.forall_mem_append.mpr ⟨hsites, hsites'⟩) fun _ => rfl
  | letIn hfree hwild hvalue hbody ihvalue ihbody =>
      simp only [Expr.binders, List.forall_mem_cons, List.forall_mem_append] at hbinders
      obtain ⟨ha, hsites⟩ := ihvalue hscope hbinders.2.1
      obtain ⟨hb, hsites'⟩ := ihbody (hscope.bind ha) hbinders.2.2
      exact ⟨hb, List.forall_mem_append.mpr ⟨hsites, hsites'⟩⟩
  | comprehension hfree hwild hwild' hconstraint harity hbody hemit ihconstraint ihbody =>
      simp only [Expr.binders, List.forall_mem_append] at hbinders
      obtain ⟨hscalars, hbefore, hafter⟩ := hbinders
      obtain ⟨hc, hsites⟩ := ihconstraint hscope hbefore
      obtain ⟨hb, hsites'⟩ := ihbody (hscope.comprehensionScope hc hscalars) hafter
      exact (gives_comprehension hc hb _ hscalars hemit).append_sites
        (List.forall_mem_append.mpr ⟨hsites, hsites'⟩) fun _ => rfl

end Compile

end RelQuery
