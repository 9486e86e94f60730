import RelQuery.Proofs.Compile.Ranking
import RelQuery.Proofs.Compile.Reachable

/-!
# Variables of generated rules

Every place for a variable in a generated rule holds a fresh variable of the node that the rule
belongs to or the variable of a scalar that the node may use.  A fresh variable stands at most once
in an atom.  So places share a variable only where a rule is meant to join, and no name that the
user has chosen can join anything else.

There is one lemma for each operator here; whole derivations follow by putting stretches of the
supply one behind the other.
-/

namespace RelQuery

open Datalog (Atom Literal Rule ScalarExpr Term)
open FreshNames (Issued)

/-! ## Variables and atoms of rules -/

namespace Datalog

def Literal.vars : Literal → List String
  | .positive atom | .negated atom => atom.vars
  | .aggregate a => a.result :: (a.target.toList ++ a.atom.vars)
  | .constraint left _ right => left.vars ++ right.vars

def Literal.atom? : Literal → Option Atom
  | .positive atom | .negated atom => some atom
  | .aggregate a => some a.atom
  | .constraint .. => none

def Rule.vars (rule : Rule) : List String :=
  rule.head.vars ++ rule.body.flatMap Literal.vars

/-- The atoms of a rule: its head and those of its body. -/
def Rule.atoms (rule : Rule) : List Atom :=
  rule.head :: rule.body.filterMap Literal.atom?

theorem Term.filterMap_map_var (vars : List String) :
    (vars.map Term.var).filterMap Term.var? = vars := by
  rw [List.filterMap_map]
  exact List.filterMap_some

end Datalog

namespace Predicate

theorem var?_of_mem_wildcards {p : Predicate} {t : Term} (ht : t ∈ p.wildcards) :
    t.var? = none := by
  rw [(List.mem_replicate.mp ht).2]
  rfl

@[simp] theorem filterMap_wildcards (p : Predicate) : p.wildcards.filterMap Term.var? = [] :=
  List.filterMap_eq_nil_iff.mpr fun _ ht => var?_of_mem_wildcards ht

@[simp] theorem filterMap_wildcards_dropLast (p : Predicate) :
    p.wildcards.dropLast.filterMap Term.var? = [] :=
  List.filterMap_eq_nil_iff.mpr fun _ ht => var?_of_mem_wildcards (List.dropLast_subset _ ht)

end Predicate

/-! ## Clean rules -/

namespace Compile

section Clean

/-- A variable is one of the fresh variables or stands for one of the known scalars. -/
def Accounted (fresh : List String) (known : String → Prop) (v : String) : Prop :=
  v ∈ fresh ∨ ∃ x, known x ∧ v = paramVar x

/-- The variables of an atom are accounted for, and one that stands there twice is the variable of
a scalar. -/
structure CleanAtom (fresh : List String) (known : String → Prop) (atom : Atom) : Prop where
  vars : ∀ v ∈ atom.vars, Accounted fresh known v
  linear : ∀ v, (∀ x, v ≠ paramVar x) → atom.vars.count v ≤ 1

def CleanLiteral (fresh : List String) (known : String → Prop) : Literal → Prop
  | .positive atom | .negated atom => CleanAtom fresh known atom
  | .aggregate a => Accounted fresh known a.result ∧
      (∀ target ∈ a.target, Accounted fresh known target) ∧ CleanAtom fresh known a.atom
  | .constraint left _ right => ∀ v ∈ left.vars ++ right.vars, Accounted fresh known v

structure CleanRule (fresh : List String) (known : String → Prop) (rule : Rule) : Prop where
  head : CleanAtom fresh known rule.head
  body : ∀ l ∈ rule.body, CleanLiteral fresh known l

variable {fresh fresh' : List String} {known known' : String → Prop} {rule : Rule}

theorem Accounted.mono {v : String} (h : Accounted fresh known v) (hfresh : fresh ⊆ fresh')
    (hknown : ∀ x, known x → known' x) : Accounted fresh' known' v := by
  rcases h with hv | ⟨x, hx, rfl⟩
  · exact .inl (hfresh hv)
  · exact .inr ⟨x, hknown x hx, rfl⟩

theorem CleanAtom.mono {atom : Atom} (h : CleanAtom fresh known atom) (hfresh : fresh ⊆ fresh')
    (hknown : ∀ x, known x → known' x) : CleanAtom fresh' known' atom :=
  ⟨fun v hv => (h.vars v hv).mono hfresh hknown, h.linear⟩

theorem CleanLiteral.mono {l : Literal} (h : CleanLiteral fresh known l) (hfresh : fresh ⊆ fresh')
    (hknown : ∀ x, known x → known' x) : CleanLiteral fresh' known' l := by
  cases l with
  | positive atom => exact CleanAtom.mono h hfresh hknown
  | negated atom => exact CleanAtom.mono h hfresh hknown
  | aggregate a =>
      obtain ⟨hresult, htarget, hatom⟩ := h
      exact ⟨hresult.mono hfresh hknown, fun t ht => (htarget t ht).mono hfresh hknown,
        hatom.mono hfresh hknown⟩
  | constraint left op right => exact fun v hv => (h v hv).mono hfresh hknown

theorem CleanRule.mono (h : CleanRule fresh known rule) (hfresh : fresh ⊆ fresh')
    (hknown : ∀ x, known x → known' x) : CleanRule fresh' known' rule :=
  ⟨h.head.mono hfresh hknown, fun l hl => (h.body l hl).mono hfresh hknown⟩

theorem CleanLiteral.vars {l : Literal} (h : CleanLiteral fresh known l) :
    ∀ v ∈ l.vars, Accounted fresh known v := by
  cases l with
  | positive atom => exact CleanAtom.vars h
  | negated atom => exact CleanAtom.vars h
  | aggregate a =>
      obtain ⟨hresult, htarget, hatom⟩ := h
      rw [Literal.vars, List.forall_mem_cons, List.forall_mem_append]
      exact ⟨hresult, by simpa using htarget, hatom.vars⟩
  | constraint left op right => exact h

theorem CleanLiteral.atom {l : Literal} (h : CleanLiteral fresh known l) {atom : Atom}
    (hatom : l.atom? = some atom) : CleanAtom fresh known atom := by
  cases l with
  | constraint left op right => cases hatom
  | positive _ => cases hatom; exact h
  | negated _ => cases hatom; exact h
  | aggregate _ => cases hatom; exact h.2.2

theorem CleanRule.vars (h : CleanRule fresh known rule) :
    ∀ v ∈ rule.vars, Accounted fresh known v := by
  rw [Rule.vars, List.forall_mem_append, List.forall_mem_flatMap]
  exact ⟨h.head.vars, fun l hl => (h.body l hl).vars⟩

theorem CleanRule.atoms (h : CleanRule fresh known rule) :
    ∀ atom ∈ rule.atoms, CleanAtom fresh known atom := by
  rw [Rule.atoms, List.forall_mem_cons]
  refine ⟨h.head, fun atom hatom => ?_⟩
  obtain ⟨l, hl, hl?⟩ := List.mem_filterMap.mp hatom
  exact (h.body l hl).atom hl?

/-! ## Clean atoms -/

variable {p : Predicate}

theorem cleanAtom_atom {terms : List Term} {vars : List String}
    (hterms : terms.filterMap Term.var? = vars) (hparams : ∀ x ∈ p.params, known x)
    (hvars : ∀ v ∈ vars, Accounted fresh known v) (hnodup : vars.Nodup) :
    CleanAtom fresh known (p.atom terms) where
  vars := by
    rw [Predicate.vars_atom, hterms, List.forall_mem_append, List.forall_mem_map]
    exact ⟨hvars, fun x hx => .inr ⟨x, hparams x hx, rfl⟩⟩
  linear := by
    intro v hv
    have hnone : (p.params.map paramVar).count v = 0 := by
      apply List.count_eq_zero.mpr
      intro hmem
      obtain ⟨x, -, heq⟩ := List.mem_map.mp hmem
      exact hv x heq.symm
    rw [Predicate.vars_atom, hterms, List.count_append, hnone, Nat.add_zero]
    exact List.nodup_iff_count_le_one.mp hnodup v

theorem cleanAtom_fresh {terms : List Term} {vars : List String}
    (hterms : terms.filterMap Term.var? = vars) (hparams : ∀ x ∈ p.params, known x)
    (hvars : vars ⊆ fresh) (hnodup : vars.Nodup) : CleanAtom fresh known (p.atom terms) :=
  cleanAtom_atom hterms hparams (fun _ hv => .inl (hvars hv)) hnodup

theorem cleanAtom_atomOf {vars : List String} (hparams : ∀ x ∈ p.params, known x)
    (hvars : vars ⊆ fresh) (hnodup : vars.Nodup) : CleanAtom fresh known (p.atomOf vars) :=
  cleanAtom_fresh (Term.filterMap_map_var vars) hparams hvars hnodup

/-- An atom with one variable besides those of its parameters. -/
theorem cleanAtom_single {terms : List Term} {v : String}
    (hterms : terms.filterMap Term.var? = [v]) (hparams : ∀ x ∈ p.params, known x)
    (hv : v ∈ fresh) : CleanAtom fresh known (p.atom terms) :=
  cleanAtom_fresh hterms hparams (by simpa using hv) (List.nodup_singleton v)

theorem cleanAtom_sublist {vars : List String} (hfresh : fresh.Nodup)
    (hparams : ∀ x ∈ p.params, known x) (hvars : vars.Sublist fresh) :
    CleanAtom fresh known (p.atomOf vars) :=
  cleanAtom_atomOf hparams hvars.subset (hfresh.sublist hvars)

theorem cleanAtom_of_scalars {atom : Atom}
    (h : ∀ v ∈ atom.vars, ∃ x, known x ∧ v = paramVar x) : CleanAtom fresh known atom where
  vars := fun v hv => .inr (h v hv)
  linear := by
    intro v hv
    have hnone : v ∉ atom.vars := by
      intro hmem
      obtain ⟨x, -, heq⟩ := h v hmem
      exact hv x heq
    rw [List.count_eq_zero.mpr hnone]
    exact Nat.zero_le 1

theorem cleanAtom_wildcardAtom (hparams : ∀ x ∈ p.params, known x) :
    CleanAtom fresh known p.wildcardAtom := by
  apply cleanAtom_of_scalars
  rw [Predicate.vars_wildcardAtom, List.forall_mem_map]
  exact fun x hx => ⟨x, hparams x hx, rfl⟩

/-- Grounding consists of atoms of scalars. -/
theorem cleanLiteral_ground {scope : Scope} (hscope : scope.WellScoped)
    (hknown : ∀ x, scope.IsScalar x → known x) {params bound : List String}
    {grounding : List Literal} (hground : scope.ground params bound = .ok grounding) :
    ∀ l ∈ grounding, CleanLiteral fresh known l := by
  intro l hl
  obtain ⟨x, s, hlookup, rfl⟩ := Scope.mem_ground hground hl
  apply cleanAtom_of_scalars
  intro v hv
  obtain ⟨y, hy, rfl⟩ := List.mem_map.mp ((hscope.scalar_vars hlookup v).mp hv)
  refine ⟨y, hknown y ?_, rfl⟩
  rcases List.mem_cons.mp hy with rfl | hy
  · exact ⟨s, hlookup⟩
  · exact hscope.scalar_params hlookup y hy

end Clean

/-! ## Clean definitions -/

/-- The rules of a definition are clean, and its choice domains consist of its attributes. -/
structure Definition.Clean (fresh : List String) (known : String → Prop) (d : Definition) :
    Prop where
  rules : ∀ rule ∈ d.rules, CleanRule fresh known rule
  choiceDomains : ∀ domain ∈ d.choiceDomains, domain ⊆ d.predicate.attributeNames

/-- Definitions that are made between two states of a supply and are clean with the variables that
are given out there. -/
def CleanBetween (known : String → Prop) (names : FreshNames) (definitions : List Definition)
    (later : FreshNames) : Prop :=
  ∃ relations vars, Issued names relations vars later ∧
    ∀ d ∈ definitions, d.Clean vars known

section Between

variable {known known' : String → Prop} {names mid later : FreshNames}
variable {first second : List Definition} {fresh relations : List String}

theorem Definition.Clean.mono {fresh' : List String} {d : Definition} (h : d.Clean fresh known)
    (hfresh : fresh ⊆ fresh') (hknown : ∀ x, known x → known' x) : d.Clean fresh' known' :=
  ⟨fun rule hrule => (h.rules rule hrule).mono hfresh hknown, h.choiceDomains⟩

theorem CleanBetween.mono (h : CleanBetween known names first later)
    (hknown : ∀ x, known x → known' x) : CleanBetween known' names first later := by
  obtain ⟨relations, vars, hissued, hclean⟩ := h
  exact ⟨relations, vars, hissued, fun d hd => (hclean d hd).mono (List.Subset.refl _) hknown⟩

theorem CleanBetween.append (hfirst : CleanBetween known names first mid)
    (hsecond : CleanBetween known mid second later) :
    CleanBetween known names (first ++ second) later := by
  obtain ⟨relations, vars, hissued, hclean⟩ := hfirst
  obtain ⟨relations', vars', hissued', hclean'⟩ := hsecond
  refine ⟨_, _, hissued.trans hissued', List.forall_mem_append.mpr ⟨?_, ?_⟩⟩
  · exact fun d hd => (hclean d hd).mono (List.subset_append_left _ _) fun _ hx => hx
  · exact fun d hd => (hclean' d hd).mono (List.subset_append_right _ _) fun _ hx => hx

theorem cleanBetween_single {p : Predicate} {label : String} {rules : List Rule}
    (hissued : Issued names relations fresh later)
    (hrules : ∀ rule ∈ rules, CleanRule fresh known rule) :
    CleanBetween known names (Emission.single p label rules).definitions later :=
  ⟨relations, fresh, hissued, List.forall_mem_singleton.mpr ⟨hrules, by simp⟩⟩

theorem cleanBetween_rule {p : Predicate} {label : String} {head : Atom} {body : List Literal}
    (hissued : Issued names relations fresh later) (hhead : CleanAtom fresh known head)
    (hbody : ∀ l ∈ body, CleanLiteral fresh known l) :
    CleanBetween known names (Emission.single p label [⟨head, body⟩]).definitions later :=
  cleanBetween_single hissued (List.forall_mem_singleton.mpr ⟨hhead, hbody⟩)

/-- One rule that takes columns of a relation. -/
theorem cleanBetween_select {p a : Predicate} {label : String} {terms : List Term}
    (hissued : Issued names relations fresh later) (hp : ∀ x ∈ p.params, known x)
    (ha : ∀ x ∈ a.params, known x) (hterms : terms.filterMap Term.var? = fresh) :
    CleanBetween known names (Emission.single p label [⟨p.atomOf fresh,
      [.positive (a.atom terms)]⟩]).definitions later := by
  have hfresh := hissued.vars_nodup
  refine cleanBetween_rule hissued (cleanAtom_sublist hfresh hp (.refl _))
    (List.forall_mem_singleton.mpr ?_)
  exact cleanAtom_fresh hterms ha (List.Subset.refl _) hfresh

/-- One rule that joins two relations. -/
theorem cleanBetween_join {p a b : Predicate} {label : String} {us vs ws : List String}
    (hissued : Issued names relations fresh later) (hp : ∀ x ∈ p.params, known x)
    (ha : ∀ x ∈ a.params, known x) (hb : ∀ x ∈ b.params, known x) (hus : us.Sublist fresh)
    (hvs : vs.Sublist fresh) (hws : ws.Sublist fresh) :
    CleanBetween known names (Emission.single p label [⟨p.atomOf us,
      [.positive (a.atomOf vs), .positive (b.atomOf ws)]⟩]).definitions later := by
  have hfresh := hissued.vars_nodup
  refine cleanBetween_rule hissued (cleanAtom_sublist hfresh hp hus)
    (List.forall_mem_cons.mpr ⟨?_, List.forall_mem_singleton.mpr ?_⟩)
  · exact cleanAtom_sublist hfresh ha hvs
  · exact cleanAtom_sublist hfresh hb hws

end Between

/-! ## Operators -/

section Operators

variable {scope : Scope} {names later : FreshNames} {a b : Predicate} {em : Emission}
variable {known : String → Prop}

theorem known_mergeParams {first second : List String} (hfirst : ∀ x ∈ first, known x)
    (hsecond : ∀ x ∈ second, known x) : ∀ x ∈ mergeParams first second, known x :=
  fun x hx => (mem_mergeParams.mp hx).elim (hfirst x) (hsecond x)

theorem clean_emitConstant {constant : Constant}
    (h : emitConstant constant names = .ok (em, later)) :
    CleanBetween known names em.definitions later := by
  obtain ⟨result, value, hissued, -, hparams, rfl⟩ := emitConstant_ok h
  have hvalue : (constantTerm constant).2.var? = none := by cases constant <;> rfl
  refine cleanBetween_rule hissued
    (cleanAtom_single rfl (by simp [hparams]) List.mem_cons_self)
    (List.forall_mem_singleton.mpr ?_)
  simp [CleanLiteral, Literal.assign, ScalarExpr.vars, hvalue, Accounted]

/-- The variables of a comprehension are known to it, and so is what its operands depend on. -/
theorem clean_emitComprehension {style : Style} {scalars : List String} {c : Predicate}
    (hscalars : ∀ x ∈ scalars, known x) (hdistinct : scalars.Nodup)
    (hc : ∀ x ∈ c.params, known x) (hb : ∀ x ∈ b.params, known x)
    (h : emitComprehension style scalars c b names = .ok (em, later)) :
    CleanBetween known names em.definitions later := by
  obtain ⟨result, vars, hissued, -, -, hparams, rfl⟩ := emitComprehension_ok h
  have hresult : ∀ x ∈ result.params, known x := by
    rw [hparams]
    exact known_mergeParams (fun x hx => hb x (List.mem_of_mem_filter hx)) hc
  have hbound : ∀ v ∈ scalars.map paramVar, Accounted vars known v :=
    List.forall_mem_map.mpr fun x hx => .inr ⟨x, hscalars x hx, rfl⟩
  have hkept : (keptVars style scalars).Sublist (scalars.map paramVar) := by
    cases style with
    | keep => exact .refl _
    | image => exact List.nil_sublist _
  have hnodup : (scalars.map paramVar).Nodup := hdistinct.map paramVar_injective
  have hdisjoint : List.Disjoint (keptVars style scalars) vars := by
    intro v hv hfresh
    obtain ⟨x, -, rfl⟩ := List.mem_map.mp (hkept.subset hv)
    exact hissued.not_param hfresh x rfl
  refine cleanBetween_rule hissued ?_ (List.forall_mem_cons.mpr
    ⟨cleanAtom_sublist hissued.vars_nodup hb (.refl _), List.forall_mem_singleton.mpr ?_⟩)
  · exact cleanAtom_atom (Term.filterMap_map_var _) hresult
      (List.forall_mem_append.mpr ⟨fun v hv => hbound v (hkept.subset hv), fun v hv => .inl hv⟩)
      ((hnodup.sublist hkept).append hissued.vars_nodup hdisjoint)
  · exact cleanAtom_atom (Term.filterMap_map_var _) hc hbound hnodup

theorem clean_concatenated {sums top : Predicate} {d : Definition}
    (hsums : ∀ x ∈ sums.params, known x) (htop : ∀ x ∈ top.params, known x)
    (h : concatenated sums top names = .ok (d, later)) : CleanBetween known names [d] later := by
  obtain ⟨result, highest, text, hissued, -, hparams, rfl⟩ := concatenated_ok h
  exact cleanBetween_join hissued (hparams ▸ hsums) htop hsums (by simp) (by simp) (.refl _)

variable (ha : ∀ x ∈ a.params, known x)

section One

include ha

theorem clean_emitDropLast (h : emitDropLast a names = .ok (em, later)) :
    CleanBetween known names em.definitions later := by
  obtain ⟨result, vars, hissued, -, -, -, hparams, rfl⟩ := emitDropLast_ok h
  exact cleanBetween_select hissued (hparams ▸ ha) ha (by simp [Function.comp_def])

theorem clean_emitDropFirst (h : emitDropFirst a names = .ok (em, later)) :
    CleanBetween known names em.definitions later := by
  obtain ⟨result, vars, hissued, -, -, -, hparams, rfl⟩ := emitDropFirst_ok h
  exact cleanBetween_select hissued (hparams ▸ ha) ha
    (by simp [List.filterMap_cons, Function.comp_def])

theorem clean_emitClosure (h : emitClosure a names = .ok (em, later)) :
    CleanBetween known names em.definitions later := by
  obtain ⟨result, source, target, middle, type, hissued, -, -, hparams, rfl⟩ := emitClosure_ok h
  have hresult := hparams ▸ ha
  have hnodup := hissued.vars_nodup
  simp only [List.nodup_cons, List.mem_cons, List.not_mem_nil, or_false, not_or] at hnodup
  obtain ⟨⟨hst, hsm⟩, htm, -⟩ := hnodup
  -- Each of the three pairs of variables that stand together in an atom has two members.
  have hpair : ∀ {p : Predicate} {u v : String}, (∀ x ∈ p.params, known x) → u ≠ v →
      [u, v] ⊆ [source, target, middle] →
      CleanAtom [source, target, middle] known (p.atomOf [u, v]) :=
    fun hp hne hsub => cleanAtom_atomOf hp hsub (by simpa using hne)
  refine cleanBetween_single hissued (List.forall_mem_cons.mpr ⟨⟨?_, ?_⟩,
    List.forall_mem_singleton.mpr ⟨?_, ?_⟩⟩)
  · exact hpair hresult hst (by simp)
  · exact List.forall_mem_singleton.mpr (hpair ha hst (by simp))
  · exact hpair hresult hst (by simp)
  · exact List.forall_mem_cons.mpr ⟨hpair hresult hsm (by simp),
      List.forall_mem_singleton.mpr (hpair ha (Ne.symm htm) (by simp))⟩

theorem clean_emitTranspose (h : emitTranspose a names = .ok (em, later)) :
    CleanBetween known names em.definitions later := by
  obtain ⟨result, source, target, hissued, -, -, hparams, rfl⟩ := emitTranspose_ok h
  have hnodup := hissued.vars_nodup
  refine cleanBetween_rule hissued (cleanAtom_atomOf (hparams ▸ ha) (by simp) ?_) ?_
  · exact List.nodup_reverse.mpr hnodup
  · exact List.forall_mem_singleton.mpr (cleanAtom_atomOf ha (List.Subset.refl _) hnodup)

/-- The tuples of a relation behind their ranks. -/
theorem clean_rank {d : Definition} (h : rank a names = .ok (d, later)) :
    CleanBetween known names [d] later := by
  obtain ⟨ranked, vars, previous, next, hissued, -, -, -, hparams, rfl⟩ := rank_ok h
  have hranked := hparams ▸ ha
  have hfresh := hissued.vars_nodup
  have hvars : vars ⊆ vars ++ [previous, next] := List.subset_append_left _ _
  have hnodup : vars.Nodup := hfresh.sublist (List.sublist_append_left _ _)
  have hnext : (next :: vars).Nodup := by
    refine List.nodup_cons.mpr ⟨fun hmem => ?_, hnodup⟩
    exact List.disjoint_of_nodup_append hfresh hmem (by simp)
  refine ⟨_, _, hissued, List.forall_mem_singleton.mpr ⟨?_, ?_⟩⟩
  · refine List.forall_mem_cons.mpr ⟨⟨?_, ?_⟩, List.forall_mem_singleton.mpr ⟨?_, ?_⟩⟩
    · exact cleanAtom_fresh (by simp [List.filterMap_cons, Function.comp_def]) hranked hvars hnodup
    · exact List.forall_mem_singleton.mpr (cleanAtom_atomOf ha hvars hnodup)
    · exact cleanAtom_atomOf hranked (List.cons_subset.mpr ⟨by simp, hvars⟩) hnext
    · have hprevious : (Term.var previous :: a.wildcards).filterMap Term.var? = [previous] := by
        simp
      simp only [List.forall_mem_cons]
      refine ⟨?_, cleanAtom_atomOf ha hvars hnodup, ?_, by simp⟩
      · exact cleanAtom_single hprevious hranked (by simp)
      · simp [CleanLiteral, Literal.assign, successor, ScalarExpr.vars, Accounted]
  · have hown : a.params.map paramVar ⊆ ranked.attributeNames := by
      rw [← hparams]
      exact List.subset_append_right _ _
    rw [List.forall_mem_cons, List.forall_mem_singleton]
    exact ⟨List.tail_subset _, List.append_subset.mpr ⟨List.take_subset _ _, hown⟩⟩

theorem clean_accumulator {ranked : Predicate} {d : Definition}
    (hranked : ∀ x ∈ ranked.params, known x)
    (h : accumulator a ranked names = .ok (d, later)) : CleanBetween known names [d] later := by
  obtain ⟨sums, first, previousRank, previousSum, rank, text, sum, hissued, -, hparams, rfl⟩ :=
    accumulator_ok h
  have hsums := hparams ▸ ha
  have hfresh := hissued.vars_nodup
  have hfirst : (Term.number 0 :: a.wildcards.dropLast ++ [Term.var first]).filterMap Term.var? =
      [first] := by simp [List.filterMap_cons]
  have hitem : (Term.var rank :: a.wildcards.dropLast ++ [Term.var text]).filterMap Term.var? =
      [rank, text] := by simp
  refine ⟨_, _, hissued, List.forall_mem_singleton.mpr ⟨?_, by simp⟩⟩
  refine List.forall_mem_cons.mpr ⟨⟨?_, List.forall_mem_singleton.mpr ?_⟩,
    List.forall_mem_singleton.mpr ⟨?_, ?_⟩⟩
  · exact cleanAtom_single rfl hsums (by simp)
  · exact cleanAtom_single hfirst hranked (by simp)
  · exact cleanAtom_atomOf hsums (by simp) (by grind)
  · simp only [List.forall_mem_cons]
    refine ⟨?_, ?_, ?_, ?_, by simp⟩
    · exact cleanAtom_atomOf hsums (by simp) (by grind)
    · exact cleanAtom_fresh hitem hranked (by simp) (by grind)
    · simp [CleanLiteral, Literal.assign, successor, ScalarExpr.vars, Accounted]
    · simp [CleanLiteral, Literal.assign, ScalarExpr.vars, ScalarExpr.varsAll, Accounted]

theorem clean_highestRank {ranked : Predicate} {d : Definition}
    (hranked : ∀ x ∈ ranked.params, known x)
    (h : highestRank a ranked names = .ok (d, later)) : CleanBetween known names [d] later := by
  obtain ⟨top, highest, each, hissued, -, hparams, rfl⟩ := highestRank_ok h
  have hterms : (Term.var each :: a.wildcards).filterMap Term.var? = [each] := by simp
  refine ⟨_, _, hissued, List.forall_mem_singleton.mpr ⟨?_, by simp⟩⟩
  refine List.forall_mem_singleton.mpr ⟨cleanAtom_single rfl (hparams ▸ ha) (by simp),
    List.forall_mem_cons.mpr ⟨cleanAtom_wildcardAtom hranked,
      List.forall_mem_singleton.mpr ⟨.inl (by simp), ?_, ?_⟩⟩⟩
  · rintro target ⟨⟩
    exact .inl (by simp)
  · exact cleanAtom_single hterms hranked (by simp)

theorem clean_emitConcat (h : emitConcat a names = .ok (em, later)) :
    CleanBetween known names em.definitions later := by
  have hparams := fun d hd => @params_of_concat _ _ _ _ d h hd
  obtain ⟨ranked, sums, top, result, mid₁, mid₂, mid₃, -, hranked, hsums, htop, hresult, rfl⟩ :=
    emitConcat_ok h
  have hknown : ∀ d ∈ [ranked, sums, top, result], ∀ x ∈ d.predicate.params, known x :=
    fun d hd => hparams d hd ▸ ha
  simp only [List.forall_mem_cons] at hknown
  obtain ⟨hknownRanked, hknownSums, hknownTop, -⟩ := hknown
  exact (((clean_rank ha hranked).append (clean_accumulator ha hknownRanked hsums)).append
    (clean_highestRank ha hknownRanked htop)).append
      (clean_concatenated hknownSums hknownTop hresult)

end One

variable (hb : ∀ x ∈ b.params, known x)

section Two

include ha hb

theorem clean_emitJoin (h : emitJoin a b names = .ok (em, later)) :
    CleanBetween known names em.definitions later := by
  obtain ⟨result, left, right, type, hissued, -, -, -, -, -, hparams, rfl⟩ := emitJoin_ok h
  have hlast : left.getLast?.toList.Sublist left := by
    cases hgetLast : left.getLast? with
    | none => exact List.nil_sublist _
    | some v => exact List.singleton_sublist.mpr (List.mem_of_getLast? hgetLast)
  refine cleanBetween_join hissued (hparams ▸ known_mergeParams ha hb) ha hb ?_ ?_ ?_
  · exact (List.dropLast_sublist _).append (List.tail_sublist _)
  · exact List.sublist_append_left _ _
  · exact hlast.append (List.tail_sublist _)

theorem clean_emitProduct (h : emitProduct a b names = .ok (em, later)) :
    CleanBetween known names em.definitions later := by
  obtain ⟨result, left, right, hissued, -, -, -, hparams, rfl⟩ := emitProduct_ok h
  exact cleanBetween_join hissued (hparams ▸ known_mergeParams ha hb) ha hb (.refl _)
    (List.sublist_append_left _ _) (List.sublist_append_right _ _)

theorem clean_emitApply (h : emitApply a b names = .ok (em, later)) :
    CleanBetween known names em.definitions later := by
  obtain ⟨result, vars, hissued, -, -, -, hparams, rfl⟩ := emitApply_ok h
  exact cleanBetween_join hissued (hparams ▸ known_mergeParams ha hb) ha hb
    (List.drop_sublist _ _) (.refl _) (List.take_sublist _ _)

theorem clean_emitDomainRestrict (h : emitDomainRestrict a b names = .ok (em, later)) :
    CleanBetween known names em.definitions later := by
  obtain ⟨result, vars, hissued, -, -, -, hparams, rfl⟩ := emitDomainRestrict_ok h
  exact cleanBetween_join hissued (hparams ▸ known_mergeParams ha hb) hb ha (.refl _) (.refl _)
    (List.take_sublist _ _)

theorem clean_emitRangeRestrict (h : emitRangeRestrict a b names = .ok (em, later)) :
    CleanBetween known names em.definitions later := by
  obtain ⟨result, vars, hissued, -, -, -, hparams, rfl⟩ := emitRangeRestrict_ok h
  exact cleanBetween_join hissued (hparams ▸ known_mergeParams ha hb) ha hb (.refl _) (.refl _)
    (List.drop_sublist _ _)

theorem clean_emitComparison {comparison : Comparison}
    (h : emitComparison comparison a b names = .ok (em, later)) :
    CleanBetween known names em.definitions later := by
  obtain ⟨result, lhs, rhs, type, hissued, -, -, -, -, hparams, rfl⟩ := emitComparison_ok h
  refine cleanBetween_rule hissued (cleanAtom_fresh rfl
    (hparams ▸ known_mergeParams ha hb) (List.nil_subset _) List.nodup_nil) ?_
  simp only [List.forall_mem_cons]
  refine ⟨?_, ?_, ?_, by simp⟩
  · exact cleanAtom_single rfl ha (by simp)
  · exact cleanAtom_single rfl hb (by simp)
  · simp [CleanLiteral, ScalarExpr.vars, Accounted]

theorem clean_emitArithmetic {operation : Arithmetic}
    (h : emitArithmetic operation a b names = .ok (em, later)) :
    CleanBetween known names em.definitions later := by
  obtain ⟨result, lhs, rhs, value, hissued, -, -, -, hparams, rfl⟩ := emitArithmetic_ok h
  refine cleanBetween_rule hissued
    (cleanAtom_single rfl (hparams ▸ known_mergeParams ha hb) (by simp)) ?_
  simp only [List.forall_mem_cons]
  refine ⟨?_, ?_, ?_, by simp⟩
  · exact cleanAtom_single rfl ha (by simp)
  · exact cleanAtom_single rfl hb (by simp)
  · simp [CleanLiteral, Literal.assign, ScalarExpr.vars, Accounted]

end Two

/-! Where parameters are grounded, the atoms of scalars stand in the rules as well. -/

variable (hscope : scope.WellScoped) (hknown : ∀ x, scope.IsScalar x → known x)

include hscope hknown

theorem clean_emitFormula {text : String}
    (h : emitFormula text scope names = .ok (em, later)) :
    CleanBetween known names em.definitions later := by
  obtain ⟨result, value, grounding, hissued, hground, -, hparams, rfl⟩ := emitFormula_ok h
  have hresult : ∀ x ∈ result.params, known x := by
    intro x hx
    exact hknown x (hscope.isScalar_of_mem (hparams ▸ hx))
  refine cleanBetween_rule hissued
    (cleanAtom_single rfl hresult List.mem_cons_self)
    (List.forall_mem_append.mpr ⟨cleanLiteral_ground hscope hknown hground,
      List.forall_mem_singleton.mpr ?_⟩)
  -- The text of the formula has no places.
  exact List.forall_mem_singleton.mpr (.inl List.mem_cons_self)

theorem clean_emitScalar {scalar : String} {binding : ScalarBinding}
    (hlookup : scope.lookup scalar = some (.scalar binding))
    (h : emitScalar scalar binding names = .ok (em, later)) :
    CleanBetween known names em.definitions later := by
  obtain ⟨result, hissued, -, hparams, rfl⟩ := emitScalar_ok h
  have hall : ∀ x ∈ scalar :: binding.params, known x :=
    List.forall_mem_cons.mpr ⟨hknown scalar ⟨binding, hlookup⟩,
      fun x hx => hknown x (hscope.scalar_params hlookup x hx)⟩
  obtain ⟨hscalar, hbinding⟩ := List.forall_mem_cons.mp hall
  have hresult : ∀ x ∈ result.params, known x :=
    hparams ▸ known_mergeParams (List.forall_mem_singleton.mpr hscalar) hbinding
  refine cleanBetween_rule hissued ?_ (List.forall_mem_singleton.mpr ?_)
  · apply cleanAtom_of_scalars
    rw [Predicate.vars_atomOf, List.singleton_append, List.forall_mem_cons, List.forall_mem_map]
    exact ⟨⟨scalar, hscalar, rfl⟩, fun x hx => ⟨x, hresult x hx, rfl⟩⟩
  · apply cleanAtom_of_scalars
    intro v hv
    obtain ⟨x, hx, rfl⟩ := List.mem_map.mp ((hscope.scalar_vars hlookup v).mp hv)
    exact ⟨x, hall x hx, rfl⟩

include ha

theorem clean_emitQuantifier {quantifier : Quantifier}
    (h : emitQuantifier quantifier a scope names = .ok (em, later)) :
    CleanBetween known names em.definitions later := by
  obtain ⟨result, rules, hissued, -, hparams, rfl, hrules⟩ := emitQuantifier_ok h
  have hhead : CleanAtom [] known (result.atom []) :=
    cleanAtom_fresh rfl (hparams ▸ ha) (List.Subset.refl _) List.nodup_nil
  cases quantifier with
  | some =>
      have hbody : ∀ l ∈ [Literal.positive a.wildcardAtom], CleanLiteral [] known l :=
        List.forall_mem_singleton.mpr (cleanAtom_wildcardAtom ha)
      exact hrules ▸ cleanBetween_rule hissued hhead hbody
  | no =>
      obtain ⟨grounding, hground, rfl⟩ := hrules
      exact cleanBetween_rule hissued hhead (List.forall_mem_cons.mpr
        ⟨cleanAtom_wildcardAtom ha, cleanLiteral_ground hscope hknown hground⟩)

theorem clean_emitCount (h : emitCount a scope names = .ok (em, later)) :
    CleanBetween known names em.definitions later := by
  obtain ⟨result, count, grounding, hissued, hground, -, hparams, rfl⟩ := emitCount_ok h
  refine cleanBetween_rule hissued
    (cleanAtom_single rfl (hparams ▸ ha) List.mem_cons_self)
    (List.forall_mem_cons.mpr ⟨?_, cleanLiteral_ground hscope hknown hground⟩)
  exact ⟨.inl List.mem_cons_self, by simp, cleanAtom_wildcardAtom ha⟩

theorem clean_emitAggregate {function : NumericAggregate}
    (h : emitAggregate function a scope names = .ok (em, later)) :
    CleanBetween known names em.definitions later := by
  obtain ⟨result, value, each, grounding, hissued, -, hground, -, hparams, rfl⟩ :=
    emitAggregate_ok h
  have heach : each ∈ [value, each] := by simp
  have hterms : (a.wildcards.dropLast ++ [Term.var each]).filterMap Term.var? = [each] := by simp
  refine cleanBetween_rule hissued
    (cleanAtom_single rfl (hparams ▸ ha) List.mem_cons_self)
    (List.forall_mem_cons.mpr ⟨⟨.inl List.mem_cons_self, ?_, ?_⟩,
      cleanLiteral_ground hscope hknown hground⟩)
  · rintro target ⟨⟩
    exact .inl heach
  · exact cleanAtom_single hterms ha heach

theorem clean_emitUnary {op : UnaryOp} (h : emitUnary op a scope names = .ok (em, later)) :
    CleanBetween known names em.definitions later := by
  cases op with
  | quantify quantifier => exact clean_emitQuantifier ha hscope hknown h
  | count => exact clean_emitCount ha hscope hknown h
  | closure => exact clean_emitClosure ha h
  | reflexiveClosure => simp [emitUnary, throw_eq_ok] at h
  | transpose => exact clean_emitTranspose ha h
  | aggregate function => exact clean_emitAggregate ha hscope hknown h
  | wildcardApply => exact clean_emitDropFirst ha h
  | index =>
      obtain ⟨ranked, hranked, rfl⟩ := emitIndex_ok h
      exact clean_rank ha hranked
  | concat => exact clean_emitConcat ha h

include hb

theorem clean_emitSetOperation {operation : SetOp}
    (h : emitSetOperation operation a b scope names = .ok (em, later)) :
    CleanBetween known names em.definitions later := by
  obtain ⟨result, vars, rules, hissued, -, -, -, hparams, rfl, hrules⟩ := emitSetOperation_ok h
  have hall := fun {p : Predicate} (hp : ∀ x ∈ p.params, known x) =>
    cleanAtom_sublist hissued.vars_nodup hp (.refl vars)
  have hhead := hall (hparams ▸ known_mergeParams ha hb)
  cases operation with
  | union =>
      obtain ⟨forLeft, forRight, hleft, hright, rfl⟩ := hrules
      refine cleanBetween_single hissued (List.forall_mem_cons.mpr ⟨⟨hhead, ?_⟩,
        List.forall_mem_singleton.mpr ⟨hhead, ?_⟩⟩)
      · exact List.forall_mem_cons.mpr ⟨hall ha, cleanLiteral_ground hscope hknown hleft⟩
      · exact List.forall_mem_cons.mpr ⟨hall hb, cleanLiteral_ground hscope hknown hright⟩
  | intersection =>
      have hbody : ∀ l ∈ [Literal.positive (a.atomOf vars), .positive (b.atomOf vars)],
          CleanLiteral vars known l :=
        List.forall_mem_cons.mpr ⟨hall ha, List.forall_mem_singleton.mpr (hall hb)⟩
      exact hrules ▸ cleanBetween_rule hissued hhead hbody
  | difference =>
      obtain ⟨grounding, hground, rfl⟩ := hrules
      exact cleanBetween_rule hissued hhead (List.forall_mem_cons.mpr ⟨hall ha,
        List.forall_mem_cons.mpr ⟨hall hb, cleanLiteral_ground hscope hknown hground⟩⟩)

theorem clean_emitBinary {op : BinaryOp} (h : emitBinary op a b scope names = .ok (em, later)) :
    CleanBetween known names em.definitions later := by
  cases op with
  | join => exact clean_emitJoin ha hb h
  | compare comparison => exact clean_emitComparison ha hb h
  | set operation => exact clean_emitSetOperation ha hb hscope hknown h
  | product => exact clean_emitProduct ha hb h
  | apply => exact clean_emitApply ha hb h
  | domainRestrict => exact clean_emitDomainRestrict ha hb h
  | rangeRestrict => exact clean_emitRangeRestrict ha hb h
  | arith operation => exact clean_emitArithmetic ha hb h

end Operators


/-! ## Derivations -/

/-- The scalars that a node may use: those of its scope and those that it binds. -/
def Usable (scope : Scope) (e : Expr) (x : String) : Prop :=
  scope.IsScalar x ∨ x ∈ e.binders

theorem Emission.definitions_sites (em : Emission) (e : Expr) (scope : Scope) :
    (em.sites e scope).map (·.definition) = em.definitions := by
  rw [Emission.sites, List.map_map]
  exact List.map_id' _

/-- A derivation takes its fresh variables from the supply, and its definitions are clean with
them. -/
theorem Derives.clean {scope : Scope} {e : Expr} {names later : FreshNames} {p : Predicate}
    {sites : List Site} (h : Derives scope e names p sites later) (hscope : scope.WellScoped) :
    CleanBetween (Usable scope e) names (sites.map (·.definition)) later := by
  induction h with
  | relation hlookup => exact ⟨[], [], .refl _, by simp⟩
  | scalar hlookup hemit =>
      rw [Emission.definitions_sites]
      exact clean_emitScalar hscope (fun _ => .inl) hlookup hemit
  | constant hemit =>
      rw [Emission.definitions_sites]
      exact clean_emitConstant hemit
  | formula hemit =>
      rw [Emission.definitions_sites]
      exact clean_emitFormula hscope (fun _ => .inl) hemit
  | unary hop hwild hinner hemit ih =>
      have ha := (hinner.wellScoped hscope).1
      rw [List.map_append, Emission.definitions_sites]
      exact (ih hscope).append
        (clean_emitUnary (fun x hx => .inl (ha x hx)) hscope (fun _ => .inl) hemit)
  | dropFirst hleft hright hinner hemit ih =>
      have hb := (hinner.wellScoped hscope).1
      rw [List.map_append, Emission.definitions_sites]
      exact ((ih hscope).mono fun x => Or.imp_right (List.mem_append_right _)).append
        (clean_emitDropFirst (fun x hx => .inl (hb x hx)) hemit)
  | dropLast hleft hright hinner hemit ih =>
      have ha := (hinner.wellScoped hscope).1
      rw [List.map_append, Emission.definitions_sites]
      exact ((ih hscope).mono fun x => Or.imp_right (List.mem_append_left _)).append
        (clean_emitDropLast (fun x hx => .inl (ha x hx)) hemit)
  | binary hleft hright hfirst hsecond hemit ihfirst ihsecond =>
      have ha := (hfirst.wellScoped hscope).1
      have hb := (hsecond.wellScoped hscope).1
      rw [List.map_append, List.map_append, Emission.definitions_sites]
      exact (((ihfirst hscope).mono fun x => Or.imp_right (List.mem_append_left _)).append
        ((ihsecond hscope).mono fun x => Or.imp_right (List.mem_append_right _))).append
        (clean_emitBinary (fun x hx => .inl (ha x hx)) (fun x hx => .inl (hb x hx)) hscope
          (fun _ => .inl) hemit)
  | letIn hfree hwild hvalue hbody ihvalue ihbody =>
      have hinner := hscope.bind_relation (Scope.isBound_eq_false_iff.mp hfree)
        (hvalue.wellScoped hscope).1
      rw [List.map_append]
      refine ((ihvalue hscope).mono fun x => Or.imp_right fun hx => ?_).append
        ((ihbody hinner).mono fun x => Or.imp Scope.isScalar_of_bind_relation fun hx => ?_)
      · exact List.mem_cons_of_mem _ (List.mem_append_left _ hx)
      · exact List.mem_cons_of_mem _ (List.mem_append_right _ hx)
  | @comprehension scope style scalars constraint body span names mid mid' later c b sites sites' em
      hfree hwild hwild' hconstraint harity hbody hemit ihconstraint ihbody =>
      obtain ⟨hdistinct, -, hunbound⟩ := firstRebound?_eq_none hfree
      have hc := (hconstraint.wellScoped hscope).1
      have hinner := wellScoped_comprehensionScope hscope hdistinct hunbound harity hc
      have hb := (hbody.wellScoped hinner).1
      -- A scalar of the body is a variable of the comprehension or a scalar around it.
      have husable : ∀ x, (comprehensionScope scope c scalars).IsScalar x →
          Usable scope (.comprehension style scalars constraint body span) x := by
        intro x hx
        by_cases hown : x ∈ scalars
        · exact .inr (List.mem_append_left _ hown)
        · exact .inl (isScalar_of_comprehensionScope hscope hdistinct hunbound harity hx hown)
      rw [List.map_append, List.map_append, Emission.definitions_sites]
      refine (((ihconstraint hscope).mono fun x => Or.imp_right fun hx => ?_).append
        ((ihbody hinner).mono fun x => ?_)).append (clean_emitComprehension
          (fun x hx => .inr (List.mem_append_left _ hx)) hdistinct (fun x hx => .inl (hc x hx))
          (fun x hx => husable x (hb x hx)) hemit)
      · exact List.mem_append_right _ (List.mem_append_left _ hx)
      · rintro (hx | hx)
        · exact husable x hx
        · exact .inr (List.mem_append_right _ (List.mem_append_right _ hx))

end Compile

end RelQuery
