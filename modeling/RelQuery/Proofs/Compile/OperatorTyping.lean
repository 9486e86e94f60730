import RelQuery.Proofs.Compile.Assembly
import RelQuery.Proofs.Datalog.Typing

/-!
# Rules of operators are well typed

A predicate is declared with the types of its columns and then those of the scalars on which it
depends.  In a typed scope everything is declared under one typing of the variables of scalars.  For
each operator on such predicates the fresh variables of a rule take the types of the columns they
stand in, and this leaves the scalars as they are.
-/

namespace RelQuery

open Datalog (Atom Decl Literal Rule Term Typing)

variable {decls : List Decl} {τ τ' : Typing} {p : Predicate} {scope : Scope}

/-! ## Declared predicates -/

/-- A predicate whose declaration has the types of its columns and then those of its parameters. -/
def Predicate.DeclaredIn (decls : List Decl) (τ : Typing) (p : Predicate) : Prop :=
  ∃ decl ∈ decls, decl.relation = p.name ∧
    decl.attributes.map (·.type) = p.types ++ p.params.map fun x => τ (paramVar x)

namespace Predicate

/-- The arguments that ignore all columns but the last. -/
theorem forall₂_hasType_last {type : ColumnType} {v : String}
    (hlast : p.lastType? = some type) (hv : τ v = type) :
    List.Forall₂ (Term.HasType τ) (p.wildcards.dropLast ++ [.var v]) p.types := by
  obtain ⟨init, hinit⟩ := types_of_lastType hlast
  have hwildcards : p.wildcards.dropLast = List.replicate init.length .wildcard := by
    rw [wildcards, ← p.length_types, hinit, List.length_append, List.length_singleton,
      List.dropLast_replicate, Nat.add_sub_cancel]
  rw [hwildcards, hinit]
  exact List.rel_append (Datalog.forall₂_hasType_wildcards init) (.cons hv .nil)

namespace DeclaredIn

theorem congr (h : p.DeclaredIn decls τ)
    (hagree : ∀ x ∈ p.params, τ (paramVar x) = τ' (paramVar x)) : p.DeclaredIn decls τ' := by
  obtain ⟨decl, hdecl, hname, htypes⟩ := h
  refine ⟨decl, hdecl, hname, ?_⟩
  rw [htypes, List.map_congr_left hagree]

theorem atom (h : p.DeclaredIn decls τ) {terms : List Term}
    (hterms : List.Forall₂ (Term.HasType τ) terms p.types) :
    (p.atom terms).WellTyped decls τ := by
  obtain ⟨decl, hdecl, hname, htypes⟩ := h
  refine ⟨decl, hdecl, hname, ?_⟩
  have hparams : List.Forall₂ (Term.HasType τ) ((p.params.map paramVar).map .var)
      (p.params.map fun x => τ (paramVar x)) :=
    Datalog.forall₂_hasType_vars.mpr (List.map_map ..)
  rw [List.map_map] at hparams
  rw [htypes]
  exact List.rel_append hterms hparams

theorem atomOf (h : p.DeclaredIn decls τ) {vars : List String} (hvars : vars.map τ = p.types) :
    (p.atomOf vars).WellTyped decls τ :=
  h.atom (Datalog.forall₂_hasType_vars.mpr hvars)

theorem wildcardAtom (h : p.DeclaredIn decls τ) : p.wildcardAtom.WellTyped decls τ := by
  apply h.atom
  rw [wildcards, ← p.length_types]
  exact Datalog.forall₂_hasType_wildcards p.types

end DeclaredIn

end Predicate

/-! ## Typed scopes -/

/-- Everything in scope is declared, and every scalar has its type, under one typing. -/
structure Scope.Typed (decls : List Decl) (τ : Typing) (scope : Scope) : Prop where
  relation : ∀ {name p}, scope.lookup name = some (.relation p) → p.DeclaredIn decls τ
  scalar : ∀ {x s}, scope.lookup x = some (.scalar s) → τ (paramVar x) = s.type
  constraint : ∀ {x s}, scope.lookup x = some (.scalar s) → s.constraint.WellTyped decls τ

namespace Scope.Typed

theorem declaredIn (h : scope.Typed decls τ) {choiceDomains : List (List String)} {decl : Decl}
    (hmem : decl ∈ decls) (hdecl : scope.declare p choiceDomains = .ok decl) :
    p.DeclaredIn decls τ :=
  ⟨decl, hmem, relation_of_declare hdecl, types_of_declare h.scalar hdecl⟩

theorem bind_relation (h : scope.Typed decls τ) (name : String) (hp : p.DeclaredIn decls τ) :
    (scope.bind name (.relation p)).Typed decls τ where
  relation := by
    intro other q hlookup
    rw [lookup_bind] at hlookup
    split at hlookup
    · cases hlookup
      exact hp
    · exact h.relation hlookup
  scalar := by
    intro x s hlookup
    rw [lookup_bind] at hlookup
    split at hlookup
    · cases hlookup
    · exact h.scalar hlookup
  constraint := by
    intro x s hlookup
    rw [lookup_bind] at hlookup
    split at hlookup
    · cases hlookup
    · exact h.constraint hlookup

/-- The typing of a scope matters at the scalars of the scope only. -/
theorem congr (h : scope.Typed decls τ) (hscope : scope.WellScoped)
    (hagree : ∀ x, scope.IsScalar x → τ (paramVar x) = τ' (paramVar x)) :
    scope.Typed decls τ' where
  relation := by
    intro name p hlookup
    apply (h.relation hlookup).congr
    intro x hx
    exact hagree x (hscope.relation_params hlookup x hx)
  scalar := by
    intro x s hlookup
    rw [← hagree x ⟨s, hlookup⟩, h.scalar hlookup]
  constraint := by
    intro x s hlookup
    apply (h.constraint hlookup).congr
    intro v hv
    obtain ⟨y, hy, rfl⟩ := List.mem_map.mp ((hscope.scalar_vars hlookup v).mp hv)
    rcases List.mem_cons.mp hy with rfl | hy
    · exact hagree y ⟨s, hlookup⟩
    · exact hagree y (hscope.scalar_params hlookup y hy)

theorem ground (h : scope.Typed decls τ) {params bound : List String} {literals : List Literal}
    (hground : scope.ground params bound = .ok literals) :
    ∀ l ∈ literals, l.WellTyped decls τ := by
  intro l hl
  obtain ⟨x, s, hlookup, rfl⟩ := mem_ground hground hl
  exact h.constraint hlookup

end Scope.Typed

namespace Compile

open FreshNames (Issued)

variable {names mid later : FreshNames} {a b c : Predicate} {em : Emission} {d : Definition}

/-! ## Rules of an emission -/

/-- Every rule of an emission is well typed, each under a typing of its own. -/
def Emission.WellTyped (decls : List Decl) (em : Emission) : Prop :=
  ∀ d ∈ em.definitions, ∀ rule ∈ d.rules, ∃ τ, Rule.WellTyped decls τ rule

/-- The rules of a stretch of fresh variables are typed once those variables are: the typing of the
scalars is the same before and after. -/
theorem exists_typing {relations vars : List String} {rules : List Rule}
    (hissued : Issued names relations vars later) (types : List ColumnType)
    (hlength : vars.length = types.length)
    (h : ∀ τ' : Typing, (∀ x, τ (paramVar x) = τ' (paramVar x)) → vars.map τ' = types →
      ∀ rule ∈ rules, Rule.WellTyped decls τ' rule) :
    ∀ rule ∈ rules, ∃ τ', Rule.WellTyped decls τ' rule := by
  obtain ⟨τ', hagree, hvars⟩ := exists_override hissued τ types hlength
  intro rule hrule
  exact ⟨τ', h τ' hagree hvars rule hrule⟩

theorem Emission.wellTyped_single {relations vars : List String} {result : Predicate}
    {label : String} {rules : List Rule} (hissued : Issued names relations vars later)
    (hdeclared : ∀ d ∈ (Emission.single result label rules).definitions,
      d.predicate.DeclaredIn decls τ)
    (types : List ColumnType) (hlength : vars.length = types.length)
    (h : ∀ τ' : Typing, (∀ x, τ (paramVar x) = τ' (paramVar x)) → vars.map τ' = types →
      result.DeclaredIn decls τ' → ∀ rule ∈ rules, Rule.WellTyped decls τ' rule) :
    (Emission.single result label rules).WellTyped decls := by
  rw [Emission.definitions_single, List.forall_mem_singleton] at hdeclared
  intro d hd
  rw [Emission.definitions_single, List.mem_singleton] at hd
  subst hd
  apply exists_typing hissued types hlength
  intro τ' hagree hvars
  exact h τ' hagree hvars (hdeclared.congr fun x _ => hagree x)

theorem forall_wellTyped_pair {first second : Literal} (hfirst : first.WellTyped decls τ)
    (hsecond : second.WellTyped decls τ) : ∀ l ∈ [first, second], l.WellTyped decls τ :=
  List.forall_mem_cons.mpr ⟨hfirst, List.forall_mem_singleton.mpr hsecond⟩

section Operators

variable (ha : a.DeclaredIn decls τ) (hb : b.DeclaredIn decls τ)
variable (hdeclared : ∀ d ∈ em.definitions, d.predicate.DeclaredIn decls τ)

include ha hdeclared

/-! ## Joins, products, applications and restrictions -/

section Two

include hb

theorem wellTyped_emitJoin (h : emitJoin a b names = .ok (em, later)) : em.WellTyped decls := by
  obtain ⟨result, left, right, type, hissued, hleft, hright, hlast, hfirst, hcolumns, -, rfl⟩ :=
    emitJoin_ok h
  refine Emission.wellTyped_single hissued hdeclared (a.types ++ b.types)
    (by simp [hleft, hright]) ?_
  intro τ' hagree hvars hresult
  rw [List.map_append] at hvars
  obtain ⟨hvars, hvars'⟩ := List.append_inj hvars (by simp [hleft])
  obtain ⟨rest, hrest⟩ := Predicate.types_of_firstType hfirst
  have hmiddle : left.getLast?.toList.map τ' = [type] := by
    have hget : (left.map τ').getLast? = some type := by rw [hvars]; exact hlast
    rw [List.getLast?_map] at hget
    obtain ⟨v, hv, rfl⟩ := Option.map_eq_some_iff.mp hget
    rw [hv]
    rfl
  have htypes : result.types = a.types.dropLast ++ b.types.tail := by
    simp [Predicate.types, hcolumns, List.map_dropLast]
  refine List.forall_mem_singleton.mpr ⟨hresult.atomOf ?_, forall_wellTyped_pair ?_ ?_⟩
  · rw [htypes, List.map_append, List.map_dropLast, List.map_tail, hvars, hvars']
  · exact (ha.congr fun x _ => hagree x).atomOf hvars
  · refine (hb.congr fun x _ => hagree x).atomOf ?_
    rw [List.map_append, hmiddle, List.map_tail, hvars', hrest]
    rfl

theorem wellTyped_emitProduct (h : emitProduct a b names = .ok (em, later)) :
    em.WellTyped decls := by
  obtain ⟨result, left, right, hissued, hleft, hright, hcolumns, -, rfl⟩ := emitProduct_ok h
  refine Emission.wellTyped_single hissued hdeclared (a.types ++ b.types)
    (by simp [hleft, hright]) ?_
  intro τ' hagree hvars hresult
  have htypes : result.types = a.types ++ b.types := by simp [Predicate.types, hcolumns]
  refine List.forall_mem_singleton.mpr ⟨hresult.atomOf (hvars.trans htypes.symm), ?_⟩
  rw [List.map_append] at hvars
  obtain ⟨hvars, hvars'⟩ := List.append_inj hvars (by simp [hleft])
  exact forall_wellTyped_pair ((ha.congr fun x _ => hagree x).atomOf hvars)
    ((hb.congr fun x _ => hagree x).atomOf hvars')

theorem wellTyped_emitApply (h : emitApply a b names = .ok (em, later)) :
    em.WellTyped decls := by
  obtain ⟨result, vars, hissued, hstart, hlength, hcolumns, -, rfl⟩ := emitApply_ok h
  refine Emission.wellTyped_single hissued hdeclared a.types (by simp [hlength]) ?_
  intro τ' hagree hvars hresult
  have htypes : result.types = a.types.drop b.arity := by
    simp [Predicate.types, hcolumns, List.map_drop]
  have hargument : a.types.take b.arity = b.types := by
    rw [← b.length_types]
    exact (List.prefix_iff_eq_take.mp hstart).symm
  refine List.forall_mem_singleton.mpr ⟨hresult.atomOf ?_, forall_wellTyped_pair ?_ ?_⟩
  · rw [htypes, List.map_drop, hvars]
  · exact (ha.congr fun x _ => hagree x).atomOf hvars
  · refine (hb.congr fun x _ => hagree x).atomOf ?_
    rw [List.map_take, hvars, hargument]

theorem wellTyped_emitDomainRestrict (h : emitDomainRestrict a b names = .ok (em, later)) :
    em.WellTyped decls := by
  obtain ⟨result, vars, hissued, hstart, hlength, hcolumns, -, rfl⟩ := emitDomainRestrict_ok h
  refine Emission.wellTyped_single hissued hdeclared b.types (by simp [hlength]) ?_
  intro τ' hagree hvars hresult
  have htypes : result.types = b.types := by simp [Predicate.types, hcolumns]
  have hfilter : b.types.take a.arity = a.types := by
    rw [← a.length_types]
    exact (List.prefix_iff_eq_take.mp hstart).symm
  refine List.forall_mem_singleton.mpr
    ⟨hresult.atomOf (hvars.trans htypes.symm), forall_wellTyped_pair ?_ ?_⟩
  · exact (hb.congr fun x _ => hagree x).atomOf hvars
  · refine (ha.congr fun x _ => hagree x).atomOf ?_
    rw [List.map_take, hvars, hfilter]

theorem wellTyped_emitRangeRestrict (h : emitRangeRestrict a b names = .ok (em, later)) :
    em.WellTyped decls := by
  obtain ⟨result, vars, hissued, hend, hlength, hcolumns, -, rfl⟩ := emitRangeRestrict_ok h
  refine Emission.wellTyped_single hissued hdeclared a.types (by simp [hlength]) ?_
  intro τ' hagree hvars hresult
  have htypes : result.types = a.types := by simp [Predicate.types, hcolumns]
  have hfilter : a.types.drop (a.arity - b.arity) = b.types := by
    rw [← a.length_types, ← b.length_types]
    exact (List.suffix_iff_eq_drop.mp hend).symm
  refine List.forall_mem_singleton.mpr
    ⟨hresult.atomOf (hvars.trans htypes.symm), forall_wellTyped_pair ?_ ?_⟩
  · exact (ha.congr fun x _ => hagree x).atomOf hvars
  · refine (hb.congr fun x _ => hagree x).atomOf ?_
    rw [List.map_drop, hvars, hfilter]

/-! ## Comparisons and arithmetic -/

theorem wellTyped_emitComparison {comparison : Comparison}
    (h : emitComparison comparison a b names = .ok (em, later)) : em.WellTyped decls := by
  obtain ⟨result, lhs, rhs, type, hissued, hleft, hright, hordering, hcolumns, -, rfl⟩ :=
    emitComparison_ok h
  refine Emission.wellTyped_single hissued hdeclared [type, type] rfl ?_
  intro τ' hagree hvars hresult
  simp only [List.map_cons, List.map_nil, List.cons.injEq, and_true] at hvars
  obtain ⟨hlhs, hrhs⟩ := hvars
  refine List.forall_mem_singleton.mpr ⟨hresult.atom ?_, List.forall_mem_cons.mpr
    ⟨?_, forall_wellTyped_pair ?_ ⟨type, ?_, ?_, hordering⟩⟩⟩
  · simp [Predicate.types, hcolumns]
  · exact (ha.congr fun x _ => hagree x).atomOf (by simp [hleft, hlhs])
  · exact (hb.congr fun x _ => hagree x).atomOf (by simp [hright, hrhs])
  · exact hlhs ▸ .var lhs
  · exact hrhs ▸ .var rhs

theorem wellTyped_emitArithmetic {operation : Arithmetic}
    (h : emitArithmetic operation a b names = .ok (em, later)) : em.WellTyped decls := by
  obtain ⟨result, lhs, rhs, value, hissued, hleft, hright, hcolumns, -, rfl⟩ :=
    emitArithmetic_ok h
  refine Emission.wellTyped_single hissued hdeclared [.number, .number, .number] rfl ?_
  intro τ' hagree hvars hresult
  simp only [List.map_cons, List.map_nil, List.cons.injEq, and_true] at hvars
  obtain ⟨hlhs, hrhs, hvalue⟩ := hvars
  refine List.forall_mem_singleton.mpr ⟨hresult.atomOf ?_, List.forall_mem_cons.mpr
    ⟨?_, forall_wellTyped_pair ?_ (Literal.wellTyped_assign ?_)⟩⟩
  · simp [Predicate.types, hcolumns, Column.named, hvalue]
  · exact (ha.congr fun x _ => hagree x).atomOf (by simp [hleft, hlhs])
  · exact (hb.congr fun x _ => hagree x).atomOf (by simp [hright, hrhs])
  · rw [hvalue]
    exact .binary (hlhs ▸ .var lhs) (hrhs ▸ .var rhs)

end Two

/-! ## Operators on one relation -/

theorem wellTyped_emitDropLast (h : emitDropLast a names = .ok (em, later)) :
    em.WellTyped decls := by
  obtain ⟨result, vars, hissued, hcolumn, hlength, hcolumns, -, rfl⟩ := emitDropLast_ok h
  obtain ⟨last, hlast⟩ := Predicate.exists_lastType hcolumn
  obtain ⟨init, hinit⟩ := Predicate.types_of_lastType hlast
  have htypes : result.types = init := by
    have hmap : result.types = a.types.dropLast := by
      simp [Predicate.types, hcolumns, List.map_dropLast]
    rw [hmap, hinit, List.dropLast_concat]
  have hsize : vars.length = init.length := by
    rw [hlength, ← a.length_types, hinit, List.length_append]
    exact Nat.add_sub_cancel ..
  refine Emission.wellTyped_single hissued hdeclared init hsize ?_
  intro τ' hagree hvars hresult
  refine List.forall_mem_singleton.mpr ⟨hresult.atomOf (hvars.trans htypes.symm),
    List.forall_mem_singleton.mpr ((ha.congr fun x _ => hagree x).atom ?_)⟩
  rw [hinit]
  exact List.rel_append (Datalog.forall₂_hasType_vars.mpr hvars) (.cons trivial .nil)

theorem wellTyped_emitDropFirst (h : emitDropFirst a names = .ok (em, later)) :
    em.WellTyped decls := by
  obtain ⟨result, vars, hissued, hcolumn, hlength, hcolumns, -, rfl⟩ := emitDropFirst_ok h
  obtain ⟨first, hfirst⟩ := Predicate.exists_firstType hcolumn
  obtain ⟨rest, hrest⟩ := Predicate.types_of_firstType hfirst
  have htypes : result.types = rest := by
    have hmap : result.types = a.types.tail := by simp [Predicate.types, hcolumns]
    rw [hmap, hrest, List.tail_cons]
  have hsize : vars.length = rest.length := by
    rw [hlength, ← a.length_types, hrest, List.length_cons]
    exact Nat.add_sub_cancel ..
  refine Emission.wellTyped_single hissued hdeclared rest hsize ?_
  intro τ' hagree hvars hresult
  refine List.forall_mem_singleton.mpr ⟨hresult.atomOf (hvars.trans htypes.symm),
    List.forall_mem_singleton.mpr ((ha.congr fun x _ => hagree x).atom ?_)⟩
  rw [hrest]
  exact .cons trivial (Datalog.forall₂_hasType_vars.mpr hvars)

theorem wellTyped_emitTranspose (h : emitTranspose a names = .ok (em, later)) :
    em.WellTyped decls := by
  obtain ⟨result, source, target, hissued, harity, hcolumns, -, rfl⟩ := emitTranspose_ok h
  have htypes : result.types = a.types.reverse := by
    simp [Predicate.types, hcolumns, List.map_reverse]
  refine Emission.wellTyped_single hissued hdeclared a.types (by simp [harity]) ?_
  intro τ' hagree hvars hresult
  refine List.forall_mem_singleton.mpr ⟨hresult.atomOf ?_,
    List.forall_mem_singleton.mpr ((ha.congr fun x _ => hagree x).atomOf hvars)⟩
  rw [htypes, ← hvars]
  rfl

theorem wellTyped_emitClosure (h : emitClosure a names = .ok (em, later)) :
    em.WellTyped decls := by
  obtain ⟨result, source, target, middle, type, hissued, htypes, hcolumns, -, rfl⟩ :=
    emitClosure_ok h
  have htypes' : result.types = [type, type] := by
    rw [← htypes, Predicate.types, hcolumns, Predicate.types]
  refine Emission.wellTyped_single hissued hdeclared [type, type, type] rfl ?_
  intro τ' hagree hvars hresult
  simp only [List.map_cons, List.map_nil, List.cons.injEq, and_true] at hvars
  obtain ⟨hsource, htarget, hmiddle⟩ := hvars
  have ha' : a.DeclaredIn decls τ' := ha.congr fun x _ => hagree x
  have hhead : (result.atomOf [source, target]).WellTyped decls τ' :=
    hresult.atomOf (by simp [hsource, htarget, htypes'])
  refine List.forall_mem_cons.mpr ⟨⟨hhead, ?_⟩, List.forall_mem_singleton.mpr ⟨hhead, ?_⟩⟩
  · exact List.forall_mem_singleton.mpr (ha'.atomOf (by simp [hsource, htarget, htypes]))
  · exact forall_wellTyped_pair (hresult.atomOf (by simp [hsource, hmiddle, htypes']))
      (ha'.atomOf (by simp [hmiddle, htarget, htypes]))

/-! ## Rules with grounding literals -/

section Grounded

variable (hscope : scope.WellScoped) (htyped : scope.Typed decls τ)

include hscope htyped

theorem wellTyped_emitQuantifier {quantifier : Quantifier}
    (h : emitQuantifier quantifier a scope names = .ok (em, later)) : em.WellTyped decls := by
  obtain ⟨result, rules, hissued, hcolumns, -, rfl, hrules⟩ := emitQuantifier_ok h
  refine Emission.wellTyped_single hissued hdeclared [] rfl ?_
  intro τ' hagree _ hresult
  have ha' := (ha.congr fun x _ => hagree x).wildcardAtom
  have hhead : (result.atom []).WellTyped decls τ' :=
    hresult.atom (by simp [Predicate.types, hcolumns])
  cases quantifier with
  | some =>
      rw [hrules]
      exact List.forall_mem_singleton.mpr ⟨hhead, List.forall_mem_singleton.mpr ha'⟩
  | no =>
      obtain ⟨grounding, hground, rfl⟩ := hrules
      have htyped' := htyped.congr hscope fun x _ => hagree x
      exact List.forall_mem_singleton.mpr
        ⟨hhead, List.forall_mem_cons.mpr ⟨ha', htyped'.ground hground⟩⟩

theorem wellTyped_emitCount (h : emitCount a scope names = .ok (em, later)) :
    em.WellTyped decls := by
  obtain ⟨result, count, grounding, hissued, hground, hcolumns, -, rfl⟩ := emitCount_ok h
  refine Emission.wellTyped_single hissued hdeclared [.number] rfl ?_
  intro τ' hagree hvars hresult
  simp only [List.map_cons, List.map_nil, List.cons.injEq, and_true] at hvars
  have htyped' := htyped.congr hscope fun x _ => hagree x
  have haggregate : (Datalog.Aggregate.mk count .count none a.wildcardAtom).WellTyped decls τ' :=
    ⟨(ha.congr fun x _ => hagree x).wildcardAtom, by simp, hvars⟩
  refine List.forall_mem_singleton.mpr ⟨hresult.atomOf ?_,
    List.forall_mem_cons.mpr ⟨haggregate, htyped'.ground hground⟩⟩
  simp [Predicate.types, hcolumns, Column.named, hvars]

theorem wellTyped_emitAggregate {function : NumericAggregate}
    (h : emitAggregate function a scope names = .ok (em, later)) : em.WellTyped decls := by
  obtain ⟨result, value, each, grounding, hissued, hlast, hground, hcolumns, -, rfl⟩ :=
    emitAggregate_ok h
  refine Emission.wellTyped_single hissued hdeclared [.number, .number] rfl ?_
  intro τ' hagree hvars hresult
  simp only [List.map_cons, List.map_nil, List.cons.injEq, and_true] at hvars
  obtain ⟨hvalue, heach⟩ := hvars
  have htyped' := htyped.congr hscope fun x _ => hagree x
  have hatom : (a.atom (a.wildcards.dropLast ++ [.var each])).WellTyped decls τ' :=
    (ha.congr fun x _ => hagree x).atom (Predicate.forall₂_hasType_last hlast heach)
  have haggregate : (Datalog.Aggregate.mk value (aggregateFunction function) (some each)
      (a.atom (a.wildcards.dropLast ++ [.var each]))).WellTyped decls τ' :=
    ⟨hatom, by simp [heach], hvalue⟩
  refine List.forall_mem_singleton.mpr ⟨hresult.atomOf ?_,
    List.forall_mem_cons.mpr ⟨haggregate, htyped'.ground hground⟩⟩
  simp [Predicate.types, hcolumns, Column.named, hvalue]

include hb in
theorem wellTyped_emitSetOperation {operation : SetOp}
    (h : emitSetOperation operation a b scope names = .ok (em, later)) : em.WellTyped decls := by
  obtain ⟨result, vars, rules, hissued, hsame, hlength, hcolumns, -, rfl, hrules⟩ :=
    emitSetOperation_ok h
  refine Emission.wellTyped_single hissued hdeclared a.types (by simp [hlength]) ?_
  intro τ' hagree hvars hresult
  have htypes : result.types = a.types := by simp [Predicate.types, hcolumns]
  have hhead := hresult.atomOf (hvars.trans htypes.symm)
  have ha' := (ha.congr fun x _ => hagree x).atomOf hvars
  have hb' := (hb.congr fun x _ => hagree x).atomOf (hvars.trans hsame)
  have htyped' := htyped.congr hscope fun x _ => hagree x
  cases operation with
  | union =>
      obtain ⟨forLeft, forRight, hleft, hright, rfl⟩ := hrules
      refine List.forall_mem_cons.mpr ⟨⟨hhead, ?_⟩, List.forall_mem_singleton.mpr ⟨hhead, ?_⟩⟩
      · exact List.forall_mem_cons.mpr ⟨ha', htyped'.ground hleft⟩
      · exact List.forall_mem_cons.mpr ⟨hb', htyped'.ground hright⟩
  | intersection =>
      rw [hrules]
      exact List.forall_mem_singleton.mpr ⟨hhead, forall_wellTyped_pair ha' hb'⟩
  | difference =>
      obtain ⟨grounding, hground, rfl⟩ := hrules
      exact List.forall_mem_singleton.mpr ⟨hhead, List.forall_mem_cons.mpr
        ⟨ha', List.forall_mem_cons.mpr ⟨hb', htyped'.ground hground⟩⟩⟩

end Grounded

end Operators

/-! ## Ranks and concatenation -/

theorem wellTyped_rank (ha : a.DeclaredIn decls τ) (hd : d.predicate.DeclaredIn decls τ)
    (h : rank a names = .ok (d, later)) :
    ∀ rule ∈ d.rules, ∃ τ, Rule.WellTyped decls τ rule := by
  obtain ⟨ranked, vars, previous, next, hissued, -, hlength, hcolumns, -, rfl⟩ := rank_ok h
  refine exists_typing (τ := τ) hissued (a.types ++ [.number, .number]) (by simp [hlength]) ?_
  intro τ' hagree hvars
  rw [List.map_append] at hvars
  obtain ⟨hvars, hnumbers⟩ := List.append_inj hvars (by simp [hlength])
  simp only [List.map_cons, List.map_nil, List.cons.injEq, and_true] at hnumbers
  obtain ⟨hprevious, hnext⟩ := hnumbers
  have ha' : a.DeclaredIn decls τ' := ha.congr fun x _ => hagree x
  have hranked : ranked.DeclaredIn decls τ' := Predicate.DeclaredIn.congr hd fun x _ => hagree x
  have htypes : ranked.types = .number :: a.types := by
    simp [Predicate.types, hcolumns, Column.named]
  refine List.forall_mem_cons.mpr ⟨⟨hranked.atom ?_, ?_⟩, List.forall_mem_singleton.mpr
    ⟨hranked.atomOf ?_, List.forall_mem_cons.mpr ⟨hranked.atom ?_,
      forall_wellTyped_pair (ha'.atomOf hvars) (Literal.wellTyped_assign ?_)⟩⟩⟩
  · rw [htypes]
    exact .cons rfl (Datalog.forall₂_hasType_vars.mpr hvars)
  · exact List.forall_mem_singleton.mpr (ha'.atomOf hvars)
  · rw [htypes, List.map_cons, hnext, hvars]
  · rw [htypes, Predicate.wildcards, ← a.length_types]
    exact .cons hprevious (Datalog.forall₂_hasType_wildcards a.types)
  · rw [hnext]
    exact .binary (hprevious ▸ .var previous) (.number 1)

/-- A symbol of the last column at its rank. -/
theorem forall₂_hasType_item {ranked : Predicate} {rank : Term} {text : String}
    (hlast : a.lastType? = some .symbol) (hranked : ranked.types = .number :: a.types)
    (hrank : rank.HasType τ .number) (htext : τ text = .symbol) :
    List.Forall₂ (Term.HasType τ) (rank :: a.wildcards.dropLast ++ [.var text]) ranked.types := by
  rw [hranked]
  exact .cons hrank (Predicate.forall₂_hasType_last hlast htext)

theorem wellTyped_accumulator {ranked : Predicate} (hlast : a.lastType? = some .symbol)
    (hranked : ranked.DeclaredIn decls τ) (htypes : ranked.types = .number :: a.types)
    (hd : d.predicate.DeclaredIn decls τ) (h : accumulator a ranked names = .ok (d, later)) :
    ∀ rule ∈ d.rules, ∃ τ, Rule.WellTyped decls τ rule := by
  obtain ⟨sums, first, previousRank, previousSum, rank, text, sum, hissued, hcolumns, -, rfl⟩ :=
    accumulator_ok h
  refine exists_typing (τ := τ) hissued
    [.symbol, .number, .symbol, .number, .symbol, .symbol] rfl ?_
  intro τ' hagree hvars
  simp only [List.map_cons, List.map_nil, List.cons.injEq, and_true] at hvars
  obtain ⟨hfirst, hpreviousRank, hpreviousSum, hrank, htext, hsum⟩ := hvars
  have hranked' : ranked.DeclaredIn decls τ' := hranked.congr fun x _ => hagree x
  have hsums : sums.DeclaredIn decls τ' := Predicate.DeclaredIn.congr hd fun x _ => hagree x
  have hsumTypes : sums.types = [.number, .symbol] := by
    simp [Predicate.types, hcolumns, Column.named]
  refine List.forall_mem_cons.mpr ⟨⟨hsums.atom ?_, ?_⟩, List.forall_mem_singleton.mpr
    ⟨hsums.atomOf ?_, List.forall_mem_cons.mpr ⟨hsums.atomOf ?_, List.forall_mem_cons.mpr
      ⟨hranked'.atom (forall₂_hasType_item hlast htypes hrank htext), forall_wellTyped_pair
        (Literal.wellTyped_assign ?_) (Literal.wellTyped_assign ?_)⟩⟩⟩⟩
  · rw [hsumTypes]
    exact .cons rfl (.cons hfirst .nil)
  · exact List.forall_mem_singleton.mpr
      (hranked'.atom (forall₂_hasType_item hlast htypes rfl hfirst))
  · simp [hsumTypes, hrank, hsum]
  · simp [hsumTypes, hpreviousRank, hpreviousSum]
  · rw [hrank]
    exact .binary (hpreviousRank ▸ .var previousRank) (.number 1)
  · rw [hsum]
    apply Datalog.ScalarExpr.HasType.cat
    simp only [List.forall_mem_cons, List.not_mem_nil, false_implies, implies_true, and_true]
    exact ⟨hpreviousSum ▸ .var previousSum, .symbol separator, htext ▸ .var text⟩

theorem wellTyped_highestRank {ranked : Predicate} (hranked : ranked.DeclaredIn decls τ)
    (htypes : ranked.types = .number :: a.types) (hd : d.predicate.DeclaredIn decls τ)
    (h : highestRank a ranked names = .ok (d, later)) :
    ∀ rule ∈ d.rules, ∃ τ, Rule.WellTyped decls τ rule := by
  obtain ⟨top, highest, each, hissued, hcolumns, -, rfl⟩ := highestRank_ok h
  refine exists_typing (τ := τ) hissued [.number, .number] rfl ?_
  intro τ' hagree hvars
  simp only [List.map_cons, List.map_nil, List.cons.injEq, and_true] at hvars
  obtain ⟨hhighest, heach⟩ := hvars
  have hranked' : ranked.DeclaredIn decls τ' := hranked.congr fun x _ => hagree x
  have htop : top.DeclaredIn decls τ' := Predicate.DeclaredIn.congr hd fun x _ => hagree x
  have hatom : (ranked.atom (.var each :: a.wildcards)).WellTyped decls τ' := by
    apply hranked'.atom
    rw [htypes, Predicate.wildcards, ← a.length_types]
    exact .cons heach (Datalog.forall₂_hasType_wildcards a.types)
  have haggregate : (Datalog.Aggregate.mk highest .max (some each)
      (ranked.atom (.var each :: a.wildcards))).WellTyped decls τ' :=
    ⟨hatom, by simp [heach], hhighest⟩
  refine List.forall_mem_singleton.mpr
    ⟨htop.atomOf ?_, forall_wellTyped_pair hranked'.wildcardAtom haggregate⟩
  simp [Predicate.types, hcolumns, Column.named, hhighest]

theorem wellTyped_concatenated {sums top : Predicate} (hsums : sums.DeclaredIn decls τ)
    (hsumTypes : sums.types = [.number, .symbol]) (htop : top.DeclaredIn decls τ)
    (htopTypes : top.types = [.number]) (hd : d.predicate.DeclaredIn decls τ)
    (h : concatenated sums top names = .ok (d, later)) :
    ∀ rule ∈ d.rules, ∃ τ, Rule.WellTyped decls τ rule := by
  obtain ⟨result, highest, text, hissued, hcolumns, -, rfl⟩ := concatenated_ok h
  refine exists_typing (τ := τ) hissued [.number, .symbol] rfl ?_
  intro τ' hagree hvars
  simp only [List.map_cons, List.map_nil, List.cons.injEq, and_true] at hvars
  obtain ⟨hhighest, htext⟩ := hvars
  have hresult : result.DeclaredIn decls τ' := Predicate.DeclaredIn.congr hd fun x _ => hagree x
  refine List.forall_mem_singleton.mpr ⟨hresult.atomOf ?_, forall_wellTyped_pair ?_ ?_⟩
  · simp [Predicate.types, hcolumns, Column.named, htext]
  · exact (htop.congr fun x _ => hagree x).atomOf (by simp [htopTypes, hhighest])
  · exact (hsums.congr fun x _ => hagree x).atomOf (by simp [hsumTypes, hhighest, htext])

theorem types_of_rank (h : rank a names = .ok (d, later)) :
    d.predicate.types = .number :: a.types := by
  obtain ⟨ranked, vars, previous, next, -, -, -, hcolumns, -, rfl⟩ := rank_ok h
  simp [Predicate.types, hcolumns, Column.named]

theorem wellTyped_emitConcat (ha : a.DeclaredIn decls τ)
    (hdeclared : ∀ d ∈ em.definitions, d.predicate.DeclaredIn decls τ)
    (h : emitConcat a names = .ok (em, later)) : em.WellTyped decls := by
  obtain ⟨ranked, sums, top, result, mid₁, mid₂, mid₃, hlast, hranked, hsums, htop, hresult, rfl⟩ :=
    emitConcat_ok h
  have htypes := types_of_rank hranked
  have hsumTypes : sums.predicate.types = [.number, .symbol] := by
    obtain ⟨sums', first, previousRank, previousSum, rank, text, sum, -, hcolumns, -, rfl⟩ :=
      accumulator_ok hsums
    simp [Predicate.types, hcolumns, Column.named]
  have htopTypes : top.predicate.types = [.number] := by
    obtain ⟨top', highest, each, -, hcolumns, -, rfl⟩ := highestRank_ok htop
    simp [Predicate.types, hcolumns, Column.named]
  simp only [Emission.definitions, List.cons_append, List.nil_append, List.forall_mem_cons,
    List.not_mem_nil, false_implies, implies_true, and_true] at hdeclared
  obtain ⟨hdranked, hdsums, hdtop, hdresult⟩ := hdeclared
  simp only [Emission.WellTyped, Emission.definitions, List.cons_append, List.nil_append,
    List.forall_mem_cons (p := fun d => ∀ rule ∈ Definition.rules d, _), List.not_mem_nil,
    false_implies, implies_true, and_true]
  exact ⟨wellTyped_rank ha hdranked hranked,
    wellTyped_accumulator hlast hdranked htypes hdsums hsums,
    wellTyped_highestRank hdranked htypes hdtop htop,
    wellTyped_concatenated hdsums hsumTypes hdtop htopTypes hdresult hresult⟩

/-! ## Literals, formulas and scalars -/

theorem wellTyped_emitConstant {constant : Constant}
    (hdeclared : ∀ d ∈ em.definitions, d.predicate.DeclaredIn decls τ)
    (h : emitConstant constant names = .ok (em, later)) : em.WellTyped decls := by
  obtain ⟨result, value, hissued, hcolumns, -, rfl⟩ := emitConstant_ok h
  refine Emission.wellTyped_single hissued hdeclared [(constantTerm constant).1] rfl ?_
  intro τ' hagree hvars hresult
  simp only [List.map_cons, List.map_nil, List.cons.injEq, and_true] at hvars
  refine List.forall_mem_singleton.mpr ⟨hresult.atomOf ?_,
    List.forall_mem_singleton.mpr (Literal.wellTyped_assign ?_)⟩
  · simp [Predicate.types, hcolumns, Column.named, hvars]
  · rw [hvars]
    cases constant with
    | number value => exact .number value
    | text value => exact .symbol value

section Scoped

variable (hscope : scope.WellScoped) (htyped : scope.Typed decls τ)
variable (hdeclared : ∀ d ∈ em.definitions, d.predicate.DeclaredIn decls τ)

include hscope htyped hdeclared

theorem wellTyped_emitFormula {text : String}
    (h : emitFormula text scope names = .ok (em, later)) : em.WellTyped decls := by
  obtain ⟨result, value, grounding, hissued, hground, hcolumns, -, rfl⟩ := emitFormula_ok h
  refine Emission.wellTyped_single hissued hdeclared [.number] rfl ?_
  intro τ' hagree hvars hresult
  simp only [List.map_cons, List.map_nil, List.cons.injEq, and_true] at hvars
  have htyped' := htyped.congr hscope fun x _ => hagree x
  refine List.forall_mem_singleton.mpr ⟨hresult.atomOf ?_, List.forall_mem_append.mpr
    ⟨htyped'.ground hground, List.forall_mem_singleton.mpr (Literal.wellTyped_assign ?_)⟩⟩
  · simp [Predicate.types, hcolumns, Column.named, hvars]
  · rw [hvars]
    exact .raw _

theorem wellTyped_emitScalar {x : String} {binding : ScalarBinding}
    (hlookup : scope.lookup x = some (.scalar binding))
    (h : emitScalar x binding names = .ok (em, later)) : em.WellTyped decls := by
  obtain ⟨result, hissued, hcolumns, -, rfl⟩ := emitScalar_ok h
  refine Emission.wellTyped_single hissued hdeclared [] rfl ?_
  intro τ' hagree _ hresult
  have htyped' := htyped.congr hscope fun x _ => hagree x
  refine List.forall_mem_singleton.mpr ⟨hresult.atomOf ?_,
    List.forall_mem_singleton.mpr (htyped'.constraint hlookup)⟩
  simp [Predicate.types, hcolumns, Column.named, htyped'.scalar hlookup]

/-! ## All operators -/

theorem wellTyped_emitUnary {op : UnaryOp} (ha : a.DeclaredIn decls τ)
    (h : emitUnary op a scope names = .ok (em, later)) : em.WellTyped decls := by
  cases op with
  | quantify quantifier => exact wellTyped_emitQuantifier ha hdeclared hscope htyped h
  | count => exact wellTyped_emitCount ha hdeclared hscope htyped h
  | closure => exact wellTyped_emitClosure ha hdeclared h
  | reflexiveClosure => simp [emitUnary, throw_eq_ok] at h
  | transpose => exact wellTyped_emitTranspose ha hdeclared h
  | aggregate function => exact wellTyped_emitAggregate ha hdeclared hscope htyped h
  | wildcardApply => exact wellTyped_emitDropFirst ha hdeclared h
  | index =>
      obtain ⟨ranked, hranked, rfl⟩ := emitIndex_ok h
      intro d hd
      have hd' := hdeclared d hd
      simp only [Emission.definitions, List.nil_append, List.mem_singleton] at hd
      subst hd
      exact wellTyped_rank ha hd' hranked
  | concat => exact wellTyped_emitConcat ha hdeclared h

theorem wellTyped_emitBinary {op : BinaryOp} (ha : a.DeclaredIn decls τ)
    (hb : b.DeclaredIn decls τ) (h : emitBinary op a b scope names = .ok (em, later)) :
    em.WellTyped decls := by
  cases op with
  | join => exact wellTyped_emitJoin ha hb hdeclared h
  | compare comparison => exact wellTyped_emitComparison ha hb hdeclared h
  | set operation => exact wellTyped_emitSetOperation ha hb hdeclared hscope htyped h
  | product => exact wellTyped_emitProduct ha hb hdeclared h
  | apply => exact wellTyped_emitApply ha hb hdeclared h
  | domainRestrict => exact wellTyped_emitDomainRestrict ha hb hdeclared h
  | rangeRestrict => exact wellTyped_emitRangeRestrict ha hb hdeclared h
  | arith operation => exact wellTyped_emitArithmetic ha hb hdeclared h

end Scoped

end Compile

end RelQuery
