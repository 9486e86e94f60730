import RelQuery.Proofs.Grammar.Traversal

/-!
# What expressions inherit

A property of expressions, and of how they lie in the source that they are read from, holds of every
expression that is read if it holds of single tokens and is kept by everything that the grammar does
with an expression: to pass over layout and signs in front of it and behind it, and to make a node of
one expression or of two that lie next to each other.
-/

namespace RelQuery

/-- The nodes directly below a node, in the order of the source. -/
def Expr.children : Expr → List Expr
  | constant .. | name .. | formula .. => []
  | unary _ operand _ => [operand]
  | binary _ left right _ => [left, right]
  | comprehension _ _ constraint body _ => [constraint, body]
  | letIn _ value body _ => [value, body]

theorem Expr.mem_nodes_iff {e n : Expr} :
    n ∈ e.nodes ↔ n = e ∨ ∃ c ∈ e.children, n ∈ c.nodes := by
  cases e <;> simp [nodes, children]

namespace Grammar

open RelQuery.Grammar.Parser
open Text (byteLength)

def Token.isNumber : Token → Bool
  | .number _ => true
  | _ => false

/-- Characters that are passed over around an expression: layout and tokens that are no numbers. -/
def Skipped (u rest : List Char) : Prop :=
  ∃ ts, Written ts u rest ∧ ∀ t ∈ ts, t.isNumber = false

theorem Written.skipped {ts : List Token} {u rest : List Char} (h : Written ts u rest)
    (hts : ∀ t ∈ ts, t.isNumber = false) : Skipped u rest :=
  ⟨ts, h, hts⟩

theorem isNumber_token (op : UnaryOp) : op.token.isNumber = false := by
  cases op with
  | quantify quantifier => cases quantifier <;> rfl
  | aggregate function => cases function <;> rfl
  | _ => rfl

theorem isNumber_of_mem_nameTokens {names : List String} {t : Token} (h : t ∈ nameTokens names) :
    t.isNumber = false := by
  cases names with
  | nil => cases h
  | cons x xs =>
      simp only [nameTokens, List.mem_cons, List.mem_flatMap, List.not_mem_nil, or_false] at h
      rcases h with rfl | ⟨y, -, rfl | rfl⟩ <;> rfl

/-- What is kept while expressions are read, where `S before taken after e` is about an expression
that was read from `taken`.  A node starts where it was read from or with its first child, and ends
where it was read to or with its last child. -/
structure Inherited (source : String) (S : (before taken after : List Char) → Expr → Prop) :
    Prop where
  leaf : ∀ {before cs after t e}, t.Spelled cs after → Derives .atom e [t] →
    e.span = ⟨source, byteLength before, byteLength (before ++ cs)⟩ → S before cs after e
  angle : ∀ {before taken after x span}, S before taken after (.name x span) →
    S before taken after
      (propertyOf (.name x span) ⟨source, byteLength before, byteLength (before ++ taken)⟩)
  skip_left : ∀ {before u taken after e}, Skipped u (taken ++ after) →
    S (before ++ u) taken after e → S before (u ++ taken) after e
  skip_right : ∀ {before u taken after e}, S before taken (u ++ after) e → Skipped u after →
    S before (taken ++ u) after e
  unary : ∀ {before taken after op e start}, start = byteLength before ∨ start = e.span.start →
    S before taken after e →
    S before taken after (.unary op e ⟨source, start, byteLength (before ++ taken)⟩)
  pair : ∀ {before u v after left right e start stop}, e.children = [left, right] →
    e.span = ⟨source, start, stop⟩ → start = byteLength before ∨ start = left.span.start →
    stop = byteLength (before ++ (u ++ v)) ∨ stop = right.span.stop →
    S before u (v ++ after) left → S (before ++ u) v after right → S before (u ++ v) after e

section Inherited

variable {source : String} {S : (before taken after : List Char) → Expr → Prop}
variable (hS : Inherited source S) {before taken after : List Char} {e : Expr}

include hS

theorem Behind.inherits {head : List Token} (h : Behind head S before taken after e)
    (hhead : ∀ t ∈ head, t.isNumber = false) : S before taken after e := by
  obtain ⟨u, v, rfl, hu, he⟩ := h
  exact hS.skip_left (hu.skipped hhead) he

theorem Between.inherits {opening closing : Sign}
    (h : Between opening closing S before taken after e) : S before taken after e := by
  obtain ⟨u, v, w, rfl, hu, he, hw⟩ := h
  have hleft := hu.skipped (by simp [Token.isNumber])
  exact hS.skip_left (by simpa using hleft)
    (hS.skip_right he (hw.skipped (by simp [Token.isNumber])))

/-- A node that binds names: its first expression behind a head, its second one behind a sign. -/
theorem Paired.inherits {head mid : List Token} {left right : Expr}
    (h : Paired head mid S S before taken after left right)
    (hhead : ∀ t ∈ head, t.isNumber = false) (hmid : ∀ t ∈ mid, t.isNumber = false)
    (hchildren : e.children = [left, right])
    (hspan : e.span = ⟨source, byteLength before, byteLength (before ++ taken)⟩) :
    S before taken after e := by
  obtain ⟨w, u, m, v, rfl, hw, hleft, hm, hright⟩ := h
  have hfirst := hS.skip_left (hw.skipped hhead) hleft
  have hsecond : S (before ++ (w ++ u)) (m ++ v) after right :=
    hS.skip_left (hm.skipped hmid) (by simpa using hright)
  simpa using hS.pair hchildren hspan (.inl rfl) (.inl (by simp)) (by simpa using hfirst) hsecond

/-- What is inherited does not depend on bands. -/
theorem Inherited.rules : Rules source fun _ => S where
  leaf := hS.leaf
  property {before _ after _} h := by
    obtain ⟨u, v, w, rfl, hu, ⟨x, rfl, hspelled⟩, hw⟩ := h
    have hname : S (before ++ u) v (w ++ after) _ := hS.leaf hspelled .name rfl
    have hbetween : Between .less .greater S before _ after _ := ⟨u, v, w, rfl, hu, hname, hw⟩
    exact hS.angle (hbetween.inherits hS)
  paren h := h.inherits hS
  tighter _ h := h
  layout h hw := hS.skip_right h (hw.skipped (by simp))
  leading _ _ h := hS.unary (.inl rfl) (h.inherits hS (by simp [isNumber_token]))
  operand _ _ hleft hright :=
    hS.pair rfl rfl (.inr rfl) (.inr rfl) hleft (hright.inherits hS (by simp [Token.isNumber]))
  link _ _ hleft hright :=
    hS.pair rfl rfl (.inr rfl) (.inl rfl) hleft (hright.inherits hS (by simp [Token.isNumber]))
  ignore hleft hwritten := by
    have hskipped := hwritten.skipped (by simp [ignoredColumn, Token.isNumber])
    exact hS.unary (.inr rfl) (hS.skip_right hleft hskipped)
  apply hleft hright _ := hS.pair rfl rfl (.inr rfl) (.inl rfl) hleft (hright.inherits hS)
  comprehension h := by
    refine h.inherits hS ?_ (by simp [Token.isNumber]) rfl rfl
    intro t ht
    rcases List.mem_append.mp ht with ht | ht
    · exact isNumber_of_mem_nameTokens ht
    · rw [List.mem_singleton.mp ht]
      rfl
  letIn h := h.inherits hS (by simp [Token.isNumber]) (by simp [Token.isNumber]) rfl rfl

/-- What is inherited holds of the expression that a query is read as. -/
theorem inherits_query {next : Cursor}
    (hrun : (query source ⟨source.toList, 0⟩).value = some (e, next)) : S [] source.toList [] e := by
  obtain ⟨w, u, hsource, hw, he⟩ := hS.rules.query hrun
  rw [hsource]
  exact hS.skip_left (by simpa using hw.skipped (by simp)) he

end Inherited

end Grammar

end RelQuery
