import Mathlib.Data.List.Basic
import Mathlib.Data.Nat.Basic
import Mathlib.Order.Basic
import RelQuery.Proofs.Grammar.Direct

/-!
# The recursion of the builder

The builder runs with a bound on the depth of pairs.  The bound is never met: a pair is built from
its rule and from what is built from the pairs inside it.  An expression that is built whole is the
same as one whose numbers are looked at afterwards, since the first number that does not fit is in
its place either way.
-/

namespace RelQuery.Grammar

variable {source : String}

/-! ## The recursion of the builder -/

namespace Pair

theorem depth_le_depthOf {child : Pair} {pairs : List Pair} (h : child ∈ pairs) :
    child.depth ≤ depthOf pairs := by
  induction pairs with
  | nil => cases h
  | cons pair pairs ih =>
      rw [depthOf]
      rcases List.mem_cons.mp h with rfl | h
      · exact le_max_left _ _
      · exact (ih h).trans (le_max_right _ _)

theorem depth_lt_of_mem {pair child : Pair} (h : child ∈ pair.inner) : child.depth < pair.depth := by
  obtain ⟨rule, start, stop, inner⟩ := pair
  rw [depth, Nat.lt_succ_iff]
  exact depth_le_depthOf h

end Pair

section Congruence

variable {f g : Pair → Built Expr} {pair : Pair}

theorem bind_congr_of_ok {α β : Type} {x : Built α} {k k' : α → Built β}
    (h : ∀ a, x = .ok a → k a = k' a) : x >>= k = x >>= k' := by
  cases x with
  | error failure => rfl
  | ok a => exact h a rfl

theorem mem_of_next {failure : Malformed} {pairs rest : List Pair} {first : Pair}
    (h : next failure pairs = .ok (first, rest)) :
    first ∈ pairs ∧ ∀ child ∈ rest, child ∈ pairs := by
  cases pairs with
  | nil => cases h
  | cons _ _ =>
      cases h
      exact ⟨List.mem_cons_self, fun child => List.mem_cons_of_mem _⟩

theorem foldFrom_operator {fixed : Option BinaryOp} {left : Expr} {operator operand : Pair}
    {rest : List Pair} (h : operator.rule = .setOperator) :
    foldFrom source f pair fixed left (operator :: operand :: rest) = (do
      let right ← f operand
      foldFrom source f pair fixed (combine source left (setOpOf source operator, right)) rest) := by
  rw [foldFrom.eq_def]
  simp only [if_pos h]

theorem foldFrom_operand {op : BinaryOp} {left : Expr} {operand : Pair} {rest : List Pair}
    (h : operand.rule ≠ .setOperator) :
    foldFrom source f pair (some op) left (operand :: rest) = (do
      let right ← f operand
      foldFrom source f pair (some op) (combine source left (op, right)) rest) := by
  rw [foldFrom.eq_def]
  simp only [if_neg h]

theorem foldFrom_congr {fixed : Option BinaryOp} {left : Expr} {rest : List Pair}
    (h : ∀ child ∈ rest, f child = g child) :
    foldFrom source f pair fixed left rest = foldFrom source g pair fixed left rest := by
  fun_induction foldFrom source f pair fixed left rest with
  | case1 left => rfl
  | case2 left operator hrule =>
      rw [foldFrom.eq_def]
      simp only [if_pos hrule]
  | case3 left operator hrule operand rest ih =>
      rw [foldFrom_operator hrule, ← h operand (by simp)]
      exact bind_congr fun right => ih right fun child hchild => h child (by simp [hchild])
  | case4 left operand rest hrule hfixed =>
      subst hfixed
      rw [foldFrom.eq_def]
      simp only [if_neg hrule]
  | case5 left operand rest hrule op hfixed ih =>
      subst hfixed
      rw [foldFrom_operand hrule, ← h operand (by simp)]
      exact bind_congr fun right => ih right fun child hchild => h child (by simp [hchild])

theorem buildLink_congr {left : Expr} {link : Pair} (h : ∀ child ∈ link.inner, f child = g child) :
    buildLink source f left link = buildLink source g left link := by
  unfold buildLink
  split
  · rfl
  · refine bind_congr fun op => bind_congr_of_ok fun ⟨right, rest⟩ hnext => ?_
    dsimp only
    rw [h right (mem_of_next hnext).1]

theorem foldlM_congr {links : List Pair} {left : Expr}
    (h : ∀ link ∈ links, ∀ child ∈ link.inner, f child = g child) :
    links.foldlM (buildLink source f) left = links.foldlM (buildLink source g) left := by
  induction links generalizing left with
  | nil => rfl
  | cons link links ih =>
      rw [List.foldlM_cons, List.foldlM_cons, buildLink_congr (h link List.mem_cons_self)]
      exact bind_congr fun left => ih fun link hlink => h link (List.mem_cons_of_mem _ hlink)

section Inside

variable (h : ∀ child, child.depth < pair.depth → f child = g child)

include h

theorem inner_congr : ∀ child ∈ pair.inner, f child = g child :=
  fun child hchild => h child (Pair.depth_lt_of_mem hchild)

theorem foldLeft_congr (fixed : Option BinaryOp) :
    foldLeft source f pair fixed = foldLeft source g pair fixed := by
  refine bind_congr_of_ok fun ⟨first, rest⟩ hnext => ?_
  obtain ⟨hfirst, hrest⟩ := mem_of_next hnext
  dsimp only
  rw [inner_congr h first hfirst]
  exact bind_congr fun left =>
    foldFrom_congr fun child hchild => inner_congr h child (hrest child hchild)

theorem buildPrefixed_congr (operator : Rule) (operatorOf : Pair → Built UnaryOp) :
    buildPrefixed source f operator operatorOf pair =
      buildPrefixed source g operator operatorOf pair := by
  refine bind_congr_of_ok fun ⟨first, rest⟩ hnext => ?_
  obtain ⟨hfirst, hrest⟩ := mem_of_next hnext
  dsimp only
  rw [inner_congr h first hfirst]
  refine ite_congr rfl (fun _ => rfl) fun _ => bind_congr fun op => ?_
  refine bind_congr_of_ok fun ⟨operand, _⟩ hnext => ?_
  dsimp only
  rw [inner_congr h operand (hrest operand (mem_of_next hnext).1)]

theorem buildComparison_congr : buildComparison source f pair = buildComparison source g pair := by
  refine bind_congr_of_ok fun ⟨left, rest⟩ hnext => ?_
  obtain ⟨hleft, hrest⟩ := mem_of_next hnext
  dsimp only
  rw [inner_congr h left hleft]
  refine bind_congr fun left => ?_
  cases rest with
  | nil => rfl
  | cons operator rest =>
      refine bind_congr fun comparison => bind_congr_of_ok fun ⟨right, _⟩ hnext => ?_
      have hright : right ∈ operator :: rest := List.mem_cons_of_mem _ (mem_of_next hnext).1
      dsimp only
      rw [inner_congr h right (hrest right hright)]

theorem buildLet_congr : buildLet source f pair = buildLet source g pair := by
  refine bind_congr_of_ok fun ⟨name, rest⟩ hname => ?_
  refine bind_congr_of_ok fun ⟨value, rest'⟩ hvalue => ?_
  obtain ⟨hvalue, hrest⟩ := mem_of_next hvalue
  have hparts : ∀ child ∈ rest, f child = g child := fun child hchild =>
    inner_congr h child (List.mem_of_mem_filter ((mem_of_next hname).2 child hchild))
  dsimp only
  rw [hparts value hvalue]
  refine bind_congr fun value => bind_congr_of_ok fun ⟨body, _⟩ hbody => ?_
  dsimp only
  rw [hparts body (hrest body (mem_of_next hbody).1)]

theorem buildComprehension_congr :
    buildComprehension source f pair = buildComprehension source g pair := by
  refine bind_congr_of_ok fun ⟨names, rest⟩ hnames => ?_
  refine bind_congr_of_ok fun ⟨constraint, rest'⟩ hconstraint => ?_
  obtain ⟨hconstraint, hrest⟩ := mem_of_next hconstraint
  have hparts : ∀ child ∈ rest, child ∈ pair.inner := fun child hchild =>
    List.mem_of_mem_filter ((mem_of_next hnames).2 child hchild)
  dsimp only
  rw [inner_congr h constraint (hparts constraint hconstraint)]
  refine bind_congr fun constraint => bind_congr_of_ok fun ⟨tail, _⟩ htail => ?_
  refine bind_congr_of_ok fun ⟨body, _⟩ hbody => ?_
  -- The body is two levels down, inside the pair of its sign.
  have htail := Pair.depth_lt_of_mem (hparts tail (hrest tail (mem_of_next htail).1))
  have hbody := Pair.depth_lt_of_mem (mem_of_next hbody).1
  dsimp only
  rw [h body (hbody.trans htail)]

theorem buildChain_congr : buildChain source f pair = buildChain source g pair := by
  refine bind_congr_of_ok fun ⟨first, links⟩ hnext => ?_
  obtain ⟨hfirst, hlinks⟩ := mem_of_next hnext
  dsimp only
  rw [inner_congr h first hfirst]
  refine bind_congr fun left => foldlM_congr fun link hlink child hchild => h child ?_
  exact (Pair.depth_lt_of_mem hchild).trans (Pair.depth_lt_of_mem (hlinks link hlink))

/-- What is built from a pair depends on what is built from the pairs inside it. -/
theorem buildNode_congr : buildNode source f pair = buildNode source g pair := by
  simp only [buildNode, foldLeft_congr h, buildPrefixed_congr h, buildComparison_congr h,
    buildLet_congr h, buildComprehension_congr h, buildChain_congr h]

end Inside

theorem buildWithin_eq {d d' : Nat} (h : pair.depth ≤ d) (h' : pair.depth ≤ d') :
    buildWithin source d pair = buildWithin source d' pair := by
  have hpos : 0 < pair.depth := by
    cases pair
    exact Nat.succ_pos _
  -- A pair has at least one level, so no bound that it meets is used up, and the pairs inside meet
  -- the bounds that are left.
  induction d generalizing pair d' with
  | zero => omega
  | succ d ih =>
      cases d' with
      | zero => omega
      | succ d' =>
          refine buildNode_congr fun child hchild => ih (by omega) (by omega) ?_
          cases child
          exact Nat.succ_pos _

/-- The builder takes a pair apart by its rule and builds the pairs inside it. -/
theorem build_eq (pair : Pair) : build source pair = buildNode source (build source) pair := by
  obtain ⟨rule, start, stop, inner⟩ := pair
  change buildNode source (buildWithin source (Pair.depthOf inner)) _ = _
  refine buildNode_congr fun child hchild => buildWithin_eq ?_ le_rfl
  exact Nat.lt_succ_iff.mp hchild

end Congruence

/-- The rule that reads the body of a comprehension. -/
def bodyRule : Style → Rule
  | .keep => .keepBody
  | .image => .imageBody

section Equations

variable {f : Pair → Built Expr} {pair operand : Pair} {rest : List Pair}

theorem ok_bind {α β : Type} (a : α) (k : α → Built β) : Except.ok a >>= k = k a :=
  rfl

theorem buildPrefixed_operator {of : Pair → Built UnaryOp} {op : UnaryOp} {operator : Pair}
    (hinner : pair.inner = operator :: operand :: rest) (hof : of operator = .ok op) :
    buildPrefixed source f operator.rule of pair =
      (f operand >>= fun e => pure (.unary op e (pair.span source))) := by
  simp [buildPrefixed, nextOf, next, hinner, hof, ok_bind]

theorem buildPrefixed_operand {of : Pair → Built UnaryOp} {operator : Rule}
    (hinner : pair.inner = operand :: rest) (hrule : operand.rule ≠ operator) :
    buildPrefixed source f operator of pair = f operand := by
  simp [buildPrefixed, nextOf, next, hinner, hrule, ok_bind]

theorem foldLeft_eq {fixed : Option BinaryOp} (hinner : pair.inner = operand :: rest) :
    foldLeft source f pair fixed =
      (f operand >>= fun left => foldFrom source f pair fixed left rest) := by
  simp [foldLeft, nextOf, next, hinner, ok_bind]

theorem buildComparison_operand (hinner : pair.inner = [operand]) :
    buildComparison source f pair = f operand := by
  simp [buildComparison, nextOf, next, hinner, ok_bind]

theorem buildComparison_operator {operator right : Pair} {comparison : Comparison}
    (hinner : pair.inner = [operand, operator, right])
    (hof : compareOf source operator = .ok comparison) :
    buildComparison source f pair = (f operand >>= fun left => f right >>= fun right =>
      pure (combine source left (.compare comparison, right))) := by
  simp [buildComparison, nextOf, next, hinner, hof, ok_bind]

theorem buildChain_eq (hinner : pair.inner = operand :: rest) :
    buildChain source f pair = (f operand >>= rest.foldlM (buildLink source f)) := by
  simp [buildChain, nextOf, next, hinner, ok_bind]

theorem buildLet_eq {word name value body : Pair} (hinner : pair.inner = [word, name, value, body])
    (hword : word.rule = .keyword .binding) (hname : name.rule = .identifier)
    (hvalue : value.rule = .union) (hbody : body.rule = .expression) :
    buildLet source f pair = (f value >>= fun value => f body >>= fun body =>
      pure (.letIn (name.text source) value body (pair.span source))) := by
  simp [buildLet, next, hinner, hword, hname, hvalue, hbody, ok_bind]

theorem buildComprehension_eq {names colon constraint tail body : Pair} {style : Style}
    (hinner : pair.inner = [names, colon, constraint, tail]) (hnames : names.rule = .boundNames)
    (hcolon : colon.rule = .colon) (hconstraint : constraint.rule = .union)
    (htail : tail.rule = bodyRule style)
    (hbody : tail.inner = [body]) :
    buildComprehension source f pair = (f constraint >>= fun constraint => f body >>= fun body =>
      pure (.comprehension style (names.inner.map (·.text source)) constraint body
        (pair.span source))) := by
  cases style <;>
    simp [buildComprehension, next, hinner, hnames, hcolon, hconstraint, htail, bodyRule, hbody,
      ok_bind]

end Equations

/-! ## Numbers that do not fit -/

def oversized? (e : Expr) : Option Expr :=
  e.nodes.find? Expr.isOversized

/-- An expression as it is built: the first number that does not fit is in its place. -/
def settle (e : Expr) : Built Expr :=
  match oversized? e with
  | some n => .error ⟨n.span.start, n.span.stop, .number⟩
  | none => .ok e

section Settle

variable {e left right : Expr}

theorem settle_of_none (h : oversized? e = none) : settle e = .ok e := by
  rw [settle, h]

theorem settle_eq_ok_iff {found : Expr} :
    settle found = .ok e ↔ found = e ∧ e.nodes.any Expr.isOversized = false := by
  have hnone : oversized? found = none ↔ found.nodes.any Expr.isOversized = false := by
    simp [oversized?]
  constructor
  · intro h
    unfold settle at h
    split at h
    · cases h
    · next hfound =>
        cases h
        exact ⟨rfl, hnone.mp hfound⟩
  · rintro ⟨rfl, hfits⟩
    exact settle_of_none (hnone.mpr hfits)

/-- A node without a number of its own is built from its part. -/
theorem settle_bind {k : Expr → Expr} (h : oversized? (k e) = oversized? e) :
    (settle e >>= fun e => pure (k e)) = settle (k e) := by
  unfold settle
  rw [h]
  cases oversized? e <;> rfl

/-- A node without a number of its own is built from its parts, the left one first. -/
theorem settle_bind_bind {k : Expr → Expr → Expr}
    (h : oversized? (k left right) = (oversized? left).or (oversized? right)) :
    (settle left >>= fun left => settle right >>= fun right => pure (k left right)) =
      settle (k left right) := by
  unfold settle
  rw [h]
  cases oversized? left with
  | some n => rfl
  | none => cases oversized? right <;> rfl

theorem settle_number {value : Int} {span : Span} :
    settle (.constant (.number value) span) =
      if Text.fitsSigned 32 value then .ok (.constant (.number value) span)
      else .error ⟨span.start, span.stop, .number⟩ := by
  cases hfits : Text.fitsSigned 32 value <;>
    simp [settle, oversized?, Expr.nodes, Expr.isOversized, Expr.span, hfits]

theorem oversized?_unary {op : UnaryOp} {span : Span} :
    oversized? (.unary op e span) = oversized? e :=
  rfl

theorem oversized?_binary {op : BinaryOp} {span : Span} :
    oversized? (.binary op left right span) = (oversized? left).or (oversized? right) :=
  List.find?_append

theorem oversized?_comprehension {style : Style} {names : List String} {span : Span} :
    oversized? (.comprehension style names left right span) =
      (oversized? left).or (oversized? right) :=
  List.find?_append

theorem oversized?_letIn {name : String} {span : Span} :
    oversized? (.letIn name left right span) = (oversized? left).or (oversized? right) :=
  List.find?_append

end Settle

end RelQuery.Grammar
