import RelQuery.Proofs.Datalog.Model
import RelQuery.Proofs.Datalog.Saturation
import RelQuery.Proofs.Datalog.Typing

/-!
# What the body of a safe rule determines

An anonymous variable may have any value, in a constraint as in an atom.  The positive atoms and the
aggregates ground a variable if equalities lead to it from theirs, none of them with an expression
that holds an anonymous variable.  Assignments that satisfy the body and agree on the positive atoms
and the aggregates agree on what is grounded, by induction over how it is.

The analysis takes an anonymous variable for no variable at all.  So it lets an equality with one
bind the other side, which the equality does not determine.  Where such an equality binds nothing
new, the grounded variables are closed and so hold all bound ones: a safe rule determines its head.
-/

namespace RelQuery.Datalog

/-- A meaning of the arithmetic operators on all values, which may be partial. -/
abbrev Meaning := ArithOp → Value → Value → Option Value

mutual

/-- Whether an expression may stand for a value.  An anonymous variable and raw text may stand for
any. -/
def ScalarExpr.Takes (meaning : Meaning) (σ : Assignment) : ScalarExpr → Value → Prop
  | .term t, value => t.Matches σ value
  | .binary op left right, value =>
    ∃ x y, left.Takes meaning σ x ∧ right.Takes meaning σ y ∧ meaning op x y = some value
  | .cat parts, value => ∃ text, ScalarExpr.TakesText meaning σ parts text ∧ value = .symbol text
  | .raw _, _ => True

/-- Whether some parts, one after the other, may stand for a text. -/
def ScalarExpr.TakesText (meaning : Meaning) (σ : Assignment) :
    List ScalarExpr → String → Prop
  | [], text => text = ""
  | part :: rest, text => ∃ first others, part.Takes meaning σ (.symbol first) ∧
      ScalarExpr.TakesText meaning σ rest others ∧ text = first ++ others

end

/-- Whether a literal holds, with anonymous variables in constraints. -/
def Literal.Satisfied (meaning : Meaning) (I : Interpretation) (σ : Assignment) : Literal → Prop
  | positive atom => atom.Holds I σ
  | negated atom => ¬ atom.Holds I σ
  | aggregate a => a.Holds I σ
  | constraint left op right =>
    ∃ x y, left.Takes meaning σ x ∧ right.Takes meaning σ y ∧ op.Holds x y

/-- Neither an anonymous variable nor raw text stands in an expression. -/
def ScalarExpr.Definite (e : ScalarExpr) : Prop :=
  .term .wildcard ∉ e.parts ∧ ∀ text, .raw text ∉ e.parts

/-! ## Definite expressions -/

section Definite

variable {meaning : Meaning} {ops : Operations} {σ τ : Assignment}

theorem Term.eq_of_matches {t : Term} {x y : Value} (ht : t ≠ .wildcard)
    (h : ∀ v, t = .var v → σ v = τ v) (hx : t.Matches σ x) (hy : t.Matches τ y) : x = y := by
  cases t with
  | var v =>
      have hxy : some x = some y := by rw [← hx, ← hy, Term.eval, Term.eval, h v rfl]
      exact Option.some.inj hxy
  | wildcard => exact (ht rfl).elim
  | number n => exact Option.some.inj (hx.symm.trans hy)
  | symbol s => exact Option.some.inj (hx.symm.trans hy)

mutual

/-- The value of a definite expression is determined by its variables. -/
theorem ScalarExpr.eq_of_takes : ∀ {e : ScalarExpr} {x y : Value}, e.Definite →
    (∀ v, .term (.var v) ∈ e.parts → σ v = τ v) → e.Takes meaning σ x → e.Takes meaning τ y →
    x = y
  | .term t, x, y, hdefinite, hvars, hx, hy => by
      refine Term.eq_of_matches ?_ (fun v hv => hvars v (by simp [parts, hv])) hx hy
      rintro rfl
      exact hdefinite.1 (by simp [parts])
  | .binary op left right, x, y, hdefinite, hvars, ⟨x₁, x₂, hx₁, hx₂, hx⟩,
      ⟨y₁, y₂, hy₁, hy₂, hy⟩ => by
      simp only [Definite, parts, List.mem_cons, List.mem_append, not_or] at hdefinite hvars
      obtain rfl : x₁ = y₁ := eq_of_takes ⟨hdefinite.1.2.1, fun text => (hdefinite.2 text).2.1⟩
        (fun v hv => hvars v (.inr (.inl hv))) hx₁ hy₁
      obtain rfl : x₂ = y₂ := eq_of_takes ⟨hdefinite.1.2.2, fun text => (hdefinite.2 text).2.2⟩
        (fun v hv => hvars v (.inr (.inr hv))) hx₂ hy₂
      exact Option.some.inj (hx.symm.trans hy)
  | .cat items, x, y, hdefinite, hvars, ⟨text, hx, hxtext⟩, ⟨text', hy, hytext⟩ => by
      simp only [Definite, parts, List.mem_cons, not_or] at hdefinite hvars
      rw [hxtext, hytext, eq_of_takesText hdefinite.1.2 (fun text => (hdefinite.2 text).2)
        (fun v hv => hvars v (.inr hv)) hx hy]
  | .raw text, x, y, hdefinite, _, _, _ => (hdefinite.2 text (by simp [parts])).elim

theorem ScalarExpr.eq_of_takesText : ∀ {es : List ScalarExpr} {text text' : String},
    .term .wildcard ∉ partsAll es → (∀ raw, .raw raw ∉ partsAll es) →
    (∀ v, .term (.var v) ∈ partsAll es → σ v = τ v) → TakesText meaning σ es text →
    TakesText meaning τ es text' → text = text'
  | [], text, text', _, _, _, htext, htext' => htext.trans htext'.symm
  | e :: es, _, _, hwildcard, hraw, hvars, ⟨first, others, hfirst, hothers, htext⟩,
      ⟨first', others', hfirst', hothers', htext'⟩ => by
      simp only [partsAll, List.mem_append, not_or] at hwildcard hraw hvars
      have hsymbol : Value.symbol first = .symbol first' :=
        eq_of_takes ⟨hwildcard.1, fun raw => (hraw raw).1⟩ (fun v hv => hvars v (.inl hv))
          hfirst hfirst'
      rw [htext, htext', Value.symbol.inj hsymbol, eq_of_takesText hwildcard.2
        (fun raw => (hraw raw).2) (fun v hv => hvars v (.inr hv)) hothers hothers']

end

mutual

/-- A definite expression may stand for its value and for no other. -/
theorem ScalarExpr.takes_iff_eval : ∀ {e : ScalarExpr} {x : Value}, e.Definite →
    (e.Takes ops.eval σ x ↔ e.eval ops σ = some x)
  | .term t, x, hdefinite => by
      cases t with
      | wildcard => exact (hdefinite.1 (by simp [parts])).elim
      | _ => exact Iff.rfl
  | .binary op left right, x, hdefinite => by
      simp only [Definite, parts, List.mem_cons, List.mem_append, not_or] at hdefinite
      have hleft (y : Value) := takes_iff_eval (e := left) (x := y)
        ⟨hdefinite.1.2.1, fun text => (hdefinite.2 text).2.1⟩
      have hright (y : Value) := takes_iff_eval (e := right) (x := y)
        ⟨hdefinite.1.2.2, fun text => (hdefinite.2 text).2.2⟩
      simp only [Takes, hleft, hright, eval, Option.bind_eq_bind, Option.bind_eq_some_iff]
      tauto
  | .cat items, x, hdefinite => by
      simp only [Definite, parts, List.mem_cons, not_or] at hdefinite
      have hitems (text : String) :
          TakesText ops.eval σ items text ↔ evalText ops σ items = some text :=
        takesText_iff_evalText hdefinite.1.2 fun raw => (hdefinite.2 raw).2
      simp only [Takes, hitems, eval, Option.map_eq_some_iff, eq_comm (a := x)]
  | .raw text, x, hdefinite => (hdefinite.2 text (by simp [parts])).elim

theorem ScalarExpr.takesText_iff_evalText : ∀ {es : List ScalarExpr} {text : String},
    .term .wildcard ∉ partsAll es → (∀ raw, .raw raw ∉ partsAll es) →
    (TakesText ops.eval σ es text ↔ evalText ops σ es = some text)
  | [], text, _, _ => by simp [TakesText, evalText, eq_comm]
  | e :: es, text, hwildcard, hraw => by
      simp only [partsAll, List.mem_append, not_or] at hwildcard hraw
      have hfirst (first : Value) := takes_iff_eval (e := e) (x := first)
        ⟨hwildcard.1, fun raw => (hraw raw).1⟩
      have hothers (others : String) :
          TakesText ops.eval σ es others ↔ evalText ops σ es = some others :=
        takesText_iff_evalText hwildcard.2 fun raw => (hraw raw).2
      simp only [TakesText, hfirst, hothers, evalText]
      constructor
      · rintro ⟨first, others, heval, hrest, rfl⟩
        rw [heval, hrest]
      · intro h
        split at h
        · next first others heval hrest =>
            exact ⟨first, others, heval, hrest, (Option.some.inj h).symm⟩
        · cases h

end

/-- On constraints without anonymous variables and raw text, to be satisfied is to hold. -/
theorem Literal.satisfied_iff_holds {I : Interpretation} {l : Literal}
    (h : ∀ left op right, l = .constraint left op right → left.Definite ∧ right.Definite) :
    l.Satisfied ops.eval I σ ↔ l.Holds ops I σ := by
  cases l with
  | constraint left op right =>
      obtain ⟨hleft, hright⟩ := h left op right rfl
      simp only [Satisfied, Holds, ScalarExpr.takes_iff_eval hleft,
        ScalarExpr.takes_iff_eval hright]
  | _ => exact Iff.rfl

end Definite

/-! ## Well-typed expressions -/

theorem ScalarExpr.mem_partsAll {e : ScalarExpr} {es : List ScalarExpr} :
    e ∈ partsAll es ↔ ∃ part ∈ es, e ∈ part.parts := by
  induction es with
  | nil => simp [partsAll]
  | cons part es ih => simp [partsAll, ih]

/-- An anonymous variable has no type, so none stands in a well-typed expression. -/
theorem ScalarExpr.HasType.wildcard_notMem {τ : Typing} {e : ScalarExpr} {type : ColumnType}
    (h : e.HasType τ type) : .term .wildcard ∉ e.parts := by
  induction h with
  | var v => simp [parts]
  | number value => simp [parts]
  | symbol value => simp [parts]
  | binary hleft hright ihleft ihright => simp [parts, ihleft, ihright]
  | cat hparts ih =>
      simp only [parts, List.mem_cons, mem_partsAll, not_or, not_exists, not_and]
      exact ⟨nofun, ih⟩
  | raw text => simp [parts]

/-! ## Assignments that agree -/

namespace Rule

/-- No constraint holds raw text. -/
def RawFree (rule : Rule) : Prop :=
  ∀ left op right text, .constraint left op right ∈ rule.body →
    .raw text ∉ left.parts ∧ .raw text ∉ right.parts

/-- In a well-typed rule without raw text, to be satisfied is to hold. -/
theorem WellTyped.satisfied_iff_holds {rule : Rule} {decls : List Decl} {types : Typing}
    (h : rule.WellTyped decls types) (hraw : rule.RawFree) {ops : Operations} {I : Interpretation}
    {σ : Assignment} {l : Literal} (hl : l ∈ rule.body) :
    l.Satisfied ops.eval I σ ↔ l.Holds ops I σ := by
  refine Literal.satisfied_iff_holds ?_
  rintro left op right rfl
  obtain ⟨type, hleft, hright, -⟩ := h.body _ hl
  exact ⟨⟨hleft.wildcard_notMem, fun text => (hraw left op right text hl).1⟩,
    ⟨hright.wildcard_notMem, fun text => (hraw left op right text hl).2⟩⟩

/-- A variable of a positive atom or the result of an aggregate, or a variable alone on one side of
an equality whose other side has only such variables and no anonymous one. -/
inductive Grounds (rule : Rule) : String → Prop where
  | positive {atom : Atom} {v : String} (hl : .positive atom ∈ rule.body)
      (hv : .var v ∈ atom.args) : Grounds rule v
  | aggregate {a : Aggregate} (hl : .aggregate a ∈ rule.body) : Grounds rule a.result
  | toLeft {v : String} {e : ScalarExpr} (hl : .constraint (.term (.var v)) .eq e ∈ rule.body)
      (hwildcard : .term .wildcard ∉ e.parts)
      (hvars : ∀ u, .term (.var u) ∈ e.parts → Grounds rule u) : Grounds rule v
  | toRight {v : String} {e : ScalarExpr} (hl : .constraint e .eq (.term (.var v)) ∈ rule.body)
      (hwildcard : .term .wildcard ∉ e.parts)
      (hvars : ∀ u, .term (.var u) ∈ e.parts → Grounds rule u) : Grounds rule v

/-- A variable that is equated with an expression that holds an anonymous variable is grounded by
other literals. -/
def BindsWithoutWildcards (rule : Rule) : Prop :=
  ∀ v e, (.constraint (.term (.var v)) .eq e ∈ rule.body ∨
    .constraint e .eq (.term (.var v)) ∈ rule.body) → .term .wildcard ∈ e.parts → rule.Grounds v

variable {rule : Rule} {meaning : Meaning} {I : Interpretation} {σ τ : Assignment}

/-- An equality that two assignments satisfy passes their agreement on to a variable alone on one
side. -/
theorem agree_of_equated {v : String} {e : ScalarExpr} {x y x' y' : Value} (hdefinite : e.Definite)
    (hvars : ∀ u, .term (.var u) ∈ e.parts → σ u = τ u)
    (hσv : (ScalarExpr.term (.var v)).Takes meaning σ x) (hσ : e.Takes meaning σ y) (hxy : x = y)
    (hτv : (ScalarExpr.term (.var v)).Takes meaning τ x') (hτ : e.Takes meaning τ y')
    (hxy' : x' = y') : σ v = τ v := by
  have hσx : σ v = x := Option.some.inj hσv
  have hτx : τ v = x' := Option.some.inj hτv
  rw [hσx, hτx, hxy, hxy', ScalarExpr.eq_of_takes hdefinite hvars hσ hτ]

/-- Assignments that satisfy the body and agree on the positive atoms and the aggregates agree on
what these ground. -/
theorem Grounds.agree (hraw : rule.RawFree) (hσ : ∀ l ∈ rule.body, l.Satisfied meaning I σ)
    (hτ : ∀ l ∈ rule.body, l.Satisfied meaning I τ)
    (hatoms : ∀ atom v, .positive atom ∈ rule.body → .var v ∈ atom.args → σ v = τ v)
    (haggregates : ∀ a, .aggregate a ∈ rule.body → σ a.result = τ a.result) {v : String}
    (h : rule.Grounds v) : σ v = τ v := by
  induction h with
  | positive hl hv => exact hatoms _ _ hl hv
  | aggregate hl => exact haggregates _ hl
  | @toLeft v e hl hwildcard _ ih =>
      have hdefinite : e.Definite := ⟨hwildcard, fun text => (hraw _ _ _ text hl).2⟩
      obtain ⟨x, y, hx, hy, hxy⟩ := hσ _ hl
      obtain ⟨x', y', hx', hy', hxy'⟩ := hτ _ hl
      exact agree_of_equated hdefinite ih hx hy hxy hx' hy' hxy'
  | @toRight v e hl hwildcard _ ih =>
      have hdefinite : e.Definite := ⟨hwildcard, fun text => (hraw _ _ _ text hl).1⟩
      obtain ⟨x, y, hx, hy, hxy⟩ := hσ _ hl
      obtain ⟨x', y', hx', hy', hxy'⟩ := hτ _ hl
      exact agree_of_equated hdefinite ih hy hx hxy.symm hy' hx' hxy'.symm

/-- Where an equality with an anonymous variable binds nothing new, what is grounded is closed. -/
theorem closes_grounds (hwildcards : rule.BindsWithoutWildcards) :
    rule.Closes {v | rule.Grounds v} := by
  refine ⟨fun _ _ => .positive, fun _ => .aggregate, fun v e hl hvars => ?_,
    fun v e hl hvars => ?_⟩
  · by_cases hwildcard : .term .wildcard ∈ e.parts
    · exact hwildcards v e (.inl hl) hwildcard
    · exact .toLeft hl hwildcard hvars
  · by_cases hwildcard : .term .wildcard ∈ e.parts
    · exact hwildcards v e (.inr hl) hwildcard
    · exact .toRight hl hwildcard hvars

/-- A safe rule grounds all that has to be bound. -/
theorem grounds_of_isSafe (hwildcards : rule.BindsWithoutWildcards) (hsafe : rule.isSafe = true)
    {v : String} (hv : rule.Needs v) : rule.Grounds v := by
  have hbound : v ∈ rule.bound :=
    unbound_eq_nil_iff.mp (List.isEmpty_iff.mp hsafe) v (mem_needed_iff.mpr hv)
  exact (isLeast_bound rule).2 (closes_grounds hwildcards) hbound

/-- In a safe rule where equalities with anonymous variables bind nothing new, assignments that
satisfy the body and agree on the positive atoms and the aggregates agree on all variables that have
to be bound, and so on the tuples of the head. -/
theorem isSafe_determines (rule : Rule) (hraw : rule.RawFree)
    (hwildcards : rule.BindsWithoutWildcards) (hsafe : rule.isSafe = true)
    (meaning : Meaning) (I : Interpretation) (σ τ : Assignment)
    (hσ : ∀ l ∈ rule.body, l.Satisfied meaning I σ) (hτ : ∀ l ∈ rule.body, l.Satisfied meaning I τ)
    (hatoms : ∀ atom v, .positive atom ∈ rule.body → .var v ∈ atom.args → σ v = τ v)
    (haggregates : ∀ a, .aggregate a ∈ rule.body → σ a.result = τ a.result) :
    (∀ v, rule.Needs v → σ v = τ v) ∧
      ∀ tuple, rule.head.Matches σ tuple ↔ rule.head.Matches τ tuple := by
  have hagree : ∀ v, rule.Needs v → σ v = τ v := fun v hv =>
    (grounds_of_isSafe hwildcards hsafe hv).agree hraw hσ hτ hatoms haggregates
  refine ⟨hagree, fun tuple => Atom.matches_congr fun v hv => ?_⟩
  exact hagree v (.head (Atom.mem_vars_iff.mp hv))

end Rule

namespace Sample

/-- A safe rule with a chain of two assignments, one of them written from right to left, and an
equality with an anonymous variable that binds nothing new. -/
def successor : Rule where
  head := ⟨"q", [.var "z"]⟩
  body := [.constraint (.term (.var "z")) .eq
      (.binary .add (.term (.var "y")) (.term (.number 1))),
    .constraint (.term (.var "x")) .eq (.term (.var "y")),
    .constraint (.term (.var "x")) .eq (.term .wildcard), .positive ⟨"p", [.var "x"]⟩]

/-- One and its successor; the other variables have a value of their own. -/
def successorAssignment (other : Value) : Assignment := fun v =>
  if v = "z" then .number 2 else if v = "x" ∨ v = "y" then .number 1 else other

/-- A rule that equates a variable with an anonymous one. -/
def anything : Rule where
  head := ⟨"q", [.var "x"]⟩
  body := [.constraint (.term (.var "x")) .eq (.term .wildcard)]

end Sample

theorem sample_isSafe_determines :
    Sample.successor.isSafe = true ∧ (∀ v, Sample.successor.Needs v →
      Sample.successorAssignment (.number 0) v = Sample.successorAssignment (.symbol "a") v) ∧
      ∀ tuple, Sample.successor.head.Matches (Sample.successorAssignment (.number 0)) tuple ↔
        Sample.successor.head.Matches (Sample.successorAssignment (.symbol "a")) tuple := by
  have hsafe : Sample.successor.isSafe = true := by decide +kernel
  have hbody (other : Value) : ∀ l ∈ Sample.successor.body, l.Satisfied ArithOp.eval.eval
      (fun _ => {[.number 1]}) (Sample.successorAssignment other) := by
    simp [Sample.successor, Literal.Satisfied, ScalarExpr.Takes, Term.Matches, Term.eval,
      Sample.successorAssignment, Operations.eval, ArithOp.eval, Comparison.Holds, Atom.Holds,
      Atom.Matches]
  refine ⟨hsafe, Rule.isSafe_determines Sample.successor ?_ ?_ hsafe ArithOp.eval.eval
    (fun _ => {[.number 1]}) _ _ (hbody _) (hbody _) ?_ ?_⟩
  · intro left op right text hl
    simp only [Sample.successor, List.mem_cons, Literal.constraint.injEq] at hl
    rcases hl with ⟨rfl, rfl, rfl⟩ | ⟨rfl, rfl, rfl⟩ | ⟨rfl, rfl, rfl⟩ | hl
    · simp [ScalarExpr.parts]
    · simp [ScalarExpr.parts]
    · simp [ScalarExpr.parts]
    · simp at hl
  · intro v e hl hwildcard
    obtain rfl : v = "x" := by
      simp only [Sample.successor, List.mem_cons, Literal.constraint.injEq] at hl
      rcases hl with (⟨-, -, rfl⟩ | ⟨-, -, rfl⟩ | ⟨hv, -, -⟩ | hl) |
        (⟨rfl, -, -⟩ | ⟨rfl, -, -⟩ | ⟨rfl, -, -⟩ | hl)
      all_goals simp_all [ScalarExpr.parts]
    have hp : .positive ⟨"p", [.var "x"]⟩ ∈ Sample.successor.body := by simp [Sample.successor]
    exact .positive hp (by simp)
  · intro atom v hl hv
    obtain rfl : atom = ⟨"p", [.var "x"]⟩ := by simpa [Sample.successor] using hl
    obtain rfl : v = "x" := by simpa using hv
    rfl
  · simp [Sample.successor]

/-- An equality with an anonymous variable makes a rule safe and leaves its head open. -/
theorem wildcard_equation_undetermined :
    Sample.anything.RawFree ∧ Sample.anything.isSafe = true ∧
      ∃ (meaning : Meaning) (I : Interpretation) (σ τ : Assignment),
        (∀ l ∈ Sample.anything.body, l.Satisfied meaning I σ) ∧
        (∀ l ∈ Sample.anything.body, l.Satisfied meaning I τ) ∧
        (∀ atom v, .positive atom ∈ Sample.anything.body → .var v ∈ atom.args → σ v = τ v) ∧
        (∀ a, .aggregate a ∈ Sample.anything.body → σ a.result = τ a.result) ∧
        ∃ v, Sample.anything.Needs v ∧ σ v ≠ τ v := by
  refine ⟨?_, by decide +kernel, fun _ _ _ => none, fun _ => ∅, fun _ => .number 1,
    fun _ => .number 2, ?_, ?_, ?_, ?_, "x", .head (by simp [Sample.anything]), by simp⟩
  · intro left op right text hl
    obtain ⟨rfl, rfl, rfl⟩ : left = .term (.var "x") ∧ op = .eq ∧ right = .term .wildcard := by
      simpa [Sample.anything] using hl
    simp [ScalarExpr.parts]
  · simp [Sample.anything, Literal.Satisfied, ScalarExpr.Takes, Term.Matches, Term.eval,
      Comparison.Holds]
  · simp [Sample.anything, Literal.Satisfied, ScalarExpr.Takes, Term.Matches, Term.eval,
      Comparison.Holds]
  · simp [Sample.anything]
  · simp [Sample.anything]

end RelQuery.Datalog
