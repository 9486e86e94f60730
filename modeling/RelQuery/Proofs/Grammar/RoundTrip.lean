import RelQuery.Proofs.Grammar.Bands
import RelQuery.Proofs.Grammar.Building

/-!
# Reading rendered expressions

The tokens of a rendered expression are derived, and every derivation is read as what it derives.  So
reading the spelling of an expression gives the expression back, up to spans: parentheses where an
operand is looser than its slot, and nowhere else but around a bare wildcard between brackets, are
enough.
-/

namespace RelQuery

open Grammar Grammar.Parser

variable {q : Quoting} {source : String} {e : Expr}

/-! ## Rendered expressions -/

/-- The place before the first of some tokens, with one blank between any two. -/
def Grammar.Before (q : Quoting) (ts : List Token) (cursor : Cursor) : Prop :=
  cursor.rest = spell q ts ∧ ∀ t ∈ ts, t.Valid

theorem reads_query (he : e.Renderable) (hlength : e.tokens.length ≤ source.length) :
    Reads (query source) (Before q e.tokens) (Before q []) fun found => found.strip = e.strip := by
  have hderives : Derives .binding e e.tokens := (derives_tokens he).loosen (Nat.zero_le _)
  refine ((reads_query_of_derives hderives hlength).of_imp ?_).weaken ?_
  · rintro cursor ⟨hrest, hvalid⟩
    rw [Past, hrest]
    exact written_spell hvalid
  · exact fun cursor hcursor => ⟨at_nil_iff.mp hcursor, by simp⟩

/-! ## Numbers that fit -/

theorem any_isOversized_strip (e : Expr) :
    e.strip.nodes.any Expr.isOversized = e.nodes.any Expr.isOversized := by
  induction e with
  | constant value span => cases value <;> rfl
  | name x span => rfl
  | formula f span => rfl
  | unary op inner span ih => simp [Expr.strip, Expr.nodes, Expr.isOversized, ih]
  | binary op left right span ihleft ihright =>
      simp [Expr.strip, Expr.nodes, Expr.isOversized, ihleft, ihright]
  | comprehension style names constraint body span ihconstraint ihbody =>
      simp [Expr.strip, Expr.nodes, Expr.isOversized, ihconstraint, ihbody]
  | letIn x value body span ihvalue ihbody =>
      simp [Expr.strip, Expr.nodes, Expr.isOversized, ihvalue, ihbody]

theorem any_isOversized_of_renderable (he : e.Renderable) :
    e.nodes.any Expr.isOversized = false := by
  induction e with
  | constant value span =>
      cases value with
      | number value =>
          have hfits : Text.fitsSigned 32 value = true := by
            have hvalue : 0 ≤ value ∧ value ≤ 2147483647 := he
            have hword : (Text.wordCount (32 - 1) : Int) = 2147483648 := rfl
            simp only [Text.fitsSigned, hword, Bool.and_eq_true, decide_eq_true_eq]
            omega
          simp [Expr.nodes, Expr.isOversized, hfits]
      | text value => rfl
  | name x span => rfl
  | formula f span => rfl
  | unary op inner span ih => simpa [Expr.nodes, Expr.isOversized] using ih he
  | binary op left right span ihleft ihright =>
      simp [Expr.nodes, Expr.isOversized, ihleft he.1, ihright he.2]
  | comprehension style names constraint body span ihconstraint ihbody =>
      obtain ⟨-, -, hconstraint, hbody⟩ := he
      simp [Expr.nodes, Expr.isOversized, ihconstraint hconstraint, ihbody hbody]
  | letIn x value body span ihvalue ihbody =>
      obtain ⟨-, hvalue, hbody⟩ := he
      simp [Expr.nodes, Expr.isOversized, ihvalue hvalue, ihbody hbody]

/-- Reading inverts rendering: every expression that has a spelling is read back from it, however
its texts are quoted. -/
theorem parse_spell (q : Quoting) (e : Expr) (he : e.Renderable) :
    ∃ found, Expr.parse (String.ofList (spell q e.tokens)) = .ok found ∧ found.strip = e.strip := by
  have hvalid := valid_tokens he
  have hlength : e.tokens.length ≤ (String.ofList (spell q e.tokens)).length := by
    rw [String.length_ofList]
    exact length_le_spell hvalid
  have hstart : Before q e.tokens ⟨(String.ofList (spell q e.tokens)).toList, 0⟩ :=
    ⟨String.toList_ofList, hvalid⟩
  obtain ⟨found, next, hfound, -, hstrip⟩ := reads_query he hlength _ hstart
  have hfits : found.nodes.any Expr.isOversized = false := by
    rw [← any_isOversized_strip, hstrip, any_isOversized_strip, any_isOversized_of_renderable he]
  exact ⟨found, parse_eq_ok_iff.mpr ⟨⟨next, hfound⟩, hfits⟩, hstrip⟩

namespace Sample

/-- A binding with a comprehension for its value, where signs stand that begin alike. -/
def nested : Expr :=
  let name x : Expr := .name x .synthetic
  let pairs : Expr := .comprehension .image ["x", "y"]
    (.binary .product (name "a") (name "b") .synthetic)
    (.binary .apply
      (.binary .join (name "x")
        (.unary .closure (.binary (.set .union) (name "c") (name "d") .synthetic) .synthetic)
        .synthetic)
      (name wildcard) .synthetic)
    .synthetic
  let distinct : Expr := .unary (.quantify .some)
    (.binary (.set .difference) (name "r") (name "s") .synthetic) .synthetic
  let smaller : Expr := .binary (.compare .lt)
    (.binary (.arith .mul) (.constant (.number 2) .synthetic)
      (.unary .reflexiveClosure (name "t") .synthetic) .synthetic)
    (.binary .rangeRestrict (.unary .wildcardApply (name "u") .synthetic)
      (.constant (.text "say \"hi\"") .synthetic) .synthetic)
    .synthetic
  .letIn "r" pairs (.binary .product distinct smaller .synthetic) .synthetic

def nestedSource : String :=
  "let r = ( x , y : a , b -> x . ^ ( c ; d ) [ ( _ ) ] ) " ++
    "| some ( r - s ) , 2 * * t < u [ _ ] :> \"say \\\"hi\\\"\""

theorem spell_nested : String.ofList (spell .double nested.tokens) = nestedSource := by
  decide

end Sample

theorem sample_parse_spell :
    Sample.nested.Renderable ∧
      ∃ found, Expr.parse Sample.nestedSource = .ok found ∧
        found.strip = Sample.nested.strip := by
  have hrenderable : Sample.nested.Renderable := by decide
  have hread := parse_spell .double Sample.nested hrenderable
  rw [Sample.spell_nested] at hread
  exact ⟨hrenderable, hread⟩

end RelQuery
