import RelQuery.Proofs.Grammar.Token

/-!
# Rendering expressions

An expression is rendered as a row of tokens.  Every operator has a band, and every operand stands
in a slot with a band; an operand is put in parentheses exactly when its own band is looser than
that of its slot.  The first token of an expression tells how loose it may be, and the first token
behind an operand whether the expression goes on.
-/

namespace RelQuery

open Grammar (Token Sign Keyword IsName IsFormula)

/-! ## Bands -/

/-- The bands of the grammar, the loosest first. -/
inductive Band where
  | binding
  | union
  | intersection
  | product
  | quantified
  | comparison
  | addition
  | multiplication
  | aggregate
  | chain
  | tight
  | atom
  deriving DecidableEq, Repr

namespace Band

def level : Band → Nat
  | binding => 0
  | union => 1
  | intersection => 2
  | product => 3
  | quantified => 4
  | comparison => 5
  | addition => 6
  | multiplication => 7
  | aggregate => 8
  | chain => 9
  | tight => 10
  | atom => 11

def tighter : Band → Band
  | binding => union
  | union => intersection
  | intersection => product
  | product => quantified
  | quantified => comparison
  | comparison => addition
  | addition => multiplication
  | multiplication => aggregate
  | aggregate => chain
  | chain => tight
  | tight | atom => atom

def looser (a b : Band) : Bool :=
  decide (a.level < b.level)

/-- The bands whose operators associate to the left. -/
def isLeft : Band → Bool
  | union | intersection | product | addition | multiplication | chain => true
  | _ => false

/-- The bands whose operators stand in front of their operand. -/
def isLeading : Band → Bool
  | quantified | aggregate | tight => true
  | _ => false

theorem level_tighter {b : Band} (h : b ≠ atom) : b.tighter.level = b.level + 1 := by
  cases b <;> first | rfl | exact absurd rfl h

theorem level_injective {a b : Band} (h : a.level = b.level) : a = b := by
  cases a <;> cases b <;> first | rfl | cases h

end Band

def UnaryOp.band : UnaryOp → Band
  | .quantify _ => .quantified
  | .count | .aggregate _ | .index | .concat => .aggregate
  | .closure | .reflexiveClosure | .transpose => .tight
  | .wildcardApply => .chain

def BinaryOp.band : BinaryOp → Band
  | .set .union => .union
  | .set .intersection | .set .difference => .intersection
  | .product => .product
  | .compare _ => .comparison
  | .arith .add => .addition
  | .arith .mul => .multiplication
  | .join | .apply | .domainRestrict | .rangeRestrict => .chain

/-- Operators in front of or behind an operand are between the loosest and the tightest band. -/
theorem UnaryOp.band_ne (op : UnaryOp) : op.band ≠ .binding ∧ op.band ≠ .atom := by
  cases op <;> simp [UnaryOp.band]

theorem BinaryOp.band_ne (op : BinaryOp) : op.band ≠ .binding ∧ op.band ≠ .atom := by
  cases op with
  | set operation => cases operation <;> decide
  | arith operation => cases operation <;> decide
  | _ => simp [BinaryOp.band]

/-- The slot of the left operand: comparisons do not associate. -/
def BinaryOp.leftSlot : BinaryOp → Band
  | .compare _ => .addition
  | op => op.band

def Expr.band : Expr → Band
  | .constant .. | .name .. | .formula .. => .atom
  | .unary op _ _ => op.band
  | .binary op _ _ _ => op.band
  | .comprehension .. | .letIn .. => .binding

/-! ## Tokens of expressions -/

def Comparison.sign : Comparison → Sign
  | .eq => .equal
  | .ne => .unequal
  | .lt => .less
  | .gt => .greater
  | .le => .atMost
  | .ge => .atLeast

def BinaryOp.sign : BinaryOp → Sign
  | .join => .dot
  | .compare comparison => comparison.sign
  | .set .union => .semicolon
  | .set .intersection => .ampersand
  | .set .difference => .minus
  | .product => .comma
  | .apply => .openBracket
  | .domainRestrict => .domain
  | .rangeRestrict => .range
  | .arith .add => .plus
  | .arith .mul => .star

/-- The token with which an operator in front of its operand is written. -/
def UnaryOp.token : UnaryOp → Token
  | .quantify .some => .keyword .some
  | .quantify .no => .keyword .not
  | .count => .sign .hash
  | .closure => .sign .caret
  | .reflexiveClosure => .sign .star
  | .transpose => .sign .tilde
  | .aggregate .min => .keyword .min
  | .aggregate .max => .keyword .max
  | .aggregate .sum => .keyword .sum
  | .wildcardApply => .sign .openBracket
  | .index => .keyword .index
  | .concat => .keyword .concat

def Style.sign : Style → Sign
  | .keep => .bar
  | .image => .arrow

/-- Puts tokens in parentheses on a condition. -/
def enclose (condition : Bool) (ts : List Token) : List Token :=
  if condition then .sign .openParen :: ts ++ [.sign .closeParen] else ts

/-- The brackets that drop the first column. -/
def ignoredColumn : List Token :=
  [.sign .openBracket, .name wildcard, .sign .closeBracket]

/-- What follows the left operand, with `ts` the tokens of the right one.  A bare wildcard between
brackets would be read as the brackets that drop the first column. -/
def BinaryOp.continuation (op : BinaryOp) (right : Expr) (ts : List Token) : List Token :=
  match op with
  | .apply => .sign .openBracket :: enclose right.isWildcard ts ++ [.sign .closeBracket]
  | op => .sign op.sign :: enclose (right.band.looser op.band.tighter) ts

def nameTokens : List String → List Token
  | [] => []
  | x :: xs => .name x :: xs.flatMap fun y => [.sign .comma, .name y]

namespace Expr

def tokens : Expr → List Token
  | constant (.number value) _ => [.number value.toNat]
  | constant (.text value) _ => [.text value]
  | name x _ => [.name x]
  | formula f _ => [.formula f]
  | unary op inner _ =>
    match op with
    | .wildcardApply => enclose (inner.band.looser .chain) inner.tokens ++ ignoredColumn
    | op => op.token :: enclose (inner.band.looser op.band) inner.tokens
  | binary op left right _ =>
    enclose (left.band.looser op.leftSlot) left.tokens ++ op.continuation right right.tokens
  | comprehension style names constraint body _ =>
    nameTokens names ++ .sign .colon :: enclose (constraint.band.looser .union) constraint.tokens
      ++ .sign style.sign :: body.tokens
  | letIn x value body _ =>
    .keyword .binding :: .name x :: .sign .equal :: enclose (value.band.looser .union) value.tokens
      ++ .sign .bar :: body.tokens

def slot (b : Band) (e : Expr) : List Token :=
  enclose (e.band.looser b) e.tokens

/-- Expressions that have a spelling: names are names, comprehensions bind something, numbers fit a
word and are not negative, and formulas have no backtick and no blanks at their ends. -/
def Renderable : Expr → Prop
  | constant (.number value) _ => 0 ≤ value ∧ value ≤ 2147483647
  | constant (.text _) _ => True
  | name x _ => IsName x
  | formula f _ => IsFormula f
  | unary _ inner _ => inner.Renderable
  | binary _ left right _ => left.Renderable ∧ right.Renderable
  | comprehension _ names constraint body _ =>
    names ≠ [] ∧ (∀ x ∈ names, IsName x) ∧ constraint.Renderable ∧ body.Renderable
  | letIn x value body _ => IsName x ∧ value.Renderable ∧ body.Renderable

instance decidableRenderable : (e : Expr) → Decidable e.Renderable
  | constant (.number value) _ => inferInstanceAs (Decidable (0 ≤ value ∧ value ≤ 2147483647))
  | constant (.text _) _ => .isTrue trivial
  | name x _ => inferInstanceAs (Decidable (IsName x))
  | formula f _ => inferInstanceAs (Decidable (IsFormula f))
  | unary _ inner _ => decidableRenderable inner
  | binary _ left right _ =>
    have := decidableRenderable left
    have := decidableRenderable right
    inferInstanceAs (Decidable (left.Renderable ∧ right.Renderable))
  | comprehension _ names constraint body _ =>
    have := decidableRenderable constraint
    have := decidableRenderable body
    inferInstanceAs (Decidable (names ≠ [] ∧ (∀ x ∈ names, IsName x) ∧ constraint.Renderable ∧
      body.Renderable))
  | letIn x value body _ =>
    have := decidableRenderable value
    have := decidableRenderable body
    inferInstanceAs (Decidable (IsName x ∧ value.Renderable ∧ body.Renderable))

end Expr

variable {b : Band} {e : Expr}

/-! ## Tokens that can be read -/

theorem valid_enclose {condition : Bool} {ts : List Token} (h : ∀ t ∈ ts, t.Valid) :
    ∀ t ∈ enclose condition ts, t.Valid := by
  unfold enclose
  split
  · simpa [Token.Valid, or_imp, forall_and] using h
  · exact h

theorem valid_ignoredColumn : ∀ t ∈ ignoredColumn, t.Valid := by
  have hname : IsName wildcard := by decide
  simp [ignoredColumn, Token.Valid, hname]

theorem valid_continuation (op : BinaryOp) (right : Expr) {ts : List Token}
    (h : ∀ t ∈ ts, t.Valid) : ∀ t ∈ op.continuation right ts, t.Valid := by
  cases op with
  | apply =>
      have hinner : ∀ t ∈ enclose right.isWildcard ts, t.Valid := valid_enclose h
      simpa [BinaryOp.continuation, Token.Valid, or_imp, forall_and] using hinner
  | _ => exact List.forall_mem_cons.mpr ⟨trivial, valid_enclose h⟩

theorem valid_nameTokens {names : List String} (h : ∀ x ∈ names, IsName x) :
    ∀ t ∈ nameTokens names, t.Valid := by
  cases names with
  | nil => simp [nameTokens]
  | cons x xs =>
      rw [List.forall_mem_cons] at h
      refine List.forall_mem_cons.mpr ⟨h.1, ?_⟩
      intro t ht
      obtain ⟨y, hy, ht⟩ := List.mem_flatMap.mp ht
      rcases List.mem_pair.mp ht with rfl | rfl
      · trivial
      · exact h.2 y hy

theorem UnaryOp.valid_token (op : UnaryOp) : op.token.Valid := by
  cases op with
  | quantify quantifier => cases quantifier <;> trivial
  | aggregate function => cases function <;> trivial
  | _ => trivial

/-- The tokens of an expression that has a spelling can be read. -/
theorem valid_tokens (he : e.Renderable) : ∀ t ∈ e.tokens, t.Valid := by
  induction e with
  | constant value span => cases value <;> simp [Expr.tokens, Token.Valid]
  | name x span => exact List.forall_mem_singleton.mpr he
  | formula f span => exact List.forall_mem_singleton.mpr he
  | unary op inner span ih =>
      have hinner := ih he
      cases op with
      | wildcardApply =>
          exact List.forall_mem_append.mpr ⟨valid_enclose hinner, valid_ignoredColumn⟩
      | _ => exact List.forall_mem_cons.mpr ⟨UnaryOp.valid_token _, valid_enclose hinner⟩
  | binary op left right span ihleft ihright =>
      rw [Expr.tokens]
      exact List.forall_mem_append.mpr
        ⟨valid_enclose (ihleft he.1), valid_continuation op right (ihright he.2)⟩
  | comprehension style names constraint body span ihconstraint ihbody =>
      obtain ⟨-, hnames, hconstraint, hbody⟩ := he
      rw [Expr.tokens]
      refine List.forall_mem_append.mpr ⟨List.forall_mem_append.mpr
        ⟨valid_nameTokens hnames, ?_⟩, ?_⟩
      · exact List.forall_mem_cons.mpr ⟨trivial, valid_enclose (ihconstraint hconstraint)⟩
      · exact List.forall_mem_cons.mpr ⟨trivial, ihbody hbody⟩
  | letIn x value body span ihvalue ihbody =>
      obtain ⟨hname, hvalue, hbody⟩ := he
      rw [Expr.tokens]
      refine List.forall_mem_append.mpr ⟨?_, List.forall_mem_cons.mpr ⟨trivial, ihbody hbody⟩⟩
      refine List.forall_mem_cons.mpr ⟨trivial, List.forall_mem_cons.mpr ⟨hname, ?_⟩⟩
      exact List.forall_mem_cons.mpr ⟨trivial, valid_enclose (ihvalue hvalue)⟩

/-! ## What tokens announce -/

/-- The band of the operators that go on behind an operand with a given token.  A colon goes on
behind the variables of a comprehension. -/
def Grammar.Token.continues? : Token → Option Band
  | .sign .colon => some .binding
  | .sign .semicolon => some .union
  | .sign .ampersand | .sign .minus => some .intersection
  | .sign .comma => some .product
  | .sign .equal | .sign .unequal | .sign .less | .sign .greater | .sign .atMost
  | .sign .atLeast => some .comparison
  | .sign .plus => some .addition
  | .sign .star => some .multiplication
  | .sign .dot | .sign .openBracket | .sign .domain | .sign .range => some .chain
  | _ => none

/-- The band of the expressions that start with a given token. -/
def Grammar.Token.announces? : Token → Option Band
  | .keyword .binding => some .binding
  | .keyword .some | .keyword .not => some .quantified
  | .sign .hash | .keyword .min | .keyword .max | .keyword .sum | .keyword .index
  | .keyword .concat => some .aggregate
  | .sign .caret | .sign .tilde | .sign .star => some .tight
  | _ => none

/-- Behind an expression in a slot of a band comes no operator of this or a tighter band. -/
def Follow (b : Band) (us : List Token) : Prop :=
  ∀ t c, us.head? = some t → t.continues? = some c → c.level < b.level

theorem continues?_sign (op : BinaryOp) : (Token.sign op.sign).continues? = some op.band := by
  cases op with
  | compare comparison => cases comparison <;> rfl
  | set operation => cases operation <;> rfl
  | arith operation => cases operation <;> rfl
  | _ => rfl

theorem announces?_token {op : UnaryOp} (hop : op.band.isLeading = true) :
    op.token.announces? = some op.band := by
  cases op with
  | quantify quantifier => cases quantifier <;> rfl
  | aggregate function => cases function <;> rfl
  | wildcardApply => cases hop
  | _ => rfl

theorem Follow.tighter {us : List Token} (h : Follow b us) (hb : b ≠ .atom) :
    Follow b.tighter us := by
  intro t c ht hc
  have hlt := h t c ht hc
  rw [Band.level_tighter hb]
  omega

/-- A token that continues nothing may follow any expression. -/
theorem follow_of_none {t : Token} {us : List Token} (h : t.continues? = none) :
    Follow b (t :: us) := by
  intro t' c ht hc
  cases ht
  rw [h] at hc
  cases hc

/-! ## Variables of comprehensions -/

/-- Tokens that start like a comprehension: names with commas between them and then a colon. -/
inductive Commits : List Token → Prop where
  | colon {x : String} {ts : List Token} : Commits (.name x :: .sign .colon :: ts)
  | comma {x : String} {ts : List Token} (h : Commits ts) :
      Commits (.name x :: .sign .comma :: ts)

/-- Tokens that go on like a comprehension behind one of its variables. -/
def Resumes (us : List Token) : Prop :=
  ∃ ts, us = .sign .colon :: ts ∨ us = .sign .comma :: ts ∧ Commits ts

theorem commits_name_iff {x : String} {us : List Token} :
    Commits (.name x :: us) ↔ Resumes us := by
  constructor
  · intro h
    cases h with
    | colon => exact ⟨_, .inl rfl⟩
    | comma h => exact ⟨_, .inr ⟨rfl, h⟩⟩
  · rintro ⟨ts, rfl | ⟨rfl, h⟩⟩
    · exact .colon
    · exact .comma h

theorem Commits.head {ts : List Token} (h : Commits ts) : ∃ x us, ts = .name x :: us := by
  cases h with
  | colon => exact ⟨_, _, rfl⟩
  | comma h => exact ⟨_, _, rfl⟩

end RelQuery
