import RelQuery.Expr.Printer
import RelQuery.Proofs.Datalog.ScalarText
import RelQuery.Proofs.Grammar.Names
import RelQuery.Proofs.Text.Quoted

/-!
# Trees are told by their texts

The text of a tree shows its operators first and every operand in its own parentheses.  Where names,
formulas and numbers are those of the grammar, it shows the whole tree: what the text starts with
separates literals from nodes with operands, the first word behind a parenthesis says which node it
is, and every operand is told in turn.  Only `*` stands for two operators, which have one operand and
two.
-/

namespace RelQuery

open Grammar Text
open Datalog (Lead lead lead_name lead_int extendsTerm ends_isNameChar extendsTerm_of_isDigit Closes
  closes_cons)

/-! ## Parsed expressions can be rendered -/

/-- What is derived from tokens of the grammar, and has no number that is too large, can be
rendered. -/
theorem Derives.renderable {b : Band} {e : Expr} {ts : List Token} (h : Derives b e ts)
    (hvalid : ∀ t ∈ ts, t.Valid) (hfits : e.nodes.any Expr.isOversized = false) :
    e.Renderable := by
  induction h with
  | @number n span =>
      have hword : wordCount (32 - 1) = 2147483648 := by decide
      simp only [Expr.nodes, List.any_cons, List.any_nil, Bool.or_false, Expr.isOversized,
        Bool.not_eq_false', fitsSigned, hword, Bool.and_eq_true, decide_eq_true_eq] at hfits
      exact ⟨Int.natCast_nonneg n, by omega⟩
  | text => exact trivial
  | formula => exact hvalid _ List.mem_cons_self
  | name => exact hvalid _ List.mem_cons_self
  | @property x inner span =>
      unfold propertyOf
      split
      · exact (by decide : Grammar.IsName wildcard)
      · exact hvalid (.name x) (by simp)
  | paren _ ih => exact ih (fun t ht => hvalid t (by simp [ht])) hfits
  | tighter _ _ ih => exact ih hvalid hfits
  | leading _ _ _ ih =>
      simp only [Expr.nodes, List.any_cons, Bool.or_eq_false_iff] at hfits
      exact ih (fun t ht => hvalid t (by simp [ht])) hfits.2
  | operand _ _ _ _ ihleft ihright | apply _ _ _ ihleft ihright =>
      simp only [Expr.nodes, List.any_cons, List.any_append, Bool.or_eq_false_iff] at hfits
      exact ⟨ihleft (fun t ht => hvalid t (by simp [ht])) hfits.2.1,
        ihright (fun t ht => hvalid t (by simp [ht])) hfits.2.2⟩
  | ignore _ ih =>
      simp only [Expr.nodes, List.any_cons, Bool.or_eq_false_iff] at hfits
      exact ih (fun t ht => hvalid t (by simp [ht])) hfits.2
  | @comprehension style x xs constraint body span ts us _ _ ihconstraint ihbody =>
      simp only [Expr.nodes, List.any_cons, List.any_append, Bool.or_eq_false_iff] at hfits
      refine ⟨List.cons_ne_nil x xs, fun y hy => ?_,
        ihconstraint (fun t ht => hvalid t (by simp [ht])) hfits.2.1,
        ihbody (fun t ht => hvalid t (by simp [ht])) hfits.2.2⟩
      exact hvalid (.name y) (List.mem_append_left _ (name_mem_nameTokens hy))
  | @letIn x value body span ts us _ _ ihvalue ihbody =>
      simp only [Expr.nodes, List.any_cons, List.any_append, Bool.or_eq_false_iff] at hfits
      exact ⟨hvalid (.name x) (by simp), ihvalue (fun t ht => hvalid t (by simp [ht])) hfits.2.1,
        ihbody (fun t ht => hvalid t (by simp [ht])) hfits.2.2⟩

theorem renderable_of_parse {source : String} {e : Expr} (h : Expr.parse source = .ok e) :
    e.Renderable := by
  obtain ⟨⟨next, hrun⟩, hfits⟩ := parse_eq_ok_iff.mp h
  obtain ⟨⟨ts, hwritten, hderives⟩, -⟩ := run_query hrun
  exact hderives.renderable hwritten.valid hfits

/-! ## Formulas, names and symbols -/

theorem formula_append_inj {f g : String} {r s : List Char} (hf : '\x60' ∉ f.toList)
    (hg : '\x60' ∉ g.toList) (h : f.toList ++ '\x60' :: r = g.toList ++ '\x60' :: s) :
    f = g ∧ r = s := by
  have hbody {f : String} (hf : '\x60' ∉ f.toList) : ∀ c ∈ f.toList, (c != '\x60') = true :=
    fun c hc => bne_iff_ne.mpr fun heq => hf (heq ▸ hc)
  obtain ⟨hlist, hrest⟩ := append_inj_of_ends (hbody hf) (hbody hg) (ends_cons.mpr (by decide))
    (ends_cons.mpr (by decide)) h
  exact ⟨String.toList_inj.mp hlist, (List.cons.inj hrest).2⟩

/-- Names between parentheses, with blanks between them. -/
theorem names_append_inj {xs ys : List String} {r s : List Char}
    (hxs : ∀ x ∈ xs, Grammar.IsName x) (hys : ∀ y ∈ ys, Grammar.IsName y)
    (h : [' '].intercalate (xs.map String.toList) ++ ')' :: r =
      [' '].intercalate (ys.map String.toList) ++ ')' :: s) : xs = ys ∧ r = s := by
  have hstart (x : String) (r : List Char) (hx : Text.IsName x) : ¬ Closes ')' (x.toList ++ r) := by
    intro hr
    have hlead := hr.lead_eq
    rw [lead_name hx] at hlead
    exact absurd hlead (by decide)
  have hblank (r : List Char) : Ends isNameChar ([' '] ++ r) := ends_cons.mpr (by decide)
  have hclose (r : List Char) (hr : Closes ')' r) : Ends isNameChar r := hr.ends (by decide)
  have htold := told_intercalate hblank hclose (fun r hr => by simp [Closes] at hr) hstart
    (fun x hx => (hxs x hx).1) (fun x hx => IsName.told (hxs x hx).1)
  obtain ⟨hnames, hrest⟩ :=
    htold (fun y hy => (hys y hy).1) (closes_cons ')' r) (closes_cons ')' s) h
  exact ⟨hnames, (List.cons.inj hrest).2⟩

/-- The words with which expressions that bind names are rendered. -/
def binderWords : List String :=
  ["for", "from", "let"]

theorem UnaryOp.mem_all (op : UnaryOp) : op ∈ all := by
  cases op with
  | quantify quantifier => cases quantifier <;> decide
  | aggregate function => cases function <;> decide
  | _ => decide

theorem BinaryOp.mem_all (op : BinaryOp) : op ∈ all := by
  cases op with
  | compare comparison => cases comparison <;> decide
  | set operation => cases operation <;> decide
  | arith operation => cases operation <;> decide
  | _ => decide

/-- The symbol of an operator tells it from the others with as many operands. -/
theorem UnaryOp.symbol_told : ∀ op ∈ UnaryOp.all,
    ofSymbol? op.symbol = some op ∧ op.symbol ∉ binderWords ∧ ' ' ∉ op.symbol.toList := by
  decide

theorem BinaryOp.symbol_told : ∀ op ∈ BinaryOp.all,
    ofSymbol? op.symbol = some op ∧ op.symbol ∉ binderWords ∧ ' ' ∉ op.symbol.toList := by
  decide

theorem UnaryOp.symbol_inj {op op' : UnaryOp} (h : op.symbol = op'.symbol) : op = op' := by
  have hop := (symbol_told op op.mem_all).1
  rw [h, (symbol_told op' op'.mem_all).1] at hop
  exact (Option.some.inj hop).symm

theorem BinaryOp.symbol_inj {op op' : BinaryOp} (h : op.symbol = op'.symbol) : op = op' := by
  have hop := (symbol_told op op.mem_all).1
  rw [h, (symbol_told op' op'.mem_all).1] at hop
  exact (Option.some.inj hop).symm

theorem Style.tag_inj {style style' : Style} (h : style.tag = style'.tag) : style = style' := by
  cases style <;> cases style' <;> simp_all [Style.tag]

theorem Style.tag_ne_let (style : Style) : style.tag ≠ "let" := by
  cases style <;> decide

namespace Expr

/-! ## The first word of a node -/

/-- What the text of an expression starts with. -/
def leading : Expr → Lead
  | constant (.number _) _ => .number
  | constant (.text _) _ => .mark '"'
  | name .. => .name
  | formula .. => .mark '\x60'
  | _ => .mark '('

/-- The first word behind the parenthesis of a node with operands. -/
def head : Expr → String
  | constant .. | name .. | formula .. => ""
  | unary op _ _ => op.symbol
  | binary op _ _ _ => op.symbol
  | comprehension style _ _ _ _ => style.tag
  | letIn .. => "let"

/-- What stands behind the first word and a blank. -/
def operands : Expr → List Char
  | constant .. | name .. | formula .. => []
  | unary _ inner _ => inner.render.toList ++ [')']
  | binary _ left right _ => left.render.toList ++ ' ' :: (right.render.toList ++ [')'])
  | comprehension _ names constraint body _ =>
    '(' :: ([' '].intercalate (names.map String.toList) ++ ')' :: ' ' ::
      (constraint.render.toList ++ ' ' :: (body.render.toList ++ [')'])))
  | letIn x value body _ =>
    x.toList ++ ' ' :: (value.render.toList ++ ' ' :: (body.render.toList ++ [')']))

def isBinder : Expr → Bool
  | comprehension .. | letIn .. => true
  | _ => false

variable {e e' : Expr} {r s : List Char}

theorem toList_render (h : e.leading = .mark '(') :
    e.render.toList = '(' :: (e.head.toList ++ ' ' :: e.operands) := by
  cases e with
  | constant value => cases value <;> cases h
  | name | formula => cases h
  | unary | binary | letIn | comprehension => simp [render, head, operands]

theorem lead_render (h : e.Renderable) (r : List Char) :
    lead (e.render.toList ++ r) = some e.leading := by
  cases e with
  | constant value =>
      cases value with
      | number n => exact lead_int n r
      | text value =>
          rw [render, Constant.render, quoteString_append]
          rfl
  | name x => exact lead_name h.1 r
  | formula f =>
      simp only [render, String.toList_append, List.append_assoc]
      rfl
  | unary | binary | letIn | comprehension =>
      rw [toList_render rfl]
      rfl

/-- Texts that agree start in the same way. -/
theorem leading_eq (h : e.Renderable) (h' : e'.Renderable)
    (heq : e.render.toList ++ r = e'.render.toList ++ s) : e.leading = e'.leading := by
  have hlead := congrArg lead heq
  rwa [lead_render h, lead_render h', Option.some.injEq] at hlead

theorem blank_notMem_head (e : Expr) : ' ' ∉ e.head.toList := by
  cases e with
  | unary op => exact (op.symbol_told op.mem_all).2.2
  | binary op => exact (op.symbol_told op.mem_all).2.2
  | comprehension style => cases style <;> simp [head, Style.tag]
  | constant | name | formula | letIn => simp [head]

theorem head_mem_binderWords_iff (e : Expr) : e.head ∈ binderWords ↔ e.isBinder = true := by
  cases e with
  | unary op => simpa [head, isBinder] using (op.symbol_told op.mem_all).2.1
  | binary op => simpa [head, isBinder] using (op.symbol_told op.mem_all).2.1
  | comprehension style => cases style <;> simp [head, Style.tag, binderWords, isBinder]
  | constant | name | formula | letIn => simp [head, binderWords, isBinder]

/-- The texts of nodes with operands agree in their first words and in what stands behind. -/
theorem head_append_inj (h : e.leading = .mark '(') (h' : e'.leading = .mark '(')
    (heq : e.render.toList ++ r = e'.render.toList ++ s) :
    e.head = e'.head ∧ e.isBinder = e'.isBinder ∧ e.operands ++ r = e'.operands ++ s := by
  have hplain (e : Expr) : ∀ c ∈ e.head.toList, (c != ' ') = true :=
    fun c hc => bne_iff_ne.mpr fun hblank => e.blank_notMem_head (hblank ▸ hc)
  simp only [toList_render h, toList_render h', List.cons_append, List.append_assoc,
    List.cons.injEq, true_and] at heq
  obtain ⟨hhead, hrest⟩ := append_inj_of_ends (hplain e) (hplain e') (ends_cons.mpr (by decide))
    (ends_cons.mpr (by decide)) heq
  have hhead := String.toList_inj.mp hhead
  refine ⟨hhead, ?_, (List.cons.inj hrest).2⟩
  rw [Bool.eq_iff_iff, ← head_mem_binderWords_iff, ← head_mem_binderWords_iff, hhead]

/-! ## Trees -/

/-- Where nothing follows that could belong to a name or a number, an expression of the same text is
the same tree. -/
def Shown (e : Expr) : Prop :=
  ∀ ⦃e' : Expr⦄ ⦃r s : List Char⦄, e'.Renderable → Ends extendsTerm r → Ends extendsTerm s →
    e.render.toList ++ r = e'.render.toList ++ s → e.strip = e'.strip ∧ r = s

theorem ends_blank (r : List Char) : Ends extendsTerm (' ' :: r) :=
  ends_cons.mpr (by decide)

theorem ends_close (r : List Char) : Ends extendsTerm (')' :: r) :=
  ends_cons.mpr (by decide)

/-- Two operands with a blank between them and a parenthesis behind. -/
theorem Shown.pair {left right left' right' : Expr} (hleft : left.Shown) (hright : right.Shown)
    (hleft' : left'.Renderable) (hright' : right'.Renderable)
    (heq : left.render.toList ++ ' ' :: (right.render.toList ++ ')' :: r) =
      left'.render.toList ++ ' ' :: (right'.render.toList ++ ')' :: s)) :
    left.strip = left'.strip ∧ right.strip = right'.strip ∧ r = s := by
  obtain ⟨hfirst, hrest⟩ := hleft hleft' (ends_blank _) (ends_blank _) heq
  obtain ⟨hsecond, hrest⟩ :=
    hright hright' (ends_close _) (ends_close _) (List.cons.inj hrest).2
  exact ⟨hfirst, hsecond, (List.cons.inj hrest).2⟩

/-- Literals and names are told by the way in which they start. -/
theorem Renderable.shown_of_leading (h : e.Renderable) (hleading : e.leading ≠ .mark '(') :
    e.Shown := by
  intro e' r s h' hr hs heq
  have hsame := leading_eq h h' heq
  cases e with
  | constant value =>
      cases e' with
      | constant value' =>
          cases value <;> cases value' <;> try cases hsame
          · obtain ⟨rfl, hrest⟩ := told_int extendsTerm_of_isDigit _ trivial hr hs heq
            exact ⟨rfl, hrest⟩
          · obtain ⟨rfl, hrest⟩ := told_quoteString _ trivial trivial trivial heq
            exact ⟨rfl, hrest⟩
      | _ => cases value <;> cases hsame
  | name x =>
      cases e' with
      | name y =>
          obtain ⟨rfl, hrest⟩ :=
            IsName.told h.1 h'.1 (ends_isNameChar hr) (ends_isNameChar hs) heq
          exact ⟨rfl, hrest⟩
      | constant value => cases value <;> cases hsame
      | _ => cases hsame
  | formula f =>
      cases e' with
      | formula g =>
          simp only [render, String.toList_append, List.append_assoc] at heq
          obtain ⟨rfl, hrest⟩ := formula_append_inj h.1 h'.1 (List.append_cancel_left heq)
          exact ⟨rfl, hrest⟩
      | constant value => cases value <;> cases hsame
      | _ => cases hsame
  | unary | binary | comprehension | letIn => exact absurd rfl hleading

/-- A node with operands is told among those with its first word. -/
theorem shown_of_operands (h : e.Renderable) (hleading : e.leading = .mark '(')
    (hoperands : ∀ (e' : Expr) (r s : List Char), e'.Renderable → e'.leading = .mark '(' →
      e.head = e'.head → e.isBinder = e'.isBinder → e.operands ++ r = e'.operands ++ s →
      e.strip = e'.strip ∧ r = s) : e.Shown := by
  intro e' r s h' _ _ heq
  have hleading' := (leading_eq h h' heq).symm.trans hleading
  obtain ⟨hhead, hbinder, hrest⟩ := head_append_inj hleading hleading' heq
  exact hoperands e' r s h' hleading' hhead hbinder hrest

/-- Expressions of the grammar are told by their texts. -/
theorem Renderable.shown (h : e.Renderable) : e.Shown := by
  induction e with
  | constant value span =>
      exact h.shown_of_leading (by cases value <;> simp [leading])
  | name x span => exact h.shown_of_leading (by simp [leading])
  | formula f span => exact h.shown_of_leading (by simp [leading])
  | unary op inner span ih =>
      refine shown_of_operands h rfl fun e' r s h' hleading hhead hbinder hrest => ?_
      cases e' with
      | unary op' inner' =>
          obtain rfl := UnaryOp.symbol_inj hhead
          simp only [operands, List.append_assoc, List.cons_append, List.nil_append] at hrest
          have h' : inner'.Renderable := h'
          obtain ⟨hinner, hclose⟩ := ih h h' (ends_close _) (ends_close _) hrest
          exact ⟨by simp [strip, hinner], (List.cons.inj hclose).2⟩
      | binary op' left' right' =>
          -- both may have the symbol `*`: behind the first operand one ends and the other goes on
          simp only [operands, List.append_assoc, List.cons_append, List.nil_append] at hrest
          obtain ⟨-, hmark⟩ := ih h h'.1 (ends_close _) (ends_blank _) hrest
          cases hmark
      | comprehension | letIn => cases hbinder
      | constant value => cases value <;> cases hleading
      | name | formula => cases hleading
  | binary op left right span ihleft ihright =>
      refine shown_of_operands h rfl fun e' r s h' hleading hhead hbinder hrest => ?_
      cases e' with
      | unary op' inner' =>
          simp only [operands, List.append_assoc, List.cons_append, List.nil_append] at hrest
          have h' : inner'.Renderable := h'
          obtain ⟨-, hmark⟩ := ihleft h.1 h' (ends_blank _) (ends_close _) hrest
          cases hmark
      | binary op' left' right' =>
          obtain rfl := BinaryOp.symbol_inj hhead
          simp only [operands, List.append_assoc, List.cons_append, List.nil_append] at hrest
          obtain ⟨hleft, hright, hrest⟩ := (ihleft h.1).pair (ihright h.2) h'.1 h'.2 hrest
          exact ⟨by simp [strip, hleft, hright], hrest⟩
      | comprehension | letIn => cases hbinder
      | constant value => cases value <;> cases hleading
      | name | formula => cases hleading
  | comprehension style names constraint body span ihconstraint ihbody =>
      refine shown_of_operands h rfl fun e' r s h' hleading hhead hbinder hrest => ?_
      cases e' with
      | comprehension style' names' constraint' body' =>
          simp only [operands, List.append_assoc, List.cons_append, List.nil_append,
            List.cons.injEq, true_and] at hrest
          obtain ⟨hnames, hblank⟩ := names_append_inj h.2.1 h'.2.1 hrest
          obtain ⟨hconstraint, hbody, hrest⟩ := (ihconstraint h.2.2.1).pair (ihbody h.2.2.2)
            h'.2.2.1 h'.2.2.2 (List.cons.inj hblank).2
          exact ⟨by simp [strip, Style.tag_inj hhead, hnames, hconstraint, hbody], hrest⟩
      | letIn => exact absurd hhead style.tag_ne_let
      | unary | binary => cases hbinder
      | constant value => cases value <;> cases hleading
      | name | formula => cases hleading
  | letIn x value body span ihvalue ihbody =>
      refine shown_of_operands h rfl fun e' r s h' hleading hhead hbinder hrest => ?_
      cases e' with
      | letIn x' value' body' =>
          simp only [operands, List.append_assoc, List.cons_append, List.nil_append] at hrest
          obtain ⟨hname, hblank⟩ := IsName.told h.1.1 h'.1.1 (ends_cons.mpr (by decide))
            (ends_cons.mpr (by decide)) hrest
          obtain ⟨hvalue, hbody, hrest⟩ := (ihvalue h.2.1).pair (ihbody h.2.2) h'.2.1 h'.2.2
            (List.cons.inj hblank).2
          exact ⟨by simp [strip, hname, hvalue, hbody], hrest⟩
      | comprehension style' => exact absurd hhead.symm style'.tag_ne_let
      | unary | binary => cases hbinder
      | constant value => cases value <;> cases hleading
      | name | formula => cases hleading

end Expr

/-- Two parsed expressions with the same text are the same tree up to spans. -/
theorem strip_eq_of_render_eq {source source' : String} {e e' : Expr}
    (h : Expr.parse source = .ok e) (h' : Expr.parse source' = .ok e')
    (heq : e.render = e'.render) : e.strip = e'.strip := by
  have hchars : e.render.toList ++ [] = e'.render.toList ++ [] := by rw [heq]
  exact ((renderable_of_parse h).shown (renderable_of_parse h') ends_nil ends_nil hchars).1

namespace Sample

/-- A query with both operators of the symbol `*`, a formula and a text. -/
def starredSource : String :=
  "x : *r | x * 2 = `x` , 'a'"

/-- The same tree, laid out in another way. -/
def starredTwin : String :=
  "x:(*r)|\n((x*2)=` x `,\"a\")"

end Sample

theorem sample_strip_eq : ∃ e e', Expr.parse Sample.starredSource = .ok e ∧
    Expr.parse Sample.starredTwin = .ok e' ∧
      e.render = "(for (x) (* r) (, (= (* x 2) `x`) \"a\"))" ∧ e.render = e'.render ∧
      e.strip = e'.strip := by
  have htexts : (Expr.parse Sample.starredSource).toOption.map Expr.render =
        some "(for (x) (* r) (, (= (* x 2) `x`) \"a\"))" ∧
      (Expr.parse Sample.starredTwin).toOption.map Expr.render =
        some "(for (x) (* r) (, (= (* x 2) `x`) \"a\"))" := by decide +kernel
  cases h : Expr.parse Sample.starredSource with
  | error err => simp [h, Except.toOption] at htexts
  | ok e =>
      cases h' : Expr.parse Sample.starredTwin with
      | error err => simp [h', Except.toOption] at htexts
      | ok e' =>
          rw [h, h'] at htexts
          have htext := Option.some.inj htexts.1
          have heq : e.render = e'.render := htext.trans (Option.some.inj htexts.2).symm
          exact ⟨e, e', rfl, rfl, htext, heq, strip_eq_of_render_eq h h' heq⟩

end RelQuery
