import RelQuery.Proofs.Grammar.Derivation
import RelQuery.Proofs.Grammar.Reading
import RelQuery.Proofs.Grammar.Yielding

/-!
# Runs of the grammar

What is known of an expression, of the band that it was read in and of the characters that it was
read from, follows from what is known of its parts.  `Rules` has one condition for each rule of the
grammar, and says how the characters that the rule passes over lie around those of its parts.  What
satisfies the conditions holds of every expression that is read.
-/

namespace RelQuery.Grammar

open RelQuery.Grammar.Parser
open Text (byteLength)

/-! ## Parts of a rule -/

section Parts

variable {α β : Type} {R : (before taken after : List Char) → α → Prop}

/-- What was read behind some tokens. -/
def Behind (head : List Token) (R : (before taken after : List Char) → α → Prop)
    (before taken after : List Char) (value : α) : Prop :=
  ∃ u v, taken = u ++ v ∧ Written head u (v ++ after) ∧ R (before ++ u) v after value

/-- What was read between two signs. -/
def Between (opening closing : Sign) (R : (before taken after : List Char) → α → Prop)
    (before taken after : List Char) (value : α) : Prop :=
  ∃ u v w, taken = u ++ (v ++ w) ∧ Written [.sign opening] u (v ++ (w ++ after)) ∧
    R (before ++ u) v (w ++ after) value ∧ Written [.sign closing] w after

/-- What was read behind some tokens, with other tokens and what was read behind those. -/
def Paired (head mid : List Token) (R : (before taken after : List Char) → α → Prop)
    (R' : (before taken after : List Char) → β → Prop) (before taken after : List Char) (left : α)
    (right : β) : Prop :=
  ∃ h u m v, taken = h ++ (u ++ (m ++ v)) ∧ Written head h (u ++ (m ++ (v ++ after))) ∧
    R (before ++ h) u (m ++ (v ++ after)) left ∧ Written mid m (v ++ after) ∧
    R' (before ++ (h ++ (u ++ m))) v after right

theorem yields_behind {p : Parser β} {q : β → Parser α} {P : β → Prop} {token : β → Token}
    {R : β → (before taken after : List Char) → α → Prop}
    (hp : Yields p fun _ taken after x => P x ∧ (token x).Spelled taken after)
    (hq : ∀ x, Yields (q x) (R x)) :
    Yields (p >>= fun x => layout >>= fun _ => q x) fun before taken after value =>
      ∃ x, P x ∧ Behind [token x] (R x) before taken after value := by
  intro before rest value next hrun
  obtain ⟨x, u, rest, rfl, ⟨hx, hspelled⟩, hrun⟩ := hp.run_bind hrun
  obtain ⟨_, w, rest, rfl, hw, hrun⟩ := yields_layout.run_bind hrun
  obtain ⟨v, after, rfl, rfl, hvalue⟩ := hq x _ _ _ _ hrun
  exact ⟨u ++ w ++ v, after, by simp, by simp, x, hx, u ++ w, v, rfl, hspelled.written.skip hw,
    by simpa using hvalue⟩

theorem yields_between {text text' : String} {s s' : Sign} {p : Parser α}
    (htext : text.toList = s.chars) (hs : s ∉ ambiguousSigns) (htext' : text'.toList = s'.chars)
    (hs' : s' ∉ ambiguousSigns) (hp : Yields p R) :
    Yields (do symbol text; layout; let inner ← p; layout; symbol text'; return inner)
      (Between s s' R) := by
  intro before rest value next hrun
  obtain ⟨_, opening, rest, rfl, hopen, hrun⟩ := (yields_sign htext hs).run_bind hrun
  obtain ⟨_, w, rest, rfl, hw, hrun⟩ := yields_layout.run_bind hrun
  obtain ⟨inner, u, rest, rfl, hinner, hrun⟩ := hp.run_bind hrun
  obtain ⟨_, w', rest, rfl, hw', hrun⟩ := yields_layout.run_bind hrun
  obtain ⟨_, closing, after, rfl, hclose, hrun⟩ := (yields_sign htext' hs').run_bind hrun
  cases hrun
  refine ⟨opening ++ w ++ (u ++ (w' ++ closing)), after, by simp, by simp, opening ++ w, u,
    w' ++ closing, rfl, ?_, by simpa using hinner, hw'.append hclose.written⟩
  simpa using hopen.written.skip hw

end Parts

def Named (source : String) (before taken after : List Char) (e : Expr) : Prop :=
  ∃ x, e = .name x ⟨source, byteLength before, byteLength (before ++ taken)⟩ ∧
    (Token.name x).Spelled taken after

/-! ## Lexemes -/

section Lexemes

variable {source : String} {b : Band}

theorem yields_lexeme {expectation : Expectation}
    {scan : List Char → Option (List Char × List Char)} {T : List Char → List Char → Prop}
    (h : ∀ {rest taken after}, scan rest = some (taken, after) → rest = taken ++ after ∧ T taken after) :
    Yields (lexeme expectation scan) fun _ taken after value => value = taken ∧ T taken after :=
  (yields_scanning fun _ _ _ => h).rule expectation

theorem yields_digits : Yields (lexeme .number scanNumber) fun _ taken after digits =>
    (Token.number (Text.digitsValue digits)).Spelled taken after := by
  refine (yields_lexeme spelled_of_scanNumber).imp ?_
  rintro before taken after digits ⟨rfl, hspelled⟩
  exact hspelled

theorem yields_quoted : Yields (lexeme .string scanString) fun _ taken after quoted =>
    (Token.text (String.ofList (unescape (enclosed quoted)))).Spelled taken after := by
  refine (yields_lexeme spelled_of_scanString).imp ?_
  rintro before taken after quoted ⟨rfl, hspelled⟩
  exact hspelled

theorem yields_backticked : Yields (lexeme .formula scanFormula) fun _ taken after quoted =>
    (Token.formula (String.ofList (Text.trimBlanks (enclosed quoted)))).Spelled taken after := by
  refine (yields_lexeme spelled_of_scanFormula).imp ?_
  rintro before taken after quoted ⟨rfl, hspelled⟩
  exact hspelled

theorem yields_named : Yields (variableName source) (Named source) :=
  (yields_here fun start => yields_ident.stop fun x stop => Expr.name x ⟨source, start, stop⟩).imp
    fun _ _ _ _ h => h

/-- In front of a name the angle bracket is not read as part of a longer sign. -/
theorem spelled_less {x : String} {w u v : List Char} (hw : Written [] w (u ++ v))
    (hspelled : (Token.name x).Spelled u v) : (Token.sign .less).Spelled ['<'] (w ++ (u ++ v)) := by
  refine ⟨.inl rfl, fun c hc hmem => ?_⟩
  have hlong : c = '=' ∨ c = ':' := by simpa [longSigns] using hmem
  cases hw with
  | layout hw _ =>
      cases hw with
      | nil =>
          obtain ⟨d, ds, rfl, hleads⟩ := hspelled.leads
          cases hc
          have hstart : Text.isNameStart c = true := hleads
          rcases hlong with rfl | rfl <;> simp [Text.isNameStart] at hstart
      | blank hlayout _ =>
          cases hc
          rcases hlong with rfl | rfl <;> cases hlayout
      | opening _ =>
          cases hc
          rcases hlong with heq | heq <;> cases heq

theorem yields_angled :
    Yields (do symbol "<"; layout; let named ← variableName source; layout; symbol ">"; return named)
      (Between .less .greater (Named source)) := by
  intro before rest value next hrun
  obtain ⟨_, less, rest, rfl, hless, hrun⟩ := (yields_symbol "<").run_bind hrun
  obtain ⟨_, w, rest, rfl, hw, hrun⟩ := yields_layout.run_bind hrun
  obtain ⟨named, u, rest, rfl, hnamed, hrun⟩ := yields_named.run_bind hrun
  obtain ⟨_, w', rest, rfl, hw', hrun⟩ := yields_layout.run_bind hrun
  obtain ⟨_, greater, after, rfl, hgreater, hrun⟩ := (yields_symbol ">").run_bind hrun
  cases hrun
  have hopening : Written [.sign .less] (less ++ w) (u ++ (w' ++ (greater ++ after))) := by
    obtain ⟨x, -, hspelled⟩ := hnamed
    rw [hless]
    exact (spelled_less hw hspelled).written.skip hw
  have hclosing : Written [.sign .greater] (w' ++ greater) after := by
    have hsign : (Token.sign .greater).Spelled greater after := by
      rw [hgreater]
      exact spelled_sign (s := .greater) (by simp [Sign.chars, longSigns])
    exact hw'.append hsign.written
  exact ⟨less ++ w ++ (u ++ (w' ++ greater)), after, by simp, by simp, less ++ w, u, w' ++ greater,
    rfl, by simpa using hopening, by simpa using hnamed, hclosing⟩

theorem yields_signOp {text : String} (s : Sign) (op : UnaryOp) (htext : text.toList = s.chars)
    (hs : s ∉ ambiguousSigns) (hop : op.token = .sign s) (hb : op.band = b) :
    Yields (symbol text >>= fun _ => pure op)
      fun _ taken after op => op.band = b ∧ op.token.Spelled taken after := by
  refine ((yields_sign htext hs).map fun _ => op).imp ?_
  rintro before taken after _ ⟨-, rfl, hspelled⟩
  rw [hop]
  exact ⟨hb, hspelled⟩

theorem yields_keywordOp {word : Keyword} (op : UnaryOp) (hop : op.token = .keyword word)
    (hb : op.band = b) :
    Yields (keyword word >>= fun _ => pure op)
      fun _ taken after op => op.band = b ∧ op.token.Spelled taken after := by
  refine ((yields_keyword word).map fun _ => op).imp ?_
  rintro before taken after _ ⟨-, rfl, hspelled⟩
  rw [hop]
  exact ⟨hb, hspelled⟩

theorem yields_tightOperator : Yields tightOperator
    fun _ taken after op => op.band = .tight ∧ op.token.Spelled taken after :=
  ((yields_signOp .caret .closure rfl (by decide) rfl rfl).orElse
    ((yields_signOp .tilde .transpose rfl (by decide) rfl rfl).orElse
      (yields_signOp .star .reflexiveClosure rfl (by decide) rfl rfl))).rule _

theorem yields_quantifier : Yields quantifier
    fun _ taken after op => op.band = .quantified ∧ op.token.Spelled taken after :=
  ((yields_keywordOp (.quantify .some) rfl rfl).orElse
    (yields_keywordOp (.quantify .no) rfl rfl)).rule _

theorem yields_aggregateOperator : Yields aggregateOperator
    fun _ taken after op => op.band = .aggregate ∧ op.token.Spelled taken after := by
  have hsum : Yields (symbol "Σ" >>= fun _ => pure (UnaryOp.aggregate .sum))
      fun _ taken after op => op.band = .aggregate ∧ op.token.Spelled taken after := by
    refine ((yields_symbol "Σ").map fun _ => UnaryOp.aggregate .sum).imp ?_
    rintro before taken after _ ⟨-, rfl, rfl⟩
    exact ⟨rfl, .inr ⟨rfl, rfl⟩⟩
  refine Yields.rule ?_ .aggregate
  refine (yields_signOp .hash .count rfl (by decide) rfl rfl).orElse (hsum.orElse ?_)
  exact (yields_keywordOp (.aggregate .min) rfl rfl).orElse
    ((yields_keywordOp (.aggregate .max) rfl rfl).orElse
      ((yields_keywordOp (.aggregate .sum) rfl rfl).orElse
        ((yields_keywordOp .index rfl rfl).orElse (yields_keywordOp .concat rfl rfl))))

theorem yields_operator {text : String} (s : Sign) (op : BinaryOp) (htext : text.toList = s.chars)
    (hs : s ∉ ambiguousSigns) (hop : op.sign = s) (hb : op.band = b) (happly : op ≠ .apply) :
    Yields (symbol text >>= fun _ => pure op) fun _ taken after op =>
      (op.band = b ∧ op ≠ .apply) ∧ (Token.sign op.sign).Spelled taken after := by
  refine ((yields_sign htext hs).map fun _ => op).imp ?_
  rintro before taken after _ ⟨-, rfl, hspelled⟩
  rw [hop]
  exact ⟨⟨hb, happly⟩, hspelled⟩

theorem yields_setOperator : Yields setOperator fun _ taken after op =>
    (op.band = .intersection ∧ op ≠ .apply) ∧ (Token.sign op.sign).Spelled taken after := by
  refine Yields.rule (Yields.orElse ?_ ?_) .setOperator
  · exact yields_operator .ampersand (.set .intersection) rfl (by decide) rfl rfl (by decide)
  · have hminus : Yields (lexeme .setOperator (scanNotBefore '-' '>')) fun _ taken after value =>
        value = taken ∧ (Token.sign .minus).Spelled taken after :=
      yields_lexeme (spelled_of_scanNotBefore rfl (by simp [longSigns]))
    refine (hminus.map fun _ => BinaryOp.set .difference).imp ?_
    rintro before taken after _ ⟨-, rfl, -, hspelled⟩
    exact ⟨⟨rfl, by decide⟩, hspelled⟩

theorem yields_comparisonOperator : Yields comparisonOperator fun _ taken after op =>
    (op.band = .comparison ∧ op.leftSlot = .addition ∧ op ≠ .apply) ∧
      (Token.sign op.sign).Spelled taken after := by
  refine ((yields_lexeme spelled_of_scanComparison).map fun text =>
    BinaryOp.compare (comparisonOf text)).imp ?_
  rintro before taken after _ ⟨_, rfl, rfl, hspelled⟩
  exact ⟨⟨rfl, rfl, by simp⟩, hspelled⟩

theorem yields_ignoredColumn : Yields (do symbol "["; layout; symbol "_"; layout; symbol "]")
    fun _ taken after _ => Written ignoredColumn taken after := by
  intro before rest value next hread
  obtain ⟨_, opening, rest, rfl, hopen, hread⟩ :=
    (yields_sign (s := .openBracket) rfl (by decide)).run_bind hread
  obtain ⟨_, w, rest, rfl, hw, hread⟩ := yields_layout.run_bind hread
  obtain ⟨_, u, rest, rfl, hu, hread⟩ := (yields_symbol "_").run_bind hread
  obtain ⟨_, w', rest, rfl, hw', hread⟩ := yields_layout.run_bind hread
  obtain ⟨closing, after, rfl, rfl, hclose⟩ :=
    yields_sign (s := .closeBracket) rfl (by decide) _ _ _ _ hread
  have hname : (Token.name wildcard).Spelled u (w' ++ (closing ++ after)) := by
    refine ⟨by decide, hu, fun c hc => ?_⟩
    obtain ⟨d, ds, rfl, hleads⟩ := hclose.leads
    by_cases hne : w' = []
    · subst hne
      cases hc
      obtain rfl : ']' = c := by simpa [Token.Leads, Sign.chars] using hleads
      decide
    · exact isNameChar_of_layout (hw'.layout_false (by simp)) hne hc
  have hwritten :=
    hopen.written.skip hw |>.append hname.written |>.skip hw' |>.append hclose.written
  exact ⟨opening ++ w ++ u ++ w' ++ closing, after, by simp, by simp, hwritten⟩

/-- Where a bare wildcard stands between the brackets, they are read as those that drop a column. -/
theorem reads_wildcardLink_facing {w w' cs : List Char} (hw : Layout false false w)
    (hw' : Layout false false w') :
    Reads wildcardLink (Facing ('[' :: (w ++ ('_' :: (w' ++ (']' :: cs)))))) (Facing cs)
      fun _ => True := by
  have hopen (rest : List Char) :
      Reads (symbol "[") (Facing ('[' :: rest)) (Facing rest) fun _ => True :=
    reads_symbol_facing _
  have hname (rest : List Char) :
      Reads (symbol "_") (Facing ('_' :: rest)) (Facing rest) fun _ => True :=
    reads_symbol_facing _
  have hclose : Reads (symbol "]") (Facing (']' :: cs)) (Facing cs) fun _ => True :=
    reads_symbol_facing _
  have hread := (hopen _).bind fun _ _ =>
    (reads_layout_facing hw (by simp [Solid, isLayout])).bind fun _ _ =>
    (hname _).bind fun _ _ =>
    (reads_layout_facing hw' (by simp [Solid, isLayout])).bind fun _ _ => hclose
  exact (hread.rule .bracket).bind fun _ _ => reads_here.bind fun _ _ => reads_pure trivial

/-- Where the brackets that drop a column are not read, they do not stand. -/
theorem not_written_ignoredColumn {taken after rest : List Char} {offset : Nat}
    (hrest : '[' :: rest = taken ++ after)
    (hwildcard : (wildcardLink ⟨'[' :: rest, offset⟩).value = none) :
    ¬ Written ignoredColumn taken after := by
  intro hwritten
  have hsolid : Solid taken := by
    intro c hc
    obtain ⟨cs, rfl⟩ := List.head?_eq_some_iff.mp hc
    obtain rfl : '[' = c := (List.cons.inj hrest).1
    decide
  obtain ⟨cs, u, rfl, hopen, hwritten⟩ := hwritten.exists_spelled hsolid
  cases hwritten (by simp) with
  | @token _ _ w _ _ _ hw hname hwritten =>
      cases hwritten with
      | @token _ _ w' cs' u' _ hw' hclose _ =>
          obtain rfl : cs = ['['] := hopen.eq_chars (by decide)
          obtain rfl : cs' = [']'] := hclose.eq_chars (by decide)
          obtain ⟨-, rfl, -⟩ := hname
          have hfacing : Facing ('[' :: (w ++ '_' :: (w' ++ ']' :: (u' ++ after))))
              ⟨'[' :: rest, offset⟩ := by
            rw [Facing, hrest]
            simp [wildcard]
          obtain ⟨_, _, hread, -⟩ := reads_wildcardLink_facing hw hw' _ hfacing
          rw [hread] at hwildcard
          cases hwildcard

theorem yields_boundNames : Yields boundNames fun _ taken after names =>
    ∃ x xs, names = x :: xs ∧ Written (nameTokens (x :: xs)) taken after := by
  intro before rest names next hrun
  obtain ⟨x, u, rest, rfl, hx, hrun⟩ := yields_ident.run_bind (run_rule hrun)
  obtain ⟨xs, next', hitems, hrun⟩ := run_bind hrun
  have hcarries : Carries before (fun u after ts => Written ts u after)
      (fun ts y => ts ++ [.sign .comma, .name y]) (items (do
        symbol ","
        layout
        ident)) := by
    refine carries_items (fun u w after ts h hw => ?_) ?_
    · exact h.skip hw
    · intro u rest ts y next hts hrun
      obtain ⟨_, comma, rest, rfl, hcomma, hrun⟩ :=
        (yields_sign (s := .comma) rfl (by decide)).run_bind hrun
      obtain ⟨_, w, rest, rfl, hw, hrun⟩ := yields_layout.run_bind hrun
      obtain ⟨v, after, rfl, rfl, hy⟩ := yields_ident _ _ _ _ hrun
      have hwritten := hts.append hcomma.written |>.skip hw |>.append hy.written
      exact ⟨comma ++ (w ++ v), after, by simp, by simp, by simpa using hwritten⟩
  obtain ⟨v, after, rfl, rfl, hwritten⟩ := hcarries u rest _ xs next' hx.written hitems
  cases hrun
  rw [List.foldl_append_eq_append, ← List.flatMap_def] at hwritten
  exact ⟨u ++ v, after, by simp, rfl, x, xs, rfl, hwritten⟩

theorem yields_colon :
    Yields (lexeme .colon (scanNotBefore ':' '>')) fun _ taken after value =>
      value = taken ∧ (Token.sign .colon).Spelled taken after :=
  yields_lexeme (spelled_of_scanNotBefore rfl (by simp [longSigns]))

theorem yields_endOfInput : Yields endOfInput fun _ taken after _ => taken = [] ∧ after = [] := by
  intro before rest value next hrun
  by_cases hrest : rest = []
  · subst hrest
    cases hrun
    exact ⟨[], [], rfl, by simp, rfl, rfl⟩
  · have hrun := run_rule hrun
    simp [hrest, fail] at hrun

end Lexemes

/-! ## Rules -/

/-- What each rule of the grammar makes of its parts, where `S b before taken after e` is about an
expression that was read in a slot of the band `b`.  A chain starts with its first operand and ends
where its last link does; a node of another operator between operands ends with the last one. -/
structure Rules (source : String)
    (S : Band → (before taken after : List Char) → Expr → Prop) : Prop where
  leaf : ∀ {before taken after t e}, t.Spelled taken after → Derives .atom e [t] →
    e.span = ⟨source, byteLength before, byteLength (before ++ taken)⟩ → S .atom before taken after e
  property : ∀ {before taken after named}, Between .less .greater (Named source) before taken after named →
    S .atom before taken after
      (propertyOf named ⟨source, byteLength before, byteLength (before ++ taken)⟩)
  paren : ∀ {before taken after e}, Between .openParen .closeParen (S .binding) before taken after e →
    S .atom before taken after e
  tighter : ∀ {b before taken after e}, b ≠ .atom → S b.tighter before taken after e →
    S b before taken after e
  layout : ∀ {b before u w after e}, S b before u (w ++ after) e → Written [] w after →
    S b before (u ++ w) after e
  leading : ∀ {b op before taken after inner}, op.band = b → b.isLeading = true →
    Behind [op.token] (S b) before taken after inner →
    S b before taken after
      (.unary op inner ⟨source, byteLength before, byteLength (before ++ taken)⟩)
  operand : ∀ {b op before u v after left right}, op.band = b → op ≠ .apply →
    S op.leftSlot before u (v ++ after) left →
    Behind [.sign op.sign] (S b.tighter) (before ++ u) v after right →
    S b before (u ++ v) after (combine source left (op, right))
  link : ∀ {op before u v after left right}, op.band = .chain → op ≠ .apply →
    S .chain before u (v ++ after) left →
    Behind [.sign op.sign] (S .tight) (before ++ u) v after right →
    S .chain before (u ++ v) after
      (.binary op left right ⟨source, left.span.start, byteLength (before ++ (u ++ v))⟩)
  ignore : ∀ {before u v after left}, S .chain before u (v ++ after) left →
    Written ignoredColumn v after →
    S .chain before (u ++ v) after
      (.unary .wildcardApply left ⟨source, left.span.start, byteLength (before ++ (u ++ v))⟩)
  apply : ∀ {before u v after left right}, S .chain before u (v ++ after) left →
    Between .openBracket .closeBracket (S .binding) (before ++ u) v after right →
    ¬ Written ignoredColumn v after →
    S .chain before (u ++ v) after
      (.binary .apply left right ⟨source, left.span.start, byteLength (before ++ (u ++ v))⟩)
  comprehension : ∀ {before taken after style x xs constraint body},
    Paired (nameTokens (x :: xs) ++ [.sign .colon]) [.sign style.sign] (S .union) (S .binding)
      before taken after constraint body →
    S .binding before taken after (.comprehension style (x :: xs) constraint body
      ⟨source, byteLength before, byteLength (before ++ taken)⟩)
  letIn : ∀ {before taken after x value body},
    Paired [.keyword .binding, .name x, .sign .equal] [.sign .bar] (S .union) (S .binding)
      before taken after value body →
    S .binding before taken after
      (.letIn x value body ⟨source, byteLength before, byteLength (before ++ taken)⟩)

section Rules

variable {source : String} {S : Band → (before taken after : List Char) → Expr → Prop}
variable (hS : Rules source S) {expr : Parser Expr} (hexpr : Yields expr (S .binding))

include hS

/-! ### Atoms -/

theorem yields_leaf {α : Type} {p : Parser α} {make : α → Span → Expr} (token : α → Token)
    (hp : Yields p fun _ taken after value => (token value).Spelled taken after)
    (hspan : ∀ value span, (make value span).span = span)
    (hderives : ∀ value span, Derives .atom (make value span) [token value]) :
    Yields (do
      let start ← here
      let value ← p
      let stop ← here
      return make value ⟨source, start, stop⟩) (S .atom) := by
  refine (yields_here fun start => hp.stop fun value stop => make value ⟨source, start, stop⟩).imp ?_
  rintro before taken after _ ⟨value, rfl, hspelled⟩
  exact hS.leaf hspelled (hderives _ _) (hspan _ _)

theorem yields_property : Yields (property source) (S .atom) := by
  have hangled : Yields _ (Between .less .greater (Named source)) := yields_angled
  refine (yields_here fun start => (hangled.rule .property).stop
    fun named stop => propertyOf named ⟨source, start, stop⟩).imp ?_
  rintro before taken after _ ⟨named, rfl, hnamed⟩
  exact hS.property hnamed

include hexpr in
theorem yields_atom : Yields (atom source expr) (S .atom) := by
  have hbetween : Yields (parenthesised expr) (Between .openParen .closeParen (S .binding)) :=
    yields_between rfl (by decide) rfl (by decide) hexpr
  have hparen : Yields (parenthesised expr) (S .atom) := hbetween.imp fun _ _ _ _ h => hS.paren h
  exact (yields_leaf hS _ yields_digits (fun _ _ => rfl) fun _ _ => .number).orElse
    ((yields_leaf hS _ yields_quoted (fun _ _ => rfl) fun _ _ => .text).orElse
      ((yields_leaf hS _ yields_backticked (fun _ _ => rfl) fun _ _ => .formula).orElse
        ((yields_property hS).orElse (hparen.orElse
          (yields_leaf hS _ yields_ident (fun _ _ => rfl) fun _ _ => .name)))))

/-! ### Operators -/

section Bands

variable {b : Band} {operand : Parser Expr} (hoperand : Yields operand (S b.tighter))

include hoperand

theorem yields_prefixBand {operator : Parser UnaryOp} (hb : b.isLeading = true)
    (hoperator : Yields operator fun _ taken after op => op.band = b ∧ op.token.Spelled taken after)
    (fuel : Nat) : Yields (prefixBand source operator operand fuel) (S b) := by
  have hatom : b ≠ .atom := by
    rintro rfl
    cases hb
  induction fuel with
  | zero =>
      intro before rest e next hrun
      cases hrun
  | succ fuel ih =>
      have hnode (start : Nat) := yields_behind hoperator fun op =>
        ih.stop fun inner stop => Expr.unary op inner ⟨source, start, stop⟩
      intro before rest e next hrun
      rcases run_orElse (run_here (run_rule hrun)) with hrun | ⟨-, hrun⟩
      · obtain ⟨taken, after, hrest, hnext, op, hop, u, v, rfl, hwritten, inner, rfl, hinner⟩ :=
          hnode _ before rest e next hrun
        have hbehind : Behind [op.token] (S b) before (u ++ v) after inner :=
          ⟨u, v, rfl, hwritten, hinner⟩
        exact ⟨u ++ v, after, hrest, hnext, by simpa using hS.leading hop hb hbehind⟩
      · obtain ⟨taken, after, hrest, hnext, he⟩ := hoperand before rest e next hrun
        exact ⟨taken, after, hrest, hnext, hS.tighter hatom he⟩

theorem yields_prefixed {operator : Parser UnaryOp} (hb : b.isLeading = true)
    (hoperator : Yields operator fun _ taken after op =>
      op.band = b ∧ op.token.Spelled taken after) :
    Yields (prefixed source operator operand) (S b) :=
  fun before rest => yields_prefixBand hS hoperand hb hoperator (rest.length + 1) before rest

omit hS in
/-- An operator and the operand behind it. -/
theorem yields_operation {P : BinaryOp → Prop} {operator : Parser BinaryOp}
    (hoperator : Yields operator fun _ taken after op =>
      P op ∧ (Token.sign op.sign).Spelled taken after) :
    Yields (do let op ← operator; layout; let right ← operand; return (op, right))
      fun before taken after next =>
        P next.1 ∧ Behind [.sign next.1.sign] (S b.tighter) before taken after next.2 := by
  refine (yields_behind hoperator fun op => hoperand.map fun right => (op, right)).imp ?_
  rintro before taken after _ ⟨op, hop, u, v, rfl, hwritten, right, rfl, hright⟩
  exact ⟨hop, u, v, rfl, hwritten, hright⟩

theorem yields_binaryBand {operator : Parser BinaryOp} (hb : b.isLeft = true)
    (hoperator : Yields operator fun _ taken after op =>
      (op.band = b ∧ op ≠ .apply) ∧ (Token.sign op.sign).Spelled taken after) :
    Yields (binaryBand source operator operand) (S b) := by
  have hatom : b ≠ .atom := by
    rintro rfl
    cases hb
  have hfirst : Yields operand (S b) := hoperand.imp fun _ _ _ _ h => hS.tighter hatom h
  refine (yields_foldl hfirst hS.layout ((yields_operation hoperand hoperator).imp ?_)).rule _
  rintro _ v after ⟨op, right⟩ ⟨⟨hop, happly⟩, hright⟩ before u left rfl hleft
  rw [← BinaryOp.leftSlot_eq hop hb] at hleft
  exact hS.operand hop happly hleft hright

end Bands

theorem yields_comparison (hoperand : Yields (addition source expr) (S .addition)) :
    Yields (comparison source expr) (S .comparison) := by
  have hoperation := yields_operation (b := .comparison) hoperand yields_comparisonOperator
  intro before rest e next hrun
  obtain ⟨left, u, rest, rfl, hleft, hrun⟩ := hoperand.run_bind (run_rule hrun)
  obtain ⟨_, w, rest, rfl, hw, hrun⟩ := yields_layout.run_bind hrun
  obtain ⟨found, next', hmaybe, hrun⟩ := run_bind hrun
  have hleft := hS.layout hleft hw
  rcases run_maybe hmaybe with ⟨⟨op, right⟩, rfl, hright⟩ | ⟨rfl, rfl⟩
  · rw [List.append_assoc] at hright
    obtain ⟨v, after, rfl, rfl, ⟨hop, hslot, happly⟩, hright⟩ := hoperation _ _ _ _ hright
    cases hrun
    rw [← hslot] at hleft
    have hnode := hS.operand hop happly hleft hright
    exact ⟨u ++ w ++ v, after, by simp, by simp, hnode⟩
  · cases hrun
    exact ⟨u ++ w, rest, by simp, by simp, hS.tighter (by decide) hleft⟩

/-! ### Chains -/

theorem yields_operatorLink {expectation : Expectation} {text : String} {op : BinaryOp}
    {operand : Parser Expr} (htext : text.toList = op.sign.chars) (hs : op.sign ∉ ambiguousSigns)
    (hop : op.band = .chain) (happly : op ≠ .apply) (hoperand : Yields operand (S .tight)) :
    Yields (operatorLink expectation text op operand) (Extends (S .chain) (extend source)) := by
  have hsign : Yields (symbol text) fun _ taken after _ =>
      True ∧ (Token.sign op.sign).Spelled taken after :=
    (yields_sign htext hs).imp fun _ _ _ _ h => ⟨trivial, h⟩
  have hright := (yields_behind hsign fun _ => hoperand).rule expectation
  refine (hright.stop fun right stop => Link.operand op right stop).imp ?_
  rintro _ v after _ ⟨right, rfl, -, -, hright⟩ before u left rfl hleft
  rw [List.append_assoc]
  exact hS.link hop happly hleft hright

theorem yields_wildcardLink : Yields wildcardLink (Extends (S .chain) (extend source)) := by
  refine ((yields_ignoredColumn.rule .bracket).stop fun _ stop => Link.wildcard stop).imp ?_
  rintro _ v after _ ⟨-, rfl, hwritten⟩ before u left rfl hleft
  rw [List.append_assoc]
  exact hS.ignore hleft hwritten

include hexpr

theorem yields_argumentLink {link : Link} {next : Cursor} {before rest : List Char}
    (hwildcard : (wildcardLink ⟨rest, byteLength before⟩).value = none)
    (hrun : (argumentLink expr ⟨rest, byteLength before⟩).value = some (link, next)) :
    ∃ taken after, rest = taken ++ after ∧ next = ⟨after, byteLength (before ++ taken)⟩ ∧
      Extends (S .chain) (extend source) before taken after link := by
  have hbetween : Yields (argumentLink expr) fun before taken after link =>
      ∃ right, link = .operand .apply right (byteLength (before ++ taken)) ∧
        Between .openBracket .closeBracket (S .binding) before taken after right :=
    ((yields_between rfl (by decide) rfl (by decide) hexpr).rule .bracket).stop
      fun right stop => Link.operand .apply right stop
  obtain ⟨v, after, hrest, rfl, right, rfl, hright⟩ := hbetween before rest link next hrun
  obtain ⟨_, _, hread, -⟩ := run_bind hrun
  obtain ⟨_, opening, rest', rfl, rfl, -⟩ := (yields_symbol "[").run_bind (run_rule hread)
  have hignored := not_written_ignoredColumn hrest hwildcard
  refine ⟨v, after, hrest, rfl, ?_⟩
  rintro before u left rfl hleft
  rw [List.append_assoc]
  exact hS.apply hleft hright hignored

theorem yields_link (htight : Yields (tight source expr) (S .tight)) :
    Yields (link source expr) (Extends (S .chain) (extend source)) := by
  have hdomain : Yields (operatorLink .domainRestriction "<:" .domainRestrict (tight source expr))
      (Extends (S .chain) (extend source)) :=
    yields_operatorLink hS rfl (by decide) rfl (by decide) htight
  have hrange : Yields (operatorLink .rangeRestriction ":>" .rangeRestrict (tight source expr))
      (Extends (S .chain) (extend source)) :=
    yields_operatorLink hS rfl (by decide) rfl (by decide) htight
  have hjoin : Yields (operatorLink .dot "." .join (tight source expr))
      (Extends (S .chain) (extend source)) :=
    yields_operatorLink hS rfl (by decide) rfl (by decide) htight
  intro before rest link next hrun
  rcases run_orElse hrun with hrun | ⟨-, hrun⟩
  · exact hjoin before rest link next hrun
  rcases run_orElse hrun with hrun | ⟨hwildcard, hrun⟩
  · exact yields_wildcardLink hS before rest link next hrun
  rcases run_orElse hrun with hrun | ⟨-, hrun⟩
  · exact yields_argumentLink hS hexpr hwildcard hrun
  · exact hdomain.orElse hrange before rest link next hrun

theorem yields_chain (htight : Yields (tight source expr) (S .tight)) :
    Yields (chain source expr) (S .chain) := by
  have hfirst : Yields (tight source expr) (S .chain) :=
    htight.imp fun _ _ _ _ h => hS.tighter (by decide) h
  exact (yields_foldl hfirst hS.layout (yields_link hS hexpr htight)).rule _

/-! ### Expressions -/

theorem yields_union : Yields (union source expr) (S .union) := by
  have htight : Yields (tight source expr) (S .tight) :=
    yields_prefixed hS (yields_atom hS hexpr) rfl yields_tightOperator
  have haggregate : Yields (aggregate source expr) (S .aggregate) :=
    yields_prefixed hS (yields_chain hS hexpr htight) rfl yields_aggregateOperator
  have hmultiplication : Yields (multiplication source expr) (S .multiplication) :=
    yields_binaryBand hS haggregate rfl
      (yields_operator .star (.arith .mul) rfl (by decide) rfl rfl (by decide))
  have haddition : Yields (addition source expr) (S .addition) :=
    yields_binaryBand hS hmultiplication rfl
      (yields_operator .plus (.arith .add) rfl (by decide) rfl rfl (by decide))
  have hquantified : Yields (quantified source expr) (S .quantified) :=
    yields_prefixed hS (yields_comparison hS haddition) rfl yields_quantifier
  have hproduct : Yields (product source expr) (S .product) :=
    yields_binaryBand hS hquantified rfl
      (yields_operator .comma .product rfl (by decide) rfl rfl (by decide))
  have hintersection : Yields (intersection source expr) (S .intersection) :=
    yields_binaryBand hS hproduct rfl yields_setOperator
  exact yields_binaryBand hS hintersection rfl
    (yields_operator .semicolon (.set .union) rfl (by decide) rfl rfl (by decide))

theorem yields_letBinding : Yields (letBinding source expr) (S .binding) := by
  intro before rest e next hrun
  obtain ⟨_, next', hread, hrun⟩ := run_bind (run_here hrun)
  obtain ⟨_, k, rest, rfl, hkeyword, hread⟩ :=
    (yields_keyword .binding).run_bind (run_rule hread)
  obtain ⟨_, w₁, rest, rfl, hw₁, hread⟩ := yields_layout.run_bind hread
  obtain ⟨x, u, rest, rfl, hname, hread⟩ := yields_ident.run_bind hread
  obtain ⟨_, w₂, rest, rfl, hw₂, hread⟩ := yields_layout.run_bind hread
  obtain ⟨_, equal, rest, rfl, hequal, hread⟩ := (yields_symbol "=").run_bind hread
  obtain ⟨_, w₃, rest, rfl, hw₃, hread⟩ := yields_layout.run_bind hread
  obtain ⟨value, v, rest, rfl, hvalue, hread⟩ := (yields_union hS hexpr).run_bind hread
  obtain ⟨_, w₄, rest, rfl, hw₄, hread⟩ := yields_layout.run_bind hread
  obtain ⟨_, bar, rest, rfl, hbar, hread⟩ :=
    (yields_sign (s := .bar) rfl (by decide)).run_bind hread
  obtain ⟨_, w₅, rest, rfl, hw₅, hread⟩ := yields_layout.run_bind hread
  obtain ⟨body, v', after, rfl, hbody, hread⟩ := hexpr.run_bind hread
  cases hread
  cases run_here hrun
  obtain rfl : equal = ['='] := hequal
  obtain ⟨rfl, hend⟩ | ⟨hsum, -⟩ := hkeyword
  · obtain ⟨hx, rfl, -⟩ := hname
    have hhead := Written.binding .nil (hw₁.layout_false (by simp)) (hx.ne_nil hend) hx
      (hw₂.layout_false (by simp)) hw₃
    have hmid := hw₄.append hbar.written |>.skip hw₅
    have hparts : Paired [.keyword .binding, .name x, .sign .equal] [.sign .bar] (S .union)
        (S .binding) before _ after value body :=
      ⟨Keyword.binding.text.toList ++ (w₁ ++ (x.toList ++ (w₂ ++ '=' :: w₃))), v, w₄ ++ bar ++ w₅,
        v', rfl, by simpa using hhead, by simpa using hvalue, hmid, by simpa using hbody⟩
    refine ⟨_, after, ?_, ?_, by simpa using hS.letIn hparts⟩
    · simp
    · simp
  · cases hsum

omit hS in
theorem yields_comprehensionBody (expectation : Expectation) (text : String) (style : Style)
    (htext : text.toList = style.sign.chars) :
    Yields (comprehensionBody expectation text style expr) fun before taken after found =>
      Behind [.sign found.1.sign] (S .binding) before taken after found.2 := by
  have hs : style.sign ∉ ambiguousSigns := by cases style <;> decide
  have hsign : Yields (symbol text) fun _ taken after _ =>
      True ∧ (Token.sign style.sign).Spelled taken after :=
    (yields_sign htext hs).imp fun _ _ _ _ h => ⟨trivial, h⟩
  refine ((yields_behind hsign fun _ => hexpr.map fun body => (style, body)).imp ?_).rule _
  rintro before taken after _ ⟨-, -, u, v, rfl, hwritten, body, rfl, hbody⟩
  exact ⟨u, v, rfl, hwritten, hbody⟩

theorem yields_comprehension : Yields (comprehension source expr) (S .binding) := by
  have hstyle := (yields_comprehensionBody hexpr .bar "|" .keep rfl).orElse
    (yields_comprehensionBody hexpr .arrow "->" .image rfl)
  intro before rest e next hrun
  obtain ⟨_, next', hread, hrun⟩ := run_bind (run_here hrun)
  obtain ⟨_, k, rest, rfl, ⟨x, xs, rfl, hnames⟩, hread⟩ :=
    yields_boundNames.run_bind (run_rule hread)
  obtain ⟨_, w₁, rest, rfl, hw₁, hread⟩ := yields_layout.run_bind hread
  obtain ⟨_, colon, rest, rfl, ⟨-, hcolon⟩, hread⟩ := yields_colon.run_bind hread
  obtain ⟨_, w₂, rest, rfl, hw₂, hread⟩ := yields_layout.run_bind hread
  obtain ⟨constraint, v, rest, rfl, hconstraint, hread⟩ := (yields_union hS hexpr).run_bind hread
  obtain ⟨_, w₃, rest, rfl, hw₃, hread⟩ := yields_layout.run_bind hread
  obtain ⟨⟨style, body⟩, _, after, rfl, ⟨sign, u, rfl, hsign, hbody⟩, hread⟩ := hstyle.run_bind hread
  cases hread
  cases run_here hrun
  have hhead := hnames.skip hw₁ |>.append hcolon.written |>.skip hw₂
  rw [List.append_assoc] at hw₃
  have hparts : Paired (nameTokens (x :: xs) ++ [.sign .colon]) [.sign style.sign] (S .union)
      (S .binding) before _ after constraint body :=
    ⟨k ++ w₁ ++ colon ++ w₂, v, w₃ ++ sign, u, rfl, by simpa using hhead,
      by simpa using hconstraint, hw₃.append hsign, by simpa using hbody⟩
  refine ⟨_, after, ?_, ?_, by simpa using hS.comprehension hparts⟩
  · simp
  · simp

omit hexpr

theorem yields_expression (fuel : Nat) : Yields (expression source fuel) (S .binding) := by
  induction fuel with
  | zero =>
      intro before rest e next hrun
      cases hrun
  | succ fuel ih =>
      have hunion : Yields (union source (expression source fuel)) (S .binding) :=
        (yields_union hS ih).imp fun _ _ _ _ h => hS.tighter (by decide) h
      exact ((yields_letBinding hS ih).orElse ((yields_comprehension hS ih).orElse hunion)).rule _

/-- A query is read from its source but for the layout in front. -/
theorem Rules.query {e : Expr} {next : Cursor}
    (hrun : (query source ⟨source.toList, 0⟩).value = some (e, next)) :
    ∃ w u, source.toList = w ++ u ∧ Written [] w u ∧ S .binding w u [] e := by
  have hstart : (⟨source.toList, 0⟩ : Cursor) = ⟨source.toList, byteLength []⟩ := rfl
  rw [hstart] at hrun
  obtain ⟨_, w, rest, hrest, hw, hrun⟩ := yields_layout.run_bind (run_rule hrun)
  obtain ⟨e, u, rest, rfl, he, hrun⟩ := (yields_expression hS _).run_bind hrun
  obtain ⟨_, w', rest, rfl, hw', hrun⟩ := yields_layout.run_bind hrun
  obtain ⟨_, _, _, rfl, ⟨rfl, rfl⟩, hrun⟩ := yields_endOfInput.run_bind hrun
  cases hrun
  exact ⟨w, u ++ w', by simpa using hrest, by simpa using hw,
    hS.layout (by simpa using he) (by simpa using hw')⟩

end Rules

end RelQuery.Grammar
