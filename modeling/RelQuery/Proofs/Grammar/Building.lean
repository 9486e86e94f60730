import RelQuery.Proofs.Grammar.Builder
import RelQuery.Proofs.Grammar.Lockstep

/-!
# Expressions built from pairs

The pairs that the grammar leaves are those that the builder asks for: what it builds is what is read
without pairs, and where it fails it has met a number that does not fit.
-/

namespace RelQuery.Grammar

open RelQuery.Grammar.Parser

variable {source : String}

/-! ## Pairs of a rule -/

section Rules

variable {β γ : Type} {cursor : Cursor} {r : Rule}

theorem agree_node {parts : Parser (List Pair)} {q : Parser β} {R : List Pair → β → Cursor → Prop}
    {S : Pair → β → Cursor → Prop} (h : Agree source R (parts cursor) (q cursor))
    (himp : ∀ inner b next, R inner b next → S (.mk r cursor.offset next.offset inner) b next) :
    Agree source S (Pairs.node r parts cursor) (rule r.expectation q cursor) :=
  (h.rule r.expectation).stop_left himp

/-- The value of the second run is made with the offset where the pair stops. -/
theorem agree_node_stop {parts : Parser (List Pair)} {q : Parser β}
    {R : List Pair → β → Cursor → Prop} {S : Pair → γ → Cursor → Prop} {k : β → Nat → γ}
    (h : Agree source R (parts cursor) (q cursor))
    (himp : ∀ inner b next, R inner b next →
      S (.mk r cursor.offset next.offset inner) (k b next.offset) next) :
    Agree source S (Pairs.node r parts cursor)
      ((rule r.expectation q >>= fun b => here >>= fun stop => pure (k b stop)) cursor) :=
  (h.rule r.expectation).stop himp

/-- The value of the second run is made with both offsets of the pair. -/
theorem agree_node_span {parts : Parser (List Pair)} {q : Parser β}
    {R : List Pair → β → Cursor → Prop} {S : Pair → γ → Cursor → Prop} {k : Nat → β → Nat → γ}
    (h : Agree source R (parts cursor) (q cursor))
    (himp : ∀ inner b next, R inner b next →
      S (.mk r cursor.offset next.offset inner) (k cursor.offset b next.offset) next) :
    Agree source S (Pairs.node r parts cursor)
      ((here >>= fun start => rule r.expectation q >>= fun b => here >>= fun stop =>
        pure (k start b stop)) cursor) :=
  agree_node_stop h himp

theorem agree_only {part : Parser Pair} {q : Parser β} {R : Pair → β → Cursor → Prop}
    {S : List Pair → β → Cursor → Prop} (h : Agree source R (part cursor) (q cursor))
    (himp : ∀ pair b next, R pair b next → S [pair] b next) :
    Agree source S (Pairs.only part cursor) (q cursor) :=
  h.map_left himp

theorem inStep_leaf {scan : List Char → Option (List Char × List Char)} {T : List Char → Prop}
    (hscan : ∀ rest taken after, scan rest = some (taken, after) → rest = taken ++ after ∧ T taken) :
    InStep source (Pairs.leaf r scan) (lexeme r.expectation scan) fun start pair taken next =>
      pair = .mk r start.offset next.offset [] ∧ T taken ∧
        pair.text source = String.ofList taken := by
  have hparts : InStep source (scanning scan >>= fun _ => pure ([] : List Pair)) (scanning scan)
      fun start inner taken next => inner = [] ∧ T taken ∧
        Cuts source start.offset next.offset taken := by
    refine (inStep_scanning hscan).map_left ?_
    rintro cursor taken _ next ⟨rfl, hT, hcuts⟩
    exact ⟨rfl, hT, hcuts⟩
  intro cursor hcursor
  refine agree_node (hparts cursor hcursor) ?_
  rintro _ taken next ⟨rfl, hT, hcuts⟩
  exact ⟨rfl, hT, hcuts.text_eq⟩

theorem inStep_identifier :
    InStep source Pairs.identifier ident fun start pair x next =>
      pair = .mk .identifier start.offset next.offset [] ∧ pair.text source = x := by
  have hleaf : InStep source (Pairs.leaf .identifier scanName) (lexeme .identifier scanName)
      fun start pair taken next => pair = .mk .identifier start.offset next.offset [] ∧ True ∧
        pair.text source = String.ofList taken :=
    inStep_leaf fun _ _ _ hscan => ⟨(spelled_of_scanName hscan).1, trivial⟩
  refine hleaf.map_right ?_
  rintro cursor pair taken next ⟨hpair, -, htext⟩
  exact ⟨hpair, htext⟩

theorem inStep_keyword (word : Keyword) :
    InStep source (Pairs.keyword word) (keyword word) fun start pair _ next =>
      pair = .mk (.keyword word) start.offset next.offset [] ∧ pair.text source = word.text := by
  have hleaf : InStep source (Pairs.leaf (.keyword word) (scanKeyword word))
      (lexeme word.expectation (scanKeyword word)) fun start pair taken next =>
        pair = .mk (.keyword word) start.offset next.offset [] ∧ taken = word.text.toList ∧
          pair.text source = String.ofList taken := by
    refine inStep_leaf fun rest taken after hscan => ⟨(spelled_of_scanKeyword hscan).1, ?_⟩
    unfold scanKeyword at hscan
    split at hscan
    · next htake =>
        cases hscan
        exact htake
    · cases hscan
  refine hleaf.map_right ?_
  rintro cursor pair _ next ⟨rfl, rfl, htext⟩
  exact ⟨rfl, by rw [htext, String.ofList_toList]⟩

end Rules

/-! ## Operators -/

section Operators

variable {β : Type} {F : Pair → β → Prop} {r : Rule}

/-- The text between two places settles what is read by an operator's rule. -/
def Settles (source : String) (F : Pair → β → Prop) (start : Cursor) (_ : List Pair) (value : β)
    (next : Cursor) : Prop :=
  ∀ pair : Pair, pair.span source = ⟨source, start.offset, next.offset⟩ → F pair value

theorem inStep_operator {parts : Parser (List Pair)} {q : Parser β}
    (h : InStep source parts q (Settles source F)) :
    InStep source (Pairs.node r parts) (rule r.expectation q) fun _ pair op _ =>
      pair.rule = r ∧ F pair op :=
  fun cursor hcursor => agree_node (h cursor hcursor) fun _ _ _ hF => ⟨rfl, hF _ rfl⟩

theorem settles_sign {text : String} {value : β}
    (h : ∀ pair : Pair, pair.text source = text → F pair value) :
    InStep source (Pairs.sign text) (symbol text >>= fun _ => pure value) (Settles source F) := by
  refine (inStep_symbol text).map fun cursor _ _ next hcuts pair hspan => h pair ?_
  rw [Pair.text, hspan, hcuts.text_eq, String.ofList_toList]

theorem settles_word {word : Keyword} {value : β}
    (h : ∀ pair : Pair, pair.text source = word.text → F pair value) :
    InStep source (Pairs.only (Pairs.keyword word)) (keyword word >>= fun _ => pure value)
      (Settles source F) := by
  refine (inStep_keyword word).map ?_
  rintro cursor _ _ next ⟨rfl, htext⟩ pair hspan
  refine h pair ?_
  rw [← htext, Pair.text, hspan]
  rfl

theorem inStep_tightOperator :
    InStep source Pairs.tightOperator tightOperator fun _ pair op _ =>
      pair.rule = .tightOperator ∧ closureOf source pair = .ok op := by
  refine inStep_operator (.orElse (settles_sign fun pair h => ?_)
    (.orElse (settles_sign fun pair h => ?_) (settles_sign fun pair h => ?_)))
  all_goals
    rw [closureOf, h]
    rfl

theorem inStep_aggregateOperator :
    InStep source Pairs.aggregateOperator aggregateOperator fun _ pair op _ =>
      pair.rule = .aggregateOperator ∧ aggregateOf source pair = .ok op := by
  refine inStep_operator (.orElse (settles_sign fun pair h => ?_)
    (.orElse (settles_sign fun pair h => ?_) (.orElse (settles_word fun pair h => ?_)
      (.orElse (settles_word fun pair h => ?_) (.orElse (settles_word fun pair h => ?_)
        (.orElse (settles_word fun pair h => ?_) (settles_word fun pair h => ?_)))))))
  all_goals
    rw [aggregateOf, h]
    rfl

theorem inStep_quantifier :
    InStep source Pairs.quantifier quantifier fun _ pair op _ =>
      pair.rule = .quantifier ∧ quantifyOf source pair = .ok op := by
  refine inStep_operator (.orElse (settles_word fun pair h => ?_) (settles_word fun pair h => ?_))
  · rw [quantifyOf, h, if_pos (by decide)]
  · rw [quantifyOf, h, if_neg (by decide)]

theorem eq_of_scanNotBefore {c forbidden : Char} {cs taken after : List Char}
    (h : scanNotBefore c forbidden cs = some (taken, after)) : cs = taken ++ after ∧ taken = [c] := by
  unfold scanNotBefore at h
  split at h
  · split at h
    · next hcond =>
        cases h
        exact ⟨rfl, by simpa using (Bool.and_eq_true_iff.mp hcond).1⟩
    · cases h
  · cases h

theorem inStep_setOperator :
    InStep source Pairs.setOperator setOperator fun _ pair op _ =>
      pair.rule = .setOperator ∧ setOpOf source pair = op := by
  -- The minus leaves a pair of its own inside that of the operator, over the same piece of source.
  have hminus : InStep source (Pairs.only (Pairs.leaf .minus (scanNotBefore '-' '>')))
      (lexeme .setOperator (scanNotBefore '-' '>') >>= fun _ => pure (.set .difference))
      (Settles source fun pair op => setOpOf source pair = op) := by
    have hleaf : InStep source (Pairs.leaf .minus (scanNotBefore '-' '>'))
        (lexeme .setOperator (scanNotBefore '-' '>')) fun start pair taken next =>
          pair = .mk .minus start.offset next.offset [] ∧ taken = ['-'] ∧
            pair.text source = String.ofList taken :=
      inStep_leaf fun rest taken after => eq_of_scanNotBefore
    refine hleaf.map ?_
    rintro cursor _ _ next ⟨rfl, rfl, htext⟩ pair hspan
    have hpair : pair.text source = "-" := by
      rw [Pair.text, hspan]
      exact htext
    rw [setOpOf, hpair, if_neg (by decide)]
  refine inStep_operator (.orElse (settles_sign fun pair h => ?_) hminus)
  rw [setOpOf, h, if_pos (by decide)]

theorem inStep_comparisonOperator :
    InStep source Pairs.comparisonOperator comparisonOperator fun _ pair op _ =>
      ∃ comparison, op = .compare comparison ∧ compareOf source pair = .ok comparison := by
  have hleaf : InStep source (Pairs.leaf .comparisonOperator scanComparison)
      (lexeme .comparisonOperator scanComparison) fun start pair taken next =>
        pair = .mk .comparisonOperator start.offset next.offset [] ∧
          (∀ pair : Pair, pair.text source = String.ofList taken →
            compareOf source pair = .ok (comparisonOf taken)) ∧
          pair.text source = String.ofList taken := by
    refine inStep_leaf fun rest taken after hscan => ⟨(spelled_of_scanComparison hscan).1, ?_⟩
    intro pair h
    rw [compareOf, h]
    unfold scanComparison at hscan
    split at hscan <;> cases hscan <;> rfl
  refine hleaf.map_right ?_
  rintro cursor pair taken next ⟨-, hcompare, htext⟩
  exact ⟨_, rfl, hcompare pair htext⟩

end Operators

/-! ## Expressions -/

/-- The pairs that the first parser leaves are of certain rules, and the expressions that the second
one reads are built from them. -/
def Builds (source : String) (K : Rule → Prop) (p : Parser Pair) (q : Parser Expr) : Prop :=
  InStep source p q fun _ pair e _ => K pair.rule ∧ build source pair = settle e

theorem Builds.imp {K K' : Rule → Prop} {p : Parser Pair} {q : Parser Expr} (h : Builds source K p q)
    (himp : ∀ r, K r → K' r) : Builds source K' p q :=
  InStep.imp h fun _ _ _ _ hpair => ⟨himp _ hpair.1, hpair.2⟩

/-- Where the parts of a rule are in step, it remains to build the pair around them. -/
theorem agree_builds {r : Rule} {cursor : Cursor} {parts : Parser (List Pair)} {q : Parser Expr}
    (h : Agree source (fun inner e next => build source (.mk r cursor.offset next.offset inner) =
      settle e) (parts cursor) (q cursor)) :
    Agree source (fun pair e _ => pair.rule = r ∧ build source pair = settle e)
      (Pairs.node r parts cursor) (rule r.expectation q cursor) :=
  agree_node h fun _ _ _ hbuild => ⟨rfl, hbuild⟩

section Atoms

theorem readSigned?_digits {bits : Nat} {digits : List Char} (hne : digits ≠ [])
    (hall : ∀ c ∈ digits, Text.isDigit c = true) :
    Text.readSigned? bits digits =
      if Text.fitsSigned bits (Text.digitsValue digits) then some (Text.digitsValue digits : Int)
      else none := by
  have hint : Text.readInt? digits = some (Text.digitsValue digits : Int) := by
    unfold Text.readInt?
    split
    · exact absurd (hall '-' List.mem_cons_self) (by decide)
    · exact absurd (hall '+' List.mem_cons_self) (by decide)
    · rw [Text.readDigits?, if_pos (by simpa [hne] using hall)]
      rfl
  rw [Text.readSigned?, hint]
  by_cases hfits : Text.fitsSigned bits (Text.digitsValue digits) <;> simp [hfits]

theorem builds_number : Builds source (· = .number) Pairs.number (number source) := by
  have hleaf : InStep source (Pairs.leaf .number scanNumber) (lexeme .number scanNumber)
      fun start pair taken next => pair = .mk .number start.offset next.offset [] ∧
        (taken ≠ [] ∧ ∀ c ∈ taken, Text.isDigit c = true) ∧
          pair.text source = String.ofList taken := by
    refine inStep_leaf fun rest taken after hscan => ?_
    obtain ⟨hsplit, hne, hall, -⟩ := spelled_of_scanNumber hscan
    exact ⟨hsplit, hne, hall⟩
  intro cursor hcursor
  refine (hleaf cursor hcursor).stop_right ?_
  rintro _ digits next ⟨rfl, ⟨hne, hall⟩, htext⟩
  refine ⟨rfl, ?_⟩
  rw [build_eq]
  change buildNumber source _ = _
  rw [buildNumber, htext, String.toList_ofList, readSigned?_digits hne hall, settle_number]
  by_cases hfits : Text.fitsSigned 32 (Text.digitsValue digits) = true
  · rw [if_pos hfits, if_pos hfits]
    rfl
  · rw [if_neg hfits, if_neg hfits]
    rfl

/-- What encloses a text is one byte on either side. -/
def Encloses (taken : List Char) : Prop :=
  ∃ quote body, quote.utf8Size = 1 ∧ taken = quote :: (body ++ [quote])

theorem builds_enclosing {r : Rule} {part : List Char → Rule}
    {scan : List Char → Option (List Char × List Char)} {make : List Char → Span → Expr}
    (hscan : ∀ rest taken after, scan rest = some (taken, after) →
      rest = taken ++ after ∧ Encloses taken)
    (hbuild : ∀ start stop (body : Pair) taken, body.text source = String.ofList (enclosed taken) →
      build source (.mk r start stop [body]) = settle (make taken ⟨source, start, stop⟩)) :
    Builds source (· = r) (Pairs.enclosing r part scan)
      (here >>= fun start => lexeme r.expectation scan >>= fun taken => here >>= fun stop =>
        pure (make taken ⟨source, start, stop⟩)) := by
  intro cursor hcursor
  have hparts : Agree source (fun inner taken _ => ∃ body : Pair, inner = [body] ∧
        body.text source = String.ofList (enclosed taken))
      ((scanning scan >>= fun taken => here >>= fun stop =>
        pure [Pair.mk (part taken) (cursor.offset + 1) (stop - 1) []]) cursor)
      (scanning scan cursor) := by
    refine (inStep_scanning hscan cursor hcursor).stop_left ?_
    rintro taken _ next ⟨rfl, ⟨quote, body, hsize, rfl⟩, hcuts⟩
    refine ⟨_, rfl, ?_⟩
    rw [enclosed, List.tail_cons, List.dropLast_concat]
    exact (hcuts.enclosed hsize hsize).text_eq
  refine agree_node_span hparts ?_
  rintro _ taken next ⟨body, rfl, htext⟩
  exact ⟨rfl, hbuild _ _ body taken htext⟩

theorem builds_string : Builds source (· = .string) Pairs.string (string source) := by
  refine builds_enclosing (fun rest taken after hscan => ?_) fun start stop body taken htext => ?_
  · obtain ⟨hsplit, quote, body, hquote, -, htaken⟩ := spelled_of_scanString hscan
    refine ⟨hsplit, quote, body, ?_, htaken⟩
    rcases hquote with rfl | rfl <;> rfl
  · rw [build_eq, settle_of_none rfl]
    change Except.ok (buildString source _) = _
    simp only [buildString, bodyText, Pair.inner, List.head?_cons, Option.map_some,
      Option.getD_some, htext, String.toList_ofList]
    rfl

theorem builds_formula : Builds source (· = .formula) Pairs.formula (formula source) := by
  refine builds_enclosing (fun rest taken after hscan => ?_) fun start stop body taken htext => ?_
  · obtain ⟨hsplit, body, -, -, htaken⟩ := spelled_of_scanFormula hscan
    exact ⟨hsplit, '\x60', body, rfl, htaken⟩
  · rw [build_eq, settle_of_none rfl]
    change Except.ok (buildFormula source _) = _
    simp only [buildFormula, bodyText, Pair.inner, List.head?_cons, Option.map_some,
      Option.getD_some, htext, Text.trim, String.toList_ofList]
    rfl

theorem inStep_variableName :
    InStep source Pairs.identifier (variableName source) fun _ pair e _ =>
      pair.rule = .identifier ∧ e = buildName source pair := by
  intro cursor hcursor
  refine (inStep_identifier cursor hcursor).stop_right ?_
  rintro _ x next ⟨rfl, rfl⟩
  exact ⟨rfl, rfl⟩

theorem builds_variableName :
    Builds source (· = .identifier) Pairs.identifier (variableName source) := by
  refine inStep_variableName.imp ?_
  rintro cursor ⟨_, start, stop, inner⟩ e next ⟨rfl, rfl⟩
  refine ⟨rfl, ?_⟩
  rw [build_eq, settle_of_none rfl]
  rfl

theorem oversized?_propertyOf {pair : Pair} {span : Span} :
    oversized? (propertyOf (buildName source pair) span) = none := by
  unfold propertyOf
  split <;> rfl

theorem builds_property : Builds source (· = .property) Pairs.property (property source) := by
  have hparts := InStep.between "<" ">" inStep_variableName
    (J := fun inner e => ∃ name, inner = [name] ∧ e = buildName source name)
    (f := fun name => [name]) (g := id) fun name e hname => ⟨name, rfl, hname.2⟩
  intro cursor hcursor
  refine agree_node_span (hparts cursor hcursor) ?_
  rintro _ _ next ⟨name, rfl, rfl⟩
  refine ⟨rfl, ?_⟩
  rw [build_eq, settle_of_none oversized?_propertyOf]
  rfl

variable {p : Parser Pair} {q : Parser Expr} {K : Rule → Prop}

theorem builds_parenthesised (h : Builds source K p q) :
    Builds source K (Pairs.parenthesised p) (parenthesised q) :=
  InStep.between "(" ")" h fun _ _ => id

theorem builds_atom (h : Builds source (· = .expression) p q) :
    Builds source (· ≠ .tightOperator) (Pairs.atom p) (atom source q) := by
  have hatom {r : Rule} {p : Parser Pair} {q : Parser Expr} (h : Builds source (· = r) p q)
      (hr : r ≠ .tightOperator) : Builds source (· ≠ .tightOperator) p q :=
    h.imp fun _ hrule => hrule ▸ hr
  refine .orElse (hatom builds_number ?_) (.orElse (hatom builds_string ?_)
    (.orElse (hatom builds_formula ?_) (.orElse (hatom builds_property ?_)
      (.orElse (hatom (builds_parenthesised h) ?_) (hatom builds_variableName ?_)))))
  all_goals decide

end Atoms

/-! ## Bands -/

section Bands

variable {r : Rule}

section Prefixed

variable {operator : Rule} {of : Pair → Built UnaryOp} {p p' : Parser Pair} {q : Parser UnaryOp}
variable {q' : Parser Expr}

variable
  (hnode : ∀ start stop inner, buildNode source (build source) (.mk r start stop inner) =
    buildPrefixed source (build source) operator of (.mk r start stop inner))
  (hexpectation : r.expectation = .expression)
  (hop : InStep source p q fun _ pair op _ => pair.rule = operator ∧ of pair = .ok op)
  (hoperand : Builds source (· ≠ operator) p' q')

include hnode hexpectation hop hoperand

theorem builds_prefixBand (fuel : Nat) :
    Builds source (· = r) (Pairs.prefixBand r p p' fuel) (prefixBand source q q' fuel) := by
  induction fuel with
  | zero => exact fun _ _ => .fails []
  | succ fuel ih =>
      intro cursor hcursor
      rw [prefixBand, ← hexpectation]
      refine agree_builds (Agree.orElse ?_ ?_)
      · refine (hop cursor hcursor).bind fun opPair op c hc ⟨hrule, hof⟩ => ?_
        refine (inStep_layout c hc).bind fun _ _ c hc _ => ?_
        refine (ih c hc).bind fun pair e c hc ⟨_, hbuild⟩ => .reads [] hc ?_
        rw [build_eq, hnode, ← hrule, buildPrefixed_operator rfl hof, hbuild]
        exact settle_bind oversized?_unary
      · -- The operand is no operator by its rule, so the builder passes it through.
        refine agree_only (hoperand cursor hcursor) fun pair e _ ⟨hrule, hbuild⟩ => ?_
        rw [build_eq, hnode, buildPrefixed_operand rfl hrule, hbuild]

/-- Operators before an operand. -/
theorem builds_prefixed :
    Builds source (· = r) (Pairs.prefixed r p p') (prefixed source q q') :=
  fun cursor hcursor =>
    builds_prefixBand hnode hexpectation hop hoperand (cursor.rest.length + 1) cursor hcursor

end Prefixed

section Binary

variable {fixed : Option BinaryOp} {pair : Pair}

/-- The pairs that an operator of a band leaves. -/
def Operates (source : String) (fixed : Option BinaryOp) (ops : List Pair) (op : BinaryOp) : Prop :=
  ops = [] ∧ fixed = some op ∨
    ∃ operator : Pair, ops = [operator] ∧ operator.rule = .setOperator ∧ setOpOf source operator = op

/-- The pairs that an operator and its right operand leave. -/
def Follows (source : String) (fixed : Option BinaryOp) (pairs : List Pair) (next : BinaryOp × Expr) :
    Prop :=
  ∃ ops right, pairs = ops ++ [right] ∧ Operates source fixed ops next.1 ∧
    right.rule ≠ .setOperator ∧ build source right = settle next.2

theorem foldFrom_follows {pairs rest : List Pair} {next : BinaryOp × Expr}
    (h : Follows source fixed pairs next) (left : Expr) :
    foldFrom source (build source) pair fixed left (pairs ++ rest) =
      (settle next.2 >>= fun right =>
        foldFrom source (build source) pair fixed (combine source left (next.1, right)) rest) := by
  obtain ⟨ops, right, rfl, hops, hright, hbuild⟩ := h
  rcases hops with ⟨rfl, rfl⟩ | ⟨operator, rfl, hrule, hop⟩
  · rw [List.nil_append, List.singleton_append, foldFrom_operand hright, hbuild]
  · rw [← hop, ← hbuild]
    exact foldFrom_operator hrule

/-- Operands are built from the left, and combined as they come. -/
theorem foldFrom_flatten {rows : List (List Pair)} {nexts : List (BinaryOp × Expr)}
    (h : List.Forall₂ (Follows source fixed) rows nexts) (left : Expr) :
    (settle left >>= fun left => foldFrom source (build source) pair fixed left rows.flatten) =
      settle (nexts.foldl (combine source) left) := by
  induction h generalizing left with
  | nil => exact bind_pure (settle left)
  | @cons pairs next rows nexts hnext hrows ih =>
      -- A number that does not fit on the left is met first, whatever follows.
      have hcombine : (settle left >>= fun left => settle next.2 >>= fun right =>
          pure (combine source left (next.1, right))) = settle (combine source left next) :=
        settle_bind_bind oversized?_binary
      rw [List.foldl_cons, ← ih, ← hcombine, List.flatten_cons]
      simp only [foldFrom_follows hnext, bind_assoc, pure_bind]

theorem builds_binaryBand {p : Parser (List Pair)} {q : Parser BinaryOp} {p' : Parser Pair}
    {q' : Parser Expr} {K : Rule → Prop}
    (hnode : ∀ start stop inner, buildNode source (build source) (.mk r start stop inner) =
      foldLeft source (build source) (.mk r start stop inner) fixed)
    (hexpectation : r.expectation = .expression)
    (hop : InStep source p q fun _ ops op _ => Operates source fixed ops op)
    (hoperand : Builds source K p' q') (hK : ¬ K .setOperator) :
    Builds source (· = r) (Pairs.binaryBand r p p') (binaryBand source q q') := by
  have hitem : InStep source
      (p >>= fun op => layout >>= fun _ => p' >>= fun right => pure (op ++ [right]))
      (q >>= fun op => layout >>= fun _ => q' >>= fun right => pure (op, right))
      fun _ pairs next _ => Follows source fixed pairs next := by
    intro cursor hcursor
    refine (hop cursor hcursor).bind fun ops op c hc hops => ?_
    refine (inStep_layout c hc).bind fun _ _ c hc _ => ?_
    refine (hoperand c hc).bind fun right e c hc ⟨hrule, hbuild⟩ => agree_pure hc ?_
    exact ⟨ops, right, rfl, hops, fun h => hK (h ▸ hrule), hbuild⟩
  intro cursor hcursor
  rw [binaryBand, ← hexpectation]
  refine agree_builds ?_
  refine (hoperand cursor hcursor).bind fun first e c hc ⟨_, hbuild⟩ => ?_
  refine (inStep_items hitem c hc).bind fun rows nexts c hc hrows => agree_pure hc ?_
  rw [build_eq, hnode, foldLeft_eq rfl, hbuild]
  exact foldFrom_flatten hrows e

theorem operates_sign (text : String) (op : BinaryOp) :
    InStep source (Pairs.sign text) (symbol text >>= fun _ => pure op)
      fun _ ops op' _ => Operates source (some op) ops op' :=
  (inStep_symbol text).map fun _ _ _ _ _ => .inl ⟨rfl, rfl⟩

end Binary

section Chain

def Links (source : String) (pair : Pair) : Link → Prop
  | .wildcard stop => pair.rule = .wildcardApply ∧ pair.stop = stop
  | .operand op right stop => joinOf pair = .ok op ∧ pair.rule ≠ .wildcardApply ∧
      pair.stop = stop ∧ ∃ operand, pair.inner = [operand] ∧ build source operand = settle right

theorem buildLink_eq {pair : Pair} {link : Link} (h : Links source pair link) (left : Expr) :
    (settle left >>= fun left => buildLink source (build source) left pair) =
      settle (extend source left link) := by
  cases link with
  | wildcard stop =>
      obtain ⟨hrule, rfl⟩ := h
      simp only [buildLink, if_pos hrule]
      exact settle_bind oversized?_unary
  | operand op right stop =>
      obtain ⟨hop, hrule, rfl, operand, hinner, hbuild⟩ := h
      simp only [buildLink, if_neg hrule, hop, nextOf, next, hinner, ok_bind, hbuild]
      exact settle_bind_bind oversized?_binary

theorem foldlM_links {pairs : List Pair} {links : List Link}
    (h : List.Forall₂ (Links source) pairs links) (left : Expr) :
    (settle left >>= pairs.foldlM (buildLink source (build source))) =
      settle (links.foldl (extend source) left) := by
  induction h generalizing left with
  | nil => exact bind_pure (settle left)
  | cons hlink hlinks ih =>
      rw [List.foldl_cons, ← ih, ← buildLink_eq hlink, bind_assoc]
      rfl

variable {p : Parser Pair} {q : Parser Expr} {K : Rule → Prop}

theorem links_operatorLink {text : String} {op : BinaryOp}
    (hjoin : ∀ start stop inner, joinOf (.mk r start stop inner) = .ok op)
    (hrule : r ≠ .wildcardApply) (h : Builds source K p q) :
    InStep source (Pairs.operatorLink r text p) (operatorLink r.expectation text op q)
      fun _ pair link _ => Links source pair link := by
  have hoperand : InStep source (Pairs.only p) q fun _ inner e _ =>
      ∃ operand, inner = [operand] ∧ build source operand = settle e :=
    fun cursor hcursor => agree_only (h cursor hcursor) fun pair _ _ hpair => ⟨pair, rfl, hpair.2⟩
  intro cursor hcursor
  refine agree_node_stop (hoperand.behind text cursor hcursor) ?_
  rintro inner e next ⟨operand, rfl, hbuild⟩
  exact ⟨hjoin _ _ _, hrule, rfl, operand, rfl, hbuild⟩

theorem links_wildcardLink :
    InStep source Pairs.wildcardLink wildcardLink fun _ pair link _ => Links source pair link := by
  intro cursor hcursor
  refine agree_node_stop (R := fun _ _ _ => True) ?_ fun _ _ _ _ => ⟨rfl, rfl⟩
  refine (inStep_symbol "[" cursor hcursor).bind fun _ _ c hc _ => ?_
  refine (inStep_layout c hc).bind fun _ _ c hc _ => ?_
  refine (inStep_symbol "_" c hc).bind fun _ _ c hc _ => ?_
  refine (inStep_layout c hc).bind fun _ _ c hc _ => ?_
  exact (inStep_symbol "]" c hc).map_left fun _ _ _ _ => trivial

theorem links_argumentLink (h : Builds source K p q) :
    InStep source (Pairs.argumentLink p) (argumentLink q) fun _ pair link _ =>
      Links source pair link := by
  have hparts := InStep.between "[" "]" h
    (J := fun inner e => ∃ operand, inner = [operand] ∧ build source operand = settle e)
    (f := fun operand => [operand]) (g := id) fun operand _ hpair => ⟨operand, rfl, hpair.2⟩
  intro cursor hcursor
  refine agree_node_stop (hparts cursor hcursor) ?_
  rintro inner e next ⟨operand, rfl, hbuild⟩
  exact ⟨rfl, nofun, rfl, operand, rfl, hbuild⟩

end Chain

end Bands

/-! ## The grammar -/

section Grammar

variable {p : Parser Pair} {q : Parser Expr} (h : Builds source (· = .expression) p q)

include h

theorem builds_tight : Builds source (· = .tight) (Pairs.tight p) (tight source q) :=
  builds_prefixed (fun _ _ _ => rfl) rfl inStep_tightOperator (builds_atom h)

theorem links_link :
    InStep source (Pairs.link p) (link source q) fun _ pair link _ => Links source pair link :=
  .orElse (links_operatorLink (fun _ _ _ => rfl) (by decide) (builds_tight h))
    (.orElse links_wildcardLink (.orElse (links_argumentLink h)
      (.orElse (links_operatorLink (fun _ _ _ => rfl) (by decide) (builds_tight h))
        (links_operatorLink (fun _ _ _ => rfl) (by decide) (builds_tight h)))))

theorem builds_chain : Builds source (· = .chain) (Pairs.chain p) (chain source q) := by
  intro cursor hcursor
  refine agree_builds ?_
  refine (builds_tight h cursor hcursor).bind fun first e c hc ⟨_, hbuild⟩ => ?_
  refine (inStep_items (links_link h) c hc).bind fun pairs links c hc hlinks => agree_pure hc ?_
  rw [build_eq]
  change buildChain source _ _ = _
  rw [buildChain_eq rfl, hbuild]
  exact foldlM_links hlinks e

theorem builds_aggregate :
    Builds source (· = .aggregate) (Pairs.aggregate p) (aggregate source q) :=
  builds_prefixed (fun _ _ _ => rfl) rfl inStep_aggregateOperator
    ((builds_chain h).imp fun _ hrule => by simp [hrule])

theorem builds_multiplication :
    Builds source (· = .multiplication) (Pairs.multiplication p) (multiplication source q) :=
  builds_binaryBand (fun _ _ _ => rfl) rfl (operates_sign "*" _) (builds_aggregate h) (by decide)

theorem builds_addition : Builds source (· = .addition) (Pairs.addition p) (addition source q) :=
  builds_binaryBand (fun _ _ _ => rfl) rfl (operates_sign "+" _) (builds_multiplication h)
    (by decide)

theorem builds_comparison :
    Builds source (· = .comparison) (Pairs.comparison p) (comparison source q) := by
  have hright : InStep source
      (Pairs.comparisonOperator >>= fun op => layout >>= fun _ => Pairs.addition p >>= fun right =>
        pure [op, right])
      (comparisonOperator >>= fun op => layout >>= fun _ => addition source q >>= fun right =>
        pure (op, right))
      fun _ pairs next _ => ∃ operator right comparison, pairs = [operator, right] ∧
        next.1 = .compare comparison ∧ compareOf source operator = .ok comparison ∧
        build source right = settle next.2 := by
    intro cursor hcursor
    refine (inStep_comparisonOperator cursor hcursor).bind fun operator op c hc hop => ?_
    obtain ⟨comparison, rfl, hof⟩ := hop
    refine (inStep_layout c hc).bind fun _ _ c hc _ => ?_
    refine (builds_addition h c hc).bind fun right e c hc ⟨_, hbuild⟩ => agree_pure hc ?_
    exact ⟨operator, right, comparison, rfl, rfl, hof, hbuild⟩
  intro cursor hcursor
  refine agree_builds ?_
  refine (builds_addition h cursor hcursor).bind fun left e c hc ⟨_, hleft⟩ => ?_
  refine (inStep_layout c hc).bind fun _ _ c hc _ => ?_
  refine (hright.maybe c hc).bind fun pairs? next? c hc hnext => agree_pure hc ?_
  rw [build_eq]
  change buildComparison source _ _ = _
  rcases hnext with ⟨_, ⟨op, e'⟩, rfl, rfl, operator, right, comparison, rfl, rfl, hof, hbuild⟩ |
    ⟨rfl, rfl⟩
  · rw [Option.getD_some, buildComparison_operator rfl hof, hleft, hbuild]
    exact settle_bind_bind oversized?_binary
  · rw [Option.getD_none, buildComparison_operand rfl, hleft]

theorem builds_quantified :
    Builds source (· = .quantified) (Pairs.quantified p) (quantified source q) :=
  builds_prefixed (fun _ _ _ => rfl) rfl inStep_quantifier
    ((builds_comparison h).imp fun _ hrule => by simp [hrule])

theorem builds_product : Builds source (· = .product) (Pairs.product p) (product source q) :=
  builds_binaryBand (fun _ _ _ => rfl) rfl (operates_sign "," _) (builds_quantified h) (by decide)

theorem builds_intersection :
    Builds source (· = .intersection) (Pairs.intersection p) (intersection source q) := by
  have hop : InStep source (Pairs.only Pairs.setOperator) setOperator fun _ ops op _ =>
      Operates source none ops op :=
    fun cursor hcursor => agree_only (inStep_setOperator cursor hcursor)
      fun operator _ _ hop => .inr ⟨operator, rfl, hop⟩
  exact builds_binaryBand (fun _ _ _ => rfl) rfl hop (builds_product h) (by decide)

theorem builds_union : Builds source (· = .union) (Pairs.union p) (union source q) :=
  builds_binaryBand (fun _ _ _ => rfl) rfl (operates_sign ";" _) (builds_intersection h)
    (by decide)

theorem builds_letBinding :
    Builds source (· = .letBinding) (Pairs.letBinding p) (letBinding source q) := by
  intro cursor hcursor
  have hparts : Agree source (fun inner parts _ => ∀ start stop,
        build source (.mk .letBinding start stop inner) =
          settle (.letIn parts.1 parts.2.1 parts.2.2 ⟨source, start, stop⟩))
      ((do
        let word ← Pairs.keyword .binding
        layout
        let name ← Pairs.identifier
        layout
        symbol "="
        layout
        let value ← Pairs.union p
        layout
        symbol "|"
        layout
        let body ← p
        return [word, name, value, body]) cursor)
      ((do
        keyword .binding
        layout
        let name ← ident
        layout
        symbol "="
        layout
        let value ← union source q
        layout
        symbol "|"
        layout
        let body ← q
        return (name, value, body)) cursor) := by
    refine (inStep_keyword .binding cursor hcursor).bind fun word _ c hc ⟨hword, _⟩ => ?_
    refine (inStep_layout c hc).bind fun _ _ c hc _ => ?_
    refine (inStep_identifier c hc).bind fun name x c hc ⟨hname, htext⟩ => ?_
    refine (inStep_layout c hc).bind fun _ _ c hc _ => ?_
    refine (inStep_symbol "=" c hc).bind fun _ _ c hc _ => ?_
    refine (inStep_layout c hc).bind fun _ _ c hc _ => ?_
    refine (builds_union h c hc).bind fun value v c hc ⟨hvalue, hv⟩ => ?_
    refine (inStep_layout c hc).bind fun _ _ c hc _ => ?_
    refine (inStep_symbol "|" c hc).bind fun _ _ c hc _ => ?_
    refine (inStep_layout c hc).bind fun _ _ c hc _ => ?_
    refine (h c hc).bind fun body b c hc ⟨hbody, hb⟩ => agree_pure hc fun start stop => ?_
    rw [build_eq]
    change buildLet source _ _ = _
    rw [buildLet_eq rfl (by rw [hword]; rfl) (by rw [hname]; rfl) hvalue hbody, hv, hb, htext]
    exact settle_bind_bind oversized?_letIn
  exact agree_node_span hparts fun inner parts next hbuild => ⟨rfl, hbuild _ _⟩

omit h in
theorem inStep_boundNames :
    InStep source Pairs.boundNames boundNames fun _ pair names _ =>
      pair.rule = .boundNames ∧ pair.inner.map (·.text source) = names := by
  have hname : InStep source Pairs.identifier ident fun _ pair x _ => pair.text source = x :=
    inStep_identifier.imp fun _ _ _ _ hpair => hpair.2
  intro cursor hcursor
  refine agree_node (R := fun inner names _ => inner.map (·.text source) = names) ?_
    fun inner names next hnames => ⟨rfl, hnames⟩
  refine (hname cursor hcursor).bind fun first x c hc hfirst => ?_
  refine (inStep_items (hname.behind ",") c hc).bind fun rest xs c hc hrest => agree_pure hc ?_
  have hmap : List.Forall₂ Eq (rest.map (·.text source)) xs := List.forall₂_map_left_iff.mpr hrest
  rw [List.forall₂_eq_eq_eq] at hmap
  rw [List.map_cons, hfirst, hmap]

theorem inStep_comprehensionBody (style : Style) (text : String) :
    InStep source (Pairs.comprehensionBody (bodyRule style) text p)
      (comprehensionBody (bodyRule style).expectation text style q) fun _ pair tail _ =>
        pair.rule = bodyRule tail.1 ∧
          ∃ body, pair.inner = [body] ∧ build source body = settle tail.2 := by
  have hbody : InStep source (Pairs.only p) (q >>= fun e => pure (style, e)) fun _ inner tail _ =>
      tail.1 = style ∧ ∃ body, inner = [body] ∧ build source body = settle tail.2 :=
    h.map fun _ pair e _ hpair => ⟨rfl, pair, rfl, hpair.2⟩
  intro cursor hcursor
  refine agree_node (hbody.behind text cursor hcursor) ?_
  rintro inner tail next ⟨rfl, body, rfl, hbuild⟩
  exact ⟨rfl, body, rfl, hbuild⟩

theorem builds_comprehension :
    Builds source (· = .comprehension) (Pairs.comprehension p) (comprehension source q) := by
  have hcolon : InStep source (Pairs.leaf .colon (scanNotBefore ':' '>'))
      (lexeme .colon (scanNotBefore ':' '>')) fun start pair taken next =>
        pair = .mk .colon start.offset next.offset [] ∧ taken = [':'] ∧
          pair.text source = String.ofList taken :=
    inStep_leaf fun _ _ _ => eq_of_scanNotBefore
  intro cursor hcursor
  have hparts : Agree source (fun inner parts _ => ∀ start stop,
        build source (.mk .comprehension start stop inner) =
          settle (.comprehension parts.2.2.1 parts.1 parts.2.1 parts.2.2.2 ⟨source, start, stop⟩))
      ((do
        let names ← Pairs.boundNames
        layout
        let colon ← Pairs.leaf .colon (scanNotBefore ':' '>')
        layout
        let constraint ← Pairs.union p
        layout
        let body ← Pairs.comprehensionBody .keepBody "|" p <|>
          Pairs.comprehensionBody .imageBody "->" p
        return [names, colon, constraint, body]) cursor)
      ((do
        let names ← boundNames
        layout
        let _ ← lexeme .colon (scanNotBefore ':' '>')
        layout
        let constraint ← union source q
        layout
        let tail ← comprehensionBody .bar "|" .keep q <|> comprehensionBody .arrow "->" .image q
        return (names, constraint, tail)) cursor) := by
    refine (inStep_boundNames cursor hcursor).bind fun names xs c hc ⟨hnames, hxs⟩ => ?_
    refine (inStep_layout c hc).bind fun _ _ c hc _ => ?_
    refine (hcolon c hc).bind fun colon _ c hc ⟨hcolon, _⟩ => ?_
    refine (inStep_layout c hc).bind fun _ _ c hc _ => ?_
    refine (builds_union h c hc).bind fun constraint e c hc ⟨hconstraint, he⟩ => ?_
    refine (inStep_layout c hc).bind fun _ _ c hc _ => ?_
    have htail := (inStep_comprehensionBody h .keep "|").orElse
      (inStep_comprehensionBody h .image "->")
    refine (htail c hc).bind fun tail parts c hc hparts => agree_pure hc fun start stop => ?_
    obtain ⟨hrule, body, hbody, hb⟩ := hparts
    rw [build_eq]
    change buildComprehension source _ _ = _
    rw [buildComprehension_eq rfl hnames (by rw [hcolon]; rfl) hconstraint hrule hbody, he, hb, hxs]
    exact settle_bind_bind oversized?_comprehension
  exact agree_node_span hparts fun inner parts next hbuild => ⟨rfl, hbuild _ _⟩

end Grammar

theorem builds_expression (fuel : Nat) :
    Builds source (· = .expression) (Pairs.expression fuel) (expression source fuel) := by
  induction fuel with
  | zero => exact fun _ _ => .fails []
  | succ fuel ih =>
      have hany {r : Rule} {p : Parser Pair} {q : Parser Expr} (h : Builds source (· = r) p q) :
          Builds source (fun _ => True) p q :=
        h.imp fun _ _ => trivial
      have hinner := (hany (builds_letBinding ih)).orElse
        ((hany (builds_comprehension ih)).orElse (hany (builds_union ih)))
      intro cursor hcursor
      refine agree_builds (agree_only (hinner cursor hcursor) fun pair e next ⟨_, hbuild⟩ => ?_)
      -- An expression is a fold over one pair, so the missing operator is never asked for.
      rw [build_eq]
      change foldLeft source _ _ none = _
      rw [foldLeft_eq rfl, hbuild]
      exact bind_pure (settle e)

theorem inStep_endOfInput :
    InStep source Pairs.endOfInput endOfInput fun _ pair _ _ => pair.rule = .endOfInput := by
  intro cursor hcursor
  have hparts : Agree source (fun (_ : List Pair) (_ : Unit) _ => True)
      (if cursor.rest.isEmpty then succeed [] cursor else fail cursor)
      (if cursor.rest.isEmpty then succeed () cursor else fail cursor) := by
    split
    · exact .reads [] hcursor trivial
    · exact .fails []
  exact agree_node hparts fun _ _ _ _ => rfl

/-- What is built from the pairs of a query is what is read without them. -/
theorem inStep_query :
    InStep source (Pairs.query source) (query source) fun _ pair e _ =>
      buildQuery source [pair] = settle e := by
  intro cursor hcursor
  refine agree_node (R := fun inner e _ => ∃ pair last : Pair, inner = [pair, last] ∧
    pair.rule = .expression ∧ build source pair = settle e) ?_ ?_
  · refine (inStep_layout cursor hcursor).bind fun _ _ c hc _ => ?_
    refine (builds_expression (source.length + 1) c hc).bind fun pair e c hc ⟨hrule, hbuild⟩ => ?_
    refine (inStep_layout c hc).bind fun _ _ c hc _ => ?_
    refine (inStep_endOfInput c hc).bind fun last _ c hc _ => agree_pure hc ?_
    exact ⟨pair, last, rfl, hrule, hbuild⟩
  · rintro _ e next ⟨pair, last, rfl, hrule, hbuild⟩
    simp [buildQuery, Grammar.next, ok_bind, Pair.inner, hrule, hbuild]

theorem agree_query (source : String) :
    Agree source (fun pair e _ => buildQuery source [pair] = settle e)
      (Pairs.query source ⟨source.toList, 0⟩) (query source ⟨source.toList, 0⟩) :=
  inStep_query ⟨source.toList, 0⟩ (within_start source)

end RelQuery.Grammar

namespace RelQuery

open Grammar

theorem parse_of_pairs {source : String} {pair : Pair} {next : Cursor}
    (h : (Pairs.query source ⟨source.toList, 0⟩).value = some (pair, next)) :
    Expr.parse source = (buildQuery source [pair]).mapError (.ofMalformed source) := by
  unfold Expr.parse
  generalize Pairs.query source ⟨source.toList, 0⟩ = x at h ⊢
  obtain ⟨value, visits⟩ := x
  cases h
  rfl

/-- A source is read as it is without pairs, and is refused for the first number that does not
fit. -/
theorem parse_eq (source : String) :
    Expr.parse source =
      match (query source ⟨source.toList, 0⟩).value with
      | none => .error (.ofAttempts source
          (Attempts.none.recordAll (query source ⟨source.toList, 0⟩).visits))
      | some (e, _) => (settle e).mapError (.ofMalformed source) := by
  have h := agree_query source
  unfold Expr.parse
  generalize Pairs.query source ⟨source.toList, 0⟩ = x at h ⊢
  generalize query source ⟨source.toList, 0⟩ = y at h ⊢
  cases h with
  | fails visits => rfl
  | reads visits hnext hbuild =>
      exact congrArg (Except.mapError (SyntaxError.ofMalformed source)) hbuild

theorem parse_eq_ok_iff {source : String} {e : Expr} :
    Expr.parse source = .ok e ↔
      (∃ next, (query source ⟨source.toList, 0⟩).value = some (e, next)) ∧
        e.nodes.any Expr.isOversized = false := by
  rw [parse_eq]
  cases hrun : (query source ⟨source.toList, 0⟩).value with
  | none => simp
  | some result =>
      obtain ⟨found, next⟩ := result
      have hok : (settle found).mapError (SyntaxError.ofMalformed source) = .ok e ↔
          settle found = .ok e := by
        cases settle found <;> simp [Except.mapError]
      rw [hok, settle_eq_ok_iff]
      simp

end RelQuery
