import RelQuery.Proofs.Grammar.Rows

/-!
# Reading the other bands

The bands of operators between two operands and in front of an operand are rows.  Here are the bands
that are more than that: comparisons, which do not associate; chains, where brackets stand for two
operators; atoms; and bindings, whose variables start like a product of names.  With all bands at
hand, every derivation is read as what it derives.
-/

namespace RelQuery.Grammar

open RelQuery.Grammar.Parser

variable {source : String} {b : Band} {e : Expr} {ts us : List Token}

/-! ## Comparisons -/

theorem Parser.Reads.maybe {α : Type} {p : Parser α} {P Q : Cursor → Prop} {post : α → Prop}
    (h : Reads p P Q post) : Reads (maybe p) P Q fun found => ∃ x, found = some x ∧ post x := by
  have hread : Reads (p >>= fun value => pure (some value)) P Q
      fun found => ∃ x, found = some x ∧ post x :=
    h.bind fun value hvalue => reads_pure ⟨value, rfl, hvalue⟩
  exact hread.orElse

theorem Parser.Refuses.maybe {α : Type} {p : Parser α} {P : Cursor → Prop} (h : Refuses p P) :
    Reads (maybe p) P P (· = none) := by
  have hrefuses : Refuses (p >>= fun value => pure (some value)) P := h.bind
  exact hrefuses.orElse_reads (reads_pure rfl)

/-- A text that goes on with an equality sign goes on with a token that starts so. -/
theorem head?_of_equal {rest v : List Char} (h : Written us rest v) (hrest : rest.head? = some '=') :
    us.head? = some (.sign .equal) ∨ us.head? = some (.sign .atMost) := by
  have hlayout : ∀ {w cs : List Char} {stop : Bool}, Layout false stop w →
      (w ++ cs).head? = some '=' → w = [] := by
    intro w cs stop hw hhead
    cases hw with
    | nil => rfl
    | blank hc _ =>
        cases hhead
        cases hc
    | opening _ => cases hhead
  cases h with
  | layout hw _ =>
      rw [← List.append_nil rest] at hrest
      rw [hlayout hw hrest] at hrest
      cases hrest
  | token hw ht _ =>
      rw [hlayout hw hrest] at hrest
      obtain ⟨c, ds, rfl, hleads⟩ := ht.leads
      cases hrest
      obtain ⟨s, rfl⟩ := hleads.sign (by decide)
      rcases hleads with hhead | ⟨rfl, -⟩
      · cases s <;> cases hhead
        exact .inl rfl
      · exact .inr rfl
  | binding hw _ _ _ _ _ =>
      rw [hlayout hw hrest] at hrest
      cases hrest

theorem scanComparison_append {comparison : Comparison} {cs rest : List Char}
    (h : (Token.sign comparison.sign).Spelled cs rest) (hrest : rest.head? ≠ some '=') :
    scanComparison (cs ++ rest) = some (cs, rest) ∧ comparisonOf cs = comparison := by
  have hnext : ∀ d, rest.head? = some d → cs ++ [d] ∉ longSigns ∧ d ≠ '=' :=
    fun d hd => ⟨h.2 d hd, fun heq => hrest (heq ▸ hd)⟩
  obtain ⟨rfl | ⟨hmost, rfl⟩, -⟩ := h
  · refine ⟨?_, by cases comparison <;> rfl⟩
    cases rest with
    | nil => cases comparison <;> rfl
    | cons d rest =>
        obtain ⟨hlong, hequal⟩ := hnext d rfl
        cases comparison <;>
          simp_all [Comparison.sign, Sign.chars, longSigns, scanComparison]
  · cases comparison <;> cases hmost
    exact ⟨rfl, rfl⟩

theorem reads_comparisonOperator (comparison : Comparison)
    (hequal : us.head? ≠ some (.sign .equal)) (hmost : us.head? ≠ some (.sign .atMost)) :
    Reads comparisonOperator (At (.sign comparison.sign :: us)) (Past us)
      (· = .compare comparison) := by
  have hscan : Reads (lexeme .comparisonOperator scanComparison)
      (At (.sign comparison.sign :: us)) (Past us) (comparisonOf · = comparison) := by
    refine (reads_scanning (by simp) fun cs rest hspelled hwritten => ?_).rule _
    refine scanComparison_append hspelled fun hrest => ?_
    rcases head?_of_equal hwritten hrest with hhead | hhead
    · exact hequal hhead
    · exact hmost hhead
  refine hscan.bind fun found hfound => reads_pure ?_
  rw [hfound]

theorem scanComparison_eq_none {c : Char} (hc : isSignChar c = false) (cs : List Char) :
    scanComparison (c :: cs) = none := by
  have hne : c ≠ '<' ∧ c ≠ '>' ∧ c ≠ '=' ∧ c ≠ '!' := by
    refine ⟨?_, ?_, ?_, ?_⟩ <;> rintro rfl <;> cases hc
  unfold scanComparison
  split <;> simp_all

theorem refuses_comparisonOperator (h : Follow .comparison us) :
    Refuses comparisonOperator (At us) := by
  refine Refuses.bind ((refuses_scanning rfl fun t ht cs rest hspelled => ?_).rule _)
  obtain ⟨c, ds, rfl, hleads⟩ := hspelled.leads
  cases hc : isSignChar c with
  | false => exact scanComparison_eq_none hc _
  | true =>
      obtain ⟨s, rfl⟩ := hleads.sign hc
      have hne : (Token.sign s).continues? ≠ some .comparison :=
        fun hs => Nat.lt_irrefl _ (h _ _ ht hs)
      rcases hspelled.1 with hchars | ⟨rfl, -⟩
      · rw [hchars]
        cases s <;> first | rfl | exact absurd rfl hne
      · exact absurd rfl hne

theorem reads_comparison_operand {P : Cursor → Prop} {post : Expr → Prop} {fuel : Nat}
    (h : Reads (bandParser source fuel .addition) P (Past us) post)
    (hfollow : Follow .comparison us) :
    Reads (bandParser source fuel .comparison) P (Past us) post := by
  refine Reads.rule ?_ .expression
  refine h.bind fun found hfound => reads_layout.bind fun _ _ => ?_
  refine (refuses_comparisonOperator hfollow).bind.maybe.bind ?_
  rintro _ rfl
  exact fun cursor hcursor => ⟨found, cursor, rfl, hcursor.1, hfound⟩

theorem readsAs_comparison {comparison : Comparison} {left right : Expr} {span : Span}
    (hleft : ReadsAs source .addition left ts) (hright : ReadsAs source .addition right us)
    (hstarts : ∀ t, us.head? = some t → Starts .addition t) (hne : us ≠ []) :
    ReadsAs source .comparison (.binary (.compare comparison) left right span)
      (ts ++ .sign comparison.sign :: us) := by
  intro fuel vs hfuel hfollow
  rw [List.length_append, List.length_cons] at hfuel
  rw [List.append_assoc]
  have hsign : Follow .addition (.sign comparison.sign :: (us ++ vs)) := by
    intro t c ht hc
    cases ht
    rw [show (Token.sign comparison.sign).continues? = some .comparison from
      continues?_sign (.compare comparison)] at hc
    cases hc
    decide
  have hhead : ∀ s, (us ++ vs).head? = some (.sign s) → Starts .addition (.sign s) := by
    intro s hs
    rw [List.head?_append_of_ne_nil _ hne] at hs
    exact hstarts _ hs
  have hnext : Reads (do
      let op ← comparisonOperator
      layout
      let right ← addition source (expression source fuel)
      return (op, right))
      (At (.sign comparison.sign :: (us ++ vs))) (Past vs)
      fun next => next.1 = .compare comparison ∧ next.2.strip = right.strip := by
    refine (reads_comparisonOperator comparison ?_ ?_).bind fun op hop => ?_
    · exact fun hs => (hhead _ hs).1 rfl
    · exact fun hs => (hhead _ hs).2.1 rfl
    refine reads_layout.bind fun _ _ => ?_
    refine (hright fuel vs (by omega) (hfollow.tighter (by decide))).bind fun value hvalue => ?_
    exact reads_pure ⟨hop, hvalue⟩
  refine Reads.rule ?_ .expression
  refine (hleft fuel _ (by omega) hsign).bind fun found hfound => reads_layout.bind fun _ _ => ?_
  refine hnext.maybe.bind ?_
  rintro _ ⟨⟨op, value⟩, rfl, rfl, hvalue⟩
  apply reads_pure
  simp only [combine, Expr.strip, hvalue, hfound]

/-! ## Chains -/

theorem reads_wildcard : Reads (symbol "_") (At (.name wildcard :: us)) (Past us) fun _ => True :=
  reads_symbol (by simp) fun _ _ hspelled => hspelled.2.1

/-- Only a bare wildcard stands between brackets that drop a column. -/
theorem refuses_bareWildcard (h : ∀ vs, ts ≠ .name wildcard :: .sign .closeBracket :: vs) :
    Refuses (symbol "_" >>= fun _ => layout >>= fun _ => symbol "]") (At ts) := by
  intro cursor hcursor
  cases ts with
  | nil =>
      have hstop : Refuses (symbol "_") (At []) := refuses_symbol rfl (by simp)
      exact hstop.bind cursor hcursor
  | cons t ts =>
      obtain ⟨cs, rest, hrest, hspelled, -⟩ := hcursor.exists_spelled
      obtain ⟨c, ds, rfl, hleads⟩ := hspelled.leads
      by_cases hc : c = '_'
      · subst hc
        obtain ⟨x, rfl⟩ : ∃ x, t = .name x := by
          rcases hleads.word (by decide) with hname | ⟨word, rfl⟩
          · exact hname
          · rcases hleads with hhead | ⟨-, heq⟩
            · cases word <;> cases hhead
            · cases heq
        obtain ⟨hname, hchars, -⟩ := hspelled
        cases ds with
        | nil =>
            obtain rfl : x = wildcard := String.toList_inj.mp hchars.symm
            have hclose : ts.head? ≠ some (.sign .closeBracket) := by
              intro hhead
              obtain ⟨rest, rfl⟩ := List.head?_eq_some_iff.mp hhead
              exact h rest rfl
            have hstop : Refuses (symbol "]") (At ts) := refuses_sign rfl (by decide) hclose
            exact (reads_wildcard.bind_refuses fun _ _ =>
              reads_layout.bind_refuses fun _ _ => hstop) cursor hcursor
        | cons d ds =>
            -- The rest of the name stands where the bracket should.
            have hd : Text.isNameChar d = true := hname.isNameChar (by rw [← hchars]; simp)
            have hbracket : d ≠ ']' := by
              rintro rfl
              simp [Text.isNameChar] at hd
            exact ((reads_symbol_facing "_").bind_refuses fun _ _ =>
              (reads_layout_facing .nil (solid_of_isNameChar hd)).bind_refuses fun _ _ =>
                refuses_symbol_facing rfl hbracket) cursor hrest
      · exact (refuses_symbol_facing rfl hc).bind cursor hrest

theorem refuses_wildcardLink
    (h : ∀ vs, ts ≠ .name wildcard :: .sign .closeBracket :: vs) :
    Refuses wildcardLink (At (.sign .openBracket :: ts)) := by
  refine Refuses.bind (Refuses.rule ?_ .bracket)
  exact (reads_sign rfl (by decide)).bind_refuses fun _ _ => reads_layout.bind_refuses fun _ _ =>
    refuses_bareWildcard h

theorem reads_operatorLink {expectation : Expectation} {text : String} {op : BinaryOp}
    {operand : Parser Expr} {right : Expr} (htext : text.toList = op.sign.chars)
    (hop : op.sign ≠ .atMost)
    (h : Reads operand (At ts) (Past us) fun found => found.strip = right.strip) :
    Reads (operatorLink expectation text op operand) (At (.sign op.sign :: ts)) (Past us)
      fun found => ∃ value stop, found = .operand op value stop ∧ value.strip = right.strip := by
  have hread : Reads (symbol text >>= fun _ => layout >>= fun _ => operand)
      (At (.sign op.sign :: ts)) (Past us) fun found => found.strip = right.strip :=
    (reads_sign htext hop).bind fun _ _ => reads_layout.bind fun _ _ => h
  refine (hread.rule expectation).bind fun value hvalue => reads_here.bind fun stop _ => ?_
  exact reads_pure ⟨value, stop, rfl, hvalue⟩

theorem refuses_operatorLink {expectation : Expectation} {text : String} {op : BinaryOp}
    {operand : Parser Expr} {s : Sign} (htext : text.toList = s.chars)
    (hs : s ∉ ambiguousSigns) (h : us.head? ≠ some (.sign s)) :
    Refuses (operatorLink expectation text op operand) (At us) := by
  refine Refuses.bind (Refuses.rule ?_ expectation)
  exact (refuses_sign htext hs h).bind

theorem reads_wildcardLink :
    Reads wildcardLink (At (ignoredColumn ++ us)) (Past us)
      fun found => ∃ stop, found = .wildcard stop := by
  have hread : Reads (do symbol "["; layout; symbol "_"; layout; symbol "]")
      (At (ignoredColumn ++ us)) (Past us) fun _ => True :=
    (reads_sign rfl (by decide)).bind fun _ _ => reads_layout.bind fun _ _ =>
      reads_wildcard.bind fun _ _ => reads_layout.bind fun _ _ => reads_sign rfl (by decide)
  refine (hread.rule .bracket).bind fun _ _ => reads_here.bind fun stop _ => ?_
  exact reads_pure ⟨stop, rfl⟩

theorem reads_argumentLink {expr : Parser Expr} {right : Expr}
    (h : Reads expr (At ts) (Past (.sign .closeBracket :: us))
      fun found => found.strip = right.strip) :
    Reads (argumentLink expr) (At (.sign .openBracket :: ts)) (Past us) fun found =>
      ∃ value stop, found = .operand .apply value stop ∧ value.strip = right.strip := by
  have hread : Reads (do symbol "["; layout; let inner ← expr; layout; symbol "]"; return inner)
      (At (.sign .openBracket :: ts)) (Past us) fun found => found.strip = right.strip :=
    (reads_sign rfl (by decide)).bind fun _ _ => reads_layout.bind fun _ _ => h.bind fun _ hinner =>
      reads_layout.bind fun _ _ => (reads_sign rfl (by decide)).bind fun _ _ => reads_pure hinner
  refine (hread.rule .bracket).bind fun value hvalue => reads_here.bind fun stop _ => ?_
  exact reads_pure ⟨value, stop, rfl, hvalue⟩

theorem refuses_brackets {expr : Parser Expr} (h : us.head? ≠ some (.sign .openBracket)) :
    Refuses wildcardLink (At us) ∧ Refuses (argumentLink expr) (At us) := by
  have hbracket : Refuses (symbol "[") (At us) := refuses_sign rfl (by decide) h
  exact ⟨Refuses.bind (Refuses.rule hbracket.bind .bracket),
    Refuses.bind (Refuses.rule hbracket.bind .bracket)⟩

theorem refuses_link {expr : Parser Expr} (h : Follow .chain us) :
    Refuses (link source expr) (At us) := by
  have hbrackets : Refuses wildcardLink (At us) ∧ Refuses (argumentLink expr) (At us) :=
    refuses_brackets (head?_ne_of_follow h rfl)
  refine Refuses.orElse (refuses_operatorLink (s := .dot) rfl (by decide) ?_) ?_
  · exact head?_ne_of_follow h rfl
  refine hbrackets.1.orElse (hbrackets.2.orElse (Refuses.orElse ?_ ?_))
  · exact refuses_operatorLink (s := .domain) rfl (by decide) (head?_ne_of_follow h rfl)
  · exact refuses_operatorLink (s := .range) rfl (by decide) (head?_ne_of_follow h rfl)

/-- What a step of a chain is read as. -/
def ReadAs : Step → Link → Prop
  | .operand op right, found =>
    ∃ value stop, found = .operand op value stop ∧ value.strip = right.strip
  | .ignore, found => ∃ stop, found = .wildcard stop

theorem strip_extend {step : Step} {found : Link} (h : ReadAs step found) (left : Expr) :
    (extend source left found).strip = step.graft left.strip := by
  cases step with
  | ignore =>
      obtain ⟨stop, rfl⟩ := h
      rfl
  | operand op right =>
      obtain ⟨value, stop, rfl, hvalue⟩ := h
      rw [extend, Expr.strip, hvalue, Step.graft]

theorem reads_link {step : Step} {fuel : Nat} (hstep : StepAs source .chain step ts)
    (hfuel : ts.length ≤ fuel) (hus : Follow .tight us) :
    Reads (link source (expression source fuel)) (At (ts ++ us)) (Past us) (ReadAs step) := by
  have hdot : ∀ {s : Sign} {vs : List Token}, s ≠ .dot →
      Refuses (operatorLink .dot "." .join (tight source (expression source fuel)))
        (At (.sign s :: vs)) :=
    fun hs => refuses_operatorLink (s := .dot) rfl (by decide) (by simpa using hs)
  have hbrackets : ∀ {s : Sign} {vs : List Token}, s ≠ .openBracket →
      Refuses wildcardLink (At (.sign s :: vs)) ∧
        Refuses (argumentLink (expression source fuel)) (At (.sign s :: vs)) :=
    fun hs => refuses_brackets (by simpa using hs)
  cases hstep with
  | ignore => exact (hdot (by decide)).orElse_reads reads_wildcardLink.orElse
  | @apply right ts _ hright hne =>
      rw [List.length_cons, List.length_append] at hfuel
      obtain ⟨fuel, rfl⟩ : ∃ n, fuel = n + 1 := ⟨fuel - 1, by omega⟩
      have hread := hright fuel (.sign .closeBracket :: us) (by omega) (follow_of_none rfl)
      rw [List.cons_append, List.append_assoc]
      refine (hdot (by decide)).orElse_reads ((refuses_wildcardLink (hne us)).orElse_reads ?_)
      exact (reads_argumentLink hread).orElse
  | @operand op right ts hop happly hright =>
      rw [List.length_cons] at hfuel
      have hread : Reads (tight source (expression source fuel)) (At (ts ++ us)) (Past us)
          fun found => found.strip = right.strip := hright fuel us (by omega) hus
      cases op with
      | join => exact (reads_operatorLink rfl (by decide) hread).orElse
      | apply => exact (happly rfl).elim
      | domainRestrict =>
          obtain ⟨hwildcard, hbracket⟩ := hbrackets (s := .domain) (by decide)
          refine (hdot (by decide)).orElse_reads (hwildcard.orElse_reads (hbracket.orElse_reads ?_))
          exact (reads_operatorLink rfl (by decide) hread).orElse
      | rangeRestrict =>
          obtain ⟨hwildcard, hbracket⟩ := hbrackets (s := .range) (by decide)
          refine (hdot (by decide)).orElse_reads (hwildcard.orElse_reads (hbracket.orElse_reads ?_))
          have hdomain : Refuses (operatorLink .domainRestriction "<:" .domainRestrict
              (tight source (expression source fuel))) (At (.sign .range :: (ts ++ us))) :=
            refuses_operatorLink (s := .domain) rfl (by decide) (by simp)
          exact hdomain.orElse_reads (reads_operatorLink rfl (by decide) hread)
      | set operation => cases operation <;> cases hop
      | arith operation => cases operation <;> cases hop
      | _ => cases hop

theorem readsAs_chain (row : RowAs source .chain e ts) : ReadsAs source .chain e ts := by
  intro fuel us hfuel hfollow
  rw [row.tokens_eq, List.length_append] at hfuel
  refine Reads.rule ?_ .expression
  refine row.reads (R := ReadAs) (by decide) hfollow ?_ ?_ (refuses_link hfollow) ?_
  · exact fun vs hvs => row.readsAs_first fuel vs (by omega) hvs
  · intro step hstep vs hvs
    have hlength := length_step_le hstep
    exact reads_link (row.stepAs step hstep) (by omega) hvs
  · exact fun step found left hfound => strip_extend hfound left

/-! ## Atoms -/

section Atom

variable {expr : Parser Expr}

theorem reads_variableName {x : String} :
    Reads (variableName source) (At (.name x :: us)) (Past us)
      fun found => ∃ span, found = .name x span := by
  refine reads_here.bind fun start _ => reads_ident.bind fun text htext => ?_
  exact reads_here.bind fun stop _ => reads_pure ⟨⟨source, start, stop⟩, by rw [htext]⟩

theorem refuses_property {t : Token} (ht : t = .sign .openParen ∨ ∃ x, t = .name x) :
    Refuses (property source) (At (t :: ts)) := by
  have hless : Refuses (symbol "<") (At (t :: ts)) := by
    refine refuses_symbol (c := '<') rfl fun t' ht' => ?_
    cases ht'
    rcases ht with rfl | ⟨x, rfl⟩
    · decide
    · simp [Token.Leads, Text.isNameStart]
  exact reads_here.bind_refuses fun _ _ => Refuses.bind (Refuses.rule hless.bind .property)

/-- What starts with a sign or a name is no constant and no formula. -/
theorem reads_atom_of_later {t : Token} {post : Expr → Prop}
    (ht : (∃ s, t = .sign s) ∨ ∃ x, t = .name x)
    (h : Reads (property source <|> parenthesised expr <|> variableName source) (At (t :: ts))
      (Past us) post) :
    Reads (atom source expr) (At (t :: ts)) (Past us) post := by
  have hnumber : Refuses (number source) (At (t :: ts)) := by
    refine reads_here.bind_refuses fun _ _ => (refuses_number ?_).bind
    rcases ht with ⟨s, rfl⟩ | ⟨x, rfl⟩ <;> simp
  have hstring : Refuses (string source) (At (t :: ts)) := by
    refine reads_here.bind_refuses fun _ _ => (refuses_string ?_).bind
    rcases ht with ⟨s, rfl⟩ | ⟨x, rfl⟩ <;> simp
  have hformula : Refuses (formula source) (At (t :: ts)) := by
    refine reads_here.bind_refuses fun _ _ => (refuses_formula ?_).bind
    rcases ht with ⟨s, rfl⟩ | ⟨x, rfl⟩ <;> simp
  exact hnumber.orElse_reads (hstring.orElse_reads (hformula.orElse_reads h))

theorem readsAs_paren (h : ReadsAs source .binding e ts) :
    ReadsAs source .atom e (.sign .openParen :: (ts ++ [.sign .closeParen])) := by
  intro fuel us hfuel _
  rw [List.length_cons, List.length_append] at hfuel
  obtain ⟨fuel, rfl⟩ : ∃ n, fuel = n + 1 := ⟨fuel - 1, by omega⟩
  have hread := h fuel (.sign .closeParen :: us) (by omega) (follow_of_none rfl)
  rw [List.cons_append, List.append_assoc]
  refine reads_atom_of_later (.inl ⟨_, rfl⟩) ?_
  refine (refuses_property (.inl rfl)).orElse_reads (Reads.orElse ?_)
  refine (reads_sign rfl (by decide)).bind fun _ _ => reads_layout.bind fun _ _ => ?_
  refine Reads.bind hread fun found hfound => reads_layout.bind fun _ _ => ?_
  exact (reads_sign rfl (by decide)).bind fun _ _ => reads_pure hfound

theorem readsAs_name {x : String} {span : Span} : ReadsAs source .atom (.name x span) [.name x] := by
  intro fuel us _ _
  have hparen : Refuses (parenthesised (expression source fuel)) (At (.name x :: us)) :=
    Refuses.bind (refuses_sign (s := .openParen) rfl (by decide) (by simp))
  refine reads_atom_of_later (.inr ⟨x, rfl⟩) ?_
  refine (refuses_property (.inr ⟨x, rfl⟩)).orElse_reads (hparen.orElse_reads ?_)
  intro cursor hcursor
  obtain ⟨found, next, hread, hnext, span', rfl⟩ := reads_variableName cursor hcursor
  exact ⟨_, next, hread, hnext, rfl⟩

theorem strip_propertyOf (x : String) (inner inner' span span' : Span) :
    (propertyOf (.name x inner) span).strip = (propertyOf (.name x inner') span').strip := by
  have hwildcard : (Expr.name x inner).isWildcard = (Expr.name x inner').isWildcard := rfl
  rw [propertyOf, propertyOf, hwildcard]
  split <;> rfl

theorem readsAs_property {x : String} {inner span : Span} :
    ReadsAs source .atom (propertyOf (.name x inner) span)
      [.sign .less, .name x, .sign .greater] := by
  intro fuel us _ _
  refine reads_atom_of_later (.inl ⟨_, rfl⟩) (Reads.orElse ?_)
  have hread : Reads (do
      symbol "<"
      layout
      let named ← variableName source
      layout
      symbol ">"
      return named)
      (At (.sign .less :: .name x :: .sign .greater :: us)) (Past us)
      fun found => ∃ span, found = .name x span := by
    refine (reads_sign rfl (by decide)).bind fun _ _ => reads_layout.bind fun _ _ => ?_
    refine reads_variableName.bind fun found hfound => reads_layout.bind fun _ _ => ?_
    exact (reads_sign rfl (by decide)).bind fun _ _ => reads_pure hfound
  refine reads_here.bind fun start _ => (hread.rule .property).bind ?_
  rintro _ ⟨span', rfl⟩
  exact reads_here.bind fun stop _ => reads_pure (strip_propertyOf _ _ _ _ _)

theorem readsAs_number {n : Nat} {span : Span} :
    ReadsAs source .atom (.constant (.number n) span) [.number n] := by
  intro fuel us _ _
  refine Reads.orElse ?_
  refine reads_here.bind fun start _ => reads_number.bind fun digits hdigits => ?_
  refine reads_here.bind fun stop _ => reads_pure ?_
  rw [hdigits, Expr.strip, Expr.strip]

theorem readsAs_text {value : String} {span : Span} :
    ReadsAs source .atom (.constant (.text value) span) [.text value] := by
  intro fuel us _ _
  have hnumber : Refuses (number source) (At (.text value :: us)) :=
    reads_here.bind_refuses fun _ _ => (refuses_number (by simp)).bind
  refine hnumber.orElse_reads (Reads.orElse ?_)
  refine reads_here.bind fun start _ => reads_string.bind fun quoted hquoted => ?_
  refine reads_here.bind fun stop _ => reads_pure ?_
  rw [hquoted, String.ofList_toList, Expr.strip, Expr.strip]

theorem readsAs_formula {f : String} {span : Span} :
    ReadsAs source .atom (.formula f span) [.formula f] := by
  intro fuel us _ _
  have hnumber : Refuses (number source) (At (.formula f :: us)) :=
    reads_here.bind_refuses fun _ _ => (refuses_number (by simp)).bind
  have hstring : Refuses (string source) (At (.formula f :: us)) :=
    reads_here.bind_refuses fun _ _ => (refuses_string (by simp)).bind
  refine hnumber.orElse_reads (hstring.orElse_reads (Reads.orElse ?_))
  refine reads_here.bind fun start _ => reads_formula.bind fun quoted hquoted => ?_
  refine reads_here.bind fun stop _ => reads_pure ?_
  rw [hquoted, String.ofList_toList, Expr.strip, Expr.strip]

end Atom

/-! ## Bindings -/

theorem refuses_nextName (h : ∀ x vs, us ≠ .sign .comma :: .name x :: vs) :
    Refuses (symbol "," >>= fun _ => layout >>= fun _ => ident) (At us) := by
  by_cases hcomma : us.head? = some (.sign .comma)
  · obtain ⟨vs, rfl⟩ := List.head?_eq_some_iff.mp hcomma
    have hname : ∀ x, vs.head? ≠ some (.name x) := by
      intro x hx
      obtain ⟨ws, rfl⟩ := List.head?_eq_some_iff.mp hx
      exact h x ws rfl
    exact (reads_sign rfl (by decide)).bind_refuses fun _ _ =>
      reads_layout.bind_refuses fun _ _ => refuses_ident hname
  · exact (refuses_sign rfl (by decide) hcomma).bind

theorem reads_boundNames {x : String} {xs : List String}
    (h : ∀ y vs, us ≠ .sign .comma :: .name y :: vs) :
    Reads boundNames (At (nameTokens (x :: xs) ++ us)) (Past us) (· = x :: xs) := by
  have hany : (fun _ : List Token => True) us := trivial
  have hitem : ∀ y ∈ xs, ∀ vs, True →
      Reads (symbol "," >>= fun _ => layout >>= fun _ => ident)
        (At ([.sign .comma, .name y] ++ vs)) (Past vs) fun found => found = y :=
    fun y _ vs _ => (reads_sign rfl (by decide)).bind fun _ _ => reads_layout.bind fun _ _ => reads_ident
  have hrest := reads_items hany (fun _ _ _ => trivial) hitem (by simp) (refuses_nextName h)
  refine Reads.rule ?_ .identifier
  refine reads_ident.bind fun first hfirst => hrest.bind fun rest hrest => reads_pure ?_
  have hnames : rest = xs := List.forall₂_eq_eq_eq ▸ hrest.flip
  rw [hfirst, hnames]

/-- Behind a variable come further ones, as many as there are. -/
theorem exists_furtherNames (us : List Token) :
    ∃ (xs : List String) (vs : List Token),
      us = xs.flatMap (fun y => [.sign .comma, .name y]) ++ vs ∧
        ∀ y ws, vs ≠ .sign .comma :: .name y :: ws := by
  by_cases hnext : ∃ x vs, us = .sign .comma :: .name x :: vs
  · obtain ⟨x, vs, rfl⟩ := hnext
    obtain ⟨xs, ws, hvs, hstop⟩ := exists_furtherNames vs
    exact ⟨x :: xs, ws, by simp [hvs], hstop⟩
  · exact ⟨[], us, rfl, fun x vs heq => hnext ⟨x, vs, heq⟩⟩
termination_by us.length

theorem commits_nameTokens (x : String) (xs : List String) (ts : List Token) :
    Commits (nameTokens (x :: xs) ++ .sign .colon :: ts) := by
  induction xs generalizing x with
  | nil => exact .colon
  | cons y ys ih => exact .comma (ih y)

theorem refuses_colon (h : us.head? ≠ some (.sign .colon)) :
    Refuses (lexeme .colon (scanNotBefore ':' '>')) (At us) := by
  refine refuses_notBefore (by decide) (by decide) ?_ h .colon
  intro s hs
  cases s <;> simp [Sign.chars] at hs ⊢

theorem refuses_comprehension {expr : Parser Expr} (h : ¬ Commits us) :
    Refuses (comprehension source expr) (At us) := by
  refine reads_here.bind_refuses fun _ _ => Refuses.bind (Refuses.rule ?_ .expression)
  by_cases hname : ∃ x vs, us = .name x :: vs
  · obtain ⟨x, vs, rfl⟩ := hname
    obtain ⟨xs, ws, rfl, hstop⟩ := exists_furtherNames vs
    have hcolon : ws.head? ≠ some (.sign .colon) := by
      intro hhead
      obtain ⟨ts, rfl⟩ := List.head?_eq_some_iff.mp hhead
      exact h (commits_nameTokens x xs ts)
    have hnames : Reads boundNames (At (nameTokens (x :: xs) ++ ws)) (Past ws)
        (· = x :: xs) := reads_boundNames hstop
    exact hnames.bind_refuses fun _ _ => reads_layout.bind_refuses fun _ _ =>
      (refuses_colon hcolon).bind
  · have hident : Refuses ident (At us) := by
      apply refuses_ident
      intro x hx
      obtain ⟨vs, rfl⟩ := List.head?_eq_some_iff.mp hx
      exact hname ⟨x, vs, rfl⟩
    exact Refuses.bind (Refuses.rule hident.bind .identifier)

theorem refuses_letBinding {expr : Parser Expr} (h : us.head? ≠ some (.keyword .binding)) :
    Refuses (letBinding source expr) (At us) := by
  have hkeyword : Refuses (keyword .binding) (At us) := refuses_keyword h
  exact reads_here.bind_refuses fun _ _ => Refuses.bind (Refuses.rule hkeyword.bind .expression)

/-- What starts neither like a binding of a name nor like a comprehension is read as a union. -/
theorem reads_union {fuel : Nat} {P : Cursor → Prop} {post : Expr → Prop}
    (hP : ∀ cursor, P cursor → At ts cursor) (hlet : ts.head? ≠ some (.keyword .binding))
    (hcommits : ¬ Commits ts) (h : Reads (bandParser source fuel .union) P (Past us) post) :
    Reads (bandParser source fuel .binding) P (Past us) post := by
  refine Reads.rule ?_ .expression
  refine ((refuses_letBinding hlet).of_imp hP).orElse_reads ?_
  exact ((refuses_comprehension hcommits).of_imp hP).orElse_reads h

section Binding

variable {x : String} {xs : List String} {value constraint body : Expr} {style : Style}
variable {span : Span} {expr : Parser Expr}

theorem reads_letBinding {vs : List Token}
    (hvalue : Reads (union source expr) (At (ts ++ .sign .bar :: vs))
      (Past (.sign .bar :: vs)) fun found => found.strip = value.strip)
    (hbody : Reads expr (At vs) (Past us) fun found => found.strip = body.strip) :
    Reads (letBinding source expr)
      (At (.keyword .binding :: .name x :: .sign .equal :: (ts ++ .sign .bar :: vs)))
      (Past us) fun found => found.strip = (Expr.letIn x value body span).strip := by
  refine reads_here.bind fun start _ => ?_
  refine Reads.bind (show Reads _ _ (Past us) (fun found : String × Expr × Expr =>
    found.1 = x ∧ found.2.1.strip = value.strip ∧ found.2.2.strip = body.strip) from
      Reads.rule ?_ .expression) ?_
  · refine reads_bindingHead (reads_layout.bind fun _ _ => ?_)
    refine hvalue.bind fun found hfound => reads_layout.bind fun _ _ => ?_
    refine (reads_sign rfl (by decide)).bind fun _ _ => reads_layout.bind fun _ _ => ?_
    exact hbody.bind fun found' hfound' => reads_pure ⟨rfl, hfound, hfound'⟩
  · rintro ⟨bound, found, found'⟩ ⟨rfl, hfound, hfound'⟩
    refine reads_here.bind fun stop _ => reads_pure ?_
    rw [Expr.strip, hfound, hfound', Expr.strip]

theorem reads_comprehensionBody {vs : List Token}
    (hbody : Reads expr (At vs) (Past us) fun found => found.strip = body.strip) :
    Reads (comprehensionBody .bar "|" .keep expr <|> comprehensionBody .arrow "->" .image expr)
      (At (.sign style.sign :: vs)) (Past us)
      fun found => found.1 = style ∧ found.2.strip = body.strip := by
  have hread : ∀ {expectation : Expectation} {text : String}, text.toList = style.sign.chars →
      Reads (comprehensionBody expectation text style expr) (At (.sign style.sign :: vs))
        (Past us) fun found => found.1 = style ∧ found.2.strip = body.strip := by
    intro expectation text htext
    refine Reads.rule ?_ expectation
    refine (reads_sign htext (by cases style <;> decide)).bind fun _ _ => ?_
    refine reads_layout.bind fun _ _ => ?_
    exact hbody.bind fun found hfound => reads_pure ⟨rfl, hfound⟩
  cases style with
  | keep => exact (hread rfl).orElse
  | image =>
      have hbar : Refuses (symbol "|") (At (.sign .arrow :: vs)) :=
        refuses_sign (s := .bar) rfl (by decide) (by simp)
      exact (Refuses.rule hbar.bind .bar).orElse_reads (hread rfl)

theorem reads_comprehension {vs : List Token}
    (hconstraint : Reads (union source expr) (At (ts ++ .sign style.sign :: vs))
      (Past (.sign style.sign :: vs)) fun found => found.strip = constraint.strip)
    (hbody : Reads expr (At vs) (Past us) fun found => found.strip = body.strip) :
    Reads (comprehension source expr)
      (At (nameTokens (x :: xs) ++ .sign .colon :: (ts ++ .sign style.sign :: vs)))
      (Past us) fun found =>
        found.strip = (Expr.comprehension style (x :: xs) constraint body span).strip := by
  refine reads_here.bind fun start _ => ?_
  refine Reads.bind (show Reads _ _ (Past us) (fun found : List String × Expr × Style × Expr =>
    found.1 = x :: xs ∧ found.2.1.strip = constraint.strip ∧ found.2.2.1 = style ∧
      found.2.2.2.strip = body.strip) from Reads.rule ?_ .expression) ?_
  · refine (reads_boundNames (by simp)).bind fun names hnames => reads_layout.bind fun _ _ => ?_
    refine (reads_notBefore rfl (by decide) .colon).bind fun _ _ => reads_layout.bind fun _ _ => ?_
    refine hconstraint.bind fun found hfound => reads_layout.bind fun _ _ => ?_
    refine (reads_comprehensionBody hbody).bind ?_
    rintro ⟨style', found'⟩ ⟨hstyle, hfound'⟩
    exact reads_pure ⟨hnames, hfound, hstyle, hfound'⟩
  · rintro ⟨names, found, style', found'⟩ ⟨rfl, hfound, rfl, hfound'⟩
    refine reads_here.bind fun stop _ => reads_pure ?_
    rw [Expr.strip, hfound, hfound', Expr.strip]

theorem readsAs_letIn (hvalue : ReadsAs source .union value ts)
    (hbody : ReadsAs source .binding body us) :
    ReadsAs source .binding (.letIn x value body span)
      (.keyword .binding :: .name x :: .sign .equal :: (ts ++ .sign .bar :: us)) := by
  intro fuel vs hfuel hfollow
  simp only [List.length_cons, List.length_append] at hfuel
  obtain ⟨fuel, rfl⟩ : ∃ n, fuel = n + 1 := ⟨fuel - 1, by omega⟩
  have hreadValue := hvalue (fuel + 1) (.sign .bar :: (us ++ vs)) (by omega) (follow_of_none rfl)
  have hreadBody := hbody fuel vs (by omega) hfollow
  refine Reads.rule ?_ .expression
  refine Reads.orElse ?_
  simpa using reads_letBinding hreadValue hreadBody

theorem readsAs_comprehension (hconstraint : ReadsAs source .union constraint ts)
    (hbody : ReadsAs source .binding body us) :
    ReadsAs source .binding (.comprehension style (x :: xs) constraint body span)
      (nameTokens (x :: xs) ++ .sign .colon :: (ts ++ .sign style.sign :: us)) := by
  intro fuel vs hfuel hfollow
  simp only [List.length_cons, List.length_append] at hfuel
  obtain ⟨fuel, rfl⟩ : ∃ n, fuel = n + 1 := ⟨fuel - 1, by omega⟩
  have hstyle : (Token.sign style.sign).continues? = none := by cases style <;> rfl
  have hreadConstraint := hconstraint (fuel + 1) (.sign style.sign :: (us ++ vs)) (by omega)
    (follow_of_none hstyle)
  have hreadBody := hbody fuel vs (by omega) hfollow
  have hlet : Refuses (letBinding source (expression source (fuel + 1))) (At
      (nameTokens (x :: xs) ++ .sign .colon :: (ts ++ .sign style.sign :: us) ++ vs)) :=
    refuses_letBinding (by simp [nameTokens])
  refine Reads.rule ?_ .expression
  refine hlet.orElse_reads (Reads.orElse ?_)
  simpa using reads_comprehension hreadConstraint hreadBody

end Binding

theorem not_resumes_of_follow (h : Follow .binding us) : ¬ Resumes us := by
  rintro ⟨ts, rfl | ⟨rfl, -⟩⟩
  · exact Nat.not_lt_zero _ (h _ _ rfl rfl)
  · exact Nat.not_lt_zero _ (h _ _ rfl rfl)

/-! ## All bands -/

section Bands

variable {fuel : Nat} {P : Cursor → Prop} {post : Expr → Prop}

/-- Where no operator comes, the parser of a band reads as the next tighter one does. -/
theorem reads_of_tighter (hb : b ≠ .atom) (hP : ∀ cursor, P cursor → At ts cursor)
    (hfollow : Follow b us) (hnone : Unannounced b ts) (hcommits : b = .binding → ¬ Commits ts)
    (h : Reads (bandParser source fuel b.tighter) P (Past us) post) :
    Reads (bandParser source fuel b) P (Past us) post := by
  cases b with
  | binding => exact reads_union hP (hnone.head?_ne rfl) (hcommits rfl) h
  | union => exact reads_binaryBand_operand h (refuses_sole (by decide) rfl hfollow)
  | intersection => exact reads_binaryBand_operand h (refuses_setOperator hfollow)
  | product => exact reads_binaryBand_operand h (refuses_sole (by decide) rfl hfollow)
  | quantified => exact reads_prefixed_operand h ((refuses_quantifier hnone).of_imp hP)
  | comparison => exact reads_comparison_operand h hfollow
  | addition => exact reads_binaryBand_operand h (refuses_sole (by decide) rfl hfollow)
  | multiplication => exact reads_binaryBand_operand h (refuses_sole (by decide) rfl hfollow)
  | aggregate => exact reads_prefixed_operand h ((refuses_aggregateOperator hnone).of_imp hP)
  | chain =>
      refine Reads.rule ?_ .expression
      refine Reads.bind h fun first hfirst => (refuses_link hfollow).items.bind ?_
      rintro _ rfl
      exact reads_pure hfirst
  | tight => exact reads_prefixed_operand h ((refuses_tightOperator hnone).of_imp hP)
  | atom => exact (hb rfl).elim

end Bands

theorem readsAs_tighter (hb : b ≠ .atom) (hderives : Derives b.tighter e ts)
    (h : ReadsAs source b.tighter e ts) : ReadsAs source b e ts := by
  intro fuel us hfuel hfollow
  refine reads_of_tighter hb (fun _ hcursor => hcursor) hfollow
    (unannounced_of_derives hderives hb us) ?_ (h fuel us hfuel (hfollow.tighter hb))
  rintro rfl hcommits
  exact not_resumes_of_follow hfollow (hderives.resumes (by decide) hcommits)

theorem readsAs_row (hb : b.isLeft = true) (row : RowAs source b e ts) : ReadsAs source b e ts := by
  cases b with
  | union =>
      exact readsAs_sole (show BinaryOp.set .union ∈ soleOperators by decide) ";" rfl
        (fun _ => rfl) row
  | intersection => exact readsAs_intersection row
  | product =>
      exact readsAs_sole (show BinaryOp.product ∈ soleOperators by decide) "," rfl
        (fun _ => rfl) row
  | addition =>
      exact readsAs_sole (show BinaryOp.arith .add ∈ soleOperators by decide) "+" rfl
        (fun _ => rfl) row
  | multiplication =>
      exact readsAs_sole (show BinaryOp.arith .mul ∈ soleOperators by decide) "*" rfl
        (fun _ => rfl) row
  | chain => exact readsAs_chain row
  | _ => cases hb

theorem readsAs_lead (hb : b.isLeading = true) (lead : LeadAs source b e ts) :
    ReadsAs source b e ts := by
  cases b with
  | quantified => exact readsAs_quantified lead
  | aggregate => exact readsAs_aggregate lead
  | tight => exact readsAs_tight lead
  | _ => cases hb

theorem isLeft_or_compare (op : BinaryOp) :
    op.band.isLeft = true ∨ ∃ comparison, op = .compare comparison := by
  cases op with
  | compare comparison => exact .inr ⟨comparison, rfl⟩
  | set operation => cases operation <;> exact .inl rfl
  | arith operation => cases operation <;> exact .inl rfl
  | _ => exact .inl rfl

/-- What the parser of a band does with the tokens of a derivation.  A derivation that goes on with
an operator of its own band is read as part of a longer row, so its parts are kept. -/
structure Reading (source : String) (b : Band) (e : Expr) (ts : List Token) : Prop where
  readsAs : ReadsAs source b e ts
  row : b.isLeft = true → Nonempty (RowAs source b e ts)
  lead : b.isLeading = true → Nonempty (LeadAs source b e ts)

theorem isLeading_eq_false (hb : b.isLeft = true) : b.isLeading = false := by
  cases b <;> first | rfl | cases hb

theorem Reading.of_row (hb : b.isLeft = true) (row : RowAs source b e ts) :
    Reading source b e ts where
  readsAs := readsAs_row hb row
  row _ := ⟨row⟩
  lead hlead := by rw [isLeading_eq_false hb] at hlead; cases hlead

theorem Reading.of_lead (hb : b.isLeading = true) (lead : LeadAs source b e ts) :
    Reading source b e ts where
  readsAs := readsAs_lead hb lead
  row hrow := by rw [isLeading_eq_false hrow] at hb; cases hb
  lead _ := ⟨lead⟩

theorem Reading.of_readsAs (hleft : b.isLeft = false) (hleading : b.isLeading = false)
    (h : ReadsAs source b e ts) : Reading source b e ts where
  readsAs := h
  row hrow := by rw [hleft] at hrow; cases hrow
  lead hlead := by rw [hleading] at hlead; cases hlead

theorem reading_of_derives (h : Derives b e ts) : Reading source b e ts := by
  induction h with
  | number => exact .of_readsAs rfl rfl readsAs_number
  | text => exact .of_readsAs rfl rfl readsAs_text
  | formula => exact .of_readsAs rfl rfl readsAs_formula
  | name => exact .of_readsAs rfl rfl readsAs_name
  | property => exact .of_readsAs rfl rfl readsAs_property
  | paren _ ih => exact .of_readsAs rfl rfl (readsAs_paren ih.readsAs)
  | tighter hb h ih =>
      refine ⟨readsAs_tighter hb h ih.readsAs, fun _ => ⟨ih.readsAs.row⟩, fun _ => ⟨?_⟩⟩
      exact ih.readsAs.lead fun us => unannounced_of_derives h hb us
  | leading hop hb _ ih =>
      obtain ⟨lead⟩ := ih.lead hb
      exact .of_lead hb (lead.extend hop _)
  | @operand b op left right span ts us hop happly hleft hright ihleft ihright =>
      rcases isLeft_or_compare op with hb | ⟨comparison, rfl⟩
      · rw [hop] at hb
        rw [BinaryOp.leftSlot_eq hop hb] at ihleft
        obtain ⟨row⟩ := ihleft.row hb
        exact .of_row hb (row.extend (.operand hop happly ihright.readsAs) rfl)
      · subst hop
        obtain ⟨t, vs, rfl, hstarts⟩ := hright.head
        refine .of_readsAs rfl rfl (readsAs_comparison ihleft.readsAs ihright.readsAs ?_ (by simp))
        intro t' ht
        cases ht
        exact hstarts
  | ignore _ ih =>
      obtain ⟨row⟩ := ih.row rfl
      exact .of_row rfl (row.extend (.ignore rfl) rfl)
  | apply _ hright hus ihleft ihright =>
      obtain ⟨row⟩ := ihleft.row rfl
      exact .of_row rfl (row.extend (.apply rfl ihright.readsAs (hright.argument_ne hus)) rfl)
  | comprehension _ _ ihconstraint ihbody =>
      exact .of_readsAs rfl rfl (readsAs_comprehension ihconstraint.readsAs ihbody.readsAs)
  | letIn _ _ ihvalue ihbody =>
      exact .of_readsAs rfl rfl (readsAs_letIn ihvalue.readsAs ihbody.readsAs)

/-- The grammar reads a source that is written from the tokens of a derivation. -/
theorem reads_query_of_derives (h : Derives .binding e ts) (hlength : ts.length ≤ source.length) :
    Reads (query source) (Past ts) (At []) fun found => found.strip = e.strip := by
  have hderives : Reading source .binding e ts := reading_of_derives h
  have hread := hderives.readsAs source.length []
  rw [List.append_nil] at hread
  have hfollow : Follow .binding [] := by
    intro t c ht
    cases ht
  refine Reads.rule ?_ .expression
  refine reads_layout.bind fun _ _ => (hread hlength hfollow).bind fun found hfound => ?_
  exact reads_layout.bind fun _ _ => reads_endOfInput.bind fun _ _ => reads_pure hfound

end RelQuery.Grammar
