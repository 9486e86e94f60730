import RelQuery.Proofs.Grammar.Derivation
import RelQuery.Proofs.Grammar.Reading

/-!
# Reading rows of operators

The grammar has a parser for each band, which is given the parser of the next tighter band.  A
parser of a band whose operators associate to the left reads a first operand and steps; one of a
band whose operators stand in front of their operand reads operators and a core.  So such a parser
reads a row if the next tighter parser reads the parts of the row.
-/

namespace RelQuery.Grammar

open RelQuery.Grammar.Parser

variable {source : String} {b : Band} {e : Expr} {ts us : List Token}

/-- The parser of a band, with fuel for the expressions inside. -/
def bandParser (source : String) (fuel : Nat) : Band → Parser Expr
  | .binding => expression source (fuel + 1)
  | .union => union source (expression source fuel)
  | .intersection => intersection source (expression source fuel)
  | .product => product source (expression source fuel)
  | .quantified => quantified source (expression source fuel)
  | .comparison => comparison source (expression source fuel)
  | .addition => addition source (expression source fuel)
  | .multiplication => multiplication source (expression source fuel)
  | .aggregate => aggregate source (expression source fuel)
  | .chain => chain source (expression source fuel)
  | .tight => tight source (expression source fuel)
  | .atom => atom source (expression source fuel)

/-- The parser of a band reads the tokens as the expression, whatever follows that cannot belong to
it. -/
def ReadsAs (source : String) (b : Band) (e : Expr) (ts : List Token) : Prop :=
  ∀ fuel us, ts.length ≤ fuel → Follow b us →
    Reads (bandParser source fuel b) (At (ts ++ us)) (Past us) fun found => found.strip = e.strip

theorem head?_ne_of_follow {s : Sign} (h : Follow b us)
    (hs : (Token.sign s).continues? = some b) : us.head? ≠ some (.sign s) := by
  intro hhead
  exact Nat.lt_irrefl _ (h _ _ hhead hs)

/-! ## Rows that associate to the left -/

/-- What follows an operand in a row of operators that associate to the left. -/
inductive Step where
  | operand (op : BinaryOp) (right : Expr)
  | ignore

/-- Puts a step on the right of an expression. -/
def Step.graft (left : Expr) : Step → Expr
  | operand op right => .binary op left right.strip .synthetic
  | ignore => .unary .wildcardApply left .synthetic

/-- The tokens of a step in a row of a band, where the parts are read as what they stand for. -/
inductive StepAs (source : String) (b : Band) : Step → List Token → Prop where
  | operand {op : BinaryOp} {right : Expr} {ts : List Token} (hop : op.band = b)
      (happly : op ≠ .apply) (h : ReadsAs source b.tighter right ts) :
      StepAs source b (.operand op right) (.sign op.sign :: ts)
  | apply {right : Expr} {ts : List Token} (hb : b = .chain) (h : ReadsAs source .binding right ts)
      (hne : ∀ us vs,
        ts ++ .sign .closeBracket :: us ≠ .name wildcard :: .sign .closeBracket :: vs) :
      StepAs source b (.operand .apply right) (.sign .openBracket :: (ts ++ [.sign .closeBracket]))
  | ignore (hb : b = .chain) : StepAs source b .ignore ignoredColumn

/-- The tokens of a row of a band, where the parts are read as what they stand for. -/
structure RowAs (source : String) (b : Band) (e : Expr) (ts : List Token) where
  first : Expr
  front : List Token
  steps : List (Step × List Token)
  readsAs_first : ReadsAs source b.tighter first front
  stepAs : ∀ step ∈ steps, StepAs source b step.1 step.2
  tokens_eq : ts = front ++ steps.flatMap Prod.snd
  strip_eq : e.strip = steps.foldl (fun left step => step.1.graft left) first.strip

theorem StepAs.tokens_eq {step : Step} (h : StepAs source b step ts) :
    ∃ t us, ts = t :: us ∧ t.continues? = some b := by
  cases h with
  | operand hop _ _ => exact ⟨_, _, rfl, by rw [continues?_sign, hop]⟩
  | apply hb _ _ => exact ⟨_, _, rfl, by rw [hb]; rfl⟩
  | ignore hb => exact ⟨_, _, rfl, by rw [hb]; rfl⟩

/-- A step may follow an expression in the slot of the next tighter band. -/
theorem StepAs.follow {step : Step} (h : StepAs source b step ts) (hb : b ≠ .atom)
    (us : List Token) : Follow b.tighter (ts ++ us) := by
  intro t c ht hc
  obtain ⟨t', vs, rfl, hcontinues⟩ := h.tokens_eq
  cases ht
  rw [hcontinues] at hc
  cases hc
  rw [Band.level_tighter hb]
  omega

section LeftRows

variable {β : Type} {operand : Parser Expr} {item : Parser β} {join : Expr → β → Expr}
variable {R : Step → β → Prop}

theorem strip_foldl_join {steps : List (Step × List Token)} {values : List β}
    (hjoin : ∀ step value left, R step value → (join left value).strip = step.graft left.strip)
    (h : List.Forall₂ (fun step => R step.1) steps values) (first : Expr) :
    (values.foldl join first).strip =
      steps.foldl (fun left step => step.1.graft left) first.strip := by
  induction h generalizing first with
  | nil => rfl
  | cons hvalue _ ih => rw [List.foldl_cons, ih, hjoin _ _ _ hvalue, List.foldl_cons]

theorem RowAs.reads (row : RowAs source b e ts) (hb : b ≠ .atom) (hfollow : Follow b us)
    (hfirst : ∀ vs, Follow b.tighter vs →
      Reads operand (At (row.front ++ vs)) (Past vs) fun found => found.strip = row.first.strip)
    (hitem : ∀ step ∈ row.steps, ∀ vs, Follow b.tighter vs →
      Reads item (At (step.2 ++ vs)) (Past vs) (R step.1))
    (hstop : Refuses item (At us))
    (hjoin : ∀ step value left, R step value → (join left value).strip = step.graft left.strip) :
    Reads (operand >>= fun first => items item >>= fun rest => pure (rest.foldl join first))
      (At (ts ++ us)) (Past us) fun found => found.strip = e.strip := by
  have hsteps : ∀ step ∈ row.steps, ∀ vs, Follow b.tighter (step.2 ++ vs) :=
    fun step hstep vs => (row.stepAs step hstep).follow hb vs
  have hne : ∀ step ∈ row.steps, step.2 ≠ [] := by
    intro step hstep
    obtain ⟨t, vs, htokens, -⟩ := (row.stepAs step hstep).tokens_eq
    simp [htokens]
  have hus := hfollow.tighter hb
  rw [row.tokens_eq, List.append_assoc]
  refine (hfirst _ (continues_flatMap hus hsteps)).bind fun first hfirst => ?_
  refine (reads_items hus hsteps hitem hne hstop).bind fun rest hrest => reads_pure ?_
  rw [strip_foldl_join hjoin hrest, hfirst, row.strip_eq]

end LeftRows

theorem length_step_le {steps : List (Step × List Token)} {step : Step × List Token}
    (h : step ∈ steps) : step.2.length ≤ (steps.flatMap Prod.snd).length := by
  obtain ⟨before, after, rfl⟩ := List.append_of_mem h
  simp only [List.flatMap_append, List.flatMap_cons, List.length_append]
  omega

/-- An expression of a tighter band is a row without steps. -/
def ReadsAs.row (h : ReadsAs source b.tighter e ts) : RowAs source b e ts where
  first := e
  front := ts
  steps := []
  readsAs_first := h
  stepAs := by simp
  tokens_eq := by simp
  strip_eq := rfl

/-- A row goes on with one more step. -/
def RowAs.extend {step : Step} {e' : Expr} (row : RowAs source b e ts) (hstep : StepAs source b step us)
    (hstrip : e'.strip = step.graft e.strip) : RowAs source b e' (ts ++ us) where
  first := row.first
  front := row.front
  steps := row.steps ++ [(step, us)]
  readsAs_first := row.readsAs_first
  stepAs := by
    intro s hs
    rcases List.mem_append.mp hs with hmem | hmem
    · exact row.stepAs s hmem
    · obtain rfl := List.mem_singleton.mp hmem
      exact hstep
  tokens_eq := by simp [row.tokens_eq]
  strip_eq := by rw [hstrip, row.strip_eq, List.foldl_append, List.foldl_cons, List.foldl_nil]

/-- A band of operators between two operands. -/
theorem readsAs_binary {operator : Parser BinaryOp} (hb : b.isLeft = true) (hchain : b ≠ .chain)
    (hparser : ∀ fuel, bandParser source fuel b =
      binaryBand source operator (bandParser source fuel b.tighter))
    (hreads : ∀ op vs, op.band = b →
      Reads operator (At (.sign op.sign :: vs)) (Past vs) (· = op))
    (hrefuses : ∀ vs, Follow b vs → Refuses operator (At vs))
    (row : RowAs source b e ts) : ReadsAs source b e ts := by
  have hatom : b ≠ .atom := by
    rintro rfl
    cases hb
  intro fuel us hfuel hfollow
  rw [row.tokens_eq, List.length_append] at hfuel
  rw [hparser]
  refine Reads.rule ?_ .expression
  refine row.reads (R := fun step value => ∃ right, step = .operand value.1 right ∧
    value.2.strip = right.strip) hatom hfollow ?_ ?_ ?_ ?_
  · exact fun vs hvs => row.readsAs_first fuel vs (by omega) hvs
  · intro step hstep vs hvs
    have hlength := length_step_le hstep
    obtain ⟨step, ws⟩ := step
    cases row.stepAs _ hstep with
    | ignore hb => exact (hchain hb).elim
    | apply hb _ _ => exact (hchain hb).elim
    | operand hop _ hright =>
        rw [List.length_cons] at hlength
        refine (hreads _ _ hop).bind fun found hfound => reads_layout.bind fun _ _ => ?_
        refine (hright fuel vs (by omega) hvs).bind fun value hvalue => ?_
        exact reads_pure ⟨_, by rw [hfound], hvalue⟩
  · exact (hrefuses us hfollow).bind
  · rintro step ⟨op, value⟩ left ⟨right, rfl, hvalue⟩
    simp [combine, Expr.strip, Step.graft, hvalue]

/-- The operators that are alone in their band. -/
def soleOperators : List BinaryOp :=
  [.set .union, .product, .arith .add, .arith .mul]

theorem eq_of_band {op op' : BinaryOp} (hop : op ∈ soleOperators) (h : op'.band = op.band) :
    op' = op := by
  have hsole : ∀ op ∈ soleOperators, op'.band = op.band → op' = op := by
    cases op' with
    | set operation => cases operation <;> decide
    | arith operation => cases operation <;> decide
    | _ => simp [soleOperators, BinaryOp.band]
  exact hsole op hop h

theorem refuses_sole {op : BinaryOp} (hop : op ∈ soleOperators) {text : String}
    (htext : text.toList = op.sign.chars) (h : Follow op.band us) :
    Refuses (symbol text >>= fun _ => pure op) (At us) := by
  have hsign : ∀ op ∈ soleOperators, op.sign ∉ ambiguousSigns := by decide
  exact (refuses_sign htext (hsign op hop) (head?_ne_of_follow h (continues?_sign op))).bind

/-- A band with one operator, which is written with one sign. -/
theorem readsAs_sole {op : BinaryOp} (hop : op ∈ soleOperators) (text : String)
    (htext : text.toList = op.sign.chars)
    (hparser : ∀ fuel, bandParser source fuel op.band =
      binaryBand source (symbol text >>= fun _ => pure op)
        (bandParser source fuel op.band.tighter))
    (row : RowAs source op.band e ts) : ReadsAs source op.band e ts := by
  have hfacts : ∀ op ∈ soleOperators,
      op.band.isLeft = true ∧ op.band ≠ .chain ∧ op.sign ≠ .atMost := by decide
  obtain ⟨hb, hchain, hsign⟩ := hfacts op hop
  refine readsAs_binary hb hchain hparser ?_ (fun vs => refuses_sole hop htext) row
  intro op' vs hop'
  obtain rfl := eq_of_band hop hop'
  exact (reads_sign htext hsign).bind fun _ _ => reads_pure rfl

theorem refuses_setOperator (h : Follow .intersection us) : Refuses setOperator (At us) := by
  have hminus : ∀ s : Sign, s.chars.head? = some '-' →
      s = .minus ∨ ∃ cs, s.chars = '-' :: '>' :: cs := by
    intro s hs
    cases s <;> simp [Sign.chars] at hs ⊢
  have hampersand : Refuses (symbol "&") (At us) :=
    refuses_sign (s := .ampersand) rfl (by decide) (head?_ne_of_follow h rfl)
  have hdifference : Refuses (lexeme .setOperator (scanNotBefore '-' '>')) (At us) :=
    refuses_notBefore (by decide) (by decide) hminus (head?_ne_of_follow h rfl) .setOperator
  refine Refuses.rule ?_ .setOperator
  exact hampersand.bind.orElse hdifference.bind

theorem readsAs_intersection (row : RowAs source .intersection e ts) :
    ReadsAs source .intersection e ts := by
  refine readsAs_binary rfl (by decide) (fun _ => rfl) ?_ (fun _ => refuses_setOperator) row
  intro op vs hop
  refine Reads.rule ?_ .setOperator
  cases op with
  | set operation =>
      cases operation with
      | union => cases hop
      | intersection =>
          refine Reads.orElse ?_
          exact (reads_sign rfl (by decide)).bind fun _ _ => reads_pure rfl
      | difference =>
          have hrefuses : Refuses (symbol "&") (At (.sign .minus :: vs)) :=
            refuses_sign (s := .ampersand) rfl (by decide) (by simp)
          refine hrefuses.bind.orElse_reads ?_
          exact (reads_notBefore rfl (by decide) .setOperator).bind fun _ _ => reads_pure rfl
  | arith operation => cases operation <;> cases hop
  | _ => cases hop

/-! ## Rows in front of an operand -/

/-- Some tokens do not start with an operator of a band in front of its operand. -/
def Unannounced (b : Band) (us : List Token) : Prop :=
  ∀ t, us.head? = some t → t.announces? ≠ some b

theorem Unannounced.head?_ne {t : Token} (h : Unannounced b us) (ht : t.announces? = some b) :
    us.head? ≠ some t :=
  fun hhead => h t hhead ht

/-- An expression in a slot of the next tighter band starts with no operator of a band. -/
theorem unannounced_of_derives (h : Derives b.tighter e ts) (hb : b ≠ .atom) (us : List Token) :
    Unannounced b (ts ++ us) := by
  obtain ⟨t, vs, rfl, -, -, hlevel⟩ := h.head
  intro t' ht hannounces
  cases ht
  have hle := hlevel b hannounces
  rw [Band.level_tighter hb] at hle
  omega

/-- The tokens of operators in front of an operand, which is read as what it stands for. -/
structure LeadAs (source : String) (b : Band) (e : Expr) (ts : List Token) where
  ops : List UnaryOp
  core : Expr
  coreTokens : List Token
  band_eq : ∀ op ∈ ops, op.band = b
  readsAs_core : ReadsAs source b.tighter core coreTokens
  unannounced : ∀ us, Unannounced b (coreTokens ++ us)
  tokens_eq : ts = ops.map UnaryOp.token ++ coreTokens
  strip_eq : e.strip = ops.foldr (fun op inner => .unary op inner .synthetic) core.strip

/-- An expression of a tighter band is a row without operators. -/
def ReadsAs.lead (h : ReadsAs source b.tighter e ts) (hnone : ∀ us, Unannounced b (ts ++ us)) :
    LeadAs source b e ts where
  ops := []
  core := e
  coreTokens := ts
  band_eq := by simp
  readsAs_core := h
  unannounced := hnone
  tokens_eq := rfl
  strip_eq := rfl

/-- One more operator stands in front of a row. -/
def LeadAs.extend {op : UnaryOp} (lead : LeadAs source b e ts) (hop : op.band = b) (span : Span) :
    LeadAs source b (.unary op e span) (op.token :: ts) where
  ops := op :: lead.ops
  core := lead.core
  coreTokens := lead.coreTokens
  band_eq := List.forall_mem_cons.mpr ⟨hop, lead.band_eq⟩
  readsAs_core := lead.readsAs_core
  unannounced := lead.unannounced
  tokens_eq := congrArg (op.token :: ·) lead.tokens_eq
  strip_eq := congrArg (Expr.unary op · .synthetic) lead.strip_eq

theorem reads_prefixBand {operator : Parser UnaryOp} {operand : Parser Expr} {ops : List UnaryOp}
    {core : Expr}
    (hops : ∀ op ∈ ops, ∀ vs, Reads operator (At (op.token :: vs)) (Past vs) (· = op))
    (hcore : Reads operand (At ts) (Past us) fun found => found.strip = core.strip)
    (hstop : Refuses operator (At ts)) {fuel : Nat} (hfuel : ops.length < fuel) :
    Reads (prefixBand source operator operand fuel) (At (ops.map UnaryOp.token ++ ts))
      (Past us) fun found =>
        found.strip = ops.foldr (fun op inner => .unary op inner .synthetic) core.strip := by
  induction ops generalizing fuel with
  | nil =>
      obtain ⟨fuel, rfl⟩ : ∃ n, fuel = n + 1 := ⟨fuel - 1, by omega⟩
      refine Reads.rule ?_ .expression
      exact reads_here.bind fun start _ => hstop.bind.orElse_reads hcore
  | cons op ops ih =>
      obtain ⟨fuel, rfl⟩ : ∃ n, fuel = n + 1 := ⟨fuel - 1, by omega⟩
      rw [List.forall_mem_cons] at hops
      have hrest : ops.length < fuel := by simpa using hfuel
      refine Reads.rule ?_ .expression
      refine reads_here.bind fun start _ => Reads.orElse ?_
      refine (hops.1 _).bind fun found hfound => reads_layout.bind fun _ _ => ?_
      refine (ih hops.2 hrest).bind fun inner hinner => reads_here.bind fun stop _ => reads_pure ?_
      rw [Expr.strip, hinner, hfound]
      rfl

/-- A band of operators in front of their operand. -/
theorem readsAs_leading {operator : Parser UnaryOp} (hb : b.isLeading = true)
    (hparser : ∀ fuel, bandParser source fuel b =
      prefixed source operator (bandParser source fuel b.tighter))
    (hreads : ∀ op vs, op.band = b → Reads operator (At (op.token :: vs)) (Past vs) (· = op))
    (hrefuses : ∀ vs, Unannounced b vs → Refuses operator (At vs))
    (lead : LeadAs source b e ts) : ReadsAs source b e ts := by
  have hatom : b ≠ .atom := by
    rintro rfl
    cases hb
  intro fuel us hfuel hfollow
  rw [lead.tokens_eq, List.length_append, List.length_map] at hfuel
  rw [hparser, lead.tokens_eq, List.append_assoc, lead.strip_eq]
  intro cursor hcursor
  have hops : lead.ops.length < cursor.rest.length + 1 := by
    have hlength := hcursor.1.length_le
    simp only [List.length_append, List.length_map] at hlength
    omega
  have hread := lead.readsAs_core fuel us (by omega) (hfollow.tighter hatom)
  exact reads_prefixBand (fun op hop vs => hreads op vs (lead.band_eq op hop)) hread
    (hrefuses _ (lead.unannounced us)) hops cursor hcursor

/-! ### The three bands of operators in front of their operand -/

theorem reads_keywordOp {word : Keyword} (hbinding : word ≠ .binding) (hsum : word ≠ .sum)
    (op : UnaryOp) (vs : List Token) :
    Reads (keyword word >>= fun _ => pure op) (At (.keyword word :: vs)) (Past vs) (· = op) :=
  (reads_keyword hbinding hsum).bind fun _ _ => reads_pure rfl

theorem refuses_keywordOp {word : Keyword} {vs : List Token} (op : UnaryOp)
    (h : vs.head? ≠ some (.keyword word)) :
    Refuses (keyword word >>= fun _ => pure op) (At vs) :=
  (refuses_keyword h).bind

theorem refuses_signOp {s : Sign} {text : String} {vs : List Token} (op : UnaryOp)
    (htext : text.toList = s.chars) (hs : s ∉ ambiguousSigns)
    (h : vs.head? ≠ some (.sign s)) :
    Refuses (symbol text >>= fun _ => pure op) (At vs) :=
  (refuses_sign htext hs h).bind

theorem refuses_quantifier (h : Unannounced .quantified us) : Refuses quantifier (At us) := by
  refine Refuses.rule ?_ .quantifier
  exact (refuses_keywordOp _ (h.head?_ne rfl)).orElse (refuses_keywordOp _ (h.head?_ne rfl))

theorem readsAs_quantified (lead : LeadAs source .quantified e ts) :
    ReadsAs source .quantified e ts := by
  refine readsAs_leading rfl (fun _ => rfl) ?_ (fun _ => refuses_quantifier) lead
  intro op vs hop
  refine Reads.rule ?_ .quantifier
  cases op with
  | quantify quantifier =>
      cases quantifier with
      | some => exact (reads_keywordOp (by decide) (by decide) _ vs).orElse
      | no =>
          refine (refuses_keywordOp _ ?_).orElse_reads (reads_keywordOp (by decide) (by decide) _ vs)
          simp [UnaryOp.token]
  | _ => cases hop

theorem refuses_caret (h : us.head? ≠ some (.sign .caret)) :
    Refuses (symbol "^" >>= fun _ => pure UnaryOp.closure) (At us) :=
  refuses_signOp _ rfl (by decide) h

theorem refuses_tilde (h : us.head? ≠ some (.sign .tilde)) :
    Refuses (symbol "~" >>= fun _ => pure UnaryOp.transpose) (At us) :=
  refuses_signOp _ rfl (by decide) h

theorem refuses_tightOperator (h : Unannounced .tight us) :
    Refuses tightOperator (At us) := by
  have hstar : Refuses (symbol "*" >>= fun _ => pure UnaryOp.reflexiveClosure) (At us) :=
    refuses_signOp (s := .star) _ rfl (by decide) (h.head?_ne rfl)
  refine Refuses.rule ?_ .closureOperator
  exact (refuses_caret (h.head?_ne rfl)).orElse ((refuses_tilde (h.head?_ne rfl)).orElse hstar)

theorem readsAs_tight (lead : LeadAs source .tight e ts) :
    ReadsAs source .tight e ts := by
  refine readsAs_leading rfl (fun _ => rfl) ?_ (fun _ => refuses_tightOperator) lead
  intro op vs hop
  refine Reads.rule ?_ .closureOperator
  cases op with
  | closure =>
      refine Reads.orElse ?_
      exact (reads_sign rfl (by decide)).bind fun _ _ => reads_pure rfl
  | transpose =>
      refine (refuses_caret (by simp [UnaryOp.token])).orElse_reads (Reads.orElse ?_)
      exact (reads_sign rfl (by decide)).bind fun _ _ => reads_pure rfl
  | reflexiveClosure =>
      refine (refuses_caret (by simp [UnaryOp.token])).orElse_reads
        ((refuses_tilde (by simp [UnaryOp.token])).orElse_reads ?_)
      exact (reads_sign rfl (by decide)).bind fun _ _ => reads_pure rfl
  | _ => cases hop

theorem refuses_hash (h : us.head? ≠ some (.sign .hash)) :
    Refuses (symbol "#" >>= fun _ => pure UnaryOp.count) (At us) :=
  refuses_signOp _ rfl (by decide) h

/-- Of all tokens only the keyword of sums is also written with the summation sign. -/
theorem refuses_sigma (h : us.head? ≠ some (.keyword .sum)) :
    Refuses (symbol "Σ" >>= fun _ => pure (UnaryOp.aggregate .sum)) (At us) := by
  refine (refuses_symbol (c := 'Σ') rfl fun t ht hleads => ?_).bind
  cases t with
  | keyword word =>
      rcases hleads with hhead | ⟨rfl, -⟩
      · cases word <;> cases hhead
      · exact h ht
  | sign s =>
      rcases hleads with hhead | ⟨-, heq⟩
      · cases s <;> cases hhead
      · cases heq
  | text value => rcases hleads with heq | heq <;> cases heq
  | formula f => cases hleads
  | _ => cases hleads

theorem refuses_aggregateOperator (h : Unannounced .aggregate us) :
    Refuses aggregateOperator (At us) := by
  have hword : ∀ (word : Keyword) (op : UnaryOp),
      (Token.keyword word).announces? = some .aggregate →
      Refuses (keyword word >>= fun _ => pure op) (At us) :=
    fun word op hword => refuses_keywordOp op (h.head?_ne hword)
  refine Refuses.rule ?_ .aggregate
  refine (refuses_hash (h.head?_ne rfl)).orElse ((refuses_sigma (h.head?_ne rfl)).orElse ?_)
  exact (hword .min _ rfl).orElse ((hword .max _ rfl).orElse ((hword .sum _ rfl).orElse
    ((hword .index _ rfl).orElse (hword .concat _ rfl))))

/-- Sums are read from the keyword and from the sign. -/
theorem reads_sum (vs : List Token) :
    Reads aggregateOperator (At (.keyword .sum :: vs)) (Past vs) (· = .aggregate .sum) := by
  intro cursor hcursor
  obtain ⟨cs, rest, hrest, hspelled, hwritten⟩ := hcursor.exists_spelled
  have hpast : ∀ next, Facing rest next → Past vs next :=
    fun next hnext => hnext.past (hwritten (by simp))
  have hhash : Refuses (symbol "#" >>= fun _ => pure UnaryOp.count) (At (.keyword .sum :: vs)) :=
    refuses_hash (by simp)
  let here : Cursor → Prop := fun c => At (.keyword .sum :: vs) c ∧ Facing (cs ++ rest) c
  have hread : Reads aggregateOperator here (Past vs) (· = .aggregate .sum) := by
    refine Reads.rule ?_ .aggregate
    refine (hhash.of_imp fun _ h => h.1).orElse_reads ?_
    rcases hspelled with ⟨rfl, hend⟩ | ⟨-, rfl⟩
    · have hsigma : Refuses (symbol "Σ") (Facing (Keyword.sum.text.toList ++ rest)) :=
        refuses_symbol_facing (d := 's') rfl (by decide)
      have hword : ∀ {word : Keyword} (op : UnaryOp), word ≠ .sum →
          Refuses (keyword word >>= fun _ => pure op) (At (.keyword .sum :: vs)) :=
        fun op hne => refuses_keywordOp op (by simpa using hne.symm)
      refine (hsigma.bind.of_imp fun _ h => h.2).orElse_reads ?_
      refine ((hword _ (by decide)).of_imp fun _ h => h.1).orElse_reads ?_
      refine ((hword _ (by decide)).of_imp fun _ h => h.1).orElse_reads (Reads.orElse ?_)
      have hread : Reads (keyword .sum) here (Past vs) fun _ => True :=
        ((reads_keyword_facing hend).weaken hpast).of_imp fun _ h => h.2
      exact hread.bind fun _ _ => reads_pure rfl
    · have hread : Reads (symbol "Σ") here (Past vs) fun _ => True :=
        ((reads_symbol_facing "Σ").weaken hpast).of_imp fun _ h => h.2
      exact Reads.orElse (hread.bind fun _ _ => reads_pure rfl)
  exact hread cursor ⟨hcursor, hrest⟩

theorem readsAs_aggregate (lead : LeadAs source .aggregate e ts) :
    ReadsAs source .aggregate e ts := by
  refine readsAs_leading rfl (fun _ => rfl) ?_ (fun _ => refuses_aggregateOperator) lead
  intro op vs hop
  have hlater : ∀ {word : Keyword} {p : Parser UnaryOp} {post : UnaryOp → Prop}, word ≠ .sum →
      Reads p (At (.keyword word :: vs)) (Past vs) post →
      Reads (rule .aggregate ((symbol "#" >>= fun _ => pure UnaryOp.count) <|>
        (symbol "Σ" >>= fun _ => pure (UnaryOp.aggregate .sum)) <|> p))
        (At (.keyword word :: vs)) (Past vs) post :=
    fun hsum h => Reads.rule ((refuses_hash (by simp)).orElse_reads
      ((refuses_sigma (by simpa using hsum)).orElse_reads h)) _
  have hread : ∀ {word : Keyword} (op : UnaryOp), word ≠ .binding → word ≠ .sum →
      Reads (keyword word >>= fun _ => pure op) (At (.keyword word :: vs)) (Past vs) (· = op) :=
    fun op hbinding hsum => reads_keywordOp hbinding hsum op vs
  cases op with
  | count =>
      refine Reads.rule (Reads.orElse ?_) .aggregate
      exact (reads_sign rfl (by decide)).bind fun _ _ => reads_pure rfl
  | aggregate function =>
      cases function with
      | min => exact hlater (by decide) (hread _ (by decide) (by decide)).orElse
      | max =>
          exact hlater (by decide) ((refuses_keywordOp _ (by simp)).orElse_reads
            (hread _ (by decide) (by decide)).orElse)
      | sum => exact reads_sum vs
  | index =>
      exact hlater (by decide) ((refuses_keywordOp _ (by simp)).orElse_reads
        ((refuses_keywordOp _ (by simp)).orElse_reads
          ((refuses_keywordOp _ (by simp)).orElse_reads (hread _ (by decide) (by decide)).orElse)))
  | concat =>
      exact hlater (by decide) ((refuses_keywordOp _ (by simp)).orElse_reads
        ((refuses_keywordOp _ (by simp)).orElse_reads
          ((refuses_keywordOp _ (by simp)).orElse_reads
            ((refuses_keywordOp _ (by simp)).orElse_reads (hread _ (by decide) (by decide))))))
  | _ => cases hop

/-! ## Rows of one operand -/

section Operand

variable {P : Cursor → Prop} {post : Expr → Prop} {operand : Parser Expr}

theorem reads_binaryBand_operand {operator : Parser BinaryOp}
    (h : Reads operand P (Past us) post) (hstop : Refuses operator (At us)) :
    Reads (binaryBand source operator operand) P (Past us) post := by
  refine Reads.rule ?_ .expression
  refine h.bind fun first hfirst => hstop.bind.items.bind ?_
  rintro _ rfl
  exact reads_pure hfirst

theorem reads_prefixed_operand {operator : Parser UnaryOp} (h : Reads operand P (Past us) post)
    (hstop : Refuses operator P) : Reads (prefixed source operator operand) P (Past us) post := by
  intro cursor hcursor
  have hread : Reads (prefixBand source operator operand (cursor.rest.length + 1)) P
      (Past us) post := by
    refine Reads.rule ?_ .expression
    exact reads_here.bind fun start _ => hstop.bind.orElse_reads h
  exact hread cursor hcursor

end Operand

end RelQuery.Grammar
