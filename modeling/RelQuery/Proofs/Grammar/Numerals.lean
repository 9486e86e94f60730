import RelQuery.Proofs.Datalog.ScalarText
import RelQuery.Proofs.Grammar.Inheritance
import RelQuery.Proofs.Grammar.Lexemes

/-!
# Numbers of a source

The numbers of a source can be found from its characters alone: they are the rows of digits outside of
comments, formulas and quoted texts that do not go on with a name.  They are the numbers among the
lexemes of a source, and also the numbers of the expression that it is read as, with the same offsets
and in the same order.  So a source that the grammar accepts is read unless one of its numbers is too
large, and the first such number is what the error points to.
-/

namespace RelQuery

open Grammar
open Text (byteLength isDigit isNameChar isNameStart)

/-- A number with the offsets between which it stands. -/
structure Numeral where
  value : Int
  start : Nat
  stop : Nat
  deriving DecidableEq, Repr

namespace Expr

def numeral? : Expr → Option Numeral
  | constant (.number value) span => some ⟨value, span.start, span.stop⟩
  | _ => none

/-- The numbers of an expression, in the order of the source. -/
def numerals (e : Expr) : List Numeral :=
  e.nodes.filterMap numeral?

theorem numerals_of_children {e left right : Expr} (h : e.children = [left, right]) :
    e.numerals = left.numerals ++ right.numerals := by
  cases e with
  | binary | comprehension | letIn =>
      cases h
      exact List.filterMap_append
  | _ => cases h

end Expr

/-! ## Lexemes -/

/-- The number that a lexeme is, where `offset` is that of the layout in front of it. -/
def Grammar.Lexeme.numeral? (offset : Nat) (l : Lexeme) : Option Numeral :=
  match l.token with
  | .number n => some ⟨n, offset + byteLength l.gap, offset + byteLength l.text⟩
  | _ => none

def Grammar.rowNumerals : (offset : Nat) → List Lexeme → List Numeral
  | _, [] => []
  | offset, l :: row =>
    (l.numeral? offset).toList ++ rowNumerals (offset + byteLength l.text) row

/-- The numbers of a source, from left to right. -/
def Grammar.Match.numerals {source : String} (m : Match source) : List Numeral :=
  rowNumerals 0 m.lexemes

/-! ## Characters -/

/-- What a character of code starts. -/
def Region.behind : Char → Region
  | '\x60' => .formula
  | '\x27' => .quoted '\x27'
  | '"' => .quoted '"'
  | _ => .code

/-- The number with which characters start. -/
def numeralAt (offset : Nat) (cs : List Char) : Numeral :=
  ⟨Text.digitsValue (cs.takeWhile isDigit), offset, offset + byteLength (cs.takeWhile isDigit)⟩

/-- The numbers among characters, where `inWord` tells whether the last one before them belongs to a
name or a number. -/
def numeralsIn : Region → (inWord : Bool) → (offset : Nat) → List Char → List Numeral
  | _, _, _, [] => []
  | .code, _, offset, '/' :: '/' :: cs => numeralsIn .comment false (offset + 2) cs
  | .code, inWord, offset, c :: cs =>
    (if isDigit c && !inWord then [numeralAt offset (c :: cs)] else []) ++
      numeralsIn (.behind c) (isNameChar c) (offset + c.utf8Size) cs
  | .comment, _, offset, c :: cs =>
    numeralsIn (if c = '\n' then .code else .comment) false (offset + c.utf8Size) cs
  | .formula, _, offset, c :: cs =>
    numeralsIn (if c = '\x60' then .code else .formula) false (offset + c.utf8Size) cs
  | .quoted quote, _, offset, '\\' :: c :: cs =>
    numeralsIn (.quoted quote) false (offset + (1 + c.utf8Size)) cs
  | .quoted quote, _, offset, c :: cs =>
    numeralsIn (if c = quote then .code else .quoted quote) false (offset + c.utf8Size) cs

section Characters

variable {inWord : Bool} {offset : Nat} {c : Char} {cs rest : List Char}

@[simp] theorem numeralsIn_nil (region : Region) : numeralsIn region inWord offset [] = [] := by
  cases region <;> rfl

theorem numeralsIn_cons (hc : c ≠ '/') :
    numeralsIn .code inWord offset (c :: cs) =
      (if isDigit c && !inWord then [numeralAt offset (c :: cs)] else []) ++
        numeralsIn (.behind c) (isNameChar c) (offset + c.utf8Size) cs := by
  rw [numeralsIn]
  exact fun cs heq => absurd heq hc

/-- Only in front of a digit does it matter what stands before. -/
theorem numeralsIn_inWord (h : ∀ c ∈ cs.head?, isDigit c = false) :
    numeralsIn .code inWord offset cs = numeralsIn .code false offset cs := by
  cases cs with
  | nil => simp
  | cons c cs =>
      by_cases hcomment : ∃ rest, c = '/' ∧ cs = '/' :: rest
      · obtain ⟨rest, rfl, rfl⟩ := hcomment
        rfl
      · have hcode : ∀ rest, c = '/' → cs = '/' :: rest → False :=
          fun rest hc hcs => hcomment ⟨rest, hc, hcs⟩
        rw [numeralsIn.eq_3 _ _ _ _ hcode, numeralsIn.eq_3 _ _ _ _ hcode, h c rfl]
        simp

theorem numeralsIn_layout {start stop : Bool} {w : List Char} (h : Layout start stop w)
    (offset : Nat) (rest : List Char) :
    numeralsIn (.ofComment start) false offset (w ++ rest) =
      numeralsIn (.ofComment stop) false (offset + byteLength w) rest := by
  induction h generalizing offset with
  | nil => rfl
  | @blank stop c w hc _ ih =>
      rw [byteLength, ← Nat.add_assoc, ← ih]
      rcases isLayout_iff.mp hc with rfl | rfl | rfl | rfl <;> rfl
  | @opening stop w _ ih =>
      rw [byteLength, byteLength, ← Nat.add_assoc, ← Nat.add_assoc, ← ih]
      rfl
  | @inside stop c w hc _ ih =>
      rw [byteLength, ← Nat.add_assoc, ← ih, List.cons_append]
      change numeralsIn .comment false offset _ = _
      rw [numeralsIn, if_neg hc]
      rfl
  | @closing stop w _ ih =>
      rw [byteLength, ← Nat.add_assoc, ← ih]
      rfl

theorem behind_of_isNameChar (h : isNameChar c = true) : Region.behind c = .code ∧ c ≠ '/' := by
  have hplain := isPlain_of_isNameChar h
  simp only [isPlain, List.mem_cons, List.not_mem_nil, or_false, not_or, decide_eq_true_eq] at hplain
  refine ⟨?_, hplain.1⟩
  unfold Region.behind
  split <;> simp_all

/-- Inside of a word no number starts. -/
theorem numeralsIn_word (h : ∀ c ∈ cs, isNameChar c = true) (offset : Nat) (rest : List Char) :
    numeralsIn .code true offset (cs ++ rest) =
      numeralsIn .code true (offset + byteLength cs) rest := by
  induction cs generalizing offset with
  | nil => rfl
  | cons c cs ih =>
      rw [List.forall_mem_cons] at h
      obtain ⟨hbehind, hslash⟩ := behind_of_isNameChar h.1
      rw [List.cons_append, numeralsIn_cons hslash, hbehind, h.1, ih h.2, byteLength, Nat.add_assoc]
      simp

theorem numeralsIn_quoted {quote : Char} {value body : List Char} (h : Escapes quote value body)
    (hquote : quote ≠ '\\') (offset : Nat) (rest : List Char) :
    numeralsIn (.quoted quote) false offset (body ++ quote :: rest) =
      numeralsIn .code false (offset + (byteLength body + quote.utf8Size)) rest := by
  induction h generalizing offset with
  | nil =>
      rw [List.nil_append, numeralsIn, if_pos rfl]
      · simp
      · exact fun c cs heq => absurd heq hquote
  | @plain c value body hplain hbackslash _ ih =>
      rw [List.cons_append, numeralsIn, if_neg hplain, ih, byteLength]
      · simp only [Nat.add_assoc]
      · exact fun c cs heq => absurd heq hbackslash
  | @backslash c value body _ ih =>
      rw [List.cons_append, List.cons_append, numeralsIn, ih, byteLength, byteLength]
      have hsize : '\\'.utf8Size = 1 := by decide
      simp only [hsize, Nat.add_assoc]

theorem numeralsIn_formula {body : List Char} (h : '\x60' ∉ body) (offset : Nat)
    (rest : List Char) :
    numeralsIn .formula false offset (body ++ '\x60' :: rest) =
      numeralsIn .code false (offset + (byteLength body + 1)) rest := by
  induction body generalizing offset with
  | nil =>
      have hsize : '\x60'.utf8Size = 1 := by decide
      rw [List.nil_append, numeralsIn, if_pos rfl, hsize]
      simp
  | cons c body ih =>
      rw [List.mem_cons, not_or] at h
      rw [List.cons_append, numeralsIn, if_neg (Ne.symm h.1), ih h.2, byteLength]
      simp only [Nat.add_assoc]

end Characters

/-! ## Tokens -/

section Tokens

variable {t : Token} {cs rest : List Char}

/-- A word that starts with no digit has no number. -/
theorem numeralsIn_name (hcs : ∀ c ∈ cs, isNameChar c = true)
    (hstart : ∀ c ∈ cs.head?, isDigit c = false) (hrest : ∀ c ∈ rest.head?, isNameChar c = false)
    (offset : Nat) :
    numeralsIn .code false offset (cs ++ rest) =
      numeralsIn .code false (offset + byteLength cs) rest := by
  have hdigit : ∀ c ∈ rest.head?, isDigit c = false := fun c hc => isDigit_eq_false (hrest c hc)
  cases cs with
  | nil => rfl
  | cons c cs =>
      have hword : numeralsIn .code false offset (c :: cs ++ rest) =
          numeralsIn .code true offset (c :: cs ++ rest) :=
        (numeralsIn_inWord (by simpa using hstart)).symm
      rw [hword, numeralsIn_word hcs, numeralsIn_inWord hdigit]

theorem numeralsIn_spelled (h : t.Spelled cs rest) (offset : Nat) :
    numeralsIn .code false offset (cs ++ rest) =
      ((⟨[], t, cs⟩ : Lexeme).numeral? offset).toList ++
        numeralsIn .code false (offset + byteLength cs) rest := by
  cases t with
  | number n =>
      obtain ⟨hne, hdigits, hvalue, hrest⟩ := h
      have htake : (cs ++ rest).takeWhile isDigit = cs := Text.takeWhile_of_ends hdigits hrest
      obtain ⟨c, ds, rfl⟩ := List.exists_cons_of_ne_nil hne
      rw [List.forall_mem_cons] at hdigits
      have hword : ∀ d ∈ ds, isNameChar d = true :=
        fun d hd => isNameChar_of_isDigit (hdigits.2 d hd)
      have hname := isNameChar_of_isDigit hdigits.1
      obtain ⟨hbehind, hslash⟩ := behind_of_isNameChar hname
      rw [List.cons_append] at htake ⊢
      rw [numeralsIn_cons hslash, hbehind, hname, numeralsIn_word hword, numeralsIn_inWord hrest,
        numeralAt, htake, hvalue, hdigits.1, byteLength]
      simp [Lexeme.numeral?, Lexeme.text, byteLength, Nat.add_assoc]
  | text value =>
      obtain ⟨quote, body, hquote, hescapes, rfl⟩ := h
      have hbackslash : quote ≠ '\\' := by rcases hquote with rfl | rfl <;> decide
      have hinner := numeralsIn_quoted hescapes hbackslash (offset + quote.utf8Size) rest
      have hopen : numeralsIn .code false offset (quote :: (body ++ quote :: rest)) =
          numeralsIn (.quoted quote) false (offset + quote.utf8Size) (body ++ quote :: rest) := by
        rcases hquote with rfl | rfl <;> rfl
      simp only [List.cons_append, List.append_assoc, List.nil_append, hopen, hinner]
      simp [Lexeme.numeral?, byteLength, Nat.add_assoc]
  | formula f =>
      obtain ⟨body, hbody, -, rfl⟩ := h
      have hopen : numeralsIn .code false offset ('\x60' :: (body ++ '\x60' :: rest)) =
          numeralsIn .formula false (offset + 1) (body ++ '\x60' :: rest) := rfl
      have hsize : '\x60'.utf8Size = 1 := by decide
      simp only [List.cons_append, List.append_assoc, List.nil_append, hopen,
        numeralsIn_formula hbody]
      simp [Lexeme.numeral?, byteLength, hsize, Nat.add_assoc]
  | name x =>
      obtain ⟨hname, rfl, hrest⟩ := h
      obtain ⟨c, cs, hchars, hstart⟩ := hname.head
      refine numeralsIn_name (fun c hc => hname.isNameChar hc) ?_ hrest offset
      rw [hchars]
      intro d hd
      cases hd
      exact (Datalog.not_isDigit_of_isNameStart hstart).1
  | keyword word =>
      rcases h with ⟨rfl, hrest⟩ | ⟨-, rfl⟩
      · refine numeralsIn_name (fun c hc => Keyword.isNameChar_of_mem hc) ?_ hrest offset
        cases word <;> (rintro c ⟨⟩; rfl)
      · rfl
  | sign s =>
      rcases h.1 with rfl | ⟨-, rfl⟩
      · cases s <;> rfl
      · rfl

theorem numeralsIn_gap {gap : List Char} (hgap : Layout false false gap) (offset : Nat)
    (rest : List Char) :
    numeralsIn .code false offset (gap ++ rest) =
      numeralsIn .code false (offset + byteLength gap) rest :=
  numeralsIn_layout hgap offset rest

theorem numeralsIn_lexeme {l : Lexeme} (hgap : Layout false false l.gap)
    (ht : l.token.Spelled l.chars rest) (offset : Nat) :
    numeralsIn .code false offset (l.gap ++ (l.chars ++ rest)) =
      (l.numeral? offset).toList ++ numeralsIn .code false (offset + byteLength l.text) rest := by
  obtain ⟨gap, t, cs⟩ := l
  have hmoved : (⟨[], t, cs⟩ : Lexeme).numeral? (offset + byteLength gap) =
      (⟨gap, t, cs⟩ : Lexeme).numeral? offset := by
    cases t <;> simp [Lexeme.numeral?, Lexeme.text, Nat.add_assoc]
  rw [numeralsIn_gap hgap, numeralsIn_spelled ht, hmoved, Lexeme.text, Text.byteLength_append,
    Nat.add_assoc]

/-- The numbers among the characters of lexemes are those among the lexemes. -/
theorem numeralsIn_rowText {row : List Lexeme} {w : List Char} (h : Cut row w rest)
    (offset : Nat) :
    numeralsIn .code false offset (rowText row w ++ rest) = rowNumerals offset row ++
      numeralsIn .code false (offset + byteLength (rowText row w)) rest := by
  induction h generalizing offset with
  | @last stop w rest hw hstop =>
      have hskip := numeralsIn_layout hw offset rest
      cases stop with
      | false => exact hskip
      | true =>
          rw [hstop rfl] at hskip ⊢
          refine hskip.trans ?_
          simp [rowNumerals]
  | @token l row w rest hgap ht h ih =>
      simp only [rowText_cons, List.append_assoc, rowNumerals]
      rw [numeralsIn_lexeme hgap ht, ih]
      simp [Lexeme.text, Nat.add_assoc]
  | @binding x row w₀ w₁ w₂ w rest h₀ h₁ hne hx h₂ h ih =>
      have hequal (offset : Nat) (rest : List Char) : numeralsIn .code false offset ('=' :: rest) =
          numeralsIn .code false (offset + 1) rest := rfl
      have hletter : (Token.keyword .binding).Spelled Keyword.binding.text.toList
          (w₁ ++ (x.toList ++ (w₂ ++ '=' :: (rowText row w ++ rest)))) :=
        .inl ⟨rfl, fun c hc => isNameChar_of_layout h₁ hne hc⟩
      have hname : (Token.name x).Spelled x.toList (w₂ ++ '=' :: (rowText row w ++ rest)) := by
        refine ⟨hx, rfl, fun c hc => ?_⟩
        by_cases hgap : w₂ = []
        · subst hgap
          cases hc
          decide
        · exact isNameChar_of_layout h₂ hgap hc
      have hsize : '='.utf8Size = 1 := by decide
      have hfirst := numeralsIn_lexeme
        (l := ⟨w₀, .keyword .binding, Keyword.binding.text.toList⟩) h₀ hletter offset
      have hsecond := numeralsIn_lexeme (l := ⟨w₁, .name x, x.toList⟩) h₁ hname
      simp only [rowText_cons, List.append_assoc, List.cons_append, List.nil_append, rowNumerals]
      rw [hfirst, hsecond, numeralsIn_gap h₂, hequal, ih]
      simp [Lexeme.numeral?, Lexeme.text, Nat.add_assoc, byteLength, hsize]

theorem rowNumerals_eq_nil {row : List Lexeme}
    (h : ∀ t ∈ row.map Lexeme.token, t.isNumber = false) (offset : Nat) :
    rowNumerals offset row = [] := by
  induction row generalizing offset with
  | nil => rfl
  | cons l row ih =>
      rw [List.map_cons, List.forall_mem_cons] at h
      have hnone : l.numeral? offset = none := by
        obtain ⟨gap, t, cs⟩ := l
        cases t with
        | number n => cases h.1
        | _ => rfl
      rw [rowNumerals, hnone, ih h.2]
      rfl

theorem numeralsIn_skipped {u : List Char} (h : Skipped u rest) (offset : Nat) :
    numeralsIn .code false offset (u ++ rest) =
      numeralsIn .code false (offset + byteLength u) rest := by
  obtain ⟨ts, hwritten, hts⟩ := h
  obtain ⟨row, w, hcut, rfl, rfl⟩ := hwritten.exists_cut
  rw [numeralsIn_rowText hcut, rowNumerals_eq_nil hts, List.nil_append]

end Tokens

/-! ## Expressions -/

/-- The numbers of an expression are those of the characters that it was read from. -/
def Located (before taken after : List Char) (e : Expr) : Prop :=
  numeralsIn .code false (byteLength before) (taken ++ after) =
    e.numerals ++ numeralsIn .code false (byteLength (before ++ taken)) after

theorem inherited_located (source : String) : Inherited source Located where
  leaf {before cs after t e} hspelled hderives hspan := by
    have hnumeral : ((⟨[], t, cs⟩ : Lexeme).numeral? (byteLength before)).toList = e.numerals := by
      rcases hderives.leaf_cases with ⟨n, span, rfl, rfl⟩ | ⟨_, _, rfl, rfl⟩ | ⟨_, _, rfl, rfl⟩ |
        ⟨_, _, rfl, rfl⟩
      · obtain rfl : span = _ := hspan
        simp [Lexeme.numeral?, Lexeme.text, Expr.numerals, Expr.nodes, Expr.numeral?]
      all_goals rfl
    rw [Located, numeralsIn_spelled hspelled, hnumeral, Text.byteLength_append]
  angle {before taken after x span} h := by
    have hnone (inner : Span) : (propertyOf (.name x span) inner).numerals = [] := by
      unfold propertyOf
      split <;> rfl
    rw [Located, hnone]
    exact h
  skip_left hskipped h := by
    simp only [Located, List.append_assoc, Text.byteLength_append] at h ⊢
    rw [numeralsIn_skipped hskipped, h]
  skip_right h hskipped := by
    simp only [Located, List.append_assoc, Text.byteLength_append] at h ⊢
    rw [h, numeralsIn_skipped hskipped]
    simp [Nat.add_assoc]
  unary _ h := h
  pair hchildren _ _ _ hleft hright := by
    simp only [Located, List.append_assoc, Text.byteLength_append] at hleft hright ⊢
    rw [hleft, hright, Expr.numerals_of_children hchildren]
    simp

/-- The numbers of the expression that is read are those of the source, with their offsets. -/
theorem numerals_of_run {source : String} {e : Expr} {next : Cursor}
    (hrun : (query source ⟨source.toList, 0⟩).value = some (e, next)) (m : Match source) :
    e.numerals = m.numerals := by
  have hexpr : numeralsIn .code false 0 source.toList = e.numerals := by
    simpa [Located] using inherits_query (inherited_located source) hrun
  have hrow : numeralsIn .code false 0 source.toList = m.numerals := by
    simpa [Match.numerals, m.text_eq] using numeralsIn_rowText m.cut 0
  rw [← hexpr, hrow]

/-! ## Numbers that are too large -/

theorem zero_le_of_mem_rowNumerals {row : List Lexeme} {offset : Nat} {n : Numeral}
    (h : n ∈ rowNumerals offset row) : 0 ≤ n.value := by
  induction row generalizing offset with
  | nil => cases h
  | cons l row ih =>
      rcases List.mem_append.mp h with h | h
      · obtain ⟨gap, t, cs⟩ := l
        cases t with
        | number k =>
            obtain rfl := List.mem_singleton.mp h
            exact Int.natCast_nonneg k
        | _ => cases h
      · exact ih h

/-- A number that is not negative fits unless it is larger than the largest word. -/
theorem fitsSigned_iff {value : Int} (h : 0 ≤ value) :
    Text.fitsSigned 32 value = true ↔ value ≤ 2147483647 := by
  have hword : (Text.wordCount (32 - 1) : Int) = 2147483648 := rfl
  simp only [Text.fitsSigned, hword, Bool.and_eq_true, decide_eq_true_eq]
  omega

/-- The first number of a source that is too large. -/
def Grammar.Match.FirstOversized {source : String} (m : Match source) (n : Numeral) : Prop :=
  2147483647 < n.value ∧
    ∃ before after, m.numerals = before ++ n :: after ∧ ∀ k ∈ before, k.value ≤ 2147483647

section Oversized

variable {source : String} {m : Match source} {n : Numeral}

theorem Grammar.Match.fitsSigned_iff (h : n ∈ m.numerals) :
    Text.fitsSigned 32 n.value = true ↔ n.value ≤ 2147483647 :=
  RelQuery.fitsSigned_iff (zero_le_of_mem_rowNumerals h)

theorem Grammar.Match.firstOversized_iff :
    m.FirstOversized n ↔ m.numerals.find? (fun n => !Text.fitsSigned 32 n.value) = some n := by
  rw [List.find?_eq_some_iff_append]
  have hsame {before after : List Numeral} (hsplit : m.numerals = before ++ n :: after) :
      (2147483647 < n.value ∧ ∀ k ∈ before, k.value ≤ 2147483647) ↔
        ((!Text.fitsSigned 32 n.value) = true ∧
          ∀ k ∈ before, (!!Text.fitsSigned 32 k.value) = true) := by
    have hn : n ∈ m.numerals := by simp [hsplit]
    refine and_congr ?_ (forall₂_congr fun k hk => ?_)
    · rw [Bool.not_eq_true', ← Bool.not_eq_true, fitsSigned_iff hn, not_le]
    · have hk : k ∈ m.numerals := by simp [hsplit, hk]
      rw [Bool.not_not, fitsSigned_iff hk]
  constructor
  · rintro ⟨hlarge, before, after, hsplit, hbefore⟩
    obtain ⟨hlarge, hbefore⟩ := (hsame hsplit).mp ⟨hlarge, hbefore⟩
    exact ⟨hlarge, before, after, hsplit, hbefore⟩
  · rintro ⟨hlarge, before, after, hsplit, hbefore⟩
    obtain ⟨hlarge, hbefore⟩ := (hsame hsplit).mpr ⟨hlarge, hbefore⟩
    exact ⟨hlarge, before, after, hsplit, hbefore⟩

theorem parse_of_run {e : Expr} {next : Cursor}
    (hrun : (query source ⟨source.toList, 0⟩).value = some (e, next)) :
    Expr.parse source = match e.numerals.find? fun n => !Text.fitsSigned 32 n.value with
      | some n => .error (.between source n.start n.stop ["number that fits in 32 bits"])
      | none => .ok e := by
  have hsize : Expr.isOversized = fun n => n.numeral?.any fun n => !Text.fitsSigned 32 n.value := by
    funext n
    cases n with
    | constant value => cases value <;> rfl
    | _ => rfl
  rw [parse_eq, hrun, Expr.numerals, List.find?_filterMap, ← hsize]
  simp only [settle, oversized?]
  cases hfind : e.nodes.find? Expr.isOversized with
  | none => rfl
  | some n =>
      have hover := List.find?_some hfind
      cases n with
      | constant value =>
          cases value with
          | number => rfl
          | text => cases hover
      | _ => cases hover

end Oversized

/-- The pairs of a match are those that the builder asks for: it fails at a number only. -/
theorem fault_of_buildQuery {pair : Pair} {next : Cursor} {malformed : Malformed}
    (hpair : (Pairs.query source ⟨source.toList, 0⟩).value = some (pair, next))
    (hbuild : buildQuery source [pair] = .error malformed) : malformed.fault = .number := by
  obtain ⟨e, -, hsettle⟩ := (agree_query source).exists_of_value hpair
  rw [hbuild] at hsettle
  unfold settle at hsettle
  split at hsettle
  · cases hsettle
    rfl
  · cases hsettle

/-- A source that the grammar accepts is read exactly if none of its numbers is too large.  If it is
not read, the builder has met the first such number, and the error points to it; the builder never
misses a part, meets an operator that it does not know or finds a pair out of its place. -/
theorem parse_accepted (source : String) :
    ((Pairs.query source ⟨source.toList, 0⟩).value.isSome = true ↔ Nonempty (Match source)) ∧
      (∀ pair next, (Pairs.query source ⟨source.toList, 0⟩).value = some (pair, next) →
        ∀ malformed, buildQuery source [pair] = .error malformed → malformed.fault = .number) ∧
      ∀ m : Match source,
        ((∃ e, Expr.parse source = .ok e ∧ e.strip = m.tree.strip) ↔
          ∀ n ∈ m.numerals, n.value ≤ 2147483647) ∧
        ∀ err, Expr.parse source = .error err ↔
          ∃ n, m.FirstOversized n ∧
            err = .between source n.start n.stop ["number that fits in 32 bits"] := by
  refine ⟨?_, fun pair next hpair malformed => fault_of_buildQuery hpair, fun m => ?_⟩
  · rw [(agree_query source).isSome_eq]
    refine ⟨fun haccepted => ?_, fun ⟨m⟩ => ?_⟩
    · obtain ⟨⟨e, next⟩, hrun⟩ := Option.isSome_iff_exists.mp haccepted
      obtain ⟨m, -⟩ := exists_match_of_run hrun
      exact ⟨m⟩
    · obtain ⟨e, next, hrun, -⟩ := m.run
      simp [hrun]
  obtain ⟨e, next, hrun, hstrip⟩ := m.run
  have hparse := parse_of_run hrun
  rw [numerals_of_run hrun m] at hparse
  cases hfind : m.numerals.find? (fun n => !Text.fitsSigned 32 n.value) with
  | none =>
      rw [hfind] at hparse
      have hfits : ∀ n ∈ m.numerals, n.value ≤ 2147483647 := by
        intro n hn
        rw [← Match.fitsSigned_iff hn]
        simpa using List.find?_eq_none.mp hfind n hn
      refine ⟨⟨fun _ => hfits, fun _ => ⟨e, hparse, hstrip⟩⟩, fun err => ⟨fun herr => ?_, ?_⟩⟩
      · rw [hparse] at herr
        cases herr
      · rintro ⟨n, hfirst, -⟩
        rw [Match.firstOversized_iff, hfind] at hfirst
        cases hfirst
  | some k =>
      rw [hfind] at hparse
      have hfirst := Match.firstOversized_iff.mpr hfind
      refine ⟨⟨fun ⟨found, hfound, _⟩ => ?_, fun hfits => ?_⟩, fun err => ⟨fun herr => ?_, ?_⟩⟩
      · rw [hparse] at hfound
        cases hfound
      · have hle := hfits k (List.mem_of_find?_eq_some hfind)
        exact absurd hfirst.1 (by omega)
      · rw [hparse] at herr
        cases herr
        exact ⟨k, hfirst, rfl⟩
      · rintro ⟨n, hfirst', rfl⟩
        rw [Match.firstOversized_iff, hfind] at hfirst'
        cases hfirst'
        exact hparse

namespace Sample

/-- A sum whose second number is one too large. -/
def largeSource : String :=
  "5 +2147483648"

def largeMatch : Match largeSource where
  lexemes := [⟨[], .number 5, ['5']⟩, ⟨[' '], .sign .plus, ['+']⟩,
    ⟨[], .number 2147483648, "2147483648".toList⟩]
  last := []
  tree := .binary (.arith .add) (.constant (.number 5) .synthetic)
    (.constant (.number 2147483648) .synthetic) .synthetic
  cut := by
    have hspace : Layout false false [' '] := .blank rfl .nil
    refine .token .nil (by simp [Token.Spelled]; decide) ?_
    refine .token hspace (by simp [Token.Spelled, Sign.chars, longSigns]) ?_
    refine .token .nil (by simp [Token.Spelled]; decide) ?_
    exact .last .nil (by simp)
  text_eq := by decide
  derives := by
    have hnumber {b : Band} (n : Nat) : Derives b (.constant (.number n) .synthetic) [.number n] :=
      Derives.number.loosen (by cases b <;> decide)
    have hsum : Derives .addition (.binary (.arith .add) (.constant (.number 5) .synthetic)
        (.constant (.number 2147483648) .synthetic) .synthetic)
        ([.number 5] ++ .sign (BinaryOp.arith .add).sign :: [.number 2147483648]) :=
      .operand rfl (by decide) (hnumber 5) (hnumber 2147483648)
    exact hsum.loosen (by decide)

end Sample

theorem sample_parse_accepted : Sample.largeMatch.FirstOversized ⟨2147483648, 3, 13⟩ ∧
    Expr.parse Sample.largeSource =
      .error (.between Sample.largeSource 3 13 ["number that fits in 32 bits"]) ∧
    ∃ pair next malformed,
      (Pairs.query Sample.largeSource ⟨Sample.largeSource.toList, 0⟩).value = some (pair, next) ∧
        buildQuery Sample.largeSource [pair] = .error malformed ∧ malformed.fault = .number := by
  have hfirst : Sample.largeMatch.FirstOversized ⟨2147483648, 3, 13⟩ :=
    ⟨by decide, [⟨5, 0, 1⟩], [], by decide, by simp⟩
  obtain ⟨haccepted, hfault, hmatch⟩ := parse_accepted Sample.largeSource
  have hparse := ((hmatch Sample.largeMatch).2 _).mpr ⟨_, hfirst, rfl⟩
  obtain ⟨⟨pair, next⟩, hpair⟩ := Option.isSome_iff_exists.mp (haccepted.mpr ⟨Sample.largeMatch⟩)
  refine ⟨hfirst, hparse, pair, next, ?_⟩
  cases hbuild : buildQuery Sample.largeSource [pair] with
  | ok e =>
      rw [parse_of_pairs hpair, hbuild] at hparse
      cases hparse
  | error malformed => exact ⟨malformed, hpair, rfl, hfault pair next hpair malformed hbuild⟩

end RelQuery
