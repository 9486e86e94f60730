import RelQuery.Proofs.Grammar.Written

/-!
# What parsers read

`Reads` is a specification of a parser by what holds of the places where it starts and stops and of
the value it gives; `Refuses` says that it fails.  Each combinator has a rule.  Where the source is a
row of tokens, a parser stands at a token or past one, before the layout that follows it; the lexemes
of the grammar read the tokens of their kind, however they are written, and refuse all others.
-/

namespace RelQuery.Grammar

namespace Parser

variable {α β : Type} {P P' Q Q' R : Cursor → Prop} {post : α → Prop} {post' : β → Prop}

/-- From every place with `P` the parser reads a value with `post` and stops at a place with `Q`. -/
def Reads (p : Parser α) (P Q : Cursor → Prop) (post : α → Prop) : Prop :=
  ∀ cursor, P cursor → ∃ value next, (p cursor).value = some (value, next) ∧ Q next ∧ post value

/-- The parser fails at every place with `P`. -/
def Refuses (p : Parser α) (P : Cursor → Prop) : Prop :=
  ∀ cursor, P cursor → (p cursor).value = none

variable {p p' : Parser α} {f : α → Parser β}

/-! ## Rules of the combinators -/

theorem reads_pure {value : α} (h : post value) : Reads (pure value) P P post :=
  fun cursor hP => ⟨value, cursor, rfl, hP, h⟩

theorem reads_here : Reads here P P fun _ => True :=
  fun cursor hP => ⟨cursor.offset, cursor, rfl, hP, trivial⟩

theorem Reads.bind (h : Reads p P Q post) (hf : ∀ value, post value → Reads (f value) Q R post') :
    Reads (p >>= f) P R post' := by
  intro cursor hP
  obtain ⟨value, next, hread, hQ, hpost⟩ := h cursor hP
  obtain ⟨value', next', hread', hR, hpost'⟩ := hf value hpost next hQ
  refine ⟨value', next', ?_, hR, hpost'⟩
  change (p.andThen f cursor).value = _
  simp only [andThen, hread, hread']

theorem Reads.bind_refuses (h : Reads p P Q post)
    (hf : ∀ value, post value → Refuses (f value) Q) : Refuses (p >>= f) P := by
  intro cursor hP
  obtain ⟨value, next, hread, hQ, hpost⟩ := h cursor hP
  change (p.andThen f cursor).value = _
  simp only [andThen, hread, hf value hpost next hQ]

theorem Refuses.bind (h : Refuses p P) : Refuses (p >>= f) P := by
  intro cursor hP
  change (p.andThen f cursor).value = _
  simp only [andThen, h cursor hP]

theorem Reads.orElse (h : Reads p P Q post) : Reads (p <|> p') P Q post := by
  intro cursor hP
  obtain ⟨value, next, hread, hrest⟩ := h cursor hP
  refine ⟨value, next, ?_, hrest⟩
  change (Parser.orElse p p' cursor).value = _
  simp only [Parser.orElse, hread]

theorem Refuses.orElse_reads (h : Refuses p P) (h' : Reads p' P Q post) :
    Reads (p <|> p') P Q post := by
  intro cursor hP
  obtain ⟨value, next, hread, hrest⟩ := h' cursor hP
  refine ⟨value, next, ?_, hrest⟩
  change (Parser.orElse p p' cursor).value = _
  simp only [Parser.orElse, h cursor hP, hread]

theorem Refuses.orElse (h : Refuses p P) (h' : Refuses p' P) : Refuses (p <|> p') P := by
  intro cursor hP
  change (Parser.orElse p p' cursor).value = _
  simp only [Parser.orElse, h cursor hP, h' cursor hP]

theorem Reads.rule (h : Reads p P Q post) (expectation : Expectation) :
    Reads (rule expectation p) P Q post :=
  h

theorem Refuses.rule (h : Refuses p P) (expectation : Expectation) :
    Refuses (rule expectation p) P :=
  h

theorem Reads.of_imp (h : Reads p P Q post) (himp : ∀ cursor, P' cursor → P cursor) :
    Reads p P' Q post :=
  fun cursor hP' => h cursor (himp cursor hP')

theorem Reads.weaken (h : Reads p P Q post) (himp : ∀ cursor, Q cursor → Q' cursor) :
    Reads p P Q' post := by
  intro cursor hP
  obtain ⟨value, next, hread, hQ, hpost⟩ := h cursor hP
  exact ⟨value, next, hread, himp next hQ, hpost⟩

theorem Refuses.of_imp (h : Refuses p P) (himp : ∀ cursor, P' cursor → P cursor) : Refuses p P' :=
  fun cursor hP' => h cursor (himp cursor hP')

end Parser

open RelQuery.Grammar.Parser
open Text (isNameStart isNameChar isDigit)

variable {t : Token} {ts : List Token}

/-! ## Places between tokens -/

/-- The place with the given characters to come. -/
def Facing (cs : List Char) (cursor : Cursor) : Prop :=
  cursor.rest = cs

/-- A place before some tokens and the layout in front of them. -/
def Past (ts : List Token) (cursor : Cursor) : Prop :=
  Written ts cursor.rest []

/-- A place before some tokens, where no layout comes. -/
def At (ts : List Token) (cursor : Cursor) : Prop :=
  Past ts cursor ∧ Solid cursor.rest

theorem Facing.past {rest : List Char} {cursor : Cursor} (h : Facing rest cursor)
    (hrest : Written ts rest []) : Past ts cursor := by
  rw [Past, show cursor.rest = rest from h]
  exact hrest

theorem At.exists_spelled {cursor : Cursor} (h : At (t :: ts) cursor) :
    ∃ cs rest, cursor.rest = cs ++ rest ∧ t.Spelled cs rest ∧
      (t ≠ .keyword .binding → Written ts rest []) := by
  obtain ⟨cs, rest, hrest, hspelled, hwritten⟩ := h.1.exists_spelled h.2
  rw [List.append_nil] at hspelled
  exact ⟨cs, rest, hrest, hspelled, hwritten⟩

theorem at_nil_iff {cursor : Cursor} : At [] cursor ↔ cursor.rest = [] := by
  constructor
  · obtain ⟨rest, offset⟩ := cursor
    rintro ⟨hpast, hsolid⟩
    have hrest : Solid (rest ++ []) := by simpa using hsolid
    cases hpast with
    | layout hw _ => exact hrest.eq_nil hw
  · intro hrest
    rw [At, Past, hrest]
    exact ⟨.layout .nil fun _ => rfl, by simp [Solid]⟩

theorem reads_layout_facing {w rest : List Char} (hw : Layout false false w) (hrest : Solid rest) :
    Reads layout (Facing (w ++ rest)) (Facing rest) fun _ => True := by
  intro cursor hcursor
  refine ⟨(), _, rfl, ?_, trivial⟩
  rw [hcursor, skipLayout_append hw, hrest.skipLayout_eq]
  rfl

theorem reads_layout : Reads layout (Past ts) (At ts) fun _ => True := by
  rintro ⟨rest, offset⟩ hpast
  refine ⟨(), skipLayout false offset rest, rfl, ?_, trivial⟩
  cases hpast with
  | @layout stop _ _ hw _ =>
      rw [at_nil_iff, ← List.append_nil rest, skipLayout_append hw]
      cases stop <;> rfl
  | token hw ht h =>
      have hsolid := ht.solid
      rw [List.append_nil] at hsolid
      have hwritten := Written.token .nil ht h
      change At _ (skipLayout false offset (_ ++ _))
      rw [skipLayout_append hw, hsolid.skipLayout_eq]
      exact ⟨hwritten, hsolid⟩
  | binding hw hw₁ hne hx hw₂ h =>
      have hsolid : ∀ rest, Solid (Keyword.binding.text.toList ++ rest) :=
        fun rest => Token.Leads.solid (t := .keyword .binding) (.inl rfl)
      have hwritten := Written.binding .nil hw₁ hne hx hw₂ h
      change At _ (skipLayout false offset (_ ++ _))
      rw [skipLayout_append hw, (hsolid _).skipLayout_eq]
      exact ⟨hwritten, hsolid _⟩

/-! ## Lexemes -/

section Scanning

variable {scan : List Char → Option (List Char × List Char)} {post : List Char → Prop}

theorem reads_scanning_facing {cs rest : List Char} (h : scan (cs ++ rest) = some (cs, rest)) :
    Reads (scanning scan) (Facing (cs ++ rest)) (Facing rest) (· = cs) := by
  intro cursor hcursor
  refine ⟨cs, cursor.advance cs rest, ?_, rfl, rfl⟩
  simp only [scanning, show cursor.rest = cs ++ rest from hcursor, h]

/-- The head of a binding is not read token by token. -/
theorem reads_scanning (ht : t ≠ .keyword .binding)
    (h : ∀ cs rest, t.Spelled cs rest → Written ts rest [] →
      scan (cs ++ rest) = some (cs, rest) ∧ post cs) :
    Reads (scanning scan) (At (t :: ts)) (Past ts) post := by
  intro cursor hcursor
  obtain ⟨cs, rest, hrest, hspelled, hwritten⟩ := hcursor.exists_spelled
  obtain ⟨hscan, hpost⟩ := h cs rest hspelled (hwritten ht)
  refine ⟨cs, cursor.advance cs rest, ?_, hwritten ht, hpost⟩
  simp only [scanning, hrest, hscan]

theorem refuses_scanning (hnil : scan [] = none)
    (h : ∀ t, ts.head? = some t → ∀ cs rest, t.Spelled cs rest → scan (cs ++ rest) = none) :
    Refuses (scanning scan) (At ts) := by
  intro cursor hcursor
  cases ts with
  | nil => simp only [scanning, at_nil_iff.mp hcursor, hnil]
  | cons t ts =>
      obtain ⟨cs, rest, hrest, hspelled, -⟩ := hcursor.exists_spelled
      simp only [scanning, hrest, h t rfl cs rest hspelled]

/-- A lexeme is refused where its first character tells that it does not come. -/
theorem refuses_scanning_of_leads (hnil : scan [] = none)
    (h : ∀ t, ts.head? = some t → ∀ c cs, t.Leads c → scan (c :: cs) = none) :
    Refuses (scanning scan) (At ts) := by
  apply refuses_scanning hnil
  intro t ht cs rest hspelled
  obtain ⟨c, ds, rfl, hleads⟩ := hspelled.leads
  exact h t ht c _ hleads

end Scanning

/-! ### Signs -/

section Signs

variable {text : String} {s : Sign}

theorem reads_symbol_facing (text : String) {rest : List Char} :
    Reads (symbol text) (Facing (text.toList ++ rest)) (Facing rest) fun _ => True := by
  have hsplit : text.toList.isPrefixOf? (text.toList ++ rest) = some rest :=
    List.isPrefixOf?_eq_some_iff_append_eq.mpr rfl
  refine (reads_scanning_facing ?_).bind fun _ _ => reads_pure trivial
  rw [hsplit]
  rfl

theorem refuses_symbol_facing {c d : Char} {cs ds : List Char} (htext : text.toList = c :: cs)
    (hne : d ≠ c) : Refuses (symbol text) (Facing (d :: ds)) := by
  intro cursor hcursor
  have hsplit : text.toList.isPrefixOf? cursor.rest = none := by
    simp [htext, show cursor.rest = d :: ds from hcursor, List.isPrefixOf?, hne.symm]
  simp [symbol, andThen, scanning, hsplit]

theorem reads_symbol (ht : t ≠ .keyword .binding)
    (h : ∀ cs rest, t.Spelled cs rest → cs = text.toList) :
    Reads (symbol text) (At (t :: ts)) (Past ts) fun _ => True := by
  have hscan : Reads
      (scanning fun cs => (text.toList.isPrefixOf? cs).map fun rest => (text.toList, rest))
      (At (t :: ts)) (Past ts) fun _ => True := by
    refine reads_scanning ht fun cs rest hspelled _ => ⟨?_, trivial⟩
    have hsplit : text.toList.isPrefixOf? (cs ++ rest) = some rest :=
      List.isPrefixOf?_eq_some_iff_append_eq.mpr (by rw [h cs rest hspelled])
    rw [hsplit, h cs rest hspelled]
    rfl
  exact hscan.bind fun _ _ => reads_pure trivial

theorem reads_sign (htext : text.toList = s.chars) (hs : s ≠ .atMost) :
    Reads (symbol text) (At (.sign s :: ts)) (Past ts) fun _ => True := by
  refine reads_symbol (by simp) fun cs rest hspelled => ?_
  rw [hspelled.eq_chars hs, htext]

/-- A text is refused where no token comes that starts like it. -/
theorem refuses_symbol {c : Char} {cs : List Char} (htext : text.toList = c :: cs)
    (h : ∀ t, ts.head? = some t → ¬ t.Leads c) : Refuses (symbol text) (At ts) := by
  refine Refuses.bind (refuses_scanning_of_leads ?_ ?_)
  · simp [htext, List.isPrefixOf?]
  · intro t ht d ds hleads
    have hne : c ≠ d := by
      rintro rfl
      exact h t ht hleads
    simp [htext, List.isPrefixOf?, hne]

/-- A character with which of all tokens only signs may start. -/
def isSignChar (c : Char) : Bool :=
  !isNameChar c && c != '\x27' && c != '"' && c != '\x60' && c != 'Σ'

theorem Token.Leads.sign {c : Char} (h : t.Leads c) (hc : isSignChar c = true) :
    ∃ s, t = .sign s := by
  simp only [isSignChar, Bool.and_eq_true, Bool.not_eq_true', bne_iff_ne] at hc
  obtain ⟨⟨⟨⟨hname, hsingle⟩, hdouble⟩, htick⟩, hsigma⟩ := hc
  have hword : isNameChar c ≠ true := by simp [hname]
  cases t with
  | sign s => exact ⟨s, rfl⟩
  | text value => exact (h.elim hsingle hdouble).elim
  | formula f => exact (htick h).elim
  | name x => exact (hword (isNameChar_of_isNameStart h)).elim
  | number value => exact (hword (isNameChar_of_isDigit h)).elim
  | keyword word =>
      rcases h with hhead | ⟨-, rfl⟩
      · exact (hword (Keyword.isNameChar_of_mem (List.mem_of_head? hhead))).elim
      · exact (hsigma rfl).elim

theorem eq_of_isPrefix_chars {s' : Sign} (hs : s ∉ ambiguousSigns) (h : s.chars <+: s'.chars) :
    s' = s := by
  cases s <;> simp [ambiguousSigns] at hs <;> cases s' <;> simp [Sign.chars] at h ⊢

theorem mem_longSigns {s' : Sign} {c : Char} (hs : s ∉ ambiguousSigns)
    (h : s.chars = s'.chars ++ [c]) : s.chars ∈ longSigns := by
  cases s <;> simp [ambiguousSigns] at hs <;> cases s' <;> simp [Sign.chars, longSigns] at h ⊢

theorem not_isPrefix_of_spelled {cs rest : List Char} (hs : s ∉ ambiguousSigns)
    (ht : t.Spelled cs rest) (hne : t ≠ .sign s) : ¬ s.chars <+: cs ++ rest := by
  intro hle
  obtain ⟨s', rfl⟩ : ∃ s', t = .sign s' := by
    obtain ⟨c, ds, rfl, hleads⟩ := ht.leads
    have hc : s.chars.head? = some c := by
      cases s <;> exact congrArg some (List.cons_prefix_cons.mp hle).1
    have hsign : ∀ c, s.chars.head? = some c → isSignChar c = true := by
      intro c hc
      cases s <;> cases hc <;> decide
    exact hleads.sign (hsign c hc)
  obtain ⟨rfl | ⟨rfl, rfl⟩, hend⟩ := ht
  · rcases List.prefix_or_prefix_of_prefix hle (List.prefix_append _ _) with hshort | ⟨more, hmore⟩
    · rw [eq_of_isPrefix_chars hs hshort] at hne
      exact hne rfl
    · -- The sign would go on behind a shorter one, which ends there.
      rw [← hmore, List.prefix_append_right_inj] at hle
      cases more with
      | nil =>
          rw [List.append_nil] at hmore
          have hshort : s.chars <+: s'.chars := by rw [hmore]
          rw [eq_of_isPrefix_chars hs hshort] at hne
          exact hne rfl
      | cons c more =>
          obtain rfl : more = [] := by
            cases s <;> cases s' <;> simp [Sign.chars] at hmore <;> simp [hmore]
          have hhead : c ∈ rest.head? := by
            obtain ⟨rest, rfl⟩ := hle
            rfl
          exact hend c hhead (hmore ▸ mem_longSigns hs hmore.symm)
  · cases s <;> simp [ambiguousSigns, Sign.chars] at hs hle

/-- A sign that no other token starts with is refused where it does not stand. -/
theorem refuses_sign (htext : text.toList = s.chars) (hs : s ∉ ambiguousSigns)
    (h : ts.head? ≠ some (.sign s)) : Refuses (symbol text) (At ts) := by
  have hne : s.chars ≠ [] := by cases s <;> decide
  refine Refuses.bind (refuses_scanning ?_ ?_)
  · cases hchars : s.chars with
    | nil => exact (hne hchars).elim
    | cons c cs => simp [htext, hchars, List.isPrefixOf?]
  · intro t ht cs rest hspelled
    rw [Option.map_eq_none_iff, Option.eq_none_iff_forall_ne_some]
    intro after hsplit
    rw [List.isPrefixOf?_eq_some_iff_append_eq, htext] at hsplit
    refine not_isPrefix_of_spelled hs hspelled ?_ ⟨after, hsplit⟩
    rintro rfl
    exact h ht

end Signs

/-! ### Words -/

theorem keyword_text_injective {word word' : Keyword} (h : word.text.toList = word'.text.toList) :
    word = word' := by
  revert h
  cases word <;> cases word' <;> decide

theorem isKeyword_text (word : Keyword) : isKeyword word.text.toList = true := by
  cases word <;> decide

section Span

variable {p : Char → Bool} {cs rest : List Char} (hall : ∀ c ∈ cs, p c = true)
  (hrest : ∀ c ∈ rest.head?, p c = false)

include hall hrest

theorem takeWhile_append : (cs ++ rest).takeWhile p = cs := by
  rw [List.takeWhile_append_of_pos hall]
  cases rest with
  | nil => simp
  | cons c rest => simp [hrest c rfl]

/-- A class of characters splits off a row of its characters that none of them follows. -/
theorem spanWhile_append : spanWhile p (cs ++ rest) = (cs, rest) := by
  rw [spanWhile, takeWhile_append hall hrest, List.dropWhile_append_of_pos hall]
  cases rest with
  | nil => simp
  | cons c rest => simp [hrest c rfl]

end Span

/-- Only names and keywords start with the first character of a name. -/
theorem Token.Leads.word {c : Char} (h : t.Leads c) (hc : isNameStart c = true) :
    (∃ x, t = .name x) ∨ ∃ word, t = .keyword word := by
  cases t with
  | name x => exact .inl ⟨x, rfl⟩
  | keyword word => exact .inr ⟨word, rfl⟩
  | text value => rcases h with rfl | rfl <;> simp [isNameStart] at hc
  | formula f =>
      obtain rfl : c = '\x60' := h
      simp [isNameStart] at hc
  | number value =>
      have hdigit : c.isDigit = true := by
        simpa [Leads, isDigit, Char.isDigit, Char.le_def] using h
      simp only [isNameStart, Bool.or_eq_true, beq_iff_eq] at hc
      rcases hc with hletter | rfl
      · have hranges : (decide (c.val ≥ 'A'.val ∧ c.val ≤ 'Z'.val) ||
            (decide (c.val ≥ 'a'.val) && decide (c.val ≤ 'z'.val))) = true := hletter
        simp only [Char.isDigit, Bool.or_eq_true, Bool.and_eq_true, decide_eq_true_eq]
          at hdigit hranges
        grind
      · exact absurd hdigit (by decide)
  | sign s =>
      rcases h with h | ⟨-, rfl⟩
      · cases s <;> cases h <;> simp [isNameStart] at hc
      · simp [isNameStart] at hc

section Words

variable {word : Keyword} {x : String} {rest : List Char}

theorem scanKeyword_append (hrest : ∀ c ∈ rest.head?, isNameChar c = false) :
    scanKeyword word (word.text.toList ++ rest) = some (word.text.toList, rest) := by
  have hall : ∀ c ∈ word.text.toList, isNameChar c = true := fun c => Keyword.isNameChar_of_mem
  rw [scanKeyword, takeWhile_append hall hrest, if_pos rfl, spanWhile_append hall hrest]

theorem scanName_append (hx : IsName x) (hrest : ∀ c ∈ rest.head?, isNameChar c = false) :
    scanName (x.toList ++ rest) = some (x.toList, rest) := by
  have hall : ∀ c ∈ x.toList, isNameChar c = true := fun c => hx.isNameChar
  obtain ⟨c, cs, hchars, hstart⟩ := hx.head
  have hhead : ((x.toList ++ rest).head?.map isNameStart).getD false = true := by
    rw [hchars]
    exact hstart
  rw [scanName, takeWhile_append hall hrest, hx.2, hhead, spanWhile_append hall hrest]
  rfl

theorem reads_keyword_facing (hrest : ∀ c ∈ rest.head?, isNameChar c = false) :
    Reads (keyword word) (Facing (word.text.toList ++ rest)) (Facing rest) fun _ => True :=
  ((reads_scanning_facing (scanKeyword_append hrest)).rule _).bind fun _ _ => reads_pure trivial

theorem reads_keyword (hbinding : word ≠ .binding) (hsum : word ≠ .sum) :
    Reads (keyword word) (At (.keyword word :: ts)) (Past ts) fun _ => True := by
  have hscan : Reads (lexeme word.expectation (scanKeyword word)) (At (.keyword word :: ts))
      (Past ts) fun _ => True := by
    refine (reads_scanning (by simpa using hbinding) fun cs rest hspelled _ => ?_).rule _
    rcases hspelled with ⟨rfl, hrest⟩ | ⟨heq, -⟩
    · exact ⟨scanKeyword_append hrest, trivial⟩
    · exact (hsum heq).elim
  exact hscan.bind fun _ _ => reads_pure trivial

theorem takeWhile_of_leads {c : Char} {cs : List Char} (h : isNameChar c = false) :
    (c :: cs).takeWhile isNameChar = [] := by
  simp [h]

theorem refuses_keyword (h : ts.head? ≠ some (.keyword word)) :
    Refuses (keyword word) (At ts) := by
  have hne : word.text.toList ≠ [] := by cases word <;> decide
  refine Refuses.bind ((refuses_scanning ?_ ?_).rule _)
  · rw [scanKeyword, List.takeWhile_nil, if_neg hne.symm]
  intro t ht cs rest hspelled
  rw [scanKeyword, if_neg]
  intro htake
  cases t with
  | keyword word' =>
      rcases hspelled with ⟨rfl, hrest⟩ | ⟨rfl, rfl⟩
      · rw [takeWhile_append (fun c => Keyword.isNameChar_of_mem) hrest] at htake
        rw [keyword_text_injective htake] at ht
        exact h ht
      · exact hne (htake.symm.trans (takeWhile_of_leads (by decide)))
  | name x =>
      obtain ⟨hname, rfl, hrest⟩ := hspelled
      rw [takeWhile_append (fun c => hname.isNameChar) hrest] at htake
      have hword := hname.2
      rw [htake, isKeyword_text] at hword
      cases hword
  | number value =>
      -- A keyword starts with a letter and a number with a digit.
      obtain ⟨c, ds, rfl, hdigit⟩ := hspelled.leads
      have hhead : word.text.toList.head? = some c := by
        rw [← htake, List.cons_append, List.takeWhile_cons, if_pos (isNameChar_of_isDigit hdigit)]
        rfl
      have hletter : ∀ c, word.text.toList.head? = some c → isDigit c = false := by
        intro c hc
        cases word <;> cases hc <;> decide
      rw [Token.Leads, hletter c hhead] at hdigit
      cases hdigit
  | text value =>
      obtain ⟨c, ds, rfl, hleads⟩ := hspelled.leads
      refine hne (htake.symm.trans (takeWhile_of_leads ?_))
      rcases hleads with rfl | rfl <;> decide
  | formula f =>
      obtain ⟨c, ds, rfl, hleads⟩ := hspelled.leads
      obtain rfl : c = '\x60' := hleads
      exact hne (htake.symm.trans (takeWhile_of_leads (by decide)))
  | sign s =>
      obtain ⟨c, ds, rfl, hleads⟩ := hspelled.leads
      refine hne (htake.symm.trans (takeWhile_of_leads ?_))
      rcases hleads with hhead | ⟨-, rfl⟩
      · cases s <;> cases hhead <;> decide
      · decide

theorem reads_ident_facing (hx : IsName x) (hrest : ∀ c ∈ rest.head?, isNameChar c = false) :
    Reads ident (Facing (x.toList ++ rest)) (Facing rest) (· = x) := by
  have hscan : Reads (lexeme .identifier scanName) (Facing (x.toList ++ rest)) (Facing rest)
      (· = x.toList) := (reads_scanning_facing (scanName_append hx hrest)).rule _
  refine hscan.bind fun cs hcs => reads_pure ?_
  rw [hcs, String.ofList_toList]

theorem reads_ident : Reads ident (At (.name x :: ts)) (Past ts) (· = x) := by
  have hscan : Reads (lexeme .identifier scanName) (At (.name x :: ts)) (Past ts)
      (· = x.toList) := by
    refine (reads_scanning (by simp) fun cs rest hspelled _ => ?_).rule _
    obtain ⟨hx, rfl, hrest⟩ := hspelled
    exact ⟨scanName_append hx hrest, rfl⟩
  refine hscan.bind fun cs hcs => reads_pure ?_
  rw [hcs, String.ofList_toList]

theorem refuses_ident (h : ∀ x, ts.head? ≠ some (.name x)) : Refuses ident (At ts) := by
  refine Refuses.bind ((refuses_scanning rfl ?_).rule _)
  intro t ht cs rest hspelled
  obtain ⟨c, ds, rfl, hleads⟩ := hspelled.leads
  cases hstart : isNameStart c with
  | false => simp [scanName, hstart]
  | true =>
      rcases hleads.word hstart with ⟨x, rfl⟩ | ⟨word, rfl⟩
      · exact (h x ht).elim
      · rcases hspelled with ⟨htext, hrest⟩ | ⟨-, hsigma⟩
        · rw [htext, scanName, takeWhile_append (fun c => Keyword.isNameChar_of_mem) hrest,
            isKeyword_text]
          simp
        · cases hsigma
          exact absurd hstart (by decide)

/-- The head of a binding, up to what its sign is followed by. -/
theorem reads_bindingHead {α : Type} {f : String → Parser α} {Q : Cursor → Prop} {post : α → Prop}
    (h : Reads (f x) (Past ts) Q post) :
    Reads (keyword .binding >>= fun _ => layout >>= fun _ => ident >>= fun bound =>
        layout >>= fun _ => symbol "=" >>= fun _ => f bound)
      (At (.keyword .binding :: .name x :: .sign .equal :: ts)) Q post := by
  intro cursor hcursor
  obtain ⟨w₁, w₂, rest, hrest, hw₁, hne, hx, hw₂, hwritten⟩ := hcursor.1.exists_binding hcursor.2
  have hsolid : Solid (x.toList ++ (w₂ ++ '=' :: rest)) := by
    obtain ⟨c, cs, hchars, hstart⟩ := hx.head
    rw [hchars]
    exact Token.Leads.solid (t := .name x) hstart
  have hend : ∀ c ∈ (w₂ ++ '=' :: rest).head?, isNameChar c = false := by
    cases w₂ with
    | nil =>
        intro c hc
        cases hc
        decide
    | cons c w₂ => exact fun d hd => isNameChar_of_layout hw₂ (by simp) hd
  have hkeyword : Reads (keyword .binding)
      (Facing (Keyword.binding.text.toList ++ (w₁ ++ (x.toList ++ (w₂ ++ '=' :: rest)))))
      (Facing (w₁ ++ (x.toList ++ (w₂ ++ '=' :: rest)))) fun _ => True :=
    reads_keyword_facing fun c hc => isNameChar_of_layout hw₁ hne hc
  have hsign : Reads (symbol "=") (Facing ('=' :: rest)) (Facing rest) fun _ => True :=
    reads_symbol_facing "="
  refine Reads.bind hkeyword (fun _ _ => (reads_layout_facing hw₁ hsolid).bind fun _ _ =>
    (reads_ident_facing hx hend).bind fun bound hbound =>
      (reads_layout_facing hw₂ ?_).bind fun _ _ => hsign.bind fun _ _ => ?_) cursor hrest
  · intro c hc
    cases hc
    decide
  · rw [hbound]
    exact h.of_imp fun next hnext => hnext.past hwritten

end Words

/-! ### Constants and formulas -/

theorem reads_number {n : Nat} :
    Reads (lexeme .number scanNumber) (At (.number n :: ts)) (Past ts)
      fun digits => Text.digitsValue digits = n := by
  refine (reads_scanning (by simp) fun cs rest hspelled _ => ?_).rule _
  obtain ⟨hne, hall, hvalue, hrest⟩ := hspelled
  refine ⟨?_, hvalue⟩
  rw [scanNumber, takeWhile_append hall hrest, spanWhile_append hall hrest,
    if_neg (by simpa using hne)]

/-- Only numbers start with a digit. -/
theorem Token.Leads.number {c : Char} (h : t.Leads c) (hc : isDigit c = true) :
    ∃ n, t = .number n := by
  have hdigit : (Token.number 0).Leads c := hc
  have hstart : isNameStart c = false := by
    cases hstart : isNameStart c with
    | false => rfl
    | true => rcases hdigit.word hstart with ⟨x, hx⟩ | ⟨word, hword⟩ <;> contradiction
  cases t with
  | number n => exact ⟨n, rfl⟩
  | text value => rcases h with rfl | rfl <;> simp [isDigit] at hc
  | formula f =>
      obtain rfl : c = '\x60' := h
      simp [isDigit] at hc
  | name x =>
      rw [Leads, hstart] at h
      cases h
  | keyword word =>
      rcases h with h | ⟨-, rfl⟩
      · have hletter : word.text.toList.head?.map isNameStart = some true := by
          cases word <;> decide
        rw [h, Option.map_some, hstart] at hletter
        cases hletter
      · exact absurd hc (by decide)
  | sign s =>
      rcases h with h | ⟨-, rfl⟩
      · cases s <;> cases h <;> simp [isDigit] at hc
      · exact absurd hc (by decide)

theorem refuses_number (h : ∀ n, ts.head? ≠ some (.number n)) :
    Refuses (lexeme .number scanNumber) (At ts) := by
  refine (refuses_scanning_of_leads rfl ?_).rule _
  intro t ht c cs hleads
  cases hdigit : isDigit c with
  | false => simp [scanNumber, hdigit]
  | true =>
      obtain ⟨n, rfl⟩ := hleads.number hdigit
      exact (h n ht).elim

theorem scanString_append {value : String} {cs rest : List Char}
    (h : (Token.text value).Spelled cs rest) :
    scanString (cs ++ rest) = some (cs, rest) ∧ unescape (enclosed cs) = value.toList := by
  obtain ⟨quote, body, hquote, hescapes, rfl⟩ := h
  have hbackslash : quote ≠ '\\' := by rcases hquote with rfl | rfl <;> decide
  have hbody := scanQuotedBody_of_escapes hescapes hbackslash rest
  have hscan : scanQuoted quote (quote :: body ++ [quote] ++ rest) =
      some (quote :: body ++ [quote], rest) := by
    simp [scanQuoted, hbody]
  refine ⟨?_, by simp [enclosed, unescape_of_escapes hescapes]⟩
  rcases hquote with rfl | rfl
  · rw [scanString, hscan]
    rfl
  · have hsingle : scanQuoted '\x27' ('"' :: body ++ ['"'] ++ rest) = none := by
      simp [scanQuoted]
    rw [scanString, hsingle, hscan]
    rfl

theorem reads_string {value : String} :
    Reads (lexeme .string scanString) (At (.text value :: ts)) (Past ts)
      fun quoted => unescape (enclosed quoted) = value.toList :=
  (reads_scanning (by simp) fun _ _ hspelled _ => scanString_append hspelled).rule _

theorem refuses_string (h : ∀ value, ts.head? ≠ some (.text value)) :
    Refuses (lexeme .string scanString) (At ts) := by
  refine (refuses_scanning_of_leads rfl ?_).rule _
  intro t ht c cs hleads
  have hquote : c ≠ '\x27' ∧ c ≠ '"' := by
    cases t with
    | text value => exact (h value ht).elim
    | keyword word =>
        rcases hleads with hleads | ⟨-, rfl⟩
        · cases word <;> cases hleads <;> decide
        · decide
    | sign s =>
        rcases hleads with hleads | ⟨-, rfl⟩
        · cases s <;> cases hleads <;> decide
        · decide
    | _ => constructor <;> rintro rfl <;> simp [Token.Leads, isDigit, isNameStart] at hleads
  simp [scanString, scanQuoted, hquote]

theorem reads_formula {f : String} :
    Reads (lexeme .formula scanFormula) (At (.formula f :: ts)) (Past ts)
      fun quoted => Text.trimBlanks (enclosed quoted) = f.toList := by
  refine (reads_scanning (by simp) fun cs rest hspelled _ => ?_).rule _
  obtain ⟨body, hbody, htrim, rfl⟩ := hspelled
  have hall : ∀ c ∈ body, decide (c ≠ '\x60') = true :=
    fun c hc => decide_eq_true fun heq => hbody (heq ▸ hc)
  refine ⟨?_, by simpa [enclosed] using htrim⟩
  simp only [List.cons_append, List.append_assoc, List.nil_append, scanFormula,
    List.takeWhile_append_of_pos hall, List.dropWhile_append_of_pos hall]
  simp

theorem refuses_formula (h : ∀ f, ts.head? ≠ some (.formula f)) :
    Refuses (lexeme .formula scanFormula) (At ts) := by
  refine (refuses_scanning_of_leads rfl ?_).rule _
  intro t ht c cs hleads
  have htick : c ≠ '\x60' := by
    cases t with
    | formula f => exact (h f ht).elim
    | keyword word =>
        rcases hleads with hleads | ⟨-, rfl⟩
        · cases word <;> cases hleads <;> decide
        · decide
    | sign s =>
        rcases hleads with hleads | ⟨-, rfl⟩
        · cases s <;> cases hleads <;> decide
        · decide
    | _ => rintro rfl; simp [Token.Leads, isDigit, isNameStart] at hleads
  unfold scanFormula
  split
  · simp_all
  · rfl

/-! ### Signs with a look at what follows -/

section NotBefore

variable {c forbidden : Char} {s : Sign}

theorem reads_notBefore (hs : s.chars = [c]) (hlong : [c, forbidden] ∈ longSigns)
    (expectation : Expectation) :
    Reads (lexeme expectation (scanNotBefore c forbidden)) (At (.sign s :: ts)) (Past ts)
      fun _ => True := by
  refine (reads_scanning (by simp) fun cs rest hspelled _ => ⟨?_, trivial⟩).rule _
  obtain ⟨rfl | ⟨rfl, -⟩, hend⟩ := hspelled
  · have hnext : (rest.head? != some forbidden) = true := by
      rw [bne_iff_ne]
      intro hhead
      exact hend forbidden hhead (by simpa [hs] using hlong)
    simp [hs, scanNotBefore, hnext]
  · cases hs

theorem refuses_notBefore (hc : isSignChar c = true) (hequal : c ≠ '=')
    (hs : ∀ s', s'.chars.head? = some c → s' = s ∨ ∃ cs, s'.chars = c :: forbidden :: cs)
    (h : ts.head? ≠ some (.sign s)) (expectation : Expectation) :
    Refuses (lexeme expectation (scanNotBefore c forbidden)) (At ts) := by
  refine (refuses_scanning rfl ?_).rule _
  intro t ht cs rest hspelled
  obtain ⟨d, ds, rfl, hleads⟩ := hspelled.leads
  by_cases hd : d = c
  · subst hd
    obtain ⟨s', rfl⟩ := hleads.sign hc
    obtain ⟨hchars | ⟨-, hchars⟩, -⟩ := hspelled
    · rcases hs s' (by rw [← hchars]; rfl) with rfl | ⟨cs, hcs⟩
      · exact (h ht).elim
      · rw [hchars, hcs]
        simp [scanNotBefore]
    · exact (hequal (List.cons.inj hchars).1).elim
  · simp [scanNotBefore, hd]

end NotBefore

theorem reads_endOfInput : Reads endOfInput (At []) (At []) fun _ => True := by
  intro cursor hcursor
  refine ⟨(), cursor, ?_, hcursor, trivial⟩
  simp [endOfInput, rule, at_nil_iff.mp hcursor, succeed]

/-! ## Rows of items -/

section Items

variable {β γ : Type} {item : Parser β} {tokens : γ → List Token} {R : γ → β → Prop}
variable {Continues : List Token → Prop} {us : List Token}

theorem continues_flatMap {steps : List γ} (hus : Continues us)
    (hsteps : ∀ step ∈ steps, ∀ vs, Continues (tokens step ++ vs)) :
    Continues (steps.flatMap tokens ++ us) := by
  cases steps with
  | nil => exact hus
  | cons step steps =>
      rw [List.flatMap_cons, List.append_assoc]
      exact hsteps step List.mem_cons_self _

theorem length_le_flatMap {steps : List γ} (hne : ∀ step ∈ steps, tokens step ≠ []) :
    steps.length ≤ (steps.flatMap tokens).length := by
  induction steps with
  | nil => simp
  | cons step steps ih =>
      rw [List.forall_mem_cons] at hne
      have hstep := List.length_pos_of_ne_nil hne.1
      have hrest := ih hne.2
      simp only [List.length_cons, List.flatMap_cons, List.length_append]
      omega

/-- Items are read one after another up to a place where none comes.  What an item reads may depend
on what follows it, and it is followed by another item or by the end of the row. -/
theorem reads_further {steps : List γ} (hus : Continues us)
    (hsteps : ∀ step ∈ steps, ∀ vs, Continues (tokens step ++ vs))
    (hitem : ∀ step ∈ steps, ∀ vs, Continues vs →
      Reads item (At (tokens step ++ vs)) (Past vs) (R step))
    (hstop : Refuses item (At us)) {n : Nat} (hn : steps.length ≤ n) :
    Reads (further item n) (Past (steps.flatMap tokens ++ us)) (Past us)
      (List.Forall₂ R steps) := by
  induction steps generalizing n with
  | nil =>
      cases n with
      | zero => exact reads_pure .nil
      | succ n =>
          have hrefuses : Refuses (layout >>= fun _ => item >>= fun first =>
              further item n >>= fun rest => pure (first :: rest)) (Past us) :=
            reads_layout.bind_refuses fun _ _ => hstop.bind
          exact hrefuses.orElse_reads (reads_pure .nil)
  | cons step steps ih =>
      obtain ⟨n, rfl⟩ : ∃ m, n = m + 1 := ⟨n - 1, by simp only [List.length_cons] at hn; omega⟩
      rw [List.forall_mem_cons] at hsteps hitem
      have hlength : steps.length ≤ n := by simpa using hn
      have hrest := continues_flatMap hus hsteps.2
      rw [List.flatMap_cons, List.append_assoc]
      have hread : Reads (layout >>= fun _ => item >>= fun first =>
          further item n >>= fun rest => pure (first :: rest))
          (Past (tokens step ++ (steps.flatMap tokens ++ us))) (Past us)
          (List.Forall₂ R (step :: steps)) := by
        refine reads_layout.bind fun _ _ => (hitem.1 _ hrest).bind fun first hfirst => ?_
        refine (ih hsteps.2 hitem.2 hlength).bind fun rest hrest => ?_
        exact reads_pure (.cons hfirst hrest)
      exact hread.orElse

theorem Parser.Refuses.items (h : Refuses item (At us)) :
    Reads (items item) (Past us) (Past us) (· = []) := by
  refine reads_layout.bind fun _ _ => ?_
  have hrefuses : Refuses (item >>= fun first =>
      allFurther item >>= fun rest => pure (first :: rest)) (At us) := h.bind
  refine hrefuses.orElse_reads ?_
  exact fun cursor hcursor => ⟨[], cursor, rfl, hcursor.1, rfl⟩

theorem reads_items {steps : List γ} (hus : Continues us)
    (hsteps : ∀ step ∈ steps, ∀ vs, Continues (tokens step ++ vs))
    (hitem : ∀ step ∈ steps, ∀ vs, Continues vs →
      Reads item (At (tokens step ++ vs)) (Past vs) (R step))
    (hne : ∀ step ∈ steps, tokens step ≠ []) (hstop : Refuses item (At us)) :
    Reads (items item) (Past (steps.flatMap tokens ++ us)) (Past us)
      (List.Forall₂ R steps) := by
  cases steps with
  | nil =>
      intro cursor hcursor
      obtain ⟨values, next, hread, hnext, rfl⟩ := hstop.items cursor hcursor
      exact ⟨[], next, hread, hnext, .nil⟩
  | cons step steps =>
      refine reads_layout.bind fun _ _ => ?_
      rw [List.forall_mem_cons] at hsteps hitem hne
      have hrest := continues_flatMap hus hsteps.2
      have hread : Reads (item >>= fun first =>
          allFurther item >>= fun rest => pure (first :: rest))
          (At (tokens step ++ (steps.flatMap tokens ++ us))) (Past us)
          (List.Forall₂ R (step :: steps)) := by
        refine (hitem.1 _ hrest).bind fun first hfirst => ?_
        have hfurther : Reads (allFurther item) (Past (steps.flatMap tokens ++ us))
            (Past us) (List.Forall₂ R steps) := by
          intro cursor hcursor
          have hlength : steps.length ≤ cursor.rest.length := by
            have hsteps := length_le_flatMap hne.2
            have hpast := hcursor.length_le
            rw [List.length_append] at hpast
            omega
          exact reads_further hus hsteps.2 hitem.2 hstop hlength cursor hcursor
        exact hfurther.bind fun rest hrest => reads_pure (.cons hfirst hrest)
      rw [List.flatMap_cons, List.append_assoc]
      exact hread.orElse

end Items

end RelQuery.Grammar
