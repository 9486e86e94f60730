import RelQuery.Proofs.Grammar.Token
import RelQuery.Proofs.Text.Basic

/-!
# Tokens as they are written

A source is a row of tokens with layout before, between and behind them.  `Token.Spelled` gives all
spellings of a token; where a token ends may depend on the character behind it.  `Written ts u v`
says that `u`, in front of `v`, is a way to write the tokens `ts`; the spelling with one blank
between any two tokens is such a way.
-/

namespace RelQuery.Grammar

open Text (isNameStart isNameChar isDigit isDigit_of_mem_toDigits)

/-! ## Layout -/

/-- Layout, where `start` and `stop` tell whether it starts and stops inside a comment. -/
inductive Layout : (start stop : Bool) → List Char → Prop where
  | nil {mode : Bool} : Layout mode mode []
  | blank {stop : Bool} {c : Char} {w : List Char} (hc : isLayout c = true)
      (h : Layout false stop w) : Layout false stop (c :: w)
  | opening {stop : Bool} {w : List Char} (h : Layout true stop w) :
      Layout false stop ('/' :: '/' :: w)
  | inside {stop : Bool} {c : Char} {w : List Char} (hc : c ≠ '\n') (h : Layout true stop w) :
      Layout true stop (c :: w)
  | closing {stop : Bool} {w : List Char} (h : Layout false stop w) : Layout true stop ('\n' :: w)

theorem isLayout_iff {c : Char} :
    isLayout c = true ↔ c = ' ' ∨ c = '\t' ∨ c = '\r' ∨ c = '\n' := by
  simp [isLayout, or_assoc]

section Layout

variable {start mid stop : Bool} {w w' rest : List Char}

theorem Layout.append (h : Layout start mid w) (h' : Layout mid stop w') :
    Layout start stop (w ++ w') := by
  induction h with
  | nil => exact h'
  | blank hc _ ih => exact .blank hc (ih h')
  | opening _ ih => exact .opening (ih h')
  | inside hc _ ih => exact .inside hc (ih h')
  | closing _ ih => exact .closing (ih h')

theorem skipLayout_append (h : Layout start stop w) (offset : Nat) :
    skipLayout start offset (w ++ rest) =
      skipLayout stop (offset + Text.byteLength w) rest := by
  induction h generalizing offset with
  | nil => simp
  | blank hc _ ih =>
      have hsize : ∀ c, isLayout c = true → c.utf8Size = 1 ∧ c ≠ '/' := by
        intro c hc
        rcases isLayout_iff.mp hc with rfl | rfl | rfl | rfl <;> decide
      obtain ⟨hsize, hslash⟩ := hsize _ hc
      rw [List.cons_append, skipLayout, if_pos hc, ih, Text.byteLength, hsize, Nat.add_assoc]
      exact fun cs hcs => absurd hcs hslash
  | opening _ ih =>
      have hsize : '/'.utf8Size = 1 := by decide
      rw [List.cons_append, List.cons_append, skipLayout, ih, Text.byteLength, Text.byteLength, hsize]
      congr 1
      omega
  | inside hc _ ih =>
      rw [List.cons_append, skipLayout, decide_eq_true hc, ih, Text.byteLength, Nat.add_assoc]
  | closing _ ih =>
      rw [List.cons_append, skipLayout, decide_eq_false (by simp), ih, Text.byteLength,
        Nat.add_assoc]

/-- What is passed over is layout, and it stops inside a comment only at the end of the source. -/
theorem exists_skipLayout (start : Bool) (offset : Nat) (cs : List Char) :
    ∃ w rest stop, cs = w ++ rest ∧ Layout start stop w ∧ (stop = true → rest = []) ∧
      skipLayout start offset cs = ⟨rest, offset + Text.byteLength w⟩ := by
  fun_induction skipLayout start offset cs with
  | case1 start offset => exact ⟨[], [], start, rfl, .nil, fun _ => rfl, by simp⟩
  | case2 offset c cs ih =>
      obtain ⟨w, rest, stop, rfl, hlayout, hstop, heq⟩ := ih
      have hw : Layout true stop (c :: w) := by
        by_cases hc : c = '\n'
        · subst hc
          exact .closing (by simpa using hlayout)
        · exact .inside hc (by simpa [hc] using hlayout)
      exact ⟨c :: w, rest, stop, rfl, hw, hstop, by rw [heq, Text.byteLength, Nat.add_assoc]⟩
  | case3 offset cs ih =>
      obtain ⟨w, rest, stop, rfl, hlayout, hstop, heq⟩ := ih
      have hsize : '/'.utf8Size = 1 := by decide
      refine ⟨'/' :: '/' :: w, rest, stop, rfl, .opening hlayout, hstop, ?_⟩
      rw [heq, Text.byteLength, Text.byteLength, hsize]
      congr 1
      omega
  | case4 offset c cs hslash hc ih =>
      obtain ⟨w, rest, stop, rfl, hlayout, hstop, heq⟩ := ih
      have hsize : c.utf8Size = 1 := by
        rcases isLayout_iff.mp hc with rfl | rfl | rfl | rfl <;> decide
      exact ⟨c :: w, rest, stop, rfl, .blank hc hlayout, hstop,
        by rw [heq, Text.byteLength, hsize, Nat.add_assoc]⟩
  | case5 offset c cs hslash hc => exact ⟨[], c :: cs, false, rfl, .nil, by simp, by simp⟩

end Layout

/-! ## Spellings of one token -/

/-- The signs that start with a sign, where the longer one is always read.  A sign of comparison that
starts with the closing angle bracket is not among them: behind a property the bracket stands alone
whatever follows. -/
def longSigns : List (List Char) :=
  [['<', '='], ['<', ':'], ['-', '>'], [':', '>'], ['=', '<']]

/-- Signs that other signs may start with, or two other signs one after the other. -/
def ambiguousSigns : List Sign :=
  [.less, .greater, .minus, .colon, .equal, .atLeast]

/-- `t.Spelled cs rest` says that the characters `cs` in front of `rest` spell the token. -/
def Token.Spelled : Token → List Char → List Char → Prop
  | .number n, cs, rest =>
    cs ≠ [] ∧ (∀ c ∈ cs, isDigit c = true) ∧ Text.digitsValue cs = n ∧
      ∀ c ∈ rest.head?, isDigit c = false
  | .text value, cs, _ =>
    ∃ quote body, (quote = '\x27' ∨ quote = '"') ∧ Escapes quote value.toList body ∧
      cs = quote :: body ++ [quote]
  | .formula f, cs, _ =>
    ∃ body, '\x60' ∉ body ∧ Text.trimBlanks body = f.toList ∧ cs = '\x60' :: body ++ ['\x60']
  | .name x, cs, rest => IsName x ∧ cs = x.toList ∧ ∀ c ∈ rest.head?, isNameChar c = false
  | .keyword word, cs, rest =>
    cs = word.text.toList ∧ (∀ c ∈ rest.head?, isNameChar c = false) ∨ word = .sum ∧ cs = ['Σ']
  | .sign s, cs, rest =>
    (cs = s.chars ∨ s = .atMost ∧ cs = ['=', '<']) ∧ ∀ c ∈ rest.head?, cs ++ [c] ∉ longSigns

/-- A character with which a token may start. -/
def Token.Leads : Token → Char → Prop
  | .number _, c => isDigit c = true
  | .text _, c => c = '\x27' ∨ c = '"'
  | .formula _, c => c = '\x60'
  | .name _, c => isNameStart c = true
  | .keyword word, c => word.text.toList.head? = some c ∨ word = .sum ∧ c = 'Σ'
  | .sign s, c => s.chars.head? = some c ∨ s = .atMost ∧ c = '='

instance (t : Token) (c : Char) : Decidable (t.Leads c) := by
  cases t <;> unfold Token.Leads <;> infer_instance

section Spelled

variable {t : Token} {cs rest : List Char}

theorem IsName.head {x : String} (h : IsName x) :
    ∃ c cs, x.toList = c :: cs ∧ isNameStart c = true := by
  have hstart := h.1
  unfold Text.isIdentifier at hstart
  cases hchars : x.toList with
  | nil => simp [hchars] at hstart
  | cons c cs =>
      simp only [hchars, List.head?_cons, Option.map_some, Option.getD_some,
        Bool.and_eq_true] at hstart
      exact ⟨c, cs, rfl, hstart.1⟩

theorem IsName.isNameChar {x : String} (h : IsName x) {c : Char} (hc : c ∈ x.toList) :
    isNameChar c = true := by
  have hname := h.1
  unfold Text.isIdentifier at hname
  simp only [Bool.and_eq_true, List.all_eq_true] at hname
  exact hname.2 c hc

theorem isNameChar_of_isDigit {c : Char} (h : isDigit c = true) : isNameChar c = true := by
  have hdigit : c.isDigit = true := by simpa [isDigit, Char.isDigit, Char.le_def] using h
  simp [isNameChar, Char.isAlphanum, hdigit]

theorem isDigit_eq_false {c : Char} (h : isNameChar c = false) : isDigit c = false := by
  by_contra hdigit
  rw [isNameChar_of_isDigit (Bool.eq_true_of_not_eq_false hdigit)] at h
  cases h

theorem isNameChar_of_isNameStart {c : Char} (h : isNameStart c = true) : isNameChar c = true := by
  have hstart : c.isAlpha = true ∨ c = '_' := by simpa [isNameStart] using h
  rcases hstart with halpha | rfl
  · simp [isNameChar, Char.isAlphanum, halpha]
  · decide

theorem Keyword.isNameChar_of_mem {word : Keyword} {c : Char} (h : c ∈ word.text.toList) :
    isNameChar c = true := by
  have hall : word.text.toList.all isNameChar = true := by cases word <;> decide
  exact List.all_eq_true.mp hall c h

theorem Token.Spelled.leads (h : t.Spelled cs rest) : ∃ c ds, cs = c :: ds ∧ t.Leads c := by
  cases t with
  | number n =>
      obtain ⟨c, ds, rfl⟩ := List.exists_cons_of_ne_nil h.1
      exact ⟨c, ds, rfl, h.2.1 c List.mem_cons_self⟩
  | text value =>
      obtain ⟨quote, body, hquote, -, rfl⟩ := h
      exact ⟨quote, _, rfl, hquote⟩
  | formula f =>
      obtain ⟨body, -, -, rfl⟩ := h
      exact ⟨_, _, rfl, rfl⟩
  | name x =>
      obtain ⟨hname, rfl, -⟩ := h
      exact hname.head
  | keyword word =>
      rcases h with ⟨rfl, -⟩ | ⟨rfl, rfl⟩
      · cases word <;> exact ⟨_, _, rfl, .inl rfl⟩
      · exact ⟨_, _, rfl, .inr ⟨rfl, rfl⟩⟩
  | sign s =>
      rcases h.1 with rfl | ⟨rfl, rfl⟩
      · cases s <;> exact ⟨_, _, rfl, .inl rfl⟩
      · exact ⟨_, _, rfl, .inr ⟨rfl, rfl⟩⟩

theorem Token.Spelled.eq_chars {s : Sign} (h : (Token.sign s).Spelled cs rest) (hs : s ≠ .atMost) :
    cs = s.chars := by
  rcases h.1 with hcs | ⟨hsign, -⟩
  · exact hcs
  · exact (hs hsign).elim

/-- Whether a token ends depends on the next character only. -/
theorem Token.Spelled.of_head? {rest' : List Char} (h : t.Spelled cs rest)
    (hrest : ∀ c ∈ rest'.head?, c ∈ rest.head?) : t.Spelled cs rest' := by
  cases t with
  | number n => exact ⟨h.1, h.2.1, h.2.2.1, fun c hc => h.2.2.2 c (hrest c hc)⟩
  | text value => exact h
  | formula f => exact h
  | name x => exact ⟨h.1, h.2.1, fun c hc => h.2.2 c (hrest c hc)⟩
  | keyword word => exact h.imp_left fun h => ⟨h.1, fun c hc => h.2 c (hrest c hc)⟩
  | sign s => exact ⟨h.1, fun c hc => h.2 c (hrest c hc)⟩

theorem Token.Spelled.alone {v : List Char} (h : t.Spelled cs (rest ++ v)) : t.Spelled cs rest := by
  refine h.of_head? fun c hc => ?_
  simp [Option.mem_def.mp hc]

/-- The text goes on with neither layout nor a comment. -/
def Solid (cs : List Char) : Prop :=
  ∀ c ∈ cs.head?, isLayout c = false ∧ c ≠ '/'

/-- No token starts with layout or with a comment. -/
theorem Token.Leads.solid {c : Char} (h : t.Leads c) : Solid (c :: cs) := by
  have hclass : [' ', '\t', '\r', '\n', '/'].all (fun d => !decide (t.Leads d)) = true := by
    cases t with
    | keyword word => cases word <;> decide
    | sign s => cases s <;> decide
    | _ => simp [Token.Leads, isDigit, isNameStart]
  have hne : ∀ d ∈ [' ', '\t', '\r', '\n', '/'], c ≠ d := by
    rintro d hd rfl
    have hrefuted := List.all_eq_true.mp hclass c hd
    simp [h] at hrefuted
  simp only [List.forall_mem_cons] at hne
  simp [Solid, isLayout, hne]

theorem Token.Spelled.solid (h : t.Spelled cs rest) : Solid (cs ++ rest) := by
  obtain ⟨c, ds, rfl, hleads⟩ := h.leads
  exact hleads.solid

theorem Solid.skipLayout_eq (h : Solid cs) (offset : Nat) :
    skipLayout false offset cs = ⟨cs, offset⟩ := by
  cases cs with
  | nil => rfl
  | cons c cs =>
      obtain ⟨hlayout, hslash⟩ := h c rfl
      rw [skipLayout]
      · simp [hlayout]
      · simp [hslash]

/-- What goes on with no layout has none in front. -/
theorem Solid.eq_nil {stop : Bool} {w : List Char} (h : Solid (w ++ cs))
    (hw : Layout false stop w) : w = [] := by
  cases hw with
  | nil => rfl
  | blank hc _ =>
      have hsolid := (h _ rfl).1
      rw [hc] at hsolid
      cases hsolid
  | opening _ => exact absurd rfl (h _ rfl).2

theorem solid_of_isNameChar {c : Char} (h : isNameChar c = true) : Solid (c :: cs) := by
  intro d hd
  cases hd
  constructor
  · by_contra hlayout
    rw [Bool.not_eq_false, isLayout_iff] at hlayout
    rcases hlayout with rfl | rfl | rfl | rfl <;> simp [isNameChar] at h
  · rintro rfl
    simp [isNameChar] at h

/-- Layout ends a word. -/
theorem isNameChar_of_layout {stop : Bool} {w : List Char} (hw : Layout false stop w) (hne : w ≠ [])
    {c : Char} (hc : c ∈ (w ++ cs).head?) : isNameChar c = false := by
  cases hw with
  | nil => exact absurd rfl hne
  | blank hlayout _ =>
      cases hc
      rcases isLayout_iff.mp hlayout with rfl | rfl | rfl | rfl <;> decide
  | opening _ =>
      cases hc
      decide

/-- Without layout between them a name would go on with a word. -/
theorem IsName.ne_nil {x : String} {w : List Char} (h : IsName x)
    (hend : ∀ c ∈ (w ++ (x.toList ++ cs)).head?, Text.isNameChar c = false) : w ≠ [] := by
  rintro rfl
  obtain ⟨c, ds, hchars, -⟩ := h.head
  have hword := hend c (by simp [hchars])
  have hname := h.isNameChar (c := c) (by simp [hchars])
  rw [hword] at hname
  cases hname

end Spelled

/-! ## Rows of tokens -/

/-- `Written ts u v` says that the characters `u` in front of `v` are a way to write the tokens.  In
the head of a binding the sign is read alone, although behind it an angle bracket may follow. -/
inductive Written : List Token → List Char → List Char → Prop where
  | layout {stop : Bool} {w v : List Char} (hw : Layout false stop w) (hstop : stop = true → v = []) :
      Written [] w v
  | token {t : Token} {ts : List Token} {w cs u v : List Char} (hw : Layout false false w)
      (ht : t.Spelled cs (u ++ v)) (h : Written ts u v) : Written (t :: ts) (w ++ (cs ++ u)) v
  | binding {x : String} {ts : List Token} {w w₁ w₂ u v : List Char} (hw : Layout false false w)
      (hw₁ : Layout false false w₁) (hne : w₁ ≠ []) (hx : IsName x) (hw₂ : Layout false false w₂)
      (h : Written ts u v) :
      Written (.keyword .binding :: .name x :: .sign .equal :: ts)
        (w ++ (Keyword.binding.text.toList ++ (w₁ ++ (x.toList ++ (w₂ ++ '=' :: u))))) v

section Written

variable {t : Token} {ts us : List Token} {w u u' v : List Char}

theorem Token.Spelled.written {cs : List Char} (h : t.Spelled cs v) : Written [t] cs v := by
  have hwritten : Written [t] ([] ++ (cs ++ [])) v := .token .nil h (.layout .nil (by simp))
  simpa using hwritten

theorem Written.layout_append (h : Written ts u v) (hw : Layout false false w) :
    Written ts (w ++ u) v := by
  cases h with
  | layout hu hstop => exact .layout (hw.append hu) hstop
  | token hu ht h =>
      rw [← List.append_assoc]
      exact .token (hw.append hu) ht h
  | binding hu hw₁ hne hx hw₂ h =>
      rw [← List.append_assoc]
      exact .binding (hw.append hu) hw₁ hne hx hw₂ h

/-- Layout stops inside a comment at the end of the source only. -/
theorem Written.layout_false (h : Written [] w v) (hv : v ≠ []) : Layout false false w := by
  cases h with
  | @layout stop _ _ hw hstop =>
      cases stop with
      | false => exact hw
      | true => exact (hv (hstop rfl)).elim

theorem Written.length_le (h : Written ts u v) : ts.length ≤ u.length := by
  induction h with
  | layout _ _ => simp
  | token _ ht _ ih =>
      obtain ⟨c, ds, rfl, -⟩ := ht.leads
      simp only [List.length_cons, List.length_append]
      omega
  | binding _ _ _ _ _ _ ih =>
      have htext : Keyword.binding.text.toList.length = 3 := rfl
      simp only [List.length_cons, List.length_append, htext]
      omega

theorem Written.append (h : Written ts u (u' ++ v)) (h' : Written us u' v) :
    Written (ts ++ us) (u ++ u') v := by
  generalize hx : u' ++ v = x at h
  induction h with
  | @layout stop w x hw hstop =>
      cases stop with
      | false => exact h'.layout_append hw
      | true =>
          -- Behind a comment that the end of the source ends comes nothing.
          obtain ⟨rfl, rfl⟩ := List.append_eq_nil_iff.mp (hx.trans (hstop rfl))
          have hlength := h'.length_le
          obtain rfl := List.eq_nil_of_length_eq_zero (Nat.le_zero.mp hlength)
          have hwritten : Written [] w [] := .layout hw fun _ => rfl
          simpa using hwritten
  | token hw ht _ ih =>
      subst hx
      rw [List.append_assoc, List.append_assoc]
      exact .token hw (by simpa using ht) (ih rfl)
  | binding hw hw₁ hne hname hw₂ _ ih =>
      simp only [List.append_assoc, List.cons_append]
      exact .binding hw hw₁ hne hname hw₂ (ih hx)

theorem Written.skip (h : Written ts u (w ++ v)) (hw : Written [] w v) : Written ts (u ++ w) v := by
  have hwritten := h.append hw
  rwa [List.append_nil] at hwritten

/-- What is written in front of something stands for itself too. -/
theorem Written.alone (h : Written ts u v) : Written ts u [] := by
  induction h with
  | layout hw _ => exact .layout hw fun _ => rfl
  | token hw ht _ ih => exact .token hw (by simpa using ht.alone) ih
  | binding hw hw₁ hne hx hw₂ _ ih => exact .binding hw hw₁ hne hx hw₂ ih

/-- Behind layout comes the first token, and behind the first token the others.  The head of a binding
is the exception: it is read as a whole. -/
theorem Written.exists_spelled (h : Written (t :: ts) u v) (hu : Solid u) :
    ∃ cs rest, u = cs ++ rest ∧ t.Spelled cs (rest ++ v) ∧
      (t ≠ .keyword .binding → Written ts rest v) := by
  cases h with
  | token hw ht h =>
      rw [hu.eq_nil hw, List.nil_append]
      exact ⟨_, _, rfl, ht, fun _ => h⟩
  | binding hw hw₁ hne hx hw₂ h =>
      rw [hu.eq_nil hw, List.nil_append]
      refine ⟨_, _, rfl, .inl ⟨rfl, ?_⟩, fun hbinding => (hbinding rfl).elim⟩
      rw [List.append_assoc]
      exact fun c hc => isNameChar_of_layout hw₁ hne hc

theorem Written.exists_binding {x : String} (hu : Solid u)
    (h : Written (.keyword .binding :: .name x :: .sign .equal :: ts) u v) :
    ∃ w₁ w₂ rest, u = Keyword.binding.text.toList ++ (w₁ ++ (x.toList ++ (w₂ ++ '=' :: rest))) ∧
      Layout false false w₁ ∧ w₁ ≠ [] ∧ IsName x ∧ Layout false false w₂ ∧ Written ts rest v := by
  cases h with
  | binding hw hw₁ hne hx hw₂ h =>
      rw [hu.eq_nil hw, List.nil_append]
      exact ⟨_, _, _, rfl, hw₁, hne, hx, hw₂, h⟩
  | token hw ht h =>
      rw [hu.eq_nil hw, List.nil_append]
      obtain ⟨rfl, hend⟩ | ⟨hsum, -⟩ := ht
      · cases h with
        | token hw₁ hx h =>
            obtain ⟨hname, rfl, -⟩ := hx
            cases h with
            | @token _ _ w₂ cs rest _ hw₂ hequal h =>
                obtain rfl : cs = ['='] := hequal.eq_chars (by decide)
                rw [List.append_assoc, List.append_assoc] at hend
                exact ⟨_, w₂, rest, rfl, hw₁, hname.ne_nil hend, hname, hw₂, h⟩
      · cases hsum

end Written

/-! ## Blanks between tokens -/

section Spell

variable {q : Quoting} {t : Token} {ts : List Token} {rest : List Char}

theorem Token.Valid.spelled (h : t.Valid) (hrest : ∀ c ∈ rest.head?, c = ' ') :
    t.Spelled (t.chars q) rest := by
  have hword : ∀ c ∈ rest.head?, isNameChar c = false := by
    intro c hc
    rw [hrest c hc]
    decide
  cases t with
  | number n =>
      refine ⟨Nat.toDigits_ne_nil, fun c => isDigit_of_mem_toDigits, Text.digitsValue_toDigits n, ?_⟩
      intro c hc
      rw [hrest c hc]
      decide
  | text value => exact ⟨q.quote value, q.body value, q.quote_eq value, q.escapes value, rfl⟩
  | formula f => exact ⟨f.toList, h.1, h.2, rfl⟩
  | name x => exact ⟨h, rfl, hword⟩
  | keyword word => exact .inl ⟨rfl, hword⟩
  | sign s =>
      have hblank : s.chars ++ [' '] ∉ longSigns := by cases s <;> decide
      refine ⟨.inl rfl, ?_⟩
      intro c hc
      rw [hrest c hc]
      exact hblank

theorem written_trailing (h : ∀ t ∈ ts, t.Valid) : Written ts (trailing q ts) [] := by
  induction ts with
  | nil => exact .layout .nil fun _ => rfl
  | cons t ts ih =>
      rw [List.forall_mem_cons] at h
      have hblank : Layout false false [' '] := .blank rfl .nil
      refine .token hblank (h.1.spelled ?_) (ih h.2)
      cases ts <;> simp [trailing]

theorem written_spell (h : ∀ t ∈ ts, t.Valid) : Written ts (spell q ts) [] := by
  cases ts with
  | nil => exact .layout .nil fun _ => rfl
  | cons t ts =>
      rw [List.forall_mem_cons] at h
      refine .token .nil (h.1.spelled ?_) (written_trailing h.2)
      cases ts <;> simp [trailing]

theorem length_le_spell (h : ∀ t ∈ ts, t.Valid) : ts.length ≤ (spell q ts).length :=
  (written_spell h).length_le

end Spell

end RelQuery.Grammar
