import RelQuery.Proofs.Grammar.Derivation
import RelQuery.Proofs.Grammar.Written

/-!
# Nesting of parentheses

The parentheses of a derivation are balanced.  Whether those of a text are can be told from its
characters alone, if it is known which of them belong to a quoted text, a formula or a comment; for a
text that is written from tokens both views agree.
-/

namespace RelQuery

open Grammar

/-! ## Texts -/

/-- What the next character of a query belongs to. -/
inductive Region where
  | code
  | comment
  | formula
  | quoted (quote : Char)

/-- Whether the parentheses of a text close what is open, and no more, where `depth` are open
already.  Those inside comments, formulas and quoted texts do not count. -/
def balances : Region → (depth : Nat) → List Char → Bool
  | .code, depth, [] | .comment, depth, [] => depth == 0
  | .formula, _, [] | .quoted _, _, [] => false
  | .code, depth, '/' :: '/' :: cs => balances .comment depth cs
  | .code, depth, '(' :: cs => balances .code (depth + 1) cs
  | .code, 0, ')' :: _ => false
  | .code, depth + 1, ')' :: cs => balances .code depth cs
  | .code, depth, '\x60' :: cs => balances .formula depth cs
  | .code, depth, '\x27' :: cs => balances (.quoted '\x27') depth cs
  | .code, depth, '"' :: cs => balances (.quoted '"') depth cs
  | .code, depth, _ :: cs => balances .code depth cs
  | .comment, depth, c :: cs => balances (if c = '\n' then .code else .comment) depth cs
  | .formula, depth, c :: cs => balances (if c = '\x60' then .code else .formula) depth cs
  | .quoted quote, depth, '\\' :: _ :: cs => balances (.quoted quote) depth cs
  | .quoted quote, depth, c :: cs => balances (if c = quote then .code else .quoted quote) depth cs

/-- The parentheses of a text are balanced. -/
def Balanced (text : String) : Prop :=
  balances .code 0 text.toList = true

instance (text : String) : Decidable (Balanced text) :=
  inferInstanceAs (Decidable (_ = true))

section Balances

variable {depth : Nat} {cs rest : List Char}

/-- Characters that neither are parentheses nor start anything in which parentheses do not count. -/
def isPlain (c : Char) : Bool :=
  c ∉ ['/', '(', ')', '\x60', '\x27', '"']

theorem balances_cons {c : Char} (hc : isPlain c = true) :
    balances .code depth (c :: cs) = balances .code depth cs := by
  simp only [isPlain, List.mem_cons, List.not_mem_nil, or_false, not_or, decide_eq_true_eq] at hc
  rw [balances] <;> simp [hc]

theorem balances_append (h : ∀ c ∈ cs, isPlain c = true) :
    balances .code depth (cs ++ rest) = balances .code depth rest := by
  induction cs with
  | nil => rfl
  | cons c cs ih =>
      rw [List.forall_mem_cons] at h
      rw [List.cons_append, balances_cons h.1, ih h.2]

/-- The region in which layout starts or stops. -/
def Region.ofComment (inComment : Bool) : Region :=
  if inComment then .comment else .code

theorem balances_layout {start stop : Bool} {w : List Char} (h : Layout start stop w) :
    balances (.ofComment start) depth (w ++ rest) = balances (.ofComment stop) depth rest := by
  induction h with
  | nil => rfl
  | blank hc _ ih =>
      rw [← ih]
      rcases isLayout_iff.mp hc with rfl | rfl | rfl | rfl <;> rfl
  | opening _ ih => exact ih
  | inside hc _ ih =>
      rw [← ih, List.cons_append]
      change balances .comment depth _ = _
      rw [balances, if_neg hc]
      rfl
  | closing _ ih => exact ih

theorem balances_quoted {quote : Char} {value body : List Char} (h : Escapes quote value body)
    (hquote : quote ≠ '\\') (depth : Nat) (rest : List Char) :
    balances (.quoted quote) depth (body ++ quote :: rest) = balances .code depth rest := by
  induction h with
  | nil =>
      rw [List.nil_append, balances, if_pos rfl]
      exact fun c cs heq => absurd heq hquote
  | plain hplain hbackslash _ ih =>
      rw [List.cons_append, balances, if_neg hplain, ih]
      exact fun c cs heq => absurd heq hbackslash
  | backslash c _ ih => exact ih

theorem balances_formula {body : List Char} (h : '\x60' ∉ body) :
    balances .formula depth (body ++ '\x60' :: rest) = balances .code depth rest := by
  induction body with
  | nil => rfl
  | cons c body ih =>
      rw [List.mem_cons, not_or] at h
      rw [List.cons_append, balances, if_neg (Ne.symm h.1), ih h.2]

theorem isPlain_of_isNameChar {c : Char} (h : Text.isNameChar c = true) : isPlain c = true := by
  by_contra hplain
  simp only [isPlain, List.mem_cons, List.not_mem_nil, or_false, decide_eq_true_eq,
    not_not] at hplain
  rcases hplain with rfl | rfl | rfl | rfl | rfl | rfl <;> simp [Text.isNameChar] at h

/-- The parentheses themselves apart, no token has parentheses that count. -/
theorem balances_spelled {t : Token} (h : t.Spelled cs rest) (hopen : t ≠ .sign .openParen)
    (hclose : t ≠ .sign .closeParen) :
    balances .code depth (cs ++ rest) = balances .code depth rest := by
  cases t with
  | number n =>
      exact balances_append fun c hc => isPlain_of_isNameChar (isNameChar_of_isDigit (h.2.1 c hc))
  | text value =>
      obtain ⟨quote, body, hquote, hescapes, rfl⟩ := h
      have hbackslash : quote ≠ '\\' := by rcases hquote with rfl | rfl <;> decide
      have hinner := balances_quoted hescapes hbackslash depth rest
      rw [List.cons_append, List.cons_append, List.append_assoc, ← hinner]
      rcases hquote with rfl | rfl <;> rfl
  | formula f =>
      obtain ⟨body, hbody, -, rfl⟩ := h
      rw [List.cons_append, List.cons_append, List.append_assoc]
      exact balances_formula hbody
  | name x =>
      obtain ⟨hname, rfl, -⟩ := h
      exact balances_append fun c hc => isPlain_of_isNameChar (hname.isNameChar hc)
  | keyword word =>
      rcases h with ⟨rfl, -⟩ | ⟨-, rfl⟩
      · exact balances_append fun c hc => isPlain_of_isNameChar (Keyword.isNameChar_of_mem hc)
      · rfl
  | sign s =>
      rcases h.1 with rfl | ⟨-, rfl⟩
      · cases s <;> first | exact absurd rfl hopen | exact absurd rfl hclose | rfl
      · rfl

end Balances

/-! ## Tokens -/

/-- How many parentheses are open behind some tokens, where `depth` are open before them; none if
more are closed than were open. -/
def nesting : (depth : Nat) → List Token → Option Nat
  | depth, [] => some depth
  | depth, .sign .openParen :: ts => nesting (depth + 1) ts
  | 0, .sign .closeParen :: _ => none
  | depth + 1, .sign .closeParen :: ts => nesting depth ts
  | depth, _ :: ts => nesting depth ts

section Nesting

variable {depth : Nat} {t : Token} {ts us : List Token}

theorem nesting_cons (hopen : t ≠ .sign .openParen) (hclose : t ≠ .sign .closeParen) :
    nesting depth (t :: ts) = nesting depth ts := by
  rw [nesting] <;> simp_all

/-- Induction over tokens, where the parentheses are told apart. -/
theorem nesting_induction {P : Nat → List Token → Prop} (nil : ∀ depth, P depth [])
    (opening : ∀ depth ts, P (depth + 1) ts → P depth (.sign .openParen :: ts))
    (excess : ∀ ts, P 0 (.sign .closeParen :: ts))
    (closing : ∀ depth ts, P depth ts → P (depth + 1) (.sign .closeParen :: ts))
    (other : ∀ depth t ts, t ≠ .sign .openParen → t ≠ .sign .closeParen → P depth ts →
      P depth (t :: ts)) (depth : Nat) (ts : List Token) : P depth ts := by
  induction ts generalizing depth with
  | nil => exact nil depth
  | cons t ts ih =>
      by_cases hopen : t = .sign .openParen
      · rw [hopen]
        exact opening depth ts (ih _)
      by_cases hclose : t = .sign .closeParen
      · rw [hclose]
        cases depth with
        | zero => exact excess ts
        | succ depth => exact closing depth ts (ih _)
      · exact other depth t ts hopen hclose (ih _)

theorem nesting_append (depth : Nat) (ts us : List Token) :
    nesting depth (ts ++ us) = (nesting depth ts).bind (nesting · us) := by
  induction depth, ts using nesting_induction with
  | nil depth => rfl
  | opening depth ts ih => exact ih
  | excess ts => rfl
  | closing depth ts ih => exact ih
  | other depth t ts hopen hclose ih =>
      rw [List.cons_append, nesting_cons hopen hclose, nesting_cons hopen hclose, ih]

/-- More open parentheses before some tokens are as many more behind them. -/
theorem nesting_add {depth' : Nat} (h : nesting depth ts = some depth') (more : Nat) :
    nesting (depth + more) ts = some (depth' + more) := by
  induction depth, ts using nesting_induction with
  | nil depth =>
      cases h
      rfl
  | opening depth ts ih =>
      have hrest := ih h
      rwa [Nat.add_right_comm] at hrest
  | excess ts => cases h
  | closing depth ts ih =>
      have hrest := ih h
      rw [Nat.add_right_comm]
      exact hrest
  | other depth t ts hopen hclose ih =>
      rw [nesting_cons hopen hclose] at h ⊢
      exact ih h

theorem nesting_opened (opened : Nat) :
    nesting depth (List.replicate opened (.sign .openParen) ++ ts) =
      nesting (depth + opened) ts := by
  induction opened generalizing depth with
  | zero => rfl
  | succ opened ih =>
      rw [List.replicate_succ, List.cons_append, nesting, ih]
      congr 1
      omega

theorem closed_eq_zero {closed : Nat}
    (h : nesting 0 (List.replicate closed (.sign .closeParen)) = some 0) : closed = 0 := by
  cases closed with
  | zero => rfl
  | succ closed => cases h

theorem nesting_nameTokens (x : String) (xs : List String) :
    nesting depth (nameTokens (x :: xs) ++ us) = nesting depth us := by
  rw [nameTokens, List.cons_append, nesting_cons (by simp) (by simp)]
  induction xs with
  | nil => rfl
  | cons y ys ih =>
      rw [List.flatMap_cons, List.append_assoc]
      exact ih

theorem Derives.nesting_append {b : Band} {e : Expr} (h : Derives b e ts) :
    nesting depth (ts ++ us) = nesting depth us := by
  induction h generalizing depth us with
  | paren _ ih =>
      rw [List.cons_append, List.append_assoc, nesting, ih]
      rfl
  | tighter _ _ ih => exact ih
  | @leading b op inner span ts hop hb _ ih =>
      have hannounces : op.token.announces? = some op.band := announces?_token (by rw [hop, hb])
      rw [List.cons_append, nesting_cons, ih]
      · intro hopen
        rw [hopen] at hannounces
        cases hannounces
      · intro hclose
        rw [hclose] at hannounces
        cases hannounces
  | @operand b op left right span ts us hop _ _ _ ihleft ihright =>
      have hcontinues := continues?_sign op
      rw [List.append_assoc, ihleft, List.cons_append, nesting_cons, ihright]
      · intro hopen
        rw [hopen] at hcontinues
        cases hcontinues
      · intro hclose
        rw [hclose] at hcontinues
        cases hcontinues
  | ignore _ ih =>
      rw [List.append_assoc, ih]
      rfl
  | apply _ _ _ ihleft ihright =>
      rw [List.append_assoc, ihleft, List.cons_append, List.append_assoc,
        nesting_cons (by simp) (by simp), ihright]
      rfl
  | @comprehension style x xs constraint body span ts us _ _ ihconstraint ihbody =>
      have hstyle : style.sign ≠ .openParen ∧ style.sign ≠ .closeParen := by
        cases style <;> decide
      rw [List.append_assoc, nesting_nameTokens, List.cons_append, List.append_assoc,
        nesting_cons (by simp) (by simp), ihconstraint, List.cons_append,
        nesting_cons (by simpa using hstyle.1) (by simpa using hstyle.2), ihbody]
  | letIn _ _ ihvalue ihbody =>
      simp only [List.cons_append, List.append_assoc]
      rw [nesting_cons (by simp) (by simp), nesting_cons (by simp) (by simp),
        nesting_cons (by simp) (by simp), ihvalue, nesting_cons (by simp) (by simp), ihbody]
  | _ => rfl

/-- The parentheses of a derivation are balanced. -/
theorem Derives.nesting_eq {b : Band} {e : Expr} (h : Derives b e ts) :
    nesting depth ts = some depth := by
  have hnesting : nesting depth (ts ++ []) = nesting depth [] := h.nesting_append
  rwa [List.append_nil] at hnesting

/-- A part of a row that does not start with the parentheses of its first operand closes them only
if there are none. -/
theorem opened_eq_zero {b : Band} {e : Expr} {opened : Nat}
    (h : Derives b e (List.replicate opened (.sign .openParen) ++ ts))
    (hnesting : nesting 0 (ts ++ us) = some 0) : opened = 0 := by
  have hwhole : nesting 0 _ = some 0 := h.nesting_eq
  rw [nesting_opened, Nat.zero_add] at hwhole
  rw [RelQuery.nesting_append, Option.bind_eq_some_iff] at hnesting
  obtain ⟨depth, hdepth, -⟩ := hnesting
  have hmore := nesting_add hdepth opened
  rw [Nat.zero_add, hwhole] at hmore
  have hzero : 0 = depth + opened := Option.some.inj hmore
  omega

/-- The parentheses of a text are those of the tokens it is written from. -/
theorem balances_of_written {u v : List Char} (h : Written ts u v) :
    balances .code depth u = (nesting depth ts == some 0) := by
  have hlayout : ∀ {depth : Nat} {w rest : List Char}, Layout false false w →
      balances .code depth (w ++ rest) = balances .code depth rest := balances_layout
  induction h generalizing depth with
  | @layout stop w v hw _ =>
      have hwhole : balances .code depth (w ++ []) = _ := balances_layout hw
      rw [List.append_nil] at hwhole
      refine hwhole.trans ?_
      cases stop <;> rfl
  | @token t ts w cs u v hw ht _ ih =>
      rw [hlayout hw]
      by_cases hopen : t = .sign .openParen
      · subst hopen
        rw [ht.eq_chars (by decide)]
        exact ih
      by_cases hclose : t = .sign .closeParen
      · subst hclose
        rw [ht.eq_chars (by decide)]
        cases depth with
        | zero => rfl
        | succ depth => exact ih
      · rw [balances_spelled ht.alone hopen hclose, ih, nesting_cons hopen hclose]
  | @binding x ts w w₁ w₂ u v hw hw₁ hne hx hw₂ _ ih =>
      have hword : ∀ c ∈ Keyword.binding.text.toList, isPlain c = true :=
        fun c hc => isPlain_of_isNameChar (Keyword.isNameChar_of_mem hc)
      have hname : ∀ c ∈ x.toList, isPlain c = true :=
        fun c hc => isPlain_of_isNameChar (hx.isNameChar hc)
      rw [hlayout hw, balances_append hword, hlayout hw₁, balances_append hname, hlayout hw₂,
        balances_cons (by decide), ih]
      rfl

end Nesting

end RelQuery
