import RelQuery.Proofs.Grammar.Rendering

/-!
# Derivations

`Derives b e ts` is the grammar as a relation: in a slot of the band `b` the tokens `ts` stand for
the expression `e`.  Unlike a rendering, a derivation may have parentheses where none are needed and
may write the wildcard application as a property.  Every rendered expression is derived.
-/

namespace RelQuery

open Grammar (Token Sign propertyOf)

variable {b c : Band} {e : Expr} {ts us : List Token}

/-- The grammar derives the tokens as an expression in a slot of a band.  Between the brackets of an
application a bare wildcard would be read as brackets that drop a column. -/
inductive Derives : Band → Expr → List Token → Prop where
  | number {n : Nat} {span : Span} : Derives .atom (.constant (.number n) span) [.number n]
  | text {value : String} {span : Span} : Derives .atom (.constant (.text value) span) [.text value]
  | formula {f : String} {span : Span} : Derives .atom (.formula f span) [.formula f]
  | name {x : String} {span : Span} : Derives .atom (.name x span) [.name x]
  | property {x : String} {inner span : Span} :
      Derives .atom (propertyOf (.name x inner) span) [.sign .less, .name x, .sign .greater]
  | paren {e : Expr} {ts : List Token} (h : Derives .binding e ts) :
      Derives .atom e (.sign .openParen :: (ts ++ [.sign .closeParen]))
  | tighter {b : Band} {e : Expr} {ts : List Token} (hb : b ≠ .atom) (h : Derives b.tighter e ts) :
      Derives b e ts
  | leading {b : Band} {op : UnaryOp} {inner : Expr} {span : Span} {ts : List Token}
      (hop : op.band = b) (hb : b.isLeading = true) (h : Derives b inner ts) :
      Derives b (.unary op inner span) (op.token :: ts)
  | operand {b : Band} {op : BinaryOp} {left right : Expr} {span : Span} {ts us : List Token}
      (hop : op.band = b) (happly : op ≠ .apply) (hleft : Derives op.leftSlot left ts)
      (hright : Derives b.tighter right us) :
      Derives b (.binary op left right span) (ts ++ .sign op.sign :: us)
  | ignore {inner : Expr} {span : Span} {ts : List Token} (h : Derives .chain inner ts) :
      Derives .chain (.unary .wildcardApply inner span) (ts ++ ignoredColumn)
  | apply {left right : Expr} {span : Span} {ts us : List Token} (hleft : Derives .chain left ts)
      (hright : Derives .binding right us) (hus : us ≠ [.name wildcard]) :
      Derives .chain (.binary .apply left right span)
        (ts ++ .sign .openBracket :: (us ++ [.sign .closeBracket]))
  | comprehension {style : Style} {x : String} {xs : List String} {constraint body : Expr}
      {span : Span} {ts us : List Token} (hconstraint : Derives .union constraint ts)
      (hbody : Derives .binding body us) :
      Derives .binding (.comprehension style (x :: xs) constraint body span)
        (nameTokens (x :: xs) ++ .sign .colon :: (ts ++ .sign style.sign :: us))
  | letIn {x : String} {value body : Expr} {span : Span} {ts us : List Token}
      (hvalue : Derives .union value ts) (hbody : Derives .binding body us) :
      Derives .binding (.letIn x value body span)
        (.keyword .binding :: .name x :: .sign .equal :: (ts ++ .sign .bar :: us))

/-- What stands in a slot can stand in every looser one. -/
theorem Derives.loosen (h : Derives c e ts) (hle : b.level ≤ c.level) : Derives b e ts := by
  induction hn : c.level - b.level generalizing b with
  | zero =>
      obtain rfl : b = c := Band.level_injective (by omega)
      exact h
  | succ n ih =>
      have hb : b ≠ .atom := by
        rintro rfl
        have hatom : c.level ≤ Band.atom.level := by cases c <;> decide
        omega
      refine .tighter hb (ih ?_ ?_)
      · rw [Band.level_tighter hb]
        omega
      · rw [Band.level_tighter hb]
        omega

/-- An atom of one token is a literal or a name. -/
theorem Derives.leaf_cases {t : Token} (h : Derives .atom e [t]) :
    (∃ n span, t = .number n ∧ e = .constant (.number n) span) ∨
      (∃ value span, t = .text value ∧ e = .constant (.text value) span) ∨
      (∃ f span, t = .formula f ∧ e = .formula f span) ∨
      ∃ x span, t = .name x ∧ e = .name x span := by
  generalize hb : Band.atom = b at h
  generalize hts : [t] = ts at h
  cases h with
  | number => exact .inl ⟨_, _, (List.cons.inj hts).1, rfl⟩
  | text => exact .inr (.inl ⟨_, _, (List.cons.inj hts).1, rfl⟩)
  | formula => exact .inr (.inr (.inl ⟨_, _, (List.cons.inj hts).1, rfl⟩))
  | name => exact .inr (.inr (.inr ⟨_, _, (List.cons.inj hts).1, rfl⟩))
  | tighter hatom _ => exact absurd hb.symm hatom
  | leading _ hleading _ =>
      subst hb
      cases hleading
  | @operand _ op _ _ _ _ _ hop _ _ _ => exact absurd (hop.trans hb.symm) op.band_ne.2
  | property | paren _ => simp at hts
  | ignore _ | apply _ _ _ | comprehension _ _ | letIn _ _ => cases hb

theorem level_leftSlot (op : BinaryOp) : op.band.level ≤ op.leftSlot.level := by
  cases op with
  | compare comparison => simp [BinaryOp.band, BinaryOp.leftSlot, Band.level]
  | _ => exact le_rfl

theorem leftSlot_ne_binding (op : BinaryOp) : op.leftSlot ≠ .binding := by
  have hop := op.band_ne.1
  cases op with
  | compare comparison => simp [BinaryOp.leftSlot]
  | _ => exact hop

theorem BinaryOp.leftSlot_eq {op : BinaryOp} (hop : op.band = b) (hb : b.isLeft = true) :
    op.leftSlot = b := by
  cases op with
  | compare comparison =>
      cases hop
      cases hb
  | _ => exact hop

/-! ## The first token -/

/-- A token with which an expression in a slot of a band may start.  A sign of equality is excluded,
as it could not be told from a longer sign behind another one. -/
def Starts (b : Band) (t : Token) : Prop :=
  t ≠ .sign .equal ∧ t ≠ .sign .atMost ∧ ∀ c, t.announces? = some c → b.level ≤ c.level

theorem Starts.of_announces_none {t : Token} (h : t.announces? = none)
    (hequal : t ≠ .sign .equal ∧ t ≠ .sign .atMost) : Starts b t :=
  ⟨hequal.1, hequal.2, fun c hc => by rw [h] at hc; cases hc⟩

theorem Derives.head (h : Derives b e ts) : ∃ t us, ts = t :: us ∧ Starts b t := by
  induction h with
  | tighter hb _ ih =>
      obtain ⟨t, us, rfl, hequal, hmost, hlevel⟩ := ih
      refine ⟨t, us, rfl, hequal, hmost, fun c hc => ?_⟩
      have hle := hlevel c hc
      rw [Band.level_tighter hb] at hle
      omega
  | @leading b op inner span ts hop hb _ _ =>
      have hannounces : op.token.announces? = some op.band := announces?_token (by rw [hop, hb])
      refine ⟨_, _, rfl, ?_, ?_, fun c hc => ?_⟩
      · intro hequal
        rw [hequal] at hannounces
        cases hannounces
      · intro hmost
        rw [hmost] at hannounces
        cases hannounces
      · rw [hannounces, hop] at hc
        cases hc
        exact le_rfl
  | @operand b op left right span ts us hop _ _ _ ih _ =>
      obtain ⟨t, vs, rfl, hequal, hmost, hlevel⟩ := ih
      have hslot := level_leftSlot op
      rw [hop] at hslot
      exact ⟨t, _, rfl, hequal, hmost, fun c hc => le_trans hslot (hlevel c hc)⟩
  | ignore _ ih =>
      obtain ⟨t, vs, rfl, hstarts⟩ := ih
      exact ⟨t, _, rfl, hstarts⟩
  | apply _ _ _ ih _ =>
      obtain ⟨t, vs, rfl, hstarts⟩ := ih
      exact ⟨t, _, rfl, hstarts⟩
  | letIn _ _ => exact ⟨_, _, rfl, by simp, by simp, fun c _ => Nat.zero_le _⟩
  | comprehension _ _ => exact ⟨_, _, rfl, .of_announces_none rfl (by simp)⟩
  | _ => exact ⟨_, _, rfl, .of_announces_none rfl (by simp)⟩

/-! ## Names at the start -/

/-- An expression that is no binding starts like a comprehension only if what follows goes on like
one. -/
theorem Derives.resumes (h : Derives b e ts) (hb : b ≠ .binding) (hcommits : Commits (ts ++ us)) :
    Resumes us := by
  induction h generalizing us with
  | name => exact commits_name_iff.mp hcommits
  | @tighter b e ts hatom _ ih =>
      have hne : b.tighter ≠ .binding := by cases b <;> simp [Band.tighter]
      exact ih hne hcommits
  | @leading b op inner span ts hop hleading _ _ =>
      cases op with
      | quantify quantifier => cases quantifier <;> cases hcommits
      | aggregate function => cases function <;> cases hcommits
      | _ => cases hcommits
  | @operand b op left right span ts vs hop _ _ _ ihleft ihright =>
      rw [List.append_assoc] at hcommits
      obtain ⟨ws, heq⟩ := ihleft (leftSlot_ne_binding op) hcommits
      -- Of all operators only the product is written with a comma.
      cases op with
      | product =>
          obtain heq | ⟨heq, hright⟩ := heq
          · cases heq
          · cases heq
            subst hop
            exact ihright (by decide) hright
      | compare comparison => cases comparison <;> obtain heq | ⟨heq, -⟩ := heq <;> cases heq
      | set operation => cases operation <;> obtain heq | ⟨heq, -⟩ := heq <;> cases heq
      | arith operation => cases operation <;> obtain heq | ⟨heq, -⟩ := heq <;> cases heq
      | _ => obtain heq | ⟨heq, -⟩ := heq <;> cases heq
  | ignore _ ih =>
      rw [List.append_assoc] at hcommits
      obtain ⟨ws, heq | ⟨heq, -⟩⟩ := ih hb hcommits
      · cases heq
      · cases heq
  | apply _ _ _ ih _ =>
      rw [List.append_assoc] at hcommits
      obtain ⟨ws, heq | ⟨heq, -⟩⟩ := ih hb hcommits
      · cases heq
      · cases heq
  | comprehension _ _ _ _ => exact (hb rfl).elim
  | letIn _ _ _ _ => exact (hb rfl).elim
  | _ => cases hcommits

/-- Behind a name with which an expression starts comes what follows the expression, or a token
that goes on behind an operand. -/
theorem Derives.eq_name {x : String} {vs : List Token} (h : Derives b e ts)
    (heq : ts ++ us = .name x :: vs) :
    ts = [.name x] ∨ ∃ t ws, vs = t :: ws ∧ t.continues? ≠ none := by
  have hfollow : ∀ {ts ws : List Token} {t : Token}, t.continues? ≠ none →
      (ts ++ t :: ws = .name x :: vs →
        ts = [.name x] ∨ ∃ t ws, vs = t :: ws ∧ t.continues? ≠ none) →
      ts ++ t :: ws = .name x :: vs → ∃ t ws, vs = t :: ws ∧ t.continues? ≠ none := by
    intro ts ws t ht ih heq
    rcases ih heq with rfl | hsecond
    · cases heq
      exact ⟨t, ws, rfl, ht⟩
    · exact hsecond
  induction h generalizing us with
  | name =>
      cases heq
      exact .inl rfl
  | tighter _ _ ih => exact ih heq
  | @leading b op inner span ts hop _ _ _ =>
      cases op with
      | quantify quantifier => cases quantifier <;> cases heq
      | aggregate function => cases function <;> cases heq
      | _ => cases heq
  | @operand b op left right span ts ws hop _ _ _ ih _ =>
      rw [List.append_assoc] at heq
      exact .inr (hfollow (by simp [continues?_sign]) ih heq)
  | ignore _ ih =>
      rw [List.append_assoc] at heq
      exact .inr (hfollow (by simp [Token.continues?]) ih heq)
  | apply _ _ _ ih _ =>
      rw [List.append_assoc] at heq
      exact .inr (hfollow (by simp [Token.continues?]) ih heq)
  | @comprehension style y ys constraint body span ts ws _ _ _ _ =>
      right
      cases heq
      cases ys with
      | nil => exact ⟨_, _, rfl, by simp [Token.continues?]⟩
      | cons z zs => exact ⟨_, _, rfl, by simp [Token.continues?]⟩
  | _ => cases heq

/-- An argument that is no bare wildcard is not taken for brackets that drop a column. -/
theorem Derives.argument_ne (h : Derives b e ts) (hts : ts ≠ [.name wildcard]) (us vs : List Token) :
    ts ++ .sign .closeBracket :: us ≠ .name wildcard :: .sign .closeBracket :: vs := by
  intro heq
  rcases h.eq_name heq with hname | ⟨t, ws, hws, hcontinues⟩
  · exact hts hname
  · cases hws
    exact hcontinues rfl

/-! ## Rendered expressions -/

theorem derives_slot (h : Derives e.band e e.tokens) (b : Band) : Derives b e (e.slot b) := by
  unfold Expr.slot enclose
  by_cases hlooser : e.band.looser b = true
  · have hbinding : Derives .binding e e.tokens := h.loosen (Nat.zero_le _)
    have hatom : b.level ≤ Band.atom.level := by cases b <;> decide
    rw [if_pos hlooser, List.cons_append]
    exact hbinding.paren.loosen hatom
  · rw [if_neg hlooser]
    exact h.loosen (by simpa [Band.looser] using hlooser)

theorem Derives.exists_name {x : String} (h : Derives b e [.name x]) : ∃ span, e = .name x span := by
  have hlong : ∀ {b e ts t us}, Derives b e ts → ts ++ t :: us ≠ [.name x] := by
    intro b e ts t us h heq
    obtain ⟨t', vs, rfl, -⟩ := h.head
    simp at heq
  generalize hts : [Token.name x] = ts at h
  induction h with
  | name =>
      cases hts
      exact ⟨_, rfl⟩
  | tighter _ _ ih => exact ih hts
  | leading _ _ h _ =>
      obtain ⟨t, us, rfl, -⟩ := h.head
      simp at hts
  | operand _ _ hleft _ _ _ => exact (hlong hleft hts.symm).elim
  | ignore h _ => exact (hlong h hts.symm).elim
  | apply hleft _ _ _ _ => exact (hlong hleft hts.symm).elim
  | comprehension _ _ _ _ => simp [nameTokens] at hts
  | _ => cases hts

theorem derives_argument (h : Derives e.band e e.tokens) :
    Derives .binding e (enclose e.isWildcard e.tokens) ∧
      enclose e.isWildcard e.tokens ≠ [.name wildcard] := by
  have hbinding : Derives .binding e e.tokens := h.loosen (Nat.zero_le _)
  cases hwild : e.isWildcard with
  | true => exact ⟨hbinding.paren.loosen (Nat.zero_le _), by simp [enclose]⟩
  | false =>
      refine ⟨hbinding, fun heq => ?_⟩
      rw [show enclose false e.tokens = e.tokens from rfl] at heq
      rw [heq] at hbinding
      obtain ⟨span, rfl⟩ := hbinding.exists_name
      simp [Expr.isWildcard] at hwild

/-- The tokens of an expression that has a spelling are derived. -/
theorem derives_tokens (he : e.Renderable) : Derives e.band e e.tokens := by
  induction e with
  | constant value span =>
      cases value with
      | number value =>
          obtain ⟨n, rfl⟩ := Int.eq_ofNat_of_zero_le he.1
          exact .number
      | text value => exact .text
  | name x span => exact .name
  | formula f span => exact .formula
  | unary op inner span ih =>
      have hinner := derives_slot (ih he) op.band
      cases op with
      | wildcardApply => exact .ignore hinner
      | _ => exact .leading rfl rfl hinner
  | binary op left right span ihleft ihright =>
      have hleft := derives_slot (ihleft he.1) op.leftSlot
      have hright := derives_slot (ihright he.2) op.band.tighter
      cases op with
      | apply =>
          obtain ⟨hargument, hne⟩ := derives_argument (ihright he.2)
          exact .apply hleft hargument hne
      | _ => exact .operand rfl (by simp) hleft hright
  | comprehension style names constraint body span ihconstraint ihbody =>
      obtain ⟨hnames, -, hconstraint, hbody⟩ := he
      obtain ⟨x, xs, rfl⟩ := List.exists_cons_of_ne_nil hnames
      rw [Expr.tokens, List.append_assoc]
      exact .comprehension (derives_slot (ihconstraint hconstraint) .union)
        ((ihbody hbody).loosen (Nat.zero_le _))
  | letIn x value body span ihvalue ihbody =>
      obtain ⟨-, hvalue, hbody⟩ := he
      exact .letIn (derives_slot (ihvalue hvalue) .union) ((ihbody hbody).loosen (Nat.zero_le _))

end RelQuery
