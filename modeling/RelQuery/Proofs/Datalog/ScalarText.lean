import Mathlib.Tactic
import RelQuery.Datalog.Printer
import RelQuery.Proofs.Text.Told

/-!
# The texts of arguments, atoms and scalar expressions

Arguments, atoms and scalar expressions without verbatim text are told by their texts, as long as
every name in them is an identifier and no variable is called as the wildcard is printed.  What a
text starts with separates most of the forms; a variable is told from a call of the same name by the
parenthesis, which never stands behind an argument.
-/

namespace RelQuery.Datalog

open Text

/-! ## First characters -/

/-- What a text can start with. -/
inductive Lead where
  | name
  | number
  | mark (c : Char)
  deriving DecidableEq

def Lead.of (c : Char) : Lead :=
  if isDigit c || c == '-' then .number else if isNameStart c then .name else .mark c

def lead (text : List Char) : Option Lead :=
  text.head?.map Lead.of

@[simp] theorem lead_cons (c : Char) (text : List Char) : lead (c :: text) = some (Lead.of c) :=
  rfl

theorem not_isDigit_of_isNameStart {c : Char} (h : isNameStart c = true) :
    isDigit c = false ∧ c ≠ '-' := by
  rw [isNameStart, Bool.or_eq_true, beq_iff_eq] at h
  rcases h with h | rfl
  · constructor
    · change (decide (c.val ≥ 'A'.val ∧ c.val ≤ 'Z'.val) ||
        decide (c.val ≥ 'a'.val) && decide (c.val ≤ 'z'.val)) = true at h
      simp only [isDigit, Char.le_def]
      grind
    · rintro rfl
      exact absurd h (by decide)
  · decide

theorem lead_name {name : String} (h : IsName name) (rest : List Char) :
    lead (name.toList ++ rest) = some .name := by
  obtain ⟨c, cs, hlist, hstart⟩ := h.exists_cons
  obtain ⟨hdigit, hminus⟩ := not_isDigit_of_isNameStart hstart
  simp [hlist, Lead.of, hstart, hdigit, hminus]

theorem lead_int (n : Int) (rest : List Char) :
    lead ((toString n).toList ++ rest) = some .number := by
  cases hlist : (toString n).toList with
  | nil =>
      rw [toList_toString] at hlist
      split at hlist
      · cases hlist
      · exact absurd hlist Nat.toDigits_ne_nil
  | cons c cs =>
      have hc : isDigit c = true ∨ c = '-' := by
        apply isDigit_of_mem_toString (n := n)
        rw [hlist]
        exact List.mem_cons_self
      simp [Lead.of, hc]

/-! ## Arguments -/

theorem escapeSymbolChar_injective : Function.Injective escapeSymbolChar := by
  intro c d h
  unfold escapeSymbolChar at h
  split_ifs at h <;> simp_all

theorem escapeSymbolChar_cases (c : Char) :
    (∃ code, escapeSymbolChar c = ['\\', code]) ∨
      escapeSymbolChar c = [c] ∧ c ≠ '"' ∧ c ≠ '\\' := by
  unfold escapeSymbolChar
  split_ifs <;> simp_all

theorem escapeSymbolChar_append_inj {c d : Char} {r s : List Char}
    (h : escapeSymbolChar c ++ r = escapeSymbolChar d ++ s) : c = d ∧ r = s := by
  rcases escapeSymbolChar_cases c with ⟨code, hc⟩ | ⟨hc, -, hplain⟩
  · rcases escapeSymbolChar_cases d with ⟨code', hd⟩ | ⟨hd, -, hplain'⟩
    · simp only [hc, hd, List.cons_append, List.nil_append, List.cons.injEq, true_and] at h
      refine ⟨escapeSymbolChar_injective ?_, h.2⟩
      rw [hc, hd, h.1]
    · simp only [hc, hd, List.cons_append, List.cons.injEq] at h
      exact absurd h.1.symm hplain'
  · rcases escapeSymbolChar_cases d with ⟨code', hd⟩ | ⟨hd, -, -⟩
    · simp only [hc, hd, List.cons_append, List.cons.injEq] at h
      exact absurd h.1 hplain
    · simpa [hc, hd] using h

theorem escapeSymbolChar_append_ne_quote (c : Char) (r s : List Char) :
    escapeSymbolChar c ++ r ≠ '"' :: s := by
  rcases escapeSymbolChar_cases c with ⟨code, hc⟩ | ⟨hc, hquote, -⟩
  · simp [hc]
  · simp [hc, hquote]

/-- An argument whose name, if it is a variable, is an identifier other than the wildcard. -/
inductive Term.Printable : Term → Prop
  | var {name : String} (isName : IsName name) (proper : name ≠ "_") : Printable (.var name)
  | wildcard : Printable .wildcard
  | number (value : Int) : Printable (.number value)
  | symbol (value : String) : Printable (.symbol value)

/-- The argument that is printed as a name. -/
def Term.ofName (name : String) : Term :=
  if name = "_" then .wildcard else .var name

theorem Term.render_ofName (name : String) : (Term.ofName name).render = name := by
  unfold Term.ofName
  split
  · next h => exact h.symm
  · rfl

theorem Term.printable_ofName {name : String} (h : IsName name) : (Term.ofName name).Printable := by
  unfold Term.ofName
  split
  · exact .wildcard
  · next hname => exact .var h hname

/-- A character that could belong to an argument, or make a call of the name before it. -/
def extendsTerm (c : Char) : Bool :=
  isNameChar c || c == '-' || c == '('

theorem ends_isNameChar {r : List Char} (h : Ends extendsTerm r) : Ends isNameChar r :=
  h.mono fun c hc => by simp [extendsTerm, hc]

theorem extendsTerm_of_isDigit (c : Char) (h : isDigit c = true ∨ c = '-') :
    extendsTerm c = true := by
  rcases h with h | rfl
  · have hdigit : c.isDigit = true := by
      simpa [isDigit, Char.isDigit, Char.le_def] using h
    simp [extendsTerm, isNameChar, Char.isAlphanum, hdigit]
  · decide

/-- What an argument is printed as: a name, a number or a quoted text. -/
theorem Term.Printable.cases {t : Term} (h : t.Printable) :
    (∃ name, IsName name ∧ t = .ofName name) ∨ (∃ n, t = .number n) ∨
      ∃ value, t = .symbol value := by
  cases h with
  | var isName proper => exact .inl ⟨_, isName, by simp [Term.ofName, proper]⟩
  | wildcard => exact .inl ⟨"_", by decide, rfl⟩
  | number value => exact .inr (.inl ⟨value, rfl⟩)
  | symbol value => exact .inr (.inr ⟨value, rfl⟩)

theorem Term.render_symbol_append (value : String) (r : List Char) :
    (Term.symbol value).render.toList ++ r =
      '"' :: (value.toList.flatMap escapeSymbolChar ++ '"' :: r) := by
  simp [Term.render, renderSymbol]

theorem lead_ofName {name : String} (h : IsName name) (r : List Char) :
    lead ((Term.ofName name).render.toList ++ r) = some .name := by
  rw [Term.render_ofName, lead_name h]

theorem lead_number (n : Int) (r : List Char) :
    lead ((Term.number n).render.toList ++ r) = some .number :=
  lead_int n r

theorem lead_symbol (value : String) (r : List Char) :
    lead ((Term.symbol value).render.toList ++ r) = some (.mark '"') := by
  rw [Term.render_symbol_append]
  rfl

theorem Term.Printable.told {t : Term} (h : t.Printable) :
    Told Printable (fun t => t.render.toList) (Ends extendsTerm) t := by
  intro u r s hu hr hs heq
  have hlead := congrArg lead heq
  rcases h.cases with ⟨name, hname, rfl⟩ | ⟨n, rfl⟩ | ⟨value, rfl⟩
  · rcases hu.cases with ⟨name', hname', rfl⟩ | ⟨m, rfl⟩ | ⟨value', rfl⟩
    · simp only [Term.render_ofName] at heq
      obtain ⟨rfl, hrest⟩ := hname.told hname' (ends_isNameChar hr) (ends_isNameChar hs) heq
      exact ⟨rfl, hrest⟩
    · simp [lead_ofName hname, lead_number] at hlead
    · simp [lead_ofName hname, lead_symbol] at hlead
  · rcases hu.cases with ⟨name', hname', rfl⟩ | ⟨m, rfl⟩ | ⟨value', rfl⟩
    · simp [lead_ofName hname', lead_number] at hlead
    · obtain ⟨rfl, hrest⟩ := told_int extendsTerm_of_isDigit n trivial hr hs heq
      exact ⟨rfl, hrest⟩
    · simp [lead_number, lead_symbol] at hlead
  · rcases hu.cases with ⟨name', hname', rfl⟩ | ⟨m, rfl⟩ | ⟨value', rfl⟩
    · simp [lead_ofName hname', lead_symbol] at hlead
    · simp [lead_number, lead_symbol] at hlead
    · simp only [Term.render_symbol_append, List.cons.injEq, true_and] at heq
      obtain ⟨hvalue, hrest⟩ := escaped_append_inj escapeSymbolChar_append_inj
          escapeSymbolChar_append_ne_quote heq
      exact ⟨congrArg Term.symbol (String.toList_inj.mp hvalue), hrest⟩

theorem Term.Printable.lead_ne_mark {t : Term} (h : t.Printable) {c : Char} (hc : c ≠ '"')
    (r : List Char) : lead (t.render.toList ++ r) ≠ some (.mark c) := by
  rcases h.cases with ⟨name, hname, rfl⟩ | ⟨n, rfl⟩ | ⟨value, rfl⟩
  · simp [lead_ofName hname]
  · simp [lead_number]
  · simpa [lead_symbol] using hc.symm

/-! ## Lists with commas -/

section Commas

variable {α : Type} {P : α → Prop}

theorem toList_commaSeparated_map (render : α → String) (as : List α) :
    (commaSeparated (as.map render)).toList =
      [',', ' '].intercalate (as.map fun a => (render a).toList) := by
  simp [commaSeparated, String.toList_intercalate, Function.comp_def]

theorem told_commas (render : α → String) (Stop Last : List Char → Prop)
    (hcomma : ∀ r, Stop (',' :: r)) (hlast : ∀ r, Last r → Stop r)
    (hdiffer : ∀ r, ¬ Last (',' :: r)) (hstart : ∀ a r, P a → ¬ Last ((render a).toList ++ r))
    {as : List α} (has : ∀ a ∈ as, P a)
    (htold : ∀ a ∈ as, Told P (fun a => (render a).toList) Stop a) :
    Told (fun as => ∀ a ∈ as, P a) (fun as => (commaSeparated (as.map render)).toList) Last as := by
  simp only [toList_commaSeparated_map]
  exact told_intercalate (fun r => hcomma _) hlast (fun r => hdiffer _) hstart has htold

/-- Texts that go on with a given character. -/
def Closes (c : Char) (r : List Char) : Prop :=
  r.head? = some c

theorem closes_cons (c : Char) (r : List Char) : Closes c (c :: r) :=
  rfl

theorem Closes.lead_eq {c : Char} {r : List Char} (h : Closes c r) :
    lead r = some (Lead.of c) := by
  unfold Closes at h
  simp [lead, h]

theorem Closes.ends {c : Char} {r : List Char} {p : Char → Bool} (h : Closes c r)
    (hc : p c = false) : Ends p r := by
  intro d hd
  rw [show r.head? = some c from h] at hd
  cases hd
  exact hc

end Commas

/-! ## Atoms -/

/-- An atom with proper names. -/
structure Atom.Printable (atom : Atom) : Prop where
  relation : IsName atom.relation
  args : ∀ t ∈ atom.args, t.Printable

theorem told_args {args : List Term} (h : ∀ t ∈ args, t.Printable) :
    Told (fun args => ∀ t ∈ args, t.Printable)
      (fun args => (commaSeparated (args.map Term.render)).toList) (Closes ')') args := by
  refine told_commas Term.render (Ends extendsTerm) (Closes ')') ?_ ?_ ?_ ?_ h
    fun t ht => (h t ht).told
  · exact fun r => ends_cons.mpr (by decide)
  · exact fun r hr => hr.ends (by decide)
  · exact fun r hr => by simp [Closes] at hr
  · exact fun t r ht hr => ht.lead_ne_mark (by decide) r hr.lead_eq

theorem Atom.render_append (atom : Atom) (r : List Char) :
    atom.render.toList ++ r = atom.relation.toList ++
      '(' :: ((commaSeparated (atom.args.map Term.render)).toList ++ ')' :: r) := by
  simp [Atom.render]

theorem lead_atom {atom : Atom} (h : atom.Printable) (r : List Char) :
    lead (atom.render.toList ++ r) = some .name := by
  rw [Atom.render_append, lead_name h.relation]

theorem Atom.Printable.told {atom : Atom} (h : atom.Printable) :
    Told Printable (fun atom => atom.render.toList) (fun _ => True) atom := by
  intro other r s hother _ _ heq
  simp only [Atom.render_append] at heq
  obtain ⟨hrelation, htail⟩ := h.relation.told hother.relation (ends_cons.mpr (by decide))
    (ends_cons.mpr (by decide)) heq
  obtain ⟨hargs, hrest⟩ := told_args h.args hother.args (closes_cons _ r)
    (closes_cons _ s) (List.cons.inj htail).2
  refine ⟨?_, (List.cons.inj hrest).2⟩
  cases atom
  cases other
  simp_all

/-! ## Scalar expressions -/

/-- A scalar expression with proper names and no verbatim text. -/
inductive ScalarExpr.Printable : ScalarExpr → Prop
  | term {t : Term} (printable : t.Printable) : Printable (.term t)
  | binary {op : ArithOp} {left right : ScalarExpr} (printableLeft : Printable left)
      (printableRight : Printable right) : Printable (.binary op left right)
  | cat {parts : List ScalarExpr} (printable : ∀ part ∈ parts, Printable part) :
      Printable (.cat parts)

theorem ScalarExpr.renderAll_eq_map (parts : List ScalarExpr) :
    ScalarExpr.renderAll parts = parts.map ScalarExpr.render := by
  induction parts with
  | nil => rfl
  | cons part parts ih => rw [ScalarExpr.renderAll, ih, List.map_cons]

theorem ScalarExpr.render_binary_append (op : ArithOp) (left right : ScalarExpr) (r : List Char) :
    (ScalarExpr.binary op left right).render.toList ++ r =
      '(' :: (left.render.toList ++
        ' ' :: (op.symbol.toList ++ ' ' :: (right.render.toList ++ ')' :: r))) := by
  simp [ScalarExpr.render]

theorem ScalarExpr.render_cat_append (parts : List ScalarExpr) (r : List Char) :
    (ScalarExpr.cat parts).render.toList ++ r = "cat".toList ++
      '(' :: ((commaSeparated (parts.map ScalarExpr.render)).toList ++ ')' :: r) := by
  simp [ScalarExpr.render, ScalarExpr.renderAll_eq_map]

theorem isName_cat : IsName "cat" := by
  decide

theorem lead_binary (op : ArithOp) (left right : ScalarExpr) (r : List Char) :
    lead ((ScalarExpr.binary op left right).render.toList ++ r) = some (.mark '(') := by
  rw [ScalarExpr.render_binary_append]
  rfl

theorem lead_cat (parts : List ScalarExpr) (r : List Char) :
    lead ((ScalarExpr.cat parts).render.toList ++ r) = some .name := by
  rw [ScalarExpr.render_cat_append, lead_name isName_cat]

theorem ScalarExpr.Printable.lead_ne_mark {e : ScalarExpr} (h : e.Printable) {c : Char}
    (hquote : c ≠ '"') (hparen : c ≠ '(') (r : List Char) :
    lead (e.render.toList ++ r) ≠ some (.mark c) := by
  cases h with
  | term ht => exact ht.lead_ne_mark hquote r
  | binary => simpa [lead_binary] using hparen.symm
  | cat => simp [lead_cat]

theorem ArithOp.symbol_append_inj {op op' : ArithOp} {r s : List Char}
    (h : op.symbol.toList ++ ' ' :: r = op'.symbol.toList ++ ' ' :: s) : op = op' ∧ r = s := by
  cases op <;> cases op' <;> simp_all [ArithOp.symbol]

/-- No argument is taken for the start of a call. -/
theorem Term.Printable.render_append_ne_cat {t : Term} (h : t.Printable) {r s : List Char}
    (hr : Ends extendsTerm r) : t.render.toList ++ r ≠ "cat".toList ++ '(' :: s := by
  intro heq
  have hlead := congrArg lead heq
  rw [lead_name isName_cat] at hlead
  rcases h.cases with ⟨name, hname, rfl⟩ | ⟨n, rfl⟩ | ⟨value, rfl⟩
  · rw [Term.render_ofName] at heq
    obtain ⟨-, rfl⟩ := hname.told isName_cat (ends_isNameChar hr) (ends_cons.mpr (by decide)) heq
    exact absurd (ends_cons.mp hr) (by decide)
  · simp [lead_number] at hlead
  · simp [lead_symbol] at hlead

theorem ScalarExpr.Printable.told {e : ScalarExpr} (h : e.Printable) :
    Told Printable (fun e => e.render.toList) (Ends extendsTerm) e := by
  -- A closing parenthesis, a comma or a blank stands behind every part.
  have hstop : ∀ {c : Char} {r : List Char}, extendsTerm c = false → Ends extendsTerm (c :: r) :=
    fun hc => ends_cons.mpr hc
  induction h with
  | term ht =>
      intro e r s he hr hs heq
      have hlead := congrArg lead heq
      cases he with
      | term hu =>
          obtain ⟨rfl, hrest⟩ := ht.told hu hr hs heq
          exact ⟨rfl, hrest⟩
      | binary =>
          simp only [lead_binary] at hlead
          exact absurd hlead (ht.lead_ne_mark (by decide) r)
      | cat =>
          simp only [ScalarExpr.render_cat_append] at heq
          exact absurd heq (ht.render_append_ne_cat hr)
  | @binary op left right hleft hright ihleft ihright =>
      intro e r s he hr hs heq
      have hlead := congrArg lead heq
      cases he with
      | term hu =>
          simp only [lead_binary] at hlead
          exact absurd hlead.symm (hu.lead_ne_mark (by decide) s)
      | @binary op' left' right' hleft' hright' =>
          simp only [ScalarExpr.render_binary_append] at heq
          obtain ⟨rfl, hop⟩ := ihleft hleft' (hstop (by decide)) (hstop (by decide))
            (List.cons.inj heq).2
          obtain ⟨rfl, hpart⟩ := ArithOp.symbol_append_inj (List.cons.inj hop).2
          obtain ⟨rfl, hrest⟩ := ihright hright' (hstop (by decide)) (hstop (by decide)) hpart
          exact ⟨rfl, (List.cons.inj hrest).2⟩
      | cat => simp [lead_binary, lead_cat] at hlead
  | @cat parts hparts ih =>
      intro e r s he hr hs heq
      have hlead := congrArg lead heq
      cases he with
      | term hu =>
          simp only [ScalarExpr.render_cat_append] at heq
          exact absurd heq.symm (hu.render_append_ne_cat hs)
      | binary => simp [lead_binary, lead_cat] at hlead
      | @cat parts' hparts' =>
          simp only [ScalarExpr.render_cat_append] at heq
          have htold := told_commas ScalarExpr.render (Ends extendsTerm) (Closes ')')
            (fun r => hstop (by decide)) (fun r hr => hr.ends (by decide))
            (fun r hr => by simp [Closes] at hr)
            (fun e r he hr => he.lead_ne_mark (by decide) (by decide) r hr.lead_eq) hparts ih
          obtain ⟨rfl, hrest⟩ := htold hparts' (closes_cons _ r) (closes_cons _ s)
            (List.cons.inj (List.append_cancel_left heq)).2
          exact ⟨rfl, (List.cons.inj hrest).2⟩

end RelQuery.Datalog
