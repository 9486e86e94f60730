import Mathlib.Tactic
import RelQuery.Proofs.Datalog.ScalarText

/-!
# The text of a program tells its commands

Two programs without comments and verbatim text have the same text only if they have the same
commands, as long as every name in them is an identifier and no variable is called as the wildcard
is printed.
-/

namespace RelQuery.Datalog

open Text

/-! ## Aggregates -/

structure Aggregate.Printable (a : Aggregate) : Prop where
  result : IsName a.result
  target : ∀ target ∈ a.target, IsName target
  atom : a.atom.Printable

/-- What stands behind the target of an aggregate. -/
def Aggregate.rangeText (a : Aggregate) (r : List Char) : List Char :=
  ':' :: ' ' :: '\x7b' :: ' ' :: (a.atom.render.toList ++ ' ' :: '\x7d' :: r)

/-- What stands behind the function of an aggregate and a blank. -/
def Aggregate.targetText (a : Aggregate) (r : List Char) : List Char :=
  match a.target with
  | none => a.rangeText r
  | some target => target.toList ++ ' ' :: a.rangeText r

theorem Aggregate.render_append (a : Aggregate) (r : List Char) :
    a.render.toList ++ r = a.result.toList ++
      ' ' :: '=' :: ' ' :: (a.function.render.toList ++ ' ' :: a.targetText r) := by
  rcases a with ⟨result, function, _ | target, atom⟩ <;>
    simp [Aggregate.render, Aggregate.renderTarget, Aggregate.targetText, Aggregate.rangeText]

theorem AggregateFunction.isName (f : AggregateFunction) : IsName f.render := by
  cases f <;> decide

theorem AggregateFunction.render_injective : Function.Injective AggregateFunction.render := by
  intro f g h
  cases f <;> cases g <;> first | rfl | exact absurd h (by decide)

theorem Aggregate.Printable.targetText_inj {a b : Aggregate} (ha : a.Printable)
    (hb : b.Printable) {r s : List Char} (h : a.targetText r = b.targetText s) :
    a.target = b.target ∧ a.rangeText r = b.rangeText s := by
  have hlead := congrArg lead h
  unfold Aggregate.targetText at h hlead
  cases htarget : a.target with
  | none =>
      cases htarget' : b.target with
      | none => simpa [htarget, htarget'] using h
      | some target' =>
          simp only [htarget, htarget', lead_name (hb.target target' htarget')] at hlead
          exact absurd hlead (by simp [Aggregate.rangeText, Lead.of]; decide)
  | some target =>
      cases htarget' : b.target with
      | none =>
          simp only [htarget, htarget', lead_name (ha.target target htarget)] at hlead
          exact absurd hlead.symm (by simp [Aggregate.rangeText, Lead.of]; decide)
      | some target' =>
          simp only [htarget, htarget'] at h
          obtain ⟨rfl, hrest⟩ := (ha.target target htarget).told (hb.target target' htarget')
            (ends_cons.mpr (by decide)) (ends_cons.mpr (by decide)) h
          exact ⟨rfl, (List.cons.inj hrest).2⟩

theorem Aggregate.Printable.told {a : Aggregate} (h : a.Printable) :
    Told Printable (fun a => a.render.toList) (fun _ => True) a := by
  intro b r s hb _ _ heq
  simp only [Aggregate.render_append] at heq
  obtain ⟨hresult, hfunction⟩ := h.result.told hb.result (ends_cons.mpr (by decide))
    (ends_cons.mpr (by decide)) heq
  simp only [List.cons.injEq, true_and] at hfunction
  obtain ⟨hname, htext⟩ := a.function.isName.told b.function.isName (ends_cons.mpr (by decide))
    (ends_cons.mpr (by decide)) hfunction
  obtain ⟨htarget, hrange⟩ := h.targetText_inj hb (List.cons.inj htext).2
  simp only [Aggregate.rangeText, List.cons.injEq, true_and] at hrange
  obtain ⟨hatom, hrest⟩ := h.atom.told hb.atom trivial trivial hrange
  simp only [List.cons.injEq, true_and] at hrest
  refine ⟨?_, hrest⟩
  have hfun := AggregateFunction.render_injective hname
  cases a
  cases b
  simp_all

/-! ## Literals -/

inductive Literal.Printable : Literal → Prop
  | positive {atom : Atom} (printable : atom.Printable) : Printable (.positive atom)
  | negated {atom : Atom} (printable : atom.Printable) : Printable (.negated atom)
  | aggregate {a : Aggregate} (printable : a.Printable) : Printable (.aggregate a)
  | constraint {left right : ScalarExpr} {op : Comparison} (printableLeft : left.Printable)
      (printableRight : right.Printable) : Printable (.constraint left op right)

theorem Literal.render_negated_append (atom : Atom) (r : List Char) :
    (Literal.negated atom).render.toList ++ r = '!' :: (atom.render.toList ++ r) := by
  simp [Literal.render]

theorem Literal.render_constraint_append (left right : ScalarExpr) (op : Comparison)
    (r : List Char) :
    (Literal.constraint left op right).render.toList ++ r = left.render.toList ++
      ' ' :: (op.symbol.toList ++ ' ' :: (right.render.toList ++ r)) := by
  simp [Literal.render]

theorem lead_negated (atom : Atom) (r : List Char) :
    lead ((Literal.negated atom).render.toList ++ r) = some (.mark '!') := by
  rw [Literal.render_negated_append]
  rfl

theorem lead_positive {atom : Atom} (h : atom.Printable) (r : List Char) :
    lead ((Literal.positive atom).render.toList ++ r) = some .name :=
  lead_atom h r

theorem lead_aggregate {a : Aggregate} (h : a.Printable) (r : List Char) :
    lead ((Literal.aggregate a).render.toList ++ r) = some .name := by
  rw [Literal.render, Aggregate.render_append, lead_name h.result]

theorem Literal.Printable.lead_ne_mark {l : Literal} (h : l.Printable) {c : Char}
    (hquote : c ≠ '"') (hparen : c ≠ '(') (hnot : c ≠ '!') (r : List Char) :
    lead (l.render.toList ++ r) ≠ some (.mark c) := by
  cases h with
  | positive hatom => simp [lead_positive hatom]
  | negated => simpa [lead_negated] using hnot.symm
  | aggregate ha => simp [lead_aggregate ha]
  | constraint hleft =>
      rw [Literal.render_constraint_append]
      exact hleft.lead_ne_mark hquote hparen _

theorem Comparison.symbol_append_inj {op op' : Comparison} {r s : List Char}
    (h : op.symbol.toList ++ ' ' :: r = op'.symbol.toList ++ ' ' :: s) : op = op' ∧ r = s := by
  cases op <;> cases op' <;> simp_all [Comparison.symbol]

/-- What may stand behind a literal: a comma or the dot that ends the rule. -/
def EndsLiteral (r : List Char) : Prop :=
  Closes ',' r ∨ Closes '.' r

theorem EndsLiteral.ends {r : List Char} (h : EndsLiteral r) : Ends extendsTerm r := by
  rcases h with h | h
  · exact h.ends (by decide)
  · exact h.ends (by decide)

theorem not_endsLiteral_blank (r : List Char) : ¬ EndsLiteral (' ' :: r) := by
  simp [EndsLiteral, Closes]

/-- No atom is taken for an expression in front of a blank. -/
theorem Atom.Printable.append_ne_scalar {atom : Atom} (h : atom.Printable) {e : ScalarExpr}
    (he : e.Printable) {r : List Char} (hr : EndsLiteral r) (s : List Char) :
    atom.render.toList ++ r ≠ e.render.toList ++ ' ' :: s := by
  intro heq
  have hlead := congrArg lead heq
  rw [lead_atom h] at hlead
  cases he with
  | @term t ht =>
      rw [Atom.render_append, show (ScalarExpr.term t).render = t.render from rfl] at heq
      rcases ht.cases with ⟨name, hname, rfl⟩ | ⟨n, rfl⟩ | ⟨value, rfl⟩
      · rw [Term.render_ofName] at heq
        obtain ⟨-, hrest⟩ := h.relation.told hname (ends_cons.mpr (by decide))
          (ends_cons.mpr (by decide)) heq
        exact absurd (List.cons.inj hrest).1 (by decide)
      · simp [ScalarExpr.render, lead_number] at hlead
      · simp [ScalarExpr.render, lead_symbol] at hlead
  | binary => simp [lead_binary] at hlead
  | @cat parts hparts =>
      -- An atom of the relation `cat` reads like the expression that joins its arguments.
      have hcall : (ScalarExpr.cat (atom.args.map .term)).Printable := by
        apply ScalarExpr.Printable.cat
        simpa using fun t ht => ScalarExpr.Printable.term (h.args t ht)
      have hrelation : atom.relation = "cat" := by
        rw [ScalarExpr.render_cat_append, Atom.render_append] at heq
        exact (h.relation.told isName_cat (ends_cons.mpr (by decide))
          (ends_cons.mpr (by decide)) heq).1
      have htext : atom.render.toList ++ r =
          (ScalarExpr.cat (atom.args.map .term)).render.toList ++ r := by
        rw [ScalarExpr.render_cat_append, Atom.render_append, hrelation, List.map_map]
        rfl
      obtain ⟨-, rfl⟩ := hcall.told (ScalarExpr.Printable.cat hparts) hr.ends
        (ends_cons.mpr (by decide)) (htext.symm.trans heq)
      exact not_endsLiteral_blank s hr

/-- No aggregate is taken for an atom. -/
theorem Aggregate.Printable.append_ne_atom {a : Aggregate} (h : a.Printable) {atom : Atom}
    (hatom : atom.Printable) (r s : List Char) :
    a.render.toList ++ r ≠ atom.render.toList ++ s := by
  intro heq
  rw [Aggregate.render_append, Atom.render_append] at heq
  obtain ⟨-, hrest⟩ := h.result.told hatom.relation (ends_cons.mpr (by decide))
    (ends_cons.mpr (by decide)) heq
  exact absurd (List.cons.inj hrest).1 (by decide)

/-- No aggregate is taken for a comparison: behind its function stands a blank. -/
theorem Aggregate.Printable.append_ne_constraint {a : Aggregate} (h : a.Printable)
    {left right : ScalarExpr} {op : Comparison} (hleft : left.Printable) (hright : right.Printable)
    (r : List Char) {s : List Char} (hs : EndsLiteral s) :
    a.render.toList ++ r ≠ (Literal.constraint left op right).render.toList ++ s := by
  intro heq
  have hresult : (ScalarExpr.term (.ofName a.result)).Printable :=
    .term (Term.printable_ofName h.result)
  have hfunction : (ScalarExpr.term (.ofName a.function.render)).Printable :=
    .term (Term.printable_ofName a.function.isName)
  rw [Aggregate.render_append, Literal.render_constraint_append, ← Term.render_ofName a.result]
    at heq
  obtain ⟨-, hop⟩ := hresult.told hleft (ends_cons.mpr (by decide)) (ends_cons.mpr (by decide)) heq
  have hsymbol : Comparison.eq.symbol.toList ++ ' ' :: (a.function.render.toList ++
      ' ' :: a.targetText r) = op.symbol.toList ++ ' ' :: (right.render.toList ++ s) :=
    (List.cons.inj hop).2
  obtain ⟨-, hvalue⟩ := Comparison.symbol_append_inj hsymbol
  rw [← Term.render_ofName a.function.render] at hvalue
  obtain ⟨-, rfl⟩ := hfunction.told hright (ends_cons.mpr (by decide)) hs.ends hvalue
  exact not_endsLiteral_blank _ hs

theorem Literal.Printable.told {l : Literal} (h : l.Printable) :
    Told Printable (fun l => l.render.toList) EndsLiteral l := by
  intro l' r s h' hr hs heq
  have hlead := congrArg lead heq
  cases h with
  | positive hatom =>
      cases h' with
      | positive hatom' =>
          obtain ⟨rfl, hrest⟩ := hatom.told hatom' trivial trivial heq
          exact ⟨rfl, hrest⟩
      | negated => simp [lead_positive hatom, lead_negated] at hlead
      | aggregate ha' => exact absurd heq.symm (ha'.append_ne_atom hatom s r)
      | constraint hleft' =>
          simp only [Literal.render_constraint_append] at heq
          exact absurd heq (hatom.append_ne_scalar hleft' hr _)
  | negated hatom =>
      cases h' with
      | positive hatom' => simp [lead_positive hatom', lead_negated] at hlead
      | negated hatom' =>
          simp only [Literal.render_negated_append] at heq
          obtain ⟨rfl, hrest⟩ := hatom.told hatom' trivial trivial (List.cons.inj heq).2
          exact ⟨rfl, hrest⟩
      | aggregate ha' => simp [lead_aggregate ha', lead_negated] at hlead
      | constraint hleft' =>
          simp only [Literal.render_constraint_append, lead_negated] at hlead
          exact absurd hlead.symm (hleft'.lead_ne_mark (by decide) (by decide) _)
  | aggregate ha =>
      cases h' with
      | positive hatom' => exact absurd heq (ha.append_ne_atom hatom' r s)
      | negated => simp [lead_aggregate ha, lead_negated] at hlead
      | aggregate ha' =>
          obtain ⟨rfl, hrest⟩ := ha.told ha' trivial trivial heq
          exact ⟨rfl, hrest⟩
      | constraint hleft' hright' =>
          exact absurd heq (ha.append_ne_constraint hleft' hright' r hs)
  | constraint hleft hright =>
      cases h' with
      | positive hatom' =>
          simp only [Literal.render_constraint_append] at heq
          exact absurd heq.symm (hatom'.append_ne_scalar hleft hs _)
      | negated =>
          simp only [Literal.render_constraint_append, lead_negated] at hlead
          exact absurd hlead (hleft.lead_ne_mark (by decide) (by decide) _)
      | aggregate ha' => exact absurd heq.symm (ha'.append_ne_constraint hleft hright s hr)
      | constraint hleft' hright' =>
          simp only [Literal.render_constraint_append] at heq
          obtain ⟨rfl, hop⟩ := hleft.told hleft' (ends_cons.mpr (by decide))
            (ends_cons.mpr (by decide)) heq
          obtain ⟨rfl, hvalue⟩ := Comparison.symbol_append_inj (List.cons.inj hop).2
          obtain ⟨rfl, hrest⟩ := hright.told hright' hr.ends hs.ends hvalue
          exact ⟨rfl, hrest⟩

/-! ## Rules -/

structure Rule.Printable (rule : Rule) : Prop where
  head : rule.head.Printable
  body : ∀ l ∈ rule.body, l.Printable

theorem told_body {body : List Literal} (h : ∀ l ∈ body, l.Printable) :
    Told (fun body => ∀ l ∈ body, l.Printable)
      (fun body => (commaSeparated (body.map Literal.render)).toList) (Closes '.') body := by
  refine told_commas Literal.render EndsLiteral (Closes '.') ?_ ?_ ?_ ?_ h
    fun l hl => (h l hl).told
  · exact fun r => .inl (closes_cons _ r)
  · exact fun r hr => .inr hr
  · exact fun r hr => by simp [Closes] at hr
  · exact fun l r hl hr => hl.lead_ne_mark (by decide) (by decide) (by decide) r hr.lead_eq

/-- What stands behind the head of a rule. -/
def Rule.bodyText (rule : Rule) (r : List Char) : List Char :=
  if rule.body.isEmpty then '.' :: r
  else ' ' :: ':' :: '-' :: ' ' ::
    ((commaSeparated (rule.body.map Literal.render)).toList ++ '.' :: r)

theorem Rule.render_append (rule : Rule) (r : List Char) :
    rule.render.toList ++ r = rule.head.render.toList ++ rule.bodyText r := by
  unfold Rule.render Rule.bodyText
  split <;> simp

theorem lead_rule {rule : Rule} (h : rule.Printable) (r : List Char) :
    lead (rule.render.toList ++ r) = some .name := by
  rw [Rule.render_append, lead_atom h.head]

theorem Rule.Printable.told {rule : Rule} (h : rule.Printable) :
    Told Printable (fun rule => rule.render.toList) (fun _ => True) rule := by
  intro rule' r s h' _ _ heq
  simp only [Rule.render_append] at heq
  obtain ⟨hhead, hbody⟩ := h.head.told h'.head trivial trivial heq
  have hsame : rule.body = rule'.body ∧ r = s := by
    unfold Rule.bodyText at hbody
    split at hbody
    · next hempty =>
        split at hbody
        · next hempty' =>
            rw [List.isEmpty_iff.mp hempty, List.isEmpty_iff.mp hempty']
            exact ⟨rfl, (List.cons.inj hbody).2⟩
        · exact absurd (List.cons.inj hbody).1 (by decide)
    · split at hbody
      · exact absurd (List.cons.inj hbody).1 (by decide)
      · simp only [List.cons.injEq, true_and] at hbody
        obtain ⟨hlist, hrest⟩ := told_body h.body h'.body (closes_cons _ r) (closes_cons _ s) hbody
        exact ⟨hlist, (List.cons.inj hrest).2⟩
  refine ⟨?_, hsame.2⟩
  cases rule
  cases rule'
  simp_all

/-! ## Declarations -/

structure Decl.Printable (decl : Decl) : Prop where
  relation : IsName decl.relation
  attributes : ∀ column ∈ decl.attributes, IsName column.name
  choiceDomains : ∀ domain ∈ decl.choiceDomains, ∀ name ∈ domain, IsName name

/-- What may stand behind a command: nothing or a line break. -/
def EndsLine (r : List Char) : Prop :=
  r = [] ∨ Closes '\n' r

theorem EndsLine.ends {r : List Char} (h : EndsLine r) : Ends isNameChar r := by
  rcases h with rfl | h
  · exact ends_nil
  · exact h.ends (by decide)

theorem ColumnType.render_append_inj {type type' : ColumnType} {r s : List Char}
    (h : type.render.toList ++ r = type'.render.toList ++ s) : type = type' ∧ r = s := by
  cases type <;> cases type' <;> simp_all [ColumnType.render]

theorem Attribute.render_append (column : Attribute) (r : List Char) :
    column.render.toList ++ r =
      column.name.toList ++ ':' :: ' ' :: (column.type.render.toList ++ r) := by
  simp [Attribute.render]

theorem Attribute.told {column : Attribute} (h : IsName column.name) :
    Told (fun column => IsName column.name) (fun column => column.render.toList) (fun _ => True)
      column := by
  intro column' r s h' _ _ heq
  simp only [Attribute.render_append] at heq
  obtain ⟨hname, htail⟩ := h.told h' (ends_cons.mpr (by decide)) (ends_cons.mpr (by decide)) heq
  simp only [List.cons.injEq, true_and] at htail
  obtain ⟨htype, hrest⟩ := ColumnType.render_append_inj htail
  refine ⟨?_, hrest⟩
  cases column
  cases column'
  simp_all

theorem told_attributes {columns : List Attribute} (h : ∀ column ∈ columns, IsName column.name) :
    Told (fun columns => ∀ column ∈ columns, IsName column.name)
      (fun columns => (commaSeparated (columns.map Attribute.render)).toList) (Closes ')')
      columns := by
  refine told_commas Attribute.render (fun _ => True) (Closes ')') ?_ ?_ ?_ ?_ h
    fun column hcolumn => Attribute.told (h column hcolumn)
  · exact fun r => trivial
  · exact fun r hr => trivial
  · exact fun r hr => by simp [Closes] at hr
  · intro column r hcolumn hr
    have hlead := hr.lead_eq
    rw [Attribute.render_append, lead_name hcolumn] at hlead
    exact absurd hlead (by decide)

theorem told_names {names : List String} (h : ∀ name ∈ names, IsName name) :
    Told (fun names => ∀ name ∈ names, IsName name) (fun names => (commaSeparated names).toList)
      (Closes ')') names := by
  have htold := told_commas (P := IsName) (fun name => name) (Ends isNameChar) (Closes ')')
    (fun r => ends_cons.mpr (by decide))
    (fun r hr => hr.ends (by decide)) (fun r hr => by simp [Closes] at hr)
    (fun name r hname hr => by
      have hlead := hr.lead_eq
      rw [lead_name hname] at hlead
      exact absurd hlead (by decide))
    h fun name hname => (h name hname).told
  simpa using htold

theorem renderChoiceDomain_cases (domain : List String) :
    (∃ name, domain = [name]) ∨
      ∀ r, (renderChoiceDomain domain).toList ++ r =
        '(' :: ((commaSeparated domain).toList ++ ')' :: r) := by
  match domain with
  | [] => exact .inr fun r => by simp [renderChoiceDomain]
  | [name] => exact .inl ⟨name, rfl⟩
  | _ :: _ :: _ => exact .inr fun r => by simp [renderChoiceDomain]

theorem told_choiceDomain {domain : List String} (h : ∀ name ∈ domain, IsName name) :
    Told (fun domain => ∀ name ∈ domain, IsName name)
      (fun domain => (renderChoiceDomain domain).toList) (Ends isNameChar) domain := by
  have hsingle : ∀ {name : String} {r s : List Char}, IsName name →
      (renderChoiceDomain [name]).toList ++ r ≠ '(' :: s := by
    intro name r s hname heq
    have hlead := congrArg lead heq
    rw [renderChoiceDomain, lead_name hname, lead_cons] at hlead
    exact absurd hlead (by decide)
  intro domain' r s h' hr hs heq
  dsimp only at heq
  rcases renderChoiceDomain_cases domain with ⟨name, rfl⟩ | htext
  · have hname : IsName name := h name (by simp)
    rcases renderChoiceDomain_cases domain' with ⟨name', rfl⟩ | htext'
    · obtain ⟨rfl, hrest⟩ := hname.told (h' name' (by simp)) hr hs heq
      exact ⟨rfl, hrest⟩
    · rw [htext'] at heq
      exact absurd heq (hsingle hname)
  · rw [htext] at heq
    rcases renderChoiceDomain_cases domain' with ⟨name', rfl⟩ | htext'
    · exact absurd heq.symm (hsingle (h' name' (by simp)))
    · rw [htext'] at heq
      obtain ⟨rfl, hrest⟩ := told_names h h' (closes_cons _ r) (closes_cons _ s)
        (List.cons.inj heq).2
      exact ⟨rfl, (List.cons.inj hrest).2⟩

theorem told_choiceDomains {domains : List (List String)}
    (h : ∀ domain ∈ domains, ∀ name ∈ domain, IsName name) :
    Told (fun domains => ∀ domain ∈ domains, ∀ name ∈ domain, IsName name)
      (fun domains => (commaSeparated (domains.map renderChoiceDomain)).toList) EndsLine
      domains := by
  refine told_commas renderChoiceDomain (Ends isNameChar) EndsLine ?_ ?_ ?_ ?_ h
    fun domain hdomain => told_choiceDomain (h domain hdomain)
  · exact fun r => ends_cons.mpr (by decide)
  · exact fun r hr => hr.ends
  · exact fun r hr => by simp [EndsLine, Closes] at hr
  · intro domain r hdomain hr
    rcases renderChoiceDomain_cases domain with ⟨name, rfl⟩ | htext
    · obtain ⟨c, cs, hlist, hstart⟩ := (hdomain name (by simp)).exists_cons
      simp only [renderChoiceDomain, hlist, EndsLine, Closes] at hr
      simp only [List.cons_append, List.head?_cons, reduceCtorEq, Option.some.injEq, false_or] at hr
      subst hr
      exact absurd hstart (by decide)
    · simp [htext, EndsLine, Closes] at hr

/-- What stands behind the columns of a declaration. -/
def Decl.domainsText (decl : Decl) (r : List Char) : List Char :=
  if decl.choiceDomains.isEmpty then r
  else " choice-domain ".toList ++
    ((commaSeparated (decl.choiceDomains.map renderChoiceDomain)).toList ++ r)

theorem Decl.render_append (decl : Decl) (r : List Char) :
    decl.render.toList ++ r = ".decl ".toList ++ (decl.relation.toList ++
      '(' :: ((commaSeparated (decl.attributes.map Attribute.render)).toList ++
        ')' :: decl.domainsText r)) := by
  unfold Decl.render Decl.domainsText
  split <;> simp

theorem Decl.Printable.told {decl : Decl} (h : decl.Printable) :
    Told Printable (fun decl => decl.render.toList) EndsLine decl := by
  intro decl' r s h' hr hs heq
  simp only [Decl.render_append] at heq
  obtain ⟨hrelation, hcolumns⟩ := h.relation.told h'.relation (ends_cons.mpr (by decide))
    (ends_cons.mpr (by decide)) (List.append_cancel_left heq)
  obtain ⟨hattributes, hdomains⟩ := told_attributes h.attributes h'.attributes (closes_cons _ _)
    (closes_cons _ _) (List.cons.inj hcolumns).2
  have hsame : decl.choiceDomains = decl'.choiceDomains ∧ r = s := by
    replace hdomains := (List.cons.inj hdomains).2
    unfold Decl.domainsText at hdomains
    split at hdomains
    · next hempty =>
        split at hdomains
        · next hempty' =>
            rw [List.isEmpty_iff.mp hempty, List.isEmpty_iff.mp hempty']
            exact ⟨rfl, hdomains⟩
        · simp [hdomains, EndsLine, Closes] at hr
    · split at hdomains
      · simp [← hdomains, EndsLine, Closes] at hs
      · exact told_choiceDomains h.choiceDomains h'.choiceDomains hr hs
          (List.append_cancel_left hdomains)
  refine ⟨?_, hsame.2⟩
  cases decl
  cases decl'
  simp_all

/-! ## Programs -/

/-- A command of its own line with proper names, no comment and no verbatim text. -/
inductive Command.Printable : Command → Prop
  | rule {rule : Rule} (printable : rule.Printable) : Printable (.rule rule)
  | decl {decl : Decl} (printable : decl.Printable) : Printable (.decl decl)
  | input {relation : String} (isName : IsName relation) : Printable (.input relation)
  | output {relation : String} (isName : IsName relation) : Printable (.output relation)

/-- A program without comments and verbatim text in which every name is proper. -/
def Program.Printable (program : Program) : Prop :=
  ∀ command ∈ program.flatten, command.Printable

theorem Command.render_input_append (relation : String) (r : List Char) :
    (Command.input relation).render.toList ++ r = ".input ".toList ++ (relation.toList ++ r) := by
  simp [Command.render]

theorem Command.render_output_append (relation : String) (r : List Char) :
    (Command.output relation).render.toList ++ r = ".output ".toList ++ (relation.toList ++ r) := by
  simp [Command.render]

/-- The first letter behind the dot with which every command but a rule starts. -/
def keyword : List Char → Option Char
  | '.' :: c :: _ => some c
  | _ => none

theorem keyword_rule {rule : Rule} (h : rule.Printable) (r : List Char) :
    keyword ((Command.rule rule).render.toList ++ r) = none := by
  have hlead := lead_rule h r
  cases htext : (Command.rule rule).render.toList ++ r with
  | nil => rfl
  | cons c text =>
      rw [show rule.render.toList ++ r = c :: text from htext, lead_cons] at hlead
      have hc : c ≠ '.' := by
        rintro rfl
        exact absurd hlead (by decide)
      simp [keyword, hc]

theorem keyword_decl (decl : Decl) (r : List Char) :
    keyword ((Command.decl decl).render.toList ++ r) = some 'd' := by
  rw [Command.render, Decl.render_append]
  rfl

theorem keyword_input (relation : String) (r : List Char) :
    keyword ((Command.input relation).render.toList ++ r) = some 'i' := by
  rw [Command.render_input_append]
  rfl

theorem keyword_output (relation : String) (r : List Char) :
    keyword ((Command.output relation).render.toList ++ r) = some 'o' := by
  rw [Command.render_output_append]
  rfl

theorem Command.Printable.render_append_ne_nil {command : Command} (h : command.Printable)
    (r : List Char) : command.render.toList ++ r ≠ [] := by
  intro heq
  cases h with
  | rule hrule =>
      have hlead := (lead_rule hrule r).symm.trans (congrArg lead heq)
      cases hlead
  | decl hdecl => simp [Command.render, Decl.render] at heq
  | input | output => simp [Command.render] at heq

theorem Command.Printable.told {command : Command} (h : command.Printable) :
    Told Printable (fun command => command.render.toList) EndsLine command := by
  intro command' r s h' hr hs heq
  have hkeyword := congrArg keyword heq
  cases h with
  | rule hprintable =>
      cases h' with
      | rule hprintable' =>
          obtain ⟨rfl, hrest⟩ := hprintable.told hprintable' trivial trivial heq
          exact ⟨rfl, hrest⟩
      | decl => simp [keyword_rule hprintable, keyword_decl] at hkeyword
      | input => simp [keyword_rule hprintable, keyword_input] at hkeyword
      | output => simp [keyword_rule hprintable, keyword_output] at hkeyword
  | decl hprintable =>
      cases h' with
      | rule hprintable' => simp [keyword_decl, keyword_rule hprintable'] at hkeyword
      | decl hprintable' =>
          obtain ⟨rfl, hrest⟩ := hprintable.told hprintable' hr hs heq
          exact ⟨rfl, hrest⟩
      | input => simp [keyword_decl, keyword_input] at hkeyword
      | output => simp [keyword_decl, keyword_output] at hkeyword
  | input hname =>
      cases h' with
      | rule hprintable' => simp [keyword_input, keyword_rule hprintable'] at hkeyword
      | decl => simp [keyword_input, keyword_decl] at hkeyword
      | input hname' =>
          simp only [Command.render_input_append] at heq
          obtain ⟨rfl, hrest⟩ := hname.told hname' hr.ends hs.ends (List.append_cancel_left heq)
          exact ⟨rfl, hrest⟩
      | output => simp [keyword_input, keyword_output] at hkeyword
  | output hname =>
      cases h' with
      | rule hprintable' => simp [keyword_output, keyword_rule hprintable'] at hkeyword
      | decl => simp [keyword_output, keyword_decl] at hkeyword
      | input => simp [keyword_output, keyword_input] at hkeyword
      | output hname' =>
          simp only [Command.render_output_append] at heq
          obtain ⟨rfl, hrest⟩ := hname.told hname' hr.ends hs.ends (List.append_cancel_left heq)
          exact ⟨rfl, hrest⟩

theorem toList_render (program : Program) :
    program.render.toList =
      ['\n'].intercalate (program.flatten.map fun command => command.render.toList) := by
  simp [Program.render, lines, String.toList_intercalate, Function.comp_def]

/-- The text of a program tells its commands. -/
theorem flatten_eq_of_render_eq {p q : Program} (hp : p.Printable) (hq : q.Printable)
    (h : p.render = q.render) : p.flatten = q.flatten := by
  have htold : Told (fun commands => ∀ command ∈ commands, command.Printable)
      (fun commands => ['\n'].intercalate (commands.map fun command => command.render.toList))
      (fun r => r = []) p.flatten :=
    told_intercalate (fun r => .inr (closes_cons _ r)) (fun r hr => .inl hr) (fun r => by simp)
      (fun command r hcommand => hcommand.render_append_ne_nil r) hp
      (fun command hcommand => (hp command hcommand).told)
  have htext := congrArg String.toList h
  rw [toList_render, toList_render] at htext
  exact (htold hq rfl rfl (congrArg (· ++ []) htext)).1

namespace Sample

/-- Counts the pairs of `cat` and keeps the count in front of a text with quotes and commas. -/
def counting : Rule :=
  ⟨⟨"R1", [.var "n", .symbol "a\", b)."]⟩,
    [.positive ⟨"cat", [.var "x", .wildcard]⟩,
      .aggregate ⟨"n", .count, none, ⟨"cat", [.wildcard, .var "x"]⟩⟩,
      .constraint (.cat [.term (.var "x"), .term (.symbol "\\")]) .ne (.term (.number (-3)))]⟩

def ranked : Decl :=
  ⟨"R1", [⟨"n_0", .number⟩, ⟨"x_1", .symbol⟩], [["n_0"], ["x_1", "n_0"]]⟩

/-- The declaration and the request for input in a group of their own. -/
def grouped : Program :=
  ⟨[.group [.decl ranked, .group [.input "cat"]], .rule counting, .output "R1"]⟩

/-- The same commands in other groups. -/
def regrouped : Program :=
  ⟨[.decl ranked, .group [.input "cat", .rule counting], .group [], .output "R1"]⟩

theorem printable_counting : counting.Printable where
  head := ⟨by decide, by
    simp only [counting, List.forall_mem_cons]
    exact ⟨.var (by decide) (by decide), .symbol _, by simp⟩⟩
  body := by
    simp only [counting, List.forall_mem_cons]
    refine ⟨.positive ⟨by decide, ?_⟩, .aggregate ⟨by decide, by simp, by decide, ?_⟩,
      .constraint (.cat ?_) (.term (.number _)), by simp⟩
    · simp only [List.forall_mem_cons]
      exact ⟨.var (by decide) (by decide), .wildcard, by simp⟩
    · simp only [List.forall_mem_cons]
      exact ⟨.wildcard, .var (by decide) (by decide), by simp⟩
    · simp only [List.forall_mem_cons]
      exact ⟨.term (.var (by decide) (by decide)), .term (.symbol _), by simp⟩

theorem printable_commands :
    ∀ command ∈ [Command.decl ranked, .input "cat", .rule counting, .output "R1"],
      command.Printable := by
  simp only [List.forall_mem_cons]
  exact ⟨.decl ⟨by decide, by decide, by decide⟩, .input (by decide), .rule printable_counting,
    .output (by decide), by simp⟩

end Sample

theorem sample_flatten_eq :
    Sample.grouped.Printable ∧ Sample.regrouped.Printable ∧
      Sample.grouped.render = Sample.regrouped.render ∧
      Sample.grouped.flatten = Sample.regrouped.flatten :=
  ⟨Sample.printable_commands, Sample.printable_commands, rfl,
    flatten_eq_of_render_eq Sample.printable_commands Sample.printable_commands rfl⟩

end RelQuery.Datalog
