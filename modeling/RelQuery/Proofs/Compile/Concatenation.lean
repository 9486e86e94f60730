import RelQuery.Proofs.Compile.Ranking

/-!
# Concatenations in rank order

A concatenation adds up the texts of a numbered relation by rank, finds the highest rank and keeps
the text at that rank.  For the rules it plays no part which tuple has which rank, only which text
stands at which rank.  So the rows of the numbered relation under some values of the parameters are
taken as a list of texts here.  At every rank the accumulator has one text, the texts up to that
rank with commas between them; one induction on ranks shows that it has this text, one over the
rules that it has no other.
-/

namespace RelQuery

open Datalog (Aggregate Assignment Atom Interpretation Literal Operations Rule Term least)

/-! ## Rows of one predicate -/

theorem Datalog.Term.matches_number {σ : Assignment} {n : Int} {value : Value} :
    (Term.number n).Matches σ value ↔ value = .number n := by
  simp [Term.Matches, Term.eval, eq_comm]

namespace Predicate

variable {ops : Operations} {M : Interpretation} {σ τ : Assignment} {p : Predicate} {s t : Tuple}

/-- A row tells its tuple and the values of the parameters. -/
theorem row_eq_row_iff : p.row σ t = p.row τ s ↔ t = s ∧ Agree p.params σ τ := by
  constructor
  · intro h
    have hlength : t.length = s.length := by
      have hrow := congrArg List.length h
      rwa [length_row, length_row, Nat.add_right_cancel_iff] at hrow
    obtain ⟨ht, hparams⟩ := List.append_inj h hlength
    exact ⟨ht, List.map_inj_left.mp hparams⟩
  · rintro ⟨rfl, hagree⟩
    exact row_congr hagree t

theorem holds_atom_iff {terms : List Term} :
    (p.atom terms).Holds M σ ↔
      ∃ t, List.Forall₂ (Term.Matches σ) terms t ∧ p.row σ t ∈ M p.name := by
  simp only [Atom.Holds, relation_atom, matches_atom]
  constructor
  · rintro ⟨_, hmem, t, hterms, rfl⟩
    exact ⟨t, hterms, hmem⟩
  · rintro ⟨t, hterms, hmem⟩
    exact ⟨_, hmem, t, hterms, rfl⟩

theorem matches_atomOf {vars : List String} {u : Tuple} :
    (p.atomOf vars).Matches σ u ↔ u = p.row σ (vars.map σ) := by
  simp only [atomOf, matches_atom, Datalog.forall₂_matches_vars, exists_eq_left']

/-- A rule derives a row when its terms match the tuple under an assignment that has the parameters
of the row. -/
theorem derives_atom_iff {terms : List Term} {body : List Literal} :
    Rule.Derives ops M ⟨p.atom terms, body⟩ (p.row σ t) ↔
      ∃ τ, Agree p.params σ τ ∧ List.Forall₂ (Term.Matches τ) terms t ∧
        ∀ l ∈ body, l.Holds ops M τ := by
  simp only [Rule.Derives, matches_atom, row_eq_row_iff]
  constructor
  · rintro ⟨τ, ⟨_, hterms, rfl, hagree⟩, hbody⟩
    exact ⟨τ, hagree, hterms, hbody⟩
  · rintro ⟨τ, hagree, hterms, hbody⟩
    exact ⟨τ, ⟨t, hterms, rfl, hagree⟩, hbody⟩

theorem derives_atomOf_iff {vars : List String} {body : List Literal} :
    Rule.Derives ops M ⟨p.atomOf vars, body⟩ (p.row σ t) ↔
      ∃ τ, Agree p.params σ τ ∧ vars.map τ = t ∧ ∀ l ∈ body, l.Holds ops M τ := by
  simp only [atomOf, derives_atom_iff, Datalog.forall₂_matches_vars]

/-- The relation of one rule that does not look at itself holds what the rule derives. -/
theorem mem_iff_derives {rule : Rule} {u : Tuple} (hmodel : M p.name = least ops [rule] ∅ M p.name)
    (hhead : rule.head.relation = p.name) (hbody : p.name ∉ rule.bodyRelations) :
    u ∈ M p.name ↔ rule.Derives ops M u := by
  rw [hmodel, Datalog.mem_least_of_not_recursive]
  · simp [hhead]
  · simpa using fun _ => hbody

end Predicate

namespace Compile

open FreshNames (Issued)

/-! ## Models of layered definitions -/

section Evaluate

variable {ops : Operations} {known : List String} {definitions : List Definition}
variable {I : Interpretation}

/-- Gives the predicates of some definitions, one after the other, the least sets of tuples that
their rules allow. -/
def evaluate (ops : Operations) (definitions : List Definition) (I : Interpretation) :
    Interpretation :=
  definitions.foldl (fun I d =>
    Function.update I d.predicate.name (least ops d.rules ∅ I d.predicate.name)) I

/-- Relations that are known before keep their tuples. -/
theorem evaluate_of_mem {name : String} (h : Layered known definitions) (hname : name ∈ known) :
    evaluate ops definitions I name = I name := by
  induction definitions generalizing known I with
  | nil => rfl
  | cons d rest ih =>
      obtain ⟨hnew, -, hrest⟩ := h
      have hne : name ≠ d.predicate.name := by
        rintro rfl
        exact hnew hname
      have hstep := ih (I := Function.update I d.predicate.name
        (least ops d.rules ∅ I d.predicate.name)) hrest (List.mem_append_left _ hname)
      exact hstep.trans (Function.update_of_ne hne _ _)

/-- In the end each predicate still has the least set that its rules allow. -/
theorem modelled_evaluate (h : Layered known definitions) :
    ∀ d ∈ definitions, d.Modelled ops (evaluate ops definitions I) := by
  induction definitions generalizing known I with
  | nil => simp
  | cons d rest ih =>
      obtain ⟨hnew, hrules, hrest⟩ := h
      refine List.forall_mem_cons.mpr ⟨?_, ih hrest⟩
      have hlayered : Layered known (d :: rest) := ⟨hnew, hrules, hrest⟩
      have hown : evaluate ops (d :: rest) I d.predicate.name =
          least ops d.rules ∅ I d.predicate.name := by
        have hlast : evaluate ops rest (Function.update I d.predicate.name
            (least ops d.rules ∅ I d.predicate.name)) d.predicate.name = _ :=
          evaluate_of_mem hrest
            (List.mem_append_right known (List.mem_singleton_self d.predicate.name))
        exact hlast.trans (Function.update_self ..)
      refine hown.trans (Datalog.least_congr fun rule hrule _ other hother hne => ?_)
      have hknown := ((hrules rule hrule).of_mem_bodyRelations hother).resolve_left hne
      exact (evaluate_of_mem hlayered hknown).symm

end Evaluate

/-! ## Texts by rank -/

/-- Under `σ` the predicate `ranked` numbers some texts: a row with the rank `k` has a tuple of `a`
with the text at place `k` in its last column, and there is such a row for every place. -/
structure RanksTexts (M : Interpretation) (σ : Assignment) (a ranked : Predicate)
    (texts : List String) : Prop where
  params : ranked.params = a.params
  arity : ranked.arity = a.arity + 1
  column : a.arity ≠ 0
  finite : {t | ranked.row σ t ∈ M ranked.name}.Finite
  sound : ∀ t, ranked.row σ t ∈ M ranked.name → ∃ (k : Nat) (s : Tuple) (x : String),
    t = .number k :: s ∧ s.length = a.arity ∧ texts[k]? = some x ∧ s.getLast? = some (.symbol x)
  complete : ∀ (k : Nat) (x : String), texts[k]? = some x → ∃ s : Tuple,
    s.length = a.arity ∧ s.getLast? = some (.symbol x) ∧
      ranked.row σ (.number k :: s) ∈ M ranked.name

namespace RanksTexts

variable {ops : Operations} {M : Interpretation} {σ τ : Assignment} {a ranked : Predicate}
variable {texts : List String}

theorem congr (h : RanksTexts M σ a ranked texts) (hagree : Predicate.Agree a.params σ τ) :
    RanksTexts M τ a ranked texts := by
  have hrow : ranked.row σ = ranked.row τ := by
    funext t
    exact Predicate.row_congr (h.params ▸ hagree) t
  obtain ⟨hparams, harity, hcolumn, hfinite, hsound, hcomplete⟩ := h
  rw [hrow] at hfinite hsound hcomplete
  exact ⟨hparams, harity, hcolumn, hfinite, hsound, hcomplete⟩

theorem update (h : RanksTexts M σ a ranked texts) {name : String} (hne : ranked.name ≠ name)
    (tuples : Set Tuple) : RanksTexts (Function.update M name tuples) σ a ranked texts := by
  have hsame : Function.update M name tuples ranked.name = M ranked.name :=
    Function.update_of_ne hne _ _
  exact ⟨h.params, h.arity, h.column, by rw [hsame]; exact h.finite, by rw [hsame]; exact h.sound,
    by rw [hsame]; exact h.complete⟩

/-- A text at a rank. -/
theorem holds_item_iff (h : RanksTexts M σ a ranked texts) {rank : Term} {v : String} :
    (ranked.atom (rank :: a.wildcards.dropLast ++ [.var v])).Holds M σ ↔
      ∃ (k : Nat) (x : String), texts[k]? = some x ∧ rank.Matches σ (.number k) ∧
        σ v = .symbol x := by
  rw [Predicate.holds_atom_iff]
  simp only [List.cons_append, List.forall₂_cons_left_iff,
    Predicate.forall₂_matches_last h.column]
  constructor
  · rintro ⟨_, ⟨value, s, hvalue, ⟨-, hlast⟩, rfl⟩, hmem⟩
    obtain ⟨k, s', x, heq, -, hx, hlast'⟩ := h.sound _ hmem
    obtain ⟨rfl, rfl⟩ := List.cons.inj heq
    exact ⟨k, x, hx, hvalue, Option.some.inj (hlast.symm.trans hlast')⟩
  · rintro ⟨k, x, hx, hvalue, hv⟩
    obtain ⟨s, hlength, hlast, hmem⟩ := h.complete k x hx
    exact ⟨_, ⟨_, s, hvalue, ⟨hlength, by rw [hlast, hv]⟩, rfl⟩, hmem⟩

theorem holds_wildcardAtom (h : RanksTexts M σ a ranked texts) (hne : texts ≠ []) :
    ranked.wildcardAtom.Holds M σ := by
  obtain ⟨s, hlength, -, hmem⟩ := h.complete 0 _
    (List.getElem?_eq_getElem (List.length_pos_iff.mpr hne))
  rw [Predicate.wildcardAtom, Predicate.holds_atom_iff]
  refine ⟨_, ?_, hmem⟩
  rw [Predicate.wildcards, Datalog.forall₂_matches_wildcards, h.arity, List.length_cons, hlength]

/-- What the aggregate over the ranks ranges over. -/
theorem selects_iff (h : RanksTexts M σ a ranked texts) {highest each : String}
    (heach : ∀ x, each ≠ paramVar x) {row : Tuple × Int} :
    Aggregate.SelectsNumber M σ
        ⟨highest, .max, some each, ranked.atom (.var each :: a.wildcards)⟩ each row ↔
      ∃ s, row.1 = ranked.row σ (.number row.2 :: s) ∧
        ranked.row σ (.number row.2 :: s) ∈ M ranked.name := by
  have hagree : Predicate.Agree ranked.params (Function.update σ each (.number row.2)) σ := by
    intro x _
    exact Function.update_of_ne (heach x).symm _ _
  simp only [Aggregate.SelectsNumber, Predicate.matches_atom, Predicate.relation_atom,
    List.forall₂_cons_left_iff, Term.matches_var, Function.update_self,
    Predicate.row_congr hagree, Predicate.wildcards, Datalog.forall₂_matches_wildcards]
  constructor
  · rintro ⟨hmem, _, ⟨_, s, rfl, -, rfl⟩, hrow⟩
    rw [hrow] at hmem
    exact ⟨s, hrow, hmem⟩
  · rintro ⟨s, hrow, hmem⟩
    obtain ⟨_, _, _, heq, hlength, -⟩ := h.sound _ hmem
    obtain ⟨-, rfl⟩ := List.cons.inj heq
    exact ⟨hrow ▸ hmem, _, ⟨_, s, rfl, hlength, rfl⟩, hrow⟩

/-- The highest rank belongs to the last text. -/
theorem holds_highest_iff (h : RanksTexts M σ a ranked texts) {highest each : String}
    (heach : ∀ x, each ≠ paramVar x) :
    Aggregate.Holds M σ ⟨highest, .max, some each, ranked.atom (.var each :: a.wildcards)⟩ ↔
      ∃ k : Nat, texts.length = k + 1 ∧ σ highest = .number k := by
  have hrank : ∀ row : Tuple × Int, Aggregate.SelectsNumber M σ
      ⟨highest, .max, some each, ranked.atom (.var each :: a.wildcards)⟩ each row →
        ∃ k : Nat, k < texts.length ∧ row.2 = k := by
    intro row hrow
    obtain ⟨s, -, hmem⟩ := (h.selects_iff heach).mp hrow
    obtain ⟨k, _, x, heq, -, hx, -⟩ := h.sound _ hmem
    obtain ⟨hk, -⟩ := List.cons.inj heq
    exact ⟨k, (List.getElem?_eq_some_iff.mp hx).1, Value.number.inj hk⟩
  have htaken : ∀ k : Nat, k < texts.length → ∃ row : Tuple × Int, row.2 = k ∧
      Aggregate.SelectsNumber M σ
        ⟨highest, .max, some each, ranked.atom (.var each :: a.wildcards)⟩ each row := by
    intro k hk
    obtain ⟨s, -, -, hmem⟩ := h.complete k _ (List.getElem?_eq_getElem hk)
    exact ⟨(ranked.row σ (.number k :: s), k), rfl, (h.selects_iff heach).mpr ⟨s, rfl, hmem⟩⟩
  constructor
  · rintro ⟨rows, hrows, n, ⟨⟨row, hrow, rfl⟩, hbound⟩, hvalue⟩
    obtain ⟨k, hk, hn⟩ := hrank row ((hrows row).mp hrow)
    obtain ⟨last, hlast, hselected⟩ := htaken (texts.length - 1) (by omega)
    have hle := hbound last ((hrows last).mpr hselected)
    rw [hlast, hn] at hle
    exact ⟨k, by omega, by rw [← hn]; exact hvalue⟩
  · rintro ⟨k, hlength, hvalue⟩
    have hfinite : {row | Aggregate.SelectsNumber M σ
        ⟨highest, .max, some each, ranked.atom (.var each :: a.wildcards)⟩ each row}.Finite := by
      -- A row with its number is told by the row.
      refine Set.Finite.of_finite_image (f := Prod.fst) (h.finite.image (ranked.row σ) |>.subset ?_)
        ?_
      · rintro _ ⟨row, hrow, rfl⟩
        obtain ⟨s, hfst, hmem⟩ := (h.selects_iff heach).mp hrow
        exact ⟨_, hmem, hfst.symm⟩
      · intro row hrow other hother heq
        obtain ⟨s, hfst, -⟩ := (h.selects_iff heach).mp hrow
        obtain ⟨s', hfst', -⟩ := (h.selects_iff heach).mp hother
        have htuples := ranked.row_injective σ (hfst.symm.trans (heq.trans hfst'))
        have hnumbers : row.2 = other.2 := by simpa using (List.cons.inj htuples).1
        exact Prod.ext heq hnumbers
    refine ⟨hfinite.toFinset, fun row => hfinite.mem_toFinset, k, ⟨?_, ?_⟩, hvalue⟩
    · obtain ⟨row, hrow, hselected⟩ := htaken k (by omega)
      exact ⟨row, hfinite.mem_toFinset.mpr hselected, hrow⟩
    · intro row hrow
      obtain ⟨l, hl, heq⟩ := hrank row (hfinite.mem_toFinset.mp hrow)
      rw [heq]
      omega

end RanksTexts

/-! ## The accumulator -/

/-- The texts up to a rank with the separator between any two. -/
def joined (texts : List String) (rank : Nat) : String :=
  separator.intercalate (texts.take (rank + 1))

theorem joined_zero {texts : List String} {x : String} (hx : texts[0]? = some x) :
    joined texts 0 = x := by
  rw [joined, List.take_add_one, List.take_zero, hx]
  exact String.intercalate_singleton

theorem joined_succ {texts : List String} {k : Nat} {x : String} (hx : texts[k + 1]? = some x) :
    joined texts (k + 1) = joined texts k ++ (separator ++ x) := by
  have hne : texts.take (k + 1) ≠ [] := by
    have hlength := (List.getElem?_eq_some_iff.mp hx).1
    rw [ne_eq, List.take_eq_nil_iff]
    rintro (hk | rfl)
    · omega
    · simp at hlength
  rw [joined, List.take_add_one, hx, Option.toList_some,
    String.intercalate_append_of_ne_nil hne (List.cons_ne_nil x []), String.intercalate_singleton,
    String.append_assoc, joined]

/-- Up to the last rank all texts are joined. -/
theorem joined_last {texts : List String} {k : Nat} (h : texts.length = k + 1) :
    joined texts k = separator.intercalate texts := by
  rw [joined, List.take_of_length_le h.le]

theorem eval_joined {ops : Operations} {σ : Assignment} {previous text : String} {value : Value} :
    (Datalog.ScalarExpr.cat [.term (.var previous), .term (.symbol separator),
      .term (.var text)]).eval ops σ = some value ↔
      ∃ y x, σ previous = .symbol y ∧ σ text = .symbol x ∧
        value = .symbol (y ++ (separator ++ x)) := by
  simp only [Datalog.ScalarExpr.eval, Datalog.ScalarExpr.evalText, Term.eval]
  cases σ previous <;> cases σ text <;> simp [eq_comm]

section Definitions

variable {ops : Operations} {M : Interpretation} {σ : Assignment} {a ranked : Predicate}
variable {texts : List String} {names later : FreshNames} {d : Definition} {t : Tuple}

/-- The first rule gives the first text the rank zero. -/
theorem derives_first_sum {sums : Predicate} {relations vars : List String} {first : String}
    (h : RanksTexts M σ a ranked texts) (hparams : sums.params = a.params)
    (hissued : Issued names relations (first :: vars) later) :
    Rule.Derives ops M ⟨sums.atom [.number 0, .var first],
      [.positive (ranked.atom (.number 0 :: a.wildcards.dropLast ++ [.var first]))]⟩
      (sums.row σ t) ↔ ∃ x, texts[0]? = some x ∧ t = [.number 0, .symbol x] := by
  rw [Predicate.derives_atom_iff]
  simp only [List.forall_mem_singleton, Literal.holds_positive, List.forall₂_cons_left_iff,
    List.forall₂_nil_left_iff, Term.matches_var, Term.matches_number]
  constructor
  · rintro ⟨τ, hagree, ⟨_, _, rfl, ⟨_, _, rfl, rfl, rfl⟩, rfl⟩, hitem⟩
    obtain ⟨k, x, hx, hk, hv⟩ := (h.congr (hparams ▸ hagree)).holds_item_iff.mp hitem
    obtain rfl : k = 0 := by simpa using Term.matches_number.mp hk
    exact ⟨x, hx, by rw [hv]⟩
  · rintro ⟨x, hx, rfl⟩
    obtain ⟨τ, hagree, hmap⟩ := hissued.exists_assignment σ
      (.symbol x :: vars.map fun _ => .number 0) (by simp)
    have hv : τ first = .symbol x := (List.cons.inj hmap).1
    refine ⟨τ, fun x _ => hagree x, ⟨_, _, rfl, ⟨_, _, hv, rfl, rfl⟩, rfl⟩, ?_⟩
    exact (h.congr fun x _ => hagree x).holds_item_iff.mpr
      ⟨0, x, hx, Term.matches_number.mpr rfl, hv⟩

/-- The second rule puts the text at the next rank behind a text that is there. -/
theorem derives_next_sum {sums : Predicate} {relations : List String}
    {first previousRank previousSum rank text sum : String}
    (h : RanksTexts M σ a ranked texts) (hparams : sums.params = a.params)
    (hissued : Issued names relations [first, previousRank, previousSum, rank, text, sum] later) :
    Rule.Derives ops M ⟨sums.atomOf [rank, sum],
      [.positive (sums.atomOf [previousRank, previousSum]),
        .positive (ranked.atom (.var rank :: a.wildcards.dropLast ++ [.var text])),
        .assign rank (successor previousRank),
        .assign sum (.cat [.term (.var previousSum), .term (.symbol separator),
          .term (.var text)])]⟩ (sums.row σ t) ↔
      ∃ (i : Int) (y : String) (k : Nat) (x : String),
        sums.row σ [.number i, .symbol y] ∈ M sums.name ∧ ops .add i 1 = some (k : Int) ∧
          texts[k]? = some x ∧ t = [.number k, .symbol (y ++ (separator ++ x))] := by
  rw [Predicate.derives_atomOf_iff]
  simp only [List.forall_mem_cons, List.not_mem_nil, false_implies, implies_true, and_true,
    Literal.holds_positive, Literal.holds_assign, eval_successor, eval_joined,
    Predicate.holds_atomOf_iff, List.map_cons, List.map_nil]
  constructor
  · rintro ⟨τ, hagree, rfl, hsum, hitem, ⟨i, j, hi, hadd, hj⟩, y, x, hy, hx, hjoined⟩
    obtain ⟨k, x', hx', hk, hv⟩ := (h.congr (hparams ▸ hagree)).holds_item_iff.mp hitem
    rw [Term.matches_var, hj] at hk
    obtain rfl : j = k := Value.number.inj hk
    obtain rfl : x = x' := Value.symbol.inj (hx.symm.trans hv)
    rw [hi, hy, ← Predicate.row_congr hagree] at hsum
    exact ⟨i, y, k, x, hsum, hadd, hx', by rw [hj, hjoined]⟩
  · rintro ⟨i, y, k, x, hsum, hadd, hx, rfl⟩
    obtain ⟨τ, hagree, hmap⟩ := hissued.exists_assignment σ
      [.number 0, .number i, .symbol y, .number k, .symbol x, .symbol (y ++ (separator ++ x))] rfl
    obtain ⟨-, hi, hy, hk, hv, hjoined⟩ : τ first = .number 0 ∧ τ previousRank = .number i ∧
        τ previousSum = .symbol y ∧ τ rank = .number k ∧ τ text = .symbol x ∧
          τ sum = .symbol (y ++ (separator ++ x)) := by simpa using hmap
    refine ⟨τ, fun x _ => hagree x, by rw [hk, hjoined], ?_, ?_, ⟨i, k, hi, hadd, hk⟩,
      y, x, hy, hv, hjoined⟩
    · rw [hi, hy, ← Predicate.row_congr fun x _ => hagree x]
      exact hsum
    · exact (h.congr fun x _ => hagree x).holds_item_iff.mpr
        ⟨k, x, hx, Term.matches_var.mpr hk, hv⟩

/-- At every rank the accumulator has the texts up to that rank and nothing else. -/
theorem mem_accumulator_iff (hd : accumulator a ranked names = .ok (d, later))
    (hne : ranked.name ≠ d.predicate.name) (h : RanksTexts M σ a ranked texts)
    (hcounts : ∀ k : Nat, k < texts.length → ops .add k 1 = some ((k : Int) + 1))
    (hmodel : d.Modelled ops M) :
    d.predicate.row σ t ∈ M d.predicate.name ↔ ∃ k : Nat, k < texts.length ∧
      t = [.number k, .symbol (joined texts k)] := by
  obtain ⟨sums, first, previousRank, previousSum, rank, text, sum, hissued, -, hparams, rfl⟩ :=
    accumulator_ok hd
  have hown : M sums.name = least ops _ ∅ M sums.name := hmodel
  change sums.row σ t ∈ M sums.name ↔ _
  constructor
  · -- The rows with the texts up to a rank are closed under both rules; rows for other values of
    -- the parameters are left unconstrained.
    intro hrow
    rw [hown] at hrow
    refine hrow {u | ∀ t, u = sums.row σ t → ∃ k : Nat, k < texts.length ∧
      t = [.number k, .symbol (joined texts k)]}
      ⟨Set.empty_subset _, ?_⟩ t rfl
    rintro rule hrule - _ hderives t rfl
    have h' := h.update hne {u | ∀ t, u = sums.row σ t → ∃ k : Nat, k < texts.length ∧
      t = [.number k, .symbol (joined texts k)]}
    rcases List.mem_pair.mp hrule with rfl | rfl
    · obtain ⟨x, hx, rfl⟩ := (derives_first_sum h' hparams hissued).mp hderives
      refine ⟨0, (List.getElem?_eq_some_iff.mp hx).1, ?_⟩
      rw [joined_zero hx]
      rfl
    · obtain ⟨i, y, k, x, hprevious, hadd, hx, rfl⟩ :=
        (derives_next_sum h' hparams hissued).mp hderives
      rw [Function.update_self] at hprevious
      obtain ⟨l, hl, heq⟩ := hprevious _ rfl
      simp only [List.cons.injEq, Value.number.injEq, Value.symbol.injEq, and_true] at heq
      obtain ⟨rfl, rfl⟩ := heq
      rw [hcounts l hl] at hadd
      obtain rfl : l + 1 = k := by
        have hnext := Option.some.inj hadd
        omega
      refine ⟨l + 1, (List.getElem?_eq_some_iff.mp hx).1, ?_⟩
      rw [joined_succ hx]
  · rintro ⟨k, hk, rfl⟩
    rw [hown]
    intro tuples hclosed
    have h' := h.update hne tuples
    induction k with
    | zero =>
        have hfirst := List.getElem?_eq_getElem hk
        refine hclosed.rules _ List.mem_cons_self rfl _
          ((derives_first_sum h' hparams hissued).mpr ⟨_, hfirst, ?_⟩)
        rw [joined_zero hfirst]
        rfl
    | succ l ih =>
        refine hclosed.rules _ (List.mem_cons_of_mem _ List.mem_cons_self) rfl _
          ((derives_next_sum h' hparams hissued).mpr
            ⟨l, joined texts l, l + 1, _, ?_, ?_, List.getElem?_eq_getElem hk, ?_⟩)
        · rw [Function.update_self]
          exact ih (by omega)
        · rw [hcounts l (by omega)]
          rfl
        · rw [joined_succ (List.getElem?_eq_getElem hk)]

/-! ## The highest rank and the text there -/

theorem mem_highestRank_iff (hd : highestRank a ranked names = .ok (d, later))
    (hne : ranked.name ≠ d.predicate.name) (h : RanksTexts M σ a ranked texts)
    (hmodel : d.Modelled ops M) :
    d.predicate.row σ t ∈ M d.predicate.name ↔
      ∃ k : Nat, texts.length = k + 1 ∧ t = [.number k] := by
  obtain ⟨top, highest, each, hissued, -, hparams, rfl⟩ := highestRank_ok hd
  have heach : ∀ x, each ≠ paramVar x := hissued.not_param (by simp)
  change top.row σ t ∈ M top.name ↔ _
  have hbody : top.name ∉ Rule.bodyRelations ⟨top.atomOf [highest], [.positive ranked.wildcardAtom,
      .aggregate ⟨highest, .max, some each, ranked.atom (.var each :: a.wildcards)⟩]⟩ := by
    simpa [Rule.bodyRelations, Literal.relation?] using hne.symm
  rw [Predicate.mem_iff_derives hmodel rfl hbody, Predicate.derives_atomOf_iff]
  simp only [List.forall_mem_cons, List.not_mem_nil, false_implies, implies_true, and_true,
    Literal.holds_positive, Literal.holds_aggregate, List.map_cons, List.map_nil]
  constructor
  · rintro ⟨τ, hagree, rfl, -, hmax⟩
    obtain ⟨k, hlength, hvalue⟩ := ((h.congr (hparams ▸ hagree)).holds_highest_iff heach).mp hmax
    exact ⟨k, hlength, by rw [hvalue]⟩
  · rintro ⟨k, hlength, rfl⟩
    obtain ⟨τ, hagree, hmap⟩ := hissued.exists_assignment σ [.number k, .number 0] rfl
    obtain ⟨hvalue, -⟩ : τ highest = .number k ∧ τ each = .number 0 := by simpa using hmap
    have h' : RanksTexts M τ a ranked texts := h.congr fun x _ => hagree x
    refine ⟨τ, fun x _ => hagree x, by rw [hvalue], ?_,
      (h'.holds_highest_iff heach).mpr ⟨k, hlength, hvalue⟩⟩
    exact h'.holds_wildcardAtom (List.length_pos_iff.mp (by omega))

/-- The rows of the result have the text that the accumulator has at the highest rank. -/
theorem mem_concatenated_iff {sums top : Predicate} {u : Tuple}
    (hd : concatenated sums top names = .ok (d, later))
    (hsums : sums.name ≠ d.predicate.name) (htop : top.name ≠ d.predicate.name)
    (hmodel : d.Modelled ops M) :
    u ∈ M d.predicate.name ↔ ∃ σ highest text, top.row σ [highest] ∈ M top.name ∧
      sums.row σ [highest, text] ∈ M sums.name ∧ u = d.predicate.row σ [text] := by
  obtain ⟨result, highest, text, hissued, -, hparams, rfl⟩ := concatenated_ok hd
  change u ∈ M result.name ↔ ∃ σ highest text, _ ∧ _ ∧ u = result.row σ [text]
  have hbody : result.name ∉ Rule.bodyRelations ⟨result.atomOf [text],
      [.positive (top.atomOf [highest]), .positive (sums.atomOf [highest, text])]⟩ := by
    simpa [Rule.bodyRelations, Literal.relation?] using ⟨htop.symm, hsums.symm⟩
  rw [Predicate.mem_iff_derives hmodel rfl hbody]
  simp only [Rule.Derives, Predicate.matches_atomOf, List.forall_mem_cons, List.not_mem_nil,
    false_implies, implies_true, and_true, Literal.holds_positive, Predicate.holds_atomOf_iff,
    List.map_cons, List.map_nil]
  constructor
  · rintro ⟨σ, rfl, hhighest, htext⟩
    exact ⟨σ, _, _, hhighest, htext, rfl⟩
  · rintro ⟨σ, n, x, hhighest, htext, rfl⟩
    obtain ⟨τ, hagree, hmap⟩ := hissued.exists_assignment σ [n, x] rfl
    obtain ⟨rfl, rfl⟩ : τ highest = n ∧ τ text = x := by simpa using hmap
    have hrow : ∀ (p : Predicate) (t : Tuple), p.row σ t = p.row τ t := fun p =>
      Predicate.row_congr fun x _ => hagree x
    rw [hrow] at hhighest htext ⊢
    exact ⟨τ, rfl, hhighest, htext⟩

theorem row_mem_concatenated_iff {sums top : Predicate}
    (hd : concatenated sums top names = .ok (d, later))
    (hsums : sums.name ≠ d.predicate.name) (htop : top.name ≠ d.predicate.name)
    (hparams : top.params = sums.params) (hmodel : d.Modelled ops M) :
    d.predicate.row σ t ∈ M d.predicate.name ↔ ∃ highest text, top.row σ [highest] ∈ M top.name ∧
      sums.row σ [highest, text] ∈ M sums.name ∧ t = [text] := by
  have hresult : d.predicate.params = sums.params := by
    obtain ⟨_, _, _, -, -, hresult, rfl⟩ := concatenated_ok hd
    exact hresult
  simp only [mem_concatenated_iff hd hsums htop hmodel, Predicate.row_eq_row_iff]
  constructor
  · rintro ⟨τ, n, x, hhighest, htext, rfl, hagree⟩
    rw [hresult] at hagree
    rw [← Predicate.row_congr (hparams ▸ hagree)] at hhighest
    rw [← Predicate.row_congr hagree] at htext
    exact ⟨n, x, hhighest, htext, rfl⟩
  · rintro ⟨n, x, hhighest, htext, rfl⟩
    exact ⟨σ, n, x, hhighest, htext, rfl, fun _ _ => rfl⟩

end Definitions

/-! ## Groups of one relation -/

/-- The texts of the tuples of a group, in the order of their ranks. -/
def textsByRank {T : Set Tuple} {n : Nat} (rank : T ≃ Fin n) (text : Tuple → String) :
    List String :=
  List.ofFn fun k => text (rank.symm k)

theorem getElem?_textsByRank {T : Set Tuple} {n : Nat} {rank : T ≃ Fin n} {text : Tuple → String}
    {k : Nat} {x : String} :
    (textsByRank rank text)[k]? = some x ↔ ∃ s : T, (rank s : Nat) = k ∧ text s = x := by
  simp only [textsByRank, List.getElem?_ofFn, Option.dite_none_right_eq_some, Option.some.injEq]
  constructor
  · rintro ⟨hk, rfl⟩
    exact ⟨rank.symm ⟨k, hk⟩, by rw [Equiv.apply_symm_apply], rfl⟩
  · rintro ⟨s, rfl, rfl⟩
    exact ⟨(rank s).isLt, by rw [Fin.eta, Equiv.symm_apply_apply]⟩

theorem ranksTexts_of_equiv {a ranked : Predicate} {A R : Finset Tuple} {σ : Assignment}
    {M : Interpretation} {text : Tuple → String} (hparams : ranked.params = a.params)
    (harity : ranked.arity = a.arity + 1) (hcolumn : a.arity ≠ 0) (hR : M ranked.name = R)
    (hsized : ∀ u ∈ A, u.length = a.arity + a.params.length)
    (htext : ∀ t ∈ a.group A σ, t.getLast? = some (.symbol (text t)))
    (rank : a.group A σ ≃ Fin (a.group A σ).ncard)
    (hrank : ∀ t, ranked.row σ t ∈ R ↔ ∃ s : a.group A σ, t = .number (rank s : Nat) :: s) :
    RanksTexts M σ a ranked (textsByRank rank text) where
  params := hparams
  arity := harity
  column := hcolumn
  finite := hR ▸ ranked.finite_group R σ
  sound := by
    intro t ht
    rw [hR] at ht
    obtain ⟨s, rfl⟩ := (hrank t).mp ht
    exact ⟨rank s, s, text s, rfl, Predicate.length_of_mem_group hsized s.2,
      getElem?_textsByRank.mpr ⟨s, rfl, rfl⟩, htext s s.2⟩
  complete := by
    intro k x hx
    obtain ⟨s, rfl, rfl⟩ := getElem?_textsByRank.mp hx
    rw [hR]
    exact ⟨s, Predicate.length_of_mem_group hsized s.2, htext s s.2, (hrank _).mpr ⟨s, rfl⟩⟩

/-- A relation whose last column has symbols can be concatenated. -/
theorem exists_emitConcat_ok {a : Predicate} (hlast : a.lastType? = some .symbol)
    (names : FreshNames) : ∃ em later, emitConcat a names = .ok (em, later) := by
  have hcolumns : a.columns ≠ [] := by
    intro hnil
    simp [Predicate.lastType?, Predicate.types, hnil] at hlast
  obtain ⟨ranked, later, hranked⟩ := exists_rank_ok hcolumns names
  have htype : ensureType "Last column of concat operand" .symbol .symbol = .ok () := rfl
  simp only [emitConcat, hlast, htype]
  exact ⟨_, _, bind_eq_ok.mpr ⟨(), names, rfl, bind_eq_ok.mpr ⟨ranked, later, hranked, rfl⟩⟩⟩

/-- The definitions of a concatenation behind the ranks are layers on top of the ranks. -/
theorem layered_concat {a : Predicate} {ranked sums top result : Definition}
    {names mid₁ mid₂ mid₃ later : FreshNames} (hranked : rank a names = .ok (ranked, mid₁))
    (hsums : accumulator a ranked.predicate mid₁ = .ok (sums, mid₂))
    (htop : highestRank a ranked.predicate mid₂ = .ok (top, mid₃))
    (hresult : concatenated sums.predicate top.predicate mid₃ = .ok (result, later)) :
    Layered [ranked.predicate.name] [sums, top, result] := by
  have hcovers : ∀ name ∈ [ranked.predicate.name], mid₁.Covers name := by
    obtain ⟨_, _, _, _, hissued, -, -, -, -, rfl⟩ := rank_ok hranked
    exact fun name hname => hissued.covers_new hname
  have hfirst := extends_accumulator hcovers List.mem_cons_self hsums
  have htwo := hfirst.trans
    (extends_highestRank hfirst.covers (List.mem_append_left _ List.mem_cons_self) htop)
  have hthree := htwo.trans (extends_concatenated htwo.covers
    (List.mem_append_right _ (by simp [definedNames]))
    (List.mem_append_right _ (by simp [definedNames])) hresult)
  exact hthree.layered

theorem names_concat {a : Predicate} {ranked sums top result : Definition}
    {names mid₁ mid₂ mid₃ later : FreshNames} (hranked : rank a names = .ok (ranked, mid₁))
    (hsums : accumulator a ranked.predicate mid₁ = .ok (sums, mid₂))
    (htop : highestRank a ranked.predicate mid₂ = .ok (top, mid₃))
    (hresult : concatenated sums.predicate top.predicate mid₃ = .ok (result, later)) :
    ranked.predicate.name ≠ sums.predicate.name ∧ ranked.predicate.name ≠ top.predicate.name ∧
      sums.predicate.name ≠ result.predicate.name ∧
        top.predicate.name ≠ result.predicate.name := by
  obtain ⟨hsumsNew, -, htopNew, -, hresultNew, -⟩ := layered_concat hranked hsums htop hresult
  simp only [List.cons_append, List.nil_append, List.mem_cons, List.not_mem_nil, or_false,
    not_or] at hsumsNew htopNew hresultNew
  exact ⟨Ne.symm hsumsNew, Ne.symm htopNew.1, Ne.symm hresultNew.2.1, Ne.symm hresultNew.2.2⟩

/-- Together the three definitions join the texts that stand at the ranks. -/
theorem row_mem_concat_iff {a : Predicate} {ranked sums top result : Definition}
    {names mid₁ mid₂ mid₃ later : FreshNames} (hranked : rank a names = .ok (ranked, mid₁))
    (hsums : accumulator a ranked.predicate mid₁ = .ok (sums, mid₂))
    (htop : highestRank a ranked.predicate mid₂ = .ok (top, mid₃))
    (hresult : concatenated sums.predicate top.predicate mid₃ = .ok (result, later))
    {ops : Operations} {M : Interpretation} {σ : Assignment} {texts : List String} {t : Tuple}
    (hmodels : ∀ d ∈ [sums, top, result], d.Modelled ops M)
    (h : RanksTexts M σ a ranked.predicate texts)
    (hcounts : ∀ k : Nat, k < texts.length → ops .add k 1 = some ((k : Int) + 1)) :
    result.predicate.row σ t ∈ M result.predicate.name ↔
      texts ≠ [] ∧ t = [.symbol (separator.intercalate texts)] := by
  obtain ⟨hsumsNew, htopNew, hresultSums, hresultTop⟩ :=
    names_concat hranked hsums htop hresult
  have hparams : top.predicate.params = sums.predicate.params := by
    obtain ⟨_, _, _, _, _, _, _, -, -, hsumsParams, rfl⟩ := accumulator_ok hsums
    obtain ⟨_, _, _, -, -, htopParams, rfl⟩ := highestRank_ok htop
    exact htopParams.trans hsumsParams.symm
  simp only [List.forall_mem_cons, List.not_mem_nil, false_implies, implies_true, and_true]
    at hmodels
  obtain ⟨hsumsModel, htopModel, hresultModel⟩ := hmodels
  simp only [row_mem_concatenated_iff hresult hresultSums hresultTop hparams hresultModel,
    mem_highestRank_iff htop htopNew h htopModel,
    mem_accumulator_iff hsums hsumsNew h hcounts hsumsModel]
  constructor
  · rintro ⟨_, _, ⟨k, hk, hhighest⟩, ⟨l, -, hsum⟩, rfl⟩
    simp only [List.cons.injEq, and_true] at hhighest hsum
    obtain ⟨rfl, rfl⟩ := hsum
    obtain rfl : l = k := by simpa using hhighest
    exact ⟨List.length_pos_iff.mp (by omega), by rw [joined_last hk]⟩
  · rintro ⟨hne, rfl⟩
    obtain ⟨k, hk⟩ := Nat.exists_eq_succ_of_ne_zero (List.length_pos_iff.mpr hne).ne'
    exact ⟨.number k, _, ⟨k, hk, rfl⟩, ⟨k, by omega, rfl⟩, by rw [joined_last hk]⟩

/-- For all values of the parameters a concatenation has one row when the operand has a tuple and no
row otherwise: the texts of all tuples in the order of their ranks, with commas between them. -/
theorem concat_joins_groups {a : Predicate} (hlast : a.lastType? = some .symbol)
    (names : FreshNames) :
    ∃ ranked sums top result later,
      emitConcat a names = .ok (⟨[ranked, sums, top], result⟩, later) ∧
      ∀ (ops : Operations) (I : Interpretation) (A R : Finset Tuple) (text : Tuple → String),
        I ranked.predicate.name = R → (∀ u ∈ A, u.length = a.arity + a.params.length) →
        (∀ u ∈ evaluate ops [sums, top, result] I result.predicate.name,
          ∃ σ t, u = result.predicate.row σ t) ∧
        ∀ (σ : Assignment) (rank : a.group A σ ≃ Fin (a.group A σ).ncard),
          (∀ t, ranked.predicate.row σ t ∈ R ↔
            ∃ s : a.group A σ, t = .number (rank s : Nat) :: s) →
          (∀ t ∈ a.group A σ, t.getLast? = some (.symbol (text t))) →
          (∀ k : Nat, k < (a.group A σ).ncard → ops .add k 1 = some ((k : Int) + 1)) →
          ∀ t, result.predicate.row σ t ∈
              evaluate ops [sums, top, result] I result.predicate.name ↔
            (a.group A σ).Nonempty ∧ t = [.symbol (",".intercalate (textsByRank rank text))] := by
  obtain ⟨em, later, hem⟩ := exists_emitConcat_ok hlast names
  obtain ⟨ranked, sums, top, result, mid₁, mid₂, mid₃, -, hranked, hsums, htop, hresult, rfl⟩ :=
    emitConcat_ok hem
  refine ⟨ranked, sums, top, result, later, hem, ?_⟩
  intro ops I A R text hR hsized
  have hlayered := layered_concat hranked hsums htop hresult
  have hmodels : ∀ d ∈ [sums, top, result],
      d.Modelled ops (evaluate ops [sums, top, result] I) := modelled_evaluate hlayered
  have hR' : evaluate ops [sums, top, result] I ranked.predicate.name = R :=
    (evaluate_of_mem hlayered List.mem_cons_self).trans hR
  refine ⟨fun u hu => ?_, ?_⟩
  · obtain ⟨-, -, hresultSums, hresultTop⟩ := names_concat hranked hsums htop hresult
    obtain ⟨σ, _, x, -, -, rfl⟩ :=
      (mem_concatenated_iff hresult hresultSums hresultTop (hmodels result (by simp))).mp hu
    exact ⟨σ, [x], rfl⟩
  intro σ rank hrank htext hcounts t
  have hranks : RanksTexts (evaluate ops [sums, top, result] I) σ a ranked.predicate
      (textsByRank rank text) := by
    obtain ⟨_, _, _, _, -, hcolumn, -, hcolumns, hparams, rfl⟩ := rank_ok hranked
    have harity : _ = a.arity + 1 := congrArg List.length hcolumns
    exact ranksTexts_of_equiv hparams harity hcolumn hR' hsized htext rank hrank
  have hlength : (textsByRank rank text).length = (a.group A σ).ncard := by
    rw [textsByRank, List.length_ofFn]
  have hnonempty : (a.group A σ).Nonempty ↔ textsByRank rank text ≠ [] := by
    rw [← List.length_pos_iff, hlength, Set.ncard_pos (a.finite_group A σ)]
  rw [hnonempty]
  exact row_mem_concat_iff hranked hsums htop hresult hmodels hranks fun k hk =>
    hcounts k (hlength ▸ hk)

namespace Sample

/-- A predicate with a text in its last column whose tuples depend on the scalar `side`. -/
def labels : Predicate :=
  ⟨"labels", [⟨.number, "x"⟩, ⟨.symbol, "y"⟩], ["side"]⟩

/-- Three tuples, two of them with the same text. -/
def labelOrder : List Tuple :=
  [[.number 7, .symbol "b"], [.number 3, .symbol "a"], [.number 5, .symbol "b"]]

def onSide (side : String) (t : Tuple) : Tuple :=
  t ++ [.symbol side]

/-- The three tuples on the one side and another one on the other. -/
def labelRows : Finset Tuple :=
  (onSide "right" [.number 3, .symbol "c"] :: labelOrder.map (onSide "left")).toFinset

def labelRanks : Finset Tuple :=
  (labelOrder.mapIdx fun k t => onSide "left" (.number k :: t)).toFinset

def lastText (t : Tuple) : String :=
  match t.getLast? with
  | some (.symbol text) => text
  | _ => ""

theorem onSide_inj {side other : String} {t u : Tuple} :
    onSide side t = onSide other u ↔ t = u ∧ side = other := by
  constructor
  · intro h
    obtain ⟨ht, hside⟩ := List.append_inj' h rfl
    exact ⟨ht, by simpa using hside⟩
  · rintro ⟨rfl, rfl⟩
    rfl

end Sample

/-- A list of a group without repetitions ranks the group. -/
theorem exists_rank_of_nodup {T : Set Tuple} {order : List Tuple} (hnodup : order.Nodup)
    (hT : ∀ t, t ∈ T ↔ t ∈ order) :
    ∃ rank : T ≃ Fin T.ncard, ∀ (k : Nat) (s : T), rank s = k ↔ order[k]? = some s.1 := by
  have hset : T = {t | t ∈ order} := Set.ext hT
  have hcard : order.length = T.ncard := by
    rw [hset, ← List.coe_toFinset, Set.ncard_coe_finset, List.toFinset_card_of_nodup hnodup]
  let place := List.Nodup.getEquiv order hnodup
  refine ⟨(Equiv.setCongr hset).trans (place.symm.trans (finCongr hcard)), ?_⟩
  intro k s
  have hs : s.1 ∈ order := (hT s).mp s.2
  change (place.symm ⟨s, hs⟩ : Nat) = k ↔ _
  constructor
  · rintro rfl
    exact List.getElem?_eq_some_iff.mpr ⟨(place.symm ⟨s, hs⟩).isLt,
      congrArg Subtype.val (place.apply_symm_apply ⟨s, hs⟩)⟩
  · intro hk
    obtain ⟨hlt, hk⟩ := List.getElem?_eq_some_iff.mp hk
    have hplace : place ⟨k, hlt⟩ = ⟨s, hs⟩ := Subtype.ext hk
    rw [← hplace, Equiv.symm_apply_apply]

theorem textsByRank_eq_map {T : Set Tuple} {order : List Tuple} {n : Nat} {rank : T ≃ Fin n}
    (hT : ∀ t, t ∈ T ↔ t ∈ order) (hrank : ∀ (k : Nat) (s : T), rank s = k ↔ order[k]? = some s.1)
    (text : Tuple → String) : textsByRank rank text = order.map text := by
  refine List.ext_getElem? fun k => Option.ext fun x => ?_
  simp only [getElem?_textsByRank, hrank, List.getElem?_map, Option.map_eq_some_iff]
  constructor
  · rintro ⟨s, hs, hx⟩
    exact ⟨s, hs, hx⟩
  · rintro ⟨s, hs, hx⟩
    exact ⟨⟨s, (hT s).mpr (List.mem_of_getElem? hs)⟩, hs, hx⟩

theorem sample_concat_joins_groups :
    ∃ ranked sums top result later,
      emitConcat Sample.labels (.avoiding ["labels"]) =
        .ok (⟨[ranked, sums, top], result⟩, later) ∧
      ∀ (I : Interpretation) (σ : Assignment), I ranked.predicate.name = Sample.labelRanks →
        σ (paramVar "side") = .symbol "left" →
        ∀ t, result.predicate.row σ t ∈
            evaluate Datalog.ArithOp.eval [sums, top, result] I result.predicate.name ↔
          t = [.symbol "b,a,b"] := by
  obtain ⟨ranked, sums, top, result, later, hem, hall⟩ :=
    concat_joins_groups (a := Sample.labels) rfl (.avoiding ["labels"])
  refine ⟨ranked, sums, top, result, later, hem, ?_⟩
  intro I σ hI hside t
  have hrow : ∀ (p : Predicate) (t : Tuple), p.params = ["side"] →
      p.row σ t = Sample.onSide "left" t := by
    intro p t hp
    rw [Predicate.row, hp, List.map_singleton, hside, Sample.onSide]
  have hT : ∀ t, t ∈ Sample.labels.group Sample.labelRows σ ↔ t ∈ Sample.labelOrder := by
    intro t
    change Sample.labels.row σ t ∈ Sample.labelRows ↔ _
    rw [hrow _ _ rfl]
    simp [Sample.labelRows, Sample.onSide_inj]
  obtain ⟨rank, hrank⟩ := exists_rank_of_nodup (by decide) hT
  have hparams : ranked.predicate.params = ["side"] := by
    obtain ⟨_, _, _, _, _, _, _, -, hranked, -, -, -, heq⟩ := emitConcat_ok hem
    obtain ⟨_, _, _, _, -, -, -, -, hparams, rfl⟩ := rank_ok hranked
    simp only [Emission.mk.injEq, List.cons.injEq] at heq
    rw [heq.1.1]
    exact hparams
  have hranks : ∀ t, ranked.predicate.row σ t ∈ Sample.labelRanks ↔
      ∃ s : Sample.labels.group Sample.labelRows σ, t = .number (rank s : Nat) :: s := by
    intro t
    simp only [hrow _ _ hparams, Sample.labelRanks, List.mem_toFinset, List.mem_mapIdx,
      Sample.onSide_inj, and_true]
    constructor
    · rintro ⟨k, hk, rfl⟩
      have hmem := (hT _).mpr (List.getElem_mem hk)
      exact ⟨⟨_, hmem⟩, by rw [(hrank k ⟨_, hmem⟩).mpr (List.getElem?_eq_getElem hk)]⟩
    · rintro ⟨s, rfl⟩
      obtain ⟨hk, hs⟩ := List.getElem?_eq_some_iff.mp ((hrank _ s).mp rfl)
      exact ⟨rank s, hk, by rw [hs]⟩
  have htext : ∀ t ∈ Sample.labels.group Sample.labelRows σ,
      t.getLast? = some (.symbol (Sample.lastText t)) := by
    simp only [hT]
    decide
  have hnonempty : (Sample.labels.group Sample.labelRows σ).Nonempty :=
    ⟨_, (hT _).mpr List.mem_cons_self⟩
  rw [(hall Datalog.ArithOp.eval I Sample.labelRows Sample.labelRanks Sample.lastText hI
    (by decide)).2 σ rank hranks htext (fun _ _ => rfl) t, textsByRank_eq_map hT hrank]
  exact and_iff_right hnonempty

end Compile

end RelQuery
