import RelQuery.Engine.Facts
import RelQuery.Proofs.Relation.Validation
import RelQuery.Proofs.Text.Basic

/-!
# Facts read as outputs

Facts files and output files have one form, so the facts of a valid relation can be read as an
output of its types.  Every tuple has a line, and the line gives the tuple back, with two
exceptions.  Both are relations of one column of symbols: the empty symbol has an empty line, which
is passed over, and the symbol `()` has the line of the tuple without values.  A relation is read
back from its facts exactly when it has neither.
-/

namespace RelQuery

variable {value : Value} {tuple : Tuple} {field line : List Char} {types : List ColumnType}

/-! ## Fields -/

/-- A character that ends a field or a line. -/
def isBreak (c : Char) : Bool :=
  c == '\t' || c == '\n' || c == '\r'

theorem not_isBreak_of_mem_toString {n : Int} {c : Char} (h : c ∈ (toString n).toList) :
    isBreak c = false := by
  have hdigit : isBreak '-' = false ∧ ∀ d ∈ Nat.toDigits 10 n.natAbs, isBreak d = false := by
    refine ⟨by decide, fun d hd => ?_⟩
    have hd := Text.isDigit_of_mem_toDigits hd
    by_contra hbreak
    simp only [isBreak, Bool.not_eq_false, Bool.or_eq_true, beq_iff_eq] at hbreak
    rcases hbreak with (rfl | rfl) | rfl <;> exact absurd hd (by decide)
  rw [Text.toList_toString] at h
  split at h
  · rcases List.mem_cons.mp h with rfl | hmem
    · exact hdigit.1
    · exact hdigit.2 c hmem
  · exact hdigit.2 c h

theorem field_number_eq_ok {n : Int} :
    (Value.number n).field = .ok field ↔
      Text.fitsSigned 32 n = true ∧ field = (toString n).toList := by
  rw [Value.field]
  by_cases hfits : Text.fitsSigned 32 n = true
  · rw [if_pos hfits, Except.ok.injEq]
    simp [hfits, eq_comm]
  · simp [hfits]

theorem field_symbol_eq_ok {s : String} :
    (Value.symbol s).field = .ok field ↔
      (∀ c ∈ s.toList, isBreak c = false) ∧ field = s.toList := by
  have hbreak : (s.toList.any fun c => c == '\t' || c == '\n' || c == '\r') = false ↔
      ∀ c ∈ s.toList, isBreak c = false := by
    simp [isBreak]
  rw [Value.field, ← hbreak]
  by_cases hany : (s.toList.any fun c => c == '\t' || c == '\n' || c == '\r') = true
  · simp [hany]
  · rw [if_neg hany, Except.ok.injEq]
    simp [Bool.eq_false_iff.mpr hany, eq_comm]

theorem not_isBreak_of_field (h : value.field = .ok field) : ∀ c ∈ field, isBreak c = false := by
  cases value with
  | number n =>
      rw [(field_number_eq_ok.mp h).2]
      exact fun c => not_isBreak_of_mem_toString
  | symbol s =>
      rw [field_symbol_eq_ok] at h
      rw [h.2]
      exact h.1

theorem fitsSigned_of_fitsSigned_32 {n : Int} (h : Text.fitsSigned 32 n = true) :
    Text.fitsSigned 64 n = true := by
  have hsmall : (Text.wordCount (32 - 1) : Int) = 2147483648 := rfl
  have hlarge : (Text.wordCount (64 - 1) : Int) = 9223372036854775808 := rfl
  simp only [Text.fitsSigned, hsmall, hlarge, Bool.and_eq_true, decide_eq_true_eq] at h ⊢
  omega

theorem readField_of_field (h : value.field = .ok field) (number : Nat) :
    Relation.readField number field value.type = .ok value := by
  cases value with
  | number n =>
      obtain ⟨hfits, rfl⟩ := field_number_eq_ok.mp h
      have hread := Text.readSigned?_toString (fitsSigned_of_fitsSigned_32 hfits)
      simp only [Value.type, Relation.readField, hread]
  | symbol s =>
      obtain ⟨-, rfl⟩ := field_symbol_eq_ok.mp h
      simp only [Value.type, Relation.readField, String.ofList_toList]

/-! ## Lines -/

theorem mem_joinFields {fields : List (List Char)} {c : Char} (h : c ∈ joinFields fields) :
    c = '\t' ∨ ∃ field ∈ fields, c ∈ field := by
  induction fields using joinFields.induct with
  | case1 => simp [joinFields] at h
  | case2 field => exact .inr ⟨field, List.mem_singleton_self _, h⟩
  | case3 field rest hrest ih =>
      rw [joinFields, List.mem_append, List.mem_cons] at h
      · rcases h with hfield | rfl | hmem
        · exact .inr ⟨field, List.mem_cons_self, hfield⟩
        · exact .inl rfl
        · rcases ih hmem with rfl | ⟨other, hother, hc⟩
          · exact .inl rfl
          · exact .inr ⟨other, List.mem_cons_of_mem _ hother, hc⟩
      · exact hrest

theorem pieces_joinFields {fields : List (List Char)} (hne : fields ≠ [])
    (hfree : ∀ field ∈ fields, '\t' ∉ field) : Text.pieces '\t' (joinFields fields) = fields := by
  induction fields using joinFields.induct with
  | case1 => exact absurd rfl hne
  | case2 field => exact Text.pieces_of_free (hfree field List.mem_cons_self)
  | case3 field rest hrest ih =>
      rw [List.forall_mem_cons] at hfree
      rw [joinFields, Text.pieces_append hfree.1, ih ?_ hfree.2]
      · rintro rfl
        exact hrest rfl
      · exact hrest

theorem line_eq_ok (hne : tuple ≠ []) (h : tuple.line = .ok line) :
    ∃ fields, List.Forall₂ (fun value field => value.field = .ok field) tuple fields ∧
      line = joinFields fields := by
  have hempty : tuple.isEmpty = false := by simpa using hne
  unfold Tuple.line at h
  rw [hempty, if_neg (by decide), except_bind_eq_ok] at h
  obtain ⟨fields, hfields, hline⟩ := h
  rw [mapM_eq_ok_iff] at hfields
  rw [except_pure_eq_ok] at hline
  exact ⟨fields, hfields, hline.symm⟩

theorem not_isBreak_of_mem_fields {fields : List (List Char)}
    (h : List.Forall₂ (fun value field => value.field = .ok field) tuple fields) :
    ∀ field ∈ fields, ∀ c ∈ field, isBreak c = false := by
  induction h with
  | nil => simp
  | cons hfield _ ih => exact List.forall_mem_cons.mpr ⟨not_isBreak_of_field hfield, ih⟩

theorem notMem_of_not_isBreak {c : Char} (hc : isBreak c = true)
    (h : ∀ d ∈ field, isBreak d = false) : c ∉ field := by
  intro hmem
  rw [h c hmem] at hc
  cases hc

/-- No line of a tuple has a line break in it. -/
theorem notMem_of_line (h : tuple.line = .ok line) : '\n' ∉ line ∧ '\r' ∉ line := by
  by_cases hne : tuple = []
  · subst hne
    cases h
    decide
  · obtain ⟨fields, hfields, rfl⟩ := line_eq_ok hne h
    have hfree := not_isBreak_of_mem_fields hfields
    constructor
    · intro hmem
      rcases mem_joinFields hmem with heq | ⟨field, hfield, hc⟩
      · exact absurd heq (by decide)
      · exact notMem_of_not_isBreak (by decide) (hfree field hfield) hc
    · intro hmem
      rcases mem_joinFields hmem with heq | ⟨field, hfield, hc⟩
      · exact absurd heq (by decide)
      · exact notMem_of_not_isBreak (by decide) (hfree field hfield) hc

/-- A tuple with more than one value has a tab in its line; one value has its own text. -/
theorem tab_mem_or_single (hne : tuple ≠ []) (h : tuple.line = .ok line) :
    '\t' ∈ line ∨ ∃ value, tuple = [value] ∧ value.field = .ok line := by
  obtain ⟨fields, hfields, rfl⟩ := line_eq_ok hne h
  cases hfields with
  | nil => exact absurd rfl hne
  | cons hvalue hrest =>
      cases hrest with
      | nil => exact .inr ⟨_, rfl, hvalue⟩
      | cons _ _ => exact .inl (by simp [joinFields])

theorem eq_symbol_of_field {s : String} (hfield : value.field = .ok s.toList)
    (hs : ∀ n : Int, (toString n).toList ≠ s.toList) : value = .symbol s := by
  cases value with
  | number n => exact absurd (field_number_eq_ok.mp hfield).2.symm (hs n)
  | symbol t => rw [String.toList_inj.mp (field_symbol_eq_ok.mp hfield).2]

theorem toString_ne_of_head {n : Int} {cs : List Char}
    (h : ∀ c, cs.head? = some c → c ≠ '-' ∧ Text.isDigit c = false) :
    (toString n).toList ≠ cs := by
  rintro rfl
  rw [Text.toList_toString] at h
  split at h
  · exact (h '-' rfl).1 rfl
  · obtain ⟨c, rest, hcs⟩ := List.exists_cons_of_ne_nil (Nat.toDigits_ne_nil (b := 10)
      (n := n.natAbs))
    rw [hcs] at h
    have hdigit : Text.isDigit c = true :=
      Text.isDigit_of_mem_toDigits (n := n.natAbs) (hcs ▸ List.mem_cons_self)
    rw [(h c rfl).2] at hdigit
    cases hdigit

theorem line_eq_nil_iff (h : tuple.line = .ok line) : line = [] ↔ tuple = [.symbol ""] := by
  constructor
  · rintro rfl
    by_cases hne : tuple = []
    · subst hne
      cases h
    · rcases tab_mem_or_single hne h with hmem | ⟨value, rfl, hvalue⟩
      · cases hmem
      · have hvalue : value.field = .ok "".toList := hvalue
        rw [eq_symbol_of_field hvalue fun n => toString_ne_of_head (by simp)]
  · rintro rfl
    cases h
    rfl

theorem line_eq_emptyTuple_iff (hne : tuple ≠ []) (h : tuple.line = .ok line) :
    line = emptyTuple ↔ tuple = [.symbol "()"] := by
  constructor
  · rintro rfl
    rcases tab_mem_or_single hne h with hmem | ⟨value, rfl, hvalue⟩
    · exact absurd hmem (by decide)
    · have hvalue : value.field = .ok "()".toList := hvalue
      rw [eq_symbol_of_field hvalue fun n => toString_ne_of_head (by simp; decide)]
  · rintro rfl
    cases h
    rfl

theorem fieldsOf_line (hne : tuple ≠ []) (hmarker : tuple ≠ [.symbol "()"])
    (h : tuple.line = .ok line) :
    List.Forall₂ (fun value field => value.field = .ok field) tuple (Relation.fieldsOf line) := by
  have hline : line ≠ emptyTuple := mt (line_eq_emptyTuple_iff hne h).mp hmarker
  obtain ⟨fields, hfields, rfl⟩ := line_eq_ok hne h
  have hfree := not_isBreak_of_mem_fields hfields
  have hfieldsne : fields ≠ [] := by
    rintro rfl
    exact hne (List.forall₂_nil_right_iff.mp hfields)
  rw [Relation.fieldsOf, if_neg hline, pieces_joinFields hfieldsne]
  · exact hfields
  · exact fun field hfield => notMem_of_not_isBreak (by decide) (hfree field hfield)

theorem mapM_readField {fields : List (List Char)} (number : Nat)
    (h : List.Forall₂ (fun value field => value.field = .ok field) tuple fields) :
    ((fields.zip (tuple.map Value.type)).mapM fun entry =>
      Relation.readField number entry.1 entry.2) = .ok tuple := by
  rw [mapM_eq_ok_iff]
  induction h with
  | nil => exact .nil
  | cons hfield _ ih => exact .cons (readField_of_field hfield number) ih

/-- The line of a tuple gives the tuple back, unless it is that of the symbol `()`. -/
theorem readLine_line (htypes : tuple.map Value.type = types) (hmarker : tuple ≠ [.symbol "()"])
    (h : tuple.line = .ok line) (number : Nat) :
    Relation.readLine types number line = .ok tuple := by
  subst htypes
  by_cases hne : tuple = []
  · subst hne
    cases h
    rfl
  · have hfields := fieldsOf_line hne hmarker h
    have hlength : (Relation.fieldsOf line).length = (tuple.map Value.type).length := by
      rw [List.length_map, hfields.length_eq]
    simp only [Relation.readLine, if_pos hlength, mapM_readField number hfields]

theorem readLine_marker (number : Nat) :
    Relation.readLine [.symbol] number emptyTuple = .error (.wrongWidth number 0 1) :=
  rfl

/-! ## Relations -/

namespace Relation

variable {r : Relation} {text : String}

/-- The lines of the facts of a relation are those of its tuples. -/
theorem lines_facts (h : r.facts = .ok text) :
    List.Forall₂ (fun tuple line => Tuple.line tuple = .ok line) r.tuples
      (Text.linesOf text.toList) := by
  rw [facts, except_bind_eq_ok] at h
  obtain ⟨lines, hlines, htext⟩ := h
  rw [mapM_eq_ok_iff] at hlines
  rw [except_pure_eq_ok] at htext
  have hfree : ∀ line ∈ lines, '\n' ∉ line ∧ '\r' ∉ line := by
    intro line hmem
    obtain ⟨tuple, -, htuple⟩ := exists_of_forall₂ hlines.flip hmem
    exact notMem_of_line htuple
  rw [← htext, String.toList_ofList, Text.linesOf_flatMap hfree]
  exact hlines

/-- The lines that are read stand for all tuples but that of the empty symbol. -/
theorem nonempty_lines_facts (h : r.facts = .ok text) :
    List.Forall₂ (fun tuple line => Tuple.line tuple = .ok line)
      (r.tuples.filter fun tuple => tuple ≠ [.symbol ""])
      ((Text.linesOf text.toList).filter fun line => !line.isEmpty) := by
  refine List.rel_filter ?_ (lines_facts h)
  intro tuple line hline
  simp [← line_eq_nil_iff hline]

theorem mapM_readLine {tuples : List Tuple} {lines : List (List Char)} (start : Nat)
    (h : List.Forall₂ (fun tuple line => ∀ number, readLine types number line = .ok tuple)
      tuples lines) :
    ((lines.zipIdx start).mapM fun entry => readLine types (entry.2 + 1) entry.1) =
      .ok tuples := by
  rw [mapM_eq_ok_iff]
  induction h generalizing start with
  | nil => exact .nil
  | cons hread _ ih => exact .cons (hread (start + 1)) (ih (start + 1))

theorem ofOutput_facts (hvalid : r.validate = .ok ()) (hfacts : r.facts = .ok text)
    (hmarker : [.symbol "()"] ∉ r.tuples) :
    ofOutput r.types text =
      .ok ⟨r.types, r.tuples.filter fun tuple => tuple ≠ [.symbol ""]⟩ := by
  rw [validate_eq_ok_iff] at hvalid
  have hread : List.Forall₂
      (fun tuple line => ∀ number, readLine r.types number line = .ok tuple)
      (r.tuples.filter fun tuple => tuple ≠ [.symbol ""])
      ((Text.linesOf text.toList).filter fun line => !line.isEmpty) := by
    have hlines := (List.forall₂_and_left _ _).mpr
      ⟨fun tuple htuple => List.mem_of_mem_filter htuple, nonempty_lines_facts hfacts⟩
    refine hlines.imp ?_
    rintro tuple line ⟨hmem, hline⟩
    refine readLine_line (hvalid tuple hmem) ?_ hline
    rintro rfl
    exact hmarker hmem
  rw [ofOutput]
  simp only [mapM_readLine 0 hread]
  rfl

/-- The symbol `()` alone in a line is no tuple of one column. -/
theorem ofOutput_ne_ok_of_marker (hvalid : r.validate = .ok ()) (hfacts : r.facts = .ok text)
    (hmarker : [.symbol "()"] ∈ r.tuples) (read : Relation) :
    ofOutput r.types text ≠ .ok read := by
  intro hread
  have htypes : [.symbol] = r.types := validate_eq_ok_iff.mp hvalid _ hmarker
  have hkept : [.symbol "()"] ∈ r.tuples.filter fun tuple => tuple ≠ [.symbol ""] :=
    List.mem_filter.mpr ⟨hmarker, by decide⟩
  obtain ⟨line, hmem, hline⟩ := exists_of_forall₂ (nonempty_lines_facts hfacts) hkept
  obtain rfl : line = emptyTuple := (line_eq_emptyTuple_iff (by simp) hline).mpr rfl
  obtain ⟨row, hrow⟩ := List.getElem?_of_mem hmem
  rw [ofOutput, except_bind_eq_ok] at hread
  obtain ⟨tuples, htuples, -⟩ := hread
  rw [mapM_eq_ok_iff] at htuples
  obtain ⟨tuple, -, htuple⟩ :=
    exists_of_forall₂ htuples (List.mk_mem_zipIdx_iff_getElem?.mpr hrow)
  rw [← htypes, readLine_marker] at htuple
  cases htuple

/-- A valid relation that has facts is read back from them, with the same tuples in the same order,
exactly when it has no tuple that is the empty symbol alone or the symbol `()` alone. -/
theorem ofOutput_facts_eq_ok_iff (r : Relation) (text : String) (hvalid : r.validate = .ok ())
    (hfacts : r.facts = .ok text) :
    ofOutput r.types text = .ok r ↔
      [.symbol ""] ∉ r.tuples ∧ [.symbol "()"] ∉ r.tuples := by
  constructor
  · intro hread
    have hmarker : [.symbol "()"] ∉ r.tuples :=
      fun hmem => ofOutput_ne_ok_of_marker hvalid hfacts hmem r hread
    rw [ofOutput_facts hvalid hfacts hmarker] at hread
    have hkept : (r.tuples.filter fun tuple => tuple ≠ [.symbol ""]) = r.tuples :=
      congrArg tuples (Except.ok.inj hread)
    refine ⟨fun hmem => ?_, hmarker⟩
    have hne := List.filter_eq_self.mp hkept _ hmem
    simp at hne
  · rintro ⟨hempty, hmarker⟩
    have hkept : (r.tuples.filter fun tuple => tuple ≠ [.symbol ""]) = r.tuples := by
      rw [List.filter_eq_self]
      intro tuple htuple
      simp only [decide_eq_true_eq]
      rintro rfl
      exact hempty htuple
    rw [ofOutput_facts hvalid hfacts hmarker, hkept]

namespace Sample

/-- Beside another column both symbols are kept. -/
def labelled : Relation :=
  ⟨[.symbol, .number], [[.symbol "", .number (-7)], [.symbol "()", .number 2147483647],
    [.symbol "()", .number 2147483647]]⟩

def labelledFacts : String :=
  "\t-7\n()\t2147483647\n()\t2147483647\n"

end Sample

theorem sample_ofOutput_facts :
    Sample.labelled.validate = .ok () ∧ Sample.labelled.facts = .ok Sample.labelledFacts ∧
      ofOutput Sample.labelled.types Sample.labelledFacts = .ok Sample.labelled := by
  have hvalid : Sample.labelled.validate = .ok () := by decide
  have hfacts : Sample.labelled.facts = .ok Sample.labelledFacts := by decide
  have hread := ofOutput_facts_eq_ok_iff Sample.labelled Sample.labelledFacts hvalid hfacts
  exact ⟨hvalid, hfacts, hread.mpr (by decide)⟩

/-- The facts of the empty symbol alone are read as no tuple, and those of the symbol `()` alone are
refused. -/
theorem lone_symbols_not_read_back :
    (⟨[.symbol], [[.symbol ""]]⟩ : Relation).validate = .ok () ∧
      (⟨[.symbol], [[.symbol ""]]⟩ : Relation).facts = .ok "\n" ∧
      ofOutput [.symbol] "\n" = .ok ⟨[.symbol], []⟩ ∧
      (⟨[.symbol], [[.symbol "()"]]⟩ : Relation).validate = .ok () ∧
      (⟨[.symbol], [[.symbol "()"]]⟩ : Relation).facts = .ok "()\n" ∧
      ofOutput [.symbol] "()\n" = .error (.wrongWidth 1 0 1) := by
  decide

end Relation

end RelQuery
