import Mathlib.Data.List.TakeWhile
import RelQuery.Proofs.Grammar.Rendering
import RelQuery.Proofs.Grammar.Written

/-!
# What parsers have read

`Yields` describes a run of a parser that has succeeded: how the characters it passed over lie
between what stands before and behind them.  Each combinator takes a run apart, and the lexemes of
the grammar pass over spellings of tokens.
-/

namespace RelQuery.Grammar

open Text (byteLength isNameStart isNameChar isDigit)

namespace Parser

variable {α β : Type} {p p' : Parser α} {f : α → Parser β} {cursor : Cursor}

/-! ## Runs of the combinators -/

theorem run_bind {result : β × Cursor} (h : ((p >>= f) cursor).value = some result) :
    ∃ value next, (p cursor).value = some (value, next) ∧ (f value next).value = some result := by
  change (p.andThen f cursor).value = _ at h
  unfold andThen at h
  cases hp : (p cursor).value with
  | none => simp [hp] at h
  | some found =>
      obtain ⟨value, next⟩ := found
      exact ⟨value, next, rfl, by simpa [hp] using h⟩

theorem run_orElse {result : α × Cursor} (h : ((p <|> p') cursor).value = some result) :
    (p cursor).value = some result ∨
      (p cursor).value = none ∧ (p' cursor).value = some result := by
  change (p.orElse p' cursor).value = _ at h
  unfold orElse at h
  cases hp : (p cursor).value with
  | none => exact .inr ⟨rfl, by simpa [hp] using h⟩
  | some found => exact .inl (by simpa [hp] using h)

theorem run_here {f : Nat → Parser β} {result : β × Cursor}
    (h : ((here >>= f) cursor).value = some result) :
    (f cursor.offset cursor).value = some result :=
  h

theorem run_rule {expectation : Expectation} {result : α × Cursor}
    (h : (rule expectation p cursor).value = some result) : (p cursor).value = some result :=
  h

theorem run_maybe {found : Option α} {next : Cursor} (h : (maybe p cursor).value = some (found, next)) :
    (∃ value, found = some value ∧ (p cursor).value = some (value, next)) ∨
      found = none ∧ next = cursor := by
  rcases run_orElse h with h | ⟨-, h⟩
  · obtain ⟨value, next', hp, h⟩ := run_bind h
    cases h
    exact .inl ⟨value, rfl, hp⟩
  · cases h
    exact .inr ⟨rfl, rfl⟩

/-- Where the parser succeeds, `S` holds of what stands before the characters it passes over, of
these characters, of what stands behind them and of the value. -/
def Yields (p : Parser α) (S : (before taken after : List Char) → α → Prop) : Prop :=
  ∀ before rest value next, (p ⟨rest, byteLength before⟩).value = some (value, next) →
    ∃ taken after, rest = taken ++ after ∧ next = ⟨after, byteLength (before ++ taken)⟩ ∧
      S before taken after value

variable {S S' : List Char → List Char → List Char → α → Prop} {before rest : List Char}

theorem Yields.run_bind (h : Yields p S) {result : β × Cursor}
    (hrun : ((p >>= f) ⟨rest, byteLength before⟩).value = some result) :
    ∃ value taken after, rest = taken ++ after ∧ S before taken after value ∧
      (f value ⟨after, byteLength (before ++ taken)⟩).value = some result := by
  obtain ⟨value, next, hp, hf⟩ := Parser.run_bind hrun
  obtain ⟨taken, after, hrest, rfl, hS⟩ := h before rest value next hp
  exact ⟨value, taken, after, hrest, hS, hf⟩

theorem Yields.orElse (h : Yields p S) (h' : Yields p' S) : Yields (p <|> p') S := by
  intro before rest value next hrun
  rcases run_orElse hrun with hrun | ⟨-, hrun⟩
  · exact h before rest value next hrun
  · exact h' before rest value next hrun

theorem Yields.rule (h : Yields p S) (expectation : Expectation) :
    Yields (rule expectation p) S :=
  h

theorem Yields.imp (h : Yields p S)
    (himp : ∀ before taken after value, S before taken after value → S' before taken after value) :
    Yields p S' := by
  intro before rest value next hrun
  obtain ⟨taken, after, hrest, hnext, hS⟩ := h before rest value next hrun
  exact ⟨taken, after, hrest, hnext, himp _ _ _ _ hS⟩

theorem Yields.map (h : Yields p S) (g : α → β) :
    Yields (p >>= fun value => pure (g value)) fun before taken after result =>
      ∃ value, result = g value ∧ S before taken after value := by
  intro before rest result next hrun
  obtain ⟨value, taken, after, rfl, hS, hrun⟩ := h.run_bind hrun
  cases hrun
  exact ⟨taken, after, rfl, rfl, value, rfl, hS⟩

theorem yields_here {p : Nat → Parser α} {S : Nat → List Char → List Char → List Char → α → Prop}
    (h : ∀ start, Yields (p start) (S start)) :
    Yields (here >>= p) fun before taken after value =>
      S (byteLength before) before taken after value := by
  intro before rest value next hrun
  exact h _ before rest value next (run_here hrun)

/-- A value that is made with the offset behind it. -/
theorem Yields.stop (h : Yields p S) (g : α → Nat → β) :
    Yields (p >>= fun value => here >>= fun stop => pure (g value stop))
      fun before taken after result =>
        ∃ value, result = g value (byteLength (before ++ taken)) ∧ S before taken after value := by
  intro before rest result next hrun
  obtain ⟨value, taken, after, rfl, hS, hrun⟩ := h.run_bind hrun
  cases run_here hrun
  exact ⟨taken, after, rfl, rfl, value, rfl, hS⟩

theorem yields_layout : Yields layout fun _ taken after _ => Written [] taken after := by
  intro before rest value next hrun
  obtain ⟨w, after, stop, rfl, hw, hstop, hskip⟩ := exists_skipLayout false (byteLength before) rest
  have hnext : next = skipLayout false (byteLength before) (w ++ after) := by
    cases hrun
    rfl
  refine ⟨w, after, rfl, ?_, .layout hw hstop⟩
  rw [hnext, hskip, Text.byteLength_append]

theorem yields_scanning {scan : List Char → Option (List Char × List Char)}
    {T : List Char → List Char → Prop}
    (h : ∀ rest taken after, scan rest = some (taken, after) →
      rest = taken ++ after ∧ T taken after) :
    Yields (scanning scan) fun _ taken after value => value = taken ∧ T taken after := by
  intro before rest value next hrun
  unfold scanning at hrun
  cases hscan : scan rest with
  | none => simp [hscan] at hrun
  | some found =>
      obtain ⟨taken, after⟩ := found
      obtain ⟨rfl, hT⟩ := h rest taken after hscan
      simp only [hscan, Option.some.injEq, Prod.mk.injEq] at hrun
      obtain ⟨rfl, rfl⟩ := hrun
      exact ⟨taken, after, rfl, by simp [Cursor.advance], rfl, hT⟩

theorem yields_symbol (text : String) :
    Yields (symbol text) fun _ taken _ _ => taken = text.toList := by
  have hscan : Yields
      (scanning fun cs => (text.toList.isPrefixOf? cs).map fun rest => (text.toList, rest))
      fun _ taken _ value => value = taken ∧ taken = text.toList := by
    refine yields_scanning fun rest taken after hscan => ?_
    obtain ⟨rest', hsplit, heq⟩ := Option.map_eq_some_iff.mp hscan
    cases heq
    exact ⟨(List.isPrefixOf?_eq_some_iff_append_eq.mp hsplit).symm, rfl⟩
  refine (hscan.map fun _ => ()).imp ?_
  rintro before taken after value ⟨_, -, -, htaken⟩
  exact htaken

/-! ## Runs of items -/

section Items

variable {γ δ : Type} {item : Parser γ} {join : δ → γ → δ}
variable {I : (taken after : List Char) → δ → Prop} {q q' : Parser (List γ)}

/-- A parser of items carries an invariant of what was read on to what it reads, where each item is
joined to what was read before. -/
def Carries (before : List Char) (I : (taken after : List Char) → δ → Prop) (join : δ → γ → δ)
    (q : Parser (List γ)) : Prop :=
  ∀ u rest acc values next, I u rest acc →
    (q ⟨rest, byteLength (before ++ u)⟩).value = some (values, next) →
    ∃ v after, rest = v ++ after ∧ next = ⟨after, byteLength (before ++ (u ++ v))⟩ ∧
      I (u ++ v) after (values.foldl join acc)

theorem carries_nil : Carries before I join (succeed []) := by
  intro u rest acc values next h hrun
  cases hrun
  exact ⟨[], rest, rfl, by simp, by simpa using h⟩

theorem Carries.orElse (h : Carries before I join q) (h' : Carries before I join q') :
    Carries before I join (q <|> q') := by
  intro u rest acc values next hI hrun
  rcases run_orElse hrun with hrun | ⟨-, hrun⟩
  · exact h u rest acc values next hI hrun
  · exact h' u rest acc values next hI hrun

section Steps

variable
  (hlayout : ∀ u w after acc, I u (w ++ after) acc → Written [] w after → I (u ++ w) after acc)
  (hitem : ∀ u rest acc value next, I u rest acc →
    (item ⟨rest, byteLength (before ++ u)⟩).value = some (value, next) →
    ∃ v after, rest = v ++ after ∧ next = ⟨after, byteLength (before ++ (u ++ v))⟩ ∧
      I (u ++ v) after (join acc value))

include hlayout in
theorem Carries.layout (h : Carries before I join q) :
    Carries before I join (Parser.layout >>= fun _ => q) := by
  intro u rest acc values next hI hrun
  obtain ⟨_, w, after, rfl, hw, hrun⟩ := yields_layout.run_bind hrun
  rw [List.append_assoc] at hrun
  obtain ⟨v, after, rfl, rfl, hI⟩ := h _ _ _ _ _ (hlayout u w _ acc hI hw) hrun
  rw [List.append_assoc] at hI ⊢
  exact ⟨w ++ v, after, by simp, rfl, hI⟩

include hitem in
theorem Carries.cons (h : Carries before I join q) :
    Carries before I join (item >>= fun first => q >>= fun rest => pure (first :: rest)) := by
  intro u rest acc values next hI hrun
  obtain ⟨value, next', hvalue, hrun⟩ := Parser.run_bind hrun
  obtain ⟨v, after, rfl, rfl, hI⟩ := hitem u rest acc value next' hI hvalue
  obtain ⟨rest, next', hrest, hrun⟩ := Parser.run_bind hrun
  obtain ⟨v', after, rfl, rfl, hI⟩ := h _ _ _ _ _ hI hrest
  cases hrun
  rw [List.append_assoc] at hI ⊢
  exact ⟨v ++ v', after, by simp, rfl, hI⟩

include hlayout hitem

theorem carries_further (fuel : Nat) : Carries before I join (further item fuel) := by
  induction fuel with
  | zero => exact carries_nil
  | succ fuel ih => exact ((ih.cons hitem).layout hlayout).orElse carries_nil

/-- What layout and each item preserve holds behind all items. -/
theorem carries_items : Carries before I join (items item) := by
  have hall : Carries before I join (allFurther item) :=
    fun u rest => carries_further hlayout hitem rest.length u rest
  exact ((hall.cons hitem).orElse carries_nil).layout hlayout

end Steps

/-- What an item makes of all that was read before it. -/
def Extends (I : (before taken after : List Char) → δ → Prop) (join : δ → γ → δ)
    (start taken after : List Char) (value : γ) : Prop :=
  ∀ before u acc, start = before ++ u → I before u (taken ++ after) acc →
    I before (u ++ taken) after (join acc value)

theorem yields_foldl {I : (before taken after : List Char) → δ → Prop} {first : Parser δ}
    (hfirst : Yields first I)
    (hlayout : ∀ {before u w after acc}, I before u (w ++ after) acc → Written [] w after →
      I before (u ++ w) after acc)
    (hitem : Yields item (Extends I join)) :
    Yields (first >>= fun acc => items item >>= fun values => pure (values.foldl join acc)) I := by
  intro before rest result next hrun
  obtain ⟨acc, u, rest, rfl, hacc, hrun⟩ := hfirst.run_bind hrun
  obtain ⟨values, next', hitems, hrun⟩ := run_bind hrun
  have hcarries : Carries before (I before) join (items item) := by
    refine carries_items (fun _ _ _ _ h hw => hlayout h hw) ?_
    intro u rest acc value next hacc hrun
    obtain ⟨v, after, rfl, rfl, hextends⟩ := hitem _ _ _ _ hrun
    exact ⟨v, after, rfl, by simp, hextends before u acc rfl hacc⟩
  obtain ⟨v, after, rfl, rfl, hresult⟩ := hcarries u rest acc values next' hacc hitems
  cases hrun
  exact ⟨u ++ v, after, by simp, rfl, hresult⟩

end Items

end Parser

open RelQuery.Grammar.Parser

/-! ## Lexemes -/

section Lexemes

variable {cs taken after : List Char}

theorem head?_dropWhile {p : Char → Bool} {c : Char} (hc : c ∈ (cs.dropWhile p).head?) :
    p c = false := by
  have hstop := List.head?_dropWhile_not p cs
  rw [Option.mem_def.mp hc] at hstop
  simpa using hstop

theorem spelled_of_scanName (h : scanName cs = some (taken, after)) :
    cs = taken ++ after ∧ (Token.name (String.ofList taken)).Spelled taken after := by
  unfold scanName at h
  split at h
  · next hcond =>
      obtain ⟨hstart, hkeyword⟩ := Bool.and_eq_true_iff.mp hcond
      cases h
      refine ⟨(List.takeWhile_append_dropWhile).symm, ⟨?_, ?_⟩, ?_, fun c => head?_dropWhile⟩
      · have hall : (cs.takeWhile isNameChar).all isNameChar = true := by
          rw [List.all_eq_true]
          exact fun c hc => List.mem_takeWhile_imp hc
        have hhead : ((cs.takeWhile isNameChar).head?.map isNameStart).getD false = true := by
          cases cs with
          | nil => simp at hstart
          | cons c cs =>
              have hc : isNameStart c = true := by simpa using hstart
              simp [isNameChar_of_isNameStart hc, hc]
        rw [String.toList_ofList, Text.isIdentifier, hall, hhead]
        rfl
      · rw [String.toList_ofList]
        simpa using hkeyword
      · rw [String.toList_ofList]
  · cases h

theorem spelled_of_scanKeyword {word : Keyword} (h : scanKeyword word cs = some (taken, after)) :
    cs = taken ++ after ∧ (Token.keyword word).Spelled taken after := by
  unfold scanKeyword at h
  split at h
  · next htake =>
      cases h
      exact ⟨(List.takeWhile_append_dropWhile).symm, .inl ⟨htake, fun c => head?_dropWhile⟩⟩
  · cases h

theorem spelled_of_scanNumber (h : scanNumber cs = some (taken, after)) :
    cs = taken ++ after ∧ (Token.number (Text.digitsValue taken)).Spelled taken after := by
  unfold scanNumber at h
  split at h
  · cases h
  · next hempty =>
      cases h
      refine ⟨(List.takeWhile_append_dropWhile).symm, ?_, fun c hc => List.mem_takeWhile_imp hc, rfl,
        fun c => head?_dropWhile⟩
      simpa using hempty

theorem escapes_of_scanQuotedBody {quote : Char} {body rest : List Char}
    (h : scanQuotedBody quote cs = (body, rest)) :
    cs = body ++ rest ∧ Escapes quote (unescape body) body := by
  fun_induction scanQuotedBody quote cs generalizing body with
  | case1 =>
      cases h
      exact ⟨rfl, .nil⟩
  | case2 c cs body' rest' hbody ih =>
      cases h
      obtain ⟨rfl, hescapes⟩ := ih hbody
      rw [unescape_backslash]
      exact ⟨rfl, .backslash c hescapes⟩
  | case3 c cs _ hstop =>
      cases h
      exact ⟨rfl, .nil⟩
  | case4 c cs _ hstop body' rest' hbody ih =>
      cases h
      obtain ⟨rfl, hescapes⟩ := ih hbody
      simp only [Bool.or_eq_true, beq_iff_eq, not_or] at hstop
      have hvalue : unescape (c :: body') = c :: unescape body' := by
        rw [unescape] <;> simp [hstop.2]
      rw [hvalue]
      exact ⟨rfl, .plain hstop.1 hstop.2 hescapes⟩

theorem spelled_of_scanQuoted {quote : Char} (hquote : quote = '\x27' ∨ quote = '"')
    (h : scanQuoted quote cs = some (taken, after)) :
    cs = taken ++ after ∧
      (Token.text (String.ofList (unescape (enclosed taken)))).Spelled taken after := by
  unfold scanQuoted at h
  split at h
  · cases h
  · next c cs =>
      split at h
      · next hc =>
          split at h
          · next body close rest hbody =>
              split at h
              · next hclose =>
                  cases h
                  obtain rfl : c = quote := by simpa using hc
                  obtain rfl : close = c := by simpa using hclose
                  obtain ⟨rfl, hescapes⟩ := escapes_of_scanQuotedBody hbody
                  have henclosed : enclosed (close :: body ++ [close]) = body := by simp [enclosed]
                  rw [henclosed]
                  refine ⟨by simp, close, body, hquote, ?_, rfl⟩
                  rwa [String.toList_ofList]
              · cases h
          · cases h
      · cases h

theorem spelled_of_scanString (h : scanString cs = some (taken, after)) :
    cs = taken ++ after ∧
      (Token.text (String.ofList (unescape (enclosed taken)))).Spelled taken after := by
  unfold scanString at h
  rcases Option.or_eq_some_iff.mp h with h | ⟨-, h⟩
  · exact spelled_of_scanQuoted (.inl rfl) h
  · exact spelled_of_scanQuoted (.inr rfl) h

theorem spelled_of_scanFormula (h : scanFormula cs = some (taken, after)) :
    cs = taken ++ after ∧
      (Token.formula (String.ofList (Text.trimBlanks (enclosed taken)))).Spelled taken after := by
  unfold scanFormula at h
  split at h
  · next cs =>
      split at h
      · next close rest hdrop =>
          cases h
          have hclose : close = '\x60' := by
            have hstop : close ∈ (cs.dropWhile (· ≠ '\x60')).head? := by rw [hdrop]; rfl
            simpa using head?_dropWhile hstop
          subst hclose
          have hbody : '\x60' ∉ cs.takeWhile (· ≠ '\x60') := by
            intro hmem
            simpa using List.mem_takeWhile_imp hmem
          have hsplit : cs = cs.takeWhile (· ≠ '\x60') ++ '\x60' :: after := by
            rw [← hdrop, List.takeWhile_append_dropWhile]
          refine ⟨?_, cs.takeWhile (· ≠ '\x60'), hbody, ?_, rfl⟩
          · rw [List.cons_append, List.cons_append, List.append_assoc]
            exact congrArg _ hsplit
          · rw [String.toList_ofList]
            simp [enclosed]
      · cases h
  · cases h

theorem spelled_of_scanNotBefore {c forbidden : Char} {s : Sign} (hs : s.chars = [c])
    (hlong : ∀ d, [c, d] ∈ longSigns → d = forbidden)
    (h : scanNotBefore c forbidden cs = some (taken, after)) :
    cs = taken ++ after ∧ (Token.sign s).Spelled taken after := by
  unfold scanNotBefore at h
  split at h
  · next d cs =>
      split at h
      · next hcond =>
          cases h
          obtain ⟨hd, hnext⟩ := Bool.and_eq_true_iff.mp hcond
          obtain rfl : d = c := by simpa using hd
          refine ⟨rfl, .inl hs.symm, ?_⟩
          intro e he hmem
          rw [hlong e hmem] at he
          simp [Option.mem_def.mp he] at hnext
      · cases h
  · cases h

theorem spelled_sign {s : Sign} {rest : List Char} (hs : ∀ c, s.chars ++ [c] ∉ longSigns) :
    (Token.sign s).Spelled s.chars rest :=
  ⟨.inl rfl, fun c _ => hs c⟩

theorem yields_sign {text : String} {s : Sign} (htext : text.toList = s.chars)
    (hs : s ∉ ambiguousSigns) :
    Yields (symbol text) fun _ taken after _ => (Token.sign s).Spelled taken after := by
  have hlong : ∀ c, s.chars ++ [c] ∉ longSigns := by
    cases s <;> simp [ambiguousSigns] at hs <;> simp [Sign.chars, longSigns]
  refine (yields_symbol text).imp fun before taken after _ htaken => ?_
  rw [htaken, htext]
  exact spelled_sign hlong

theorem spelled_of_scanComparison (h : scanComparison cs = some (taken, after)) :
    cs = taken ++ after ∧ (Token.sign (comparisonOf taken).sign).Spelled taken after := by
  unfold scanComparison at h
  split at h
  · cases h
    exact ⟨rfl, spelled_sign (s := .atMost) (by simp [Sign.chars, longSigns])⟩
  · cases h
    exact ⟨rfl, spelled_sign (s := .atLeast) (by simp [Sign.chars, longSigns])⟩
  · cases h
    exact ⟨rfl, .inr ⟨rfl, rfl⟩, by simp [longSigns]⟩
  · cases h
    exact ⟨rfl, spelled_sign (s := .unequal) (by simp [Sign.chars, longSigns])⟩
  · next rest hnext =>
      cases h
      refine ⟨rfl, .inl rfl, fun c hc hmem => ?_⟩
      obtain ⟨cs, rfl⟩ := List.head?_eq_some_iff.mp hc
      have hless : c = '<' := by simpa [longSigns] using hmem
      exact hnext cs (by rw [hless])
  · cases h
  · next rest hequal hcolon =>
      cases h
      refine ⟨rfl, .inl rfl, fun c hc hmem => ?_⟩
      obtain ⟨cs, rfl⟩ := List.head?_eq_some_iff.mp hc
      have hlong : c = '=' ∨ c = ':' := by simpa [longSigns] using hmem
      rcases hlong with rfl | rfl
      · exact hequal cs rfl
      · exact hcolon cs rfl
  · cases h
    exact ⟨rfl, spelled_sign (s := .greater) (by simp [Sign.chars, longSigns])⟩
  · cases h

theorem yields_ident : Yields ident fun _ taken after x => (Token.name x).Spelled taken after := by
  have hscan : Yields (lexeme .identifier scanName) fun _ taken after value => value = taken ∧
      (Token.name (String.ofList taken)).Spelled taken after :=
    (yields_scanning fun _ _ _ => spelled_of_scanName).rule _
  refine (hscan.map String.ofList).imp ?_
  rintro before taken after x ⟨_, rfl, rfl, hspelled⟩
  exact hspelled

theorem yields_keyword (word : Keyword) :
    Yields (keyword word) fun _ taken after _ => (Token.keyword word).Spelled taken after := by
  have hscan : Yields (lexeme word.expectation (scanKeyword word)) fun _ taken after value =>
      value = taken ∧ (Token.keyword word).Spelled taken after :=
    (yields_scanning fun _ _ _ => spelled_of_scanKeyword).rule _
  refine (hscan.map fun _ => ()).imp ?_
  rintro before taken after value ⟨_, -, -, hspelled⟩
  exact hspelled

end Lexemes

end RelQuery.Grammar
