import Mathlib.Algebra.Group.Nat.Even
import RelQuery.Datalog.Printer
import RelQuery.Proofs.Grammar.Quotation

/-!
# Symbols as quoted texts

A symbol in a program is printed as a text that the query language can read.  A source that is one
quoted text is read as one constant whose span is the source.  What is printed for a symbol is such
a source: each character is escaped as the reader expects, and the quotes inside stand behind an odd
number of backslashes, so the first quote that ends the text is the last character.
-/

namespace RelQuery

open Grammar Grammar.Parser
open Datalog (escapeSymbolChar renderSymbol)
open Text (byteLength)

/-! ## Sources of one quoted text -/

section OneText

variable {source : String} {ts us : List Token} {fuel : Nat} {P : Cursor → Prop}
variable {post : Expr → Prop}

/-- Where no operator and no binding comes, every band reads as the atoms do. -/
theorem reads_of_atom (hP : ∀ cursor, P cursor → At ts cursor) (hfollow : ∀ b, Follow b us)
    (hnone : ∀ b, Unannounced b ts) (hcommits : ¬ Commits ts)
    (h : Reads (bandParser source fuel .atom) P (Past us) post) (b : Band) :
    Reads (bandParser source fuel b) P (Past us) post := by
  by_cases hb : b = .atom
  · subst hb
    exact h
  · exact reads_of_tighter hb hP (hfollow b) (hnone b) (fun _ => hcommits)
      (reads_of_atom hP hfollow hnone hcommits h b.tighter)
termination_by Band.level .atom - b.level
decreasing_by
  rw [Band.level_tighter hb]
  cases b <;> simp_all [Band.level]

/-- A source that is one token and starts no operator is read as the atom that the token is. -/
theorem parse_of_reads_atom {t : Token} {e : Expr} (hat : At [t] ⟨source.toList, 0⟩)
    (hnone : t.announces? = none)
    (h : Reads (bandParser source source.length .atom) (· = ⟨source.toList, 0⟩) (Past []) (· = e))
    (hfits : e.nodes.any Expr.isOversized = false) : Expr.parse source = .ok e := by
  have hexpr : Reads (bandParser source source.length .binding) (· = ⟨source.toList, 0⟩) (Past [])
      (· = e) := by
    have hstart : ∀ cursor, cursor = ⟨source.toList, 0⟩ → At [t] cursor := by
      rintro _ rfl
      exact hat
    refine reads_of_atom hstart (fun b t c ht => ?_) (fun b t ht => ?_) ?_ h .binding
    · cases ht
    · cases ht
      simp [hnone]
    · rintro ⟨⟩
  have hlayout : Reads layout (· = ⟨source.toList, 0⟩) (· = ⟨source.toList, 0⟩) fun _ => True := by
    rintro _ rfl
    exact ⟨(), _, rfl, hat.2.skipLayout_eq 0, trivial⟩
  have hquery : Reads (query source) (· = ⟨source.toList, 0⟩) (At []) (· = e) := by
    refine Reads.rule ?_ .expression
    refine hlayout.bind fun _ _ => Reads.bind hexpr fun _ hfound => reads_layout.bind fun _ _ => ?_
    exact reads_endOfInput.bind fun _ _ => reads_pure hfound
  obtain ⟨_, next, hrun, -, rfl⟩ := hquery _ rfl
  exact parse_eq_ok_iff.mpr ⟨⟨next, hrun⟩, hfits⟩

theorem reads_here_at (cursor : Cursor) :
    Reads here (· = cursor) (· = cursor) (· = cursor.offset) := by
  rintro _ rfl
  exact ⟨_, _, rfl, rfl, rfl⟩

/-- A source that is one quoted text is read as one constant. -/
theorem parse_of_spelled {value : String} (h : (Token.text value).Spelled source.toList []) :
    Expr.parse source = .ok (.constant (.text value) ⟨source, 0, source.utf8ByteSize⟩) := by
  have hat : At [.text value] ⟨source.toList, 0⟩ := ⟨h.written, by simpa using h.solid⟩
  obtain ⟨hscan, hvalue⟩ := scanString_append h
  rw [List.append_nil] at hscan
  have hlexeme : Reads (lexeme .string scanString) (· = ⟨source.toList, 0⟩)
      (· = ⟨[], source.utf8ByteSize⟩) (· = source.toList) := by
    rintro _ rfl
    refine ⟨source.toList, _, ?_, rfl, rfl⟩
    simp [lexeme, Parser.rule, scanning, hscan, Cursor.advance, Text.byteLength_toList]
  have hstop : Reads here (· = ⟨[], source.utf8ByteSize⟩) (Past []) (· = source.utf8ByteSize) :=
    (reads_here_at _).weaken fun cursor hcursor => (at_nil_iff.mpr (by rw [hcursor])).1
  have hstring : Reads (string source) (· = ⟨source.toList, 0⟩) (Past [])
      (· = .constant (.text value) ⟨source, 0, source.utf8ByteSize⟩) := by
    refine (reads_here_at _).bind ?_
    rintro _ rfl
    refine hlexeme.bind ?_
    rintro _ rfl
    refine hstop.bind ?_
    rintro _ rfl
    exact reads_pure (by simp [hvalue])
  have hnumber : Refuses (number source) (· = ⟨source.toList, 0⟩) := by
    rintro _ rfl
    exact reads_here.bind_refuses (fun _ _ => (refuses_number (by simp)).bind) _ hat
  exact parse_of_reads_atom hat rfl (hnumber.orElse_reads hstring.orElse) rfl

end OneText

/-! ## Escaped symbols -/

theorem escapeSymbolChar_eq (c : Char) :
    (∃ code, escapeSymbolChar c = ['\\', code] ∧ escaped code = c) ∨
      escapeSymbolChar c = [c] ∧ c ≠ '"' ∧ c ≠ '\\' := by
  unfold escapeSymbolChar
  split_ifs with h₁ h₂ h₃ h₄ h₅
  · exact .inl ⟨'"', rfl, h₁.symm⟩
  · exact .inl ⟨'\\', rfl, h₂.symm⟩
  · exact .inl ⟨'n', rfl, h₃.symm⟩
  · exact .inl ⟨'t', rfl, h₄.symm⟩
  · exact .inl ⟨'r', rfl, h₅.symm⟩
  · exact .inr ⟨rfl, h₁, h₂⟩

theorem escapes_symbol (cs : List Char) : Escapes '"' cs (cs.flatMap escapeSymbolChar) := by
  induction cs with
  | nil => exact .nil
  | cons c cs ih =>
      rw [List.flatMap_cons]
      rcases escapeSymbolChar_eq c with ⟨code, hcode, rfl⟩ | ⟨hplain, hquote, hbackslash⟩
      · rw [hcode]
        exact .backslash code ih
      · rw [hplain]
        exact .plain hquote hbackslash ih

theorem toList_renderSymbol (value : String) :
    (renderSymbol value).toList = '"' :: value.toList.flatMap escapeSymbolChar ++ ['"'] :=
  String.toList_ofList

/-- The number of backslashes at the end of a text. -/
def trailingBackslashes (cs : List Char) : Nat :=
  (cs.reverse.takeWhile (· = '\\')).length

theorem trailingBackslashes_le (cs : List Char) : trailingBackslashes cs ≤ cs.length := by
  simpa [trailingBackslashes] using (List.takeWhile_sublist (l := cs.reverse) _).length_le

theorem trailingBackslashes_cons (c : Char) (cs : List Char) :
    trailingBackslashes (c :: cs) =
      if c = '\\' ∧ trailingBackslashes cs = cs.length then cs.length + 1
      else trailingBackslashes cs := by
  simp only [trailingBackslashes, List.reverse_cons, List.takeWhile_append, List.length_reverse]
  by_cases hc : c = '\\' <;> split <;> simp_all

/-- A backslash and what it escapes do not change whether what comes behind is escaped. -/
theorem even_trailingBackslashes_escape (c : Char) (cs : List Char) :
    Even (trailingBackslashes ('\\' :: c :: cs)) ↔ Even (trailingBackslashes cs) := by
  have hle := trailingBackslashes_le cs
  rw [trailingBackslashes_cons, trailingBackslashes_cons, List.length_cons]
  by_cases hall : c = '\\' ∧ trailingBackslashes cs = cs.length
  · rw [if_pos hall, if_pos ⟨rfl, rfl⟩, hall.2]
    simp [Nat.even_add_one]
  · rw [if_neg hall, if_neg (by omega)]

/-- In front of the quotes of an escaped text stands an odd number of backslashes, and in front of
the quote that ends it an even one. -/
theorem even_trailingBackslashes_iff {value body u v : List Char} (h : Escapes '"' value body)
    (hsplit : body ++ ['"'] = u ++ '"' :: v) : Even (trailingBackslashes u) ↔ v = [] := by
  induction h generalizing u with
  | nil =>
      cases u with
      | nil =>
          obtain rfl : [] = v := (List.cons.inj hsplit).2
          simp [trailingBackslashes]
      | cons d u =>
          have hrest := (List.cons.inj hsplit).2
          simp at hrest
  | plain hquote hbackslash h ih =>
      cases u with
      | nil => exact (hquote (List.cons.inj hsplit).1).elim
      | cons d u =>
          obtain ⟨rfl, hrest⟩ := List.cons.inj hsplit
          rw [trailingBackslashes_cons, if_neg (fun hall => hbackslash hall.1)]
          exact ih hrest
  | backslash c h ih =>
      match u with
      | [] => cases hsplit
      | [d] =>
          -- The escaped character is the quote itself.
          obtain ⟨rfl, hquote⟩ := List.cons.inj hsplit
          obtain ⟨-, rfl⟩ := List.cons.inj hquote
          simp [trailingBackslashes]
      | d :: d' :: u =>
          obtain ⟨rfl, hcode⟩ := List.cons.inj hsplit
          rw [even_trailingBackslashes_escape]
          exact ih (List.cons.inj hcode).2

/-- The text of a symbol is read as one constant that covers the whole text and has the symbol for
its value: the scanner takes all of it, resolving the backslashes gives the symbol, and of the
quotes behind the first only the last is not escaped. -/
theorem parse_render_symbol (value : String) :
    Expr.parse (Datalog.Term.symbol value).render = .ok (.constant (.text value)
        ⟨(Datalog.Term.symbol value).render, 0, (Datalog.Term.symbol value).render.utf8ByteSize⟩) ∧
      scanQuoted '"' (Datalog.Term.symbol value).render.toList =
        some ((Datalog.Term.symbol value).render.toList, []) ∧
      unescape (enclosed (Datalog.Term.symbol value).render.toList) = value.toList ∧
      ∀ u v, (Datalog.Term.symbol value).render.toList = '"' :: (u ++ '"' :: v) →
        (Even (trailingBackslashes u) ↔ v = []) := by
  have hescapes := escapes_symbol value.toList
  have htext := toList_renderSymbol value
  have hspelled : (Token.text value).Spelled (renderSymbol value).toList [] :=
    ⟨'"', _, .inr rfl, hescapes, htext⟩
  refine ⟨parse_of_spelled hspelled, ?_, (scanString_append hspelled).2, fun u v hsplit => ?_⟩
  · have hbody := scanQuotedBody_of_escapes hescapes (by decide) []
    rw [Datalog.Term.render, htext]
    simp [scanQuoted, hbody]
  · rw [Datalog.Term.render, htext] at hsplit
    exact even_trailingBackslashes_iff hescapes (List.cons.inj hsplit).2

theorem sample_parse_render_symbol :
    (Datalog.Term.symbol "a\"\\\n").render = "\"a\\\"\\\\\\n\"" ∧
      Expr.parse "\"a\\\"\\\\\\n\"" =
        .ok (.constant (.text "a\"\\\n") ⟨"\"a\\\"\\\\\\n\"", 0, 9⟩) ∧
      ¬ Even (trailingBackslashes ['a', '\\']) ∧
      Even (trailingBackslashes ['a', '\\', '"', '\\', '\\', '\\', 'n']) := by
  have hrender : (Datalog.Term.symbol "a\"\\\n").render = "\"a\\\"\\\\\\n\"" := by decide
  obtain ⟨hparse, -, -, hquote⟩ := parse_render_symbol "a\"\\\n"
  rw [hrender] at hparse hquote
  refine ⟨hrender, hparse, ?_, ?_⟩
  · rw [hquote _ ['\\', '\\', '\\', 'n', '"'] (by decide)]
    exact nofun
  · exact (hquote _ [] (by decide)).mpr rfl

end RelQuery
