import Mathlib.Tactic
import RelQuery.Json.Parser
import RelQuery.Json.Printer
import RelQuery.Proofs.Text.Basic

/-!
# Written scalars are read back

A text *spells* a value if the reader takes exactly this text, wherever it stands, and finds the
value.  The written forms of the truth values, of integers that fit a word and of all strings do.
-/

namespace RelQuery.Json

open Text (isDigit)

theorem skipSpace_append {layout : List Char} (h : ∀ c ∈ layout, isSpace c = true)
    (cs : List Char) : skipSpace (layout ++ cs) = skipSpace cs :=
  List.dropWhile_append_of_pos h

theorem skipSpace_cons {c : Char} (h : isSpace c = false) (cs : List Char) :
    skipSpace (c :: cs) = c :: cs := by
  simp [skipSpace, h]

theorem skipSpace_skipSpace (cs : List Char) : skipSpace (skipSpace cs) = skipSpace cs := by
  induction cs with
  | nil => rfl
  | cons c cs ih =>
    by_cases hspace : isSpace c = true
    · simpa [skipSpace, hspace] using ih
    · simp [skipSpace, hspace]

theorem Shape.scan_skipSpace (fuel levels : Nat) (cs : List Char) :
    scan fuel levels (skipSpace cs) = scan fuel levels cs := by
  cases fuel with
  | zero => rfl
  | succ fuel =>
    unfold scan
    rw [skipSpace_skipSpace]

theorem Shape.scanItems_skipSpace (fuel levels : Nat) (cs : List Char) :
    scanItems fuel levels (skipSpace cs) = scanItems fuel levels cs := by
  cases fuel with
  | zero => rfl
  | succ fuel =>
    unfold scanItems
    rw [scan_skipSpace]

theorem Shape.scanMembers_skipSpace (fuel levels : Nat) (cs : List Char) :
    scanMembers fuel levels (skipSpace cs) = scanMembers fuel levels cs := by
  cases fuel with
  | zero => rfl
  | succ fuel =>
    unfold scanMembers
    rw [skipSpace_skipSpace]

/-- Whether a number ends before the given characters. -/
def EndsNumber (rest : List Char) : Prop :=
  ∀ c ∈ rest.head?, isDigit c = false ∧ c ≠ '.' ∧ c ≠ 'e' ∧ c ≠ 'E'

theorem endsNumber_nil : EndsNumber [] := by
  simp [EndsNumber]

theorem endsNumber_layout (layout : List Char) (h : ∀ c ∈ layout, isSpace c = true) {mark : Char}
    (hmark : mark = ',' ∨ mark = ']' ∨ mark = '\x7d') (rest : List Char) :
    EndsNumber (layout ++ mark :: rest) := by
  intro c hc
  cases layout with
  | nil =>
    obtain rfl : mark = c := by simpa using hc
    rcases hmark with rfl | rfl | rfl <;> decide
  | cons space layout =>
    obtain rfl : space = c := by simpa using hc
    have hspace : isSpace space = true := h space List.mem_cons_self
    simp only [isSpace, Bool.or_eq_true, beq_iff_eq] at hspace
    rcases hspace with ((rfl | rfl) | rfl) | rfl <;> decide

/-- The reader takes exactly this text and finds the value, if it may open `depth` brackets. -/
def Spells (depth : Nat) (text : List Char) (json : Json) : Prop :=
  ∀ fuel levels rest, 2 * text.length ≤ fuel → depth ≤ levels → EndsNumber rest →
    ∃ shape, Shape.scan fuel levels (text ++ rest) = some (shape, rest) ∧ shape.value? = some json

theorem parse_of_spells {text : String} {json : Json} (h : Spells maxDepth text.toList json) :
    parse text = some json := by
  obtain ⟨shape, hscan, hvalue⟩ := h (2 * text.length + 2) maxDepth []
    (by rw [String.length_toList]; omega) le_rfl endsNumber_nil
  rw [List.append_nil] at hscan
  have hshape : Shape.parse maxDepth text = some shape := by
    rw [Shape.parse, hscan]
    rfl
  rw [parse, hshape]
  exact hvalue

/-! ## Scalars -/

theorem spells_null (depth : Nat) : Spells depth "null".toList .null := by
  intro fuel levels rest hfuel _ _
  obtain ⟨fuel, rfl⟩ := Nat.exists_eq_add_of_le' (show 1 ≤ fuel by simp at hfuel; omega)
  exact ⟨.null, rfl, rfl⟩

theorem spells_bool (depth : Nat) (value : Bool) :
    Spells depth (if value then "true" else "false").toList (.bool value) := by
  intro fuel levels rest hfuel _ _
  cases value with
  | false =>
    obtain ⟨fuel, rfl⟩ := Nat.exists_eq_add_of_le' (show 1 ≤ fuel by simp at hfuel; omega)
    exact ⟨.bool false, rfl, rfl⟩
  | true =>
    obtain ⟨fuel, rfl⟩ := Nat.exists_eq_add_of_le' (show 1 ≤ fuel by simp at hfuel; omega)
    exact ⟨.bool true, rfl, rfl⟩

theorem spanDigits_append {digits rest : List Char} (h : ∀ c ∈ digits, isDigit c = true)
    (hrest : EndsNumber rest) : spanDigits (digits ++ rest) = (digits, rest) := by
  have hstop : rest.takeWhile isDigit = [] ∧ rest.dropWhile isDigit = rest := by
    cases rest with
    | nil => simp
    | cons c rest =>
      obtain ⟨hdigit, -⟩ := hrest c (by simp)
      simp [hdigit]
  rw [spanDigits, List.takeWhile_append_of_pos h, List.dropWhile_append_of_pos h, hstop.1, hstop.2,
    List.append_nil]

theorem head_toDigits {n : Nat} (h : n ≠ 0) : ∃ c cs, Nat.toDigits 10 n = c :: cs ∧ c ≠ '0' := by
  induction n using Nat.strong_induction_on with
  | _ n ih =>
    by_cases hsmall : n < 10
    · have hchar : ∀ m < 10, m ≠ 0 → Nat.digitChar m ≠ '0' := by decide
      exact ⟨_, [], Nat.toDigits_of_lt_base hsmall, hchar n hsmall h⟩
    · obtain ⟨c, cs, hdigits, hc⟩ := ih (n / 10) (by omega) (by omega)
      rw [Nat.toDigits_of_base_le (by omega) (by omega), hdigits]
      exact ⟨c, _, rfl, hc⟩

theorem scanWhole_toDigits (n : Nat) {rest : List Char} (hrest : EndsNumber rest) :
    scanWhole (Nat.toDigits 10 n ++ rest) = some (Nat.toDigits 10 n, rest) := by
  by_cases hzero : n = 0
  · subst hzero
    have hstop : (rest.head?.map isDigit).getD false = false := by
      cases rest with
      | nil => rfl
      | cons c rest => exact (hrest c (by simp)).1
    simp [Nat.toDigits_zero, scanWhole, hstop]
  · have hspan : spanDigits (Nat.toDigits 10 n ++ rest) = (Nat.toDigits 10 n, rest) :=
      spanDigits_append (fun c hc => Text.isDigit_of_mem_toDigits hc) hrest
    obtain ⟨c, cs, hdigits, hc⟩ := head_toDigits hzero
    unfold scanWhole
    split
    · next cs' hcs =>
        rw [hdigits, List.cons_append, List.cons.injEq] at hcs
        exact absurd hcs.1 hc
    · rw [hspan]
      simp [Nat.toDigits_ne_nil]

theorem scanUnsigned_toDigits (negative : Bool) (n : Nat) {rest : List Char}
    (hrest : EndsNumber rest) :
    Numeral.scanUnsigned negative (Nat.toDigits 10 n ++ rest) =
      some (⟨negative, Nat.toDigits 10 n, [], none⟩, rest) := by
  have hfraction : scanFraction rest = some ([], rest) := by
    unfold scanFraction
    split
    · next cs => exact absurd rfl (hrest '.' (by simp)).2.1
    · rfl
  have hexponent : scanExponent rest = some (none, rest) := by
    cases rest with
    | nil => rfl
    | cons c rest =>
      obtain ⟨-, -, hlower, hupper⟩ := hrest c (by simp)
      simp [scanExponent, hlower, hupper]
  simp [Numeral.scanUnsigned, scanWhole_toDigits n hrest, hfraction, hexponent]

/-- The value of more digits is no smaller. -/
theorem le_foldl_digits (cs : List Char) (value : Nat) :
    value ≤ cs.foldl (fun value c => 10 * value + (c.toNat - '0'.toNat)) value := by
  induction cs generalizing value with
  | nil => exact le_rfl
  | cons c cs ih =>
    have hstep := ih (10 * value + (c.toNat - '0'.toNat))
    simp only [List.foldl_cons]
    omega

theorem gather_of_lt {cs : List Char} {value : Nat}
    (h : cs.foldl (fun value c => 10 * value + (c.toNat - '0'.toNat)) value < 2 ^ 64) :
    Numeral.gather value cs =
      (cs.foldl (fun value c => 10 * value + (c.toNat - '0'.toNat)) value, []) := by
  induction cs generalizing value with
  | nil => rfl
  | cons c cs ih =>
    rw [List.foldl_cons] at h ⊢
    have hnext := (le_foldl_digits cs _).trans_lt h
    have hfits : Text.fitsUnsigned 64 ((10 * value + (c.toNat - '0'.toNat) : Nat) : Int) = true := by
      have hword : ((10 * value + (c.toNat - '0'.toNat) : Nat) : Int) < (2 ^ 64 : Nat) := by
        exact_mod_cast hnext
      rw [Text.fitsUnsigned, Bool.and_eq_true]
      exact ⟨decide_eq_true (by omega), decide_eq_true hword⟩
    simp only [Numeral.gather, hfits, if_true]
    exact ih h

theorem round_le (n : Nat) : Double.round n ≤ 2 * n := by
  by_cases hzero : n = 0
  · subst hzero
    decide
  · have hunit : 2 ^ (n.log2 - 52) ≤ n :=
      (Nat.pow_le_pow_right (by omega) (Nat.sub_le _ _)).trans (Nat.log2_self_le hzero)
    have hquotient : n / 2 ^ (n.log2 - 52) * 2 ^ (n.log2 - 52) ≤ n := Nat.div_mul_le_self _ _
    unfold Double.round
    simp only [Nat.pow_eq]
    split
    · rw [Nat.add_mul]
      omega
    · omega

theorem wordCount_lt_sub {a b c : Nat} (hab : a ≤ b) (hbc : b + 1 < c) :
    Text.wordCount a < Text.wordCount c - Text.wordCount b := by
  have hlow : 2 ^ a ≤ 2 ^ b := Nat.pow_le_pow_right (by omega) hab
  have hhigh : 2 ^ (b + 1) < 2 ^ c := Nat.pow_lt_pow_right (by omega) hbc
  rw [Nat.pow_succ] at hhigh
  simp only [Text.wordCount, Nat.pow_eq]
  omega

theorem productExceeds_of_lt {n : Nat} (h : n < 2 ^ 64) : Double.productExceeds n 0 = false := by
  have hlimit : Text.wordCount 65 < Double.limit := wordCount_lt_sub (by omega) (by omega)
  have hword : Text.wordCount 65 = 2 * 2 ^ 64 := by decide
  have hone : Double.round (Nat.pow 10 (0 : Int).toNat) = 1 := by decide
  have hround := round_le n
  simp only [Double.productExceeds, hone, Nat.mul_one]
  split
  · rfl
  · rw [if_neg (by omega)]
    simp only [decide_eq_false_iff_not]
    omega

/-- An integer whose digits find room in a word of 64 bits. -/
def Fits (n : Int) : Prop :=
  n.natAbs < 2 ^ 64

theorem value?_toDigits {n : Int} (h : Fits n) :
    Numeral.value? ⟨decide (n < 0), Nat.toDigits 10 n.natAbs, [], none⟩ = some (.int n) := by
  have hvalue : Text.digitsValue (Nat.toDigits 10 n.natAbs) = n.natAbs :=
    Text.digitsValue_toDigits _
  have hgather : Numeral.gather 0 (Nat.toDigits 10 n.natAbs) = (n.natAbs, []) := by
    rw [gather_of_lt (hvalue.trans_lt h)]
    exact congrArg (·, []) hvalue
  have hsmall : Numeral.isTooLarge ⟨decide (n < 0), Nat.toDigits 10 n.natAbs, [], none⟩ = false := by
    simp [Numeral.isTooLarge, Numeral.scaled, hgather, Numeral.gather, productExceeds_of_lt h]
  unfold Numeral.value?
  rw [hsmall, hvalue]
  by_cases hneg : n < 0
  · have hzero : n.natAbs ≠ 0 := by omega
    simp [hneg, hzero, abs_of_neg hneg]
  · have hsign : (n.natAbs : Int) = n := by omega
    simp [hneg, hsign]

/-- A text that starts with a digit or a minus is read as a number. -/
theorem Shape.scan_eq_number {c : Char} (hc : isDigit c = true ∨ c = '-') (fuel levels : Nat)
    (cs : List Char) :
    scan (fuel + 1) levels (c :: cs) =
      (Numeral.scan (c :: cs)).map fun found => (.number found.1, found.2) := by
  have hne : ∀ other, isDigit other = false → other ≠ '-' → c ≠ other := by
    rintro other hdigit hminus rfl
    rcases hc with hc | hc
    · exact absurd hc (by simp [hdigit])
    · exact hminus hc
  have hspace : isSpace c = false := by
    simp only [isSpace, Bool.or_eq_false_iff, beq_eq_false_iff_ne]
    exact ⟨⟨⟨hne _ (by decide) (by decide), hne _ (by decide) (by decide)⟩,
      hne _ (by decide) (by decide)⟩, hne _ (by decide) (by decide)⟩
  rw [scan, skipSpace_cons hspace]
  split
  · next heq => exact absurd (List.cons.inj heq).1 (hne _ (by decide) (by decide))
  · next heq => exact absurd (List.cons.inj heq).1 (hne _ (by decide) (by decide))
  · next heq => exact absurd (List.cons.inj heq).1 (hne _ (by decide) (by decide))
  · next heq => exact absurd (List.cons.inj heq).1 (hne _ (by decide) (by decide))
  · next heq => exact absurd (List.cons.inj heq).1 (hne _ (by decide) (by decide))
  · next heq => exact absurd (List.cons.inj heq).1 (hne _ (by decide) (by decide))
  · rfl

theorem Spells.int {n : Int} (h : Fits n) (depth : Nat) :
    Spells depth (toString n).toList (.int n) := by
  intro fuel levels rest hfuel _ hrest
  have hdigits := scanUnsigned_toDigits (decide (n < 0)) n.natAbs hrest
  refine ⟨.number ⟨decide (n < 0), Nat.toDigits 10 n.natAbs, [], none⟩, ?_, value?_toDigits h⟩
  rw [Text.toList_toString] at hfuel ⊢
  by_cases hneg : n < 0
  · rw [if_pos hneg, List.cons_append]
    rw [if_pos hneg, List.length_cons] at hfuel
    obtain ⟨fuel, rfl⟩ := Nat.exists_eq_add_of_le' (show 1 ≤ fuel by omega)
    rw [decide_eq_true hneg] at hdigits ⊢
    rw [Shape.scan_eq_number (.inr rfl), Numeral.scan, hdigits]
    rfl
  · rw [if_neg hneg] at hfuel ⊢
    obtain ⟨c, cs, hcs⟩ := List.exists_cons_of_ne_nil (Nat.toDigits_ne_nil (b := 10) (n := n.natAbs))
    have hc : isDigit c = true := Text.isDigit_of_mem_toDigits (hcs ▸ List.mem_cons_self)
    rw [decide_eq_false hneg] at hdigits ⊢
    rw [hcs] at hfuel hdigits ⊢
    rw [List.length_cons] at hfuel
    obtain ⟨fuel, rfl⟩ := Nat.exists_eq_add_of_le' (show 1 ≤ fuel by omega)
    have hscan : Numeral.scan (c :: (cs ++ rest)) =
        Numeral.scanUnsigned false (c :: cs ++ rest) := by
      unfold Numeral.scan
      split
      · next heq =>
          obtain ⟨rfl, -⟩ := List.cons.inj heq
          exact absurd hc (by decide)
      · rfl
    rw [List.cons_append, Shape.scan_eq_number (.inl hc), hscan, hdigits]
    rfl

theorem hexCode?_hexCode : ∀ code < 32, ∃ a b, hexCode code = ['0', '0', a, b] ∧
    hexCode? '0' '0' a b = some code := by
  have hdigits : ∀ code < 32,
      hexCode code = ['0', '0', Nat.digitChar (code / 16), Nat.digitChar (code % 16)] ∧
      hexCode? '0' '0' (Nat.digitChar (code / 16)) (Nat.digitChar (code % 16)) = some code := by
    decide
  exact fun code hcode => ⟨_, _, hdigits code hcode⟩

theorem charsOf?_code {c : Char} (h : c.toNat < 32) (pieces : List Piece) :
    charsOf? (.code c.toNat :: pieces) = (charsOf? pieces).map (c :: ·) := by
  have hhigh : isHighSurrogate c.toNat = false := by
    simp only [isHighSurrogate, Bool.and_eq_false_iff, decide_eq_false_iff_not]
    omega
  have hchar : charOf? c.toNat = some c := by
    rw [charOf?, if_neg (by omega), Char.ofNat_toNat]
  cases pieces with
  | nil => simp [charsOf?, hchar]
  | cons piece pieces =>
    cases piece with
    | char other => simp [charsOf?, hchar]
    | code other => simp [charsOf?, hchar, hhigh]

theorem escapeChar_piece (c : Char) :
    ∃ piece,
      (∀ rest, scanString (escapeChar c ++ rest) = consFound piece (scanString rest)) ∧
      ∀ pieces, charsOf? (piece :: pieces) = (charsOf? pieces).map (c :: ·) := by
  by_cases hcode : ∃ a b, escapeChar c = ['\\', 'u', '0', '0', a, b] ∧
      hexCode? '0' '0' a b = some c.toNat ∧ c.toNat < 32
  · obtain ⟨a, b, hescape, hvalue, hlow⟩ := hcode
    refine ⟨.code c.toNat, fun rest => ?_, charsOf?_code hlow⟩
    rw [hescape]
    simp [scanString, hvalue]
  refine ⟨.char c, fun rest => ?_, fun pieces => rfl⟩
  revert hcode
  fun_cases escapeChar c with
  | case8 _ _ _ _ _ _ _ hlow =>
    intro hcode
    obtain ⟨a, b, hescape, hvalue⟩ := hexCode?_hexCode c.toNat hlow
    exact absurd ⟨a, b, by rw [hescape], hvalue, hlow⟩ hcode
  | case9 hquote hslash _ _ _ _ _ hhigh =>
    intro _
    rw [List.singleton_append, scanString.eq_def]
    split <;> simp_all
  | _ =>
    intro _
    simp_all [scanString, escaped?]

theorem scanString_escaped (cs rest : List Char) :
    ∃ pieces, scanString (cs.flatMap escapeChar ++ '"' :: rest) = some (pieces, rest) ∧
      charsOf? pieces = some cs := by
  induction cs with
  | nil => exact ⟨[], rfl, rfl⟩
  | cons c cs ih =>
    obtain ⟨pieces, hscan, hchars⟩ := ih
    obtain ⟨piece, hpiece, hchar⟩ := escapeChar_piece c
    refine ⟨piece :: pieces, ?_, ?_⟩
    · rw [List.flatMap_cons, List.append_assoc, hpiece, hscan]
      rfl
    · rw [hchar, hchars]
      rfl

theorem toList_renderString (value : String) :
    (renderString value).toList = '"' :: (value.toList.flatMap escapeChar ++ ['"']) := by
  simp [renderString]

theorem scanString_renderString (value : String) (rest : List Char) :
    ∃ pieces, scanString (value.toList.flatMap escapeChar ++ '"' :: rest) = some (pieces, rest) ∧
      textOf? pieces = some value := by
  obtain ⟨pieces, hscan, hchars⟩ := scanString_escaped value.toList rest
  exact ⟨pieces, hscan, by simp [textOf?, hchars]⟩

theorem spells_string (depth : Nat) (value : String) :
    Spells depth (renderString value).toList (.string value) := by
  intro fuel levels rest hfuel _ _
  obtain ⟨pieces, hscan, htext⟩ := scanString_renderString value rest
  rw [toList_renderString] at hfuel ⊢
  rw [List.length_cons] at hfuel
  obtain ⟨fuel, rfl⟩ := Nat.exists_eq_add_of_le' (show 1 ≤ fuel by omega)
  refine ⟨.string pieces, ?_, by simp [Shape.value?, htext]⟩
  simp [Shape.scan, skipSpace_cons (c := '"') (by decide), hscan]

end RelQuery.Json
