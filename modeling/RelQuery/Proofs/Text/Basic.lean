import Mathlib.Data.String.Basic
import Mathlib.Tactic
import RelQuery.Text.Basic

/-!
# Texts as bytes, lines and digits

A piece of a text is cut out by the lengths in bytes of what stands before it and of what stands
before its end.  Texts are ordered by their characters exactly as by their bytes.  Pieces without a
separator are cut out again where separators were put between them, and an integer is read back from
its decimal spelling.
-/

namespace RelQuery.Text

/-! ## Cutting at byte offsets -/

@[simp]
theorem byteLength_nil : byteLength [] = 0 :=
  rfl

@[simp]
theorem byteLength_append (cs ds : List Char) :
    byteLength (cs ++ ds) = byteLength cs + byteLength ds := by
  induction cs with
  | nil => simp
  | cons c cs ih => rw [List.cons_append, byteLength, byteLength, ih, Nat.add_assoc]

theorem byteLength_toList (text : String) : byteLength text.toList = text.utf8ByteSize := by
  have hlength (cs : List Char) : byteLength cs = (String.ofList cs).utf8ByteSize := by
    induction cs with
    | nil => rfl
    | cons c cs ih => simp [byteLength, ih, String.ofList_cons]
  rw [hlength, String.ofList_toList]

/-- Cutting behind the first character leaves the offset that is counted from there. -/
theorem exists_byteLength_cons (c : Char) (cs : List Char) :
    ∃ n, byteLength (c :: cs) = n + 1 ∧ c.utf8Size ≤ n + 1 ∧ n + 1 - c.utf8Size = byteLength cs := by
  have hpos := c.utf8Size_pos
  refine ⟨byteLength (c :: cs) - 1, ?_⟩
  rw [byteLength]
  omega

theorem dropBytes?_append (cs rest : List Char) :
    dropBytes? (byteLength cs) (cs ++ rest) = some rest := by
  induction cs with
  | nil => simp [dropBytes?]
  | cons c cs ih =>
      obtain ⟨n, hn, hle, hrest⟩ := exists_byteLength_cons c cs
      rw [hn, List.cons_append, dropBytes?, if_pos hle, hrest, ih]

theorem takeBytes?_append (cs rest : List Char) :
    takeBytes? (byteLength cs) (cs ++ rest) = some cs := by
  induction cs with
  | nil => simp [takeBytes?]
  | cons c cs ih =>
      obtain ⟨n, hn, hle, hrest⟩ := exists_byteLength_cons c cs
      rw [hn, List.cons_append, takeBytes?, if_pos hle, hrest, ih]
      rfl

theorem sliceBytes?_append (before piece rest : List Char) :
    sliceBytes? (byteLength before) (byteLength (before ++ piece)) (before ++ (piece ++ rest)) =
      some piece := by
  have hlength : byteLength (before ++ piece) - byteLength before = byteLength piece := by simp
  have hle : byteLength before ≤ byteLength (before ++ piece) := by simp
  rw [sliceBytes?, if_pos hle, dropBytes?_append, hlength, Option.bind_some, takeBytes?_append]

/-! ## The order of bytes -/

/-- The bytes of the UTF-8 form of a text. -/
def bytes (text : String) : List UInt8 :=
  text.toUTF8.data.toList

theorem bytes_eq (text : String) : bytes text = text.toList.flatMap String.utf8EncodeChar := by
  conv_lhs => rw [← String.ofList_toList (s := text)]
  rw [bytes, String.toUTF8_eq_toByteArray, String.toByteArray_ofList, List.utf8Encode]
  simp

theorem toNat_val_lt (c : Char) : c.val.toNat < 0x110000 := by
  rcases c.valid with h | ⟨-, h⟩ <;> omega

/-- The forms of two characters differ at some byte, and the first such byte gives their order. -/
theorem encode_append_lt {c d : Char} (h : c < d) (cs ds : List UInt8) :
    String.utf8EncodeChar c ++ cs < String.utf8EncodeChar d ++ ds := by
  have hlt : c.val.toNat < d.val.toNat := h
  have hbound := toNat_val_lt d
  -- The bytes behind the first one hold six bits each.
  have hpieces (n : Nat) : n / 4096 = n / 64 / 64 ∧ n / 262144 = n / 64 / 64 / 64 := by omega
  unfold String.utf8EncodeChar
  generalize c.val.toNat = v at hlt ⊢
  generalize d.val.toNat = w at hlt hbound ⊢
  dsimp only
  split_ifs
  all_goals
    simp only [hpieces, List.cons_append, List.nil_append, List.cons_lt_cons_iff,
      UInt8.lt_iff_toNat_lt, ← UInt8.toNat_inj, UInt8.toNat_ofNat']
    omega

theorem flatMap_encode_lt {cs ds : List Char} (h : cs < ds) :
    cs.flatMap String.utf8EncodeChar < ds.flatMap String.utf8EncodeChar := by
  induction h with
  | @nil d ds =>
      have hne : String.utf8EncodeChar d ≠ [] := by
        have hpos := d.utf8Size_pos
        rw [← String.length_utf8EncodeChar] at hpos
        exact List.ne_nil_of_length_pos hpos
      obtain ⟨b, bs, hd⟩ := List.exists_cons_of_ne_nil hne
      rw [List.flatMap_cons, hd]
      exact List.nil_lt_cons _ _
  | cons h ih =>
      rw [List.flatMap_cons, List.flatMap_cons]
      exact List.append_left_lt ih
  | rel h => exact encode_append_lt h _ _

theorem bytes_lt_iff {s t : String} : bytes s < bytes t ↔ s < t := by
  have hlt {s t : String} (h : s < t) : bytes s < bytes t := by
    rw [bytes_eq, bytes_eq]
    exact flatMap_encode_lt (String.lt_iff.mp h)
  refine ⟨fun h => ?_, hlt⟩
  rcases lt_trichotomy s t with hst | rfl | hts
  · exact hst
  · exact absurd h (List.lt_irrefl _)
  · exact absurd h (List.lt_asymm (hlt hts))

/-! ## Lines -/

section Lines

variable {separator : Char} {piece : List Char}

theorem foldr_consPiece (hfree : separator ∉ piece) (first : List Char)
    (rest : List (List Char)) :
    piece.foldr (consPiece separator) (first :: rest) = (piece ++ first) :: rest := by
  induction piece with
  | nil => rfl
  | cons c cs ih =>
      have hne : c ≠ separator := by
        rintro rfl
        exact hfree List.mem_cons_self
      have hcs : separator ∉ cs := fun hmem => hfree (List.mem_cons_of_mem c hmem)
      rw [List.foldr_cons, ih hcs, consPiece, if_neg hne]
      rfl

theorem pieces_of_free (hfree : separator ∉ piece) : pieces separator piece = [piece] := by
  rw [pieces, foldr_consPiece hfree, List.append_nil]

theorem pieces_ne_nil (cs : List Char) : pieces separator cs ≠ [] := by
  cases cs with
  | nil => simp [pieces]
  | cons c cs =>
      rw [pieces, List.foldr_cons]
      unfold consPiece
      split
      · simp
      · split <;> simp

theorem pieces_append (hfree : separator ∉ piece) (cs : List Char) :
    pieces separator (piece ++ separator :: cs) = piece :: pieces separator cs := by
  have hrest : pieces separator (separator :: cs) = [] :: pieces separator cs := by
    rw [pieces, List.foldr_cons, ← pieces]
    cases hpieces : pieces separator cs with
    | nil => exact absurd hpieces (pieces_ne_nil cs)
    | cons first rest => rw [consPiece, if_pos rfl]
  rw [pieces, List.foldr_append, ← pieces, hrest, foldr_consPiece hfree, List.append_nil]

theorem pieces_flatMap {lines : List (List Char)}
    (hfree : ∀ line ∈ lines, separator ∉ line) :
    pieces separator (lines.flatMap (· ++ [separator])) = lines ++ [[]] := by
  induction lines with
  | nil => rfl
  | cons line lines ih =>
      rw [List.forall_mem_cons] at hfree
      rw [List.flatMap_cons, List.append_assoc, List.singleton_append, pieces_append hfree.1,
        ih hfree.2, List.cons_append]

/-- No piece has a separator. -/
theorem notMem_of_mem_pieces {cs : List Char} (h : piece ∈ pieces separator cs) :
    separator ∉ piece := by
  induction cs generalizing piece with
  | nil => simp_all [pieces]
  | cons c cs ih =>
      rw [pieces, List.foldr_cons, ← pieces] at h
      cases hpieces : pieces separator cs with
      | nil => exact absurd hpieces (pieces_ne_nil cs)
      | cons first rest =>
          rw [hpieces] at ih h
          rw [consPiece] at h
          split at h
          · rcases List.mem_cons.mp h with rfl | h
            · exact List.not_mem_nil
            · exact ih h
          · next hne =>
              rcases List.mem_cons.mp h with rfl | h
              · simpa [Ne.symm hne] using ih List.mem_cons_self
              · exact ih (List.mem_cons_of_mem _ h)

/-- Pieces with separators between them are cut out again exactly if none of them has a
separator. -/
theorem pieces_intercalate_iff {parts : List (List Char)} (hne : parts ≠ []) :
    pieces separator ([separator].intercalate parts) = parts ↔
      ∀ part ∈ parts, separator ∉ part := by
  constructor
  · intro h part hpart
    rw [← h] at hpart
    exact notMem_of_mem_pieces hpart
  · intro hfree
    induction parts with
    | nil => exact (hne rfl).elim
    | cons first rest ih =>
        rw [List.forall_mem_cons] at hfree
        cases rest with
        | nil =>
            rw [List.intercalate_singleton]
            exact pieces_of_free hfree.1
        | cons second rest =>
            rw [List.intercalate_cons_cons, List.append_assoc, List.singleton_append,
              pieces_append hfree.1, ih (List.cons_ne_nil _ _) hfree.2]

theorem dropReturn_of_notMem {line : List Char} (h : '\r' ∉ line) : dropReturn line = line := by
  rw [dropReturn, if_neg]
  intro hlast
  exact h (List.mem_of_getLast? hlast)

theorem linesOf_flatMap {lines : List (List Char)}
    (hfree : ∀ line ∈ lines, '\n' ∉ line ∧ '\r' ∉ line) :
    linesOf (lines.flatMap (· ++ ['\n'])) = lines := by
  have hlines : lines.map dropReturn = lines := by
    conv_rhs => rw [← List.map_id lines]
    exact List.map_congr_left fun line hline => dropReturn_of_notMem (hfree line hline).2
  rw [linesOf, pieces_flatMap fun line hline => (hfree line hline).1]
  simp [hlines]

end Lines

/-! ## Decimal integers -/

theorem isDigit_of_mem_toDigits {n : Nat} {c : Char} (h : c ∈ Nat.toDigits 10 n) :
    isDigit c = true := by
  have hdigit := Nat.isDigit_of_mem_toDigits (by omega) (by omega) h
  simpa [isDigit, Char.isDigit, Char.le_def] using hdigit

theorem digitsValue_toDigits (n : Nat) : digitsValue (Nat.toDigits 10 n) = n :=
  Nat.ofDigitChars_toDigits (by omega) (by omega)

theorem readDigits?_toDigits (n : Nat) : readDigits? (Nat.toDigits 10 n) = some n := by
  have hall : (Nat.toDigits 10 n).all isDigit = true := by
    rw [List.all_eq_true]
    exact fun c hc => isDigit_of_mem_toDigits hc
  simp [readDigits?, hall, Nat.toDigits_ne_nil, digitsValue_toDigits]

/-- The characters of an integer: digits, behind a minus if it is negative. -/
theorem toList_toString (n : Int) :
    (toString n).toList =
      if n < 0 then '-' :: Nat.toDigits 10 n.natAbs else Nat.toDigits 10 n.natAbs := by
  cases n with
  | ofNat n => simp [toString, Int.repr, Nat.repr]
  | negSucc n => simp [toString, Int.repr, Nat.repr, Int.negSucc_lt_zero]

theorem readInt?_toString (n : Int) : readInt? (toString n).toList = some n := by
  rw [toList_toString]
  by_cases hneg : n < 0
  · have hvalue : -(n.natAbs : Int) = n := by omega
    rw [if_pos hneg, readInt?, readDigits?_toDigits]
    exact congrArg some hvalue
  · have hvalue : (n.natAbs : Int) = n := by omega
    rw [if_neg hneg]
    unfold readInt?
    split
    · next cs hcs =>
        have hdigit : isDigit '-' = true :=
          isDigit_of_mem_toDigits (hcs ▸ List.mem_cons_self)
        exact absurd hdigit (by decide)
    · next cs hcs =>
        have hdigit : isDigit '+' = true :=
          isDigit_of_mem_toDigits (hcs ▸ List.mem_cons_self)
        exact absurd hdigit (by decide)
    · rw [readDigits?_toDigits]
      exact congrArg some hvalue

theorem readSigned?_toString {bits : Nat} {n : Int} (h : fitsSigned bits n = true) :
    readSigned? bits (toString n).toList = some n := by
  rw [readSigned?, readInt?_toString]
  simp [h]

end RelQuery.Text
