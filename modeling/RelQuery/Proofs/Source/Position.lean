import Mathlib.Data.List.DropRight
import Mathlib.Data.Prod.Lex
import RelQuery.Proofs.Text.Basic
import RelQuery.Source.Basic

/-!
# Positions order like offsets

A place between two characters of a text cuts the text in two.  Its line counts the line breaks of
the first part, and its column counts the characters of that part behind the last line break.  So a
later place is on a later line, or further to the right on the same line, and the place is found
again by a walk from the start of the text.
-/

namespace RelQuery.Position

open Text (byteLength)

/-! ## Walking to a line and a column -/

/-- The characters before the start of a line and those from there on.  Lines count from zero. -/
def splitLine? : Nat → List Char → Option (List Char × List Char)
  | 0, cs => some ([], cs)
  | _ + 1, [] => none
  | line + 1, c :: cs =>
    (splitLine? (if c = '\n' then line else line + 1) cs).map fun (lead, rest) => (c :: lead, rest)

/-- The byte offset of a line and a column: from the start of the line, `column - 1` characters are
passed.  The walk does not leave its line. -/
def offsetAt? (source : String) (line column : Nat) : Option Nat :=
  match splitLine? (line - 1) source.toList with
  | none => none
  | some (lead, rest) =>
    let text := rest.takeWhile (· ≠ '\n')
    if column - 1 ≤ text.length then some (byteLength lead + byteLength (text.take (column - 1)))
    else none

/-! ## The last line of a text -/

/-- The characters behind the last line break. -/
def lastLine (cs : List Char) : List Char :=
  cs.rtakeWhile (· ≠ '\n')

theorem column_after (offset : Nat) (before : List Char) :
    (after offset before).column = (lastLine before).length + 1 := by
  simp [after, lastLine, List.rtakeWhile]

theorem newline_notMem_lastLine (cs : List Char) : '\n' ∉ lastLine cs := by
  intro hmem
  simpa using List.mem_rtakeWhile_imp hmem

theorem lastLine_eq_self {cs : List Char} (h : '\n' ∉ cs) : lastLine cs = cs := by
  rw [lastLine, List.rtakeWhile_eq_self_iff]
  intro c hc
  simpa using ne_of_mem_of_not_mem hc h

theorem lastLine_append {cs ds : List Char} (h : '\n' ∉ ds) :
    lastLine (cs ++ ds) = lastLine cs ++ ds := by
  have hds : ∀ c ∈ ds.reverse, decide (c ≠ '\n') = true := by
    intro c hc
    simpa using ne_of_mem_of_not_mem (List.mem_reverse.mp hc) h
  rw [lastLine, List.rtakeWhile, List.reverse_append, List.takeWhile_append_of_pos hds,
    List.reverse_append, List.reverse_reverse, lastLine, List.rtakeWhile]

/-- A text has no line break, or one in front of its last line. -/
theorem lastLine_cases (cs : List Char) :
    '\n' ∉ cs ∧ lastLine cs = cs ∨ ∃ lead, cs = lead ++ '\n' :: lastLine cs := by
  by_cases hmem : '\n' ∈ cs
  · refine .inr ?_
    have hne : cs.rdropWhile (· ≠ '\n') ≠ [] := by
      simpa [List.rdropWhile_eq_nil_iff] using hmem
    have hlast : (cs.rdropWhile (· ≠ '\n')).getLast hne = '\n' := by
      simpa using List.rdropWhile_last_not _ cs hne
    have hlead := List.dropLast_append_getLast hne
    rw [hlast] at hlead
    refine ⟨(cs.rdropWhile (· ≠ '\n')).dropLast, ?_⟩
    calc cs = cs.rdropWhile (· ≠ '\n') ++ lastLine cs := List.rdropWhile_append_rtakeWhile.symm
      _ = _ := by rw [← hlead]; simp
  · exact .inl ⟨hmem, lastLine_eq_self hmem⟩

theorem splitLine?_break (lead rest : List Char) :
    splitLine? (lead.count '\n' + 1) (lead ++ '\n' :: rest) = some (lead ++ ['\n'], rest) := by
  induction lead with
  | nil => simp [splitLine?]
  | cons c lead ih =>
      by_cases hc : c = '\n'
      · simp [splitLine?, hc, ih]
      · simp [splitLine?, hc, ih]

/-- As many lines as a text has line breaks lead to its last line. -/
theorem exists_splitLine? (before rest : List Char) :
    ∃ lead, before = lead ++ lastLine before ∧
      splitLine? (before.count '\n') (before ++ rest) = some (lead, lastLine before ++ rest) := by
  rcases lastLine_cases before with ⟨hmem, hlast⟩ | ⟨lead, hbefore⟩
  · refine ⟨[], by rw [hlast, List.nil_append], ?_⟩
    rw [List.count_eq_zero_of_not_mem hmem, hlast, splitLine?]
  · have hcount : before.count '\n' = lead.count '\n' + 1 := by
      have hlast := List.count_eq_zero_of_not_mem (newline_notMem_lastLine before)
      conv_lhs => rw [hbefore, List.count_append, List.count_cons_self, hlast]
    refine ⟨lead ++ ['\n'], by simpa using hbefore, ?_⟩
    rw [hcount, ← splitLine?_break]
    congr 1
    conv_lhs => rw [hbefore]
    simp

/-- From the start of the last line, the walk over that line reaches the end of the text. -/
theorem offsetAt?_append (before rest : String) :
    offsetAt? (before ++ rest) (before.toList.count '\n' + 1)
      ((lastLine before.toList).length + 1) = some before.utf8ByteSize := by
  obtain ⟨lead, hbefore, hsplit⟩ := exists_splitLine? before.toList rest.toList
  have hline : ∀ c ∈ lastLine before.toList, decide (c ≠ '\n') = true := by
    intro c hc
    simpa using ne_of_mem_of_not_mem hc (newline_notMem_lastLine _)
  rw [offsetAt?, Nat.add_sub_cancel, Nat.add_sub_cancel, String.toList_append, hsplit]
  simp only [List.takeWhile_append_of_pos hline, List.length_append, Nat.le_add_right, if_true,
    List.take_left, ← Text.byteLength_append, ← hbefore, Text.byteLength_toList]

/-! ## Places between characters -/

theorem offset_of_splits {source before rest : String} {p : source.Pos}
    (h : p.Splits before rest) : p.offset.byteIdx = before.utf8ByteSize :=
  congrArg String.Pos.Raw.byteIdx h.offset_eq_rawEndPos

theorem locate_of_splits {source before rest : String} {p : source.Pos}
    (h : p.Splits before rest) :
    locate source p.offset.byteIdx = after p.offset.byteIdx before.toList := by
  have hwithin : min p.offset.byteIdx source.utf8ByteSize = byteLength before.toList := by
    rw [offset_of_splits h, h.eq_append, String.utf8ByteSize_append, Text.byteLength_toList]
    exact Nat.min_eq_left (Nat.le_add_right _ _)
  have htake : Text.takeBytes? (byteLength before.toList) source.toList = some before.toList := by
    rw [h.eq_append, String.toList_append, Text.takeBytes?_append]
  rw [locate, hwithin, htake, Option.getD_some, offset_of_splits h, Text.byteLength_toList]

/-- The characters before a later place continue those before an earlier one. -/
theorem exists_append_of_lt {source before rest before' rest' : String} {p q : source.Pos}
    (hp : p.Splits before rest) (hq : q.Splits before' rest') (hlt : p < q) :
    ∃ mid, mid ≠ [] ∧ before'.toList = before.toList ++ mid := by
  have hbytes : byteLength before.toList < byteLength before'.toList := by
    rw [Text.byteLength_toList, Text.byteLength_toList, ← offset_of_splits hp,
      ← offset_of_splits hq]
    exact hlt
  have hsource : before.toList ++ rest.toList = before'.toList ++ rest'.toList := by
    rw [← String.toList_append, ← String.toList_append, ← hp.eq_append, ← hq.eq_append]
  rcases List.append_eq_append_iff.mp hsource with ⟨mid, hmid, -⟩ | ⟨mid, hmid, -⟩
  · refine ⟨mid, ?_, hmid⟩
    rintro rfl
    simp [hmid] at hbytes
  · rw [hmid, Text.byteLength_append] at hbytes
    omega

/-- Reading on moves to a later line, or to the right on the same line. -/
theorem after_lt_after {before mid : List Char} (hmid : mid ≠ []) (offset offset' : Nat) :
    toLex ((after offset before).line, (after offset before).column) <
      toLex ((after offset' (before ++ mid)).line, (after offset' (before ++ mid)).column) := by
  rw [Prod.Lex.toLex_lt_toLex]
  by_cases hbreak : '\n' ∈ mid
  · left
    simpa [after] using hbreak
  · right
    rw [column_after, column_after, lastLine_append hbreak]
    have hlength := List.length_pos_of_ne_nil hmid
    simpa [after, List.count_eq_zero] using ⟨hbreak, hlength⟩

/-- The line of a place counts the line breaks before it, the walk to its line and column leads back
to it, and later places have later positions. -/
theorem locate_orders_and_recovers (source : String) (p : source.Pos) :
    (locate source p.offset.byteIdx).line = (source.sliceTo p).copy.toList.count '\n' + 1 ∧
      offsetAt? source (locate source p.offset.byteIdx).line
        (locate source p.offset.byteIdx).column = some p.offset.byteIdx ∧
      ∀ q : source.Pos, p < q →
        toLex ((locate source p.offset.byteIdx).line, (locate source p.offset.byteIdx).column) <
          toLex ((locate source q.offset.byteIdx).line,
            (locate source q.offset.byteIdx).column) := by
  have hline : (locate source p.offset.byteIdx).line =
      (source.sliceTo p).copy.toList.count '\n' + 1 := by
    rw [locate_of_splits p.splits, after]
  refine ⟨hline, ?_, fun q hlt => ?_⟩
  · have hwalk := offsetAt?_append (source.sliceTo p).copy (source.sliceFrom p).copy
    rwa [← p.splits.eq_append, ← offset_of_splits p.splits, ← column_after p.offset.byteIdx,
      ← locate_of_splits p.splits, ← hline] at hwalk
  · obtain ⟨mid, hmid, hbefore⟩ := exists_append_of_lt p.splits q.splits hlt
    rw [locate_of_splits p.splits, locate_of_splits q.splits, hbefore]
    exact after_lt_after hmid _ _

/-- Two places behind a line break, the second behind a character of two bytes. -/
theorem sample_locate_orders :
    toLex ((locate "ab\ncΣd" 4).line, (locate "ab\ncΣd" 4).column) <
        toLex ((locate "ab\ncΣd" 6).line, (locate "ab\ncΣd" 6).column) ∧
      offsetAt? "ab\ncΣd" 2 3 = some 6 :=
  ⟨(locate_orders_and_recovers "ab\ncΣd" ⟨⟨4⟩, by decide⟩).2.2 ⟨⟨6⟩, by decide⟩ (by decide),
    (locate_orders_and_recovers "ab\ncΣd" ⟨⟨6⟩, by decide⟩).2.1⟩

end RelQuery.Position
