import Mathlib.Tactic
import RelQuery.Proofs.Json.Scalars

/-!
# Written JSON is read back

Brackets around texts that spell values, with any layout between them, spell the array or the object
of these values.  So a value that keeps within the limits of the reader is read back from both of
its written forms.
-/

namespace RelQuery.Json

/-! ## Arrays and objects -/

section Brackets

variable {depth levels : Nat} {lead sep trail : List Char}

theorem Shape.scanItems_layout {layout : List Char} (h : ∀ c ∈ layout, isSpace c = true)
    (fuel : Nat) (cs : List Char) :
    scanItems fuel levels (layout ++ cs) = scanItems fuel levels cs := by
  rw [← scanItems_skipSpace, skipSpace_append h, scanItems_skipSpace]

theorem Shape.scanMembers_layout {layout : List Char} (h : ∀ c ∈ layout, isSpace c = true)
    (fuel : Nat) (cs : List Char) :
    scanMembers fuel levels (layout ++ cs) = scanMembers fuel levels cs := by
  rw [← scanMembers_skipSpace, skipSpace_append h, scanMembers_skipSpace]

theorem Shape.scanItems_spelled (hlevels : depth ≤ levels) (hsep : ∀ c ∈ sep, isSpace c = true)
    (htrail : ∀ c ∈ trail, isSpace c = true) (rest : List Char) {texts : List (List Char)}
    {jsons : List Json} (h : List.Forall₂ (Spells depth) texts jsons) (hne : texts ≠ [])
    {fuel : Nat} (hfuel : 2 * ((',' :: sep).intercalate texts).length < fuel) :
    ∃ shapes,
      scanItems fuel levels ((',' :: sep).intercalate texts ++ (trail ++ ']' :: rest)) =
        some (shapes, rest) ∧
      values? shapes = some jsons := by
  obtain ⟨fuel, rfl⟩ := Nat.exists_eq_add_of_le' (show 1 ≤ fuel by omega)
  induction h generalizing fuel with
  | nil => exact absurd rfl hne
  | @cons text json texts jsons htext htexts ih =>
    cases texts with
    | nil =>
      cases htexts
      rw [List.intercalate_singleton] at hfuel ⊢
      obtain ⟨shape, hscan, hvalue⟩ := htext fuel levels (trail ++ ']' :: rest) (by omega) hlevels
        (endsNumber_layout trail htrail (.inr (.inl rfl)) rest)
      have hclose : skipSpace (trail ++ ']' :: rest) = ']' :: rest := by
        rw [skipSpace_append htrail, skipSpace_cons (by decide)]
      exact ⟨[shape], by simp [scanItems, hscan, hclose], by simp [values?, hvalue]⟩
    | cons next texts =>
      rw [List.intercalate_cons_cons] at hfuel ⊢
      simp only [List.length_append, List.length_cons] at hfuel
      have hend : EndsNumber (',' :: (sep ++ ((',' :: sep).intercalate (next :: texts) ++
          (trail ++ ']' :: rest)))) :=
        endsNumber_layout [] (by simp) (.inl rfl) _
      obtain ⟨shape, hscan, hvalue⟩ := htext fuel levels _ (by omega) hlevels hend
      obtain ⟨fuel, rfl⟩ := Nat.exists_eq_add_of_le' (show 1 ≤ fuel by omega)
      obtain ⟨shapes, hscans, hvalues⟩ := ih (by simp) fuel (by omega)
      refine ⟨shape :: shapes, ?_, by simp [values?, hvalue, hvalues]⟩
      rw [scanItems]
      simp only [List.append_assoc, List.cons_append, hscan, Option.bind_some,
        skipSpace_cons (c := ',') (by decide), scanItems_layout hsep, hscans]
      rfl

/-- A member of an object: its key between quotes, a colon, layout and a text that spells its value. -/
def SpellsMember (depth : Nat) (gap text : List Char) (member : String × Json) : Prop :=
  ∃ value, Spells depth value member.2 ∧
    text = (renderString member.1).toList ++ ':' :: (gap ++ value)

theorem Shape.scan_member {fuel : Nat} {gap text : List Char} {member : String × Json}
    (hgap : ∀ c ∈ gap, isSpace c = true) (hlevels : depth ≤ levels)
    (h : SpellsMember depth gap text member) (hfuel : 2 * text.length ≤ fuel) {rest : List Char}
    (hrest : EndsNumber rest) :
    ∃ afterQuote pieces value shape,
      text ++ rest = '"' :: afterQuote ∧
      scanString afterQuote = some (pieces, ':' :: (gap ++ (value ++ rest))) ∧
      scan fuel levels (gap ++ (value ++ rest)) = some (shape, rest) ∧
      textOf? pieces = some member.1 ∧ shape.value? = some member.2 := by
  obtain ⟨value, hvalue, rfl⟩ := h
  simp only [List.length_append, List.length_cons] at hfuel
  obtain ⟨shape, hscan, hshape⟩ := hvalue fuel levels rest (by omega) hlevels hrest
  obtain ⟨pieces, hpieces, hkey⟩ :=
    scanString_renderString member.1 (':' :: (gap ++ (value ++ rest)))
  have hvalueScan : scan fuel levels (gap ++ (value ++ rest)) = some (shape, rest) := by
    rw [← scan_skipSpace, skipSpace_append hgap, scan_skipSpace, hscan]
  refine ⟨_, pieces, value, shape, ?_, hpieces, hvalueScan, hkey, hshape⟩
  simp [toList_renderString]

theorem Shape.scanMembers_spelled {gap : List Char} (hgap : ∀ c ∈ gap, isSpace c = true)
    (hlevels : depth ≤ levels) (hsep : ∀ c ∈ sep, isSpace c = true)
    (htrail : ∀ c ∈ trail, isSpace c = true) (rest : List Char) {texts : List (List Char)}
    {members : List (String × Json)} (h : List.Forall₂ (SpellsMember depth gap) texts members)
    (hne : texts ≠ []) {fuel : Nat}
    (hfuel : 2 * ((',' :: sep).intercalate texts).length < fuel) :
    ∃ shapes,
      scanMembers fuel levels ((',' :: sep).intercalate texts ++ (trail ++ '\x7d' :: rest)) =
        some (shapes, rest) ∧
      memberValues? shapes = some members := by
  obtain ⟨fuel, rfl⟩ := Nat.exists_eq_add_of_le' (show 1 ≤ fuel by omega)
  have hquote : ∀ cs, skipSpace ('"' :: cs) = '"' :: cs := skipSpace_cons (by decide)
  have hcolon : ∀ cs, skipSpace (':' :: cs) = ':' :: cs := skipSpace_cons (by decide)
  induction h generalizing fuel with
  | nil => exact absurd rfl hne
  | @cons text member texts members htext htexts ih =>
    cases texts with
    | nil =>
      cases htexts
      rw [List.intercalate_singleton] at hfuel ⊢
      obtain ⟨afterQuote, pieces, value, shape, htextEq, hpieces, hscan, hkey, hvalue⟩ :=
        scan_member hgap hlevels htext (show 2 * text.length ≤ fuel by omega)
          (endsNumber_layout trail htrail (.inr (.inr rfl)) rest)
      have hclose : skipSpace (trail ++ '\x7d' :: rest) = '\x7d' :: rest := by
        rw [skipSpace_append htrail, skipSpace_cons (by decide)]
      refine ⟨[(pieces, shape)], ?_, by simp [memberValues?, hkey, hvalue]⟩
      simp [scanMembers, htextEq, hquote, hpieces, hcolon, hscan, hclose]
    | cons next texts =>
      rw [List.intercalate_cons_cons] at hfuel ⊢
      simp only [List.length_append, List.length_cons] at hfuel
      have hend : EndsNumber (',' :: (sep ++ ((',' :: sep).intercalate (next :: texts) ++
          (trail ++ '\x7d' :: rest)))) :=
        endsNumber_layout [] (by simp) (.inl rfl) _
      obtain ⟨afterQuote, pieces, value, shape, htextEq, hpieces, hscan, hkey, hvalue⟩ :=
        scan_member hgap hlevels htext (show 2 * text.length ≤ fuel by omega) hend
      obtain ⟨fuel, rfl⟩ := Nat.exists_eq_add_of_le' (show 1 ≤ fuel by omega)
      obtain ⟨shapes, hscans, hvalues⟩ := ih (by simp) fuel (by omega)
      refine ⟨(pieces, shape) :: shapes, ?_, by simp [memberValues?, hkey, hvalue, hvalues]⟩
      rw [scanMembers]
      simp only [List.append_assoc, List.cons_append, htextEq, hquote, hpieces, hcolon, hscan,
        Option.bind_some, skipSpace_cons (c := ',') (by decide), scanMembers_layout hsep, hscans]
      rfl

theorem Shape.scan_items {fuel : Nat} {cs rest : List Char} {shapes : List Shape}
    (hlevels : levels ≠ 0) (h : scanItems fuel (levels - 1) cs = some (shapes, rest)) :
    scan (fuel + 1) levels ('[' :: cs) = some (.array shapes, rest) := by
  have hclose : ∀ cs, scanItems fuel (levels - 1) (']' :: cs) = none := by
    intro cs
    rcases fuel with _ | _ | fuel <;> rfl
  rw [← scanItems_skipSpace] at h
  simp only [scan, skipSpace_cons (c := '[') (by decide), if_neg hlevels]
  split
  · next heq =>
      rw [heq, hclose] at h
      cases h
  · rw [h]
    rfl

theorem Shape.scan_members {fuel : Nat} {cs rest : List Char} {shapes : List (List Piece × Shape)}
    (hlevels : levels ≠ 0) (h : scanMembers fuel (levels - 1) cs = some (shapes, rest)) :
    scan (fuel + 1) levels ('\x7b' :: cs) = some (.object shapes, rest) := by
  have hclose : ∀ cs, scanMembers fuel (levels - 1) ('\x7d' :: cs) = none := by
    intro cs
    cases fuel <;> rfl
  rw [← scanMembers_skipSpace] at h
  simp only [scan, skipSpace_cons (c := '\x7b') (by decide), if_neg hlevels]
  split
  · next heq =>
      rw [heq, hclose] at h
      cases h
  · rw [h]
    rfl

variable (lead sep trail)

/-- Brackets around texts that spell the items spell an array. -/
theorem Spells.array (hlead : ∀ c ∈ lead, isSpace c = true) (hsep : ∀ c ∈ sep, isSpace c = true)
    (htrail : ∀ c ∈ trail, isSpace c = true) {texts : List (List Char)} {jsons : List Json}
    (h : List.Forall₂ (Spells depth) texts jsons) :
    Spells (depth + 1) ('[' :: (lead ++ ((',' :: sep).intercalate texts ++ (trail ++ [']']))))
      (.array jsons) := by
  intro fuel levels rest hfuel hlevels _
  simp only [List.length_cons, List.length_append] at hfuel
  obtain ⟨fuel, rfl⟩ := Nat.exists_eq_add_of_le' (show 1 ≤ fuel by omega)
  simp only [List.cons_append, List.append_assoc, List.nil_append]
  by_cases hne : texts = []
  · subst hne
    cases h
    refine ⟨.array [], ?_, by simp [Shape.value?, Shape.values?]⟩
    simp [Shape.scan, skipSpace_cons (c := '[') (by decide), skipSpace_append hlead,
      skipSpace_append htrail, skipSpace_cons (c := ']') (by decide), show levels ≠ 0 by omega]
  · obtain ⟨shapes, hscan, hvalues⟩ := Shape.scanItems_spelled (show depth ≤ levels - 1 by omega)
      hsep htrail rest h hne (show _ < fuel by omega)
    rw [← Shape.scanItems_layout hlead] at hscan
    exact ⟨.array shapes, Shape.scan_items (by omega) hscan, by simp [Shape.value?, hvalues]⟩

/-- Braces around members spell an object. -/
theorem Spells.object {gap : List Char} (hgap : ∀ c ∈ gap, isSpace c = true)
    (hlead : ∀ c ∈ lead, isSpace c = true) (hsep : ∀ c ∈ sep, isSpace c = true)
    (htrail : ∀ c ∈ trail, isSpace c = true) {texts : List (List Char)}
    {members : List (String × Json)} (h : List.Forall₂ (SpellsMember depth gap) texts members) :
    Spells (depth + 1)
      ('\x7b' :: (lead ++ ((',' :: sep).intercalate texts ++ (trail ++ ['\x7d'])))) (.object members) := by
  intro fuel levels rest hfuel hlevels _
  simp only [List.length_cons, List.length_append] at hfuel
  obtain ⟨fuel, rfl⟩ := Nat.exists_eq_add_of_le' (show 1 ≤ fuel by omega)
  simp only [List.cons_append, List.append_assoc, List.nil_append]
  by_cases hne : texts = []
  · subst hne
    cases h
    refine ⟨.object [], ?_, by simp [Shape.value?, Shape.memberValues?]⟩
    simp [Shape.scan, skipSpace_cons (c := '\x7b') (by decide), skipSpace_append hlead,
      skipSpace_append htrail, skipSpace_cons (c := '\x7d') (by decide), show levels ≠ 0 by omega]
  · obtain ⟨shapes, hscan, hvalues⟩ := Shape.scanMembers_spelled hgap
      (show depth ≤ levels - 1 by omega) hsep htrail rest h hne (show _ < fuel by omega)
    rw [← Shape.scanMembers_layout hlead] at hscan
    exact ⟨.object shapes, Shape.scan_members (by omega) hscan, by simp [Shape.value?, hvalues]⟩

end Brackets

/-! ## Written values -/

/-- A value with no more than `depth` levels of brackets, whose numbers are integers that fit. -/
inductive Plain : Nat → Json → Prop where
  | null (depth) : Plain depth .null
  | bool (depth) (value : Bool) : Plain depth (.bool value)
  | int (depth) {n : Int} (fits : Fits n) : Plain depth (.int n)
  | string (depth) (value : String) : Plain depth (.string value)
  | array {depth} {items : List Json} (plain : ∀ item ∈ items, Plain depth item) :
      Plain (depth + 1) (.array items)
  | object {depth} {members : List (String × Json)}
      (plain : ∀ member ∈ members, Plain depth member.2) : Plain (depth + 1) (.object members)

theorem renderItems_eq_map (items : List Json) : renderItems items = items.map render := by
  induction items with
  | nil => rfl
  | cons item items ih => rw [renderItems, ih, List.map_cons]

theorem renderMembers_eq_map (members : List (String × Json)) :
    renderMembers members =
      members.map fun member => renderString member.1 ++ ":" ++ member.2.render := by
  induction members with
  | nil => rfl
  | cons member members ih => rw [renderMembers, ih, List.map_cons]

theorem prettyItems_eq_map (level : Nat) (items : List Json) :
    prettyItems level items = items.map (renderPrettyAt level) := by
  induction items with
  | nil => rfl
  | cons item items ih => rw [prettyItems, ih, List.map_cons]

theorem prettyMembers_eq_map (level : Nat) (members : List (String × Json)) :
    prettyMembers level members =
      members.map fun member => renderString member.1 ++ ": " ++ member.2.renderPrettyAt level := by
  induction members with
  | nil => rfl
  | cons member members ih => rw [prettyMembers, ih, List.map_cons]

theorem Plain.spells_render {depth : Nat} {json : Json} (h : Plain depth json) :
    Spells depth json.render.toList json := by
  induction h with
  | null depth => exact spells_null depth
  | bool depth value => exact spells_bool depth value
  | int depth fits => exact Spells.int fits depth
  | string depth value => exact spells_string depth value
  | @array depth items _ ih =>
    have hitems : List.Forall₂ (Spells depth) ((renderItems items).map String.toList) items := by
      rw [renderItems_eq_map, List.map_map, List.forall₂_map_left_iff]
      exact List.forall₂_same.2 ih
    have harray := Spells.array [] [] [] (by simp) (by simp) (by simp) hitems
    simpa [render, String.toList_intercalate] using harray
  | @object depth members _ ih =>
    have hmembers : List.Forall₂ (SpellsMember depth [])
        ((renderMembers members).map String.toList) members := by
      rw [renderMembers_eq_map, List.map_map, List.forall₂_map_left_iff]
      refine List.forall₂_same.2 fun member hmember => ⟨_, ih member hmember, ?_⟩
      simp
    have hobject := Spells.object [] [] [] (by simp) (by simp) (by simp) (by simp) hmembers
    simpa [render, String.toList_intercalate] using hobject

theorem isSpace_newline (level : Nat) : ∀ c ∈ (newline level).toList, isSpace c = true := by
  intro c hc
  simp only [newline, String.toList_append, String.toList_ofList, List.mem_append,
    List.mem_replicate] at hc
  rcases hc with hc | ⟨-, rfl⟩
  · obtain rfl : c = '\n' := by simpa using hc
    decide
  · decide

theorem toList_renderBlock (level : Nat) (opening closing : String) {items : List String}
    (h : items ≠ []) :
    (renderBlock level opening closing items).toList =
      opening.toList ++ ((newline (level + 1)).toList ++
        ((',' :: (newline (level + 1)).toList).intercalate (items.map String.toList) ++
          ((newline level).toList ++ closing.toList))) := by
  have hempty : items.isEmpty = false := by simpa using h
  simp [renderBlock, hempty, String.toList_intercalate]

theorem Plain.spells_renderPrettyAt {depth : Nat} {json : Json} (h : Plain depth json)
    (level : Nat) : Spells depth (json.renderPrettyAt level).toList json := by
  induction h generalizing level with
  | null depth => exact spells_null depth
  | bool depth value => exact spells_bool depth value
  | int depth fits => exact Spells.int fits depth
  | string depth value => exact spells_string depth value
  | @array depth items _ ih =>
    have hitems : List.Forall₂ (Spells depth)
        ((prettyItems (level + 1) items).map String.toList) items := by
      rw [prettyItems_eq_map, List.map_map, List.forall₂_map_left_iff]
      exact List.forall₂_same.2 fun item hitem => ih item hitem (level + 1)
    rw [renderPrettyAt]
    by_cases hempty : prettyItems (level + 1) items = []
    · rw [hempty] at hitems ⊢
      simpa [renderBlock] using
        Spells.array [] [] [] (by simp) (by simp) (by simp) hitems
    · rw [toList_renderBlock level _ _ hempty]
      exact Spells.array _ _ _ (isSpace_newline _) (isSpace_newline _) (isSpace_newline _) hitems
  | @object depth members _ ih =>
    have hmembers : List.Forall₂ (SpellsMember depth [' '])
        ((prettyMembers (level + 1) members).map String.toList) members := by
      rw [prettyMembers_eq_map, List.map_map, List.forall₂_map_left_iff]
      refine List.forall₂_same.2 fun member hmember => ⟨_, ih member hmember (level + 1), ?_⟩
      simp
    have hgap : ∀ c ∈ [' '], isSpace c = true := by simp [isSpace]
    rw [renderPrettyAt]
    by_cases hempty : prettyMembers (level + 1) members = []
    · rw [hempty] at hmembers ⊢
      simpa [renderBlock] using
        Spells.object [] [] [] hgap (by simp) (by simp) (by simp) hmembers
    · rw [toList_renderBlock level _ _ hempty]
      exact Spells.object _ _ _ hgap (isSpace_newline _) (isSpace_newline _)
        (isSpace_newline _) hmembers

/-- A value within the limits of the reader is read back from both of its written forms. -/
theorem Plain.parse_render {json : Json} (h : Plain maxDepth json) :
    parse json.render = some json ∧ parse json.renderPretty = some json :=
  ⟨parse_of_spells h.spells_render, parse_of_spells (h.spells_renderPrettyAt 0)⟩

end RelQuery.Json
