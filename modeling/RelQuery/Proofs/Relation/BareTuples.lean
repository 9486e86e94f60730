import Mathlib.Tactic
import RelQuery.Proofs.Json.RoundTrip
import RelQuery.Proofs.Relation.Validation
import RelQuery.Relation.Json

/-!
# Arrays of tuples

An array of tuples is read as the relation that is inferred from them, unless it can also be read as
the pair of the types and the tuples of a relation: then it has two items, the first of them names
types, and the second is empty.
-/

namespace RelQuery

/-- A value that a column can hold. -/
def Value.Fits : Value → Prop
  | .number n => Text.fitsSigned 64 n = true
  | .symbol _ => True

/-- The tuple of the names of the types. -/
def typeRow (types : List ColumnType) : Tuple :=
  types.map fun type => .symbol type.render

theorem ColumnType.ofName?_eq_some_iff {name : String} {type : ColumnType} :
    ofName? name = some type ↔ name = type.render := by
  constructor
  · intro h
    have hrender := List.find?_some h
    exact (beq_iff_eq.mp hrender).symm
  · rintro rfl
    cases type <;> decide

namespace Json

/-- Tuples as an array of arrays. -/
def ofTuples (tuples : List Tuple) : Json :=
  .array (tuples.map fun tuple => .array (tuple.map ofValue))

theorem toValue?_ofValue {value : Value} (h : value.Fits) : (ofValue value).toValue? = some value := by
  cases value with
  | number n =>
    have hfits : Text.fitsSigned 64 n = true := h
    simp [ofValue, toValue?, hfits]
  | symbol s => rfl

theorem toTuple?_ofValues {tuple : Tuple} (h : ∀ value ∈ tuple, value.Fits) :
    (array (tuple.map ofValue)).toTuple? = some tuple := by
  rw [toTuple?, mapM_eq_some_iff, List.forall₂_map_left_iff]
  exact List.forall₂_same.2 fun value hvalue => toValue?_ofValue (h value hvalue)

theorem toTuples?_ofTuples {tuples : List Tuple} (h : ∀ tuple ∈ tuples, ∀ value ∈ tuple, value.Fits) :
    (ofTuples tuples).toTuples? = some tuples := by
  rw [ofTuples, toTuples?, mapM_eq_some_iff, List.forall₂_map_left_iff]
  exact List.forall₂_same.2 fun tuple htuple => toTuple?_ofValues (h tuple htuple)

theorem toColumnType?_ofValue_eq_some_iff {value : Value} {type : ColumnType} :
    (ofValue value).toColumnType? = some type ↔ value = .symbol type.render := by
  cases value with
  | number n => simp [ofValue, toColumnType?]
  | symbol s =>
    rw [ofValue, toColumnType?, ColumnType.ofName?_eq_some_iff]
    exact ⟨congrArg Value.symbol, Value.symbol.inj⟩

theorem toColumnTypes?_ofValues_eq_some_iff {tuple : Tuple} {types : List ColumnType} :
    (array (tuple.map ofValue)).toColumnTypes? = some types ↔ tuple = typeRow types := by
  rw [toColumnTypes?, mapM_eq_some_iff, List.forall₂_map_left_iff]
  simp only [toColumnType?_ofValue_eq_some_iff]
  rw [← List.forall₂_map_right_iff (f := fun type : ColumnType => Value.symbol type.render),
    List.forall₂_eq_eq_eq]
  rfl

/-- No value of a tuple can be read as a tuple. -/
theorem toTuples?_ofValues_eq_some_iff {tuple : Tuple} {tuples : List Tuple} :
    (array (tuple.map ofValue)).toTuples? = some tuples ↔ tuple = [] ∧ tuples = [] := by
  have hvalue : ∀ value, (ofValue value).toTuple? = none := by
    intro value
    cases value <;> rfl
  rw [toTuples?, mapM_eq_some_iff, List.forall₂_map_left_iff]
  cases tuple with
  | nil => simp
  | cons value values => simp [List.forall₂_cons_left_iff, hvalue]

theorem toTypedRelation?_ofTuples_eq_some_iff {tuples : List Tuple} {r : Relation} :
    (ofTuples tuples).toTypedRelation? = some r ↔
      ∃ types, tuples = [typeRow types, []] ∧ r = ⟨types, []⟩ := by
  match tuples with
  | [] => simp [ofTuples, toTypedRelation?]
  | [_] => simp [ofTuples, toTypedRelation?]
  | first :: second :: third :: rest => simp [ofTuples, toTypedRelation?]
  | [first, second] =>
    simp only [ofTuples, List.map_cons, List.map_nil, toTypedRelation?, typedRelation?,
      Option.bind_eq_bind, Option.bind_eq_some_iff, Option.pure_def, Option.some.injEq,
      toColumnTypes?_ofValues_eq_some_iff, toTuples?_ofValues_eq_some_iff]
    constructor
    · rintro ⟨types, rfl, found, ⟨rfl, rfl⟩, rfl⟩
      exact ⟨types, rfl, rfl⟩
    · rintro ⟨types, htuples, rfl⟩
      obtain ⟨rfl, rfl⟩ : first = typeRow types ∧ second = [] := by simpa using htuples
      exact ⟨types, rfl, [], ⟨rfl, rfl⟩, rfl⟩

theorem fits_of_fitsSigned {n : Int} (h : Text.fitsSigned 64 n = true) : Fits n := by
  have hword : Text.wordCount (64 - 1) = 2 ^ 63 := by decide
  simp only [Text.fitsSigned, hword, Bool.and_eq_true, decide_eq_true_eq] at h
  unfold Fits
  omega

theorem plain_ofValue {value : Value} (h : value.Fits) (depth : Nat) :
    Plain depth (ofValue value) := by
  cases value with
  | number n => exact .int depth (fits_of_fitsSigned h)
  | symbol s => exact .string depth s

theorem plain_ofTuples {tuples : List Tuple} (h : ∀ tuple ∈ tuples, ∀ value ∈ tuple, value.Fits) :
    Plain maxDepth (ofTuples tuples) := by
  have htuple : ∀ tuple ∈ tuples, Plain (125 + 1) (array (tuple.map ofValue)) := by
    intro tuple htuple
    refine .array fun item hitem => ?_
    obtain ⟨value, hvalue, rfl⟩ := List.mem_map.mp hitem
    exact plain_ofValue (h tuple htuple value hvalue) 125
  have htuples : Plain (126 + 1) (ofTuples tuples) := by
    refine .array fun item hitem => ?_
    obtain ⟨tuple, hmem, rfl⟩ := List.mem_map.mp hitem
    exact htuple tuple hmem
  exact htuples

end Json

namespace Relation

theorem tuples_of_infer_eq_ok {tuples : List Tuple} {r : Relation} (h : infer tuples = .ok r) :
    r.tuples = tuples := by
  cases tuples with
  | nil => cases h
  | cons first rest =>
    simp only [infer, make, except_bind_eq_ok, except_pure_eq_ok] at h
    obtain ⟨-, -, rfl⟩ := h
    rfl

theorem ofJson_ofTuples {tuples : List Tuple} (h : ∀ tuple ∈ tuples, ∀ value ∈ tuple, value.Fits)
    (hbare : ∀ types, tuples ≠ [typeRow types, []]) :
    ofJson (Json.ofTuples tuples) = infer tuples := by
  have htyped : (Json.ofTuples tuples).toTypedRelation? = none := by
    refine Option.eq_none_iff_forall_ne_some.mpr fun r hr => ?_
    obtain ⟨types, htuples, -⟩ := Json.toTypedRelation?_ofTuples_eq_some_iff.mp hr
    exact hbare types htuples
  simp [ofJson, htyped, Json.toTuples?_ofTuples h]

theorem ofJson_typeRow (types : List ColumnType) :
    ofJson (Json.ofTuples [typeRow types, []]) = .ok ⟨types, []⟩ := by
  have htyped : (Json.ofTuples [typeRow types, []]).toTypedRelation? = some ⟨types, []⟩ :=
    Json.toTypedRelation?_ofTuples_eq_some_iff.mpr ⟨types, rfl, rfl⟩
  have hvalid : validate ⟨types, []⟩ = .ok () := validate_eq_ok_iff.mpr (by simp)
  simp only [ofJson, htyped, hvalid]
  rfl

/-- Tuples are read as the relation that is inferred from them, however their array is written,
exactly if they are not the names of types followed by an empty tuple; and both written forms of the
array are read as this array. -/
theorem parseJson_eq_infer_iff (tuples : List Tuple)
    (hfits : ∀ tuple ∈ tuples, ∀ value ∈ tuple, value.Fits) :
    (∀ text, Json.parse text = some (Json.ofTuples tuples) →
      (parseJson text = infer tuples ↔ ∀ types, tuples ≠ [typeRow types, []])) ∧
    Json.parse (Json.ofTuples tuples).render = some (Json.ofTuples tuples) ∧
    Json.parse (Json.ofTuples tuples).renderPretty = some (Json.ofTuples tuples) := by
  refine ⟨fun text htext => ?_, (Json.plain_ofTuples hfits).parse_render⟩
  have hparse : parseJson text = ofJson (Json.ofTuples tuples) := by
    simp [parseJson, htext]
  rw [hparse]
  constructor
  · rintro hinfer types rfl
    rw [ofJson_typeRow] at hinfer
    have htuples := tuples_of_infer_eq_ok hinfer.symm
    simp at htuples
  · exact ofJson_ofTuples hfits

/-- A pair of tuples whose first tuple names a type is read as bare tuples if the second has values. -/
theorem sample_parseJson_eq_infer :
    parseJson (Json.ofTuples [[.symbol "number", .number (-9223372036854775808)],
      [.symbol "\u0001\"é", .number 9223372036854775807]]).renderPretty =
    infer [[.symbol "number", .number (-9223372036854775808)],
      [.symbol "\u0001\"é", .number 9223372036854775807]] := by
  obtain ⟨hiff, -, hpretty⟩ := parseJson_eq_infer_iff
    [[.symbol "number", .number (-9223372036854775808)],
      [.symbol "\u0001\"é", .number 9223372036854775807]]
    (by simp only [List.mem_cons, List.not_mem_nil, or_false, forall_eq_or_imp, forall_eq,
          Value.Fits]; decide)
  exact (hiff _ hpretty).mpr (by simp)

/-- Two empty tuples are read as no tuples. -/
theorem parseJson_two_empty_tuples :
    Json.parse "[[],[]]" = some (Json.ofTuples [[], []]) ∧
      parseJson "[[],[]]" = .ok ⟨[], []⟩ ∧ infer [[], []] = .ok ⟨[], [[], []]⟩ := by
  refine ⟨by rfl, by rfl, by rfl⟩

end Relation

end RelQuery
