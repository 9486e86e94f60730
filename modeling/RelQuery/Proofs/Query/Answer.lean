import RelQuery.Proofs.Relation.NormalForm
import RelQuery.Query.Basic

/-!
# Answers of queries

The answer of a query is the raw relation that an engine gave, with every value converted to the
type of its column, in normal form.  It depends on the raw tuples as a set and on nothing else.
-/

namespace RelQuery

/-! ## Conversions -/

theorem Value.type_of_coerce {type : ColumnType} {value coerced : Value}
    (h : value.coerce type = some coerced) : coerced.type = type := by
  cases value <;> cases type
  case symbol.number s =>
    obtain ⟨n, -, rfl⟩ := Option.map_eq_some_iff.mp h
    rfl
  all_goals
    cases h
    rfl

theorem Value.coerce_type (value : Value) : value.coerce value.type = some value := by
  cases value <;> rfl

namespace Tuple

variable {types : List ColumnType} {tuple coerced other : Tuple}

/-- `Coerces types tuple coerced` says that `tuple` has one value for each type and becomes
`coerced` when each value is converted to its type. -/
def Coerces (types : List ColumnType) (tuple coerced : Tuple) : Prop :=
  tuple.length = types.length ∧ List.zipWith Value.coerce types tuple = coerced.map some

theorem Coerces.unique (h : Coerces types tuple coerced) (h' : Coerces types tuple other) :
    coerced = other :=
  List.map_injective_iff.mpr (Option.some_injective _) (h.2.symm.trans h'.2)

theorem coerces_cons {type : ColumnType} {value : Value} :
    Coerces (type :: types) (value :: tuple) coerced ↔
      ∃ first rest, value.coerce type = some first ∧ Coerces types tuple rest ∧
        coerced = first :: rest := by
  cases coerced with
  | nil => simp [Coerces]
  | cons first rest =>
      simp only [Coerces, List.length_cons, Nat.add_right_cancel_iff, List.zipWith_cons_cons,
        List.map_cons, List.cons.injEq]
      constructor
      · rintro ⟨hlength, hfirst, hrest⟩
        exact ⟨first, rest, hfirst, ⟨hlength, hrest⟩, rfl, rfl⟩
      · rintro ⟨_, _, hfirst, ⟨hlength, hrest⟩, rfl, rfl⟩
        exact ⟨hlength, hfirst, hrest⟩

theorem Coerces.types_eq (h : Coerces types tuple coerced) : coerced.map Value.type = types := by
  induction types generalizing tuple coerced with
  | nil =>
      have hnil : coerced = [] := by simpa using h.2.symm
      rw [hnil, List.map_nil]
  | cons type types ih =>
      cases tuple with
      | nil => simp [Coerces] at h
      | cons value tuple =>
          obtain ⟨first, rest, hfirst, hrest, rfl⟩ := coerces_cons.mp h
          rw [List.map_cons, Value.type_of_coerce hfirst, ih hrest]

theorem coerces_self (tuple : Tuple) : Coerces (tuple.map Value.type) tuple tuple := by
  induction tuple with
  | nil => simp [Coerces]
  | cons value tuple ih =>
      exact coerces_cons.mpr ⟨value, tuple, value.coerce_type, ih, rfl⟩

end Tuple

namespace Relation

variable {types : List ColumnType} {row column : Nat} {tuple coerced : Tuple} {r s : Relation}

theorem coerceValues_eq_ok_iff (hwidth : tuple.length = types.length) :
    coerceValues row column tuple types = .ok coerced ↔ tuple.Coerces types coerced := by
  induction tuple generalizing column types coerced with
  | nil =>
      obtain rfl : types = [] := List.length_eq_zero_iff.mp hwidth.symm
      cases coerced <;> simp [coerceValues, Tuple.Coerces]
  | cons value values ih =>
      cases types with
      | nil => simp at hwidth
      | cons type types =>
          have hrest : values.length = types.length := by simpa using hwidth
          rw [coerceValues, Tuple.coerces_cons]
          cases hvalue : value.coerce type with
          | none => simp
          | some first =>
              simp only [except_bind_eq_ok, except_pure_eq_ok, ih hrest, Option.some.injEq]
              constructor
              · rintro ⟨rest, hcoerces, rfl⟩
                exact ⟨first, rest, rfl, hcoerces, rfl⟩
              · rintro ⟨_, rest, rfl, hcoerces, rfl⟩
                exact ⟨rest, hcoerces, rfl⟩

theorem coerceTuple_eq_ok_iff :
    coerceTuple types row tuple = .ok coerced ↔ tuple.Coerces types coerced := by
  rw [coerceTuple, except_bind_eq_ok, checkWidth]
  by_cases hwidth : tuple.length = types.length
  · simp [hwidth, coerceValues_eq_ok_iff hwidth]
  · simp [hwidth, Tuple.Coerces]

theorem coerce_eq_ok_iff :
    r.coerce types = .ok s ↔
      s.types = types ∧ List.Forall₂ (Tuple.Coerces types) r.tuples s.tuples := by
  have hrows (tuples : List Tuple) :
      (r.tuples.zipIdx.mapM fun entry => coerceTuple types entry.2 entry.1) = .ok tuples ↔
        List.Forall₂ (Tuple.Coerces types) r.tuples tuples := by
    simp only [mapM_eq_ok_iff, coerceTuple_eq_ok_iff]
    conv_rhs => rw [← List.zipIdx_map_fst 0 r.tuples, List.forall₂_map_left_iff]
  simp only [coerce, except_bind_eq_ok, except_pure_eq_ok, hrows]
  constructor
  · rintro ⟨tuples, htuples, rfl⟩
    exact ⟨rfl, htuples⟩
  · rintro ⟨rfl, htuples⟩
    exact ⟨s.tuples, htuples, rfl⟩

/-- A tuple that some raw tuple becomes. -/
def CoercedTuple (raw : Relation) (types : List ColumnType) (tuple : Tuple) : Prop :=
  ∃ rawTuple ∈ raw.tuples, rawTuple.Coerces types tuple

theorem mem_of_coerce (h : r.coerce types = .ok s) :
    tuple ∈ s.tuples ↔ r.CoercedTuple types tuple := by
  obtain ⟨-, htuples⟩ := coerce_eq_ok_iff.mp h
  constructor
  · intro htuple
    exact exists_of_forall₂ htuples.flip htuple
  · rintro ⟨rawTuple, hmem, hcoerces⟩
    obtain ⟨other, hother, hcoerces'⟩ := exists_of_forall₂ htuples hmem
    rwa [hcoerces.unique hcoerces']

/-- A relation can be converted if each of its tuples can. -/
theorem exists_coerce (h : ∀ tuple ∈ r.tuples, ∃ coerced, tuple.Coerces types coerced) :
    ∃ s, r.coerce types = .ok s := by
  have hrows : ∃ tuples, List.Forall₂ (Tuple.Coerces types) r.tuples tuples := by
    generalize r.tuples = rows at h
    induction rows with
    | nil => exact ⟨[], .nil⟩
    | cons tuple rest ih =>
        obtain ⟨⟨coerced, hcoerced⟩, hrest⟩ := List.forall_mem_cons.mp h
        obtain ⟨tuples, htuples⟩ := ih hrest
        exact ⟨coerced :: tuples, .cons hcoerced htuples⟩
  obtain ⟨tuples, htuples⟩ := hrows
  exact ⟨⟨types, tuples⟩, coerce_eq_ok_iff.mpr ⟨rfl, htuples⟩⟩

end Relation

/-! ## Answers -/

namespace PreparedQuery

variable {query : PreparedQuery} {outputs : Relations} {raw answer : Relation}

theorem finish_eq_ok_iff (hraw : outputs.get? query.result.name = some raw) :
    query.finish outputs = .ok answer ↔
      ∃ coerced, raw.coerce query.resultTypes = .ok coerced ∧ coerced.normalize = answer := by
  simp only [finish, hraw]
  cases raw.coerce query.resultTypes <;> simp [Except.map, Except.mapError]

theorem exists_raw_of_finish (h : query.finish outputs = .ok answer) :
    ∃ raw, outputs.get? query.result.name = some raw := by
  cases hraw : outputs.get? query.result.name with
  | none => simp [finish, hraw] at h
  | some raw => exact ⟨raw, rfl⟩

/-- What an answer is: the converted raw tuples, in strictly increasing order. -/
structure Answers (query : PreparedQuery) (raw answer : Relation) : Prop where
  types : answer.types = query.resultTypes
  increasing : answer.tuples.Pairwise Tuple.Precedes
  tuples : ∀ tuple, tuple ∈ answer.tuples ↔ raw.CoercedTuple query.resultTypes tuple
  total : ∀ rawTuple ∈ raw.tuples, ∃ tuple, rawTuple.Coerces query.resultTypes tuple

theorem finish_eq_ok_iff_answers (hraw : outputs.get? query.result.name = some raw) :
    query.finish outputs = .ok answer ↔ query.Answers raw answer := by
  rw [finish_eq_ok_iff hraw]
  constructor
  · rintro ⟨coerced, hcoerced, rfl⟩
    obtain ⟨htypes, htuples⟩ := Relation.coerce_eq_ok_iff.mp hcoerced
    refine ⟨htypes, coerced.pairwise_normalize, fun tuple => ?_, fun rawTuple hmem => ?_⟩
    · rw [Relation.mem_normalize, Relation.mem_of_coerce hcoerced]
    · obtain ⟨tuple, -, hcoerces⟩ := exists_of_forall₂ htuples hmem
      exact ⟨tuple, hcoerces⟩
  · intro h
    obtain ⟨coerced, hcoerced⟩ := Relation.exists_coerce h.total
    refine ⟨coerced, hcoerced, Relation.normalize_eq_of_mem_iff h.increasing ?_ fun tuple => ?_⟩
    · rw [h.types]
      exact (Relation.coerce_eq_ok_iff.mp hcoerced).1
    · rw [Relation.mem_of_coerce hcoerced, h.tuples]

theorem Answers.valid (h : query.Answers raw answer) : answer.validate = .ok () := by
  rw [Relation.validate_eq_ok_iff]
  intro tuple htuple
  obtain ⟨rawTuple, -, hcoerces⟩ := (h.tuples tuple).mp htuple
  rw [hcoerces.types_eq, h.types]

/-- An answer depends on the raw tuples as a set. -/
theorem Answers.of_mem_iff (h : query.Answers raw answer) {other : Relation}
    (htuples : ∀ tuple, tuple ∈ other.tuples ↔ tuple ∈ raw.tuples) :
    query.Answers other answer where
  types := h.types
  increasing := h.increasing
  tuples := by
    intro tuple
    rw [h.tuples, Relation.CoercedTuple, Relation.CoercedTuple]
    simp only [htuples]
  total := fun rawTuple hmem => h.total rawTuple ((htuples rawTuple).mp hmem)

/-- An answer is the answer that it gives itself. -/
theorem Answers.self (h : query.Answers raw answer) : query.Answers answer answer := by
  have hself : ∀ tuple ∈ answer.tuples, tuple.Coerces query.resultTypes tuple := by
    intro tuple htuple
    have htypes := Relation.validate_eq_ok_iff.mp h.valid tuple htuple
    rw [h.types] at htypes
    rw [← htypes]
    exact tuple.coerces_self
  refine ⟨h.types, h.increasing, fun tuple => ?_, fun tuple htuple => ⟨tuple, hself tuple htuple⟩⟩
  constructor
  · exact fun htuple => ⟨tuple, htuple, hself tuple htuple⟩
  · rintro ⟨other, hother, hcoerces⟩
    rwa [← (hself other hother).unique hcoerces]

theorem Answers.eq_iff (h : query.Answers raw answer) {raw' answer' : Relation}
    (h' : query.Answers raw' answer') :
    answer = answer' ↔ ∀ tuple, raw.CoercedTuple query.resultTypes tuple ↔
      raw'.CoercedTuple query.resultTypes tuple := by
  constructor
  · rintro rfl tuple
    rw [← h.tuples, ← h'.tuples]
  · intro htuples
    have heq : answer.tuples = answer'.tuples :=
      h.increasing.eq_of_mem_iff h'.increasing fun tuple => by
        rw [h.tuples, h'.tuples, htuples]
    calc answer = ⟨answer.types, answer.tuples⟩ := rfl
      _ = ⟨answer'.types, answer'.tuples⟩ := by rw [heq, h.types, h'.types]

/-- An answer has the types of its query, is valid and lists the converted raw tuples in strictly
increasing order.  Whatever else an engine gives, the same answer comes of any raw relation with the
same tuples and of the answer itself, and two raw relations have one answer exactly if they have the
same converted tuples. -/
theorem finish_canonical (h : query.finish outputs = .ok answer) :
    ∃ raw, outputs.get? query.result.name = some raw ∧
      answer.types = query.resultTypes ∧ answer.validate = .ok () ∧
      answer.tuples.Pairwise Tuple.Precedes ∧
      (∀ rawTuple ∈ raw.tuples, ∃ tuple, rawTuple.Coerces query.resultTypes tuple) ∧
      (∀ tuple, tuple ∈ answer.tuples ↔ raw.CoercedTuple query.resultTypes tuple) ∧
      (∀ (outputs' : Relations) (raw' : Relation),
        outputs'.get? query.result.name = some raw' →
        (∀ tuple, tuple ∈ raw'.tuples ↔ tuple ∈ raw.tuples) →
        query.finish outputs' = .ok answer) ∧
      (∀ outputs' : Relations, outputs'.get? query.result.name = some answer →
        query.finish outputs' = .ok answer) ∧
      ∀ (outputs' : Relations) (raw' answer' : Relation),
        outputs'.get? query.result.name = some raw' → query.finish outputs' = .ok answer' →
        (answer = answer' ↔ ∀ tuple, raw.CoercedTuple query.resultTypes tuple ↔
          raw'.CoercedTuple query.resultTypes tuple) := by
  obtain ⟨raw, hraw⟩ := exists_raw_of_finish h
  have hanswer := (finish_eq_ok_iff_answers hraw).mp h
  refine ⟨raw, hraw, hanswer.types, hanswer.valid, hanswer.increasing, hanswer.total,
    hanswer.tuples, ?_, ?_, ?_⟩
  · intro outputs' raw' hraw' htuples
    exact (finish_eq_ok_iff_answers hraw').mpr (hanswer.of_mem_iff htuples)
  · intro outputs' hraw'
    exact (finish_eq_ok_iff_answers hraw').mpr hanswer.self
  · intro outputs' raw' answer' hraw' h'
    exact hanswer.eq_iff ((finish_eq_ok_iff_answers hraw').mp h')

end PreparedQuery

namespace Sample

/-- A query for numbers with symbols. -/
def prepared : PreparedQuery :=
  ⟨"", ⟨"R1", [.named .number "n", .named .symbol "s"], []⟩⟩

/-- Two spellings of one tuple, and a tuple that comes before them. -/
def rawAnswer : Relation :=
  ⟨[.symbol], [[.symbol " 7", .number 3], [.symbol "-2", .symbol "é"], [.number 7, .symbol "3"]]⟩

def answer : Relation :=
  ⟨[.number, .symbol], [[.number (-2), .symbol "é"], [.number 7, .symbol "3"]]⟩

theorem finish_rawAnswer :
    prepared.finish (.ofList [("R1", rawAnswer), ("R2", .ofBool true)]) = .ok answer := by
  have hraw : NameMap.get? (.ofList [("R1", rawAnswer), ("R2", .ofBool true)])
      prepared.result.name = some rawAnswer := by decide +kernel
  have hcoerce : rawAnswer.coerce prepared.resultTypes = .ok ⟨[.number, .symbol],
      [[.number 7, .symbol "3"], [.number (-2), .symbol "é"], [.number 7, .symbol "3"]]⟩ := by
    decide +kernel
  have hincreasing : answer.tuples.Pairwise Tuple.Precedes := by decide +kernel
  refine (PreparedQuery.finish_eq_ok_iff hraw).mpr ⟨_, hcoerce, ?_⟩
  refine Relation.normalize_eq_of_mem_iff hincreasing rfl fun tuple => ?_
  simp only [answer, List.mem_cons, List.not_mem_nil, or_false]
  tauto

end Sample

/-- The answer of the sample is also that of an engine that gives back the answer. -/
theorem sample_finish_canonical :
    Sample.prepared.finish (.ofList [("R1", Sample.rawAnswer), ("R2", .ofBool true)]) =
        .ok Sample.answer ∧
      Sample.answer.validate = .ok () ∧
      Sample.prepared.finish (.single "R1" Sample.answer) = .ok Sample.answer := by
  obtain ⟨raw, -, -, hvalid, -, -, -, -, hagain, -⟩ :=
    PreparedQuery.finish_canonical Sample.finish_rawAnswer
  exact ⟨Sample.finish_rawAnswer, hvalid, hagain _ rfl⟩

end RelQuery
