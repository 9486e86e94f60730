import RelQuery.Proofs.Relation.BareTuples

/-!
# Written relations are read back

A relation is written as an object with its types and its tuples.  Every text of that object is read
as the typed form, never as bare tuples, so it gives the relation back if the relation is valid, and
the fault of the first tuple that does not fit if it is not.
-/

namespace RelQuery

namespace Json

variable {r : Relation}

theorem toColumnTypes?_names (types : List ColumnType) :
    (array (types.map fun type => string type.render)).toColumnTypes? = some types := by
  have hrow : array (types.map fun type => string type.render) =
      array ((typeRow types).map ofValue) := by
    rw [typeRow, List.map_map]
    rfl
  rw [hrow]
  exact toColumnTypes?_ofValues_eq_some_iff.mpr rfl

theorem toTypedRelation?_ofRelation (h : ∀ tuple ∈ r.tuples, ∀ value ∈ tuple, value.Fits) :
    (ofRelation r).toTypedRelation? = some r := by
  have htyped : (ofRelation r).toTypedRelation? = typedRelation?
      (array (r.types.map fun type => string type.render)) (ofTuples r.tuples) := rfl
  simp [htyped, typedRelation?, toColumnTypes?_names, toTuples?_ofTuples h]

/-- A relation takes three levels of brackets. -/
theorem plain_ofRelation (h : ∀ tuple ∈ r.tuples, ∀ value ∈ tuple, value.Fits) :
    Plain maxDepth (ofRelation r) := by
  have hnames : Plain (125 + 1) (array (r.types.map fun type => string type.render)) := by
    refine .array fun item hitem => ?_
    obtain ⟨type, -, rfl⟩ := List.mem_map.mp hitem
    exact .string 125 type.render
  have htuple : ∀ tuple ∈ r.tuples, Plain (124 + 1) (array (tuple.map ofValue)) := by
    intro tuple htuple
    refine .array fun item hitem => ?_
    obtain ⟨value, hvalue, rfl⟩ := List.mem_map.mp hitem
    exact plain_ofValue (h tuple htuple value hvalue) 124
  have htuples : Plain (125 + 1) (ofTuples r.tuples) := by
    refine .array fun item hitem => ?_
    obtain ⟨tuple, hmem, rfl⟩ := List.mem_map.mp hitem
    exact htuple tuple hmem
  have hobject : Plain (126 + 1) (ofRelation r) := by
    refine .object fun member hmember => ?_
    rcases List.mem_pair.mp hmember with rfl | rfl
    · exact hnames
    · exact htuples
  exact hobject

end Json

namespace Relation

variable {r : Relation}

/-- Reading an object with types and tuples checks the tuples and nothing else. -/
theorem ofJson_ofRelation (h : ∀ tuple ∈ r.tuples, ∀ value ∈ tuple, value.Fits) :
    ofJson (Json.ofRelation r) = (do r.validate; return r) := by
  simp only [ofJson, Json.toTypedRelation?_ofRelation h]

/-- A valid relation whose numbers fit 64 bits is read back from both of its written forms, and from
every other text of the same object. -/
theorem parseJson_ofRelation_eq_ok (r : Relation) (hvalid : r.validate = .ok ())
    (hfits : ∀ tuple ∈ r.tuples, ∀ value ∈ tuple, value.Fits) :
    parseJson (Json.ofRelation r).render = .ok r ∧
      parseJson (Json.ofRelation r).renderPretty = .ok r ∧
      ∀ text, Json.parse text = some (Json.ofRelation r) → parseJson text = .ok r := by
  have hread : ∀ text, Json.parse text = some (Json.ofRelation r) → parseJson text = .ok r := by
    intro text htext
    have hjson : parseJson text = ofJson (Json.ofRelation r) := by simp [parseJson, htext]
    rw [hjson, ofJson_ofRelation hfits, hvalid]
    rfl
  obtain ⟨hcompact, hpretty⟩ := (Json.plain_ofRelation hfits).parse_render
  exact ⟨hread _ hcompact, hread _ hpretty, hread⟩

namespace Sample

/-- The extreme numbers beside symbols of escapes, of a character beyond sixteen bits and of the
name of a type. -/
def extremes : Relation :=
  ⟨[.symbol, .number], [[.symbol "\x00\n\"\\😀", .number (-9223372036854775808)],
    [.symbol "number", .number 9223372036854775807], [.symbol "", .number 0]]⟩

end Sample

/-- A relation of two columns and the two relations without columns. -/
theorem sample_parseJson_ofRelation :
    parseJson (Json.ofRelation Sample.extremes).renderPretty = .ok Sample.extremes ∧
      parseJson (Json.ofRelation (ofBool true)).render = .ok (ofBool true) ∧
      parseJson (Json.ofRelation (ofBool false)).render = .ok (ofBool false) := by
  have hextremes := parseJson_ofRelation_eq_ok Sample.extremes (by decide)
    (by simp only [Sample.extremes, List.mem_cons, List.not_mem_nil, or_false, forall_eq_or_imp,
          forall_eq, Value.Fits]; decide)
  have htrue := parseJson_ofRelation_eq_ok (ofBool true) (by decide) (by simp [ofBool])
  have hfalse := parseJson_ofRelation_eq_ok (ofBool false) (by decide) (by simp [ofBool])
  exact ⟨hextremes.2.1, htrue.1, hfalse.1⟩

end Relation

end RelQuery
