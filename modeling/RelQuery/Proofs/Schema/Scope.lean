import RelQuery.Proofs.Schema.Predicate
import RelQuery.Schema.Scope

/-!
# Well-scoped scopes

In a well-scoped scope every parameter of a predicate is a scalar of the scope, and the atom of a
scalar mentions that scalar, the scalars on which it depends and no other variable.  Grounding and
declaring never fail in such a scope, and grounding binds all that it is asked to bind.
-/

namespace RelQuery

open Datalog (Decl Literal)

section Except

variable {ε α β : Type}

theorem except_bind_eq_ok {m : Except ε α} {f : α → Except ε β} {y : β} :
    (m >>= f) = .ok y ↔ ∃ x, m = .ok x ∧ f x = .ok y := by
  cases m <;> simp [bind, Except.bind]

theorem except_bind_eq_error {m : Except ε α} {f : α → Except ε β} {err : ε} :
    (m >>= f) = .error err ↔ m = .error err ∨ ∃ x, m = .ok x ∧ f x = .error err := by
  cases m <;> simp [bind, Except.bind]

theorem except_pure_eq_ok {x y : α} : (pure x : Except ε α) = .ok y ↔ x = y := by
  simp [pure, Except.pure]

end Except

/-! ## Lists of named entries -/

section Entries

variable {α : Type} {entries : List (String × α)} {key : String} {value : α}

theorem lookup_eq_none_iff_notMem :
    entries.lookup key = none ↔ key ∉ entries.map Prod.fst := by
  rw [List.lookup_eq_none_iff]
  constructor
  · intro hnone hmem
    obtain ⟨entry, hentry, rfl⟩ := List.mem_map.mp hmem
    simpa using hnone entry hentry
  · intro hnot entry hentry
    have hne : key ≠ entry.1 := by
      rintro rfl
      exact hnot (List.mem_map_of_mem hentry)
    simpa using hne

/-- When no name comes twice, an entry is found wherever it stands. -/
theorem lookup_eq_some_iff_mem (hdistinct : (entries.map Prod.fst).Nodup) :
    entries.lookup key = some value ↔ (key, value) ∈ entries := by
  induction entries with
  | nil => simp
  | cons entry rest ih =>
      obtain ⟨other, found⟩ := entry
      rw [List.map_cons, List.nodup_cons] at hdistinct
      rw [List.lookup_cons, List.mem_cons, Prod.mk.injEq]
      by_cases heq : key = other
      · subst heq
        have hnot : (key, value) ∉ rest := fun hmem =>
          hdistinct.1 (List.mem_map.mpr ⟨_, hmem, rfl⟩)
        simp [hnot, eq_comm]
      · have hbeq : (key == other) = false := by simpa using heq
        simp only [hbeq, heq, false_and, false_or]
        exact ih hdistinct.2

variable {keys : List String} {values : List α}

theorem lookup_zip_eq_none (hkey : key ∉ keys) : (keys.zip values).lookup key = none := by
  rw [lookup_eq_none_iff_notMem]
  intro hmem
  obtain ⟨entry, hentry, rfl⟩ := List.mem_map.mp hmem
  exact hkey (List.of_mem_zip hentry).1

theorem lookup_zip_eq_some (hdistinct : keys.Nodup) (hlength : keys.length = values.length)
    {k : Nat} (hkey : keys[k]? = some key) (hvalue : values[k]? = some value) :
    (keys.zip values).lookup key = some value := by
  have hnames : ((keys.zip values).map Prod.fst).Nodup := by
    rwa [List.map_fst_zip hlength.le]
  rw [lookup_eq_some_iff_mem hnames, List.mem_iff_getElem?]
  exact ⟨k, List.getElem?_zip_eq_some.mpr ⟨hkey, hvalue⟩⟩

/-- The function that has the given values at the given names and is `f` elsewhere. -/
def override (f : String → α) (keys : List String) (values : List α) : String → α :=
  fun key => ((keys.zip values).lookup key).getD (f key)

theorem override_of_notMem {f : String → α} (hkey : key ∉ keys) :
    override f keys values key = f key := by
  rw [override, lookup_zip_eq_none hkey, Option.getD_none]

theorem map_override {f : String → α} (hdistinct : keys.Nodup)
    (hlength : keys.length = values.length) : keys.map (override f keys values) = values := by
  apply List.ext_getElem (by rw [List.length_map, hlength])
  intro k hk hk'
  have hentry : (keys.zip values).lookup keys[k] = some values[k] :=
    lookup_zip_eq_some hdistinct hlength (List.getElem?_eq_getElem _)
      (List.getElem?_eq_getElem _)
  rw [List.getElem_map, override, hentry, Option.getD_some]

end Entries

namespace Scope

variable {scope : Scope} {name x : String} {binding : Binding} {s : ScalarBinding}
variable {p : Predicate}

/-- The name of a scalar of the scope. -/
def IsScalar (scope : Scope) (name : String) : Prop :=
  ∃ s, scope.lookup name = some (.scalar s)

theorem scalar?_eq_some_iff :
    scope.scalar? name = some s ↔ scope.lookup name = some (.scalar s) := by
  unfold scalar?
  cases scope.lookup name with
  | none => simp
  | some binding => cases binding <;> simp

theorem isBound_eq_false_iff : scope.isBound name = false ↔ scope.lookup name = none := by
  simp [isBound]

/-! ## Binding a name -/

theorem lookup_bind :
    (scope.bind name binding).lookup x = if x = name then some binding else scope.lookup x := by
  unfold lookup bind
  rw [List.lookup_cons]
  by_cases h : x = name
  · simp [h]
  · have hbeq : (x == name) = false := by simpa using h
    rw [hbeq, if_neg h]

theorem lookup_bind_of_bound (hfree : scope.lookup name = none) {other : Binding}
    (hx : scope.lookup x = some other) : (scope.bind name binding).lookup x = some other := by
  have hne : x ≠ name := by
    rintro rfl
    rw [hfree] at hx
    cases hx
  rw [lookup_bind, if_neg hne, hx]

theorem IsScalar.bind (hx : scope.IsScalar x) (hfree : scope.lookup name = none) :
    (scope.bind name binding).IsScalar x := by
  obtain ⟨s, hs⟩ := hx
  exact ⟨s, lookup_bind_of_bound hfree hs⟩

/-- A name bound to a predicate is no new scalar. -/
theorem isScalar_of_bind_relation (hx : (scope.bind name (.relation p)).IsScalar x) :
    scope.IsScalar x := by
  obtain ⟨s, hs⟩ := hx
  rw [lookup_bind] at hs
  split at hs
  · cases hs
  · exact ⟨s, hs⟩

/-! ## The invariant -/

/-- No name is bound twice, every parameter is a scalar of the scope, and the variables of the atom
of a scalar are those of the scalar and of its parameters. -/
structure WellScoped (scope : Scope) : Prop where
  distinct : (scope.frames.map Prod.fst).Nodup
  relation_params : ∀ {name p}, scope.lookup name = some (.relation p) →
    ∀ x ∈ p.params, scope.IsScalar x
  scalar_params : ∀ {name s}, scope.lookup name = some (.scalar s) →
    ∀ x ∈ s.params, scope.IsScalar x
  scalar_vars : ∀ {name s}, scope.lookup name = some (.scalar s) →
    ∀ v, v ∈ s.constraint.vars ↔ v ∈ (name :: s.params).map paramVar

theorem WellScoped.bind_relation (hscope : scope.WellScoped) (hfree : scope.lookup name = none)
    (hparams : ∀ x ∈ p.params, scope.IsScalar x) :
    (scope.bind name (.relation p)).WellScoped where
  distinct := by
    exact List.nodup_cons.mpr ⟨lookup_eq_none_iff_notMem.mp hfree, hscope.distinct⟩
  relation_params := by
    intro other q hother x hx
    rw [lookup_bind] at hother
    split at hother
    · cases hother
      exact (hparams x hx).bind hfree
    · exact (hscope.relation_params hother x hx).bind hfree
  scalar_params := by
    intro other s hother x hx
    rw [lookup_bind] at hother
    split at hother
    · cases hother
    · exact (hscope.scalar_params hother x hx).bind hfree
  scalar_vars := by
    intro other s hother
    rw [lookup_bind] at hother
    split at hother
    · cases hother
    · exact hscope.scalar_vars hother

theorem sublist_names {f : String × Binding → Option String}
    (hf : ∀ entry x, f entry = some x → x = entry.1) (entries : List (String × Binding)) :
    (entries.filterMap f).Sublist (entries.map Prod.fst) := by
  induction entries with
  | nil => exact .slnil
  | cons entry rest ih =>
      cases hentry : f entry with
      | none =>
          rw [List.filterMap_cons_none hentry]
          exact ih.cons _
      | some x =>
          rw [List.filterMap_cons_some hentry, hf entry x hentry]
          exact ih.cons_cons _

theorem WellScoped.nodup_scalarNames (hscope : scope.WellScoped) : scope.scalarNames.Nodup := by
  have hdistinct : (scope.bindings.map Prod.fst).Nodup := by
    rw [bindings, List.map_reverse]
    exact List.nodup_reverse.mpr hscope.distinct
  refine hdistinct.sublist (sublist_names ?_ _)
  rintro ⟨name, s | p⟩ x hx
  · cases hx
    rfl
  · cases hx

/-- The scalars that a scope lists are scalars of the scope. -/
theorem WellScoped.isScalar_of_mem (hscope : scope.WellScoped)
    (hx : x ∈ scope.scalarNames) : scope.IsScalar x := by
  obtain ⟨⟨y, binding⟩, hentry, hname⟩ := List.mem_filterMap.mp hx
  cases binding with
  | relation p => cases hname
  | scalar s =>
      cases hname
      have hmem : (x, Binding.scalar s) ∈ scope.frames := List.mem_reverse.mp hentry
      exact ⟨s, (lookup_eq_some_iff_mem hscope.distinct).mpr hmem⟩

/-! ## Grounding -/

theorem ground_cons_ok {rest bound : List String} {literals : List Literal}
    (h : scope.ground (name :: rest) bound = .ok literals) :
    name ∈ bound ∧ scope.ground rest bound = .ok literals ∨
      ∃ s others, scope.lookup name = some (.scalar s) ∧
        scope.ground rest (name :: s.params ++ bound) = .ok others ∧
        literals = .positive s.constraint :: others := by
  rw [ground] at h
  split at h
  · rename_i hmem
    exact .inl ⟨by simpa using hmem, h⟩
  · split at h
    · cases h
    · rename_i s hs
      simp only [except_bind_eq_ok, except_pure_eq_ok] at h
      obtain ⟨others, hothers, rfl⟩ := h
      exact .inr ⟨s, others, scalar?_eq_some_iff.mp hs, hothers, rfl⟩

/-- Every grounding literal is the atom of a scalar of the scope. -/
theorem mem_ground {params bound : List String} {literals : List Literal} {l : Literal}
    (h : scope.ground params bound = .ok literals) (hl : l ∈ literals) :
    ∃ x s, scope.lookup x = some (.scalar s) ∧ l = .positive s.constraint := by
  induction params generalizing bound literals with
  | nil =>
      cases h
      simp at hl
  | cons name rest ih =>
      rcases ground_cons_ok h with ⟨-, hrest⟩ | ⟨s, others, hs, hothers, rfl⟩
      · exact ih hrest hl
      · rcases List.mem_cons.mp hl with rfl | hl
        · exact ⟨name, s, hs, rfl⟩
        · exact ih hothers hl

/-- Grounding binds the variable of every parameter that is not bound already. -/
theorem WellScoped.ground_binds (hscope : scope.WellScoped) {params bound : List String}
    {literals : List Literal} (h : scope.ground params bound = .ok literals)
    (hx : x ∈ params) : x ∈ bound ∨ paramVar x ∈ literals.flatMap Literal.binds := by
  induction params generalizing bound literals with
  | nil => simp at hx
  | cons name rest ih =>
      rcases ground_cons_ok h with ⟨hbound, hrest⟩ | ⟨s, others, hs, hothers, rfl⟩
      · rcases List.mem_cons.mp hx with rfl | hx
        · exact .inl hbound
        · exact ih hrest hx
      · have hatom : ∀ y ∈ name :: s.params, paramVar y ∈
            (Literal.positive s.constraint :: others).flatMap Literal.binds := by
          intro y hy
          have hvar : paramVar y ∈ s.constraint.vars :=
            (hscope.scalar_vars hs _).mpr (List.mem_map_of_mem hy)
          simp [Literal.binds, hvar]
        rcases List.mem_cons.mp hx with rfl | hx
        · exact .inr (hatom x List.mem_cons_self)
        · rcases ih hothers hx with hmem | hmem
          · rcases List.mem_append.mp hmem with hown | hbound
            · exact .inr (hatom x hown)
            · exact .inl hbound
          · refine .inr ?_
            rw [List.flatMap_cons]
            exact List.mem_append_right _ hmem

theorem exists_ground {params : List String} (hparams : ∀ x ∈ params, scope.IsScalar x)
    (bound : List String) : ∃ literals, scope.ground params bound = .ok literals := by
  induction params generalizing bound with
  | nil => exact ⟨[], rfl⟩
  | cons name rest ih =>
      have hrest := fun x hx => hparams x (List.mem_cons_of_mem name hx)
      obtain ⟨s, hs⟩ := hparams name List.mem_cons_self
      rw [ground]
      split
      · exact ih hrest bound
      · obtain ⟨others, hothers⟩ := ih hrest (name :: s.params ++ bound)
        rw [scalar?_eq_some_iff.mpr hs]
        exact ⟨_, except_bind_eq_ok.mpr ⟨others, hothers, rfl⟩⟩

/-! ## Declaring -/

theorem exists_declare (hparams : ∀ x ∈ p.params, scope.IsScalar x)
    (choiceDomains : List (List String)) :
    ∃ d, scope.declare p choiceDomains = .ok d := by
  have htypes : ∀ params : List String, (∀ x ∈ params, scope.IsScalar x) →
      ∃ types, params.mapM (scope.paramType p.name) = .ok types := by
    intro params hall
    induction params with
    | nil => exact ⟨[], rfl⟩
    | cons name rest ih =>
        obtain ⟨s, hs⟩ := hall name List.mem_cons_self
        obtain ⟨types, htypes⟩ := ih fun x hx => hall x (List.mem_cons_of_mem name hx)
        have htype : scope.paramType p.name name = .ok s.type := by
          rw [paramType, scalar?_eq_some_iff.mpr hs]
        rw [List.mapM_cons, htype, htypes]
        exact ⟨_, rfl⟩
  obtain ⟨types, h⟩ := htypes p.params hparams
  exact ⟨_, except_bind_eq_ok.mpr ⟨types, h, rfl⟩⟩

theorem relation_of_declare {choiceDomains : List (List String)} {d : Decl}
    (h : scope.declare p choiceDomains = .ok d) : d.relation = p.name := by
  simp only [declare, except_bind_eq_ok, except_pure_eq_ok] at h
  obtain ⟨types, -, rfl⟩ := h
  rfl

/-- Every attribute of a declaration has the type of its column or of its scalar. -/
theorem types_of_declare {choiceDomains : List (List String)} {d : Decl}
    {scalarType : String → ColumnType}
    (hscalars : ∀ {x s}, scope.lookup x = some (.scalar s) → scalarType x = s.type)
    (h : scope.declare p choiceDomains = .ok d) :
    d.attributes.map (·.type) = p.types ++ p.params.map scalarType := by
  have hparams : ∀ {params : List String} {types : List ColumnType},
      params.mapM (scope.paramType p.name) = .ok types → types = params.map scalarType := by
    intro params
    induction params with
    | nil =>
        intro types htypes
        cases htypes
        rfl
    | cons x rest ih =>
        intro types htypes
        simp only [List.mapM_cons, except_bind_eq_ok, except_pure_eq_ok] at htypes
        obtain ⟨type, htype, others, hothers, rfl⟩ := htypes
        unfold paramType at htype
        split at htype
        · rename_i s hs
          cases htype
          rw [ih hothers, List.map_cons, hscalars (scalar?_eq_some_iff.mp hs)]
        · cases htype
  simp only [declare, except_bind_eq_ok, except_pure_eq_ok] at h
  obtain ⟨types, htypes, rfl⟩ := h
  have hlength : (p.types ++ types).length ≤ p.attributeNames.length := by
    simp [hparams htypes, Predicate.types, Predicate.attributeNames]
  rw [← hparams htypes, List.map_map]
  exact List.map_snd_zip hlength

/-! ## Scopes of inputs -/

/-- The entry that an input has in a scope. -/
def inputEntry (input : String × List ColumnType) : String × Binding :=
  (input.1, .relation (inputPredicate input.1 input.2))

theorem frames_of_foldlM_extend {inputs : List (String × List ColumnType)} {start : Scope}
    (hstart : (start.frames.map Prod.fst).Nodup)
    (h : inputs.foldlM (fun scope input =>
      scope.extend input.1 (.relation (inputPredicate input.1 input.2))) start = .ok scope) :
    scope.frames = (inputs.map inputEntry).reverse ++ start.frames ∧
      (scope.frames.map Prod.fst).Nodup := by
  induction inputs generalizing start with
  | nil =>
      cases h
      exact ⟨rfl, hstart⟩
  | cons input rest ih =>
      rw [List.foldlM_cons, except_bind_eq_ok] at h
      obtain ⟨next, hnext, hrest⟩ := h
      unfold extend at hnext
      split at hnext
      · cases hnext
      · rename_i hfree
        cases hnext
        have hnew : start.lookup input.1 = none := by
          rw [← isBound_eq_false_iff]
          simpa using hfree
        have hdistinct : (((start.bind input.1
            (.relation (inputPredicate input.1 input.2))).frames).map Prod.fst).Nodup :=
          List.nodup_cons.mpr ⟨lookup_eq_none_iff_notMem.mp hnew, hstart⟩
        obtain ⟨hframes, hnodup⟩ := ih hdistinct hrest
        refine ⟨?_, hnodup⟩
        rw [hframes, List.map_cons, List.reverse_cons, List.append_assoc]
        rfl

theorem frames_ofInputs {inputs : List (String × List ColumnType)}
    (h : ofInputs inputs = .ok scope) :
    scope.frames = (inputs.map inputEntry).reverse ∧ (scope.frames.map Prod.fst).Nodup := by
  have hempty : (empty.frames.map Prod.fst).Nodup := List.nodup_nil
  obtain ⟨hframes, hnodup⟩ := frames_of_foldlM_extend hempty h
  exact ⟨by simpa [empty] using hframes, hnodup⟩

/-- Inputs that make a scope have distinct names. -/
theorem names_nodup_of_ofInputs {inputs : List (String × List ColumnType)}
    (h : ofInputs inputs = .ok scope) : (inputs.map Prod.fst).Nodup := by
  obtain ⟨hframes, hnodup⟩ := frames_ofInputs h
  rw [hframes, List.map_reverse, List.nodup_reverse, List.map_map] at hnodup
  exact hnodup

/-- The scope of some inputs binds the input names to their predicates and nothing else. -/
theorem lookup_ofInputs {inputs : List (String × List ColumnType)}
    (h : ofInputs inputs = .ok scope) :
    scope.lookup name = some binding ↔
      ∃ types, (name, types) ∈ inputs ∧ binding = .relation (inputPredicate name types) := by
  obtain ⟨hframes, hnodup⟩ := frames_ofInputs h
  unfold lookup
  rw [lookup_eq_some_iff_mem hnodup, hframes, List.mem_reverse, List.mem_map]
  constructor
  · rintro ⟨⟨other, types⟩, hmem, heq⟩
    cases heq
    exact ⟨types, hmem, rfl⟩
  · rintro ⟨types, hmem, rfl⟩
    exact ⟨(name, types), hmem, rfl⟩

theorem wellScoped_ofInputs {inputs : List (String × List ColumnType)}
    (h : ofInputs inputs = .ok scope) : scope.WellScoped where
  distinct := (frames_ofInputs h).2
  relation_params := by
    intro name p hp x hx
    obtain ⟨types, -, heq⟩ := (lookup_ofInputs h).mp hp
    cases heq
    simp [inputPredicate] at hx
  scalar_params := by
    intro name s hs
    obtain ⟨types, -, heq⟩ := (lookup_ofInputs h).mp hs
    cases heq
  scalar_vars := by
    intro name s hs
    obtain ⟨types, -, heq⟩ := (lookup_ofInputs h).mp hs
    cases heq

end Scope

end RelQuery
