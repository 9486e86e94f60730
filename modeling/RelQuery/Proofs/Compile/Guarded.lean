import RelQuery.Proofs.Compile.Derivation

/-!
# Compiling with guarded accesses

Emissions take apart lists of columns and of variables: the last column, all columns but the first,
the variables at some places.  Here each such access is guarded, so that one outside its list stops
the run.  The guarded compiler makes the accesses at fixed places and by lengths and offsets, without
the functions on lists that are defined for all lists.

The checks of an operator come before its accesses and make them valid, in every scope and for every
supply of names.  So the guarded compiler never stops and does what the compiler does.
-/

namespace RelQuery.Compile

open Datalog (Command Term)

/-! ## Accesses -/

section Accesses

variable {α : Type} {xs : List α}

def elementAt (xs : List α) (k : Nat) : Option α :=
  xs[k]?

def piece (xs : List α) (start stop : Nat) : Option (List α) :=
  if start ≤ stop ∧ stop ≤ xs.length then some ((xs.take stop).drop start) else none

def replaceAt (xs : List α) (k : Nat) (x : α) : Option (List α) :=
  if k < xs.length then some (xs.set k x) else none

def placeBefore (n : Nat) : Option Nat :=
  if 0 < n then some (n - 1) else none

def allButLast (xs : List α) : Option (List α) := do
  piece xs 0 (← placeBefore xs.length)

def allButFirst (xs : List α) : Option (List α) :=
  piece xs 1 xs.length

theorem piece_eq_some {start stop : Nat} (hstart : start ≤ stop) (hstop : stop ≤ xs.length) :
    piece xs start stop = some ((xs.take stop).drop start) :=
  if_pos ⟨hstart, hstop⟩

theorem piece_start {stop : Nat} (hstop : stop ≤ xs.length) :
    piece xs 0 stop = some (xs.take stop) :=
  piece_eq_some (Nat.zero_le _) hstop

theorem piece_end {start : Nat} (hstart : start ≤ xs.length) :
    piece xs start xs.length = some (xs.drop start) := by
  rw [piece_eq_some hstart (Nat.le_refl _), List.take_length]

theorem placeBefore_eq_some {n : Nat} (h : n ≠ 0) : placeBefore n = some (n - 1) :=
  if_pos (Nat.pos_of_ne_zero h)

theorem allButLast_eq_some (h : xs.length ≠ 0) : allButLast xs = some xs.dropLast := by
  have hlength : xs.length - 1 ≤ xs.length := Nat.sub_le ..
  rw [allButLast, placeBefore_eq_some h]
  change piece xs 0 (xs.length - 1) = _
  rw [piece_start hlength, List.dropLast_eq_take]

theorem allButFirst_eq_some (h : xs.length ≠ 0) : allButFirst xs = some xs.tail := by
  rw [allButFirst, piece_end (Nat.pos_of_ne_zero h), List.drop_one]

end Accesses

/-! ## Guarded runs -/

/-- Computations that use fresh names, may fail and stop at an access outside a list. -/
abbrev Guarded (ε : Type) : Type → Type :=
  StateT FreshNames (ExceptT ε Option)

section Runs

variable {ε α β : Type}

def unguarded (m : StateT FreshNames (Except ε) α) : Guarded ε α := fun names =>
  some (m names)

def access (x : Option α) : Guarded ε α := fun names =>
  x.map fun x => .ok (x, names)

/-- The guarded run does not stop and does what the other run does. -/
def Mirrors (m : Guarded ε α) (f : StateT FreshNames (Except ε) α) (names : FreshNames) : Prop :=
  m names = some (f names)

variable {m : Guarded ε α} {f : StateT FreshNames (Except ε) α} {names : FreshNames}

theorem mirrors_unguarded (f : StateT FreshNames (Except ε) α) (names : FreshNames) :
    Mirrors (unguarded f) f names :=
  rfl

theorem Mirrors.bind {next : α → Guarded ε β} {rest : α → StateT FreshNames (Except ε) β}
    (h : Mirrors m f names)
    (hnext : ∀ {x mid}, f names = .ok (x, mid) → Mirrors (next x) (rest x) mid) :
    Mirrors (m >>= next) (f >>= rest) names := by
  unfold Mirrors at h hnext ⊢
  have hguarded : (m >>= next) names = Option.bind (m names) fun
      | .ok (x, mid) => next x mid
      | .error err => some (.error err) := by
    change Option.bind (m names) _ = Option.bind (m names) _
    congr 1
    funext result
    cases result <;> rfl
  rw [hguarded, h]
  cases hrun : f names with
  | error err =>
      rw [bind_of_error hrun]
      rfl
  | ok result =>
      rw [bind_of_ok hrun]
      exact hnext hrun

theorem mirrors_access {x : α} {y : Option α} {next : α → Guarded ε β}
    {f : StateT FreshNames (Except ε) β} (hx : y = some x) (h : Mirrors (next x) f names) :
    Mirrors (access y >>= next) f names := by
  subst hx
  exact h

theorem mirrors_pure {x y : α} (h : x = y) :
    Mirrors (pure x : Guarded ε α) (pure y) names := by
  rw [h]
  rfl

end Runs

def checked {α : Type} (m : Except Cause α) : Guarded Cause α :=
  unguarded (liftM m)

/-! ## Joins, applications and restrictions -/

variable {a b : Predicate} {names mid : FreshNames}

/-- A run goes on with fresh variables, one for each column. -/
theorem Mirrors.freshVars {β : Type} {columns : List Column} {next : List String → Guarded Cause β}
    {rest : List String → Emit β}
    (hnext : ∀ {vars mid}, vars.length = columns.length → Mirrors (next vars) (rest vars) mid) :
    Mirrors (unguarded (Compile.freshVars columns) >>= next)
      (Compile.freshVars columns >>= rest) names := by
  refine Mirrors.bind (mirrors_unguarded _ _) ?_
  intro vars mid hvars
  exact hnext (freshVars_ok hvars).2

/-- A run goes on after a check has passed. -/
theorem Mirrors.check {α β : Type} {m : Except Cause α} {next : α → Guarded Cause β}
    {rest : α → Emit β}
    (hnext : ∀ {x mid}, m = .ok x → Mirrors (next x) (rest x) mid) :
    Mirrors (checked m >>= next) (liftM m >>= rest) names := by
  refine Mirrors.bind (mirrors_unguarded _ _) ?_
  intro x mid hcheck
  exact hnext (lift_eq_ok.mp hcheck).1

/-- A run goes on after a part that makes no access. -/
theorem Mirrors.fresh {α β : Type} {m : Emit α} {next : α → Guarded Cause β} {rest : α → Emit β}
    (hnext : ∀ {x mid}, Mirrors (next x) (rest x) mid) :
    Mirrors (unguarded m >>= next) (m >>= rest) names :=
  Mirrors.bind (mirrors_unguarded _ _) fun _ => hnext

theorem arity_ne_zero_of_ensureColumn {subject : String}
    (h : ensureColumn subject a = .ok ()) : a.columns.length ≠ 0 := by
  simpa [ensureColumn, ensure_eq_ok, Predicate.arity] using h

def guardedJoin (a b : Predicate) : Guarded Cause Emission := do
  checked (ensureColumn "Left-hand side of dot-join" a)
  checked (ensureColumn "Right-hand side of dot-join" b)
  match a.lastType?, b.firstType? with
  | some last, some first =>
    checked (ensureType "First column of right-hand side of dot-join" last first)
  | _, _ => pure ()
  let left ← unguarded (freshVars a.columns)
  let right ← unguarded (freshVars b.columns)
  let lastPlace ← access (placeBefore left.length)
  let middle ← access (elementAt left lastPlace)
  let right ← access (replaceAt right 0 middle)
  let columns ← access (allButLast a.columns)
  let columns' ← access (allButFirst b.columns)
  let name ← unguarded freshRelation
  let result : Predicate := ⟨name, columns ++ columns', mergeParams a.params b.params⟩
  let kept ← access (allButLast left)
  let kept' ← access (allButFirst right)
  return .single result "dot-join"
    [⟨result.atomOf (kept ++ kept'), [.positive (a.atomOf left), .positive (b.atomOf right)]⟩]

theorem mirrors_join (a b : Predicate) (names : FreshNames) :
    Mirrors (guardedJoin a b) (emitJoin a b) names := by
  refine Mirrors.check ?_
  intro _ _ hleft
  refine Mirrors.check ?_
  intro _ _ hright
  have ha := arity_ne_zero_of_ensureColumn hleft
  have hb := arity_ne_zero_of_ensureColumn hright
  obtain ⟨last, hlast⟩ := Predicate.exists_lastType ha
  obtain ⟨first, hfirst⟩ := Predicate.exists_firstType hb
  simp only [hlast, hfirst]
  refine Mirrors.check ?_
  intro _ _ _
  refine Mirrors.freshVars ?_
  intro left _ hleft
  refine Mirrors.freshVars ?_
  intro right _ hright
  have hleftNe : left ≠ [] := List.ne_nil_of_length_pos (by omega)
  have hrightNe : right ≠ [] := List.ne_nil_of_length_pos (by omega)
  obtain ⟨init, middle, rfl⟩ := (List.eq_nil_or_concat' left).resolve_left hleftNe
  obtain ⟨replaced, rest, rfl⟩ := List.exists_cons_of_ne_nil hrightNe
  refine mirrors_access (placeBefore_eq_some (by simp)) ?_
  refine mirrors_access (x := middle) (by simp [elementAt]) ?_
  refine mirrors_access (x := middle :: rest) (by simp [replaceAt]) ?_
  refine mirrors_access (allButLast_eq_some ha) ?_
  refine mirrors_access (allButFirst_eq_some hb) ?_
  refine Mirrors.fresh ?_
  intro name _
  refine mirrors_access (allButLast_eq_some (by simp)) ?_
  refine mirrors_access (allButFirst_eq_some (by simp)) ?_
  exact mirrors_pure (by simp)

def guardedDropLast (a : Predicate) : Guarded Cause Emission := do
  checked (ensureColumn "Left-hand side of dot-join" a)
  let kept ← access (allButLast a.columns)
  let vars ← unguarded (freshVars kept)
  let name ← unguarded freshRelation
  let result : Predicate := ⟨name, kept, a.params⟩
  return .single result "wildcard dot-join"
    [⟨result.atomOf vars, [.positive (a.atom (vars.map .var ++ [.wildcard]))]⟩]

theorem mirrors_dropLast (a : Predicate) (names : FreshNames) :
    Mirrors (guardedDropLast a) (emitDropLast a) names := by
  refine Mirrors.check ?_
  intro _ _ hcolumn
  refine mirrors_access (allButLast_eq_some (arity_ne_zero_of_ensureColumn hcolumn)) ?_
  exact mirrors_unguarded _ _

def guardedDropFirst (a : Predicate) : Guarded Cause Emission := do
  checked (ensureColumn "Operand of wildcard application" a)
  let kept ← access (allButFirst a.columns)
  let vars ← unguarded (freshVars kept)
  let name ← unguarded freshRelation
  let result : Predicate := ⟨name, kept, a.params⟩
  return .single result "wildcard application"
    [⟨result.atomOf vars, [.positive (a.atom (.wildcard :: vars.map .var))]⟩]

theorem mirrors_dropFirst (a : Predicate) (names : FreshNames) :
    Mirrors (guardedDropFirst a) (emitDropFirst a) names := by
  refine Mirrors.check ?_
  intro _ _ hcolumn
  refine mirrors_access (allButFirst_eq_some (arity_ne_zero_of_ensureColumn hcolumn)) ?_
  exact mirrors_unguarded _ _

def guardedStarts (start types : List ColumnType) : Option Bool :=
  if start.length ≤ types.length then do
    return (← piece types 0 start.length) == start
  else return false

def guardedEnds (ending types : List ColumnType) : Option Bool :=
  if ending.length ≤ types.length then do
    return (← piece types (types.length - ending.length) types.length) == ending
  else return false

theorem guardedStarts_eq_some (start types : List ColumnType) :
    guardedStarts start types = some (start.isPrefixOf types) := by
  unfold guardedStarts
  by_cases hlength : start.length ≤ types.length
  · rw [if_pos hlength, piece_start hlength]
    change some (types.take start.length == start) = _
    congr 1
    rw [Bool.eq_iff_iff, beq_iff_eq, List.isPrefixOf_iff_prefix, List.prefix_iff_eq_take, eq_comm]
  · have hnot : start.isPrefixOf types = false := by
      rw [← Bool.not_eq_true, List.isPrefixOf_iff_prefix]
      exact fun hstart => hlength hstart.length_le
    rw [if_neg hlength, hnot]
    rfl

theorem guardedEnds_eq_some (ending types : List ColumnType) :
    guardedEnds ending types = some (ending.isSuffixOf types) := by
  unfold guardedEnds
  by_cases hlength : ending.length ≤ types.length
  · rw [if_pos hlength, piece_end (Nat.sub_le ..)]
    change some (types.drop (types.length - ending.length) == ending) = _
    congr 1
    rw [Bool.eq_iff_iff, beq_iff_eq, List.isSuffixOf_iff_suffix, List.suffix_iff_eq_drop, eq_comm]
  · have hnot : ending.isSuffixOf types = false := by
      rw [← Bool.not_eq_true, List.isSuffixOf_iff_suffix]
      exact fun hend => hlength hend.length_le
    rw [if_neg hlength, hnot]
    rfl

def guardedApply (a b : Predicate) : Guarded Cause Emission := do
  let fits ← access (guardedStarts b.types a.types)
  checked (ensure fits (mismatch "application" "prefix-compatible" a b))
  let vars ← unguarded (freshVars a.columns)
  let name ← unguarded freshRelation
  let columns ← access (piece a.columns b.arity a.columns.length)
  let result : Predicate := ⟨name, columns, mergeParams a.params b.params⟩
  let kept ← access (piece vars b.arity vars.length)
  let matched ← access (piece vars 0 b.arity)
  return .single result "application"
    [⟨result.atomOf kept, [.positive (a.atomOf vars), .positive (b.atomOf matched)]⟩]

theorem mirrors_apply (a b : Predicate) (names : FreshNames) :
    Mirrors (guardedApply a b) (emitApply a b) names := by
  refine mirrors_access (guardedStarts_eq_some ..) ?_
  refine Mirrors.check ?_
  intro _ _ hstart
  rw [ensure_eq_ok, List.isPrefixOf_iff_prefix] at hstart
  have harity : b.arity ≤ a.columns.length := by
    simpa [Predicate.arity] using hstart.length_le
  refine Mirrors.freshVars ?_
  intro vars _ hvars
  refine Mirrors.fresh ?_
  intro name _
  refine mirrors_access (piece_end harity) ?_
  refine mirrors_access (piece_end (harity.trans hvars.ge)) ?_
  refine mirrors_access (piece_start (harity.trans hvars.ge)) ?_
  exact mirrors_pure rfl

def guardedDomainRestrict (a b : Predicate) : Guarded Cause Emission := do
  let fits ← access (guardedStarts a.types b.types)
  checked (ensure fits (mismatch "prefix join" "prefix-compatible" a b))
  let vars ← unguarded (freshVars b.columns)
  let name ← unguarded freshRelation
  let result : Predicate := ⟨name, b.columns, mergeParams a.params b.params⟩
  let matched ← access (piece vars 0 a.arity)
  return .single result "prefix join"
    [⟨result.atomOf vars, [.positive (b.atomOf vars), .positive (a.atomOf matched)]⟩]

theorem mirrors_domainRestrict (a b : Predicate) (names : FreshNames) :
    Mirrors (guardedDomainRestrict a b) (emitDomainRestrict a b) names := by
  refine mirrors_access (guardedStarts_eq_some ..) ?_
  refine Mirrors.check ?_
  intro _ _ hstart
  rw [ensure_eq_ok, List.isPrefixOf_iff_prefix] at hstart
  have harity : a.arity ≤ b.columns.length := by
    simpa [Predicate.arity] using hstart.length_le
  refine Mirrors.freshVars ?_
  intro vars _ hvars
  refine Mirrors.fresh ?_
  intro name _
  refine mirrors_access (piece_start (harity.trans hvars.ge)) ?_
  exact mirrors_pure rfl

def guardedRangeRestrict (a b : Predicate) : Guarded Cause Emission := do
  let fits ← access (guardedEnds b.types a.types)
  checked (ensure fits (mismatch "suffix join" "suffix-compatible" a b))
  let vars ← unguarded (freshVars a.columns)
  let name ← unguarded freshRelation
  let result : Predicate := ⟨name, a.columns, mergeParams a.params b.params⟩
  let offset := a.arity - b.arity
  let matched ← access (piece vars offset (offset + b.arity))
  return .single result "suffix join"
    [⟨result.atomOf vars, [.positive (a.atomOf vars), .positive (b.atomOf matched)]⟩]

theorem mirrors_rangeRestrict (a b : Predicate) (names : FreshNames) :
    Mirrors (guardedRangeRestrict a b) (emitRangeRestrict a b) names := by
  refine mirrors_access (guardedEnds_eq_some ..) ?_
  refine Mirrors.check ?_
  intro _ _ hend
  rw [ensure_eq_ok, List.isSuffixOf_iff_suffix] at hend
  have harity : b.arity ≤ a.arity := by simpa using hend.length_le
  refine Mirrors.freshVars ?_
  intro vars _ hvars
  refine Mirrors.fresh ?_
  intro name _
  have hstop : a.arity - b.arity + b.arity = vars.length := by
    rw [hvars, Nat.sub_add_cancel harity, Predicate.arity]
  refine mirrors_access (x := vars.drop (a.arity - b.arity)) ?_ ?_
  · rw [hstop]
    exact piece_end (by omega)
  · exact mirrors_pure rfl

/-! ## Relations of two columns -/

def guardedClosure (a : Predicate) : Guarded Cause Emission := do
  checked (ensureArity "Transitive closure" 2 a)
  let source ← access (elementAt a.columns 0)
  let target ← access (elementAt a.columns 1)
  checked (ensureType "Second column of transitive closure" source.type target.type)
  let name ← unguarded freshRelation
  let result : Predicate := ⟨name, a.columns, a.params⟩
  let vars ← unguarded (freshVars a.columns)
  let first ← access (elementAt vars 0)
  let last ← access (elementAt vars 1)
  let middle ← unguarded (freshVar "mid")
  return .single result "transitive closure"
    [⟨result.atomOf [first, last], [.positive (a.atomOf [first, last])]⟩,
      ⟨result.atomOf [first, last],
        [.positive (result.atomOf [first, middle]), .positive (a.atomOf [middle, last])]⟩]

theorem mirrors_closure (a : Predicate) (names : FreshNames) :
    Mirrors (guardedClosure a) (emitClosure a) names := by
  refine Mirrors.check ?_
  intro _ _ harity
  rw [ensureArity, ensure_eq_ok, beq_iff_eq] at harity
  obtain ⟨source, target, hcolumns⟩ := List.length_eq_two.mp harity
  have htypes : a.types = [source.type, target.type] := by simp [Predicate.types, hcolumns]
  simp only [htypes]
  refine mirrors_access (x := source) (by simp [elementAt, hcolumns]) ?_
  refine mirrors_access (x := target) (by simp [elementAt, hcolumns]) ?_
  refine Mirrors.check ?_
  intro _ _ _
  refine Mirrors.fresh ?_
  intro name _
  refine Mirrors.freshVars ?_
  intro vars _ hvars
  obtain ⟨first, last, rfl⟩ := List.length_eq_two.mp (hvars.trans harity)
  refine mirrors_access (x := first) rfl ?_
  refine mirrors_access (x := last) rfl ?_
  exact mirrors_unguarded _ _

def guardedTranspose (a : Predicate) : Guarded Cause Emission := do
  checked (ensureArity "Transpose" 2 a)
  let second ← access (elementAt a.columns 1)
  let first ← access (elementAt a.columns 0)
  let name ← unguarded freshRelation
  let result : Predicate := ⟨name, [second, first], a.params⟩
  let vars ← unguarded (freshVars a.columns)
  let source ← access (elementAt vars 0)
  let target ← access (elementAt vars 1)
  return .single result "transpose"
    [⟨result.atomOf [target, source], [.positive (a.atomOf [source, target])]⟩]

theorem mirrors_transpose (a : Predicate) (names : FreshNames) :
    Mirrors (guardedTranspose a) (emitTranspose a) names := by
  refine Mirrors.check ?_
  intro _ _ harity
  rw [ensureArity, ensure_eq_ok, beq_iff_eq] at harity
  obtain ⟨first, second, hcolumns⟩ := List.length_eq_two.mp harity
  refine mirrors_access (x := second) (by simp [elementAt, hcolumns]) ?_
  refine mirrors_access (x := first) (by simp [elementAt, hcolumns]) ?_
  refine Mirrors.fresh ?_
  intro name _
  refine Mirrors.freshVars ?_
  intro vars _ hvars
  obtain ⟨source, target, rfl⟩ := List.length_eq_two.mp (hvars.trans harity)
  refine mirrors_access (x := source) rfl ?_
  refine mirrors_access (x := target) rfl ?_
  exact mirrors_pure (by simp [hcolumns])

/-! ## Aggregates, ranks and concatenation -/

/-- All arguments of an atom ignored but the last. -/
def guardedLeading (a : Predicate) : Option (List Term) := do
  return List.replicate (← placeBefore a.arity) .wildcard

theorem guardedLeading_eq_some (h : a.arity ≠ 0) :
    guardedLeading a = some a.wildcards.dropLast := by
  rw [guardedLeading, placeBefore_eq_some h, Predicate.wildcards, List.dropLast_replicate]
  rfl

def guardedAggregate (function : NumericAggregate) (a : Predicate) (scope : Scope) :
    Guarded Cause Emission := do
  let label := function.symbol
  match a.lastType? with
  | none => checked (throw (.arityMismatch ("Operand of " ++ label) .positive 0))
  | some last => checked (ensureType ("Last column of " ++ label ++ " operand") .number last)
  let name ← unguarded freshRelation
  let result : Predicate := ⟨name, [.named .number label], a.params⟩
  let value ← unguarded (freshVar label)
  let each ← unguarded (freshVar "val")
  let leading ← access (guardedLeading a)
  let atom := a.atom (leading ++ [.var each])
  let grounding ← checked (scope.ground a.params [])
  return .single result label
    [⟨result.atomOf [value],
      .aggregate ⟨value, aggregateFunction function, some each, atom⟩ :: grounding⟩]

theorem mirrors_aggregate (function : NumericAggregate) (a : Predicate) (scope : Scope)
    (names : FreshNames) :
    Mirrors (guardedAggregate function a scope) (emitAggregate function a scope) names := by
  unfold guardedAggregate emitAggregate
  cases hlast : a.lastType? with
  | none => rfl
  | some last =>
      refine Mirrors.check ?_
      intro _ _ _
      refine Mirrors.fresh ?_
      intro name _
      refine Mirrors.fresh ?_
      intro value _
      refine Mirrors.fresh ?_
      intro each _
      refine mirrors_access
        (guardedLeading_eq_some (Predicate.arity_ne_zero_of_lastType hlast)) ?_
      refine Mirrors.check ?_
      intro grounding _ _
      exact mirrors_pure rfl

def guardedRank (a : Predicate) : Guarded Cause Definition := do
  checked (ensureColumn "Operand of index" a)
  let name ← unguarded freshRelation
  let ranked : Predicate := ⟨name, .named .number "idx" :: a.columns, a.params⟩
  let attributes := ranked.attributeNames
  let columns ← access (piece attributes 1 attributes.length)
  let rank ← access (elementAt attributes 0)
  let vars ← unguarded (freshVars a.columns)
  let previous ← unguarded (freshVar "idx")
  let next ← unguarded (freshVar "idx")
  return {
    predicate := ranked
    label := "index"
    choiceDomains := [columns, rank :: a.params.map paramVar]
    rules := [
      ⟨ranked.atom (.number 0 :: vars.map .var), [.positive (a.atomOf vars)]⟩,
      ⟨ranked.atomOf (next :: vars),
        [.positive (ranked.atom (.var previous :: a.wildcards)), .positive (a.atomOf vars),
          .assign next (successor previous)]⟩] }

theorem mirrors_rank (a : Predicate) (names : FreshNames) :
    Mirrors (guardedRank a) (rank a) names := by
  refine Mirrors.check ?_
  intro _ _ _
  refine Mirrors.fresh ?_
  intro name _
  have hne : (Predicate.mk name (.named .number "idx" :: a.columns) a.params).attributeNames ≠
      [] := by simp [Predicate.attributeNames]
  obtain ⟨first, others, hattributes⟩ := List.exists_cons_of_ne_nil hne
  refine mirrors_access (piece_end (by simp [hattributes])) ?_
  refine mirrors_access (x := first) (by simp [elementAt, hattributes]) ?_
  refine Mirrors.freshVars ?_
  intro vars _ _
  refine Mirrors.fresh ?_
  intro previous _
  refine Mirrors.fresh ?_
  intro next _
  exact mirrors_pure (by simp [hattributes])

def guardedAccumulator (a ranked : Predicate) : Guarded Cause Definition := do
  let leading ← access (guardedLeading a)
  let name ← unguarded freshRelation
  let sums : Predicate := ⟨name, [.named .number "idx", .named .symbol "acc"], a.params⟩
  let item := fun (rank : Term) (text : String) => ranked.atom (rank :: leading ++ [.var text])
  let first ← unguarded (freshVar "str")
  let previousRank ← unguarded (freshVar "idx")
  let previousSum ← unguarded (freshVar "acc")
  let rank ← unguarded (freshVar "idx")
  let text ← unguarded (freshVar "str")
  let sum ← unguarded (freshVar "acc")
  return {
    predicate := sums
    label := "concat accumulator"
    choiceDomains := []
    rules := [
      ⟨sums.atom [.number 0, .var first], [.positive (item (.number 0) first)]⟩,
      ⟨sums.atomOf [rank, sum],
        [.positive (sums.atomOf [previousRank, previousSum]), .positive (item (.var rank) text),
          .assign rank (successor previousRank),
          .assign sum (.cat [.term (.var previousSum), .term (.symbol separator),
            .term (.var text)])]⟩] }

def guardedConcat (a : Predicate) : Guarded Cause Emission := do
  match a.lastType? with
  | none => checked (throw (.arityMismatch "Operand of concat" .positive 0))
  | some last => checked (ensureType "Last column of concat operand" .symbol last)
  let ranked ← guardedRank a
  let sums ← guardedAccumulator a ranked.predicate
  let top ← unguarded (highestRank a ranked.predicate)
  let result ← unguarded (concatenated sums.predicate top.predicate)
  return ⟨[ranked, sums, top], result⟩

theorem mirrors_concat (a : Predicate) (names : FreshNames) :
    Mirrors (guardedConcat a) (emitConcat a) names := by
  unfold guardedConcat emitConcat
  cases hlast : a.lastType? with
  | none => rfl
  | some last =>
      refine Mirrors.check ?_
      intro _ _ _
      refine Mirrors.bind (mirrors_rank a _) ?_
      intro ranked _ _
      have hsums : ∀ names, Mirrors (guardedAccumulator a ranked.predicate)
          (accumulator a ranked.predicate) names := by
        intro names
        refine mirrors_access
          (guardedLeading_eq_some (Predicate.arity_ne_zero_of_lastType hlast)) ?_
        exact mirrors_unguarded _ _
      refine Mirrors.bind (hsums _) ?_
      intro sums _ _
      exact mirrors_unguarded _ _

/-! ## Comprehensions -/

def guardedRebound (scope : Scope) (scalars : List String) :
    List (String × Nat) → Option (Option String)
  | [] => some none
  | (name, k) :: rest => do
    let seen ← piece scalars 0 k
    if scope.isBound name || seen.contains name then return some name
    else guardedRebound scope scalars rest

theorem guardedRebound_eq_some (scope : Scope) (seen rest : List String) :
    guardedRebound scope (seen ++ rest) (rest.zipIdx seen.length) =
      some (firstRebound? scope seen.reverse rest) := by
  induction rest generalizing seen with
  | nil => rfl
  | cons name rest ih =>
      have hseen : piece (seen ++ name :: rest) 0 seen.length = some seen := by
        rw [piece_start (by simp), List.take_left]
      have hnext := ih (seen ++ [name])
      rw [List.append_assoc, List.singleton_append, List.length_append, List.length_singleton,
        List.reverse_append, List.reverse_singleton, List.singleton_append] at hnext
      rw [List.zipIdx_cons, guardedRebound, hseen, firstRebound?]
      have hcontains : seen.reverse.contains name = seen.contains name := by
        simp [List.contains_eq_mem]
      rw [hcontains]
      cases hbound : scope.isBound name || seen.contains name with
      | true => simp only [Option.bind_eq_bind, Option.bind_some, hbound, if_true, Option.pure_def]
      | false =>
          simp only [Option.bind_eq_bind, Option.bind_some, hbound, Bool.false_eq_true, if_false]
          exact hnext

def guardedScope (scope : Scope) (c : Predicate) (scalars : List String) : Option Scope :=
  scalars.zipIdx.foldlM (fun inner entry => do
    let column ← elementAt c.columns entry.2
    return inner.bind entry.1 (.scalar (comprehensionScalar c scalars entry.2 entry.1 column)))
    scope

theorem guardedScope_eq_some {c : Predicate} {scalars : List String}
    (harity : c.arity = scalars.length) (scope : Scope) :
    guardedScope scope c scalars = some (comprehensionScope scope c scalars) := by
  have hfold : ∀ (rest : List String) (columns : List Column) (k : Nat) (scope : Scope),
      columns.length = rest.length → c.columns.drop k = columns →
      (rest.zipIdx k).foldlM (fun inner entry => do
        let column ← elementAt c.columns entry.2
        return inner.bind entry.1
          (.scalar (comprehensionScalar c scalars entry.2 entry.1 column))) scope =
        some (((rest.zip columns).zipIdx k).foldl (fun inner entry =>
          inner.bind entry.1.1
            (.scalar (comprehensionScalar c scalars entry.2 entry.1.1 entry.1.2))) scope) := by
    intro rest
    induction rest with
    | nil =>
        intro columns k scope _ _
        rfl
    | cons name rest ih =>
        intro columns k scope hlength hdrop
        obtain ⟨column, others, rfl⟩ := List.exists_cons_of_length_eq_add_one hlength
        have hcolumn : elementAt c.columns k = some column := by
          rw [elementAt, ← List.head?_drop, hdrop, List.head?_cons]
        have hothers : c.columns.drop (k + 1) = others := by
          rw [← List.tail_drop, hdrop, List.tail_cons]
        have hrest := ih others (k + 1)
          (scope.bind name (.scalar (comprehensionScalar c scalars k name column)))
          (Nat.succ.inj hlength) hothers
        rw [List.zipIdx_cons, List.foldlM_cons, hcolumn, List.zip_cons_cons, List.zipIdx_cons,
          List.foldl_cons]
        exact hrest
  exact hfold scalars c.columns 0 scope harity (List.drop_zero ..)

/-! ## The guarded compiler -/

section Nodes

variable {options : Options} {scope : Scope} {e : Expr}

def guardedLocate {α : Type} (e : Expr) (scope : Scope) (emit : Guarded Cause α) :
    Guarded CompileError α := fun names =>
  Option.map (Except.mapError (CompileError.located e scope)) (emit names)

def guardedOperand (e : Expr) (scope : Scope) (compiled : Guarded CompileError Compiled) :
    Guarded CompileError Compiled :=
  if e.isWildcard then unguarded (throw (.located e scope .misplacedWildcard)) else compiled

def guardedDefine (options : Options) (e : Expr) (scope : Scope) (before : List Command)
    (emit : Guarded Cause Emission) : Guarded CompileError Compiled :=
  guardedLocate e scope do
    let emission ← emit
    let commands ← checked (emission.commands options e scope)
    return ⟨emission.result.predicate, ⟨before ++ commands⟩⟩

def guardedUnary (op : UnaryOp) (a : Predicate) (scope : Scope) : Guarded Cause Emission :=
  match op with
  | .closure => guardedClosure a
  | .transpose => guardedTranspose a
  | .aggregate function => guardedAggregate function a scope
  | .wildcardApply => guardedDropFirst a
  | .index => do
    let ranked ← guardedRank a
    return ⟨[], ranked⟩
  | .concat => guardedConcat a
  | .quantify _ | .count | .reflexiveClosure => unguarded (emitUnary op a scope)

def guardedBinary (op : BinaryOp) (a b : Predicate) (scope : Scope) : Guarded Cause Emission :=
  match op with
  | .join => guardedJoin a b
  | .apply => guardedApply a b
  | .domainRestrict => guardedDomainRestrict a b
  | .rangeRestrict => guardedRangeRestrict a b
  | .compare _ | .set _ | .product | .arith _ => unguarded (emitBinary op a b scope)

theorem mirrors_unary (op : UnaryOp) (a : Predicate) (scope : Scope) (names : FreshNames) :
    Mirrors (guardedUnary op a scope) (emitUnary op a scope) names := by
  cases op with
  | closure => exact mirrors_closure a names
  | transpose => exact mirrors_transpose a names
  | aggregate function => exact mirrors_aggregate function a scope names
  | wildcardApply => exact mirrors_dropFirst a names
  | index => exact (mirrors_rank a names).bind fun _ => mirrors_pure rfl
  | concat => exact mirrors_concat a names
  | quantify quantifier => exact mirrors_unguarded _ _
  | count => exact mirrors_unguarded _ _
  | reflexiveClosure => exact mirrors_unguarded _ _

theorem mirrors_binary (op : BinaryOp) (a b : Predicate) (scope : Scope) (names : FreshNames) :
    Mirrors (guardedBinary op a b scope) (emitBinary op a b scope) names := by
  cases op with
  | join => exact mirrors_join a b names
  | apply => exact mirrors_apply a b names
  | domainRestrict => exact mirrors_domainRestrict a b names
  | rangeRestrict => exact mirrors_rangeRestrict a b names
  | compare comparison => exact mirrors_unguarded _ _
  | set operation => exact mirrors_unguarded _ _
  | product => exact mirrors_unguarded _ _
  | arith operation => exact mirrors_unguarded _ _

theorem mirrors_locate {α : Type} {m : Guarded Cause α} {f : Emit α} (h : Mirrors m f names) :
    Mirrors (guardedLocate e scope m) (locate e scope f) names := by
  unfold Mirrors guardedLocate
  rw [h]
  rfl

theorem mirrors_operand {m : Guarded CompileError Compiled} {f : CompileM Compiled}
    (h : Mirrors m f names) :
    Mirrors (guardedOperand e scope m) (operand e scope f) names := by
  unfold guardedOperand operand
  split
  · exact mirrors_unguarded _ _
  · exact h

theorem mirrors_define {before : List Command} {m : Guarded Cause Emission} {f : Emit Emission}
    (h : Mirrors m f names) :
    Mirrors (guardedDefine options e scope before m) (define options e scope before f) names :=
  mirrors_locate (h.bind fun _ => Mirrors.check fun _ => mirrors_pure rfl)

end Nodes

/-- Compiles an expression in a scope and stops at an access outside a list. -/
def guardedCompile (options : Options) (scope : Scope) : Expr → Guarded CompileError Compiled
  | e@(.name ..) | e@(.constant ..) | e@(.formula ..) => unguarded (compile options scope e)
  | e@(.unary op inner _) =>
    match op with
    | .reflexiveClosure => unguarded (throw (.located e scope noReflexiveClosure))
    | _ => do
      let a ← guardedOperand inner scope (guardedCompile options scope inner)
      guardedDefine options e scope a.program.commands (guardedUnary op a.predicate scope)
  | e@(.binary op left right _) =>
    match op, left.isWildcard, right.isWildcard with
    | .join, true, true => unguarded (throw (.located e scope .misplacedWildcard))
    | .join, true, false => do
      let b ← guardedOperand right scope (guardedCompile options scope right)
      guardedDefine options e scope b.program.commands (guardedDropFirst b.predicate)
    | .join, false, true => do
      let a ← guardedOperand left scope (guardedCompile options scope left)
      guardedDefine options e scope a.program.commands (guardedDropLast a.predicate)
    | _, _, _ => do
      let a ← guardedOperand left scope (guardedCompile options scope left)
      let b ← guardedOperand right scope (guardedCompile options scope right)
      guardedDefine options e scope (a.program.commands ++ b.program.commands)
        (guardedBinary op a.predicate b.predicate scope)
  | e@(.letIn name value body _) => do
    if scope.isBound name then unguarded (throw (.located e scope (.alreadyBound name)))
    let a ← guardedOperand value scope (guardedCompile options scope value)
    let b ← guardedCompile options (scope.bind name (.relation a.predicate)) body
    return ⟨b.predicate, ⟨a.program.commands ++ b.program.commands⟩⟩
  | e@(.comprehension style names constraint body _) => do
    match ← access (guardedRebound scope names names.zipIdx) with
    | some name => unguarded (throw (.located e scope (.alreadyBound name)))
    | none => pure ()
    let c ← guardedOperand constraint scope (guardedCompile options scope constraint)
    unguarded (locate e scope (ensureVariables names c.predicate))
    let inner ← access (guardedScope scope c.predicate names)
    let b ← guardedOperand body inner (guardedCompile options inner body)
    unguarded (define options e scope (c.program.commands ++ b.program.commands)
      (emitComprehension style names c.predicate b.predicate))

theorem guardedCompile_binary {options : Options} {scope : Scope} {op : BinaryOp}
    {left right : Expr} (hop : op = .join → left.isWildcard = false ∧ right.isWildcard = false)
    (span : Span) :
    guardedCompile options scope (.binary op left right span) = (do
      let a ← guardedOperand left scope (guardedCompile options scope left)
      let b ← guardedOperand right scope (guardedCompile options scope right)
      guardedDefine options (.binary op left right span) scope
        (a.program.commands ++ b.program.commands)
        (guardedBinary op a.predicate b.predicate scope)) := by
  cases op with
  | join =>
      obtain ⟨hleft, hright⟩ := hop rfl
      simp only [guardedCompile, hleft, hright]
  | _ => rfl

/-- No access of the compiler is outside its list. -/
theorem mirrors_compile (options : Options) (scope : Scope) (e : Expr) (names : FreshNames) :
    Mirrors (guardedCompile options scope e) (compile options scope e) names := by
  induction e generalizing scope names with
  | constant value span => exact mirrors_unguarded _ _
  | name name span => exact mirrors_unguarded _ _
  | formula text span => exact mirrors_unguarded _ _
  | unary op inner span ih =>
      cases op with
      | reflexiveClosure => exact mirrors_unguarded _ _
      | _ =>
          refine Mirrors.bind (mirrors_operand (ih scope names)) ?_
          intro a mid _
          exact mirrors_define (mirrors_unary _ a.predicate scope mid)
  | binary op left right span ihleft ihright =>
      cases binaryForm op left right with
      | dropFirst hleft hright =>
          simp only [guardedCompile, compile, hleft, hright]
          refine Mirrors.bind (mirrors_operand (ihright scope names)) ?_
          intro b mid _
          exact mirrors_define (mirrors_dropFirst b.predicate mid)
      | dropLast hleft hright =>
          simp only [guardedCompile, compile, hleft, hright]
          refine Mirrors.bind (mirrors_operand (ihleft scope names)) ?_
          intro a mid _
          exact mirrors_define (mirrors_dropLast a.predicate mid)
      | wildcards hleft hright =>
          simp only [guardedCompile, compile, hleft, hright]
          exact mirrors_unguarded _ _
      | operands hop =>
          rw [compile_binary hop, guardedCompile_binary hop]
          refine Mirrors.bind (mirrors_operand (ihleft scope names)) ?_
          intro a mid _
          refine Mirrors.bind (mirrors_operand (ihright scope mid)) ?_
          intro b mid' _
          exact mirrors_define (mirrors_binary op a.predicate b.predicate scope mid')
  | comprehension style scalars constraint body span ihconstraint ihbody =>
      simp only [guardedCompile, compile]
      have hguarded : guardedRebound scope scalars scalars.zipIdx =
          some (firstRebound? scope [] scalars) := guardedRebound_eq_some scope [] scalars
      refine mirrors_access hguarded ?_
      cases hrebound : firstRebound? scope [] scalars with
      | some name => rfl
      | none =>
          refine Mirrors.bind (mirrors_operand (ihconstraint scope names)) ?_
          intro c mid _
          refine Mirrors.bind (mirrors_unguarded _ _) ?_
          intro _ mid' hvariables
          rw [locate_eq_ok, lift_eq_ok, ensureVariables_eq_ok] at hvariables
          refine mirrors_access (guardedScope_eq_some hvariables.1 scope) ?_
          refine Mirrors.bind (mirrors_operand (ihbody _ mid')) ?_
          intro b mid'' _
          exact mirrors_unguarded _ _
  | letIn name value body span ihvalue ihbody =>
      simp only [guardedCompile, compile]
      split
      · exact mirrors_unguarded _ _
      · refine Mirrors.bind (mirrors_operand (ihvalue scope names)) ?_
        intro a mid _
        refine Mirrors.bind (ihbody _ mid) ?_
        intro b mid' _
        exact mirrors_pure rfl

end RelQuery.Compile
