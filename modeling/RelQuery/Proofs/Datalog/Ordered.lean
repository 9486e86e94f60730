import Mathlib.Tactic
import RelQuery.Datalog.Declared

/-!
# Programs in declaration order

A program is ordered when one pass from its first command to its last finds every relation declared
once, every rule between the declaration of its head and the next declaration, and every other use
after a declaration.  A rule may look at its own relation in positive atoms only; whatever it
negates or aggregates was declared before its own relation.  Such a program is stratified by the
order of its declarations.
-/

namespace RelQuery.Datalog

/-- What a rule of `name` may look at when `known` are the relations declared before `name`. -/
def Literal.Reads (known : List String) (name : String) : Literal → Prop
  | positive atom => atom.relation = name ∨ atom.relation ∈ known
  | negated atom => atom.relation ∈ known
  | aggregate a => a.atom.relation ∈ known
  | constraint .. => True

/-- A rule of `name` that looks at `name` and at relations declared before it. -/
structure Rule.Follows (known : List String) (name : String) (rule : Rule) : Prop where
  head : rule.head.relation = name
  body : ∀ l ∈ rule.body, l.Reads known name

/-- A rule looks at its own relation in positive atoms only. -/
theorem Rule.Follows.own_positive {known : List String} {name : String} {rule : Rule}
    (h : rule.Follows known name) (hnew : name ∉ known) :
    ∀ l ∈ rule.body, l.relation? = some name → ∃ atom, l = .positive atom := by
  intro l hl hrelation
  have hreads := h.body l hl
  cases l with
  | positive atom => exact ⟨atom, rfl⟩
  | negated atom =>
      cases hrelation
      exact absurd hreads hnew
  | aggregate a =>
      cases hrelation
      exact absurd hreads hnew
  | constraint left op right => cases hrelation

/-- A rule looks at its own relation and at relations declared before it. -/
theorem Rule.Follows.of_mem_bodyRelations {known : List String} {name other : String} {rule : Rule}
    (h : rule.Follows known name) (hother : other ∈ rule.bodyRelations) :
    other = name ∨ other ∈ known := by
  obtain ⟨l, hl, hrelation⟩ := List.mem_filterMap.mp hother
  have hreads := h.body l hl
  cases l with
  | positive atom =>
      cases hrelation
      exact hreads
  | negated atom =>
      cases hrelation
      exact .inr hreads
  | aggregate a =>
      cases hrelation
      exact .inr hreads
  | constraint left op right => cases hrelation

namespace Command

/-- Whether a command may come next when the relations `declared` have been declared, in order. -/
def Fits (declared : List String) : Command → Prop
  | decl d => d.relation ∉ declared
  | rule r => ∃ known, declared = known ++ [r.head.relation] ∧ r.Follows known r.head.relation
  | input relation | output relation => relation ∈ declared
  | comment _ | raw _ | group _ => True

/-- Commands each of which may come where it stands. -/
def Ordered (declared : List String) : List Command → Prop
  | [] => True
  | command :: rest => command.Fits declared ∧ Ordered (declared ++ command.declares) rest

variable {declared : List String} {command : Command} {commands first second : List Command}

theorem ordered_append :
    Ordered declared (first ++ second) ↔
      Ordered declared first ∧ Ordered (declared ++ first.flatMap declares) second := by
  induction first generalizing declared with
  | nil => simp [Ordered]
  | cons command rest ih =>
      rw [List.cons_append, Ordered, Ordered, ih, List.flatMap_cons, List.append_assoc, and_assoc]

theorem Ordered.fits {before after : List Command}
    (h : Ordered declared (before ++ command :: after)) :
    command.Fits (declared ++ before.flatMap declares) :=
  (ordered_append.mp h).2.1

/-- A command that fits uses declared relations only. -/
theorem Fits.uses (h : command.Fits declared) : ∀ name ∈ command.uses, name ∈ declared := by
  cases command with
  | rule r =>
      obtain ⟨known, rfl, hfollows⟩ := h
      have hhead : r.head.relation ∈ known ++ [r.head.relation] := by simp
      have hbody : ∀ name ∈ r.bodyRelations, name ∈ known ++ [r.head.relation] := by
        intro name hname
        rcases hfollows.of_mem_bodyRelations hname with rfl | hknown
        · exact hhead
        · exact List.mem_append_left _ hknown
      exact List.forall_mem_cons.mpr ⟨hhead, hbody⟩
  | input relation => simpa [Command.uses, Fits] using h
  | output relation => simpa [Command.uses, Fits] using h
  | _ => simp [Command.uses]

/-- Nothing is declared twice. -/
theorem Ordered.nodup (h : Ordered declared commands) (hdeclared : declared.Nodup) :
    (declared ++ commands.flatMap declares).Nodup := by
  induction commands generalizing declared with
  | nil => simpa using hdeclared
  | cons command rest ih =>
      obtain ⟨hfits, hrest⟩ := h
      have hnext : (declared ++ command.declares).Nodup := by
        cases command with
        | decl d =>
            refine List.Nodup.append hdeclared (List.nodup_singleton _) ?_
            rw [Command.declares, List.disjoint_singleton]
            exact hfits
        | _ => simpa [Command.declares] using hdeclared
      have hall := ih hrest hnext
      rwa [List.append_assoc, ← List.flatMap_cons] at hall

/-- No use is offending. -/
theorem Ordered.offending_eq_nil {seen : List String} (h : Ordered declared commands)
    (hseen : ∀ name ∈ declared, name ∈ seen) : offending seen commands = [] := by
  induction commands generalizing declared seen with
  | nil => rfl
  | cons command rest ih =>
      obtain ⟨hfits, hrest⟩ := h
      have huses : command.uses.filter (fun name => !seen.contains name) = [] := by
        rw [List.filter_eq_nil_iff]
        intro name hname
        have hmem := hseen name (hfits.uses name hname)
        simp [hmem]
      have hnext : ∀ name ∈ declared ++ command.declares, name ∈ command.declares ++ seen := by
        intro name hname
        rcases List.mem_append.mp hname with hold | hnew
        · exact List.mem_append_right _ (hseen name hold)
        · exact List.mem_append_left _ hnew
      rw [offending, huses, ih hrest hnext, List.nil_append]

/-- Where a rule stands, the declarations end with that of its head, and all that the rule negates
or aggregates is declared before the head. -/
theorem Ordered.stratified {before after : List Command} {r : Rule}
    (h : Ordered [] (before ++ .rule r :: after)) :
    ∃ lower, before.flatMap declares = lower ++ [r.head.relation] ∧
      (∀ l ∈ r.body, l.relation? = some r.head.relation → ∃ atom, l = .positive atom) ∧
      (∀ atom, .negated atom ∈ r.body → atom.relation ∈ lower) ∧
      ∀ a, .aggregate a ∈ r.body → a.atom.relation ∈ lower := by
  obtain ⟨lower, hlower, hfollows⟩ := h.fits
  rw [List.nil_append] at hlower
  have hnodup : (before.flatMap declares).Nodup := by
    have hall := (ordered_append.mp h).1.nodup List.nodup_nil
    rwa [List.nil_append] at hall
  have hnew : r.head.relation ∉ lower := by
    rw [hlower, List.nodup_append] at hnodup
    intro hmem
    exact hnodup.2.2 _ hmem _ List.mem_cons_self rfl
  refine ⟨lower, hlower, hfollows.own_positive hnew, ?_, ?_⟩
  · intro atom hatom
    exact hfollows.body _ hatom
  · intro a ha
    exact hfollows.body _ ha

end Command

namespace Program

variable {program : Program}

theorem mem_rules {program : Program} {rule : Rule} :
    rule ∈ program.rules ↔ .rule rule ∈ program.flatten := by
  refine ⟨fun h => ?_, fun h => List.mem_filterMap.mpr ⟨_, h, rfl⟩⟩
  obtain ⟨command, hcommand, heq⟩ := List.mem_filterMap.mp h
  cases command with
  | rule r =>
      cases heq
      exact hcommand
  | _ => cases heq

theorem mem_decls {program : Program} {decl : Decl} :
    decl ∈ program.decls ↔ .decl decl ∈ program.flatten := by
  refine ⟨fun h => ?_, fun h => List.mem_filterMap.mpr ⟨_, h, rfl⟩⟩
  obtain ⟨command, hcommand, heq⟩ := List.mem_filterMap.mp h
  cases command with
  | decl d =>
      cases heq
      exact hcommand
  | _ => cases heq

theorem decls_relation (program : Program) :
    program.decls.map (·.relation) = program.flatten.flatMap Command.declares := by
  unfold decls
  generalize program.flatten = commands
  induction commands with
  | nil => rfl
  | cons command rest ih =>
      rw [List.flatMap_cons, ← ih]
      cases command <;> rfl

/-- No relation of an ordered program is declared twice. -/
theorem nodup_decls (h : Command.Ordered [] program.flatten) :
    (program.decls.map (·.relation)).Nodup := by
  rw [decls_relation]
  exact h.nodup List.nodup_nil

/-- Every relation of an ordered program has exactly one declaration. -/
theorem count_decls_eq_one (h : Command.Ordered [] program.flatten) {command : Command}
    (hcommand : command ∈ program.flatten) {name : String}
    (hname : name ∈ command.uses ++ command.declares) :
    (program.decls.map (·.relation)).count name = 1 := by
  apply List.count_eq_one_of_mem (nodup_decls h)
  obtain ⟨before, after, hsplit⟩ := List.append_of_mem hcommand
  rw [decls_relation, hsplit, List.flatMap_append, List.flatMap_cons]
  rw [hsplit] at h
  rcases List.mem_append.mp hname with huse | hdeclare
  · exact List.mem_append_left _ (h.fits.uses name huse)
  · exact List.mem_append_right _ (List.mem_append_left _ hdeclare)

theorem undeclaredUses_eq_nil (h : Command.Ordered [] program.flatten) :
    program.undeclaredUses = [] := by
  rw [undeclaredUses, h.offending_eq_nil (fun _ hname => hname), List.eraseDups_nil]

end Program

end RelQuery.Datalog
