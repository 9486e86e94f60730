import Mathlib.Data.List.Lex
import Mathlib.Data.Prod.Lex
import Mathlib.Tactic
import RelQuery.Datalog.Declared

/-!
# Uses before declarations

A use has a site: the index of its command among the commands with groups dissolved, and its place
in the command.  The head of a rule is in front of the body.  A use offends when no command of a
smaller index declares its relation.  The undeclared uses of a program are the relations with an
offending use, each once, in the order of their first offending sites.

The pass over the commands, the body of a rule and the way into groups all list things in the order
of where they stand.  `ListsByPlace` says so once for all three.
-/

namespace RelQuery.Datalog

/-! ## Lists in the order of places -/

section Places

variable {σ τ α β : Type}

/-- The list has what stands at the places, in the order of the places. -/
def ListsByPlace [LT σ] (At : σ → α → Prop) (items : List α) : Prop :=
  ∃ marked : List (σ × α), marked.map Prod.snd = items ∧
    marked.Pairwise (fun m m' => m.1 < m'.1) ∧ ∀ p a, (p, a) ∈ marked ↔ At p a

namespace ListsByPlace

section Order

variable [LT σ] [LT τ] {At At' : σ → α → Prop} {items first second : List α}

theorem of_iff (h : ListsByPlace At items) (hiff : ∀ p a, At' p a ↔ At p a) :
    ListsByPlace At' items := by
  obtain ⟨marked, hitems, hsorted, hmarked⟩ := h
  exact ⟨marked, hitems, hsorted, fun p a => (hmarked p a).trans (hiff p a).symm⟩

theorem nil (hnone : ∀ p a, ¬ At p a) : ListsByPlace At [] :=
  ⟨[], rfl, .nil, fun p a => by simp [hnone]⟩

theorem singleton (p : σ) (a : α) : ListsByPlace (fun q b => q = p ∧ b = a) [a] :=
  ⟨[(p, a)], rfl, List.pairwise_singleton _ _, fun q b => by simp⟩

theorem append (hfirst : ListsByPlace At first) (hsecond : ListsByPlace At' second)
    (hlt : ∀ p a q b, At p a → At' q b → p < q) :
    ListsByPlace (fun p a => At p a ∨ At' p a) (first ++ second) := by
  obtain ⟨marked, rfl, hsorted, hmarked⟩ := hfirst
  obtain ⟨marked', rfl, hsorted', hmarked'⟩ := hsecond
  refine ⟨marked ++ marked', List.map_append, ?_, fun p a => ?_⟩
  · refine List.pairwise_append.mpr ⟨hsorted, hsorted', ?_⟩
    rintro ⟨p, a⟩ hp ⟨q, b⟩ hq
    exact hlt p a q b ((hmarked p a).mp hp) ((hmarked' q b).mp hq)
  · rw [List.mem_append, hmarked, hmarked']

/-- The same things at other places that are in the same order. -/
theorem relocate (h : ListsByPlace At items) (f : σ → τ)
    (hf : ∀ p a q b, At p a → At q b → p < q → f p < f q) :
    ListsByPlace (fun q a => ∃ p, At p a ∧ f p = q) items := by
  obtain ⟨marked, rfl, hsorted, hmarked⟩ := h
  refine ⟨marked.map (fun m => (f m.1, m.2)), by simp, ?_, fun q a => ?_⟩
  · refine List.pairwise_map.mpr (hsorted.imp_of_mem ?_)
    rintro ⟨p, a⟩ ⟨q, b⟩ hp hq
    exact hf p a q b ((hmarked p a).mp hp) ((hmarked q b).mp hq)
  · simp [hmarked]

theorem filterMap (h : ListsByPlace At items) (f : α → Option β) :
    ListsByPlace (fun p b => ∃ a, At p a ∧ f a = some b) (items.filterMap f) := by
  obtain ⟨marked, rfl, hsorted, hmarked⟩ := h
  refine ⟨marked.filterMap (fun m => (f m.2).map (m.1, ·)), ?_, ?_, fun p b => ?_⟩
  · rw [List.map_filterMap, List.filterMap_map]
    congr 1
    funext m
    simp [Function.comp_def]
  · refine List.pairwise_filterMap.mpr (hsorted.imp ?_)
    intro m m' hlt c hc c' hc'
    obtain ⟨b, -, rfl⟩ := Option.map_eq_some_iff.mp hc
    obtain ⟨b', -, rfl⟩ := Option.map_eq_some_iff.mp hc'
    exact hlt
  · simp [← hmarked]

theorem filter (h : ListsByPlace At items) (keep : α → Bool) :
    ListsByPlace (fun p a => At p a ∧ keep a = true) (items.filter keep) := by
  rw [← List.filterMap_eq_filter]
  refine (h.filterMap (Option.guard keep)).of_iff fun p a => ?_
  simp [Option.guard_eq_some_iff]

theorem mem_iff (h : ListsByPlace At items) {a : α} : a ∈ items ↔ ∃ p, At p a := by
  obtain ⟨marked, rfl, -, hmarked⟩ := h
  simp [← hmarked]

end Order

/-- A list is in the order of its indices. -/
theorem indices (items : List α) :
    ListsByPlace (fun (k : Nat) a => items[k]? = some a) items := by
  refine ⟨items.zipIdx.map Prod.swap, ?_, ?_, fun k a => ?_⟩
  · rw [List.map_map]
    exact List.zipIdx_map_fst 0 items
  · refine List.pairwise_map.mpr (List.pairwise_iff_getElem.mpr fun i j hi hj hij => ?_)
    simpa using hij
  · simp [List.mem_zipIdx_iff_getElem?]

section Least

variable [LinearOrder σ] {At : σ → α → Prop} {items : List α}

theorem exists_isLeast [WellFoundedLT σ] (h : ListsByPlace At items) {a : α} (ha : a ∈ items) :
    ∃ p, IsLeast {q | At q a} p := by
  obtain ⟨p, hp, hmin⟩ := wellFounded_lt.has_min {q | At q a} (h.mem_iff.mp ha)
  exact ⟨p, hp, fun q hq => not_lt.mp (hmin q hq)⟩

/-- The head of a list is at the least place, and the rest is at the places behind that one. -/
theorem of_cons {a : α} (h : ListsByPlace At (a :: items)) :
    ∃ p, At p a ∧ (∀ q b, At q b → b = a ∧ q = p ∨ p < q) ∧
      ListsByPlace (fun q b => At q b ∧ p < q) items := by
  obtain ⟨marked, hitems, hsorted, hmarked⟩ := h
  obtain ⟨⟨p, c⟩, rest, rfl, rfl, rfl⟩ := List.map_eq_cons_iff.mp hitems
  obtain ⟨hlt, hrest⟩ := List.pairwise_cons.mp hsorted
  have hcases : ∀ q b, At q b → b = c ∧ q = p ∨ (q, b) ∈ rest := by
    intro q b hq
    rcases List.mem_cons.mp ((hmarked q b).mpr hq) with heq | hmem
    · exact .inl ⟨(Prod.mk.inj heq).2, (Prod.mk.inj heq).1⟩
    · exact .inr hmem
  refine ⟨p, (hmarked p c).mp List.mem_cons_self, ?_, rest, rfl, hrest, fun q b => ?_⟩
  · exact fun q b hq => (hcases q b hq).imp_right (hlt (q, b))
  · constructor
    · intro hmem
      exact ⟨(hmarked q b).mp (List.mem_cons_of_mem _ hmem), hlt (q, b) hmem⟩
    · rintro ⟨hq, hpq⟩
      exact (hcases q b hq).resolve_left fun heq => hpq.ne heq.2.symm

/-- What is left when repetitions are dropped is in the order of the first places. -/
theorem pairwise_eraseDups [WellFoundedLT σ] [DecidableEq α] (h : ListsByPlace At items) :
    items.eraseDups.Pairwise fun a b =>
      ∃ p q, IsLeast {p | At p a} p ∧ IsLeast {q | At q b} q ∧ p < q := by
  -- Behind the head the list goes on without the head, so that the induction is on its length.
  induction hlength : items.length using Nat.strong_induction_on generalizing At items with
  | _ n ih =>
      cases items with
      | nil => simp
      | cons a rest =>
          obtain ⟨p, hp, hplaces, hrest⟩ := h.of_cons
          have hkept := hrest.filter (fun b => !b == a)
          have hne : ∀ b ∈ (rest.filter fun b => !b == a).eraseDups, b ≠ a := by
            intro b hb
            simpa using (List.mem_filter.mp (List.mem_eraseDups.mp hb)).2
          have hsame : ∀ b, b ≠ a → {q | (At q b ∧ p < q) ∧ (!b == a) = true} = {q | At q b} := by
            intro b hb
            ext q
            have hlt : At q b → p < q := fun hq => (hplaces q b hq).resolve_left fun h => hb h.1
            simpa [hb] using hlt
          have hleast : IsLeast {q | At q a} p :=
            ⟨hp, fun q hq => (hplaces q a hq).elim (fun h => h.2.ge) le_of_lt⟩
          have hshorter : (rest.filter fun b => !b == a).length < n :=
            hlength ▸ Nat.lt_succ_of_le (List.length_filter_le _ _)
          rw [List.eraseDups_cons]
          refine List.pairwise_cons.mpr ⟨fun b hb => ?_, ?_⟩
          · obtain ⟨q, hq⟩ := hkept.exists_isLeast (List.mem_eraseDups.mp hb)
            exact ⟨p, q, hleast, hsame b (hne b hb) ▸ hq, hq.1.1.2⟩
          · refine (ih _ hshorter hkept rfl).imp_of_mem fun {b c} hb hc hbc => ?_
            rwa [hsame b (hne b hb), hsame c (hne c hc)] at hbc

end Least

end ListsByPlace

end Places

/-! ## Sites of uses -/

namespace Command

/-- A command uses a relation at a place.  The head of a rule has place zero, and the literal of
index `k` in the body has place `k + 1`. -/
inductive UsesAt : Command → Nat → String → Prop where
  | head (r : Rule) : UsesAt (.rule r) 0 r.head.relation
  | positive {r : Rule} {k : Nat} {atom : Atom} (h : r.body[k]? = some (.positive atom)) :
      UsesAt (.rule r) (k + 1) atom.relation
  | negated {r : Rule} {k : Nat} {atom : Atom} (h : r.body[k]? = some (.negated atom)) :
      UsesAt (.rule r) (k + 1) atom.relation
  | aggregate {r : Rule} {k : Nat} {a : Aggregate} (h : r.body[k]? = some (.aggregate a)) :
      UsesAt (.rule r) (k + 1) a.atom.relation
  | input (relation : String) : UsesAt (.input relation) 0 relation
  | output (relation : String) : UsesAt (.output relation) 0 relation

/-- The command of index `i` uses the relation at place `j`, and no earlier command declares it. -/
def OffendsAt (commands : List Command) (i j : Nat) (name : String) : Prop :=
  (∃ command, commands[i]? = some command ∧ command.UsesAt j name) ∧
    ∀ d, .decl d ∈ commands.take i → d.relation ≠ name

/-- The sites of the offending uses of a relation, ordered by command and then by place. -/
def offences (commands : List Command) (name : String) : Set (ℕ ×ₗ ℕ) :=
  {site | OffendsAt commands (ofLex site).1 (ofLex site).2 name}

variable {command : Command} {commands rest : List Command} {name : String} {i j : Nat}

theorem usesAt_rule_succ {r : Rule} {k : Nat} :
    (rule r).UsesAt (k + 1) name ↔ ∃ l, r.body[k]? = some l ∧ l.relation? = some name := by
  constructor
  · intro h
    cases h with
    | positive h => exact ⟨_, h, rfl⟩
    | negated h => exact ⟨_, h, rfl⟩
    | aggregate h => exact ⟨_, h, rfl⟩
  · rintro ⟨l, hl, hrelation⟩
    cases l with
    | positive atom =>
        cases hrelation
        exact .positive hl
    | negated atom =>
        cases hrelation
        exact .negated hl
    | aggregate a =>
        cases hrelation
        exact .aggregate hl
    | constraint left op right => cases hrelation

theorem usesAt_rule_zero {r : Rule} : (rule r).UsesAt 0 name ↔ name = r.head.relation := by
  constructor
  · rintro ⟨⟩
    rfl
  · rintro rfl
    exact .head r

theorem usesAt_input {relation : String} :
    (input relation).UsesAt j name ↔ j = 0 ∧ name = relation := by
  constructor
  · rintro ⟨⟩
    exact ⟨rfl, rfl⟩
  · rintro ⟨rfl, rfl⟩
    exact .input _

theorem usesAt_output {relation : String} :
    (output relation).UsesAt j name ↔ j = 0 ∧ name = relation := by
  constructor
  · rintro ⟨⟩
    exact ⟨rfl, rfl⟩
  · rintro ⟨rfl, rfl⟩
    exact .output _

/-- The uses of a command are in the order of their places. -/
theorem lists_uses (command : Command) : ListsByPlace command.UsesAt command.uses := by
  cases command with
  | rule r =>
      have hbody := ((ListsByPlace.indices r.body).filterMap Literal.relation?).relocate (· + 1)
        (fun _ _ _ _ _ _ hlt => Nat.succ_lt_succ hlt)
      have hall := (ListsByPlace.singleton 0 r.head.relation).append hbody (by
        rintro _ _ _ _ ⟨rfl, -⟩ ⟨k, -, rfl⟩
        exact k.succ_pos)
      refine hall.of_iff fun place name => ?_
      cases place with
      | zero => simp [usesAt_rule_zero]
      | succ k => simp [usesAt_rule_succ]
  | input relation => exact (ListsByPlace.singleton 0 relation).of_iff fun _ _ => usesAt_input
  | output relation => exact (ListsByPlace.singleton 0 relation).of_iff fun _ _ => usesAt_output
  | _ => exact ListsByPlace.nil fun _ _ h => nomatch h

theorem mem_declares : name ∈ command.declares ↔ ∃ d, command = .decl d ∧ d.relation = name := by
  cases command <;> simp [declares, eq_comm]

theorem not_offendsAt_nil : ¬ OffendsAt [] i j name := by
  simp [OffendsAt]

theorem offendsAt_cons_zero : OffendsAt (command :: rest) 0 j name ↔ command.UsesAt j name := by
  simp [OffendsAt]

theorem offendsAt_cons_succ :
    OffendsAt (command :: rest) (i + 1) j name ↔
      OffendsAt rest i j name ∧ name ∉ command.declares := by
  have hdeclares : name ∉ command.declares ↔ ∀ d, command = .decl d → d.relation ≠ name := by
    rw [mem_declares]
    push Not
    rfl
  simp only [OffendsAt, List.getElem?_cons_succ, List.take_succ_cons, List.mem_cons, hdeclares]
  constructor
  · rintro ⟨huse, hnone⟩
    exact ⟨⟨huse, fun d hd => hnone d (.inr hd)⟩, fun d hd => hnone d (.inl hd.symm)⟩
  · rintro ⟨⟨huse, hnone⟩, hhead⟩
    exact ⟨huse, fun d hd => hd.elim (fun h => hhead d h.symm) (hnone d)⟩

/-- The pass finds the offending uses of relations that were not declared before it, in the order of
their sites. -/
theorem lists_offending (declared : List String) (commands : List Command) :
    ListsByPlace (fun site name => site ∈ offences commands name ∧ name ∉ declared)
      (offending declared commands) := by
  induction commands generalizing declared with
  | nil => exact ListsByPlace.nil fun site name h => not_offendsAt_nil h.1
  | cons command rest ih =>
      have hfirst := ((lists_uses command).filter (fun name => !declared.contains name)).relocate
        (fun j => toLex (0, j)) (by
          intro j _ j' _ _ _ hlt
          simpa [Prod.Lex.toLex_lt_toLex] using hlt)
      -- Seen from the first command, the sites of the rest are one command further on.
      have hrest := (ih (command.declares ++ declared)).relocate
        (fun site => toLex ((ofLex site).1 + 1, (ofLex site).2)) (by
          intro site _ site' _ _ _ hlt
          simpa [Prod.Lex.lt_iff] using hlt)
      refine (hfirst.append hrest ?_).of_iff fun site name => ?_
      · rintro _ _ _ _ ⟨j, -, rfl⟩ ⟨site, -, rfl⟩
        simp [Prod.Lex.toLex_lt_toLex]
      · obtain ⟨⟨i, j⟩, rfl⟩ := toLex.surjective site
        cases i with
        | zero => simp [offences, offendsAt_cons_zero]
        | succ i => simp [offences, offendsAt_cons_succ, and_assoc]

/-! ## Paths into groups -/

/-- A command holds a command that is no group at a path: the indices that lead to it from group to
group. -/
inductive HoldsAt : Command → List Nat → Command → Prop where
  | self {command : Command} (hleaf : ∀ commands, command ≠ .group commands) :
      HoldsAt command [] command
  | inside {commands : List Command} {i : Nat} {command leaf : Command} {path : List Nat}
      (h : commands[i]? = some command) (hleaf : command.HoldsAt path leaf) :
      HoldsAt (.group commands) (i :: path) leaf

variable {leaf : Command} {path : List Nat}

theorem holdsAt_of_ne_group (hleaf : ∀ commands, command ≠ .group commands) :
    command.HoldsAt path leaf ↔ path = [] ∧ leaf = command := by
  constructor
  · intro h
    cases h with
    | self _ => exact ⟨rfl, rfl⟩
    | inside _ _ => exact absurd rfl (hleaf _)
  · rintro ⟨rfl, rfl⟩
    exact .self hleaf

theorem not_holdsAt_group_nil : ¬ (group []).HoldsAt path leaf := by
  intro h
  cases h with
  | self hleaf => exact hleaf _ rfl
  | inside h _ => cases h

theorem holdsAt_group_cons :
    (group (command :: rest)).HoldsAt path leaf ↔
      (∃ p, command.HoldsAt p leaf ∧ 0 :: p = path) ∨
        ∃ p, (group rest).HoldsAt p leaf ∧ p.modifyHead (· + 1) = path := by
  constructor
  · intro h
    cases h with
    | self hleaf => exact absurd rfl (hleaf _)
    | @inside _ i _ _ p h hinside =>
        cases i with
        | zero =>
            cases h
            exact .inl ⟨p, hinside, rfl⟩
        | succ i => exact .inr ⟨i :: p, .inside h hinside, rfl⟩
  · rintro (⟨p, hinside, rfl⟩ | ⟨p, hrest, rfl⟩)
    · exact .inside rfl hinside
    · cases hrest with
      | self hleaf => exact absurd rfl (hleaf _)
      | inside h hinside => exact .inside h hinside

theorem exists_cons_of_holdsAt_group (h : (group commands).HoldsAt path leaf) :
    ∃ i p, path = i :: p := by
  cases h with
  | self hleaf => exact absurd rfl (hleaf _)
  | inside _ _ => exact ⟨_, _, rfl⟩

mutual

theorem lists_flatten : ∀ command : Command, ListsByPlace command.HoldsAt command.flatten
  | .group commands => by
      rw [flatten]
      exact lists_flattenAll commands
  | .rule _ | .decl _ | .input _ | .output _ | .comment _ | .raw _ => by
      rw [flatten]
      exact (ListsByPlace.singleton [] _).of_iff fun _ _ => holdsAt_of_ne_group nofun

/-- Dissolving groups keeps the order of the paths. -/
theorem lists_flattenAll : ∀ commands : List Command,
    ListsByPlace (group commands).HoldsAt (flattenAll commands)
  | [] => ListsByPlace.nil fun _ _ => not_holdsAt_group_nil
  | command :: rest => by
      rw [flattenAll]
      have hfirst := (lists_flatten command).relocate (0 :: ·)
        (fun _ _ _ _ _ _ hlt => List.cons_lt_cons_iff.mpr (.inr ⟨rfl, hlt⟩))
      have hrest := (lists_flattenAll rest).relocate (List.modifyHead (· + 1)) (by
        intro path _ path' _ h h' hlt
        obtain ⟨i, p, rfl⟩ := exists_cons_of_holdsAt_group h
        obtain ⟨i', p', rfl⟩ := exists_cons_of_holdsAt_group h'
        simpa [List.cons_lt_cons_iff] using hlt)
      refine (hfirst.append hrest ?_).of_iff fun path leaf => holdsAt_group_cons
      rintro _ _ _ _ ⟨p, -, rfl⟩ ⟨path, h, rfl⟩
      obtain ⟨i, p', rfl⟩ := exists_cons_of_holdsAt_group h
      exact List.cons_lt_cons_iff.mpr (.inl i.succ_pos)

end

end Command

namespace Program

/-- The undeclared uses are the relations with an offending use, each once, in the order of their
first offending uses among the commands, and these are the commands in and outside of groups in the
order of their paths. -/
theorem undeclaredUses_by_first_offence (program : Program) :
    ListsByPlace (Command.group program.commands).HoldsAt program.flatten ∧
      (∀ name, name ∈ program.undeclaredUses ↔
        ∃ i j, Command.OffendsAt program.flatten i j name) ∧
      program.undeclaredUses.Nodup ∧
      program.undeclaredUses.Pairwise fun name other =>
        ∃ site site', IsLeast (Command.offences program.flatten name) site ∧
          IsLeast (Command.offences program.flatten other) site' ∧ site < site' := by
  have hlists := Command.lists_offending [] program.flatten
  have hordered := hlists.pairwise_eraseDups
  simp only [List.not_mem_nil, not_false_eq_true, and_true, Set.ofPred_mem_eq] at hordered hlists
  refine ⟨Command.lists_flattenAll program.commands, fun name => ?_, ?_, hordered⟩
  · rw [undeclaredUses, List.mem_eraseDups, hlists.mem_iff]
    constructor
    · rintro ⟨site, hsite⟩
      exact ⟨_, _, hsite⟩
    · rintro ⟨i, j, hoffends⟩
      exact ⟨toLex (i, j), hoffends⟩
  · refine hordered.imp ?_
    rintro name other ⟨site, site', hsite, hsite', hlt⟩ rfl
    exact hlt.ne (hsite.unique hsite')

/-- The declaration of `p` comes too late for its rule, and `q` offends twice. -/
example :
    undeclaredUses ⟨[.group [.input "q", .group [.rule ⟨⟨"p", []⟩,
      [.negated ⟨"r", []⟩, .positive ⟨"q", []⟩]⟩]], .decl ⟨"p", [], []⟩, .output "p"]⟩ =
      ["q", "p", "r"] := by
  decide

end Program

end RelQuery.Datalog
