import RelQuery.Proofs.Schema.Renumbering

/-!
# Sequences of requests

A relation name is found by a search that tries one number after another.  The search ends, because
the reserved names can block only as many numbers as there are reserved names.  Over a sequence of
requests, the relations get the numbers whose names are free, in order and without a gap, whatever
variables are asked for in between.
-/

namespace RelQuery.FreshNames

variable {reserved : List String} {count number tries : Nat}

/-! ## The search for a free number -/

/-- `Search reserved count tries number` says that the numbers behind `count` are tried one by one
until, at the given try, one is found whose name is not reserved. -/
inductive Search (reserved : List String) : Nat → Nat → Nat → Prop where
  | found {count : Nat} (hfree : relationName (count + 1) ∉ reserved) :
      Search reserved count 1 (count + 1)
  | next {count tries number : Nat} (hblocked : relationName (count + 1) ∈ reserved)
      (hsearch : Search reserved (count + 1) tries number) :
      Search reserved count (tries + 1) number

theorem firstFree_of_free (h : relationName number ∉ reserved) :
    firstFree reserved number = number :=
  le_antisymm (firstFree_le le_rfl h) (firstFree_free reserved number).1

theorem firstFree_of_blocked (h : relationName number ∈ reserved) :
    firstFree reserved number = firstFree reserved (number + 1) := by
  obtain ⟨hle, hfree⟩ := firstFree_free reserved number
  obtain ⟨hle', hfree'⟩ := firstFree_free reserved (number + 1)
  have hne : firstFree reserved number ≠ number := fun heq => hfree (heq.symm ▸ h)
  refine le_antisymm (firstFree_le (by omega) hfree') (firstFree_le (by omega) hfree)

/-- A search that ends gives the first free number, and each try passes one number. -/
theorem Search.eq_firstFree (h : Search reserved count tries number) :
    number = firstFree reserved (count + 1) ∧ count + tries = number := by
  induction h with
  | found hfree => exact ⟨(firstFree_of_free hfree).symm, rfl⟩
  | next hblocked _ ih =>
      rw [firstFree_of_blocked hblocked]
      exact ⟨ih.1, by omega⟩

/-- A search ends as soon as there is a free number ahead. -/
theorem exists_search (hahead : count < number) (hfree : relationName number ∉ reserved) :
    ∃ tries found, Search reserved count tries found := by
  obtain ⟨distance, rfl⟩ := Nat.exists_eq_add_of_lt hahead
  induction distance generalizing count with
  | zero => exact ⟨1, count + 1, .found hfree⟩
  | succ distance ih =>
      by_cases hblocked : relationName (count + 1) ∈ reserved
      · have hahead : count + 1 < count + 1 + distance + 1 := by omega
        have hnext : count + 1 + distance + 1 = count + (distance + 1) + 1 := by omega
        obtain ⟨tries, found, hsearch⟩ := ih hahead (hnext ▸ hfree)
        exact ⟨tries + 1, found, .next hblocked hsearch⟩
      · exact ⟨1, count + 1, .found hblocked⟩

/-- Every search ends, at the latest at the try after as many tries as there are reserved names. -/
theorem search_relation (names : FreshNames) :
    ∃ tries number, tries ≤ names.reserved.length + 1 ∧
      Search names.reserved names.relationCount tries number ∧
      names.relation = (relationName number, { names with relationCount := number }) := by
  obtain ⟨free, hmem, hfree⟩ := exists_free names.reserved (names.relationCount + 1)
  obtain ⟨offset, hoffset, rfl⟩ := List.mem_map.mp hmem
  rw [List.mem_range] at hoffset
  have hahead : names.relationCount < names.relationCount + 1 + offset := by omega
  obtain ⟨tries, number, hsearch⟩ := exists_search hahead hfree
  obtain ⟨rfl, htries⟩ := hsearch.eq_firstFree
  have hbound : firstFree names.reserved (names.relationCount + 1) ≤ _ := firstFree_le hahead hfree
  exact ⟨tries, _, by omega, hsearch, rfl⟩

/-! ## The numbers that are given out -/

/-- The numbers from one up to a bound whose names are free. -/
def freeNumbers (reserved : List String) (bound : Nat) : List Nat :=
  (List.range' 1 bound).filter fun number => relationName number ∉ reserved

theorem freeNumbers_succ_of_free (h : relationName (number + 1) ∉ reserved) :
    freeNumbers reserved (number + 1) = freeNumbers reserved number ++ [number + 1] := by
  simp [freeNumbers, List.range'_concat, h, Nat.add_comm]

theorem freeNumbers_of_blocked (hle : count ≤ number)
    (hblocked : ∀ n, count < n → n ≤ number → relationName n ∈ reserved) :
    freeNumbers reserved number = freeNumbers reserved count := by
  induction number, hle using Nat.le_induction with
  | base => rfl
  | succ number hle ih =>
      have hlast := hblocked (number + 1) (by omega) le_rfl
      rw [← ih fun n hlt hn => hblocked n hlt (by omega)]
      simp [freeNumbers, List.range'_concat, hlast, Nat.add_comm]

/-- Up to the number of a turn, the free numbers are those of the turns so far. -/
theorem freeNumbers_issued (reserved : List String) (k : Nat) :
    freeNumbers reserved (issued reserved k) =
      (List.range k).map fun turn => issued reserved (turn + 1) := by
  induction k with
  | zero => rfl
  | succ k ih =>
      obtain ⟨gap, hgap⟩ := Nat.exists_eq_add_of_lt (issued_lt_succ reserved k)
      have hblocked : ∀ n, issued reserved k < n → n ≤ issued reserved k + gap →
          relationName n ∈ reserved := by
        intro n hlt hle
        by_contra hfree
        have hfirst : issued reserved (k + 1) ≤ n := firstFree_le hlt hfree
        omega
      have hfree := issued_free reserved k
      rw [hgap] at hfree
      rw [List.range_succ, List.map_append, ← ih, List.map_singleton, hgap,
        freeNumbers_succ_of_free hfree, freeNumbers_of_blocked (Nat.le_add_right _ _) hblocked]

/-! ## Runs -/

/-- The supply has given out the relations of `turn` turns. -/
structure AtTurn (reserved : List String) (turn : Nat) (names : FreshNames) : Prop where
  avoids : names.reserved = reserved
  relationCount : names.relationCount = issued reserved turn

theorem atTurn_avoiding (reserved : List String) : AtTurn reserved 0 (avoiding reserved) :=
  ⟨rfl, rfl⟩

namespace AtTurn

variable {names : FreshNames} {turn : Nat}

theorem relation (h : AtTurn reserved turn names) :
    names.relation.1 = turnName reserved turn ∧
      AtTurn reserved (turn + 1) (names.serve .relation) := by
  refine ⟨?_, h.avoids, ?_⟩
  · rw [FreshNames.relation, h.avoids, h.relationCount]
    rfl
  · rw [serve, FreshNames.relation, h.avoids, h.relationCount]
    rfl

theorem var (h : AtTurn reserved turn names) (stem : String) :
    AtTurn reserved turn (names.serve (.var stem)) :=
  ⟨h.avoids, h.relationCount⟩

/-- A run takes one turn for each relation and none for a variable. -/
theorem run (h : AtTurn reserved turn names) (requests : List Request) :
    relationsFor names requests =
        (List.range' turn (requests.count .relation)).map (turnName reserved) ∧
      AtTurn reserved (turn + requests.count .relation) (names.serveAll requests) := by
  induction requests generalizing names turn with
  | nil => exact ⟨rfl, h⟩
  | cons request rest ih =>
      cases request with
      | relation =>
          obtain ⟨hname, hnext⟩ := h.relation
          obtain ⟨hrest, hlast⟩ := ih hnext
          rw [List.count_cons_self]
          refine ⟨?_, ?_⟩
          · rw [relationsFor, hname, hrest, List.range'_succ, List.map_cons]
          · rwa [Nat.add_assoc, Nat.add_comm 1] at hlast
      | var stem =>
          rw [List.count_cons_of_ne (by simp)]
          exact ih (h.var stem)

end AtTurn

/-- Whatever a new supply is asked for, every search for a relation name ends, and the relations get
the names of the free numbers, all of them up to the last one and in increasing order.  The requests
for variables make no difference. -/
theorem relations_get_free_numbers (reserved : List String) (requests : List Request) :
    (∀ earlier : List Request, ∃ tries number, tries ≤ reserved.length + 1 ∧
      Search reserved ((avoiding reserved).serveAll earlier).relationCount tries number ∧
      ((avoiding reserved).serveAll earlier).relation.1 = relationName number) ∧
    (relationsFor (avoiding reserved) requests).length = requests.count .relation ∧
    (relationsFor (avoiding reserved) requests).Nodup ∧
    (relationsFor (avoiding reserved) requests).Disjoint reserved ∧
    relationsFor (avoiding reserved) requests =
      (freeNumbers reserved ((avoiding reserved).serveAll requests).relationCount).map
        relationName ∧
    relationsFor (avoiding reserved) requests =
      relationsFor (avoiding reserved) (requests.filter (· = .relation)) := by
  have hrun := fun requests => (atTurn_avoiding reserved).run requests
  obtain ⟨hnames, hlast⟩ := hrun requests
  have hnumbers : relationsFor (avoiding reserved) requests =
      (freeNumbers reserved ((avoiding reserved).serveAll requests).relationCount).map
        relationName := by
    rw [hnames, hlast.relationCount, Nat.zero_add, freeNumbers_issued, List.map_map,
      ← List.range_eq_range']
    rfl
  refine ⟨fun earlier => ?_, ?_, ?_, ?_, hnumbers, ?_⟩
  · obtain ⟨tries, number, hbound, hsearch, hrelation⟩ :=
      search_relation ((avoiding reserved).serveAll earlier)
    rw [(hrun earlier).2.avoids] at hbound hsearch
    exact ⟨tries, number, hbound, hsearch, congrArg Prod.fst hrelation⟩
  · rw [hnames, List.length_map, List.length_range']
  · rw [hnumbers]
    exact (List.Nodup.filter _ (List.nodup_range' 1)).map relationName_injective
  · rw [hnumbers]
    intro name hname hreserved
    obtain ⟨number, hnumber, rfl⟩ := List.mem_map.mp hname
    exact absurd hreserved (by simpa using (List.mem_filter.mp hnumber).2)
  · rw [hnames, (hrun _).1, List.count_filter (by simp)]

/-- Two of the first four names are reserved, and a variable is asked for in between. -/
example :
    relationsFor (avoiding ["R1", "R3"]) [.relation, .var "R2", .relation] = ["R2", "R4"] := by
  decide

end RelQuery.FreshNames
