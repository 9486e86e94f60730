/-!
# Maps from names

A map from names keeps its entries in increasing order of names, so two maps with the same values
are equal.
-/

namespace RelQuery

/-- Values by name, in increasing order of names. -/
structure NameMap (α : Type) where
  entries : List (String × α)
  sorted : entries.Pairwise fun a b => a.1 < b.1
  deriving DecidableEq, Repr

namespace NameMap

variable {α : Type}

/-- Puts a value in its place among entries in increasing order. -/
def insertEntry (name : String) (value : α) : List (String × α) → List (String × α)
  | [] => [(name, value)]
  | entry :: rest =>
    if name < entry.1 then (name, value) :: entry :: rest
    else if name = entry.1 then (name, value) :: rest
    else entry :: insertEntry name value rest

/-- An entry that is there after an insertion is the new one or was there before. -/
theorem mem_insertEntry {name : String} {value : α} {x : String × α}
    {entries : List (String × α)} (h : x ∈ insertEntry name value entries) :
    x = (name, value) ∨ x ∈ entries := by
  induction entries with
  | nil => exact .inl (by simpa [insertEntry] using h)
  | cons entry rest ih =>
    rw [insertEntry] at h
    split at h
    · simpa using h
    · split at h
      · rcases List.mem_cons.1 h with h | h
        · exact .inl h
        · exact .inr (List.mem_cons_of_mem _ h)
      · rcases List.mem_cons.1 h with h | h
        · exact .inr (h ▸ List.mem_cons_self)
        · exact (ih h).imp id (List.mem_cons_of_mem _)

/-- An insertion keeps the order. -/
theorem sorted_insertEntry (name : String) (value : α) {entries : List (String × α)}
    (h : entries.Pairwise fun a b => a.1 < b.1) :
    (insertEntry name value entries).Pairwise fun a b => a.1 < b.1 := by
  induction entries with
  | nil => simp [insertEntry]
  | cons entry rest ih =>
    obtain ⟨first, others⟩ := List.pairwise_cons.1 h
    rw [insertEntry]
    split
    · next before =>
      refine List.pairwise_cons.2 ⟨fun x hx => ?_, h⟩
      rcases List.mem_cons.1 hx with rfl | hx
      · exact before
      · exact String.lt_trans before (first x hx)
    · next notBefore =>
      split
      · next same => exact List.pairwise_cons.2 ⟨same ▸ first, others⟩
      · next different =>
        refine List.pairwise_cons.2 ⟨fun x hx => ?_, ih others⟩
        rcases mem_insertEntry hx with rfl | hx
        · exact String.not_le.1 fun le =>
            different (String.le_antisymm le (String.not_lt.1 notBefore))
        · exact first x hx

def empty : NameMap α := ⟨[], .nil⟩

def insert (map : NameMap α) (name : String) (value : α) : NameMap α :=
  ⟨insertEntry name value map.entries, sorted_insertEntry name value map.sorted⟩

def single (name : String) (value : α) : NameMap α :=
  empty.insert name value

/-- The map of the given entries; of two with one name the later counts. -/
def ofList (entries : List (String × α)) : NameMap α :=
  entries.foldl (fun map entry => map.insert entry.1 entry.2) empty

def get? (map : NameMap α) (name : String) : Option α :=
  map.entries.lookup name

def contains (map : NameMap α) (name : String) : Bool :=
  (map.get? name).isSome

def names (map : NameMap α) : List String :=
  map.entries.map (·.1)

end NameMap

end RelQuery
