namespace Monotype

/-!
Tables that remember the order in which their keys arrived.

Answers list the entries of a table, so the order belongs to the type: a new
key goes to the end, and a key that is already present keeps its place and
takes the new value.
-/

/-- A finite map with its keys in order of first insertion. -/
structure Table (K V : Type) where
  entries : List (K × V) := []

namespace Table

variable {K V : Type} [DecidableEq K]

/-- The value of a key among entries, or `none` if the key is absent. -/
def lookup? (key : K) : List (K × V) -> Option V
  | [] => none
  | (other, value) :: rest => if other = key then some value else lookup? key rest

/-- Replace the value of a key in place, or append the key at the end. -/
def insertEntry (key : K) (value : V) : List (K × V) -> List (K × V)
  | [] => [(key, value)]
  | (other, old) :: rest =>
      if other = key then (other, value) :: rest
      else (other, old) :: insertEntry key value rest

def empty : Table K V where
  entries := []

def find? (table : Table K V) (key : K) : Option V :=
  lookup? key table.entries

/-- Store a value under a key; a key already present keeps its place. -/
def insert (table : Table K V) (key : K) (value : V) : Table K V where
  entries := insertEntry key value table.entries

/-- Store pairs one after the other. -/
def ofList (pairs : List (K × V)) : Table K V :=
  pairs.foldl (fun table pair => table.insert pair.1 pair.2) empty

/-- The keys in order of first insertion. -/
def keys (table : Table K V) : List K :=
  table.entries.map Prod.fst

def values (table : Table K V) : List V :=
  table.entries.map Prod.snd

theorem lookup?_insertEntry (key probe : K) (value : V) (entries : List (K × V)) :
    lookup? probe (insertEntry key value entries) =
      if key = probe then some value else lookup? probe entries := by
  induction entries with
  | nil => rfl
  | cons entry rest ih =>
      rcases entry with ⟨other, old⟩
      simp only [insertEntry]
      by_cases same : other = key
      · subst same
        by_cases hit : other = probe <;> simp [lookup?, hit]
      · by_cases hit : other = probe
        · subst hit
          have different : key ≠ other := fun equal => same equal.symm
          simp [lookup?, same, different]
        · simp [lookup?, same, hit, ih]

/-- Reading after writing: the written key has the new value and every other
key has its old one. -/
theorem find?_insert (table : Table K V) (key probe : K) (value : V) :
    (table.insert key value).find? probe =
      if key = probe then some value else table.find? probe :=
  lookup?_insertEntry key probe value table.entries

theorem map_fst_insertEntry (key : K) (value : V) (entries : List (K × V)) :
    (insertEntry key value entries).map Prod.fst =
      if key ∈ entries.map Prod.fst then entries.map Prod.fst
      else entries.map Prod.fst ++ [key] := by
  induction entries with
  | nil => simp [insertEntry]
  | cons entry rest ih =>
      rcases entry with ⟨other, old⟩
      by_cases same : other = key
      · simp [insertEntry, same]
      · have different : key ≠ other := fun equal => same equal.symm
        simp only [insertEntry, if_neg same, List.map_cons, ih, List.mem_cons]
        by_cases present : key ∈ rest.map Prod.fst
        · simp [present]
        · simp [present, different]

/-- Writing keeps the order of the keys and puts a new key last. -/
theorem keys_insert (table : Table K V) (key : K) (value : V) :
    (table.insert key value).keys =
      if key ∈ table.keys then table.keys else table.keys ++ [key] :=
  map_fst_insertEntry key value table.entries

end Table

end Monotype
