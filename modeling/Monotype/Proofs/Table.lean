import Monotype.Table
import Mathlib.Data.List.Nodup

namespace Monotype
namespace Table

variable {K V : Type} [DecidableEq K]

/-!
# Tables with different keys

Tables are built by insertion, so no key of theirs occurs twice.  Such a table is
determined by its keys and by what they are found to hold.
-/

theorem lookup?_eq_none_iff (key : K) (entries : List (K × V)) :
    lookup? key entries = none ↔ key ∉ entries.map Prod.fst := by
  induction entries with
  | nil => simp [lookup?]
  | cons entry rest ih =>
      rcases entry with ⟨other, value⟩
      rw [lookup?, List.map_cons, List.mem_cons, not_or]
      by_cases same : other = key
      · simp [same]
      · rw [if_neg same, ih]
        simp [Ne.symm same]

theorem insertEntry_of_not_mem (key : K) (value : V) (entries : List (K × V))
    (absent : key ∉ entries.map Prod.fst) :
    insertEntry key value entries = entries ++ [(key, value)] := by
  induction entries with
  | nil => rfl
  | cons entry rest ih =>
      rcases entry with ⟨other, old⟩
      rw [List.map_cons, List.mem_cons, not_or] at absent
      have different : other ≠ key := fun same => absent.1 same.symm
      rw [insertEntry, if_neg different, ih absent.2]
      rfl

theorem entries_insert_of_not_mem (table : Table K V) (key : K) (value : V)
    (absent : key ∉ table.keys) :
    (table.insert key value).entries = table.entries ++ [(key, value)] :=
  insertEntry_of_not_mem key value table.entries absent

theorem mem_insertEntry {key : K} {value : V} {entries : List (K × V)} {entry : K × V}
    (member : entry ∈ insertEntry key value entries) : entry ∈ entries ∨ entry = (key, value) := by
  induction entries with
  | nil => exact Or.inr (List.mem_singleton.mp member)
  | cons first rest ih =>
      rcases first with ⟨other, old⟩
      rw [insertEntry] at member
      by_cases same : other = key
      · rw [if_pos same, List.mem_cons] at member
        rcases member with new | later
        · exact Or.inr (same ▸ new)
        · exact Or.inl (List.mem_cons_of_mem _ later)
      · rw [if_neg same, List.mem_cons] at member
        rcases member with here | later
        · exact Or.inl (here ▸ List.mem_cons_self)
        · rcases ih later with earlier | new
          · exact Or.inl (List.mem_cons_of_mem _ earlier)
          · exact Or.inr new

theorem nodup_keys_insert (table : Table K V) (key : K) (value : V) (nodup : table.keys.Nodup) :
    (table.insert key value).keys.Nodup := by
  rw [keys_insert]
  by_cases present : key ∈ table.keys
  · rwa [if_pos present]
  · rw [if_neg present]
    exact List.nodup_append.mpr ⟨nodup, List.nodup_singleton key, by
      intro old member new single equal
      rw [List.mem_singleton] at single
      exact present (single ▸ equal ▸ member)⟩

/-- Storing pairs with new and different keys appends them. -/
theorem entries_foldl_insert (pairs : List (K × V)) (table : Table K V)
    (nodup : (table.keys ++ pairs.map Prod.fst).Nodup) :
    (pairs.foldl (fun table pair => table.insert pair.1 pair.2) table).entries =
      table.entries ++ pairs := by
  induction pairs generalizing table with
  | nil => rw [List.foldl_nil, List.append_nil]
  | cons pair rest ih =>
      rcases pair with ⟨key, value⟩
      have absent : key ∉ table.keys := by
        intro present
        have apart := (List.nodup_append.mp nodup).2.2
        exact apart key present key List.mem_cons_self rfl
      have appended := table.entries_insert_of_not_mem key value absent
      have keys_eq : (table.insert key value).keys = table.keys ++ [key] := by
        rw [keys_insert, if_neg absent]
      rw [List.foldl_cons, ih, appended, List.append_assoc]
      · rfl
      · rw [keys_eq, List.append_assoc]
        exact nodup

theorem find?_foldl_insert (pairs : List (K × V)) (table : Table K V) {key : K}
    (absent : key ∉ pairs.map Prod.fst) :
    (pairs.foldl (fun table pair => table.insert pair.1 pair.2) table).find? key = table.find? key := by
  induction pairs generalizing table with
  | nil => rfl
  | cons pair rest ih =>
      rw [List.map_cons, List.mem_cons, not_or] at absent
      rw [List.foldl_cons, ih _ absent.2, find?_insert, if_neg (fun same => absent.1 same.symm)]

theorem entries_ofList (pairs : List (K × V)) (nodup : (pairs.map Prod.fst).Nodup) :
    (ofList pairs).entries = pairs :=
  entries_foldl_insert pairs empty nodup

theorem find?_of_mem (table : Table K V) (nodup : table.keys.Nodup) {key : K} {value : V}
    (member : (key, value) ∈ table.entries) : table.find? key = some value := by
  rcases table with ⟨entries⟩
  change lookup? key entries = some value
  change (entries.map Prod.fst).Nodup at nodup
  induction entries with
  | nil => cases member
  | cons entry rest ih =>
      rcases entry with ⟨other, first⟩
      rw [List.map_cons, List.nodup_cons] at nodup
      rw [lookup?]
      rcases List.mem_cons.mp member with same | later
      · cases same
        rw [if_pos rfl]
      · have different : other ≠ key := by
          intro same
          exact nodup.1 (List.mem_map.mpr ⟨(key, value), later, same.symm⟩)
        rw [if_neg different]
        exact ih later nodup.2

theorem map_some_entries (table : Table K V) (nodup : table.keys.Nodup) :
    table.entries.map some =
      table.keys.map (fun key => (table.find? key).map (fun value => (key, value))) := by
  rw [keys, List.map_map]
  apply List.map_congr_left
  intro entry member
  rw [Function.comp_apply, table.find?_of_mem nodup member]
  rfl

theorem values_eq (table : Table K V) (nodup : table.keys.Nodup) (absent : V) :
    table.values = table.keys.map (fun key => (table.find? key).getD absent) := by
  rw [keys, values, List.map_map]
  apply List.map_congr_left
  intro entry member
  rw [Function.comp_apply, table.find?_of_mem nodup member]
  rfl

/-- Tables with the same keys in the same order that hold the same are the same. -/
theorem eq_of_find? (table other : Table K V) (nodup : table.keys.Nodup)
    (keys_eq : other.keys = table.keys)
    (find_eq : forall key, key ∈ table.keys -> other.find? key = table.find? key) :
    other = table := by
  have entries_eq : other.entries.map some = table.entries.map some := by
    rw [other.map_some_entries (keys_eq ▸ nodup), table.map_some_entries nodup, keys_eq]
    apply List.map_congr_left
    intro key member
    rw [find_eq key member]
  have same := List.map_injective_iff.mpr (fun _ _ equal => Option.some.inj equal) entries_eq
  rcases table with ⟨entries⟩
  rcases other with ⟨others⟩
  exact congrArg Table.mk same

end Table
end Monotype
