/-!
Maps that keep the order in which their keys first appear.
-/
namespace SwaggerTypes

abbrev Entries (α : Type) := List (String × α)

namespace Entries

variable {α : Type}

/-- Puts a value under a key: a key that is there keeps its place, a new one goes to the end. -/
def insert (key : String) (value : α) : Entries α → Entries α
  | [] => [(key, value)]
  | (k, v) :: rest => if k = key then (k, value) :: rest else (k, v) :: insert key value rest

/-- The map of a list of entries; of a repeated key the first place and the last value count. -/
def ofList (entries : List (String × α)) : Entries α :=
  entries.foldl (fun map e => map.insert e.1 e.2) []

def get? (key : String) (map : Entries α) : Option α := map.lookup key

def keys (map : Entries α) : List String := map.map Prod.fst

@[simp] theorem insert_nil (key : String) (value : α) : insert key value [] = [(key, value)] := rfl

theorem keys_insert (key : String) (value : α) (map : Entries α) :
    (map.insert key value).keys = if key ∈ map.keys then map.keys else map.keys ++ [key] := by
  induction map with
  | nil => simp [keys]
  | cons e rest ih =>
    obtain ⟨k, v⟩ := e
    by_cases h : k = key
    · simp [insert, keys, h]
    · have h' : key ≠ k := fun e => h e.symm
      simp only [keys] at ih
      by_cases hm : key ∈ rest.map Prod.fst <;> simp_all [insert, keys]

/-- Putting a value never makes a key appear twice. -/
theorem nodup_keys_insert (key : String) (value : α) {map : Entries α} (h : map.keys.Nodup) :
    (map.insert key value).keys.Nodup := by
  rw [keys_insert]
  split
  · exact h
  · rename_i hk
    exact List.nodup_append.2
      ⟨h, by simp, fun a ha b hb hab => hk (by simp_all)⟩

/-- No key of a built map appears twice. -/
theorem nodup_keys_ofList (entries : List (String × α)) : (ofList entries).keys.Nodup := by
  suffices h : ∀ map : Entries α, map.keys.Nodup →
      (entries.foldl (fun map e => map.insert e.1 e.2) map).keys.Nodup from
    h [] (by simp [keys])
  induction entries with
  | nil => exact fun _ h => h
  | cons e rest ih => exact fun map h => ih _ (nodup_keys_insert e.1 e.2 h)

end Entries

end SwaggerTypes
