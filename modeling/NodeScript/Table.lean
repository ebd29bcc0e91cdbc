/-!
Finite maps from names to values.
-/

namespace NodeScript

variable {α β : Type}

/-- A map. Its entries have no particular order. -/
structure Table (α : Type) where
  entries : List (String × α)
  nodup : (entries.map Prod.fst).Nodup
  deriving Repr, DecidableEq

namespace Table

def empty : Table α := ⟨[], .nil⟩

instance : EmptyCollection (Table α) := ⟨empty⟩

instance : Inhabited (Table α) := ⟨empty⟩

def keys (t : Table α) : List String :=
  t.entries.map Prod.fst

def insertEntry (key : String) (value : α) : List (String × α) → List (String × α)
  | [] => [(key, value)]
  | (k, v) :: rest =>
    if key = k then (key, value) :: rest else (k, v) :: insertEntry key value rest

theorem keys_insertEntry (key : String) (value : α) (entries : List (String × α)) :
    (insertEntry key value entries).map Prod.fst =
      if key ∈ entries.map Prod.fst then entries.map Prod.fst
      else entries.map Prod.fst ++ [key] := by
  induction entries with
  | nil => rfl
  | cons entry rest ih =>
    obtain ⟨k, v⟩ := entry
    rw [insertEntry]
    by_cases h : key = k
    · simp [h]
    · by_cases hmem : key ∈ rest.map Prod.fst <;> simp_all

def insert (t : Table α) (key : String) (value : α) : Table α where
  entries := insertEntry key value t.entries
  nodup := by
    rw [keys_insertEntry]
    split
    · exact t.nodup
    · next h => exact List.nodup_append.mpr ⟨t.nodup, by simp, by grind⟩

def ofList (entries : List (String × α)) : Table α :=
  entries.foldl (fun t (key, value) => t.insert key value) empty

def get? (t : Table α) (key : String) : Option α :=
  t.entries.lookup key

def contains (t : Table α) (key : String) : Bool :=
  (t.get? key).isSome

def isEmpty (t : Table α) : Bool :=
  t.entries.isEmpty

def values (t : Table α) : List α :=
  t.entries.map Prod.snd

def map (f : α → β) (t : Table α) : Table β where
  entries := t.entries.map fun (key, value) => (key, f value)
  nodup := by simpa [Function.comp_def] using t.nodup

end Table

/-- A map with its entries in ascending order of their keys, so that two of them with the same entries
are equal. -/
structure SortedTable (α : Type) extends Table α where
  ascending : entries.Pairwise fun a b => a.1 < b.1
  deriving Repr

namespace SortedTable

def empty : SortedTable α := ⟨.empty, .nil⟩

instance : EmptyCollection (SortedTable α) := ⟨empty⟩

instance : Inhabited (SortedTable α) := ⟨empty⟩

def insertEntry (key : String) (value : α) : List (String × α) → List (String × α)
  | [] => [(key, value)]
  | (k, v) :: rest =>
    if key < k then (key, value) :: (k, v) :: rest
    else if key = k then (key, value) :: rest
    else (k, v) :: insertEntry key value rest

theorem eq_or_mem_of_mem_insertEntry {key : String} {value : α} {entry : String × α}
    {entries : List (String × α)} (h : entry ∈ insertEntry key value entries) :
    entry = (key, value) ∨ entry ∈ entries := by
  induction entries with
  | nil => simpa [insertEntry] using h
  | cons first rest ih =>
    unfold insertEntry at h
    split at h
    · simpa using h
    · split at h <;> grind

theorem ascending_insertEntry {entries : List (String × α)}
    (h : entries.Pairwise fun a b => a.1 < b.1) (key : String) (value : α) :
    (insertEntry key value entries).Pairwise fun a b => a.1 < b.1 := by
  induction entries with
  | nil => simp [insertEntry]
  | cons first rest ih =>
    obtain ⟨hfirst, hrest⟩ := List.pairwise_cons.mp h
    unfold insertEntry
    split
    · refine List.pairwise_cons.mpr ⟨fun entry hmem => ?_, h⟩
      grind [String.lt_trans]
    · split
      · next heq => exact List.pairwise_cons.mpr ⟨heq ▸ hfirst, hrest⟩
      · refine List.pairwise_cons.mpr ⟨fun entry hmem => ?_, ih hrest⟩
        obtain rfl | hmem := eq_or_mem_of_mem_insertEntry hmem
        · grind
        · exact hfirst entry hmem

def ofAscending (entries : List (String × α)) (h : entries.Pairwise fun a b => a.1 < b.1) :
    SortedTable α where
  entries := entries
  nodup := List.pairwise_map.mpr (h.imp Std.ne_of_lt)
  ascending := h

def insert (t : SortedTable α) (key : String) (value : α) : SortedTable α :=
  ofAscending _ (ascending_insertEntry t.ascending key value)

def ofList (entries : List (String × α)) : SortedTable α :=
  entries.foldl (fun t (key, value) => t.insert key value) empty

end SortedTable

def Table.sorted (t : Table α) : SortedTable α :=
  .ofList t.entries

end NodeScript
