import Mathlib.Data.List.Induction
import Mathlib.Data.List.Nodup
import Mathlib.Data.List.Perm.Basic
import Mathlib.Data.String.Basic
import NodeScript.Table

/-!
What is found in tables. Sorted tables are determined by it.
-/

namespace NodeScript

open List

variable {α β : Type}

namespace Table

theorem lookup_cons (k : String) (first : String × α) (rest : List (String × α))
    : (first :: rest).lookup k = if k = first.1 then some first.2 else rest.lookup k := by
  rw [List.lookup_cons]
  by_cases hk : k = first.1
  · rw [if_pos hk, beq_iff_eq.mpr hk]
  · rw [if_neg hk, beq_eq_false_iff_ne.mpr hk]

theorem isSome_lookup_iff {key : String} {entries : List (String × α)}
    : (entries.lookup key).isSome ↔ key ∈ entries.map Prod.fst := by
  rw [lookup_isSome_iff, mem_map]
  exact exists_congr fun entry => and_congr_right fun _ => by rw [beq_iff_eq, eq_comm]

theorem lookup_eq_some_iff_mem {κ : Type} [BEq κ] [LawfulBEq κ] {entries : List (κ × α)}
    (h : (entries.map Prod.fst).Nodup) {key : κ} {value : α}
    : entries.lookup key = some value ↔ (key, value) ∈ entries := by
  induction entries with
  | nil => simp
  | cons first rest ih =>
    obtain ⟨hfirst, hrest⟩ := List.nodup_cons.mp h
    rw [List.lookup_cons, List.mem_cons]
    cases heq : key == first.1 with
    | true =>
      obtain rfl := eq_of_beq heq
      have hrest : (first.1, value) ∉ rest := fun hmem => hfirst (mem_map.mpr ⟨_, hmem, rfl⟩)
      simp [hrest, Prod.ext_iff, eq_comm]
    | false =>
      have hne : key ≠ first.1 := by simpa using heq
      simp [ih hrest, Prod.ext_iff, hne]

theorem lookup_eq_of_perm {κ : Type} [BEq κ] [LawfulBEq κ] {entries entries' : List (κ × α)}
    (h : (entries.map Prod.fst).Nodup) (hperm : entries.Perm entries') (key : κ)
    : entries.lookup key = entries'.lookup key := by
  have h' : (entries'.map Prod.fst).Nodup := (hperm.map Prod.fst).nodup_iff.mp h
  apply Option.ext
  intro value
  rw [lookup_eq_some_iff_mem h, lookup_eq_some_iff_mem h', hperm.mem_iff]

theorem get?_eq_some_iff_mem (t : Table α) {key : String} {value : α}
    : t.get? key = some value ↔ (key, value) ∈ t.entries :=
  lookup_eq_some_iff_mem t.nodup

theorem get?_eq_of_perm {t t' : Table α} (h : t.entries.Perm t'.entries) (key : String) : t.get? key = t'.get? key :=
  lookup_eq_of_perm t.nodup h key

theorem get?_map (t : Table α) (f : α → β) (key : String) : (t.map f).get? key = (t.get? key).map f := by
  unfold get? map
  dsimp only
  induction t.entries with
  | nil => rfl
  | cons entry entries ih =>
    rw [map_cons, lookup_cons, lookup_cons, ih]
    split <;> rfl

theorem get?_insert (t : Table α) (key : String) (value : α) (k : String)
    : (t.insert key value).get? k = if k = key then some value else t.get? k := by
  unfold get? insert
  dsimp only
  induction t.entries with
  | nil => exact lookup_cons k (key, value) []
  | cons first rest ih => grind [insertEntry, lookup_cons]

theorem contains_eq (t : Table α) (key : String) : t.contains key = t.keys.contains key := by
  unfold contains
  rw [Bool.eq_iff_iff, contains_iff_mem]
  exact isSome_lookup_iff

theorem contains_insert (t : Table α) (key : String) (value : α) (k : String)
    : (t.insert key value).contains k = (k = key || t.contains k) := by
  unfold contains
  rw [get?_insert]
  by_cases hk : k = key <;> simp [hk]

theorem keys_insert (t : Table α) (key : String) (value : α)
    : (t.insert key value).keys = if key ∈ t.keys then t.keys else t.keys ++ [key] :=
  keys_insertEntry key value t.entries

theorem keys_prefix_insert (t : Table α) (key : String) (value : α) : t.keys <+: (t.insert key value).keys := by
  rw [keys_insert]
  split
  · exact prefix_rfl
  · exact prefix_append _ _

theorem insertEntry_of_notMem {key : String} {value : α} {entries : List (String × α)}
    (h : key ∉ entries.map Prod.fst) : insertEntry key value entries = entries ++ [(key, value)] := by
  induction entries with
  | nil => rfl
  | cons first rest ih => grind [insertEntry]

theorem eq_or_mem_of_mem_insertEntry {key : String} {value : α} {entry : String × α}
    {entries : List (String × α)} (h : entry ∈ insertEntry key value entries)
    : entry = (key, value) ∨ entry ∈ entries := by
  induction entries with
  | nil => simpa [insertEntry] using h
  | cons first rest ih => grind [insertEntry]

theorem ofList_concat (entries : List (String × α)) (entry : String × α)
    : ofList (entries ++ [entry]) = (ofList entries).insert entry.1 entry.2 := by
  simp [ofList]

theorem mem_of_mem_ofList {entries : List (String × α)} {entry : String × α}
    (h : entry ∈ (ofList entries).entries) : entry ∈ entries := by
  induction entries using reverseRecOn with
  | nil => exact h
  | append_singleton entries last ih =>
    rw [ofList_concat] at h
    rw [mem_append, mem_singleton]
    obtain rfl | hmem := eq_or_mem_of_mem_insertEntry h
    · exact .inr rfl
    · exact .inl (ih hmem)

theorem entries_ofList {entries : List (String × α)} (h : (entries.map Prod.fst).Nodup)
    : (ofList entries).entries = entries := by
  induction entries using reverseRecOn with
  | nil => rfl
  | append_singleton entries last ih =>
    rw [map_append, nodup_append] at h
    obtain ⟨hentries, -, hlast⟩ := h
    rw [ofList_concat]
    change insertEntry _ _ (ofList entries).entries = _
    rw [ih hentries]
    exact insertEntry_of_notMem fun hmem => hlast _ hmem _ (mem_singleton_self _) rfl

theorem ofList_entries (t : Table α) : ofList t.entries = t := by
  have hentries := entries_ofList t.nodup
  cases t
  cases h : ofList _
  simp_all

end Table

namespace SortedTable

theorem get?_insert (t : SortedTable α) (key : String) (value : α) (k : String)
    : (t.insert key value).get? k = if k = key then some value else t.get? k := by
  unfold Table.get? insert ofAscending
  dsimp only
  induction t.entries with
  | nil => exact Table.lookup_cons k (key, value) []
  | cons first rest ih => grind [insertEntry, Table.lookup_cons]

theorem ofList_concat (entries : List (String × α)) (entry : String × α)
    : ofList (entries ++ [entry]) = (ofList entries).insert entry.1 entry.2 := by
  simp [ofList]

theorem get?_ofList (entries : List (String × α)) (key : String)
    : (ofList entries).get? key = entries.reverse.lookup key := by
  induction entries using reverseRecOn with
  | nil => rfl
  | append_singleton entries entry ih =>
    rw [ofList_concat, get?_insert, ih, reverse_append, reverse_singleton, singleton_append, Table.lookup_cons]

theorem ext {t t' : SortedTable α} (h : ∀ key, t.get? key = t'.get? key) : t = t' := by
  have hmem : ∀ entry, entry ∈ t.entries ↔ entry ∈ t'.entries := by
    intro entry
    rw [← Table.get?_eq_some_iff_mem, ← Table.get?_eq_some_iff_mem, h]
  have hperm := (perm_ext_iff_of_nodup (t.nodup.of_map Prod.fst) (t'.nodup.of_map Prod.fst)).mpr hmem
  have hentries : t.entries = t'.entries := by
    refine List.Perm.eq_of_pairwise ?_ t.ascending t'.ascending hperm
    intro a b _ _ hlt hgt
    exact absurd hgt (String.lt_asymm hlt)
  obtain ⟨⟨entries, _⟩, _⟩ := t
  obtain ⟨⟨entries', _⟩, _⟩ := t'
  obtain rfl : entries = entries' := hentries
  rfl

theorem mem_keys_ofList {k : String} {entries : List (String × α)}
    : k ∈ (ofList entries).keys ↔ k ∈ entries.map Prod.fst := by
  unfold Table.keys
  rw [← Table.isSome_lookup_iff, ← mem_reverse, ← map_reverse, ← Table.isSome_lookup_iff, ← get?_ofList]
  rfl

end SortedTable

namespace Table

theorem get?_sorted (t : Table α) (key : String) : t.sorted.get? key = t.get? key := by
  unfold sorted
  rw [SortedTable.get?_ofList]
  apply lookup_eq_of_perm _ (reverse_perm t.entries)
  rw [map_reverse, nodup_reverse]
  exact t.nodup

theorem perm_sorted (t : Table α) : t.sorted.entries.Perm t.entries := by
  refine (perm_ext_iff_of_nodup (t.sorted.nodup.of_map Prod.fst) (t.nodup.of_map Prod.fst)).mpr fun entry => ?_
  rw [← get?_eq_some_iff_mem, ← get?_eq_some_iff_mem, get?_sorted]

theorem sorted_eq_of_perm {t t' : Table α} (h : t.entries.Perm t'.entries) : t.sorted = t'.sorted := by
  apply SortedTable.ext
  intro key
  rw [get?_sorted, get?_sorted, get?_eq_of_perm h]

end Table

theorem SortedTable.ofList_entries (t : SortedTable α) : ofList t.entries = t :=
  ext (Table.get?_sorted t.toTable)

end NodeScript
