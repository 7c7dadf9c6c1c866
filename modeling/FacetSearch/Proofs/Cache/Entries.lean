import FacetSearch.Cache.Lru
import Mathlib

set_option autoImplicit false

/-! # Entries of a store

What reading and writing do to the entries of a store. A key under which there is an entry is read with
the value of that entry, which comes to the front; any other key is read without success, and nothing
moves (`read_of_mem`, `read_of_not_mem`). Writing an entry again makes room for it, and a new entry
takes the place of the last one when the store is full (`entries_write_of_mem`,
`entries_write_of_lt`, `entries_write_of_eq`). -/

namespace FacetSearch

namespace Lru

variable {α : Type} {c : Lru α} {key : String} {value : α}

/-- The keys of the entries, the latest used first. -/
def keys (c : Lru α) : List String := c.entries.map Prod.fst

theorem map_fst_others (c : Lru α) (key : String) :
    (c.others key).map Prod.fst = c.keys.filter (· ≠ key) := by
  rw [keys, List.filter_map]
  exact congrArg (List.map Prod.fst) (List.filter_congr fun entry _ => by simp [bne, beq_eq_decide])

theorem others_of_not_mem (h : key ∉ c.keys) : c.others key = c.entries :=
  List.filter_eq_self.2 fun _ hentry => bne_iff_ne.2 fun he => h (he ▸ List.mem_map_of_mem hentry)

theorem length_others_lt (h : key ∈ c.keys) : (c.others key).length < c.size := by
  obtain ⟨entry, hentry, rfl⟩ := List.mem_map.1 h
  exact List.length_filter_lt_length_iff_exists.2 ⟨entry, hentry, by simp⟩

/-! ## Reading -/

theorem read_of_lookup_eq_none (h : c.entries.lookup key = none) : c.read key = (none, c) := by
  rw [read, h]

theorem read_of_lookup_eq_some (h : c.entries.lookup key = some value) :
    c.read key = (some value, { c with entries := (key, value) :: c.others key }) := by
  rw [read, h]

theorem mem_of_read (h : (c.read key).1 = some value) : (key, value) ∈ c.entries := by
  unfold read at h
  split at h
  · exact absurd h (by simp)
  · next held hheld =>
    obtain rfl := Option.some.inj h
    obtain ⟨before, after, hsplit, -⟩ := List.lookup_eq_some_iff.1 hheld
    rw [hsplit]
    exact List.mem_append_right _ (List.mem_cons_self ..)

theorem read_of_not_mem (h : key ∉ c.keys) : c.read key = (none, c) := by
  have hnone : c.entries.lookup key = none := List.lookup_eq_none_iff.2 fun entry hentry =>
    bne_iff_ne.2 fun he => h (he ▸ List.mem_map_of_mem hentry)
  exact read_of_lookup_eq_none hnone

/-- A key that has an entry is read, and its entry comes to the front. -/
theorem read_of_mem (h : key ∈ c.keys) : ∃ value, (key, value) ∈ c.entries ∧
    c.read key = (some value, { c with entries := (key, value) :: c.others key }) := by
  cases hlookup : c.entries.lookup key with
  | none =>
      obtain ⟨entry, hentry, rfl⟩ := List.mem_map.1 h
      exact absurd (List.lookup_eq_none_iff.1 hlookup entry hentry) (by simp)
  | some value =>
      have hread := read_of_lookup_eq_some hlookup
      exact ⟨value, mem_of_read (congrArg Prod.fst hread), hread⟩

theorem isSome_read_iff : (c.read key).1.isSome = true ↔ key ∈ c.keys := by
  by_cases hkey : key ∈ c.keys
  · obtain ⟨held, -, hread⟩ := read_of_mem hkey
    simp [hread, hkey]
  · simp [read_of_not_mem hkey, hkey]

/-- Reading adds no entry. -/
theorem mem_entries_read {entry : String × α} (h : entry ∈ (c.read key).2.entries) :
    entry ∈ c.entries := by
  by_cases hkey : key ∈ c.keys
  · obtain ⟨value, hmem, hread⟩ := read_of_mem hkey
    rw [hread] at h
    rcases List.mem_cons.1 h with rfl | hother
    · exact hmem
    · exact (List.mem_filter.1 hother).1
  · rwa [read_of_not_mem hkey] at h

theorem capacity_read (c : Lru α) (key : String) : (c.read key).2.capacity = c.capacity := by
  rw [read]
  split <;> rfl

/-! ## Writing -/

/-- Every entry but the new one was there under another key. -/
theorem mem_entries_write {entry : String × α} (h : entry ∈ (c.write key value).entries) :
    entry = (key, value) ∨ entry ∈ c.entries ∧ entry.1 ≠ key := by
  rcases List.mem_cons.1 (List.mem_of_mem_take h) with hnew | hother
  · exact .inl hnew
  · obtain ⟨hold, hne⟩ := List.mem_filter.1 hother
    exact .inr ⟨hold, bne_iff_ne.1 hne⟩

theorem keys_write (c : Lru α) (key : String) (value : α) :
    (c.write key value).keys = (key :: c.keys.filter (· ≠ key)).take (max c.capacity 1) := by
  rw [← map_fst_others, keys, write, List.map_take, List.map_cons]

/-- An entry that is written again makes room for itself. -/
theorem entries_write_of_mem (h : key ∈ c.keys) (hsize : c.size ≤ max c.capacity 1) (value : α) :
    (c.write key value).entries = (key, value) :: c.others key :=
  List.take_of_length_le ((length_others_lt h).trans_le hsize)

theorem entries_write_of_lt (h : key ∉ c.keys) (hroom : c.size < max c.capacity 1) (value : α) :
    (c.write key value).entries = (key, value) :: c.entries := by
  rw [write, others_of_not_mem h]
  exact List.take_of_length_le hroom

/-- A new entry in a full store drops the last one. -/
theorem entries_write_of_eq (h : key ∉ c.keys) (hfull : c.size = max c.capacity 1) (value : α) :
    (c.write key value).entries = (key, value) :: c.entries.dropLast := by
  obtain ⟨n, hn⟩ : ∃ n, max c.capacity 1 = n + 1 := ⟨max c.capacity 1 - 1, by omega⟩
  rw [size, hn] at hfull
  rw [write, others_of_not_mem h, hn, List.take_succ_cons, List.dropLast_eq_take, hfull]
  rfl

end Lru

end FacetSearch
