import FacetSearch.Proofs.Cache.Entries
import Mathlib

set_option autoImplicit false

/-! # What a store of recent entries holds

Calls on a store and their answers make a history. A key is used when a value is set under it or read
with success, and a store of capacity `c` holds the `max c 1` keys that were used last (`recency`). So
an entry is found exactly as long as fewer other keys than that were used since its own last use.

Nothing of this depends on how a store keeps its entries: whatever moves an entry to the front on each
use, and drops the last one to make room, has the same history (`Store.KeepsRecent`).

Calls and keys are listed with the latest first, as entries are. -/

namespace FacetSearch

/-! ## Calls and histories -/

/-- A call on a store. -/
inductive StoreCall (α : Type) where
  | get (key : String)
  | set (key : String) (value : α)

/-- A call with its answer. -/
abbrev Answered (α : Type) := StoreCall α × Option α

section

variable {α σ : Type} (call : σ → StoreCall α → Option α × σ) (start : σ)

/-- The store after calls. -/
def storeAfter : List (StoreCall α) → σ
  | [] => start
  | c :: earlier => (call (storeAfter earlier) c).2

/-- The calls with their answers. -/
def history : List (StoreCall α) → List (Answered α)
  | [] => []
  | c :: earlier => (c, (call (storeAfter call start earlier) c).1) :: history earlier

end

variable {α : Type} {key : String} {value : α}

/-- The value that a call sets under a key. -/
def StoreCall.setUnder? (key : String) : StoreCall α → Option α
  | get _ => none
  | set other value => if other = key then some value else none

/-- The value that was last set under a key. -/
def lastSet (key : String) (calls : List (StoreCall α)) : Option α :=
  calls.findSome? (StoreCall.setUnder? key)

/-- The key that a call uses: it is set, or read with success. -/
def usedKey? : Answered α → Option String
  | (.set key _, _) => some key
  | (.get key, answer) => answer.map fun _ => key

def usedKeys (h : List (Answered α)) : List String := h.filterMap usedKey?

/-- The other keys that were used since the last use of a key. -/
def rivals (key : String) (h : List (Answered α)) : Finset String :=
  ((usedKeys h).takeWhile (· ≠ key)).toFinset

/-- A key under which a value was set was used. -/
theorem mem_usedKeys_of_lastSet {σ : Type} {call : σ → StoreCall α → Option α × σ} {start : σ}
    {calls : List (StoreCall α)} (h : lastSet key calls = some value) :
    key ∈ usedKeys (history call start calls) := by
  induction calls with
  | nil => exact absurd h (by simp [lastSet])
  | cons request earlier ih =>
      rw [lastSet, List.findSome?_cons] at h
      rw [history, usedKeys, List.filterMap_cons]
      cases request with
      | get other =>
          have hearlier : key ∈ usedKeys (history call start earlier) := ih h
          split
          · exact hearlier
          · exact List.mem_cons_of_mem _ hearlier
      | set other set =>
          by_cases hother : other = key
          · exact hother ▸ List.mem_cons_self ..
          · rw [StoreCall.setUnder?, if_neg hother] at h
            exact List.mem_cons_of_mem _ (ih h)

/-! ## Order of last use -/

/-- Keys in the order of their last use. -/
def recency : List String → List String
  | [] => []
  | key :: earlier => key :: (recency earlier).filter (· ≠ key)

theorem mem_recency_iff {keys : List String} : key ∈ recency keys ↔ key ∈ keys := by
  induction keys with
  | nil => rfl
  | cons first earlier ih =>
      rw [recency, List.mem_cons, List.mem_cons, List.mem_filter, ih]
      by_cases hkey : key = first <;> simp [hkey]

theorem nodup_recency (keys : List String) : (recency keys).Nodup := by
  induction keys with
  | nil => exact List.nodup_nil
  | cons first earlier ih =>
      rw [recency]
      exact List.nodup_cons.2 ⟨by simp, ih.filter _⟩

/-- What another key leaves out stands in front only. -/
theorem takeWhile_filter_ne {first : String} (h : first ≠ key) (keys : List String) :
    (keys.filter (· ≠ first)).takeWhile (· ≠ key) = (keys.takeWhile (· ≠ key)).filter (· ≠ first) := by
  induction keys with
  | nil => rfl
  | cons next rest ih =>
      by_cases hfirst : next = first
      · have hkey : next ≠ key := hfirst ▸ h
        rw [List.filter_cons_of_neg (by simpa using hfirst), List.takeWhile_cons_of_pos (by simpa using hkey),
          List.filter_cons_of_neg (by simpa using hfirst), ih]
      · rw [List.filter_cons_of_pos (by simpa using hfirst)]
        by_cases hkey : next = key
        · rw [List.takeWhile_cons_of_neg (by simpa using hkey), List.takeWhile_cons_of_neg (by simpa using hkey)]
          rfl
        · rw [List.takeWhile_cons_of_pos (by simpa using hkey), List.takeWhile_cons_of_pos (by simpa using hkey),
            List.filter_cons_of_pos (by simpa using hfirst), ih]

/-- **The keys in front of a key are those used since.** -/
theorem toFinset_takeWhile_recency (key : String) (keys : List String) :
    ((recency keys).takeWhile (· ≠ key)).toFinset = (keys.takeWhile (· ≠ key)).toFinset := by
  induction keys with
  | nil => rfl
  | cons first earlier ih =>
      rw [recency]
      by_cases hfirst : first = key
      · simp [hfirst]
      · rw [List.takeWhile_cons_of_pos (by simpa using hfirst), List.takeWhile_cons_of_pos (by simpa using hfirst),
          List.toFinset_cons, List.toFinset_cons, takeWhile_filter_ne hfirst, ← ih]
        ext other
        by_cases hother : other = first <;> simp [hother]

theorem mem_take_iff_takeWhile {keys : List String} {n : Nat} :
    key ∈ keys.take n ↔ key ∈ keys ∧ (keys.takeWhile (· ≠ key)).length < n := by
  induction keys generalizing n with
  | nil => simp
  | cons first rest ih =>
      cases n with
      | zero => simp
      | succ n =>
          rw [List.take_succ_cons, List.mem_cons, List.mem_cons, ih]
          by_cases hfirst : first = key
          · simp [hfirst]
          · rw [List.takeWhile_cons_of_pos (by simpa using hfirst)]
            simp [Ne.symm hfirst]

/-- A key is among the `n` that were used last when fewer than `n` others were used since. -/
theorem mem_take_recency_iff {keys : List String} {n : Nat} :
    key ∈ (recency keys).take n ↔ key ∈ keys ∧ (keys.takeWhile (· ≠ key)).toFinset.card < n := by
  have hnodup : ((recency keys).takeWhile (· ≠ key)).Nodup :=
    (nodup_recency keys).sublist (List.takeWhile_sublist _)
  rw [mem_take_iff_takeWhile, mem_recency_iff, ← toFinset_takeWhile_recency,
    List.toFinset_card_of_nodup hnodup]

/-- A key is put in front of the first `n + 1` as of all, since it stands in one place at most. -/
theorem take_filter_take {keys : List String} (h : keys.Nodup) (key : String) (n : Nat) :
    ((keys.take (n + 1)).filter (· ≠ key)).take n = (keys.filter (· ≠ key)).take n := by
  induction keys generalizing n with
  | nil => simp
  | cons first rest ih =>
      obtain ⟨hfirst, hrest⟩ := List.nodup_cons.1 h
      rw [List.take_succ_cons]
      by_cases hkey : first = key
      · have hall (l : List String) (hl : ∀ other ∈ l, other ∈ rest) : l.filter (· ≠ key) = l :=
          List.filter_eq_self.2 fun other hother =>
            decide_eq_true fun he => hfirst (hkey ▸ he ▸ hl other hother)
        rw [List.filter_cons_of_neg (by simpa using hkey), List.filter_cons_of_neg (by simpa using hkey),
          hall _ fun other hother => List.mem_of_mem_take hother, hall _ fun _ => id, List.take_take,
          Nat.min_self]
      · rw [List.filter_cons_of_pos (by simpa using hkey), List.filter_cons_of_pos (by simpa using hkey)]
        cases n with
        | zero => rfl
        | succ n => rw [List.take_succ_cons, List.take_succ_cons, ih hrest]

/-! ## Reading and writing -/

namespace Lru

def call (c : Lru α) : StoreCall α → Option α × Lru α
  | .get key => c.read key
  | .set key value => (none, c.write key value)

variable {c : Lru α}

/-- The store holds the keys that were used last, with the values that were last set. -/
structure Recent (capacity : Nat) (calls : List (StoreCall α)) (h : List (Answered α)) (c : Lru α) :
    Prop where
  capacity_eq : c.capacity = capacity
  keys_eq : c.keys = (recency (usedKeys h)).take (max capacity 1)
  lastSet_eq : ∀ entry ∈ c.entries, lastSet entry.1 calls = some entry.2

theorem recent_empty (capacity : Nat) : Recent capacity [] [] (empty capacity : Lru α) :=
  ⟨rfl, by simp [keys, empty, usedKeys, recency], by simp [empty]⟩

variable {capacity : Nat} {calls : List (StoreCall α)} {h : List (Answered α)}

/-- A key that was just used stands in front of the others that are held. -/
theorem cons_filter_take (keys : List String) (hnodup : keys.Nodup) (key : String) :
    (key :: (keys.take (max capacity 1)).filter (· ≠ key)).take (max capacity 1)
      = (key :: keys.filter (· ≠ key)).take (max capacity 1) := by
  obtain ⟨n, hn⟩ : ∃ n, max capacity 1 = n + 1 := ⟨max capacity 1 - 1, by omega⟩
  rw [hn, List.take_succ_cons, List.take_succ_cons, take_filter_take hnodup]

theorem Recent.size_le (hc : Recent capacity calls h c) : c.size ≤ max capacity 1 := by
  rw [size, ← List.length_map (f := Prod.fst), ← keys, hc.keys_eq]
  exact List.length_take_le ..

theorem Recent.nodup_keys (hc : Recent capacity calls h c) : c.keys.Nodup := by
  rw [hc.keys_eq]
  exact (nodup_recency _).sublist (List.take_sublist ..)

theorem Recent.mem_keys_iff (hc : Recent capacity calls h c) :
    key ∈ c.keys ↔ key ∈ usedKeys h ∧ (rivals key h).card < max capacity 1 := by
  rw [hc.keys_eq, mem_take_recency_iff, rivals]

theorem Recent.write (hc : Recent capacity calls h c) (key : String) (value : α) :
    Recent capacity (.set key value :: calls) ((.set key value, none) :: h) (c.write key value) where
  capacity_eq := hc.capacity_eq
  keys_eq := by
    rw [keys_write, hc.capacity_eq, hc.keys_eq, cons_filter_take _ (nodup_recency _)]
    rfl
  lastSet_eq entry hentry := by
    rcases mem_entries_write hentry with rfl | ⟨hold, hne⟩
    · simp [lastSet, StoreCall.setUnder?]
    · rw [← hc.lastSet_eq entry hold, lastSet, List.findSome?_cons, StoreCall.setUnder?, if_neg hne.symm]
      rfl

theorem Recent.read_hit (hc : Recent capacity calls h c) {key : String} {value : α}
    (hmem : (key, value) ∈ c.entries) :
    Recent capacity (.get key :: calls) ((.get key, some value) :: h)
      { c with entries := (key, value) :: c.others key } where
  capacity_eq := hc.capacity_eq
  keys_eq := by
    -- a key that moves to the front leaves its old place, so that all still fit
    have hfits : (key :: (c.others key).map Prod.fst).length ≤ max capacity 1 := by
      rw [List.length_cons, List.length_map]
      exact (length_others_lt (List.mem_map.2 ⟨_, hmem, rfl⟩)).trans_le hc.size_le
    calc key :: (c.others key).map Prod.fst
      _ = (key :: c.keys.filter (· ≠ key)).take (max capacity 1) := by
        rw [← List.take_of_length_le hfits, map_fst_others]
      _ = (key :: (recency (usedKeys h)).filter (· ≠ key)).take (max capacity 1) := by
        rw [hc.keys_eq, cons_filter_take _ (nodup_recency _)]
  lastSet_eq entry hentry := by
    have hold : entry ∈ c.entries := by
      rcases List.mem_cons.1 hentry with rfl | hother
      · exact hmem
      · exact (List.mem_filter.1 hother).1
    exact hc.lastSet_eq entry hold

theorem Recent.read_miss (hc : Recent capacity calls h c) (key : String) :
    Recent capacity (.get key :: calls) ((.get key, none) :: h) c :=
  ⟨hc.capacity_eq, hc.keys_eq, hc.lastSet_eq⟩

theorem Recent.call (hc : Recent capacity calls h c) (request : StoreCall α) :
    Recent capacity (request :: calls) ((request, (c.call request).1) :: h) (c.call request).2 := by
  cases request with
  | set key value => exact hc.write key value
  | get key =>
      by_cases hkey : key ∈ c.keys
      · obtain ⟨value, hmem, hread⟩ := read_of_mem hkey
        rw [Lru.call, hread]
        exact hc.read_hit hmem
      · rw [Lru.call, read_of_not_mem hkey]
        exact hc.read_miss key

/-- A new store after calls. -/
def after (capacity : Nat) (calls : List (StoreCall α)) : Lru α :=
  storeAfter call (empty capacity) calls

def answers (capacity : Nat) (calls : List (StoreCall α)) : List (Answered α) :=
  history call (empty capacity) calls

/-- **After any calls, a store holds the keys that were used last.** -/
theorem recent_after (capacity : Nat) (calls : List (StoreCall α)) :
    Recent capacity calls (answers capacity calls) (after capacity calls) := by
  induction calls with
  | nil => exact recent_empty capacity
  | cons request earlier ih => exact ih.call request

theorem Recent.read_eq_some_iff (hc : Recent capacity calls h c)
    (hused : ∀ value, lastSet key calls = some value → key ∈ usedKeys h) :
    (c.read key).1 = some value
      ↔ lastSet key calls = some value ∧ (rivals key h).card < max capacity 1 := by
  by_cases hkey : key ∈ c.keys
  · obtain ⟨held, hmem, hread⟩ := read_of_mem hkey
    have hlast : lastSet key calls = some held := hc.lastSet_eq _ hmem
    rw [hread, hlast]
    simp [(hc.mem_keys_iff.1 hkey).2]
  · rw [read_of_not_mem hkey]
    rw [hc.mem_keys_iff] at hkey
    exact ⟨fun h => absurd h (by simp), fun ⟨hset, hcard⟩ => absurd ⟨hused _ hset, hcard⟩ hkey⟩

theorem Recent.encard_eq (hc : Recent capacity calls h c) :
    {key | (c.read key).1.isSome = true}.encard = c.size := by
  have hset : {key | (c.read key).1.isSome = true} = (c.keys.toFinset : Set String) := by
    ext key
    simp [isSome_read_iff]
  rw [hset, Set.encard_coe_eq_coe_finsetCard, List.toFinset_card_of_nodup hc.nodup_keys, keys,
    List.length_map, size]

end Lru

/-! ## Stores known by their operations -/

/-- A store of bounded size, of which only the operations are known. -/
structure Store (α : Type) where
  State : Type
  new : Nat → State
  get : State → String → Option α × State
  put : State → String → α → State
  size : State → Nat
  capacity : State → Nat
  /-- The entries, the latest used first. -/
  entries : State → List (String × α)

namespace Store

/-- Reading and writing move an entry to the front, and writing to a full store drops the last one. -/
structure KeepsRecent (s : Store α) : Prop where
  entries_new : ∀ n, s.entries (s.new n) = []
  capacity_new : ∀ n, 0 < n → s.capacity (s.new n) = n
  size_eq : ∀ st, s.size st = (s.entries st).length
  get_miss : ∀ st key, (s.entries st).lookup key = none →
    (s.get st key).1 = none ∧ s.entries (s.get st key).2 = s.entries st
  get_hit : ∀ st key value, (s.entries st).lookup key = some value →
    (s.get st key).1 = some value ∧
      s.entries (s.get st key).2 = (key, value) :: (s.entries st).filter fun entry => entry.1 != key
  capacity_get : ∀ st key, s.capacity (s.get st key).2 = s.capacity st
  put_held : ∀ st key value, key ∈ (s.entries st).map Prod.fst → s.size st ≤ s.capacity st →
    s.entries (s.put st key value) = (key, value) :: (s.entries st).filter fun entry => entry.1 != key
  put_room : ∀ st key value, key ∉ (s.entries st).map Prod.fst → s.size st < s.capacity st →
    s.entries (s.put st key value) = (key, value) :: s.entries st
  put_full : ∀ st key value, key ∉ (s.entries st).map Prod.fst → s.size st = s.capacity st →
    s.entries (s.put st key value) = (key, value) :: (s.entries st).dropLast
  capacity_put : ∀ st key value, s.capacity (s.put st key value) = s.capacity st

def call (s : Store α) (st : s.State) : StoreCall α → Option α × s.State
  | .get key => s.get st key
  | .set key value => (none, s.put st key value)

/-- The two stores hold the same entries and have room for as many. -/
structure Matches (s : Store α) (st : s.State) (c : Lru α) : Prop where
  entries_eq : s.entries st = c.entries
  capacity_eq : s.capacity st = max c.capacity 1

variable {s : Store α} {st : s.State} {c : Lru α}

theorem Matches.get (hs : s.KeepsRecent) (h : s.Matches st c) (key : String) :
    (s.get st key).1 = (c.read key).1 ∧ s.Matches (s.get st key).2 (c.read key).2 := by
  have hcapacity : s.capacity (s.get st key).2 = max (c.read key).2.capacity 1 := by
    rw [hs.capacity_get, h.capacity_eq, Lru.capacity_read]
  cases hlookup : c.entries.lookup key with
  | none =>
      obtain ⟨hanswer, hkept⟩ := hs.get_miss st key (h.entries_eq ▸ hlookup)
      rw [Lru.read_of_lookup_eq_none hlookup] at hcapacity ⊢
      exact ⟨hanswer, hkept.trans h.entries_eq, hcapacity⟩
  | some value =>
      obtain ⟨hanswer, hmoved⟩ := hs.get_hit st key value (h.entries_eq ▸ hlookup)
      rw [Lru.read_of_lookup_eq_some hlookup] at hcapacity ⊢
      exact ⟨hanswer, by rw [hmoved, h.entries_eq]; rfl, hcapacity⟩

theorem Matches.put (hs : s.KeepsRecent) (h : s.Matches st c) (hsize : c.size ≤ max c.capacity 1)
    (key : String) (value : α) : s.Matches (s.put st key value) (c.write key value) := by
  have hlength : s.size st = c.size := by rw [hs.size_eq, h.entries_eq, Lru.size]
  refine ⟨?_, by rw [hs.capacity_put, h.capacity_eq]; rfl⟩
  by_cases hkey : key ∈ c.keys
  · rw [Lru.entries_write_of_mem hkey hsize, hs.put_held st key value (by rwa [h.entries_eq])
      (by rw [hlength, h.capacity_eq]; exact hsize), h.entries_eq]
    rfl
  · rcases hsize.lt_or_eq with hroom | hfull
    · rw [Lru.entries_write_of_lt hkey hroom, hs.put_room st key value (by rwa [h.entries_eq])
        (by rw [hlength, h.capacity_eq]; exact hroom), h.entries_eq]
    · rw [Lru.entries_write_of_eq hkey hfull, hs.put_full st key value (by rwa [h.entries_eq])
        (by rw [hlength, h.capacity_eq]; exact hfull), h.entries_eq]

/-- A store of the given capacity after calls; it has room for one entry at least. -/
def after (s : Store α) (capacity : Nat) (calls : List (StoreCall α)) : s.State :=
  storeAfter s.call (s.new (max capacity 1)) calls

def answers (s : Store α) (capacity : Nat) (calls : List (StoreCall α)) : List (Answered α) :=
  history s.call (s.new (max capacity 1)) calls

/-- **However a store keeps its entries, it answers alike.** -/
theorem KeepsRecent.matches_after (hs : s.KeepsRecent) (capacity : Nat) (calls : List (StoreCall α)) :
    s.answers capacity calls = Lru.answers capacity calls ∧
      s.Matches (s.after capacity calls) (Lru.after capacity calls) := by
  induction calls with
  | nil => exact ⟨rfl, hs.entries_new _, hs.capacity_new _ (by omega)⟩
  | cons request earlier ih =>
      obtain ⟨hanswers, hmatch⟩ := ih
      have hrecent := Lru.recent_after capacity earlier
      cases request with
      | get key =>
          obtain ⟨hanswer, hnext⟩ := hmatch.get hs key
          exact ⟨congrArg₂ (fun answer rest => (StoreCall.get key, answer) :: rest) hanswer hanswers, hnext⟩
      | set key value =>
          have hsize : (Lru.after capacity earlier).size ≤ max (Lru.after capacity earlier).capacity 1 := by
            rw [hrecent.capacity_eq]
            exact hrecent.size_le
          exact ⟨congrArg (List.cons _) hanswers, hmatch.put hs hsize key value⟩

end Store

/-- The store of this library. -/
def Lru.store (α : Type) : Store α where
  State := Lru α
  new := Lru.empty
  get := Lru.read
  put := Lru.write
  size := Lru.size
  capacity c := max c.capacity 1
  entries := Lru.entries

theorem Lru.store_keepsRecent (α : Type) : (Lru.store α).KeepsRecent where
  entries_new _ := rfl
  capacity_new _ hn := Nat.max_eq_left hn
  size_eq _ := rfl
  get_miss _ _ hmiss :=
    have hread := read_of_lookup_eq_none hmiss
    ⟨congrArg Prod.fst hread, congrArg (Lru.entries ·.2) hread⟩
  get_hit _ _ _ hhit :=
    have hread := read_of_lookup_eq_some hhit
    ⟨congrArg Prod.fst hread, congrArg (Lru.entries ·.2) hread⟩
  capacity_get c key := congrArg (max · 1) (capacity_read c key)
  put_held _ _ value hkey hsize := entries_write_of_mem hkey hsize value
  put_room _ _ value hkey hroom := entries_write_of_lt hkey hroom value
  put_full _ _ value hkey hfull := entries_write_of_eq hkey hfull value
  capacity_put _ _ _ := rfl

/-! ## What is found -/

/-- **A store holds what was used last.** Whatever is read and written, a store of capacity `c` has as
    many entries as there are keys that can be read, and no more than `max c 1`. A key is read with the
    value that was last set under it, as long as fewer than `max c 1` other keys were used since its own
    last use, and otherwise without success. Every store that moves the entries it uses to the front and
    drops the last one when it is full gives the same answers. -/
theorem recent_entries_found (capacity : Nat) (calls : List (StoreCall α)) :
    {key | ((Lru.after capacity calls).read key).1.isSome = true}.encard
      = (Lru.after capacity calls).size ∧
    (Lru.after capacity calls).size ≤ max capacity 1 ∧
    (∀ key value, ((Lru.after capacity calls).read key).1 = some value ↔
      lastSet key calls = some value ∧ (rivals key (Lru.answers capacity calls)).card < max capacity 1) ∧
    (∀ key, ((Lru.after capacity calls).read key).1 = none ↔
      lastSet key calls = none ∨ max capacity 1 ≤ (rivals key (Lru.answers capacity calls)).card) ∧
    ∀ s : Store α, s.KeepsRecent →
      s.answers capacity calls = Lru.answers capacity calls ∧
      s.size (s.after capacity calls) = (Lru.after capacity calls).size ∧
      ∀ key, (s.get (s.after capacity calls) key).1 = ((Lru.after capacity calls).read key).1 := by
  have hrecent := Lru.recent_after capacity calls
  have hread (key : String) (value : α) : ((Lru.after capacity calls).read key).1 = some value ↔
      lastSet key calls = some value ∧ (rivals key (Lru.answers capacity calls)).card < max capacity 1 :=
    hrecent.read_eq_some_iff fun _ hset => mem_usedKeys_of_lastSet hset
  refine ⟨hrecent.encard_eq, hrecent.size_le, hread, fun key => ?_, fun s hs => ?_⟩
  · simp only [Option.eq_none_iff_forall_ne_some, ne_eq, hread, not_and, not_lt]
    cases lastSet key calls <;> simp
  · obtain ⟨hanswers, hmatch⟩ := hs.matches_after capacity calls
    refine ⟨hanswers, ?_, fun key => (hmatch.get hs key).1⟩
    rw [hs.size_eq, hmatch.entries_eq, Lru.size]

/-- Two entries at most; the first one is read before a third is set. -/
def threeSets : List (StoreCall Nat) := [.set "c" 3, .get "a", .set "b" 2, .set "a" 1]

theorem recent_entries_found_threeSets : (Lru.store Nat).KeepsRecent ∧
    ((Lru.store Nat).get ((Lru.store Nat).after 2 threeSets) "a").1 = some 1 ∧
    ((Lru.store Nat).get ((Lru.store Nat).after 2 threeSets) "b").1 = none := by
  obtain ⟨-, -, hsome, hnone, hstore⟩ := recent_entries_found 2 threeSets
  obtain ⟨-, -, hget⟩ := hstore _ (Lru.store_keepsRecent Nat)
  refine ⟨Lru.store_keepsRecent Nat, ?_, ?_⟩
  · rw [hget, hsome]
    decide
  · rw [hget, hnone]
    decide

end FacetSearch
