import Mathlib.Data.Finset.Card
import Mathlib.Data.Finset.Lattice.Basic
import Mathlib.Data.Finset.Image

/-!
# Finite partial maps

A hash map whose iteration order nobody may rely on: a finite set of keys and a lookup that is defined exactly on them.
The operations are the ones an `unordered_map` offers, `insert` (which keeps a value that is already there) apart from
`assign` (which does not), and each has one lemma that says what a lookup finds after it.
-/

namespace Lib

/-- A partial map with finitely many keys: the keys and the lookup, which agree. -/
structure PMap (κ α : Type) where
  keys : Finset κ
  get : κ → Option α
  mem_keys : ∀ k, k ∈ keys ↔ (get k).isSome = true

namespace PMap

variable {κ α : Type}

/-- The map without a key. -/
def empty : PMap κ α := ⟨∅, fun _ => none, by simp⟩

@[simp] theorem get_empty (k : κ) : (empty : PMap κ α).get k = none := rfl

/-- A key is looked up to a value. -/
theorem mem_keys_iff (m : PMap κ α) (k : κ) : k ∈ m.keys ↔ ∃ a, m.get k = some a := by
  rw [m.mem_keys, Option.isSome_iff_exists]

/-- Who has a value is a key. -/
theorem mem_keys_of_get {m : PMap κ α} {k : κ} {a : α} (h : m.get k = some a) : k ∈ m.keys :=
  (m.mem_keys_iff k).2 ⟨a, h⟩

/-- Who has none is not. -/
theorem get_eq_none_iff (m : PMap κ α) (k : κ) : m.get k = none ↔ k ∉ m.keys := by
  rw [m.mem_keys]
  simp

/-- The map of the keys that pass a test. -/
def filter (m : PMap κ α) (f : κ → Bool) : PMap κ α where
  keys := m.keys.filter (fun k => f k = true)
  get k := if f k then m.get k else none
  mem_keys k := by
    rw [Finset.mem_filter, m.mem_keys]
    by_cases hf : f k = true <;> simp [hf]

@[simp] theorem get_filter (m : PMap κ α) (f : κ → Bool) (k : κ) :
    (m.filter f).get k = if f k then m.get k else none := rfl

/-- Every value replaced by a function of its key and itself. -/
def mapVals (m : PMap κ α) (f : κ → α → α) : PMap κ α where
  keys := m.keys
  get k := (m.get k).map (f k)
  mem_keys k := by rw [m.mem_keys, Option.isSome_map]

@[simp] theorem get_mapVals (m : PMap κ α) (f : κ → α → α) (k : κ) : (m.mapVals f).get k = (m.get k).map (f k) := rfl

variable [DecidableEq κ]

/-- `operator[]` followed by an assignment: the key holds the value, whatever it held before. -/
def assign (m : PMap κ α) (k : κ) (a : α) : PMap κ α where
  keys := insert k m.keys
  get := Function.update m.get k (some a)
  mem_keys j := by
    rw [Finset.mem_insert, m.mem_keys]
    by_cases hj : j = k
    · subst hj; simp
    · simp [hj]

/-- `m[k] = a`. -/
theorem get_assign (m : PMap κ α) (k j : κ) (a : α) : (m.assign k a).get j = if j = k then some a else m.get j := by
  simp only [assign, Function.update_apply]

/-- `insert`: a key that is already there keeps its value. -/
def insert (m : PMap κ α) (k : κ) (a : α) : PMap κ α := if k ∈ m.keys then m else m.assign k a

/-- `insert` leaves an old value. -/
theorem get_insert (m : PMap κ α) (k j : κ) (a : α) :
    (m.insert k a).get j = if j = k then some ((m.get k).getD a) else m.get j := by
  unfold insert
  by_cases hk : k ∈ m.keys
  · obtain ⟨b, hb⟩ := (m.mem_keys_iff k).1 hk
    by_cases hj : j = k
    · subst hj; simp [hk, hb]
    · simp [hk, hj]
  · have hn := (m.get_eq_none_iff k).2 hk
    simp [hk, hn, get_assign]

/-- It adds a new one. -/
theorem get_insert_of_notMem {m : PMap κ α} {k : κ} (h : m.get k = none) (j : κ) (a : α) :
    (m.insert k a).get j = if j = k then some a else m.get j := by
  rw [get_insert, h, Option.getD_none]

theorem keys_insert (m : PMap κ α) (k : κ) (a : α) : (m.insert k a).keys = Insert.insert k m.keys := by
  unfold insert
  by_cases hk : k ∈ m.keys
  · rw [if_pos hk, Finset.insert_eq_of_mem hk]
  · rw [if_neg hk]
    rfl

/-- The value of one key changed in place; a key that is not there stays away. -/
def modify (m : PMap κ α) (k : κ) (f : α → α) : PMap κ α := m.mapVals (fun j a => if j = k then f a else a)

/-- One value changes. -/
theorem get_modify (m : PMap κ α) (k j : κ) (f : α → α) :
    (m.modify k f).get j = if j = k then (m.get j).map f else m.get j := by
  simp only [modify, get_mapVals]
  by_cases hj : j = k
  · simp [hj]
  · simp [hj]

theorem keys_modify (m : PMap κ α) (k : κ) (f : α → α) : (m.modify k f).keys = m.keys := rfl

/-- A key taken out. -/
def erase (m : PMap κ α) (k : κ) : PMap κ α := m.filter (fun j => decide (j ≠ k))

/-- One key goes. -/
theorem get_erase (m : PMap κ α) (k j : κ) : (m.erase k).get j = if j = k then none else m.get j := by
  simp only [erase, get_filter]
  by_cases hj : j = k <;> simp [hj]

/-- Every entry of the second map inserted into the first: on a common key the first one's value stays. -/
def union (m m' : PMap κ α) : PMap κ α where
  keys := m.keys ∪ m'.keys
  get k := (m.get k).or (m'.get k)
  mem_keys k := by rw [Finset.mem_union, m.mem_keys, m'.mem_keys, Option.isSome_or, Bool.or_eq_true]

@[simp] theorem get_union (m m' : PMap κ α) (k : κ) : (m.union m').get k = (m.get k).or (m'.get k) := rfl

end PMap

end Lib
