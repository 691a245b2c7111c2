import Mathlib.Data.List.Induction
import Mathlib.Data.List.Nodup

/-!
# Numbered entries of a log

The entries of a list that are of one kind, each with its position (`numbered`), and logs that are kept apart by a key.
-/

namespace Lib

section Numbered

variable {α β : Type*} {f : α → Option β} {l : List α}

/-- What `f` makes of the entries, with their positions. -/
def numbered (f : α → Option β) (l : List α) : List (Nat × β) := l.zipIdx.filterMap (fun a => (f a.1).map (Prod.mk a.2))

theorem numbered_concat (f : α → Option β) (l : List α) (a : α) :
    numbered f (l ++ [a]) = numbered f l ++ ((f a).map (Prod.mk l.length)).toList := by
  unfold numbered
  rw [List.zipIdx_append, List.filterMap_append]
  cases h : f a <;> simp [h]

/-- What stands at a place. -/
theorem mem_numbered {i : Nat} {b : β} : (i, b) ∈ numbered f l ↔ ∃ a, l[i]? = some a ∧ f a = some b := by
  unfold numbered
  simp only [List.mem_filterMap, Prod.exists, List.mem_zipIdx_iff_getElem?, Option.map_eq_some_iff, Prod.mk.injEq]
  constructor
  · rintro ⟨a, j, hj, b', hb, rfl, rfl⟩
    exact ⟨a, hj, hb⟩
  · rintro ⟨a, ha, hb⟩
    exact ⟨a, i, ha, b, hb, rfl, rfl⟩

/-- The numbers ascend. -/
theorem numbered_pairwise (f : α → Option β) (l : List α) : (numbered f l).Pairwise (fun x y => x.1 < y.1) := by
  induction l using List.reverseRecOn with
  | nil => exact .nil
  | append_singleton l a ih =>
    rw [numbered_concat, List.pairwise_append]
    refine ⟨ih, ?_, ?_⟩
    · cases f a <;> simp
    · rintro ⟨i, b⟩ hi ⟨j, c⟩ hj
      obtain ⟨a', ha', -⟩ := mem_numbered.1 hi
      simp only [Option.mem_toList, Option.map_eq_some_iff, Prod.mk.injEq] at hj
      obtain ⟨c', -, rfl, -⟩ := hj
      exact (List.getElem?_eq_some_iff.1 ha').1

theorem map_snd_numbered (f : α → Option β) (l : List α) : (numbered f l).map Prod.snd = l.filterMap f := by
  induction l using List.reverseRecOn with
  | nil => rfl
  | append_singleton l a ih =>
    rw [numbered_concat, List.map_append, ih, List.filterMap_append]
    cases h : f a <;> simp [h]

end Numbered

/-- Entries whose numbers grow among those with one key are all different. -/
theorem nodup_of_filter {α κ : Type*} [DecidableEq κ] (key : α → κ) (n : α → Nat) {l : List α}
    (h : ∀ k, (l.filter (fun a => key a = k)).Pairwise (fun x y => n x < n y)) :
    (l.map (fun a => (key a, n a))).Nodup := by
  induction l with
  | nil => exact List.nodup_nil
  | cons a l ih =>
    rw [List.map_cons, List.nodup_cons]
    constructor
    · intro hmem
      obtain ⟨b, hb, heq⟩ := List.mem_map.1 hmem
      obtain ⟨hkey, hn⟩ := Prod.mk.inj heq
      have hpair := h (key a)
      rw [List.filter_cons_of_pos (by simp), List.pairwise_cons] at hpair
      have hlt := hpair.1 b (List.mem_filter.2 ⟨hb, by simpa using hkey⟩)
      omega
    · refine ih (fun k => ?_)
      have hpair := h k
      rw [List.filter_cons] at hpair
      split at hpair
      · exact (List.pairwise_cons.1 hpair).2
      · exact hpair

end Lib
