import Mathlib.Algebra.BigOperators.Group.Finset.Piecewise
import Mathlib.Data.Bool.Basic
import Mathlib.Data.List.Nodup

/-!
# Counting parties

How many parties of a finite set are in a state with some property, when they move one at a time; and lists of parties,
where each party is in the list that its place names, once, and in no other one.
-/

namespace Lib

open Function

variable {ι X : Type}

/-- How many of the parties in `U` are in a state with `p`. -/
def countIn (U : Finset ι) (p : X → Bool) (f : ι → X) : Nat := (U.filter (fun i => p (f i) = true)).card

theorem countIn_eq_sum (U : Finset ι) (p : X → Bool) (f : ι → X) : countIn U p f = ∑ i ∈ U, (p (f i)).toNat := by
  unfold countIn
  rw [Finset.card_filter]
  refine Finset.sum_congr rfl (fun i _ => ?_)
  cases p (f i) <;> rfl

variable {U : Finset ι} {p : X → Bool} {f : ι → X}

/-- One party moves: in a sum over all parties its part changes, and nothing else. -/
theorem sum_update [DecidableEq ι] {M : Type} [AddCommMonoid M] {i : ι} (hi : i ∈ U) (g : X → M) (f : ι → X) (x : X) :
    ∑ j ∈ U, g (update f i x j) + g (f i) = ∑ j ∈ U, g (f j) + g x := by
  have hrest : ∑ j ∈ U.erase i, g (update f i x j) = ∑ j ∈ U.erase i, g (f j) :=
    Finset.sum_congr rfl (fun j hj => by rw [update_of_ne (Finset.ne_of_mem_erase hj)])
  rw [← Finset.add_sum_erase _ _ hi, ← Finset.add_sum_erase U (fun j => g (f j)) hi, hrest, update_self, add_right_comm,
    add_comm (g x), add_right_comm]

/-- One party moves: it counts no more as it was, but as it is now. -/
theorem countIn_update [DecidableEq ι] {i : ι} (hi : i ∈ U) (p : X → Bool) (f : ι → X) (x : X) :
    countIn U p (update f i x) + (p (f i)).toNat = countIn U p f + (p x).toNat := by
  rw [countIn_eq_sum, countIn_eq_sum]
  exact sum_update hi (fun y => (p y).toNat) f x

theorem countIn_pos : 0 < countIn U p f ↔ ∃ i ∈ U, p (f i) = true := by
  unfold countIn
  rw [Finset.card_pos]
  constructor
  · rintro ⟨i, hi⟩
    exact ⟨i, (Finset.mem_filter.1 hi).1, (Finset.mem_filter.1 hi).2⟩
  · rintro ⟨i, hi, hp⟩
    exact ⟨i, Finset.mem_filter.2 ⟨hi, hp⟩⟩

theorem countIn_eq_zero (h : ∀ i ∈ U, p (f i) = false) : countIn U p f = 0 := by
  refine Nat.eq_zero_of_not_pos (fun hpos => ?_)
  obtain ⟨i, hi, hp⟩ := countIn_pos.1 hpos
  rw [h i hi] at hp
  nomatch hp

theorem countIn_le {q : X → Bool} (h : ∀ i ∈ U, p (f i) = true → q (f i) = true) :
    countIn U p f ≤ countIn U q f := by
  refine Finset.card_le_card (fun i hi => ?_)
  obtain ⟨hiU, hp⟩ := Finset.mem_filter.1 hi
  exact Finset.mem_filter.2 ⟨hiU, h i hiU hp⟩

/-! ## Lists of parties -/

section

variable {K : Type} [DecidableEq ι] [DecidableEq X]

/-- Each party is once in the list that its place names, and in no other one. -/
def Listed (f : K → List ι) (mk : K → X) (place : ι → X) :
    Prop := ∀ k i, (f k).count i = if place i = mk k then 1 else 0

namespace Listed

variable {f f' : K → List ι} {mk : K → X} {place place' : ι → X} {k : K} {i : ι}

theorem mem (h : Listed f mk place) : i ∈ f k ↔ place i = mk k := by
  rw [← List.count_pos_iff, h k i]
  split
  · rename_i hi
    simp [hi]
  · rename_i hi
    simp [hi]

theorem nodup (h : Listed f mk place) (k : K) : (f k).Nodup := by
  rw [List.nodup_iff_count_le_one]
  intro i
  rw [h k i]
  split
  · exact Nat.le_refl 1
  · exact Nat.zero_le 1

/-- The lists stay as they are, and nobody moves to a place in a list or away from one. -/
theorem congr (h : Listed f mk place) (hf : ∀ k, f' k = f k) (hplace : ∀ i k, place' i = mk k ↔ place i = mk k) :
    Listed f' mk place' := by
  intro k i
  rw [hf, h k i]
  simp only [hplace]

variable [DecidableEq K]

/-- A party that is in no list joins one. -/
theorem add (h : Listed f mk place) (hinj : Injective mk) (hf : ∀ k', f' k' = if k' = k then i :: f k else f k')
    (hi : ∀ k', place i ≠ mk k') (hnew : place' i = mk k)
    (hother : ∀ j, j ≠ i → ∀ k', place' j = mk k' ↔ place j = mk k') :
    Listed f' mk place' := by
  intro k' j
  rw [hf]
  by_cases hj : j = i
  · subst hj
    rw [hnew]
    by_cases hk : k' = k
    · subst hk
      rw [if_pos rfl, List.count_cons_self, h k' j, if_neg (hi k'), if_pos rfl]
    · rw [if_neg hk, h k' j, if_neg (hi k'), if_neg (fun heq => hk (hinj heq).symm)]
  · simp only [hother j hj]
    by_cases hk : k' = k
    · subst hk
      rw [if_pos rfl, List.count_cons_of_ne (Ne.symm hj), h k' j]
    · rw [if_neg hk, h k' j]

/-- The first one of a list leaves. -/
theorem take (h : Listed f mk place) (hinj : Injective mk) {rest : List ι} (hk : f k = i :: rest)
    (hf : ∀ k', f' k' = if k' = k then rest else f k') (hgone : ∀ k', place' i ≠ mk k')
    (hother : ∀ j, j ≠ i → ∀ k', place' j = mk k' ↔ place j = mk k') : Listed f' mk place' := by
  have hi : place i = mk k := h.mem.1 (by rw [hk]; exact List.mem_cons_self)
  intro k' j
  rw [hf]
  by_cases hj : j = i
  · subst hj
    rw [if_neg (hgone k')]
    have hcount := h k' j
    by_cases hk' : k' = k
    · subst hk'
      rw [hk, List.count_cons_self, if_pos hi] at hcount
      rw [if_pos rfl]
      omega
    · rw [if_neg hk', hcount, if_neg (by rw [hi]; exact fun heq => hk' (hinj heq).symm)]
  · simp only [hother j hj, ← h k' j]
    by_cases hk' : k' = k
    · subst hk'
      rw [if_pos rfl, hk, List.count_cons_of_ne (Ne.symm hj)]
    · rw [if_neg hk']

/-- All of one list leave. -/
theorem clear (h : Listed f mk place) (hf : ∀ k', f' k' = if k' = k then [] else f k')
    (hplace : ∀ j k', place' j = mk k' ↔ k' ≠ k ∧ place j = mk k') : Listed f' mk place' := by
  intro k' j
  rw [hf]
  simp only [hplace]
  by_cases hk : k' = k
  · simp [hk]
  · simp [hk, h k' j]

end Listed

end

end Lib
