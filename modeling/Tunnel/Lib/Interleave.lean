import Mathlib.Algebra.BigOperators.Group.Finset.Piecewise
import Mathlib.Algebra.GroupWithZero.Nat
import Mathlib.Algebra.Order.Group.Multiset
import Mathlib.Data.List.ReduceOption

/-!
# Interleavings

A list of tagged elements is several lists at once, one for each tag (`streamOf`). A list without tags is an
interleaving of the lists of a family when tags can be given back to its elements; the order within each list of the
family is kept. How the family was interleaved does not matter for what is in the list, and there is no choice at all
when the family has one member.
-/

namespace Lib

open Function

variable {W M N : Type} [DecidableEq W]

/-- The elements with one tag, in their order. -/
def streamOf (t : List (W × M)) (w : W) : List M := (t.filter (fun x => x.1 = w)).map (·.2)

@[simp] theorem streamOf_nil (w : W) : streamOf ([] : List (W × M)) w = [] := rfl

theorem streamOf_append (t t' : List (W × M)) (w : W) : streamOf (t ++ t') w = streamOf t w ++ streamOf t' w := by
  simp [streamOf]

theorem streamOf_cons_self (t : List (W × M)) (w : W) (m : M) : streamOf ((w, m) :: t) w = m :: streamOf t w := by
  simp [streamOf]

theorem streamOf_cons_ne (t : List (W × M)) {w v : W} (m : M) (h : v ≠ w) :
    streamOf ((w, m) :: t) v = streamOf t v := by
  simp [streamOf, Ne.symm h]

theorem streamOf_cons (t : List (W × M)) (x : W × M) (w : W) :
    streamOf (x :: t) w = if x.1 = w then x.2 :: streamOf t w else streamOf t w := by
  by_cases h : x.1 = w <;> simp [streamOf, h]

theorem streamOf_map (f : M → N) (t : List (W × M)) (w : W) :
    streamOf (t.map (fun x => (x.1, f x.2))) w = (streamOf t w).map f := by
  simp [streamOf, List.filter_map, comp_def]

theorem streamOf_flatMap {α : Type} (f : α → List (W × M)) (l : List α) (w : W) :
    streamOf (l.flatMap f) w = l.flatMap (fun a => streamOf (f a) w) := by
  induction l with
  | nil => rfl
  | cons a l ih => rw [List.flatMap_cons, streamOf_append, ih, List.flatMap_cons]

/-- One copy for each tag. -/
theorem streamOf_copies (m : M) {n i : Nat} (hi : i < n) : streamOf ((List.range n).map (fun j => (j, m))) i = [m] := by
  have hfilter : (List.range n).filter (fun j => decide (j = i)) = [i] := by
    rw [List.filter_eq, List.count_eq_one_of_mem List.nodup_range (List.mem_range.2 hi)]
    rfl
  simp only [streamOf, List.filter_map, List.map_map, comp_def, hfilter]
  rfl

/-- `l` holds the lists of a family, mixed. -/
def Interleaves (S : Finset W) (streams : W → List M) (l : List M) : Prop :=
  ∃ t : List (W × M), t.map (·.2) = l ∧ (∀ x ∈ t, x.1 ∈ S) ∧ ∀ w ∈ S, streamOf t w = streams w

namespace Interleaves

variable {S : Finset W} {f g : W → List M} {l l' : List M}

/-- Only the lists of the members matter. -/
theorem congr (h : Interleaves S f l) (hfg : ∀ w ∈ S, f w = g w) : Interleaves S g l := by
  obtain ⟨t, ht, hmem, hf⟩ := h
  exact ⟨t, ht, hmem, fun w hw => (hf w hw).trans (hfg w hw)⟩

/-- The tags renamed. -/
theorem of_image {W' : Type} [DecidableEq W'] {e : W' → W} (he : Injective e) {S : Finset W'}
    (h : Interleaves (S.image e) f l) : Interleaves S (fun w => f (e w)) l := by
  obtain ⟨t, ht, hmem, hf⟩ := h
  have hback : ∀ t : List (W × M), (∀ x ∈ t, x.1 ∈ S.image e) →
      ∃ t' : List (W' × M), t'.map (fun x => (e x.1, x.2)) = t ∧ ∀ x ∈ t', x.1 ∈ S := by
    intro t
    induction t with
    | nil => exact fun _ => ⟨[], rfl, nofun⟩
    | cons x t ih =>
      intro hx
      obtain ⟨t', ht', hS⟩ := ih (fun y hy => hx y (List.mem_cons_of_mem _ hy))
      obtain ⟨w, hw, hxw⟩ := Finset.mem_image.1 (hx x List.mem_cons_self)
      refine ⟨(w, x.2) :: t', by rw [List.map_cons, ht', hxw], fun y hy => ?_⟩
      rcases List.mem_cons.1 hy with rfl | hy
      · exact hw
      · exact hS y hy
  obtain ⟨t', rfl, hS⟩ := hback t hmem
  refine ⟨t', by rw [← ht, List.map_map]; rfl, hS, fun w hw => ?_⟩
  refine Eq.trans ?_ (hf (e w) (Finset.mem_image_of_mem e hw))
  simp [streamOf, List.filter_map, comp_def, he.eq_iff]

section

variable (h : Interleaves S f l)
include h

/-- What a test keeps of an interleaving. -/
theorem filterMap (k : M → Option N) : Interleaves S (fun w => (f w).filterMap k) (l.filterMap k) := by
  obtain ⟨t, rfl, hmem, hf⟩ := h
  refine ⟨t.filterMap (fun x => (k x.2).map (fun m => (x.1, m))), ?_, fun x hx => ?_, fun w hw => ?_⟩
  · simp [List.map_filterMap, List.filterMap_map, comp_def]
  · obtain ⟨y, hy, hxy⟩ := List.mem_filterMap.1 hx
    obtain ⟨m, -, rfl⟩ := Option.map_eq_some_iff.1 hxy
    exact hmem y hy
  · refine Eq.trans ?_ (congrArg (List.filterMap k) (hf w hw))
    clear hf hmem
    induction t with
    | nil => rfl
    | cons x t ih =>
      rw [List.filterMap_cons, streamOf_cons]
      cases hk : k x.2 with
      | none =>
        rw [Option.map_none, ih]
        split <;> simp [hk]
      | some m =>
        rw [Option.map_some, streamOf_cons, ih]
        split <;> simp [hk]

/-- What is in an interleaving is what is in the lists. -/
theorem coe_eq : (l : Multiset M) = ∑ w ∈ S, (f w : Multiset M) := by
  obtain ⟨t, rfl, hmem, hf⟩ := h
  rw [Finset.sum_congr rfl (fun w hw => congrArg (fun l : List M => (l : Multiset M)) (hf w hw).symm)]
  clear hf
  induction t with
  | nil => simp
  | cons x t ih =>
    have hcons : ∀ w ∈ S, (streamOf (x :: t) w : Multiset M) = (if w = x.1 then {x.2} else 0) +
        (streamOf t w : Multiset M) := by
      intro w _
      by_cases hw : x.1 = w
      · simp [streamOf_cons, hw, ← Multiset.cons_coe, Multiset.singleton_add]
      · simp [streamOf_cons, hw, Ne.symm hw]
    rw [List.map_cons, ← Multiset.cons_coe, ih (fun y hy => hmem y (List.mem_cons_of_mem _ hy)),
      Finset.sum_congr rfl hcons, Finset.sum_add_distrib, Finset.sum_ite_eq' S x.1, if_pos (hmem x List.mem_cons_self),
      Multiset.singleton_add]

/-- A count over an interleaving is the sum of the counts over the lists. -/
theorem countP_eq (p : M → Bool) : l.countP p = ∑ w ∈ S, (f w).countP p := by
  have hcount := congrArg (Multiset.countPAddMonoidHom (fun m => p m = true)) h.coe_eq
  rw [map_sum] at hcount
  simpa using hcount

/-- All are there. -/
theorem length_eq : l.length = ∑ w ∈ S, (f w).length := by
  have hcount := h.countP_eq (fun _ => true)
  simpa using hcount

/-- A sum over an interleaving is the sum of the sums over the lists. -/
theorem sum_map_eq (k : M → Nat) : (l.map k).sum = ∑ w ∈ S, ((f w).map k).sum := by
  have hsum := congrArg (Multiset.sumAddMonoidHom.comp (Multiset.mapAddMonoidHom k)) h.coe_eq
  rw [map_sum] at hsum
  simpa using hsum

end

/-- There is one way to interleave a single list. -/
theorem eq_of_card_le_one (hS : S.card ≤ 1) (h : Interleaves S f l) {w : W} (hw : w ∈ S) : l = f w := by
  obtain ⟨t, rfl, hmem, hf⟩ := h
  rw [← hf w hw, streamOf, List.filter_eq_self.2]
  intro x hx
  exact decide_eq_true (Finset.card_le_one.1 hS _ (hmem x hx) _ hw)

/-- One writer leaves one order. -/
theorem unique (hS : S.card ≤ 1) (h : Interleaves S f l) (h' : Interleaves S g l') (hfg : ∀ w ∈ S, f w = g w) :
    l = l' := by
  rcases S.eq_empty_or_nonempty with rfl | ⟨w, hw⟩
  · have hnil : ∀ {f : W → List M} {l : List M}, Interleaves ∅ f l → l = [] := fun h =>
      List.length_eq_zero_iff.1 (h.length_eq.trans Finset.sum_empty)
    rw [hnil h, hnil h']
  · rw [h.eq_of_card_le_one hS hw, h'.eq_of_card_le_one hS hw, hfg w hw]

end Interleaves

end Lib
