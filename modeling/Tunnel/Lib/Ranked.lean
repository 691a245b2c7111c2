import Mathlib.Data.Finset.Lattice.Fold
import Mathlib.Logic.Relation
import Mathlib.Order.WellFounded

/-!
# Relations that climb

A relation every step of which climbs a rank has no cycle, and one can argue along it in either direction: from the
predecessors up, and, when only finitely many elements have a successor, from the successors down.
-/

namespace Lib

open Relation

variable {α : Type}

/-- Every step of the relation climbs a rank. -/
def Ranked (r : α → α → Prop) : Prop := ∃ rank : α → Nat, ∀ u v, r u v → rank u < rank v

namespace Ranked

variable {r s : α → α → Prop}

/-- There is no cycle. -/
theorem acyclic (h : Ranked r) (u : α) : ¬TransGen r u u := by
  obtain ⟨rank, hr⟩ := h
  intro hu
  have hlt : ∀ v, TransGen r u v → rank u < rank v := by
    intro v hv
    induction hv with
    | single h => exact hr _ _ h
    | tail _ h ih => exact Nat.lt_trans ih (hr _ _ h)
  exact Nat.lt_irrefl _ (hlt u hu)

/-- On a relation that is a function, what is reached from one element has one predecessor there. -/
theorem pred_unique (h : Ranked r) (hfun : Relator.RightUnique r) {a u w v : α} (hau : ReflTransGen r a u)
    (haw : ReflTransGen r a w) (hu : r u v) (hw : r w v) : u = w := by
  -- a way from one of them to the other goes on through `v`, and comes back to it
  have hloop : ∀ {x y : α}, r x v → r y v → ReflTransGen r x y → x = y := by
    intro x y hx hy hxy
    rcases hxy.cases_head with heq | ⟨v', hv', hvy⟩
    · exact heq
    · obtain rfl := hfun hv' hx
      exact absurd (TransGen.tail' hvy hy) (h.acyclic v')
  rcases hau.total_of_right_unique hfun haw with huw | hwu
  · exact hloop hu hw huw
  · exact (hloop hw hu hwu).symm

/-- Induction from the predecessors. -/
theorem wellFounded (h : Ranked r) : WellFounded r := by
  obtain ⟨rank, hr⟩ := h
  exact Subrelation.wf (fun {u v} huv => hr u v huv) (InvImage.wf rank Nat.lt_wfRel.wf)

/-- Induction from the successors, when only the elements of a finite set have one. -/
theorem wellFounded_flip (h : Ranked r) (S : Finset α) (hS : ∀ u v, r u v → v ∈ S) :
    WellFounded (fun u v => r v u) := by
  obtain ⟨rank, hr⟩ := h
  refine Subrelation.wf (r := InvImage (· < ·) (fun u => S.sup rank + 1 - rank u)) ?_
    (InvImage.wf (fun u => S.sup rank + 1 - rank u) Nat.lt_wfRel.wf)
  intro u v huv
  have h1 := hr v u huv
  have h2 : rank u ≤ S.sup rank := Finset.le_sup (f := rank) (hS v u huv)
  show S.sup rank + 1 - rank u < S.sup rank + 1 - rank v
  omega

/-- On a finite set, ranks below its size are enough. -/
theorem bounded (h : Ranked r) (S : Finset α) (hS : ∀ u v, r u v → u ∈ S) :
    ∃ rank : α → Nat, (∀ u v, r u v → rank u < rank v) ∧ ∀ u ∈ S, rank u < S.card := by
  obtain ⟨rank, hr⟩ := h
  -- an element's rank is the number of elements below it
  refine ⟨fun u => (S.filter (fun w => rank w < rank u)).card, fun u v huv => ?_, fun u hu => ?_⟩
  · refine Finset.card_lt_card (Finset.ssubset_iff_of_subset (fun w hw => ?_) |>.2 ⟨u, ?_, ?_⟩)
    · rw [Finset.mem_filter] at hw ⊢
      exact ⟨hw.1, Nat.lt_trans hw.2 (hr u v huv)⟩
    · exact Finset.mem_filter.2 ⟨hS u v huv, hr u v huv⟩
    · exact fun hu => absurd (Finset.mem_filter.1 hu).2 (Nat.lt_irrefl _)
  · refine Finset.card_lt_card (Finset.ssubset_iff_of_subset (Finset.filter_subset _ _) |>.2 ⟨u, hu, ?_⟩)
    exact fun hu => absurd (Finset.mem_filter.1 hu).2 (Nat.lt_irrefl _)

/-- A relation on a finite set stays ranked when steps are added that lead out of the set, or climb outside of it. -/
theorem extend (h : Ranked r) (S : Finset α) (hS : ∀ u v, r u v → u ∈ S ∧ v ∈ S) (height : α → Nat)
    (hs : ∀ u v, s u v → r u v ∨ (v ∉ S ∧ (u ∈ S ∨ height u < height v))) : Ranked s := by
  classical
  obtain ⟨rank, hr⟩ := h
  refine ⟨fun x => if x ∈ S then rank x else S.sup rank + 1 + height x, fun u v huv => ?_⟩
  rcases hs u v huv with huv | ⟨hv, hu⟩
  · obtain ⟨hu, hv⟩ := hS u v huv
    simpa [hu, hv] using hr u v huv
  · by_cases huS : u ∈ S
    · have := Finset.le_sup (f := rank) huS
      simp only [huS, hv, if_true, if_false]
      omega
    · have hlt := hu.resolve_left huS
      simp only [huS, hv, if_false]
      omega

end Ranked

end Lib
