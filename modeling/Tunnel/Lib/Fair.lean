import Mathlib.Order.WellFounded

/-!
# Fair runs

Parties that take steps in turn, forever: when nobody can take a step, nothing happens anymore. A run is fair when
nobody who can take a step from some time on waits forever. Such a run comes to a standstill when a rank does: no step
lets the rank grow, and while somebody can take a step, there is somebody whose step lowers the rank, and who can take
it until then.
-/

namespace Lib

open Relation

variable {S ι : Type}

/-- The infinite run `run`, in which `who n` takes the n-th step; it is nobody when nobody can. -/
structure FairRun (step : ι → S → S → Prop) (run : Nat → S) (who : Nat → Option ι) : Prop where
  moves : ∀ n i, who n = some i → step i (run n) (run (n + 1))
  idles : ∀ n, who n = none → run (n + 1) = run n ∧ ∀ i t, ¬step i (run n) t
  fair : ∀ i n, (∀ m, n ≤ m → ∃ t, step i (run m) t) → ∃ m, n ≤ m ∧ who m = some i

namespace FairRun

variable {step : ι → S → S → Prop} {run : Nat → S} {who : Nat → Option ι}

/-- What every step keeps holds on. -/
theorem invariant (h : FairRun step run who) {I : S → Prop} (hstep : ∀ i s t, I s → step i s t → I t) {n m : Nat}
    (hnm : n ≤ m) (hn : I (run n)) : I (run m) := by
  induction m, hnm using Nat.le_induction with
  | base => exact hn
  | succ m hnm ih =>
    cases hw : who m with
    | none =>
      rw [(h.idles m hw).1]
      exact ih
    | some i => exact hstep i _ _ ih (h.moves m i hw)

/-- Every state of the run is reached by steps from the first one. -/
theorem reaches (h : FairRun step run who) (n : Nat) : ReflTransGen (fun s t => ∃ i, step i s t) (run 0) (run n) :=
  h.invariant (I := fun s => ReflTransGen (fun s t => ∃ i, step i s t) (run 0) s) (fun i _ _ hs ht => hs.tail ⟨i, ht⟩)
    (Nat.zero_le n) .refl

/-- While the rank stays, who helps goes on to help, and takes no step. -/
theorem helper_stays (h : FairRun step run who) {α : Type} {rank : S → α} {I : S → Prop} {Helps : ι → S → Prop}
    (hI : ∀ i s t, I s → step i s t → I t)
    (hsame : ∀ i s t, I s → step i s t → rank t = rank s → ∀ j, Helps j s → j ≠ i ∧ Helps j t) {n : Nat}
    (hn : I (run n)) (hrank : ∀ m, n ≤ m → rank (run m) = rank (run n)) {j : ι} (hj : Helps j (run n)) {m : Nat}
    (hnm : n ≤ m) :
    Helps j (run m) ∧ who m ≠ some j := by
  have hstay : Helps j (run m) := by
    induction m, hnm using Nat.le_induction with
    | base => exact hj
    | succ m hnm ih =>
      cases hw : who m with
      | none =>
        rw [(h.idles m hw).1]
        exact ih
      | some i =>
        have hsame' : rank (run (m + 1)) = rank (run m) := by rw [hrank _ (Nat.le_succ_of_le hnm), hrank _ hnm]
        exact (hsame i _ _ (h.invariant hI hnm hn) (h.moves m i hw) hsame' j ih).2
  refine ⟨hstay, fun hw => ?_⟩
  have hsame' : rank (run (m + 1)) = rank (run m) := by rw [hrank _ (Nat.le_succ_of_le hnm), hrank _ hnm]
  exact (hsame j _ _ (h.invariant hI hnm hn) (h.moves m j hw) hsame' j hstay).1 rfl

/-- A fair run comes to a standstill: no step lets the rank grow; one that leaves it as it is leaves alone those who
help, and none of them takes it; who helps can take a step; and somebody helps while there is a step to take. -/
theorem quiesces (h : FairRun step run who) {α : Type} [LT α] [WellFoundedLT α] (rank : S → α) (I : S → Prop)
    (Helps : ι → S → Prop) (hI : ∀ i s t, I s → step i s t → I t)
    (hrank : ∀ i s t, I s → step i s t → rank t < rank s ∨ rank t = rank s)
    (hsame : ∀ i s t, I s → step i s t → rank t = rank s → ∀ j, Helps j s → j ≠ i ∧ Helps j t)
    (hcan : ∀ j s, I s → Helps j s → ∃ t, step j s t) (hhelp : ∀ i s t, I s → step i s t → ∃ j, Helps j s) {n : Nat}
    (hn : I (run n)) :
    ∃ m, n ≤ m ∧ ∀ i t, ¬step i (run m) t := by
  -- by induction on the rank: it falls at some time, or who helps now waits forever
  induction hr : rank (run n) using WellFoundedLT.induction generalizing n with
  | _ r ih =>
    subst hr
    by_contra hno
    simp only [not_exists, not_and, not_forall, not_not] at hno
    have hconst : ∀ m, n ≤ m → rank (run m) = rank (run n) := by
      intro m hnm
      induction m, hnm using Nat.le_induction with
      | base => rfl
      | succ m hnm hm =>
        obtain ⟨i, hw⟩ : ∃ i, who m = some i := by
          rw [← Option.ne_none_iff_exists']
          intro hw
          obtain ⟨i, t, ht⟩ := hno m hnm
          exact (h.idles m hw).2 i t ht
        rcases hrank i _ _ (h.invariant hI hnm hn) (h.moves m i hw) with hlt | heq
        · obtain ⟨m', hm', hstill⟩ := ih _ (hm ▸ hlt) (h.invariant hI (Nat.le_succ_of_le hnm) hn) rfl
          obtain ⟨i', t, ht⟩ := hno m' (by omega)
          exact absurd ht (hstill i' t)
        · exact heq.trans hm
    obtain ⟨i, t, ht⟩ := hno n (Nat.le_refl n)
    obtain ⟨j, hj⟩ := hhelp i _ t hn ht
    obtain ⟨m, hnm, hw⟩ := h.fair j n (fun m hnm =>
      hcan j _ (h.invariant hI hnm hn) (h.helper_stays hI hsame hn hconst hj hnm).1)
    exact (h.helper_stays hI hsame hn hconst hj hnm).2 hw

/-! ## Finite runs -/

/-- A run that has come to a standstill goes on as it is. -/
theorem still {s : S} (h : ∀ i t, ¬step i s t) : FairRun step (fun _ => s) (fun _ => none) where
  moves n i hw := by cases hw
  idles _ _ := ⟨rfl, h⟩
  fair i n hcan := absurd (hcan n (Nat.le_refl n)).choose_spec (h i _)

/-- A step before a run. -/
theorem cons (h : FairRun step run who) {s : S} {i : ι} (hs : step i s (run 0)) :
    FairRun step (fun n => n.casesOn s run) (fun n => n.casesOn (some i) who) where
  moves n j hw := by
    cases n with
    | zero =>
      cases hw
      exact hs
    | succ n => exact h.moves n j hw
  idles n hw := by
    cases n with
    | zero => cases hw
    | succ n => exact h.idles n hw
  fair j n hcan := by
    obtain ⟨m, hm, hw⟩ := h.fair j (n - 1) (fun m hm => hcan (m + 1) (by omega))
    exact ⟨m + 1, by omega, hw⟩

/-- A run before a run. -/
theorem append (h : FairRun step run who) {s : S} (hs : ReflTransGen (fun s t => ∃ i, step i s t) s (run 0)) :
    ∃ run' who' n, FairRun step run' who' ∧ run' 0 = s ∧ run' n = run 0 := by
  induction hs using ReflTransGen.head_induction_on with
  | refl => exact ⟨run, who, 0, h, rfl, rfl⟩
  | head hstep _ ih =>
    obtain ⟨i, hi⟩ := hstep
    obtain ⟨run', who', n, hrun, rfl, hn⟩ := ih
    exact ⟨_, _, n + 1, hrun.cons hi, rfl, hn⟩

/-- Every run to a standstill is the beginning of a fair run. -/
theorem exists_of_reaches {s t u : S} (hst : ReflTransGen (fun s t => ∃ i, step i s t) s t)
    (htu : ReflTransGen (fun s t => ∃ i, step i s t) t u) (hu : ∀ i t, ¬step i u t) :
    ∃ run who n, FairRun step run who ∧ run 0 = s ∧ run n = t := by
  obtain ⟨run, who, n, hrun, rfl, -⟩ := (still hu).append htu
  exact hrun.append hst

end FairRun

end Lib
