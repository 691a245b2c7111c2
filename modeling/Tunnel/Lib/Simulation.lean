import Mathlib.Logic.Relation

/-!
# Runs and simulation

A run along a list of events is a sequence of steps (`reaches_of_run`).

A run of one system is followed by a run of another: a relation between their states that every step keeps, the other
system taking any number of steps, also none. What a step may assume is that it is a step of the run: the run leads to
it, and on from it to its end.
-/

namespace Lib

open Relation

variable {S T : Type} {step : S → S → Prop} {step' : T → T → Prop}

/-- A function that goes through a list of events, one step for each, leads along the steps. -/
theorem reaches_of_run {E : Type} {next : S → E → Option S} (run : S → List E → Option S)
    (hnil : ∀ s, run s [] = some s) (hcons : ∀ s e es, run s (e :: es) = (next s e).bind (fun s => run s es))
    (es : List E) {s s' : S} (h : run s es = some s') :
    ReflTransGen (fun a b => ∃ e, next a e = some b) s s' := by
  induction es generalizing s with
  | nil =>
    rw [hnil] at h
    cases h
    exact .refl
  | cons e es ih =>
    rw [hcons] at h
    obtain ⟨t, ht, h⟩ := Option.bind_eq_some_iff.1 h
    exact .head ⟨e, ht⟩ (ih h)

/-- A relation that every step of a run keeps leads along the run. -/
theorem simulates {R : S → T → Prop} {s s' : S} (hrun : ReflTransGen step s s')
    (hsim : ∀ a b t, ReflTransGen step s a → step a b → ReflTransGen step b s' → R a t → ∃ t', ReflTransGen step' t t' ∧
      R b t')
    {t : T} (h0 : R s t) : ∃ t', ReflTransGen step' t t' ∧ R s' t' := by
  have hfrom : ∀ a, ReflTransGen step a s' → ∀ t, ReflTransGen step s a → R a t → ∃ t', ReflTransGen step' t t' ∧
      R s' t' := by
    intro a ha
    induction ha using ReflTransGen.head_induction_on with
    | refl => exact fun t _ hR => ⟨t, .refl, hR⟩
    | head hab hb ih =>
      intro t hpre hR
      obtain ⟨t₁, ht₁, hR₁⟩ := hsim _ _ t hpre hab hb hR
      obtain ⟨t₂, ht₂, hR₂⟩ := ih t₁ (hpre.tail hab) hR₁
      exact ⟨t₂, ht₁.trans ht₂, hR₂⟩
  exact hfrom s hrun t .refl h0

end Lib
