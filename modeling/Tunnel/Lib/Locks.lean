import Mathlib.Logic.Function.Basic

/-!
# Locks and their holders

A family of locks, each of which names who holds it, beside a relation that says from where everybody stands who holds
what. The two agree as long as a lock is taken only when it is free.
-/

namespace Lib

open Function

variable {ι H : Type} {locks : ι → Option H} {holds holds' : H → ι → Prop} {h h' : H} {j : ι}

/-- Each lock names the one that holds it. -/
def Guarded (locks : ι → Option H) (holds : H → ι → Prop) : Prop := ∀ j h, locks j = some h ↔ holds h j

namespace Guarded

/-- A lock has one holder. -/
theorem unique (g : Guarded locks holds) (hj : holds h j) (hj' : holds h' j) : h = h' := by
  have heq := ((g j h).2 hj).symm.trans ((g j h').2 hj')
  exact Option.some.inj heq

theorem held (g : Guarded locks holds) (hj : holds h j) : locks j ≠ none := by
  rw [(g j h).2 hj]
  exact Option.some_ne_none h

/-- A taken lock has a holder. -/
theorem holder (g : Guarded locks holds) (hj : locks j ≠ none) : ∃ h, holds h j := by
  obtain ⟨h, hh⟩ := Option.ne_none_iff_exists'.1 hj
  exact ⟨h, (g j h).1 hh⟩

theorem congr (g : Guarded locks holds) (hiff : ∀ h j, holds' h j ↔ holds h j) : Guarded locks holds' :=
  fun j h => (g j h).trans (hiff h j).symm

variable [DecidableEq ι]

/-- A free lock is taken. -/
theorem acquire (g : Guarded locks holds) (hfree : locks j = none)
    (hiff : ∀ h' j', holds' h' j' ↔ holds h' j' ∨ (h' = h ∧ j' = j)) :
    Guarded (update locks j (some h)) holds' := by
  intro j' h'
  rw [hiff]
  by_cases hj : j' = j
  · subst hj
    rw [update_self]
    constructor
    · intro heq
      exact .inr ⟨(Option.some.inj heq).symm, rfl⟩
    · rintro (hh | ⟨rfl, -⟩)
      · exact absurd hfree (g.held hh)
      · rfl
  · rw [update_of_ne hj, g j' h']
    constructor
    · exact .inl
    · rintro (hh | ⟨-, heq⟩)
      · exact hh
      · exact absurd heq hj

/-- A lock is given back. -/
theorem release (g : Guarded locks holds) (hheld : holds h j)
    (hiff : ∀ h' j', holds' h' j' ↔ holds h' j' ∧ ¬(h' = h ∧ j' = j)) :
    Guarded (update locks j none) holds' := by
  intro j' h'
  rw [hiff]
  by_cases hj : j' = j
  · subst hj
    rw [update_self]
    constructor
    · intro heq
      nomatch heq
    · rintro ⟨hh, hne⟩
      exact absurd ⟨g.unique hh hheld, rfl⟩ hne
  · rw [update_of_ne hj, g j' h']
    constructor
    · exact fun hh => ⟨hh, fun heq => hj heq.2⟩
    · exact And.left

end Guarded

end Lib
