import Mathlib.Data.List.Basic

/-!
# Computations that may fail halfway

A computation on a state that either returns or throws, and leaves a state behind in both cases (`Attempt`): what it did
before the throw is not taken back.
-/

namespace Lib

/-- A computation that returns or throws, with the state it leaves. -/
def Attempt (ε σ α : Type) := σ → Except ε α × σ

namespace Attempt

variable {ε σ α β : Type}

instance : Monad (Attempt ε σ) where
  pure a s := (.ok a, s)
  bind m k s := match m s with
    | (.ok a, s') => k a s'
    | (.error e, s') => (.error e, s')

def throw (e : ε) : Attempt ε σ α := fun s => (.error e, s)

def get : Attempt ε σ σ := fun s => (.ok s, s)

def modify (f : σ → σ) : Attempt ε σ Unit := fun s => (.ok (), f s)

/-- A result that was computed elsewhere: return it or throw. -/
def lift (r : Except ε α) : Attempt ε σ α := fun s => (r, s)

@[simp] theorem lift_apply (r : Except ε α) (s : σ) : (lift r : Attempt ε σ α) s = (r, s) := rfl

theorem bind_ok {m : Attempt ε σ α} {k : α → Attempt ε σ β} {s s' : σ} {a : α} (h : m s = (.ok a, s')) :
    (m >>= k) s = k a s' := by
  change (match m s with | (.ok a, s') => k a s' | (.error e, s') => (.error e, s')) = _
  rw [h]

theorem bind_error {m : Attempt ε σ α} {k : α → Attempt ε σ β} {s s' : σ} {e : ε} (h : m s = (.error e, s')) :
    (m >>= k) s = (.error e, s') := by
  change (match m s with | (.ok a, s') => k a s' | (.error e, s') => (.error e, s')) = _
  rw [h]

@[simp] theorem get_bind_apply (k : σ → Attempt ε σ β) (s : σ) : (get >>= k) s = k s s := rfl

@[simp] theorem modify_bind_apply (f : σ → σ) (k : Unit → Attempt ε σ β) (s : σ) :
    (modify f >>= k) s = k () (f s) := rfl

theorem bind_assoc {γ : Type} (m : Attempt ε σ α) (k : α → Attempt ε σ β) (l : β → Attempt ε σ γ) :
    m >>= k >>= l = m >>= fun a => k a >>= l := by
  funext s
  rcases hm : m s with ⟨e | a, s'⟩
  · have hk : (m >>= k) s = (.error e, s') := bind_error hm
    rw [bind_error hk, bind_error hm]
  · have hk : (m >>= k) s = k a s' := bind_ok hm
    rw [bind_ok (k := fun a => k a >>= l) hm]
    rcases hb : k a s' with ⟨e | b, s''⟩
    · rw [bind_error (hk.trans hb), bind_error hb]
    · rw [bind_ok (hk.trans hb), bind_ok hb]

/-! ## Computations that write a log -/

section Log

variable {ω : Type}

/-- The computation appends to the log and does not look at it. -/
def Appends (m : Attempt ε (σ × List ω) α) : Prop := ∀ s, ∃ r s' out, ∀ log, m (s, log) = (r, s', log ++ out)

theorem Appends.lift (r : Except ε α) : Appends (lift r : Attempt ε (σ × List ω) α) := by
  intro s
  refine ⟨r, s, [], fun log => ?_⟩
  rw [List.append_nil]
  rfl

theorem Appends.pure (a : α) : Appends (Pure.pure a : Attempt ε (σ × List ω) α) := Appends.lift (.ok a)

/-- Logs one after another. -/
theorem Appends.bind {m : Attempt ε (σ × List ω) α} {k : α → Attempt ε (σ × List ω) β} (hm : Appends m)
    (hk : ∀ a, Appends (k a)) :
    Appends (m >>= k) := by
  intro s
  obtain ⟨r, s', out, hm⟩ := hm s
  cases r with
  | error e => exact ⟨.error e, s', out, fun log => bind_error (hm log)⟩
  | ok a =>
    obtain ⟨r, s'', out', hk⟩ := hk a s'
    refine ⟨r, s'', out ++ out', fun log => ?_⟩
    rw [bind_ok (hm log), hk, List.append_assoc]

end Log

end Attempt

end Lib
