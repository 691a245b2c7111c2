import Mathlib.Data.Fintype.Option
import Tunnel.Lib.Count
import Tunnel.Lib.Locks
import Tunnel.Startup

/-!
# An invariant of the constructor and its threads

`init_mut` is held by whoever stands where it is held, `finished` is the number of threads that have counted themselves,
and the constructor sleeps only while some thread has yet to notify it (`Startup.Inv`).
-/

namespace Tunnel

namespace Executor

open Lib Function

variable {n : Nat}

/-! ## Where the threads stand -/

/-- The thread has counted itself. -/
def ThreadCtl.counted : ThreadCtl → Bool
  | .unlock => true
  | .notify => true
  | .loop => true
  | _ => false

namespace Thread

/-- The thread holds `init_mut`. -/
def holds : Thread n → ThreadCtl → Bool
  | _, .read => true
  | _, .write _ => true
  | _, .unlock => true
  | .timer, .notify => true
  | _, _ => false

/-- The thread has called `init_cv.notify_one()`. -/
def told : Thread n → ThreadCtl → Bool
  | _, .loop => true
  | .timer, .unlock => true
  | _, _ => false

/-- Who told the constructor has counted itself. -/
theorem counted_of_told {t : Thread n} {x : ThreadCtl} (h : t.told x = true) : x.counted = true := by
  cases x with
  | unlock => rfl
  | loop => rfl
  | _ => cases t <;> cases h

/-- Only a worker that has not notified yet has counted itself, given the mutex back and still something to do. -/
theorem worker_of_counted {t : Thread n} {x : ThreadCtl} (hcounted : x.counted = true) (hholds : t.holds x = false) :
    x = .loop ∨ x = .notify ∧ ∃ w, t = .worker w := by
  cases x with
  | loop => exact .inl rfl
  | notify =>
    cases t with
    | timer => cases hholds
    | worker w => exact .inr ⟨rfl, w, rfl⟩
  | unlock => cases hholds
  | _ => cases hcounted

theorem card_univ : (Finset.univ : Finset (Thread n)).card = n + 1 := by
  let f : Option (Fin n) → Thread n := fun o => o.elim .timer .worker
  have hf : Bijective f := by
    refine ⟨?_, ?_⟩
    · intro a b hab
      cases a <;> cases b <;> cases hab <;> rfl
    · intro t
      cases t with
      | timer => exact ⟨none, rfl⟩
      | worker w => exact ⟨some w, rfl⟩
  rw [Finset.card_univ, ← Fintype.card_of_bijective hf, Fintype.card_option, Fintype.card_fin]

end Thread

/-- The constructor holds `init_mut`. -/
def MainCtl.holds : MainCtl → Bool
  | .predicate => true
  | .leave => true
  | _ => false

/-- The constructor has yet to start the thread. -/
def MainCtl.starts : MainCtl → Thread n → Prop
  | .startTimer, _ => True
  | .startWorker i, .worker w => i ≤ w.val
  | _, _ => False

namespace Startup

variable {s s' : Startup n}

/-! ## What a step does -/

/-- The steps, one by one. -/
inductive Moves (s : Startup n) : StartupEvent n → Startup n → Prop where
  | startTimer (hm : s.main = .startTimer) :
    Moves s .main { s with threads := update s.threads .timer .lock, main := .startWorker 0 }
  | startWorker {i : Nat} (hm : s.main = .startWorker i) (h : i < n) :
    Moves s .main { s with threads := update s.threads (.worker ⟨i, h⟩) .lock, main := .startWorker (i + 1) }
  | started {i : Nat} (hm : s.main = .startWorker i) (h : n ≤ i) : Moves s .main { s with main := .lock }
  | lock (hm : s.main = .lock) (hfree : s.initMut = none) :
      Moves s .main { s with initMut := some .main, main := .predicate }
  | complete (hm : s.main = .predicate) (hfinished : s.finished = n + 1) : Moves s .main { s with main := .leave }
  | wait (hm : s.main = .predicate) (hfinished : s.finished ≠ n + 1) :
      Moves s .main { s with initMut := none, main := .wait }
  | leave (hm : s.main = .leave) : Moves s .main { s with initMut := none, main := .returned }
  | wake (hm : s.main = .wait) : Moves s .wake { s with main := .lock }
  | threadLock {t : Thread n} (ht : s.threads t = .lock) (hfree : s.initMut = none) :
    Moves s (.thread t) (Startup.setThread { s with initMut := some (.thread t) } t .read)
  | read {t : Thread n} (ht : s.threads t = .read) : Moves s (.thread t) (s.setThread t (.write s.finished))
  | write {t : Thread n} {count : Nat} (ht : s.threads t = .write count) :
    Moves s (.thread t) (Startup.setThread { s with finished := count + 1 } t t.written)
  | unlock {t : Thread n} (ht : s.threads t = .unlock) :
      Moves s (.thread t) (Startup.setThread { s with initMut := none } t t.unlocked)
  | notify {t : Thread n} (ht : s.threads t = .notify) : Moves s (.thread t) (s.notifyOne.setThread t t.notified)

/-- Every step is one of the moves. -/
theorem step_moves {e : StartupEvent n} (h : s.step e = some s') : Moves s e s' := by
  cases e with
  | main =>
    simp only [step, construct] at h
    split at h
    · rename_i hm
      cases h
      exact .startTimer hm
    · rename_i i hm
      split at h
      · rename_i hi
        cases h
        exact .startWorker hm hi
      · rename_i hi
        cases h
        exact .started hm (Nat.le_of_not_lt hi)
    · rename_i hm
      split at h
      · rename_i hfree
        cases h
        exact .lock hm hfree
      · cases h
    · rename_i hm
      split at h
      · rename_i hfinished
        cases h
        exact .complete hm hfinished
      · rename_i hfinished
        cases h
        exact .wait hm hfinished
    · cases h
    · rename_i hm
      cases h
      exact .leave hm
    · cases h
  | thread t =>
    simp only [step, thread] at h
    split at h
    · cases h
    · rename_i ht
      split at h
      · rename_i hfree
        cases h
        exact .threadLock ht hfree
      · cases h
    · rename_i ht
      cases h
      exact .read ht
    · rename_i count ht
      cases h
      exact .write ht
    · rename_i ht
      cases h
      exact .unlock ht
    · rename_i ht
      cases h
      exact .notify ht
    · cases h
  | wake =>
    simp only [step] at h
    split at h
    · rename_i hm
      cases h
      exact .wake hm
    · cases h

/-- The constructor wakes if it waits. -/
theorem notifyOne_eq (s : Startup n) : s.notifyOne = { s with main := if s.main = .wait then .lock else s.main } := by
  unfold notifyOne
  split <;> rfl

/-! ## The invariant -/

/-- Who holds `init_mut`, from where everybody stands. -/
def Holds (s : Startup n) : InitHolder n → Prop
  | .main => s.main.holds = true
  | .thread t => t.holds (s.threads t) = true

/-- `finished` is the number of threads that have counted themselves; the constructor sleeps only while some thread has
yet to notify; and it goes on only when all threads have counted themselves and given the mutex back. -/
structure Inv (s : Startup n) : Prop where
  guarded : Guarded (fun _ : Unit => s.initMut) (fun h _ => s.Holds h)
  count : s.finished = countIn Finset.univ ThreadCtl.counted s.threads
  write : ∀ t count, s.threads t = .write count → count = s.finished
  born : ∀ t, s.threads t = .unborn ↔ s.main.starts t
  awaited : s.main = .wait → ∃ t, Thread.told t (s.threads t) = false
  left : s.main = .leave ∨ s.main = .returned → ∀ t, (s.threads t).counted = true ∧ Thread.holds t (s.threads t) = false
  once : s.late.Nodup
  late : ∀ t ∈ s.late, s.main = .returned ∧ s.threads t = .loop ∧ ∃ w, t = .worker w

namespace Inv

/-- It holds before the threads start. -/
theorem init (n : Nat) : (Startup.init n).Inv where
  guarded := by
    intro _ h
    cases h with
    | main => exact ⟨by rintro ⟨⟩, by rintro ⟨⟩⟩
    | thread t => cases t <;> exact ⟨by rintro ⟨⟩, by rintro ⟨⟩⟩
  count := (countIn_eq_zero (fun _ _ => rfl)).symm
  write := by
    intro t count h
    cases h
  born := by
    intro t
    cases t <;> exact ⟨fun _ => trivial, fun _ => rfl⟩
  awaited := by rintro ⟨⟩
  left := by rintro (⟨⟨⟩⟩ | ⟨⟨⟩⟩)
  once := List.nodup_nil
  late := by
    intro t ht
    cases ht

/-! ### The mutex -/

/-- Nobody takes the mutex and nobody gives it back. -/
theorem guarded_same (hi : s.Inv) (s' : Startup n) (hmut : s'.initMut = s.initMut)
    (hiff : ∀ h, s'.Holds h ↔ s.Holds h) :
    Guarded (fun _ : Unit => s'.initMut) (fun h _ => s'.Holds h) := by
  rw [hmut]
  exact hi.guarded.congr (fun h _ => hiff h)

theorem update_unit {α : Type} (a b : α) : update (fun _ : Unit => a) () b = fun _ => b := by
  funext _
  exact update_self ..

/-- Somebody takes the mutex. -/
theorem guarded_acquire (hi : s.Inv) (s' : Startup n) {h : InitHolder n} (hfree : s.initMut = none)
    (hmut : s'.initMut = some h) (hiff : ∀ h', s'.Holds h' ↔ s.Holds h' ∨ h' = h) :
    Guarded (fun _ : Unit => s'.initMut) (fun h _ => s'.Holds h) := by
  have hacquire := hi.guarded.acquire (j := ()) hfree (h := h) (fun h' _ => (hiff h').trans (by simp))
  rw [update_unit] at hacquire
  rw [hmut]
  exact hacquire

/-- Somebody gives the mutex back. -/
theorem guarded_release (hi : s.Inv) (s' : Startup n) {h : InitHolder n} (hheld : s.Holds h) (hmut : s'.initMut = none)
    (hiff : ∀ h', s'.Holds h' ↔ s.Holds h' ∧ h' ≠ h) :
    Guarded (fun _ : Unit => s'.initMut) (fun h _ => s'.Holds h) := by
  have hrelease := hi.guarded.release (j := ()) hheld (fun h' _ => (hiff h').trans (by simp))
  rw [update_unit] at hrelease
  rw [hmut]
  exact hrelease

/-! ### A thread goes on -/

/-- Who holds the mutex after a thread moved. -/
theorem holds_setThread (s : Startup n) (t : Thread n) (x : ThreadCtl) (h : InitHolder n) :
    (s.setThread t x).Holds h ↔ if h = .thread t then t.holds x = true else s.Holds h := by
  cases h with
  | main => exact Iff.rfl
  | thread t' =>
    by_cases ht : t' = t
    · subst ht
      show t'.holds (update s.threads t' x t') = true ↔ _
      rw [update_self, if_pos rfl]
    · show t'.holds (update s.threads t x t') = true ↔ _
      rw [update_of_ne ht, if_neg (fun heq => ht (InitHolder.thread.inj heq))]
      exact Iff.rfl

variable {t : Thread n} {m : MainCtl}

section

variable (hi : s.Inv)
include hi

/-- What it takes for a step of a thread to keep the invariant. The constructor is left alone, or woken. -/
theorem thread {s₁ : Startup n} {x : ThreadCtl} (hthreads : s₁.threads = s.threads)
    (hlate : s₁.late = s.late) (hmain : s₁.main = s.main ∨ s.main = .wait ∧ s₁.main = .lock)
    (hguarded : Guarded (fun _ : Unit => (s₁.setThread t x).initMut) (fun h _ => (s₁.setThread t x).Holds h))
    (hcount : s₁.finished + (s.threads t).counted.toNat = s.finished + x.counted.toNat)
    (hwrite : ∀ t' count, t' ≠ t → s.threads t' = .write count → s₁.finished = s.finished)
    (hx : ∀ count, x = .write count → count = s₁.finished) (hborn : s.threads t ≠ .unborn ∧ x ≠ .unborn)
    (hgoing : s.threads t ≠ .loop) (htold : s₁.main = .wait → t.told x = t.told (s.threads t))
    (hdone : (s.threads t).counted = true → t.holds (s.threads t) = false → x = .loop) : (s₁.setThread t x).Inv := by
  have hself : (s₁.setThread t x).threads t = x := update_self ..
  have hother : ∀ t', t' ≠ t → (s₁.setThread t x).threads t' = s.threads t' := by
    intro t' ht
    rw [← hthreads]
    exact update_of_ne ht ..
  have hleaving : s₁.main = .leave ∨ s₁.main = .returned → s.main = s₁.main := by
    rintro hm
    rcases hmain with heq | ⟨-, heq⟩
    · exact heq.symm
    · rw [heq] at hm
      rcases hm with hm | hm <;> cases hm
  -- where the constructor is done with waiting, the thread is a worker that goes on to its loop
  have hlast : s₁.main = .leave ∨ s₁.main = .returned → x = .loop ∧ ∃ w, t = .worker w := by
    intro hm
    have hs : s.main = .leave ∨ s.main = .returned := by
      rw [hleaving hm]
      exact hm
    obtain ⟨hcounted, hholds⟩ := hi.left hs t
    refine ⟨hdone hcounted hholds, ?_⟩
    rcases Thread.worker_of_counted hcounted hholds with hloop | ⟨-, hworker⟩
    · exact absurd hloop hgoing
    · exact hworker
  refine ⟨hguarded, ?_, ?_, ?_, ?_, ?_, ?_, ?_⟩
  · have hupdate := countIn_update (Finset.mem_univ t) ThreadCtl.counted s.threads x
    show s₁.finished = countIn Finset.univ ThreadCtl.counted (update s₁.threads t x)
    rw [hthreads]
    have hold := hi.count
    omega
  · intro t' count h
    show count = s₁.finished
    by_cases ht : t' = t
    · subst ht
      rw [hself] at h
      exact hx count h
    · rw [hother t' ht] at h
      rw [hwrite t' count ht h]
      exact hi.write t' count h
  · intro t'
    have hstarts : s₁.main.starts t' ↔ s.main.starts t' := by
      rcases hmain with heq | ⟨hw, hl⟩
      · rw [heq]
      · rw [hw, hl]
        exact Iff.rfl
    show _ ↔ s₁.main.starts t'
    rw [hstarts, ← hi.born t']
    by_cases ht : t' = t
    · subst ht
      rw [hself]
      exact ⟨fun h => absurd h hborn.2, fun h => absurd h hborn.1⟩
    · rw [hother t' ht]
  · intro hm
    have hs : s.main = .wait := by
      rcases hmain with heq | ⟨-, heq⟩
      · rw [← heq]
        exact hm
      · rw [show s₁.main = .wait from hm] at heq
        cases heq
    obtain ⟨t', ht'⟩ := hi.awaited hs
    refine ⟨t', ?_⟩
    by_cases ht : t' = t
    · subst ht
      rw [hself, htold hm]
      exact ht'
    · rw [hother t' ht]
      exact ht'
  · intro hm t'
    by_cases ht : t' = t
    · subst ht
      rw [hself, (hlast hm).1]
      exact ⟨rfl, by cases t' <;> rfl⟩
    · rw [hother t' ht]
      refine hi.left ?_ t'
      rw [hleaving hm]
      exact hm
  · show (if s₁.main = .returned then s₁.late ++ [t] else s₁.late).Nodup
    rw [hlate]
    split
    · refine List.nodup_append.2 ⟨hi.once, List.nodup_singleton t, ?_⟩
      intro a ha b hb heq
      rw [List.mem_singleton] at hb
      subst heq hb
      exact hgoing (hi.late a ha).2.1
    · exact hi.once
  · intro t' ht'
    change t' ∈ (if s₁.main = .returned then s₁.late ++ [t] else s₁.late) at ht'
    rw [hlate] at ht'
    have hold : t' ∈ s.late → s₁.main = .returned ∧ (s₁.setThread t x).threads t' = .loop ∧ ∃ w, t' = .worker w := by
      intro hmem
      obtain ⟨hm, hloop, hworker⟩ := hi.late t' hmem
      refine ⟨?_, ?_, hworker⟩
      · rcases hmain with heq | ⟨hw, -⟩
        · rw [heq, hm]
        · rw [hm] at hw
          cases hw
      · rw [hother t' ?_, hloop]
        rintro rfl
        exact hgoing hloop
    split at ht'
    · rename_i hm
      rcases List.mem_append.1 ht' with hmem | hmem
      · exact hold hmem
      · rw [List.mem_singleton] at hmem
        subst hmem
        obtain ⟨rfl, hworker⟩ := hlast (.inr hm)
        exact ⟨hm, hself, hworker⟩
    · exact hold ht'

/-! ### The constructor goes on -/

/-- The constructor starts a thread. -/
theorem starts (ht : s.threads t = .unborn) (hstarts : ∀ t', m.starts t' ↔ s.main.starts t' ∧ t' ≠ t)
    (hm : m.holds = s.main.holds) (hwait : m ≠ .wait) (hleave : ¬(m = .leave ∨ m = .returned))
    (hreturned : s.main ≠ .returned) :
    Inv { s with threads := update s.threads t .lock, main := m } := by
  have hother : ∀ t', t' ≠ t → update s.threads t .lock t' = s.threads t' := by
    intro t' hne
    exact update_of_ne hne ..
  have hself : update s.threads t ThreadCtl.lock t = .lock := update_self ..
  refine ⟨hi.guarded_same _ rfl ?_, ?_, ?_, ?_, fun h => absurd h hwait, fun h => absurd h hleave, hi.once, ?_⟩
  · intro h
    cases h with
    | main =>
      show m.holds = true ↔ s.main.holds = true
      rw [hm]
    | thread t' =>
      show t'.holds (update s.threads t .lock t') = true ↔ t'.holds (s.threads t') = true
      by_cases hne : t' = t
      · subst hne
        rw [hself, ht]
        cases t' <;> exact Iff.rfl
      · rw [hother t' hne]
  · have hupdate := countIn_update (Finset.mem_univ t) ThreadCtl.counted s.threads .lock
    rw [ht] at hupdate
    exact hi.count.trans hupdate.symm
  · intro t' count h
    change update s.threads t .lock t' = .write count at h
    by_cases hne : t' = t
    · subst hne
      rw [hself] at h
      cases h
    · rw [hother t' hne] at h
      exact hi.write t' count h
  · intro t'
    show update s.threads t .lock t' = .unborn ↔ m.starts t'
    rw [hstarts]
    by_cases hne : t' = t
    · subst hne
      rw [hself]
      exact ⟨by rintro ⟨⟩, fun h => absurd rfl h.2⟩
    · rw [hother t' hne, hi.born t']
      exact ⟨fun h => ⟨h, hne⟩, And.left⟩
  · intro t' h
    exact absurd (hi.late t' h).1 hreturned

/-- The constructor goes on, and the threads are where they were. -/
theorem main {l : Option (InitHolder n)}
    (hguarded : Guarded (fun _ : Unit => l) (fun h _ => Holds { s with main := m, initMut := l } h))
    (hstarts : ∀ t : Thread n, m.starts t ↔ s.main.starts t)
    (hawaited : m = .wait → ∃ t, Thread.told t (s.threads t) = false)
    (hleft : m = .leave ∨ m = .returned → ∀ t, (s.threads t).counted = true ∧ Thread.holds t (s.threads t) = false)
    (hreturned : s.main ≠ .returned) : Inv { s with main := m, initMut := l } := by
  refine ⟨hguarded, hi.count, hi.write, ?_, hawaited, hleft, hi.once, ?_⟩
  · intro t
    exact (hi.born t).trans (hstarts t).symm
  · intro t ht
    exact absurd (hi.late t ht).1 hreturned

/-- The constructor moves without the mutex. -/
theorem main_same (hm : m.holds = s.main.holds) :
    Guarded (fun _ : Unit => s.initMut) (fun h _ => Holds { s with main := m } h) := by
  refine hi.guarded_same { s with main := m } rfl ?_
  intro h
  cases h with
  | main =>
    show m.holds = true ↔ s.main.holds = true
    rw [hm]
  | thread t => exact Iff.rfl

/-- The constructor takes the mutex. -/
theorem main_acquire (hfree : s.initMut = none) (hm : m.holds = true) :
    Guarded (fun _ : Unit => some .main) (fun h _ => Holds { s with main := m, initMut := some .main } h) := by
  refine hi.guarded_acquire { s with main := m, initMut := some .main } hfree rfl ?_
  intro h
  cases h with
  | main => exact ⟨fun _ => .inr rfl, fun _ => hm⟩
  | thread t => exact ⟨.inl, fun h => h.resolve_right (by rintro ⟨⟩)⟩

/-- The constructor gives the mutex back. -/
theorem main_release (hheld : s.main.holds = true) (hm : m.holds = false) :
    Guarded (fun _ : Unit => none) (fun h _ => Holds { s with main := m, initMut := none } h) := by
  refine hi.guarded_release { s with main := m, initMut := none } (h := .main) hheld rfl ?_
  intro h
  cases h with
  | main => exact ⟨fun h => absurd h (by rw [← Bool.not_eq_true] at hm; exact hm), fun h => absurd rfl h.2⟩
  | thread t => exact ⟨fun h => ⟨h, by rintro ⟨⟩⟩, And.left⟩

/-- All threads have counted themselves. -/
theorem all_counted (hfinished : s.finished = n + 1) (t : Thread n) : (s.threads t).counted = true := by
  have hcard : (Finset.univ.filter (fun t => (s.threads t).counted = true)).card =
      (Finset.univ : Finset (Thread n)).card := by
    rw [Thread.card_univ, ← hfinished, hi.count]
    rfl
  have huniv := Finset.eq_of_subset_of_card_le (Finset.filter_subset _ _) (Nat.le_of_eq hcard.symm)
  have hmem : t ∈ Finset.univ.filter (fun t => (s.threads t).counted = true) := by
    rw [huniv]
    exact Finset.mem_univ t
  exact (Finset.mem_filter.1 hmem).2

/-- Some thread has not counted itself. -/
theorem exists_uncounted (hfinished : s.finished ≠ n + 1) : ∃ t, (s.threads t).counted = false := by
  by_contra hnone
  refine hfinished ?_
  rw [hi.count, ← Thread.card_univ, countIn, Finset.filter_true_of_mem]
  intro t _
  rw [← Bool.not_eq_false]
  intro ht
  exact hnone ⟨t, ht⟩

/-- The thread of the timers starts. -/
theorem startTimer (hm : s.main = .startTimer) :
    Inv { s with threads := update s.threads .timer .lock, main := .startWorker 0 } := by
  refine hi.starts ((hi.born .timer).2 ?_) ?_ ?_ (by rintro ⟨⟩) (by rintro (⟨⟨⟩⟩ | ⟨⟨⟩⟩)) ?_
  · rw [hm]
    trivial
  · intro t
    rw [hm]
    cases t with
    | timer => exact ⟨False.elim, fun h => h.2 rfl⟩
    | worker w => exact ⟨fun _ => ⟨trivial, by rintro ⟨⟩⟩, fun _ => Nat.zero_le _⟩
  · rw [hm]
    rfl
  · rw [hm]
    rintro ⟨⟩

/-- A worker starts. -/
theorem startWorker {i : Nat} (hm : s.main = .startWorker i) (hlt : i < n) :
    Inv { s with threads := update s.threads (.worker ⟨i, hlt⟩) .lock, main := .startWorker (i + 1) } := by
  refine hi.starts ((hi.born _).2 ?_) ?_ ?_ (by rintro ⟨⟩) (by rintro (⟨⟨⟩⟩ | ⟨⟨⟩⟩)) ?_
  · rw [hm]
    exact Nat.le_refl i
  · intro t
    rw [hm]
    cases t with
    | timer => exact ⟨False.elim, fun h => h.1⟩
    | worker w =>
      have hne : Thread.worker w ≠ .worker ⟨i, hlt⟩ ↔ w.val ≠ i := by
        rw [ne_eq, Thread.worker.injEq, Fin.ext_iff]
      show i + 1 ≤ w.val ↔ i ≤ w.val ∧ _
      rw [hne]
      omega
  · rw [hm]
    rfl
  · rw [hm]
    rintro ⟨⟩

/-- All threads have started. -/
theorem started {i : Nat} (hm : s.main = .startWorker i) (hle : n ≤ i) : Inv { s with main := .lock } := by
  have hsame : MainCtl.lock.holds = s.main.holds := by
    rw [hm]
    rfl
  refine hi.main (hi.main_same hsame) ?_ (by rintro ⟨⟩) (by rintro (⟨⟨⟩⟩ | ⟨⟨⟩⟩)) ?_
  · intro t
    rw [hm]
    cases t with
    | timer => exact Iff.rfl
    | worker w => exact ⟨False.elim, fun h => absurd (Nat.lt_of_lt_of_le w.isLt hle) (Nat.not_lt.2 h)⟩
  · rw [hm]
    rintro ⟨⟩

/-- The constructor looks at the count. -/
theorem lock (hm : s.main = .lock) (hfree : s.initMut = none) :
    Inv { s with initMut := some .main, main := .predicate } := by
  refine hi.main (hi.main_acquire hfree rfl) ?_ (by rintro ⟨⟩) (by rintro (⟨⟨⟩⟩ | ⟨⟨⟩⟩)) ?_
  · intro t
    rw [hm]
    exact Iff.rfl
  · rw [hm]
    rintro ⟨⟩

/-- The predicate holds. -/
theorem complete (hm : s.main = .predicate) (hfinished : s.finished = n + 1) : Inv { s with main := .leave } := by
  have hsame : MainCtl.leave.holds = s.main.holds := by
    rw [hm]
    rfl
  refine hi.main (hi.main_same hsame) ?_ (by rintro ⟨⟩) ?_ ?_
  · intro t
    rw [hm]
    exact Iff.rfl
  · intro _ t
    -- the constructor has the mutex
    refine ⟨hi.all_counted hfinished t, ?_⟩
    rw [← Bool.not_eq_true]
    intro hholds
    have hmain : s.Holds .main := by
      show s.main.holds = true
      rw [hm]
      rfl
    have hthread : s.Holds (.thread t) := hholds
    cases hi.guarded.unique (j := ()) hthread hmain
  · rw [hm]
    rintro ⟨⟩

/-- The predicate does not hold: the constructor sleeps, and some thread has yet to notify it. -/
theorem wait (hm : s.main = .predicate) (hfinished : s.finished ≠ n + 1) :
    Inv { s with initMut := none, main := .wait } := by
  have hheld : s.main.holds = true := by
    rw [hm]
    rfl
  refine hi.main (hi.main_release hheld rfl) ?_ ?_ (by rintro (⟨⟨⟩⟩ | ⟨⟨⟩⟩)) ?_
  · intro t
    rw [hm]
    exact Iff.rfl
  · intro _
    obtain ⟨t, ht⟩ := hi.exists_uncounted hfinished
    refine ⟨t, ?_⟩
    rw [← Bool.not_eq_true]
    intro htold
    rw [Thread.counted_of_told htold] at ht
    cases ht
  · rw [hm]
    rintro ⟨⟩

/-- The constructor returns. -/
theorem leave (hm : s.main = .leave) : Inv { s with initMut := none, main := .returned } := by
  have hheld : s.main.holds = true := by
    rw [hm]
    rfl
  refine hi.main (hi.main_release hheld rfl) ?_ (by rintro ⟨⟩) (fun _ => hi.left (.inl hm)) ?_
  · intro t
    rw [hm]
    exact Iff.rfl
  · rw [hm]
    rintro ⟨⟩

/-- The constructor wakes. -/
theorem wake (hm : s.main = .wait) : Inv { s with main := .lock } := by
  have hsame : MainCtl.lock.holds = s.main.holds := by
    rw [hm]
    rfl
  refine hi.main (hi.main_same hsame) ?_ (by rintro ⟨⟩) (by rintro (⟨⟨⟩⟩ | ⟨⟨⟩⟩)) ?_
  · intro t
    rw [hm]
    exact Iff.rfl
  · rw [hm]
    rintro ⟨⟩

/-! ### The steps of a thread -/

/-- A thread takes the mutex. -/
theorem threadLock (ht : s.threads t = .lock) (hfree : s.initMut = none) :
    (Startup.setThread { s with initMut := some (.thread t) } t .read).Inv := by
  refine hi.thread rfl rfl (.inl rfl) (hi.guarded_acquire _ (h := .thread t) hfree rfl ?_) ?_ (fun _ _ _ _ =>
    rfl) (by rintro _ ⟨⟩) ?_ ?_ ?_ ?_
  · intro h
    rw [holds_setThread]
    split
    · rename_i heq
      exact ⟨fun _ => .inr heq, fun _ => by cases t <;> rfl⟩
    · rename_i hne
      exact ⟨.inl, fun h => h.resolve_right hne⟩
  all_goals rw [ht]
  · rfl
  · exact ⟨by rintro ⟨⟩, by rintro ⟨⟩⟩
  · rintro ⟨⟩
  · intro _
    cases t <;> rfl
  · rintro ⟨⟩

/-- A thread reads the count. -/
theorem read (ht : s.threads t = .read) : (s.setThread t (.write s.finished)).Inv := by
  refine hi.thread rfl rfl (.inl rfl) (hi.guarded_same _ rfl ?_) ?_ (fun _ _ _ _ => rfl) ?_ ?_ ?_ ?_ ?_
  · intro h
    rw [holds_setThread]
    split
    · rename_i heq
      subst heq
      show _ ↔ t.holds (s.threads t) = true
      rw [ht]
      cases t <;> exact Iff.rfl
    · exact Iff.rfl
  · rw [ht]
    rfl
  · rintro count ⟨⟩
    rfl
  all_goals rw [ht]
  · exact ⟨by rintro ⟨⟩, by rintro ⟨⟩⟩
  · rintro ⟨⟩
  · intro _
    cases t <;> rfl
  · rintro ⟨⟩

/-- What the thread has read is still what `finished` is. -/
theorem writes {count : Nat} (ht : s.threads t = .write count) :
    (Startup.setThread { s with finished := count + 1 } t t.written).Inv := by
  have hholds : s.Holds (.thread t) := by
    show t.holds (s.threads t) = true
    rw [ht]
    cases t <;> rfl
  refine hi.thread rfl rfl (.inl rfl) (hi.guarded_same _ rfl ?_) ?_ ?_ ?_ ?_ ?_ ?_ ?_
  · intro h
    rw [holds_setThread]
    split
    · rename_i heq
      subst heq
      refine ⟨fun _ => hholds, fun _ => ?_⟩
      cases t <;> rfl
    · exact Iff.rfl
  · rw [ht, hi.write t count ht]
    cases t <;> rfl
  · -- nobody else is about to write
    intro t' count' hne ht'
    have hholds' : s.Holds (.thread t') := by
      show t'.holds (s.threads t') = true
      rw [ht']
      cases t' <;> rfl
    exact absurd (InitHolder.thread.inj (hi.guarded.unique (j := ()) hholds' hholds)) hne
  · intro count' h
    cases t <;> cases h
  all_goals rw [ht]
  · exact ⟨by rintro ⟨⟩, by cases t <;> rintro ⟨⟩⟩
  · rintro ⟨⟩
  · intro _
    cases t <;> rfl
  · rintro ⟨⟩

/-- A thread gives the mutex back. -/
theorem unlock (ht : s.threads t = .unlock) :
    (Startup.setThread { s with initMut := none } t t.unlocked).Inv := by
  have hholds : s.Holds (.thread t) := by
    show t.holds (s.threads t) = true
    rw [ht]
    cases t <;> rfl
  refine hi.thread rfl rfl (.inl rfl) (hi.guarded_release _ hholds rfl ?_) ?_ (fun _ _ _ _ => rfl) ?_ ?_ ?_ ?_ ?_
  · intro h
    rw [holds_setThread]
    split
    · rename_i heq
      refine ⟨fun h => ?_, fun h => absurd heq h.2⟩
      cases t <;> cases h
    · rename_i hne
      exact ⟨fun h => ⟨h, hne⟩, And.left⟩
  · rw [ht]
    cases t <;> rfl
  · intro count h
    cases t <;> cases h
  all_goals rw [ht]
  · exact ⟨by rintro ⟨⟩, by cases t <;> rintro ⟨⟩⟩
  · rintro ⟨⟩
  · intro _
    cases t <;> rfl
  · intro _ h
    cases t <;> cases h

/-- A thread wakes the constructor. -/
theorem notify (ht : s.threads t = .notify) : (s.notifyOne.setThread t t.notified).Inv := by
  rw [notifyOne_eq]
  refine hi.thread rfl rfl ?_ (hi.guarded_same _ rfl ?_) ?_ (fun _ _ _ _ => rfl) ?_ ?_ ?_ ?_ ?_
  · show (if s.main = .wait then MainCtl.lock else s.main) = s.main ∨ s.main = .wait ∧
      (if s.main = .wait then MainCtl.lock else s.main) = .lock
    split
    · rename_i hm
      exact .inr ⟨hm, rfl⟩
    · exact .inl rfl
  · intro h
    rw [holds_setThread]
    split
    · rename_i heq
      subst heq
      show _ ↔ t.holds (s.threads t) = true
      rw [ht]
      cases t <;> exact Iff.rfl
    · cases h with
      | main =>
        show (if s.main = .wait then MainCtl.lock else s.main).holds = true ↔ s.main.holds = true
        split
        · rename_i hm
          rw [hm]
          exact Iff.rfl
        · exact Iff.rfl
      | thread t' => exact Iff.rfl
  · rw [ht]
    cases t <;> rfl
  · intro count h
    cases t <;> cases h
  · rw [ht]
    exact ⟨by rintro ⟨⟩, by cases t <;> rintro ⟨⟩⟩
  · rw [ht]
    rintro ⟨⟩
  · intro hm
    change (if s.main = .wait then MainCtl.lock else s.main) = .wait at hm
    split at hm
    · cases hm
    · rename_i hne
      exact absurd hm hne
  · rw [ht]
    intro _ h
    cases t with
    | timer => cases h
    | worker w => rfl

/-- Every step keeps it. -/
theorem step {e : StartupEvent n} (h : Moves s e s') : s'.Inv := by
  cases h with
  | startTimer hm => exact hi.startTimer hm
  | startWorker hm hlt => exact hi.startWorker hm hlt
  | started hm hle => exact hi.started hm hle
  | lock hm hfree => exact hi.lock hm hfree
  | complete hm hfinished => exact hi.complete hm hfinished
  | wait hm hfinished => exact hi.wait hm hfinished
  | leave hm => exact hi.leave hm
  | wake hm => exact hi.wake hm
  | threadLock ht hfree => exact hi.threadLock ht hfree
  | read ht => exact hi.read ht
  | write ht => exact hi.writes ht
  | unlock ht => exact hi.unlock ht
  | notify ht => exact hi.notify ht

/-- So does a run. -/
theorem runAll {es : List (StartupEvent n)} (h : s.runAll es = some s') : s'.Inv := by
  induction es generalizing s with
  | nil =>
    cases h
    exact hi
  | cons e rest ih =>
    obtain ⟨s₁, he, hrest⟩ := Option.bind_eq_some_iff.1 h
    exact ih (hi.step (step_moves he)) hrest

end

end Inv

end Startup

end Executor

end Tunnel
