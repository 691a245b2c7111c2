import Mathlib.Data.List.Count
import Tunnel.Lib.Interleave

/-!
# Queues with a history

A FIFO queue that several writers share, together with what was put into it so far and by whom (`log`) and what was
taken out (`taken`). That nothing is lost, invented or reordered is part of the type: the log is what was taken followed
by what is there.
-/

namespace Lib

variable {W M : Type}

/-- A queue with its history. -/
structure Fifo (W M : Type) where
  content : List M
  taken : List M
  log : List (W × M)
  log_eq : log.map (·.2) = taken ++ content

namespace Fifo

/-- A queue that holds what one writer put there. -/
def ofList (w : W) (content : List M) : Fifo W M where
  content := content
  taken := []
  log := content.map (fun m => (w, m))
  log_eq := by simp

/-- The queue after a writer put an element into it. -/
def push (q : Fifo W M) (w : W) (m : M) : Fifo W M where
  content := q.content ++ [m]
  taken := q.taken
  log := q.log ++ [(w, m)]
  log_eq := by simp [q.log_eq]

/-- The queue after its first element was taken out. -/
def pop (q : Fifo W M) : Fifo W M where
  content := q.content.tail
  taken := q.taken ++ q.content.take 1
  log := q.log
  log_eq := by
    rw [q.log_eq]
    cases q.content <;> simp

@[simp] theorem content_push (q : Fifo W M) (w : W) (m : M) : (q.push w m).content = q.content ++ [m] := rfl

@[simp] theorem taken_push (q : Fifo W M) (w : W) (m : M) : (q.push w m).taken = q.taken := rfl

@[simp] theorem log_push (q : Fifo W M) (w : W) (m : M) : (q.push w m).log = q.log ++ [(w, m)] := rfl

@[simp] theorem content_pop (q : Fifo W M) : q.pop.content = q.content.tail := rfl

@[simp] theorem log_pop (q : Fifo W M) : q.pop.log = q.log := rfl

theorem taken_pop {q : Fifo W M} {m : M} {rest : List M} (h : q.content = m :: rest) :
    q.pop.taken = q.taken ++ [m] := by
  simp [pop, h]

/-! ## What one writer put -/

variable [DecidableEq W]

/-- What one writer put, in its order. -/
def putBy (q : Fifo W M) (w : W) : List M := streamOf q.log w

@[simp] theorem putBy_pop (q : Fifo W M) (w : W) : q.pop.putBy w = q.putBy w := rfl

theorem putBy_push (q : Fifo W M) (w v : W) (m : M) :
    (q.push w m).putBy v = if w = v then q.putBy v ++ [m] else q.putBy v := by
  unfold putBy
  rw [log_push, streamOf_append]
  by_cases h : w = v <;> simp [streamOf, h]

/-- What was taken and then what is there is an interleaving of what the writers put. -/
theorem interleaves (q : Fifo W M) (S : Finset W) (h : ∀ x ∈ q.log, x.1 ∈ S) :
    Interleaves S q.putBy (q.taken ++ q.content) :=
  ⟨q.log, q.log_eq, h, fun _ _ => rfl⟩

/-- When every writer's last element passes a test and nothing that is there does, nothing is there. -/
theorem content_eq_nil (q : Fifo W M) (p : M → Bool) (h : ∀ x ∈ q.log, ∀ m ∈ (q.putBy x.1).getLast?, p m = true)
    (hcount : q.content.countP p = 0) : q.content = [] := by
  by_contra hne
  obtain ⟨l, m, hl⟩ := (List.eq_nil_or_concat' q.content).resolve_left hne
  rcases List.eq_nil_or_concat' q.log with hlog | ⟨t, x, hlog⟩
  · have := q.log_eq
    simp [hlog, hne] at this
  · have hm : x.2 = m := by
      have := q.log_eq
      rw [hlog, hl, List.map_append, ← List.append_assoc] at this
      exact List.singleton_injective (List.append_inj_right' this rfl)
    have hp := h x (by simp [hlog]) x.2 (by simp [putBy, hlog, streamOf])
    rw [hm] at hp
    rw [hl, List.countP_append, List.countP_singleton, if_pos hp] at hcount
    omega

end Fifo

end Lib
