import Mathlib.Data.List.Flatten
import Mathlib.Data.List.Infix
import Mathlib.Tactic.Common

/-!
# Framed messages on a stream

One direction of a connection that carries a stream of elements in pieces of any size: what a write under way still has
to hand over, what is on the wire, and how much the reader is going to take after it has read a header. A writer puts
messages, each with a header in front; a reader takes the header and then as much as it says. What the lane carries is a
list of complete messages and, if a write is under way, the message that is being written (`Lane.Carries`). It does not
matter how the elements are split on the way: a read that takes a body takes the body of the first message, and of one
that was written completely.
-/

namespace Lib

variable {β M : Type}

/-- How messages are framed: a header of fixed size in front of a body. Only some messages may be written. -/
structure Framing (β M : Type) where
  size : Nat
  header : M → List β
  body : M → List β
  Fits : M → Prop
  size_pos : 0 < size
  length_header : ∀ m, (header m).length = size

namespace Framing

variable (F : Framing β M)

/-- A message as it is written. -/
def frame (m : M) : List β := F.header m ++ F.body m

/-- Messages one behind the other. -/
def frames (ms : List M) : List β := ms.flatMap F.frame

@[simp] theorem frames_nil : F.frames [] = [] := rfl

@[simp] theorem frames_cons (m : M) (ms : List M) : F.frames (m :: ms) = F.header m ++ (F.body m ++ F.frames ms) := by
  simp [frames, frame]

@[simp] theorem frames_append (ms ms' : List M) :
    F.frames (ms ++ ms') = F.frames ms ++ F.frames ms' := List.flatMap_append

theorem frame_ne_nil (m : M) : F.frame m ≠ [] := by
  intro h
  have hsize : F.size = 0 := by
    rw [← F.length_header m, (List.append_eq_nil_iff.1 h).1]
    rfl
  exact absurd hsize (Nat.ne_of_gt F.size_pos)

end Framing

/-- One direction of a connection. -/
structure Lane (β : Type) where
  /-- what a write under way has still to hand over -/
  rest : Option (List β) := none
  wire : List β := []
  /-- how much the reader takes next, once it has read a header -/
  length : Option Nat := none

namespace Lane

/-- A write begins. -/
def begin (l : Lane β) (bytes : List β) : Lane β := { l with rest := some bytes }

/-- So many elements are handed over; the write is complete when nothing is left. -/
def write (l : Lane β) (n : Nat) : Option (Lane β) :=
  match l.rest with
  | none => none
  | some bytes =>
    if 0 < n ∧ n ≤ bytes.length then
      some { l with rest := if n < bytes.length then some (bytes.drop n) else none, wire := l.wire ++ bytes.take n }
    else none

/-- So many elements are taken, and then the reader goes on with `length`. -/
def take (l : Lane β) (n : Nat) (length : Option Nat) : Lane β := { l with wire := l.wire.drop n, length := length }

/-- What the reader has before it: complete messages, or the first one without its header. -/
inductive Ahead (F : Framing β M) : Option Nat → List M → List β → Prop where
  | header (ms : List M) : Ahead F none ms (F.frames ms)
  | body (m : M) (ms : List M) : Ahead F (some (F.body m).length) (m :: ms) (F.body m ++ F.frames ms)

/-- The lane carries these messages, and then the one that is being written. -/
structure Carries (F : Framing β M) (l : Lane β) (ms : List M) (current : Option M) : Prop where
  ahead : Ahead F l.length (ms ++ current.toList) (l.wire ++ l.rest.getD [])
  fits : ∀ m ∈ ms ++ current.toList, F.Fits m
  idle : current = none → l.rest = none
  busy : ∀ m, current = some m → ∃ bytes, l.rest = some bytes ∧ bytes ≠ []

namespace Carries

variable {F : Framing β M} {l l' : Lane β} {ms : List M} {current : Option M} {m : M}

/-- At first it carries nothing. -/
theorem empty : ({} : Lane β).Carries F [] none := by
  refine ⟨.header [], ?_, fun _ => rfl, ?_⟩
  · intro m hm
    cases hm
  · intro m hm
    cases hm

theorem rest_isSome (h : l.Carries F ms current) : l.rest.isSome = current.isSome := by
  cases current with
  | none => rw [h.idle rfl]
            rfl
  | some m =>
    obtain ⟨bytes, hrest, -⟩ := h.busy m rfl
    rw [hrest]
    rfl

/-- A write of a message begins. -/
theorem begin (h : l.Carries F ms none) (hm : F.Fits m) : (l.begin (F.frame m)).Carries F ms (some m) := by
  have hahead := h.ahead
  rw [h.idle rfl] at hahead
  simp only [Option.toList_none, List.append_nil, Option.getD_none] at hahead
  refine ⟨?_, ?_, ?_, ?_⟩
  · show Ahead F l.length (ms ++ [m]) (l.wire ++ F.frame m)
    generalize l.length = n, l.wire = w at hahead ⊢
    cases hahead with
    | header =>
      have heq : F.frames ms ++ F.frame m = F.frames (ms ++ [m]) := by simp [Framing.frame]
      rw [heq]
      exact .header _
    | body m' ms =>
      have heq : F.body m' ++ F.frames ms ++ F.frame m = F.body m' ++ F.frames (ms ++ [m]) := by simp [Framing.frame]
      rw [heq]
      exact .body m' (ms ++ [m])
  · intro m' hm'
    rcases List.mem_append.1 hm' with hm' | hm'
    · exact h.fits m' (List.mem_append_left _ hm')
    · obtain rfl : m' = m := by simpa using hm'
      exact hm
  · intro hnone
    cases hnone
  · rintro _ ⟨⟩
    exact ⟨F.frame m, rfl, F.frame_ne_nil m⟩

/-- A write goes on: the same messages are on the lane, and when the write is complete the one that was being written is
one of them. -/
theorem write (h : l.Carries F ms current) {n : Nat} (hwrite : l.write n = some l') :
    (l'.rest ≠ none ∧ l'.Carries F ms current) ∨
    (∃ m, current = some m ∧ l'.rest = none ∧ l'.Carries F (ms ++ [m]) none) := by
  obtain ⟨hahead, hfits, hidle, hbusy⟩ := h
  cases current with
  | none =>
    rw [Lane.write, hidle rfl] at hwrite
    cases hwrite
  | some m =>
    obtain ⟨bytes, hrest, hne⟩ := hbusy m rfl
    simp only [Lane.write, hrest] at hwrite
    rw [hrest] at hahead
    split at hwrite
    · rename_i hn
      cases hwrite
      by_cases hlt : n < bytes.length
      · refine .inl ⟨by simp [hlt], ?_, hfits, by rintro ⟨⟩, ?_⟩
        · simpa [hlt, List.append_assoc] using hahead
        · intro _ _
          refine ⟨bytes.drop n, by simp [hlt], ?_⟩
          rw [Ne, List.drop_eq_nil_iff]
          omega
      · have hall : bytes.take n = bytes := List.take_of_length_le (Nat.not_lt.1 hlt)
        refine .inr ⟨m, rfl, by simp [hlt], ?_, by simpa using hfits, fun _ => by simp [hlt], by rintro _ ⟨⟩⟩
        simpa [hlt, hall] using hahead
    · cases hwrite

/-- A header that is there completely is the one of a message; the reader goes on with its body. -/
theorem header (h : l.Carries F ms current) (hlen : l.length = none) (hsize : F.size ≤ l.wire.length) :
    ∃ m ∈ ms ++ current.toList, l.wire.take F.size = F.header m ∧
    (l.take F.size (some (F.body m).length)).Carries F ms current := by
  obtain ⟨hahead, hfits, hidle, hbusy⟩ := h
  rw [hlen] at hahead
  generalize hall : ms ++ current.toList = all at hahead
  generalize hw : l.wire ++ l.rest.getD [] = w at hahead
  cases hahead with
  | header =>
    cases hms : all with
    | nil =>
      rw [hms] at hw
      have hwire : l.wire = [] := (List.append_eq_nil_iff.1 hw).1
      rw [hwire] at hsize
      exact absurd (Nat.le_zero.1 hsize) (Nat.ne_of_gt F.size_pos)
    | cons m tail =>
      rw [hms, Framing.frames_cons] at hw
      have hhead : l.wire.take F.size = F.header m := by
        have := congrArg (List.take F.size) hw
        rwa [List.take_append_of_le_length hsize, List.take_append_of_le_length (Nat.le_of_eq (F.length_header m).symm),
          List.take_of_length_le (Nat.le_of_eq (F.length_header m))] at this
      have htail : l.wire.drop F.size ++ l.rest.getD [] = F.body m ++ F.frames tail := by
        have := congrArg (List.drop F.size) hw
        rwa [List.drop_append_of_le_length hsize, List.drop_append_of_le_length (Nat.le_of_eq (F.length_header m).symm),
          List.drop_of_length_le (Nat.le_of_eq (F.length_header m)), List.nil_append] at this
      refine ⟨m, List.mem_cons_self, hhead, ?_, ?_, hidle, hbusy⟩
      · show Ahead F (some (F.body m).length) (ms ++ current.toList) (l.wire.drop F.size ++ l.rest.getD [])
        rw [hall, hms, htail]
        exact .body m tail
      · exact hfits

/-- A body that is there completely is the one of the first message, which was written completely. -/
theorem body (h : l.Carries F ms current) {n : Nat} (hlen : l.length = some n) (hn : n ≤ l.wire.length) :
    ∃ m ms', ms = m :: ms' ∧ n = (F.body m).length ∧ l.wire.take n = F.body m ∧ F.Fits m ∧
    (l.take n none).Carries F ms' current := by
  obtain ⟨hahead, hfits, hidle, hbusy⟩ := h
  rw [hlen] at hahead
  generalize hall : ms ++ current.toList = all at hahead
  generalize hw : l.wire ++ l.rest.getD [] = w at hahead
  cases hahead with
  | body m tail =>
    cases ms with
    | nil =>
      -- the body would be complete while a part of it is still to be written
      cases current with
      | none => cases hall
      | some m' =>
        obtain ⟨bytes, hrest, hne⟩ := hbusy m' rfl
        obtain ⟨rfl, rfl⟩ := List.cons.inj hall
        have hlength := congrArg List.length hw
        rw [hrest] at hlength
        simp only [Option.getD_some, List.length_append, Framing.frames_nil, List.length_nil, Nat.add_zero] at hlength
        have := List.length_pos_iff.2 hne
        omega
    | cons m' ms' =>
      obtain ⟨rfl, rfl⟩ := List.cons.inj hall
      have hbody : l.wire.take (F.body m').length = F.body m' := by
        have := congrArg (List.take (F.body m').length) hw
        rwa [List.take_append_of_le_length hn, List.take_left] at this
      have htail : l.wire.drop (F.body m').length ++ l.rest.getD [] = F.frames (ms' ++ current.toList) := by
        have := congrArg (List.drop (F.body m').length) hw
        rwa [List.drop_append_of_le_length hn, List.drop_left] at this
      refine ⟨m', ms', rfl, rfl, hbody, hfits m' (by simp), ?_, ?_, hidle, hbusy⟩
      · show Ahead F none (ms' ++ current.toList) (l.wire.drop _ ++ l.rest.getD [])
        rw [htail]
        exact .header _
      · intro x hx
        exact hfits x (List.mem_cons_of_mem _ hx)

end Carries

end Lane

end Lib
