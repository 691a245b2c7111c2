import Tunnel.Run
import Tunnel.Wiring

/-!
# What a processor does at its ports

The EOF discipline of one processor, as an invariant of its own steps. A port is open until its last EOF went through
it; `work`, `after_work` and `hosted_mode` shut every port, each once. What tells them what is left to do is `reset()`
and `input_count_`: an open port still has its channel, a port that `work` shut has none.
-/

namespace Tunnel

open Lib

variable {V : Type}

/-- The EOFs in a list of elements. -/
def eofs (l : List (Option V)) : Nat := l.countP (·.isNone)

@[simp] theorem eofs_nil : eofs ([] : List (Option V)) = 0 := rfl

theorem eofs_append (l m : List (Option V)) : eofs (l ++ m) = eofs l + eofs m := List.countP_append

@[simp] theorem eofs_map_some (l : List V) : eofs (l.map some) = 0 := by
  induction l with
  | nil => rfl
  | cons a l ih => simp [eofs]

@[simp] theorem eofs_append_some (l : List (Option V)) (a : V) : eofs (l ++ [some a]) = eofs l := by simp [eofs]

@[simp] theorem eofs_append_none (l : List (Option V)) : eofs (l ++ [none]) = eofs l + 1 := by simp [eofs]

/-- Values, then one EOF. -/
def Ended (l : List (Option V)) : Prop := ∃ vs : List V, l = vs.map some ++ [none]

variable {l : List (Option V)} {k : Kind V}

/-- A shut queue has one EOF. -/
theorem Ended.eofs_eq (h : Ended l) : eofs l = 1 := by
  obtain ⟨vs, rfl⟩ := h
  simp

/-- Only values. -/
def Values (l : List (Option V)) : Prop := ∃ vs : List V, l = vs.map some

/-- Values have none. -/
theorem Values.eofs_eq (h : Values l) : eofs l = 0 := by
  obtain ⟨vs, rfl⟩ := h
  simp

theorem values_nil : Values ([] : List (Option V)) := ⟨[], rfl⟩

/-- A value more. -/
theorem Values.append_some (h : Values l) (a : V) : Values (l ++ [some a]) := by
  obtain ⟨vs, rfl⟩ := h
  exact ⟨vs ++ [a], by simp⟩

/-- An EOF after them. -/
theorem Values.append_none (h : Values l) : Ended (l ++ [none]) := by
  obtain ⟨vs, rfl⟩ := h
  exact ⟨vs, rfl⟩

/-! ## Ports -/

/-- A processor as `Run` finds it: well shaped, with every port bound that the pipeline binds. -/
structure Processor.Ready (n : Processor V) : Prop where
  shaped : n.Shaped
  ins : n.kind.isSource = false → ∀ i < n.kind.nin, (n.inChan i).isSome = true
  outs : n.kind.isSink = false → ∀ o < n.kind.nout, (n.outChan o).isSome = true

/-- `before_work` sees to the channels of the user. -/
theorem Processor.Ready.in_bound {n : Processor V} (h : n.Ready) (hb : n.beforeWork = true) (i : Nat)
    (hi : i < n.kind.nin) :
    (n.inChan i).isSome = true := by
  cases hk : n.kind with
  | source k =>
    cases k with
    | generate g => simp [hk, Kind.nin] at hi
    | channel ch =>
      have : i = 0 := by simpa [hk, Kind.nin] using hi
      subst this
      simpa [Processor.beforeWork, hk, Processor.inChan, Kind.isMultiIn] using hb
  | _ => exact h.ins (by simp [hk, Kind.isSource]) i hi

/-- Where `before_work` passes, every output is bound. -/
theorem Processor.Ready.out_bound {n : Processor V} (h : n.Ready) (hb : n.beforeWork = true) (o : Nat)
    (ho : o < n.kind.nout) :
    (n.outChan o).isSome = true := by
  cases hk : n.kind with
  | sink k =>
    cases k with
    | consume => simp [hk, Kind.nout] at ho
    | channel ch =>
      have : o = 0 := by simpa [hk, Kind.nout] using ho
      subst this
      simpa [Processor.beforeWork, hk, Processor.outChan, Kind.isMultiOut] using hb
  | _ => exact h.outs (by simp [hk, Kind.isSink]) o ho

theorem Processor.countEof_inChan (p : Processor V) (i : Nat) : p.countEof.inChan i = p.inChan i := by
  unfold Processor.countEof
  split <;> rfl

theorem Processor.countEof_outChan (p : Processor V) (o : Nat) : p.countEof.outChan o = p.outChan o := by
  unfold Processor.countEof
  split <;> rfl

@[simp] theorem Processor.countEof_kind (p : Processor V) : p.countEof.kind = p.kind := by
  unfold Processor.countEof
  split <;> rfl

@[simp] theorem Processor.resetInput_kind (p : Processor V) (i : Nat) : (p.resetInput i).kind = p.kind := by
  unfold Processor.resetInput
  split <;> rfl

@[simp] theorem Processor.resetOutput_kind (p : Processor V) (o : Nat) : (p.resetOutput o).kind = p.kind := by
  unfold Processor.resetOutput
  split <;> rfl

/-- Only a `MultiIn` class has several inputs. -/
theorem Kind.nin_le_one (h : k.isMultiIn = false) : k.nin ≤ 1 := by
  cases k with
  | source k => cases k <;> simp [Kind.nin]
  | concat n pos => simp [Kind.isMultiIn] at h
  | _ => simp [Kind.nin]

/-- Only a `MultiOut` class has several outputs. -/
theorem Kind.nout_le_one (h : k.isMultiOut = false) : k.nout ≤ 1 := by
  cases k with
  | sink k => cases k <;> simp [Kind.nout]
  | dispatch n pos d => simp [Kind.isMultiOut] at h
  | fork n pos => simp [Kind.isMultiOut] at h
  | _ => simp [Kind.nout]

theorem Kind.channelSink_out (h : k.isChannelSink = true) : k.isSink = true ∧ k.nout = 1 := by
  cases k with
  | sink k => cases k <;> simp_all [Kind.isChannelSink, Kind.isSink, Kind.nout]
  | _ => simp_all [Kind.isChannelSink]

/-- A reset input is empty, and the others are as before. -/
theorem Processor.resetInput_inChan (p : Processor V) {i j : Nat} (hi : i < p.kind.nin) (hj : j < p.kind.nin) :
    (p.resetInput i).inChan j = if j = i then none else p.inChan j := by
  unfold Processor.inChan
  rw [Processor.resetInput_kind]
  unfold Processor.resetInput
  cases hm : p.kind.isMultiIn with
  | true =>
    by_cases h : j = i
    · subst h
      simp only [if_true, List.getElem?_set_self']
      cases p.inputs[j]? <;> rfl
    · simp [h, List.getElem?_set_ne (Ne.symm h)]
  | false =>
    have h1 := Kind.nin_le_one hm
    have hi0 : i = 0 := by omega
    have hj0 : j = 0 := by omega
    simp [hi0, hj0]

/-- A reset output is empty, and the others are as before. -/
theorem Processor.resetOutput_outChan (p : Processor V) {i j : Nat} (hi : i < p.kind.nout) (hj : j < p.kind.nout) :
    (p.resetOutput i).outChan j = if j = i then none else p.outChan j := by
  unfold Processor.outChan
  rw [Processor.resetOutput_kind]
  unfold Processor.resetOutput
  cases hm : p.kind.isMultiOut with
  | true =>
    by_cases h : j = i
    · subst h
      simp only [if_true, List.getElem?_set_self']
      cases p.outputs[j]? <;> rfl
    · simp [h, List.getElem?_set_ne (Ne.symm h)]
  | false =>
    have h1 := Kind.nout_le_one hm
    have hi0 : i = 0 := by omega
    have hj0 : j = 0 := by omega
    simp [hi0, hj0]

theorem Processor.resetInput_outChan (p : Processor V) (i o : Nat) : (p.resetInput i).outChan o = p.outChan o := by
  unfold Processor.resetInput
  split <;> rfl

theorem Processor.resetOutput_inChan (p : Processor V) (o i : Nat) : (p.resetOutput o).inChan i = p.inChan i := by
  unfold Processor.resetOutput
  split <;> rfl

/-! ## The invariant -/

/-- A `Source` that is asked for its values, and reads nothing. -/
def Kind.generates : Kind V → Bool
  | .source (.generate _) => true
  | _ => false

theorem Kind.exists_generate (h : k.generates = true) : ∃ g, k = .source (.generate g) := by
  cases k with
  | source k => cases k <;> simp_all [Kind.generates]
  | _ => cases h

/-- Who does not generate reads. -/
theorem Kind.pos_nin (h : k.generates = false) : 0 < k.nin := by
  cases k with
  | source k => cases k <;> simp_all [Kind.generates, Kind.nin]
  | concat n pos => exact pos
  | _ => simp [Kind.nin]

namespace Ports

variable {n : Processor V} {x : Ports V}

/-- An input whose last EOF has not come. -/
structure InOpen (n : Processor V) (x : Ports V) (i : Nat) : Prop where
  lt : eofs (x.taken i) < n.need
  chan : x.obj.inChan i = n.inChan i

/-- An input that gave its last EOF to `work`. -/
structure InShut (n : Processor V) (x : Ports V) (i : Nat) : Prop where
  eq : eofs (x.taken i) = n.need
  chan : x.obj.inChan i = none

/-- An output without an EOF. -/
structure OutOpen (n : Processor V) (x : Ports V) (o : Nat) : Prop where
  values : Values (x.put o)
  chan : x.obj.outChan o = n.outChan o

/-- An output on which `work` put its EOF. -/
structure OutShut (n : Processor V) (x : Ports V) (o : Nat) : Prop where
  ended : Ended (x.put o)
  chan : x.obj.outChan o = none

/-- `work` has read the inputs before the `k`-th to their end, and not the others. -/
structure Reading (n : Processor V) (x : Ports V) (k : Nat) : Prop where
  shut : ∀ j < n.kind.nin, j < k → InShut n x j
  opened : ∀ j < n.kind.nin, k ≤ j → InOpen n x j

def OutsOpen (n : Processor V) (x : Ports V) : Prop := ∀ o < n.kind.nout, OutOpen n x o

def OutsShut (n : Processor V) (x : Ports V) : Prop := ∀ o < n.kind.nout, OutShut n x o

/-- Every port is open or shut, as an exception may leave them. -/
def InsMixed (n : Processor V) (x : Ports V) (k : Nat) : Prop := ∀ j < n.kind.nin, k ≤ j → InOpen n x j ∨ InShut n x j

def OutsMixed (n : Processor V) (x : Ports V) (k : Nat) :
    Prop := ∀ o < n.kind.nout, k ≤ o → OutOpen n x o ∨ OutShut n x o

/-- What holds in the middle of the pushes of a round of `work`, `todo` being those still to come. -/
def Emitting (n : Processor V) (x : Ports V) (todo : List (Nat × Option V)) : Next → Prop
  | .generate => n.kind.generates = true ∧ OutsOpen n x ∧ ∀ w ∈ todo, w.1 < n.kind.nout ∧ w.2.isSome = true
  | .pop i => i < n.kind.nin ∧ Reading n x i ∧ OutsOpen n x ∧ ∀ w ∈ todo, w.1 < n.kind.nout ∧ w.2.isSome = true
  | .ret => n.kind.isSink = false ∧ Reading n x n.kind.nin ∧ (∀ w ∈ todo, w.1 < n.kind.nout) ∧
    ∀ o < n.kind.nout, (OutShut n x o ∧ streamOf todo o = []) ∨ (OutOpen n x o ∧ Ended (streamOf todo o))

/-- What holds of the ports where the coroutine stands. -/
def Standing (n : Processor V) (x : Ports V) : Ctl V → Prop
  | .start => x.obj = n ∧ (∀ i, x.taken i = []) ∧ ∀ o, x.put o = []
  | .generate => n.kind.generates = true ∧ OutsOpen n x
  | .pop i => i < n.kind.nin ∧ Reading n x i ∧ OutsOpen n x
  | .popCheck i _ => i < n.kind.nin ∧ Reading n x i ∧ OutsOpen n x
  | .handle i _ => i < n.kind.nin ∧ Reading n x i ∧ OutsOpen n x
  | .eof i => i < n.kind.nin ∧ Reading n x (i + 1) ∧ OutsOpen n x
  | .push o v rest next => Emitting n x ((o, v) :: rest) next
  | .pushCheck rest next => Emitting n x rest next
  | .afterWork => Reading n x n.kind.nin ∧ if n.kind.isSink then OutsOpen n x else OutsShut n x
  | .threw _ => InsMixed n x 0 ∧ OutsMixed n x 0
  | .closeInput _ i => (∀ j < n.kind.nin, j < i → eofs (x.taken j) = n.need) ∧ InsMixed n x i ∧ OutsMixed n x 0
  | .closeOutput _ o => (∀ j < n.kind.nin, eofs (x.taken j) = n.need) ∧ (∀ j < n.kind.nout, j < o → Ended (x.put j)) ∧
    OutsMixed n x o
  | .finished _ => (∀ j < n.kind.nin, eofs (x.taken j) = n.need) ∧ ∀ o < n.kind.nout, Ended (x.put o)
  | .escaped => ∀ o < n.kind.nout, Values (x.put o) ∨ Ended (x.put o)
  | .dead d => d = .aborted ∧ ∀ o < n.kind.nout, Values (x.put o) ∨ Ended (x.put o)

/-- Where all outputs are open, each is open or shut. -/
theorem OutsOpen.mixed (h : OutsOpen n x) (k : Nat) : OutsMixed n x k := fun o ho _ => Or.inl (h o ho)

/-- An output got values, or values and an EOF. -/
theorem OutsMixed.values_or_ended (h : OutsMixed n x 0) (o : Nat) (ho : o < n.kind.nout) :
    Values (x.put o) ∨ Ended (x.put o) :=
  (h o ho (Nat.zero_le o)).imp (fun h => h.values) (fun h => h.ended)

variable {i : Nat}

/-- While an input is read, each is open or shut. -/
theorem Reading.mixed (h : Reading n x i) (k : Nat) : InsMixed n x k := by
  intro j hj _
  by_cases hji : j < i
  · exact Or.inr (h.shut j hj hji)
  · exact Or.inl (h.opened j hj (by omega))

/-- A processor without inputs has read them all. -/
theorem reading_of_generates (h : n.kind.generates = true) (k : Nat) : Reading n x k := by
  have h0 : n.kind.nin = 0 := by
    cases hk : n.kind with
    | source k => cases k <;> simp_all [Kind.generates, Kind.nin]
    | _ => simp_all [Kind.generates]
  exact ⟨fun j hj => by omega, fun j hj => by omega⟩

/-- What an exception finds at the ports, in the middle of the pushes. -/
theorem Emitting.mixed {todo : List (Nat × Option V)} {next : Next} (h : Emitting n x todo next) :
    InsMixed n x 0 ∧ OutsMixed n x 0 := by
  cases next with
  | generate => exact ⟨(reading_of_generates h.1 0).mixed 0, h.2.1.mixed 0⟩
  | pop i => exact ⟨h.2.1.mixed 0, h.2.2.1.mixed 0⟩
  | ret => exact ⟨h.2.1.mixed 0, fun o ho _ => (h.2.2.2 o ho).symm.imp And.left And.left⟩

/-- The coroutine goes on with the pushes it has left. -/
theorem Emitting.standing {todo : List (Nat × Option V)} {next : Next} (h : Emitting n x todo next) :
    Standing n x (.emit todo next) := by
  cases todo with
  | cons w rest => exact h
  | nil =>
    cases next with
    | generate => exact ⟨h.1, h.2.1⟩
    | pop i => exact ⟨h.1, h.2.1, h.2.2.1⟩
    | ret =>
      obtain ⟨hs, hread, -, hports⟩ := h
      refine ⟨hread, ?_⟩
      rw [hs]
      intro o ho
      rcases hports o ho with ⟨hshut, -⟩ | ⟨-, vs, hvs⟩
      · exact hshut
      · simp [streamOf] at hvs

/-! ## Ports that a step leaves alone -/

section congr

variable {y : Ports V}

/-- Whether an input is open depends on its EOFs and its queue. -/
theorem InOpen.congr {i : Nat} (h : InOpen n x i) (ht : eofs (y.taken i) = eofs (x.taken i))
    (hc : y.obj.inChan i = x.obj.inChan i) : InOpen n y i :=
  ⟨ht ▸ h.lt, hc.trans h.chan⟩

theorem InShut.congr {i : Nat} (h : InShut n x i) (ht : eofs (y.taken i) = eofs (x.taken i))
    (hc : y.obj.inChan i = x.obj.inChan i) : InShut n y i :=
  ⟨ht.trans h.eq, hc.trans h.chan⟩

/-- Whether an output is open depends on what was put and its queue. -/
theorem OutOpen.congr {o : Nat} (h : OutOpen n x o) (hp : y.put o = x.put o) (hc : y.obj.outChan o = x.obj.outChan o) :
    OutOpen n y o :=
  ⟨hp ▸ h.values, hc.trans h.chan⟩

theorem OutShut.congr {o : Nat} (h : OutShut n x o) (hp : y.put o = x.put o) (hc : y.obj.outChan o = x.obj.outChan o) :
    OutShut n y o :=
  ⟨hp ▸ h.ended, hc.trans h.chan⟩

theorem Reading.congr {k : Nat} (h : Reading n x k) (ht : ∀ j, eofs (y.taken j) = eofs (x.taken j))
    (hc : ∀ j, y.obj.inChan j = x.obj.inChan j) : Reading n y k :=
  ⟨fun j hj hjk => (h.shut j hj hjk).congr (ht j) (hc j), fun j hj hjk => (h.opened j hj hjk).congr (ht j) (hc j)⟩

theorem OutsOpen.congr (h : OutsOpen n x) (hp : y.put = x.put) (hc : ∀ o, y.obj.outChan o = x.obj.outChan o) :
    OutsOpen n y :=
  fun o ho => (h o ho).congr (by rw [hp]) (hc o)

theorem OutsMixed.congr {k : Nat} (h : OutsMixed n x k) (hp : y.put = x.put)
    (hc : ∀ o, y.obj.outChan o = x.obj.outChan o) :
    OutsMixed n y k :=
  fun o ho hk => (h o ho hk).imp (fun h => h.congr (by rw [hp]) (hc o)) (fun h => h.congr (by rw [hp]) (hc o))

end congr

/-- The EOFs the object still waits for. -/
theorem InOpen.need_add (h : InOpen n x i) (hi : i < n.kind.nin) (hk : x.obj.kind = n.kind)
    (hcount : n.kind.isMultiIn = false → x.obj.inputCount + eofs (x.taken 0) = n.inputCount) :
    x.obj.need + eofs (x.taken i) = n.need := by
  have hlt := h.lt
  unfold Processor.need at hlt ⊢
  rw [hk]
  cases hm : n.kind.isMultiIn with
  | true =>
    rw [hm] at hlt
    simp only [if_true] at hlt ⊢
    omega
  | false =>
    have hi0 : i = 0 := by
      have := Kind.nin_le_one hm
      omega
    simp only [Bool.false_eq_true, if_false, hi0]
    exact hcount hm

/-- A value taken is no EOF. -/
theorem eofs_take_some (x : Ports V) (i j : Nat) (a : V) : eofs ((x.take i (some a)).taken j) = eofs (x.taken j) := by
  by_cases h : j = i
  · subst h; simp [take]
  · simp [take, h]

theorem eofs_take_none (x : Ports V) (i : Nat) : eofs ((x.take i none).taken i) = eofs (x.taken i) + 1 := by simp [take]

theorem taken_take_ne (x : Ports V) {j : Nat} (v : Option V) (h : j ≠ i) :
    (x.take i v).taken j = x.taken j := by simp [take, h]

theorem put_give (x : Ports V) (o : Nat) (v : Option V) : (x.give o v).put o = x.put o ++ [v] := by simp [give]

theorem put_give_ne (x : Ports V) {o j : Nat} (v : Option V) (h : j ≠ o) :
    (x.give o v).put j = x.put j := by simp [give, h]

end Ports

namespace Ctl

/-- The coroutine was left before its end: the process ended, or an exception that nobody catches did. -/
def isOut : Ctl V → Bool
  | .escaped => true
  | .dead _ => true
  | _ => false

/-- Who is not out has not ended the process. -/
theorem not_dead_of_in {c : Ctl V} (h : c.isOut = false) : c.isDead = false := by
  cases c <;> first | rfl | cases h

/-- The exception that left `work`, before the `TryPush` on the abort channel. -/
def threwBy : Ctl V → Option Cause
  | .threw c => some c
  | _ => none

/-- Who goes on has thrown nothing. -/
@[simp] theorem emit_threwBy (rest : List (Nat × Option V)) (next : Next) : (emit rest next).threwBy = none := by
  cases rest <;> cases next <;> rfl

end Ctl

/-- The EOF discipline of a processor that started as `n`. -/
structure Proc.Inv (n : Processor V) (x : Proc V) : Prop where
  kind : x.obj.kind = n.kind
  count : n.kind.isMultiIn = false → x.obj.inputCount + eofs (x.taken 0) = n.inputCount
  before : x.ctl = .start ∨ x.ctl = .dead .aborted ∨ n.beforeWork = true
  standing : Ports.Standing n x.toPorts x.ctl


namespace Proc

variable {n : Processor V} {x : Proc V}

/-! ## Where the coroutine stands when it is about to act -/

variable {j i : Nat} {q : Queue}

/-- What popping an input can be: the pop, or (on a null channel) nothing. -/
@[simp] theorem popAction_pop : x.popAction j = .pop i q ↔ j = i ∧ x.obj.inChan j = some q := by
  unfold popAction
  cases x.obj.inChan j <;> simp

/-- No queue, no pop. -/
@[simp] theorem popAction_internal : x.popAction j = .internal ↔ x.obj.inChan j = none := by
  unfold popAction
  cases x.obj.inChan j <;> simp

theorem popAction_cases (x : Proc V) (j : Nat) : (∃ q, x.popAction j = .pop j q) ∨ x.popAction j = .internal := by
  unfold popAction
  cases x.obj.inChan j <;> simp

/-- A push names the queue of its port. -/
@[simp] theorem pushAction_push {o : Nat} {v w : Option V} :
    x.pushAction j w = .push o q v ↔ j = o ∧ x.obj.outChan j = some q ∧ w = v := by
  unfold pushAction
  cases x.obj.outChan j <;> simp

/-- No queue, no push. -/
@[simp] theorem pushAction_internal {w : Option V} : x.pushAction j w = .internal ↔ x.obj.outChan j = none := by
  unfold pushAction
  cases x.obj.outChan j <;> simp

theorem pushAction_cases (x : Proc V) (j : Nat) (w : Option V) :
    (∃ q, x.pushAction j w = .push j q w) ∨ x.pushAction j w = .internal := by
  unfold pushAction
  cases x.obj.outChan j <;> simp

/-- A processor that pops stands in `Pop` or in `close_input`. -/
theorem action_pop (h : x.action = .pop i q) :
    x.obj.inChan i = some q ∧ (x.ctl = .pop i ∨ ∃ c, x.ctl = .closeInput c i ∧ i < x.obj.kind.nin) := by
  have hpush : ∀ {j w}, x.pushAction j w ≠ .pop i q := fun {j w} h' => by
    rcases x.pushAction_cases j w with ⟨_, h⟩ | h <;> rw [h] at h' <;> cases h'
  cases hc : x.ctl with
  | pop j =>
    simp only [action, hc, popAction_pop] at h
    obtain ⟨rfl, hq⟩ := h
    exact ⟨hq, Or.inl rfl⟩
  | closeInput c j =>
    simp only [action, hc] at h
    split at h
    · rename_i hlt
      obtain ⟨rfl, hq⟩ := popAction_pop.1 h
      exact ⟨hq, Or.inr ⟨c, rfl, hlt⟩⟩
    · cases h
  | _ => simp_all [action, ite_eq_iff]

/-- A processor that pushes stands in `Push`, in the `after_work` of a `ChannelSink` or in `close_output`. -/
theorem action_push {o : Nat} {v : Option V} (h : x.action = .push o q v) :
    x.obj.outChan o = some q ∧ ((∃ rest next, x.ctl = .push o v rest next) ∨
      (x.ctl = .afterWork ∧ x.obj.kind.isChannelSink = true ∧ o = 0 ∧ v = none) ∨
      ∃ c, x.ctl = .closeOutput c o ∧ o < x.obj.kind.nout ∧ v = none) := by
  have hpop : ∀ {j}, x.popAction j ≠ .push o q v := fun {j} h' => by
    rcases x.popAction_cases j with ⟨_, h⟩ | h <;> rw [h] at h' <;> cases h'
  cases hc : x.ctl with
  | push j w rest next =>
    simp only [action, hc, pushAction_push] at h
    obtain ⟨rfl, hq, rfl⟩ := h
    exact ⟨hq, Or.inl ⟨rest, next, rfl⟩⟩
  | afterWork =>
    simp only [action, hc] at h
    split at h
    · rename_i hk
      obtain ⟨rfl, hq, rfl⟩ := pushAction_push.1 h
      exact ⟨hq, Or.inr (Or.inl ⟨rfl, hk, rfl, rfl⟩)⟩
    · cases h
  | closeOutput c j =>
    simp only [action, hc] at h
    split at h
    · rename_i hlt
      obtain ⟨rfl, hq, rfl⟩ := pushAction_push.1 h
      exact ⟨hq, Or.inr (Or.inr ⟨c, rfl, hlt, rfl⟩)⟩
    · cases h
  | _ => simp_all [action, ite_eq_iff]

/-- The abort channel is looked at in the two checks. -/
theorem action_tryPop (h : x.action = .tryPop) :
    x.abortPort = true ∧ ((∃ i v, x.ctl = .popCheck i v) ∨ ∃ rest next, x.ctl = .pushCheck rest next) := by
  have hpop : ∀ {j}, x.popAction j ≠ .tryPop := fun {j} h' => by
    rcases x.popAction_cases j with ⟨_, h⟩ | h <;> rw [h] at h' <;> cases h'
  have hpush : ∀ {j w}, x.pushAction j w ≠ .tryPop := fun {j w} h' => by
    rcases x.pushAction_cases j w with ⟨_, h⟩ | h <;> rw [h] at h' <;> cases h'
  cases hc : x.ctl <;> simp_all [action, ite_eq_iff]

/-- The abort channel is written after a throw. -/
theorem action_tryPush (h : x.action = .tryPush) : x.abortPort = true ∧ ∃ c, x.ctl = .threw c := by
  have hpop : ∀ {j}, x.popAction j ≠ .tryPush := fun {j} h' => by
    rcases x.popAction_cases j with ⟨_, h⟩ | h <;> rw [h] at h' <;> cases h'
  have hpush : ∀ {j w}, x.pushAction j w ≠ .tryPush := fun {j w} h' => by
    rcases x.pushAction_cases j w with ⟨_, h⟩ | h <;> rw [h] at h' <;> cases h'
  cases hc : x.ctl <;> simp_all [action, ite_eq_iff]

/-- Who halts has finished, escaped or ended the process. -/
theorem action_halt (h : x.action = .halt) : (∃ c, x.ctl = .finished c) ∨ x.ctl = .escaped ∨ ∃ d, x.ctl = .dead d := by
  have hpop : ∀ {j}, x.popAction j ≠ .halt := fun {j} h' => by
    rcases x.popAction_cases j with ⟨_, h⟩ | h <;> rw [h] at h' <;> cases h'
  have hpush : ∀ {j w}, x.pushAction j w ≠ .halt := fun {j w} h' => by
    rcases x.pushAction_cases j w with ⟨_, h⟩ | h <;> rw [h] at h' <;> cases h'
  cases hc : x.ctl <;> simp_all [action, ite_eq_iff]

/-! ## The steps keep the invariant -/

/-- The object after an EOF, as far as the count goes. -/
theorem Inv.count_none (h : Inv n x) (hi : i < n.kind.nin) (hpos : x.obj.need ≠ 0) (hm : n.kind.isMultiIn = false) :
    x.obj.countEof.inputCount + eofs ((x.toPorts.take i none).taken 0) = n.inputCount := by
  have hi0 : i = 0 := by
    have := Kind.nin_le_one hm
    omega
  have hc := h.count hm
  unfold Processor.need at hpos
  rw [h.kind, hm] at hpos
  subst hi0
  rw [Ports.eofs_take_none]
  unfold Processor.countEof
  rw [h.kind, hm]
  simp only [Bool.false_eq_true, if_false] at hpos ⊢
  omega

/-- A value taken leaves the count. -/
theorem Inv.count_some (h : Inv n x) (i : Nat) (a : V) (hm : n.kind.isMultiIn = false) :
    x.obj.inputCount + eofs ((x.toPorts.take i (some a)).taken 0) = n.inputCount := by
  rw [Ports.eofs_take_some]
  exact h.count hm

/-- `before_work` is behind a processor that stands neither before it nor dead. -/
theorem Inv.beforeWork (h : Inv n x) (hs : x.ctl ≠ .start) (hd : ∀ d, x.ctl ≠ .dead d) : n.beforeWork = true := by
  rcases h.before with hb | hb | hb
  · exact absurd hb hs
  · exact absurd hb (hd _)
  · exact hb

/-- An element read by `work`. -/
theorem Inv.popped_pop (h : Inv n x) (hc : x.ctl = .pop i) (v : Option V) : Inv n (x.popped i v) := by
  have hbefore := h.beforeWork (by simp [hc]) (by simp [hc])
  have hstand := h.standing
  rw [hc] at hstand
  obtain ⟨hi, hread, hout⟩ := hstand
  have hopen := hread.opened i hi (Nat.le_refl i)
  cases v with
  | some a =>
    have hx : x.popped i (some a) = x.goto (x.toPorts.take i (some a)) (.popCheck i (some a)) := by
      simp [Proc.popped, hc]
    rw [hx]
    refine ⟨h.kind, h.count_some i a, Or.inr (Or.inr hbefore), hi, ?_, hout.congr rfl (fun _ => rfl)⟩
    exact hread.congr (fun j => x.toPorts.eofs_take_some i j a) (fun j => rfl)
  | none =>
    have hneed := hopen.need_add hi h.kind h.count
    have hlt := hopen.lt
    have h0 : x.obj.need ≠ 0 := by omega
    have hcount := h.count_none hi h0
    by_cases h1 : x.obj.need = 1
    · have hx : x.popped i none = x.goto ((x.toPorts.take i none).countEof.resetInput i) (.eof i) := by
        simp [Proc.popped, hc, h1]
      have hchan : ∀ j < n.kind.nin, (x.obj.countEof.resetInput i).inChan j = if j = i then none
          else x.obj.inChan j := by
        intro j hj
        rw [Processor.resetInput_inChan _ (by rw [Processor.countEof_kind, h.kind]; exact hi)
          (by rw [Processor.countEof_kind, h.kind]; exact hj), Processor.countEof_inChan]
      rw [hx]
      refine ⟨by simp [goto, Ports.take, Ports.countEof, Ports.resetInput,
        h.kind], fun hm => ?_, Or.inr (Or.inr hbefore), hi, ⟨?_, ?_⟩, ?_⟩
      · have hic : (x.obj.countEof.resetInput i).inputCount = x.obj.countEof.inputCount := by
          unfold Processor.resetInput
          split <;> rfl
        exact hic ▸ hcount hm
      · intro j hj hji
        by_cases hij : j = i
        · subst hij
          exact ⟨by rw [← hneed, h1]; exact (x.toPorts.eofs_take_none j).trans (Nat.add_comm _ _), by
            exact (hchan j hj).trans (if_pos rfl)⟩
        · refine (hread.shut j hj (by omega)).congr ?_ ((hchan j hj).trans (if_neg hij))
          exact congrArg eofs (x.toPorts.taken_take_ne none hij)
      · intro j hj hji
        have hij : j ≠ i := by omega
        refine (hread.opened j hj (by omega)).congr ?_ ((hchan j hj).trans (if_neg hij))
        exact congrArg eofs (x.toPorts.taken_take_ne none hij)
      · refine hout.congr rfl (fun o => ?_)
        exact (Processor.resetInput_outChan _ i o).trans (Processor.countEof_outChan _ o)
    · have hx : x.popped i none = x.goto (x.toPorts.take i none).countEof (.popCheck i none) := by
        simp [Proc.popped, hc, h0, h1]
      rw [hx]
      refine ⟨by simp [goto, Ports.take, Ports.countEof, h.kind], hcount, Or.inr (Or.inr hbefore), hi, ⟨?_, ?_⟩, ?_⟩
      · intro j hj hji
        refine (hread.shut j hj hji).congr ?_ (Processor.countEof_inChan _ j)
        exact congrArg eofs (x.toPorts.taken_take_ne none (by omega))
      · intro j hj hji
        by_cases hij : j = i
        · subst hij
          refine ⟨?_, (Processor.countEof_inChan _ j).trans hopen.chan⟩
          have := x.toPorts.eofs_take_none j
          simp only [goto, Ports.countEof, this]
          omega
        · refine (hread.opened j hj hji).congr ?_ (Processor.countEof_inChan _ j)
          exact congrArg eofs (x.toPorts.taken_take_ne none hij)
      · exact hout.congr rfl (fun o => Processor.countEof_outChan _ o)

/-- An element thrown away by `close_input`. -/
theorem Inv.popped_close (h : Inv n x) {c : Cause} (hc : x.ctl = .closeInput c i) (hlt : i < x.obj.kind.nin)
    (hq : x.obj.inChan i = some q) (v : Option V) : Inv n (x.popped i v) := by
  have hbefore := h.beforeWork (by simp [hc]) (by simp [hc])
  have hstand := h.standing
  rw [hc] at hstand
  obtain ⟨hdone, hmixed, hout⟩ := hstand
  have hi : i < n.kind.nin := h.kind ▸ hlt
  have hopen : Ports.InOpen n x.toPorts i := by
    rcases hmixed i hi (Nat.le_refl i) with ho | hs
    · exact ho
    · rw [hs.chan] at hq
      cases hq
  cases v with
  | some a =>
    have hx : x.popped i (some a) = x.goto (x.toPorts.take i (some a)) (.closeInput c i) := by simp [Proc.popped, hc]
    have he := fun j => x.toPorts.eofs_take_some i j a
    rw [hx]
    refine ⟨h.kind, h.count_some i a, Or.inr (Or.inr hbefore), fun j hj hji => (he j).trans (hdone j hj hji),
      fun j hj hij => ?_, hout.congr rfl (fun _ => rfl)⟩
    exact (hmixed j hj hij).imp (fun hp => hp.congr (he j) rfl) (fun hp => hp.congr (he j) rfl)
  | none =>
    have hneed := hopen.need_add hi h.kind h.count
    have hlt' := hopen.lt
    have h0 : x.obj.need ≠ 0 := by omega
    have hcount := h.count_none hi h0
    have hne : ∀ j, j ≠ i → eofs ((x.toPorts.take i none).countEof.taken j) = eofs (x.taken j) :=
      fun j hij => congrArg eofs (x.toPorts.taken_take_ne none hij)
    have hat : eofs ((x.toPorts.take i none).countEof.taken i) = eofs (x.taken i) + 1 := x.toPorts.eofs_take_none i
    have hmix : Ports.InsMixed n (x.toPorts.take i none).countEof (i + 1) := fun j hj hij =>
      (hmixed j hj (by omega)).imp (fun hp => hp.congr (hne j (by omega)) (Processor.countEof_inChan _ j))
        (fun hp => hp.congr (hne j (by omega)) (Processor.countEof_inChan _ j))
    have hout' : Ports.OutsMixed n (x.toPorts.take i none).countEof 0 :=
      hout.congr rfl (fun o => Processor.countEof_outChan _ o)
    by_cases h1 : x.obj.need = 1
    · have hx : x.popped i none = x.goto (x.toPorts.take i none).countEof (.closeInput c (i + 1)) := by
        simp [Proc.popped, hc, h1]
      rw [hx]
      refine ⟨by simp [goto, Ports.take, Ports.countEof,
        h.kind], hcount, Or.inr (Or.inr hbefore), fun j hj hji => ?_, hmix, hout'⟩
      by_cases hij : j = i
      · subst hij
        exact hat.trans (by omega)
      · exact (hne j hij).trans (hdone j hj (by omega))
    · have hx : x.popped i none = x.goto (x.toPorts.take i none).countEof (.closeInput c i) := by
        simp [Proc.popped, hc, h0, h1]
      rw [hx]
      refine ⟨by simp [goto, Ports.take, Ports.countEof, h.kind], hcount, Or.inr (Or.inr hbefore),
        fun j hj hji => (hne j (by omega)).trans (hdone j hj hji), fun j hj hij => ?_, hout'⟩
      by_cases hij' : j = i
      · subst hij'
        exact Or.inl ⟨hat ▸ (by omega), (Processor.countEof_inChan _ j).trans hopen.chan⟩
      · exact hmix j hj (by omega)

/-- A pop keeps the invariant. -/
theorem Inv.popped (h : Inv n x) (ha : x.action = .pop i q) (v : Option V) : Inv n (x.popped i v) := by
  obtain ⟨hq, hc | ⟨c, hc, hlt⟩⟩ := action_pop ha
  · exact h.popped_pop hc v
  · exact h.popped_close hc hlt hq v

end Proc

/-! ## Pushes -/

namespace Ports

variable {n : Processor V} {x : Ports V}

theorem ended_cons_some {a : V} {l : List (Option V)} (h : Ended (some a :: l)) : Ended l := by
  obtain ⟨vs, hvs⟩ := h
  cases vs with
  | nil => simp at hvs
  | cons b vs => exact ⟨vs, by simpa using (List.cons.inj hvs).2⟩

theorem ended_cons_none {l : List (Option V)} (h : Ended (none :: l)) : l = [] := by
  obtain ⟨vs, hvs⟩ := h
  cases vs with
  | nil => simpa using hvs
  | cons b vs => simp at hvs

variable {o : Nat} {rest : List (Nat × Option V)} {next : Next}

/-- The port of the next push is open. -/
theorem Emitting.head {v : Option V} (h : Emitting n x ((o, v) :: rest) next) : o < n.kind.nout ∧ OutOpen n x o := by
  cases next with
  | generate =>
    have ho := (h.2.2 (o, v) (by simp)).1
    exact ⟨ho, h.2.1 o ho⟩
  | pop i =>
    have ho := (h.2.2.2 (o, v) (by simp)).1
    exact ⟨ho, h.2.2.1 o ho⟩
  | ret =>
    obtain ⟨-, -, hlt, hports⟩ := h
    have ho : o < n.kind.nout := hlt (o, v) (by simp)
    rcases hports o ho with ⟨-, hp⟩ | ⟨hopen, -⟩
    · rw [streamOf_cons_self] at hp
      cases hp
    · exact ⟨ho, hopen⟩

/-- Putting a value keeps an output open. -/
theorem OutOpen.give {j : Nat} (h : OutOpen n x j) (a : V) : OutOpen n (x.give o (some a)) j := by
  by_cases hj : j = o
  · subst hj
    exact ⟨by rw [put_give]; exact h.values.append_some a, h.chan⟩
  · exact h.congr (x.put_give_ne _ hj) rfl

/-- A value is put. -/
theorem Emitting.give {a : V} (h : Emitting n x ((o, some a) :: rest) next) :
    Emitting n (x.give o (some a)) rest next := by
  cases next with
  | generate => exact ⟨h.1, fun j hj => (h.2.1 j hj).give a, fun w hw => h.2.2 w (by simp [hw])⟩
  | pop i =>
    exact ⟨h.1, h.2.1.congr (fun _ => rfl) (fun _ => rfl), fun j hj => (h.2.2.1 j hj).give a,
      fun w hw => h.2.2.2 w (by simp [hw])⟩
  | ret =>
    obtain ⟨hs, hread, hlt, hports⟩ := h
    refine ⟨hs, hread.congr (fun _ => rfl) (fun _ => rfl), fun w hw => hlt w (by simp [hw]), fun j hj => ?_⟩
    by_cases hjo : j = o
    · subst hjo
      rcases hports j hj with ⟨-, hp⟩ | ⟨hopen, hend⟩
      · rw [streamOf_cons_self] at hp
        cases hp
      · rw [streamOf_cons_self] at hend
        exact Or.inr ⟨hopen.give a, ended_cons_some hend⟩
    · rcases hports j hj with ⟨hshut, hp⟩ | ⟨hopen, hend⟩
      · rw [streamOf_cons_ne _ _ hjo] at hp
        exact Or.inl ⟨hshut.congr (x.put_give_ne _ hjo) rfl, hp⟩
      · rw [streamOf_cons_ne _ _ hjo] at hend
        exact Or.inr ⟨hopen.give a, hend⟩

/-- The EOF of an output is put: nothing more is to go there, and the channel is reset. -/
theorem Emitting.give_none (hk : x.obj.kind = n.kind) (h : Emitting n x ((o, none) :: rest) next) :
    Emitting n ((x.give o none).resetOutput o) rest next := by
  obtain ⟨ho, hopen⟩ := h.head
  have hchan : ∀ j < n.kind.nout, (x.obj.resetOutput o).outChan j = if j = o then none else x.obj.outChan j :=
    fun j hj => Processor.resetOutput_outChan _ (hk ▸ ho) (hk ▸ hj)
  cases next with
  | generate => exact absurd (h.2.2 (o, none) (by simp)).2 (by simp)
  | pop i => exact absurd (h.2.2.2 (o, none) (by simp)).2 (by simp)
  | ret =>
    obtain ⟨hs, hread, hlt, hports⟩ := h
    refine ⟨hs, hread.congr (fun _ => rfl) (fun j => Processor.resetOutput_inChan _ o j),
      fun w hw => hlt w (by simp [hw]), fun j hj => ?_⟩
    by_cases hjo : j = o
    · subst hjo
      rcases hports j hj with ⟨-, hp⟩ | ⟨-, hend⟩
      · rw [streamOf_cons_self] at hp
        cases hp
      · rw [streamOf_cons_self] at hend
        refine Or.inl ⟨⟨?_, (hchan j hj).trans (if_pos rfl)⟩, ended_cons_none hend⟩
        have hput : ((x.give j none).resetOutput j).put j = x.put j ++ [none] := x.put_give j none
        rw [hput]
        exact hopen.values.append_none
    · have hput : ((x.give o none).resetOutput o).put j = x.put j := x.put_give_ne _ hjo
      have hc := (hchan j hj).trans (if_neg hjo)
      rcases hports j hj with ⟨hshut, hp⟩ | ⟨hopen, hend⟩
      · rw [streamOf_cons_ne _ _ hjo] at hp
        exact Or.inl ⟨hshut.congr hput hc, hp⟩
      · rw [streamOf_cons_ne _ _ hjo] at hend
        exact Or.inr ⟨hopen.congr hput hc, hend⟩

end Ports

namespace Proc

variable {n : Processor V} {x : Proc V}

/-- A push keeps the invariant. -/
theorem Inv.pushed (h : Inv n x) {o : Nat} {q : Queue} {v : Option V} (ha : x.action = .push o q v) :
    Inv n (x.pushed o v) := by
  obtain ⟨hq, hctl⟩ := action_push ha
  have hstand := h.standing
  rcases hctl with ⟨rest, next, hc⟩ | ⟨hc, hk, rfl, rfl⟩ | ⟨c, hc, hlt, rfl⟩
  · have hbefore := h.beforeWork (by simp [hc]) (by simp [hc])
    rw [hc] at hstand
    cases v with
    | some a =>
      have hx : x.pushed o (some a) = x.goto (x.toPorts.give o (some a)) (.pushCheck rest next) := by
        simp [Proc.pushed, hc]
      rw [hx]
      exact ⟨h.kind, h.count, Or.inr (Or.inr hbefore), hstand.give⟩
    | none =>
      have hx : x.pushed o none = x.goto ((x.toPorts.give o none).resetOutput o) (.pushCheck rest next) := by
        simp [Proc.pushed, hc]
      rw [hx]
      refine ⟨by simp [goto, Ports.give, Ports.resetOutput,
        h.kind], fun hm => ?_, Or.inr (Or.inr hbefore), hstand.give_none h.kind⟩
      have hic : (x.obj.resetOutput o).inputCount = x.obj.inputCount := by
        unfold Processor.resetOutput
        split <;> rfl
      exact hic ▸ h.count hm
  · have hbefore := h.beforeWork (by simp [hc]) (by simp [hc])
    have hx : x.pushed 0 none = x.goto (x.toPorts.give 0 none) (.finished none) := by simp [Proc.pushed, hc]
    rw [hc] at hstand
    obtain ⟨hread, hout⟩ := hstand
    rw [hx]
    obtain ⟨hsink, hnout⟩ := Kind.channelSink_out (h.kind ▸ hk)
    rw [hsink] at hout
    refine ⟨h.kind, h.count, Or.inr (Or.inr hbefore), fun j hj => (hread.shut j hj hj).eq, fun j hj => ?_⟩
    have hj0 : j = 0 := by omega
    subst hj0
    have hput : (x.toPorts.give 0 none).put 0 = x.put 0 ++ [none] := x.toPorts.put_give 0 none
    exact hput ▸ (hout 0 hj).values.append_none
  · have hbefore := h.beforeWork (by simp [hc]) (by simp [hc])
    have hx : x.pushed o none = x.goto (x.toPorts.give o none) (.closeOutput c (o + 1)) := by simp [Proc.pushed, hc]
    rw [hc] at hstand
    obtain ⟨hins, hdone, hmixed⟩ := hstand
    have hopen : Ports.OutOpen n x.toPorts o := by
      rcases hmixed o (h.kind ▸ hlt) (Nat.le_refl o) with ho | hs
      · exact ho
      · rw [hs.chan] at hq
        cases hq
    rw [hx]
    refine ⟨h.kind, h.count, Or.inr (Or.inr hbefore), hins, fun j hj hjo => ?_, fun j hj hoj => ?_⟩
    · by_cases hij : j = o
      · subst hij
        have hput : (x.toPorts.give j none).put j = x.put j ++ [none] := x.toPorts.put_give j none
        exact hput ▸ hopen.values.append_none
      · have hput : (x.toPorts.give o none).put j = x.put j := x.toPorts.put_give_ne _ hij
        exact hput ▸ hdone j hj (by omega)
    · have hput : (x.toPorts.give o none).put j = x.put j := x.toPorts.put_give_ne _ (by omega)
      exact (hmixed j hj (by omega)).imp (fun hp => hp.congr hput rfl) (fun hp => hp.congr hput rfl)

/-- The check of the abort channel. -/
theorem Inv.checked (h : Inv n x) (hc : (∃ i v, x.ctl = .popCheck i v) ∨ ∃ rest next, x.ctl = .pushCheck rest next)
    (token : Bool) :
    Inv n (x.checked token) := by
  have hbefore : n.beforeWork = true := by
    rcases hc with ⟨i, v, hc⟩ | ⟨rest, next, hc⟩ <;> exact h.beforeWork (by simp [hc]) (by simp [hc])
  have hstand := h.standing
  rcases hc with ⟨i, v, hc⟩ | ⟨rest, next, hc⟩
  · rw [hc] at hstand
    obtain ⟨hi, hread, hout⟩ := hstand
    cases token with
    | true =>
      have hx : x.checked true = { x with ctl := .threw .abortChannel } := rfl
      rw [hx]
      exact ⟨h.kind, h.count, Or.inr (Or.inr hbefore), hread.mixed 0, hout.mixed 0⟩
    | false =>
      cases v with
      | some a =>
        have hx : x.checked false = { x with ctl := .handle i a } := by simp [Proc.checked, hc]
        rw [hx]
        exact ⟨h.kind, h.count, Or.inr (Or.inr hbefore), hi, hread, hout⟩
      | none =>
        have hx : x.checked false = { x with ctl := .pop i } := by simp [Proc.checked, hc]
        rw [hx]
        exact ⟨h.kind, h.count, Or.inr (Or.inr hbefore), hi, hread, hout⟩
  · rw [hc] at hstand
    cases token with
    | true =>
      have hx : x.checked true = { x with ctl := .threw .abortChannel } := rfl
      rw [hx]
      exact ⟨h.kind, h.count, Or.inr (Or.inr hbefore), hstand.mixed⟩
    | false =>
      have hx : x.checked false = { x with ctl := .emit rest next } := by simp [Proc.checked, hc]
      rw [hx]
      exact ⟨h.kind, h.count, Or.inr (Or.inr hbefore), hstand.standing⟩

/-- A notification keeps the invariant. -/
theorem Inv.notified (h : Inv n x) {c : Cause} (hc : x.ctl = .threw c) : Inv n x.notified := by
  have hbefore := h.beforeWork (by simp [hc]) (by simp [hc])
  have hstand := h.standing
  rw [hc] at hstand
  have hx : x.notified = { x with ctl := .closeInput c 0 } := by simp [Proc.notified, hc]
  rw [hx]
  exact ⟨h.kind, h.count, Or.inr (Or.inr hbefore), fun j _ hj => absurd hj (Nat.not_lt_zero j), hstand⟩

/-- A callback throws. -/
theorem Inv.throw (h : Inv n x) (hc : x.inCallback = true) (standard : Bool) :
    Inv n { x with ctl := .threw (.callback standard) } := by
  have hstand := h.standing
  have hbefore : n.beforeWork = true := by
    refine h.beforeWork (fun he => ?_) (fun d he => ?_) <;> simp [inCallback, he] at hc
  refine ⟨h.kind, h.count, Or.inr (Or.inr hbefore), ?_⟩
  cases hctl : x.ctl with
  | generate =>
    rw [hctl] at hstand
    exact ⟨(Ports.reading_of_generates hstand.1 0).mixed 0, hstand.2.mixed 0⟩
  | handle i a =>
    rw [hctl] at hstand
    exact ⟨hstand.2.1.mixed 0, hstand.2.2.mixed 0⟩
  | eof i =>
    rw [hctl] at hstand
    exact ⟨hstand.2.1.mixed 0, hstand.2.2.mixed 0⟩
  | _ => simp [inCallback, hctl] at hc

end Proc

/-! ## Steps without a queue -/

/-- What a class pushes for a value goes to its outputs. -/
theorem Kind.onValue_lt (k : Kind V) (calls : List V) (v : V) : ∀ w ∈ k.onValue calls v, w.1 < k.nout := by
  intro w hw
  cases k with
  | source k => cases k <;> simp_all [Kind.onValue, Kind.nout]
  | transform k =>
    cases k with
    | filter f =>
      simp only [Kind.onValue] at hw
      split at hw <;> simp_all [Kind.nout]
    | _ => simp_all [Kind.onValue, Kind.nout]
  | sink k => cases k <;> simp_all [Kind.onValue, Kind.nout]
  | dispatch n pos d =>
    simp only [Kind.onValue, List.mem_singleton] at hw
    subst hw
    exact Nat.mod_lt _ pos
  | fork n pos =>
    obtain ⟨o, ho, rfl⟩ := List.mem_map.1 hw
    exact List.mem_range.1 ho
  | concat n pos => simp_all [Kind.onValue, Kind.nout]

/-- What a class pushes at the end of its inputs: every output gets its EOF last. -/
theorem Kind.onEof_streamOf (k : Kind V) (calls : List V) (hs : k.isSink = false) :
    (∀ w ∈ k.onEof calls, w.1 < k.nout) ∧ ∀ o < k.nout, Ended (streamOf (k.onEof calls) o) := by
  have hone : ∀ o < 1, Ended (streamOf [(0, (none : Option V))] o) := by
    intro o ho
    rw [show o = 0 by omega]
    exact ⟨[], rfl⟩
  have hmany : ∀ n, (∀ w ∈ (List.range n).map (fun o => (o, (none : Option V))), w.1 < n) ∧
      ∀ o < n, Ended (streamOf ((List.range n).map (fun o => (o, (none : Option V)))) o) := by
    intro n
    refine ⟨fun w hw => ?_, fun o ho => ?_⟩
    · obtain ⟨o, ho, rfl⟩ := List.mem_map.1 hw
      exact List.mem_range.1 ho
    · rw [streamOf_copies none ho]
      exact ⟨[], rfl⟩
  cases k with
  | source k => exact ⟨by simp [Kind.onEof, Kind.nout], hone⟩
  | transform k =>
    cases k with
    | accumulate g =>
      refine ⟨by simp [Kind.onEof, Kind.nout], fun o ho => ?_⟩
      rw [show o = 0 by simpa [Kind.nout] using ho]
      exact ⟨[g calls], rfl⟩
    | _ => exact ⟨by simp [Kind.onEof, Kind.nout], hone⟩
  | sink k => simp [Kind.isSink] at hs
  | dispatch n pos d => exact hmany n
  | fork n pos => exact hmany n
  | concat n pos => exact ⟨by simp [Kind.onEof, Kind.nout], hone⟩

/-- A sink pushes nothing at its end. -/
theorem Kind.onEof_sink (k : Kind V) (calls : List V) (hs : k.isSink = true) : k.onEof calls = [] := by
  cases k <;> simp_all [Kind.isSink, Kind.onEof]

namespace Proc

variable {n : Processor V} {x : Proc V}

/-- `work` starts with `generate` or the first input. -/
theorem work_eq (x : Proc V) : x.work = { x with ctl := if x.obj.kind.generates then .generate else .pop 0 } := by
  unfold work
  cases x.obj.kind with
  | source k => cases k <;> rfl
  | _ => rfl

/-- `work` begins. -/
theorem Inv.start (hr : n.Ready) (h : Inv n x) (hc : x.ctl = .start) : Inv n x.internal := by
  have hstand := h.standing
  rw [hc] at hstand
  obtain ⟨hobj, htaken, hput⟩ := hstand
  have hx : x.internal = if x.obj.beforeWork then x.work else { x with ctl := .dead .aborted } := by
    simp [Proc.internal, hc]
  rw [hx, hobj]
  split
  · rename_i hb
    have hout : Ports.OutsOpen n x.toPorts := fun o ho => ⟨by rw [hput]; exact values_nil, by rw [hobj]⟩
    rw [work_eq, hobj]
    split
    · rename_i hg
      exact ⟨h.kind, h.count, Or.inr (Or.inr hb), hg, hout⟩
    · rename_i hg
      refine ⟨h.kind, h.count, Or.inr (Or.inr hb), Kind.pos_nin (by simpa using hg),
        ⟨fun j _ hj => absurd hj (Nat.not_lt_zero j), fun j hj _ => ⟨?_, by rw [hobj]⟩⟩, hout⟩
      obtain ⟨q, hq⟩ := Option.isSome_iff_exists.1 (hr.in_bound hb j hj)
      rw [htaken]
      exact hr.shaped.need_pos j q hq
  · exact ⟨h.kind, h.count, Or.inr (Or.inl rfl), rfl, fun o _ => Or.inl (by rw [hput]; exact values_nil)⟩

/-- A `Source` asks for its next value. -/
theorem Inv.generating (h : Inv n x) (hc : x.ctl = .generate) : Inv n x.internal := by
  have hbefore := h.beforeWork (by simp [hc]) (by simp [hc])
  have hstand := h.standing
  rw [hc] at hstand
  obtain ⟨hg, hout⟩ := hstand
  obtain ⟨g, hk⟩ := Kind.exists_generate hg
  have hkx : x.obj.kind = .source (.generate g) := h.kind.trans hk
  have hx : x.internal = { x with
      generated := x.generated + 1
      ctl := .emit [(0, g x.generated)] (if (g x.generated).isSome then .generate else .ret) } := by
    simp [Proc.internal, hc, Proc.generating, hkx]
  have hread := fun k => Ports.reading_of_generates (x := x.toPorts) hg k
  have hemit : Ports.Emitting n x.toPorts [(0, g x.generated)] (if (g x.generated).isSome then .generate
      else .ret) := by
    cases hv : g x.generated with
    | some a => exact ⟨hg, hout, by simp [hk, Kind.nout]⟩
    | none =>
      have hpend := Kind.onEof_streamOf n.kind [] (by simp [hk, Kind.isSink])
      rw [hk] at hpend
      refine ⟨by simp [hk, Kind.isSink], hread _, by rw [hk]; exact hpend.1, fun o ho => Or.inr ⟨hout o ho, ?_⟩⟩
      rw [hk] at ho
      exact hpend.2 o ho
  rw [hx]
  exact ⟨h.kind, h.count, Or.inr (Or.inr hbefore), hemit.standing⟩

variable {i o : Nat} {q : Queue} {v : Option V}

/-- The inputs of a processor are at their end, or a `Concat` turns to the next one. -/
theorem Inv.ended (h : Inv n x) (hc : x.ctl = .eof i) : Inv n x.internal := by
  have hbefore := h.beforeWork (by simp [hc]) (by simp [hc])
  have hstand := h.standing
  rw [hc] at hstand
  obtain ⟨hi, hread, hout⟩ := hstand
  have hx : x.internal = x.ended i := by simp [Proc.internal, hc]
  rw [hx]
  unfold Proc.ended
  rw [h.kind]
  split
  · rename_i hlt
    exact ⟨h.kind, h.count, Or.inr (Or.inr hbefore), hlt, hread, hout⟩
  · have hin : i + 1 = n.kind.nin := by omega
    rw [hin] at hread
    refine ⟨h.kind, h.count, Or.inr (Or.inr hbefore), ?_⟩
    cases hs : n.kind.isSink with
    | true =>
      rw [Kind.onEof_sink _ _ hs]
      exact ⟨hread, by rw [hs]; exact hout⟩
    | false =>
      obtain ⟨hlt, hend⟩ := n.kind.onEof_streamOf x.calls hs
      exact Ports.Emitting.standing ⟨hs, hread, hlt, fun o ho => Or.inr ⟨hout o ho, hend o ho⟩⟩

/-- An open input is on a queue. -/
theorem inChan_ne_none (hr : n.Ready) (hb : n.beforeWork = true) (hi : i < n.kind.nin)
    (h : Ports.InOpen n x.toPorts i) :
    x.obj.inChan i ≠ none := by
  rw [h.chan]
  exact Option.isSome_iff_ne_none.1 (hr.in_bound hb i hi)

/-- An open output is on a queue. -/
theorem outChan_ne_none (hr : n.Ready) (hb : n.beforeWork = true) (ho : o < n.kind.nout)
    (h : Ports.OutOpen n x.toPorts o) :
    x.obj.outChan o ≠ none := by
  rw [h.chan]
  exact Option.isSome_iff_ne_none.1 (hr.out_bound hb o ho)

/-- A value goes to the callback. -/
theorem Inv.handled (h : Inv n x) {a : V} (hc : x.ctl = .handle i a) : Inv n x.internal := by
  have hbefore := h.beforeWork (by simp [hc]) (by simp [hc])
  have hstand := h.standing
  rw [hc] at hstand
  have hx : x.internal = { x with
      calls := x.calls ++ [a]
      ctl := .emit ((x.obj.kind.onValue x.calls a).map (fun w => (w.1, some w.2))) (.pop i) } := by
    simp [Proc.internal, hc]
  rw [hx]
  refine ⟨h.kind, h.count, Or.inr (Or.inr hbefore), Ports.Emitting.standing ?_⟩
  refine ⟨hstand.1, hstand.2.1, hstand.2.2, fun w hw => ?_⟩
  obtain ⟨w', hw', rfl⟩ := List.mem_map.1 hw
  exact ⟨h.kind ▸ Kind.onValue_lt _ _ _ w' hw', rfl⟩

/-- `work` has returned; a `ChannelSink` has its EOF still to push. -/
theorem Inv.afterWork (hr : n.Ready) (h : Inv n x) (hc : x.ctl = .afterWork) (ha : x.action = .internal) :
    Inv n x.internal := by
  have hb := h.beforeWork (by simp [hc]) (by simp [hc])
  have hstand := h.standing
  rw [hc] at hstand
  obtain ⟨hread, hout⟩ := hstand
  cases hk : n.kind.isChannelSink with
  | true =>
    obtain ⟨hsink, hnout⟩ := Kind.channelSink_out hk
    rw [hsink] at hout
    simp only [action, hc, h.kind, hk, if_true, pushAction_internal] at ha
    exact absurd ha (outChan_ne_none hr hb (by omega) (hout 0 (by omega)))
  | false =>
    have hx : x.internal = { x with ctl := .finished none } := by simp [Proc.internal, hc, h.kind, hk]
    rw [hx]
    refine ⟨h.kind, h.count, Or.inr (Or.inr hb), fun j hj => (hread.shut j hj hj).eq, fun o ho => ?_⟩
    cases hs : n.kind.isSink with
    | true =>
      have : n.kind.nout = 0 := by
        cases hkind : n.kind with
        | sink k => cases k <;> simp_all [Kind.isChannelSink, Kind.nout]
        | _ => simp_all [Kind.isSink]
      omega
    | false =>
      rw [hs] at hout
      exact (hout o ho).ended

/-- An input that was read to its end is passed, when a processor that threw closes its inputs. -/
theorem Inv.closeInput (hr : n.Ready) (h : Inv n x) {c : Cause} (hc : x.ctl = .closeInput c i)
    (ha : x.action = .internal) :
    Inv n x.internal := by
  have hb := h.beforeWork (by simp [hc]) (by simp [hc])
  have hstand := h.standing
  rw [hc] at hstand
  obtain ⟨hdone, hmixed, hout⟩ := hstand
  have hx : x.internal = { x with ctl := if i < x.obj.kind.nin then .closeInput c (i + 1) else .closeOutput c 0 } := by
    simp [Proc.internal, hc]
  simp only [action, hc, h.kind] at ha
  rw [hx, h.kind]
  split at ha
  · rename_i hi
    rw [if_pos hi]
    have hshut : Ports.InShut n x.toPorts i :=
      (hmixed i hi (Nat.le_refl i)).resolve_left (fun ho => inChan_ne_none hr hb hi ho (popAction_internal.1 ha))
    refine ⟨h.kind, h.count, Or.inr (Or.inr hb), fun j hj hji => ?_, fun j hj hij => hmixed j hj (by omega), hout⟩
    by_cases hij : j = i
    · exact hij ▸ hshut.eq
    · exact hdone j hj (by omega)
  · rename_i hi
    rw [if_neg hi]
    exact ⟨h.kind, h.count, Or.inr (Or.inr hb), fun j hj => hdone j hj (by omega),
      fun j _ hj => absurd hj (Nat.not_lt_zero j), hout⟩

/-- An output that has its EOF is passed, when a processor that threw closes its outputs. -/
theorem Inv.closeOutput (hr : n.Ready) (h : Inv n x) {c : Cause} (hc : x.ctl = .closeOutput c o)
    (ha : x.action = .internal) :
    Inv n x.internal := by
  have hb := h.beforeWork (by simp [hc]) (by simp [hc])
  have hstand := h.standing
  rw [hc] at hstand
  obtain ⟨hins, hdone, hmixed⟩ := hstand
  have hx :
      x.internal = { x with ctl := if o < x.obj.kind.nout then .closeOutput c (o + 1) else .finished (some c) } := by
    simp [Proc.internal, hc]
  simp only [action, hc, h.kind] at ha
  rw [hx, h.kind]
  split at ha
  · rename_i ho
    rw [if_pos ho]
    have hshut : Ports.OutShut n x.toPorts o :=
      (hmixed o ho (Nat.le_refl o)).resolve_left (fun hopen =>
        outChan_ne_none hr hb ho hopen (pushAction_internal.1 ha))
    refine ⟨h.kind, h.count, Or.inr (Or.inr hb), hins, fun j hj hjo => ?_, fun j hj hoj => hmixed j hj (by omega)⟩
    by_cases hij : j = o
    · exact hij ▸ hshut.ended
    · exact hdone j hj (by omega)
  · rename_i ho
    rw [if_neg ho]
    exact ⟨h.kind, h.count, Or.inr (Or.inr hb), hins, fun j hj => hdone j hj (by omega)⟩

/-- Every step without a queue keeps the invariant; in particular no null channel is popped or pushed to. -/
theorem Inv.internal (hr : n.Ready) (h : Inv n x) (ha : x.action = .internal) : Inv n x.internal := by
  have hbefore : x.ctl ≠ .start → (∀ d, x.ctl ≠ .dead d) → n.beforeWork = true := h.beforeWork
  have hstand := h.standing
  cases hc : x.ctl with
  | start => exact h.start hr hc
  | generate => exact h.generating hc
  | pop i =>
    rw [hc] at hstand
    simp only [action, hc, popAction_internal] at ha
    exact absurd ha (inChan_ne_none hr (hbefore (by simp [hc]) (by simp [hc])) hstand.1
      (hstand.2.1.opened i hstand.1 (Nat.le_refl i)))
  | popCheck i v =>
    have hx : x.internal = x.checked false := by simp [Proc.internal, hc]
    rw [hx]
    exact h.checked (Or.inl ⟨i, v, hc⟩) false
  | handle i a => exact h.handled hc
  | eof i => exact h.ended hc
  | push o v rest next =>
    rw [hc] at hstand
    simp only [action, hc, pushAction_internal] at ha
    obtain ⟨ho, hopen⟩ := hstand.head
    exact absurd ha (outChan_ne_none hr (hbefore (by simp [hc]) (by simp [hc])) ho hopen)
  | pushCheck rest next =>
    have hx : x.internal = x.checked false := by simp [Proc.internal, hc]
    rw [hx]
    exact h.checked (Or.inr ⟨rest, next, hc⟩) false
  | afterWork => exact h.afterWork hr hc ha
  | threw c =>
    have hb : n.beforeWork = true := hbefore (by simp [hc]) (by simp [hc])
    have hx : x.internal = { x with ctl := if c.isStandard then .dead .aborted else .escaped } := by
      simp [Proc.internal, hc]
    rw [hc] at hstand
    rw [hx]
    refine ⟨h.kind, h.count, Or.inr (Or.inr hb), ?_⟩
    cases c.isStandard with
    | true => exact ⟨rfl, hstand.2.values_or_ended⟩
    | false => exact hstand.2.values_or_ended
  | closeInput c i => exact h.closeInput hr hc ha
  | closeOutput c o => exact h.closeOutput hr hc ha
  | finished c => simp [action, hc] at ha
  | escaped => simp [action, hc] at ha
  | dead d => simp [action, hc] at ha

/-! ## What a step does at the ports -/

/-- The invariant holds before the run. -/
theorem inv_start (p : Pipeline V) (n : Processor V) : Inv n (p.startProc n) :=
  ⟨rfl, fun _ => rfl, Or.inl rfl, rfl, fun _ => rfl, fun _ => rfl⟩

/-- A processor pops an input that is open, from the queue it was built with. -/
theorem Inv.pop_port (h : Inv n x) (ha : x.action = .pop i q) :
    i < n.kind.nin ∧ Ports.InOpen n x.toPorts i ∧ n.inChan i = some q := by
  have hstand := h.standing
  obtain ⟨hq, hc | ⟨c, hc, hlt⟩⟩ := action_pop ha
  · rw [hc] at hstand
    have hopen := hstand.2.1.opened i hstand.1 (Nat.le_refl i)
    exact ⟨hstand.1, hopen, hopen.chan.symm.trans hq⟩
  · rw [hc] at hstand
    rw [h.kind] at hlt
    rcases hstand.2.1 i hlt (Nat.le_refl i) with hopen | hshut
    · exact ⟨hlt, hopen, hopen.chan.symm.trans hq⟩
    · rw [hshut.chan] at hq
      cases hq

/-- A processor pushes to an output that is open, to the queue it was built with. -/
theorem Inv.push_port (h : Inv n x) (ha : x.action = .push o q v) :
    o < n.kind.nout ∧ Ports.OutOpen n x.toPorts o ∧ n.outChan o = some q := by
  have hstand := h.standing
  obtain ⟨hq, ⟨rest, next, hc⟩ | ⟨hc, hk, rfl, -⟩ | ⟨c, hc, hlt, -⟩⟩ := action_push ha
  · rw [hc] at hstand
    obtain ⟨ho, hopen⟩ := hstand.head
    exact ⟨ho, hopen, hopen.chan.symm.trans hq⟩
  · rw [hc] at hstand
    obtain ⟨hsink, hnout⟩ := Kind.channelSink_out (h.kind ▸ hk)
    have hout := hstand.2
    rw [hsink] at hout
    have hopen := hout 0 (by omega)
    exact ⟨by omega, hopen, hopen.chan.symm.trans hq⟩
  · rw [hc] at hstand
    rw [h.kind] at hlt
    rcases hstand.2.2 o hlt (Nat.le_refl o) with hopen | hshut
    · exact ⟨hlt, hopen, hopen.chan.symm.trans hq⟩
    · rw [hshut.chan] at hq
      cases hq

/-- A pop changes one input. -/
theorem popped_taken (ha : x.action = .pop i q) (v : Option V) :
    (x.popped i v).taken = (x.toPorts.take i v).taken ∧ (x.popped i v).put = x.put := by
  obtain ⟨-, hc | ⟨c, hc, -⟩⟩ := action_pop ha <;> cases v <;> simp only [popped, hc]
  · split
    · exact ⟨rfl, rfl⟩
    · split <;> exact ⟨rfl, rfl⟩
  · exact ⟨rfl, rfl⟩
  · split
    · exact ⟨rfl, rfl⟩
    · split <;> exact ⟨rfl, rfl⟩
  · exact ⟨rfl, rfl⟩

/-- A push changes one output. -/
theorem pushed_put (ha : x.action = .push o q v) :
    (x.pushed o v).put = (x.toPorts.give o v).put ∧ (x.pushed o v).taken = x.taken := by
  obtain ⟨-, ⟨rest, next, hc⟩ | ⟨hc, -, -, -⟩ | ⟨c, hc, -, -⟩⟩ :=
    action_push ha <;> cases v <;> simp only [pushed, hc] <;>
    exact ⟨rfl, rfl⟩

/-- Looking at the abort channel moves no element. -/
@[simp] theorem checked_toPorts (x : Proc V) (token : Bool) : (x.checked token).toPorts = x.toPorts := by
  unfold checked
  split
  · rfl
  · split <;> rfl

@[simp] theorem checked_abortPort (x : Proc V) (token : Bool) : (x.checked token).abortPort = x.abortPort := by
  unfold checked
  split
  · rfl
  · split <;> rfl

@[simp] theorem notified_toPorts (x : Proc V) : x.notified.toPorts = x.toPorts := by
  unfold notified
  split <;> rfl

/-- A step without a queue moves no element, and leaves the abort channel bound. -/
theorem internal_frame (x : Proc V) : x.internal.toPorts = x.toPorts ∧ x.internal.abortPort = x.abortPort := by
  cases hc : x.ctl with
  | start =>
    simp only [internal, hc, work_eq]
    split <;> exact ⟨rfl, rfl⟩
  | generate =>
    simp only [internal, hc, generating]
    split <;> exact ⟨rfl, rfl⟩
  | eof i =>
    simp only [internal, hc, ended]
    split <;> exact ⟨rfl, rfl⟩
  | afterWork =>
    simp only [internal, hc]
    split <;> exact ⟨rfl, rfl⟩
  | _ => simp [internal, hc]

@[simp] theorem internal_toPorts (x : Proc V) : x.internal.toPorts = x.toPorts := x.internal_frame.1

/-- At every moment an output has got values only, or values and then one EOF. -/
theorem Inv.values_or_ended (h : Inv n x) (ho : o < n.kind.nout) : Values (x.put o) ∨ Ended (x.put o) := by
  have hstand := h.standing
  cases hc : x.ctl with
  | start =>
    rw [hc] at hstand
    rw [hstand.2.2]
    exact Or.inl values_nil
  | generate => rw [hc] at hstand; exact Or.inl (hstand.2 o ho).values
  | pop i => rw [hc] at hstand; exact Or.inl (hstand.2.2 o ho).values
  | popCheck i v => rw [hc] at hstand; exact Or.inl (hstand.2.2 o ho).values
  | handle i a => rw [hc] at hstand; exact Or.inl (hstand.2.2 o ho).values
  | eof i => rw [hc] at hstand; exact Or.inl (hstand.2.2 o ho).values
  | push k v rest next => rw [hc] at hstand; exact (Ports.Emitting.mixed hstand).2.values_or_ended o ho
  | pushCheck rest next => rw [hc] at hstand; exact (Ports.Emitting.mixed hstand).2.values_or_ended o ho
  | afterWork =>
    rw [hc] at hstand
    have hout := hstand.2
    split at hout
    · exact Or.inl (hout o ho).values
    · exact Or.inr (hout o ho).ended
  | threw c => rw [hc] at hstand; exact hstand.2.values_or_ended o ho
  | closeInput c i => rw [hc] at hstand; exact hstand.2.2.values_or_ended o ho
  | closeOutput c k =>
    rw [hc] at hstand
    by_cases hk : o < k
    · exact Or.inr (hstand.2.1 o ho hk)
    · exact (hstand.2.2 o ho (by omega)).imp (fun h => h.values) (fun h => h.ended)
  | finished c => rw [hc] at hstand; exact Or.inr (hstand.2 o ho)
  | escaped => rw [hc] at hstand; exact hstand o ho
  | dead d => rw [hc] at hstand; exact hstand.2 o ho

/-- A processor that finished has shut every port. -/
theorem Inv.finished (h : Inv n x) (hf : x.ctl.isFinished = true) :
    (∀ i < n.kind.nin, eofs (x.taken i) = n.need) ∧ ∀ o < n.kind.nout, Ended (x.put o) := by
  have hstand := h.standing
  cases hc : x.ctl with
  | finished c => rwa [hc] at hstand
  | _ => simp [hc, Ctl.isFinished] at hf

/-- No `assert` fails and no null channel is asked for its queue. -/
theorem Inv.not_faulty (h : Inv n x) : x.ctl ≠ .dead .assertFailed ∧ x.ctl ≠ .dead .nullChannel := by
  have hstand := h.standing
  refine ⟨fun hc => ?_, fun hc => ?_⟩ <;> rw [hc] at hstand <;> cases hstand.1

/-! ## The abort channel stays bound -/

/-- A pop leaves the abort channel bound. -/
@[simp] theorem popped_abortPort (x : Proc V) (i : Nat) (v : Option V) : (x.popped i v).abortPort = x.abortPort := by
  simp only [popped]
  split
  · rfl
  · split
    · rfl
    · split <;> rfl
  · rfl
  · split
    · rfl
    · split <;> rfl
  · rfl

@[simp] theorem pushed_abortPort (x : Proc V) (o : Nat) (v : Option V) : (x.pushed o v).abortPort = x.abortPort := by
  simp only [pushed]
  split <;> rfl

@[simp] theorem notified_abortPort (x : Proc V) : x.notified.abortPort = x.abortPort := by
  unfold notified
  split <;> rfl

@[simp] theorem internal_abortPort (x : Proc V) : x.internal.abortPort = x.abortPort := x.internal_frame.2

/-! ## What ends the process -/

/-- Who goes on is not out. -/
@[simp] theorem emit_isOut (todo : List (Nat × Option V)) (next : Next) : (Ctl.emit todo next).isOut = false := by
  cases todo with
  | cons w rest => rfl
  | nil => cases next <;> rfl

/-- Who can still move is not out. -/
theorem isOut_of_action {x : Proc V} (h : x.action ≠ .halt) : x.ctl.isOut = false := by
  cases hc : x.ctl with
  | escaped => exact absurd (by simp [action, hc]) h
  | dead d => exact absurd (by simp [action, hc]) h
  | _ => rfl

/-- A pop ends the process only by its `assert`. -/
theorem popped_isOut {x : Proc V} (hx : x.ctl.isOut = false) (h : (x.popped i v).ctl.isOut = true) :
    (x.popped i v).ctl = .dead .assertFailed := by
  simp only [popped] at h ⊢
  split at h
  · cases h
  · split at h
    · rename_i h0
      simp [h0, goto]
    · split at h <;> cases h
  · cases h
  · split at h
    · rename_i h0
      simp [h0, goto]
    · split at h <;> cases h
  · rw [hx] at h
    cases h

/-- A push ends nothing. -/
theorem pushed_isOut {x : Proc V} (hx : x.ctl.isOut = false) : (x.pushed o v).ctl.isOut = false := by
  simp only [pushed]
  split <;> first | rfl | exact hx

/-- Nor does a look at the abort channel. -/
theorem checked_isOut {x : Proc V} {token : Bool} (hx : x.ctl.isOut = false) : (x.checked token).ctl.isOut = false := by
  unfold checked
  split
  · rfl
  · split <;> first | rfl | exact hx | exact emit_isOut _ _

theorem notified_isOut {x : Proc V} (hx : x.ctl.isOut = false) : x.notified.ctl.isOut = false := by
  unfold notified
  split <;> first | rfl | exact hx

/-- A processor gets out in a step without a queue on a null channel, in `before_work`, or on an exception without an
abort channel. -/
theorem internal_isOut {x : Proc V} (hx : x.ctl.isOut = false) (h : x.internal.ctl.isOut = true) :
    x.internal.ctl = .dead .nullChannel ∨ (x.ctl = .start ∧ x.obj.beforeWork = false) ∨ ∃ c, x.ctl = .threw c := by
  cases hc : x.ctl with
  | start =>
    refine Or.inr (Or.inl ⟨rfl, ?_⟩)
    rw [← Bool.not_eq_true]
    intro hb
    simp only [internal, hc, hb, if_true, work_eq] at h
    split at h <;> cases h
  | generate =>
    simp only [internal, hc, generating] at h
    split at h
    · rw [emit_isOut] at h
      cases h
    · rw [hc] at h
      cases h
  | handle i a =>
    simp [internal, hc] at h
  | eof i =>
    simp only [internal, hc, ended] at h
    split at h
    · cases h
    · rw [emit_isOut] at h
      cases h
  | popCheck i v =>
    simp only [internal, hc] at h
    rw [checked_isOut hx] at h
    cases h
  | pushCheck rest next =>
    simp only [internal, hc] at h
    rw [checked_isOut hx] at h
    cases h
  | afterWork =>
    simp only [internal, hc] at h ⊢
    split at h
    · rename_i hk
      exact Or.inl (by simp [hk])
    · cases h
  | threw c => exact Or.inr (Or.inr ⟨c, rfl⟩)
  | closeInput c i =>
    simp only [internal, hc] at h
    split at h <;> cases h
  | closeOutput c o =>
    simp only [internal, hc] at h
    split at h <;> cases h
  | pop i => exact Or.inl (by simp [internal, hc])
  | push o v rest next => exact Or.inl (by simp [internal, hc])
  | finished c => simp [internal, hc, Ctl.isOut] at h
  | escaped => simp [hc, Ctl.isOut] at hx
  | dead d => simp [hc, Ctl.isOut] at hx

variable {x : Proc V}

/-- No element of a queue is an exception, and who reads one has thrown none. -/
theorem popped_threwBy (ha : x.action = .pop i q) (v : Option V) :
    x.ctl.threwBy = none ∧ (x.popped i v).ctl.threwBy = none := by
  obtain ⟨-, hc | ⟨c, hc, -⟩⟩ := action_pop ha <;> refine ⟨by rw [hc]; rfl, ?_⟩ <;> rcases v with _ | v <;>
    simp only [popped, hc]
  · split
    · rfl
    · split <;> rfl
  · rfl
  · split
    · rfl
    · split <;> rfl
  · rfl

/-- Nor is room in a queue. -/
theorem pushed_threwBy (ha : x.action = .push o q v) :
    x.ctl.threwBy = none ∧ (x.pushed o v).ctl.threwBy = none := by
  obtain ⟨-, ⟨rest, next, hc⟩ | ⟨hc, -, -, -⟩ | ⟨c, hc, -, -⟩⟩ := action_push ha <;> refine ⟨by rw [hc]; rfl, ?_⟩ <;>
    rcases v with _ | v <;> simp only [pushed, hc] <;> rfl

/-- A step without a queue throws nothing. -/
theorem internal_threwBy (x : Proc V) : x.internal.ctl.threwBy = none := by
  cases hc : x.ctl with
  | start =>
    simp only [internal, hc, work_eq]
    split
    · split <;> rfl
    · rfl
  | generate =>
    simp only [internal, hc, generating]
    split
    · simp only [Ctl.emit_threwBy]
    · rw [hc]; rfl
  | handle i a => simp [internal, hc]
  | eof i =>
    simp only [internal, hc, ended]
    split
    · rfl
    · exact Ctl.emit_threwBy ..
  | popCheck i v => rcases v with _ | v <;> simp [internal, checked, hc, Ctl.threwBy]
  | pushCheck rest next => simp [internal, checked, hc]
  | afterWork =>
    simp only [internal, hc]
    split <;> rfl
  | threw c =>
    simp only [internal, hc]
    split <;> rfl
  | closeInput c i =>
    simp only [internal, hc]
    split <;> rfl
  | closeOutput c o =>
    simp only [internal, hc]
    split <;> rfl
  | _ => simp [internal, hc, Ctl.threwBy]

end Proc

end Tunnel
