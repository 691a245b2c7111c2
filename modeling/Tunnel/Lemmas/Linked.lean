import Tunnel.Lemmas.Kinds
import Tunnel.Linked
import Tunnel.Theorems.Compose
import Tunnel.Theorems.Socket

/-!
# Steps of pipelines that sockets connect

The right pipeline runs as if its sources generated what the sinks on the left consume. A source reads frame by frame
what the sink wrote frame by frame (`Sent`, `Received`), and what its own callback would generate does not matter
(`State.withKinds`).
-/

namespace Tunnel

open Lib

variable {V : Type}

/-! ## Steps -/

/-- What a step of a deployment can be. -/
inductive LinkedMoves (d : Deployment V) (c : Linked V) : LinkedEvent V → Linked V → Prop where
  | left {e : Event V} {s : State V} (haside : d.atSink c e = false) (h : c.left.step e = some s) :
      LinkedMoves d c (.left e) { c with left := s }
  | consume {u : Id} {peer : Peer} {x : Proc V} {i : Nat} {v : V} {sink : SocketSink} {s : State V} (hu : u ∈
      d.left.sinks)
      (hx : c.left.procs u = some x) (hc : x.ctl = .handle i v)
      (hw : (c.connections (d.left.sinks.idxOf u)).sink.consume d.codec d.writer peer v =
        .ok sink) (h : c.left.step (.run u) = some s) :
      LinkedMoves d c (.write u peer) (c.atPlace (d.left.sinks.idxOf u) s sink false)
  | afterWork {u : Id} {peer : Peer} {x : Proc V} {sink : SocketSink} {s : State V} (hu : u ∈ d.left.sinks)
      (hx : c.left.procs u = some x) (hc : x.ctl = .afterWork)
      (hw : (c.connections (d.left.sinks.idxOf u)).sink.afterWork d.writer peer = .ok sink) (h : c.left.step (.run u) =
        some s) :
      LinkedMoves d c (.write u peer) (c.atPlace (d.left.sinks.idxOf u) s sink false)
  | breaks {u : Id} {cut : Option Nat} {standard : Bool} {x : Proc V} {i : Nat} {v : V} {sink : SocketSink}
      {s : State V} (hu : u ∈ d.left.sinks)
      (hx : c.left.procs u = some x) (hc : x.ctl = .handle i v)
      (hw : d.cutOff (some v) (c.connections (d.left.sinks.idxOf u)).sink cut =
        some sink) (h : c.left.step (.throw u standard) = some s) :
      LinkedMoves d c (.breaks u cut standard) (c.atPlace (d.left.sinks.idxOf u) s sink false)
  | eofBreaks {u : Id} {cut : Nat} {x : Proc V} {sink : SocketSink} {s : State V} (hu : u ∈ d.left.sinks)
      (hx : c.left.procs u = some x) (hc : x.ctl = .afterWork)
      (hw : d.cutOff none (c.connections (d.left.sinks.idxOf u)).sink (some cut) =
        some sink) (h : c.left.step (.run u) = some s) :
      LinkedMoves d c (.eofBreaks u cut) (c.atPlace (d.left.sinks.idxOf u) s sink true)
  | right {e : Event V} {s : State V} (haside : d.atSource c e = false) (h : c.right.step e = some s) :
      LinkedMoves d c (.right e) { c with right := s }
  | generate {u : Id} {y : Proc V} {v : Option V} {k : Connection} (hu : u ∈ d.right.sources) (hy : c.right.procs u =
      some y)
      (hc : y.ctl = .generate) (hd : c.right.dead = false) (hr : d.readFrom (c.connections (d.right.sources.idxOf u)) =
        some (v, k)) :
      LinkedMoves d c (.generate u)
        { c with
          right := c.right.setProc u (y.returns v)
          connections := Function.update c.connections (d.right.sources.idxOf u) k }

namespace Deployment

variable {d : Deployment V} {c c' : Linked V}

/-- Who writes to a connection: a sink with a value in hand, or at its end. -/
theorem writes_some {u : Id} {v : Option V} (h : d.writes c u = some v) :
    u ∈ d.left.sinks ∧ ∃ x, c.left.procs u = some x ∧ ((∃ i a, x.ctl = .handle i a ∧ v = some a) ∨ x.ctl = .afterWork ∧
      v = none) := by
  unfold writes at h
  split at h
  · rename_i hu
    refine ⟨hu, ?_⟩
    split at h
    · rename_i i a hctl
      obtain ⟨x, hx, hc⟩ := Option.map_eq_some_iff.1 hctl
      cases h
      exact ⟨x, hx, .inl ⟨i, a, hc, rfl⟩⟩
    · rename_i hctl
      obtain ⟨x, hx, hc⟩ := Option.map_eq_some_iff.1 hctl
      cases h
      exact ⟨x, hx, .inr ⟨hc, rfl⟩⟩
    · cases h
  · cases h

/-- Who reads from one: a source that asks. -/
theorem atSource_run {u : Id} (h : d.atSource c (.run u) = true) :
    u ∈ d.right.sources ∧ ∃ y, c.right.procs u = some y ∧ y.ctl = .generate := by
  simp only [atSource] at h
  split at h
  · rename_i hu
    refine ⟨hu, ?_⟩
    split at h
    · rename_i hctl
      exact Option.map_eq_some_iff.1 hctl
    · cases h
  · cases h

/-- A step at a sink is a step of the left pipeline. -/
theorem sinkStep_some {u : Id} {e : Event V} {sink : SocketSink} {failed : Bool}
    (h : d.sinkStep c u e sink failed = some c') :
    ∃ s, c.left.step e = some s ∧ c' = c.atPlace (d.left.sinks.idxOf u) s sink failed := by
  obtain ⟨s, hs, rfl⟩ := Option.map_eq_some_iff.1 h
  exact ⟨s, hs, rfl⟩

/-- Every step is one of these. -/
theorem step_moves {e : LinkedEvent V} (h : d.step c e = some c') : LinkedMoves d c e c' := by
  cases e with
  | left e =>
    simp only [step] at h
    split at h
    · cases h
    · rename_i hno
      obtain ⟨s, hs, rfl⟩ := Option.map_eq_some_iff.1 h
      exact .left (by simpa using hno) hs
  | write u peer =>
    simp only [step] at h
    split at h
    · rename_i v hv
      split at h
      · rename_i sink hw
        obtain ⟨-, h⟩ := Option.ite_none_right_eq_some.1 h
        obtain ⟨s, hs, rfl⟩ := sinkStep_some h
        obtain ⟨hu, x, hx, ⟨i, a, hc, rfl⟩ | ⟨hc, rfl⟩⟩ := writes_some hv
        · exact .consume hu hx hc hw hs
        · exact .afterWork hu hx hc hw hs
      · cases h
    · cases h
  | breaks u cut standard =>
    simp only [step] at h
    split at h
    · rename_i v hv
      obtain ⟨sink, hw, h⟩ := Option.bind_eq_some_iff.1 h
      obtain ⟨s, hs, rfl⟩ := sinkStep_some h
      obtain ⟨hu, x, hx, ⟨i, a, hc, ha⟩ | ⟨hc, ha⟩⟩ := writes_some hv
      · cases ha
        exact .breaks hu hx hc hw hs
      · cases ha
    · cases h
  | eofBreaks u cut =>
    simp only [step] at h
    split at h
    · rename_i hv
      obtain ⟨sink, hw, h⟩ := Option.bind_eq_some_iff.1 h
      obtain ⟨s, hs, rfl⟩ := sinkStep_some h
      obtain ⟨hu, x, hx, ⟨i, a, hc, ha⟩ | ⟨hc, ha⟩⟩ := writes_some hv
      · cases ha
      · exact .eofBreaks hu hx hc hw hs
    · cases h
  | right e =>
    simp only [step] at h
    split at h
    · cases h
    · rename_i hno
      obtain ⟨s, hs, rfl⟩ := Option.map_eq_some_iff.1 h
      exact .right (by simpa using hno) hs
  | generate u =>
    simp only [step] at h
    split at h
    · rename_i hguard
      obtain ⟨hu, y, hy, hc⟩ := atSource_run hguard.1
      split at h
      · rename_i y' v k hy' hk
        cases h
        cases hy.symm.trans hy'
        exact .generate hu hy hc hguard.2 hk
      · cases h
    · cases h

end Deployment

/-! ## Turns of the nodes at the sockets -/

/-- A source has a `generate` ahead of it, or is in one. -/
def Ctl.asks : Ctl V → Bool
  | .start => true
  | .generate => true
  | .push _ _ _ next => next = .generate
  | .pushCheck _ next => next = .generate
  | _ => false

@[simp] theorem Ctl.emit_asks (rest : List (Nat × Option V)) (next : Next) :
    (Ctl.emit rest next).asks = (next = .generate : Bool) := by
  cases rest <;> cases next <;> rfl

/-- Who asks has not thrown. -/
theorem Ctl.not_hosted_of_asks {c : Ctl V} (h : c.asks = true) : c.hosted = false := by
  cases c with
  | threw c => cases h
  | closeInput c i => cases h
  | closeOutput c i => cases h
  | finished c => cases h
  | escaped => cases h
  | dead d => cases h
  | _ => rfl

/-- `work` or `after_work` is not over. -/
def Ctl.working (c : Ctl V) : Bool := !c.hosted && !c.isFinished

/-- Where a coroutine goes on from a place. What comes with an exception is not told apart. -/
inductive Ctl.Follows : Ctl V → Ctl V → Prop where
  | start {c : Ctl V} (h : c = .generate ∨ c = .pop 0) : Follows .start c
  | generate {c : Ctl V} {rest : List (Nat × Option V)} {next : Next} (h : c = .emit rest next) : Follows .generate c
  | pop (i : Nat) (v : Option V) : Follows (.pop i) (.popCheck i v)
  | lastEof (i : Nat) : Follows (.pop i) (.eof i)
  | value (i : Nat) (v : V) : Follows (.popCheck i (some v)) (.handle i v)
  | again (i : Nat) : Follows (.popCheck i none) (.pop i)
  | handle {c : Ctl V} {i : Nat} {v : V} {rest : List (Nat × Option V)} (h : c = .emit rest (.pop i)) :
      Follows (.handle i v) c
  | nextInput (i : Nat) : Follows (.eof i) (.pop (i + 1))
  | eof {c : Ctl V} {i : Nat} {rest : List (Nat × Option V)} (h : c = .emit rest .ret) : Follows (.eof i) c
  | push (o : Nat) (v : Option V) (rest : List (Nat × Option V)) (next : Next) :
      Follows (.push o v rest next) (.pushCheck rest next)
  | pushed {c : Ctl V} {rest : List (Nat × Option V)} {next : Next} (h : c = .emit rest next) :
      Follows (.pushCheck rest next) c
  | afterWork : Follows .afterWork (.finished none)
  | hosted {c c' : Ctl V} (hc : c.isFinished = false) (h : c'.hosted = true) : Follows c c'

theorem Ctl.emit_ne_finished (rest : List (Nat × Option V)) (next : Next) (c : Option Cause) :
    Ctl.emit rest next ≠ .finished c := by
  cases rest <;> cases next <;> simp [Ctl.emit]

namespace Proc

variable {x y : Proc V}

/-- A source that generates the values of a list returns the next one of them. -/
theorem withKind_generating {values : List V} (hc : x.ctl = .generate) :
    (x.withKind (.source (.ofList values))).internal =
    (x.returns (values[x.generated]?)).withKind (.source (.ofList values)) := by
  have hctl : (x.withKind (.source (.ofList values))).ctl = .generate := hc
  simp only [internal, hctl]
  rfl

/-- A sink ends by itself. -/
theorem action_afterWork (hk : x.obj.kind = .sink .consume) (hc : x.ctl = .afterWork) : x.action = .internal := by
  simp only [action, hc, hk, Kind.isChannelSink, Bool.false_eq_true, if_false]

/-- A sink without a channel of its own ends with `work`. -/
theorem internal_afterWork (hk : x.obj.kind = .sink .consume) (hc : x.ctl = .afterWork) :
    x.internal = { x with ctl := .finished none } := by
  simp only [internal, hc, hk, Kind.isChannelSink, Bool.false_eq_true, if_false]

/-- Where a check leads. -/
theorem checked_follows (token : Bool)
    (hc : (∃ i v, x.ctl = .popCheck i v) ∨ ∃ rest next, x.ctl = .pushCheck rest next) :
    x.ctl.Follows (x.checked token).ctl := by
  cases token with
  | true =>
    rcases hc with ⟨i, v, hc⟩ | ⟨rest, next, hc⟩ <;> rw [hc] <;> exact .hosted rfl rfl
  | false =>
    rcases hc with ⟨i, v, hc⟩ | ⟨rest, next, hc⟩
    · cases v <;> simp only [checked, hc, Bool.false_eq_true, if_false]
      · exact .again i
      · exact .value i _
    · simp only [checked, hc, Bool.false_eq_true, if_false]
      exact .pushed rfl

/-- Where a step without a queue leads. -/
theorem internal_follows (ha : x.action = .internal) : x.ctl.Follows x.internal.ctl := by
  cases hc : x.ctl with
  | start =>
    simp only [internal, hc, work_eq]
    split
    · refine .start ?_
      split
      · exact .inl rfl
      · exact .inr rfl
    · exact .hosted rfl rfl
  | generate =>
    simp only [internal, hc, generating]
    split
    · rename_i g _
      exact .generate (show _ = Ctl.emit [(0, g x.generated)] (if (g x.generated).isSome then .generate
        else .ret) from rfl)
    · rw [hc]
      exact .generate (show Ctl.generate = .emit [] .generate from rfl)
  | handle i v =>
    simp only [internal, hc]
    exact .handle rfl
  | eof i =>
    simp only [internal, hc, ended]
    split
    · exact .nextInput i
    · exact .eof rfl
  | popCheck i v =>
    have hstep : x.internal = x.checked false := by simp only [internal, hc]
    rw [hstep, ← hc]
    exact checked_follows false (.inl ⟨i, v, hc⟩)
  | pushCheck rest next =>
    have hstep : x.internal = x.checked false := by simp only [internal, hc]
    rw [hstep, ← hc]
    exact checked_follows false (.inr ⟨rest, next, hc⟩)
  | afterWork =>
    simp only [internal, hc]
    split
    · exact .hosted rfl rfl
    · exact .afterWork
  | finished c => simp [action, hc] at ha
  | escaped => simp [action, hc] at ha
  | dead c => simp [action, hc] at ha
  | threw c =>
    have := Turn.hosted (.internal ha) (by rw [hc]; rfl)
    exact .hosted rfl this
  | closeInput c i =>
    have := Turn.hosted (.internal ha) (by rw [hc]; rfl)
    exact .hosted rfl this
  | closeOutput c i =>
    have := Turn.hosted (.internal ha) (by rw [hc]; rfl)
    exact .hosted rfl this
  | _ =>
    simp only [internal, hc]
    exact .hosted rfl rfl

/-- Every turn goes along these ways. -/
theorem Turn.follows (ht : x.Turn y) : x.ctl.Follows y.ctl := by
  cases ht with
  | @popped i q ha v =>
    obtain ⟨-, hc | ⟨c, hc, -⟩⟩ := action_pop ha
    · cases v <;> simp only [Proc.popped, hc, goto]
      · split
        · exact .hosted rfl rfl
        · split
          · exact .lastEof i
          · exact .pop i none
      · exact .pop i _
    · exact .hosted (by rw [hc]; rfl) (Turn.hosted (.popped ha v) (by rw [hc]; rfl))
  | @pushed o q v ha =>
    obtain ⟨-, ⟨rest, next, hc⟩ | ⟨hc, -, -, -⟩ | ⟨c, hc, -, -⟩⟩ := action_push ha
    · cases v <;> simp only [Proc.pushed, hc, goto] <;> exact .push o _ rest next
    · simp only [Proc.pushed, hc, goto]
      exact .afterWork
    · exact .hosted (by rw [hc]; rfl) (Turn.hosted (.pushed ha) (by rw [hc]; rfl))
  | checked ha token =>
    obtain ⟨-, ⟨i, v, hc⟩ | ⟨rest, next, hc⟩⟩ := action_tryPop ha
    · exact checked_follows token (.inl ⟨i, v, hc⟩)
    · exact checked_follows token (.inr ⟨rest, next, hc⟩)
  | notified ha =>
    obtain ⟨-, c, hc⟩ := action_tryPush ha
    exact .hosted (by rw [hc]; rfl) (Turn.hosted (.notified ha) (by rw [hc]; rfl))
  | internal ha => exact internal_follows ha
  | throw hc =>
    refine .hosted ?_ rfl
    cases hctl : x.ctl <;> simp_all [inCallback, Ctl.isFinished]

/-- Who moves has not finished. -/
theorem Turn.not_finished (ht : x.Turn y) : x.ctl.isFinished = false := by
  have hf := ht.follows
  generalize x.ctl = c, y.ctl = c' at hf ⊢
  cases hf with
  | hosted hc h => exact hc
  | _ => rfl

/-- Who works after a turn worked before. -/
theorem Turn.working (ht : x.Turn y) (h : y.ctl.working = true) : x.ctl.working = true := by
  simp only [Ctl.working, Bool.and_eq_true, Bool.not_eq_true'] at h ⊢
  exact ⟨ht.not_hosted h.1, ht.not_finished⟩

/-- Only a callback adds to what it was called with, and only `generate` to how often that was called. -/
theorem Turn.counts (ht : x.Turn y) : (y.calls = x.calls ∨ ∃ i v, x.ctl = .handle i v ∧ y.calls = x.calls ++ [v]) ∧
    (y.generated = x.generated ∨ x.ctl = .generate ∧ y = x.internal) := by
  cases ht with
  | popped ha v => exact ⟨.inl (popped_counts x _ v).1, .inl (popped_counts x _ v).2⟩
  | pushed ha => exact ⟨.inl (pushed_counts x _ _).1, .inl (pushed_counts x _ _).2⟩
  | checked ha token =>
    obtain ⟨-, ⟨i, v, hc⟩ | ⟨rest, next, hc⟩⟩ := action_tryPop ha
    · cases v <;> cases token <;> simp [Proc.checked, hc]
    · cases token <;> simp [Proc.checked, hc]
  | notified ha =>
    obtain ⟨-, c, hc⟩ := action_tryPush ha
    simp [Proc.notified, hc]
  | internal ha =>
    cases hc : x.ctl with
    | handle i v =>
      refine ⟨.inr ⟨i, v, rfl, ?_⟩, .inl ?_⟩ <;> simp only [Proc.internal, hc]
    | generate =>
      refine ⟨.inl ?_, .inr ⟨rfl, rfl⟩⟩
      simp only [Proc.internal, hc, generating]
      split <;> rfl
    | start =>
      simp only [Proc.internal, hc, work_eq]
      split <;> exact ⟨.inl rfl, .inl rfl⟩
    | eof i =>
      simp only [Proc.internal, hc, ended]
      split <;> exact ⟨.inl rfl, .inl rfl⟩
    | popCheck i v => cases v <;> simp [Proc.internal, Proc.checked, hc]
    | afterWork =>
      simp only [Proc.internal, hc]
      split <;> exact ⟨.inl rfl, .inl rfl⟩
    | _ => simp [Proc.internal, Proc.checked, hc]
  | throw hc => exact ⟨.inl rfl, .inl rfl⟩

/-- A processor ends without an exception in `after_work`. -/
theorem Turn.ends (ht : x.Turn y) (h : y.ctl = .finished none) : x.ctl = .afterWork := by
  have hf := ht.follows
  rw [h] at hf
  generalize x.ctl = c at hf ⊢
  cases hf with
  | afterWork => rfl
  | start h => rcases h with h | h <;> cases h
  | generate h => exact absurd h.symm (Ctl.emit_ne_finished _ _ _)
  | handle h => exact absurd h.symm (Ctl.emit_ne_finished _ _ _)
  | eof h => exact absurd h.symm (Ctl.emit_ne_finished _ _ _)
  | pushed h => exact absurd h.symm (Ctl.emit_ne_finished _ _ _)
  | hosted hc h => cases h

/-- Outside `generate`, a source comes to another `generate` only from where it did before. -/
theorem Turn.asks (ht : x.Turn y) (hc : x.ctl ≠ .generate) (h : y.ctl.asks = true) : x.ctl.asks = true := by
  have hf := ht.follows
  generalize x.ctl = c, y.ctl = c' at hf hc h ⊢
  cases hf with
  | start _ => rfl
  | generate _ => exact absurd rfl hc
  | handle hemit => rw [hemit, Ctl.emit_asks] at h; cases h
  | eof hemit => rw [hemit, Ctl.emit_asks] at h; cases h
  | push o v rest next => exact h
  | pushed hemit => rwa [hemit, Ctl.emit_asks] at h
  | hosted _ hh => rw [Ctl.not_hosted_of_asks h] at hh; cases hh
  | _ => cases h

end Proc

/-! ## What a sink has written -/

/-- The frames of these values. -/
def frames (enc : V → Bytes) (values : List V) : Bytes := (values.map enc).flatMap valueFrame

theorem frames_append (enc : V → Bytes) (vs ws : List V) : frames enc (vs ++ ws) = frames enc vs ++ frames enc ws := by
  simp only [frames, List.map_append, List.flatMap_append]

theorem frames_cons (enc : V → Bytes) (v : V) (vs : List V) :
    frames enc (v :: vs) = valueFrame (enc v) ++ frames enc vs := by
  simp only [frames, List.map_cons, List.flatMap_cons]

/-- So much of a frame as a write that failed left on the connection. -/
def CutFrame (bytes : Bytes) : Prop := ∃ body k, FitsLength body ∧ k < (frame body).length ∧ bytes = (frame body).take k

theorem cutFrame_nil : CutFrame [] := ⟨[], 0, Nat.zero_le _, by simp [frame, length_encodeIntegral, integralSize], rfl⟩

/-- What is on the connection of a sink: the frames of the values it was called with, then the frame of the EOF once it
has finished, or a part of a frame if it threw. -/
structure Sent (enc : V → Bytes) (x : Proc V) (k : Connection) : Prop where
  working : x.ctl.working = true → (k.sink.connected = true ↔ x.calls ≠ []) ∧ k.sink.wire = if x.calls = [] then none
    else some (frames enc x.calls)
  ended : x.ctl = .finished none → k.failed = false → k.sink.wire = if x.calls = [] then none
    else some (frames enc x.calls ++ eofFrame)
  wire : ∀ bytes, k.sink.wire = some bytes → ∃ tail, bytes = frames enc x.calls ++ tail ∧
    (CutFrame tail ∨ tail = eofFrame ∧ x.ctl = .finished none ∧ k.failed = false)

/-- A processor that moves without a callback and is not in `after_work` writes nothing. -/
theorem Sent.aside {enc : V → Bytes} {x y : Proc V} {k : Connection} (h : Sent enc x k) (ht : x.Turn y)
    (hhandle : ∀ i v, x.ctl ≠ .handle i v) (hafter : x.ctl ≠ .afterWork) : Sent enc y k := by
  have hcalls : y.calls = x.calls := ht.counts.1.resolve_right (fun ⟨i, v, hc, _⟩ => hhandle i v hc)
  refine ⟨?_, ?_, ?_⟩
  · intro hw
    rw [hcalls]
    exact h.working (ht.working hw)
  · intro hf
    exact absurd (ht.ends hf) hafter
  · intro bytes hb
    obtain ⟨tail, heq, hcut | ⟨-, hf, -⟩⟩ := h.wire bytes hb
    · exact ⟨tail, by rw [hcalls, heq], .inl hcut⟩
    · have := ht.not_finished
      rw [hf] at this
      cases this

section sends

variable {codec : UserCodec V} {writer reader : Endian} {enc : V → Bytes} (hcodec : codec.RoundTrips writer reader enc)
  {peer : Peer} {s s' : SocketSink}

include hcodec in
/-- A value is written behind what is there. -/
theorem SocketSink.consume_ok {v : V} (hfits : FrameFits (enc v)) (h : s.consume codec writer peer v = .ok s') :
    s'.connected = true ∧ s'.wire = (if s.connected then s.wire else some []).map (· ++ valueFrame (enc v)) := by
  cases hc : s.connected with
  | false =>
    obtain ⟨s₁, h₁, hw⟩ : ∃ s₁, s.connect peer 5 = .ok s₁ ∧ s₁.write codec writer peer v = .ok s' := by
      simp only [consume, hc, if_true, bind, Except.bind] at h
      split at h
      · cases h
      · rename_i s₁ h₁
        exact ⟨s₁, h₁, h⟩
    obtain ⟨hc₁, hw₁⟩ := connect_ok h₁
    obtain ⟨hc', hw'⟩ := write_ok hcodec hfits hw
    exact ⟨hc'.trans hc₁, by rw [hw', hw₁]; rfl⟩
  | true =>
    simp only [consume, hc, Bool.true_eq_false, if_false, bind, Except.bind] at h
    obtain ⟨hc', hw'⟩ := write_ok hcodec hfits h
    exact ⟨hc'.trans hc, hw'⟩

/-- At its end a sink writes its EOF, if it ever connected. -/
theorem SocketSink.afterWork_ok (h : s.afterWork writer peer = .ok s') :
    s'.wire = if s.connected then s.wire.map (· ++ eofFrame) else s.wire := by
  cases hc : s.connected with
  | false =>
    simp only [afterWork, hc, Bool.false_eq_true, if_false] at h
    cases h
    rfl
  | true =>
    simp only [afterWork, hc, if_true, writeEof, bind, Except.bind] at h
    split at h
    · cases h
    · rename_i s₁ h₁
      cases h
      exact (writePackage_ok (Nat.zero_le _) h₁).2

end sends

/-- What a write that fails leaves behind. -/
theorem Deployment.cutOff_some {d : Deployment V} {v : Option V} {s s' : SocketSink} {cut : Option Nat}
    (h : d.cutOff v s cut = some s') :
    s' = s ∨ ∃ k s₁ bytes, d.written .always v s = .ok s₁ ∧ s₁.wire = some bytes ∧
    (s.wire.getD []).length + k < bytes.length ∧
      s'.wire = some (bytes.take ((s.wire.getD []).length + k)) := by
  cases cut with
  | none =>
    simp only [cutOff] at h
    split at h
    · cases h
      exact .inl rfl
    · cases h
  | some k =>
    simp only [cutOff] at h
    split at h
    · rename_i s₁ h₁
      split at h
      · rename_i bytes hb
        split at h
        · rename_i hlt
          cases h
          exact .inr ⟨k, s₁, bytes, h₁, hb, hlt, rfl⟩
        · cases h
      · cases h
    · cases h

theorem fitsLength_eof : FitsLength (encodePackage { eof := true, binData := [] }) := by decide

/-- So much of a frame behind others. -/
theorem cutFrame_take {w body bytes : Bytes} {k : Nat} (hfits : FitsLength body) (hbytes : bytes = w ++ frame body)
    (hlt : w.length + k < bytes.length) :
    ∃ tail, bytes.take (w.length + k) = w ++ tail ∧ CutFrame tail := by
  subst hbytes
  rw [List.length_append] at hlt
  exact ⟨(frame body).take k, List.take_length_add_append k, body, k, hfits, by omega, rfl⟩

namespace Sent

variable {d : Deployment V} {enc : V → Bytes} (hcodec : d.codec.RoundTrips d.writer d.reader enc)
  (hfits : ∀ v, FrameFits (enc v)) {x : Proc V} {k : Connection} {sink : SocketSink} (h : Sent enc x k)

include hcodec hfits h

/-- `consume` of a sink. -/
theorem consume (hk : x.obj.kind = .sink .consume) {i : Nat} {v : V} (hc : x.ctl = .handle i v) {peer : Peer}
    (hw : k.sink.consume d.codec d.writer peer v = .ok sink) :
    Sent enc x.internal { k with sink := sink, failed := false } := by
  obtain ⟨hcon, hwire⟩ := h.working (by rw [hc]; rfl)
  obtain ⟨hcon', hwire'⟩ := SocketSink.consume_ok hcodec (hfits v) hw
  have hcalls : x.internal.calls = x.calls ++ [v] := by simp only [Proc.internal, hc]
  have hctl : x.internal.ctl = .pop i := by simp only [Proc.internal, hc, hk, Kind.onValue, List.map_nil, Ctl.emit]
  have hne : x.internal.calls ≠ [] := by simp [hcalls]
  have hsent : sink.wire = some (frames enc x.internal.calls) := by
    rw [hwire', hwire, hcalls, frames_append]
    by_cases hnil : x.calls = []
    · have hno : k.sink.connected = false := by simpa [hnil] using hcon
      simp [hno, hnil, frames]
    · simp [hcon.2 hnil, hnil, frames]
  refine ⟨?_, ?_, ?_⟩
  · intro _
    exact ⟨⟨fun _ => hne, fun _ => hcon'⟩, by rw [if_neg hne]; exact hsent⟩
  · intro hf
    rw [hctl] at hf
    cases hf
  · intro bytes hb
    exact ⟨[], by rw [List.append_nil]; exact Option.some.inj (hb.symm.trans hsent), .inl cutFrame_nil⟩

omit hcodec hfits in
/-- `after_work` of a sink. -/
theorem afterWork (hk : x.obj.kind = .sink .consume) (hc : x.ctl = .afterWork) {peer : Peer}
    (hw : k.sink.afterWork d.writer peer = .ok sink) :
    Sent enc x.internal { k with sink := sink, failed := false } := by
  obtain ⟨hcon, hwire⟩ := h.working (by rw [hc]; rfl)
  have hsent : sink.wire = if x.calls = [] then none else some (frames enc x.calls ++ eofFrame) := by
    rw [SocketSink.afterWork_ok hw, hwire]
    by_cases hnil : x.calls = []
    · simp [hnil]
    · simp [hcon.2 hnil, hnil]
  rw [Proc.internal_afterWork hk hc]
  refine ⟨?_, ?_, ?_⟩
  · intro hworking
    cases hworking
  · intro _ _
    exact hsent
  · intro bytes hb
    rw [hsent] at hb
    split at hb
    · cases hb
    · exact ⟨eofFrame, (Option.some.inj hb).symm, .inr ⟨rfl, rfl, rfl⟩⟩

omit hcodec hfits in
/-- A write of the sink fails in a frame. -/
theorem cut (y : Proc V) (hx : x.ctl.working = true) (hy : y.ctl.working = false) (hcalls : y.calls = x.calls)
    {v : Option V} {cut : Option Nat} {failed : Bool} (hf : y.ctl = .finished none → failed = true)
    (hw : d.cutOff v k.sink cut = some sink) {body : Bytes} (hbody : FitsLength body)
    (hframe : ∀ s bytes, d.written .always v k.sink = .ok s → s.wire = some bytes → bytes = frames enc x.calls ++
    frame body) :
    Sent enc y { k with sink := sink, failed := failed } := by
  obtain ⟨hcon, hwire⟩ := h.working hx
  have hgetD : k.sink.wire.getD [] = frames enc x.calls := by
    rw [hwire]
    by_cases hnil : x.calls = []
    · simp [hnil, frames]
    · simp [hnil]
  refine ⟨?_, ?_, ?_⟩
  · intro hworking
    rw [hy] at hworking
    cases hworking
  · intro hend hno
    rw [hf hend] at hno
    cases hno
  · intro bytes hb
    rw [hcalls]
    rcases Deployment.cutOff_some hw with rfl | ⟨n, s₁, all, h₁, hall, hlt, hcut⟩
    · obtain ⟨tail, heq, hcut | ⟨-, hend, -⟩⟩ := h.wire bytes hb
      · exact ⟨tail, heq, .inl hcut⟩
      · rw [hend] at hx
        cases hx
    · rw [hgetD] at hlt hcut
      obtain ⟨tail, heq, htail⟩ := cutFrame_take hbody (hframe s₁ all h₁ hall) hlt
      exact ⟨tail, (Option.some.inj (hb.symm.trans hcut)).trans heq, .inl htail⟩

/-- `consume` of a sink throws. -/
theorem breaks {i : Nat} {v : V} (hc : x.ctl = .handle i v) {cut : Option Nat}
    (hw : d.cutOff (some v) k.sink cut = some sink) {cause : Cause} :
    Sent enc { x with ctl := .threw cause } { k with sink := sink, failed := false } := by
  obtain ⟨hcon, hwire⟩ := h.working (by rw [hc]; rfl)
  refine h.cut { x with ctl := .threw cause } (by rw [hc]; rfl) rfl rfl (fun hend => by cases hend) hw (hfits v) ?_
  intro s bytes hs hb
  obtain ⟨-, hs⟩ := SocketSink.consume_ok hcodec (hfits v) hs
  rw [hs, hwire] at hb
  by_cases hnil : x.calls = []
  · have hno : k.sink.connected = false := by simpa [hnil] using hcon
    simpa [hno, hnil, frames, valueFrame] using hb.symm
  · simpa [hcon.2 hnil, hnil, valueFrame] using hb.symm

omit hcodec hfits in
/-- `WriteEof` of a sink throws. -/
theorem eofBreaks (hk : x.obj.kind = .sink .consume) (hc : x.ctl = .afterWork) {cut : Option Nat}
    (hw : d.cutOff none k.sink cut = some sink) : Sent enc x.internal { k with sink := sink, failed := true } := by
  obtain ⟨hcon, hwire⟩ := h.working (by rw [hc]; rfl)
  rw [Proc.internal_afterWork hk hc]
  refine h.cut { x with ctl := .finished none } (by rw [hc]; rfl) rfl rfl (fun _ => rfl) hw fitsLength_eof ?_
  intro s bytes hs hb
  rw [SocketSink.afterWork_ok hs, hwire] at hb
  by_cases hnil : x.calls = []
  · simp [hnil] at hb
  · simpa [hcon.2 hnil, hnil, eofFrame] using hb.symm

end Sent

/-! ## What a source has read -/

/-- What a source has read: as long as there is a `generate` ahead of it, one whole frame for each value that it has
generated; it has read the EOF only of a sink that has finished, and that has connected because it was called at least
once. -/
structure Received (enc : V → Bytes) (x y : Proc V) (k : Connection) : Prop where
  asks : y.ctl.asks = true → y.generated ≤ x.calls.length ∧ k.read = (frames enc (x.calls.take y.generated)).length
  ahead : x.calls.length < y.generated → x.ctl = .finished none ∧ k.failed = false ∧ x.calls ≠ []

namespace Deployment

variable {d : Deployment V} {enc : V → Bytes} {k : Connection} {vs : List V} {tail : Bytes} {m : Nat}

/-- What is left to read behind the first frames. -/
theorem drop_frames : (frames enc vs ++ tail).drop (frames enc (vs.take m)).length = frames enc (vs.drop m) ++
    tail := by
  have hsplit : frames enc vs = frames enc (vs.take m) ++ frames enc (vs.drop m) := by
    rw [← frames_append, List.take_append_drop]
  rw [hsplit, List.append_assoc, List.drop_left]

section reads

variable (hwire : k.sink.wire = some (frames enc vs ++ tail)) (hread : k.read = (frames enc (vs.take m)).length)
include hwire hread

/-- A frame that is there is read. -/
theorem readFrom_ok {v : Option V} {rest : Bytes}
    (h : SocketSource.read d.codec d.reader ⟨true, frames enc (vs.drop m) ++ tail⟩ = .ok (v, ⟨true, rest⟩)) :
    d.readFrom k = some (v, { k with read := (frames enc vs ++ tail).length - rest.length }) := by
  simp only [readFrom, hwire, hread, drop_frames, h]

/-- A source reads the next value. -/
theorem readFrom_value (hcodec : d.codec.RoundTrips d.writer d.reader enc) (hfits : ∀ v, FrameFits (enc v)) {a : V}
    (ha : vs[m]? = some a) :
    d.readFrom k = some (some a, { k with read := (frames enc (vs.take (m + 1))).length }) := by
  obtain ⟨hlt, hget⟩ := List.getElem?_eq_some_iff.1 ha
  have hdrop : vs.drop m = a :: vs.drop (m + 1) := by rw [List.drop_eq_getElem_cons hlt, hget]
  have hlen : (frames enc vs ++ tail).length - (frames enc (vs.drop (m + 1)) ++ tail).length =
      (frames enc (vs.take (m + 1))).length := by
    have hsplit : frames enc vs = frames enc (vs.take (m + 1)) ++ frames enc (vs.drop (m + 1)) := by
      rw [← frames_append, List.take_append_drop]
    rw [hsplit]
    simp only [List.length_append]
    omega
  rw [readFrom_ok (v := some a) hwire hread, hlen]
  rw [hdrop, frames_cons, List.append_assoc, SocketSource.read_value hcodec (hfits a)]

/-- At the end of the values it reads the EOF. -/
theorem readFrom_eof (hm : m = vs.length) (htail : tail = eofFrame) : ∃ k', d.readFrom k = some (none, k') := by
  subst hm htail
  have hframe : SocketSource.read d.codec d.reader ⟨true, eofFrame ++ []⟩ = .ok (none, ⟨true, []⟩) :=
    SocketSource.read_frame d.codec d.reader (Nat.zero_le _) fitsLength_eof
  have hlast : SocketSource.read d.codec d.reader ⟨true, frames enc (vs.drop vs.length) ++ eofFrame⟩ = .ok (none,
      ⟨true, []⟩) := by
    rw [List.drop_length]
    rwa [List.append_nil] at hframe
  exact ⟨_, readFrom_ok hwire hread hlast⟩

/-- In a frame that is not complete it waits. -/
theorem readFrom_cut (hm : m = vs.length) (htail : CutFrame tail) : d.readFrom k = none := by
  subst hm
  obtain ⟨body, n, hbody, hn, rfl⟩ := htail
  have hstop : SocketSource.read d.codec d.reader ⟨true, frames enc (vs.drop vs.length) ++ (frame body).take n⟩ =
      .error (.threw "End of file") := by
    rw [List.drop_length]
    exact SocketSource.read_cut d.codec d.reader hbody hn
  simp only [readFrom, hwire, hread, drop_frames, hstop]

end reads

/-- A read changes only how far the connection is read. -/
theorem readFrom_frame {v : Option V} {k' : Connection} (h : d.readFrom k = some (v, k')) :
    ∃ n, k' = { k with read := n } := by
  unfold readFrom at h
  split at h
  · cases h
  · split at h
    · cases h
      exact ⟨_, rfl⟩
    · cases h

end Deployment

/-- Where a source reads on, it gets the next value that the sink was called with, or, if there is none and the sink has
finished, the EOF. -/
theorem Sent.readFrom {d : Deployment V} {enc : V → Bytes} (hcodec : d.codec.RoundTrips d.writer d.reader enc)
    (hfits : ∀ v, FrameFits (enc v)) {x : Proc V} {k k' : Connection} (h : Sent enc x k) {m : Nat}
    (hm : m ≤ x.calls.length) (hread : k.read = (frames enc (x.calls.take m)).length) {v : Option V}
    (hr : d.readFrom k = some (v, k')) :
    (∃ a, v = some a ∧ x.calls[m]? = some a ∧ k' = { k with read := (frames enc (x.calls.take (m + 1))).length }) ∨
      v = none ∧ m = x.calls.length ∧ x.ctl = .finished none ∧ k.failed = false ∧ x.calls ≠ [] := by
  cases hw : k.sink.wire with
  | none => simp [Deployment.readFrom, hw] at hr
  | some bytes =>
    obtain ⟨tail, rfl, htail⟩ := h.wire bytes hw
    rcases Nat.lt_or_eq_of_le hm with hlt | heq
    · have ha := List.getElem?_eq_getElem hlt
      rw [Deployment.readFrom_value hw hread hcodec hfits ha] at hr
      cases hr
      exact .inl ⟨_, rfl, ha, rfl⟩
    · rcases htail with hcut | ⟨heof, hend, hfail⟩
      · rw [Deployment.readFrom_cut hw hread heq hcut] at hr
        cases hr
      · obtain ⟨k₁, hk₁⟩ := Deployment.readFrom_eof (d := d) hw hread heq heof
        rw [hk₁] at hr
        cases hr
        refine .inr ⟨rfl, heq, hend, hfail, ?_⟩
        intro hnil
        rw [h.ended hend hfail, if_pos hnil] at hw
        cases hw

namespace Received

variable {enc : V → Bytes} {x x' y y' : Proc V} {k k' : Connection}

/-- The sink goes on. -/
theorem left (h : Received enc x y k) (ht : x.Turn x') (hk : k'.read = k.read) : Received enc x' y k' := by
  have hcalls : x.calls <+: x'.calls := by
    rcases ht.counts.1 with heq | ⟨i, v, -, heq⟩
    · rw [heq]
    · rw [heq]
      exact List.prefix_append _ _
  refine ⟨?_, ?_⟩
  · intro hasks
    obtain ⟨hle, hread⟩ := h.asks hasks
    refine ⟨hle.trans hcalls.length_le, ?_⟩
    obtain ⟨more, hmore⟩ := hcalls
    rw [hk, hread, ← hmore, List.take_append_of_le_length hle]
  · intro hlt
    have hend := (h.ahead (Nat.lt_of_le_of_lt hcalls.length_le hlt)).1
    have hnot := ht.not_finished
    rw [hend] at hnot
    cases hnot

/-- The source goes on, but not out of `generate`. -/
theorem right (h : Received enc x y k) (ht : y.Turn y') (hgen : y.ctl = .generate → y'.ctl.hosted = true) :
    Received enc x y' k := by
  have hcount : y'.generated = y.generated := by
    rcases ht.counts.2 with heq | ⟨hc, heq⟩
    · exact heq
    · have hh := hgen hc
      simp only [heq, Proc.internal, hc, Proc.generating] at hh
      split at hh
      · simp at hh
      · rw [hc] at hh
        cases hh
  refine ⟨?_, ?_⟩
  · intro hasks
    have hc : y.ctl ≠ .generate := by
      intro hc
      rw [Ctl.not_hosted_of_asks hasks] at hgen
      cases hgen hc
    rw [hcount]
    exact h.asks (ht.asks hc hasks)
  · intro hlt
    rw [hcount] at hlt
    exact h.ahead hlt

/-- `generate` returns the next value or, at the end, the EOF. -/
theorem returns {v : Option V} (hv : (∃ a, v = some a ∧ x.calls[y.generated]? = some a ∧
      k' = { k with read := (frames enc (x.calls.take (y.generated + 1))).length }) ∨
    v = none ∧ y.generated = x.calls.length ∧ x.ctl = .finished none ∧ k'.failed = false ∧ x.calls ≠ []) :
    Received enc x (y.returns v) k' := by
  rcases hv with ⟨a, rfl, ha, rfl⟩ | ⟨rfl, hlen, hend⟩
  · have hlt := (List.getElem?_eq_some_iff.1 ha).1
    refine ⟨?_, ?_⟩
    · intro _
      exact ⟨hlt, rfl⟩
    · intro hahead
      exact absurd hahead (Nat.not_lt.2 hlt)
  · refine ⟨?_, ?_⟩
    · intro hasks
      cases hasks
    · intro _
      exact hend

end Received

/-! ## The invariant of a deployment -/

/-- The step is one of this processor. -/
def Event.isOf (e : Event V) (u : Id) : Prop := e = .run u ∨ ∃ standard, e = .throw u standard

/-- A step is of one processor. -/
theorem Event.isOf.unique {e : Event V} {u v : Id} (hu : e.isOf u) (hv : e.isOf v) : u = v := by
  rcases hu with rfl | ⟨_, rfl⟩ <;> rcases hv with hv | ⟨_, hv⟩ <;> cases hv <;> rfl

theorem State.eq_of_setProc_procs {s : State V} {u : Id} {x y : Proc V} (h : (s.setProc u x).procs u = some y) :
    y = x := by
  rcases setProc_procs_some h with ⟨-, heq⟩ | ⟨hne, -⟩
  · exact heq
  · exact absurd rfl hne

/-- A processor that goes on without a queue. -/
theorem State.step_internal {s s' : State V} {u : Id} {x y : Proc V} (hs : s.step (.run u) = some s')
    (hx : s.procs u = some x) (ha : x.action = .internal) (hy : s'.procs u = some y) : y = x.internal := by
  have hs' : s.step (.run u) = some (s.setProc u x.internal) := step_iff.2 ⟨(step_iff.1 hs).1, .internal hx ha⟩
  cases hs.symm.trans hs'
  exact eq_of_setProc_procs hy

/-- A callback of a processor throws. -/
theorem State.step_throw {s s' : State V} {u : Id} {x y : Proc V} {standard : Bool}
    (hs : s.step (.throw u standard) = some s') (hx : s.procs u = some x) (hy : s'.procs u = some y) :
    y = { x with ctl := .threw (.callback standard) } := by
  cases (step_iff.1 hs).2 with
  | throw hu hc =>
    cases hx.symm.trans hu
    exact eq_of_setProc_procs hy

/-- A step is a turn of the processor whose step it is, and leaves the others alone. -/
theorem Moves.proc {s s' : State V} {e : Event V} (hm : Moves s e s') {u : Id} {x : Proc V} (hx : s.procs u = some x) :
    ∃ y, s'.procs u = some y ∧ (e.isOf u ∧ x.Turn y ∨ ¬e.isOf u ∧ y = x) := by
  have hset : ∀ {t : State V} {v : Id} {x' z : Proc V}, t.procs = s.procs → s.procs v = some x' → x'.Turn z → e.isOf v →
      ∃ y, (t.setProc v z).procs u = some y ∧ (e.isOf u ∧ x.Turn y ∨ ¬e.isOf u ∧ y = x) := by
    intro t v x' z ht hv hturn he
    rw [State.setProc_procs]
    by_cases huv : u = v
    · subst huv
      cases hx.symm.trans hv
      exact ⟨z, if_pos rfl, .inl ⟨he, hturn⟩⟩
    · exact ⟨x, by rw [if_neg huv, ht, hx], .inr ⟨fun hu => huv (hu.unique he), rfl⟩⟩
  cases hm with
  | pop hu ha hq => exact hset rfl hu (.popped ha _) (.inl rfl)
  | push hu ha hq => exact hset rfl hu (.pushed ha) (.inl rfl)
  | tryPop hu ha => exact hset rfl hu (.checked ha _) (.inl rfl)
  | tryPush hu ha => exact hset rfl hu (.notified ha) (.inl rfl)
  | internal hu ha => exact hset rfl hu (.internal ha) (.inl rfl)
  | throw hu hc => exact hset rfl hu (.throw hc _) (.inr ⟨_, rfl⟩)
  | _ => exact ⟨x, hx, .inr ⟨(by rintro (h | ⟨_, h⟩) <;> cases h), rfl⟩⟩

/-- A processor after a step, and the turn it took. -/
theorem Moves.from_proc {s s' : State V} {e : Event V} (hm : Moves s e s') {u : Id} {y : Proc V}
    (hy : s'.procs u = some y) :
    ∃ x, s.procs u = some x ∧ (e.isOf u ∧ x.Turn y ∨ ¬e.isOf u ∧ y = x) := by
  obtain ⟨x, hx⟩ : ∃ x, s.procs u = some x := by
    rcases hm.turn hy with hsame | ⟨x, hx, -⟩
    · exact ⟨y, hsame⟩
    · exact ⟨x, hx⟩
  obtain ⟨z, hz, hcase⟩ := hm.proc hx
  cases hy.symm.trans hz
  exact ⟨x, hx, hcase⟩

namespace Deployment

variable {d : Deployment V} {enc : V → Bytes} {c : Linked V}

/-- What holds between two steps of a deployment. -/
structure Inv (d : Deployment V) (enc : V → Bytes) (c : Linked V) : Prop where
  left : Running d.left c.left
  kinds : ∀ u y, c.right.procs u = some y → ∃ n, d.right.nodes.get u = some n ∧ y.obj.kind = n.kind
  sent : ∀ i a x, d.left.sinks[i]? = some a → c.left.procs a = some x → Sent enc x (c.connections i)
  received : ∀ i a b x y, d.left.sinks[i]? = some a → d.right.sources[i]? = some b → c.left.procs a = some x →
    c.right.procs b = some y → Received enc x y (c.connections i)

/-- It holds at the start. -/
theorem inv_start (d : Deployment V) (enc : V → Bytes) (pre pre' : UserChannel → List (Option V))
    (tokens tokens' : Nat) :
    d.Inv enc (d.start pre pre' tokens tokens') := by
  have hproc : ∀ {p : Pipeline V} {pre tokens u x}, (p.start pre tokens).procs u = some x →
      ∃ n, p.nodes.get u = some n ∧ x = p.startProc n := by
    intro p pre tokens u x hx
    obtain ⟨n, hn, rfl⟩ := Option.map_eq_some_iff.1 hx
    exact ⟨n, hn, rfl⟩
  refine ⟨running_start _ _ _, ?_, ?_, ?_⟩
  · intro u y hy
    obtain ⟨n, hn, rfl⟩ := hproc hy
    exact ⟨n, hn, rfl⟩
  · intro i a x _ hx
    obtain ⟨n, -, rfl⟩ := hproc hx
    refine ⟨?_, ?_, ?_⟩
    · intro _
      simp [start, Pipeline.startProc]
    · intro hf
      cases hf
    · intro bytes hb
      cases hb
  · intro i a b x y _ _ hx hy
    obtain ⟨n, -, rfl⟩ := hproc hx
    obtain ⟨m, -, rfl⟩ := hproc hy
    exact ⟨fun _ => ⟨Nat.zero_le _, rfl⟩, fun hlt => absurd hlt (Nat.not_lt_zero _)⟩

/-- A step on the left that is not at a socket is of a processor that is in no callback of a sink. -/
theorem atSink_eq_false {e : Event V} (h : d.atSink c e = false) {u : Id} (he : e.isOf u) (hu : u ∈ d.left.sinks)
    {x : Proc V} (hx : c.left.procs u = some x) : (∀ i v, x.ctl ≠ .handle i v) ∧ x.ctl ≠ .afterWork := by
  have hnone : d.writes c u = none := by
    rcases he with rfl | ⟨_, rfl⟩ <;> simpa [atSink] using h
  simp only [writes, if_pos hu, hx, Option.map_some] at hnone
  refine ⟨?_, ?_⟩
  · intro i v hc
    rw [hc] at hnone
    cases hnone
  · intro hc
    rw [hc] at hnone
    cases hnone

/-- A source that reads nothing does not ask. -/
theorem atSource_eq_false {u : Id} (h : d.atSource c (.run u) = false) (hu : u ∈ d.right.sources) {y : Proc V}
    (hy : c.right.procs u = some y) :
    y.ctl ≠ .generate := by
  intro hc
  simp only [atSource, if_pos hu, hy, Option.map_some, hc] at h
  cases h

namespace Inv

section steps

variable {U : Finset Id} (hl : Network d.left U) (h : d.Inv enc c)
include hl h

/-- The left pipeline takes a step of the sink `u`, which has written something. -/
theorem atPlace {u : Id} (hu : u ∈ d.left.sinks) {e : Event V} (he : e.isOf u) {s : State V}
    (hs : c.left.step e = some s) {sink : SocketSink} {failed : Bool}
    (hsent : ∀ x, s.procs u = some x →
      Sent enc x { c.connections (d.left.sinks.idxOf u) with sink := sink, failed := failed }) :
    d.Inv enc (c.atPlace (d.left.sinks.idxOf u) s sink failed) := by
  have hm := (State.step_iff.1 hs).2
  have hplace : d.left.sinks[d.left.sinks.idxOf u]? = some u := List.getElem?_idxOf hu
  -- the sinks in the other places are other ones
  have hother : ∀ {i a}, d.left.sinks[i]? = some a → i ≠ d.left.sinks.idxOf u → ∀ {x}, s.procs a = some x →
      c.left.procs a = some x := by
    intro i a ha hi x hx
    obtain ⟨z, hz, ⟨hev, -⟩ | ⟨-, rfl⟩⟩ := hm.from_proc hx
    · cases hev.unique he
      obtain ⟨hlt, hget⟩ := List.getElem?_eq_some_iff.1 ha
      rw [← hget, hl.sound.sinks_nodup.idxOf_getElem] at hi
      exact absurd rfl hi
    · exact hz
  refine ⟨h.left.moves hl hm, h.kinds, ?_, ?_⟩
  · intro i a x ha hx
    by_cases hi : i = d.left.sinks.idxOf u
    · subst hi
      cases hplace.symm.trans ha
      simpa [Linked.atPlace] using hsent x hx
    · simpa [Linked.atPlace, hi] using h.sent i a x ha (hother ha hi hx)
  · intro i a b x y ha hb hx hy
    by_cases hi : i = d.left.sinks.idxOf u
    · subst hi
      cases hplace.symm.trans ha
      obtain ⟨z, hz, ⟨-, hturn⟩ | ⟨hno, -⟩⟩ := hm.from_proc hx
      · exact (h.received _ u b z y ha hb hz hy).left hturn (by simp [Linked.atPlace])
      · exact absurd he hno
    · simpa [Linked.atPlace, hi] using h.received i a b x y ha hb (hother ha hi hx) hy

/-- A step on the left that is not at a socket. -/
theorem aside_left {e : Event V} (haside : d.atSink c e = false) {s : State V} (hs : c.left.step e = some s) :
    d.Inv enc { c with left := s } := by
  have hm := (State.step_iff.1 hs).2
  refine ⟨h.left.moves hl hm, h.kinds, ?_, ?_⟩
  · intro i a x ha hx
    obtain ⟨z, hz, ⟨he, hturn⟩ | ⟨-, rfl⟩⟩ := hm.from_proc hx
    · obtain ⟨hhandle, hafter⟩ := atSink_eq_false haside he (List.mem_of_getElem? ha) hz
      exact (h.sent i a z ha hz).aside hturn hhandle hafter
    · exact h.sent i a x ha hz
  · intro i a b x y ha hb hx hy
    obtain ⟨z, hz, ⟨-, hturn⟩ | ⟨-, rfl⟩⟩ := hm.from_proc hx
    · exact (h.received i a b z y ha hb hz hy).left hturn rfl
    · exact h.received i a b x y ha hb hz hy

omit hl in
/-- A step on the right where no source reads. -/
theorem aside_right {e : Event V} (haside : d.atSource c e = false) {s : State V} (hs : c.right.step e = some s) :
    d.Inv enc { c with right := s } := by
  have hm := (State.step_iff.1 hs).2
  refine ⟨h.left, ?_, h.sent, ?_⟩
  · intro u y hy
    obtain ⟨z, hz, ⟨-, hturn⟩ | ⟨-, rfl⟩⟩ := hm.from_proc hy
    · rw [hturn.kind]
      exact h.kinds u z hz
    · exact h.kinds u y hz
  · intro i a b x y ha hb hx hy
    obtain ⟨z, hz, ⟨he, hturn⟩ | ⟨-, rfl⟩⟩ := hm.from_proc hy
    · refine (h.received i a b x z ha hb hx hz).right hturn ?_
      intro hc
      rcases he with rfl | ⟨_, rfl⟩
      · exact absurd hc (atSource_eq_false haside (List.mem_of_getElem? hb) hz)
      · rw [State.step_throw hs hz hy]
        rfl
    · exact h.received i a b x y ha hb hx hz

omit hl in
/-- `generate` of the source `u` returns. -/
theorem generate {U' : Finset Id} (hr : Network d.right U') (hcodec : d.codec.RoundTrips d.writer d.reader enc)
    (hfits : ∀ v, FrameFits (enc v)) {u : Id} (hu : u ∈ d.right.sources) {y : Proc V} (hy : c.right.procs u = some y)
    (hc : y.ctl = .generate) {v : Option V} {k : Connection}
    (hread : d.readFrom (c.connections (d.right.sources.idxOf u)) = some (v, k)) :
    d.Inv enc
      { c with
        right := c.right.setProc u (y.returns v)
        connections := Function.update c.connections (d.right.sources.idxOf u) k } := by
  have hplace : d.right.sources[d.right.sources.idxOf u]? = some u := List.getElem?_idxOf hu
  obtain ⟨n, rfl⟩ := readFrom_frame hread
  refine ⟨h.left, ?_, ?_, ?_⟩
  · intro w z hz
    rcases State.setProc_procs_some hz with ⟨rfl, rfl⟩ | ⟨-, hz⟩
    · exact h.kinds w y hy
    · exact h.kinds w z hz
  · intro i a x ha hx
    have hsent := h.sent i a x ha hx
    by_cases hi : i = d.right.sources.idxOf u
    · subst hi
      simp only [Function.update_self]
      exact ⟨hsent.working, hsent.ended, hsent.wire⟩
    · simpa [hi] using hsent
  · intro i a b x z ha hb hx hz
    rcases State.setProc_procs_some hz with ⟨rfl, rfl⟩ | ⟨hne, hz⟩
    · obtain ⟨hlt, hget⟩ := List.getElem?_eq_some_iff.1 hb
      have hi : d.right.sources.idxOf b = i := by rw [← hget, hr.sound.sources_nodup.idxOf_getElem]
      subst hi
      obtain ⟨hle, hpos⟩ := (h.received _ a b x y ha hb hx hy).asks (by rw [hc]; rfl)
      have hnext := (h.sent _ a x ha hx).readFrom hcodec hfits hle hpos hread
      simpa using Received.returns hnext
    · have hi : i ≠ d.right.sources.idxOf u := by
        rintro rfl
        exact hne (Option.some.inj (hb.symm.trans hplace))
      simpa [hi] using h.received i a b x z ha hb hx hz

end steps

/-- Every step keeps it. -/
theorem moves {U U' : Finset Id} (hl : Network d.left U) (hpl : d.left.Pure) (hr : Network d.right U')
    (hcodec : d.codec.RoundTrips d.writer d.reader enc) (hfits : ∀ v, FrameFits (enc v)) (h : d.Inv enc c)
    {e : LinkedEvent V} {c' : Linked V} (hm : LinkedMoves d c e c') : d.Inv enc c' := by
  have hsink : ∀ {u x}, u ∈ d.left.sinks → c.left.procs u = some x →
      Sent enc x (c.connections (d.left.sinks.idxOf u)) ∧ x.obj.kind = .sink .consume := by
    intro u x hu hx
    obtain ⟨n, hn, hk⟩ := hl.sink_kind hpl hu
    exact ⟨h.sent _ u x (List.getElem?_idxOf hu) hx, (h.left.inv u n x hn hx).kind.trans hk⟩
  cases hm with
  | left haside hs => exact h.aside_left hl haside hs
  | @consume u peer x i v sink s hu hx hc hw hs =>
    obtain ⟨hsent, hk⟩ := hsink hu hx
    refine h.atPlace hl hu (.inl rfl) hs ?_
    intro y hy
    rw [State.step_internal hs hx (by simp only [Proc.action, hc]) hy]
    exact hsent.consume hcodec hfits hk hc hw
  | @afterWork u peer x sink s hu hx hc hw hs =>
    obtain ⟨hsent, hk⟩ := hsink hu hx
    refine h.atPlace hl hu (.inl rfl) hs ?_
    intro y hy
    rw [State.step_internal hs hx (Proc.action_afterWork hk hc) hy]
    exact hsent.afterWork hk hc hw
  | @breaks u cut _ x i v sink s hu hx hc hw hs =>
    obtain ⟨hsent, hk⟩ := hsink hu hx
    refine h.atPlace hl hu (.inr ⟨_, rfl⟩) hs ?_
    intro y hy
    rw [State.step_throw hs hx hy]
    exact hsent.breaks hcodec hfits hc hw
  | @eofBreaks u cut x sink s hu hx hc hw hs =>
    obtain ⟨hsent, hk⟩ := hsink hu hx
    refine h.atPlace hl hu (.inl rfl) hs ?_
    intro y hy
    rw [State.step_internal hs hx (Proc.action_afterWork hk hc) hy]
    exact hsent.eofBreaks hk hc hw
  | right haside hs => exact h.aside_right haside hs
  | generate hu hy hc hd hread => exact h.generate hr hcodec hfits hu hy hc hread

end Inv

end Deployment

end Tunnel
