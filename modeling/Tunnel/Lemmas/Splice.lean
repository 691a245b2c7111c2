import Tunnel.Lemmas.Project

/-!
# What a spliced processor is to each side

`MergePipeline` puts a `NoOpTransform` in the place of a sink of the left pipeline and a source of the right one. Seen
from the left it is the sink: it does at its input what the sink does, and its pushes are not seen (`Proc.asSink`). Seen
from the right it is a source that generates what the `NoOpTransform` handles, and its pops are not seen
(`Proc.asSource`).
-/

namespace Tunnel

open Lib

variable {V : Type}

/-! ## As the sink -/

/-- Where the sink stands: it has no pushes. -/
def Ctl.asSink : Ctl V → Ctl V
  | .push _ _ _ next => .emit [] next
  | .pushCheck _ next => .emit [] next
  | c => c

theorem Ctl.asSink_emit (rest : List (Nat × Option V)) (next : Next) : (Ctl.emit rest next).asSink = .emit [] next := by
  cases rest <;> cases next <;> rfl

/-- Both are in `hosted_mode`, or none. -/
theorem Ctl.asSink_hosted (c : Ctl V) : c.asSink.hosted = c.hosted := by
  cases c with
  | push o v rest next => exact Ctl.emit_hosted [] next
  | pushCheck rest next => exact Ctl.emit_hosted [] next
  | _ => rfl

namespace Proc

/-- The sink `m` whose place the processor took. -/
def asSink (m : Processor V) (b : Bool) (x : Proc V) : Proc V where
  obj := { m with inputPort := x.obj.inputPort, inputCount := x.obj.inputCount }
  ctl := x.ctl.asSink
  abortPort := b
  calls := x.calls
  generated := 0
  taken := x.taken
  put := fun _ => []

variable {m : Processor V} {b : Bool} {x y : Proc V} {e : Effect V}

section sink

variable (hm : m.kind = .sink .consume) (hk : x.obj.kind = .transform .noOp)
include hm hk

theorem asSink_inChan (i : Nat) : (x.asSink m b).obj.inChan i = x.obj.inChan i := by
  simp [asSink, Processor.inChan, hm, hk, Kind.isMultiIn]

/-- It pops as the sink does. -/
theorem asSink_popped {j : Nat} (hc : x.ctl = .pop j) (i : Nat) (v : Option V) :
    (x.asSink m b).popped i v = (x.popped i v).asSink m b := by
  have hctl : (x.asSink m b).ctl = .pop j := by simp [asSink, hc, Ctl.asSink]
  have hneed : (x.asSink m b).obj.need = x.obj.need := by simp [asSink, Processor.need, hm, hk, Kind.isMultiIn]
  cases v with
  | some a =>
    simp only [popped, hctl, hc]
    rfl
  | none =>
    simp only [popped, hctl, hc, hneed]
    split
    · rfl
    · split
      · simp [asSink, goto, Ports.countEof, Ports.resetInput, Ports.take, Processor.resetInput, Processor.countEof, hm,
          hk, Kind.isMultiIn, Ctl.asSink]
      · simp [asSink, goto, Ports.countEof, Ports.take, Processor.countEof, hm, hk, Kind.isMultiIn, Ctl.asSink]

omit hm in
/-- Its pushes are not seen. -/
theorem asSink_pushed {o : Nat} {v : Option V} {rest : List (Nat × Option V)} {next : Next}
    (hc : x.ctl = .push o v rest next) :
    (x.pushed o v).asSink m b = x.asSink m b := by
  cases v with
  | some a => simp [asSink, pushed, hc, goto, Ports.give, Ctl.asSink]
  | none =>
    simp [asSink, pushed, hc, goto, Ports.give, Ports.resetOutput, Processor.resetOutput, hk, Kind.isMultiOut,
      Ctl.asSink]

/-- Without a queue it goes on as the sink does, or stays where it is behind a push. -/
theorem asSink_silent (hx : x.ctl.hosted = false) (hd : x.Does .silent y) (hy : y.ctl.hosted = false) :
    (x.asSink m b).Does .silent (y.asSink m b) ∨ y.asSink m b = x.asSink m b := by
  obtain ⟨rfl, ha⟩ := does_silent.1 hd
  cases hc : x.ctl with
  | start =>
    refine Or.inl (does_silent.2 ⟨?_, Or.inl (by simp [action, asSink, hc, Ctl.asSink])⟩)
    simp [asSink, internal, hc, Ctl.asSink, Processor.beforeWork, work, hm, hk]
  | generate =>
    refine Or.inr ?_
    simp [internal, hc, generating, hk]
  | pop i => simp [internal, hc, Ctl.hosted] at hy
  | popCheck i v =>
    refine Or.inl (does_silent.2 ⟨?_, ?_⟩)
    · cases v <;> simp [asSink, internal, checked, hc, Ctl.asSink]
    · cases b <;> simp [action, asSink, hc, Ctl.asSink]
  | handle i a =>
    refine Or.inl (does_silent.2 ⟨?_, Or.inl (by simp [action, asSink, hc, Ctl.asSink])⟩)
    have hsink : (x.asSink m b).internal = { x.asSink m b with calls := x.calls ++ [a], ctl := .emit [] (.pop i) } := by
      simp [asSink, internal, hc, Ctl.asSink, hm, Kind.onValue]
    rw [hsink]
    simp [asSink, internal, hc, Ctl.asSink_emit]
  | eof i =>
    refine Or.inl (does_silent.2 ⟨?_, Or.inl (by simp [action, asSink, hc, Ctl.asSink])⟩)
    have hsink : (x.asSink m b).internal = { x.asSink m b with ctl := .emit [] .ret } := by
      simp [asSink, internal, ended, hc, Ctl.asSink, hm, Kind.onEof, Kind.nin]
    rw [hsink]
    simp [asSink, internal, ended, hc, Ctl.asSink_emit, hk, Kind.nin]
  | push o v rest next => simp [internal, hc, Ctl.hosted] at hy
  | pushCheck rest next =>
    have hsink : (x.asSink m b).ctl = .emit [] next := by simp [asSink, hc, Ctl.asSink]
    refine Or.inr ?_
    rw [← show { x.asSink m b with ctl := .emit [] next } = x.asSink m b by rw [← hsink]]
    simp [asSink, internal, checked, hc, Ctl.asSink_emit]
  | afterWork =>
    refine Or.inl (does_silent.2 ⟨?_, Or.inl (by simp [action, asSink, hc, Ctl.asSink, hm, Kind.isChannelSink])⟩)
    simp [asSink, internal, hc, Ctl.asSink, hm, hk, Kind.isChannelSink]
  | finished c => simp [action, hc] at ha
  | _ => rw [hc] at hx; cases hx

end sink

end Proc

/-- The sink follows the processor that took its place. -/
theorem follows_sink {own : Queue → Bool} {m : Processor V} {b : Bool} {x y : Proc V} {e : Effect V}
    (hm : m.kind = .sink .consume) (hk : x.obj.kind = .transform .noOp) (hd : x.Does e y) (hx : x.ctl.hosted = false)
    (hy : y.ctl.hosted = false) (hpop : ∀ q v, e = .pop q v → own q = true)
    (hpush : ∀ q v, e = .push q v → own q = false) :
    Follows own (fun x x' => x' = x.asSink m b) x e y := by
  rintro x' rfl
  have hhosted : (y.asSink m b).ctl.hosted = false := (Ctl.asSink_hosted y.ctl).trans hy
  cases e with
  | silent =>
    rcases Proc.asSink_silent hm hk hx hd hy with hd' | heq
    · exact Or.inl ⟨_, hd', hhosted, rfl⟩
    · exact Or.inr ⟨rfl, heq.symm⟩
  | pop q v =>
    cases hd with
    | @pop i q ha v =>
      obtain ⟨hq, hc | ⟨c, hc, -⟩⟩ := Proc.action_pop ha
      · refine Or.inl ⟨_, ?_, hhosted, rfl⟩
        rw [Effect.within, hpop q v rfl, if_pos rfl, ← Proc.asSink_popped hm hk hc]
        refine .pop ?_ v
        have hctl : (x.asSink m b).ctl = .pop i := by simp [Proc.asSink, hc, Ctl.asSink]
        simp only [Proc.action, hctl, Proc.popAction, Proc.asSink_inChan hm hk, hq]
      · rw [hc] at hx
        cases hx
  | push q v =>
    cases hd with
    | @push o q v ha =>
      obtain ⟨-, ⟨rest, next, hc⟩ | ⟨-, hsink, -, -⟩ | ⟨c, hc, -, -⟩⟩ := Proc.action_push ha
      · refine Or.inr ⟨?_, (Proc.asSink_pushed hk hc).symm⟩
        rw [Effect.within, hpush q v rfl]
        rfl
      · rw [hk] at hsink
        cases hsink
      · rw [hc] at hx
        cases hx

/-! ## As the source -/

/-- Where the source goes on: it asks `generate` where the processor waits for the next value. -/
def Next.asSource : Next → Next
  | .pop _ => .generate
  | next => next

/-- Where the source stands. -/
def Ctl.asSource : Ctl V → Ctl V
  | .pop _ => .generate
  | .popCheck _ _ => .generate
  | .handle _ _ => .generate
  | .eof _ => .generate
  | .push o v rest next => .push o v rest next.asSource
  | .pushCheck rest next => .pushCheck rest next.asSource
  | c => c

theorem Ctl.asSource_emit (rest : List (Nat × Option V)) (next : Next) :
    (Ctl.emit rest next).asSource = .emit rest next.asSource := by
  cases rest <;> cases next <;> rfl

/-- Both are in `hosted_mode`, or none. -/
theorem Ctl.asSource_hosted (c : Ctl V) : c.asSource.hosted = c.hosted := by
  cases c <;> rfl

namespace Proc

/-- The source `m` whose place the processor took: it has generated what the processor handled, and its EOF once the
processor closes. -/
def asSource (m : Processor V) (b : Bool) (x : Proc V) : Proc V where
  obj := { m with outputPort := x.obj.outputPort }
  ctl := x.ctl.asSource
  abortPort := b
  calls := []
  generated := x.calls.length + if x.ctl.closing then 1 else 0
  taken := fun _ => []
  put := x.put

variable {m : Processor V} {b : Bool} {x y : Proc V} {values : List V}

section source

variable (hm : m.kind = .source (.generate (fun k => values[k]?))) (hk : x.obj.kind = .transform .noOp)
include hk

/-- Its pops are not seen. -/
theorem asSource_popped {j : Nat} (hc : x.ctl = .pop j) (i : Nat) {v : Option V}
    (hy : (x.popped i v).ctl.hosted = false) :
    (x.popped i v).asSource m b = x.asSource m b := by
  cases v with
  | some a => simp [asSource, popped, hc, goto, Ports.take, Ctl.asSource, Ctl.closing]
  | none =>
    simp only [popped, hc] at hy ⊢
    split at hy
    · cases hy
    · rename_i h0
      rw [if_neg h0]
      split
      · simp [asSource, goto, Ports.countEof, Ports.resetInput, Ports.take, Processor.resetInput, Processor.countEof,
          hc, hk, Kind.isMultiIn, Ctl.asSource, Ctl.closing]
      · simp [asSource, goto, Ports.countEof, Ports.take, Processor.countEof, hc, hk, Kind.isMultiIn, Ctl.asSource,
          Ctl.closing]

include hm in
theorem asSource_outChan (o : Nat) : (x.asSource m b).obj.outChan o = x.obj.outChan o := by
  simp [asSource, Processor.outChan, hm, hk, Kind.isMultiOut]

include hm in
/-- It pushes as the source does. -/
theorem asSource_pushed {o : Nat} {v : Option V} {rest : List (Nat × Option V)} {next : Next}
    (hc : x.ctl = .push o v rest next) :
    (x.asSource m b).pushed o v = (x.pushed o v).asSource m b := by
  cases v with
  | some a => simp [asSource, pushed, hc, goto, Ports.give, Ctl.asSource, Ctl.closing]
  | none =>
    simp [asSource, pushed, hc, goto, Ports.give, Ports.resetOutput, Processor.resetOutput, hm, hk, Kind.isMultiOut,
      Ctl.asSource, Ctl.closing]

include hm in
/-- Without a queue it goes on as the source does, or stays at `generate`. -/
theorem asSource_silent (hx : x.ctl.hosted = false) (hd : x.Does .silent y) (hy : y.ctl.hosted = false)
    (hhandle : ∀ i a, x.ctl = .handle i a → values[x.calls.length]? = some a)
    (heof : ∀ i, x.ctl = .eof i → values[x.calls.length]? = none) :
    (x.asSource m b).Does .silent (y.asSource m b) ∨ y.asSource m b = x.asSource m b := by
  obtain ⟨rfl, ha⟩ := does_silent.1 hd
  cases hc : x.ctl with
  | start =>
    refine Or.inl (does_silent.2 ⟨?_, Or.inl (by simp [action, asSource, hc, Ctl.asSource])⟩)
    simp [asSource, internal, hc, Ctl.asSource, Ctl.closing, Processor.beforeWork, work, hm, hk]
  | generate =>
    refine Or.inr ?_
    simp [internal, hc, generating, hk]
  | pop i => simp [internal, hc, Ctl.hosted] at hy
  | popCheck i v =>
    refine Or.inr ?_
    cases v <;> simp [asSource, internal, checked, hc, Ctl.asSource, Ctl.closing]
  | handle i a =>
    refine Or.inl (does_silent.2 ⟨?_, Or.inl (by simp [action, asSource, hc, Ctl.asSource])⟩)
    have hvalue := hhandle i a hc
    simp [asSource, internal, generating, hc, Ctl.asSource, Ctl.closing, hm, hk, hvalue, Kind.onValue, Ctl.emit,
      Next.asSource]
  | eof i =>
    refine Or.inl (does_silent.2 ⟨?_, Or.inl (by simp [action, asSource, hc, Ctl.asSource])⟩)
    have hvalue := heof i hc
    simp [asSource, internal, generating, ended, hc, Ctl.asSource, Ctl.closing, hm, hk, hvalue, Kind.onEof, Kind.nin,
      Ctl.emit, Next.asSource]
  | push o v rest next => simp [internal, hc, Ctl.hosted] at hy
  | pushCheck rest next =>
    refine Or.inl (does_silent.2 ⟨?_, ?_⟩)
    · have hsource : (x.asSource m b).internal = { x.asSource m b with ctl := .emit rest next.asSource } := by
        simp [asSource, internal, checked, hc, Ctl.asSource]
      have hclosing : x.ctl.closing = (next = .ret : Bool) := by rw [hc]; rfl
      rw [hsource]
      simp [asSource, internal, checked, hc ▸ hclosing, hc, Ctl.asSource_emit]
    · cases b <;> simp [action, asSource, hc, Ctl.asSource]
  | afterWork =>
    refine Or.inl (does_silent.2 ⟨?_, Or.inl (by simp [action, asSource, hc, Ctl.asSource, hm, Kind.isChannelSink])⟩)
    simp [asSource, internal, hc, Ctl.asSource, Ctl.closing, hm, hk, Kind.isChannelSink]
  | finished c => simp [action, hc] at ha
  | _ => rw [hc] at hx; cases hx

end source

end Proc

/-- The source follows the processor that took its place, if it generates what the processor handles. -/
theorem follows_source {own : Queue → Bool} {m : Processor V} {b : Bool} {values : List V} {x y : Proc V} {e : Effect V}
    (hm : m.kind = .source (.generate (fun k => values[k]?))) (hk : x.obj.kind = .transform .noOp) (hd : x.Does e y)
    (hx : x.ctl.hosted = false) (hy : y.ctl.hosted = false) (hpop : ∀ q v, e = .pop q v → own q = false)
    (hpush : ∀ q v, e = .push q v → own q = true)
    (hhandle : ∀ i a, x.ctl = .handle i a → values[x.calls.length]? = some a)
    (heof : ∀ i, x.ctl = .eof i → values[x.calls.length]? = none) :
    Follows own (fun x x' => x' = x.asSource m b) x e y := by
  rintro x' rfl
  have hhosted : (y.asSource m b).ctl.hosted = false := (Ctl.asSource_hosted y.ctl).trans hy
  cases e with
  | silent =>
    rcases Proc.asSource_silent hm hk hx hd hy hhandle heof with hd' | heq
    · exact Or.inl ⟨_, hd', hhosted, rfl⟩
    · exact Or.inr ⟨rfl, heq.symm⟩
  | pop q v =>
    cases hd with
    | @pop i q ha v =>
      obtain ⟨-, hc | ⟨c, hc, -⟩⟩ := Proc.action_pop ha
      · refine Or.inr ⟨?_, (Proc.asSource_popped hk hc i hy).symm⟩
        rw [Effect.within, hpop q v rfl]
        rfl
      · rw [hc] at hx
        cases hx
  | push q v =>
    cases hd with
    | @push o q v ha =>
      obtain ⟨hq, ⟨rest, next, hc⟩ | ⟨-, hsink, -, -⟩ | ⟨c, hc, -, -⟩⟩ := Proc.action_push ha
      · refine Or.inl ⟨_, ?_, hhosted, rfl⟩
        rw [Effect.within, hpush q v rfl, if_pos rfl, ← Proc.asSource_pushed hm hk hc]
        refine .push ?_
        have hctl : (x.asSource m b).ctl = .push o v rest next.asSource := by simp [Proc.asSource, hc, Ctl.asSource]
        simp only [Proc.action, hctl, Proc.pushAction, Proc.asSource_outChan hm hk, hq]
      · rw [hk] at hsink
        cases hsink
      · rw [hc] at hx
        cases hx

end Tunnel
