import Tunnel.Streams

/-!
# What a processor has made of its inputs

As long as no exception left `work`, what a processor put on its outputs, and what it is still going to put there in
this round, is what its class makes of the values it took (`Proc.Flow`). Once it finished this way, the histories of its
ports are related by the stream function of its class.
-/

namespace Tunnel

open Lib

variable {V : Type}

/-! ## Where the coroutine stands -/

/-- The input `work` goes on with. -/
def Next.input : Next → Option Nat
  | .pop i => some i
  | _ => none

namespace Ctl

/-- The value that `Pop` has taken and `work` has not handled. -/
def inHand : Ctl V → List V
  | .popCheck _ (some v) => [v]
  | .handle _ v => [v]
  | _ => []

/-- The pushes still to come in this round of `work`. -/
def todo : Ctl V → List (Nat × Option V)
  | .push o v rest _ => (o, v) :: rest
  | .pushCheck rest _ => rest
  | _ => []

/-- The inputs are at their end, and `work` is about to return or has returned. -/
def closing : Ctl V → Bool
  | .push _ _ _ next => next = .ret
  | .pushCheck _ next => next = .ret
  | .afterWork => true
  | .finished none => true
  | _ => false

/-- An exception left `work`, or ended the process. -/
def hosted : Ctl V → Bool
  | .threw _ => true
  | .closeInput _ _ => true
  | .closeOutput _ _ => true
  | .finished (some _) => true
  | .escaped => true
  | .dead _ => true
  | _ => false

/-- The input that `work` reads. -/
def input : Ctl V → Option Nat
  | .start => some 0
  | .pop i => some i
  | .popCheck i _ => some i
  | .handle i _ => some i
  | .eof i => some i
  | .push _ _ _ next => next.input
  | .pushCheck _ next => next.input
  | _ => none

variable (rest : List (Nat × Option V)) (next : Next)

@[simp] theorem emit_inHand : (emit rest next).inHand = [] := by
  cases rest <;> cases next <;> rfl

@[simp] theorem emit_todo : (emit rest next).todo = rest := by
  cases rest <;> cases next <;> rfl

@[simp] theorem emit_closing : (emit rest next).closing = (next = .ret : Bool) := by
  cases rest <;> cases next <;> rfl

@[simp] theorem emit_hosted : (emit rest next).hosted = false := by
  cases rest <;> cases next <;> rfl

@[simp] theorem emit_input : (emit rest next).input = next.input := by
  cases rest <;> cases next <;> rfl

end Ctl

/-- What a processor does to itself in a step. -/
inductive Proc.Turn (x : Proc V) : Proc V → Prop where
  | popped {i : Nat} {q : Queue} (ha : x.action = .pop i q) (v : Option V) : Turn x (x.popped i v)
  | pushed {o : Nat} {q : Queue} {v : Option V} (ha : x.action = .push o q v) : Turn x (x.pushed o v)
  | checked (ha : x.action = .tryPop) (token : Bool) : Turn x (x.checked token)
  | notified (ha : x.action = .tryPush) : Turn x x.notified
  | internal (ha : x.action = .internal) : Turn x x.internal
  | throw (hc : x.inCallback = true) (standard : Bool) : Turn x { x with ctl := .threw (.callback standard) }

/-- A step of a run leaves a processor alone or is a turn of it. -/
theorem Moves.turn {s s' : State V} {e : Event V} (hm : Moves s e s') {u : Id} {y : Proc V} (hy : s'.procs u = some y) :
    s.procs u = some y ∨ ∃ x, s.procs u = some x ∧ x.Turn y := by
  have hset : ∀ {t : State V} {v : Id} {z : Proc V}, t.procs = s.procs → (t.setProc v z).procs u = some y →
      s.procs u = some y ∨ (u = v ∧ y = z) := by
    intro t v z ht h
    rcases State.setProc_procs_some h with hself | ⟨-, hother⟩
    · exact Or.inr hself
    · exact Or.inl (ht ▸ hother)
  have hturn : ∀ {v : Id} {x z : Proc V}, s.procs v = some x → x.Turn z → s.procs u = some y ∨ (u = v ∧ y = z) →
      s.procs u = some y ∨ ∃ x, s.procs u = some x ∧ x.Turn y := by
    rintro v x z hx ht (h | ⟨rfl, rfl⟩)
    · exact Or.inl h
    · exact Or.inr ⟨x, hx, ht⟩
  cases hm with
  | pop hu ha hq => exact hturn hu (.popped ha _) (hset rfl hy)
  | push hu ha hq => exact hturn hu (.pushed ha) (hset rfl hy)
  | tryPop hu ha => exact hturn hu (.checked ha _) (hset rfl hy)
  | tryPush hu ha => exact hturn hu (.notified ha) (hset rfl hy)
  | internal hu ha => exact hturn hu (.internal ha) (hset rfl hy)
  | throw hu hc => exact hturn hu (.throw hc _) (hset rfl hy)
  | send hq => exact Or.inl hy
  | receive hq => exact Or.inl hy
  | addToken ht => exact Or.inl hy
  | takeToken ht => exact Or.inl hy

/-! ## The invariant -/

/-- The values a processor has made so far. -/
def Kind.produced (k : Kind V) (calls : List V) (generated : Nat) (closing : Bool) (o : Nat) : List V :=
  match k with
  | .source (.generate g) => (List.range generated).filterMap g
  | k => streamOf (k.emitted calls) o ++ if closing then (streamOf (k.onEof calls) o).reduceOption else []

/-- A class that reads inputs makes its values of them. -/
theorem Kind.produced_eq {k : Kind V} (hg : k.generates = false) (calls : List V) (generated : Nat) (closing : Bool)
    (o : Nat) :
    k.produced calls generated closing o =
      streamOf (k.emitted calls) o ++ if closing then (streamOf (k.onEof calls) o).reduceOption else [] := by
  rw [Kind.produced.eq_def]
  split
  · cases hg
  · rfl

/-- Who reads does not generate. -/
theorem Kind.generates_of_nin {k : Kind V} (h : k.nin ≠ 0) : k.generates = false := by
  cases k with
  | source k => cases k <;> simp_all [Kind.generates, Kind.nin]
  | _ => rfl

/-- What a `Source` got from `generate` so far: values, and the EOF once it closes. -/
def Generating (g : Nat → Option V) (count : Nat) (closing : Bool) : Prop :=
  if closing then ∃ n, count = n + 1 ∧ g n = none ∧ ∀ k < n, (g k).isSome = true else ∀ k < count, (g k).isSome = true

/-- The values taken from all inputs, one input after the other. -/
def Ports.reads (x : Ports V) (nin : Nat) : List V := (List.range nin).flatMap (fun i => (x.taken i).reduceOption)

namespace Proc

variable {n : Processor V} {x y : Proc V}

/-- Without the abort channel, or without a token in it, `Pop` and `Push` go on behind their check. -/
theorem internal_eq_checked (hc : (∃ i v, x.ctl = .popCheck i v) ∨ ∃ rest next, x.ctl = .pushCheck rest next) :
    x.internal = x.checked false := by
  rcases hc with ⟨i, v, hc⟩ | ⟨rest, next, hc⟩ <;> simp [Proc.internal, hc]

/-- What the processor took and what it put, as long as no exception left `work`. -/
structure Flow (n : Processor V) (x : Proc V) : Prop where
  reads : x.calls ++ x.ctl.inHand = Ports.reads x.toPorts n.kind.nin
  later : ∀ i, x.ctl.input = some i → ∀ j, i < j → x.taken j = []
  puts : ∀ o < n.kind.nout, (x.put o).reduceOption ++ (streamOf x.ctl.todo o).reduceOption =
    n.kind.produced x.calls x.generated x.ctl.closing o
  source : ∀ g, n.kind = .source (.generate g) → Generating g x.generated x.ctl.closing

/-- A step that leaves the ports, the calls and what is still to come alone. -/
theorem Flow.congr (h : Flow n x) (hports : y.taken = x.taken ∧ y.put = x.put) (hcalls : y.calls = x.calls)
    (hgen : y.generated = x.generated) (hhand : y.ctl.inHand = x.ctl.inHand) (htodo : y.ctl.todo = x.ctl.todo)
    (hclosing : y.ctl.closing = x.ctl.closing) (hinput : ∀ i, y.ctl.input = some i → x.ctl.input = some i) :
    Flow n y := by
  refine ⟨?_, fun i hi j hj => ?_, fun o ho => ?_, fun g hg => ?_⟩
  · rw [hcalls, hhand, h.reads]
    simp only [Ports.reads, hports.1]
  · rw [hports.1]
    exact h.later i (hinput i hi) j hj
  · rw [hports.2, htodo, hcalls, hgen, hclosing]
    exact h.puts o ho
  · rw [hgen, hclosing]
    exact h.source g hg

/-- The values read, and one more. -/
theorem reads_take (x : Ports V) {i nin : Nat} (hi : i < nin) (hlater : ∀ j, i < j → x.taken j = []) (v : Option V) :
    (x.take i v).reads nin = x.reads nin ++ [v].reduceOption := by
  induction nin with
  | zero => omega
  | succ k ih =>
    simp only [Ports.reads, List.range_succ, List.flatMap_append, List.flatMap_singleton] at ih ⊢
    by_cases hik : i = k
    · subst hik
      have hold : (List.range i).flatMap (fun j => ((x.take i v).taken j).reduceOption) =
          (List.range i).flatMap (fun j => (x.taken j).reduceOption) := by
        refine List.flatMap_congr (fun j hj => ?_)
        rw [x.taken_take_ne v (by have := List.mem_range.1 hj; omega)]
      rw [hold, show (x.take i v).taken i = x.taken i ++
        [v] by simp [Ports.take], List.reduceOption_append, List.append_assoc]
    · rw [ih (by omega), x.taken_take_ne v (by omega), hlater k (by omega)]
      simp

/-- `Pop` took an element. -/
theorem Flow.popped (h : Inv n x) (hf : Flow n x) {i : Nat} (hc : x.ctl = .pop i) (v : Option V)
    (hh : (x.popped i v).ctl.hosted = false) : Flow n (x.popped i v) := by
  have hi : i < n.kind.nin := by
    have hstand := h.standing
    rw [hc] at hstand
    exact hstand.1
  have hlater := hf.later i (by rw [hc]; rfl)
  have hreads : x.calls = Ports.reads x.toPorts n.kind.nin := by simpa [hc, Ctl.inHand] using hf.reads
  have hputs := hf.puts
  have hsource := hf.source
  rw [hc] at hputs hsource
  have hgoto : ∀ (ports : Ports V) (c : Ctl V), ports.taken = (x.toPorts.take i v).taken → ports.put = x.put →
      c.inHand = [v].reduceOption → c.todo = [] → c.closing = false → c.input = some i → Flow n (x.goto ports c) := by
    intro ports c htaken hput hhand htodo hclosing hinput
    refine ⟨?_, fun k hk j hj => ?_, fun o ho => ?_, fun g hg => ?_⟩
    · have hp : Ports.reads ports n.kind.nin = Ports.reads (x.toPorts.take i v) n.kind.nin := by
        simp only [Ports.reads, htaken]
      show x.calls ++ c.inHand = Ports.reads ports n.kind.nin
      rw [hp, reads_take x.toPorts hi hlater v, ← hreads, hhand]
    · have hki : k = i := by
        have := hinput.symm.trans hk
        exact (Option.some.inj this).symm
      show ports.taken j = []
      rw [htaken, x.toPorts.taken_take_ne v (by omega)]
      exact hlater j (by omega)
    · show (ports.put o).reduceOption ++
        (streamOf c.todo o).reduceOption = n.kind.produced x.calls x.generated c.closing o
      rw [hput, htodo, hclosing]
      exact hputs o ho
    · show Generating g x.generated c.closing
      rw [hclosing]
      exact hsource g hg
  cases v with
  | some a =>
    have hx : x.popped i (some a) = x.goto (x.toPorts.take i (some a)) (.popCheck i (some a)) := by
      simp [Proc.popped, hc]
    rw [hx]
    exact hgoto _ _ rfl rfl rfl rfl rfl rfl
  | none =>
    simp only [Proc.popped, hc] at hh ⊢
    split
    · rename_i h0
      rw [if_pos h0] at hh
      cases hh
    · split
      · exact hgoto _ _ rfl rfl rfl rfl rfl rfl
      · exact hgoto _ _ rfl rfl rfl rfl rfl rfl

/-- `Push` put an element. -/
theorem Flow.pushed (hf : Flow n x) {o : Nat} {v : Option V} {rest : List (Nat × Option V)} {next : Next}
    (hc : x.ctl = .push o v rest next) : Flow n (x.pushed o v) := by
  have hputs := hf.puts
  have hreads := hf.reads
  have hlater := hf.later
  have hsource := hf.source
  rw [hc] at hputs hreads hlater hsource
  have hgoto : ∀ ports : Ports V, ports.taken = x.taken → ports.put = (x.toPorts.give o v).put →
      Flow n (x.goto ports (.pushCheck rest next)) := by
    intro ports htaken hput
    refine ⟨?_, fun i hi j hj => ?_, fun k hk => ?_, hsource⟩
    · have hp : Ports.reads ports n.kind.nin = Ports.reads x.toPorts n.kind.nin := by simp only [Ports.reads, htaken]
      exact hreads.trans hp.symm
    · exact (congrFun htaken j).trans (hlater i hi j hj)
    · have hk := hputs k hk
      show (ports.put k).reduceOption ++ (streamOf rest k).reduceOption = _
      rw [hput]
      by_cases hko : k = o
      · subst hko
        rw [Ctl.todo, streamOf_cons_self] at hk
        rw [x.toPorts.put_give, List.reduceOption_append, List.append_assoc, ← List.reduceOption_append]
        exact hk
      · rw [Ctl.todo, streamOf_cons_ne _ _ hko] at hk
        rw [x.toPorts.put_give_ne v hko]
        exact hk
  cases v <;> simp only [Proc.pushed, hc] <;> exact hgoto _ rfl rfl

/-- The EOF of a `ChannelSink`. -/
theorem Flow.pushed_afterWork (hf : Flow n x) (hc : x.ctl = .afterWork) (o : Nat) : Flow n (x.pushed o none) := by
  have hx : x.pushed o none = x.goto (x.toPorts.give o none) (.finished none) := by simp [Proc.pushed, hc]
  have hreads := hf.reads
  have hputs := hf.puts
  have hsource := hf.source
  rw [hc] at hreads hputs hsource
  rw [hx]
  refine ⟨hreads, fun _ h => (by cases h), fun k hk => ?_, hsource⟩
  have hput : ((x.toPorts.give o none).put k).reduceOption = (x.put k).reduceOption := by
    by_cases hko : k = o
    · subst hko
      rw [x.toPorts.put_give, List.reduceOption_append]
      exact List.append_nil _
    · rw [x.toPorts.put_give_ne none hko]
  show ((x.toPorts.give o none).put k).reduceOption ++ _ = _
  rw [hput]
  exact hputs k hk

/-- The check of the abort channel gave no token. -/
theorem Flow.checked (hf : Flow n x) (hc : (∃ i v, x.ctl = .popCheck i v) ∨ ∃ rest next, x.ctl = .pushCheck rest next) :
    Flow n (x.checked false) := by
  rcases hc with ⟨i, v, hc⟩ | ⟨rest, next, hc⟩
  · have hx : x.checked false = { x with ctl := match v with | some a => .handle i a | none => .pop i } := by
      cases v <;> simp [Proc.checked, hc]
    rw [hx]
    refine hf.congr ⟨rfl, rfl⟩ rfl rfl ?_ ?_ ?_ (fun j hj => ?_) <;> cases v <;>
      simp_all [Ctl.inHand, Ctl.todo, Ctl.closing, Ctl.input]
  · have hx : x.checked false = { x with ctl := .emit rest next } := by simp [Proc.checked, hc]
    rw [hx]
    refine hf.congr ⟨rfl, rfl⟩ rfl rfl ?_ ?_ ?_ (fun j hj => ?_)
    · rw [hc]
      exact Ctl.emit_inHand rest next
    · rw [hc]
      exact Ctl.emit_todo rest next
    · rw [hc]
      exact Ctl.emit_closing rest next
    · rw [hc]
      exact (Ctl.emit_input rest next).symm.trans hj

/-- A round of `work` begins to push. -/
theorem flow_emit (todo : List (Nat × Option V)) (next : Next) (hc : y.ctl = .emit todo next)
    (hreads : y.calls = Ports.reads y.toPorts n.kind.nin)
    (hlater : ∀ i, next.input = some i → ∀ j, i < j → y.taken j = [])
    (hputs : ∀ o < n.kind.nout, (y.put o).reduceOption ++ (streamOf todo o).reduceOption =
      n.kind.produced y.calls y.generated (next = .ret : Bool) o)
    (hsource : ∀ g, n.kind = .source (.generate g) → Generating g y.generated (next = .ret : Bool)) : Flow n y := by
  refine ⟨?_, fun i hi => hlater i ?_, fun o ho => ?_, fun g hg => ?_⟩
  · rw [hc, Ctl.emit_inHand, List.append_nil]
    exact hreads
  · rw [hc, Ctl.emit_input] at hi
    exact hi
  · rw [hc, Ctl.emit_todo, Ctl.emit_closing]
    exact hputs o ho
  · rw [hc, Ctl.emit_closing]
    exact hsource g hg

/-- A `Source` asks for its next value. -/
theorem Flow.generating (h : Inv n x) (hf : Flow n x) (hc : x.ctl = .generate) : Flow n x.internal := by
  obtain ⟨hg, -⟩ : n.kind.generates = true ∧ _ := by
    have hstand := h.standing
    rw [hc] at hstand
    exact hstand
  obtain ⟨g, hk⟩ := Kind.exists_generate hg
  have hx : x.internal = { x with
      generated := x.generated + 1
      ctl := .emit [(0, g x.generated)] (if (g x.generated).isSome then .generate else .ret) } := by
    simp [Proc.internal, hc, Proc.generating, h.kind.trans hk]
  have hreads : x.calls = Ports.reads x.toPorts n.kind.nin := by simpa [hc, Ctl.inHand] using hf.reads
  have hputs := hf.puts
  have hsource : ∀ k < x.generated, (g k).isSome = true := by
    have := hf.source g hk
    rw [hc] at this
    exact this
  rw [hc] at hputs
  rw [hx]
  refine flow_emit [(0, g x.generated)] (if (g x.generated).isSome then .generate else .ret) rfl hreads (fun i hi =>
    ?_) (fun o ho => ?_)
    (fun g' hg' => ?_)
  · split at hi <;> cases hi
  · have ho0 : o = 0 := by simpa [hk, Kind.nout] using ho
    subst ho0
    have hold : (x.put 0).reduceOption = (List.range x.generated).filterMap g := by
      simpa [hk, Kind.produced, Ctl.todo] using hputs 0 ho
    rw [streamOf_cons_self, streamOf_nil, hold, hk]
    simp only [Kind.produced, List.range_succ, List.filterMap_append]
    rfl
  · rw [hk] at hg'
    cases hg'
    cases hv : g x.generated with
    | some a =>
      intro k hk
      rcases Nat.lt_succ_iff_lt_or_eq.1 hk with hlt | rfl
      · exact hsource k hlt
      · rw [hv]
        rfl
    | none => exact ⟨x.generated, rfl, hv, hsource⟩

/-- A value is handled. -/
theorem Flow.handled (h : Inv n x) (hf : Flow n x) {i : Nat} {a : V} (hc : x.ctl = .handle i a) :
    Flow n x.internal := by
  have hx : x.internal = { x with
      calls := x.calls ++ [a]
      ctl := .emit ((x.obj.kind.onValue x.calls a).map (fun w => (w.1, some w.2))) (.pop i) } := by
    simp [Proc.internal, hc]
  have hi : i < n.kind.nin := by
    have hstand := h.standing
    rw [hc] at hstand
    exact hstand.1
  have hg : n.kind.generates = false := Kind.generates_of_nin (by omega)
  have hreads := hf.reads
  have hputs := hf.puts
  have hlater := hf.later
  rw [hc] at hreads hputs hlater
  rw [hx, h.kind]
  refine flow_emit _ _ rfl hreads hlater (fun o ho => ?_) (fun g hg' => ?_)
  · have hold := hputs o ho
    rw [Kind.produced_eq hg] at hold ⊢
    rw [streamOf_map, Kind.emitted_append, streamOf_append]
    simp only [Ctl.todo, Ctl.closing, streamOf_nil, List.reduceOption_nil, List.append_nil, Bool.false_eq_true,
      if_false, reduceCtorEq, decide_false] at hold ⊢
    rw [hold]
    simp [List.reduceOption]
  · rw [hg'] at hg
    cases hg

/-- An input is at its end. -/
theorem Flow.ended (h : Inv n x) (hf : Flow n x) {i : Nat} (hc : x.ctl = .eof i) : Flow n x.internal := by
  have hx : x.internal = x.ended i := by simp [Proc.internal, hc]
  have hi : i < n.kind.nin := by
    have hstand := h.standing
    rw [hc] at hstand
    exact hstand.1
  have hg : n.kind.generates = false := Kind.generates_of_nin (by omega)
  have hlater := hf.later i (by rw [hc]; rfl)
  have hreads := hf.reads
  have hputs := hf.puts
  rw [hc] at hreads hputs
  rw [hx]
  unfold Proc.ended
  rw [h.kind]
  split
  · refine ⟨hreads, fun j hj k hjk => ?_, hputs, fun g hg' => by rw [hg'] at hg; cases hg⟩
    cases hj
    exact hlater k (by omega)
  · refine flow_emit _ _ rfl (by simpa [Ctl.inHand] using hreads) (fun _ h => by cases h) (fun o ho => ?_)
      (fun g hg' => by rw [hg'] at hg; cases hg)
    have hold := hputs o ho
    rw [Kind.produced_eq hg] at hold ⊢
    simp only [Ctl.todo, Ctl.closing, streamOf_nil, List.reduceOption_nil, List.append_nil, Bool.false_eq_true,
      if_false, decide_true, if_true] at hold ⊢
    rw [hold]

/-- A step without a queue. -/
theorem Flow.internal (h : Inv n x) (hf : Flow n x) (hh : x.internal.ctl.hosted = false) : Flow n x.internal := by
  cases hc : x.ctl with
  | start =>
    have hx : x.internal = if x.obj.beforeWork then x.work else { x with ctl := .dead .aborted } := by
      simp [Proc.internal, hc]
    rw [hx] at hh ⊢
    split
    · rw [work_eq]
      cases x.obj.kind.generates
      · refine hf.congr ⟨rfl, rfl⟩ rfl rfl ?_ ?_ ?_ (fun i hi => ?_) <;> rw [hc]
        exacts [rfl, rfl, rfl, hi]
      · refine hf.congr ⟨rfl, rfl⟩ rfl rfl ?_ ?_ ?_ (fun _ h => by cases h) <;> rw [hc] <;> rfl
    · rename_i hb
      rw [if_neg hb] at hh
      cases hh
  | generate => exact hf.generating h hc
  | popCheck i v =>
    have hx : x.internal = x.checked false := by simp [Proc.internal, hc]
    rw [hx]
    exact hf.checked (Or.inl ⟨i, v, hc⟩)
  | handle i a => exact hf.handled h hc
  | eof i => exact hf.ended h hc
  | pushCheck rest next =>
    have hx : x.internal = x.checked false := by simp [Proc.internal, hc]
    rw [hx]
    exact hf.checked (Or.inr ⟨rest, next, hc⟩)
  | afterWork =>
    simp only [Proc.internal, hc] at hh ⊢
    split
    · rename_i hk
      rw [if_pos hk] at hh
      cases hh
    · refine hf.congr ⟨rfl, rfl⟩ rfl rfl ?_ ?_ ?_ (fun _ h => by cases h) <;> rw [hc] <;> rfl
  | pop i =>
    simp only [Proc.internal, hc] at hh
    cases hh
  | push o v rest next =>
    simp only [Proc.internal, hc] at hh
    cases hh
  | threw c =>
    simp only [Proc.internal, hc] at hh
    split at hh <;> cases hh
  | closeInput c i =>
    simp only [Proc.internal, hc] at hh
    split at hh <;> cases hh
  | closeOutput c o =>
    simp only [Proc.internal, hc] at hh
    split at hh <;> cases hh
  | finished c =>
    have hx : x.internal = x := by simp [Proc.internal, hc]
    rw [hx]
    exact hf
  | escaped =>
    have hx : x.internal = x := by simp [Proc.internal, hc]
    rw [hx]
    exact hf
  | dead d =>
    have hx : x.internal = x := by simp [Proc.internal, hc]
    rw [hx]
    exact hf

/-! ## Turns -/

/-- `hosted_mode` is left only at its end. -/
theorem Turn.hosted (ht : x.Turn y) (hh : x.ctl.hosted = true) : y.ctl.hosted = true := by
  cases ht with
  | @popped i q ha v =>
    obtain ⟨-, hc | ⟨c, hc, -⟩⟩ := action_pop ha
    · rw [hc] at hh
      cases hh
    · cases v <;> simp only [Proc.popped, hc]
      · split
        · rfl
        · split <;> rfl
      · rfl
  | @pushed o q v ha =>
    obtain ⟨-, ⟨rest, next, hc⟩ | ⟨hc, -, -, -⟩ | ⟨c, hc, -, rfl⟩⟩ := action_push ha
    · rw [hc] at hh
      cases hh
    · rw [hc] at hh
      cases hh
    · simp only [Proc.pushed, hc]
      rfl
  | checked ha token =>
    obtain ⟨-, ⟨i, v, hc⟩ | ⟨rest, next, hc⟩⟩ := action_tryPop ha <;> rw [hc] at hh <;> cases hh
  | notified ha =>
    obtain ⟨-, c, hc⟩ := action_tryPush ha
    simp only [Proc.notified, hc]
    rfl
  | internal ha =>
    cases hc : x.ctl with
    | threw c =>
      simp only [Proc.internal, hc]
      split <;> rfl
    | closeInput c i =>
      simp only [Proc.internal, hc]
      split <;> rfl
    | closeOutput c o =>
      simp only [Proc.internal, hc]
      split <;> rfl
    | finished c => simp [Proc.action, hc] at ha
    | escaped => simp [Proc.action, hc] at ha
    | dead d => simp [Proc.action, hc] at ha
    | _ => rw [hc] at hh; cases hh
  | throw hc => rfl

/-- A turn takes nothing from the inputs, or one element of an open one. -/
theorem Turn.taken (ht : x.Turn y) :
    y.taken = x.taken ∨ ∃ i q v, x.action = .pop i q ∧ y.taken = (x.toPorts.take i v).taken := by
  cases ht with
  | popped ha v => exact Or.inr ⟨_, _, v, ha, (popped_taken ha v).1⟩
  | pushed ha => exact Or.inl (pushed_put ha).2
  | checked ha token => exact Or.inl (congrArg Ports.taken (checked_toPorts x token))
  | notified ha => exact Or.inl (congrArg Ports.taken (notified_toPorts x))
  | internal ha => exact Or.inl (congrArg Ports.taken (internal_toPorts x))
  | throw hc => exact Or.inl rfl

/-- Who works after a turn worked before. -/
theorem Turn.not_hosted (ht : x.Turn y) (hh : y.ctl.hosted = false) : x.ctl.hosted = false := by
  rw [← Bool.not_eq_true]
  intro hx
  rw [ht.hosted hx] at hh
  cases hh

/-- Every turn keeps the flow, as long as no exception comes. -/
theorem Flow.turn (h : Inv n x) (hf : x.ctl.hosted = false → Flow n x) (ht : x.Turn y) (hh : y.ctl.hosted = false) :
    Flow n y := by
  have hx := ht.not_hosted hh
  have hf := hf hx
  cases ht with
  | @popped i q ha v =>
    obtain ⟨-, hc | ⟨c, hc, -⟩⟩ := action_pop ha
    · exact hf.popped h hc v hh
    · rw [hc] at hx
      cases hx
  | @pushed o q v ha =>
    obtain ⟨-, ⟨rest, next, hc⟩ | ⟨hc, -, -, rfl⟩ | ⟨c, hc, -, -⟩⟩ := action_push ha
    · exact hf.pushed hc
    · exact hf.pushed_afterWork hc o
    · rw [hc] at hx
      cases hx
  | checked ha token =>
    cases token with
    | true => cases hh
    | false => exact hf.checked (action_tryPop ha).2
  | notified ha =>
    obtain ⟨-, c, hc⟩ := action_tryPush ha
    rw [hc] at hx
    cases hx
  | internal ha => exact hf.internal h hh
  | throw hc => cases hh

/-- Every turn keeps the EOF discipline. -/
theorem Inv.turn (hr : n.Ready) (h : Inv n x) (ht : x.Turn y) : Inv n y := by
  cases ht with
  | popped ha v => exact h.popped ha v
  | pushed ha => exact h.pushed ha
  | checked ha token => exact h.checked (action_tryPop ha).2 token
  | notified ha =>
    obtain ⟨-, c, hc⟩ := action_tryPush ha
    exact h.notified hc
  | internal ha => exact h.internal hr ha
  | throw hc standard => exact h.throw hc standard

/-- It holds at the start. -/
theorem flow_start (p : Pipeline V) (n : Processor V) : Flow n (p.startProc n) := by
  refine ⟨?_, fun i _ j _ => rfl, fun o ho => ?_, fun g _ k hk => absurd hk (Nat.not_lt_zero k)⟩
  · simp [Ports.reads, Pipeline.startProc, Ctl.inHand]
  · cases hg : n.kind.generates with
    | false => simp [Kind.produced_eq hg, Pipeline.startProc, Ctl.todo, Ctl.closing, Kind.emitted, Kind.emittedFrom]
    | true =>
      obtain ⟨g, hk⟩ := Kind.exists_generate hg
      simp [hk, Kind.produced, Pipeline.startProc, Ctl.todo]

/-- A processor that finished without an exception has turned its inputs into its outputs. -/
theorem Flow.finished (hf : Flow n x) (hc : x.ctl = .finished none) :
    x.calls = Ports.reads x.toPorts n.kind.nin ∧ ∀ o < n.kind.nout, (x.put o).reduceOption =
    n.kind.output x.calls o := by
  refine ⟨by simpa [hc, Ctl.inHand] using hf.reads, fun o ho => ?_⟩
  have hputs := hf.puts o ho
  simp only [hc, Ctl.todo, Ctl.closing, streamOf_nil, List.reduceOption_nil, List.append_nil] at hputs
  rw [hputs]
  cases hg : n.kind.generates with
  | false =>
    rw [Kind.produced_eq hg, Kind.output_eq hg, if_pos rfl]
  | true =>
    obtain ⟨g, hk⟩ := Kind.exists_generate hg
    obtain ⟨m, hm, hnone, hsome⟩ : ∃ m, x.generated = m + 1 ∧ g m = none ∧ ∀ k < m, (g k).isSome = true := by
      have := hf.source g hk
      rw [hc] at this
      exact this
    rw [hk, hm]
    simp [Kind.produced, Kind.output, Kind.generated_eq hnone hsome, List.range_succ, hnone]

end Proc

/-! ## Runs -/

/-- In every state of a run, a processor that no exception stopped has made of its inputs what its class says. -/
theorem Network.flow {p : Pipeline V} {U : Finset Id} (hnet : Network p U) {pre : UserChannel → List (Option V)}
    {tokens : Nat} {s : State V} (hs : (p.start pre tokens).Reaches s) {u : Id} {n : Processor V} {x : Proc V}
    (hn : p.nodes.get u = some n) (hx : s.procs u = some x) (hh : x.ctl.hosted = false) : x.Flow n := by
  have hinv : Running p s ∧ ∀ u n x, p.nodes.get u = some n → s.procs u = some x → x.ctl.hosted = false → x.Flow n := by
    refine hs.induct (I := fun s => Running p s ∧ ∀ u n x, p.nodes.get u = some n → s.procs u = some x →
      x.ctl.hosted = false → x.Flow n)
      ⟨running_start p pre tokens, fun u n x hn hx _ => ?_⟩ (fun a b e hI _ hm => ⟨hI.1.moves hnet hm,
        fun u n y hn hy hh => ?_⟩)
    · simp only [Pipeline.start, hn, Option.map_some, Option.some.injEq] at hx
      exact hx ▸ Proc.flow_start p n
    · rcases hm.turn hy with hy | ⟨x, hx, ht⟩
      · exact hI.2 u n y hn hy hh
      · exact Proc.Flow.turn (hI.1.inv u n x hn hx) (hI.2 u n x hn hx) ht hh
  exact hinv.2 u n x hn hx hh

end Tunnel
