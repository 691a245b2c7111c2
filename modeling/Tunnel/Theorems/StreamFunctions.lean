import Tunnel.Lemmas.Flow
import Tunnel.Theorems.Eof

/-!
# The stream functions of the classes, under failures

A processor is followed through any sequence of turns: its queues give it any elements, the abort channel gives a token
at any check, and a callback throws at any call. While no exception came, `Proc.Flow` says what stands on the outputs.
In `hosted_mode` the values on the outputs stay as they are, and `close_input` only adds to what was taken, at its end:
the inputs are read in their order there too.
-/

namespace Tunnel

open Lib Relation

variable {V : Type}

namespace Kind

/-- The classes with outputs of their own: their callbacks keep no state, but for `Accumulate`, whose `generate` may use
all it consumed. -/
def Streams : Kind V → Prop
  | .sink _ => False
  | .transform (.accumulate _) => True
  | k => k.Pure

/-- An `Accumulate` pushes nothing before the end. -/
theorem emittedFrom_accumulate (g : List V → V) (before ins : List V) :
    (transform (.accumulate g)).emittedFrom before ins = [] := by
  induction ins generalizing before with
  | nil => rfl
  | cons v ins ih => exact ih (before ++ [v])

/-- What a class has made is what its stream function says. -/
theorem Streams.produced_eq {k : Kind V} (h : k.Streams) (ins : List V) (generated : Nat) (ended : Bool) {o : Nat}
    (ho : o < k.nout) :
    k.produced ins generated ended o = k.stream ins generated ended o := by
  have hpure : k.Pure → k.generates = false → k.produced ins generated ended o = k.stream ins generated ended o := by
    intro hp hg
    rw [Kind.produced_eq hg, hp.onEof_values, ite_self, List.append_nil, hp.streamOf_emitted hg ins generated ended ho]
  cases k with
  | source k =>
    cases k with
    | generate g => rfl
    | channel ch => exact absurd h id
  | transform k =>
    cases k with
    | accumulate g =>
      have ho0 : o = 0 := by simpa [nout] using ho
      subst ho0
      rw [Kind.produced_eq rfl, emitted, emittedFrom_accumulate]
      cases ended <;> rfl
    | _ => exact hpure h rfl
  | sink k => exact absurd h id
  | dispatch n pos d => exact hpure h rfl
  | fork n pos => exact hpure h rfl
  | concat n pos => exact hpure h rfl

/-- More values, and the end of the inputs, only add to what is made. -/
theorem produced_prefix (k : Kind V) {ins ins' : List V} (h : ins <+: ins') (generated : Nat) (ended : Bool) (o : Nat) :
    k.produced ins generated false o <+: k.produced ins' generated ended o := by
  cases hg : k.generates with
  | true =>
    obtain ⟨g, rfl⟩ := exists_generate hg
    exact List.prefix_refl _
  | false =>
    obtain ⟨l, hl⟩ := k.emitted_prefix h
    rw [Kind.produced_eq hg, Kind.produced_eq hg, ← hl, streamOf_append, List.append_assoc, if_neg Bool.false_ne_true,
      List.append_nil]
    exact List.prefix_append _ _

end Kind

/-- `work` has returned, and nothing is left to do for it. -/
theorem Ctl.of_returned {c : Ctl V} (hc : c = .afterWork ∨ c = .finished none) :
    c.hosted = false ∧ c.closing = true ∧ c.todo = [] := by
  rcases hc with rfl | rfl <;> exact ⟨rfl, rfl, rfl⟩

namespace Proc

variable {n : Processor V} {x y : Proc V}

/-- Every input has given its last EOF. -/
def allEnded (n : Processor V) (x : Proc V) : Bool := decide (∀ i < n.kind.nin, eofs (x.taken i) = n.need)

/-! ## Inputs are read in their order -/

/-- Nothing was taken from an input as long as one before it is not at its end. -/
def ReadsInOrder (n : Processor V) (x : Proc V) : Prop :=
  ∀ i < n.kind.nin, eofs (x.taken i) < n.need → ∀ j, i < j → x.taken j = []

/-- A processor pops an input after those before it, in `work` and in `hosted_mode`. -/
theorem Inv.pop_before (h : Inv n x) {i : Nat} {q : Queue} (ha : x.action = .pop i q) {j : Nat} (hj : j < i) :
    eofs (x.taken j) = n.need := by
  have hi := (h.pop_port ha).1
  have hstand := h.standing
  obtain ⟨-, hc | ⟨c, hc, -⟩⟩ := action_pop ha
  · rw [hc] at hstand
    exact (hstand.2.1.shut j (by omega) hj).eq
  · rw [hc] at hstand
    exact hstand.1 j (by omega) hj

theorem eofs_take_le (x : Ports V) (i j : Nat) (v : Option V) : eofs (x.taken j) ≤ eofs ((x.take i v).taken j) := by
  by_cases hji : j = i
  · subst hji
    simp [Ports.take, eofs_append]
  · rw [x.taken_take_ne v hji]

theorem ReadsInOrder.turn (h : Inv n x) (ho : ReadsInOrder n x) (ht : x.Turn y) : ReadsInOrder n y := by
  rcases ht.taken with heq | ⟨i, q, v, ha, heq⟩
  · unfold ReadsInOrder
    rw [heq]
    exact ho
  · intro j hj hlt k hjk
    rw [heq] at hlt ⊢
    have hold := Nat.lt_of_le_of_lt (eofs_take_le x.toPorts i j v) hlt
    have hki : k ≠ i := by
      rintro rfl
      exact absurd (h.pop_before ha hjk) (Nat.ne_of_lt hold)
    rw [x.toPorts.taken_take_ne v hki]
    exact ho j hj hold k hjk

/-- What a turn takes comes behind all that was taken before. -/
theorem Turn.reads (h : Inv n x) (ho : ReadsInOrder n x) (ht : x.Turn y) :
    Ports.reads x.toPorts n.kind.nin <+: Ports.reads y.toPorts n.kind.nin := by
  rcases ht.taken with heq | ⟨i, q, v, ha, heq⟩
  · have hreads : Ports.reads y.toPorts n.kind.nin = Ports.reads x.toPorts n.kind.nin := by simp only [Ports.reads, heq]
    rw [hreads]
  · obtain ⟨hi, hopen, -⟩ := h.pop_port ha
    have hreads : Ports.reads y.toPorts n.kind.nin = Ports.reads (x.toPorts.take i v) n.kind.nin := by
      simp only [Ports.reads, heq]
    rw [hreads, reads_take x.toPorts hi (ho i hi hopen.lt) v]
    exact List.prefix_append _ _

/-- Inputs that are at their end stay as they are. -/
theorem Turn.taken_ended (h : Inv n x) (ht : x.Turn y) (hall : ∀ i < n.kind.nin, eofs (x.taken i) = n.need) :
    y.taken = x.taken := by
  rcases ht.taken with heq | ⟨i, q, v, ha, -⟩
  · exact heq
  · obtain ⟨hi, hopen, -⟩ := h.pop_port ha
    exact absurd (hall i hi) (Nat.ne_of_lt hopen.lt)

/-! ## What stands on the outputs -/

/-- The values on the outputs are a beginning of what the class makes of the values it handled. `closed` tells whether
it got to what it pushes at the end; nothing is taken from the inputs after that. -/
structure Held (n : Processor V) (x : Proc V) (closed : Bool) : Prop where
  calls : x.calls <+: Ports.reads x.toPorts n.kind.nin
  puts : ∀ o < n.kind.nout, (x.put o).reduceOption <+: n.kind.produced x.calls x.generated closed o
  ended : closed = true → x.calls = Ports.reads x.toPorts n.kind.nin ∧ ∀ i < n.kind.nin, eofs (x.taken i) = n.need

/-- At its end `work` holds no value, and its inputs are at their end. -/
theorem Inv.closing (h : Inv n x) (hc : x.ctl.closing = true) :
    x.ctl.inHand = [] ∧ ∀ i < n.kind.nin, eofs (x.taken i) = n.need := by
  have hstand := h.standing
  cases hctl : x.ctl with
  | push o v rest next =>
    rw [hctl] at hc hstand
    obtain rfl : next = .ret := of_decide_eq_true hc
    exact ⟨rfl, fun i hi => (hstand.2.1.shut i hi hi).eq⟩
  | pushCheck rest next =>
    rw [hctl] at hc hstand
    obtain rfl : next = .ret := of_decide_eq_true hc
    exact ⟨rfl, fun i hi => (hstand.2.1.shut i hi hi).eq⟩
  | afterWork =>
    rw [hctl] at hstand
    exact ⟨rfl, fun i hi => (hstand.1.shut i hi hi).eq⟩
  | finished c =>
    rw [hctl] at hstand
    exact ⟨rfl, hstand.1⟩
  | _ =>
    rw [hctl] at hc
    cases hc

theorem Flow.held (h : Inv n x) (hf : Flow n x) : Held n x x.ctl.closing := by
  refine ⟨?_, fun o ho => ?_, fun hc => ?_⟩
  · rw [← hf.reads]
    exact List.prefix_append _ _
  · rw [← hf.puts o ho]
    exact List.prefix_append _ _
  · obtain ⟨hhand, hall⟩ := h.closing hc
    have hreads := hf.reads
    rw [hhand, List.append_nil] at hreads
    exact ⟨hreads, hall⟩

/-- A popped element is not handled yet. -/
theorem popped_calls (x : Proc V) (i : Nat) (v : Option V) :
    (x.popped i v).calls = x.calls ∧ (x.popped i v).generated = x.generated := by
  unfold popped
  split
  · exact ⟨rfl, rfl⟩
  · split
    · exact ⟨rfl, rfl⟩
    · split <;> exact ⟨rfl, rfl⟩
  · exact ⟨rfl, rfl⟩
  · split
    · exact ⟨rfl, rfl⟩
    · split <;> exact ⟨rfl, rfl⟩
  · exact ⟨rfl, rfl⟩

/-- A step without a queue that ends in an exception, or comes after one, calls nothing. -/
theorem internal_calls (hh : x.internal.ctl.hosted = true) :
    x.internal.calls = x.calls ∧ x.internal.generated = x.generated := by
  cases hc : x.ctl with
  | start =>
    simp only [internal, hc, work_eq]
    split <;> exact ⟨rfl, rfl⟩
  | generate =>
    simp only [internal, hc, generating] at hh ⊢
    split
    · rename_i g hk
      simp only [hk, Ctl.emit_hosted] at hh
      cases hh
    · exact ⟨rfl, rfl⟩
  | handle i a =>
    simp only [internal, hc, Ctl.emit_hosted] at hh
    cases hh
  | eof i =>
    simp only [internal, hc, ended]
    split <;> exact ⟨rfl, rfl⟩
  | popCheck i v =>
    cases v <;> simp [internal, checked, hc]
  | afterWork =>
    simp only [internal, hc]
    split <;> exact ⟨rfl, rfl⟩
  | _ => simp [internal, checked, hc]

/-- After an exception no callback is called, and an EOF is all that goes to an output. -/
theorem Turn.hosted_frame (ht : x.Turn y) (hh : y.ctl.hosted = true) :
    (y.calls = x.calls ∧ y.generated = x.generated) ∧ ∀ o, (y.put o).reduceOption = (x.put o).reduceOption := by
  cases ht with
  | popped ha v =>
    rw [(popped_taken ha v).2]
    exact ⟨popped_calls x _ v, fun _ => rfl⟩
  | @pushed o q v ha =>
    obtain ⟨-, ⟨rest, next, hc⟩ | ⟨hc, -, -, -⟩ | ⟨c, hc, -, rfl⟩⟩ := action_push ha
    · cases v <;> simp only [Proc.pushed, hc] at hh <;> cases hh
    · simp only [Proc.pushed, hc] at hh
      cases hh
    · rw [(pushed_put ha).1]
      simp only [Proc.pushed, hc]
      refine ⟨⟨rfl, rfl⟩, fun k => ?_⟩
      by_cases hk : k = o
      · subst hk
        rw [x.toPorts.put_give, List.reduceOption_append]
        exact List.append_nil _
      · rw [x.toPorts.put_give_ne none hk]
  | checked ha token =>
    obtain ⟨-, ⟨i, v, hc⟩ | ⟨rest, next, hc⟩⟩ := action_tryPop ha
    · cases v <;> cases token <;> simp [Proc.checked, hc]
    · cases token <;> simp [Proc.checked, hc]
  | notified ha =>
    obtain ⟨-, c, hc⟩ := action_tryPush ha
    simp [Proc.notified, hc]
  | internal ha => exact ⟨internal_calls hh, fun o => by rw [internal_toPorts]⟩
  | throw hc => exact ⟨⟨rfl, rfl⟩, fun _ => rfl⟩

/-- A turn into `hosted_mode`, or in it, leaves the values on the outputs as they are. -/
theorem Held.hosted (h : Inv n x) (ho : ReadsInOrder n x) {closed : Bool} (hd : Held n x closed) (ht : x.Turn y)
    (hh : y.ctl.hosted = true) :
    Held n y closed := by
  obtain ⟨⟨hcalls, hgen⟩, hput⟩ := ht.hosted_frame hh
  refine ⟨?_, fun o hlt => ?_, fun hc => ?_⟩
  · rw [hcalls]
    exact hd.calls.trans (ht.reads h ho)
  · rw [hput, hcalls, hgen]
    exact hd.puts o hlt
  · obtain ⟨hreads, hall⟩ := hd.ended hc
    have htaken := ht.taken_ended h hall
    rw [htaken, hcalls, hreads]
    exact ⟨by simp only [Ports.reads, htaken], hall⟩

/-- What every turn keeps. -/
structure Tracked (n : Processor V) (x : Proc V) : Prop where
  inv : Inv n x
  order : ReadsInOrder n x
  flow : x.ctl.hosted = false → Flow n x
  held : ∃ closed, Held n x closed

theorem Tracked.turn (hr : n.Ready) (h : Tracked n x) (ht : x.Turn y) : Tracked n y := by
  have hinv := h.inv.turn hr ht
  have hflow : y.ctl.hosted = false → Flow n y := Flow.turn h.inv h.flow ht
  refine ⟨hinv, h.order.turn h.inv ht, hflow, ?_⟩
  cases hh : y.ctl.hosted with
  | false => exact ⟨_, (hflow hh).held hinv⟩
  | true =>
    obtain ⟨closed, hd⟩ := h.held
    exact ⟨closed, hd.hosted h.inv h.order ht hh⟩

theorem tracked_start (p : Pipeline V) (n : Processor V) : Tracked n (p.startProc n) :=
  ⟨inv_start p n, fun _ _ _ _ _ => rfl, fun _ => flow_start p n, _, (flow_start p n).held (inv_start p n)⟩

theorem Tracked.turns (hr : n.Ready) {p : Pipeline V} (hx : ReflTransGen Turn (p.startProc n) x) : Tracked n x := by
  induction hx with
  | refl => exact tracked_start p n
  | tail _ ht ih => exact ih.turn hr ht

/-- Whatever of the values taken counts as obtained, from those handled to all of them, the outputs hold a beginning of
what the class makes of it. -/
theorem Held.puts_prefix {closed : Bool} (hd : Held n x closed) (hk : n.kind.Streams) {o : Nat} (ho : o < n.kind.nout)
    {ins : List V} (hcalls : x.calls <+: ins) (hins : ins <+: Ports.reads x.toPorts n.kind.nin) :
    (x.put o).reduceOption <+: n.kind.stream ins x.generated (x.allEnded n) o := by
  rw [← hk.produced_eq ins x.generated (x.allEnded n) ho]
  cases closed with
  | false => exact (hd.puts o ho).trans (n.kind.produced_prefix hcalls _ _ o)
  | true =>
    obtain ⟨hreads, hall⟩ := hd.ended rfl
    have heq : ins = x.calls := (hreads ▸ hins).eq_of_length_le hcalls.length_le
    rw [heq, show x.allEnded n = true from decide_eq_true hall]
    exact hd.puts o ho

/-- When `work` has returned, an output holds what the class makes of its inputs, and one EOF. -/
theorem Tracked.returned (h : Tracked n x) (hk : n.kind.Streams) (hc : x.ctl = .afterWork ∨ x.ctl = .finished none)
    {o : Nat} (ho : o < n.kind.nout) :
    x.put o = (n.kind.stream (Ports.reads x.toPorts n.kind.nin) x.generated true o).map some ++ [none] := by
  obtain ⟨hhosted, hclosing, htodo⟩ := Ctl.of_returned hc
  have hflow := h.flow hhosted
  have hended : Ended (x.put o) := by
    have hstand := h.inv.standing
    rcases hc with hc | hc <;> rw [hc] at hstand
    · have hsink : n.kind.isSink = false := by
        cases hkind : n.kind with
        | sink k => rw [hkind] at hk; exact absurd hk id
        | _ => rfl
      have hshut := hstand.2
      rw [hsink] at hshut
      exact (hshut o ho).ended
    · exact hstand.2 o ho
  obtain ⟨vs, hvs⟩ := hended
  have hputs := hflow.puts o ho
  rw [hclosing, htodo, streamOf_nil, List.reduceOption_nil, List.append_nil, hk.produced_eq _ _ _ ho,
    ((hflow.held h.inv).ended hclosing).1] at hputs
  rw [← hputs, hvs]
  simp [List.reduceOption]

end Proc

/-- Every processor of a run has come to where it stands by turns. -/
theorem State.Reaches.turns {p : Pipeline V} {pre : UserChannel → List (Option V)} {tokens : Nat} {s : State V}
    (hs : (p.start pre tokens).Reaches s) {u : Id} {n : Processor V} {x : Proc V} (hn : p.nodes.get u = some n)
    (hx : s.procs u = some x) : ReflTransGen Proc.Turn (p.startProc n) x := by
  have hall : ∀ x, s.procs u = some x → ReflTransGen Proc.Turn (p.startProc n) x := by
    refine hs.induct (I := fun s => ∀ x, s.procs u = some x → ReflTransGen Proc.Turn (p.startProc n) x) (fun x hx => ?_)
      (fun a b e ih _ hm y hy => ?_)
    · simp only [Pipeline.start, hn, Option.map_some, Option.some.injEq] at hx
      rw [hx]
    · rcases hm.turn hy with hy | ⟨x, hx, ht⟩
      · exact ih y hy
      · exact (ih x hx).tail ht
  exact hall x hx

/-- Each class computes its stream function, and a failure leaves a beginning of it on the outputs. The processor goes
through any turns: its inputs give any elements, a callback throws at any call, and the abort channel gives a token at
any check. At every moment the values on an output are a beginning of what the class makes of the values obtained so
far, be these the ones `work` handled, or all that were taken off the inputs. Once `work` has returned, the inputs are
at their end, and an output holds all of it and one EOF. -/
theorem stream_functions {p : Pipeline V} {n : Processor V} (hr : n.Ready) (hk : n.kind.Streams) {x : Proc V}
    (hx : ReflTransGen Proc.Turn (p.startProc n) x) :
    x.calls <+: Ports.reads x.toPorts n.kind.nin ∧
    (∀ o < n.kind.nout, ∀ ins, x.calls <+: ins → ins <+: Ports.reads x.toPorts n.kind.nin →
      (x.put o).reduceOption <+: n.kind.stream ins x.generated (x.allEnded n) o) ∧
    (x.ctl = .afterWork ∨ x.ctl = .finished none →
      (∀ i < n.kind.nin, eofs (x.taken i) = n.need) ∧
      (∀ g, n.kind = .source (.generate g) → Generating g x.generated true) ∧
      ∀ o < n.kind.nout, x.put o = (n.kind.stream (Ports.reads x.toPorts n.kind.nin) x.generated true o).map some ++
      [none]) := by
  have h := Proc.Tracked.turns hr hx
  obtain ⟨closed, hd⟩ := h.held
  refine ⟨hd.calls, fun o ho ins hcalls hins => hd.puts_prefix hk ho hcalls hins,
    fun hc => ⟨?_, fun g hg => ?_, fun o ho => h.returned hk hc ho⟩⟩
  · exact (h.inv.closing (Ctl.of_returned hc).2.1).2
  · have hsource := (h.flow (Ctl.of_returned hc).1).source g hg
    rwa [(Ctl.of_returned hc).2.1] at hsource

/-- A source of three values, a filter that removes the odd ones and a sink. -/
def removingOdds : Pipeline Nat × Finset Id :=
  Pipeline.ofCalls Call.Proper { channelSize := 4 } [.addSource 1 "source" (.generate (fun k => if k < 3 then some k
    else none)), .addTransform 1 2 "filter" (.filter (fun _ v => v % 2 = 1)),
    .setSink 3 "sink" .consume ⟨[2], by decide⟩]

/-- The filter at its end. -/
theorem stream_functions_filter : ∃ (n : Processor Nat) (x : Proc Nat), n.Ready ∧ n.kind.Streams ∧
    ReflTransGen Proc.Turn (removingOdds.1.startProc n) x ∧ x.ctl = .finished none ∧
    Ports.reads x.toPorts n.kind.nin = [0, 1, 2] ∧ x.put 0 = [some 0, some 2, none] := by
  have hb : Built Call.Proper removingOdds.1 _ := built_ofCalls _ _ _
  have hs := State.Reaches.of_runAll (s := removingOdds.1.start (fun _ => []) 0)
    ((List.replicate 14 1 ++ List.replicate 19 2).map .run) rfl
  have hr := (built_network hb rfl).ready (u := 2) rfl
  have hk : (Kind.transform (.filter (fun (_ : List Nat) (v : Nat) => decide (v % 2 = 1)))).Streams := fun _ _ => rfl
  have hx := hs.turns (u := 2) rfl rfl
  exact ⟨_, _, hr, hk, hx, rfl, rfl, ((stream_functions hr hk hx).2.2 (Or.inr rfl)).2.2 0 (by decide)⟩

end Tunnel
