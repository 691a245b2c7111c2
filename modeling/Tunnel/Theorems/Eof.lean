import Tunnel.Lib.Simulation
import Tunnel.Lemmas.Steps

/-!
# The EOF discipline of whole runs

In every run of a pipeline that proper builder calls completed, whatever the interleaving, wherever a callback throws
and whenever a token comes from the abort channel: each output gets its EOF once and last, each input is read to its
last EOF, and the coroutines trip over nothing.
-/

namespace Tunnel

open Lib

variable {V : Type}

/-- How many write to a queue: outputs of processors, and on a channel of the user's those outside the pipeline. -/
def Pipeline.writerCount (p : Pipeline V) (outside : UserChannel → Nat) (q : Queue) : Nat :=
  match q with
  | .link v i c => (p.writers (.link v i c)).card
  | .user ch => (p.writers (.user ch)).card + outside ch

theorem Pipeline.writerCount_link (p : Pipeline V) (outside : UserChannel → Nat) {q : Queue} (h : q.isLink = true) :
    p.writerCount outside q = (p.writers q).card := by
  cases q with
  | link v i c => rfl
  | user ch => cases h

/-- The EOF discipline, with or without an abort channel. At every moment of a run an output of a processor has got
values only, or values and then one EOF, and these are what the queue has from that port. When the processor has
finished, each output has got its EOF and each input has given as many EOFs as its queue has writers, except for the
channel of a `ChannelSource`, which has given one, however many write to it. With an abort channel no processor is left
before it has finished. No `assert` fails, and `GetQueue()` is never called on a null channel. -/
theorem eof_discipline {p : Pipeline V} {U : Finset Id} (hb : Built Call.Proper p U) (hrun : p.runChecks true = .ok ())
    {pre : UserChannel → List (Option V)} {tokens : Nat} {s : State V}
    (hs : (p.start pre tokens).Reaches s) {u : Id} {n : Processor V} (hn : p.nodes.get u = some n)
    (outside : UserChannel → Nat) :
    ∃ x, s.procs u = some x ∧
      (∀ o q, n.outChan o = some q → (s.queues q).putBy (.port u o) = x.put o ∧ (Values (x.put o) ∨ Ended (x.put o))) ∧
      (∀ i q, n.inChan i = some q → q.isLink = true → (s.queues q).taken = x.taken i) ∧
      (x.ctl.isFinished = true → (∀ o < n.kind.nout, Ended (x.put o)) ∧
        (∀ i < n.kind.nin, ∃ q, n.inChan i = some q ∧
          (eofs (x.taken i) = if n.kind.isChannelSource then 1 else (p.writers q).card) ∧
          (eofs (x.taken i) = p.writerCount outside q ↔
            (n.kind.isChannelSource = true → p.writerCount outside q = 1)))) ∧
      (p.option.bindAbortChannel = true → x.ctl ≠ .escaped) ∧
      x.ctl ≠ .dead .assertFailed ∧ x.ctl ≠ .dead .nullChannel := by
  have hnet := built_network hb (Pipeline.runChecks_ok hrun).1
  have hR := hnet.running hs
  obtain ⟨x, hx, hinv⟩ := hR.proc hn
  have hshaped := hnet.wired.shaped u n hn
  refine ⟨x, hx, fun o q ho => ⟨hR.put u n x o q hn hx ho, hinv.values_or_ended (hshaped.out_lt o q ho)⟩,
    fun i q hi hq => hR.taken u n x i q hn hx hi hq, fun hf => ?_, fun hbound hc => ?_, hinv.not_faulty⟩
  swap
  · rw [((hnet.lives hs).escaped u x hx hc).1] at hbound
    cases hbound
  obtain ⟨hins, houts⟩ := hinv.finished hf
  refine ⟨houts, fun i hi => ?_⟩
  have hb : n.beforeWork = true := hinv.beforeWork (fun hc => by simp [hc, Ctl.isFinished] at hf)
    (fun d hc => by simp [hc, Ctl.isFinished] at hf)
  obtain ⟨q, hq⟩ := Option.isSome_iff_exists.1 ((hnet.ready hn).in_bound hb i hi)
  refine ⟨q, hq, ?_⟩
  cases hk : n.kind.isChannelSource with
  | true =>
    have hm : n.kind.isMultiIn = false := by
      cases hkind : n.kind <;> simp_all [Kind.isChannelSource, Kind.isMultiIn]
    have hone : eofs (x.taken i) = 1 := by
      rw [hins i hi]
      simp [Processor.need, hm, hshaped.channel_count hk]
    refine ⟨hone, ?_⟩
    rw [hone]
    exact ⟨fun h _ => h.symm, fun h => (h rfl).symm⟩
  | false =>
    have hlink : q.isLink = true := by
      rw [hshaped.in_link i q hq, hk]
      rfl
    have hall : eofs (x.taken i) = (p.writers q).card := (hins i hi).trans (hnet.wired.count u n i q hn hq hlink).symm
    exact ⟨hall, ⟨fun _ h => (by cases h), fun _ => hall.trans (p.writerCount_link outside hlink).symm⟩⟩

theorem State.Reaches.of_runAll (es : List (Event V)) {s s' : State V} (h : s.runAll es = some s') : s.Reaches s' :=
  reaches_of_run State.runAll (fun _ => rfl) (fun _ _ _ => rfl) es h

/-- A run along a list of allowed steps. -/
theorem State.ReachesBy.of_runAll {allowed : Event V → Prop} (es : List (Event V)) {s s' : State V}
    (h : s.runAll es = some s') (hes : ∀ e ∈ es, allowed e) : s.ReachesBy allowed s' := by
  induction es generalizing s with
  | nil =>
    cases h
    exact .refl
  | cons e es ih =>
    obtain ⟨t, ht, h⟩ := Option.bind_eq_some_iff.1 h
    exact .head ⟨e, hes e List.mem_cons_self, ht⟩ (ih h (fun e he => hes e (List.mem_cons_of_mem _ he)))

/-- A source that throws what is no `std::exception` at once, before a sink: both finish, the source in hosted mode. -/
theorem eof_discipline_throw :
    ∃ (p : Pipeline Nat) (U : Finset Id) (s : State Nat)
    (x : Proc Nat), Built Call.Proper p U ∧ p.runChecks true = .ok () ∧
      p.option.bindAbortChannel = true ∧ (p.start (fun _ => []) 0).Reaches s ∧ s.procs 1 = some x ∧
      x.ctl = .finished (some (.callback false)) ∧ Ended (x.put 0) := by
  have hb := built_ofCalls (V := Nat) Call.Proper { bindAbortChannel := true }
    [.addSource 1 "source" (.generate (fun _ => none)), .setSink 2 "sink" .consume ⟨[1], by decide⟩]
  have hs := State.Reaches.of_runAll (s :=
    Pipeline.start (Pipeline.ofCalls (V := Nat) Call.Proper { bindAbortChannel := true }
    [.addSource 1 "source" (.generate (fun _ => none)), .setSink 2 "sink" .consume ⟨[1], by decide⟩]).1 (fun _ => []) 0)
    [.run 1, .throw 1 false, .run 1, .run 1, .run 1, .run 1] rfl
  obtain ⟨x, hx, -, -, hfin, -⟩ := eof_discipline hb rfl hs (u := 1) rfl (fun _ => 0)
  cases hx
  exact ⟨_, _, _, _, hb, rfl, rfl, hs, rfl, rfl, (hfin rfl).1 0 (by decide)⟩

/-! ## Two writers of the channel of a `ChannelSource` -/

/-- Two sources, each before a `ChannelSink` on the channel that a `ChannelSource` of the same pipeline reads. -/
def loopback : Pipeline Nat × Finset Id :=
  Pipeline.ofCalls Call.Proper { bindAbortChannel := true }
    [.addSource 1 "left" (.generate (fun _ => none)), .setSink 2 "first" (.channel (some ⟨0, 2⟩)) (.single 1),
      .addSource 3 "right" (.generate (fun k => if k = 0 then some 7 else none)),
      .setSink 4 "second" (.channel (some ⟨0, 2⟩)) (.single 3),
      .addSource 5 "back" (.channel (some ⟨0, 2⟩)), .setSink 6 "sink" .consume (.single 5)]

/-- The first `ChannelSink` writes its EOF, and the `ChannelSource` finishes on it, before the second has written its
value. -/
theorem loopback_ends_early :
    ∃ (s : State Nat) (x : Proc Nat) (n : Processor Nat) (q : Queue), Built Call.Proper loopback.1 loopback.2 ∧
      loopback.1.runChecks true = .ok () ∧ loopback.1.option.bindAbortChannel = true ∧
      (loopback.1.start (fun _ => []) 0).Reaches s ∧ loopback.1.nodes.get 5 = some n ∧ s.procs 5 = some x ∧
      x.ctl = .finished none ∧ n.inChan 0 = some q ∧ (loopback.1.writers q).card = 2 ∧ eofs (x.taken 0) = 1 := by
  have hs := State.Reaches.of_runAll (s := loopback.1.start (fun _ => []) 0)
    ((List.replicate 5 1 ++ List.replicate 4 2 ++ List.replicate 6 5).map .run) rfl
  exact ⟨_, _, _, .user ⟨0, 2⟩, built_ofCalls _ _ _, rfl, rfl, hs, rfl, rfl, rfl, rfl, by decide, rfl⟩

end Tunnel
