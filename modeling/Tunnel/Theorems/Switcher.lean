import Tunnel.Lemmas.Books

/-!
# What the switcher delivers

As long as no `Serialize` of a value throws, the values that the switcher writes to pops are those of pushes on the same
topic, one for each push and each pop, and a push is answered after its value was written (`switcher_delivery`). A
`Serialize` that throws leaves a request behind without its data, and the next request of the client is delivered in its
place (`request_delivered`).
-/

namespace Tunnel

open Lib

namespace Switcher

/-! ## Books of all connections -/

section

variable {address : Conn → Bytes} {s : State}

/-- The books of every connection are in order. -/
theorem State.ReachableBy.books (h : s.ReachableBy address (fun e => e.serializes = true)) :
    ∃ site, Filed s site ∧ (∀ c, Link (s.sessions c) (site c).stage) ∧ s.fault = false ∧
    ∀ c, Books (s.sessions c) (site c).stage (s.takenFrom c) (s.givenTo c) (s.ackedTo c) := by
  refine State.ReachableBy.located (P := fun s site =>
    ∀ c, Books (s.sessions c) (site c).stage (s.takenFrom c) (s.givenTo c) (s.ackedTo c))
    (fun _ => Books.init) ?_ h
  intro s site s' site' hfiled hlink hfollows hbooks c
  obtain ⟨lab, hlogs, hhops⟩ := hfollows.hops
  rw [hlogs.taken, hlogs.given, hlogs.acked]
  exact (hbooks c).hop (hlink c) (hhops c)

/-! ## Deliveries -/

/-- What is settled was called for. -/
theorem Settled.of_mem {β : Type} {f : Call → Option β} {waits : Stage → Bool} {x : Session} {st : Stage}
    {l : List (Nat × β)} (h : Settled f waits x st l) {i : Nat} {b : β} (hi : (i, b) ∈ l) :
    ∃ k, x.calls[i]? = some k ∧ f k = some b := by
  obtain ⟨n, -, rfl, -⟩ := h
  obtain ⟨k, hk, hf⟩ := mem_numbered.1 hi
  refine ⟨k, ?_, hf⟩
  rw [List.getElem?_take] at hk
  split at hk
  · exact hk
  · nomatch hk

/-- Calls are settled in their order. -/
theorem Settled.pairwise {β : Type} {f : Call → Option β} {waits : Stage → Bool} {x : Session} {st : Stage}
    {l : List (Nat × β)} (h : Settled f waits x st l) : l.Pairwise (fun a b => a.1 < b.1) := by
  obtain ⟨n, -, rfl, -⟩ := h
  exact numbered_pairwise f _

/-- Who pushed what. -/
theorem Call.pushed_eq_some {k : Call} {t : Topic} {d : DataPackage} (h : k.pushed = some (t, d)) :
    ∃ v, k = .push t v ∧ d = dataPackage v := by
  cases k with
  | push t' v =>
    cases h
    exact ⟨v, rfl, rfl⟩
  | _ => nomatch h

/-- Who popped. -/
theorem Call.popped_eq_some {k : Call} {t : Topic} (h : k.popped = some t) : k = .pop t := by
  cases k with
  | pop t' =>
    cases h
    rfl
  | _ => nomatch h

/-- A value that was written is that of a push on its topic, for a pop on its topic. -/
theorem State.ReachableBy.delivery (h : s.ReachableBy address (fun e => e.serializes = true)) {e : Delivery}
    (he : e ∈ s.delivered) :
    (∃ v, (s.sessions e.push).calls[e.pushCall]? = some (.push e.topic v) ∧ e.data = dataPackage v) ∧
    (s.sessions e.pop).calls[e.popCall]? = some (.pop e.topic) := by
  obtain ⟨site, -, -, -, hbooks⟩ := h.books
  constructor
  · have hmem : (e.pushCall, e.topic, e.data) ∈ s.takenFrom e.push :=
      List.mem_map.2 ⟨e, List.mem_filter.2 ⟨he, by simp⟩, rfl⟩
    obtain ⟨k, hk, hpushed⟩ := (hbooks e.push).pushes.of_mem hmem
    obtain ⟨v, rfl, hv⟩ := Call.pushed_eq_some hpushed
    exact ⟨v, hk, hv⟩
  · have hmem : (e.popCall, e.topic) ∈ (s.givenTo e.pop).map asked :=
      List.mem_map.2 ⟨(e.popCall, e.topic, e.data), List.mem_map.2 ⟨e, List.mem_filter.2 ⟨he, by simp⟩, rfl⟩, rfl⟩
    obtain ⟨k, hk, hpopped⟩ := (hbooks e.pop).pops.of_mem hmem
    rw [Call.popped_eq_some hpopped] at hk
    exact hk

/-- No call is delivered twice. -/
theorem State.ReachableBy.nodup (h : s.ReachableBy address (fun e => e.serializes = true)) :
    (s.delivered.map (fun e => (e.push, e.pushCall))).Nodup ∧
    (s.delivered.map (fun e => (e.pop, e.popCall))).Nodup := by
  obtain ⟨site, -, -, -, hbooks⟩ := h.books
  constructor
  · refine nodup_of_filter Delivery.push Delivery.pushCall (fun c => ?_)
    have hpair := (hbooks c).pushes.pairwise
    rw [State.takenFrom, List.pairwise_map] at hpair
    exact hpair
  · refine nodup_of_filter Delivery.pop Delivery.popCall (fun c => ?_)
    have hpair := (hbooks c).pops.pairwise
    rw [State.givenTo, List.pairwise_map, List.pairwise_map] at hpair
    exact hpair

/-- What is acknowledged was delivered. -/
theorem State.ReachableBy.acked (h : s.ReachableBy address (fun e => e.serializes = true)) {a : Conn × Nat}
    (ha : a ∈ s.acked) : ∃ e ∈ s.delivered, (e.push, e.pushCall) = a := by
  obtain ⟨site, -, -, -, hbooks⟩ := h.books
  have hmem : a.2 ∈ s.ackedTo a.1 := List.mem_map.2 ⟨a, List.mem_filter.2 ⟨ha, by simp⟩, rfl⟩
  obtain ⟨x, hx, hn⟩ := (hbooks a.1).acks a.2 hmem
  obtain ⟨e, he, rfl⟩ := List.mem_map.1 hx
  obtain ⟨he, hpush⟩ := List.mem_filter.1 he
  exact ⟨e, he, Prod.ext (by simpa using hpush) hn⟩

/-! ### One push client and one pop client -/

/-- The values of the pushes on a topic. -/
def pushedOn (t : Topic) (calls : List Call) : List (Option Bytes) :=
  calls.filterMap (fun
    | .push t' v => if t' = t then some v else none
    | _ => none)

/-- The values that the pops on a topic returned. -/
def poppedOn (t : Topic) (returns : List Return) : List (Option Bytes) :=
  returns.filterMap (fun
    | .popped t' v => if t' = t then some v else none
    | _ => none)

/-- A value in its package. -/
theorem valueOf_dataPackage (v : Option Bytes) : valueOf (dataPackage v) = v := by
  cases v <;> rfl

/-- The values written on a topic. -/
def State.deliveredOn (s : State) (t : Topic) : List (Option Bytes) :=
  (s.delivered.filter (fun e => e.topic = t)).map (fun e => valueOf e.data)

/-- What a client popped on a topic. -/
theorem poppedOn_eq (x : Session) (t : Topic) :
    poppedOn t x.returns = (x.got.filter (fun a => a.1 = t)).map Prod.snd := by
  unfold poppedOn Session.got
  induction x.returns with
  | nil => rfl
  | cons r rest ih =>
    cases r with
    | popped t' v =>
      by_cases ht : t' = t
      · simpa [ht] using ih
      · simpa [ht] using ih
    | _ => simpa using ih

/-- What a client pushed on a topic. -/
theorem pushedOn_eq (calls : List Call) (t : Topic) :
    pushedOn t calls = ((calls.filterMap Call.pushed).filter (fun a => a.1 = t)).map (fun a => valueOf a.2) := by
  unfold pushedOn
  induction calls with
  | nil => rfl
  | cons k rest ih =>
    cases k with
    | push t' v =>
      by_cases ht : t' = t
      · simpa [ht, Call.pushed, valueOf_dataPackage] using ih
      · simpa [ht, Call.pushed] using ih
    | _ => exact ih

/-- Entries of a log that are on a topic, when all of these are kept under one key. -/
theorem filter_topic {κ : Type} [DecidableEq κ] (key : Delivery → κ) (k : κ) (t : Topic) {l : List Delivery}
    (h : ∀ e ∈ l, e.topic = t → key e = k) :
    (l.filter (fun e => key e = k)).filter (fun e => e.topic = t) = l.filter (fun e => e.topic = t) := by
  rw [List.filter_filter]
  refine List.filter_congr (fun e he => ?_)
  by_cases ht : e.topic = t
  · simp [ht, h e he ht]
  · simp [ht]

/-- All deliveries of a topic are from one client. -/
theorem State.takenFrom_on {a : Conn} {t : Topic} (h : ∀ e ∈ s.delivered, e.topic = t → e.push = a) :
    (((s.takenFrom a).map Prod.snd).filter (fun x => x.1 = t)).map (fun x => valueOf x.2) = s.deliveredOn t := by
  unfold State.takenFrom State.deliveredOn
  rw [← filter_topic Delivery.push a t h, List.map_map, List.filter_map, List.map_map]
  rfl

/-- All are to one client. -/
theorem State.givenTo_on {b : Conn} {t : Topic} (h : ∀ e ∈ s.delivered, e.topic = t → e.pop = b) :
    (((s.givenTo b).map answered).filter (fun x => x.1 = t)).map Prod.snd = s.deliveredOn t := by
  unfold State.givenTo State.deliveredOn
  rw [← filter_topic Delivery.pop b t h, List.map_map, List.filter_map, List.map_map]
  rfl

/-- One push client and one pop client keep the order. -/
theorem State.ReachableBy.in_order (h : s.ReachableBy address (fun e => e.serializes = true)) {t : Topic} {a b : Conn}
    (ha : ∀ c v, .push t v ∈ (s.sessions c).calls → c = a) (hb : ∀ c, .pop t ∈ (s.sessions c).calls → c = b) :
    poppedOn t (s.sessions b).returns <+: pushedOn t (s.sessions a).calls := by
  obtain ⟨site, -, -, -, hbooks⟩ := h.books
  have hpush : ∀ e ∈ s.delivered, e.topic = t → e.push = a := by
    rintro e he rfl
    obtain ⟨⟨v, hv, -⟩, -⟩ := h.delivery he
    exact ha _ v (List.mem_of_getElem? hv)
  have hpop : ∀ e ∈ s.delivered, e.topic = t → e.pop = b := by
    rintro e he rfl
    exact hb _ (List.mem_of_getElem? (h.delivery he).2)
  -- what was written on the topic is what `a` pushed first
  have hpushed : s.deliveredOn t <+: pushedOn t (s.sessions a).calls := by
    obtain ⟨n, -, htaken, -⟩ := (hbooks a).pushes
    rw [← State.takenFrom_on hpush, htaken, map_snd_numbered, ← pushedOn_eq]
    exact (List.take_prefix n _).filterMap _
  -- and `b` got the first of it
  have hpopped : poppedOn t (s.sessions b).returns <+: s.deliveredOn t := by
    rw [← State.givenTo_on hpop, poppedOn_eq]
    refine List.IsPrefix.map Prod.snd (List.IsPrefix.filter _ ?_)
    rcases (hbooks b).received with hrec | ⟨-, hrec⟩
    · rw [← hrec]
      exact List.prefix_append _ _
    · exact (List.prefix_append _ _).trans hrec
  exact hpopped.trans hpushed

/-- In every state that the server and its clients reach while no `Serialize` throws: whoever reads next from a
connection finds a package of the kind that it asks for, and no decoder failed; every value written to a pop connection
is the value of a push on the same topic, for a pop on that topic; each push gives its value at most once and each pop
gets at most one; a push is answered after its value was written; and when one client pushes on a topic and one pops,
the values popped are a prefix of the values pushed. -/
theorem switcher_delivery (address : Conn → Bytes) (s : State)
    (h : s.ReachableBy address (fun e => e.serializes = true)) :
    s.InStep ∧ s.fault = false ∧
    (∀ e ∈ s.delivered, (∃ v, (s.sessions e.push).calls[e.pushCall]? = some (.push e.topic v) ∧
      e.data = dataPackage v) ∧ (s.sessions e.pop).calls[e.popCall]? = some (.pop e.topic)) ∧
    (s.delivered.map (fun e => (e.push, e.pushCall))).Nodup ∧ (s.delivered.map (fun e => (e.pop, e.popCall))).Nodup ∧
    (∀ a ∈ s.acked, ∃ e ∈ s.delivered, (e.push, e.pushCall) = a) ∧
    ∀ t a b, (∀ c v, .push t v ∈ (s.sessions c).calls → c = a) → (∀ c, .pop t ∈ (s.sessions c).calls → c = b) →
      poppedOn t (s.sessions b).returns <+: pushedOn t (s.sessions a).calls := by
  obtain ⟨site, hfiled, hlink, hfault, -⟩ := h.books
  exact ⟨hfiled.inStep hlink, hfault, fun e he => h.delivery he, h.nodup.1, h.nodup.2, fun a ha => h.acked ha,
    fun t a b ha hb => h.in_order ha hb⟩

end

/-- A push is parked, and a pop comes and gets its value. -/
def exchange : List Event :=
  [.accept 0, .accept 1, .call 0 (.push [116] (some [1])) 0, .request 0, .sendData 0, .call 1 (.pop [116]) 0,
    .request 1, .transfer 0, .transfer 0, .transfer 0, .transfer 0, .receive 0, .receive 1, .receive 1]

/-- One value goes from a client to another. -/
theorem switcher_delivery_exchange : ∃ s, State.init.runAll (fun _ => []) exchange = some s ∧
    s.delivered = [⟨0, 0, 1, 0, [116], dataPackage (some [1])⟩] ∧ s.acked = [(0, 0)] ∧
    (s.sessions 1).returns = [.popped [116] (some [1])] ∧ s.fault = false := by
  have hrun : (State.init.runAll (fun _ => []) exchange).map (fun s => (s.delivered, s.acked, (s.sessions 1).returns)) =
      some ([⟨0, 0, 1, 0, [116], dataPackage (some [1])⟩], [(0, 0)], [.popped [116] (some [1])]) := rfl
  obtain ⟨s, hs, heq⟩ := Option.map_eq_some_iff.1 hrun
  obtain ⟨hdelivered, heq⟩ := Prod.mk.inj heq
  obtain ⟨hacked, hreturns⟩ := Prod.mk.inj heq
  have hserial : ∀ e ∈ exchange, e.serializes = true := by decide
  exact ⟨s, hs, hdelivered, hacked, hreturns, (switcher_delivery _ s (State.ReachableBy.run .refl hserial hs)).2.1⟩

/-- A push meets a pop, and its `Serialize` throws; its client goes on with a `CloseTopic`, whose request happens to
have 102 in the field that nobody sets. -/
def serializeFails : List Event :=
  [.accept 0, .accept 1, .call 1 (.pop [116]) 0, .request 1, .call 0 (.push [116] (some [1])) 0, .request 0,
    .serializeThrows 0, .call 0 (.closeTopic [120]) 102, .transfer 0, .transfer 0, .transfer 0, .transfer 0, .receive 0,
    .receive 1, .receive 1]

/-- The server decodes the request of the `CloseTopic` as the data of the push: it delivers what is the value of no
push, answers the push, and the pop returns the topic that was to be closed. -/
theorem request_delivered : ∃ s, State.init.runAll (fun _ => []) serializeFails = some s ∧
    (∃ e ∈ s.delivered, ∀ v, e.data ≠ dataPackage v) ∧ s.acked = [(0, 0)] ∧
    (s.sessions 1).returns = [.popped [116] (some [120])] ∧ s.handled.map RequestPackage.type = [requestTypePop,
      requestTypePush] := by
  have hrun : (State.init.runAll (fun _ => []) serializeFails).map (fun s => (s.delivered, s.acked,
      (s.sessions 1).returns, s.handled)) =
      some ([⟨0, 0, 1, 0, [116], ⟨[120], [0, 0, 0], false⟩⟩], [(0, 0)], [.popped [116] (some [120])],
        [(Call.pop [116]).request 0, (Call.push [116] (some [1])).request 0]) := by decide +kernel
  obtain ⟨s, hs, heq⟩ := Option.map_eq_some_iff.1 hrun
  obtain ⟨hdelivered, heq⟩ := Prod.mk.inj heq
  obtain ⟨hacked, heq⟩ := Prod.mk.inj heq
  obtain ⟨hreturns, hhandled⟩ := Prod.mk.inj heq
  refine ⟨s, hs, ⟨_, by rw [hdelivered]; exact List.mem_singleton_self _, ?_⟩, hacked, hreturns, by rw [hhandled]; rfl⟩
  intro v hv
  cases v <;> cases hv

end Switcher

end Tunnel
