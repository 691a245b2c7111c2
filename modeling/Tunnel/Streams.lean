import Tunnel.Lemmas.Steps

/-!
# What a pipeline computes

The pipeline as a network of stream functions, without queues and without an order of steps. A processor turns the
values of its inputs, read one input after the other, into a list of values for each output (`Kind.output`). The
histories of the ports are related by these functions and by the queues, at which the lists of several writers are
interleaved somehow (`Histories`).

When the callbacks keep no state, the interleaving does not matter for how often a value comes: `Pipeline.outflow`
computes it along the edges, as maps, filters and sums of multisets. When no queue has two writers there is no choice,
and the lists themselves are determined.
-/

namespace Tunnel

open Lib

variable {V : Type}

/-! ## Classes as stream functions -/

namespace Kind

/-- What a processor pushes for one value after the other, given the values it was called with before. -/
def emittedFrom (k : Kind V) : List V → List V → List (Nat × V)
  | _, [] => []
  | before, v :: rest => k.onValue before v ++ k.emittedFrom (before ++ [v]) rest

/-- What a processor pushes for the values of its inputs. -/
def emitted (k : Kind V) (ins : List V) : List (Nat × V) := k.emittedFrom [] ins

theorem emittedFrom_append (k : Kind V) (before ins : List V) (v : V) :
    k.emittedFrom before (ins ++ [v]) = k.emittedFrom before ins ++ k.onValue (before ++ ins) v := by
  induction ins generalizing before with
  | nil => simp [emittedFrom]
  | cons a ins ih => simp [emittedFrom, ih]

theorem emitted_append (k : Kind V) (ins : List V) (v : V) :
    k.emitted (ins ++ [v]) = k.emitted ins ++ k.onValue ins v :=
  k.emittedFrom_append [] ins v

/-- More values only add to what is pushed. -/
theorem emitted_prefix (k : Kind V) {ins ins' : List V} (h : ins <+: ins') : k.emitted ins <+: k.emitted ins' := by
  obtain ⟨l, rfl⟩ := h
  induction l using List.reverseRecOn with
  | nil => rw [List.append_nil]
  | append_singleton l v ih =>
    rw [← List.append_assoc, emitted_append]
    exact ih.trans (List.prefix_append _ _)

open Classical in
/-- The values `generate` returns before its EOF; none, if it goes on forever. -/
noncomputable def generated (g : Nat → Option V) : List V :=
  if h : ∃ n, g n = none then (List.range (Nat.find h)).filterMap g else []

/-- A source up to its end. -/
theorem generated_eq {g : Nat → Option V} {n : Nat} (hn : g n = none) (hlt : ∀ k < n, (g k).isSome = true) :
    generated g = (List.range n).filterMap g := by
  have h : ∃ n, g n = none := ⟨n, hn⟩
  have hfind : Nat.find h = n := by
    refine (Nat.find_eq_iff h).2 ⟨hn, fun k hk hnone => ?_⟩
    have := hlt k hk
    rw [hnone] at this
    cases this
  rw [generated, dif_pos h]
  convert rfl
  exact hfind.symm

/-- What a processor puts on an output over its whole life, the values of its inputs being `ins`. -/
noncomputable def output (k : Kind V) (ins : List V) (o : Nat) : List V :=
  match k with
  | .source (.generate g) => generated g
  | k => streamOf (k.emitted ins) o ++ (streamOf (k.onEof ins) o).reduceOption

variable {k : Kind V}

theorem output_eq (hg : k.generates = false) (ins : List V) (o : Nat) :
    k.output ins o = streamOf (k.emitted ins) o ++ (streamOf (k.onEof ins) o).reduceOption := by
  rw [output.eq_def]
  split
  · cases hg
  · rfl

/-- The callbacks keep no state, and every value is handled on its own. -/
def Pure : Kind V → Prop
  | .source (.generate _) => True
  | .transform (.simple f) => ∀ before v, f before v = f [] v
  | .transform .noOp => True
  | .transform (.filter f) => ∀ before v, f before v = f [] v
  | .sink .consume => True
  | .dispatch _ _ d => ∀ before v, d before v = d [] v
  | .fork _ _ => True
  | .concat _ _ => True
  | _ => False

/-- A class without state has nothing to do with the channels of the user. -/
theorem Pure.not_channel (h : k.Pure) : k.isChannelSource = false ∧ k.isChannelSink = false := by
  cases k with
  | source k => cases k <;> simp_all [Pure, isChannelSource, isChannelSink]
  | sink k => cases k <;> simp_all [Pure, isChannelSource, isChannelSink]
  | _ => exact ⟨rfl, rfl⟩

/-- How often each value comes at an output, from how often it comes at the inputs: map, filter, partition, copy, sum.
-/
noncomputable def denote (k : Kind V) (ins : Nat → Multiset V) (o : Nat) : Multiset V :=
  match k with
  | .source (.generate g) => (generated g : Multiset V)
  | .transform (.simple f) => (ins 0).map (f [])
  | .transform .noOp => ins 0
  | .transform (.filter f) => (ins 0).filter (fun v => f [] v = false)
  | .dispatch n _ d => (ins 0).filter (fun v => d [] v % n = o)
  | .fork _ _ => ins 0
  | .concat n _ => ∑ i ∈ Finset.range n, ins i
  | _ => 0

/-- Without state the past does not count. -/
theorem Pure.onValue_eq (h : k.Pure) (before : List V) (v : V) : k.onValue before v = k.onValue [] v := by
  cases k with
  | source k => cases k <;> simp [onValue]
  | sink k => cases k <;> simp [onValue]
  | transform k =>
    cases k with
    | simple f => simp only [onValue, h before v]
    | filter f => simp only [onValue, h before v]
    | _ => rfl
  | dispatch n pos d => simp only [onValue, h before v]
  | _ => rfl

/-- So each value is handled for itself. -/
theorem Pure.emitted_eq (h : k.Pure) (ins : List V) : k.emitted ins = ins.flatMap (k.onValue []) := by
  have hfrom : ∀ before, k.emittedFrom before ins = ins.flatMap (k.onValue []) := by
    induction ins with
    | nil => exact fun _ => rfl
    | cons v ins ih =>
      intro before
      rw [emittedFrom, ih, h.onValue_eq before v, List.flatMap_cons]
  exact hfrom []

/-- Only an `Accumulate` has a value to push at the end. -/
theorem Pure.onEof_values (h : k.Pure) (ins : List V) (o : Nat) : (streamOf (k.onEof ins) o).reduceOption = [] := by
  have hnone : ∀ w ∈ k.onEof ins, w.2 = none := by
    cases k with
    | transform k => cases k <;> simp_all [onEof, Pure]
    | _ => simp [onEof]
  rw [List.reduceOption, List.filterMap_eq_nil_iff]
  intro v hv
  obtain ⟨w, hw, rfl⟩ := List.mem_map.1 hv
  exact hnone w (List.mem_filter.1 hw).1

theorem coe_flatMap_range (ins : Nat → List V) (n : Nat) :
    ((List.range n).flatMap ins : Multiset V) = ∑ i ∈ Finset.range n, (ins i : Multiset V) := by
  induction n with
  | zero => rfl
  | succ n ih =>
    rw [List.range_succ, List.flatMap_append, ← Multiset.coe_add, ih, Finset.sum_range_succ, List.flatMap_singleton]

theorem flatMap_test (c : V → Prop) [DecidablePred c] (l : List V) :
    l.flatMap (fun v => if c v then [v] else []) = l.filter (fun v => c v) := by
  induction l with
  | nil => rfl
  | cons v l ih =>
    rw [List.flatMap_cons, ih, List.filter_cons]
    by_cases hv : c v <;> simp [hv]

/-- What a class makes of the values of its inputs for an output, if its callbacks keep no state: map, filter,
partition, copy, concatenation. A `Source` passes what `generate` returned in its first `generated` calls, and an
`Accumulate` has one value, once its input has `ended`. -/
def stream (k : Kind V) (ins : List V) (generated : Nat) (ended : Bool) (o : Nat) : List V :=
  match k with
  | .source (.generate g) => (List.range generated).filterMap g
  | .transform (.simple f) => ins.map (f [])
  | .transform .noOp => ins
  | .transform (.filter f) => ins.filter (fun v => f [] v = false)
  | .transform (.accumulate g) => if ended then [g ins] else []
  | .dispatch n _ d => ins.filter (fun v => d [] v % n = o)
  | .fork _ _ => ins
  | .concat _ _ => ins
  | _ => []

/-- A class without state handles the values one by one, as its stream function says. -/
theorem Pure.streamOf_emitted (h : k.Pure) (hg : k.generates = false) (ins : List V) (generated : Nat) (ended : Bool)
    {o : Nat} (ho : o < k.nout) : streamOf (k.emitted ins) o = k.stream ins generated ended o := by
  rw [h.emitted_eq, streamOf_flatMap]
  cases k with
  | source k =>
    cases k with
    | generate g => cases hg
    | channel ch => exact absurd h id
  | transform k =>
    have ho0 : o = 0 := by simpa [nout] using ho
    subst ho0
    cases k with
    | simple f => simp only [onValue, streamOf_cons_self, streamOf_nil, ← List.map_eq_flatMap, stream]
    | noOp => simp [onValue, stream, streamOf]
    | filter f =>
      have htest : ∀ v, streamOf ((transform (.filter f)).onValue [] v) 0 = if f [] v = false then [v] else [] := by
        intro v
        cases hv : f [] v <;> simp [onValue, hv, streamOf]
      simp only [htest, flatMap_test, stream]
    | accumulate g => exact absurd h id
  | sink k =>
    cases k with
    | consume => simp [nout] at ho
    | channel ch => exact absurd h id
  | dispatch n pos d =>
    have htest : ∀ v, streamOf ((Kind.dispatch n pos d).onValue [] v) o = if d [] v % n = o then [v] else [] := by
      intro v
      by_cases hv : d [] v % n = o <;> simp [onValue, hv, streamOf]
    simp only [htest, flatMap_test, stream]
  | fork n pos => simp [onValue, stream, streamOf_copies _ (show o < n from ho)]
  | concat n pos =>
    have ho0 : o = 0 := by simpa [nout] using ho
    subst ho0
    simp only [onValue, streamOf_cons_self, streamOf_nil, List.flatMap_singleton', stream]

/-- A class without state turns multisets into multisets. -/
theorem Pure.coe_output (h : k.Pure) (ins : Nat → List V) {o : Nat} (ho : o < k.nout) :
    (k.output ((List.range k.nin).flatMap ins) o : Multiset V) = k.denote (fun i => (ins i : Multiset V)) o := by
  have hout : k.generates = false → k.output ((List.range k.nin).flatMap ins) o =
      k.stream ((List.range k.nin).flatMap ins) 0 true o := by
    intro hg
    rw [output_eq hg, h.onEof_values, List.append_nil, h.streamOf_emitted hg _ 0 true ho]
  have hone : k.nin = 1 → (List.range k.nin).flatMap ins = ins 0 := by
    intro hn
    simp [hn]
  cases k with
  | source k =>
    cases k with
    | generate g => rfl
    | channel ch => exact absurd h id
  | transform k =>
    rw [hout rfl, hone rfl]
    cases k with
    | accumulate g => exact absurd h id
    | _ => simp [stream, denote]
  | sink k =>
    cases k with
    | consume => simp [nout] at ho
    | channel ch => exact absurd h id
  | dispatch n pos d =>
    rw [hout rfl, hone rfl]
    simp [stream, denote]
  | fork n pos =>
    rw [hout rfl, hone rfl]
    simp [stream, denote]
  | concat n pos =>
    rw [hout rfl]
    exact coe_flatMap_range ins n

/-- Only the inputs a class has matter. -/
theorem denote_congr (h : k.Pure) {ins ins' : Nat → Multiset V} (heq : ∀ i < k.nin, ins i = ins' i) (o : Nat) :
    k.denote ins o = k.denote ins' o := by
  have hone : k.nin = 1 → ins 0 = ins' 0 := fun hn => heq 0 (by omega)
  cases k with
  | source k => cases k <;> simp_all [denote, Pure]
  | transform k => cases k <;> simp_all [denote, Pure, nin]
  | sink k => cases k <;> rfl
  | dispatch n pos d => simp only [denote, hone rfl]
  | fork n pos => simp only [denote, hone rfl]
  | concat n pos => exact Finset.sum_congr rfl (fun i hi => heq i (Finset.mem_range.1 hi))

end Kind

/-! ## The network -/

namespace Pipeline

/-- What comes through a queue: the values of all its writers. -/
def joined (p : Pipeline V) (outs : Id → Nat → Multiset V) : Option Queue → Multiset V
  | some q => ∑ w ∈ p.writers q, outs w.1 w.2
  | none => 0

/-- The values at an output, computed along paths of a bounded length. -/
noncomputable def denote (p : Pipeline V) : Nat → Id → Nat → Multiset V
  | 0, _, _ => 0
  | depth + 1, u, o =>
    match p.nodes.get u with
    | some n => n.kind.denote (fun i => p.joined (p.denote depth) (n.inChan i)) o
    | none => 0

/-- How often each value comes at an output: no path is longer than the number of processors. -/
noncomputable def outflow (p : Pipeline V) (u : Id) (o : Nat) : Multiset V := p.denote p.nodes.keys.card u o

/-- How often each value comes at an input. -/
noncomputable def inflow (p : Pipeline V) (n : Processor V) (i : Nat) : Multiset V := p.joined p.outflow (n.inChan i)

/-- No queue has two writers: no `Merge` or `SetSink` joined leaves. -/
def Joinless (p : Pipeline V) : Prop := ∀ v n i q, p.nodes.get v = some n → n.inChan i = some q → (p.writers q).card ≤ 1

/-- Every class of the pipeline is without state. -/
def Pure (p : Pipeline V) : Prop := ∀ u n, p.nodes.get u = some n → n.kind.Pure

end Pipeline

/-- Lists that could be the histories of the ports of a pipeline that ran to its end. -/
structure Histories (p : Pipeline V) (ins outs : Id → Nat → List V) : Prop where
  joins : ∀ v n i q, p.nodes.get v = some n → n.inChan i = some q → q.isLink = true →
    Interleaves (p.writers q) (fun w => outs w.1 w.2) (ins v i)
  outputs : ∀ u n o, p.nodes.get u = some n → o < n.kind.nout →
    outs u o = n.kind.output ((List.range n.kind.nin).flatMap (ins u)) o

section histories

variable {p : Pipeline V} {U : Finset Id} {ins outs ins' outs' : Id → Nat → List V}

variable {v : Id} {n : Processor V} {i : Nat}

/-- The inputs are bound to queues of the pipeline, but for those of a `ChannelSource`. -/
theorem Network.link_input (hnet : Network p U) (hn : p.nodes.get v = some n) (hk : n.kind.isChannelSource = false)
    (hi : i < n.kind.nin) : ∃ q, n.inChan i = some q ∧ q.isLink = true := by
  have hs : n.kind.isSource = false := by
    cases hkind : n.kind with
    | source k =>
      cases k with
      | generate g => simp [hkind, Kind.nin] at hi
      | channel ch => rw [hkind] at hk; cases hk
    | _ => rfl
  obtain ⟨q, hq⟩ := Option.isSome_iff_exists.1 (hnet.rooted.in_bound v n hn hs i hi)
  refine ⟨q, hq, ?_⟩
  rw [(hnet.wired.shaped v n hn).in_link i q hq, hk]
  rfl

/-- So are those of a class without state. -/
theorem Network.pure_input (hnet : Network p U) (hn : p.nodes.get v = some n) (hp : n.kind.Pure) (hi : i < n.kind.nin) :
    ∃ q, n.inChan i = some q ∧ q.isLink = true := hnet.link_input hn hp.not_channel.1 hi

/-- Histories of a network without state hold every value as often as computed along the edges. -/
theorem Histories.coe_outs (h : Histories p ins outs) (hnet : Network p U) (hp : p.Pure) {u : Id} {o : Nat}
    (hn : p.nodes.get u = some n) (ho : o < n.kind.nout) : (outs u o : Multiset V) = p.outflow u o := by
  obtain ⟨rank, hrank, hbound⟩ := hnet.sound.ranked.bounded p.nodes.keys (fun u v he => (hnet.sound.edge_mem u v he).1)
  have hdepth : ∀ depth u n o, p.nodes.get u = some n → o < n.kind.nout → rank u < depth →
      (outs u o : Multiset V) = p.denote depth u o := by
    intro depth
    induction depth with
    | zero => exact fun u n o _ _ hlt => absurd hlt (Nat.not_lt_zero _)
    | succ depth ih =>
      intro u n o hn ho hlt
      rw [h.outputs u n o hn ho, (hp u n hn).coe_output (ins u) ho, Pipeline.denote, hn]
      refine Kind.denote_congr (hp u n hn) (fun i hi => ?_) o
      obtain ⟨q, hq, hlink⟩ := hnet.pure_input hn (hp u n hn) hi
      rw [(h.joins u n i q hn hq hlink).coe_eq, hq]
      refine Finset.sum_congr rfl (fun w hw => ?_)
      obtain ⟨m, hm, hout⟩ := (p.mem_writers q w.1 w.2).1 hw
      have he := hnet.wired.port_edge w.1 u m n w.2 i q hm hn hout hq hlink
      exact ih w.1 m w.2 hm ((hnet.wired.shaped w.1 m hm).out_lt w.2 q hout) (by have := hrank w.1 u he; omega)
  exact hdepth _ u n o hn ho (hbound u (PMap.mem_keys_of_get hn))

/-- What an input got, as a multiset. -/
theorem Histories.coe_ins (h : Histories p ins outs) (hnet : Network p U) (hp : p.Pure) (hn : p.nodes.get v = some n)
    (hi : i < n.kind.nin) : (ins v i : Multiset V) = p.inflow n i := by
  obtain ⟨q, hq, hlink⟩ := hnet.pure_input hn (hp v n hn) hi
  rw [(h.joins v n i q hn hq hlink).coe_eq, Pipeline.inflow, hq]
  refine Finset.sum_congr rfl (fun w hw => ?_)
  obtain ⟨m, hm, hout⟩ := (p.mem_writers q w.1 w.2).1 hw
  exact h.coe_outs hnet hp hm ((hnet.wired.shaped w.1 m hm).out_lt w.2 q hout)

/-- When no queue has two writers, the histories are determined. -/
theorem Histories.outs_unique (h : Histories p ins outs) (h' : Histories p ins' outs') (hnet : Network p U)
    (hp : p.Pure) (hj : p.Joinless) {u : Id} {o : Nat} (hn : p.nodes.get u = some n) (ho : o < n.kind.nout) :
    outs u o = outs' u o := by
  induction u using hnet.sound.ranked.wellFounded.induction generalizing n o with
  | _ u ih =>
    rw [h.outputs u n o hn ho, h'.outputs u n o hn ho]
    refine congrArg (fun l => n.kind.output l o) (List.flatMap_congr (fun i hi => ?_))
    obtain ⟨q, hq, hlink⟩ := hnet.pure_input hn (hp u n hn) (List.mem_range.1 hi)
    refine Interleaves.unique (hj u n i q hn hq) (h.joins u n i q hn hq hlink) (h'.joins u n i q hn hq hlink)
      (fun w hw => ?_)
    obtain ⟨m, hm, hout⟩ := (p.mem_writers q w.1 w.2).1 hw
    exact ih w.1 (hnet.wired.port_edge w.1 u m n w.2 i q hm hn hout hq hlink) hm
      ((hnet.wired.shaped w.1 m hm).out_lt w.2 q hout)

/-- Without joins it is determined. -/
theorem Histories.ins_unique (h : Histories p ins outs) (h' : Histories p ins' outs') (hnet : Network p U)
    (hp : p.Pure) (hj : p.Joinless) (hn : p.nodes.get v = some n) (hi : i < n.kind.nin) : ins v i = ins' v i := by
  obtain ⟨q, hq, hlink⟩ := hnet.pure_input hn (hp v n hn) hi
  refine Interleaves.unique (hj v n i q hn hq) (h.joins v n i q hn hq hlink) (h'.joins v n i q hn hq hlink) (fun w hw =>
    ?_)
  obtain ⟨m, hm, hout⟩ := (p.mem_writers q w.1 w.2).1 hw
  exact h.outs_unique h' hnet hp hj hm ((hnet.wired.shaped w.1 m hm).out_lt w.2 q hout)

end histories

end Tunnel
