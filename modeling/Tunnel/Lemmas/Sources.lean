import Tunnel.Streams

/-!
# A pipeline with other callbacks

What a pipeline is as a network depends on the ports of its processors, not on what their callbacks compute. So the
sources of a pipeline can be given other sequences to generate (`withSources`), and the pipeline stays a network.
-/

namespace Tunnel

open Lib

variable {V : Type}

/-- Two classes with the same ports. -/
structure Kind.Alike (k k' : Kind V) : Prop where
  nin : k'.nin = k.nin
  nout : k'.nout = k.nout
  multiIn : k'.isMultiIn = k.isMultiIn
  multiOut : k'.isMultiOut = k.isMultiOut
  channelSource : k'.isChannelSource = k.isChannelSource
  channelSink : k'.isChannelSink = k.isChannelSink
  source : k'.isSource = k.isSource
  sink : k'.isSink = k.isSink

/-- The processor with another callback: its class has the same ports, and they are set as before. -/
def Processor.withKind (n : Processor V) (k : Kind V) : Processor V := { n with kind := k }

namespace Processor

variable {n : Processor V} {k : Kind V}

/-- The inputs are the same. -/
theorem withKind_inChan (h : n.kind.Alike k) (i : Nat) : (n.withKind k).inChan i = n.inChan i := by
  simp only [inChan, withKind, h.multiIn]

/-- So are the outputs. -/
theorem withKind_outChan (h : n.kind.Alike k) (o : Nat) : (n.withKind k).outChan o = n.outChan o := by
  simp only [outChan, withKind, h.multiOut]

/-- So is the number of EOFs it waits for. -/
theorem withKind_need (h : n.kind.Alike k) : (n.withKind k).need = n.need := by
  simp only [need, withKind, h.multiIn]

/-- So is its shape. -/
theorem Shaped.withKind (hs : n.Shaped) (h : n.kind.Alike k) : (n.withKind k).Shaped where
  in_lt i q hi := by
    rw [withKind_inChan h] at hi
    exact (hs.in_lt i q hi).trans_eq h.nin.symm
  out_lt o q ho := by
    rw [withKind_outChan h] at ho
    exact (hs.out_lt o q ho).trans_eq h.nout.symm
  in_link i q hi := by
    rw [withKind_inChan h] at hi
    exact (hs.in_link i q hi).trans (congrArg _ h.channelSource.symm)
  out_link o q ho := by
    rw [withKind_outChan h] at ho
    exact (hs.out_link o q ho).trans (congrArg _ h.channelSink.symm)
  need_pos i q hi := by
    rw [withKind_inChan h] at hi
    rw [withKind_need h]
    exact hs.need_pos i q hi
  channel_count hc := hs.channel_count (h.channelSource.symm.trans hc)
  multi_in hm := by
    obtain ⟨hlen, hall⟩ := hs.multi_in (h.multiIn.symm.trans hm)
    refine ⟨hlen.trans h.nin.symm, fun i hi => ?_⟩
    rw [withKind_inChan h]
    exact hall i (hi.trans_eq h.nin)
  multi_out hm := by
    obtain ⟨hlen, hall⟩ := hs.multi_out (h.multiOut.symm.trans hm)
    refine ⟨hlen.trans h.nout.symm, fun o ho => ?_⟩
    rw [withKind_outChan h]
    exact hall o (ho.trans_eq h.nout)

end Processor

namespace Pipeline

/-- The pipeline with other callbacks. -/
def withKinds (p : Pipeline V) (f : Id → Kind V → Kind V) : Pipeline V :=
  { p with nodes := p.nodes.mapVals (fun u n => n.withKind (f u n.kind)) }

variable {p : Pipeline V} {U : Finset Id} {f : Id → Kind V → Kind V}

/-- A processor with its new callback. -/
theorem withKinds_get {u : Id} {n : Processor V} (h : p.nodes.get u = some n) :
    (p.withKinds f).nodes.get u = some (n.withKind (f u n.kind)) := by
  simp only [withKinds, PMap.get_mapVals, h, Option.map_some]

/-- Every processor is an old one with a new callback. -/
theorem get_of_withKinds {u : Id} {m : Processor V} (h : (p.withKinds f).nodes.get u = some m) :
    ∃ n, p.nodes.get u = some n ∧ m = n.withKind (f u n.kind) := by
  obtain ⟨n, hn, rfl⟩ := Option.map_eq_some_iff.1 h
  exact ⟨n, hn, rfl⟩

variable (hf : ∀ u n, p.nodes.get u = some n → n.kind.Alike (f u n.kind))
include hf

/-- The writers are the same. -/
theorem withKinds_writers (q : Queue) : (p.withKinds f).writers q = p.writers q := by
  ext ⟨u, o⟩
  rw [mem_writers, mem_writers]
  constructor
  · rintro ⟨m, hm, ho⟩
    obtain ⟨n, hn, rfl⟩ := get_of_withKinds hm
    exact ⟨n, hn, (Processor.withKind_outChan (hf u n hn) o).symm.trans ho⟩
  · rintro ⟨n, hn, ho⟩
    exact ⟨_, withKinds_get hn, (Processor.withKind_outChan (hf u n hn) o).trans ho⟩

/-- Who has a class of some sort has one after the change. -/
theorem withKinds_exists (c : Kind V → Bool) (hc : ∀ k k' : Kind V, k.Alike k' → c k' = c k) (u : Id) :
    (∃ n, (p.withKinds f).nodes.get u = some n ∧ c n.kind = true) ↔ ∃ n, p.nodes.get u = some n ∧ c n.kind = true := by
  constructor
  · rintro ⟨m, hm, hk⟩
    obtain ⟨n, hn, rfl⟩ := get_of_withKinds hm
    exact ⟨n, hn, (hc _ _ (hf u n hn)).symm.trans hk⟩
  · rintro ⟨n, hn, hk⟩
    exact ⟨_, withKinds_get hn, (hc _ _ (hf u n hn)).trans hk⟩

/-- Other callbacks leave a sound pipeline sound. -/
theorem sound_withKinds (h : Sound p U) : Sound (p.withKinds f) U where
  keys := h.keys
  edge_mem := h.edge_mem
  ranked := h.ranked
  dagKeys := h.dagKeys
  leaves_iff := h.leaves_iff
  sources_iff u := (h.sources_iff u).trans (withKinds_exists hf Kind.isSource (fun _ _ h => h.source) u).symm
  sinks_iff u := (h.sinks_iff u).trans (withKinds_exists hf Kind.isSink (fun _ _ h => h.sink) u).symm
  sources_in := h.sources_in
  sinks_out := h.sinks_out
  sources_nodup := h.sources_nodup
  sinks_nodup := h.sinks_nodup

/-- They leave a wired one wired. -/
theorem wired_withKinds (h : Wired p U) : Wired (p.withKinds f) U := by
  -- every port of the changed pipeline is one of the pipeline
  have hin : ∀ {u m i q}, (p.withKinds f).nodes.get u = some m → m.inChan i = some q →
      ∃ n, p.nodes.get u = some n ∧ m = n.withKind (f u n.kind) ∧ n.inChan i = some q := by
    intro u m i q hm hi
    obtain ⟨n, hn, rfl⟩ := get_of_withKinds hm
    exact ⟨n, hn, rfl, (Processor.withKind_inChan (hf u n hn) i).symm.trans hi⟩
  have hout : ∀ {u m o q}, (p.withKinds f).nodes.get u = some m → m.outChan o = some q →
      ∃ n, p.nodes.get u = some n ∧ m = n.withKind (f u n.kind) ∧ n.outChan o = some q := by
    intro u m o q hm ho
    obtain ⟨n, hn, rfl⟩ := get_of_withKinds hm
    exact ⟨n, hn, rfl, (Processor.withKind_outChan (hf u n hn) o).symm.trans ho⟩
  have hin' : ∀ {u n i q}, p.nodes.get u = some n → n.inChan i = some q →
      ∃ m, (p.withKinds f).nodes.get u = some m ∧ m.inChan i = some q :=
    fun hn hi => ⟨_, withKinds_get hn, (Processor.withKind_inChan (hf _ _ hn) _).trans hi⟩
  have hout' : ∀ {u n o q}, p.nodes.get u = some n → n.outChan o = some q →
      ∃ m, (p.withKinds f).nodes.get u = some m ∧ m.outChan o = some q :=
    fun hn ho => ⟨_, withKinds_get hn, (Processor.withKind_outChan (hf _ _ hn) _).trans ho⟩
  constructor
  case count =>
    intro v m i q hm hi hq
    obtain ⟨n, hn, rfl, hi'⟩ := hin hm hi
    rw [withKinds_writers hf, Processor.withKind_need (hf v n hn)]
    exact h.count v n i q hn hi' hq
  constructor
  case shaped =>
    intro u m hm
    obtain ⟨n, hn, rfl⟩ := get_of_withKinds hm
    exact (h.shaped u n hn).withKind (hf u n hn)
  case in_mem =>
    intro u m i r k c hm hi
    obtain ⟨n, hn, -, hi'⟩ := hin hm hi
    exact h.in_mem u n i r k c hn hi'
  case out_mem =>
    intro u m o r k c hm ho
    obtain ⟨n, hn, -, ho'⟩ := hout hm ho
    exact h.out_mem u n o r k c hn ho'
  case reader_unique =>
    intro u m i v m' j q hm hm' hi hj hq
    obtain ⟨n, hn, -, hi'⟩ := hin hm hi
    obtain ⟨n', hn', -, hj'⟩ := hin hm' hj
    exact h.reader_unique u n i v n' j q hn hn' hi' hj' hq
  case out_unique =>
    intro u m o o' q hm ho ho'
    obtain ⟨n, hn, rfl, hq⟩ := hout hm ho
    exact h.out_unique u n o o' q hn hq ((Processor.withKind_outChan (hf u n hn) o').symm.trans ho')
  case edge_port =>
    intro u v he
    obtain ⟨n, m, o, i, q, hn, hm, ho, hi⟩ := h.edge_port u v he
    obtain ⟨n', hn', ho'⟩ := hout' hn ho
    obtain ⟨m', hm', hi'⟩ := hin' hm hi
    exact ⟨n', m', o, i, q, hn', hm', ho', hi'⟩
  case port_edge =>
    intro u v n m o i q hn hm ho hi hq
    obtain ⟨n', hn', -, ho'⟩ := hout hn ho
    obtain ⟨m', hm', -, hi'⟩ := hin hm hi
    exact h.port_edge u v n' m' o i q hn' hm' ho' hi' hq
  case out_read =>
    intro u n o q hn ho hq
    obtain ⟨n', hn', -, ho'⟩ := hout hn ho
    obtain ⟨v, m, i, hm, hi⟩ := h.out_read u n' o q hn' ho' hq
    obtain ⟨m', hm', hi'⟩ := hin' hm hi
    exact ⟨v, m', i, hm', hi'⟩
  case leaf_out =>
    intro u m hm hu
    obtain ⟨n, hn, rfl⟩ := get_of_withKinds hm
    obtain ⟨hmulti, hport⟩ := h.leaf_out u n hn hu
    exact ⟨(hf u n hn).multiOut.trans hmulti, hport⟩
  case out_bound =>
    intro u m hm hu hs o ho
    obtain ⟨n, hn, rfl⟩ := get_of_withKinds hm
    rw [Processor.withKind_outChan (hf u n hn)]
    exact h.out_bound u n hn hu ((hf u n hn).sink.symm.trans hs) o (ho.trans_eq (hf u n hn).nout)

/-- They leave a rooted one rooted. -/
theorem rooted_withKinds (h : Rooted p) : Rooted (p.withKinds f) where
  root := h.root
  in_bound u m hm hs i hi := by
    obtain ⟨n, hn, rfl⟩ := get_of_withKinds hm
    rw [Processor.withKind_inChan (hf u n hn)]
    exact h.in_bound u n hn ((hf u n hn).source.symm.trans hs) i (hi.trans_eq (hf u n hn).nin)

/-- Other callbacks leave a network a network. -/
theorem network_withKinds (h : Network p U) : Network (p.withKinds f) U :=
  ⟨sound_withKinds hf h.sound, wired_withKinds hf h.wired, rooted_withKinds hf h.rooted, h.completed⟩

/-- They add no joins. -/
theorem joinless_withKinds (h : p.Joinless) : (p.withKinds f).Joinless := by
  intro v m i q hm hi
  obtain ⟨n, hn, rfl⟩ := get_of_withKinds hm
  rw [withKinds_writers hf]
  exact h v n i q hn ((Processor.withKind_inChan (hf v n hn) i).symm.trans hi)

end Pipeline

/-- A source that generates the values of a sequence and then EOF. -/
def SourceKind.ofList (values : List V) : SourceKind V := .generate (fun k => values[k]?)

/-- The pipeline with its `i`-th source generating the `i`-th sequence. -/
def Pipeline.withSources (p : Pipeline V) (seqs : List (List V)) : Pipeline V :=
  p.withKinds (fun u k => if u ∈ p.sources then .source (.ofList ((seqs[p.sources.idxOf u]?).getD [])) else k)

namespace Pipeline

variable {p : Pipeline V} {U : Finset Id}

/-- A source without state generates, so another sequence leaves its class as it is. -/
theorem withSources_alike (hs : Sound p U) (hp : p.Pure) (seqs : List (List V)) (u : Id) (n : Processor V)
    (hn : p.nodes.get u = some n) :
    n.kind.Alike (if u ∈ p.sources then .source (.ofList ((seqs[p.sources.idxOf u]?).getD [])) else n.kind) := by
  by_cases hu : u ∈ p.sources
  · rw [if_pos hu]
    obtain ⟨m, hm, hk⟩ := (hs.sources_iff u).1 hu
    cases hm.symm.trans hn
    have hpure := hp u n hn
    cases hkind : n.kind with
    | source k =>
      cases k with
      | generate g => constructor <;> rfl
      | channel ch => rw [hkind] at hpure; exact absurd hpure not_false
    | _ => rw [hkind] at hk; cases hk
  · rw [if_neg hu]
    constructor <;> rfl

/-- Other sources leave a network a network. -/
theorem withSources_network (h : Network p U) (hp : p.Pure) (seqs : List (List V)) : Network (p.withSources seqs) U :=
  network_withKinds (withSources_alike h.sound hp seqs) h

/-- They add no joins. -/
theorem withSources_joinless (h : Sound p U) (hp : p.Pure) (hj : p.Joinless) (seqs : List (List V)) :
    (p.withSources seqs).Joinless :=
  joinless_withKinds (withSources_alike h hp seqs) hj

/-- They leave it without state. -/
theorem withSources_pure (hp : p.Pure) (seqs : List (List V)) : (p.withSources seqs).Pure := by
  intro u m hm
  obtain ⟨n, hn, rfl⟩ := get_of_withKinds hm
  simp only [Processor.withKind]
  split
  · trivial
  · exact hp u n hn

/-- Who is no source stays. -/
theorem withSources_get_of_notMem (seqs : List (List V)) {u : Id} {n : Processor V} (hu : u ∉ p.sources)
    (h : p.nodes.get u = some n) :
    (p.withSources seqs).nodes.get u = some n := by
  rw [withSources, withKinds_get h, if_neg hu]
  rfl

/-- A source gets its list. -/
theorem withSources_get (seqs : List (List V)) {i : Nat} {u : Id} {n : Processor V} (hnd : p.sources.Nodup)
    (hu : p.sources[i]? = some u) (h : p.nodes.get u = some n) :
    (p.withSources seqs).nodes.get u = some (n.withKind (.source (.ofList ((seqs[i]?).getD [])))) := by
  obtain ⟨hi, hget⟩ := List.getElem?_eq_some_iff.1 hu
  have hidx : p.sources.idxOf u = i := by rw [← hget, hnd.idxOf_getElem]
  rw [withSources, withKinds_get h, if_pos (List.mem_of_getElem? hu), hidx]

end Pipeline

end Tunnel
