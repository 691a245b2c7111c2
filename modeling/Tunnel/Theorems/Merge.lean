import Tunnel.Theorems.Wiring

/-!
# What `MergePipeline` makes

Two completed pipelines with as many sinks as sources have a merge (`MergeReady.merge`), and it is the two with each
sink and its source replaced by one `NoOpTransform`.
-/

namespace Tunnel

open Lib

variable {V : Type}

/-! ## The merge of two pipelines -/

/-- The option of a merge. -/
def mergedOption (l r : PipelineOption) : PipelineOption where
  name := l.name ++ "-merge-" ++ r.name
  bindAbortChannel := l.bindAbortChannel && r.bindAbortChannel
  channelSize := 0

/-- The wiring agrees with the EOF counts: as many output ports hold the queue of an input (of a processor that is no
`ChannelSource`) as EOFs are waited for there, and every edge is a queue that an output of the one and an input of the
other hold. -/
def Pipeline.WiringLaw (p : Pipeline V) : Prop :=
  (∀ v n i q, p.nodes.get v = some n → n.kind.isChannelSource = false → n.inChan i = some q →
    (p.writers q).card = n.need) ∧
  (∀ u v, p.Edge u v → ∃ n m o i q, p.nodes.get u = some n ∧ p.nodes.get v = some m ∧ n.outChan o = some q ∧
    m.inChan i = some q)

/-- On a pipeline that builder calls made, only the EOF counts are in question. -/
theorem Ported.wiringLaw_iff {p : Pipeline V} {U : Finset Id} (h : Ported p U) : p.WiringLaw ↔ p.Counted := by
  have hlink : ∀ {v n i q}, p.nodes.get v = some n → n.inChan i = some q →
      (n.kind.isChannelSource = false ↔ q.isLink = true) := by
    intro v n i q hv hi
    rw [(h.shaped v n hv).in_link i q hi, Bool.not_eq_true']
  constructor
  · rintro ⟨hcount, -⟩ v n i q hv hi hq
    exact hcount v n i q hv ((hlink hv hi).2 hq) hi
  · intro hcount
    exact ⟨fun v n i q hv hk hi => hcount v n i q hv hi ((hlink hv hi).1 hk), h.edge_port⟩

namespace Pipeline

/-- Every pair of a sink and a source has its processors. -/
theorem mergeNoops_total {l r : Pipeline V} {ids : List (Id × Id)}
    (h : ∀ x ∈ ids, x.1 ∈ l.nodes.keys ∧ x.2 ∈ r.nodes.keys) :
    ∃ noops, mergeNoops l r ids = .ok noops := by
  induction ids with
  | nil => exact ⟨[], rfl⟩
  | cons x ids ih =>
    obtain ⟨⟨hl, hr⟩, hrest⟩ := List.forall_mem_cons.1 h
    obtain ⟨noops, hnoops⟩ := ih hrest
    obtain ⟨s, hs⟩ := (l.nodes.mem_keys_iff x.1).1 hl
    obtain ⟨t, ht⟩ := (r.nodes.mem_keys_iff x.2).1 hr
    exact ⟨mergeSinkAndSource s t :: noops, by simp only [mergeNoops, hs, ht, hnoops]; rfl⟩

theorem isCompleted_iff {p : Pipeline V} : p.isCompleted = true ↔ p.leaves = ∅ := by
  simp [isCompleted]

end Pipeline

/-- Two completed pipelines with processors have a merge. -/
theorem MergeReady.merge {l r : Pipeline V} {UL UR : Finset Id} {noopId : Nat → Id} (h : MergeReady l r UL UR noopId)
    (hlc : l.leaves = ∅) (hrc : r.leaves = ∅) (hl : l.nodes.keys ≠ ∅) (hr : r.nodes.keys ≠ ∅) :
    ∃ p, l.mergePipeline r noopId = .ok p ∧ Merged l r noopId p ∧ p.option = mergedOption l.option r.option ∧
    p.abortChannel = none := by
  obtain ⟨noops, hnoops⟩ : ∃ noops, Pipeline.mergeNoops l r (l.sinks.zip r.sources) = .ok noops := by
    refine Pipeline.mergeNoops_total (fun x hx => ?_)
    obtain ⟨hs, hr⟩ := List.of_mem_zip hx
    exact ⟨h.soundL.sink_mem hs, h.soundR.source_mem hr⟩
  have hl0 : l.getProcessorSize ≠ 0 := fun h0 => hl (Finset.card_eq_zero.1 h0)
  have hr0 : r.getProcessorSize ≠ 0 := fun h0 => hr (Finset.card_eq_zero.1 h0)
  have hlc' := Pipeline.isCompleted_iff.2 hlc
  have hrc' := Pipeline.isCompleted_iff.2 hrc
  simp only [Pipeline.mergePipeline, hlc', hrc', hl0, hr0, ← h.len, hnoops, Bool.not_true, Bool.or_self,
    Bool.false_eq_true, if_false, ne_eq, not_true_eq_false, bind, Except.bind]
  exact ⟨_, rfl, h.merged hnoops rfl rfl rfl rfl rfl rfl, rfl, rfl⟩

/-- `MergePipeline` of two completed pipelines with processors, disjoint ids and as many sinks on the left as sources on
the right: it returns the processors of both without these, and a new one for each pair of them, which has the input of
the sink and the output of the source. The edges are those of both, under the new names, and the wiring is in step with
the EOF counts if it was before. -/
theorem merge_structure {l r : Pipeline V} {UL UR : Finset Id} (hl : Built (fun _ => True) l UL)
    (hr : Built (fun _ => True) r UR) (hdis : Disjoint UL UR) (hlc : l.isCompleted = true) (hrc : r.isCompleted = true)
    (hln : l.nodes.keys ≠ ∅) (hrn : r.nodes.keys ≠ ∅) {k : Nat} (hsinks : l.sinks.length = k)
    (hsources : r.sources.length = k) {noopId : Nat → Id} (hnodup : ((List.range k).map noopId).Nodup)
    (hfresh : ∀ i < k, noopId i ∉ UL ∪ UR) :
    ∃ p, l.mergePipeline r noopId = .ok p ∧
      (∀ u, u ∈ p.nodes.keys ↔ (u ∈ l.nodes.keys ∧ u ∉ l.sinks) ∨ (u ∈ r.nodes.keys ∧ u ∉ r.sources) ∨
        ∃ i < k, u = noopId i) ∧
      (∀ u v, p.Edge u v ↔
        (∃ a b, l.Edge a b ∧ u = mergedName l.sinks noopId a ∧ v = mergedName l.sinks noopId b) ∨
        (∃ a b, r.Edge a b ∧ u = mergedName r.sources noopId a ∧ v = mergedName r.sources noopId b)) ∧
      (∀ i a b, l.sinks[i]? = some a → r.sources[i]? = some b → ∃ s t n, l.nodes.get a = some s ∧
        r.nodes.get b = some t ∧ p.nodes.get (noopId i) = some n ∧ n.inputPort = s.inputPort ∧
        n.inputCount = s.inputCount ∧ n.outputPort = t.outputPort) ∧
      p.sources = l.sources ∧ p.sinks = r.sinks ∧ p.isCompleted = true ∧ (l.WiringLaw → r.WiringLaw → p.WiringLaw) := by
  subst hsinks
  have hready : MergeReady l r UL UR noopId := ⟨built_sound hl, built_sound hr, hdis, hnodup, hfresh, hsources.symm⟩
  rw [Pipeline.isCompleted_iff] at hlc hrc
  obtain ⟨p, hp, hm, -, -⟩ := hready.merge hlc hrc hln hrn
  have hported := Ported.merged hready hm (built_ported hl) (built_ported hr) hlc hrc
  refine ⟨p, hp, hm.keys, fun u v => ?_, fun i a b ha hb => ?_, hm.sources, hm.sinks,
    Pipeline.isCompleted_iff.2 hm.leaves, fun hwl hwr => ?_⟩
  · rw [hm.edges]
    -- nothing leads out of a sink or into a source, so that only the other end of an edge has a new name
    constructor
    · rintro (⟨b, hb, rfl⟩ | ⟨a, ha, rfl⟩)
      · exact Or.inl ⟨u, b, hb, (mergedName_of_notMem (fun hs => hready.soundL.sinks_out u hs b hb)).symm, rfl⟩
      · exact Or.inr ⟨a, v, ha, rfl, (mergedName_of_notMem (fun hs => hready.soundR.sources_in v hs a ha)).symm⟩
    · rintro (⟨a, b, hab, rfl, rfl⟩ | ⟨a, b, hab, rfl, rfl⟩)
      · rw [mergedName_of_notMem (fun hs => hready.soundL.sinks_out a hs b hab)]
        exact Or.inl ⟨b, hab, rfl⟩
      · rw [mergedName_of_notMem (fun hs => hready.soundR.sources_in b hs a hab)]
        exact Or.inr ⟨a, hab, rfl⟩
  · obtain ⟨s, t, hs, ht, hn⟩ := hm.noop i a b ha hb
    exact ⟨s, t, _, hs, ht, hn, rfl, rfl, rfl⟩
  · rw [(built_ported hl).wiringLaw_iff] at hwl
    rw [(built_ported hr).wiringLaw_iff] at hwr
    rw [hported.wiringLaw_iff]
    exact hwl.merged hready hm (built_ported hl) (built_ported hr) hwr

/-- Two sinks and two sources: each pair gives way to a `NoOpTransform` between what was before the sink and what was
behind the source. -/
theorem merge_structure_two : ∃ l r p :
    Pipeline Nat, l.sinks = [2, 4] ∧ r.sources = [5, 6] ∧ l.mergePipeline r (9 + ·) = .ok p ∧
    (p.Edge 1 9 ∧ p.Edge 9 8) ∧ p.Edge 3 10 ∧ p.Edge 10 7 := by
  have hl := built_ofCalls (V := Nat) (fun _ => True) {} [.addSource 1 "source" (.generate (fun _ => none)),
    .setSinkTo 2 "sink" .consume (.single 1), .addSource 3 "source" (.generate (fun _ => none)),
      .setSinkTo 4 "sink" .consume (.single 3)]
  have hr := built_ofCalls (V := Nat) (fun _ => True) {} [.addSource 5 "source" (.generate (fun _ => none)),
    .addSource 6 "source" (.generate (fun _ => none)), .setSinkTo 7 "sink" .consume (.single 6),
      .setSinkTo 8 "sink" .consume (.single 5)]
  obtain ⟨p, hp, -, hedges, -⟩ :=
    merge_structure (k := 2) hl hr (by decide) (by decide) (by decide) (by decide) (by decide) rfl rfl
    (show ((List.range 2).map (9 + ·)).Nodup by decide) (by decide)
  refine ⟨_, _, p, rfl, rfl, hp, ⟨?_, ?_⟩, ?_, ?_⟩
  · exact (hedges 1 9).2 (Or.inl ⟨1, 2, by decide, by decide, by decide⟩)
  · exact (hedges 9 8).2 (Or.inr ⟨5, 8, by decide, by decide, by decide⟩)
  · exact (hedges 3 10).2 (Or.inl ⟨3, 4, by decide, by decide, by decide⟩)
  · exact (hedges 10 7).2 (Or.inr ⟨6, 7, by decide, by decide, by decide⟩)

end Tunnel
