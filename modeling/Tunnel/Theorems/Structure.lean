import Tunnel.Merge

/-!
# The structure of every pipeline the builder makes

`MergePipeline` keeps the invariant of the builder (`Sound.merged`), so that every pipeline a sequence of builder calls
reaches has it (`built_sound`); `built_structure` spells out what it says of `nodes_`, `dags_`, `leaves_`, `sources_`
and `sinks_`.
-/

namespace Tunnel

open Lib

variable {V : Type}

variable {p : Pipeline V} {U : Finset Id} {u : Id}

theorem Sound.mono {U' : Finset Id} (h : Sound p U) (hU : U ⊆ U') : Sound p U' :=
  { h with keys := fun _ hj => hU (h.keys hj) }

/-- No class is both: a source is no sink. -/
theorem Sound.source_not_sink (h : Sound p U) (hu : u ∈ p.sources) : u ∉ p.sinks := by
  intro hs
  obtain ⟨n, hn, hk⟩ := (h.sources_iff u).1 hu
  obtain ⟨m, hm, hk'⟩ := (h.sinks_iff u).1 hs
  rw [hn] at hm
  cases hm
  cases hnk : n.kind <;> rw [hnk] at hk hk' <;> simp [Kind.isSource, Kind.isSink] at hk hk'

/-- In a completed pipeline every processor that is no sink has a successor. -/
theorem Sound.exists_succ (h : Sound p U) (hc : p.leaves = ∅) (hu : u ∈ p.nodes.keys) (hs : u ∉ p.sinks) :
    ∃ v, p.Edge u v := by
  by_contra hn
  have := (h.leaves_iff u).2 ⟨hu, hs, fun v hv => hn ⟨v, hv⟩⟩
  rw [hc] at this
  simp at this

/-- The processor made of a sink and a source is a `NoOpTransform`. -/
theorem mergeSinkAndSource_kind (s t : Processor V) : (Pipeline.mergeSinkAndSource s t).kind = .transform .noOp := rfl

/-- A processor of a merge is one of the left, one of the right or one of the new ones. -/
theorem Merged.get_cases {l r : Pipeline V} {noopId : Nat → Id} (h : Merged l r noopId p) {n : Processor V}
    (hn : p.nodes.get u = some n) :
    (u ∉ l.sinks ∧ l.nodes.get u = some n) ∨ (u ∉ r.sources ∧ r.nodes.get u = some n) ∨
      ∃ (i : Nat) (a b : Id) (s t : Processor V), u = noopId i ∧ l.sinks[i]? = some a ∧ r.sources[i]? = some b ∧
        l.nodes.get a = some s ∧ r.nodes.get b = some t ∧ n = Pipeline.mergeSinkAndSource s t := by
  rcases (h.keys u).1 (PMap.mem_keys_of_get hn) with ⟨hu, hs⟩ | ⟨hu, hs⟩ | ⟨i, hi, rfl⟩
  · exact Or.inl ⟨hs, (h.left u hu hs).symm.trans hn⟩
  · exact Or.inr (Or.inl ⟨hs, (h.right u hu hs).symm.trans hn⟩)
  · have ha := List.getElem?_eq_getElem hi
    have hb := List.getElem?_eq_getElem (h.len ▸ hi)
    obtain ⟨s, t, hs, ht, hm⟩ := h.noop i _ _ ha hb
    rw [hm] at hn
    exact Or.inr (Or.inr ⟨i, _, _, s, t, rfl, ha, hb, hs, ht, (Option.some.inj hn).symm⟩)

section

variable {l r p : Pipeline V} {UL UR : Finset Id} {noopId : Nat → Id} {a b u v : Id}

section

variable (hr : MergeReady l r UL UR noopId)
include hr

/-- Where an edge of the left leads in the merge. -/
theorem MergeReady.edge_left (he : l.Edge u b) :
    u ∈ l.nodes.keys ∧ ((b ∉ l.sinks ∧ mergedName l.sinks noopId b = b) ∨
      ∃ i < l.sinks.length, l.sinks[i]? = some b ∧ mergedName l.sinks noopId b = noopId i) := by
  refine ⟨(hr.soundL.edge_mem u b he).1, ?_⟩
  by_cases hb : b ∈ l.sinks
  · exact Or.inr (hr.exists_name.1 hb)
  · exact Or.inl ⟨hb, mergedName_of_notMem hb⟩

/-- Where an edge of the right comes from in the merge. -/
theorem MergeReady.edge_right (he : r.Edge a v) :
    v ∈ r.nodes.keys ∧ v ∉ r.sources ∧ ((a ∉ r.sources ∧ mergedName r.sources noopId a = a) ∨
      ∃ i < l.sinks.length, r.sources[i]? = some a ∧ mergedName r.sources noopId a = noopId i) := by
  refine ⟨(hr.soundR.edge_mem a v he).2, fun hv => hr.soundR.sources_in v hv a he, ?_⟩
  by_cases ha : a ∈ r.sources
  · exact Or.inr (hr.exists_name.2 ha)
  · exact Or.inl ⟨ha, mergedName_of_notMem ha⟩

section

variable (h : Merged l r noopId p)
include h

theorem Merged.edge_mem (he : p.Edge u v) :
    u ∈ p.nodes.keys ∧ v ∈ p.nodes.keys := by
  rw [h.keys, h.keys]
  rcases (h.edges u v).1 he with ⟨b, hb, rfl⟩ | ⟨a, ha, rfl⟩
  · obtain ⟨hu, hb'⟩ := hr.edge_left hb
    refine ⟨Or.inl ⟨hu, fun hs => hr.soundL.sinks_out u hs b hb⟩, ?_⟩
    rcases hb' with ⟨hbs, hn⟩ | ⟨i, hi, -, hn⟩
    · rw [hn]
      exact Or.inl ⟨(hr.soundL.edge_mem u b hb).2, hbs⟩
    · exact Or.inr (Or.inr ⟨i, hi, hn⟩)
  · obtain ⟨hv, hvs, ha'⟩ := hr.edge_right ha
    refine ⟨?_, Or.inr (Or.inl ⟨hv, hvs⟩)⟩
    rcases ha' with ⟨has, hn⟩ | ⟨i, hi, -, hn⟩
    · rw [hn]
      exact Or.inr (Or.inl ⟨(hr.soundR.edge_mem a v ha).1, has⟩)
    · exact Or.inr (Or.inr ⟨i, hi, hn⟩)

/-- The left is ranked below the new processors, the right above them. -/
theorem Merged.ranked : Ranked p.Edge := by
  have hnL : ∀ {i}, i < l.sinks.length → noopId i ∉ l.nodes.keys := hr.notMem_left
  have hnR : ∀ {i}, i < l.sinks.length → noopId i ∉ r.nodes.keys := hr.notMem_right
  have hRL : ∀ {u}, u ∈ r.nodes.keys → u ∉ l.nodes.keys := fun hu hm => hr.left_notMem_right hm hu
  obtain ⟨rl, hrl⟩ := hr.soundL.ranked
  obtain ⟨rr, hrr⟩ := hr.soundR.ranked
  refine ⟨fun x => if x ∈ l.nodes.keys then rl x
    else if x ∈ r.nodes.keys then l.nodes.keys.sup rl + 2 + rr x else l.nodes.keys.sup rl + 1, fun u v he => ?_⟩
  rcases (h.edges u v).1 he with ⟨b, hb, rfl⟩ | ⟨a, ha, rfl⟩
  · obtain ⟨hu, hb'⟩ := hr.edge_left hb
    have hle := Finset.le_sup (f := rl) hu
    rcases hb' with ⟨-, hn⟩ | ⟨i, hi, -, hn⟩
    · simp only [hn, hu, (hr.soundL.edge_mem u b hb).2, if_true]
      exact hrl u b hb
    · simp only [hn, hu, hnL hi, hnR hi, if_true, if_false]
      omega
  · obtain ⟨hv, -, ha'⟩ := hr.edge_right ha
    rcases ha' with ⟨-, hn⟩ | ⟨i, hi, -, hn⟩
    · have := hrr a v ha
      have hmem := (hr.soundR.edge_mem a v ha).1
      simp only [hn, hv, hRL hv, hmem, hRL hmem, if_true, if_false]
      omega
    · simp only [hn, hv, hRL hv, hnL hi, hnR hi, if_true, if_false]
      omega

/-- Every processor of the merge that is no sink has a successor. -/
theorem Merged.exists_succ (hlc : l.leaves = ∅) (hrc : r.leaves = ∅)
    (hu : u ∈ p.nodes.keys) (hs : u ∉ p.sinks) : ∃ v, p.Edge u v := by
  rw [h.sinks] at hs
  rcases (h.keys u).1 hu with ⟨hu, hus⟩ | ⟨hu, hus⟩ | ⟨i, hi, rfl⟩
  · obtain ⟨v, hv⟩ := hr.soundL.exists_succ hlc hu hus
    exact ⟨_, (h.edges u _).2 (Or.inl ⟨v, hv, rfl⟩)⟩
  · obtain ⟨v, hv⟩ := hr.soundR.exists_succ hrc hu hs
    exact ⟨v, (h.edges u v).2 (Or.inr ⟨u, hv, (mergedName_of_notMem hus).symm⟩)⟩
  · have hb := List.getElem?_eq_getElem (hr.len ▸ hi)
    have hmem := List.mem_of_getElem? hb
    obtain ⟨v, hv⟩ := hr.soundR.exists_succ hrc (hr.soundR.source_mem hmem) (hr.soundR.source_not_sink hmem)
    exact ⟨v, (h.edges _ v).2 (Or.inr ⟨_, hv, (mergedName_getElem noopId hr.soundR.sources_nodup hb).symm⟩)⟩

theorem Merged.sources_iff :
    u ∈ p.sources ↔ ∃ n, p.nodes.get u = some n ∧ n.kind.isSource = true := by
  rw [h.sources]
  constructor
  · intro hu
    obtain ⟨n, hn, hk⟩ := (hr.soundL.sources_iff u).1 hu
    exact ⟨n, (h.left u (hr.soundL.source_mem hu) (hr.soundL.source_not_sink hu)).trans hn, hk⟩
  · rintro ⟨n, hn, hk⟩
    rcases h.get_cases hn with ⟨-, hn⟩ | ⟨hs, hn⟩ | ⟨i, a, b, s, t, -, -, -, -, -, rfl⟩
    · exact (hr.soundL.sources_iff u).2 ⟨n, hn, hk⟩
    · exact absurd ((hr.soundR.sources_iff u).2 ⟨n, hn, hk⟩) hs
    · nomatch hk

theorem Merged.sinks_iff :
    u ∈ p.sinks ↔ ∃ n, p.nodes.get u = some n ∧ n.kind.isSink = true := by
  rw [h.sinks]
  constructor
  · intro hu
    obtain ⟨n, hn, hk⟩ := (hr.soundR.sinks_iff u).1 hu
    exact ⟨n, (h.right u (hr.soundR.sink_mem hu) (fun hs => hr.soundR.source_not_sink hs hu)).trans hn, hk⟩
  · rintro ⟨n, hn, hk⟩
    rcases h.get_cases hn with ⟨hs, hn⟩ | ⟨-, hn⟩ | ⟨i, a, b, s, t, -, -, -, -, -, rfl⟩
    · exact absurd ((hr.soundL.sinks_iff u).2 ⟨n, hn, hk⟩) hs
    · exact (hr.soundR.sinks_iff u).2 ⟨n, hn, hk⟩
    · nomatch hk

theorem Merged.sources_in (hu : u ∈ p.sources) : ¬p.Edge v u := by
  intro he
  rw [h.sources] at hu
  have huL := hr.soundL.source_mem hu
  rcases (h.edges v u).1 he with ⟨b, hb, hub⟩ | ⟨a, ha, -⟩
  · rcases (hr.edge_left hb).2 with ⟨-, hn⟩ | ⟨i, hi, -, hn⟩
    · exact hr.soundL.sources_in u hu v ((hub.trans hn) ▸ hb)
    · exact hr.notMem_left hi ((hub.trans hn) ▸ huL)
  · exact hr.left_notMem_right huL (hr.edge_right ha).1

theorem Merged.sinks_out (hu : u ∈ p.sinks) : ¬p.Edge u v := by
  intro he
  rw [h.sinks] at hu
  have huR := hr.soundR.sink_mem hu
  rcases (h.edges u v).1 he with ⟨b, hb, -⟩ | ⟨a, ha, hua⟩
  · exact hr.left_notMem_right (hr.edge_left hb).1 huR
  · rcases (hr.edge_right ha).2.2 with ⟨-, hn⟩ | ⟨i, hi, -, hn⟩
    · exact hr.soundR.sinks_out u hu v ((hua.trans hn) ▸ ha)
    · exact hr.notMem_right hi ((hua.trans hn) ▸ huR)

/-- The merge of two completed pipelines keeps the invariant of the builder. -/
theorem Sound.merged (hlc : l.leaves = ∅) (hrc : r.leaves = ∅) :
    Sound p (UL ∪ UR ∪ ((List.range l.sinks.length).map noopId).toFinset) := by
  refine ⟨fun u hu => ?_, fun u v => h.edge_mem hr, h.ranked hr, h.dagKeys, fun u => ?_, fun u => h.sources_iff hr,
    fun u => h.sinks_iff hr, fun u hu v => h.sources_in hr hu, fun u hu v => h.sinks_out hr hu, by
    rw [h.sources]; exact hr.soundL.sources_nodup, by rw [h.sinks]; exact hr.soundR.sinks_nodup⟩
  · rcases (h.keys u).1 hu with ⟨hu, -⟩ | ⟨hu, -⟩ | ⟨i, hi, rfl⟩
    · exact Finset.mem_union_left _ (Finset.mem_union_left _ (hr.soundL.keys hu))
    · exact Finset.mem_union_left _ (Finset.mem_union_right _ (hr.soundR.keys hu))
    · exact Finset.mem_union_right _ (List.mem_toFinset.2 (List.mem_map.2 ⟨i, List.mem_range.2 hi, rfl⟩))
  · rw [h.leaves]
    simp only [Finset.notMem_empty, false_iff]
    rintro ⟨hu, hs, hno⟩
    obtain ⟨v, hv⟩ := h.exists_succ hr hlc hrc hu hs
    exact hno v hv

end

end

end

/-- Every pipeline that builder calls reach satisfies the invariant of the builder. -/
theorem built_sound {P : Call V → Prop} (h : Built P p U) : Sound p U := by
  induction h with
  | new o => exact sound_new o
  | call c _ _ hdis hid he hrun ih =>
    exact ih.grows (call_grows False False c ih.keys (fun l hl => ((ih.leaves_iff l).1 hl).1) hdis hid he nofun
      nofun hrun)
  | mergePipeline noopId _ _ hdis hnd hnew hrun ihl ihr =>
    obtain ⟨hlc, hrc, ⟨-, rfl⟩ | ⟨-, rfl⟩ | ⟨-, -, hready, hm⟩⟩ := mergePipeline_ok ihl ihr hdis hnd hnew hrun
    · exact ihr.mono (fun x hx => Finset.mem_union_left _ (Finset.mem_union_right _ hx))
    · exact ihl.mono (fun x hx => Finset.mem_union_left _ (Finset.mem_union_left _ hx))
    · exact Sound.merged hready hm hlc hrc

/-- The structure of a pipeline that builder calls (any of them, `MergePipeline` included, with any arguments) reach:
every edge joins two nodes, there is no cycle, `leaves_` are the nodes without an outgoing edge that are no sinks,
nothing leads into a source or out of a sink, `sources_` and `sinks_` are disjoint lists of nodes without repetitions,
and the pipeline is completed exactly when every node that is no sink has a successor. -/
theorem built_structure {p : Pipeline V} {U : Finset Id} (h : Built (fun _ => True) p U) :
    (∀ u v, p.Edge u v → u ∈ p.nodes.keys ∧ v ∈ p.nodes.keys) ∧
    (∀ u, ¬Relation.TransGen p.Edge u u) ∧
    (∀ u, u ∈ p.leaves ↔ u ∈ p.nodes.keys ∧ u ∉ p.sinks ∧ ∀ v, ¬p.Edge u v) ∧
    (∀ u ∈ p.sources, ∀ v, ¬p.Edge v u) ∧
    (∀ u ∈ p.sinks, ∀ v, ¬p.Edge u v) ∧
    p.sources.Nodup ∧ p.sinks.Nodup ∧ p.sources.Disjoint p.sinks ∧
    (∀ u ∈ p.sources, u ∈ p.nodes.keys) ∧ (∀ u ∈ p.sinks, u ∈ p.nodes.keys) ∧
    (p.isCompleted = true ↔ ∀ u ∈ p.nodes.keys, u ∉ p.sinks → ∃ v, p.Edge u v) := by
  have hs := built_sound h
  refine ⟨hs.edge_mem, hs.ranked.acyclic, hs.leaves_iff, hs.sources_in, hs.sinks_out, hs.sources_nodup, hs.sinks_nodup,
    fun u hu hk => hs.source_not_sink hu hk, fun u hu => hs.source_mem hu, fun u hu => hs.sink_mem hu, ?_⟩
  simp only [Pipeline.isCompleted, decide_eq_true_eq]
  constructor
  · intro hc u hu hk
    exact hs.exists_succ hc hu hk
  · intro hall
    rw [Finset.eq_empty_iff_forall_notMem]
    intro u hu
    obtain ⟨hu, hk, hno⟩ := (hs.leaves_iff u).1 hu
    obtain ⟨v, hv⟩ := hall u hu hk
    exact hno v hv

/-- A source, a transform behind it and a sink behind that: a completed pipeline. -/
theorem built_structure_chain :
    ∃ (p : Pipeline Nat) (U : Finset Id), Built (fun _ => True) p U ∧ p.nodes.keys = {1, 2, 3} ∧
    ¬Relation.TransGen p.Edge 1 1 ∧
      ∀ u ∈ p.nodes.keys, u ∉ p.sinks → ∃ v, p.Edge u v := by
  have h := built_ofCalls (V := Nat) (fun _ => True) {} [.addSource 1 "source" (.generate (fun _ => none)),
    .addTransform 1 2 "copy" .noOp, .setSink 3 "sink" .consume ⟨[2], by decide⟩]
  obtain ⟨-, hacyclic, -, -, -, -, -, -, -, -, hcomplete⟩ := built_structure h
  exact ⟨_, _, h, by decide, hacyclic 1, hcomplete.1 (by decide)⟩

end Tunnel
